import Pynchronize.Raft.Safety
import Pynchronize.Raft.Trace

/-!
# The state file

`_save_state` dumps `persistent.to_dict()` as JSON, and `_load_state` reads it
back through `from_dict`. Every step that changes the term, the vote or the log
saves before its next `await`, so at every `await` a restart would find the
persistent state as it is (`restart_recovers`).
-/

namespace Pynchronize

open Lib

/-! ## What json writes and reads -/

/-- A value of a state file. Node ids are strings; a command is whatever the client proposed. -/
inductive FileValue (N C : Type*) where
  | null
  | int (n : ℕ)
  | nodeId (id : N)
  | command (c : C)
  | list (items : List (FileValue N C))
  | dict (items : List (String × FileValue N C))

namespace FileValue

variable {N C : Type*}

/-- `data[key]`, `none` when it raises. -/
def item : FileValue N C → String → Option (FileValue N C)
  | .dict items, key => (items.reverse.find? (·.1 = key)).map Prod.snd
  | _, _ => none

/-! A value of another type than the field has is not considered; Python would take it over. -/

def toInt : FileValue N C → Option ℕ
  | .int n => some n
  | _ => none

def toOptionalId : FileValue N C → Option (Option N)
  | .null => some none
  | .nodeId id => some (some id)
  | _ => none

def toCommand : FileValue N C → Option C
  | .command c => some c
  | _ => none

def toList : FileValue N C → Option (List (FileValue N C))
  | .list items => some items
  | _ => none

section Reload

/- `json.load` of what `json.dump` wrote. Of commands it is only known what `roundTrip` says,
   which is `none` when one of the two raises. -/
variable (roundTrip : C → Option C)

mutual

def reload : FileValue N C → Option (FileValue N C)
  | .null => some .null
  | .int n => some (.int n)
  | .nodeId id => some (.nodeId id)
  | .command c => (roundTrip c).map .command
  | .list items => (reloadList items).map .list
  | .dict items => (reloadItems items).map .dict

def reloadList : List (FileValue N C) → Option (List (FileValue N C))
  | [] => some []
  | v :: rest => do
    let v ← reload v
    let rest ← reloadList rest
    return v :: rest

def reloadItems : List (String × FileValue N C) → Option (List (String × FileValue N C))
  | [] => some []
  | (key, v) :: rest => do
    let v ← reload v
    let rest ← reloadItems rest
    return (key, v) :: rest

end

variable {roundTrip}

mutual

theorem reload_eq (hjson : ∀ c, roundTrip c = some c) (v : FileValue N C) :
    v.reload roundTrip = some v := by
  cases v with
  | null => rfl
  | int n => rfl
  | nodeId id => rfl
  | command c => simp [reload, hjson]
  | list items => simp [reload, reloadList_eq hjson items]
  | dict items => simp [reload, reloadItems_eq hjson items]

theorem reloadList_eq (hjson : ∀ c, roundTrip c = some c) (items : List (FileValue N C)) :
    reloadList roundTrip items = some items := by
  cases items with
  | nil => rfl
  | cons v rest => simp [reloadList, reload_eq hjson v, reloadList_eq hjson rest]

theorem reloadItems_eq (hjson : ∀ c, roundTrip c = some c)
    (items : List (String × FileValue N C)) : reloadItems roundTrip items = some items := by
  cases items with
  | nil => rfl
  | cons kv rest => simp [reloadItems, reload_eq hjson kv.2, reloadItems_eq hjson rest]

end

end Reload

end FileValue

/-! ## to_dict and from_dict -/

variable {N C : Type*}

namespace LogEntry

def toDict (e : LogEntry C) : FileValue N C :=
  .dict [("term", .int e.term), ("index", .int e.index), ("command", .command e.command)]

def fromDict (data : FileValue N C) : Option (LogEntry C) :=
  match (data.item "term").bind FileValue.toInt, (data.item "index").bind FileValue.toInt,
    (data.item "command").bind FileValue.toCommand with
  | some term, some index, some command => some { term, index, command }
  | _, _, _ => none

theorem fromDict_toDict (e : LogEntry C) :
    fromDict (e.toDict : FileValue N C) = some e := rfl

end LogEntry

namespace PersistentState

def toDict (p : PersistentState N C) : FileValue N C :=
  .dict
    [("current_term", .int p.currentTerm),
      ("voted_for", match p.votedFor with
        | some id => .nodeId id
        | none => .null),
      ("log", .list (p.log.map LogEntry.toDict))]

def fromDict (data : FileValue N C) : Option (PersistentState N C) :=
  match (data.item "current_term").bind FileValue.toInt,
    (data.item "voted_for").bind FileValue.toOptionalId,
    ((data.item "log").bind FileValue.toList).bind fun items => items.mapM LogEntry.fromDict with
  | some currentTerm, some votedFor, some log => some { currentTerm, votedFor, log }
  | _, _, _ => none

theorem mapM_fromDict (log : List (LogEntry C)) :
    (log.map (LogEntry.toDict (N := N))).mapM LogEntry.fromDict = some log := by
  induction log with
  | nil => rfl
  | cons e log ih => simp [LogEntry.fromDict_toDict, ih]

theorem fromDict_toDict (p : PersistentState N C) : fromDict p.toDict = some p := by
  obtain ⟨currentTerm, votedFor, log⟩ := p
  have hlog : ((toDict ⟨currentTerm, votedFor, log⟩).item "log").bind FileValue.toList =
      some (log.map (LogEntry.toDict (N := N))) := rfl
  unfold fromDict
  rw [hlog, Option.bind_some, mapM_fromDict]
  cases votedFor with
  | none => rfl
  | some id => rfl

end PersistentState

/-! ## Saving and loading -/

namespace RaftNode

/-- The value that the last `_save_state` dumped into the file. -/
def dumped (n : RaftNode N C) : Option (FileValue N C) := n.stateFile.map PersistentState.toDict

/-- `_load_state`: the persistent state of a RaftNode that starts over this file. -/
def loadState (roundTrip : C → Option C) (file : Option (FileValue N C)) : PersistentState N C :=
  ((file.bind (FileValue.reload roundTrip)).bind PersistentState.fromDict).getD {}

theorem dumped_saveState (n : RaftNode N C) : n.saveState.dumped = some n.persistent.toDict := rfl

theorem loadState_dumped {roundTrip : C → Option C} (hjson : ∀ c, roundTrip c = some c)
    (n : RaftNode N C) : loadState roundTrip n.dumped = n.stateFile.getD {} := by
  unfold loadState dumped
  cases n.stateFile with
  | none => rfl
  | some p =>
    show (((p.toDict).reload roundTrip).bind PersistentState.fromDict).getD {} = p
    rw [FileValue.reload_eq hjson]
    show (PersistentState.fromDict p.toDict).getD {} = p
    rw [PersistentState.fromDict_toDict]
    rfl

end RaftNode

/-! ## Runs -/

namespace Cluster

variable [DecidableEq N] {cfg : Config N}

theorem saved_run {s s' : Cluster N C} (hsaved : ∀ j, (s.nodes j).Saved) {acts : List (Action N C)}
    (hrun : s.run cfg acts = some s') (j : N) : (s'.nodes j).Saved := by
  induction acts generalizing s with
  | nil => exact Option.some.inj hrun ▸ hsaved j
  | cons a rest ih =>
    obtain ⟨t, ht, hrest⟩ := Transition.run_cons hrun
    exact ih (saved_step hsaved ht) hrest

/-- RaftNodes started over the given files, with any requests under way to them: at every `await`
    of every run, loading the state file gives the persistent state. -/
theorem restart_recovers {roundTrip : C → Option C} (hjson : ∀ c, roundTrip c = some c)
    {files : N → Option (PersistentState N C)} {start : N → ℚ} {rpcs : List (Rpc N C)}
    {acts : List (Action N C)} {s : Cluster N C}
    (hrun : run cfg ⟨fun i => .boot (files i) (start i), rpcs, []⟩ acts = some s) :
    (∀ i, RaftNode.loadState roundTrip (s.nodes i).dumped = (s.nodes i).persistent) ∧
      ∀ p : PersistentState N C, PersistentState.fromDict p.toDict = some p := by
  have hboot : ∀ j, (RaftNode.boot (files j) (start j)).Saved := fun _ => rfl
  refine ⟨fun i => ?_, PersistentState.fromDict_toDict⟩
  calc RaftNode.loadState roundTrip (s.nodes i).dumped
      = (s.nodes i).stateFile.getD {} := RaftNode.loadState_dumped hjson _
    _ = (s.nodes i).persistent := saved_run hboot hrun i

/-- Node 1 has taken over an entry of the leader, and would find it in its file. -/
theorem restart_recovers_replication : ∃ s : Cluster (Fin 3) ℕ,
    run threeNodes ⟨fun _ => .boot none 0, [], []⟩ (electionOfZero ++ replication) = some s ∧
      (s.nodes 1).persistent.log.length = 1 ∧
      (RaftNode.loadState some (s.nodes 1).dumped).log = (s.nodes 1).persistent.log := by
  have hrun : (run threeNodes (⟨fun _ => .boot none 0, [], []⟩ : Cluster (Fin 3) ℕ)
      (electionOfZero ++ replication)).any
      (fun s => decide ((s.nodes 1).persistent.log.length = 1)) = true := by
    decide +kernel
  obtain ⟨s, hs, hlen⟩ := (Option.any_eq_true _ _).mp hrun
  have hload := (restart_recovers (fun _ => rfl) hs).1 1
  exact ⟨s, hs, of_decide_eq_true hlen, congrArg PersistentState.log hload⟩

end Cluster

end Pynchronize
