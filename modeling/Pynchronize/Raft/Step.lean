import Pynchronize.Raft.Cluster

/-!
# The cases of a step

`Stepped` lists what each possible action does, with its guards; a fact about
steps is proved by cases on it.
-/

namespace Pynchronize.Cluster

open Lib

variable {N C : Type*} [DecidableEq N]

inductive Stepped (cfg : Config N) (s : Cluster N C) : Action N C → Cluster N C → Prop
  | electionTimeout {i : N} {timeout now : ℚ} (hi : i ∈ cfg.nodes)
      (hs : (s.nodes i).state ≠ .leader) (hsleep : (s.nodes i).electionTask = .sleeping) :
      Stepped cfg s (.electionTimeout i timeout now)
        ((s.setNode i ((s.nodes i).startElection i)).broadcastRequestVote cfg i)
  | electionEnds {i : N} {received : List N} {sends : List (N × ℕ)} (hi : i ∈ cfg.nodes)
      (hsends : (s.nodes i).electionTask = .broadcasting sends) :
      Stepped cfg s (.electionEnds i received) (s.countVotes cfg i
        ((s.responses sends received).foldl RaftNode.collectVote (s.nodes i)))
  | becameLeader {i : N} (hi : i ∈ cfg.nodes)
      (hbecoming : (s.nodes i).electionTask = .becomingLeader) :
      Stepped cfg s (.becameLeader i) (s.startHeartbeat i)
  | propose {i : N} {command : C} (hi : i ∈ cfg.nodes) (hs : (s.nodes i).state = .leader) :
      Stepped cfg s (.propose i command)
        (((s.setNode i ((s.nodes i).appendCommand command)).spawn
          ⟨i, .propose, .looping⟩).sendAppendEntries cfg s.tasks.length ⟨i, .propose, .looping⟩)
  | heartbeat {k : ℕ} {i : N} (ht : s.tasks[k]? = some ⟨i, .heartbeat, .looping⟩)
      (hs : (s.nodes i).state = .leader) :
      Stepped cfg s (.heartbeat k) (s.sendAppendEntries cfg k ⟨i, .heartbeat, .looping⟩)
  | heartbeatEnds {k : ℕ} {i : N} (ht : s.tasks[k]? = some ⟨i, .heartbeat, .looping⟩)
      (hs : (s.nodes i).state ≠ .leader) :
      Stepped cfg s (.heartbeat k) (s.setPc k ⟨i, .heartbeat, .looping⟩ .returned)
  | reply {k j : ℕ} {i : N} {kind : TaskKind} {o : RaftNode.Outgoing N C} {rest : List N}
      {response : Message N Response} (ht : s.tasks[k]? = some ⟨i, kind, .sending o j rest⟩)
      (hans : s.answerOf j = some response) :
      Stepped cfg s (.reply k)
        (s.sendReturns cfg k ⟨i, kind, .sending o j rest⟩ o rest (some response))
  | noReply {k j : ℕ} {i : N} {kind : TaskKind} {o : RaftNode.Outgoing N C} {rest : List N}
      (ht : s.tasks[k]? = some ⟨i, kind, .sending o j rest⟩) :
      Stepped cfg s (.noReply k) (s.sendReturns cfg k ⟨i, kind, .sending o j rest⟩ o rest none)
  | resumeSending {k : ℕ} {i : N} {kind : TaskKind} {rest : List N}
      (ht : s.tasks[k]? = some ⟨i, kind, .steppingDown rest⟩) :
      Stepped cfg s (.resume k) (s.sendNext cfg k ⟨i, kind, .steppingDown rest⟩ rest)
  | resumeApplying {k : ℕ} {i : N} {kind : TaskKind}
      (ht : s.tasks[k]? = some ⟨i, kind, .applying⟩) :
      Stepped cfg s (.resume k) (s.applied k ⟨i, kind, .applying⟩ (s.nodes i).applyCommitted)
  | raise {k : ℕ} {i : N} {kind : TaskKind} (ht : s.tasks[k]? = some ⟨i, kind, .applying⟩) :
      Stepped cfg s (.raise k) (s.setPc k ⟨i, kind, .applying⟩ .raised)
  | deliver {j : ℕ} {now : ℚ} {r : Rpc N C} (hr : s.rpcs[j]? = some r) (hst : r.stage = .inFlight) :
      Stepped cfg s (.deliver j now) (s.deliver j r now)
  | resumeHandling {j : ℕ} {now : ℚ} {r : Rpc N C} (hr : s.rpcs[j]? = some r)
      (hst : r.stage = .steppingDown) :
      Stepped cfg s (.resumeHandler j now) (s.handle j r now)
  | resumeHandlerApplying {j : ℕ} {now : ℚ} {r : Rpc N C} (hr : s.rpcs[j]? = some r)
      (hst : r.stage = .applying) :
      Stepped cfg s (.resumeHandler j now) (s.handlerApplied j r)
  | raiseHandler {j : ℕ} {r : Rpc N C} (hr : s.rpcs[j]? = some r) (hst : r.stage = .applying) :
      Stepped cfg s (.raiseHandler j) (s.setStage j r .lost)
  | crash {i : N} {now : ℚ} (hi : i ∈ cfg.nodes) :
      Stepped cfg s (.crash i now) (s.restart i (s.nodes i).stateFile now)
  | crashSaving {i : N} {now : ℚ} (hi : i ∈ cfg.nodes) :
      Stepped cfg s (.crashSaving i now) (s.restart i none now)

theorem stepped {cfg : Config N} {s s' : Cluster N C} {a : Action N C}
    (h : s.step cfg a = some s') : Stepped cfg s a s' := by
  cases a with
  | electionTimeout i timeout now =>
    simp only [step] at h
    split at h
    · split at h
      · obtain rfl := Option.some.inj h
        rename_i hsleep hcond
        exact .electionTimeout hcond.1 hcond.2.1 hsleep
      · cases h
    · cases h
  | electionEnds i received =>
    simp only [step] at h
    split at h
    · split at h
      · obtain rfl := Option.some.inj h
        rename_i hsends hi
        exact .electionEnds hi hsends
      · cases h
    · cases h
  | becameLeader i =>
    simp only [step] at h
    split at h
    · split at h
      · obtain rfl := Option.some.inj h
        rename_i hbecoming hi
        exact .becameLeader hi hbecoming
      · cases h
    · cases h
  | propose i command =>
    simp only [step] at h
    split at h
    · obtain rfl := Option.some.inj h
      rename_i hcond
      exact .propose hcond.1 hcond.2
    · cases h
  | heartbeat k =>
    simp only [step] at h
    split at h
    · rename_i ht
      split at h
      · obtain rfl := Option.some.inj h
        rename_i hs
        exact .heartbeat ht hs
      · obtain rfl := Option.some.inj h
        rename_i hs
        exact .heartbeatEnds ht hs
    · cases h
  | reply k =>
    simp only [step] at h
    split at h
    · rename_i ht
      obtain ⟨response, hans, rfl⟩ := Option.map_eq_some_iff.mp h
      exact .reply ht hans
    · cases h
  | noReply k =>
    simp only [step] at h
    split at h
    · rename_i ht
      obtain rfl := Option.some.inj h
      exact .noReply ht
    · cases h
  | resume k =>
    simp only [step] at h
    split at h
    · rename_i ht
      obtain rfl := Option.some.inj h
      exact .resumeSending ht
    · rename_i ht
      obtain rfl := Option.some.inj h
      exact .resumeApplying ht
    · cases h
  | raise k =>
    simp only [step] at h
    split at h
    · rename_i ht
      obtain rfl := Option.some.inj h
      exact .raise ht
    · cases h
  | deliver j now =>
    simp only [step] at h
    split at h
    · split at h
      · obtain rfl := Option.some.inj h
        rename_i hr _ hst
        exact .deliver hr hst
      · cases h
    · cases h
  | resumeHandler j now =>
    simp only [step] at h
    split at h
    · rename_i hr
      split at h
      · obtain rfl := Option.some.inj h
        rename_i hst
        exact .resumeHandling hr hst
      · obtain rfl := Option.some.inj h
        rename_i hst
        exact .resumeHandlerApplying hr hst
      · cases h
    · cases h
  | raiseHandler j =>
    simp only [step] at h
    split at h
    · split at h
      · obtain rfl := Option.some.inj h
        rename_i hr _ hst
        exact .raiseHandler hr hst
      · cases h
    · cases h
  | crash i now =>
    simp only [step] at h
    split at h
    · obtain rfl := Option.some.inj h
      rename_i hi
      exact .crash hi
    · cases h
  | crashSaving i now =>
    simp only [step] at h
    split at h
    · obtain rfl := Option.some.inj h
      rename_i hi
      exact .crashSaving hi
    · cases h

end Pynchronize.Cluster
