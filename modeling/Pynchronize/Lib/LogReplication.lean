import Mathlib.Data.Finset.Card
import Mathlib.Data.List.Infix
import Mathlib.Logic.Function.Basic

/-!
Replication of a log by terms with one elected leader each, as a state machine
over arbitrary nodes and entries. The state keeps the history that the safety
argument needs: the log with which a node stands in a term, the votes with the
voter's log at that moment, the elections with their quorums, the log of every
leader and how much of it each node has acknowledged.
-/

namespace Lib

/-- Sets of voters any two of which have a member in common. -/
structure QuorumSystem (N : Type*) where
  IsQuorum : Finset N → Prop
  meet : ∀ {P Q : Finset N}, IsQuorum P → IsQuorum Q → ∃ v, v ∈ P ∧ v ∈ Q

def QuorumSystem.majority {N : Type*} [DecidableEq N] (nodes : Finset N) : QuorumSystem N where
  IsQuorum Q := Q ⊆ nodes ∧ nodes.card / 2 + 1 ≤ Q.card
  meet := by
    intro P Q hP hQ
    by_contra hne
    have hd : Disjoint P Q := Finset.disjoint_left.mpr fun v hv hv' => hne ⟨v, hv, hv'⟩
    have hu : (P ∪ Q).card ≤ nodes.card :=
      Finset.card_le_card (Finset.union_subset hP.1 hQ.1)
    rw [Finset.card_union_of_disjoint hd] at hu
    have := hP.2
    have := hQ.2
    omega

structure Replication (N E : Type*) where
  term : N → ℕ
  log : N → List E
  campaign : ℕ → N → List E
  vote : ℕ → N → Option (N × List E)
  elected : ℕ → Option (N × Finset N)
  leaderLog : ℕ → List E
  acked : ℕ → N → ℕ

/-- Change a table at one term and one node. -/
def setAt {N α : Type*} [DecidableEq N] (f : ℕ → N → α) (T : ℕ) (v : N) (x : α) : ℕ → N → α :=
  fun T' v' => if T' = T ∧ v' = v then x else f T' v'

@[simp] theorem setAt_self {N α : Type*} [DecidableEq N] (f : ℕ → N → α) (T : ℕ) (v : N) (x : α) :
    setAt f T v x T v = x := by
  simp [setAt]

theorem setAt_of_ne {N α : Type*} [DecidableEq N] {f : ℕ → N → α} {T T' : ℕ} {v v' : N} {x : α}
    (h : T' = T → v' ≠ v) : setAt f T v x T' v' = f T' v' := by
  rw [setAt, if_neg fun hc => h hc.1 hc.2]

/-- What the new value and the old ones elsewhere have, all values have. -/
theorem forall_setAt {N α : Type*} [DecidableEq N] {f : ℕ → N → α} {T : ℕ} {v : N} {x : α}
    (P : ℕ → N → α → Prop) (hself : P T v x)
    (hother : ∀ T' v', ¬(T' = T ∧ v' = v) → P T' v' (f T' v')) (T' : ℕ) (v' : N) :
    P T' v' (setAt f T v x T' v') := by
  unfold setAt
  split
  · rename_i hc
    obtain ⟨rfl, rfl⟩ := hc
    exact hself
  · rename_i hc
    exact hother T' v' hc

/-! ## Prefixes -/

theorem take_eq_of_isPrefix {α : Type*} {l l' : List α} {n : ℕ} (h : l <+: l') (hn : n ≤ l.length) :
    l'.take n = l.take n := by
  obtain ⟨r, rfl⟩ := h
  rw [List.take_append_of_le_length hn]

theorem take_succ_prefix_of_isPrefix {α : Type*} {l l' : List α} {p : ℕ} {e : α} (h : l <+: l')
    (he : l[p]? = some e) : l'.take (p + 1) = l.take (p + 1) :=
  take_eq_of_isPrefix h (List.getElem?_eq_some_iff.mp he).1

theorem getElem?_of_isPrefix {α : Type*} {l l' : List α} {p : ℕ} {e : α} (h : l <+: l')
    (he : l[p]? = some e) : l'[p]? = some e := by
  obtain ⟨r, rfl⟩ := h
  rw [List.getElem?_append_left (List.getElem?_eq_some_iff.mp he).1, he]

theorem getElem?_of_take_prefix {α : Type*} {l l' : List α} {p n : ℕ} {e : α}
    (h : l.take n <+: l') (hp : p < n) (he : l[p]? = some e) : l'[p]? = some e :=
  getElem?_of_isPrefix h (by rw [List.getElem?_take_of_lt hp, he])

/-- Of two lists that agree where both are defined, one begins with the other. -/
theorem prefix_or_prefix {α : Type*} {l l' : List α}
    (h : ∀ (p : ℕ) x x', l[p]? = some x → l'[p]? = some x' → x = x') : l <+: l' ∨ l' <+: l := by
  have key : ∀ {l l' : List α}, (∀ (p : ℕ) x x', l[p]? = some x → l'[p]? = some x' → x = x') →
      l.length ≤ l'.length → l <+: l' := by
    intro l l' h hle
    refine List.prefix_iff_getElem?.mpr fun p hp => ?_
    have hp' : l'[p]? = some (l'.get ⟨p, by omega⟩) := List.getElem?_eq_getElem _
    rw [hp', h p _ _ (List.getElem?_eq_getElem hp) hp']
  rcases Nat.le_total l.length l'.length with hle | hle
  · exact Or.inl (key h hle)
  · exact Or.inr (key (fun p x x' hx hx' => (h p x' x hx' hx).symm) hle)

namespace Replication

variable {N E : Type*}

/-! ## Operations -/

def init : Replication N E :=
  ⟨fun _ => 0, fun _ => [], fun _ _ => [], fun _ _ => none, fun _ => none, fun _ => [],
    fun _ _ => 0⟩

section Operations

variable [DecidableEq N]

def advance (A : Replication N E) (v : N) (T : ℕ) : Replication N E :=
  { A with term := Function.update A.term v T }

/-- `v` opens the next term and stands in it with its log, voting for itself. -/
def nominate (A : Replication N E) (v : N) : Replication N E :=
  { A with
    term := Function.update A.term v (A.term v + 1)
    campaign := setAt A.campaign (A.term v + 1) v (A.log v)
    vote := setAt A.vote (A.term v + 1) v (some (v, A.log v)) }

def cast (A : Replication N E) (v c : N) : Replication N E :=
  { A with vote := setAt A.vote (A.term v) v (some (c, A.log v)) }

def elect (A : Replication N E) (v : N) (Q : Finset N) : Replication N E :=
  { A with
    elected := Function.update A.elected (A.term v) (some (v, Q))
    leaderLog := Function.update A.leaderLog (A.term v) (A.log v)
    acked := setAt A.acked (A.term v) v (A.log v).length }

def append (A : Replication N E) (v : N) (e : E) : Replication N E :=
  { A with
    log := Function.update A.log v (A.log v ++ [e])
    leaderLog := Function.update A.leaderLog (A.term v) (A.log v ++ [e])
    acked := setAt A.acked (A.term v) v ((A.log v).length + 1) }

section Merge

variable [DecidableEq E]

/-- A log after it took over the first `m` entries of `source`: unchanged if it has them already,
    else cut down to them. -/
def mergeTake (source : List E) (m : ℕ) (l : List E) : List E :=
  if source.take m <+: l then l else source.take m

def accept (A : Replication N E) (v : N) (m : ℕ) : Replication N E :=
  { A with
    log := Function.update A.log v (mergeTake (A.leaderLog (A.term v)) m (A.log v))
    acked := setAt A.acked (A.term v) v (max (A.acked (A.term v) v) m) }

theorem take_prefix_mergeTake (source : List E) (m : ℕ) (l : List E) :
    source.take m <+: mergeTake source m l := by
  unfold mergeTake
  split
  · assumption
  · exact List.prefix_rfl

/-- What a log shares with the source it keeps in the merge. -/
theorem prefix_mergeTake {source l x : List E} {m : ℕ} (hs : x <+: source) (hl : x <+: l) :
    x <+: mergeTake source m l := by
  unfold mergeTake
  split
  · exact hl
  · rename_i hne
    rcases List.prefix_or_prefix_of_prefix hs (List.take_prefix m source) with h | h
    · exact h
    · exact absurd (h.trans hl) hne

end Merge

end Operations

/-! ## Growth of the history -/

structure Extends (A A' : Replication N E) : Prop where
  term : ∀ v, A.term v ≤ A'.term v
  elected : ∀ {T x}, A.elected T = some x → A'.elected T = some x
  leaderLog : ∀ {T x}, A.elected T = some x → A.leaderLog T <+: A'.leaderLog T
  vote : ∀ {T v x}, A.vote T v = some x → A'.vote T v = some x
  campaign : ∀ {T c}, T ≤ A.term c → A'.campaign T c = A.campaign T c
  acked : ∀ T v, A.acked T v ≤ A'.acked T v

theorem Extends.refl (A : Replication N E) : Extends A A :=
  ⟨fun _ => le_rfl, id, fun _ => List.prefix_rfl, id, fun _ => rfl, fun _ _ => le_rfl⟩

theorem Extends.trans {A B C : Replication N E} (h : Extends A B) (h' : Extends B C) :
    Extends A C where
  term v := (h.term v).trans (h'.term v)
  elected hx := h'.elected (h.elected hx)
  leaderLog hx := (h.leaderLog hx).trans (h'.leaderLog (h.elected hx))
  vote hx := h'.vote (h.vote hx)
  campaign hT := (h'.campaign (hT.trans (h.term _))).trans (h.campaign hT)
  acked T v := (h.acked T v).trans (h'.acked T v)

/-- What node `j` can tell of the history is the same in both. -/
structure Untouched (j : N) (A A' : Replication N E) : Prop where
  term : A'.term j = A.term j
  log : A'.log j = A.log j
  vote : ∀ T, A'.vote T j = A.vote T j
  campaign : ∀ T, A'.campaign T j = A.campaign T j
  elected : ∀ T Q, A'.elected T = some (j, Q) ↔ A.elected T = some (j, Q)
  leaderLog : ∀ T Q, A.elected T = some (j, Q) → A'.leaderLog T = A.leaderLog T

theorem Untouched.refl (j : N) (A : Replication N E) : Untouched j A A :=
  ⟨rfl, rfl, fun _ => rfl, fun _ => rfl, fun _ _ => Iff.rfl, fun _ _ _ => rfl⟩

/-- `A'` comes from `A` by acts of node `v`. -/
structure ActsOf (v : N) (A A' : Replication N E) : Prop where
  grows : Extends A A'
  others : ∀ j, j ≠ v → Untouched j A A'

theorem ActsOf.refl (v : N) (A : Replication N E) : ActsOf v A A :=
  ⟨Extends.refl A, fun j _ => Untouched.refl j A⟩

/-! ## The invariant -/

section Invariant

variable (termOf : E → ℕ)

/-- Every entry stands where it stands in the log of the leader of its term, on top of the same
    entries. -/
def Coherent (A : Replication N E) (l : List E) : Prop :=
  ∀ p e, l[p]? = some e →
    (∃ x, A.elected (termOf e) = some x) ∧ l.take (p + 1) <+: A.leaderLog (termOf e)

def lastTerm (l : List E) : ℕ := (l.getLast?.map termOf).getD 0

/-- A voter with log `w` finds a candidate with log `c` acceptable. -/
def UpToDate (w c : List E) : Prop :=
  lastTerm termOf w < lastTerm termOf c ∨
    lastTerm termOf w = lastTerm termOf c ∧ w.length ≤ c.length

/-- Some leader elected after `T` and before `U` stood for election without `l`. -/
def Superseded (A : Replication N E) (T U : ℕ) (l : List E) : Prop :=
  ∃ T' i Q, T < T' ∧ T' < U ∧ A.elected T' = some (i, Q) ∧ ¬ l <+: A.campaign T' i

/-- A vote that can still make, or has made, its candidate the leader of the term. -/
def Counts (A : Replication N E) (T : ℕ) (v : N) : Prop :=
  ∀ i Q, A.elected T = some (i, Q) → v ∈ Q

structure Standing (A : Replication N E) (T : ℕ) (c : N) : Prop where
  pos : 0 < T
  term_le : T ≤ A.term c
  coherent : Coherent termOf A (A.campaign T c)
  older : ∀ e ∈ A.campaign T c, termOf e < T

structure Consistent (q : QuorumSystem N) (A : Replication N E) : Prop where
  logs : ∀ v, Coherent termOf A (A.log v)
  logs_le : ∀ v, ∀ e ∈ A.log v, termOf e ≤ A.term v
  leaderLogs : ∀ {T x}, A.elected T = some x → Coherent termOf A (A.leaderLog T)
  leaderLogs_le : ∀ {T x}, A.elected T = some x → ∀ e ∈ A.leaderLog T, termOf e ≤ T
  voters : ∀ {T v c w}, A.vote T v = some (c, w) →
    T ≤ A.term v ∧ Coherent termOf A w ∧ UpToDate termOf w (A.campaign T c)
  candidates : ∀ {T v c w}, A.vote T v = some (c, w) → Standing termOf A T c
  quorums : ∀ {T i Q}, A.elected T = some (i, Q) →
    q.IsQuorum Q ∧ ∀ v ∈ Q, ∃ w, A.vote T v = some (i, w)
  leaders : ∀ {T i Q}, A.elected T = some (i, Q) →
    A.campaign T i <+: A.leaderLog T ∧ A.acked T i = (A.leaderLog T).length
  acks : ∀ {T v}, A.acked T v ≠ 0 → (∃ x, A.elected T = some x) ∧ T ≤ A.term v
  acks_le : ∀ T v, A.acked T v ≤ (A.leaderLog T).length
  retained : ∀ T v n, n ≤ A.acked T v → (A.leaderLog T).take n <+: A.log v ∨
    A.Superseded T (A.term v + 1) ((A.leaderLog T).take n)
  brought : ∀ {T' v c w}, A.vote T' v = some (c, w) → A.Counts T' v → ∀ T < T', ∀ n ≤ A.acked T v,
    (A.leaderLog T).take n <+: w ∨ A.Superseded T T' ((A.leaderLog T).take n)

end Invariant

end Replication

end Lib
