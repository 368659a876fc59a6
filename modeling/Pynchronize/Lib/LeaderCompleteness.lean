import Pynchronize.Lib.LogConsistency

/-!
An entry of a leader's own term that a quorum acknowledged stands in the log of
every later leader, so any two committed prefixes agree.
-/

namespace Lib.Replication

variable {N E : Type*} {termOf : E → ℕ} {q : QuorumSystem N} {A A' : Replication N E}

/-! ## Matching logs -/

theorem Coherent.take_eq {l l' : List E} (h : Coherent termOf A l) (h' : Coherent termOf A l')
    {p : ℕ} {e e' : E} (he : l[p]? = some e) (he' : l'[p]? = some e')
    (ht : termOf e = termOf e') : l.take (p + 1) = l'.take (p + 1) := by
  have hp := (h p e he).2
  have hp' := (h' p e' he').2
  rw [← ht] at hp'
  have hl := (List.getElem?_eq_some_iff.mp he).1
  have hl' := (List.getElem?_eq_some_iff.mp he').1
  have hlen : (l.take (p + 1)).length = (l'.take (p + 1)).length := by
    rw [List.length_take, List.length_take]
    omega
  exact (List.prefix_of_prefix_length_le hp hp' hlen.le).eq_of_length hlen

theorem lastTerm_eq (termOf : E → ℕ) {l : List E} (h : l ≠ []) :
    ∃ e, l[l.length - 1]? = some e ∧ lastTerm termOf l = termOf e := by
  refine ⟨l.getLast h, ?_, ?_⟩
  · rw [← List.getLast?_eq_getElem?, List.getLast?_eq_some_getLast h]
  · simp [lastTerm, List.getLast?_eq_some_getLast h]

theorem Consistent.term_le_lastTerm (h : Consistent termOf q A) {l : List E}
    (hl : Coherent termOf A l) {p : ℕ} {e : E} (he : l[p]? = some e) :
    termOf e ≤ lastTerm termOf l := by
  have hp := (List.getElem?_eq_some_iff.mp he).1
  obtain ⟨x, hx, hxt⟩ := lastTerm_eq termOf (List.length_pos_iff.mp (Nat.zero_lt_of_lt hp))
  obtain ⟨⟨y, hy⟩, hpre⟩ := hl _ x hx
  rw [hxt]
  refine h.leaderLogs_le hy e (hpre.subset ?_)
  rw [List.take_of_length_le (by omega)]
  exact List.mem_of_getElem? he

/-! ## Leader completeness -/

structure Committed (termOf : E → ℕ) (q : QuorumSystem N) (A : Replication N E) (T p : ℕ) :
    Prop where
  entry : ∃ e, (A.leaderLog T)[p]? = some e ∧ termOf e = T
  backed : ∃ Q, q.IsQuorum Q ∧ ∀ v ∈ Q, p < A.acked T v

theorem Committed.elected (hc : Committed termOf q A T p) (h : Consistent termOf q A) :
    ∃ x, A.elected T = some x := by
  obtain ⟨Q, hQ, ha⟩ := hc.backed
  obtain ⟨v, hv, -⟩ := q.meet hQ hQ
  exact (h.acks (Nat.ne_zero_of_lt (ha v hv))).1

theorem Committed.mono (hc : Committed termOf q A T p) (h : Consistent termOf q A)
    (g : Extends A A') : Committed termOf q A' T p where
  entry := by
    obtain ⟨x, hx⟩ := hc.elected h
    exact hc.entry.imp fun e he => ⟨getElem?_of_isPrefix (g.leaderLog hx) he.1, he.2⟩
  backed := by
    obtain ⟨Q, hQ, ha⟩ := hc.backed
    exact ⟨Q, hQ, fun v hv => (ha v hv).trans_le (g.acked T v)⟩

/-- A candidate that is acceptable to a voter with all of `l` has all of `l`, if the leaders
    between had. -/
theorem Consistent.prefix_campaign (h : Consistent termOf q A) {T T' p : ℕ} {c : N} {w : List E}
    {e : E} (hstand : Standing termOf A T' c) (hw : Coherent termOf A w)
    (hup : UpToDate termOf w (A.campaign T' c)) (he : (A.leaderLog T)[p]? = some e)
    (ht : termOf e = T) (hpre : (A.leaderLog T).take (p + 1) <+: w)
    (hbetween : ∀ t i Q, T < t → t < T' → A.elected t = some (i, Q) →
      (A.leaderLog T).take (p + 1) <+: A.campaign t i) :
    (A.leaderLog T).take (p + 1) <+: A.campaign T' c := by
  have hew : w[p]? = some e := getElem?_of_take_prefix hpre (Nat.lt_succ_self p) he
  have hpw := (List.getElem?_eq_some_iff.mp hew).1
  have hTw : T ≤ lastTerm termOf w := ht ▸ h.term_le_lastTerm hw hew
  have hne : A.campaign T' c ≠ [] := by
    intro hnil
    rw [hnil] at hup
    rcases hup with hlt | ⟨-, hle⟩
    · simp [lastTerm] at hlt
    · simp only [List.length_nil] at hle
      omega
  obtain ⟨x, hx, hxt⟩ := lastTerm_eq termOf hne
  obtain ⟨⟨y, hy⟩, hcamp⟩ := hstand.coherent _ x hx
  have hpos := List.length_pos_iff.mpr hne
  rw [List.take_of_length_le (by omega)] at hcamp
  have hxmem : x ∈ A.campaign T' c := List.mem_of_getElem? hx
  have hTx : T ≤ termOf x := by
    rw [← hxt]
    rcases hup with hlt | ⟨heq, -⟩ <;> omega
  rcases hTx.eq_or_lt with heq | hlt
  · -- the candidate's last entry is of term `T`: its log is a long enough part of that leader's
    have hlen : w.length ≤ (A.campaign T' c).length := by
      rcases hup with hlt | ⟨-, hle⟩
      · omega
      · exact hle
    rw [← heq] at hcamp
    refine List.prefix_of_prefix_length_le (List.take_prefix _ _) hcamp ?_
    rw [List.length_take]
    omega
  · -- a later leader wrote it, on top of everything it was elected with
    have hprev := hbetween (termOf x) y.1 y.2 hlt (hstand.older x hxmem) hy
    have hlead := (h.leaders hy).1
    refine hprev.trans ?_
    rcases List.prefix_or_prefix_of_prefix hlead hcamp with hp | hp
    · exact hp
    · exact absurd ((h.standing hy).older x (hp.subset hxmem)) (lt_irrefl _)

theorem leader_completeness (h : Consistent termOf q A) {T p : ℕ}
    (hc : Committed termOf q A T p) (T' : ℕ) :
    ∀ i Q, T < T' → A.elected T' = some (i, Q) →
      (A.leaderLog T).take (p + 1) <+: A.campaign T' i := by
  induction T' using Nat.strong_induction_on with
  | _ T' ih =>
    intro i Q hT he
    obtain ⟨e, hep, het⟩ := hc.entry
    obtain ⟨P, hP, hacks⟩ := hc.backed
    -- some voter of the election acknowledged the entry
    obtain ⟨v, hvP, hvQ⟩ := q.meet hP (h.quorums he).1
    obtain ⟨w, hw⟩ := (h.quorums he).2 v hvQ
    have hcounts : A.Counts T' v := by
      intro j Q' he'
      rw [he] at he'
      obtain ⟨-, rfl⟩ := Prod.mk.inj (Option.some.inj he')
      exact hvQ
    obtain ⟨-, hwcoh, hup⟩ := h.voters hw
    have hbetween : ∀ t j Q, T < t → t < T' → A.elected t = some (j, Q) →
        (A.leaderLog T).take (p + 1) <+: A.campaign t j :=
      fun t j Q hTt htT he => ih t htT j Q hTt he
    rcases h.brought hw hcounts T hT (p + 1) (hacks v hvP) with hpre | ⟨t, j, Q', h1, h2, h3, h4⟩
    · exact h.prefix_campaign (h.standing he) hwcoh hup hep het hpre hbetween
    · exact absurd (hbetween t j Q' h1 h2 h3) h4

theorem Committed.prefix_leaderLog (hc : Committed termOf q A T p) (h : Consistent termOf q A)
    {T' : ℕ} {x : N × Finset N} (hT : T ≤ T') (hx : A.elected T' = some x) :
    (A.leaderLog T).take (p + 1) <+: A.leaderLog T' := by
  rcases hT.eq_or_lt with rfl | hlt
  · exact List.take_prefix _ _
  · exact (leader_completeness h hc T' x.1 x.2 hlt hx).trans (h.leaders hx).1

/-! ## Settled prefixes -/

/-- The first `c` entries of `l` were committed in a term up to `T`. -/
def Settled (termOf : E → ℕ) (q : QuorumSystem N) (A : Replication N E) (T : ℕ) (l : List E)
    (c : ℕ) : Prop :=
  c ≤ l.length ∧ (c = 0 ∨ ∃ T₀ p, Committed termOf q A T₀ p ∧ T₀ ≤ T ∧ c ≤ p + 1 ∧
    l.take c <+: A.leaderLog T₀)

theorem settled_zero (T : ℕ) (l : List E) : Settled termOf q A T l 0 :=
  ⟨Nat.zero_le _, Or.inl rfl⟩

theorem Settled.mono {T T' c : ℕ} {l : List E} (hs : Settled termOf q A T l c)
    (h : Consistent termOf q A) (g : Extends A A') (hT : T ≤ T') : Settled termOf q A' T' l c := by
  refine ⟨hs.1, hs.2.imp_right ?_⟩
  rintro ⟨T₀, p, hc, hT₀, hcp, hp⟩
  obtain ⟨x, hx⟩ := hc.elected h
  exact ⟨T₀, p, hc.mono h g, hT₀.trans hT, hcp, hp.trans (g.leaderLog hx)⟩

theorem Settled.of_isPrefix {T c : ℕ} {l l' : List E} (hs : Settled termOf q A T l c)
    (hp : l.take c <+: l') : Settled termOf q A T l' c := by
  have hlen : (l.take c).length = c := by rw [List.length_take]; exact min_eq_left hs.1
  refine ⟨hlen ▸ hp.length_le, hs.2.imp_right ?_⟩
  rintro ⟨T₀, p, hc, hT₀, hcp, hpre⟩
  refine ⟨T₀, p, hc, hT₀, hcp, ?_⟩
  rw [take_eq_of_isPrefix hp hlen.ge, List.take_take, min_self]
  exact hpre

theorem Settled.of_le {T c c' : ℕ} {l : List E} (hs : Settled termOf q A T l c) (hc : c' ≤ c) :
    Settled termOf q A T l c' := by
  refine ⟨hc.trans hs.1, ?_⟩
  rcases hs.2 with rfl | ⟨T₀, p, hcom, hT₀, hcp, hpre⟩
  · exact Or.inl (Nat.le_zero.mp hc)
  · exact Or.inr ⟨T₀, p, hcom, hT₀, hc.trans hcp, (List.take_prefix_take_left hc).trans hpre⟩

theorem Settled.prefix_leaderLog {T T' c : ℕ} {l : List E} {x : N × Finset N}
    (hs : Settled termOf q A T l c) (h : Consistent termOf q A) (hT : T ≤ T')
    (hx : A.elected T' = some x) : l.take c <+: A.leaderLog T' := by
  rcases hs.2 with rfl | ⟨T₀, p, hc, hT₀, hcp, hpre⟩
  · simp
  · refine List.IsPrefix.trans ?_ (hc.prefix_leaderLog h (hT₀.trans hT) hx)
    refine List.prefix_of_prefix_length_le hpre (List.take_prefix _ _) ?_
    rw [List.length_take, List.length_take]
    have := hpre.length_le
    rw [List.length_take] at this
    omega

/-- Committed entries survive the merge of any later leader's entries. -/
theorem Settled.mergeTake [DecidableEq E] {T T' c : ℕ} {l : List E} {x : N × Finset N}
    (hs : Settled termOf q A T l c) (h : Consistent termOf q A) (hT : T ≤ T')
    (hx : A.elected T' = some x) (m : ℕ) :
    Settled termOf q A T (mergeTake (A.leaderLog T') m l) c :=
  hs.of_isPrefix (prefix_mergeTake (hs.prefix_leaderLog h hT hx) (List.take_prefix _ _))

/-- Committed prefixes lie in the log of the later of the two leaders that committed them. -/
theorem Committed.agree {T T' p p' k : ℕ} (hc : Committed termOf q A T p)
    (hc' : Committed termOf q A T' p') (h : Consistent termOf q A) (hk : k ≤ p) (hk' : k ≤ p') :
    (A.leaderLog T)[k]? = (A.leaderLog T')[k]? := by
  have key : ∀ {T T' p : ℕ} {x : N × Finset N}, Committed termOf q A T p →
      A.elected T' = some x → k ≤ p → T ≤ T' →
      (A.leaderLog T)[k]? = (A.leaderLog T')[k]? := by
    intro T T' p x hc hx hk hT
    obtain ⟨e, he, -⟩ := hc.entry
    have hp := (List.getElem?_eq_some_iff.mp he).1
    obtain ⟨y, hy⟩ : ∃ y, (A.leaderLog T)[k]? = some y :=
      ⟨_, List.getElem?_eq_getElem (by omega)⟩
    rw [hy, getElem?_of_take_prefix (hc.prefix_leaderLog h hT hx) (by omega) hy]
  obtain ⟨x, hx⟩ := hc.elected h
  obtain ⟨x', hx'⟩ := hc'.elected h
  rcases Nat.le_total T T' with hT | hT
  · exact key hc hx' hk hT
  · exact (key hc' hx hk' hT).symm

theorem Settled.getElem? {T c k : ℕ} {l : List E} {e : E} (hs : Settled termOf q A T l c)
    (hk : k < c) (he : l[k]? = some e) :
    ∃ T₀ p, Committed termOf q A T₀ p ∧ k ≤ p ∧ (A.leaderLog T₀)[k]? = some e := by
  rcases hs.2 with rfl | ⟨T₀, p, hc, -, hcp, hpre⟩
  · omega
  · exact ⟨T₀, p, hc, by omega, getElem?_of_take_prefix hpre hk he⟩

end Lib.Replication
