import Pynchronize.Lib.LogReplication

/-!
Every operation on a replicated log only extends its history, touches nobody
but the node that acts, and keeps the invariant.
-/

namespace Lib.Replication

variable {N E : Type*} {termOf : E → ℕ} {q : QuorumSystem N} {A A' : Replication N E}

/-! ## What carries over -/

theorem Coherent.mono {l : List E} (h : Coherent termOf A l) (g : Extends A A') :
    Coherent termOf A' l := by
  intro p e he
  obtain ⟨⟨x, hx⟩, ht⟩ := h p e he
  exact ⟨⟨x, g.elected hx⟩, ht.trans (g.leaderLog hx)⟩

theorem Coherent.of_isPrefix {l l' : List E} (h : Coherent termOf A l) (hp : l' <+: l) :
    Coherent termOf A l' := by
  intro p e he
  obtain ⟨hx, ht⟩ := h p e (getElem?_of_isPrefix hp he)
  exact ⟨hx, by rwa [take_succ_prefix_of_isPrefix hp he] at ht⟩

theorem Standing.mono {T : ℕ} {c : N} (h : Standing termOf A T c) (g : Extends A A') :
    Standing termOf A' T c where
  pos := h.pos
  term_le := h.term_le.trans (g.term c)
  coherent := by rw [g.campaign h.term_le]; exact h.coherent.mono g
  older := by rw [g.campaign h.term_le]; exact h.older

theorem Superseded.widen {T U U' : ℕ} {l : List E} (h : A.Superseded T U l) (hU : U ≤ U') :
    A.Superseded T U' l := by
  obtain ⟨T', i, Q, hlt, hlt', he, hn⟩ := h
  exact ⟨T', i, Q, hlt, hlt'.trans_le hU, he, hn⟩

namespace Consistent

theorem standing (h : Consistent termOf q A) {T : ℕ} {i : N} {Q : Finset N}
    (he : A.elected T = some (i, Q)) : Standing termOf A T i := by
  obtain ⟨v, hv, -⟩ := q.meet (h.quorums he).1 (h.quorums he).1
  obtain ⟨w, hw⟩ := (h.quorums he).2 v hv
  exact h.candidates hw

theorem term_pos (h : Consistent termOf q A) {l : List E} (hl : Coherent termOf A l) {e : E}
    (he : e ∈ l) : 0 < termOf e := by
  obtain ⟨p, hp⟩ := List.mem_iff_getElem?.mp he
  obtain ⟨⟨x, hx⟩, -⟩ := hl p e hp
  exact (h.standing hx).pos

theorem superseded_mono (h : Consistent termOf q A) (g : Extends A A') {T U : ℕ} {l : List E}
    (hs : A.Superseded T U l) : A'.Superseded T U l := by
  obtain ⟨T', i, Q, hlt, hlt', he, hn⟩ := hs
  refine ⟨T', i, Q, hlt, hlt', g.elected he, ?_⟩
  rwa [g.campaign (h.standing he).term_le]

/-- Acknowledged prefixes of a leader's log do not change any more. -/
theorem take_leaderLog (h : Consistent termOf q A) (g : Extends A A') {T n : ℕ} {v : N}
    (hn : n ≤ A.acked T v) : (A'.leaderLog T).take n = (A.leaderLog T).take n := by
  cases hz : A.acked T v with
  | zero =>
    have : n = 0 := by omega
    simp [this]
  | succ k =>
    obtain ⟨⟨x, hx⟩, -⟩ := h.acks (T := T) (v := v) (by omega)
    exact take_eq_of_isPrefix (g.leaderLog hx) (hn.trans (h.acks_le T v))

theorem retained_mono (h : Consistent termOf q A) (g : Extends A A') {T n : ℕ} {v : N}
    (hlog : A.log v <+: A'.log v) (hn : n ≤ A.acked T v) :
    (A'.leaderLog T).take n <+: A'.log v ∨
      A'.Superseded T (A'.term v + 1) ((A'.leaderLog T).take n) := by
  rw [h.take_leaderLog g hn]
  rcases h.retained T v n hn with hp | hs
  · exact Or.inl (hp.trans hlog)
  · have := g.term v
    exact Or.inr ((h.superseded_mono g hs).widen (by omega))

theorem brought_mono (h : Consistent termOf q A) (g : Extends A A') {T' T n : ℕ} {v c : N}
    {w : List E} (hv : A.vote T' v = some (c, w)) (hc : A.Counts T' v) (hT : T < T')
    (hn : n ≤ A.acked T v) :
    (A'.leaderLog T).take n <+: w ∨ A'.Superseded T T' ((A'.leaderLog T).take n) := by
  rw [h.take_leaderLog g hn]
  exact (h.brought hv hc T hT n hn).imp_right (h.superseded_mono g)

theorem voters_mono (h : Consistent termOf q A) (g : Extends A A') {T : ℕ} {v c : N} {w : List E}
    (hv : A.vote T v = some (c, w)) :
    T ≤ A'.term v ∧ Coherent termOf A' w ∧ UpToDate termOf w (A'.campaign T c) := by
  obtain ⟨hT, hw, hu⟩ := h.voters hv
  rw [g.campaign (h.candidates hv).term_le]
  exact ⟨hT.trans (g.term v), hw.mono g, hu⟩

theorem counts_of_extends (g : Extends A A') {T : ℕ} {v : N} (hc : A'.Counts T v) :
    A.Counts T v :=
  fun i Q he => hc i Q (g.elected he)

theorem acked_eq_zero (h : Consistent termOf q A) {T : ℕ} (he : A.elected T = none) (v : N) :
    A.acked T v = 0 := by
  by_contra hne
  obtain ⟨⟨x, hx⟩, -⟩ := h.acks hne
  rw [he] at hx
  cases hx

theorem acked_of_later (h : Consistent termOf q A) {T : ℕ} {v : N} (hT : A.term v < T) :
    A.acked T v = 0 := by
  by_contra hne
  have := (h.acks hne).2
  omega

theorem vote_le (h : Consistent termOf q A) {T : ℕ} {v c : N} {w : List E}
    (hv : A.vote T v = some (c, w)) : T ≤ A.term v := (h.voters hv).1

/-- A term before one that a node has voted in is not the term the node is in. -/
theorem ne_own_term (h : Consistent termOf q A) {T' T : ℕ} {u c v : N} {w : List E}
    (hv : A.vote T' u = some (c, w)) (hT : T < T') : ¬ (T = A.term v ∧ u = v) := by
  rintro ⟨rfl, rfl⟩
  have := h.vote_le hv
  omega

/-! ## One leader a term -/

theorem leader_unique (h : Consistent termOf q A) {T : ℕ} {i : N} {Q Q' : Finset N} {j : N}
    (he : A.elected T = some (i, Q)) (hQ : q.IsQuorum Q')
    (hv : ∀ v ∈ Q', ∃ w, A.vote T v = some (j, w)) : i = j := by
  obtain ⟨v, hvQ, hvQ'⟩ := q.meet (h.quorums he).1 hQ
  obtain ⟨w, hw⟩ := (h.quorums he).2 v hvQ
  obtain ⟨w', hw'⟩ := hv v hvQ'
  rw [hw] at hw'
  simp only [Option.some.injEq, Prod.mk.injEq] at hw'
  exact hw'.1

theorem elected_eq_none (h : Consistent termOf q A) {T : ℕ} {j : N} {Q' : Finset N}
    (hQ : q.IsQuorum Q') (hv : ∀ v ∈ Q', ∃ w, A.vote T v = some (j, w))
    (hj : ∀ Q, A.elected T ≠ some (j, Q)) : A.elected T = none := by
  cases he : A.elected T with
  | none => rfl
  | some x =>
    obtain ⟨i, Q⟩ := x
    have hij := h.leader_unique he hQ hv
    subst hij
    exact absurd he (hj Q)

end Consistent

theorem consistent_init : Consistent termOf q (init : Replication N E) where
  logs v p e he := by simp [init] at he
  logs_le v e he := by simp [init] at he
  leaderLogs he := by simp [init] at he
  leaderLogs_le he := by simp [init] at he
  voters hv := by simp [init] at hv
  candidates hv := by simp [init] at hv
  quorums he := by simp [init] at he
  leaders he := by simp [init] at he
  acks ha := by simp [init] at ha
  acks_le T v := by simp [init]
  retained T v n hn := by simp [init]
  brought hv := by simp [init] at hv

section Steps

variable [DecidableEq N]

/-! ## A later term -/

theorem advance_acts (v : N) {T : ℕ} (hT : A.term v ≤ T) : ActsOf v A (A.advance v T) where
  grows :=
    { Extends.refl A with
      term := by
        intro u
        by_cases hu : u = v
        · subst hu
          simpa [advance] using hT
        · simp [advance, hu] }
  others j hj := { Untouched.refl j A with term := by simp [advance, hj] }

theorem Consistent.advance (h : Consistent termOf q A) (v : N) {T : ℕ} (hT : A.term v ≤ T) :
    Consistent termOf q (A.advance v T) := by
  have g := (advance_acts v hT).grows
  exact
    { logs := h.logs
      logs_le := fun u e he => (h.logs_le u e he).trans (g.term u)
      leaderLogs := h.leaderLogs
      leaderLogs_le := h.leaderLogs_le
      voters := fun hv => h.voters_mono g hv
      candidates := fun hv => (h.candidates hv).mono g
      quorums := h.quorums
      leaders := h.leaders
      acks := fun ha => ⟨(h.acks ha).1, (h.acks ha).2.trans (g.term _)⟩
      acks_le := h.acks_le
      retained := fun T u n hn => h.retained_mono g List.prefix_rfl hn
      brought := h.brought }

/-! ## Standing for election -/

theorem nominate_acts (h : Consistent termOf q A) (v : N) : ActsOf v A (A.nominate v) where
  grows :=
    { Extends.refl A with
      term := by
        intro u
        by_cases hu : u = v
        · subst hu
          simp [nominate]
        · simp [nominate, hu]
      vote := by
        intro T u x hx
        have hT := h.vote_le (c := x.1) (w := x.2) hx
        simp only [nominate]
        rw [setAt_of_ne (by rintro rfl rfl; omega), hx]
      campaign := by
        intro T c hT
        simp only [nominate]
        rw [setAt_of_ne (by rintro rfl rfl; omega)] }
  others j hj :=
    { Untouched.refl j A with
      term := by simp [nominate, hj]
      vote := fun T => setAt_of_ne fun _ => hj
      campaign := fun T => setAt_of_ne fun _ => hj }

theorem Consistent.nominate (h : Consistent termOf q A) (v : N) :
    Consistent termOf q (A.nominate v) := by
  have g := (nominate_acts h v).grows
  have hterm : (A.nominate v).term v = A.term v + 1 := by simp [Replication.nominate]
  -- a vote of the new state is the new one, or was cast before
  have hvote : ∀ {T u x}, (A.nominate v).vote T u = some x →
      (T = A.term v + 1 ∧ u = v ∧ x = (v, A.log v)) ∨ A.vote T u = some x := by
    intro T u x hx
    simp only [Replication.nominate, setAt] at hx
    split at hx
    · rename_i hc
      exact Or.inl ⟨hc.1, hc.2, (Option.some.inj hx).symm⟩
    · exact Or.inr hx
  have hcamp : (A.nominate v).campaign (A.term v + 1) v = A.log v := by
    simp [Replication.nominate]
  exact
    { logs := h.logs
      logs_le := fun u e he => (h.logs_le u e he).trans (g.term u)
      leaderLogs := h.leaderLogs
      leaderLogs_le := h.leaderLogs_le
      voters := by
        intro T u c w hv
        rcases hvote hv with ⟨rfl, rfl, hx⟩ | hold
        · obtain ⟨rfl, rfl⟩ := Prod.mk.inj hx
          rw [hcamp]
          exact ⟨hterm.ge, h.logs _, Or.inr ⟨rfl, le_rfl⟩⟩
        · exact h.voters_mono g hold
      candidates := by
        intro T u c w hv
        rcases hvote hv with ⟨rfl, rfl, hx⟩ | hold
        · obtain ⟨rfl, rfl⟩ := Prod.mk.inj hx
          refine ⟨Nat.succ_pos _, hterm.ge, ?_, ?_⟩
          · rw [hcamp]
            exact h.logs _
          · rw [hcamp]
            intro e he
            have := h.logs_le _ e he
            omega
        · exact (h.candidates hold).mono g
      quorums := fun he =>
        ⟨(h.quorums he).1, fun u hu => ((h.quorums he).2 u hu).imp fun w hw => g.vote hw⟩
      leaders := by
        intro T i Q he
        rw [g.campaign (h.standing he).term_le]
        exact h.leaders he
      acks := fun ha => ⟨(h.acks ha).1, (h.acks ha).2.trans (g.term _)⟩
      acks_le := h.acks_le
      retained := fun T u n hn => h.retained_mono g List.prefix_rfl hn
      brought := by
        intro T' u c w hv hc T hT n hn
        rcases hvote hv with ⟨rfl, rfl, hx⟩ | hold
        · obtain ⟨rfl, rfl⟩ := Prod.mk.inj hx
          exact (h.retained T _ n hn).imp_right (h.superseded_mono g)
        · exact h.brought_mono g hold hc hT hn }

/-! ## Voting -/

theorem cast_acts (v c : N) (hv : A.vote (A.term v) v = none) : ActsOf v A (A.cast v c) where
  grows :=
    { Extends.refl A with
      vote := by
        intro T u x hx
        simp only [cast]
        rw [setAt_of_ne _, hx]
        rintro rfl rfl
        rw [hv] at hx
        cases hx }
  others j hj := { Untouched.refl j A with vote := fun T => setAt_of_ne fun _ => hj }

theorem Consistent.cast (h : Consistent termOf q A) {v c : N} {w : List E}
    (hv : A.vote (A.term v) v = none) (hc : A.vote (A.term v) c = some (c, w))
    (hu : UpToDate termOf (A.log v) (A.campaign (A.term v) c)) :
    Consistent termOf q (A.cast v c) := by
  have g := (cast_acts v c hv).grows
  have hvote : ∀ {T u x}, (A.cast v c).vote T u = some x →
      (T = A.term v ∧ u = v ∧ x = (c, A.log v)) ∨ A.vote T u = some x := by
    intro T u x hx
    simp only [Replication.cast, setAt] at hx
    split at hx
    · rename_i hcond
      exact Or.inl ⟨hcond.1, hcond.2, (Option.some.inj hx).symm⟩
    · exact Or.inr hx
  exact
    { logs := h.logs
      logs_le := h.logs_le
      leaderLogs := h.leaderLogs
      leaderLogs_le := h.leaderLogs_le
      voters := by
        intro T u d w' hx
        rcases hvote hx with ⟨rfl, rfl, hx⟩ | hold
        · obtain ⟨rfl, rfl⟩ := Prod.mk.inj hx
          exact ⟨le_rfl, h.logs u, hu⟩
        · exact h.voters hold
      candidates := by
        intro T u d w' hx
        rcases hvote hx with ⟨rfl, rfl, hx⟩ | hold
        · obtain ⟨rfl, rfl⟩ := Prod.mk.inj hx
          exact (h.candidates hc).mono g
        · exact (h.candidates hold).mono g
      quorums := fun he =>
        ⟨(h.quorums he).1, fun u hu => ((h.quorums he).2 u hu).imp fun w hw => g.vote hw⟩
      leaders := h.leaders
      acks := h.acks
      acks_le := h.acks_le
      retained := h.retained
      brought := by
        intro T' u d w' hx hcounts T hT n hn
        rcases hvote hx with ⟨rfl, rfl, hx⟩ | hold
        · obtain ⟨rfl, rfl⟩ := Prod.mk.inj hx
          -- the voter has not voted, so it is in no quorum of this term
          have hnone : A.elected (A.term u) = none := by
            cases he : A.elected (A.term u) with
            | none => rfl
            | some x =>
              obtain ⟨w'', hw''⟩ := (h.quorums he).2 u (hcounts x.1 x.2 he)
              rw [hv] at hw''
              cases hw''
          rcases h.retained T u n hn with hp | ⟨T'', i, Q, hlt, hlt', he, hne⟩
          · exact Or.inl hp
          · refine Or.inr ⟨T'', i, Q, hlt, ?_, he, hne⟩
            have : T'' ≠ A.term u := by
              rintro rfl
              rw [hnone] at he
              cases he
            omega
        · exact h.brought hold hcounts T hT n hn }

/-! ## Winning an election -/

theorem elect_acts (h : Consistent termOf q A) (v : N) (Q : Finset N)
    (hnone : A.elected (A.term v) = none) : ActsOf v A (A.elect v Q) where
  grows :=
    { Extends.refl A with
      elected := by
        intro T x hx
        have hT : T ≠ A.term v := by
          rintro rfl
          rw [hnone] at hx
          cases hx
        simpa [elect, hT] using hx
      leaderLog := by
        intro T x hx
        have hT : T ≠ A.term v := by
          rintro rfl
          rw [hnone] at hx
          cases hx
        simp [elect, hT]
      acked := by
        intro T u
        simp only [elect, setAt]
        split
        · rename_i hc
          rw [hc.1, h.acked_eq_zero hnone]
          exact Nat.zero_le _
        · exact le_rfl }
  others j hj :=
    { Untouched.refl j A with
      elected := by
        intro T Q'
        by_cases hT : T = A.term v
        · subst hT
          simp [elect, hnone, Ne.symm hj]
        · simp [elect, hT]
      leaderLog := by
        intro T Q' hQ'
        have hT : T ≠ A.term v := by
          rintro rfl
          rw [hnone] at hQ'
          cases hQ'
        simp [elect, hT] }

/-- A leader of the new state is `v`, or led before. -/
theorem elected_elect_cases {v : N} {Q : Finset N} {T : ℕ} {x : N × Finset N}
    (hx : (A.elect v Q).elected T = some x) :
    (T = A.term v ∧ x = (v, Q) ∧ (A.elect v Q).leaderLog T = A.log v) ∨
      T ≠ A.term v ∧ A.elected T = some x ∧ (A.elect v Q).leaderLog T = A.leaderLog T := by
  by_cases hT : T = A.term v
  · subst hT
    simp only [Replication.elect, Function.update_self] at hx ⊢
    exact Or.inl ⟨trivial, (Option.some.inj hx).symm, trivial⟩
  · simp only [Replication.elect, Function.update_of_ne hT] at hx ⊢
    exact Or.inr ⟨hT, hx, trivial⟩

theorem Consistent.leaders_elect (h : Consistent termOf q A) {v : N} {Q : Finset N}
    (hcamp : A.campaign (A.term v) v = A.log v) {T : ℕ} {i : N} {Q' : Finset N}
    (hx : (A.elect v Q).elected T = some (i, Q')) :
    A.campaign T i <+: (A.elect v Q).leaderLog T ∧
      (A.elect v Q).acked T i = ((A.elect v Q).leaderLog T).length := by
  rcases elected_elect_cases hx with ⟨rfl, heq, hlog⟩ | ⟨hT, hold, hlog⟩
  · obtain ⟨rfl, rfl⟩ := Prod.mk.inj heq
    rw [hlog]
    exact ⟨hcamp ▸ List.prefix_rfl, by simp [Replication.elect]⟩
  · have hacked : (A.elect v Q).acked T i = A.acked T i := if_neg fun hc => hT hc.1
    rw [hlog, hacked]
    exact h.leaders hold

theorem Consistent.acks_le_elect (h : Consistent termOf q A) {v : N} {Q : Finset N}
    (hnone : A.elected (A.term v) = none) (T : ℕ) (u : N) :
    (A.elect v Q).acked T u ≤ ((A.elect v Q).leaderLog T).length := by
  have hlog : (A.elect v Q).leaderLog (A.term v) = A.log v := by simp [Replication.elect]
  refine forall_setAt (fun T _ n => n ≤ ((A.elect v Q).leaderLog T).length) (by rw [hlog])
    (fun T u _ => ?_) T u
  by_cases hT : T = A.term v
  · subst hT
    rw [h.acked_eq_zero hnone]
    exact Nat.zero_le _
  · simpa [Replication.elect, hT] using h.acks_le T u

theorem Consistent.elect (h : Consistent termOf q A) {v : N} {Q : Finset N} (hQ : q.IsQuorum Q)
    (hvotes : ∀ u ∈ Q, ∃ w, A.vote (A.term v) u = some (v, w))
    (hcamp : A.campaign (A.term v) v = A.log v) (hnone : A.elected (A.term v) = none) :
    Consistent termOf q (A.elect v Q) := by
  have g := (elect_acts h v Q hnone).grows
  have hself : (A.elect v Q).elected (A.term v) = some (v, Q) := by simp [Replication.elect]
  have hlog : (A.elect v Q).leaderLog (A.term v) = A.log v := by simp [Replication.elect]
  exact
    { logs := fun u => (h.logs u).mono g
      logs_le := h.logs_le
      leaderLogs := by
        intro T x hx
        rcases elected_elect_cases hx with ⟨rfl, -, hl⟩ | ⟨-, hold, hl⟩
        · rw [hl]
          exact (h.logs v).mono g
        · rw [hl]
          exact (h.leaderLogs hold).mono g
      leaderLogs_le := by
        intro T x hx
        rcases elected_elect_cases hx with ⟨rfl, -, hl⟩ | ⟨-, hold, hl⟩
        · rw [hl]
          exact h.logs_le v
        · rw [hl]
          exact h.leaderLogs_le hold
      voters := fun hv => h.voters_mono g hv
      candidates := fun hv => (h.candidates hv).mono g
      quorums := by
        intro T i Q' hx
        rcases elected_elect_cases hx with ⟨rfl, heq, -⟩ | ⟨-, hold, -⟩
        · obtain ⟨rfl, rfl⟩ := Prod.mk.inj heq
          exact ⟨hQ, hvotes⟩
        · exact h.quorums hold
      leaders := h.leaders_elect hcamp
      acks := fun {T u} => forall_setAt
        (fun T u n => n ≠ 0 → (∃ x, (A.elect v Q).elected T = some x) ∧ T ≤ A.term u)
        (fun _ => ⟨⟨_, hself⟩, le_rfl⟩)
        (fun T u _ ha => ⟨(h.acks ha).1.imp fun x hx => g.elected hx, (h.acks ha).2⟩) T u
      acks_le := h.acks_le_elect hnone
      retained := forall_setAt
        (fun T u m => ∀ n ≤ m, ((A.elect v Q).leaderLog T).take n <+: A.log u ∨
          (A.elect v Q).Superseded T (A.term u + 1) (((A.elect v Q).leaderLog T).take n))
        (fun n _ => Or.inl (hlog ▸ List.take_prefix n _))
        fun T u _ n hn => h.retained_mono g List.prefix_rfl hn
      brought := by
        intro T' u c w hv hcounts T hT n hn
        have hacked : (A.elect v Q).acked T u = A.acked T u := if_neg (h.ne_own_term hv hT)
        rw [hacked] at hn
        exact h.brought_mono g hv (counts_of_extends g hcounts) hT hn }

/-! ## A new entry at the leader -/

theorem append_acts (h : Consistent termOf q A) {v : N} {Q : Finset N} (e : E)
    (hlead : A.elected (A.term v) = some (v, Q)) (hlog : A.leaderLog (A.term v) = A.log v) :
    ActsOf v A (A.append v e) where
  grows :=
    { Extends.refl A with
      leaderLog := by
        intro T x hx
        by_cases hT : T = A.term v
        · subst hT
          simp [append, hlog]
        · simp [append, hT]
      acked := by
        intro T u
        simp only [append, setAt]
        split
        · rename_i hc
          have := (h.leaders hlead).2
          rw [hc.1, hc.2, this, hlog]
          exact Nat.le_succ _
        · exact le_rfl }
  others j hj :=
    { Untouched.refl j A with
      log := by simp [append, hj]
      leaderLog := by
        intro T Q' hQ'
        have hT : T ≠ A.term v := by
          rintro rfl
          rw [hlead] at hQ'
          exact hj (Prod.mk.inj (Option.some.inj hQ')).1.symm
        simp [append, hT] }

theorem Consistent.coherent_append (h : Consistent termOf q A) {v : N} {Q : Finset N} {e : E}
    (hlead : A.elected (A.term v) = some (v, Q)) (hlog : A.leaderLog (A.term v) = A.log v)
    (he : termOf e = A.term v) : Coherent termOf (A.append v e) (A.log v ++ [e]) := by
  intro p x hx
  rcases lt_or_ge p (A.log v).length with hp | hp
  · rw [List.getElem?_append_left hp] at hx
    obtain ⟨y, hy⟩ := (h.logs v).mono (append_acts h e hlead hlog).grows p x hx
    exact ⟨y, by rwa [List.take_append_of_le_length (by omega)]⟩
  · -- the new entry, which the leader's log has too
    have hlen := (List.getElem?_eq_some_iff.mp hx).1
    obtain rfl : p = (A.log v).length := by simp at hlen; omega
    obtain rfl : e = x := by simpa using hx
    have hL : (A.append v e).leaderLog (A.term v) = A.log v ++ [e] := by simp [Replication.append]
    rw [he, hL]
    exact ⟨⟨_, hlead⟩, List.take_prefix _ _⟩

omit [DecidableEq N] in
theorem Consistent.le_append (h : Consistent termOf q A) {v : N} {e : E}
    (he : termOf e = A.term v) : ∀ x ∈ A.log v ++ [e], termOf x ≤ A.term v := by
  intro x hx
  rcases List.mem_append.mp hx with hx | hx
  · exact h.logs_le v x hx
  · rw [List.mem_singleton.mp hx, he]

/-- No log gets shorter, and no leader's. -/
theorem prefix_log_append (A : Replication N E) (v : N) (e : E) (u : N) :
    A.log u <+: (A.append v e).log u :=
  (Function.forall_update_iff A.log fun u l => A.log u <+: l).mpr
    ⟨List.prefix_append _ _, fun _ _ => List.prefix_rfl⟩ u

theorem prefix_leaderLog_append {v : N} (e : E) (hlog : A.leaderLog (A.term v) = A.log v) (T : ℕ) :
    A.leaderLog T <+: (A.append v e).leaderLog T :=
  (Function.forall_update_iff A.leaderLog fun T l => A.leaderLog T <+: l).mpr
    ⟨hlog ▸ List.prefix_append _ _, fun _ _ => List.prefix_rfl⟩ T

theorem Consistent.leaders_append (h : Consistent termOf q A) {v : N} {Q : Finset N} (e : E)
    (hlead : A.elected (A.term v) = some (v, Q)) (hlog : A.leaderLog (A.term v) = A.log v) {T : ℕ}
    {i : N} {Q' : Finset N} (hx : A.elected T = some (i, Q')) :
    A.campaign T i <+: (A.append v e).leaderLog T ∧
      (A.append v e).acked T i = ((A.append v e).leaderLog T).length := by
  refine ⟨(h.leaders hx).1.trans (prefix_leaderLog_append e hlog T), ?_⟩
  by_cases hT : T = A.term v
  · -- the leader counts its own entry at once
    subst hT
    rw [hlead] at hx
    obtain ⟨rfl, rfl⟩ := Prod.mk.inj (Option.some.inj hx)
    simp [Replication.append]
  · have hacked : (A.append v e).acked T i = A.acked T i := if_neg fun hc => hT hc.1
    have hL : (A.append v e).leaderLog T = A.leaderLog T := Function.update_of_ne hT _ _
    rw [hacked, hL]
    exact (h.leaders hx).2

theorem Consistent.acks_le_append (h : Consistent termOf q A) {v : N} (e : E)
    (hlog : A.leaderLog (A.term v) = A.log v) (T : ℕ) (u : N) :
    (A.append v e).acked T u ≤ ((A.append v e).leaderLog T).length :=
  forall_setAt (fun T _ n => n ≤ ((A.append v e).leaderLog T).length)
    (by simp [Replication.append])
    (fun T u _ => (h.acks_le T u).trans (prefix_leaderLog_append e hlog T).length_le) T u

theorem Consistent.retained_append (h : Consistent termOf q A) {v : N} {Q : Finset N} (e : E)
    (hlead : A.elected (A.term v) = some (v, Q)) (hlog : A.leaderLog (A.term v) = A.log v) :
    ∀ T u n, n ≤ (A.append v e).acked T u →
      ((A.append v e).leaderLog T).take n <+: (A.append v e).log u ∨
        (A.append v e).Superseded T (A.term u + 1) (((A.append v e).leaderLog T).take n) := by
  have hL : (A.append v e).leaderLog (A.term v) = (A.append v e).log v := by
    simp [Replication.append]
  exact forall_setAt
    (fun T u m => ∀ n ≤ m, ((A.append v e).leaderLog T).take n <+: (A.append v e).log u ∨
      (A.append v e).Superseded T (A.term u + 1) (((A.append v e).leaderLog T).take n))
    (fun n _ => Or.inl (hL ▸ List.take_prefix n _))
    fun T u _ n hn => h.retained_mono (append_acts h e hlead hlog).grows
      (prefix_log_append A v e u) hn

theorem Consistent.append (h : Consistent termOf q A) {v : N} {Q : Finset N} {e : E}
    (hlead : A.elected (A.term v) = some (v, Q)) (hlog : A.leaderLog (A.term v) = A.log v)
    (he : termOf e = A.term v) : Consistent termOf q (A.append v e) := by
  have g := (append_acts h e hlead hlog).grows
  have hcoh := h.coherent_append hlead hlog he
  have hle := h.le_append he
  exact
    { logs := (Function.forall_update_iff A.log fun _ l => Coherent termOf (A.append v e) l).mpr
        ⟨hcoh, fun u _ => (h.logs u).mono g⟩
      logs_le := (Function.forall_update_iff A.log fun u l => ∀ x ∈ l, termOf x ≤ A.term u).mpr
        ⟨hle, fun u _ => h.logs_le u⟩
      leaderLogs := fun {T x} => (Function.forall_update_iff A.leaderLog fun T l =>
          ∀ x, A.elected T = some x → Coherent termOf (A.append v e) l).mpr
        ⟨fun _ _ => hcoh, fun T _ x hx => (h.leaderLogs hx).mono g⟩ T x
      leaderLogs_le := fun {T x} => (Function.forall_update_iff A.leaderLog fun T l =>
          ∀ x, A.elected T = some x → ∀ y ∈ l, termOf y ≤ T).mpr
        ⟨fun _ _ => hle, fun T _ x hx => h.leaderLogs_le hx⟩ T x
      voters := fun hv => h.voters_mono g hv
      candidates := fun hv => (h.candidates hv).mono g
      quorums := h.quorums
      leaders := h.leaders_append e hlead hlog
      acks := fun {T u} => forall_setAt
        (fun T u n => n ≠ 0 → (∃ x, A.elected T = some x) ∧ T ≤ A.term u)
        (fun _ => ⟨⟨_, hlead⟩, le_rfl⟩) (fun T u _ => h.acks) T u
      acks_le := h.acks_le_append e hlog
      retained := h.retained_append e hlead hlog
      brought := by
        intro T' u c w hv hcounts T hT n hn
        have hacked : (A.append v e).acked T u = A.acked T u := if_neg (h.ne_own_term hv hT)
        rw [hacked] at hn
        exact h.brought_mono g hv (counts_of_extends g hcounts) hT hn }

/-! ## Taking over entries of the leader -/

section Accept

variable [DecidableEq E]

theorem accept_acts (v : N) (m : ℕ) : ActsOf v A (A.accept v m) where
  grows :=
    { Extends.refl A with
      acked := by
        intro T u
        simp only [accept, setAt]
        split
        · rename_i hc
          rw [hc.1, hc.2]
          exact le_max_left _ _
        · exact le_rfl }
  others j hj := { Untouched.refl j A with log := by simp [accept, hj] }

omit [DecidableEq N] in
/-- What was acknowledged in an earlier term survives the merge, or the leader never had it. -/
theorem Consistent.retained_merge (h : Consistent termOf q A) {v : N} {x : N × Finset N}
    (hx : A.elected (A.term v) = some x) {T n : ℕ} (hT : T < A.term v) (hn : n ≤ A.acked T v)
    (m : ℕ) :
    (A.leaderLog T).take n <+: mergeTake (A.leaderLog (A.term v)) m (A.log v) ∨
      A.Superseded T (A.term v + 1) ((A.leaderLog T).take n) := by
  rcases h.retained T v n hn with hp | hs
  · by_cases hcamp : (A.leaderLog T).take n <+: A.campaign (A.term v) x.1
    · exact Or.inl (prefix_mergeTake (hcamp.trans (h.leaders hx).1) hp)
    · exact Or.inr ⟨A.term v, x.1, x.2, hT, Nat.lt_succ_self _, hx, hcamp⟩
  · exact Or.inr hs

omit [DecidableEq N] in
/-- What was acknowledged in the leader's term, or is now, is in the merged log. -/
theorem Consistent.retained_mergeTake (h : Consistent termOf q A) {v : N} {m n : ℕ}
    (hn : n ≤ max (A.acked (A.term v) v) m) :
    (A.leaderLog (A.term v)).take n <+: mergeTake (A.leaderLog (A.term v)) m (A.log v) := by
  rcases le_max_iff.mp hn with hn | hn
  · rcases h.retained _ v n hn with hp | ⟨T', i, Q, hlt, hlt', -, -⟩
    · exact prefix_mergeTake (List.take_prefix n _) hp
    · omega
  · exact (List.take_prefix_take_left hn).trans (take_prefix_mergeTake _ m _)

omit [DecidableEq N] in
theorem Consistent.coherent_mergeTake (h : Consistent termOf q A) {v : N} {x : N × Finset N}
    (hx : A.elected (A.term v) = some x) (m : ℕ) :
    Coherent termOf A (mergeTake (A.leaderLog (A.term v)) m (A.log v)) := by
  unfold mergeTake
  split
  · exact h.logs v
  · exact (h.leaderLogs hx).of_isPrefix (List.take_prefix _ _)

omit [DecidableEq N] in
theorem Consistent.le_mergeTake (h : Consistent termOf q A) {v : N} {x : N × Finset N}
    (hx : A.elected (A.term v) = some x) (m : ℕ) :
    ∀ e ∈ mergeTake (A.leaderLog (A.term v)) m (A.log v), termOf e ≤ A.term v := by
  unfold mergeTake
  split
  · exact h.logs_le v
  · exact fun e he => h.leaderLogs_le hx e (List.mem_of_mem_take he)

theorem Consistent.retained_accept (h : Consistent termOf q A) {v : N} {m : ℕ}
    {x : N × Finset N} (hx : A.elected (A.term v) = some x) (T : ℕ) (u : N) (n : ℕ)
    (hn : n ≤ (A.accept v m).acked T u) :
    (A.leaderLog T).take n <+: (A.accept v m).log u ∨
      A.Superseded T (A.term u + 1) ((A.leaderLog T).take n) := by
  have hacked : ∀ {T u}, ¬(T = A.term v ∧ u = v) → (A.accept v m).acked T u = A.acked T u :=
    fun hc => if_neg hc
  by_cases hu : u = v
  · subst hu
    have hl : (A.accept u m).log u = mergeTake (A.leaderLog (A.term u)) m (A.log u) :=
      Function.update_self _ _ _
    rw [hl]
    rcases Nat.lt_trichotomy T (A.term u) with hT | rfl | hT
    · rw [hacked fun hc => hT.ne hc.1] at hn
      exact h.retained_merge hx hT hn m
    · have hself : (A.accept u m).acked (A.term u) u = max (A.acked (A.term u) u) m :=
        setAt_self _ _ _ _
      rw [hself] at hn
      exact Or.inl (h.retained_mergeTake hn)
    · rw [hacked fun hc => hT.ne' hc.1] at hn
      obtain rfl : n = 0 := Nat.le_zero.mp (hn.trans (h.acked_of_later hT).le)
      exact Or.inl (by simp)
  · have hl : (A.accept v m).log u = A.log u := Function.update_of_ne hu _ _
    rw [hacked fun hc => hu hc.2] at hn
    rw [hl]
    exact h.retained T u n hn

theorem Consistent.accept (h : Consistent termOf q A) {v : N} {m : ℕ} {x : N × Finset N}
    (hx : A.elected (A.term v) = some x) (hm : m ≤ (A.leaderLog (A.term v)).length) :
    Consistent termOf q (A.accept v m) := by
  have g := (accept_acts (A := A) v m).grows
  exact
    { logs := (Function.forall_update_iff A.log fun _ l => Coherent termOf A l).mpr
        ⟨h.coherent_mergeTake hx m, fun u _ => h.logs u⟩
      logs_le := (Function.forall_update_iff A.log fun u l => ∀ e ∈ l, termOf e ≤ A.term u).mpr
        ⟨h.le_mergeTake hx m, fun u _ => h.logs_le u⟩
      leaderLogs := h.leaderLogs
      leaderLogs_le := h.leaderLogs_le
      voters := h.voters
      candidates := fun hv => (h.candidates hv).mono g
      quorums := h.quorums
      leaders := fun {T i Q} he => ⟨(h.leaders he).1, forall_setAt
        (fun T i n => ∀ Q, A.elected T = some (i, Q) → n = (A.leaderLog T).length)
        (fun Q he => by rw [(h.leaders he).2, max_eq_left hm])
        (fun T i _ Q he => (h.leaders he).2) T i Q he⟩
      acks := fun {T u} => forall_setAt
        (fun T u n => n ≠ 0 → (∃ x, A.elected T = some x) ∧ T ≤ A.term u)
        (fun _ => ⟨⟨x, hx⟩, le_rfl⟩) (fun T u _ => h.acks) T u
      acks_le := forall_setAt (fun T _ n => n ≤ (A.leaderLog T).length)
        (max_le (h.acks_le _ _) hm) fun T u _ => h.acks_le T u
      retained := h.retained_accept hx
      brought := by
        intro T' u c w hv hcounts T hT n hn
        have hacked : (A.accept v m).acked T u = A.acked T u := if_neg (h.ne_own_term hv hT)
        rw [hacked] at hn
        exact h.brought hv hcounts T hT n hn }

end Accept

end Steps

end Lib.Replication
