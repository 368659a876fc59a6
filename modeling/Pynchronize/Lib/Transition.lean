import Mathlib.Data.Option.Basic

/-!
Runs of a system whose actions are possible in some states only, and what
holds along them.
-/

namespace Lib.Transition

variable {σ α : Type*} (step : σ → α → Option σ)

/-- The state after a list of actions, `none` if one of them is not possible. -/
def run (s : σ) : List α → Option σ
  | [] => some s
  | a :: rest => (step s a).bind fun s' => run s' rest

/-- `P` holds at every step of the run. -/
def EachStep (P : σ → α → Prop) (s : σ) : List α → Prop
  | [] => True
  | a :: rest => P s a ∧ match step s a with
    | some s' => EachStep P s' rest
    | none => True

instance EachStep.decidable {P : σ → α → Prop} [∀ s a, Decidable (P s a)] (s : σ)
    (acts : List α) : Decidable (EachStep step P s acts) :=
  match acts with
  | [] => inferInstanceAs (Decidable True)
  | a :: rest =>
    have : Decidable (match step s a with
      | some s' => EachStep step P s' rest
      | none => True) :=
      match step s a with
      | some s' => EachStep.decidable s' rest
      | none => inferInstanceAs (Decidable True)
    inferInstanceAs (Decidable (_ ∧ _))

/-- `I` holds in every state that the run comes to. -/
def Throughout (I : σ → Prop) (s : σ) (acts : List α) : Prop :=
  EachStep step (fun s a => ∀ s', step s a = some s' → I s') s acts

variable {step}

theorem run_cons {s s' : σ} {a : α} {rest : List α} (h : run step s (a :: rest) = some s') :
    ∃ t, step s a = some t ∧ run step t rest = some s' :=
  Option.bind_eq_some_iff.mp h

theorem run_of_step {s t : σ} {a : α} (h : step s a = some t) (rest : List α) :
    run step s (a :: rest) = run step t rest := by
  show (step s a).bind _ = _
  rw [h]
  rfl

theorem run_single {s t : σ} {a : α} (h : step s a = some t) : run step s [a] = some t :=
  run_of_step h []

theorem run_append (s : σ) (xs ys : List α) :
    run step s (xs ++ ys) = (run step s xs).bind fun t => run step t ys := by
  induction xs generalizing s with
  | nil => rfl
  | cons a xs ih =>
    show (step s a).bind _ = ((step s a).bind _).bind _
    cases step s a with
    | none => rfl
    | some t => exact ih t

theorem run_append_of_run {s t : σ} {xs : List α} (h : run step s xs = some t) (ys : List α) :
    run step s (xs ++ ys) = run step t ys := by
  rw [run_append, h]
  rfl

theorem EachStep.tail {P : σ → α → Prop} {s t : σ} {a : α} {rest : List α}
    (h : EachStep step P s (a :: rest)) (ht : step s a = some t) : EachStep step P t rest := by
  have := h.2
  rwa [ht] at this

theorem eachStep_of_forall {P : σ → α → Prop} (s : σ) {acts : List α}
    (h : ∀ s, ∀ a ∈ acts, P s a) : EachStep step P s acts := by
  induction acts generalizing s with
  | nil => trivial
  | cons a rest ih =>
    refine ⟨h s a (List.mem_cons_self ..), ?_⟩
    cases step s a with
    | none => trivial
    | some t => exact ih t fun s b hb => h s b (List.mem_cons_of_mem _ hb)

theorem EachStep.append {P : σ → α → Prop} {s : σ} {xs ys : List α}
    (h : EachStep step P s (xs ++ ys)) :
    EachStep step P s xs ∧ ∀ t, run step s xs = some t → EachStep step P t ys := by
  induction xs generalizing s with
  | nil => exact ⟨trivial, fun t ht => Option.some.inj ht ▸ h⟩
  | cons a xs ih =>
    refine ⟨⟨h.1, ?_⟩, fun t ht => ?_⟩
    · cases hs : step s a with
      | none => trivial
      | some u => exact (ih (h.tail hs)).1
    · obtain ⟨u, hu, hrest⟩ := run_cons ht
      exact (ih (h.tail hu)).2 t hrest

theorem EachStep.imp {P Q : σ → α → Prop} {s : σ} {acts : List α}
    (h : EachStep step P s acts) (hPQ : ∀ s, ∀ a ∈ acts, P s a → Q s a) :
    EachStep step Q s acts := by
  induction acts generalizing s with
  | nil => trivial
  | cons a rest ih =>
    refine ⟨hPQ s a (List.mem_cons_self ..) h.1, ?_⟩
    cases hs : step s a with
    | none => trivial
    | some t => exact ih (h.tail hs) fun s b hb => hPQ s b (List.mem_cons_of_mem _ hb)

theorem EachStep.and {P Q : σ → α → Prop} {s : σ} {acts : List α} (hP : EachStep step P s acts)
    (hQ : EachStep step Q s acts) : EachStep step (fun s a => P s a ∧ Q s a) s acts := by
  induction acts generalizing s with
  | nil => trivial
  | cons a rest ih =>
    refine ⟨⟨hP.1, hQ.1⟩, ?_⟩
    cases hs : step s a with
    | none => trivial
    | some t => exact ih (hP.tail hs) (hQ.tail hs)

/-- What every allowed step preserves holds at the end of every run of allowed steps. -/
theorem run_preserves {I : σ → Prop} {P : σ → α → Prop}
    (hstep : ∀ s a s', I s → P s a → step s a = some s' → I s') {s s' : σ} {acts : List α}
    (hs : I s) (hP : EachStep step P s acts) (hr : run step s acts = some s') : I s' := by
  induction acts generalizing s with
  | nil => exact Option.some.inj hr ▸ hs
  | cons a rest ih =>
    obtain ⟨t, ht, hrest⟩ := run_cons hr
    exact ih (hstep s a t hs hP.1 ht) (hP.tail ht) hrest

theorem throughout_cons {I : σ → Prop} {s t : σ} {a : α} {rest : List α} (h : step s a = some t) :
    Throughout step I s (a :: rest) ↔ I t ∧ Throughout step I t rest := by
  simp only [Throughout, EachStep, h, Option.some.injEq, forall_eq']

/-- What holds throughout a run holds at the end of each of its beginnings. -/
theorem Throughout.prefix {I : σ → Prop} {s t : σ} {xs acts : List α} (hI : I s)
    (h : Throughout step I s acts) (hx : xs <+: acts) (ht : run step s xs = some t) : I t := by
  induction xs generalizing s acts with
  | nil => exact Option.some.inj ht ▸ hI
  | cons a xs ih =>
    obtain ⟨u, hu, hrest⟩ := run_cons ht
    obtain ⟨ys, rfl⟩ := hx
    obtain ⟨hIu, hthrough⟩ := (throughout_cons hu).mp h
    exact ih hIu hthrough (List.prefix_append xs ys) hrest

/-- What holds at the end and was true before whenever it is true after. -/
theorem throughout_of_end {I : σ → Prop} (hback : ∀ s a s', step s a = some s' → I s' → I s)
    {s t : σ} {acts : List α} (hrun : run step s acts = some t) (ht : I t) :
    I s ∧ Throughout step I s acts := by
  induction acts generalizing s with
  | nil => exact ⟨Option.some.inj hrun ▸ ht, trivial⟩
  | cons a rest ih =>
    obtain ⟨u, hu, hrest⟩ := run_cons hrun
    obtain ⟨hIu, hthrough⟩ := ih hrest
    exact ⟨hback s a u hu hIu, (throughout_cons hu).mpr ⟨hIu, hthrough⟩⟩

theorem Throughout.preserves {I J : σ → Prop}
    (hstep : ∀ s a s', J s → I s' → step s a = some s' → J s') {s : σ} {acts : List α} (hs : J s)
    (hI : Throughout step I s acts) : Throughout step J s acts := by
  induction acts generalizing s with
  | nil => trivial
  | cons a rest ih =>
    cases hu : step s a with
    | none =>
      refine ⟨fun u h => ?_, ?_⟩
      · rw [hu] at h
        cases h
      · rw [hu]
        trivial
    | some u =>
      obtain ⟨hIu, hrest⟩ := (throughout_cons hu).mp hI
      have hJu := hstep s a u hs hIu hu
      exact (throughout_cons hu).mpr ⟨hJu, ih hJu hrest⟩

theorem throughout_of_step {J : σ → Prop} (hstep : ∀ s a s', J s → step s a = some s' → J s')
    {s : σ} (hs : J s) (acts : List α) : Throughout step J s acts :=
  Throughout.preserves (I := fun _ => True) (fun s a s' h _ => hstep s a s' h) hs
    (eachStep_of_forall s fun _ _ _ _ _ => trivial)

theorem Throughout.and {I J : σ → Prop} {s : σ} {acts : List α} (hI : Throughout step I s acts)
    (hJ : Throughout step J s acts) : Throughout step (fun s => I s ∧ J s) s acts :=
  (EachStep.and hI hJ).imp fun _ _ _ h s' hs' => ⟨h.1 s' hs', h.2 s' hs'⟩

/-- What a step must have been like for `I` to hold after it. -/
theorem eachStep_of_throughout {I J : σ → Prop} {P : σ → α → Prop}
    (hstep : ∀ s a s', J s → I s' → step s a = some s' → P s a) {s t : σ} {acts : List α}
    (hs : J s) (hJ : Throughout step J s acts) (hI : Throughout step I s acts)
    (hrun : run step s acts = some t) : EachStep step P s acts := by
  induction acts generalizing s with
  | nil => trivial
  | cons a rest ih =>
    obtain ⟨u, hu, hrest⟩ := run_cons hrun
    obtain ⟨hJu, hJrest⟩ := (throughout_cons hu).mp hJ
    obtain ⟨hIu, hIrest⟩ := (throughout_cons hu).mp hI
    refine ⟨hstep s a u hs hIu hu, ?_⟩
    rw [hu]
    exact ih hJu hJrest hIrest hrest

/-- Two conditions on steps that are the same in states with `K`, which the first one keeps. -/
theorem eachStep_congr {K : σ → Prop} {P Q : σ → α → Prop}
    (hiff : ∀ s a s', K s → step s a = some s' → (P s a ↔ Q s a))
    (hnext : ∀ s a s', K s → P s a → step s a = some s' → K s') {s t : σ} {acts : List α}
    (hs : K s) (hrun : run step s acts = some t) :
    EachStep step P s acts ↔ EachStep step Q s acts := by
  induction acts generalizing s with
  | nil => exact Iff.rfl
  | cons a rest ih =>
    obtain ⟨u, hu, hrest⟩ := run_cons hrun
    simp only [EachStep, hu, ← hiff s a u hs hu]
    exact and_congr_right fun hP => ih (hnext s a u hs hP hu) hrest

/-- Two conditions on steps that are the same between states with `J`. -/
theorem eachStep_iff {J : σ → Prop} {P Q : σ → α → Prop}
    (hstep : ∀ s a s', J s → J s' → step s a = some s' → (P s a ↔ Q s a)) {s t : σ}
    {acts : List α} (hs : J s) (hJ : Throughout step J s acts) (hrun : run step s acts = some t) :
    EachStep step P s acts ↔ EachStep step Q s acts := by
  induction acts generalizing s with
  | nil => exact Iff.rfl
  | cons a rest ih =>
    obtain ⟨u, hu, hrest⟩ := run_cons hrun
    obtain ⟨hJu, hJrest⟩ := (throughout_cons hu).mp hJ
    have hfirst := hstep s a u hs hJu hu
    simp only [EachStep, hu]
    exact and_congr hfirst (ih hJu hJrest hrest)

/-- Where a step keeps `I` exactly when it meets `P`, a run keeps `I` exactly when all its steps
    meet `P`; `J` is what else is known of the states. -/
theorem throughout_iff {I J : σ → Prop} {P : σ → α → Prop}
    (hstep : ∀ s a s', J s → J s' → I s → step s a = some s' → (I s' ↔ P s a)) {s t : σ}
    {acts : List α} (hs : J s) (hJ : Throughout step J s acts) (hI : I s)
    (hrun : run step s acts = some t) :
    Throughout step I s acts ↔ EachStep step P s acts := by
  induction acts generalizing s with
  | nil => exact Iff.rfl
  | cons a rest ih =>
    obtain ⟨u, hu, hrest⟩ := run_cons hrun
    obtain ⟨hJu, hJrest⟩ := (throughout_cons hu).mp hJ
    have hfirst := hstep s a u hs hJu hI hu
    have htail : EachStep step P s (a :: rest) ↔ P s a ∧ EachStep step P u rest := by
      simp only [EachStep, hu]
    rw [throughout_cons hu, htail, ← hfirst]
    exact and_congr_right fun hIu => ih hJu hJrest hIu hrest

end Lib.Transition
