import Pynchronize.Queue.Consumers

/-!
# Subscriptions while the consumer loop runs

`_consumer_loop` walks over the live `self.consumers`, and is suspended in that
walk at every handler and every `ack`. A handler for a queue that is there
already joins a list of the dict; one for a new queue makes an entry, and then
the next step of the walk raises outside of every `try`. `loop_survives_iff`: a
run keeps the loop going exactly when none of its steps does this.
-/

namespace Pynchronize.ConsumerNode

open Lib

variable {P : Type*}

/-- A subscription makes no entry in `consumers` while the loop is suspended inside its walk. -/
def subscribesQuietly (s : ConsumerNode P) : ConsumerAction P → Bool
  | .subscribe queueName =>
    match s.loop with
    | .handling _ | .acking _ => s.consumers.contains queueName
    | .sleeping | .dead => true
  | _ => true

/-- The call that the loop is suspended in. -/
def Awaits (s : ConsumerNode P) (call : HandlerCall) : Prop :=
  s.loop = .handling call ∨ s.loop = .acking call

/-- The loop runs. A walk that is suspended can go on, and the queues that it has still to come to
    are those after its own in `consumers`. -/
structure Serving (s : ConsumerNode P) : Prop where
  alive : s.loop ≠ .dead
  walk : ∀ call, s.Awaits call → call.size = s.consumers.keys.length ∧
    call.queueName :: call.queues <:+ s.consumers.keys

/-- The loop is dead, or is inside a walk over a dict that has grown. -/
def Doomed (s : ConsumerNode P) : Prop :=
  s.loop = .dead ∨ ∃ call, s.Awaits call ∧ call.size < s.consumers.keys.length

/-! ## How the walk goes on -/

/-- Where the walk over `queues` comes to when the dict had `size` entries at its start. -/
structure Walked (s s' : ConsumerNode P) (size : ℕ) (queues : List String) : Prop where
  consumers : s'.consumers = s.consumers
  loop : (s'.loop = .sleeping ∧ s.consumers.keys.length = size) ∨
    (∃ call, s'.loop = .handling call ∧ call.size = size ∧
      call.queueName :: call.queues <:+ queues) ∨
    (s'.loop = .dead ∧ s.consumers.keys.length ≠ size)

theorem Walked.mono {s s' : ConsumerNode P} {size : ℕ} {queues queues' : List String}
    (h : Walked s s' size queues) (hq : queues <:+ queues') : Walked s s' size queues' := by
  refine ⟨h.consumers, ?_⟩
  rcases h.loop with hend | ⟨call, hloop, hsize, hsuffix⟩ | hdead
  · exact Or.inl hend
  · exact Or.inr (Or.inl ⟨call, hloop, hsize, hsuffix.trans hq⟩)
  · exact Or.inr (Or.inr hdead)

theorem walked_nextQueue (now : ℚ) (s : ConsumerNode P) (size : ℕ) (queues : List String) :
    Walked s (s.nextQueue now size queues) size queues := by
  induction queues with
  | nil =>
    unfold nextQueue
    split
    · rename_i hsize
      exact ⟨rfl, Or.inl ⟨rfl, hsize⟩⟩
    · rename_i hsize
      exact ⟨rfl, Or.inr (Or.inr ⟨rfl, hsize⟩)⟩
  | cons queueName queues ih =>
    have hrest := ih.mono (List.suffix_cons queueName queues)
    unfold nextQueue
    split
    · split
      · exact hrest
      · split
        · exact ⟨rfl, Or.inr (Or.inl ⟨_, rfl, rfl, List.suffix_rfl⟩)⟩
        · exact hrest
    · rename_i hsize
      exact ⟨rfl, Or.inr (Or.inr ⟨rfl, hsize⟩)⟩

theorem walked_nextMessage (now : ℚ) (s : ConsumerNode P) (call : HandlerCall) :
    Walked s (s.nextMessage now call) call.size (call.queueName :: call.queues) := by
  unfold nextMessage
  split
  · exact ⟨rfl, Or.inr (Or.inl ⟨_, rfl, rfl, List.suffix_rfl⟩)⟩
  · exact (walked_nextQueue now s call.size call.queues).mono (List.suffix_cons ..)

theorem walked_nextHandler (now : ℚ) (s : ConsumerNode P) (call : HandlerCall) :
    Walked s (s.nextHandler now call) call.size (call.queueName :: call.queues) := by
  unfold nextHandler
  split
  · exact ⟨rfl, Or.inr (Or.inl ⟨_, rfl, rfl, List.suffix_rfl⟩)⟩
  · obtain ⟨hconsumers, hloop⟩ := walked_nextMessage now
      (s.changed { s.node with inFlight := s.node.inFlight.erase call.messageId }
        call.messageId) call
    exact ⟨hconsumers, hloop⟩

/-! ## What a step does to the loop -/

/-- A step leaves the loop and `consumers` alone, subscribes, or takes the loop on. -/
inductive Turn (s s' : ConsumerNode P) : ConsumerAction P → Prop
  | aside {a : ConsumerAction P} (hquiet : s.subscribesQuietly a = true)
      (hloop : s'.loop = s.loop) (hconsumers : s'.consumers = s.consumers) : Turn s s' a
  | subscribes (queueName : String) (hloop : s'.loop = s.loop)
      (hconsumers : s'.consumers =
        s.consumers.set queueName (s.handlers queueName + 1)) : Turn s s' (.subscribe queueName)
  | begins {a : ConsumerAction P} (hquiet : s.subscribesQuietly a = true)
      (hloop : s.loop = .sleeping)
      (h : Walked s s' s.consumers.keys.length s.consumers.keys) : Turn s s' a
  | acks {a : ConsumerAction P} {call : HandlerCall} (hquiet : s.subscribesQuietly a = true)
      (hcall : s.Awaits call) (hloop : s'.loop = .acking call)
      (hconsumers : s'.consumers = s.consumers) : Turn s s' a
  | goesOn {a : ConsumerAction P} {call : HandlerCall} (hquiet : s.subscribesQuietly a = true)
      (hcall : s.Awaits call) (h : Walked s s' call.size (call.queueName :: call.queues)) :
      Turn s s' a

theorem aside_ackHere (cfg : QueueConfig) (s : ConsumerNode P) (targeted : Bool)
    (messageId : String) : (s.ackHere cfg targeted messageId).loop = s.loop ∧
      (s.ackHere cfg targeted messageId).consumers = s.consumers := by
  unfold ackHere
  split <;> exact ⟨rfl, rfl⟩

theorem aside_foldl_redeliverOne (cfg : QueueConfig) (now : ℚ) (ids : List String)
    (s : ConsumerNode P) : (ids.foldl (redeliverOne cfg now) s).loop = s.loop ∧
      (ids.foldl (redeliverOne cfg now) s).consumers = s.consumers := by
  induction ids generalizing s with
  | nil => exact ⟨rfl, rfl⟩
  | cons id ids ih => exact ih (s.redeliverOne cfg now id)

theorem turn_step {cfg : QueueConfig} {s s' : ConsumerNode P} {a : ConsumerAction P}
    (h : s.step cfg a = some s') : Turn s s' a := by
  cases stepped h with
  | publish | handlePublish | consume | notResponsible | handleConsume | handleAck =>
    exact .aside rfl rfl rfl
  | subscribe queueName => exact .subscribes queueName rfl rfl
  | ack targeted messageId =>
    obtain ⟨hloop, hconsumers⟩ := aside_ackHere cfg s targeted messageId
    exact .aside rfl hloop hconsumers
  | redeliver now =>
    obtain ⟨hloop, hconsumers⟩ := aside_foldl_redeliverOne cfg now s.node.inFlight.keys s
    exact .aside rfl hloop hconsumers
  | wake now hloop => exact .begins rfl hloop (walked_nextQueue now s _ _)
  | @handled call targeted now hloop =>
    exact .acks rfl (Or.inl hloop) rfl (aside_ackHere cfg s targeted call.messageId).2
  | handledUnknown targeted now hloop =>
    exact .goesOn rfl (Or.inl hloop) (walked_nextMessage now s _)
  | declined targeted now hloop => exact .goesOn rfl (Or.inl hloop) (walked_nextHandler now s _)
  | handlerRaises now hloop => exact .goesOn rfl (Or.inl hloop) (walked_nextHandler now s _)
  | ackReturns now hloop => exact .goesOn rfl (Or.inr hloop) (walked_nextMessage now s _)
  | ackRaises now hloop => exact .goesOn rfl (Or.inr hloop) (walked_nextHandler now s _)

/-! ## What a step does to the walk -/

variable {s s' : ConsumerNode P} {a : ConsumerAction P}

theorem awaits_congr (hloop : s'.loop = s.loop) (call : HandlerCall) :
    s'.Awaits call ↔ s.Awaits call := by
  unfold Awaits
  rw [hloop]

theorem Awaits.unique {call call' : HandlerCall} (h : s.Awaits call) (h' : s.Awaits call') :
    call = call' := by
  rcases h with hloop | hloop
  · rcases h' with hloop' | hloop'
    · exact ConsumerLoop.handling.inj (hloop.symm.trans hloop')
    · cases hloop.symm.trans hloop'
  · rcases h' with hloop' | hloop'
    · cases hloop.symm.trans hloop'
    · exact ConsumerLoop.acking.inj (hloop.symm.trans hloop')

theorem Awaits.not_sleeping {call : HandlerCall} (h : s.Awaits call) : s.loop ≠ .sleeping := by
  intro hsleeping
  rcases h with hloop | hloop
  · rw [hloop] at hsleeping
    cases hsleeping
  · rw [hloop] at hsleeping
    cases hsleeping

theorem Awaits.not_dead {call : HandlerCall} (h : s.Awaits call) : s.loop ≠ .dead := by
  intro hdead
  rcases h with hloop | hloop
  · rw [hloop] at hdead
    cases hdead
  · rw [hloop] at hdead
    cases hdead

theorem serving_of_sleeping (hloop : s.loop = .sleeping) : s.Serving := by
  refine ⟨fun hdead => ?_, fun call hcall => absurd hloop hcall.not_sleeping⟩
  rw [hloop] at hdead
  cases hdead

theorem Awaits.serving {call : HandlerCall} (h : s.Awaits call)
    (hwalk : call.size = s.consumers.keys.length ∧
      call.queueName :: call.queues <:+ s.consumers.keys) : s.Serving :=
  ⟨h.not_dead, fun _ hcall => h.unique hcall ▸ hwalk⟩

theorem Doomed.not_serving (h : s.Doomed) : ¬ s.Serving := by
  intro hs
  rcases h with hdead | ⟨call, hcall, hsize⟩
  · exact hs.alive hdead
  · exact absurd (hs.walk call hcall).1 (Nat.ne_of_lt hsize)

theorem Doomed.not_sleeping (h : s.Doomed) : s.loop ≠ .sleeping := by
  rcases h with hdead | ⟨call, hcall, -⟩
  · intro hsleeping
    rw [hdead] at hsleeping
    cases hsleeping
  · exact hcall.not_sleeping

theorem Serving.of_aside (h : s.Serving) (hloop : s'.loop = s.loop)
    (hkeys : s'.consumers.keys = s.consumers.keys) : s'.Serving := by
  refine ⟨hloop ▸ h.alive, fun call hcall => ?_⟩
  rw [hkeys]
  exact h.walk call ((awaits_congr hloop call).mp hcall)

theorem Doomed.of_aside (h : s.Doomed) (hloop : s'.loop = s.loop)
    (hkeys : s.consumers.keys.length ≤ s'.consumers.keys.length) : s'.Doomed := by
  rcases h with hdead | ⟨call, hcall, hsize⟩
  · exact Or.inl (hloop.trans hdead)
  · exact Or.inr ⟨call, (awaits_congr hloop call).mpr hcall, hsize.trans_le hkeys⟩

theorem Walked.serving {size : ℕ} {queues : List String} (h : Walked s s' size queues)
    (hsize : size = s.consumers.keys.length) (hq : queues <:+ s.consumers.keys) :
    s'.Serving := by
  rcases h.loop with ⟨hloop, -⟩ | ⟨call, hloop, hcall, hsuffix⟩ | ⟨-, hne⟩
  · exact serving_of_sleeping hloop
  · refine Awaits.serving (Or.inl hloop) ?_
    rw [h.consumers]
    exact ⟨hcall.trans hsize, hsuffix.trans hq⟩
  · exact absurd hsize.symm hne

theorem Walked.doomed {size : ℕ} {queues : List String} (h : Walked s s' size queues)
    (hsize : size < s.consumers.keys.length) : s'.Doomed := by
  rcases h.loop with ⟨-, heq⟩ | ⟨call, hloop, hcall, -⟩ | ⟨hloop, -⟩
  · exact absurd heq (Nat.ne_of_gt hsize)
  · refine Or.inr ⟨call, Or.inl hloop, ?_⟩
    rw [h.consumers]
    exact hcall.trans_lt hsize
  · exact Or.inl hloop

theorem quiet_subscribe_iff {queueName : String} :
    s.subscribesQuietly (.subscribe queueName) = true ↔
      ∀ call, s.Awaits call → s.consumers.contains queueName = true := by
  unfold subscribesQuietly Awaits
  cases s.loop with
  | sleeping => simp
  | handling call => simp
  | acking call => simp
  | dead => simp

theorem serving_subscribe {queueName : String} (hs : s.Serving) (hloop : s'.loop = s.loop)
    (hconsumers : s'.consumers = s.consumers.set queueName (s.handlers queueName + 1))
    (hquiet : s.subscribesQuietly (.subscribe queueName) = true) : s'.Serving := by
  refine ⟨hloop ▸ hs.alive, fun call hcall => ?_⟩
  have hcall' := (awaits_congr hloop call).mp hcall
  have hcontains := quiet_subscribe_iff.mp hquiet call hcall'
  rw [hconsumers, Dict.keys_set, if_pos ((Dict.contains_iff_mem_keys _ _).mp hcontains)]
  exact hs.walk call hcall'

theorem doomed_subscribe {queueName : String} (hs : s.Serving) (hloop : s'.loop = s.loop)
    (hconsumers : s'.consumers = s.consumers.set queueName (s.handlers queueName + 1))
    (hnoisy : ¬ s.subscribesQuietly (.subscribe queueName) = true) : s'.Doomed := by
  rw [quiet_subscribe_iff, not_forall] at hnoisy
  obtain ⟨call, hnoisy⟩ := hnoisy
  obtain ⟨hcall, hnew⟩ := Classical.not_imp.mp hnoisy
  refine Or.inr ⟨call, (awaits_congr hloop call).mpr hcall, ?_⟩
  rw [Dict.contains_iff_mem_keys] at hnew
  rw [hconsumers, Dict.keys_set, if_neg hnew, List.length_append, (hs.walk call hcall).1]
  exact Nat.lt_succ_self _

/-- From a state in which the loop serves, a quiet step leads to another one. -/
theorem serving_step {cfg : QueueConfig} (hs : s.Serving)
    (hquiet : s.subscribesQuietly a = true) (h : s.step cfg a = some s') : s'.Serving := by
  cases turn_step h with
  | aside _ hloop hconsumers => exact hs.of_aside hloop (by rw [hconsumers])
  | subscribes queueName hloop hconsumers => exact serving_subscribe hs hloop hconsumers hquiet
  | begins _ _ hwalk => exact hwalk.serving rfl List.suffix_rfl
  | acks _ hcall hloop hconsumers =>
    refine Awaits.serving (Or.inr hloop) ?_
    rw [hconsumers]
    exact hs.walk _ hcall
  | goesOn _ hcall hwalk =>
    obtain ⟨hsize, hsuffix⟩ := hs.walk _ hcall
    exact hwalk.serving hsize hsuffix

theorem doomed_of_noisy {cfg : QueueConfig} (hs : s.Serving)
    (hnoisy : ¬ s.subscribesQuietly a = true) (h : s.step cfg a = some s') : s'.Doomed := by
  cases turn_step h with
  | aside hquiet => exact absurd hquiet hnoisy
  | subscribes queueName hloop hconsumers => exact doomed_subscribe hs hloop hconsumers hnoisy
  | begins hquiet => exact absurd hquiet hnoisy
  | acks hquiet => exact absurd hquiet hnoisy
  | goesOn hquiet => exact absurd hquiet hnoisy

theorem Doomed.size_lt (h : s.Doomed) {call : HandlerCall} (hcall : s.Awaits call) :
    call.size < s.consumers.keys.length := by
  rcases h with hdead | ⟨call', hcall', hsize⟩
  · exact absurd hdead hcall.not_dead
  · exact hcall'.unique hcall ▸ hsize

/-- Nothing saves a loop whose dict has grown under its walk. -/
theorem doomed_step {cfg : QueueConfig} (hs : s.Doomed) (h : s.step cfg a = some s') :
    s'.Doomed := by
  cases turn_step h with
  | aside _ hloop hconsumers => exact hs.of_aside hloop (by rw [hconsumers])
  | subscribes queueName hloop hconsumers =>
    exact hs.of_aside hloop (by rw [hconsumers]; exact Dict.length_le_set ..)
  | begins _ hloop => exact absurd hloop hs.not_sleeping
  | @acks _ call _ hcall hloop hconsumers =>
    refine Or.inr ⟨call, Or.inr hloop, ?_⟩
    rw [hconsumers]
    exact hs.size_lt hcall
  | goesOn _ hcall hwalk => exact hwalk.doomed (hs.size_lt hcall)

/-! ## Runs -/

theorem serving_boot (cfg : QueueConfig) (clock : String → ℚ) (nodeId : String) :
    (boot cfg clock nodeId : ConsumerNode P).Serving := serving_of_sleeping rfl

theorem doomed_run {cfg : QueueConfig} {acts : List (ConsumerAction P)} (hs : s.Doomed)
    (hrun : Transition.run (step cfg) s acts = some s') : s'.Doomed :=
  Transition.run_preserves (P := fun _ _ => True) (fun _ _ _ hI _ hstep => doomed_step hI hstep)
    hs (Transition.eachStep_of_forall s fun _ _ _ => trivial) hrun

/-- A run with a step that is not quiet ends in a doomed loop. -/
theorem doomed_of_not_quiet {cfg : QueueConfig} {acts : List (ConsumerAction P)}
    (hs : s.Serving) (hrun : Transition.run (step cfg) s acts = some s')
    (hnoisy : ¬ Transition.EachStep (step cfg) (fun s a => s.subscribesQuietly a = true) s acts) :
    s'.Doomed := by
  induction acts generalizing s with
  | nil => exact absurd trivial hnoisy
  | cons a rest ih =>
    obtain ⟨t, hstep, hrest⟩ := Transition.run_cons hrun
    by_cases hquiet : s.subscribesQuietly a = true
    · refine ih (serving_step hs hquiet hstep) hrest fun h => hnoisy ⟨hquiet, ?_⟩
      rwa [hstep]
    · exact doomed_run (doomed_of_noisy hs hquiet hstep) hrest

/-! ## A doomed loop dies when its handlers return -/

theorem nextQueue_raises (now : ℚ) {size : ℕ} (hsize : s.consumers.keys.length ≠ size)
    (queues : List String) : (s.nextQueue now size queues).loop = .dead := by
  cases queues with
  | nil =>
    unfold nextQueue
    rw [if_neg hsize]
  | cons queueName queues =>
    unfold nextQueue
    rw [if_neg hsize]

theorem length_takeUp {inFlight : Dict String ℚ} {ids rest : List String} {id : String}
    (h : takeUp inFlight ids = some (id, rest)) : rest.length < ids.length := by
  induction ids with
  | nil => cases h
  | cons first ids ih =>
    unfold takeUp at h
    split at h
    · exact (ih h).trans (Nat.lt_succ_self _)
    · obtain ⟨-, rfl⟩ := Prod.mk.inj (Option.some.inj h)
      exact Nat.lt_succ_self _

/-- Over a dict that has grown, the loop finds another message in the queue or dies. -/
theorem nextMessage_raises (now : ℚ) {call : HandlerCall}
    (hsize : call.size < s.consumers.keys.length) :
    (s.nextMessage now call).loop = .dead ∨ ∃ call', (s.nextMessage now call).loop =
      .handling call' ∧ call'.messages.length < call.messages.length ∧
        call'.size < (s.nextMessage now call).consumers.keys.length := by
  unfold nextMessage
  split
  · rename_i htake
    exact Or.inr ⟨_, rfl, length_takeUp htake, hsize⟩
  · exact Or.inl (nextQueue_raises now (Nat.ne_of_gt hsize) call.queues)

theorem handling_raises (cfg : QueueConfig) (messages : ℕ) :
    ∀ (handlers : ℕ) (s : ConsumerNode P) (call : HandlerCall), s.loop = .handling call →
      call.size < s.consumers.keys.length → call.messages.length < messages →
      s.handlers call.queueName - call.handler < handlers →
      ∃ more u, Transition.run (step cfg) s more = some u ∧ u.loop = .dead := by
  -- every handler in turn raises for the message, then for the next message
  induction messages with
  | zero => exact fun _ _ _ _ _ hmessages => absurd hmessages (Nat.not_lt_zero _)
  | succ messages ih =>
    intro handlers
    induction handlers with
    | zero => exact fun _ _ _ _ _ hhandlers => absurd hhandlers (Nat.not_lt_zero _)
    | succ handlers ihh =>
      intro s call hloop hsize hmessages hhandlers
      have hstep : s.step cfg (.handlerRaises 0) = some (s.nextHandler 0 call) := by
        simp only [step, hloop]
      have hgo : ∀ t, s.nextHandler 0 call = t →
          (∃ more u, Transition.run (step cfg) t more = some u ∧ u.loop = .dead) →
          ∃ more u, Transition.run (step cfg) s more = some u ∧ u.loop = .dead := by
        rintro t rfl ⟨more, u, hrun, hdead⟩
        exact ⟨.handlerRaises 0 :: more, u, (Transition.run_of_step hstep more).trans hrun, hdead⟩
      by_cases hnext : s.hasNext call = true
      · refine hgo _ (if_pos hnext) ?_
        have hlt : call.handler + 1 < s.handlers call.queueName := by
          simpa [hasNext] using hnext
        refine ihh _ { call with handler := call.handler + 1 } rfl hsize hmessages ?_
        show s.handlers call.queueName - (call.handler + 1) < handlers
        omega
      · refine hgo _ (if_neg hnext) ?_
        rcases nextMessage_raises (s := s.changed
            { s.node with inFlight := s.node.inFlight.erase call.messageId } call.messageId) 0
            hsize with hdead | ⟨call', hloop', hshorter, hsize'⟩
        · exact ⟨[], _, rfl, hdead⟩
        · exact ih _ _ call' hloop' hsize' (by omega) (Nat.lt_succ_self _)

theorem Doomed.raises (cfg : QueueConfig) (h : s.Doomed) :
    ∃ more u, Transition.run (step cfg) s more = some u ∧ u.loop = .dead := by
  rcases h with hdead | ⟨call, hloop | hloop, hsize⟩
  · exact ⟨[], s, rfl, hdead⟩
  · exact handling_raises cfg _ _ s call hloop hsize (Nat.lt_succ_self _) (Nat.lt_succ_self _)
  · have hstep : s.step cfg (.ackReturns 0) = some (s.nextMessage 0 call) := by
      simp only [step, hloop]
    rcases nextMessage_raises 0 hsize with hdead | ⟨call', hloop', -, hsize'⟩
    · exact ⟨[.ackReturns 0], _, Transition.run_single hstep, hdead⟩
    · obtain ⟨more, u, hrun, hdead⟩ := handling_raises cfg _ _ (s.nextMessage 0 call) call' hloop'
        hsize' (Nat.lt_succ_self _) (Nat.lt_succ_self _)
      exact ⟨.ackReturns 0 :: more, u, (Transition.run_of_step hstep more).trans hrun, hdead⟩

/-- **Survival of the consumer loop.** The loop serves in every state of a run exactly when no
step of the run subscribes to a new queue while the loop is inside its walk. After such a step the
walk never comes to its end, and dies when its handlers have returned. -/
theorem loop_survives_iff {cfg : QueueConfig} {clock : String → ℚ} {nodeId : String}
    {acts : List (ConsumerAction P)}
    (hrun : Transition.run (step cfg) (boot cfg clock nodeId) acts = some s') :
    (Transition.Throughout (step cfg) Serving (boot cfg clock nodeId) acts ↔
      Transition.EachStep (step cfg) (fun s a => s.subscribesQuietly a = true)
        (boot cfg clock nodeId) acts) ∧
    (¬ Transition.EachStep (step cfg) (fun s a => s.subscribesQuietly a = true)
        (boot cfg clock nodeId) acts →
      (∀ more u, Transition.run (step cfg) s' more = some u → u.loop ≠ .sleeping) ∧
      ∃ more u, Transition.run (step cfg) s' more = some u ∧ u.loop = .dead) := by
  have hboot := serving_boot (P := P) cfg clock nodeId
  refine ⟨?_, fun hnoisy => ?_⟩
  · refine Transition.throughout_iff (J := fun _ => True) (fun s a t _ _ hs hstep => ?_) trivial
      (Transition.throughout_of_step (fun _ _ _ _ _ => trivial) trivial acts) hboot hrun
    by_cases hquiet : s.subscribesQuietly a = true
    · exact iff_of_true (serving_step hs hquiet hstep) hquiet
    · exact iff_of_false (doomed_of_noisy hs hquiet hstep).not_serving hquiet
  · have hdoomed := doomed_of_not_quiet hboot hrun hnoisy
    exact ⟨fun more u hmore => (doomed_run hdoomed hmore).not_sleeping, hdoomed.raises cfg⟩

/-- A second handler joins while the first one runs, and a new queue comes while the loop sleeps. -/
def quietSubscriptions : List (ConsumerAction ℕ) :=
  [.publish true "jobs" 7 "m1" 1, .subscribe "jobs", .wake 2, .subscribe "jobs",
    .handlerReturns false true 3, .handlerReturns true true 4, .ackReturns 5, .subscribe "mail",
    .publish true "mail" 8 "m2" 6, .wake 7]

theorem loop_survives_iff_quietSubscriptions :
    ∃ s' call, Transition.run (step RecordedNode.oneNode)
        (boot RecordedNode.oneNode (fun _ => 0) "a") quietSubscriptions = some s' ∧
      s'.loop = .handling call ∧ call.messageId = "m2" ∧
      Transition.Throughout (step RecordedNode.oneNode) Serving
        (boot RecordedNode.oneNode (fun _ => 0) "a") quietSubscriptions :=
  ⟨_, _, rfl, rfl, rfl, (loop_survives_iff rfl).1.mpr (by decide +kernel)⟩

/-- A handler runs while another queue gets its first one. -/
theorem subscribe_kills_loop :
    ¬ ∀ (acts : List (ConsumerAction ℕ)) (s' : ConsumerNode ℕ),
      Transition.run (step RecordedNode.oneNode) (boot RecordedNode.oneNode (fun _ => 0) "a")
        acts = some s' → s'.loop ≠ .dead := by
  intro hclaim
  exact hclaim [.publish true "jobs" 7 "m1" 1, .subscribe "jobs", .wake 2, .subscribe "mail",
    .handlerReturns true true 3, .ackReturns 4] _ rfl rfl

end Pynchronize.ConsumerNode
