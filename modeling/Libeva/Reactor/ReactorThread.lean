import Libeva.Reactor.Dispatch

/-!
# `ReactorThread`

`threadFunc` runs in its own thread; a controlling thread calls `startDispatch`, uses the reactor that it returns, and
destroys the `ReactorThread`. `thread_.start()` does not fail. The lifetime of the reactor on the stack of `threadFunc`
is not part of the state.

* `Stage` is the program point of `threadFunc`, with `Reactor.State.pc` inside of `dispatch`; `Controller` is the one of
  the controlling thread.
* `ReactorThread.stopped`: a `stop` has written `dispatching_`.
* `stop_kept`: a stop is never undone when no stop comes before the first statement of `dispatch`, and only then.
-/

namespace Libeva.Reactor

inductive Stage
  | unstarted
  | construct
  | callback
  | publish
  | dispatch
  | store
  | done
  deriving DecidableEq

/-- Before `startDispatch`; in its loop; before its second load; with the pointer it has returned; in the destructor,
before its load, in `stop` and in `join`; after the destructor. -/
inductive Controller
  | new
  | spin
  | ret
  | holds (nonnull : Bool)
  | load
  | stop
  | wakeup
  | join
  | gone
  deriving DecidableEq

structure ReactorThread (φ : Type*) where
  reactor : State Unit φ
  /-- `reactor_` is not null. -/
  reactor_ : Bool
  thread : Stage
  controller : Controller
  stopped : Bool

namespace ReactorThread

variable {φ : Type*}

inductive Action (φ : Type*)
  | startDispatch
  | destroy
  | controller
  | thread
  | initQueueInReactor (cb : φ)
  | initStop
  | reactor (a : Reactor.Action Unit φ)

/-- Who calls: the reactor thread in `dispatch`, or the controlling thread with the pointer. -/
def Allows (s : ReactorThread φ) : Reactor.Action Unit φ → Prop
  | .tick | .demultiplex _ | .queueInReactor _ | .stop => s.thread = .dispatch
  | .threadTick _ | .threadQueueInReactor _ _ | .threadStop _ => s.controller = .holds true

instance (s : ReactorThread φ) : (a : Reactor.Action Unit φ) → Decidable (s.Allows a)
  | .tick | .demultiplex _ | .queueInReactor _ | .stop => inferInstanceAs (Decidable (s.thread = _))
  | .threadTick _ | .threadQueueInReactor _ _ | .threadStop _ => inferInstanceAs (Decidable (s.controller = _))

/-- The step is the write of a `stop`. -/
def writes : Reactor.Action Unit φ → Bool
  | .stop | .threadStop _ => true
  | _ => false

/-- The next statement of `threadFunc`; in `dispatch` its return. -/
def threadFunc (s : ReactorThread φ) : Option (ReactorThread φ) :=
  match s.thread with
  | .unstarted | .done => none
  | .construct => some { s with reactor := .init, thread := .callback }
  | .callback => some { s with thread := .publish }
  | .publish => some { s with reactor_ := true, thread := .dispatch }
  | .dispatch =>
    match s.reactor.pc with
    | .exit => some { s with thread := .store }
    | _ => none
  | .store => some { s with reactor_ := false, thread := .done }

/-- The next statement of the controlling thread in `startDispatch` or in the destructor. -/
def control (s : ReactorThread φ) : Option (ReactorThread φ) :=
  match s.controller with
  | .spin => some (if s.reactor_ then { s with controller := .ret } else s)
  | .ret => some { s with controller := .holds s.reactor_ }
  | .load => some { s with controller := if s.reactor_ then .stop else .gone }
  | .stop => (Reactor.step s.reactor (.threadStop ())).map fun r =>
    { s with reactor := r, controller := .wakeup, stopped := true }
  | .wakeup => (Reactor.step s.reactor (.threadTick ())).map fun r => { s with reactor := r, controller := .join }
  | .join =>
    match s.thread with
    | .done => some { s with controller := .gone }
    | _ => none
  | .new | .holds _ | .gone => none

def step (s : ReactorThread φ) : Action φ → Option (ReactorThread φ)
  | .startDispatch =>
    match s.controller with
    | .new => some { s with thread := .construct, controller := .spin }
    | _ => none
  | .destroy =>
    match s.controller with
    | .new => some { s with controller := .load }
    | .holds _ => if s.reactor.threads () = .idle then some { s with controller := .load } else none
    | _ => none
  | .controller => s.control
  | .thread => s.threadFunc
  -- callback_ may use the reactor before it is published
  | .initQueueInReactor cb =>
    match s.thread with
    | .callback => some { s with reactor := { s.reactor.push cb with hasPendingFunctors_ := true } }
    | _ => none
  | .initStop =>
    match s.thread with
    | .callback => some { s with reactor := { s.reactor with dispatching_ := false } }
    | _ => none
  | .reactor a =>
    if s.Allows a then (Reactor.step s.reactor a).map fun r =>
      { s with reactor := r, stopped := s.stopped || writes a }
    else none

/-- The object that the constructor builds. -/
def init : ReactorThread φ where
  reactor := .init
  reactor_ := false
  thread := .unstarted
  controller := .new
  stopped := false

/-- All interleavings of the two threads. -/
def reactorThread : Lts.System (ReactorThread φ) (Action φ) := Lts.ofFun init step

/-! ## A stop is kept -/

section Stop

variable {s s' : ReactorThread φ} {a : Action φ}

/-- The loop of `dispatch` ends with its next test, `threadFunc` returns, and so does a `join`. -/
def Leaves (s : ReactorThread φ) : Prop :=
  ∃ t, Lts.exec step s [.reactor .tick, .thread, .thread] = some t ∧ t.thread = .done ∧
    (t.controller = .join → ∃ u, step t .controller = some u ∧ u.controller = .gone)

/-- Once a stop has written `dispatching_`, it is false, and the loop of `dispatch` ends when it tests it. -/
def Kept (s : ReactorThread φ) : Prop :=
  s.stopped = true → s.reactor.dispatching_ = false ∧ (s.reactor.pc = .loop → s.Leaves)

/-- The step is the write of a `stop`, in a call of `stop` or in the destructor. -/
def Stops (s : ReactorThread φ) : Action φ → Prop
  | .reactor a => writes a = true
  | .controller => s.controller = .stop
  | _ => False

instance (s : ReactorThread φ) : (a : Action φ) → Decidable (s.Stops a)
  | .reactor a => inferInstanceAs (Decidable (writes a = true))
  | .controller => inferInstanceAs (Decidable (s.controller = .stop))
  | .startDispatch | .destroy | .thread | .initQueueInReactor _ | .initStop => inferInstanceAs (Decidable False)

/-- A `stop` writes `dispatching_` while the reactor thread has yet to execute the first statement of `dispatch`. -/
def Early (x : ReactorThread φ × Action φ × ReactorThread φ) : Prop := x.1.Stops x.2.1 ∧ x.1.reactor.pc = .start

instance (x : ReactorThread φ × Action φ × ReactorThread φ) : Decidable (Early x) :=
  match hp : x.1.reactor.pc with
  | .start => if hs : x.1.Stops x.2.1 then .isTrue ⟨hs, hp⟩ else .isFalse fun h => hs h.1
  | .loop | .demultiplex | .events _ | .readEventfd _ | .testPending | .setCalling | .swap | .functors _
  | .clearCalling | .clearPending | .exit | .callback _ | .cbSetPending _ | .cbTestCalling _ | .cbWakeup _ =>
    .isFalse fun h => nomatch hp.symm.trans h.2

/-- Where the reactor thread is in `dispatch` when `threadFunc` is at a stage. -/
def Stage.At (p : Pc φ) : Stage → Prop
  | .unstarted | .construct | .callback | .publish => p = .start
  | .dispatch => True
  | .store | .done => p = .exit

structure Inv (s : ReactorThread φ) : Prop where
  new : s.controller = .new → s.thread = .unstarted
  pc : Stage.At s.reactor.pc s.thread

theorem Inv.threadFunc (h : Inv s) (hs : s.threadFunc = some s') : Inv s' := by
  have hn := h.new
  have hp := h.pc
  unfold ReactorThread.threadFunc at hs
  split at hs <;> rename_i ht <;> rw [ht] at hn hp
  · cases hs
  · cases hs
  · cases hs
    exact ⟨fun hc => (nomatch hn hc), rfl⟩
  · cases hs
    exact ⟨fun hc => (nomatch hn hc), hp⟩
  · cases hs
    exact ⟨fun hc => (nomatch hn hc), trivial⟩
  · split at hs <;> cases hs
    rename_i he
    exact ⟨fun hc => (nomatch hn hc), he⟩
  · cases hs
    exact ⟨fun hc => (nomatch hn hc), hp⟩

theorem Inv.control (h : Inv s) (hs : s.control = some s') : Inv s' := by
  unfold ReactorThread.control at hs
  split at hs <;> rename_i hc
  · cases hs
    split
    · exact ⟨nofun, h.pc⟩
    · exact h
  · cases hs
    exact ⟨nofun, h.pc⟩
  · cases hs
    refine ⟨?_, h.pc⟩
    dsimp only
    split <;> exact nofun
  · obtain ⟨r, hr, rfl⟩ := Option.map_eq_some_iff.1 hs
    exact ⟨nofun, step_thread_pc hr trivial ▸ h.pc⟩
  · obtain ⟨r, hr, rfl⟩ := Option.map_eq_some_iff.1 hs
    exact ⟨nofun, step_thread_pc hr trivial ▸ h.pc⟩
  · split at hs <;> cases hs
    exact ⟨nofun, h.pc⟩
  all_goals cases hs

theorem Inv.step (h : Inv s) (hs : step s a = some s') : Inv s' := by
  cases a with
  | startDispatch =>
    simp only [ReactorThread.step] at hs
    split at hs <;> cases hs
    rename_i hc
    have hp := h.pc
    rw [h.new hc] at hp
    exact ⟨nofun, hp⟩
  | destroy =>
    simp only [ReactorThread.step] at hs
    split at hs
    · cases hs
      exact ⟨nofun, h.pc⟩
    · split at hs <;> cases hs
      exact ⟨nofun, h.pc⟩
    · cases hs
  | controller => exact h.control hs
  | thread => exact h.threadFunc hs
  | initQueueInReactor cb | initStop =>
    simp only [ReactorThread.step] at hs
    split at hs <;> cases hs
    exact ⟨h.new, h.pc⟩
  | reactor a =>
    simp only [ReactorThread.step] at hs
    split at hs
    · rename_i hal
      obtain ⟨r, hr, rfl⟩ := Option.map_eq_some_iff.1 hs
      refine ⟨h.new, ?_⟩
      cases a with
      | tick | demultiplex _ | queueInReactor _ | stop =>
        rw [hal]
        trivial
      | threadTick _ | threadQueueInReactor _ _ | threadStop _ => exact step_thread_pc hr trivial ▸ h.pc
    · cases hs

theorem inv_init : Inv (init : ReactorThread φ) := ⟨fun _ => rfl, rfl⟩

/-- When the flag is false at the loop's test, the two threads get to the end of `join`. -/
theorem Inv.leaves (h : Inv s) (hd : s.reactor.dispatching_ = false) (hp : s.reactor.pc = .loop) : s.Leaves := by
  have ht : s.thread = .dispatch := by
    have hat := h.pc
    rw [hp] at hat
    cases hst : s.thread <;> rw [hst] at hat <;> first | rfl | cases hat
  have htick : Reactor.step s.reactor .tick = some (s.reactor.goto .exit) := by simp [Reactor.step, tick, hp, hd]
  refine ⟨{ s with reactor := s.reactor.goto .exit, reactor_ := false, thread := .done }, ?_, rfl, ?_⟩
  · simp [Lts.exec, ReactorThread.step, Allows, ht, htick, writes, ReactorThread.threadFunc, State.goto]
  · intro hj
    replace hj : s.controller = .join := hj
    exact ⟨_, by simp only [ReactorThread.step, ReactorThread.control, hj]; rfl, rfl⟩

/-- After a `stop` the flag is false and the first statement of `dispatch` is past. -/
def Stopped (s : ReactorThread φ) : Prop := s.reactor.pc ≠ .start ∧ s.reactor.dispatching_ = false

theorem reactor_stopped {r : State Unit φ} {a : Reactor.Action Unit φ} (hr : Reactor.step s.reactor a = some r)
    (hp : s.reactor.pc ≠ .start) (hd : s.reactor.dispatching_ = false ∨ writes a = true) :
    r.pc ≠ .start ∧ r.dispatching_ = false := by
  obtain ⟨hp', hd'⟩ := step_dispatching hr hp
  refine ⟨hp', ?_⟩
  rcases hd with hd | hw
  · exact hd' hd
  · cases a with
    | stop | threadStop t =>
      simp only [Reactor.step] at hr
      split at hr <;> cases hr
      rfl
    | tick | demultiplex _ | queueInReactor _ | threadTick _ | threadQueueInReactor _ _ => cases hw

/-- A step is one of the reactor, or leaves alone where the reactor thread is in `dispatch` and sets no flag. -/
theorem Inv.step_reactor (h : Inv s) (hs : ReactorThread.step s a = some s') :
    (s'.stopped = s.stopped ∧ ¬s.Stops a ∧ s'.reactor.pc = s.reactor.pc ∧
      (s.reactor.dispatching_ = false → s'.reactor.dispatching_ = false)) ∨
    ∃ b, Reactor.step s.reactor b = some s'.reactor ∧ s'.stopped = (s.stopped || writes b) ∧
      (s.Stops a ↔ writes b = true) := by
  cases a with
  | startDispatch =>
    simp only [ReactorThread.step] at hs
    split at hs <;> cases hs
    exact .inl ⟨rfl, id, rfl, id⟩
  | destroy =>
    simp only [ReactorThread.step] at hs
    split at hs
    · cases hs
      exact .inl ⟨rfl, id, rfl, id⟩
    · split at hs <;> cases hs
      exact .inl ⟨rfl, id, rfl, id⟩
    · cases hs
  | controller =>
    simp only [ReactorThread.step, ReactorThread.control] at hs
    split at hs <;> rename_i hc
    case h_4 =>
      obtain ⟨r, hr, rfl⟩ := Option.map_eq_some_iff.1 hs
      exact .inr ⟨_, hr, (Bool.or_true _).symm, iff_of_true hc rfl⟩
    case h_5 =>
      obtain ⟨r, hr, rfl⟩ := Option.map_eq_some_iff.1 hs
      exact .inr ⟨_, hr, (Bool.or_false _).symm, iff_of_false (fun he => (nomatch hc.symm.trans he)) nofun⟩
    case h_1 =>
      cases hs
      split <;> exact .inl ⟨rfl, fun he => (nomatch hc.symm.trans he), rfl, id⟩
    case h_6 =>
      split at hs <;> cases hs
      exact .inl ⟨rfl, fun he => (nomatch hc.symm.trans he), rfl, id⟩
    all_goals cases hs
    all_goals exact .inl ⟨rfl, fun he => (nomatch hc.symm.trans he), rfl, id⟩
  | thread =>
    have hp := h.pc
    simp only [ReactorThread.step, ReactorThread.threadFunc] at hs
    split at hs <;> rename_i ht <;> rw [ht] at hp
    case h_3 =>
      cases hs
      exact .inl ⟨rfl, id, Eq.symm hp, fun _ => rfl⟩
    case h_6 =>
      split at hs <;> cases hs
      exact .inl ⟨rfl, id, rfl, id⟩
    all_goals cases hs
    all_goals exact .inl ⟨rfl, id, rfl, id⟩
  | initQueueInReactor cb =>
    simp only [ReactorThread.step] at hs
    split at hs <;> cases hs
    exact .inl ⟨rfl, id, rfl, id⟩
  | initStop =>
    simp only [ReactorThread.step] at hs
    split at hs <;> cases hs
    exact .inl ⟨rfl, id, rfl, fun _ => rfl⟩
  | reactor b =>
    simp only [ReactorThread.step] at hs
    split at hs
    · obtain ⟨r, hr, rfl⟩ := Option.map_eq_some_iff.1 hs
      exact .inr ⟨b, hr, rfl, Iff.rfl⟩
    · cases hs

/-- A step keeps what the stops before it have written, and a stop that is not early writes it. -/
theorem Inv.stopped (h : Inv s) (hs : ReactorThread.step s a = some s') (hk : s.stopped = true → s.Stopped)
    (he : ¬Early (s, a, s')) (hst : s'.stopped = true) : s'.Stopped := by
  rcases h.step_reactor hs with ⟨hs', -, hp, hd⟩ | ⟨b, hr, hs', hw⟩
  · obtain ⟨hpc, hdis⟩ := hk (hs'.symm.trans hst)
    exact ⟨fun e => hpc (hp.symm.trans e), hd hdis⟩
  · rw [hs', Bool.or_eq_true] at hst
    rcases hst with hst | hst
    · obtain ⟨hpc, hdis⟩ := hk hst
      exact reactor_stopped hr hpc (.inl hdis)
    · exact reactor_stopped hr (fun hp => he ⟨hw.2 hst, hp⟩) (.inr hst)

/-- In front of `dispatch` a stop is still to be undone. -/
theorem Inv.undone (h : Inv s) (hs : ReactorThread.step s a = some s') (hp : s.reactor.pc = .start)
    (hst : s.stopped = true ∨ s.Stops a) :
    s'.stopped = true ∧ (s'.reactor.pc = .start ∨ s'.reactor.dispatching_ = true) := by
  rcases h.step_reactor hs with ⟨hs', hn, hp', -⟩ | ⟨b, hr, hs', hw⟩
  · exact ⟨hs'.trans (hst.resolve_right hn), .inl (hp'.trans hp)⟩
  · refine ⟨?_, step_start hr hp⟩
    rw [hs', Bool.or_eq_true]
    exact hst.imp id hw.1

theorem reach_inv (h : Lts.Reach reactorThread s) : Inv s :=
  h.invariant (fun _ hs => hs ▸ inv_init) fun _ _ _ _ hi hst => hi.step hst

/-- After an early stop the flag is set again, or is still to be. -/
theorem undone_run {w : List (ReactorThread φ × Action φ × ReactorThread φ)} (h : Lts.Run reactorThread init w s)
    (hx : ∃ x ∈ w, Early x) :
    s.stopped = true ∧ s.reactor.pc = .start ∨ ∃ u ∈ Lts.visited init w, ¬u.Kept := by
  induction h with
  | nil => obtain ⟨x, hx, -⟩ := hx; cases hx
  | @snoc t t' a w hr hst ih =>
    have hi : Inv t := reach_inv (hr.reach (.init rfl))
    have now : t.reactor.pc = .start → t.stopped = true ∨ t.Stops a →
        t'.stopped = true ∧ t'.reactor.pc = .start ∨ ∃ u ∈ Lts.visited init (w ++ [(t, a, t')]), ¬u.Kept := by
      intro hp hs
      obtain ⟨hs', hp' | hd⟩ := hi.undone hst hp hs
      · exact .inl ⟨hs', hp'⟩
      · refine .inr ⟨t', ?_, fun hk => ?_⟩
        · rw [Lts.visited_snoc]
          exact List.mem_append_right _ List.mem_cons_self
        · rw [(hk hs').1] at hd
          cases hd
    by_cases hw : ∃ x ∈ w, Early x
    · rcases ih hw with ⟨hs, hp⟩ | ⟨u, hu, hk⟩
      · exact now hp (.inl hs)
      · rw [Lts.visited_snoc]
        exact .inr ⟨u, List.mem_append_left _ hu, hk⟩
    · obtain ⟨x, hx, he⟩ := hx
      rcases List.mem_append.1 hx with hx | hx
      · exact absurd ⟨x, hx, he⟩ hw
      · rw [List.mem_singleton] at hx
        subst hx
        exact now he.2 (.inr he.1)

/-- **When a stop is kept.** In every state of a run without an early stop, `dispatching_` is false once a stop has
written it, and the loop of `dispatch` ends when it tests it; and when the reactor thread has executed the first
statement of `dispatch`, only runs without an early stop are like this. -/
theorem stop_kept (w : List (ReactorThread φ × Action φ × ReactorThread φ)) (h : Lts.Run reactorThread init w s) :
    ((∀ x ∈ w, ¬Early x) → ∀ u ∈ Lts.visited init w, u.Kept) ∧
    (s.reactor.pc ≠ .start → (∀ u ∈ Lts.visited init w, u.Kept) → ∀ x ∈ w, ¬Early x) := by
  refine ⟨fun hw u hu => ?_, fun hp hk x hx he => ?_⟩
  · have hi : Inv u ∧ (u.stopped = true → u.Stopped) :=
      h.invariant (I := fun s => Inv s ∧ (s.stopped = true → s.Stopped))
        (fun _ _ _ hi he hst => ⟨hi.1.step hst, hi.1.stopped hst hi.2 he⟩) hw ⟨inv_init, nofun⟩ u hu
    exact fun hs => ⟨(hi.2 hs).2, hi.1.leaves (hi.2 hs).2⟩
  · rcases undone_run h ⟨x, hx, he⟩ with ⟨-, hp'⟩ | ⟨u, hu, hn⟩
    · exact hp hp'
    · exact hn (hk u hu)

/-- The test's order: the reactor thread blocks in `dispatch`, and then the destructor stops it. -/
def stopLate : List (Action ℕ) :=
  [.startDispatch, .thread, .thread, .thread, .controller, .controller, .reactor .tick, .reactor .tick, .destroy,
    .controller, .controller, .controller, .reactor (.demultiplex [.wakeup])] ++
  List.replicate 9 (.reactor .tick)

theorem stop_kept_stopLate : ∃ s : ReactorThread ℕ, Lts.exec step init stopLate = some s ∧ s.controller = .join ∧
    ∀ u ∈ Lts.visited init (Lts.moves step init stopLate), u.Kept := by
  obtain ⟨s, hs, hjoin⟩ : ∃ s ∈ Lts.exec step (init : ReactorThread ℕ) stopLate, s.controller = .join := by
    decide
  exact ⟨s, hs, hjoin, (stop_kept _ (Lts.Run.moves hs)).1 (by decide)⟩

/-- The destructor stops the reactor right after it has been published. -/
def stopEarly : List (Action ℕ) :=
  [.startDispatch, .thread, .thread, .thread, .controller, .controller, .destroy, .controller, .controller,
    .reactor .tick]

theorem not_kept_stopEarly : ¬∀ s : ReactorThread ℕ, Lts.Reach reactorThread s → s.Kept := by
  intro h
  obtain ⟨s, hs, hset⟩ : ∃ s ∈ Lts.exec step (init : ReactorThread ℕ) stopEarly,
      s.stopped = true ∧ s.reactor.dispatching_ = true := by
    decide
  have hk := (h s (Lts.Reach.exec (.init rfl) hs) hset.1).1
  rw [hset.2] at hk
  cases hk

end Stop

end ReactorThread

end Libeva.Reactor
