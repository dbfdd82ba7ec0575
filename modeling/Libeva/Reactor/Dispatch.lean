import Libeva.Lib.Runs
import Mathlib.Logic.Function.Basic

/-!
# `Reactor::dispatch` and `queueInReactor`

The reactor thread runs `dispatch`; any number of other threads run `queueInReactor` and `stop`. Each shared access is
one step; a push and the swap are one step each, under `mutex_`. Reads and writes of the eventfd succeed.

* `Pc` is the program point of the reactor thread. In a callback it may call `queueInReactor` and `stop` itself; `Ctx`
  says which loop of `dispatch` runs the callback.
* `Thread` is the program point of another thread.
* `dispatch_safe`: no functor is lost, duplicated or reordered, and `dispatch` never goes to sleep on one.
-/

namespace Libeva.Reactor

/-- An active event: the eventfd, or another one with a callback. -/
inductive Ev
  | wakeup
  | other
  deriving DecidableEq

/-- Who runs a callback: an event's `handle` with the events after it, the time wheel, or `doPendingFunctors` with the
functors after it. -/
inductive Ctx (φ : Type*)
  | event (evs : List Ev)
  | timer
  | functor (functors : List φ)

inductive Pc (φ : Type*)
  | start
  | loop
  | demultiplex
  | events (evs : List Ev)
  | readEventfd (evs : List Ev)
  | testPending
  | setCalling
  | swap
  | functors (functors : List φ)
  | clearCalling
  | clearPending
  | exit
  | callback (c : Ctx φ)
  | cbSetPending (c : Ctx φ)
  | cbTestCalling (c : Ctx φ)
  | cbWakeup (c : Ctx φ)

/-- Another thread: outside `queueInReactor` and `stop`, or before the next statement of one. -/
inductive Thread
  | idle
  | setPending
  | wakeup
  | stopWakeup
  deriving DecidableEq

structure State (ι φ : Type*) where
  dispatching_ : Bool
  hasPendingFunctors_ : Bool
  callingPendingFunctors_ : Bool
  pendingFunctors_ : List φ
  eventfd_ : ℕ
  pc : Pc φ
  threads : ι → Thread
  /-- The functors pushed so far, in the order of the pushes. -/
  pushed : List φ
  /-- The functors run so far. -/
  ran : List φ

inductive Action (ι φ : Type*)
  | tick
  | demultiplex (evs : List Ev)
  | queueInReactor (cb : φ)
  | stop
  | threadTick (t : ι)
  | threadQueueInReactor (t : ι) (cb : φ)
  | threadStop (t : ι)

section Program

variable {ι φ : Type*} [DecidableEq ι]

def State.goto (s : State ι φ) (p : Pc φ) : State ι φ := { s with pc := p }

def State.threadGoto (s : State ι φ) (t : ι) (p : Thread) : State ι φ :=
  { s with threads := Function.update s.threads t p }

/-- Where a callback returns to. -/
def Ctx.resume : Ctx φ → Pc φ
  | .event evs => .events evs
  | .timer => .testPending
  | .functor fs => .functors fs

/-- `pendingFunctors_.push_back( cb )` under `mutex_`. -/
def State.push (s : State ι φ) (cb : φ) : State ι φ :=
  { s with pendingFunctors_ := s.pendingFunctors_ ++ [cb], pushed := s.pushed ++ [cb] }

/-- The next statement of the reactor thread. -/
def tick (s : State ι φ) : Option (State ι φ) :=
  match s.pc with
  | .start => some ({ s with dispatching_ := true }.goto .loop)
  | .loop => some (s.goto (if s.dispatching_ then .demultiplex else .exit))
  | .demultiplex | .exit => none
  | .events (.wakeup :: evs) => some ({ s with eventfd_ := 0 }.goto (.readEventfd evs))
  | .events (.other :: evs) => some (s.goto (.callback (.event evs)))
  -- timeWheel_->tock() runs its timers' callbacks
  | .events [] => some (s.goto (.callback .timer))
  | .readEventfd evs => some ({ s with hasPendingFunctors_ := true }.goto (.events evs))
  | .testPending => some (s.goto (if s.hasPendingFunctors_ then .setCalling else .loop))
  -- doPendingFunctors
  | .setCalling => some ({ s with callingPendingFunctors_ := true }.goto .swap)
  | .swap => some ({ s with pendingFunctors_ := [] }.goto (.functors s.pendingFunctors_))
  | .functors (cb :: fs) => some ({ s with ran := s.ran ++ [cb] }.goto (.callback (.functor fs)))
  | .functors [] => some (s.goto .clearCalling)
  | .clearCalling => some ({ s with callingPendingFunctors_ := false }.goto .clearPending)
  | .clearPending => some ({ s with hasPendingFunctors_ := false }.goto .loop)
  -- queueInReactor in a callback
  | .callback c => some (s.goto c.resume)
  | .cbSetPending c => some ({ s with hasPendingFunctors_ := true }.goto (.cbTestCalling c))
  | .cbTestCalling c => some (s.goto (if s.callingPendingFunctors_ then .cbWakeup c else .callback c))
  | .cbWakeup c => some ({ s with eventfd_ := s.eventfd_ + 1 }.goto (.callback c))

/-- The next statement of thread `t`. -/
def threadTick (s : State ι φ) (t : ι) : Option (State ι φ) :=
  match s.threads t with
  | .idle => none
  | .setPending => some ({ s with hasPendingFunctors_ := true }.threadGoto t .wakeup)
  | .wakeup | .stopWakeup => some ({ s with eventfd_ := s.eventfd_ + 1 }.threadGoto t .idle)

def step (s : State ι φ) : Action ι φ → Option (State ι φ)
  | .tick => tick s
  -- the poller reports the eventfd only while its counter is positive; an empty list is a timeout
  | .demultiplex evs =>
    match s.pc with
    | .demultiplex =>
      if (.wakeup ∈ evs → 0 < s.eventfd_) ∧ evs.count .wakeup ≤ 1 then some (s.goto (.events evs)) else none
    | _ => none
  | .queueInReactor cb =>
    match s.pc with
    | .callback c => some ((s.push cb).goto (.cbSetPending c))
    | _ => none
  | .stop =>
    match s.pc with
    | .callback c => some ({ s with dispatching_ := false }.goto (.callback c))
    | _ => none
  | .threadTick t => threadTick s t
  | .threadQueueInReactor t cb =>
    match s.threads t with
    | .idle => some ((s.push cb).threadGoto t .setPending)
    | _ => none
  | .threadStop t =>
    match s.threads t with
    | .idle => some ({ s with dispatching_ := false }.threadGoto t .stopWakeup)
    | _ => none

/-- The reactor that the constructor builds. -/
def State.init : State ι φ where
  dispatching_ := false
  hasPendingFunctors_ := false
  callingPendingFunctors_ := false
  pendingFunctors_ := []
  eventfd_ := 0
  pc := .start
  threads _ := .idle
  pushed := []
  ran := []

/-- All interleavings of the reactor thread with the other threads. -/
def dispatch : Lts.System (State ι φ) (Action ι φ) := Lts.ofFun State.init step

/-- The functor that a step of the reactor thread runs. -/
def State.runs (s : State ι φ) : Action ι φ → List φ
  | .tick =>
    match s.pc with
    | .functors (cb :: _) => [cb]
    | _ => []
  | _ => []

/-- The functor that a step queues. -/
def Action.queues : Action ι φ → List φ
  | .queueInReactor cb | .threadQueueInReactor _ cb => [cb]
  | _ => []

end Program

/-! ## The invariant -/

section Invariant

variable {ι φ : Type*} {s s' : State ι φ} {p : Pc φ} {t : ι}

def Ctx.rest : Ctx φ → List φ
  | .functor fs => fs
  | _ => []

/-- The functors of the current batch that have not been run. -/
def Pc.rest : Pc φ → List φ
  | .functors fs => fs
  | .callback c | .cbSetPending c | .cbTestCalling c | .cbWakeup c => c.rest
  | _ => []

/-- A functor of `doPendingFunctors` is being run. -/
def Ctx.isFunctor : Ctx φ → Bool
  | .functor _ => true
  | _ => false

/-- `callingPendingFunctors_` is set. -/
def Pc.calling : Pc φ → Bool
  | .swap | .functors _ | .clearCalling => true
  | .callback c | .cbSetPending c | .cbTestCalling c | .cbWakeup c => c.isFunctor
  | _ => false

/-- The reactor thread comes to the pending functors, or to a wakeup, before it blocks. -/
def Pc.Covers (pending : Bool) : Pc φ → Prop
  | .events _ | .testPending => pending = true
  | .readEventfd _ | .setCalling | .swap | .cbSetPending _ => True
  | .callback c => c.isFunctor = false ∧ pending = true
  | .cbTestCalling c | .cbWakeup c => c.isFunctor = true ∨ pending = true
  | _ => False

/-- The thread has pushed and not woken the reactor yet. -/
def Thread.owesWakeup : Thread → Bool
  | .setPending | .wakeup => true
  | _ => false

/-- Somebody sees to it that the pending functors are run. -/
def State.Due (s : State ι φ) : Prop :=
  0 < s.eventfd_ ∨ (∃ t, (s.threads t).owesWakeup = true) ∨ s.pc.Covers s.hasPendingFunctors_

structure Inv (s : State ι φ) : Prop where
  order : s.ran ++ s.pc.rest ++ s.pendingFunctors_ = s.pushed
  calling : s.pc.calling = true → s.callingPendingFunctors_ = true
  due : s.pendingFunctors_ ≠ [] → s.Due

theorem Pc.Covers.mono {b c : Bool} (h : p.Covers b) (hbc : b = true → c = true) : p.Covers c := by
  cases p with
  | events _ | testPending => exact hbc h
  | readEventfd _ | setCalling | swap | cbSetPending _ => trivial
  | callback _ => exact ⟨h.1, hbc h.2⟩
  | cbTestCalling _ | cbWakeup _ => exact h.imp id hbc
  | start | loop | demultiplex | functors _ | clearCalling | clearPending | exit => exact h

theorem State.Due.mono (h : s.Due) (he : 0 < s.eventfd_ → 0 < s'.eventfd_)
    (ht : ∀ t, (s.threads t).owesWakeup = true → (s'.threads t).owesWakeup = true)
    (hc : s.pc.Covers s.hasPendingFunctors_ → s'.pc.Covers s'.hasPendingFunctors_) : s'.Due :=
  h.imp he (.imp (.imp ht) hc)

/-- A step of the reactor thread that leaves the eventfd and the functors alone. -/
theorem Inv.goto {c f d : Bool} (h : Inv s) (hr : p.rest = s.pc.rest) (hca : p.calling = true → c = true)
    (hc : s.pc.Covers s.hasPendingFunctors_ → p.Covers f) :
    Inv { s with dispatching_ := d, hasPendingFunctors_ := f, callingPendingFunctors_ := c, pc := p } where
  order := by rw [← h.order, ← hr]
  calling := hca
  due hp := (h.due hp).mono id (fun _ => id) hc

theorem Inv.tick (h : Inv s) (hs : tick s = some s') : Inv s' := by
  have hca := h.calling
  have hord := h.order
  have hdue := h.due
  cases hp : s.pc with
  | start | clearCalling | clearPending =>
    rw [Reactor.tick, hp] at hs
    cases hs
    exact h.goto (by rw [hp]; rfl) (fun hc => by cases hc) (by rw [hp]; exact id)
  | demultiplex | exit => rw [Reactor.tick, hp] at hs; cases hs
  | loop =>
    rw [Reactor.tick, hp] at hs
    cases hs
    split <;> exact h.goto (by rw [hp]; rfl) nofun (by rw [hp]; exact id)
  | events evs =>
    rw [hp] at hord
    cases evs with
    | nil =>
      rw [Reactor.tick, hp] at hs
      cases hs
      exact h.goto (by rw [hp]; rfl) nofun (by rw [hp]; exact fun hc => ⟨rfl, hc⟩)
    | cons ev evs =>
      cases ev with
      | wakeup =>
        rw [Reactor.tick, hp] at hs
        cases hs
        exact ⟨hord, nofun, fun _ => .inr (.inr trivial)⟩
      | other =>
        rw [Reactor.tick, hp] at hs
        cases hs
        exact h.goto (by rw [hp]; rfl) nofun (by rw [hp]; exact fun hc => ⟨rfl, hc⟩)
  | readEventfd evs =>
    rw [Reactor.tick, hp] at hs
    cases hs
    exact h.goto (by rw [hp]; rfl) nofun fun _ => rfl
  | testPending =>
    rw [Reactor.tick, hp] at hs
    cases hs
    split
    · exact h.goto (by rw [hp]; rfl) nofun fun _ => trivial
    · rename_i hf
      exact h.goto (by rw [hp]; rfl) nofun (by rw [hp]; exact hf)
  | setCalling =>
    rw [Reactor.tick, hp] at hs
    cases hs
    exact h.goto (by rw [hp]; rfl) (fun _ => rfl) fun _ => trivial
  | swap =>
    rw [Reactor.tick, hp] at hs
    rw [hp] at hca hord
    cases hs
    refine ⟨?_, fun _ => hca rfl, fun he => absurd rfl he⟩
    simpa [Pc.rest, State.goto] using hord
  | functors fs =>
    rw [hp] at hca hord
    cases fs with
    | nil =>
      rw [Reactor.tick, hp] at hs
      cases hs
      exact h.goto (by rw [hp]; rfl) (fun _ => hca rfl) (by rw [hp]; exact id)
    | cons cb fs =>
      rw [Reactor.tick, hp] at hs
      cases hs
      refine ⟨?_, fun _ => hca rfl, fun he => (hdue he).mono id (fun _ => id) (by rw [hp]; exact False.elim)⟩
      simpa [Pc.rest, Ctx.rest, State.goto] using hord
  | callback c =>
    rw [Reactor.tick, hp] at hs
    rw [hp] at hca
    cases hs
    cases c with
    | event evs | timer => exact h.goto (by rw [hp]; rfl) nofun (by rw [hp]; exact And.right)
    | functor fs => exact h.goto (by rw [hp]; rfl) (fun _ => hca rfl) (by rw [hp]; exact fun hc => nomatch hc.1)
  | cbSetPending c =>
    rw [Reactor.tick, hp] at hs
    rw [hp] at hca
    cases hs
    exact h.goto (by rw [hp]; rfl) hca fun _ => .inr rfl
  | cbTestCalling c =>
    rw [Reactor.tick, hp] at hs
    rw [hp] at hca
    cases hs
    split
    · exact h.goto (by rw [hp]; rfl) hca (by rw [hp]; exact id)
    · rename_i hf
      refine h.goto (by rw [hp]; rfl) hca ?_
      rw [hp]
      -- outside doPendingFunctors the flag stays set until the test in dispatch
      rintro (hc | hc)
      · exact absurd (hca hc) hf
      · exact ⟨Bool.eq_false_iff.2 fun hc' => hf (hca hc'), hc⟩
  | cbWakeup c =>
    rw [Reactor.tick, hp] at hs
    rw [hp] at hca hord
    cases hs
    exact ⟨hord, hca, fun _ => .inl (Nat.succ_pos _)⟩

/-- A statement of another thread. -/
theorem Inv.thread [DecidableEq ι] {l : List φ} {e : ℕ} {f d : Bool} {q : Thread} (h : Inv s)
    (ht : (s.threads t).owesWakeup = true → q.owesWakeup = true ∨ 0 < e) (he : s.eventfd_ ≤ e)
    (hf : s.hasPendingFunctors_ = true → f = true) (hl : l ≠ [] → q.owesWakeup = true) :
    Inv { s with
      dispatching_ := d, hasPendingFunctors_ := f, pendingFunctors_ := s.pendingFunctors_ ++ l, eventfd_ := e
      threads := Function.update s.threads t q, pushed := s.pushed ++ l } where
  order := by rw [← h.order]; exact (List.append_assoc _ _ _).symm
  calling := h.calling
  due hne := by
    have hself : (Function.update s.threads t q t).owesWakeup = q.owesWakeup := by rw [Function.update_self]
    by_cases hq : l = []
    · have hne' : s.pendingFunctors_ ≠ [] := fun e => hne (by rw [e, hq]; rfl)
      rcases h.due hne' with hpos | ⟨u, hu⟩ | hc
      · exact .inl (Nat.lt_of_lt_of_le hpos he)
      · by_cases hut : u = t
        · subst hut
          rcases ht hu with hq' | hpos
          · exact .inr (.inl ⟨u, hself.trans hq'⟩)
          · exact .inl hpos
        · have hother : (Function.update s.threads t q u).owesWakeup = true := by
            rw [Function.update_of_ne hut]
            exact hu
          exact .inr (.inl ⟨u, hother⟩)
      · exact .inr (.inr (hc.mono hf))
    · exact .inr (.inl ⟨t, hself.trans (hl hq)⟩)

theorem Inv.step [DecidableEq ι] {a : Action ι φ} (h : Inv s) (hs : step s a = some s') : Inv s' := by
  cases a with
  | tick => exact h.tick hs
  | demultiplex evs =>
    simp only [Reactor.step] at hs
    split at hs
    · rename_i hp
      split at hs
      · cases hs
        exact h.goto (by rw [hp]; rfl) nofun (by rw [hp]; exact False.elim)
      · cases hs
    · cases hs
  | queueInReactor cb =>
    simp only [Reactor.step] at hs
    split at hs
    · rename_i c hp
      cases hs
      have hord := h.order
      have hca := h.calling
      rw [hp] at hord hca
      refine ⟨?_, hca, fun _ => .inr (.inr trivial)⟩
      exact (List.append_assoc _ _ _).symm.trans (congrArg (fun l => l ++ [cb]) hord)
    · cases hs
  | stop =>
    simp only [Reactor.step] at hs
    split at hs
    · rename_i c hp
      have hca := h.calling
      rw [hp] at hca
      cases hs
      exact h.goto (by rw [hp]) hca (by rw [hp]; exact id)
    · cases hs
  | threadTick t =>
    simp only [Reactor.step, threadTick] at hs
    split at hs <;> rename_i ht
    · cases hs
    · cases hs
      have h' := h.thread (t := t) (q := .wakeup) (d := s.dispatching_) (f := true) (l := []) (fun _ => .inl rfl)
        (Nat.le_refl _) (fun _ => rfl) (fun e => absurd rfl e)
      rw [List.append_nil, List.append_nil] at h'
      exact h'
    · cases hs
      have h' := h.thread (t := t) (q := .idle) (d := s.dispatching_) (l := []) (fun _ => .inr (Nat.succ_pos _))
        (Nat.le_succ _) id (fun e => absurd rfl e)
      rw [List.append_nil, List.append_nil] at h'
      exact h'
    · cases hs
      have h' := h.thread (t := t) (q := .idle) (d := s.dispatching_) (l := []) (fun _ => .inr (Nat.succ_pos _))
        (Nat.le_succ _) id (fun e => absurd rfl e)
      rw [List.append_nil, List.append_nil] at h'
      exact h'
  | threadQueueInReactor t cb =>
    simp only [Reactor.step] at hs
    split at hs
    · cases hs
      exact h.thread (fun _ => .inl rfl) (Nat.le_refl _) id fun _ => rfl
    · cases hs
  | threadStop t =>
    simp only [Reactor.step] at hs
    split at hs
    · rename_i ht
      cases hs
      have h' := h.thread (t := t) (q := .stopWakeup) (d := false) (l := []) (fun hc => by rw [ht] at hc; cases hc)
        (Nat.le_refl _) id (fun e => absurd rfl e)
      rw [List.append_nil, List.append_nil] at h'
      exact h'
    · cases hs

theorem inv_init : Inv (State.init : State ι φ) := ⟨rfl, (by cases ·), fun he => absurd rfl he⟩

theorem Ctx.resume_ne_start (c : Ctx φ) : c.resume ≠ .start := by cases c <;> exact nofun

/-- Only the first statement of `dispatch` sets `dispatching_`, and no other statement leads in front of it. -/
theorem step_dispatching [DecidableEq ι] {a : Action ι φ} (hs : Reactor.step s a = some s') (hp : s.pc ≠ .start) :
    s'.pc ≠ .start ∧ (s.dispatching_ = false → s'.dispatching_ = false) := by
  cases a with
  | tick =>
    simp only [step, tick] at hs
    split at hs <;> rename_i hpc <;> cases hs
    · exact absurd hpc hp
    all_goals refine ⟨?_, id⟩
    case h_2 | h_9 | h_18 => dsimp only [State.goto]; split <;> exact nofun
    case h_16 c => exact c.resume_ne_start
    all_goals exact nofun
  | threadTick t =>
    simp only [step, threadTick] at hs
    split at hs <;> cases hs <;> exact ⟨hp, id⟩
  | demultiplex evs =>
    simp only [step] at hs
    split at hs
    · split at hs <;> cases hs
      exact ⟨nofun, id⟩
    · cases hs
  | queueInReactor cb =>
    simp only [step] at hs
    split at hs <;> cases hs
    exact ⟨nofun, id⟩
  | stop =>
    simp only [step] at hs
    split at hs <;> cases hs
    exact ⟨nofun, fun _ => rfl⟩
  | threadQueueInReactor t cb =>
    simp only [step] at hs
    split at hs <;> cases hs
    exact ⟨hp, id⟩
  | threadStop t =>
    simp only [step] at hs
    split at hs <;> cases hs
    exact ⟨hp, fun _ => rfl⟩

/-- A step of another thread than the reactor thread. -/
def Action.IsThread : Action ι φ → Prop
  | .threadTick _ | .threadQueueInReactor _ _ | .threadStop _ => True
  | _ => False

theorem step_thread_pc [DecidableEq ι] {a : Action ι φ} (hs : Reactor.step s a = some s') (ha : a.IsThread) :
    s'.pc = s.pc := by
  cases a with
  | tick | demultiplex _ | queueInReactor _ | stop => exact ha.elim
  | threadTick t =>
    simp only [step, threadTick] at hs
    split at hs <;> cases hs <;> rfl
  | threadQueueInReactor t cb | threadStop t =>
    simp only [step] at hs
    split at hs <;> cases hs
    rfl

/-- The first statement of `dispatch` sets `dispatching_`. -/
theorem step_start [DecidableEq ι] {a : Action ι φ} (hs : Reactor.step s a = some s') (hp : s.pc = .start) :
    s'.pc = .start ∨ s'.dispatching_ = true := by
  cases a with
  | tick =>
    simp only [step, tick, hp] at hs
    cases hs
    exact .inr rfl
  | threadTick t =>
    simp only [step, threadTick] at hs
    split at hs <;> cases hs <;> exact .inl hp
  | demultiplex evs | queueInReactor cb | stop =>
    simp only [step, hp] at hs
    cases hs
  | threadQueueInReactor t cb | threadStop t =>
    simp only [step] at hs
    split at hs <;> cases hs
    exact .inl hp

/-- The functors that are still to be run, in their order. -/
def State.waiting (s : State ι φ) : List φ := s.pc.rest ++ s.pendingFunctors_

theorem tick_logs (hs : tick s = some s') :
    s'.ran = s.ran ++ s.runs (.tick : Action ι φ) ∧ s'.pushed = s.pushed := by
  unfold tick at hs
  split at hs <;> rename_i hp <;> cases hs <;> simp [State.runs, State.goto, hp]

theorem step_logs [DecidableEq ι] {a : Action ι φ} (hs : step s a = some s') :
    s'.ran = s.ran ++ s.runs a ∧ s'.pushed = s.pushed ++ a.queues := by
  cases a with
  | tick =>
    obtain ⟨hr, hp⟩ := tick_logs hs
    exact ⟨hr, by simp [hp, Action.queues]⟩
  | threadTick t =>
    simp only [step, threadTick] at hs
    split at hs <;> cases hs <;> simp [State.runs, Action.queues, State.threadGoto]
  | demultiplex evs =>
    simp only [step] at hs
    split at hs
    · split at hs <;> cases hs
      simp [State.runs, Action.queues, State.goto]
    · cases hs
  | queueInReactor cb | stop | threadQueueInReactor t cb | threadStop t =>
    simp only [step] at hs
    split at hs <;> cases hs
    simp [State.runs, Action.queues, State.goto, State.threadGoto, State.push]

/-- A step takes what it runs from the front of the waiting functors and puts what it queues behind them. -/
theorem Inv.waiting_step [DecidableEq ι] {a : Action ι φ} (h : Inv s) (hs : Reactor.step s a = some s') :
    s.runs a ++ s'.waiting = s.waiting ++ a.queues := by
  obtain ⟨hr, hp⟩ := step_logs hs
  have hord : s.ran ++ s.waiting = s.pushed := (List.append_assoc _ _ _).symm.trans h.order
  have hord' : s'.ran ++ s'.waiting = s'.pushed := (List.append_assoc _ _ _).symm.trans (h.step hs).order
  rw [hr, hp, ← hord, List.append_assoc, List.append_assoc] at hord'
  exact List.append_cancel_left hord'

/-- In every reachable state the functors run so far, the rest of the batch and the pending functors are the pushed
functors, in that order; and when `dispatch` blocks, or is about to, with functors pending, the eventfd is readable or
some thread has pushed and not woken the reactor yet. -/
theorem dispatch_safe [DecidableEq ι] (s : State ι φ) (hs : Lts.Reach dispatch s) :
    s.ran ++ s.pc.rest ++ s.pendingFunctors_ = s.pushed ∧
    (s.pc = .loop ∨ s.pc = .demultiplex → s.pendingFunctors_ ≠ [] →
      0 < s.eventfd_ ∨ ∃ t, s.threads t = .setPending ∨ s.threads t = .wakeup) := by
  have hi : Inv s := hs.invariant (fun _ hs => hs ▸ inv_init) fun _ _ _ _ hi hst => hi.step hst
  refine ⟨hi.order, ?_⟩
  intro hp hne
  rcases hi.due hne with he | ⟨t, ht⟩ | hc
  · exact .inl he
  · refine .inr ⟨t, ?_⟩
    generalize s.threads t = q at ht ⊢
    cases q with
    | setPending => exact .inl rfl
    | wakeup => exact .inr rfl
    | idle | stopWakeup => cases ht
  · rcases hp with hp | hp <;> (rw [hp] at hc; exact hc.elim)

/-- The reactor is in `demultiplex` when a thread pushes a functor. -/
def pushedWhileBlocked : State ℕ ℕ :=
  (Lts.exec step State.init [.tick, .tick, .threadQueueInReactor 0 7]).get (by decide)

theorem dispatch_safe_blocked :
    pushedWhileBlocked.ran ++ pushedWhileBlocked.pc.rest ++ pushedWhileBlocked.pendingFunctors_ =
      pushedWhileBlocked.pushed ∧
    (pushedWhileBlocked.pc = .loop ∨ pushedWhileBlocked.pc = .demultiplex → pushedWhileBlocked.pendingFunctors_ ≠ [] →
      0 < pushedWhileBlocked.eventfd_ ∨
        ∃ t, pushedWhileBlocked.threads t = .setPending ∨ pushedWhileBlocked.threads t = .wakeup) :=
  dispatch_safe pushedWhileBlocked (Lts.Reach.exec (.init rfl) (Option.some_get _).symm)

end Invariant

end Libeva.Reactor
