import Libeva.Lib.Linked
import Libeva.Lib.Runs
import Libeva.Machine
import Mathlib.Data.Rat.Floor
import Mathlib.Logic.Function.Basic

/-!
# `TimeWheel`

The wheel of a reactor, without `timerfd`, used by the reactor's thread only. A `Timestamp` is its microseconds since
the epoch, a `double` is a rational number, and the clock does not go back. A timer is known by its `id_`: `timers` are
the objects, `deleted` those that are gone.

* `addTimer` and `addTimerPtr` are the two overloads of `addTimer`.
* `Pc` is the program point: outside of `tock`, in its loop over the milliseconds, in the loop over the list of a slot,
  or in the callback of a timer. `step` executes one statement; a callback may call `runAt`, `runAfter` and `runEvery`.
* `fired` are the runs of callbacks, each with what its `tock` has read from the clock; `base` is `start_` at the
  addition of a timer.
-/

namespace Libeva

/-! ## Timestamps -/

def kMicroSecondsPerSecond : ℤ := 1000 * 1000

/-- A conversion to an integer type drops the fraction. -/
def trunc (x : ℚ) : ℤ := if 0 ≤ x then ⌊x⌋ else ⌈x⌉

/-- In seconds. -/
def timeDifference (high low : ℤ) : ℚ := ((high - low : ℤ) : ℚ) / kMicroSecondsPerSecond

def addTime (timestamp : ℤ) (seconds : ℚ) : ℤ := timestamp + trunc (seconds * kMicroSecondsPerSecond)

theorem trunc_intCast (z : ℤ) : trunc z = z := by
  unfold trunc
  split <;> simp

/-- The whole milliseconds from one time to a later one. -/
theorem trunc_timeDifference {high low : ℤ} (h : low ≤ high) :
    trunc (timeDifference high low * 1000) = (high - low) / 1000 := by
  have he : timeDifference high low * 1000 = ((high - low : ℤ) : ℚ) / ((1000 : ℕ) : ℚ) := by
    unfold timeDifference kMicroSecondsPerSecond
    push_cast
    ring
  have h0 : (0 : ℚ) ≤ ((high - low : ℤ) : ℚ) / ((1000 : ℕ) : ℚ) :=
    div_nonneg (Int.cast_nonneg (sub_nonneg.2 h)) (Nat.cast_nonneg _)
  rw [he, trunc, if_pos h0, Rat.floor_intCast_div_natCast]
  rfl

/-- A slot lasts one millisecond. -/
theorem addTime_slot (t : ℤ) : addTime t 0.001 = t + 1000 := by
  have he : (0.001 : ℚ) * kMicroSecondsPerSecond = ((1000 : ℤ) : ℚ) := by
    unfold kMicroSecondsPerSecond
    norm_num
  rw [addTime, he, trunc_intCast]

theorem le_addTime {t : ℤ} {seconds : ℚ} (h : 0 ≤ seconds) : t ≤ addTime t seconds := by
  have h0 : 0 ≤ seconds * kMicroSecondsPerSecond := mul_nonneg h (by unfold kMicroSecondsPerSecond; norm_num)
  rw [addTime, trunc, if_pos h0]
  exact le_add_of_nonneg_right (Int.floor_nonneg.2 h0)

/-! ## Timers -/

structure Timer where
  pre_ : Option ℕ
  next_ : Option ℕ
  index_ : ℤ
  expiration_ : ℤ
  interval_ : ℚ
  repeat_ : Bool

/-- The constructor. -/
def Timer.new (when : ℤ) (interval : ℚ) : Timer where
  pre_ := none
  next_ := none
  index_ := -1
  expiration_ := when
  interval_ := interval
  repeat_ := decide (0 < interval)

/-- A number of slots that is an `int` and not zero: `tock` takes the remainder by it. -/
structure Buckets where
  numSlot_ : ℕ
  pos : 0 < numSlot_
  le : numSlot_ ≤ INT_MAX

/-- The wheel of a `Reactor`. -/
def Buckets.default : Buckets := ⟨60 * 1000, by decide, by decide⟩

structure TimeWheel where
  slot_ : ℕ → Option ℕ
  start_ : ℤ
  startIdx_ : ℕ
  timers : ℕ → Timer
  numCreated_ : ℕ
  deleted : List ℕ

namespace TimeWheel

/-- Why a run has no next statement: `LOG_FATAL` or an exception that nothing catches, or undefined behaviour. -/
inductive Halt
  | fatal
  | undefined
  deriving DecidableEq

/-- A result of type `int`. -/
def int (x : ℤ) : Except Halt ℤ := if -(INT_MAX : ℤ) - 1 ≤ x ∧ x ≤ INT_MAX then .ok x else .error .undefined

/-- `static_cast<int>`. -/
def castInt (x : ℚ) : Except Halt ℤ := int (trunc x)

variable (n : Buckets)

/-- `slot_.at( i )` -/
def slotAt (w : TimeWheel) (i : ℤ) : Except Halt (Option ℕ) :=
  if 0 ≤ i ∧ i < n.numSlot_ then .ok (w.slot_ i.toNat) else .error .fatal

/-- The object exists. -/
def Live (w : TimeWheel) (timer : ℕ) : Prop := timer < w.numCreated_ ∧ timer ∉ w.deleted

instance (w : TimeWheel) (timer : ℕ) : Decidable (w.Live timer) := inferInstanceAs (Decidable (_ ∧ _))

def deref (w : TimeWheel) (timer : ℕ) : Except Halt Timer :=
  if w.Live timer then .ok (w.timers timer) else .error .undefined

def new (w : TimeWheel) (when : ℤ) (interval : ℚ) : TimeWheel :=
  { w with timers := Function.update w.timers w.numCreated_ (.new when interval), numCreated_ := w.numCreated_ + 1 }

def delete (w : TimeWheel) (timer : ℕ) : TimeWheel := { w with deleted := timer :: w.deleted }

def setNext (w : TimeWheel) (timer : ℕ) (next : Option ℕ) : TimeWheel :=
  { w with timers := Function.update w.timers timer { w.timers timer with next_ := next } }

def setIndex (w : TimeWheel) (timer : ℕ) (index : ℤ) : TimeWheel :=
  { w with timers := Function.update w.timers timer { w.timers timer with index_ := index } }

def setSlot (w : TimeWheel) (i : ℕ) (head : Option ℕ) : TimeWheel :=
  { w with slot_ := Function.update w.slot_ i head }

/-- `addTimer( Timer*, Timestamp )` -/
def addTimerPtr (w : TimeWheel) (timer : ℕ) (when : ℤ) : Except Halt TimeWheel := do
  let diff ← castInt (timeDifference when w.start_ * 1000)
  if n.numSlot_ ≤ diff then .error .fatal
  else
    let sum ← int (w.startIdx_ + diff)
    let slotIndex := sum.tmod n.numSlot_
    let w ← match ← w.slotAt n slotIndex with
      | some head => do
        let h ← w.deref head
        if h.pre_ = none then .ok (w.setNext timer (some head)) else .error .fatal
      | none => .ok w
    .ok ((w.setSlot slotIndex.toNat (some timer)).setIndex timer slotIndex)

def addTimerInReactor (w : TimeWheel) (timer : ℕ) : Except Halt TimeWheel := do
  let t ← w.deref timer
  w.addTimerPtr n timer t.expiration_

/-- `addTimer( TimerCallback, Timestamp, double )`; in its own thread, `runInReactor` calls at once. -/
def addTimer (w : TimeWheel) (when : ℤ) (interval : ℚ) : Except Halt TimeWheel :=
  if when < w.start_ then .error .fatal
  else (w.new when interval).addTimerInReactor n w.numCreated_

/-- What follows `head->run()` in the loop over a list, with the next `head`. -/
def afterRun (w : TimeWheel) (head : ℕ) (now : ℤ) : Except Halt (TimeWheel × Option ℕ) := do
  let t ← w.deref head
  let w := w.setNext head none
  let w ← if t.repeat_ then w.addTimerPtr n head (addTime now t.interval_) else .ok (w.delete head)
  .ok (w, t.next_)

/-! ## `tock` -/

/-- The variables of `tock`. -/
structure Sweep where
  now : ℤ
  i : ℤ
  diff : ℤ
  deriving DecidableEq

/-- Outside of `tock`, with the reading of the one that has just returned; at the test of its loop; at the test of the
loop over a list; in a callback. -/
inductive Pc
  | outside (last : Option ℤ)
  | loop (f : Sweep)
  | walk (f : Sweep) (head : Option ℕ)
  | callback (f : Sweep) (head : ℕ)
  | halted (why : Halt)
  deriving DecidableEq

structure State where
  wheel : TimeWheel
  pc : Pc
  clock : ℤ
  fired : List (ℕ × ℤ)
  base : ℕ → ℤ

inductive Call
  | runAt (time : ℤ)
  | runAfter (delay : ℚ)
  | runEvery (interval : ℚ)
  deriving DecidableEq

def Call.when (now : ℤ) : Call → ℤ
  | .runAt time => time
  | .runAfter delay => addTime now delay
  | .runEvery interval => addTime now interval

def Call.interval : Call → ℚ
  | .runAt _ | .runAfter _ => 0
  | .runEvery interval => interval

inductive Move
  | call (c : Call)
  | tock
  | next
  | ret
  deriving DecidableEq

/-- A statement, with what it reads from the clock. -/
structure Action where
  now : ℤ
  move : Move

namespace State

def call (s : State) (c : Call) (now : ℤ) (pc : Pc) : State :=
  match s.wheel.addTimer n (c.when now) c.interval with
  | .ok w => { s with wheel := w, pc := pc, base := Function.update s.base s.wheel.numCreated_ s.wheel.start_ }
  | .error e => { s with pc := .halted e }

/-- The statements of `tock` in front of its loop. -/
def tock (s : State) (now : ℤ) : State :=
  match castInt (timeDifference now s.wheel.start_ * 1000) with
  | .ok diff => { s with pc := .loop ⟨now, 1, diff⟩ }
  | .error e => { s with pc := .halted e }

/-- `++i` -/
def incr (s : State) (f : Sweep) : State :=
  match int (f.i + 1) with
  | .ok i => { s with pc := .loop { f with i := i } }
  | .error e => { s with pc := .halted e }

/-- The loop advances to the next slot, and takes its list. -/
def advance (s : State) (f : Sweep) : State :=
  let w := { s.wheel with
    startIdx_ := (s.wheel.startIdx_ + 1) % n.numSlot_, start_ := addTime s.wheel.start_ 0.001 }
  match w.slot_ w.startIdx_ with
  | some head => { s with wheel := w, pc := .walk f (some head) }
  | none => { s with wheel := w }.incr f

/-- The loop over a list runs its head. -/
def run (s : State) (f : Sweep) (head : ℕ) : State :=
  match s.wheel.deref head with
  | .ok t =>
    if s.wheel.startIdx_ = t.index_ then { s with pc := .callback f head, fired := s.fired ++ [(head, f.now)] }
    else { s with pc := .halted .fatal }
  | .error e => { s with pc := .halted e }

/-- The next statement of `tock`, outside of the callbacks. -/
def next (s : State) : Option State :=
  match s.pc with
  | .loop f => some (if f.i ≤ f.diff then s.advance n f else { s with pc := .outside (some f.now) })
  | .walk f (some head) => some (s.run f head)
  | .walk f none => some ({ s with wheel := s.wheel.setSlot s.wheel.startIdx_ none }.incr f)
  | .outside _ | .callback _ _ | .halted _ => none

/-- The callback of `head` returns. -/
def ret (s : State) (f : Sweep) (head : ℕ) (now : ℤ) : State :=
  match s.wheel.afterRun n head now with
  | .ok (w, head) => { s with wheel := w, pc := .walk f head }
  | .error e => { s with pc := .halted e }

end State

/-- One statement, at a time that is not before the last one. -/
def step (s : State) (a : Action) : Option State :=
  if s.clock ≤ a.now then
    let t := { s with clock := a.now }
    match a.move with
    | .call c =>
      match s.pc with
      | .outside _ => some (t.call n c a.now (.outside none))
      | .callback f head => some (t.call n c a.now (.callback f head))
      | .loop _ | .walk _ _ | .halted _ => none
    | .tock =>
      match s.pc with
      | .outside _ => some (t.tock a.now)
      | .loop _ | .walk _ _ | .callback _ _ | .halted _ => none
    | .next => t.next n
    | .ret =>
      match s.pc with
      | .callback f head => some (t.ret n f head a.now)
      | .outside _ | .loop _ | .walk _ _ | .halted _ => none
  else none

/-- The statements one by one, in a state with the clock's reading. -/
inductive Stmt (s : State) : Action → State → Prop
  | call {c : Call} {now : ℤ} {last : Option ℤ} :
    s.pc = .outside last → Stmt s ⟨now, .call c⟩ (s.call n c now (.outside none))
  | callback {c : Call} {now : ℤ} {f : Sweep} {head : ℕ} :
    s.pc = .callback f head → Stmt s ⟨now, .call c⟩ (s.call n c now (.callback f head))
  | tock {now : ℤ} {last : Option ℤ} : s.pc = .outside last → Stmt s ⟨now, .tock⟩ (s.tock now)
  | advance {now : ℤ} {f : Sweep} : s.pc = .loop f → f.i ≤ f.diff → Stmt s ⟨now, .next⟩ (s.advance n f)
  | outside {now : ℤ} {f : Sweep} :
    s.pc = .loop f → ¬f.i ≤ f.diff → Stmt s ⟨now, .next⟩ { s with pc := .outside (some f.now) }
  | run {now : ℤ} {f : Sweep} {head : ℕ} : s.pc = .walk f (some head) → Stmt s ⟨now, .next⟩ (s.run f head)
  | walked {now : ℤ} {f : Sweep} :
    s.pc = .walk f none →
      Stmt s ⟨now, .next⟩ (State.incr { s with wheel := s.wheel.setSlot s.wheel.startIdx_ none } f)
  | ret {now : ℤ} {f : Sweep} {head : ℕ} : s.pc = .callback f head → Stmt s ⟨now, .ret⟩ (s.ret n f head now)

/-- What a step can do. -/
theorem step_cases {n : Buckets} {s s' : State} {a : Action} (hs : step n s a = some s') :
    s.clock ≤ a.now ∧ Stmt n { s with clock := a.now } a s' := by
  obtain ⟨now, move⟩ := a
  cases move with
  | call c =>
    simp only [step] at hs
    split at hs
    · rename_i hle
      refine ⟨hle, ?_⟩
      split at hs <;> rename_i hp <;> cases hs
      · exact .call hp
      · exact .callback hp
    · cases hs
  | tock =>
    simp only [step] at hs
    split at hs
    · rename_i hle
      refine ⟨hle, ?_⟩
      split at hs <;> rename_i hp <;> cases hs
      exact .tock hp
    · cases hs
  | next =>
    simp only [step, State.next] at hs
    split at hs
    · rename_i hle
      refine ⟨hle, ?_⟩
      split at hs <;> rename_i hp <;> cases hs
      · split
        · rename_i hi
          exact .advance hp hi
        · rename_i hi
          exact .outside hp hi
      · exact .run hp
      · exact .walked hp
    · cases hs
  | ret =>
    simp only [step] at hs
    split at hs
    · rename_i hle
      refine ⟨hle, ?_⟩
      split at hs <;> rename_i hp <;> cases hs
      exact .ret hp
    · cases hs

/-- A new wheel; there are no timers yet. -/
def init (now : ℤ) : State where
  wheel :=
    { slot_ := fun _ => none, start_ := now, startIdx_ := 0, timers := fun _ => .new 0 0, numCreated_ := 0,
      deleted := [] }
  pc := .outside none
  clock := now
  fired := []
  base := fun _ => now

/-- The runs of a wheel with `n` slots that is built at `now`. -/
def timeWheel (now : ℤ) : Lts.System State Action := Lts.ofFun (init now) (step n)

end TimeWheel

end Libeva
