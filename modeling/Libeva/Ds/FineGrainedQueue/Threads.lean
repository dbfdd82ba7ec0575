import Libeva.Lib.Runs
import Libeva.Lib.Linked
import Mathlib.Data.Nat.Basic

/-!
# `FineGrainedQueue` under threads: the step relation

Any number of threads run `push`, `tryPop` and `waitAndPop`. A step has at most one lock operation or one write to a
field; a node is a cell of a heap that `delete` takes it out of, and using a cell that is not on the heap crashes.

* `Pc`: the program points with their local variables; the two pops share the evaluation of `head_ == getTail()`.
* `exec`: the statement at a program point.
* `pushed`, `popped`, `result` record the history: the pushes in the order in which they moved `tail_`, the nodes in the
  order in which pops took them off `head_`, and what the pop of a node has read from it.
-/

namespace Libeva.Ds.FineGrainedQueue

/-- The address of a node. -/
abbrev Ref := ℕ

/-- `FineGrainedQueue::Node`. -/
structure Node (α : Type*) where
  entry_ : α
  next_ : Option Ref

inductive Pop
  | tryPop
  | waitAndPop
  deriving DecidableEq

inductive Call (α : Type*)
  | push (val : α)
  | pop (p : Pop)
  deriving DecidableEq

/-- The program points. `ret` has the value of a successful pop; `tryPop` returns `false` for `none`. -/
inductive Pc (α : Type*)
  | idle
  | crash
  | ret (c : Call α) (r : Option α)
  | pushNew (val : α)
  | pushLock (val : α) (newNode : Ref)
  | pushEntry (val : α) (newNode : Ref)
  | pushNext (val : α) (newNode : Ref)
  | pushTail (val : α) (newNode : Ref)
  | pushUnlock (val : α)
  | notify (val : α)
  | lockHead (p : Pop)
  | readHead (p : Pop)
  | lockTail (p : Pop) (h : Ref)
  | readTail (p : Pop) (h : Ref)
  | unlockTail (p : Pop) (h t : Ref)
  | compare (p : Pop) (h t : Ref)
  | unlockFalse
  | sleep
  | asleep
  | tryEntry
  | tryMove (ret : α)
  | tryUnlock (tobeDeleted : Ref) (ret : α)
  | tryDelete (tobeDeleted : Ref) (ret : α)
  | waitMove
  | waitUnlock (retNode : Ref)
  | waitEntry (retNode : Ref)
  | waitDelete (retNode : Ref) (ret : α)
  deriving DecidableEq

def Pc.isAsleep {α : Type*} : Pc α → Bool
  | .asleep => true
  | _ => false

structure State (ι α : Type*) where
  mem : Ref → Node α
  /-- The address that the next `new` returns. -/
  brk : Ref
  live : Ref → Bool
  head_ : Ref
  head_mutex_ : Option ι
  tail_ : Ref
  tail_mutex_ : Option ι
  pc : ι → Pc α
  pushed : List (Ref × α)
  popped : List Ref
  result : Ref → Option α

section Program

variable {ι α : Type*} [DecidableEq ι]

/-- The first program point of a call. -/
def Call.entry : Call α → Pc α
  | .push v => .pushNew v
  | .pop p => .lockHead p

/-- Thread `t` goes to `p`. -/
def State.goto (s : State ι α) (t : ι) (p : Pc α) : State ι α := { s with pc := Function.update s.pc t p }

/-- A write to node `n`. -/
def State.write (s : State ι α) (n : Ref) (x : Node α) : State ι α := { s with mem := Function.update s.mem n x }

/-- Using node `n`. -/
def State.access (s : State ι α) (t : ι) (n : Ref) (f : Node α → State ι α) : State ι α :=
  if s.live n then f (s.mem n) else s.goto t .crash

/-- Using the pointer `m`. -/
def State.deref (s : State ι α) (t : ι) (m : Option Ref) (f : Ref → State ι α) : State ι α :=
  match m with
  | some n => f n
  | none => s.goto t .crash

/-- The statement at a program point; a taken mutex blocks. -/
def exec [Inhabited α] (s : State ι α) (t : ι) : Pc α → Option (State ι α)
  | .idle | .crash | .ret _ _ | .asleep => none
  -- push
  | .pushNew v => some ({ s.write s.brk ⟨default, none⟩ with
      brk := s.brk + 1, live := Function.update s.live s.brk true }.goto t (.pushLock v s.brk))
  | .pushLock v n =>
    match s.tail_mutex_ with
    | none => some ({ s with tail_mutex_ := some t }.goto t (.pushEntry v n))
    | some _ => none
  | .pushEntry v n => some (s.access t s.tail_ fun x =>
      (s.write s.tail_ { x with entry_ := v }).goto t (.pushNext v n))
  | .pushNext v n => some (s.access t s.tail_ fun x =>
      (s.write s.tail_ { x with next_ := some n }).goto t (.pushTail v n))
  | .pushTail v _ => some (s.access t s.tail_ fun x => s.deref t x.next_ fun m =>
      { s with tail_ := m, pushed := s.pushed ++ [(s.tail_, v)] }.goto t (.pushUnlock v))
  | .pushUnlock v => some ({ s with tail_mutex_ := none }.goto t (.notify v))
  | .notify v => some ({ s with
      pc := fun u => if (s.pc u).isAsleep then .lockHead .waitAndPop else s.pc u }.goto t (.ret (.push v) none))
  -- head_guard, head_ == getTail()
  | .lockHead p =>
    match s.head_mutex_ with
    | none => some ({ s with head_mutex_ := some t }.goto t (.readHead p))
    | some _ => none
  | .readHead p => some (s.goto t (.lockTail p s.head_))
  | .lockTail p h =>
    match s.tail_mutex_ with
    | none => some ({ s with tail_mutex_ := some t }.goto t (.readTail p h))
    | some _ => none
  | .readTail p h => some (s.goto t (.unlockTail p h s.tail_))
  | .unlockTail p h tl => some ({ s with tail_mutex_ := none }.goto t (.compare p h tl))
  | .compare .tryPop h tl => some (s.goto t (if h = tl then .unlockFalse else .tryEntry))
  | .compare .waitAndPop h tl => some (s.goto t (if h = tl then .sleep else .waitMove))
  | .unlockFalse => some ({ s with head_mutex_ := none }.goto t (.ret (.pop .tryPop) none))
  | .sleep => some ({ s with head_mutex_ := none }.goto t .asleep)
  -- tryPop
  | .tryEntry => some (s.access t s.head_ fun x =>
      { s with result := Function.update s.result s.head_ (some x.entry_) }.goto t (.tryMove x.entry_))
  | .tryMove v => some (s.access t s.head_ fun x => s.deref t x.next_ fun m =>
      { s with head_ := m, popped := s.popped ++ [s.head_] }.goto t (.tryUnlock s.head_ v))
  | .tryUnlock n v => some ({ s with head_mutex_ := none }.goto t (.tryDelete n v))
  | .tryDelete n v => some ({ s with live := Function.update s.live n false }.goto t (.ret (.pop .tryPop) (some v)))
  -- waitAndPop
  | .waitMove => some (s.access t s.head_ fun x => s.deref t x.next_ fun m =>
      { s with head_ := m, popped := s.popped ++ [s.head_] }.goto t (.waitUnlock s.head_))
  | .waitUnlock n => some ({ s with head_mutex_ := none }.goto t (.waitEntry n))
  | .waitEntry n => some (s.access t n fun x =>
      { s with result := Function.update s.result n (some x.entry_) }.goto t (.waitDelete n x.entry_))
  | .waitDelete n v => some ({ s with live := Function.update s.live n false }.goto t
      (.ret (.pop .waitAndPop) (some v)))

inductive Action (ι α : Type*)
  | invoke (t : ι) (c : Call α)
  | tick (t : ι)
  | wake (t : ι)

/-- A thread starts a call, makes a step, or wakes up without a notification. -/
def step [Inhabited α] (s : State ι α) : Action ι α → Option (State ι α)
  | .invoke t c =>
    match s.pc t with
    | .idle | .ret _ _ => some (s.goto t c.entry)
    | _ => none
  | .tick t => exec s t (s.pc t)
  | .wake t => if (s.pc t).isAsleep then some (s.goto t (.lockHead .waitAndPop)) else none

/-- The queue that the constructor builds. -/
def State.init [Inhabited α] : State ι α where
  mem _ := ⟨default, none⟩
  brk := 1
  live n := decide (n < 1)
  head_ := 0
  head_mutex_ := none
  tail_ := 0
  tail_mutex_ := none
  pc _ := .idle
  pushed := []
  popped := []
  result _ := none

/-- All interleavings of all threads. -/
def threads [Inhabited α] : Lts.System (State ι α) (Action ι α) := Lts.ofFun State.init step

/-- The nodes from `head_` up to but excluding `tail_`. -/
def State.chain (s : State ι α) : List Ref :=
  Linked.follow (fun n => (s.mem n).next_) s.tail_ s.brk (some s.head_)

/-- What the pop of a node has returned, or will. -/
def State.popVal (s : State ι α) (n : Ref) : α := (s.result n).getD (s.mem n).entry_

end Program

/-! ## What a program point says about its call -/

section Pc

variable {α : Type*}

/-- The call in progress. -/
def Pc.call? : Pc α → Option (Call α)
  | .idle | .crash | .ret _ _ => none
  | .pushNew v | .pushLock v _ | .pushEntry v _ | .pushNext v _ | .pushTail v _ | .pushUnlock v | .notify v =>
    some (.push v)
  | .lockHead p | .readHead p | .lockTail p _ | .readTail p _ | .unlockTail p _ _ | .compare p _ _ => some (.pop p)
  | .unlockFalse | .tryEntry | .tryMove _ | .tryUnlock _ _ | .tryDelete _ _ => some (.pop .tryPop)
  | .sleep | .asleep | .waitMove | .waitUnlock _ | .waitEntry _ | .waitDelete _ _ => some (.pop .waitAndPop)

/-- The call has `head_mutex_`. -/
def Pc.hasHead : Pc α → Bool
  | .readHead _ | .lockTail _ _ | .readTail _ _ | .unlockTail _ _ _ | .compare _ _ _ | .unlockFalse | .sleep
  | .tryEntry | .tryMove _ | .tryUnlock _ _ | .waitMove | .waitUnlock _ => true
  | _ => false

/-- The call has `tail_mutex_`. -/
def Pc.hasTail : Pc α → Bool
  | .pushEntry _ _ | .pushNext _ _ | .pushTail _ _ | .pushUnlock _ | .readTail _ _ | .unlockTail _ _ _ => true
  | _ => false

/-- The node that a push has created and not moved `tail_` to yet. -/
def Pc.fresh? : Pc α → Option Ref
  | .pushLock _ n | .pushEntry _ n | .pushNext _ n | .pushTail _ n => some n
  | _ => none

/-- The node that a pop has taken off the queue and not deleted yet. -/
def Pc.owned? : Pc α → Option Ref
  | .tryUnlock n _ | .tryDelete n _ | .waitUnlock n | .waitEntry n | .waitDelete n _ => some n
  | _ => none

/-- The node of a `waitAndPop` whose entry it has yet to read. -/
def Pc.inFlight? : Pc α → Option Ref
  | .waitUnlock n | .waitEntry n => some n
  | _ => none

end Pc

end Libeva.Ds.FineGrainedQueue
