import Libeva.Lib.Runs
import Mathlib.Logic.Function.Basic
import Mathlib.Order.Lattice

/-!
# `LazyList` under threads: the step relation

Any number of threads run `add`, `remove`, `get` and `contains` on one `LazyList` built by the `max_val` constructor.
A step is one field read, one field write, one lock or unlock, one `new` or one `delete`; the interleaving is
sequentially consistent.

* `Node`, `State`: the nodes as cells of memory, and the program counter of every thread. `live` is the heap that
  `delete` takes cells out of. The interleavings run on an idealised memory: a deleted cell stays as it is, as one
  kept in `garbage_` would, and no address is handed out twice. `Reclaim` says when that is so, and `State.tick` is
  the step on a heap where the use of a deleted cell is undefined.
* A call has an argument below `max_val`; the source has no test for it, and with a larger one a traversal runs off the
  list.
* `Pc` is the program point of a call with its local variables, `fetch` the statement at that point, `exec` its effect.
* `Compare` is the strict order that `key` induces on the entries.
-/

namespace Libeva.Ds.LazyList

/-- The address of a node. -/
abbrev Ref := ℕ

/-- `LazyList::Node`; `spinLock_` is the thread that holds the lock. -/
structure Node (ι α : Type*) where
  entry_ : α
  next_ : Option Ref
  spinLock_ : Option ι
  marked_ : Bool

/-- The two updating calls, which share their traversal, locking and validation. -/
inductive Upd
  | add
  | remove
  deriving DecidableEq

inductive Call (α : Type*)
  | update (u : Upd) (k : α)
  | get (k : α)
  | contains (k : α)
  deriving DecidableEq

/-- What a call returns; `entry none` is the `T()` branch of `get`. -/
inductive Result (α : Type*)
  | bool (b : Bool)
  | entry (e : Option α)
  deriving DecidableEq

/-- The local variables of an update between its traversal and its unlocking. -/
structure Window (α : Type*) where
  upd : Upd
  key : α
  pred : Ref
  curr : Ref
  deriving DecidableEq

/-- The program points. An update in `unlockCurr` or `unlockPred` returns `b` for `some b` and retries for `none`. -/
inductive Pc (α : Type*)
  | idle
  | ret (c : Call α) (r : Result α)
  | crash
  | readHead (u : Upd) (k : α)
  | loop (w : Window α)
  | next (u : Upd) (k : α) (curr : Ref)
  | lockPred (w : Window α)
  | lockCurr (w : Window α)
  | valPred (w : Window α)
  | valCurr (w : Window α)
  | valNext (w : Window α)
  | equalL (w : Window α)
  | equalR (w : Window α)
  | replace (w : Window α)
  | new (w : Window α)
  | setNext (w : Window α) (node : Ref)
  | link (w : Window α) (node : Ref)
  | mark (w : Window α)
  | readNext (w : Window α)
  | unlink (w : Window α) (nxt : Option Ref)
  | delete (w : Window α)
  | unlockCurr (w : Window α) (r : Option Bool)
  | unlockPred (w : Window α) (r : Option Bool)
  | getHead (k : α)
  | getLoop (k : α) (curr : Ref)
  | getNext (k : α) (curr : Ref)
  | getMarked (k : α) (curr : Ref)
  | getEqualL (k : α) (curr : Ref)
  | getEqualR (k : α) (curr : Ref)
  | getEntry (k : α) (curr : Ref)
  | conLoop (k : α) (curr : Ref)
  | conNext (k : α) (curr : Ref)
  | conEqualL (k : α) (curr : Ref)
  | conEqualR (k : α) (curr : Ref)
  | conMarked (k : α) (curr : Ref)
  deriving DecidableEq

/-- One statement and where it goes. -/
inductive Instr (α : Type*)
  | halt
  | readEntry (n : Ref) (f : α → Pc α)
  | readNext (n : Ref) (f : Option Ref → Pc α)
  | readMarked (n : Ref) (f : Bool → Pc α)
  | writeEntry (n : Ref) (e : α) (p : Pc α)
  | writeNext (n : Ref) (m : Option Ref) (p : Pc α)
  | writeMarked (n : Ref) (b : Bool) (p : Pc α)
  | lock (n : Ref) (p : Pc α)
  | unlock (n : Ref) (p : Pc α)
  | new (e : α) (f : Ref → Pc α)
  | delete (n : Ref) (p : Pc α)

/-- The sentinel nodes of the `max_val` constructor. -/
abbrev head_ : Ref := 0
abbrev tail_ : Ref := 1

structure State (ι α : Type*) where
  mem : Ref → Node ι α
  /-- The address that the next `new` returns. -/
  brk : Ref
  live : Ref → Bool
  pc : ι → Pc α

section Program

variable {ι α κ : Type*} [LinearOrder κ] (key : α → κ)

/-- `cmp_`. -/
def cmp (a b : α) : Bool := decide (key a < key b)

theorem cmp_iff {key : α → κ} {a b : α} : cmp key a b = true ↔ key a < key b := decide_eq_true_iff

/-- The first program point of a call. -/
def Call.entry : Call α → Pc α
  | .update u k => .readHead u k
  | .get k => .getHead k
  | .contains k => .conLoop k head_

/-- The argument of a call. -/
def Call.arg : Call α → α
  | .update _ k | .get k | .contains k => k

/-- Following a pointer: using a null one crashes. -/
def deref (p : Option Ref) (f : Ref → Pc α) : Pc α :=
  match p with
  | some n => f n
  | none => .crash

/-- The traversal loop has ended at `curr`, or `equal` has failed: what `add` and `remove` do next. -/
def Window.notEqual (w : Window α) : Pc α :=
  match w.upd with
  | .add => .new w
  | .remove => .unlockCurr w (some false)

def Window.isEqual (w : Window α) : Pc α :=
  match w.upd with
  | .add => .replace w
  | .remove => .mark w

/-- The statement at a program point of `add`, `remove`, `get` and `contains`. -/
def fetch : Pc α → Instr α
  | .idle | .ret _ _ | .crash => .halt
  -- pred = head_; curr = head_->next_; while ( cmp_( curr->key(), key ) ) { pred = curr; curr = curr->next_; }
  | .readHead u k => .readNext head_ fun m => deref m fun c => .loop ⟨u, k, head_, c⟩
  | .loop w => .readEntry w.curr fun e => if cmp key e w.key then .next w.upd w.key w.curr else .lockPred w
  | .next u k c => .readNext c fun m => deref m fun c' => .loop ⟨u, k, c, c'⟩
  -- outterGuard, innerGuard
  | .lockPred w => .lock w.pred (.lockCurr w)
  | .lockCurr w => .lock w.curr (.valPred w)
  -- validate: !pred->marked() && !curr->marked() && pred->next_ == curr
  | .valPred w => .readMarked w.pred fun b => if b then .unlockCurr w none else .valCurr w
  | .valCurr w => .readMarked w.curr fun b => if b then .unlockCurr w none else .valNext w
  | .valNext w => .readNext w.pred fun m => if m = some w.curr then .equalL w else .unlockCurr w none
  -- equal: !cmp_( lhs, rhs ) && !cmp_( rhs, lhs )
  | .equalL w => .readEntry w.curr fun e => if cmp key e w.key then w.notEqual else .equalR w
  | .equalR w => .readEntry w.curr fun e => if cmp key w.key e then w.notEqual else w.isEqual
  -- add
  | .replace w => .writeEntry w.curr w.key (.unlockCurr w (some true))
  | .new w => .new w.key fun n => .setNext w n
  | .setNext w n => .writeNext n (some w.curr) (.link w n)
  | .link w n => .writeNext w.pred (some n) (.unlockCurr w (some true))
  -- remove
  | .mark w => .writeMarked w.curr true (.readNext w)
  | .readNext w => .readNext w.curr fun m => .unlink w m
  | .unlink w m => .writeNext w.pred m (.delete w)
  | .delete w => .delete w.curr (.unlockCurr w (some true))
  -- the guards' destructors, innerGuard first
  | .unlockCurr w r => .unlock w.curr (.unlockPred w r)
  | .unlockPred w (some b) => .unlock w.pred (.ret (.update w.upd w.key) (.bool b))
  | .unlockPred w none => .unlock w.pred (.readHead w.upd w.key)
  -- get
  | .getHead k => .readNext head_ fun m => deref m fun c => .getLoop k c
  | .getLoop k c => .readEntry c fun e => if cmp key e k then .getNext k c else .getMarked k c
  | .getNext k c => .readNext c fun m => deref m fun c' => .getLoop k c'
  | .getMarked k c => .readMarked c fun b => if b then .ret (.get k) (.entry none) else .getEqualL k c
  | .getEqualL k c => .readEntry c fun e => if cmp key e k then .ret (.get k) (.entry none) else .getEqualR k c
  | .getEqualR k c => .readEntry c fun e => if cmp key k e then .ret (.get k) (.entry none) else .getEntry k c
  | .getEntry k c => .readEntry c fun e => .ret (.get k) (.entry (some e))
  -- contains
  | .conLoop k c => .readEntry c fun e => if cmp key e k then .conNext k c else .conEqualL k c
  | .conNext k c => .readNext c fun m => deref m fun c' => .conLoop k c'
  | .conEqualL k c => .readEntry c fun e =>
      if cmp key e k then .ret (.contains k) (.bool false) else .conEqualR k c
  | .conEqualR k c => .readEntry c fun e =>
      if cmp key k e then .ret (.contains k) (.bool false) else .conMarked k c
  | .conMarked k c => .readMarked c fun b => .ret (.contains k) (.bool !b)

variable [DecidableEq ι]

/-- Thread `t` goes to `p`. -/
def State.goto (s : State ι α) (t : ι) (p : Pc α) : State ι α := { s with pc := Function.update s.pc t p }

/-- A write to node `n`. -/
def State.write (s : State ι α) (n : Ref) (x : Node ι α) : State ι α := { s with mem := Function.update s.mem n x }

/-- The effect of a statement of thread `t`, where deleted nodes can be used; at a taken lock the thread spins. -/
def exec (s : State ι α) (t : ι) : Instr α → Option (State ι α)
  | .halt => none
  | .readEntry n f => some (s.goto t (f (s.mem n).entry_))
  | .readNext n f => some (s.goto t (f (s.mem n).next_))
  | .readMarked n f => some (s.goto t (f (s.mem n).marked_))
  | .writeEntry n e p => some ((s.write n { s.mem n with entry_ := e }).goto t p)
  | .writeNext n m p => some ((s.write n { s.mem n with next_ := m }).goto t p)
  | .writeMarked n b p => some ((s.write n { s.mem n with marked_ := b }).goto t p)
  | .lock n p =>
    match (s.mem n).spinLock_ with
    | none => some ((s.write n { s.mem n with spinLock_ := some t }).goto t p)
    | some _ => none
  | .unlock n p => some ((s.write n { s.mem n with spinLock_ := none }).goto t p)
  | .new e f => some ({ s.write s.brk ⟨e, none, none, false⟩ with
      brk := s.brk + 1, live := Function.update s.live s.brk true }.goto t (f s.brk))
  | .delete n p => some ({ s with live := Function.update s.live n false }.goto t p)

inductive Action (ι α : Type*)
  | invoke (t : ι) (c : Call α)
  | tick (t : ι)

/-- A thread with no call in progress starts one, with an argument below `max_val`; or a thread makes one step. -/
def step (s : State ι α) : Action ι α → Option (State ι α)
  | .invoke t c =>
    match s.pc t with
    | .idle | .ret _ _ => if key c.arg < key (s.mem tail_).entry_ then some (s.goto t c.entry) else none
    | _ => none
  | .tick t => exec s t (fetch key (s.pc t))

/-- The list that the `max_val` constructor builds. -/
def State.init [Inhabited α] (maxVal : α) : State ι α where
  mem n := if n = head_ then ⟨default, some tail_, none, false⟩ else ⟨maxVal, none, none, false⟩
  brk := 2
  live n := decide (n < 2)
  pc _ := .idle

/-- All interleavings of all threads. -/
def threads [Inhabited α] (maxVal : α) : Lts.System (State ι α) (Action ι α) :=
  Lts.ofFun (State.init maxVal) (step key)

end Program

/-! ## What a program point says about its call -/

section Pc

variable {ι α κ : Type*}

/-- The call in progress. -/
def Pc.call? : Pc α → Option (Call α)
  | .idle | .ret _ _ | .crash => none
  | .readHead u k | .next u k _ => some (.update u k)
  | .loop w | .lockPred w | .lockCurr w | .valPred w | .valCurr w | .valNext w | .equalL w | .equalR w
  | .replace w | .new w | .setNext w _ | .link w _ | .mark w | .readNext w | .unlink w _ | .delete w
  | .unlockCurr w _ | .unlockPred w _ => some (.update w.upd w.key)
  | .getHead k | .getLoop k _ | .getNext k _ | .getMarked k _ | .getEqualL k _ | .getEqualR k _
  | .getEntry k _ => some (.get k)
  | .conLoop k _ | .conNext k _ | .conEqualL k _ | .conEqualR k _ | .conMarked k _ => some (.contains k)

/-- The nodes that a call holds as `pred` or `curr`. -/
def Pc.holds : Pc α → List Ref
  | .idle | .ret _ _ | .crash | .readHead _ _ | .getHead _ => []
  | .loop w | .lockPred w | .lockCurr w | .valPred w | .valCurr w | .valNext w | .equalL w | .equalR w
  | .replace w | .new w | .setNext w _ | .link w _ | .mark w | .readNext w | .unlink w _ | .delete w
  | .unlockCurr w _ | .unlockPred w _ => [w.pred, w.curr]
  | .next _ _ c | .getLoop _ c | .getNext _ c | .getMarked _ c | .getEqualL _ c | .getEqualR _ c
  | .getEntry _ c | .conLoop _ c | .conNext _ c | .conEqualL _ c | .conEqualR _ c | .conMarked _ c => [c]

/-- The nodes whose lock a guard of the call has yet to release. -/
def Pc.locks : Pc α → List Ref
  | .valPred w | .valCurr w | .valNext w | .equalL w | .equalR w | .replace w | .new w | .setNext w _
  | .link w _ | .mark w | .readNext w | .unlink w _ | .delete w | .unlockCurr w _ => [w.pred, w.curr]
  | .lockCurr w | .unlockPred w _ => [w.pred]
  | _ => []

/-- The node that the call has created and not linked yet. -/
def Pc.fresh? : Pc α → Option Ref
  | .setNext _ n | .link _ n => some n
  | _ => none

/-- The node that the call has marked and not unlinked yet. -/
def Pc.unlinking? : Pc α → Option Ref
  | .readNext w | .unlink w _ => some w.curr
  | _ => none

end Pc

end Libeva.Ds.LazyList
