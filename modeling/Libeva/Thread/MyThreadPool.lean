import Libeva.Lib.Runs
import Libeva.Lib.Ledger
import Mathlib.Tactic.Ring

/-!
# `MyThreadPool`: any number of pools under threads

Pools `π`, each with its workers, and other threads `θ`. A step of a worker is one statement of `threadRoutine` or
`stealWork`; an operation of a `StealingQueue` or of the shared queue is one step, and so is a call of `run`.

* A task is its number in the order of the calls of `run`; `submitted` has the pool that each was handed to.
* `Place` is where a task can be, `State.at` what is there; `executed` and `probed` record the history.
* `Searched` reads off the moves of a run what an iteration of a worker has found empty, by induction `searched_run`.
* `private_queue_` and `idx_` are `static thread_local`: each thread has one of each, whatever the number of pools.
-/

namespace Libeva.Ds.StealingQueue

variable {α : Type*} {x : α} {q q' : List α}

def push_back (q : List α) (val : α) : List α := q ++ [val]

def tryPopBack (q : List α) : Option (α × List α) := q.getLast?.map fun x => (x, q.dropLast)

def tryStealFront : List α → Option (α × List α)
  | [] => none
  | x :: q => some (x, q)

theorem push_back_perm (q : List α) (x : α) : (push_back q x).Perm (x :: q) := List.perm_append_singleton x q

theorem tryPopBack_perm (h : tryPopBack q = some (x, q')) : q.Perm (x :: q') := by
  obtain ⟨y, hy, hq⟩ := Option.map_eq_some_iff.1 h
  cases hq
  conv_lhs => rw [← List.dropLast_append_getLast? x hy]
  exact List.perm_append_singleton x _

theorem tryStealFront_perm (h : tryStealFront q = some (x, q')) : q.Perm (x :: q') := by
  cases q with
  | nil => cases h
  | cons y q => cases h; exact .refl _

end Libeva.Ds.StealingQueue

namespace Libeva.MyThreadPool

open Ds.StealingQueue

/-- The worker of a pool that runs `threadRoutine( idx )`; also the queue at `idx` of the pool's `queues_`. -/
abbrev Worker (π : Type*) := π × ℕ

inductive Thread (π θ : Type*)
  | worker (w : Worker π)
  | other (t : θ)
  deriving DecidableEq

/-- The program points of a worker. -/
inductive Pc
  | absent
  | setIdx
  | setQueue
  | loop
  | popPrivate
  | popShared
  | stealWork
  | steal (numQueue i : ℕ)
  | call
  | running
  /-- The iteration has found nothing to run; `numQueue` is what `stealWork` has read. -/
  | yield (numQueue : ℕ)
  | exit
  /-- Out of an exception that nothing catches. -/
  | terminated
  deriving DecidableEq

/-- An operation that has found its queue empty. -/
inductive Probe (π : Type*)
  | back (q : Worker π)
  | shared (p : π)
  | front (q : Worker π)
  deriving DecidableEq

structure State (π θ : Type*) where
  numThreads_ : π → ℕ
  running_ : π → Bool
  shared_queue_ : π → List ℕ
  /-- The size of `queues_`. -/
  numQueues : π → ℕ
  queues_ : Worker π → List ℕ
  private_queue_ : Thread π θ → Option (Worker π)
  idx_ : Thread π θ → ℕ
  /-- The local variable of `threadRoutine`; a call leaves the task in it. -/
  task : Worker π → Option ℕ
  pc : Worker π → Pc
  submitted : List π
  executed : Worker π → List ℕ
  /-- What the worker has found empty in this iteration. -/
  probed : Worker π → List (Probe π)

inductive Action (π θ : Type*)
  | start (p : π) (numThreads : ℕ)
  | spawn (p : π)
  | stop (p : π)
  | run (th : Thread π θ) (p : π)
  | tick (w : Worker π)

section Program

variable {π θ : Type*} [DecidableEq π] [DecidableEq θ]

def State.goto (s : State π θ) (w : Worker π) (p : Pc) : State π θ := { s with pc := Function.update s.pc w p }

/-- A queue operation has given the worker task `n`. -/
def State.take (s : State π θ) (w : Worker π) (n : ℕ) : State π θ :=
  { s with task := Function.update s.task w (some n) }.goto w .call

def State.probe (s : State π θ) (w : Worker π) (r : Probe π) : State π θ :=
  { s with probed := Function.update s.probed w (s.probed w ++ [r]) }

def State.setQueue (s : State π θ) (q : Worker π) (l : List ℕ) : State π θ :=
  { s with queues_ := Function.update s.queues_ q l }

def State.setShared (s : State π θ) (p : π) (l : List ℕ) : State π θ :=
  { s with shared_queue_ := Function.update s.shared_queue_ p l }

/-- The statement at a program point of worker `w`. -/
def exec (s : State π θ) (w : Worker π) : Pc → Option (State π θ)
  | .absent | .exit | .terminated => none
  | .setIdx => some ({ s with idx_ := Function.update s.idx_ (.worker w) w.2 }.goto w .setQueue)
  | .setQueue => some (
      if w.2 < s.numQueues w.1 then
        { s with private_queue_ := Function.update s.private_queue_ (.worker w) (some (w.1, w.2)) }.goto w .loop
      else s.goto w .terminated)
  | .loop => some ({ s with probed := Function.update s.probed w [] }.goto w
      (if s.running_ w.1 then .popPrivate else .exit))
  | .popPrivate =>
    match s.private_queue_ (.worker w) with
    | none => some (s.goto w .popShared)
    | some q =>
      match tryPopBack (s.queues_ q) with
      | some (n, l) => some ((s.setQueue q l).take w n)
      | none => some ((s.probe w (.back q)).goto w .popShared)
  | .popShared =>
    match s.shared_queue_ w.1 with
    | n :: l => some ((s.setShared w.1 l).take w n)
    | [] => some ((s.probe w (.shared w.1)).goto w .stealWork)
  | .stealWork => some (s.goto w (.steal (s.numQueues w.1) 0))
  | .steal numQueue i => some (
      if i < numQueue then
        let index := (s.idx_ (.worker w) + i + 1) % numQueue
        if index < s.numQueues w.1 then
          match tryStealFront (s.queues_ (w.1, index)) with
          | some (n, l) => (s.setQueue (w.1, index) l).take w n
          | none => (s.probe w (.front (w.1, index))).goto w (.steal numQueue (i + 1))
        else s.goto w .terminated
      else s.goto w (.yield numQueue))
  | .call =>
    match s.task w with
    | some n => some ({ s with executed := Function.update s.executed w (s.executed w ++ [n]) }.goto w .running)
    | none => some (s.goto w .terminated)
  | .running | .yield _ => some (s.goto w .loop)

/-- `run`, by thread `th`, on pool `p`. -/
def run (s : State π θ) (th : Thread π θ) (p : π) : State π θ :=
  let task := s.submitted.length
  let s := { s with submitted := s.submitted ++ [p] }
  match s.private_queue_ th with
  | some q => s.setQueue q (push_back (s.queues_ q) task)
  | none => s.setShared p (s.shared_queue_ p ++ [task])

/-- A worker calls `run` from a task. A second `start` would assign to threads that are joinable. -/
def step (s : State π θ) : Action π θ → Option (State π θ)
  | .start p n =>
    if s.numThreads_ p = 0 then
      some { s with
        numThreads_ := Function.update s.numThreads_ p n
        running_ := Function.update s.running_ p true }
    else none
  | .spawn p =>
    if s.numQueues p < s.numThreads_ p then
      some ({ s with numQueues := Function.update s.numQueues p (s.numQueues p + 1) }.goto (p, s.numQueues p) .setIdx)
    else none
  | .stop p => some { s with running_ := Function.update s.running_ p false }
  | .run (.other t) p => some (run s (.other t) p)
  | .run (.worker w) p => if s.pc w = .running then some (run s (.worker w) p) else none
  | .tick w => exec s w (s.pc w)

/-- No pool has been started. -/
def init : State π θ where
  numThreads_ _ := 0
  running_ _ := false
  shared_queue_ _ := []
  numQueues _ := 0
  queues_ _ := []
  private_queue_ _ := none
  idx_ _ := 0
  task _ := none
  pc _ := .absent
  submitted := []
  executed _ := []
  probed _ := []

def system (π θ : Type*) [DecidableEq π] [DecidableEq θ] : Lts.System (State π θ) (Action π θ) := Lts.ofFun init step

end Program

/-! ## Where the tasks are -/

inductive Place (π : Type*)
  | shared (p : π)
  | queue (q : Worker π)
  /-- In the variable of the worker, before the call. -/
  | hand (w : Worker π)
  | executed (w : Worker π)
  deriving DecidableEq

/-- The pool whose queue or worker it is. -/
def Place.pool {π : Type*} : Place π → π
  | .shared p => p
  | .queue q => q.1
  | .hand w => w.1
  | .executed w => w.1

section Places

variable {π θ : Type*}

/-- The tasks in a place. -/
def State.at (s : State π θ) : Place π → List ℕ
  | .shared p => s.shared_queue_ p
  | .queue q => s.queues_ q
  | .hand w => if s.pc w = .call then (s.task w).toList else []
  | .executed w => s.executed w

/-- Task `n` is in place `P`, once, and nowhere else. -/
def State.OnlyAt (s : State π θ) (n : ℕ) (P : Place π) : Prop := (s.at P).count n = 1 ∧ ∀ Q, Q ≠ P → n ∉ s.at Q

/-- The queue of a probe. -/
def Probe.queue (s : State π θ) : Probe π → List ℕ
  | .back q | .front q => s.queues_ q
  | .shared p => s.shared_queue_ p

/-- The queue operation that is the next statement of worker `w`. -/
def State.probes (s : State π θ) (w : Worker π) : Option (Probe π) :=
  match s.pc w with
  | .popPrivate => (s.private_queue_ (.worker w)).map .back
  | .popShared => some (.shared w.1)
  | .steal numQueue i => if i < numQueue then some (.front (w.1, (s.idx_ (.worker w) + i + 1) % numQueue)) else none
  | _ => none

/-- The move at which worker `w` makes the operation `r` on a queue that is empty. -/
structure FindsEmpty (w : Worker π) (r : Probe π) (x : State π θ × Action π θ × State π θ) : Prop where
  tick : x.2.1 = .tick w
  probes : x.1.probes w = some r
  empty : r.queue x.1 = []

/-- The move of worker `w` at the point `p`. -/
def At (w : Worker π) (p : Pc) (x : State π θ × Action π θ × State π θ) : Prop := x.2.1 = .tick w ∧ x.1.pc w = p

/-- In its last iteration worker `w` has found its own queue empty, and the shared queue, and each queue that was in
`queues_` when its `stealWork` began. -/
def Searched (w : Worker π) (v : List (State π θ × Action π θ × State π θ)) : Prop :=
  ∃ v₀ b v₁, v = v₀ ++ b :: v₁ ∧ At w .loop b ∧ (∀ x ∈ v₁, ¬At w .loop x) ∧
    (∃ x ∈ v₁, FindsEmpty w (.back w) x) ∧ (∃ x ∈ v₁, FindsEmpty w (.shared w.1) x) ∧
    ∃ c ∈ v₁, At w .stealWork c ∧ ∀ j < c.1.numQueues w.1, ∃ x ∈ v₁, FindsEmpty w (.front (w.1, j)) x

/-- `run` on pool `p` by a worker of another pool. -/
def Foreign (p : π) : Action π θ → Prop
  | .run (.worker w) q => q = p ∧ w.1 ≠ p
  | _ => False

instance [DecidableEq π] (p : π) : DecidablePred (Foreign (θ := θ) p)
  | .run (.worker w) q => inferInstanceAs (Decidable (q = p ∧ w.1 ≠ p))
  | .run (.other _) _ | .start _ _ | .spawn _ | .stop _ | .tick _ => inferInstanceAs (Decidable False)

end Places

/-! ## The threads -/

section Threads

variable {π θ : Type*} {s s' : State π θ} {w u : Worker π} {p : Pc}

/-- The thread-locals of a worker past the first two statements of `threadRoutine`. -/
def Home (s : State π θ) (w : Worker π) : Prop :=
  s.private_queue_ (.worker w) = some w ∧ s.idx_ (.worker w) = w.2 ∧ w.2 < s.numQueues w.1

/-- What holds of a worker at a program point. -/
def Loc (s : State π θ) (w : Worker π) : Pc → Prop
  | .absent => s.private_queue_ (.worker w) = none
  | .setIdx => s.private_queue_ (.worker w) = none ∧ w.2 < s.numQueues w.1
  | .setQueue => s.private_queue_ (.worker w) = none ∧ s.idx_ (.worker w) = w.2 ∧ w.2 < s.numQueues w.1
  | .popShared => Home s w ∧ .back w ∈ s.probed w
  | .stealWork => Home s w ∧ .back w ∈ s.probed w ∧ .shared w.1 ∈ s.probed w
  | .steal n i => Home s w ∧ .back w ∈ s.probed w ∧ .shared w.1 ∈ s.probed w ∧ w.2 < n ∧ n ≤ s.numQueues w.1 ∧
      ∀ k < i, .front (w.1, (w.2 + k + 1) % n) ∈ s.probed w
  | .yield n => Home s w ∧ .back w ∈ s.probed w ∧ .shared w.1 ∈ s.probed w ∧
      ∀ j < n, .front (w.1, j) ∈ s.probed w
  | .call => Home s w ∧ (s.task w).isSome
  | .terminated => False
  | .loop | .popPrivate | .running | .exit => Home s w

structure Inv (s : State π θ) : Prop where
  other : ∀ t, s.private_queue_ (.other t) = none
  loc : ∀ w, Loc s w (s.pc w)

/-- A step of worker `w` leaves the other threads as they are. -/
structure Frame (s s' : State π θ) (w : Worker π) : Prop where
  other : ∀ t, s'.private_queue_ (.other t) = s.private_queue_ (.other t)
  pc : ∀ u, u ≠ w → s'.pc u = s.pc u
  private_queue_ : ∀ u, u ≠ w → s'.private_queue_ (.worker u) = s.private_queue_ (.worker u)
  idx_ : ∀ u, u ≠ w → s'.idx_ (.worker u) = s.idx_ (.worker u)
  task : ∀ u, u ≠ w → s'.task u = s.task u
  probed : ∀ u, u ≠ w → s'.probed u = s.probed u
  numQueues : ∀ p, s.numQueues p ≤ s'.numQueues p

/-- `Loc` reads the thread's own variables, and `queues_` only grows. -/
theorem Loc.mono (h : Loc s u p) (hq : s'.private_queue_ (.worker u) = s.private_queue_ (.worker u))
    (hi : s'.idx_ (.worker u) = s.idx_ (.worker u)) (ht : s'.task u = s.task u) (hb : s'.probed u = s.probed u)
    (hn : s.numQueues u.1 ≤ s'.numQueues u.1) : Loc s' u p := by
  have home : Home s u → Home s' u := fun ⟨h1, h2, h3⟩ => ⟨hq.trans h1, hi.trans h2, Nat.lt_of_lt_of_le h3 hn⟩
  cases p with
  | absent => exact hq.trans h
  | setIdx => exact ⟨hq.trans h.1, Nat.lt_of_lt_of_le h.2 hn⟩
  | setQueue => exact ⟨hq.trans h.1, hi.trans h.2.1, Nat.lt_of_lt_of_le h.2.2 hn⟩
  | popShared => exact ⟨home h.1, hb ▸ h.2⟩
  | stealWork => exact ⟨home h.1, hb ▸ h.2⟩
  | steal n i =>
    obtain ⟨h1, h2, h3, h4, h5, h6⟩ := h
    exact ⟨home h1, hb ▸ h2, hb ▸ h3, h4, Nat.le_trans h5 hn, hb ▸ h6⟩
  | yield n => exact ⟨home h.1, hb ▸ h.2⟩
  | call => exact ⟨home h.1, ht ▸ h.2⟩
  | terminated => exact h
  | loop => exact home h
  | popPrivate => exact home h
  | running => exact home h
  | exit => exact home h

theorem Inv.frame (h : Inv s) (hf : Frame s s' w) (hw : Loc s' w (s'.pc w)) : Inv s' := by
  refine ⟨fun t => (hf.other t).trans (h.other t), fun u => ?_⟩
  by_cases hu : u = w
  · exact hu ▸ hw
  · rw [hf.pc u hu]
    exact (h.loc u).mono (hf.private_queue_ u hu) (hf.idx_ u hu) (hf.task u hu) (hf.probed u hu) (hf.numQueues u.1)

/-- Any `n` consecutive numbers have every residue. -/
theorem exists_residue {i j n : ℕ} (hj : j < n) : ∃ k < n, (i + k + 1) % n = j := by
  have hn : 0 < n := Nat.zero_lt_of_lt hj
  refine ⟨(j + (n - 1) * (i + 1)) % n, Nat.mod_lt _ hn, ?_⟩
  have hsum : i + (j + (n - 1) * (i + 1)) + 1 = j + n * (i + 1) := by
    obtain ⟨m, rfl⟩ : ∃ m, n = m + 1 := ⟨n - 1, by omega⟩
    simp only [Nat.add_sub_cancel]
    ring
  calc (i + (j + (n - 1) * (i + 1)) % n + 1) % n
      = (i + (j + (n - 1) * (i + 1)) + 1) % n := by
        rw [Nat.add_right_comm, Nat.add_mod_mod, ← Nat.add_right_comm]
    _ = j := by rw [hsum, Nat.add_mul_mod_self_left, Nat.mod_eq_of_lt hj]

end Threads

section Steps

variable {π θ : Type*} [DecidableEq π] [DecidableEq θ] {s s' : State π θ} {w u : Worker π} {p : Pc} {n : ℕ}

omit [DecidableEq θ] in
@[simp] theorem pc_goto (s : State π θ) (w : Worker π) (p : Pc) : (s.goto w p).pc w = p := Function.update_self ..

omit [DecidableEq θ] in
@[simp] theorem pc_take (s : State π θ) (w : Worker π) (n : ℕ) : (s.take w n).pc w = .call := Function.update_self ..

omit [DecidableEq π] [DecidableEq θ] in
theorem Frame.refl (s : State π θ) (w : Worker π) : Frame s s w where
  other _ := rfl
  pc _ _ := rfl
  private_queue_ _ _ := rfl
  idx_ _ _ := rfl
  task _ _ := rfl
  probed _ _ := rfl
  numQueues _ := Nat.le_refl _

omit [DecidableEq θ] in
theorem Frame.goto (h : Frame s s' w) (p : Pc) : Frame s (s'.goto w p) w :=
  { h with pc := fun u hu => (Function.update_of_ne hu ..).trans (h.pc u hu) }

omit [DecidableEq θ] in
theorem Frame.probe (h : Frame s s' w) (r : Probe π) : Frame s (s'.probe w r) w :=
  { h with probed := fun u hu => (Function.update_of_ne hu ..).trans (h.probed u hu) }

omit [DecidableEq θ] in
theorem Frame.take (h : Frame s s' w) (n : ℕ) : Frame s (s'.take w n) w := by
  have hf : Frame s { s' with task := Function.update s'.task w (some n) } w :=
    { h with task := fun u hu => (Function.update_of_ne hu ..).trans (h.task u hu) }
  exact hf.goto _

omit [DecidableEq θ] in
theorem Frame.setQueue (h : Frame s s' w) (q : Worker π) (l : List ℕ) : Frame s (s'.setQueue q l) w := { h with }

omit [DecidableEq θ] in
theorem Frame.setShared (h : Frame s s' w) (p : π) (l : List ℕ) : Frame s (s'.setShared p l) w := { h with }

/-! ## One step moves one task at most -/

omit [DecidableEq θ] in
theorem at_goto (s : State π θ) (w : Worker π) (hp : p ≠ .call) :
    (s.goto w p).at = Function.update s.at (.hand w) [] := by
  funext P
  cases P with
  | hand u =>
    by_cases hu : u = w
    · subst hu
      simp [State.at, hp]
    · rw [Function.update_of_ne (by simpa using hu)]
      simp [State.at, State.goto, hu]
  | _ => rfl

omit [DecidableEq θ] in
theorem at_take (s : State π θ) (w : Worker π) (n : ℕ) :
    (s.take w n).at = Function.update s.at (.hand w) [n] := by
  funext P
  cases P with
  | hand u =>
    by_cases hu : u = w
    · subst hu
      simp [State.at, State.take, State.goto]
    · rw [Function.update_of_ne (by simpa using hu)]
      simp [State.at, State.take, State.goto, hu]
  | _ => rfl

omit [DecidableEq θ] in
@[simp] theorem at_probe (s : State π θ) (w : Worker π) (r : Probe π) : (s.probe w r).at = s.at := by
  funext P
  cases P <;> rfl

omit [DecidableEq θ] in
theorem at_setQueue (s : State π θ) (q : Worker π) (l : List ℕ) :
    (s.setQueue q l).at = Function.update s.at (.queue q) l := by
  funext P
  cases P with
  | queue r =>
    by_cases hr : r = q
    · subst hr
      simp [State.at, State.setQueue]
    · rw [Function.update_of_ne (by simpa using hr)]
      simp [State.at, State.setQueue, hr]
  | _ => rfl

omit [DecidableEq θ] in
theorem at_setShared (s : State π θ) (p : π) (l : List ℕ) :
    (s.setShared p l).at = Function.update s.at (.shared p) l := by
  funext P
  cases P with
  | shared r =>
    by_cases hr : r = p
    · subst hr
      simp [State.at, State.setShared]
    · rw [Function.update_of_ne (by simpa using hr)]
      simp [State.at, State.setShared, hr]
  | _ => rfl

omit [DecidableEq π] [DecidableEq θ] in
theorem at_hand (h : s.pc w ≠ .call) : s.at (.hand w) = [] := if_neg h

/-- What a step does to the tasks: nothing, or one new task is put in a place, or one task moves to another place of the
same pool. -/
inductive Transfer (s : State π θ) (a : Action π θ) (s' : State π θ) : Prop
  | same (hs : s'.submitted = s.submitted) (h : s'.at = s.at)
  | put (p : π) (P : Place π) (ha : ¬Foreign p a → P.pool = p) (hs : s'.submitted = s.submitted ++ [p])
      (hP : (s'.at P).Perm (s.submitted.length :: s.at P)) (ho : ∀ Q, Q ≠ P → s'.at Q = s.at Q)
  | move (n : ℕ) (P Q : Place π) (hs : s'.submitted = s.submitted) (hne : P ≠ Q) (hpool : Q.pool = P.pool)
      (hP : (s.at P).Perm (n :: s'.at P)) (hQ : (s'.at Q).Perm (n :: s.at Q))
      (ho : ∀ R, R ≠ P → R ≠ Q → s'.at R = s.at R)

omit [DecidableEq θ] in
/-- A worker moves on with empty hands. -/
theorem Transfer.goto {a : Action π θ} (hs : s'.submitted = s.submitted) (h : s'.at = s.at) (hw : s.pc w ≠ .call)
    (hp : p ≠ .call) : Transfer s a (s'.goto w p) := by
  refine .same hs ?_
  rw [at_goto s' w hp, h, ← at_hand hw, Function.update_eq_self]

omit [DecidableEq θ] in
/-- A worker takes a task out of a place of its pool. -/
theorem Transfer.take {a : Action π θ} {P : Place π} {l : List ℕ} (hs : s'.submitted = s.submitted)
    (h : s'.at = Function.update s.at P l) (hw : s.pc w ≠ .call) (hP : P.pool = w.1) (hne : P ≠ .hand w)
    (hl : (s.at P).Perm (n :: l)) : Transfer s a (s'.take w n) := by
  refine .move n P (.hand w) hs hne hP.symm ?_ ?_ fun R hR hR' => ?_
  · rw [at_take, Function.update_of_ne hne, h, Function.update_self]
    exact hl
  · rw [at_take, Function.update_self, at_hand hw]
  · rw [at_take, Function.update_of_ne hR', h, Function.update_of_ne hR]

omit [DecidableEq θ] in
/-- A worker goes on to `p` with empty hands. -/
theorem goto_step (hr : Frame s s' w) (hs : s'.submitted = s.submitted) (h : s'.at = s.at) (hw : s.pc w ≠ .call)
    (hp : p ≠ .call) (hl : Loc (s'.goto w p) w p) :
    Frame s (s'.goto w p) w ∧ Loc (s'.goto w p) w ((s'.goto w p).pc w) ∧ Transfer s (.tick w) (s'.goto w p) := by
  refine ⟨hr.goto p, ?_, .goto hs h hw hp⟩
  rw [pc_goto]
  exact hl

omit [DecidableEq θ] in
/-- A worker has got task `n` from a place of its pool, which keeps `l`. -/
theorem take_step {P : Place π} {l : List ℕ} (hr : Frame s s' w) (hs : s'.submitted = s.submitted)
    (h : s'.at = Function.update s.at P l) (hw : s.pc w ≠ .call) (hh : Home s' w) (hP : P.pool = w.1)
    (hne : P ≠ .hand w) (hl : (s.at P).Perm (n :: l)) :
    Frame s (s'.take w n) w ∧ Loc (s'.take w n) w ((s'.take w n).pc w) ∧ Transfer s (.tick w) (s'.take w n) := by
  refine ⟨hr.take n, ?_, .take hs h hw hP hne hl⟩
  rw [pc_take]
  exact ⟨hh, by simp [State.take, State.goto]⟩

/-- One round of the loop of `stealWork`. -/
theorem steal_step {i k : ℕ} (hl : Loc s w (.steal k i)) (hp : s.pc w = .steal k i)
    (hs : exec s w (.steal k i) = some s') :
    Frame s s' w ∧ Loc s' w (s'.pc w) ∧ Transfer s (.tick w) s' := by
  obtain ⟨hhome, hback, hshared, hlt, hle, hfront⟩ := hl
  have hr := Frame.refl s w
  have hw : s.pc w ≠ .call := by simp [hp]
  rw [exec] at hs
  by_cases hi : i < k
  · have hidx : (w.2 + i + 1) % k < s.numQueues w.1 := Nat.lt_of_lt_of_le (Nat.mod_lt _ (Nat.zero_lt_of_lt hi)) hle
    simp only [if_pos hi, hhome.2.1, if_pos hidx, Option.some.injEq] at hs
    cases hq : tryStealFront (s.queues_ (w.1, (w.2 + i + 1) % k)) with
    | some x =>
      obtain ⟨m, l⟩ := x
      rw [hq] at hs
      subst hs
      exact take_step (hr.setQueue _ l) rfl (at_setQueue s _ l) hw hhome rfl (by simp) (tryStealFront_perm hq)
    | none =>
      rw [hq] at hs
      subst hs
      refine goto_step (hr.probe _) rfl (at_probe ..) hw (by simp) ⟨hhome, ?_, ?_, hlt, hle, fun j hj => ?_⟩
      · simp [State.goto, State.probe, hback]
      · simp [State.goto, State.probe, hshared]
      · rcases Nat.lt_succ_iff_lt_or_eq.1 hj with hj | rfl
        · simp [State.goto, State.probe, hfront j hj]
        · simp [State.goto, State.probe]
  · -- the probes of all rounds together are those of all queues
    rw [if_neg hi] at hs
    cases hs
    refine goto_step hr rfl rfl hw (by simp) ⟨hhome, hback, hshared, fun j hj => ?_⟩
    obtain ⟨m, hm, hmj⟩ := exists_residue (i := w.2) hj
    exact hmj ▸ hfront m (by omega)

omit [DecidableEq θ] in
/-- The call of the task takes it from the worker's hand. -/
theorem Transfer.call {a : Action π θ} (hp : s.pc w = .call) (hn : s.task w = some n) :
    Transfer s a ({ s with executed := Function.update s.executed w (s.executed w ++ [n]) }.goto w .running) := by
  have hhand : s.at (.hand w) = [n] := by simp [State.at, hp, hn]
  refine .move n (.hand w) (.executed w) rfl (by simp) rfl ?_ ?_ fun R hR hR' => ?_
  · rw [hhand, at_goto _ _ (by simp), Function.update_self]
  · rw [at_goto _ _ (by simp), Function.update_of_ne (by simp)]
    simp [State.at]
  · rw [at_goto _ _ (by simp), Function.update_of_ne hR]
    cases R with
    | executed u =>
      have hu : u ≠ w := fun e => hR' (e ▸ rfl)
      simp [State.at, hu]
    | _ => rfl

/-- A step of a worker keeps the other threads, goes on in accordance with `Loc`, and transfers at most one task. -/
theorem exec_step (h : Inv s) (hs : exec s w (s.pc w) = some s') :
    Frame s s' w ∧ Loc s' w (s'.pc w) ∧ Transfer s (.tick w) s' := by
  have hloc := h.loc w
  have hr := Frame.refl s w
  cases hp : s.pc w with
  | absent => rw [hp] at hs; cases hs
  | exit => rw [hp] at hs; cases hs
  | terminated => rw [hp] at hs; cases hs
  | setIdx =>
    rw [hp] at hs hloc
    cases hs
    have hf : Frame s { s with idx_ := Function.update s.idx_ (.worker w) w.2 } w :=
      { hr with idx_ := fun u hu => Function.update_of_ne (by simpa using hu) .. }
    exact goto_step hf rfl rfl (by simp [hp]) (by simp) ⟨hloc.1, Function.update_self .., hloc.2⟩
  | setQueue =>
    rw [hp] at hs hloc
    rw [exec, if_pos hloc.2.2] at hs
    cases hs
    have hf : Frame s { s with private_queue_ := Function.update s.private_queue_ (.worker w) (some (w.1, w.2)) } w :=
      { hr with
        other := fun _ => by simp
        private_queue_ := fun u hu => Function.update_of_ne (by simpa using hu) .. }
    exact goto_step hf rfl rfl (by simp [hp]) (by simp) ⟨Function.update_self .., hloc.2⟩
  | loop =>
    rw [hp] at hs hloc
    cases hs
    have hf : Frame s { s with probed := Function.update s.probed w [] } w :=
      { hr with probed := fun u hu => Function.update_of_ne hu .. }
    refine goto_step hf rfl rfl (by simp [hp]) (by split <;> simp) ?_
    split <;> exact hloc
  | popPrivate =>
    rw [hp] at hs hloc
    simp only [exec, hloc.1] at hs
    cases hq : tryPopBack (s.queues_ w) with
    | some x =>
      obtain ⟨n, l⟩ := x
      rw [hq] at hs
      cases hs
      exact take_step (hr.setQueue w l) rfl (at_setQueue s w l) (by simp [hp]) hloc rfl (by simp) (tryPopBack_perm hq)
    | none =>
      rw [hq] at hs
      cases hs
      exact goto_step (hr.probe _) rfl (at_probe ..) (by simp [hp]) (by simp)
        ⟨hloc, by simp [State.goto, State.probe]⟩
  | popShared =>
    rw [hp] at hs hloc
    cases hq : s.shared_queue_ w.1 with
    | cons n l =>
      simp only [exec, hq, Option.some.injEq] at hs
      subst hs
      exact take_step (hr.setShared w.1 l) rfl (at_setShared s w.1 l) (by simp [hp]) hloc.1 rfl (by simp) (.of_eq hq)
    | nil =>
      simp only [exec, hq, Option.some.injEq] at hs
      subst hs
      exact goto_step (hr.probe _) rfl (at_probe ..) (by simp [hp]) (by simp)
        ⟨hloc.1, by simp [State.goto, State.probe, hloc.2]⟩
  | stealWork =>
    rw [hp] at hs hloc
    cases hs
    exact goto_step hr rfl rfl (by simp [hp]) (by simp)
      ⟨hloc.1, hloc.2.1, hloc.2.2, hloc.1.2.2, Nat.le_refl _, nofun⟩
  | steal k i =>
    rw [hp] at hs hloc
    exact steal_step hloc hp hs
  | call =>
    rw [hp] at hs hloc
    obtain ⟨n, hn⟩ := Option.isSome_iff_exists.1 hloc.2
    simp only [exec, hn, Option.some.injEq] at hs
    subst hs
    have hf : Frame s { s with executed := Function.update s.executed w (s.executed w ++ [n]) } w := { hr with }
    refine ⟨hf.goto _, ?_, .call hp hn⟩
    rw [pc_goto]
    exact hloc.1
  | running =>
    rw [hp] at hs hloc
    cases hs
    exact goto_step hr rfl rfl (by simp [hp]) (by simp) hloc
  | yield n =>
    rw [hp] at hs hloc
    cases hs
    exact goto_step hr rfl rfl (by simp [hp]) (by simp) hloc.1

omit [DecidableEq π] [DecidableEq θ] in
/-- A thread's `private_queue_` is null or its own queue. -/
theorem Inv.private_queue_ (h : Inv s) {th : Thread π θ} {q : Worker π} (hq : s.private_queue_ th = some q) :
    th = .worker q := by
  cases th with
  | other t => rw [h.other t] at hq; cases hq
  | worker w =>
    have hw : s.private_queue_ (.worker w) = none ∨ s.private_queue_ (.worker w) = some w := by
      have hloc := h.loc w
      cases hp : s.pc w <;> rw [hp] at hloc <;> first
        | exact .inl hloc
        | exact .inl hloc.1
        | exact .inr hloc.1
        | exact .inr hloc.1.1
        | exact hloc.elim
    rcases hw with hw | hw
    · rw [hw] at hq; cases hq
    · rw [hw] at hq; cases hq; rfl

omit [DecidableEq θ] in
/-- A call of `run` puts the new task in one place; it is the pool's, unless a worker of another pool calls. -/
theorem run_step {th : Thread π θ} {p : π} (h : Inv s) :
    Inv (run s th p) ∧ Transfer s (.run th p) (run s th p) := by
  rw [run]
  cases hq : s.private_queue_ th with
  | none =>
    refine ⟨⟨h.other, fun w => (h.loc w).mono rfl rfl rfl rfl (Nat.le_refl _)⟩,
      .put p (.shared p) (fun _ => rfl) rfl ?_ fun Q hQ => ?_⟩
    · rw [at_setShared, Function.update_self]
      exact List.perm_append_singleton _ _
    · rw [at_setShared, Function.update_of_ne hQ]
      rfl
  | some q =>
    have hth := h.private_queue_ hq
    refine ⟨⟨h.other, fun w => (h.loc w).mono rfl rfl rfl rfl (Nat.le_refl _)⟩,
      .put p (.queue q) (fun hf => ?_) rfl ?_ fun Q hQ => ?_⟩
    · by_contra hne
      exact hf (hth ▸ ⟨rfl, hne⟩)
    · rw [at_setQueue, Function.update_self]
      exact push_back_perm _ _
    · rw [at_setQueue, Function.update_of_ne hQ]
      rfl

omit [DecidableEq π] [DecidableEq θ] in
/-- The threads are those of the queues. -/
theorem Inv.absent (h : Inv s) (hw : s.numQueues w.1 ≤ w.2) : s.pc w = .absent := by
  have hloc := h.loc w
  have hhome : ¬Home s w := fun hh => Nat.not_lt.2 hw hh.2.2
  cases hp : s.pc w <;> rw [hp] at hloc <;> first
    | rfl
    | exact (Nat.not_lt.2 hw hloc.2).elim
    | exact (Nat.not_lt.2 hw hloc.2.2).elim
    | exact (hhome hloc).elim
    | exact (hhome hloc.1).elim
    | exact hloc.elim

omit [DecidableEq π] [DecidableEq θ] in
theorem inv_init : Inv (init : State π θ) := ⟨fun _ => rfl, fun _ => rfl⟩

/-- One step keeps the invariant and transfers at most one task. -/
theorem Inv.step {a : Action π θ} (h : Inv s) (hs : step s a = some s') : Inv s' ∧ Transfer s a s' := by
  cases a with
  | start p n =>
    rw [MyThreadPool.step] at hs
    split at hs
    · cases hs
      exact ⟨⟨h.other, fun w => (h.loc w).mono rfl rfl rfl rfl (Nat.le_refl _)⟩, .same rfl rfl⟩
    · cases hs
  | spawn p =>
    rw [MyThreadPool.step] at hs
    split at hs
    · cases hs
      have hn : ∀ r, s.numQueues r ≤ Function.update s.numQueues p (s.numQueues p + 1) r := by
        intro r
        rw [Function.update_apply]
        split
        · rename_i hr
          subst hr
          exact Nat.le_succ _
        · exact Nat.le_refl _
      have hf : Frame s { s with numQueues := Function.update s.numQueues p (s.numQueues p + 1) } (p, s.numQueues p) :=
        { Frame.refl s _ with numQueues := hn }
      have habs : s.pc (p, s.numQueues p) = .absent := h.absent (Nat.le_refl _)
      have hpriv : s.private_queue_ (.worker (p, s.numQueues p)) = none := by
        have hloc := h.loc (p, s.numQueues p)
        rwa [habs] at hloc
      refine ⟨h.frame (hf.goto _) ?_, .goto rfl rfl (by simp [habs]) (by simp)⟩
      rw [pc_goto]
      exact ⟨hpriv, by simp [State.goto]⟩
    · cases hs
  | stop p =>
    cases hs
    exact ⟨⟨h.other, fun w => (h.loc w).mono rfl rfl rfl rfl (Nat.le_refl _)⟩, .same rfl rfl⟩
  | run th p =>
    cases th with
    | other t => cases hs; exact run_step h
    | worker w =>
      rw [MyThreadPool.step] at hs
      split at hs
      · cases hs; exact run_step h
      · cases hs
  | tick w =>
    obtain ⟨hf, hw, ht⟩ := exec_step h hs
    exact ⟨h.frame hf hw, ht⟩

omit [DecidableEq π] [DecidableEq θ] in
/-- A transfer keeps every task in one place. -/
theorem Transfer.ledger {a : Action π θ} (h : Transfer s a s') (hl : Ledger s.at (· < s.submitted.length)) :
    Ledger s'.at (· < s'.submitted.length) := by
  cases h with
  | same hs h => rwa [hs, h]
  | put p P ha hs hP ho =>
    refine hl.put (Nat.lt_irrefl _) hP ho fun n => ?_
    rw [hs, List.length_append, List.length_singleton]
    omega
  | move n P Q hs hne hpool hP hQ ho =>
    rw [hs]
    exact hl.move hne hP hQ ho

/-- The tasks of pool `p` are in places of `p`. -/
def State.Within (s : State π θ) (p : π) : Prop := ∀ P n, n ∈ s.at P → s.submitted[n]? = some p → P.pool = p

omit [DecidableEq π] [DecidableEq θ] in
/-- A transfer keeps the tasks of a pool in its places, unless a worker of another pool calls `run`. -/
theorem Transfer.within {a : Action π θ} {p : π} (h : Transfer s a s') (hl : Ledger s.at (· < s.submitted.length))
    (hp : ¬Foreign p a) (hw : s.Within p) : s'.Within p := by
  cases h with
  | same hs h => rwa [State.Within, hs, h]
  | put q P ha hs hP ho =>
    intro Q n hn hq
    have hold : n ∈ s.at Q → Q.pool = p := by
      intro hn
      rw [hs, List.getElem?_append_left ((hl.mem n).2 ⟨Q, hn⟩)] at hq
      exact hw Q n hn hq
    by_cases hQ : Q = P
    · subst hQ
      rcases List.mem_cons.1 (hP.mem_iff.1 hn) with rfl | hn
      · rw [hs, List.getElem?_concat_length] at hq
        cases hq
        exact ha hp
      · exact hold hn
    · exact hold (ho Q hQ ▸ hn)
  | move m P Q hs hne hpool hP hQ ho =>
    intro R n hn hq
    rw [hs] at hq
    by_cases hRQ : R = Q
    · subst hRQ
      rcases List.mem_cons.1 (hQ.mem_iff.1 hn) with rfl | hn
      · exact hpool.trans (hw P n (hP.mem_iff.2 List.mem_cons_self) hq)
      · exact hw R n hn hq
    · by_cases hRP : R = P
      · subst hRP
        exact hw R n (hP.mem_iff.2 (List.mem_cons_of_mem _ hn)) hq
      · exact hw R n (ho R hRP hRQ ▸ hn) hq

/-! ## One iteration of a worker -/

/-- The `numQueue` that `stealWork` has read. -/
def Pc.numQueue? : Pc → Option ℕ
  | .steal numQueue _ | .yield numQueue => some numQueue
  | _ => none

/-- What worker `w` has done since the moves `v` of its iteration began: `probed` and `numQueue` come from them. -/
structure Iteration (s : State π θ) (w : Worker π) (v : List (State π θ × Action π θ × State π θ)) : Prop where
  loop : ∀ x ∈ v, ¬At w .loop x
  probed : ∀ r ∈ s.probed w, ∃ x ∈ v, FindsEmpty w r x
  steal : ∀ n, (s.pc w).numQueue? = some n → ∃ c ∈ v, At w .stealWork c ∧ c.1.numQueues w.1 = n

omit [DecidableEq θ] in
theorem probed_probe (r : Probe π) : (s.probe w r).probed w = s.probed w ++ [r] := Function.update_self ..

/-- A statement of a worker records the queue that it finds empty, and the `while` starts anew; `numQueue` comes from
the first statement of `stealWork`. -/
theorem exec_probed (hs : exec s w (s.pc w) = some s') :
    (s.pc w = .loop → s'.probed w = []) ∧
    (∀ r ∈ s'.probed w, r ∈ s.probed w ∨ s.probes w = some r ∧ r.queue s = []) ∧
    ∀ n, (s'.pc w).numQueue? = some n →
      s.pc w = .stealWork ∧ s.numQueues w.1 = n ∨ s.pc w ≠ .loop ∧ (s.pc w).numQueue? = some n := by
  have keeps : ∀ {t : State π θ} {q : Pc}, t.probed w = s.probed w →
      ∀ r ∈ (t.goto w q).probed w, r ∈ s.probed w ∨ s.probes w = some r ∧ r.queue s = [] :=
    fun he r hr => .inl (he ▸ hr)
  have adds : ∀ {r : Probe π} {q : Pc}, s.probes w = some r → r.queue s = [] →
      ∀ r' ∈ ((s.probe w r).goto w q).probed w, r' ∈ s.probed w ∨ s.probes w = some r' ∧ r'.queue s = [] := by
    intro r q hr he r' hr'
    change r' ∈ (s.probe w r).probed w at hr'
    rw [probed_probe, List.mem_append, List.mem_singleton] at hr'
    refine hr'.imp id fun e => ?_
    rw [e]
    exact ⟨hr, he⟩
  have none_of : ∀ {t : State π θ} {q : Pc} {P : ℕ → Prop}, q.numQueue? = none →
      ∀ n, ((t.goto w q).pc w).numQueue? = some n → P n := by
    intro t q P hq n hn
    rw [pc_goto, hq] at hn
    cases hn
  cases hp : s.pc w with
  | absent | exit | terminated => rw [hp] at hs; cases hs
  | setIdx | running | yield =>
    rw [hp] at hs
    cases hs
    exact ⟨nofun, keeps rfl, none_of rfl⟩
  | setQueue =>
    rw [hp, exec] at hs
    split at hs <;> cases hs <;> exact ⟨nofun, keeps rfl, none_of rfl⟩
  | loop =>
    rw [hp] at hs
    cases hs
    have hnil : Function.update s.probed w [] w = [] := Function.update_self ..
    have hnone : (if s.running_ w.1 then Pc.popPrivate else .exit).numQueue? = none := by split <;> rfl
    refine ⟨fun _ => hnil, fun r hr => ?_, fun n hn => ?_⟩
    · change r ∈ Function.update s.probed w [] w at hr
      rw [hnil] at hr
      cases hr
    · rw [pc_goto, hnone] at hn
      cases hn
  | popPrivate =>
    rw [hp, exec] at hs
    cases hq : s.private_queue_ (.worker w) with
    | none =>
      rw [hq] at hs
      cases hs
      exact ⟨nofun, keeps rfl, none_of rfl⟩
    | some q =>
      rw [hq] at hs
      cases ht : tryPopBack (s.queues_ q) with
      | some x =>
        simp only [ht, Option.some.injEq] at hs
        subst hs
        exact ⟨nofun, keeps rfl, none_of rfl⟩
      | none =>
        simp only [ht, Option.some.injEq] at hs
        subst hs
        refine ⟨nofun, adds (by simp [State.probes, hp, hq]) ?_, none_of rfl⟩
        simpa [tryPopBack, Probe.queue] using ht
  | popShared =>
    cases hq : s.shared_queue_ w.1 with
    | cons n l =>
      simp only [hp, exec, hq, Option.some.injEq] at hs
      subst hs
      exact ⟨nofun, keeps rfl, none_of rfl⟩
    | nil =>
      simp only [hp, exec, hq, Option.some.injEq] at hs
      subst hs
      exact ⟨nofun, adds (by simp [State.probes, hp]) hq, none_of rfl⟩
  | stealWork =>
    rw [hp] at hs
    cases hs
    refine ⟨nofun, keeps rfl, fun n hn => .inl ⟨rfl, ?_⟩⟩
    rw [pc_goto] at hn
    exact Option.some.inj hn
  | steal k i =>
    rw [hp, exec, Option.some.injEq] at hs
    by_cases hi : i < k
    · rw [if_pos hi] at hs
      dsimp only at hs
      split at hs
      · cases hq : tryStealFront (s.queues_ (w.1, (s.idx_ (.worker w) + i + 1) % k)) with
        | some x =>
          rw [hq] at hs
          subst hs
          exact ⟨nofun, keeps rfl, none_of rfl⟩
        | none =>
          rw [hq] at hs
          subst hs
          refine ⟨nofun, adds (by simp [State.probes, hp, hi]) ?_, fun n hn => .inr ⟨nofun, ?_⟩⟩
          · cases hl : s.queues_ (w.1, (s.idx_ (.worker w) + i + 1) % k) with
            | nil => exact hl
            | cons x l => rw [hl] at hq; cases hq
          · rw [pc_goto] at hn
            exact hn
      · subst hs
        exact ⟨nofun, keeps rfl, none_of rfl⟩
    · rw [if_neg hi] at hs
      subst hs
      refine ⟨nofun, keeps rfl, fun n hn => .inr ⟨nofun, ?_⟩⟩
      rw [pc_goto] at hn
      exact hn
  | call =>
    rw [hp, exec] at hs
    split at hs <;> cases hs <;> exact ⟨nofun, keeps rfl, none_of rfl⟩

/-- A step that worker `w` does not make leaves it where it is, or starts its thread. -/
theorem step_other {a : Action π θ} (h : Inv s) (hs : MyThreadPool.step s a = some s') (ha : a ≠ .tick w) :
    s'.probed w = s.probed w ∧ (s'.pc w = s.pc w ∨ s'.pc w = .setIdx) := by
  have hrun : ∀ th p, (run s th p).probed w = s.probed w ∧ (run s th p).pc w = s.pc w := by
    intro th p
    unfold run
    dsimp only
    split <;> exact ⟨rfl, rfl⟩
  cases a with
  | start p n =>
    rw [MyThreadPool.step] at hs
    split at hs <;> cases hs
    exact ⟨rfl, .inl rfl⟩
  | spawn p =>
    rw [MyThreadPool.step] at hs
    split at hs <;> cases hs
    refine ⟨rfl, ?_⟩
    by_cases hw : w = (p, s.numQueues p)
    · rw [hw]
      exact .inr (pc_goto ..)
    · exact .inl (Function.update_of_ne hw ..)
  | stop p => cases hs; exact ⟨rfl, .inl rfl⟩
  | run th p =>
    obtain ⟨hb, hp⟩ := hrun th p
    cases th with
    | other t => cases hs; exact ⟨hb, .inl hp⟩
    | worker u =>
      rw [MyThreadPool.step] at hs
      split at hs <;> cases hs
      exact ⟨hb, .inl hp⟩
  | tick u =>
    have hw : w ≠ u := fun e => ha (by rw [e])
    obtain ⟨hf, -, -⟩ := exec_step h hs
    exact ⟨hf.probed w hw, .inl (hf.pc w hw)⟩

section Moves

variable {a : Action π θ} {v : List (State π θ × Action π θ × State π θ)}

theorem Iteration.begin (hs : exec s w (s.pc w) = some s') (hp : s.pc w = .loop) : Iteration s' w [] := by
  obtain ⟨hloop, -, hsteal⟩ := exec_probed hs
  refine ⟨nofun, fun r hr => ?_, fun n hn => ?_⟩
  · rw [hloop hp] at hr
    cases hr
  · rcases hsteal n hn with ⟨h, -⟩ | ⟨h, -⟩
    · rw [hp] at h
      cases h
    · exact absurd hp h

/-- A step adds to what the iteration has done, unless it begins a new one. -/
theorem Iteration.step (hi : Iteration s w v) (h : Inv s) (hs : MyThreadPool.step s a = some s')
    (hb : ¬At w .loop (s, a, s')) : Iteration s' w (v ++ [(s, a, s')]) := by
  have up : ∀ {P : State π θ × Action π θ × State π θ → Prop}, (∃ x ∈ v, P x) → ∃ x ∈ v ++ [(s, a, s')], P x :=
    fun ⟨x, hx, hP⟩ => ⟨x, List.mem_append_left _ hx, hP⟩
  have hloop : ∀ x ∈ v ++ [(s, a, s')], ¬At w .loop x := by
    rw [List.forall_mem_append, List.forall_mem_singleton]
    exact ⟨hi.loop, hb⟩
  have hlast : (s, a, s') ∈ v ++ [(s, a, s')] := by simp
  by_cases ha : a = .tick w
  · subst ha
    obtain ⟨-, hprobed, hsteal⟩ := exec_probed hs
    refine ⟨hloop, fun r hr => ?_, fun n hn => ?_⟩
    · rcases hprobed r hr with hr | ⟨hr, he⟩
      · exact up (hi.probed r hr)
      · exact ⟨_, hlast, rfl, hr, he⟩
    · rcases hsteal n hn with ⟨hp, hn⟩ | ⟨-, hn⟩
      · exact ⟨_, hlast, ⟨rfl, hp⟩, hn⟩
      · exact up (hi.steal n hn)
  · obtain ⟨hprobed, hpc⟩ := step_other h hs ha
    refine ⟨hloop, fun r hr => up (hi.probed r (hprobed ▸ hr)), fun n hn => ?_⟩
    rcases hpc with hpc | hpc <;> rw [hpc] at hn
    · exact up (hi.steal n hn)
    · cases hn

/-- The thread of a worker before the end of its first iteration's `while`. -/
def Pc.early : Pc → Bool
  | .absent | .setIdx | .setQueue | .loop => true
  | _ => false

theorem early_step (h : Inv s) (hs : MyThreadPool.step s a = some s') (hb : ¬At w .loop (s, a, s'))
    (he : (s.pc w).early = true) : (s'.pc w).early = true := by
  by_cases ha : a = .tick w
  · subst ha
    have hloc := h.loc w
    change exec s w (s.pc w) = some s' at hs
    cases hp : s.pc w with
    | absent => rw [hp] at hs; cases hs
    | loop => exact absurd ⟨rfl, hp⟩ hb
    | setIdx =>
      rw [hp] at hs
      cases hs
      rw [pc_goto]
      rfl
    | setQueue =>
      rw [hp] at hs hloc
      rw [exec, if_pos hloc.2.2] at hs
      cases hs
      rw [pc_goto]
      rfl
    | _ => rw [hp] at he; cases he
  · rcases (step_other h hs ha).2 with hpc | hpc <;> rw [hpc]
    · exact he
    · rfl

end Moves

/-- What holds in every reachable state. -/
structure Books (s : State π θ) : Prop where
  inv : Inv s
  ledger : Ledger s.at (· < s.submitted.length)

theorem Books.step {a : Action π θ} (h : Books s) (hs : MyThreadPool.step s a = some s') : Books s' :=
  have ⟨hi, ht⟩ := h.inv.step hs
  ⟨hi, ht.ledger h.ledger⟩

omit [DecidableEq π] [DecidableEq θ] in
theorem books_init : Books (init : State π θ) :=
  ⟨inv_init, .empty (fun _ => Nat.not_lt_zero _) fun P => by cases P <;> rfl⟩

/-! ## Runs -/

/-- Every task of pool `p` is in one place, of `p`, and no worker of `p` ends in an exception. -/
structure State.Conserves (s : State π θ) (p : π) : Prop where
  onlyAt : ∀ n, s.submitted[n]? = some p → ∃ P, P.pool = p ∧ s.OnlyAt n P
  noThrow : ∀ i, s.pc (p, i) ≠ .terminated

/-- Every task is in a place of the pool that it was handed to. -/
def State.Separate (s : State π θ) : Prop := ∀ P n, n ∈ s.at P → s.submitted[n]? = some P.pool

omit [DecidableEq π] [DecidableEq θ] in
theorem Books.conserves {p : π} (h : Books s) (hw : s.Within p) : s.Conserves p where
  onlyAt n hn := by
    obtain ⟨hlt, -⟩ := List.getElem?_eq_some_iff.1 hn
    obtain ⟨P, hP, ho⟩ := h.ledger.once hlt
    exact ⟨P, hw P n (List.count_pos_iff.1 (by omega)) hn, hP, ho⟩
  noThrow i hp := by
    have hloc := h.inv.loc (p, i)
    rwa [hp] at hloc

/-- A run without a foreign call keeps the tasks of a pool in its places. -/
theorem run_within {p : π} {v : List (State π θ × Action π θ × State π θ)} (h : Lts.Run (system π θ) init v s)
    (hv : ∀ x ∈ v, ¬Foreign p x.2.1) : ∀ t ∈ Lts.visited init v, Books t ∧ t.Within p :=
  h.invariant (fun _ _ _ hb hf hs => ⟨hb.1.step hs, (hb.1.inv.step hs).2.within hb.1.ledger hf hb.2⟩) hv
    ⟨books_init, fun _ _ _ hn => nomatch hn⟩

theorem inv_run {v : List (State π θ × Action π θ × State π θ)} (h : Lts.Run (system π θ) init v s) : Inv s :=
  (h.reach (.init rfl)).invariant (by rintro _ rfl; exact inv_init) fun _ _ _ _ hi hs => (hi.step hs).1

/-- The last iteration of a worker in a run. -/
theorem iteration_run {v : List (State π θ × Action π θ × State π θ)} (h : Lts.Run (system π θ) init v s)
    (w : Worker π) : (s.pc w).early = true ∨ ∃ v₀ b v₁, v = v₀ ++ b :: v₁ ∧ At w .loop b ∧ Iteration s w v₁ := by
  induction h with
  | nil => exact .inl rfl
  | @snoc s s' a v hr hst ih =>
    by_cases hb : At w .loop (s, a, s')
    · obtain ⟨rfl, hp⟩ := hb
      exact .inr ⟨v, _, [], rfl, ⟨rfl, hp⟩, .begin hst hp⟩
    · rcases ih with he | ⟨v₀, b, v₁, rfl, hloop, hit⟩
      · exact .inl (early_step (inv_run hr) hst hb he)
      · exact .inr ⟨v₀, b, v₁ ++ [(s, a, s')], by simp, hloop, hit.step (inv_run hr) hst hb⟩

/-- A worker yields only after it has searched all queues. -/
theorem searched_run {v : List (State π θ × Action π θ × State π θ)} (h : Lts.Run (system π θ) init v s)
    {w : Worker π} (hp : s.pc w = .yield n) : Searched w v := by
  have hloc := (inv_run h).loc w
  rw [hp] at hloc
  obtain ⟨-, hback, hshared, hfront⟩ := hloc
  rcases iteration_run h w with he | ⟨v₀, b, v₁, hv, hloop, hit⟩
  · rw [hp] at he
    cases he
  · obtain ⟨c, hc, hsteal, hn⟩ := hit.steal n (by rw [hp]; rfl)
    exact ⟨v₀, b, v₁, hv, hloop, hit.loop, hit.probed _ hback, hit.probed _ hshared, c, hc, hsteal,
      fun j hj => hit.probed _ (hfront j (hn ▸ hj))⟩

/-- **Tasks are conserved.** In every run in which no worker of another pool calls `run` on pool `p`, each task handed
to `p` is always in exactly one place of `p`; and a worker that yields has searched all queues in its iteration. -/
theorem tasks_conserved (p : π) {v : List (State π θ × Action π θ × State π θ)} (h : Lts.Run (system π θ) init v s)
    (hv : ∀ x ∈ v, ¬Foreign p x.2.1) :
    (∀ t ∈ Lts.visited init v, t.Conserves p) ∧ ∀ i n, s.pc (p, i) = .yield n → Searched (p, i) v :=
  ⟨fun t ht => (run_within h hv t ht).1.conserves (run_within h hv t ht).2, fun _ _ hp => searched_run h hp⟩

/-- A worker of another pool puts the new task on its own queue. -/
theorem Inv.not_separate {p : π} {a : Action π θ} (h : Inv s) (hf : Foreign p a)
    (hs : MyThreadPool.step s a = some s') : ¬s'.Separate := by
  cases a with
  | run th q =>
    cases th with
    | worker w =>
      obtain ⟨rfl, hne⟩ := hf
      rw [MyThreadPool.step] at hs
      split at hs
      · rename_i hp
        have hloc := h.loc w
        rw [hp] at hloc
        rw [run, hloc.1] at hs
        cases hs
        intro hsep
        have hn := hsep (.queue w) s.submitted.length (by simp [State.at, State.setQueue, push_back])
        exact hne (by simpa [State.setQueue, Place.pool] using hn.symm)
      · cases hs
    | other t => exact hf.elim
  | _ => exact hf.elim

/-- Two workers of pool `false`: the first runs a task that submits another, the second steals it, and the first finds
nothing to run any more. -/
def stealing : List (Action Bool Unit) :=
  [.start false 2, .spawn false, .spawn false, .run (.other ()) false] ++ List.replicate 6 (.tick (false, 0)) ++
    [.run (.worker (false, 0)) false] ++ List.replicate 8 (.tick (false, 1)) ++ List.replicate 8 (.tick (false, 0))

theorem tasks_conserved_stealing : ∃ s : State Bool Unit, Lts.exec step init stealing = some s ∧
    s.executed (false, 0) = [0] ∧ s.executed (false, 1) = [1] ∧
    (∀ t ∈ Lts.visited init (Lts.moves step init stealing), t.Conserves false) ∧
    Searched (false, 0) (Lts.moves step (init : State Bool Unit) stealing) := by
  obtain ⟨s, hs, hex0, hex1, hp⟩ : ∃ s ∈ Lts.exec step (init : State Bool Unit) stealing,
      s.executed (false, 0) = [0] ∧ s.executed (false, 1) = [1] ∧ s.pc (false, 0) = .yield 2 := by
    decide +kernel
  have hcons := tasks_conserved false (Lts.Run.moves hs) (by decide +kernel)
  exact ⟨s, hs, hex0, hex1, hcons.1, hcons.2 0 2 hp⟩

/-- **Pools do not mix**, exactly as long as no worker of another pool calls `run` on a pool. -/
theorem separate_iff {v : List (State π θ × Action π θ × State π θ)} (h : Lts.Run (system π θ) init v s) :
    (∀ t ∈ Lts.visited init v, t.Separate) ↔ ∀ p, ∀ x ∈ v, ¬Foreign p x.2.1 := by
  constructor
  · intro ht p x hx hf
    obtain ⟨hr, hs⟩ := h.move (.init rfl) hx
    have hb : Books x.1 := hr.invariant (by rintro _ rfl; exact books_init) fun _ _ _ _ hb hs => hb.step hs
    exact hb.inv.not_separate hf hs (ht _ (List.mem_cons_of_mem _ (List.mem_map_of_mem hx)))
  · intro hv t ht P n hn
    have hb := (run_within h (hv P.pool) t ht).1
    have hlt := (hb.ledger.mem n).2 ⟨P, hn⟩
    have hget : t.submitted[n]? = some t.submitted[n] := List.getElem?_eq_getElem hlt
    rw [hget, (run_within h (hv t.submitted[n]) t ht).2 P n hn hget]

/-- A worker in each of two pools, with a task each. -/
def twoPools : List (Action Bool Unit) :=
  [.start false 1, .start true 1, .spawn true, .spawn false, .run (.other ()) true, .run (.other ()) false] ++
    List.replicate 6 (.tick (true, 0)) ++ [.run (.worker (true, 0)) true] ++ List.replicate 6 (.tick (false, 0))

theorem separate_iff_twoPools : ∃ s : State Bool Unit, Lts.exec step init twoPools = some s ∧
    s.executed (true, 0) = [0] ∧ s.executed (false, 0) = [1] ∧ s.queues_ (true, 0) = [2] ∧
    ∀ t ∈ Lts.visited init (Lts.moves step init twoPools), t.Separate := by
  obtain ⟨s, hs, hex0, hex1, hq⟩ : ∃ s ∈ Lts.exec step (init : State Bool Unit) twoPools,
      s.executed (true, 0) = [0] ∧ s.executed (false, 0) = [1] ∧ s.queues_ (true, 0) = [2] := by
    decide +kernel
  exact ⟨s, hs, hex0, hex1, hq, (separate_iff (Lts.Run.moves hs)).2 (by decide +kernel)⟩

/-- A task of pool `true` calls `run` on pool `false`; then pool `true` is stopped and its worker leaves. -/
def nested : List (Action Bool Unit) :=
  [.start false 1, .spawn false, .start true 1, .spawn true, .run (.other ()) true] ++
    List.replicate 6 (.tick (true, 0)) ++ [.run (.worker (true, 0)) false, .stop true] ++
    List.replicate 2 (.tick (true, 0))

/-- The task that was handed to pool `false` stays in the queue of the worker that is gone. -/
theorem not_separate_nested : ∃ s : State Bool Unit, Lts.exec step init nested = some s ∧
    s.submitted[1]? = some false ∧ 1 ∈ s.at (.queue (true, 0)) ∧ s.pc (true, 0) = .exit ∧ ¬s.Separate := by
  obtain ⟨s, hs, h0, h1, hp⟩ : ∃ s ∈ Lts.exec step (init : State Bool Unit) nested,
      s.submitted[1]? = some false ∧ 1 ∈ s.at (.queue (true, 0)) ∧ s.pc (true, 0) = .exit := by
    decide +kernel
  refine ⟨s, hs, h0, h1, hp, fun h => ?_⟩
  have hpool := h _ 1 h1
  rw [h0] at hpool
  cases hpool

end Steps

end Libeva.MyThreadPool
