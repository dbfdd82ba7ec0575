import Libeva.Machine
import Libeva.Thread.CountDownLatch

/-!
# `Thread`

One `Thread` object, the thread that owns it, and the thread that `start` creates. The owner meets the asserts: it calls
`start` on a thread that is not started and `join` on one that is started and not joined. It destroys the object when it
likes, outside of its calls. `pthread_create` may fail, and `func_` may throw, which ends the process.

* `Owner` and `Child` are the program points; `Child.fault` is a use of memory that is gone.
* `Handshake`: what the two threads make of the latch.
* `start_handshake`: the new thread does not use the object after `start` has returned; a joined thread has run `func_`
  once and has freed its `ThreadData`.
-/

namespace Libeva.Thread

open CountDownLatch (Op)

inductive Party
  | owner
  | child
  deriving DecidableEq

/-- `ThreadData`: whether `tid_` and `latch_` still point into the `Thread` object, and the copy of the name. -/
structure ThreadData where
  tid_ : Bool
  latch_ : Bool
  name_ : Bytes

/-- What `t_threadName` of the new thread points to; `data` is the name in its `ThreadData`. -/
inductive ThreadName
  | unknown
  | libeva
  | data
  | finished
  deriving DecidableEq

/-- Outside of a call; in `start`; in `join`; after the destructor. -/
inductive Owner
  | idle
  | setStarted
  | newData
  | create
  | undo
  | deleteData
  | callWait
  | wait
  | check
  | joining
  | gone
  /-- Out of the assert at the end of `start`. -/
  | aborted
  deriving DecidableEq

/-- In `runInThread`; in `startThread` after it. -/
inductive Child
  | absent
  | setTid
  | clearTid
  | callCountDown
  | countDown
  | clearLatch
  | setName
  | call
  | running
  | finish
  | delete
  | exit
  | terminated
  | fault
  deriving DecidableEq

structure State where
  /-- The memory of the object is there. -/
  alive : Bool
  started_ : Bool
  joined_ : Bool
  tid_ : ℤ
  name_ : Bytes
  latch_ : CountDownLatch.State Party
  owner : Owner
  data : Option ThreadData
  child : Child
  /-- `CurrentThread::tid()` of the new thread. -/
  childTid : ℤ
  t_threadName : ThreadName
  /-- How often `func_` has been called. -/
  called : ℕ
  detached : Bool

inductive Action
  | start
  | join
  | destroy
  /-- `pthread_create` fails, or creates a thread with this id. -/
  | create (tid : Option ℤ)
  | owner
  | child
  /-- `func_` throws. -/
  | throw
  /-- A spurious wakeup of the owner in `wait`. -/
  | wake

section Program

/-- A use of the object. -/
def State.object (s : State) (f : Option State) : Option State :=
  if s.alive then f else some { s with child := .fault }

/-- A use of the `ThreadData`. -/
def State.useData (s : State) (f : ThreadData → Option State) : Option State :=
  match s.data with
  | some d => f d
  | none => some { s with child := .fault }

/-- A use of a pointer of the `ThreadData`. -/
def State.deref (s : State) (p : ThreadData → Bool) (f : Option State) : Option State :=
  s.useData fun d => if p d then s.object f else some { s with child := .fault }

/-- A step in a member of `latch_`. -/
def State.latch (s : State) (a : CountDownLatch.Action Party) : Option State :=
  (CountDownLatch.step s.latch_ a).map fun l => { s with latch_ := l }

/-- The next statement of the owner in `start` or `join`. -/
def ownerTick (s : State) : Option State :=
  match s.owner with
  | .idle | .gone | .aborted | .create => none
  | .setStarted => some { s with started_ := true, owner := .newData }
  | .newData => some { s with data := some ⟨true, true, s.name_⟩, owner := .create }
  | .undo => some { s with started_ := false, owner := .deleteData }
  | .deleteData => some { s with data := none, owner := .idle }
  | .callWait => (s.latch (.call .owner .wait)).map fun s => { s with owner := .wait }
  | .wait =>
    match s.latch_.pc .owner with
    | .ret _ _ => some { s with owner := .check }
    | _ => s.latch (.tick .owner)
  | .check => some { s with owner := if 0 < s.tid_ then .idle else .aborted }
  | .joining => if s.child = .exit then some { s with owner := .idle } else none

/-- The next statement of the new thread. -/
def childTick (s : State) : Option State :=
  match s.child with
  | .absent | .exit | .terminated | .fault => none
  | .setTid => s.deref ThreadData.tid_ (some { s with tid_ := s.childTid, child := .clearTid })
  | .clearTid => s.useData fun d => some { s with data := some { d with tid_ := false }, child := .callCountDown }
  | .callCountDown =>
    s.deref ThreadData.latch_ ((s.latch (.call .child .countDown)).map fun s => { s with child := .countDown })
  | .countDown =>
    match s.latch_.pc .child with
    | .ret _ _ => some { s with child := .clearLatch }
    | _ => s.object (s.latch (.tick .child))
  | .clearLatch => s.useData fun d => some { s with data := some { d with latch_ := false }, child := .setName }
  | .setName => s.useData fun d => some { s with
      t_threadName := if d.name_ = [] then .libeva else .data, child := .call }
  | .call => s.useData fun _ => some { s with called := s.called + 1, child := .running }
  | .running => some { s with child := .finish }
  | .finish => some { s with t_threadName := .finished, child := .delete }
  | .delete => s.useData fun _ => some { s with data := none, child := .exit }

def act (s : State) : Action → Option State
  | .start => if s.owner = .idle ∧ s.started_ = false then some { s with owner := .setStarted } else none
  | .join =>
    if s.owner = .idle ∧ s.started_ = true ∧ s.joined_ = false then
      some { s with joined_ := true, owner := .joining }
    else none
  | .destroy =>
    if s.owner = .idle then
      some { s with alive := false, owner := .gone, detached := s.started_ && !s.joined_ }
    else none
  | .create tid =>
    if s.owner = .create then
      match tid with
      | none => some { s with owner := .undo }
      | some tid => if 0 < tid then some { s with childTid := tid, child := .setTid, owner := .callWait } else none
    else none
  | .owner => ownerTick s
  | .child => childTick s
  | .throw => if s.child = .running then some { s with child := .terminated } else none
  | .wake => s.latch (.wake .owner)

def step (s : State) (a : Action) : Option State := if s.child = .terminated then none else act s a

/-- `setDefaultName`, after `num` constructors. -/
def setDefaultName (num : ℕ) (name : Bytes) : Bytes :=
  if name = [] then bytes "Thread" ++ bytes (toString num) else name

/-- The object that the constructor builds. -/
def init (num : ℕ) (name : Bytes) : State where
  alive := true
  started_ := false
  joined_ := false
  tid_ := 0
  name_ := setDefaultName num name
  latch_ := CountDownLatch.init 1
  owner := .idle
  data := none
  child := .absent
  childTid := 0
  t_threadName := .unknown
  called := 0
  detached := false

/-- All interleavings of the owner and the new thread. -/
def thread (num : ℕ) (name : Bytes) : Lts.System State Action := Lts.ofFun (init num name) step

end Program

/-! ## The latch of the two threads -/

section Latch

open CountDownLatch (Pc)

variable {l l' : CountDownLatch.State Party} {p : Pc} {op : Op} {c : ℤ}

/-- Before a call, in it, or after it has returned. -/
inductive Phase
  | before
  | during
  | after

/-- Where a thread is in `latch_`, when it makes this one call. -/
def Phase.At (op : Op) (p : Pc) : Phase → Prop
  | .before => p = .idle
  | .during => p.op? = some op
  | .after => ∃ c, p = .ret op c

/-- The child has yet to make its decrement. -/
def Early (p : Pc) : Prop := p = .idle ∨ p.owes = true

/-- The owner calls `wait` and the child `countDown`, once each. -/
structure Handshake (l : CountDownLatch.State Party) : Prop where
  inv : CountDownLatch.Inv l
  owner : l.pc .owner = .idle ∨ (l.pc .owner).op? = some .wait
  child : l.pc .child = .idle ∨ (l.pc .child).op? = some .countDown
  early : Early (l.pc .child) → l.count_ = 1
  late : ¬Early (l.pc .child) → l.count_ = 0
  passed : ∀ c, l.pc .owner = .unlock .wait c ∨ l.pc .owner = .ret .wait c → ∃ c', l.pc .child = .ret .countDown c'

theorem handshake_init : Handshake (CountDownLatch.init 1) where
  inv := CountDownLatch.inv_init
  owner := .inl rfl
  child := .inl rfl
  early _ := rfl
  late h := absurd (.inl rfl) h
  passed c h := by rcases h with h | h <;> cases h

/-- A call of `countDown` that is past its decrement and has no lock has returned. -/
theorem ret_of_late (h : p = .idle ∨ p.op? = some .countDown) (he : ¬Early p) (hl : p.holds = false) :
    ∃ c, p = .ret .countDown c := by
  unfold Early at he
  cases p <;> simp_all [Pc.op?, Pc.holds, Pc.owes]

theorem Handshake.call_owner (h : Handshake l) (hs : CountDownLatch.step l (.call .owner .wait) = some l') :
    Handshake l' := by
  obtain ⟨rfl, -⟩ := CountDownLatch.called hs
  have hc : (l.goto .owner (.lock .wait)).pc .child = l.pc .child := by
    rw [CountDownLatch.goto_pc, Function.update_of_ne (by decide)]
  refine ⟨h.inv.step hs, .inr ?_, ?_, ?_, ?_, ?_⟩
  · rw [CountDownLatch.goto_pc, Function.update_self]
    rfl
  · rw [hc]; exact h.child
  · rw [hc]; exact h.early
  · rw [hc]; exact h.late
  · rw [CountDownLatch.goto_pc, Function.update_self]
    rintro c (h | h) <;> cases h

theorem Handshake.call_child (h : Handshake l) (hp : l.pc .child = .idle)
    (hs : CountDownLatch.step l (.call .child .countDown) = some l') : Handshake l' := by
  obtain ⟨rfl, -⟩ := CountDownLatch.called hs
  have ho : (l.goto .child (.lock .countDown)).pc .owner = l.pc .owner := by
    rw [CountDownLatch.goto_pc, Function.update_of_ne (by decide)]
  have hc : (l.goto .child (.lock .countDown)).pc .child = .lock .countDown := by
    rw [CountDownLatch.goto_pc, Function.update_self]
  have howes : ((l.goto .child (.lock .countDown)).pc .child).owes = true := congrArg Pc.owes hc
  refine ⟨h.inv.step hs, ?_, .inr (congrArg Pc.op? hc), fun _ => h.early (.inl hp),
    fun he => absurd (.inr howes) he, ?_⟩
  · rw [ho]; exact h.owner
  · rw [ho]
    intro c hr
    obtain ⟨c', hc'⟩ := h.passed c hr
    rw [hp] at hc'
    cases hc'

theorem Handshake.wake (h : Handshake l) (hs : CountDownLatch.step l (.wake .owner) = some l') : Handshake l' := by
  obtain ⟨rfl, -⟩ := CountDownLatch.woken hs
  have hc : (l.goto .owner (.lock .wait)).pc .child = l.pc .child := by
    rw [CountDownLatch.goto_pc, Function.update_of_ne (by decide)]
  refine ⟨h.inv.step hs, .inr ?_, ?_, ?_, ?_, ?_⟩
  · rw [CountDownLatch.goto_pc, Function.update_self]
    rfl
  · rw [hc]; exact h.child
  · rw [hc]; exact h.early
  · rw [hc]; exact h.late
  · rw [CountDownLatch.goto_pc, Function.update_self]
    rintro c (h | h) <;> cases h

/-- A step of the owner leaves the child where it is, for the child never sleeps. -/
theorem Handshake.child_pc (h : Handshake l) {a : CountDownLatch.Action Party}
    (hs : CountDownLatch.step l a = some l') (ha : Party.child ≠ a.thread) : l'.pc .child = l.pc .child := by
  rcases CountDownLatch.step_pc_of_ne hs ha with hc | ⟨hp, -⟩
  · exact hc
  · rcases h.child with hc | hc <;> rw [hp] at hc <;> cases hc

theorem Handshake.tick_owner (h : Handshake l) (hs : CountDownLatch.step l (.tick .owner) = some l') :
    Handshake l' := by
  have hc := h.child_pc hs (by decide)
  have hop : (l.pc .owner).op? = some .wait := by
    refine h.owner.resolve_left fun hp => ?_
    simp [CountDownLatch.step, hp, CountDownLatch.exec] at hs
  have hop' : (l'.pc .owner).op? = some .wait := (CountDownLatch.op_tick hs _).trans hop
  suffices hk : l'.count_ = l.count_ ∧
      ∀ c, l'.pc .owner = .unlock .wait c ∨ l'.pc .owner = .ret .wait c → ∃ c', l.pc .child = .ret .countDown c' by
    refine ⟨h.inv.step hs, .inr hop', ?_, ?_, ?_, ?_⟩
    · rw [hc]; exact h.child
    · rw [hc, hk.1]; exact h.early
    · rw [hc, hk.1]; exact h.late
    · rw [hc]; exact hk.2
  cases CountDownLatch.ticked hs with
  | lock op hp hp' _ _ hc =>
    rw [hp] at hop
    cases hop
    refine ⟨hc, fun c hr => ?_⟩
    rw [hp'] at hr
    rcases hr with hr | hr <;> cases hr
  | sleep _ hp' _ _ hc =>
    refine ⟨hc, fun c hr => ?_⟩
    rw [hp'] at hr
    rcases hr with hr | hr <;> cases hr
  | pass hp _ _ h0 hc =>
    refine ⟨hc, fun _ _ => ret_of_late h.child (fun he => ?_) ?_⟩
    · rw [h.early he] at h0
      cases h0
    · -- the owner has the lock
      have hown : (l.pc .owner).holds = true := by rw [hp]; rfl
      rw [← Bool.not_eq_true]
      exact fun hin => Party.noConfusion (h.inv.owner.unique hin hown)
  | unlock op c hp hp' _ hc =>
    rw [hp] at hop
    cases hop
    exact ⟨hc, fun _ _ => h.passed c (.inl hp)⟩
  | countDown hp _ _ _ | zero hp _ _ _ | notZero hp _ _ _ _ | notify hp _ _ _ _ | getCount hp _ _ _ =>
    rw [hp] at hop
    cases hop

theorem Handshake.tick_child (h : Handshake l) (hs : CountDownLatch.step l (.tick .child) = some l') :
    Handshake l' := by
  have hop : (l.pc .child).op? = some .countDown := by
    refine h.child.resolve_left fun hp => ?_
    simp [CountDownLatch.step, hp, CountDownLatch.exec] at hs
  have hop' : (l'.pc .child).op? = some .countDown := (CountDownLatch.op_tick hs _).trans hop
  have hown : l'.pc .owner = l.pc .owner ∨ l.pc .owner = .asleep ∧ l'.pc .owner = .lock .wait :=
    CountDownLatch.step_pc_of_ne hs (by decide)
  suffices hk : (Early (l'.pc .child) → l'.count_ = 1) ∧ (¬Early (l'.pc .child) → l'.count_ = 0) by
    refine ⟨h.inv.step hs, ?_, .inr hop', hk.1, hk.2, fun c hr => ?_⟩
    · rcases hown with ho | ⟨-, ho⟩
      · rw [ho]; exact h.owner
      · rw [ho]; exact .inr rfl
    · -- the child has returned already, and makes no step
      rcases hown with ho | ⟨-, ho⟩
      · rw [ho] at hr
        obtain ⟨c', hc'⟩ := h.passed c hr
        simp [CountDownLatch.step, hc', CountDownLatch.exec] at hs
      · rw [ho] at hr
        rcases hr with hr | hr <;> cases hr
  have late : ∀ {p p'}, l.pc .child = p → ¬Early p → l'.pc .child = p' → ¬Early p' → l'.count_ = l.count_ →
      (Early (l'.pc .child) → l'.count_ = 1) ∧ (¬Early (l'.pc .child) → l'.count_ = 0) := by
    intro p p' hp hl hp' hl' hc
    rw [hp']
    exact ⟨fun he => absurd he hl', fun _ => hc.trans (h.late (hp ▸ hl))⟩
  have not_early : ∀ {p : Pc}, p ≠ .idle → p.owes = false → ¬Early p := by
    rintro p hp ho (he | he)
    · exact hp he
    · rw [ho] at he
      cases he
  cases CountDownLatch.ticked hs with
  | lock op hp hp' _ _ hc =>
    rw [hp] at hop
    cases hop
    rw [hp']
    exact ⟨fun _ => hc.trans (h.early (.inr (by rw [hp]; rfl))), fun he => absurd (.inr rfl) he⟩
  | countDown hp hp' _ hc =>
    have h1 := h.early (.inr (by rw [hp]; rfl))
    rw [hp', hc, h1]
    exact ⟨fun he => absurd he (not_early Pc.noConfusion rfl), fun _ => rfl⟩
  | zero hp hp' _ hc | notZero hp hp' _ _ hc | notify hp hp' _ hc _ | unlock _ _ hp hp' _ hc =>
    exact late hp (not_early Pc.noConfusion rfl) hp' (not_early Pc.noConfusion rfl) hc
  | sleep hp _ _ _ _ | pass hp _ _ _ _ | getCount hp _ _ _ =>
    rw [hp] at hop
    cases hop

end Latch

/-! ## The invariant -/

section Invariant

open CountDownLatch (Pc)

variable {s s' : State} {a : Action}

/-- How far the owner is with its call of `wait`. -/
def Owner.phase (started : Bool) : Owner → Phase
  | .setStarted | .newData | .create | .undo | .deleteData | .callWait => .before
  | .wait => .during
  | .check | .joining | .aborted => .after
  | .idle | .gone => if started then .after else .before

/-- The owner has created the new thread. -/
def Owner.forked (started : Bool) : Owner → Bool
  | .setStarted | .newData | .create | .undo | .deleteData => false
  | .callWait | .wait | .check | .joining | .aborted => true
  | .idle | .gone => started

/-- What `started_` is inside of a call. -/
def Owner.started? : Owner → Option Bool
  | .setStarted | .deleteData => some false
  | .newData | .create | .undo | .callWait | .wait | .check | .joining | .aborted => some true
  | .idle | .gone => none

/-- The pointers of the `ThreadData` of a call of `start` that has not created the thread. -/
def Owner.pointers : Owner → Option (Bool × Bool)
  | .create | .undo | .deleteData => some (true, true)
  | _ => none

/-- How far the new thread is with its call of `countDown`. -/
def Child.phase : Child → Phase
  | .absent | .setTid | .clearTid | .callCountDown => .before
  | .countDown => .during
  | .clearLatch | .setName | .call | .running | .finish | .delete | .exit | .terminated | .fault => .after

/-- The pointers of the `ThreadData`. -/
def Child.pointers : Child → Option (Bool × Bool)
  | .setTid | .clearTid => some (true, true)
  | .callCountDown | .countDown | .clearLatch => some (false, true)
  | .setName | .call | .running | .finish | .delete | .terminated => some (false, false)
  | .absent | .exit | .fault => none

/-- The new thread has written `tid_`. -/
def Child.wrote : Child → Bool
  | .absent | .setTid => false
  | _ => true

def Child.called : Child → ℕ
  | .running | .finish | .delete | .exit | .terminated => 1
  | _ => 0

/-- `t_threadName` may point into the `ThreadData`. -/
def Child.named : Child → Bool
  | .call | .running | .finish | .terminated => true
  | _ => false

theorem pointers_of_named {c : Child} (h : c.named = true) : c.pointers = some (false, false) := by
  cases c <;> first | rfl | cases h

structure Inv (s : State) : Prop where
  latch : Handshake s.latch_
  owner : (s.owner.phase s.started_).At .wait (s.latch_.pc .owner)
  child : s.child.phase.At .countDown (s.latch_.pc .child)
  started : ∀ b ∈ s.owner.started?, s.started_ = b
  forked : s.owner.forked s.started_ = true ↔ s.child ≠ .absent
  alive : s.alive = true ↔ s.owner ≠ .gone
  safe : s.child ≠ .fault ∧ s.owner ≠ .aborted
  data : s.child ≠ .absent → s.data.map (fun d => (d.tid_, d.latch_)) = s.child.pointers
  newData : s.child = .absent → s.data.map (fun d => (d.tid_, d.latch_)) = s.owner.pointers
  tid : s.child.wrote = true → s.tid_ = s.childTid
  pos : s.child ≠ .absent → 0 < s.childTid
  called : s.called = s.child.called
  joined : s.joined_ = true → s.started_ = true ∧ (s.owner = .joining ∨ s.child = .exit)
  named : s.t_threadName = .data → s.child.named = true
  finished : s.child = .delete ∨ s.child = .exit → s.t_threadName = .finished

theorem inv_init {num : ℕ} {name : Bytes} : Inv (init num name) where
  latch := handshake_init
  owner := rfl
  child := rfl
  started _ h := nomatch h
  forked := iff_of_false Bool.false_ne_true (not_not.2 rfl)
  alive := iff_of_true rfl Owner.noConfusion
  safe := ⟨Child.noConfusion, Owner.noConfusion⟩
  data h := absurd rfl h
  newData _ := rfl
  tid h := Bool.noConfusion h
  pos h := absurd rfl h
  called := rfl
  joined h := Bool.noConfusion h
  named h := ThreadName.noConfusion h
  finished h := by rcases h with h | h <;> cases h

/-- The object is there while the owner is in `start` or `join`. -/
theorem Inv.alive_of (h : Inv s) (hg : s.owner ≠ .gone) (f : Option State) : s.object f = f := if_pos (h.alive.2 hg)

/-- The new thread has its `ThreadData`. -/
theorem Inv.useData (h : Inv s) {p : Bool × Bool} (hp : s.child.pointers = some p) (f : ThreadData → Option State) :
    ∃ d, s.data = some d ∧ (d.tid_, d.latch_) = p ∧ s.useData f = f d := by
  have hne : s.child ≠ .absent := by
    intro he
    rw [he] at hp
    cases hp
  have hd := h.data hne
  rw [hp] at hd
  obtain ⟨d, hd, he⟩ := Option.map_eq_some_iff.1 hd
  exact ⟨d, hd, he, by rw [State.useData, hd]⟩

/-- Until the new thread has counted down, the owner waits for it. -/
theorem Inv.waiting (h : Inv s) (hc : s.child ≠ .absent) (hr : ∀ c, s.latch_.pc .child ≠ .ret .countDown c) :
    s.owner = .callWait ∨ s.owner = .wait := by
  have hf := h.forked.2 hc
  have ho := h.owner
  have hnot : ¬∃ c, s.latch_.pc .owner = .ret .wait c := by
    rintro ⟨c, hret⟩
    obtain ⟨c', hc'⟩ := h.latch.passed c (.inr hret)
    exact hr c' hc'
  cases hp : s.owner <;> rw [hp] at hf ho <;> simp_all [Owner.forked, Owner.phase, Phase.At]

/-- Without a new thread there is nothing to join. -/
theorem Inv.not_joined (h : Inv s) (hf : s.owner.forked s.started_ = false) : s.joined_ = false := by
  rw [← Bool.not_eq_true]
  intro hj
  rcases (h.joined hj).2 with ho | hc
  · rw [ho] at hf
    cases hf
  · rw [h.forked.2 (by rw [hc]; exact Child.noConfusion)] at hf
    cases hf

/-- When `start` is past its `wait`, the new thread is past its `countDown`. -/
theorem Inv.counted (h : Inv s) (hph : s.owner.phase s.started_ = .after) :
    ∃ c, s.latch_.pc .child = .ret .countDown c := by
  have ho := h.owner
  rw [hph] at ho
  obtain ⟨c, hc⟩ := ho
  exact h.latch.passed c (.inr hc)

/-- The new thread writes `tid_` before it counts down. -/
theorem Inv.wrote (h : Inv s) (hph : s.owner.phase s.started_ = .after) : s.child.wrote = true := by
  obtain ⟨c, hc⟩ := h.counted hph
  have hchild := h.child
  cases hp : s.child <;> rw [hp] at hchild
  case absent | setTid => exact Pc.noConfusion (hchild.symm.trans hc)
  all_goals rfl

theorem Inv.tid_pos (h : Inv s) (hph : s.owner.phase s.started_ = .after) : 0 < s.tid_ := by
  have hw := h.wrote hph
  rw [h.tid hw]
  refine h.pos fun habs => ?_
  rw [habs] at hw
  cases hw

/-- A step of the owner outside of `latch_` and the `ThreadData`. -/
theorem Inv.move (h : Inv s) {o : Owner} {started joined : Bool} (hg : s.owner ≠ .gone) (hg' : o ≠ .gone)
    (ha : o ≠ .aborted) (hphase : o.phase started = s.owner.phase s.started_)
    (hf : o.forked started = s.owner.forked s.started_) (hd : o.pointers = s.owner.pointers)
    (hst : ∀ b ∈ o.started?, started = b)
    (hj : joined = true → started = true ∧ (o = .joining ∨ s.child = .exit)) :
    Inv { s with owner := o, started_ := started, joined_ := joined } :=
  { h with
    owner := by rw [hphase]; exact h.owner
    started := hst
    forked := by rw [hf]; exact h.forked
    alive := iff_of_true (h.alive.2 hg) hg'
    safe := ⟨h.safe.1, ha⟩
    newData := fun hc => (h.newData hc).trans hd.symm
    joined := hj }

theorem Inv.setLatch (h : Inv s) {l : CountDownLatch.State Party} (hl : Handshake l)
    (ho : (s.owner.phase s.started_).At .wait (l.pc .owner)) (hc : s.child.phase.At .countDown (l.pc .child)) :
    Inv { s with latch_ := l } := { h with latch := hl, owner := ho, child := hc }

/-- Another thread's step leaves a thread in its phase. -/
theorem Phase.At.other {ph : Phase} {op : Op} {p p' : Pc} (h : ph.At op p)
    (hp : p' = p ∨ p = .asleep ∧ p' = .lock .wait) : ph.At op p' := by
  rcases hp with rfl | ⟨rfl, rfl⟩
  · exact h
  · cases ph with
    | before => cases h
    | during => exact h
    | after =>
      obtain ⟨c, hc⟩ := h
      cases hc

theorem Inv.latch_owner (h : Inv s) (hp : s.owner = .wait) (hs : s.latch (.tick .owner) = some s') : Inv s' := by
  obtain ⟨l, hl, rfl⟩ := Option.map_eq_some_iff.1 hs
  refine h.setLatch (h.latch.tick_owner hl) ?_ ?_
  · have ho := h.owner
    rw [hp] at ho ⊢
    exact (CountDownLatch.op_tick hl _).trans ho
  · exact h.child.other (.inl (h.latch.child_pc hl Party.noConfusion))

theorem Inv.latch_child (h : Inv s) (hp : s.child = .countDown) (hs : s.latch (.tick .child) = some s') : Inv s' := by
  obtain ⟨l, hl, rfl⟩ := Option.map_eq_some_iff.1 hs
  refine h.setLatch (h.latch.tick_child hl) ?_ ?_
  · exact h.owner.other (CountDownLatch.step_pc_of_ne hl Party.noConfusion)
  · have hc := h.child
    rw [hp] at hc ⊢
    exact (CountDownLatch.op_tick hl _).trans hc

theorem Inv.latch_wake (h : Inv s) (hs : s.latch (.wake .owner) = some s') : Inv s' := by
  obtain ⟨l, hl, rfl⟩ := Option.map_eq_some_iff.1 hs
  refine h.setLatch (h.latch.wake hl) ?_ (h.child.other (.inl (h.latch.child_pc hl Party.noConfusion)))
  obtain ⟨rfl, hp⟩ := CountDownLatch.woken hl
  exact h.owner.other (.inr ⟨hp, by rw [CountDownLatch.goto_pc, Function.update_self]⟩)

theorem Inv.owner_tick (h : Inv s) (hs : ownerTick s = some s') : Inv s' := by
  have hst := h.started
  have hphase := h.owner
  have hforked := h.forked
  have hnot := h.not_joined
  have hjoined := h.joined
  unfold ownerTick at hs
  cases hp : s.owner <;> rw [hp] at hs hst hphase hforked hnot hjoined
  case idle | gone | aborted | create => cases hs
  case setStarted =>
    cases hs
    refine h.move (by simp [hp]) Owner.noConfusion Owner.noConfusion (by rw [hp]; rfl) (by rw [hp]; rfl)
      (by rw [hp]; rfl) (by simp [Owner.started?]) ?_
    rw [hnot rfl]
    exact fun hj => Bool.noConfusion hj
  case newData =>
    cases hs
    have habs : s.child = .absent := by
      by_contra hc
      exact Bool.noConfusion (hforked.2 hc)
    exact { h with
      owner := hphase
      started := hst
      forked := hforked
      alive := iff_of_true (h.alive.2 (by rw [hp]; exact Owner.noConfusion)) Owner.noConfusion
      safe := ⟨h.safe.1, Owner.noConfusion⟩
      data := fun hc => absurd habs hc
      newData := fun _ => rfl
      joined := fun hj => by rw [hnot rfl] at hj; cases hj }
  case undo =>
    cases hs
    refine h.move (by simp [hp]) Owner.noConfusion Owner.noConfusion (by rw [hp]; rfl) (by rw [hp]; rfl)
      (by rw [hp]; rfl) (by simp [Owner.started?]) ?_
    rw [hnot rfl]
    exact fun hj => Bool.noConfusion hj
  case deleteData =>
    cases hs
    have hfalse : s.started_ = false := hst false rfl
    have habs : s.child = .absent := by
      by_contra hc
      exact Bool.noConfusion (hforked.2 hc)
    exact { h with
      owner := by rw [hfalse]; exact hphase
      started := fun b hb => nomatch hb
      forked := by rw [hfalse]; exact hforked
      alive := iff_of_true (h.alive.2 (by rw [hp]; exact Owner.noConfusion)) Owner.noConfusion
      safe := ⟨h.safe.1, Owner.noConfusion⟩
      data := fun hc => absurd habs hc
      newData := fun _ => rfl
      joined := fun hj => by rw [hnot rfl] at hj; cases hj }
  case callWait =>
    obtain ⟨s₁, hs₁, rfl⟩ := Option.map_eq_some_iff.1 hs
    obtain ⟨l, hl, rfl⟩ := Option.map_eq_some_iff.1 hs₁
    exact { h with
      latch := h.latch.call_owner hl
      owner := by
        obtain ⟨rfl, -⟩ := CountDownLatch.called hl
        rw [CountDownLatch.goto_pc, Function.update_self]
        rfl
      child := h.child.other (.inl (h.latch.child_pc hl Party.noConfusion))
      started := hst
      forked := hforked
      alive := iff_of_true (h.alive.2 (by rw [hp]; exact Owner.noConfusion)) Owner.noConfusion
      safe := ⟨h.safe.1, Owner.noConfusion⟩
      newData := fun hc => absurd hc (hforked.1 rfl)
      joined := fun hj => ⟨(hjoined hj).1, .inr ((hjoined hj).2.resolve_left Owner.noConfusion)⟩ }
  case wait =>
    dsimp only at hs
    split at hs
    · rename_i op c hr
      cases hs
      exact { h with
        owner := by
          rw [hr] at hphase
          cases hphase
          exact ⟨c, hr⟩
        started := hst
        forked := hforked
        alive := iff_of_true (h.alive.2 (by rw [hp]; exact Owner.noConfusion)) Owner.noConfusion
        safe := ⟨h.safe.1, Owner.noConfusion⟩
        newData := fun hc => absurd hc (hforked.1 rfl)
        joined := fun hj => ⟨(hjoined hj).1, .inr ((hjoined hj).2.resolve_left Owner.noConfusion)⟩ }
    · exact h.latch_owner hp hs
  case check =>
    have hpos : 0 < s.tid_ := h.tid_pos (by rw [hp]; rfl)
    have htrue : s.started_ = true := hst true rfl
    cases hs
    rw [if_pos hpos]
    exact h.move (by rw [hp]; exact Owner.noConfusion) Owner.noConfusion Owner.noConfusion (by rw [hp, htrue]; rfl)
      (by rw [hp, htrue]; rfl) (by rw [hp]; rfl) (fun b hb => nomatch hb)
      fun hj => ⟨(hjoined hj).1, .inr ((hjoined hj).2.resolve_left Owner.noConfusion)⟩
  case joining =>
    have htrue : s.started_ = true := hst true rfl
    dsimp only at hs
    split at hs <;> cases hs
    rename_i hexit
    exact h.move (by rw [hp]; exact Owner.noConfusion) Owner.noConfusion Owner.noConfusion (by rw [hp, htrue]; rfl)
      (by rw [hp, htrue]; rfl) (by rw [hp]; rfl) (fun b hb => nomatch hb) fun hj => ⟨(hjoined hj).1, .inr hexit⟩

/-- A step of the new thread outside of `latch_`. -/
theorem Inv.child_move (h : Inv s) {c : Child} {d : Option ThreadData} {tid : ℤ} {n : ThreadName} {k : ℕ}
    (habs : s.child ≠ .absent) (hexit : s.child ≠ .exit) (hc : c ≠ .absent) (hfault : c ≠ .fault)
    (hphase : c.phase.At .countDown (s.latch_.pc .child)) (hd : d.map (fun d => (d.tid_, d.latch_)) = c.pointers)
    (htid : tid = s.childTid) (hk : k = c.called) (hn : n = .data → c.named = true)
    (hfin : c = .delete ∨ c = .exit → n = .finished) :
    Inv { s with child := c, data := d, tid_ := tid, t_threadName := n, called := k } :=
  { h with
    child := hphase
    forked := iff_of_true (h.forked.2 habs) hc
    safe := ⟨hfault, h.safe.2⟩
    data := fun _ => hd
    newData := fun he => absurd he hc
    tid := fun _ => htid
    pos := fun _ => h.pos habs
    called := hk
    joined := fun hj => ⟨(h.joined hj).1, .inl ((h.joined hj).2.resolve_right hexit)⟩
    named := hn
    finished := hfin }

/-- Until it has counted down, the new thread can use what its pointers point to. -/
theorem Inv.deref (h : Inv s) {q : Bool × Bool} (hp : s.child.pointers = some q) {p : ThreadData → Bool}
    (hq : ∀ d : ThreadData, (d.tid_, d.latch_) = q → p d = true) (hph : s.child.phase = .before)
    (f : Option State) : s.deref p f = f := by
  obtain ⟨d, -, he, hu⟩ := h.useData hp fun d => if p d then s.object f else some { s with child := .fault }
  have habs : s.child ≠ .absent := by
    intro he
    rw [he] at hp
    cases hp
  have hidle : s.latch_.pc .child = .idle := by
    have hc := h.child
    rw [hph] at hc
    exact hc
  rw [State.deref, hu, if_pos (hq d he)]
  refine h.alive_of ?_ f
  rcases h.waiting habs fun c hc => Pc.noConfusion (hidle.symm.trans hc) with ho | ho <;> rw [ho] <;>
    exact Owner.noConfusion

theorem Inv.child_tick (h : Inv s) (hs : childTick s = some s') : Inv s' := by
  have hchild := h.child
  have hdata := h.data
  have hwrote := h.tid
  have hcalled := h.called
  have hnamed := h.named
  have hmove := @Inv.child_move s h
  have huse := @Inv.useData s h
  have hderef := @Inv.deref s h
  unfold childTick at hs
  cases hp : s.child <;> rw [hp] at hs hchild hdata hwrote hcalled hnamed hmove huse hderef
  case absent | exit | terminated | fault => cases hs
  case setTid =>
    dsimp only at hs
    rw [hderef rfl (fun d hd => congrArg Prod.fst hd) rfl] at hs
    cases hs
    exact hmove Child.noConfusion Child.noConfusion Child.noConfusion Child.noConfusion hchild
      (hdata Child.noConfusion) rfl hcalled hnamed fun he => by rcases he with he | he <;> cases he
  case clearTid =>
    obtain ⟨d, hd, he, hu⟩ := huse rfl fun d =>
      some { s with data := some { d with tid_ := false }, child := .callCountDown }
    rw [hu] at hs
    cases hs
    exact hmove Child.noConfusion Child.noConfusion Child.noConfusion Child.noConfusion hchild
      (congrArg (fun q : Bool × Bool => some (false, q.2)) he) (hwrote rfl) hcalled hnamed
      fun he => by rcases he with he | he <;> cases he
  case callCountDown =>
    dsimp only at hs
    rw [hderef rfl (fun d hd => congrArg Prod.snd hd) rfl] at hs
    obtain ⟨s₁, hs₁, rfl⟩ := Option.map_eq_some_iff.1 hs
    obtain ⟨l, hl, rfl⟩ := Option.map_eq_some_iff.1 hs₁
    have howner := h.owner.other (CountDownLatch.step_pc_of_ne hl (u := .owner) Party.noConfusion)
    have hforked := h.forked
    rw [hp] at hforked
    exact { h with
      latch := h.latch.call_child hchild hl
      owner := howner
      child := by
        obtain ⟨rfl, -⟩ := CountDownLatch.called hl
        rw [CountDownLatch.goto_pc, Function.update_self]
        rfl
      forked := iff_of_true (hforked.2 Child.noConfusion) Child.noConfusion
      safe := ⟨Child.noConfusion, h.safe.2⟩
      data := fun _ => hdata Child.noConfusion
      newData := fun he => Child.noConfusion he
      tid := fun _ => hwrote rfl
      pos := fun _ => h.pos (by rw [hp]; exact Child.noConfusion)
      called := hcalled
      joined := fun hj =>
        ⟨(h.joined hj).1, .inl ((h.joined hj).2.resolve_right (by rw [hp]; exact Child.noConfusion))⟩
      named := hnamed
      finished := fun he => by rcases he with he | he <;> cases he }
  case countDown =>
    dsimp only at hs
    split at hs
    · rename_i op c hr
      cases hs
      refine hmove Child.noConfusion Child.noConfusion Child.noConfusion Child.noConfusion ?_
        (hdata Child.noConfusion) (hwrote rfl) hcalled hnamed fun he => by rcases he with he | he <;> cases he
      have hop : (s.latch_.pc .child).op? = some .countDown := hchild
      rw [hr] at hop
      cases hop
      exact ⟨c, hr⟩
    · rename_i hr
      have hw := h.waiting (by rw [hp]; exact Child.noConfusion) fun c hc => hr _ _ hc
      rw [h.alive_of (by rcases hw with ho | ho <;> rw [ho] <;> exact Owner.noConfusion)] at hs
      exact h.latch_child hp hs
  case clearLatch =>
    obtain ⟨d, hd, he, hu⟩ := huse rfl fun d =>
      some { s with data := some { d with latch_ := false }, child := .setName }
    rw [hu] at hs
    cases hs
    exact hmove Child.noConfusion Child.noConfusion Child.noConfusion Child.noConfusion hchild
      (congrArg (fun q : Bool × Bool => some (q.1, false)) he) (hwrote rfl) hcalled hnamed
      fun he => by rcases he with he | he <;> cases he
  case setName =>
    obtain ⟨d, hd, he, hu⟩ := huse rfl fun d => some { s with
      t_threadName := if d.name_ = [] then .libeva else .data, child := .call }
    rw [hu] at hs
    cases hs
    exact hmove Child.noConfusion Child.noConfusion Child.noConfusion Child.noConfusion hchild
      (hdata Child.noConfusion) (hwrote rfl) hcalled (fun _ => rfl) fun he => by rcases he with he | he <;> cases he
  case call =>
    obtain ⟨d, hd, he, hu⟩ := huse rfl fun _ => some { s with called := s.called + 1, child := .running }
    rw [hu] at hs
    cases hs
    exact hmove Child.noConfusion Child.noConfusion Child.noConfusion Child.noConfusion hchild
      (hdata Child.noConfusion) (hwrote rfl) (congrArg (· + 1) hcalled) (fun _ => rfl)
      fun he => by rcases he with he | he <;> cases he
  case running =>
    cases hs
    exact hmove Child.noConfusion Child.noConfusion Child.noConfusion Child.noConfusion hchild
      (hdata Child.noConfusion) (hwrote rfl) hcalled (fun _ => rfl) fun he => by rcases he with he | he <;> cases he
  case finish =>
    cases hs
    exact hmove Child.noConfusion Child.noConfusion Child.noConfusion Child.noConfusion hchild
      (hdata Child.noConfusion) (hwrote rfl) hcalled (fun hn => ThreadName.noConfusion hn) fun _ => rfl
  case delete =>
    obtain ⟨d, hd, he, hu⟩ := huse rfl fun _ => some { s with data := none, child := .exit }
    rw [hu] at hs
    cases hs
    have hfin := h.finished (.inl hp)
    exact hmove Child.noConfusion Child.noConfusion Child.noConfusion Child.noConfusion hchild rfl (hwrote rfl)
      hcalled (fun hn => ThreadName.noConfusion (hfin.symm.trans hn)) fun _ => hfin

theorem Inv.step (h : Inv s) (hs : Thread.step s a = some s') : Inv s' := by
  unfold Thread.step at hs
  split at hs
  · cases hs
  cases a with
  | start =>
    simp only [act] at hs
    split at hs <;> cases hs
    rename_i hp
    obtain ⟨hp, hst⟩ := hp
    refine h.move (by rw [hp]; exact Owner.noConfusion) Owner.noConfusion Owner.noConfusion ?_ ?_ ?_ ?_ ?_
    · rw [hp, hst]; rfl
    · rw [hp, hst]; rfl
    · rw [hp]; rfl
    · rw [hst]
      rintro b hb
      exact Option.some.inj hb
    · intro hj
      exact absurd (h.joined hj).1 (by rw [hst]; decide)
  | join =>
    simp only [act] at hs
    split at hs <;> cases hs
    rename_i hp
    obtain ⟨hp, hst, -⟩ := hp
    refine h.move (by rw [hp]; exact Owner.noConfusion) Owner.noConfusion Owner.noConfusion ?_ ?_ ?_ ?_ ?_
    · rw [hp, hst]; rfl
    · rw [hp, hst]; rfl
    · rw [hp]; rfl
    · rw [hst]
      rintro b hb
      exact Option.some.inj hb
    · exact fun _ => ⟨hst, .inl rfl⟩
  | destroy =>
    simp only [act] at hs
    split at hs <;> cases hs
    rename_i hp
    have hphase := h.owner
    have hforked := h.forked
    have hnew := h.newData
    have hjoined := h.joined
    rw [hp] at hphase hforked hnew hjoined
    exact { h with
      owner := hphase
      started := fun b hb => nomatch hb
      forked := hforked
      alive := iff_of_false Bool.false_ne_true (not_not.2 rfl)
      safe := ⟨h.safe.1, Owner.noConfusion⟩
      newData := hnew
      joined := fun hj => ⟨(hjoined hj).1, .inr ((hjoined hj).2.resolve_left Owner.noConfusion)⟩ }
  | create tid =>
    simp only [act] at hs
    split at hs
    · rename_i hp
      have hst : s.started_ = true := h.started true (by rw [hp]; rfl)
      have hforked := h.forked
      have hnew := h.newData
      have hphase := h.owner
      rw [hp] at hforked hnew hphase
      have habs : s.child = .absent := by
        by_contra hc
        exact Bool.noConfusion (hforked.2 hc)
      have hnot : s.joined_ = false := h.not_joined (by rw [hp]; rfl)
      cases tid with
      | none =>
        cases hs
        refine h.move (by rw [hp]; exact Owner.noConfusion) Owner.noConfusion Owner.noConfusion (by rw [hp]; rfl)
          (by rw [hp]; rfl) (by rw [hp]; rfl) ?_ ?_
        · rw [hst]
          rintro b hb
          exact Option.some.inj hb
        · rw [hnot]
          exact fun hj => Bool.noConfusion hj
      | some tid =>
        dsimp only at hs
        split at hs <;> cases hs
        rename_i hpos
        have hchild := h.child
        have hcalled := h.called
        have hnamed := h.named
        rw [habs] at hchild hcalled hnamed
        exact { h with
          owner := hphase
          child := hchild
          started := fun b hb => hst.trans (Option.some.inj hb)
          forked := iff_of_true rfl Child.noConfusion
          alive := iff_of_true (h.alive.2 (by rw [hp]; exact Owner.noConfusion)) Owner.noConfusion
          safe := ⟨Child.noConfusion, Owner.noConfusion⟩
          data := fun _ => hnew habs
          newData := fun he => Child.noConfusion he
          tid := fun he => Bool.noConfusion he
          pos := fun _ => hpos
          called := hcalled
          joined := fun hj => by rw [hnot] at hj; cases hj
          named := hnamed
          finished := fun he => by rcases he with he | he <;> cases he }
    · cases hs
  | owner => exact h.owner_tick hs
  | child => exact h.child_tick hs
  | throw =>
    simp only [act] at hs
    split at hs <;> cases hs
    rename_i hp
    have hchild := h.child
    have hdata := h.data
    have hwrote := h.tid
    have hcalled := h.called
    rw [hp] at hchild hdata hwrote hcalled
    exact h.child_move (by rw [hp]; exact Child.noConfusion) (by rw [hp]; exact Child.noConfusion) Child.noConfusion
      Child.noConfusion hchild (hdata Child.noConfusion) (hwrote rfl) hcalled (fun _ => rfl)
      fun he => by rcases he with he | he <;> cases he
  | wake => exact h.latch_wake hs

theorem reach_inv {num : ℕ} {name : Bytes} (h : Lts.Reach (thread num name) s) : Inv s :=
  h.invariant (fun _ hs => hs ▸ inv_init) fun _ _ _ _ hi hst => hi.step hst

theorem Inv.exec {as : List Action} (h : Inv s) (hs : Lts.exec Thread.step s as = some s') : Inv s' := by
  induction as generalizing s with
  | nil => cases hs; exact h
  | cons a as ih =>
    obtain ⟨t, ht, hs⟩ := Option.bind_eq_some_iff.1 hs
    exact ih (h.step ht) hs

/-! ## `start` returns -/

/-- Statements of the two threads. -/
def Ticks (as : List Action) : Prop := ∀ a ∈ as, a = .owner ∨ a = .child

theorem exec_cons {as : List Action} {t : State} (h : step s a = some t) :
    Lts.exec step s (a :: as) = Lts.exec step t as := by
  rw [Lts.exec, h]
  rfl

/-- A statement of a member of `latch_` is one of the thread that is in it. -/
theorem Inv.lift (h : Inv s) (hw : s.owner = .wait) (ht : s.child ≠ .terminated) {l : CountDownLatch.State Party}
    {q : Party} (hl : CountDownLatch.step s.latch_ (.tick q) = some l) :
    ∃ a, (a = .owner ∨ a = .child) ∧ Thread.step s a = some { s with latch_ := l } := by
  have hlatch : s.latch (.tick q) = some { s with latch_ := l } := by rw [State.latch, hl]; rfl
  have hnot : ∀ {op c}, s.latch_.pc q ≠ .ret op c := by
    intro op c hr
    simp [CountDownLatch.step, hr, CountDownLatch.exec] at hl
  cases q with
  | owner =>
    refine ⟨.owner, .inl rfl, ?_⟩
    rw [← hlatch, Thread.step, if_neg ht, act, ownerTick, hw]
    dsimp only
    split
    · rename_i hr
      exact absurd hr hnot
    · rfl
  | child =>
    have hop : s.latch_.pc .child ≠ .idle := by
      intro hp
      simp [CountDownLatch.step, hp, CountDownLatch.exec] at hl
    have hc : s.child = .countDown := by
      have hph := h.child
      cases hp : s.child <;> rw [hp] at hph
      case absent | setTid | clearTid | callCountDown => exact absurd hph hop
      all_goals
        obtain ⟨c, hr⟩ := hph
        exact absurd hr hnot
    refine ⟨.child, .inr rfl, ?_⟩
    rw [← hlatch, Thread.step, if_neg ht, act, childTick, hc]
    dsimp only
    split
    · rename_i hr
      exact absurd hr hnot
    · exact h.alive_of (by rw [hw]; exact Owner.noConfusion) _

theorem Inv.lift_run {as : List (CountDownLatch.Action Party)} {l : CountDownLatch.State Party} (h : Inv s)
    (hw : s.owner = .wait) (ht : s.child ≠ .terminated) (has : CountDownLatch.Ticks as)
    (hl : Lts.exec CountDownLatch.step s.latch_ as = some l) :
    ∃ bs, Ticks bs ∧ Lts.exec Thread.step s bs = some { s with latch_ := l } := by
  induction as generalizing s with
  | nil =>
    cases hl
    exact ⟨[], fun a ha => absurd ha List.not_mem_nil, rfl⟩
  | cons a as ih =>
    obtain ⟨q, rfl⟩ := has a List.mem_cons_self
    obtain ⟨l₁, hl₁, hl⟩ := Option.bind_eq_some_iff.1 hl
    obtain ⟨b, hb, hs⟩ := h.lift hw ht hl₁
    obtain ⟨bs, hbs, hex⟩ := ih (s := { s with latch_ := l₁ }) (h.step hs) hw ht
      (fun a ha => has a (List.mem_cons_of_mem _ ha)) hl
    exact ⟨b :: bs, List.forall_mem_cons.2 ⟨hb, hbs⟩, (exec_cons hs).trans hex⟩

/-- When the child has called `countDown`, the latch is at zero but for its decrement. -/
theorem Handshake.owed {l : CountDownLatch.State Party} (h : Handshake l) (hc : l.pc .child ≠ .idle) :
    ∃ F, CountDownLatch.Owed l F ∧ l.count_ = F.card := by
  have howner : (l.pc .owner).owes = false := by
    rcases h.owner with hp | hp <;> cases hq : l.pc .owner <;> rw [hq] at hp <;> first | rfl | cases hp
    rfl
  cases he : (l.pc .child).owes with
  | true =>
    refine ⟨{.child}, fun q => ?_, (h.early (.inr he)).trans rfl⟩
    cases q <;> simp [howner, he]
  | false =>
    refine ⟨∅, fun q => ?_, h.late ?_⟩
    · cases q <;> simp [howner, he]
    · rintro (hp | hp)
      · exact hc hp
      · rw [he] at hp
        cases hp

/-- The two threads can bring a call of `start` to its return, with a new thread or without one. -/
def Returns (created : Bool) (s : State) : Prop :=
  ∃ as s', Ticks as ∧ Lts.exec Thread.step s as = some s' ∧ s'.owner = .idle ∧ s'.started_ = created

/-- They can bring it to `pthread_create`, and from there to its return, whatever that function comes to. -/
def Creates (s : State) : Prop :=
  ∃ as t, Ticks as ∧ Lts.exec Thread.step s as = some t ∧ t.owner = .create ∧
    ∀ r : Option ℤ, (∀ tid ∈ r, 0 < tid) → ∃ u, Thread.step t (.create r) = some u ∧ Returns r.isSome u

theorem Returns.cons {b : Bool} {t : State} (ha : a = .owner ∨ a = .child) (hs : Thread.step s a = some t)
    (h : Returns b t) : Returns b s := by
  obtain ⟨as, s', has, hex, hr⟩ := h
  exact ⟨a :: as, s', List.forall_mem_cons.2 ⟨ha, has⟩, (exec_cons hs).trans hex, hr⟩

theorem Returns.append {b : Bool} {as : List Action} {t : State} (has : Ticks as)
    (hs : Lts.exec Thread.step s as = some t) (h : Returns b t) : Returns b s := by
  obtain ⟨bs, s', hbs, hex, hr⟩ := h
  refine ⟨as ++ bs, s', fun a ha => (List.mem_append.1 ha).elim (has a) (hbs a), ?_, hr⟩
  rw [Lts.exec_append, hs]
  exact hex

theorem Inv.returns_of_check (h : Inv s) (ht : s.child ≠ .terminated) (hw : s.owner = .check) : Returns true s := by
  have hs : Thread.step s .owner = some { s with owner := .idle } := by
    rw [Thread.step, if_neg ht, act, ownerTick, hw]
    dsimp only
    rw [if_pos (h.tid_pos (by rw [hw]; rfl))]
  exact ⟨[.owner], _, by simp [Ticks], exec_cons hs, rfl, h.started true (by rw [hw]; rfl)⟩

theorem Inv.returns_of_ret (h : Inv s) (ht : s.child ≠ .terminated) (hw : s.owner = .wait) {op : Op} {c : ℤ}
    (hret : s.latch_.pc .owner = .ret op c) : Returns true s := by
  have hs : Thread.step s .owner = some { s with owner := .check } := by
    rw [Thread.step, if_neg ht, act, ownerTick, hw]
    dsimp only
    rw [hret]
  exact .cons (.inl rfl) hs ((h.step hs).returns_of_check ht rfl)

/-- Once the child has called `countDown`, the latch brings the owner out of `wait`. -/
theorem Inv.returns_of_called (h : Inv s) (ht : s.child ≠ .terminated) (hw : s.owner = .wait)
    (hc : s.latch_.pc .child ≠ .idle) : Returns true s := by
  obtain ⟨F, hF, hcount⟩ := h.latch.owed hc
  have hop : (s.latch_.pc .owner).op? = some .wait := by
    have ho := h.owner
    rw [hw] at ho
    exact ho
  obtain ⟨as, l, has, hex, hl, hm, -, hcount', hop'⟩ := CountDownLatch.settle h.latch.inv hF
  obtain ⟨bs, l', hbs, hex', c, hret⟩ := CountDownLatch.wait_free hl hm (by omega) ((hop' .owner).trans hop)
  have hticks : CountDownLatch.Ticks (as ++ bs) := fun a ha => (List.mem_append.1 ha).elim (has a) (hbs a)
  obtain ⟨cs, hcs, hrun⟩ := h.lift_run hw ht hticks (by rw [Lts.exec_append, hex]; exact hex')
  have hinv : Inv { s with latch_ := l' } := h.exec hrun
  exact .append hcs hrun (hinv.returns_of_ret ht hw hret)

theorem Inv.returns_of_callCountDown (h : Inv s) (hw : s.owner = .wait) (hp : s.child = .callCountDown) :
    Returns true s := by
  have hidle := h.child
  have hderef := @Inv.deref s h
  rw [hp] at hidle hderef
  have hl : CountDownLatch.step s.latch_ (.call .child .countDown) =
      some (s.latch_.goto .child (.lock .countDown)) := by
    rw [CountDownLatch.step, show s.latch_.pc .child = .idle from hidle]
  have hs : Thread.step s .child =
      some { s with latch_ := s.latch_.goto .child (.lock .countDown), child := .countDown } := by
    rw [Thread.step, if_neg (by rw [hp]; exact Child.noConfusion), act, childTick, hp]
    dsimp only
    rw [hderef rfl (fun d hd => congrArg Prod.snd hd) rfl, State.latch, hl]
    rfl
  refine .cons (.inr rfl) hs ((h.step hs).returns_of_called Child.noConfusion hw ?_)
  rw [CountDownLatch.goto_pc, Function.update_self]
  exact Pc.noConfusion

theorem Inv.returns_of_clearTid (h : Inv s) (hw : s.owner = .wait) (hp : s.child = .clearTid) : Returns true s := by
  obtain ⟨d, -, -, hu⟩ := h.useData (by rw [hp]; rfl) fun d =>
    some { s with data := some { d with tid_ := false }, child := .callCountDown }
  have hs : Thread.step s .child =
      some { s with data := some { d with tid_ := false }, child := .callCountDown } := by
    rw [Thread.step, if_neg (by rw [hp]; exact Child.noConfusion), act, childTick, hp]
    exact hu
  exact .cons (.inr rfl) hs ((h.step hs).returns_of_callCountDown hw rfl)

theorem Inv.returns_of_setTid (h : Inv s) (hw : s.owner = .wait) (hp : s.child = .setTid) : Returns true s := by
  have hderef := @Inv.deref s h
  rw [hp] at hderef
  have hs : Thread.step s .child = some { s with tid_ := s.childTid, child := .clearTid } := by
    rw [Thread.step, if_neg (by rw [hp]; exact Child.noConfusion), act, childTick, hp]
    exact hderef rfl (fun d hd => congrArg Prod.fst hd) rfl _
  exact .cons (.inr rfl) hs ((h.step hs).returns_of_clearTid hw rfl)

/-- The child comes to its call of `countDown`, if it has not made it. -/
theorem Inv.returns_of_wait (h : Inv s) (ht : s.child ≠ .terminated) (hw : s.owner = .wait) : Returns true s := by
  by_cases hidle : s.latch_.pc .child = .idle
  · have hne : s.child ≠ .absent := h.forked.1 (by rw [hw]; rfl)
    have hchild := h.child
    cases hp : s.child <;> rw [hp] at hchild
    case absent => exact absurd hp hne
    case setTid => exact h.returns_of_setTid hw hp
    case clearTid => exact h.returns_of_clearTid hw hp
    case callCountDown => exact h.returns_of_callCountDown hw hp
    case countDown =>
      rw [hidle] at hchild
      cases hchild
    all_goals
      obtain ⟨c, hc⟩ := hchild
      exact Pc.noConfusion (hidle.symm.trans hc)
  · exact h.returns_of_called ht hw hidle

/-- **`start` returns**, whatever the two threads have done, unless `func_` has thrown. -/
theorem Inv.returns (h : Inv s) (ht : s.child ≠ .terminated)
    (hw : s.owner = .callWait ∨ s.owner = .wait ∨ s.owner = .check) : Returns true s := by
  rcases hw with hw | hw | hw
  · have hidle := h.owner
    rw [hw] at hidle
    have hl : CountDownLatch.step s.latch_ (.call .owner .wait) = some (s.latch_.goto .owner (.lock .wait)) := by
      rw [CountDownLatch.step, show s.latch_.pc .owner = .idle from hidle]
    have hs : Thread.step s .owner = some { s with latch_ := s.latch_.goto .owner (.lock .wait), owner := .wait } := by
      rw [Thread.step, if_neg ht, act, ownerTick, hw]
      dsimp only
      rw [State.latch, hl]
      rfl
    exact .cons (.inl rfl) hs ((h.step hs).returns_of_wait ht rfl)
  · exact h.returns_of_wait ht hw
  · exact h.returns_of_check ht hw

/-- The owner makes a statement. -/
theorem step_owner {t : State} (h : s.child ≠ .terminated) (ht : ownerTick s = some t) :
    Thread.step s .owner = some t := by
  rw [Thread.step, if_neg h]
  exact ht

/-- There is no new thread yet. -/
theorem Inv.absent (h : Inv s) (hf : s.owner.forked s.started_ = false) : s.child = .absent := by
  by_contra hc
  rw [h.forked.2 hc] at hf
  cases hf

theorem Inv.returns_of_deleteData (h : Inv s) (hw : s.owner = .deleteData) : Returns false s := by
  have hchild : s.child = .absent := h.absent (by rw [hw]; rfl)
  have hs : Thread.step s .owner = some { s with data := none, owner := .idle } := by
    refine step_owner (by rw [hchild]; exact Child.noConfusion) ?_
    rw [ownerTick, hw]
  exact ⟨[.owner], _, by simp [Ticks], exec_cons hs, rfl, h.started false (by rw [hw]; rfl)⟩

theorem Inv.returns_of_undo (h : Inv s) (hw : s.owner = .undo) : Returns false s := by
  have hchild : s.child = .absent := h.absent (by rw [hw]; rfl)
  have hs : Thread.step s .owner = some { s with started_ := false, owner := .deleteData } := by
    refine step_owner (by rw [hchild]; exact Child.noConfusion) ?_
    rw [ownerTick, hw]
  exact .cons (.inl rfl) hs ((h.step hs).returns_of_deleteData rfl)

theorem Inv.creates_of_create (h : Inv s) (hw : s.owner = .create) : Creates s := by
  have hchild : s.child = .absent := h.absent (by rw [hw]; rfl)
  have hstep {u : State} {r : Option ℤ} (hu : act s (.create r) = some u) : Thread.step s (.create r) = some u := by
    rw [Thread.step, if_neg (by rw [hchild]; exact Child.noConfusion), hu]
  refine ⟨[], s, by simp [Ticks], rfl, hw, fun r hr => ?_⟩
  cases r with
  | none =>
    have hs : Thread.step s (.create none) = some { s with owner := .undo } := hstep (if_pos hw)
    exact ⟨_, hs, (h.step hs).returns_of_undo rfl⟩
  | some tid =>
    have hs : Thread.step s (.create (some tid)) =
        some { s with childTid := tid, child := .setTid, owner := .callWait } :=
      hstep ((if_pos hw).trans (if_pos (hr tid rfl)))
    exact ⟨_, hs, (h.step hs).returns Child.noConfusion (.inl rfl)⟩

theorem Creates.cons {t : State} (hs : Thread.step s .owner = some t) (h : Creates t) : Creates s := by
  obtain ⟨as, u, has, hex, hu⟩ := h
  exact ⟨.owner :: as, u, List.forall_mem_cons.2 ⟨.inl rfl, has⟩, (exec_cons hs).trans hex, hu⟩

theorem Inv.creates_of_newData (h : Inv s) (hw : s.owner = .newData) : Creates s := by
  have hchild : s.child = .absent := h.absent (by rw [hw]; rfl)
  have hs : Thread.step s .owner = some { s with data := some ⟨true, true, s.name_⟩, owner := .create } := by
    refine step_owner (by rw [hchild]; exact Child.noConfusion) ?_
    rw [ownerTick, hw]
  exact .cons hs ((h.step hs).creates_of_create rfl)

/-- A call of `start` comes to `pthread_create`. -/
theorem Inv.creates (h : Inv s) (hw : s.owner = .setStarted ∨ s.owner = .newData ∨ s.owner = .create) :
    Creates s := by
  rcases hw with hw | hw | hw
  · have hchild : s.child = .absent := h.absent (by rw [hw]; rfl)
    have hs : Thread.step s .owner = some { s with started_ := true, owner := .newData } := by
      refine step_owner (by rw [hchild]; exact Child.noConfusion) ?_
      rw [ownerTick, hw]
    exact .cons hs ((h.step hs).creates_of_newData rfl)
  · exact h.creates_of_newData hw
  · exact h.creates_of_create hw

end Invariant

/-- **The handshake of `start`.** In every interleaving of the owner and the new thread, with failing `pthread_create`
and spurious wakeups: no thread uses memory that is gone, also when the owner destroys the object as soon as `start`
has returned, and the assert of `start` holds; after `start` the object has the id of the new thread; a `start` that has
failed leaves nothing behind; after `join` the new thread has run `func_` once and freed its `ThreadData`; and every
call of `start` can return, whatever `pthread_create` comes to. -/
theorem start_handshake (num : ℕ) (name : Bytes) (s : State) (h : Lts.Reach (thread num name) s) :
    s.child ≠ .fault ∧ s.owner ≠ .aborted ∧
    (s.owner = .idle → s.started_ = true → 0 < s.tid_ ∧ s.tid_ = s.childTid) ∧
    (s.owner = .idle → s.started_ = false → s.child = .absent ∧ s.data.isNone) ∧
    (s.owner = .idle → s.joined_ = true → s.called = 1 ∧ s.data.isNone ∧ s.t_threadName = .finished) ∧
    s.called ≤ 1 ∧ (s.data.isNone → s.t_threadName ≠ .data) ∧
    (s.owner = .setStarted ∨ s.owner = .newData ∨ s.owner = .create → Creates s) ∧
    (s.owner = .undo ∨ s.owner = .deleteData → Returns false s) ∧
    (s.owner = .callWait ∨ s.owner = .wait ∨ s.owner = .check → s.child ≠ .terminated → Returns true s) := by
  have hi := reach_inv h
  refine ⟨hi.safe.1, hi.safe.2, fun ho hst => ?_, fun ho hst => ?_, fun ho hj => ?_, ?_, fun hd hn => ?_,
    hi.creates, fun hw => hw.elim hi.returns_of_undo hi.returns_of_deleteData, fun hw ht => hi.returns ht hw⟩
  · have hph : s.owner.phase s.started_ = .after := by
      rw [ho, hst]
      rfl
    exact ⟨hi.tid_pos hph, hi.tid (hi.wrote hph)⟩
  · have hf := hi.forked
    have hnew := hi.newData
    rw [ho, hst] at hf
    rw [ho] at hnew
    have habs : s.child = .absent := by
      by_contra hc
      exact Bool.noConfusion (hf.2 hc)
    exact ⟨habs, Option.isNone_iff_eq_none.2 (Option.map_eq_none_iff.1 (hnew habs))⟩
  · have hexit : s.child = .exit := (hi.joined hj).2.resolve_left (by rw [ho]; exact Owner.noConfusion)
    have hd := hi.data (by rw [hexit]; exact Child.noConfusion)
    have hk := hi.called
    rw [hexit] at hd hk
    exact ⟨hk, Option.isNone_iff_eq_none.2 (Option.map_eq_none_iff.1 hd), hi.finished (.inr hexit)⟩
  · rw [hi.called]
    cases s.child <;> decide
  · have hp := pointers_of_named (hi.named hn)
    have hne : s.child ≠ .absent := by
      intro he
      rw [he] at hp
      cases hp
    have hdata := hi.data hne
    rw [Option.isNone_iff_eq_none.1 hd, hp] at hdata
    cases hdata

/-- A thread is started while the owner sleeps, and joined. -/
def startAndJoin : List Action :=
  [.start, .owner, .owner, .create (some 7), .owner, .owner, .owner, .wake, .child, .child, .child, .child] ++
  List.replicate 5 .child ++ List.replicate 5 .owner ++ [.join] ++ List.replicate 6 .child ++ [.owner]

theorem start_handshake_join : ∃ s ∈ Lts.exec step (init 0 []) startAndJoin,
    s.owner = .idle ∧ s.called = 1 ∧ s.data.isNone ∧ 0 < s.tid_ := by
  obtain ⟨s, hs, ho, hj, hst⟩ : ∃ s ∈ Lts.exec step (init 0 []) startAndJoin,
      s.owner = .idle ∧ s.joined_ = true ∧ s.started_ = true := by
    decide
  have h := start_handshake 0 [] s (Lts.Reach.exec (.init rfl) hs)
  obtain ⟨hk, hd, -⟩ := h.2.2.2.2.1 ho hj
  exact ⟨s, hs, ho, hk, hd, (h.2.2.1 ho hst).1⟩

end Libeva.Thread
