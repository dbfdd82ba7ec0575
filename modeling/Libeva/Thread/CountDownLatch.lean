import Libeva.Lib.Mutex
import Libeva.Lib.Runs
import Mathlib.Data.Finset.Card
import Mathlib.Data.Int.Order.Basic

/-!
# `CountDownLatch` under threads

Any number of threads run `wait`, `countDown` and `getCount`. A step is one lock operation, one use of `count_` or the
`notify_all`; a thread that sleeps in `condition_.wait` may also wake up without a notification. `count_` does not
overflow.

* `exec`: the statement at a program point.
* `Inv`: who holds `mutex_`, and while a thread sleeps at `count_ == 0` the notification is still to come.
* `settle`: the calls of `countDown` that are on their way can all be brought to their decrement.
* `latch_correct`: `wait` returns after the last `countDown`, never before it; one `countDown` too many strands it.
-/

namespace Libeva.CountDownLatch

inductive Op
  | wait
  | countDown
  | getCount
  deriving DecidableEq

/-- The program points. `unlock` and `ret` have what `getCount` has read. -/
inductive Pc
  | idle
  | lock (op : Op)
  | test
  | asleep
  | countDown
  | testZero
  | notify
  | getCount
  | unlock (op : Op) (count : ℤ)
  | ret (op : Op) (count : ℤ)
  deriving DecidableEq

/-- The first statement under the lock. -/
def Op.body : Op → Pc
  | .wait => .test
  | .countDown => .countDown
  | .getCount => .getCount

def Pc.isAsleep : Pc → Bool
  | .asleep => true
  | _ => false

/-- The call at a program point. -/
def Pc.op? : Pc → Option Op
  | .idle => none
  | .lock op | .unlock op _ | .ret op _ => some op
  | .test | .asleep => some .wait
  | .countDown | .testZero | .notify => some .countDown
  | .getCount => some .getCount

/-- The thread has `mutex_`. -/
def Pc.holds : Pc → Bool
  | .test | .countDown | .testZero | .notify | .getCount | .unlock _ _ => true
  | .idle | .lock _ | .asleep | .ret _ _ => false

/-- A `countDown` before its decrement. -/
def Pc.owes : Pc → Bool
  | .lock .countDown | .countDown => true
  | _ => false

/-- A `countDown` between its decrement and its notification. -/
def Pc.notifies : Pc → Bool
  | .testZero | .notify => true
  | _ => false

/-- A `wait` before the test of `count_` that lets it return. -/
def Pc.waits : Pc → Bool
  | .lock .wait | .test | .asleep => true
  | _ => false

structure State (ι : Type*) where
  mutex_ : Option ι
  count_ : ℤ
  pc : ι → Pc

inductive Action (ι : Type*)
  | call (t : ι) (op : Op)
  | tick (t : ι)
  /-- A spurious wakeup. -/
  | wake (t : ι)
  deriving DecidableEq

section Program

variable {ι : Type*} [DecidableEq ι]

def State.goto (s : State ι) (t : ι) (p : Pc) : State ι := { s with pc := Function.update s.pc t p }

/-- The statement at a program point; a taken mutex blocks. -/
def exec (s : State ι) (t : ι) : Pc → Option (State ι)
  | .idle | .asleep | .ret _ _ => none
  | .lock op =>
    match s.mutex_ with
    | none => some ({ s with mutex_ := some t }.goto t op.body)
    | some _ => none
  -- the predicate of `condition_.wait`; it sleeps and unlocks in one step
  | .test => some (
      if s.count_ = 0 then s.goto t (.unlock .wait s.count_) else { s with mutex_ := none }.goto t .asleep)
  | .countDown => some ({ s with count_ := s.count_ - 1 }.goto t .testZero)
  | .testZero => some (s.goto t (if s.count_ = 0 then .notify else .unlock .countDown s.count_))
  | .notify => some ({ s with
      pc := fun u => if (s.pc u).isAsleep then .lock .wait else s.pc u }.goto t (.unlock .countDown s.count_))
  | .getCount => some (s.goto t (.unlock .getCount s.count_))
  | .unlock op c => some ({ s with mutex_ := none }.goto t (.ret op c))

/-- A thread starts a call, makes a step, or wakes up without a notification. -/
def step (s : State ι) : Action ι → Option (State ι)
  | .call t op =>
    match s.pc t with
    | .idle | .ret _ _ => some (s.goto t (.lock op))
    | _ => none
  | .tick t => exec s t (s.pc t)
  | .wake t => if (s.pc t).isAsleep then some (s.goto t (.lock .wait)) else none

/-- `CountDownLatch( count )`. -/
def init (count : ℤ) : State ι := ⟨none, count, fun _ => .idle⟩

/-- All interleavings of the threads. -/
def latch (ι : Type*) [DecidableEq ι] (count : ℤ) : Lts.System (State ι) (Action ι) := Lts.ofFun (init count) step

end Program

section Steps

variable {ι : Type*} [DecidableEq ι] {s s' : State ι} {t u : ι} {a : Action ι} {p : Pc} {op : Op} {c : ℤ}

@[simp] theorem goto_pc : (s.goto t p).pc = Function.update s.pc t p := rfl

@[simp] theorem goto_mutex : (s.goto t p).mutex_ = s.mutex_ := rfl

@[simp] theorem goto_count : (s.goto t p).count_ = s.count_ := rfl

theorem isAsleep_iff : p.isAsleep = true ↔ p = .asleep := by
  cases p <;> simp [Pc.isAsleep]

theorem holds_of_notifies (h : p.notifies = true) : p.holds = true := by
  cases p <;> first | rfl | cases h

/-- Who makes the step. -/
def Action.thread : Action ι → ι
  | .call t _ | .tick t | .wake t => t

/-- A step of another thread leaves a thread where it is, or wakes it up. -/
theorem step_pc_of_ne (hs : step s a = some s') (hu : u ≠ a.thread) :
    s'.pc u = s.pc u ∨ s.pc u = .asleep ∧ s'.pc u = .lock .wait := by
  cases a with
  | call t op =>
    simp only [step] at hs
    split at hs <;> cases hs
    all_goals exact .inl (Function.update_of_ne hu ..)
  | wake t =>
    simp only [step] at hs
    split at hs <;> cases hs
    exact .inl (Function.update_of_ne hu ..)
  | tick t =>
    simp only [step] at hs
    cases hp : s.pc t <;> rw [hp] at hs
    case notify =>
      cases hs
      rw [goto_pc, Function.update_of_ne (show u ≠ t from hu)]
      dsimp only
      split
      · rename_i ha
        exact .inr ⟨isAsleep_iff.1 ha, rfl⟩
      · exact .inl rfl
    case lock =>
      simp only [exec] at hs
      split at hs <;> cases hs
      exact .inl (Function.update_of_ne hu ..)
    case test =>
      simp only [exec, Option.some.injEq] at hs
      subst hs
      split <;> exact .inl (Function.update_of_ne hu ..)
    all_goals cases hs
    all_goals exact .inl (Function.update_of_ne hu ..)

/-- What the step of a thread does to `mutex_`, to `count_` and to where it is. -/
inductive Ticked (s : State ι) (t : ι) (s' : State ι) : Prop
  | lock (op : Op) : s.pc t = .lock op → s'.pc t = op.body → s.mutex_ = none → s'.mutex_ = some t →
    s'.count_ = s.count_ → Ticked s t s'
  | sleep : s.pc t = .test → s'.pc t = .asleep → s'.mutex_ = none → s.count_ ≠ 0 → s'.count_ = s.count_ → Ticked s t s'
  | pass : s.pc t = .test → s'.pc t = .unlock .wait 0 → s'.mutex_ = s.mutex_ → s.count_ = 0 → s'.count_ = s.count_ →
    Ticked s t s'
  | countDown : s.pc t = .countDown → s'.pc t = .testZero → s'.mutex_ = s.mutex_ → s'.count_ = s.count_ - 1 →
    Ticked s t s'
  | zero : s.pc t = .testZero → s'.pc t = .notify → s'.mutex_ = s.mutex_ → s'.count_ = s.count_ → Ticked s t s'
  | notZero : s.pc t = .testZero → s'.pc t = .unlock .countDown s.count_ → s'.mutex_ = s.mutex_ → s.count_ ≠ 0 →
    s'.count_ = s.count_ → Ticked s t s'
  | notify : s.pc t = .notify → s'.pc t = .unlock .countDown s.count_ → s'.mutex_ = s.mutex_ →
    s'.count_ = s.count_ → (∀ u, s'.pc u ≠ .asleep) → Ticked s t s'
  | getCount : s.pc t = .getCount → s'.pc t = .unlock .getCount s.count_ → s'.mutex_ = s.mutex_ →
    s'.count_ = s.count_ → Ticked s t s'
  | unlock (op : Op) (c : ℤ) : s.pc t = .unlock op c → s'.pc t = .ret op c → s'.mutex_ = none →
    s'.count_ = s.count_ → Ticked s t s'

theorem ticked (hs : exec s t (s.pc t) = some s') : Ticked s t s' := by
  cases hp : s.pc t with
  | idle | asleep | ret => rw [hp] at hs; cases hs
  | lock op =>
    simp only [hp, exec] at hs
    split at hs <;> cases hs
    rename_i hm
    exact .lock op hp (Function.update_self ..) hm rfl rfl
  | test =>
    simp only [hp, exec, Option.some.injEq] at hs
    subst hs
    split
    · rename_i hc
      exact .pass hp (by rw [goto_pc, Function.update_self, hc]) rfl hc rfl
    · rename_i hc
      exact .sleep hp (Function.update_self ..) rfl hc rfl
  | countDown =>
    rw [hp] at hs
    cases hs
    exact .countDown hp (Function.update_self ..) rfl rfl
  | testZero =>
    simp only [hp, exec, Option.some.injEq] at hs
    subst hs
    split
    · exact .zero hp (Function.update_self ..) rfl rfl
    · rename_i hc
      exact .notZero hp (Function.update_self ..) rfl hc rfl
  | notify =>
    rw [hp] at hs
    cases hs
    refine .notify hp (Function.update_self ..) rfl rfl fun u hu => ?_
    by_cases hut : u = t
    · rw [hut, goto_pc, Function.update_self] at hu
      cases hu
    · rw [goto_pc, Function.update_of_ne hut] at hu
      dsimp only at hu
      split at hu
      · cases hu
      · rename_i ha
        exact ha (isAsleep_iff.2 hu)
  | getCount =>
    rw [hp] at hs
    cases hs
    exact .getCount hp (Function.update_self ..) rfl rfl
  | unlock op c =>
    rw [hp] at hs
    cases hs
    exact .unlock op c hp (Function.update_self ..) rfl rfl

theorem called (hs : step s (.call t op) = some s') :
    s' = s.goto t (.lock op) ∧ (s.pc t = .idle ∨ ∃ op c, s.pc t = .ret op c) := by
  simp only [step] at hs
  split at hs <;> cases hs
  · rename_i hp
    exact ⟨rfl, .inl hp⟩
  · rename_i hp
    exact ⟨rfl, .inr ⟨_, _, hp⟩⟩

theorem woken (hs : step s (.wake t) = some s') : s' = s.goto t (.lock .wait) ∧ s.pc t = .asleep := by
  simp only [step] at hs
  split at hs <;> cases hs
  rename_i hp
  exact ⟨rfl, isAsleep_iff.1 hp⟩

/-! ## The invariant -/

structure Inv (s : State ι) : Prop where
  owner : Mutex.Owned (fun t => (s.pc t).holds) s.mutex_
  awake : s.count_ = 0 → ∀ t, s.pc t = .asleep → ∃ u, (s.pc u).notifies = true

theorem holds_of_ne (hs : step s a = some s') (hu : u ≠ a.thread) :
    (s'.pc u).holds = (s.pc u).holds ∧ (s'.pc u).notifies = (s.pc u).notifies ∧ (s'.pc u).owes = (s.pc u).owes ∧
      (s'.pc u).waits = (s.pc u).waits := by
  rcases step_pc_of_ne hs hu with h | ⟨h, h'⟩
  · rw [h]
    exact ⟨rfl, rfl, rfl, rfl⟩
  · rw [h, h']
    exact ⟨rfl, rfl, rfl, rfl⟩

theorem Inv.awake_step (h : Inv s) (hs : step s a = some s') (hc : s'.count_ = s.count_)
    (hp : s'.pc a.thread ≠ .asleep) (hn : (s.pc a.thread).notifies = true → (s'.pc a.thread).notifies = true)
    (h0 : s'.count_ = 0) (u : ι) (hu : s'.pc u = .asleep) : ∃ v, (s'.pc v).notifies = true := by
  have hua : u ≠ a.thread := by
    rintro rfl
    exact hp hu
  have hasleep : s.pc u = .asleep := by
    rcases step_pc_of_ne hs hua with h | ⟨h, -⟩
    · exact h.symm.trans hu
    · exact h
  obtain ⟨v, hv⟩ := h.awake (hc.symm.trans h0) u hasleep
  refine ⟨v, ?_⟩
  by_cases hva : v = a.thread
  · rw [hva] at hv ⊢
    exact hn hv
  · rw [(holds_of_ne hs hva).2.1]
    exact hv

theorem Inv.tick (h : Inv s) (hs : step s (.tick t) = some s') : Inv s' := by
  have hne : ∀ u, u ≠ t → (s'.pc u).holds = (s.pc u).holds := fun u hu => (holds_of_ne hs hu).1
  have keep : ∀ {p p'}, s.pc t = p → s'.pc t = p' → p'.holds = p.holds → s'.mutex_ = s.mutex_ →
      Mutex.Owned (fun u => (s'.pc u).holds) s'.mutex_ := by
    intro p p' hp hp' hl hm
    rw [hm]
    exact h.owner.keep (by rw [hp, hp', hl]) hne
  have free : ∀ {p p'}, s.pc t = p → p.holds = true → s'.pc t = p' → p'.holds = false → s'.mutex_ = none →
      Mutex.Owned (fun u => (s'.pc u).holds) s'.mutex_ := by
    intro p p' hp hl hp' hl' hm
    rw [hm]
    exact h.owner.release (t := t) (by rw [hp, hl]) (by rw [hp', hl']) hne
  cases ticked hs with
  | lock op hp hp' hm hm' hc =>
    refine ⟨?_, h.awake_step hs hc ?_ ?_⟩
    · have hown := h.owner
      rw [hm] at hown
      rw [hm']
      refine hown.acquire ?_ hne
      rw [hp']
      cases op <;> rfl
    · show s'.pc t ≠ .asleep
      rw [hp']
      cases op <;> exact Pc.noConfusion
    · show (s.pc t).notifies = true → _
      rw [hp]
      exact fun h => Bool.noConfusion h
  | sleep hp hp' hm hc hc' =>
    exact ⟨free hp rfl hp' rfl hm, fun h0 => absurd (hc'.symm.trans h0) hc⟩
  | pass hp hp' hm hc0 hc =>
    refine ⟨keep hp hp' rfl hm, h.awake_step hs hc ?_ ?_⟩
    · exact fun he => Pc.noConfusion (hp'.symm.trans he)
    · show (s.pc t).notifies = true → _
      rw [hp]
      exact fun h => Bool.noConfusion h
  | countDown hp hp' hm hc =>
    refine ⟨keep hp hp' rfl hm, fun _ _ _ => ⟨t, ?_⟩⟩
    rw [hp']
    rfl
  | zero hp hp' hm hc =>
    refine ⟨keep hp hp' rfl hm, fun _ _ _ => ⟨t, ?_⟩⟩
    rw [hp']
    rfl
  | notZero hp hp' hm hc0 hc =>
    exact ⟨keep hp hp' rfl hm, fun h0 => absurd (hc.symm.trans h0) hc0⟩
  | notify hp hp' hm hc hall =>
    exact ⟨keep hp hp' rfl hm, fun _ u hu => absurd hu (hall u)⟩
  | getCount hp hp' hm hc =>
    refine ⟨keep hp hp' rfl hm, h.awake_step hs hc ?_ ?_⟩
    · exact fun he => Pc.noConfusion (hp'.symm.trans he)
    · show (s.pc t).notifies = true → _
      rw [hp]
      exact fun h => Bool.noConfusion h
  | unlock op c hp hp' hm hc =>
    refine ⟨free hp rfl hp' rfl hm, h.awake_step hs hc ?_ ?_⟩
    · exact fun he => Pc.noConfusion (hp'.symm.trans he)
    · show (s.pc t).notifies = true → _
      rw [hp]
      exact fun h => Bool.noConfusion h

/-- A call or a wakeup is a step outside of the lock. -/
theorem Inv.goto (h : Inv s) (hs : CountDownLatch.step s a = some (s.goto a.thread (.lock op)))
    (hp : (s.pc a.thread).holds = false) (hn : (s.pc a.thread).notifies = false) :
    Inv (s.goto a.thread (.lock op)) := by
  refine ⟨h.owner.keep (t := a.thread) ?_ fun u hu => (holds_of_ne hs hu).1, h.awake_step hs rfl ?_ ?_⟩
  · rw [goto_pc, Function.update_self, hp]
    rfl
  · rw [goto_pc, Function.update_self]
    exact Pc.noConfusion
  · rw [hn]
    exact fun h => Bool.noConfusion h

theorem Inv.step (h : Inv s) (hs : CountDownLatch.step s a = some s') : Inv s' := by
  cases a with
  | call t op =>
    obtain ⟨rfl, hp⟩ := called hs
    rcases hp with hp | ⟨op', c, hp⟩
    · exact h.goto hs (congrArg Pc.holds hp) (congrArg Pc.notifies hp)
    · exact h.goto hs (congrArg Pc.holds hp) (congrArg Pc.notifies hp)
  | wake t =>
    obtain ⟨rfl, hp⟩ := woken hs
    exact h.goto hs (congrArg Pc.holds hp) (congrArg Pc.notifies hp)
  | tick t => exact h.tick hs

omit [DecidableEq ι] in
theorem inv_init : Inv (init c : State ι) where
  owner _ := iff_of_false Bool.false_ne_true (Option.some_ne_none _).symm
  awake _ _ h := Pc.noConfusion h

theorem reach_inv (h : Lts.Reach (latch ι c) s) : Inv s :=
  h.invariant (fun _ hs => hs ▸ inv_init) fun _ _ _ _ hi hst => hi.step hst

/-! ## The calls of `countDown` on their way -/

/-- `F` are the calls of `countDown` before their decrement. -/
def Owed (s : State ι) (F : Finset ι) : Prop := ∀ t, t ∈ F ↔ (s.pc t).owes = true

variable {F : Finset ι}

theorem Owed.of_eq (h : Owed s F) (hs : step s a = some s') (hp : (s'.pc a.thread).owes = (s.pc a.thread).owes) :
    Owed s' F := by
  intro u
  by_cases hu : u = a.thread
  · rw [hu, hp, h a.thread]
  · rw [(holds_of_ne hs hu).2.2.1, h u]

theorem Owed.erase (h : Owed s F) (hs : step s a = some s') (hp : (s'.pc a.thread).owes = false) :
    Owed s' (F.erase a.thread) := by
  intro u
  by_cases hu : u = a.thread
  · rw [hu, hp]
    simp
  · rw [(holds_of_ne hs hu).2.2.1, ← h u]
    simp [hu]

theorem Owed.insert (h : Owed s F) (hs : step s a = some s') (hp : (s'.pc a.thread).owes = true) :
    Owed s' (insert a.thread F) := by
  intro u
  by_cases hu : u = a.thread
  · rw [hu, hp]
    simp
  · rw [(holds_of_ne hs hu).2.2.1, ← h u]
    simp [hu]

/-- The decrement is the step that takes a call off `F`. -/
theorem Owed.tick (h : Owed s F) (hs : step s (.tick t) = some s') :
    (s.pc t = .countDown ∧ Owed s' (F.erase t) ∧ s'.count_ = s.count_ - 1) ∨
    (s.pc t ≠ .countDown ∧ Owed s' F ∧ s'.count_ = s.count_) := by
  have keep : ∀ {p p'}, s.pc t = p → s'.pc t = p' → p ≠ .countDown → p'.owes = p.owes → s'.count_ = s.count_ →
      s.pc t ≠ .countDown ∧ Owed s' F ∧ s'.count_ = s.count_ := by
    intro p p' hp hp' hne ho hc
    refine ⟨hp ▸ hne, h.of_eq hs ?_, hc⟩
    show (s'.pc t).owes = (s.pc t).owes
    rw [hp, hp', ho]
  cases ticked hs with
  | countDown hp hp' _ hc => exact .inl ⟨hp, h.erase hs (congrArg Pc.owes hp'), hc⟩
  | lock op hp hp' _ _ hc => exact .inr (keep hp hp' Pc.noConfusion (by cases op <;> rfl) hc)
  | sleep hp hp' _ _ hc | pass hp hp' _ _ hc | zero hp hp' _ hc | notZero hp hp' _ _ hc | notify hp hp' _ hc _
  | getCount hp hp' _ hc | unlock _ _ hp hp' _ hc => exact .inr (keep hp hp' Pc.noConfusion rfl hc)

/-- How far the holder of `mutex_` is from its unlock; after a decrement it is further away. -/
def Pc.rank : Pc → ℕ
  | .unlock _ _ => 2
  | .test | .notify | .getCount => 3
  | .testZero => 4
  | _ => 0

def State.rank (s : State ι) : ℕ := (s.mutex_.map fun t => (s.pc t).rank).getD 1

/-- The holder of `mutex_` can make its step. -/
theorem exec_of_holds (h : (s.pc t).holds = true) : ∃ s', step s (.tick t) = some s' := by
  simp only [step]
  cases hp : s.pc t with
  | idle | lock | asleep | ret => rw [hp] at h; cases h
  | test | countDown | testZero | notify | getCount | unlock => exact ⟨_, rfl⟩

/-- A step of the holder comes closer to its unlock, or takes a call off `F`. -/
theorem rank_tick (hm : s.mutex_ = some t) (hs : step s (.tick t) = some s') :
    if s.pc t = .countDown then s'.rank = 4 else s'.rank < s.rank := by
  have held : ∀ {p}, s'.pc t = p → s'.mutex_ = s.mutex_ → s'.rank = p.rank := by
    intro p hp h
    rw [State.rank, h, hm, ← hp]
    rfl
  have free : s'.mutex_ = none → s'.rank = 1 := by
    intro h
    rw [State.rank, h]
    rfl
  have hrank : s.rank = (s.pc t).rank := by
    rw [State.rank, hm]
    rfl
  cases ticked hs with
  | lock _ _ _ hnone _ _ => rw [hm] at hnone; cases hnone
  | countDown hp hp' hm' _ => rw [if_pos hp, held hp' hm']; rfl
  | sleep hp _ hm' _ _ | unlock _ _ hp _ hm' _ =>
    rw [if_neg (by rw [hp]; exact Pc.noConfusion), hrank, hp, free hm']
    simp [Pc.rank]
  | pass hp hp' hm' _ _ | zero hp hp' hm' _ | notZero hp hp' hm' _ _ | notify hp hp' hm' _ _
  | getCount hp hp' hm' _ =>
    rw [if_neg (by rw [hp]; exact Pc.noConfusion), hrank, hp, held hp' hm']
    simp [Pc.rank]

/-- A step keeps the calls that are in progress. -/
theorem op_tick (hs : step s (.tick t) = some s') (u : ι) : (s'.pc u).op? = (s.pc u).op? := by
  by_cases hu : u = t
  · rw [hu]
    cases ticked hs with
    | lock op hp hp' _ _ _ => rw [hp, hp']; cases op <;> rfl
    | sleep hp hp' _ _ _ | pass hp hp' _ _ _ | countDown hp hp' _ _ | zero hp hp' _ _ | notZero hp hp' _ _ _
    | notify hp hp' _ _ _ | getCount hp hp' _ _ | unlock _ _ hp hp' _ _ => rw [hp, hp']; rfl
  · rcases step_pc_of_ne hs hu with h | ⟨h, h'⟩
    · rw [h]
    · rw [h, h']
      rfl

/-- Threads that make steps, and start no calls. -/
def Ticks (as : List (Action ι)) : Prop := ∀ a ∈ as, ∃ t, a = .tick t

/-- **Settling.** The calls of `countDown` that are on their way can be brought to their decrement, and `mutex_` to its
unlock. -/
theorem settle (hi : Inv s) (hF : Owed s F) :
    ∃ as s', Ticks as ∧ Lts.exec step s as = some s' ∧ Inv s' ∧ s'.mutex_ = none ∧ (∀ t, (s'.pc t).owes = false) ∧
      s'.count_ = s.count_ - F.card ∧ ∀ t, (s'.pc t).op? = (s.pc t).op? := by
  induction hn : 6 * F.card + s.rank using Nat.strongRecOn generalizing s F with
  | ind n ih =>
    subst hn
    -- after a step of `t` that takes the measure down
    have onward : ∀ {t s₁ G}, step s (.tick t) = some s₁ → Owed s₁ G → s₁.count_ - G.card = s.count_ - F.card →
        6 * G.card + s₁.rank < 6 * F.card + s.rank →
        ∃ as s', Ticks as ∧ Lts.exec step s as = some s' ∧ Inv s' ∧ s'.mutex_ = none ∧
          (∀ t, (s'.pc t).owes = false) ∧ s'.count_ = s.count_ - F.card ∧ ∀ t, (s'.pc t).op? = (s.pc t).op? := by
      intro t s₁ G hs hG hc hlt
      obtain ⟨as, s', has, hex, hi', hm, ho, hc', hop⟩ := ih _ hlt (hi.step hs) hG rfl
      refine ⟨.tick t :: as, s', ?_, ?_, hi', hm, ho, hc'.trans hc, fun u => (hop u).trans (op_tick hs u)⟩
      · rintro a ha
        rcases List.mem_cons.1 ha with rfl | ha
        · exact ⟨t, rfl⟩
        · exact has a ha
      · rw [Lts.exec, hs]
        exact hex
    cases hm : s.mutex_ with
    | none =>
      rcases F.eq_empty_or_nonempty with rfl | ⟨v, hv⟩
      · refine ⟨[], s, fun a ha => absurd ha List.not_mem_nil, rfl, hi, hm, fun t => ?_, by simp, fun _ => rfl⟩
        rw [← Bool.not_eq_true, ← hF t]
        exact Finset.notMem_empty t
      · -- a call of `countDown` takes the lock
        have hnot : (s.pc v).holds ≠ true := fun h => by
          rw [hi.owner v, hm] at h
          cases h
        have hp : s.pc v = .lock .countDown := by
          have ho := (hF v).1 hv
          unfold Pc.owes at ho
          split at ho
          · assumption
          · rename_i hp
            exact absurd (congrArg Pc.holds hp) hnot
          · cases ho
        have hs : step s (.tick v) = some ({ s with mutex_ := some v }.goto v .countDown) := by
          simp only [step, hp, exec, hm]
          rfl
        refine onward hs (hF.of_eq hs ?_) rfl ?_
        · show ((State.goto _ v _).pc v).owes = (s.pc v).owes
          rw [goto_pc, Function.update_self, hp]
          rfl
        · have h0 : ({ s with mutex_ := some v }.goto v .countDown).rank = 0 := by
            show ((State.goto _ v _).pc v).rank = 0
            rw [goto_pc, Function.update_self]
            rfl
          have h1 : s.rank = 1 := by rw [State.rank, hm]; rfl
          omega
    | some u =>
      obtain ⟨s₁, hs⟩ := exec_of_holds ((hi.owner u).2 hm)
      have hr := rank_tick hm hs
      rcases hF.tick hs with ⟨hp, hG, hc⟩ | ⟨hp, hG, hc⟩
      · have hu : u ∈ F := (hF u).2 (by rw [hp]; rfl)
        have hcard := Finset.card_erase_add_one hu
        rw [if_pos hp] at hr
        refine onward hs hG ?_ ?_ <;> omega
      · rw [if_neg hp] at hr
        refine onward hs hG (by rw [hc]) ?_
        omega

/-- A `wait` returns by its own steps, when the lock is free at `count_ == 0`. -/
theorem wait_free (hi : Inv s) (hm : s.mutex_ = none) (hc : s.count_ = 0) (hw : (s.pc t).op? = some .wait) :
    ∃ as s', Ticks as ∧ Lts.exec step s as = some s' ∧ ∃ c, s'.pc t = .ret .wait c := by
  have free : ∀ u, (s.pc u).holds = false := by
    have hown := hi.owner
    rw [hm] at hown
    exact hown.outside
  cases hp : s.pc t with
  | idle | countDown | testZero | notify | getCount => rw [hp] at hw; cases hw
  | test | unlock => exact absurd (free t) (by rw [hp]; exact Bool.noConfusion)
  | ret op c =>
    rw [hp] at hw
    cases hw
    exact ⟨[], s, fun a ha => absurd ha List.not_mem_nil, rfl, c, hp⟩
  | asleep =>
    obtain ⟨u, hu⟩ := hi.awake hc t hp
    exact absurd (holds_of_notifies hu) (by rw [free u]; exact Bool.false_ne_true)
  | lock op =>
    rw [hp] at hw
    cases hw
    obtain ⟨s₁, h1, hp1, hc1⟩ : ∃ s₁, step s (.tick t) = some s₁ ∧ s₁.pc t = .test ∧ s₁.count_ = 0 :=
      ⟨{ s with mutex_ := some t }.goto t .test, by simp only [step, hp, exec, hm]; rfl, Function.update_self .., hc⟩
    obtain ⟨s₂, h2, hp2⟩ : ∃ s₂, step s₁ (.tick t) = some s₂ ∧ s₂.pc t = .unlock .wait s₁.count_ :=
      ⟨s₁.goto t (.unlock .wait s₁.count_), by simp only [step, hp1, exec, if_pos hc1], Function.update_self ..⟩
    obtain ⟨s₃, h3, hp3⟩ : ∃ s₃, step s₂ (.tick t) = some s₃ ∧ s₃.pc t = .ret .wait s₁.count_ :=
      ⟨{ s₂ with mutex_ := none }.goto t (.ret .wait s₁.count_), by simp only [step, hp2, exec],
        Function.update_self ..⟩
    refine ⟨[.tick t, .tick t, .tick t], s₃, by simp [Ticks], ?_, _, hp3⟩
    simp only [Lts.exec, h1, h2, h3, Option.bind_some]

/-! ## Runs -/

variable {w : List (State ι × Action ι × State ι)} {n : ℕ}

/-- The decrements of a run. -/
def downs (w : List (State ι × Action ι × State ι)) : ℕ := w.countP fun x =>
  match x.2.1 with
  | .tick t => decide (x.1.pc t = .countDown)
  | _ => false

/-- The calls of `countDown` of a run. -/
def calls (w : List (State ι × Action ι × State ι)) : ℕ := w.countP fun x =>
  match x.2.1 with
  | .call _ .countDown => true
  | _ => false

theorem owed_step (h : Owed s F) (hs : step s a = some s') :
    ∃ G, Owed s' G ∧ s'.count_ + downs [(s, a, s')] = s.count_ ∧
      G.card + downs [(s, a, s')] = F.card + calls [(s, a, s')] := by
  cases a with
  | tick t =>
    rcases h.tick hs with ⟨hp, hG, hc⟩ | ⟨hp, hG, hc⟩
    · have hd : downs [(s, .tick t, s')] = 1 := by simp [downs, hp]
      refine ⟨_, hG, ?_, ?_⟩
      · rw [hc, hd]
        omega
      · rw [hd]
        exact Finset.card_erase_add_one ((h t).2 (by rw [hp]; rfl))
    · have hd : downs [(s, .tick t, s')] = 0 := by simp [downs, hp]
      exact ⟨F, hG, by rw [hc, hd]; omega, by rw [hd]; rfl⟩
  | wake t =>
    obtain ⟨rfl, hp⟩ := woken hs
    have hself : (s.goto t (.lock .wait)).pc t = .lock .wait := Function.update_self ..
    exact ⟨F, h.of_eq hs ((congrArg Pc.owes hself).trans (congrArg Pc.owes hp).symm), by simp [downs], rfl⟩
  | call t op =>
    obtain ⟨rfl, hp⟩ := called hs
    have hnot : (s.pc t).owes = false := by
      rcases hp with hp | ⟨_, _, hp⟩ <;> rw [hp] <;> rfl
    have hself : (s.goto t (.lock op)).pc t = .lock op := Function.update_self ..
    cases op with
    | countDown =>
      have hmem : t ∉ F := by
        rw [h t, hnot]
        exact Bool.false_ne_true
      exact ⟨_, h.insert hs (congrArg Pc.owes hself), by simp [downs],
        Finset.card_insert_of_notMem hmem⟩
    | wait | getCount =>
      exact ⟨F, h.of_eq hs ((congrArg Pc.owes hself).trans hnot.symm), by simp [downs], rfl⟩

/-- Every call of `countDown` has made its decrement or is on its way to it. -/
theorem owed_run (hr : Lts.Run (latch ι n) (init n) w s) :
    ∃ F, Owed s F ∧ s.count_ + downs w = n ∧ F.card + downs w = calls w := by
  induction hr with
  | nil =>
    refine ⟨∅, fun t => ?_, by simp [downs, init], rfl⟩
    exact iff_of_false (Finset.notMem_empty t) Bool.false_ne_true
  | @snoc s₁ s₂ a w _ hst ih =>
    obtain ⟨F, hF, hc, hcard⟩ := ih
    obtain ⟨G, hG, hc', hcard'⟩ := owed_step hF hst
    refine ⟨G, hG, ?_, ?_⟩
    · rw [downs, List.countP_append]
      simp only [downs] at hc hc'
      push_cast
      omega
    · rw [downs, calls, List.countP_append, List.countP_append]
      simp only [downs, calls] at hcard hcard'
      omega

/-- Who has passed the test of `wait` has seen `count_` at zero, and nobody changes it under the lock. -/
theorem passed_step (hi : Inv s) (hs : step s a = some s') (h : ∀ t c, s.pc t = .unlock .wait c → s.count_ = 0)
    (u : ι) (c : ℤ) (hu : s'.pc u = .unlock .wait c) : s'.count_ = 0 := by
  have hsame : u ≠ a.thread → s.pc u = .unlock .wait c := by
    intro hne
    rcases step_pc_of_ne hs hne with hp | ⟨-, hp⟩
    · exact hp.symm.trans hu
    · exact Pc.noConfusion (hp.symm.trans hu)
  cases a with
  | call t op =>
    obtain ⟨rfl, -⟩ := called hs
    refine h u c (hsame ?_)
    rintro rfl
    exact Pc.noConfusion ((Function.update_self ..).symm.trans hu)
  | wake t =>
    obtain ⟨rfl, -⟩ := woken hs
    refine h u c (hsame ?_)
    rintro rfl
    exact Pc.noConfusion ((Function.update_self ..).symm.trans hu)
  | tick t =>
    by_cases hut : u = t
    · subst hut
      cases ticked hs with
      | pass _ _ _ h0 hc => exact hc.trans h0
      | lock op _ hp' _ _ _ => rw [hp'] at hu; cases op <;> cases hu
      | notZero _ hp' _ _ _ | notify _ hp' _ _ _ | getCount _ hp' _ _ | sleep _ hp' _ _ _ | countDown _ hp' _ _
      | zero _ hp' _ _ | unlock _ _ _ hp' _ _ => rw [hp'] at hu; cases hu
    · have hpu := hsame hut
      have h0 := h u c hpu
      cases ticked hs with
      | countDown hp _ _ _ => exact absurd (hi.owner.unique (by rw [hpu]; rfl) (by rw [hp]; rfl)) hut
      | lock _ _ _ _ _ hc | sleep _ _ _ _ hc | pass _ _ _ _ hc | zero _ _ _ hc | notZero _ _ _ _ hc
      | notify _ _ _ hc _ | getCount _ _ _ hc | unlock _ _ _ _ _ hc => exact hc.trans h0

/-- A `wait` that has returned has done so at or after the last decrement. -/
theorem passed_run (hr : Lts.Run (latch ι n) (init n) w s) :
    (∀ t c, s.pc t = .unlock .wait c → s.count_ = 0) ∧ ∀ t c, s.pc t = .ret .wait c → n ≤ downs w := by
  induction hr with
  | nil => exact ⟨fun _ _ h => Pc.noConfusion h, fun _ _ h => Pc.noConfusion h⟩
  | @snoc s₁ s₂ a w hr hst ih =>
    refine ⟨passed_step (reach_inv (hr.reach (.init rfl))) hst ih.1, fun u c hu => ?_⟩
    have hle : downs w ≤ downs (w ++ [(s₁, a, s₂)]) := by
      rw [downs, downs, List.countP_append]
      exact Nat.le_add_right _ _
    refine le_trans ?_ hle
    by_cases hne : u = a.thread
    · cases a with
      | call t op =>
        obtain ⟨rfl, -⟩ := called hst
        rw [hne] at hu
        exact Pc.noConfusion ((Function.update_self ..).symm.trans hu)
      | wake t =>
        obtain ⟨rfl, -⟩ := woken hst
        rw [hne] at hu
        exact Pc.noConfusion ((Function.update_self ..).symm.trans hu)
      | tick t =>
        obtain rfl : u = t := hne
        cases ticked hst with
        | unlock op c' hp hp' _ _ =>
          rw [hp'] at hu
          cases hu
          obtain ⟨F, -, hc, -⟩ := owed_run hr
          have h0 := ih.1 u c hp
          omega
        | lock op _ hp' _ _ _ => rw [hp'] at hu; cases op <;> cases hu
        | pass _ hp' _ _ _ | notZero _ hp' _ _ _ | notify _ hp' _ _ _ | getCount _ hp' _ _ | sleep _ hp' _ _ _
        | countDown _ hp' _ _ | zero _ hp' _ _ => rw [hp'] at hu; cases hu
    · rcases step_pc_of_ne hst hne with hp | ⟨-, hp⟩
      · exact ih.2 u c (hp.symm.trans hu)
      · exact Pc.noConfusion (hp.symm.trans hu)

/-- A `wait` that has yet to pass its test does not pass it below zero. -/
theorem stranded (hc : s.count_ < 0) (hw : (s.pc t).waits = true) (hs : step s a = some s') :
    s'.count_ < 0 ∧ (s'.pc t).waits = true := by
  have hother : t ≠ a.thread → (s'.pc t).waits = true := fun hne => (holds_of_ne hs hne).2.2.2.trans hw
  cases a with
  | call u op =>
    obtain ⟨rfl, hp⟩ := called hs
    refine ⟨hc, hother ?_⟩
    rintro rfl
    rcases hp with hp | ⟨_, _, hp⟩ <;> replace hp : s.pc t = _ := hp <;> rw [hp] at hw <;> cases hw
  | wake u =>
    obtain ⟨rfl, -⟩ := woken hs
    refine ⟨hc, ?_⟩
    by_cases htu : t = u
    · rw [htu]
      rw [goto_pc, Function.update_self]
      rfl
    · exact hother htu
  | tick u =>
    refine ⟨?_, ?_⟩
    · cases ticked hs with
      | countDown _ _ _ hc' => omega
      | lock _ _ _ _ _ hc' | sleep _ _ _ _ hc' | pass _ _ _ _ hc' | zero _ _ _ hc' | notZero _ _ _ _ hc'
      | notify _ _ _ hc' _ | getCount _ _ _ hc' | unlock _ _ _ _ _ hc' => exact hc'.trans_lt hc
    · by_cases htu : t = u
      · subst htu
        cases ticked hs with
        | lock op hp hp' _ _ _ =>
          rw [hp] at hw
          rw [hp']
          cases op <;> first | rfl | cases hw
        | sleep _ hp' _ _ _ => rw [hp']; rfl
        | pass _ _ _ h0 _ => omega
        | countDown hp _ _ _ | zero hp _ _ _ | notZero hp _ _ _ _ | notify hp _ _ _ _ | getCount hp _ _ _
        | unlock _ _ hp _ _ _ => rw [hp] at hw; cases hw
      · exact hother htu

/-- **The latch.** However the threads are interleaved, `wait` returns after `count` decrements; when `countDown` has
been called `count` times, every `wait` can return by the steps of the threads that are in calls; and after one
decrement more, a `wait` that has yet to pass its test never returns. -/
theorem latch_correct (n : ℕ) (s : State ι) (w : List (State ι × Action ι × State ι)) (t : ι)
    (hr : Lts.Run (latch ι n) (init n) w s) :
    (∀ c, s.pc t = .ret .wait c → n ≤ downs w) ∧
    (calls w = n → (s.pc t).op? = some .wait →
      ∃ as s', Ticks as ∧ Lts.exec step s as = some s' ∧ ∃ c, s'.pc t = .ret .wait c) ∧
    (n < downs w → (s.pc t).waits = true →
      ∀ v s', Lts.Run (latch ι n) s v s' → (s'.pc t).waits = true) := by
  obtain ⟨F, hF, hc, hcard⟩ := owed_run hr
  have hi := reach_inv (hr.reach (.init rfl))
  refine ⟨(passed_run hr).2 t, fun hcalls hop => ?_, fun hlt hw v s' hv => ?_⟩
  · obtain ⟨as, s₁, has, hex, hi₁, hm, -, hc₁, hop₁⟩ := settle hi hF
    have h0 : s₁.count_ = 0 := by omega
    obtain ⟨bs, s₂, hbs, hex', hret⟩ := wait_free hi₁ hm h0 ((hop₁ t).trans hop)
    refine ⟨as ++ bs, s₂, fun a ha => (List.mem_append.1 ha).elim (has a) (hbs a), ?_, hret⟩
    rw [Lts.exec_append, hex]
    exact hex'
  · have h0 : s.count_ < 0 := by omega
    have hall := hv.invariant (I := fun s => s.count_ < 0 ∧ (s.pc t).waits = true) (C := fun _ => True)
      (fun _ _ _ h _ hs => stranded h.1 h.2 hs) (fun _ _ => trivial) ⟨h0, hw⟩
    exact (hall s' hv.last_mem).2

/-- A thread sleeps in `wait`, and another one has called `countDown`. -/
def sleeping : List (Action Bool) := [.call true .wait, .tick true, .tick true, .call false .countDown, .tick false]

theorem latch_correct_sleeping : ∃ s as s', Lts.exec step (init 1) sleeping = some s ∧ s.pc true = .asleep ∧
    Ticks as ∧ Lts.exec step s as = some s' ∧ ∃ c, s'.pc true = .ret .wait c := by
  obtain ⟨s, hs, hp, hc⟩ : ∃ s ∈ Lts.exec step (init 1) sleeping,
      s.pc true = .asleep ∧ calls (Lts.moves step (init 1) sleeping) = 1 := by
    decide
  have hr : Lts.Run (latch Bool (1 : ℕ)) (init 1) _ s := Lts.Run.moves hs
  obtain ⟨as, s', has, hex, hret⟩ := (latch_correct 1 s _ true hr).2.1 hc (by rw [hp]; rfl)
  exact ⟨s, as, s', hs, hp, has, hex, hret⟩

end Steps

end Libeva.CountDownLatch
