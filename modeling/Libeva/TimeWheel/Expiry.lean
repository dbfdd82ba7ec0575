import Libeva.TimeWheel.Slots

/-!
# Timers on time

One-shot timers that are added outside of `tock`, less than a turn of the wheel ahead of `start_`, with callbacks that
leave the wheel alone (`Quiet`).

* `State.due` is the value of `start_` at which a timer runs: where its millisecond begins, or a whole turn on when it
  is added in this millisecond already.
* `Sched` is the invariant: the slot of a timer tells how far its due time is ahead of `start_`.
* `State.OnTime` is what is promised of the callbacks, `Timely` the condition on the steps.
-/

namespace Libeva.TimeWheel

open Linked

variable {n : Buckets} {s s' : State} {a : Action} {f : Sweep} {x head : ℕ} {now when : ℤ} {interval : ℚ}

/-- Calls add one-shot timers outside of `tock`, not behind `start_` and less than a turn ahead. -/
def Quiet (n : Buckets) (s : State) (a : Action) : Prop :=
  match a.move with
  | .call c =>
    ¬s.pc.Walks ∧ c.interval ≤ 0 ∧
      s.wheel.start_ ≤ c.when a.now ∧ c.when a.now < s.wheel.start_ + 1000 * n.numSlot_
  | .tock | .next | .ret => True

instance : Decidable (Quiet n s a) :=
  match h : a.move with
  | .call c =>
    decidable_of_iff (¬s.pc.Walks ∧ c.interval ≤ 0 ∧
      s.wheel.start_ ≤ c.when a.now ∧ c.when a.now < s.wheel.start_ + 1000 * n.numSlot_) (by rw [Quiet, h])
  | .tock | .next | .ret => .isTrue (by rw [Quiet, h]; trivial)

def quietStep (n : Buckets) (s : State) (a : Action) : Option State := if Quiet n s a then step n s a else none

/-- The runs of a wheel whose callbacks leave it alone. -/
def quietWheel (n : Buckets) (now : ℤ) : Lts.System State Action := Lts.ofFun (init now) (quietStep n)

/-- The value of `start_` at which a timer runs. -/
def State.due (n : Buckets) (s : State) (x : ℕ) : ℤ :=
  let diff := ((s.wheel.timers x).expiration_ - s.base x) / 1000
  s.base x + 1000 * if diff = 0 then (n.numSlot_ : ℤ) else diff

/-- From here `tock` returns, when the callbacks do. -/
def State.Returns (n : Buckets) (s : State) : Prop :=
  ∃ as t last, Lts.exec (quietStep n) s as = some t ∧ t.pc = .outside last

/-- Every callback runs at most once, not as early as a millisecond before its time, and by the end of the first `tock`
that reads a clock of a millisecond after its time; and `tock` returns. -/
structure State.OnTime (n : Buckets) (s : State) : Prop where
  once : (s.fired.map Prod.fst).Nodup
  early : ∀ p ∈ s.fired, (s.wheel.timers p.1).expiration_ - 1000 < p.2
  late : ∀ now, s.pc = .outside (some now) → ∀ x < s.wheel.numCreated_, (s.wheel.timers x).expiration_ + 1000 ≤ now →
    x ∈ s.fired.map Prod.fst
  returns : s.Returns n

/-- No `int` overflows, and `tock` does not find a timer overdue that was added in the millisecond of its time, unless a
whole turn has passed since. -/
structure Timely (n : Buckets) (x : State × Action × State) : Prop where
  fits : ∀ when ∈ x.1.adds x.2.1, x.1.wheel.startIdx_ + (when - x.1.wheel.start_) / 1000 ≤ INT_MAX
  tock : x.2.1.move = .tock → x.2.1.now - x.1.wheel.start_ < 1000 * INT_MAX
  due : x.2.1.move = .tock → ∀ y < x.1.wheel.numCreated_, y ∉ x.1.fired.map Prod.fst →
    (x.1.wheel.timers y).expiration_ < x.1.base y + 1000 → (x.1.wheel.timers y).expiration_ + 1000 ≤ x.2.1.now →
    x.1.base y + 1000 * n.numSlot_ ≤ x.2.1.now

/-! ## The invariant -/

/-- The least distance of a timer from `startIdx_`. -/
def Pc.first : Pc → ℕ
  | .walk _ _ | .callback _ _ => 0
  | .outside _ | .loop _ | .halted _ => 1

/-- What `tock` has read from the clock. -/
def Pc.reading : Pc → Option ℤ
  | .outside last => last
  | .loop f | .walk f _ | .callback f _ => some f.now
  | .halted _ => none

structure Sched (n : Buckets) (s : State) : Prop where
  oneShot : ∀ x, s.wheel.Live x → (s.wheel.timers x).repeat_ = false
  span : ∀ x < s.wheel.numCreated_, s.base x ≤ (s.wheel.timers x).expiration_ ∧
    (s.wheel.timers x).expiration_ < s.base x + 1000 * n.numSlot_
  slot : ∀ x, s.wheel.Live x → ∃ k : ℕ, s.pc.first ≤ k ∧ k < s.pc.first + n.numSlot_ ∧
    (s.wheel.timers x).index_ = ((s.wheel.startIdx_ + k) % n.numSlot_ : ℕ) ∧
    s.due n x = s.wheel.start_ + 1000 * k
  once : (s.fired.map Prod.fst).Nodup
  gone : ∀ x ∈ s.fired.map Prod.fst, x ∈ s.wheel.deleted ∨ ∃ f, s.pc = .callback f x
  early : ∀ p ∈ s.fired, s.due n p.1 ≤ p.2
  timely : ∀ now, s.pc.reading = some now → ∀ x, s.wheel.Live x → (s.wheel.timers x).expiration_ + 1000 ≤ now →
    s.due n x ≤ now

/-- The due time is after the last millisecond before the time. -/
theorem Sched.lt_due (h : Sched n s) (hx : x < s.wheel.numCreated_) :
    (s.wheel.timers x).expiration_ - 1000 < s.due n x := by
  have h1 := h.span x hx
  have h2 := n.pos
  simp only [State.due]
  split <;> omega

/-- It is not after the time, except for a timer that is added in this millisecond. -/
theorem State.due_le (hd : s.base x + 1000 ≤ (s.wheel.timers x).expiration_) :
    s.due n x ≤ (s.wheel.timers x).expiration_ := by
  simp only [State.due]
  split <;> omega

theorem Sched.due_eq (h : Sched n s) (hx : x < s.wheel.numCreated_)
    (hd : (s.wheel.timers x).expiration_ < s.base x + 1000) : s.due n x = s.base x + 1000 * n.numSlot_ := by
  have h1 := h.span x hx
  simp only [State.due]
  split <;> omega

theorem Sched.deleted (h : Sched n s) (hp : ∀ f, s.pc ≠ .callback f x) (hx : x ∈ s.fired.map Prod.fst) :
    x ∈ s.wheel.deleted :=
  (h.gone x hx).resolve_right fun ⟨f, hf⟩ => hp f hf

theorem Sched.created (h : Sched n s) (hg : Good n s) (hx : x ∈ s.fired.map Prod.fst) : x < s.wheel.numCreated_ := by
  rcases h.gone x hx with hd | ⟨f, hp⟩
  · exact hg.created x hd
  · exact (hg.pop hp).1.1

/-- A timer that has not run is there. -/
theorem Good.live (h : Good n s) (hx : x < s.wheel.numCreated_) (hf : x ∉ s.fired.map Prod.fst) :
    s.wheel.Live x := ⟨hx, fun hd => hf (h.ran x hd).2⟩

/-- No timer is in an empty slot. -/
theorem Good.index_ne {j : ℕ} (h : Good n s) (hj : j < n.numSlot_) (ht : s.pc.top s.wheel j = none)
    (hx : s.wheel.Live x) : (s.wheel.timers x).index_ ≠ j := by
  obtain ⟨L, hL⟩ := h.hangs
  obtain ⟨i, -, hm, hi⟩ := hL.mem hx
  intro he
  obtain rfl : i = j := by omega
  rw [(hL.chain i hj).eq_nil_iff.2 ht] at hm
  cases hm

/-- When `tock` has returned, what it has found overdue has run. -/
theorem Sched.late (h : Sched n s) (hg : Good n s) (hp : s.pc = .outside (some now)) (hx : x < s.wheel.numCreated_)
    (he : (s.wheel.timers x).expiration_ + 1000 ≤ now) : x ∈ s.fired.map Prod.fst := by
  by_contra hf
  have hl := hg.live hx hf
  obtain ⟨k, hk, -, -, hd⟩ := h.slot x hl
  have hdue := h.timely now (by rw [hp]; rfl) x hl he
  have hpl := hg.place_of hp
  rw [hp] at hk
  have hk : 1 ≤ k := hk
  have := (hpl.2 now rfl).2
  omega

/-- The first timer of a walked list is due. -/
theorem Sched.due_head (h : Sched n s) (hg : Good n s) (hp : s.pc = .walk f (some head)) :
    s.wheel.Live head ∧ s.due n head = s.wheel.start_ := by
  obtain ⟨L, hL⟩ := hg.hangs_of hp
  obtain ⟨hlive, hi⟩ := hL.top_mem hg.startIdx_lt (Function.update_self ..)
  obtain ⟨k, -, hk, hidx, hd⟩ := h.slot head hlive
  rw [hp] at hk
  have hk : k < 0 + n.numSlot_ := hk
  have hlt := hg.startIdx_lt
  have h0 : k = 0 := by
    rcases add_mod_cases hlt (d := k) (by omega) with ⟨h1, -⟩ | h1 <;> omega
  subst h0
  exact ⟨hlive, by omega⟩

/-! ## Steps -/

@[simp] theorem expiration_setNext (w : TimeWheel) (x : ℕ) (p : Option ℕ) (y : ℕ) :
    ((w.setNext x p).timers y).expiration_ = (w.timers y).expiration_ :=
  field_setNext Timer.expiration_ (fun _ _ => rfl) p y

@[simp] theorem index_setNext (w : TimeWheel) (x : ℕ) (p : Option ℕ) (y : ℕ) :
    ((w.setNext x p).timers y).index_ = (w.timers y).index_ := field_setNext Timer.index_ (fun _ _ => rfl) p y

theorem timers_added_self (w : TimeWheel) (when : ℤ) (interval : ℚ) :
    (w.added n when interval).timers w.numCreated_ =
      { Timer.new when interval with
        next_ := w.slot_ (w.slotIndex n when), index_ := (w.slotIndex n when : ℕ) } := by
  rw [added, timers_push, if_pos rfl, timers_new, if_pos rfl]
  rfl

theorem timers_added_of_ne (w : TimeWheel) (hx : x ≠ w.numCreated_) :
    (w.added n when interval).timers x = w.timers x := by
  rw [added, timers_push, if_neg hx, timers_new, if_neg hx]

/-- The due time depends on what is fixed when the timer is added. -/
theorem State.due_congr (he : (s'.wheel.timers x).expiration_ = (s.wheel.timers x).expiration_)
    (hb : s'.base x = s.base x) : s'.due n x = s.due n x := by
  simp only [State.due, he, hb]

/-- The state after an addition outside of `tock`. -/
def State.added (n : Buckets) (s : State) (when : ℤ) (interval : ℚ) : State :=
  { s with
    wheel := s.wheel.added n when interval
    pc := .outside none
    base := Function.update s.base s.wheel.numCreated_ s.wheel.start_ }

theorem due_added (hx : x < s.wheel.numCreated_) : (s.added n when interval).due n x = s.due n x :=
  State.due_congr (congrArg Timer.expiration_ (timers_added_of_ne _ hx.ne)) (Function.update_of_ne hx.ne _ _)

theorem due_added_self : (s.added n when interval).due n s.wheel.numCreated_ = s.wheel.start_ +
    1000 * if (when - s.wheel.start_) / 1000 = 0 then (n.numSlot_ : ℤ) else (when - s.wheel.start_) / 1000 := by
  simp only [State.due, State.added, timers_added_self, Function.update_self, Timer.new]

/-- A new timer is `diff` slots ahead, or a whole turn. -/
theorem slot_added_self (hs : s.wheel.start_ ≤ when) (ht : when < s.wheel.start_ + 1000 * n.numSlot_) :
    ∃ k : ℕ, 1 ≤ k ∧ k < 1 + n.numSlot_ ∧
      ((s.wheel.added n when interval).timers s.wheel.numCreated_).index_ =
        ((s.wheel.startIdx_ + k) % n.numSlot_ : ℕ) ∧
      (s.added n when interval).due n s.wheel.numCreated_ = s.wheel.start_ + 1000 * k := by
  rw [due_added_self, timers_added_self]
  by_cases hz : (when - s.wheel.start_) / 1000 = 0
  · refine ⟨n.numSlot_, n.pos, by omega, ?_, by rw [if_pos hz]⟩
    simp [slotIndex, hz]
  · refine ⟨((when - s.wheel.start_) / 1000).toNat, by omega, by omega, rfl, ?_⟩
    rw [if_neg hz]
    omega

theorem Sched.added (h : Sched n s) (hg : Good n s) {last : Option ℤ} (hp : s.pc = .outside last)
    (hi : interval ≤ 0) (hs : s.wheel.start_ ≤ when) (ht : when < s.wheel.start_ + 1000 * n.numSlot_) :
    Sched n (s.added n when interval) := by
  have hlive : ∀ y, (s.wheel.added n when interval).Live y → s.wheel.Live y ∨ y = s.wheel.numCreated_ :=
    fun y hy => (live_added hg.created).1 hy
  have hold : ∀ {y}, y ≠ s.wheel.numCreated_ → (s.added n when interval).wheel.timers y = s.wheel.timers y :=
    fun hy => timers_added_of_ne _ hy
  have hnew := s.wheel.timers_added_self (n := n) when interval
  refine ⟨fun y hy => ?_, fun y hy => ?_, fun y hy => ?_, h.once, fun y hy => ?_, fun p hm => ?_, nofun⟩
  · rcases hlive y hy with hy | rfl
    · rw [hold hy.1.ne]
      exact h.oneShot y hy
    · refine Eq.trans (congrArg Timer.repeat_ hnew) ?_
      exact decide_eq_false (not_lt.2 hi)
  · rcases Nat.lt_succ_iff_lt_or_eq.1 hy with hy | rfl
    · have hb : (s.added n when interval).base y = s.base y := Function.update_of_ne hy.ne _ _
      rw [hold hy.ne, hb]
      exact h.span y hy
    · have hb : (s.added n when interval).base s.wheel.numCreated_ = s.wheel.start_ := Function.update_self ..
      have he : ((s.added n when interval).wheel.timers s.wheel.numCreated_).expiration_ = when :=
        congrArg Timer.expiration_ hnew
      rw [hb, he]
      exact ⟨hs, ht⟩
  · rcases hlive y hy with hy | rfl
    · obtain ⟨k, hk, hk', hidx, hd⟩ := h.slot y hy
      rw [hp] at hk hk'
      exact ⟨k, hk, hk', by rw [hold hy.1.ne]; exact hidx, (due_added hy.1).trans hd⟩
    · exact slot_added_self hs ht
  · exact .inl (h.deleted (fun _ he => nomatch hp.symm.trans he) hy)
  · rw [due_added (h.created hg (List.mem_map_of_mem hm))]
    exact h.early p hm

/-- What `tock` finds overdue is due, when every timer that is late is so by its turn. -/
theorem Sched.tock (h : Sched n s) {last : Option ℤ} (hp : s.pc = .outside last)
    (hd : ∀ y < s.wheel.numCreated_, y ∉ s.fired.map Prod.fst →
      (s.wheel.timers y).expiration_ < s.base y + 1000 → (s.wheel.timers y).expiration_ + 1000 ≤ now →
      s.base y + 1000 * n.numSlot_ ≤ now) (diff : ℤ) : Sched n { s with pc := .loop ⟨now, 1, diff⟩ } := by
  have hslot := h.slot
  rw [hp] at hslot
  refine { h with slot := hslot, gone := fun y hy => ?_, timely := ?_ }
  · exact .inl (h.deleted (fun _ he => nomatch hp.symm.trans he) hy)
  · rintro _ ⟨⟩ y hy he
    have hf : y ∉ s.fired.map Prod.fst :=
      fun hf => hy.2 (h.deleted (fun _ he => nomatch hp.symm.trans he) hf)
    have he : (s.wheel.timers y).expiration_ + 1000 ≤ now := he
    rcases lt_or_ge (s.wheel.timers y).expiration_ (s.base y + 1000) with hlt | hge
    · exact (h.due_eq hy.1 hlt).le.trans (hd y hy.1 hf hlt he)
    · have := State.due_le (n := n) hge
      exact (show s.due n y ≤ now by omega)

theorem Sched.outside (h : Sched n s) (hp : s.pc = .loop f) : Sched n { s with pc := .outside (some f.now) } := by
  have hslot := h.slot
  have htimely := h.timely
  rw [hp] at hslot htimely
  have hgone := fun y => h.deleted (x := y) fun _ he => nomatch hp.symm.trans he
  exact { h with slot := hslot, gone := fun y hy => .inl (hgone y hy), timely := htimely }

/-- The sweep comes one slot closer to every timer. -/
theorem Sched.closer (h : Sched n s) (hp : s.pc = .loop f) (hx : s.wheel.Live x) :
    ∃ k : ℕ, k < n.numSlot_ ∧
      (s.wheel.timers x).index_ = (((s.wheel.turned n).startIdx_ + k) % n.numSlot_ : ℕ) ∧
      s.due n x = (s.wheel.turned n).start_ + 1000 * k := by
  obtain ⟨k, hk, hk', hidx, hd⟩ := h.slot x hx
  rw [hp] at hk hk'
  have hk : 1 ≤ k := hk
  have hk' : k < 1 + n.numSlot_ := hk'
  have hstart : (s.wheel.turned n).start_ = s.wheel.start_ + 1000 := rfl
  have hmod : ((s.wheel.turned n).startIdx_ + (k - 1)) % n.numSlot_ = (s.wheel.startIdx_ + k) % n.numSlot_ := by
    rw [turned, Nat.mod_add_mod]
    congr 1
    omega
  exact ⟨k - 1, by omega, by rw [hmod]; exact hidx, by omega⟩

theorem Sched.advance (h : Sched n s) (hg : Good n s) (hp : s.pc = .loop f) (hi : f.i ≤ f.diff) :
    Sched n (s.advance n f) := by
  have hgone := fun y => h.deleted (x := y) fun _ he => nomatch hp.symm.trans he
  have htimely := h.timely
  rw [hp] at htimely
  rw [hg.advance_eq hp hi]
  cases hh : s.wheel.slot_ (s.wheel.turned n).startIdx_ with
  | none =>
    refine { h with slot := fun y hy => ?_, gone := fun y hy => .inl (hgone y hy), timely := htimely }
    obtain ⟨k, hk, hidx, hd⟩ := h.closer hp hy
    have hlt : (s.wheel.turned n).startIdx_ < n.numSlot_ := Nat.mod_lt _ n.pos
    -- an empty slot has no timer at distance 0
    have h0 : k ≠ 0 := by
      rintro rfl
      rw [Nat.add_zero, Nat.mod_eq_of_lt hlt] at hidx
      refine hg.index_ne hlt ?_ hy hidx
      rw [hp]
      exact hh
    refine ⟨k, Nat.one_le_iff_ne_zero.2 h0, ?_, hidx, hd⟩
    simp only [Pc.first]
    omega
  | some head =>
    refine { h with slot := fun y hy => ?_, gone := fun y hy => .inl (hgone y hy), timely := htimely }
    obtain ⟨k, hk, hidx, hd⟩ := h.closer hp hy
    refine ⟨k, Nat.zero_le k, ?_, hidx, hd⟩
    simp only [Pc.first]
    omega

theorem Sched.walked (h : Sched n s) (hg : Good n s) (hp : s.pc = .walk f none) :
    Sched n { s with wheel := s.wheel.setSlot s.wheel.startIdx_ none, pc := .loop { f with i := f.i + 1 } } := by
  have htimely := h.timely
  rw [hp] at htimely
  refine { h with slot := fun y hy => ?_, gone := fun y hy => ?_, timely := htimely }
  · obtain ⟨k, hk, hk', hidx, hd⟩ := h.slot y hy
    rw [hp] at hk'
    have h0 : k ≠ 0 := by
      rintro rfl
      rw [Nat.add_zero, Nat.mod_eq_of_lt hg.startIdx_lt] at hidx
      refine hg.index_ne hg.startIdx_lt ?_ hy hidx
      rw [hp]
      exact Function.update_self ..
    refine ⟨k, Nat.one_le_iff_ne_zero.2 h0, ?_, hidx, hd⟩
    simp only [Pc.first] at hk' ⊢
    omega
  · exact .inl (h.deleted (fun _ he => nomatch hp.symm.trans he) hy)

theorem Sched.run (h : Sched n s) (hg : Good n s) (hp : s.pc = .walk f (some head)) :
    Sched n { s with pc := .callback f head, fired := s.fired ++ [(head, f.now)] } := by
  obtain ⟨hlive, hdue⟩ := h.due_head hg hp
  have hslot := h.slot
  have htimely := h.timely
  have hpl := hg.place_of hp
  rw [hp] at hslot htimely
  have hgone := fun y => h.deleted (x := y) fun _ he => nomatch hp.symm.trans he
  refine { h with slot := hslot, once := ?_, gone := fun y hy => ?_, early := fun p hm => ?_, timely := htimely }
  · dsimp only
    rw [List.map_append, List.map_singleton]
    refine List.nodup_append.2 ⟨h.once, List.nodup_singleton _, fun y hy z hz he => ?_⟩
    obtain rfl : y = head := he.trans (List.mem_singleton.1 hz)
    exact hlive.2 (hgone y hy)
  · dsimp only at hy
    rw [List.map_append, List.mem_append] at hy
    rcases hy with hy | hy
    · exact .inl (hgone y hy)
    · rw [List.map_singleton, List.mem_singleton] at hy
      exact .inr ⟨f, by rw [hy]⟩
  · rcases List.mem_append.1 hm with hm | hm
    · exact h.early p hm
    · rw [List.mem_singleton.1 hm]
      have h1 := hpl.lower
      have h2 := hpl.nonneg
      exact (show s.due n head ≤ f.now by omega)

theorem Sched.ret (h : Sched n s) (hp : s.pc = .callback f head) :
    Sched n { s with
      wheel := (s.wheel.setNext head none).delete head, pc := .walk f (s.wheel.getNext head) } := by
  have hslot := h.slot
  have htimely := h.timely
  rw [hp] at hslot htimely
  have hlive : ∀ y, ((s.wheel.setNext head none).delete head).Live y → s.wheel.Live y :=
    fun y hy => ⟨hy.1, fun hm => hy.2 (List.mem_cons_of_mem _ hm)⟩
  have hexp : ∀ y, (((s.wheel.setNext head none).delete head).timers y).expiration_ = (s.wheel.timers y).expiration_ :=
    fun y => expiration_setNext s.wheel head none y
  have hdue : ∀ y, State.due n { s with
      wheel := (s.wheel.setNext head none).delete head, pc := .walk f (s.wheel.getNext head) } y = s.due n y :=
    fun y => State.due_congr (hexp y) rfl
  refine ⟨fun y hy => ?_, fun y hy => ?_, fun y hy => ?_, h.once, fun y hy => ?_, fun p hm => ?_,
    fun now hn y hy he => ?_⟩
  · exact (repeat_setNext none y).trans (h.oneShot y (hlive y hy))
  · dsimp only
    rw [hexp]
    exact h.span y hy
  · obtain ⟨k, hk, hk', hidx, hd⟩ := hslot y (hlive y hy)
    exact ⟨k, hk, hk', (index_setNext s.wheel head none y).trans hidx, (hdue y).trans hd⟩
  · rcases h.gone y hy with hd | ⟨g, hg⟩
    · exact .inl (List.mem_cons_of_mem _ hd)
    · rw [hp] at hg
      cases hg
      exact .inl List.mem_cons_self
  · rw [hdue]
    exact h.early p hm
  · rw [hdue]
    dsimp only at he
    rw [hexp] at he
    exact htimely now hn y (hlive y hy) he

/-- One statement keeps the invariants. -/
theorem Sched.stmt (h : Sched n s) (hg : Good n s) (hq : Quiet n s a) (ht : Timely n (s, a, s'))
    (hnow : s.clock = a.now) (hs : Stmt n s a s') : Good n s' ∧ Sched n s' := by
  cases hs with
  | @call c now last hp =>
    obtain ⟨hw, hi, hst, hlt⟩ := hq
    replace hst : s.wheel.start_ ≤ c.when now := hst
    replace hlt : c.when now < s.wheel.start_ + 1000 * n.numSlot_ := hlt
    have hd : ¬(n.numSlot_ : ℤ) ≤ (c.when now - s.wheel.start_) / 1000 := by omega
    have hle := n.le
    have hfits : s.wheel.Fits n (c.when now) := ⟨by omega, fun _ => ht.fits _ rfl⟩
    rw [hg.call_eq (fun _ => hfits) fun hw' => absurd hw' hw, if_neg (not_or.2 ⟨not_lt.2 hst, hd⟩)]
    refine ⟨hg.added (fun w => ?_) nofun ⟨hg.place.le, nofun⟩ fun hw' => absurd hw' hw, h.added hg hp hi hst hlt⟩
    rw [hp]
    rfl
  | callback hp =>
    obtain ⟨hw, -⟩ := hq
    rw [hp] at hw
    exact absurd trivial hw
  | tock hp =>
    have hi := ht.tock rfl
    rw [hg.tock_eq hnow hi]
    refine ⟨hg.tock ?_ hnow hi, h.tock hp (ht.due rfl) _⟩
    rw [hp]
    exact id
  | advance hp hi => exact ⟨hg.advance hp hi, h.advance hg hp hi⟩
  | outside hp hi => exact ⟨hg.outside hp hi, h.outside hp⟩
  | run hp =>
    rw [hg.run_eq hp]
    exact ⟨hg.run hp, h.run hg hp⟩
  | walked hp =>
    have hl := hg.place_of hp
    rw [hl.incr_eq (sub_nonneg.1 hl.nonneg)]
    exact ⟨hg.walked hp, h.walked hg hp⟩
  | ret hp =>
    have hr := h.oneShot _ (hg.pop hp).1
    rw [hg.ret_delete_eq hp hr]
    exact ⟨hg.ret_delete hp hr, h.ret hp⟩

theorem quietStep_eq_some (hs : quietStep n s a = some s') : Quiet n s a ∧ TimeWheel.step n s a = some s' := by
  unfold quietStep at hs
  split at hs
  · rename_i hq
    exact ⟨hq, hs⟩
  · cases hs

theorem Sched.step (h : Sched n s) (hg : Good n s) (ht : Timely n (s, a, s')) (hs : quietStep n s a = some s') :
    Good n s' ∧ Sched n s' := by
  obtain ⟨hq, hs⟩ := quietStep_eq_some hs
  obtain ⟨hle, hst⟩ := step_cases hs
  have h' : Sched n { s with clock := a.now } := { h with }
  exact h'.stmt (hg.clock hle) hq ⟨ht.fits, ht.tock, ht.due⟩ rfl hst

theorem sched_init (now : ℤ) : Sched n (init now) where
  oneShot x hx := absurd hx.1 (Nat.not_lt_zero x)
  span x hx := absurd hx (Nat.not_lt_zero x)
  slot x hx := absurd hx.1 (Nat.not_lt_zero x)
  once := List.nodup_nil
  gone := nofun
  early := nofun
  timely := nofun

/-! ## `tock` returns -/

theorem quietStep_next (hs : s.next n = some s') : quietStep n s ⟨s.clock, .next⟩ = some s' := by
  rw [quietStep, if_pos (show Quiet n s ⟨s.clock, .next⟩ from trivial), TimeWheel.step, if_pos le_rfl]
  exact hs

theorem quietStep_ret (hp : s.pc = .callback f head) :
    quietStep n s ⟨s.clock, .ret⟩ = some (s.ret n f head s.clock) := by
  rw [quietStep, if_pos (show Quiet n s ⟨s.clock, .ret⟩ from trivial), TimeWheel.step, if_pos le_rfl]
  obtain ⟨w, pc, clock, fired, base⟩ := s
  subst hp
  rfl

/-- A statement of `tock` behind its first ones needs no condition. -/
theorem Sched.next (h : Sched n s) (hg : Good n s) (hs : s.next n = some s') : Good n s' ∧ Sched n s' :=
  h.step hg ⟨fun _ hm => by simp [State.adds] at hm, fun he => Move.noConfusion he, fun he => Move.noConfusion he⟩
    (quietStep_next hs)

theorem State.Returns.step (h : s'.Returns n) (hs : quietStep n s a = some s') : s.Returns n := by
  obtain ⟨as, t, last, he, ht⟩ := h
  refine ⟨a :: as, t, last, ?_, ht⟩
  rw [Lts.exec, hs]
  exact he

/-- The return of a callback. -/
theorem Sched.returns_callback (h : Sched n s) (hg : Good n s) (hp : s.pc = .callback f head)
    (hret : ∀ t : State, Good n t → Sched n t → t.pc = .walk f (s.wheel.getNext head) →
      t.wheel.timers = (s.wheel.setNext head none).timers → t.Returns n) : s.Returns n := by
  have hr := h.oneShot head (hg.pop hp).1
  refine State.Returns.step ?_ (quietStep_ret hp)
  rw [hg.ret_delete_eq hp hr]
  exact hret _ (hg.ret_delete hp hr) (h.ret hp) rfl rfl

/-- The loop over a list ends. The induction is on what is left of it. -/
theorem returns_walk (hloop : ∀ t : State, Good n t → Sched n t → t.pc = .loop { f with i := f.i + 1 } → t.Returns n)
    {l : List ℕ} {head : Option ℕ} (hg : Good n s) (h : Sched n s) (hp : s.pc = .walk f head)
    (hc : Chain s.wheel.getNext head l) (hd : l.Nodup) : s.Returns n := by
  induction l generalizing head s with
  | nil =>
    obtain rfl : head = none := hc
    have hl := hg.place_of hp
    have hs : s.next n =
        some { s with wheel := s.wheel.setSlot s.wheel.startIdx_ none, pc := .loop { f with i := f.i + 1 } } := by
      simp only [State.next, hp]
      rw [hl.incr_eq (sub_nonneg.1 hl.nonneg)]
    exact State.Returns.step (hloop _ (hg.walked hp) (h.walked hg hp) rfl) (quietStep_next hs)
  | cons x l ih =>
    obtain ⟨rfl, hc⟩ := hc
    obtain ⟨hxl, hd⟩ := List.nodup_cons.1 hd
    have hs : s.next n = some { s with pc := .callback f x, fired := s.fired ++ [(x, f.now)] } := by
      simp only [State.next, hp]
      rw [hg.run_eq hp]
    refine State.Returns.step ?_ (quietStep_next hs)
    refine (h.run hg hp).returns_callback (hg.run hp) rfl fun t hg' h' hp' ht => ?_
    refine ih hg' h' hp' (hc.congr fun y hy => ?_) hd
    rw [getNext, ht, timers_setNext, if_neg (show y ≠ x from fun e => hxl (e ▸ hy))]
    rfl

theorem returns_list (hloop : ∀ t : State, Good n t → Sched n t → t.pc = .loop { f with i := f.i + 1 } → t.Returns n)
    {head : Option ℕ} (hg : Good n s) (h : Sched n s) (hp : s.pc = .walk f head) : s.Returns n := by
  obtain ⟨L, hL⟩ := hg.hangs_of hp
  have hc := hL.chain _ hg.startIdx_lt
  have htop : Pc.top s.wheel (.walk f head) s.wheel.startIdx_ = head := Function.update_self ..
  rw [htop] at hc
  exact returns_walk hloop hg h hp hc (hL.nodup _ hg.startIdx_lt)

/-- The loop of `tock` ends. The induction is on the milliseconds to go. -/
theorem returns_loop : ∀ (m : ℕ) (f : Sweep) (s : State), Good n s → Sched n s → s.pc = .loop f →
    f.diff + 1 - f.i = m → s.Returns n
  | 0, f, s, hg, h, hp, hm => by
    have hi : ¬f.i ≤ f.diff := by omega
    have hs : s.next n = some { s with pc := .outside (some f.now) } := by simp only [State.next, hp, if_neg hi]
    exact ⟨[⟨s.clock, .next⟩], _, some f.now, by rw [Lts.exec, quietStep_next hs]; rfl, rfl⟩
  | m + 1, f, s, hg, h, hp, hm => by
    have hi : f.i ≤ f.diff := by omega
    have hs : s.next n = some (s.advance n f) := by simp only [State.next, hp, if_pos hi]
    have hloop : ∀ t : State, Good n t → Sched n t → t.pc = .loop { f with i := f.i + 1 } → t.Returns n :=
      fun t hg' h' hp' => returns_loop m _ t hg' h' hp' (by dsimp only; omega)
    have hg' := hg.advance hp hi
    have h' := h.advance hg hp hi
    refine State.Returns.step ?_ (quietStep_next hs)
    cases hh : s.wheel.slot_ (s.wheel.turned n).startIdx_ with
    | none =>
      refine hloop _ hg' h' ?_
      rw [hg.advance_eq hp hi, hh]
    | some head =>
      have hpc : (s.advance n f).pc = .walk f (some head) := by rw [hg.advance_eq hp hi, hh]
      exact returns_list hloop hg' h' hpc

/-- In every state `tock` returns, if it has been called. -/
theorem Sched.returns (h : Sched n s) (hg : Good n s) : s.Returns n := by
  have hloop : ∀ (f : Sweep) (t : State), Good n t → Sched n t → t.pc = .loop f → t.Returns n := by
    intro f t hg h hp
    have hl := hg.place_of hp
    exact returns_loop _ f t hg h hp (Int.toNat_of_nonneg hl.nonneg).symm
  cases hp : s.pc with
  | outside last => exact ⟨[], s, last, rfl, hp⟩
  | loop f => exact hloop f s hg h hp
  | walk f head => exact returns_list (hloop _) hg h hp
  | callback f head =>
    exact h.returns_callback hg hp fun t hg' h' hp' _ => returns_list (hloop _) hg' h' hp'
  | halted e =>
    have hl := hg.place_of hp
    exact hl.elim

/-! ## Every run -/

instance (x : State × Action × State) : Decidable (Timely n x) :=
  decidable_of_iff
    ((∀ when ∈ x.1.adds x.2.1, x.1.wheel.startIdx_ + (when - x.1.wheel.start_) / 1000 ≤ INT_MAX) ∧
      (x.2.1.move = .tock → x.2.1.now - x.1.wheel.start_ < 1000 * INT_MAX) ∧
      (x.2.1.move = .tock → ∀ y < x.1.wheel.numCreated_, y ∉ x.1.fired.map Prod.fst →
        (x.1.wheel.timers y).expiration_ < x.1.base y + 1000 →
        (x.1.wheel.timers y).expiration_ + 1000 ≤ x.2.1.now → x.1.base y + 1000 * n.numSlot_ ≤ x.2.1.now))
    ⟨fun h => ⟨h.1, h.2.1, h.2.2⟩, fun h => ⟨h.fits, h.tock, h.due⟩⟩

theorem Sched.onTime (hg : Good n s) (h : Sched n s) : s.OnTime n where
  once := h.once
  early p hm := (h.lt_due (h.created hg (List.mem_map_of_mem hm))).trans_le (h.early p hm)
  late _ hp _ hx he := h.late hg hp hx he
  returns := h.returns hg

/-- **Timers on time.** In a run of a quiet wheel that is timely, every callback runs at most once, not as early as a
millisecond before its time, and by the end of the first `tock` that reads a clock of a millisecond after its time. -/
theorem timers_on_time {t : State} {v : List (State × Action × State)}
    (h : Lts.Run (quietWheel n now) (init now) v t) (hv : ∀ x ∈ v, Timely n x) :
    ∀ u ∈ Lts.visited (init now) v, u.OnTime n := by
  intro u hu
  obtain ⟨hg, hd⟩ := h.invariant (I := fun s => Good n s ∧ Sched n s)
    (fun _ _ _ hi ht hs => hi.2.step hi.1 ht hs) hv ⟨good_init now, sched_init now⟩ u hu
  exact hd.onTime hg

/-- Two timers, and a `tock` a good millisecond later. -/
def twoTimers : List Action :=
  [⟨0, .call (.runAfter 0.0015)⟩, ⟨0, .call (.runAfter 0.002)⟩, ⟨3100, .tock⟩] ++
  [.next, .next, .ret, .next, .next, .next, .ret, .next, .next, .next].map (⟨3100, ·⟩)

theorem timers_on_time_twoTimers : ∃ s, Lts.exec (quietStep .default) (init 0) twoTimers = some s ∧
    s.pc = .outside (some 3100) ∧ s.fired = [(0, 3100), (1, 3100)] ∧
    ∀ u ∈ Lts.visited (init 0) (Lts.moves (quietStep .default) (init 0) twoTimers), u.OnTime .default := by
  obtain ⟨s, hs, hend⟩ : ∃ s ∈ Lts.exec (quietStep .default) (init 0) twoTimers,
      s.pc = .outside (some 3100) ∧ s.fired = [(0, 3100), (1, 3100)] := by
    decide +kernel
  exact ⟨s, hs, hend.1, hend.2, timers_on_time (Lts.Run.moves hs) (by decide +kernel)⟩

/-- A timer for now, and a `tock` that is late for it. -/
def timerForNow : List Action := [⟨0, .call (.runAfter 0)⟩, ⟨1500, .tock⟩, ⟨1500, .next⟩, ⟨1500, .next⟩]

theorem not_onTime_timerForNow : ¬∀ s, Lts.Reach (quietWheel .default 0) s → s.OnTime .default := by
  intro h
  obtain ⟨s, hs, hp, hx, he, hf⟩ : ∃ s ∈ Lts.exec (quietStep .default) (init 0) timerForNow,
      s.pc = .outside (some 1500) ∧ 0 < s.wheel.numCreated_ ∧ (s.wheel.timers 0).expiration_ + 1000 ≤ 1500 ∧
      s.fired = [] := by
    decide +kernel
  have hrun := (h s (Lts.Reach.exec (.init rfl) hs)).late 1500 hp 0 hx he
  rw [hf] at hrun
  cases hrun

end Libeva.TimeWheel
