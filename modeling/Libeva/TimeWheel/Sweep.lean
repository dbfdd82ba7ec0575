import Libeva.TimeWheel.Slots
import Mathlib.Data.Int.ConditionallyCompleteOrder

/-!
# The sweep of `tock`

One call of `tock`, from any well-formed wheel, with callbacks that leave the wheel alone.

* `tockAt` are the states of the call; the clock reads `c 0`, `c 1` and so on.
* `WellFormed` says what the lists of the slots are, `Calm` what is asked of the wheel and the clock, `Swept` what the
  call has done when it has returned.
* `Sweeping` is the invariant: in each list the timers that were put back are in front of those that were there before.
  The slot of a timer that is put back is not swept again: its time is after what is left of the sweep, and less than
  a turn ahead.
-/

namespace Libeva.TimeWheel

open Linked

variable {n : Buckets} {w : TimeWheel} {s t u : State} {c : ℕ → ℤ} {L₀ L R B : ℕ → List ℕ} {F l : List ℕ} {f : Sweep}
  {x head j k d m : ℕ} {head? : Option ℕ} {now when : ℤ}

/-- What `tock` does next; a callback returns. -/
def State.move (s : State) : Move :=
  match s.pc with
  | .callback _ _ => .ret
  | .outside _ | .loop _ | .walk _ _ | .halted _ => .next

/-- A call of `tock`, and so many statements of it. -/
def tockAt (n : Buckets) (c : ℕ → ℤ) (s : State) : ℕ → Option State
  | 0 => step n s ⟨c 0, .tock⟩
  | m + 1 => (tockAt n c s m).bind fun u => step n u ⟨c (m + 1), u.move⟩

/-- The milliseconds from `start_` on. -/
def ticks (w : TimeWheel) (now : ℤ) : ℕ := ((now - w.start_) / 1000).toNat

/-- One of the next `k` slots. -/
def Passed (n : Buckets) (w : TimeWheel) (k j : ℕ) : Prop := ∃ d, 1 ≤ d ∧ d ≤ k ∧ (w.startIdx_ + d) % n.numSlot_ = j

/-- The slots have the lists `L`; the index of a timer is its slot, and its `pre_` is null. -/
structure WellFormed (n : Buckets) (w : TimeWheel) (L : ℕ → List ℕ) : Prop where
  startIdx_lt : w.startIdx_ < n.numSlot_
  chain : ∀ j < n.numSlot_, Chain w.getNext (w.slot_ j) (L j)
  nodup : ∀ j < n.numSlot_, (L j).Nodup
  timer : ∀ j < n.numSlot_, ∀ x ∈ L j, w.Live x ∧ (w.timers x).index_ = j ∧ (w.timers x).pre_ = none

/-- A call of `tock` in a well-formed wheel. The clock does not go back, the milliseconds are an `int`, and a repeating
timer has an interval of a millisecond or more and is put back less than a turn ahead. -/
structure Calm (n : Buckets) (c : ℕ → ℤ) (s : State) (L₀ : ℕ → List ℕ) : Prop where
  wellFormed : WellFormed n s.wheel L₀
  outside : ∃ last, s.pc = .outside last
  clock : s.clock ≤ c 0
  mono : Monotone c
  start_ : s.wheel.start_ ≤ c 0
  ticks : s.wheel.ticks (c 0) ≤ INT_MAX
  interval : ∀ j < n.numSlot_, ∀ x ∈ L₀ j, (s.wheel.timers x).repeat_ = true → 0.001 ≤ (s.wheel.timers x).interval_
  distance : ∀ i u f x, tockAt n c s i = some u → u.pc = .callback f x → (u.wheel.timers x).repeat_ = true →
    (addTime (c (i + 1)) (u.wheel.timers x).interval_ - u.wheel.start_) / 1000 < n.numSlot_

/-- What a call of `tock` has done when it has returned, after `m` statements: the lists are `L`, and it has run `F`. -/
structure Swept (n : Buckets) (c : ℕ → ℤ) (s : State) (L₀ : ℕ → List ℕ) (m : ℕ) (t : State) (L : ℕ → List ℕ)
    (F : List ℕ) : Prop where
  outside : t.pc = .outside (some (c 0))
  defined : ∀ i u e, tockAt n c s i = some u → u.pc ≠ .halted e
  start_ : t.wheel.start_ = s.wheel.start_ + 1000 * s.wheel.ticks (c 0)
  le_now : t.wheel.start_ ≤ c 0
  now_lt : c 0 < t.wheel.start_ + 1000
  startIdx_ : t.wheel.startIdx_ = (s.wheel.startIdx_ + s.wheel.ticks (c 0)) % n.numSlot_
  wellFormed : WellFormed n t.wheel L
  fired : t.fired = s.fired ++ F.map (·, c 0)
  once : F.Nodup
  mem_iff : ∀ x, x ∈ F ↔ ∃ j < n.numSlot_, Passed n s.wheel (s.wheel.ticks (c 0)) j ∧ x ∈ L₀ j
  oneShot : ∀ x ∈ F, (s.wheel.timers x).repeat_ = false → x ∈ t.wheel.deleted ∧ ∀ j < n.numSlot_, x ∉ L j
  repeating : ∀ x ∈ F, (s.wheel.timers x).repeat_ = true → ∃ i u f, i < m ∧ tockAt n c s i = some u ∧
    u.pc = .callback f x ∧ x ∈ L (u.wheel.slotIndex n (addTime (c (i + 1)) (s.wheel.timers x).interval_))
  untouched : ∀ x ∉ F, t.wheel.timers x = s.wheel.timers x ∧ (x ∈ t.wheel.deleted ↔ x ∈ s.wheel.deleted)
  lists : ∀ j < n.numSlot_, ∃ R, (∀ x ∈ R, x ∈ F) ∧ (Passed n s.wheel (s.wheel.ticks (c 0)) j → L j = R) ∧
    (¬Passed n s.wheel (s.wheel.ticks (c 0)) j → L j = R ++ L₀ j)
  numCreated_ : t.wheel.numCreated_ = s.wheel.numCreated_

/-! ## Slots ahead -/

theorem passed_succ : Passed n w (d + 1) j ↔ Passed n w d j ∨ (w.startIdx_ + (d + 1)) % n.numSlot_ = j := by
  constructor
  · rintro ⟨e, h1, h2, h3⟩
    rcases Nat.lt_or_ge d e with h | h
    · obtain rfl : e = d + 1 := by omega
      exact .inr h3
    · exact .inl ⟨e, h1, h, h3⟩
  · rintro (⟨e, h1, h2, h3⟩ | h)
    · exact ⟨e, h1, by omega, h3⟩
    · exact ⟨d + 1, by omega, le_rfl, h⟩

/-- Different numbers of slots, less than a turn, end in different slots. -/
theorem add_mod_ne {a e N : ℕ} (ha : a < N) (h : d < e) (he : e < N) : (a + d) % N ≠ (a + e) % N := by
  rcases add_mod_cases ha (d := d) (by omega) with ⟨h1, -⟩ | h1 <;>
    rcases add_mod_cases ha (d := e) (by omega) with ⟨h2, -⟩ | h2 <;> omega

theorem le_addTime_slot {seconds : ℚ} (h : 0.001 ≤ seconds) (t : ℤ) : t + 1000 ≤ addTime t seconds := by
  have h1 : ((1000 : ℤ) : ℚ) ≤ seconds * kMicroSecondsPerSecond := by
    unfold kMicroSecondsPerSecond
    push_cast
    linarith
  have h0 : 0 ≤ seconds * kMicroSecondsPerSecond := le_trans (by norm_num) h1
  have h2 := Int.le_floor.2 h1
  rw [addTime, trunc, if_pos h0]
  omega

theorem ticks_eq (h : w.start_ ≤ now) : (w.ticks now : ℤ) = (now - w.start_) / 1000 :=
  Int.toNat_of_nonneg (Int.ediv_nonneg (sub_nonneg.2 h) (by decide))

/-! ## Statements of the call -/

theorem tockAt_next (h : tockAt n c s m = some u) (hc : u.clock ≤ c (m + 1)) (hm : u.move = .next) :
    tockAt n c s (m + 1) = State.next n { u with clock := c (m + 1) } := by
  rw [tockAt, h, Option.bind_some, step, if_pos hc, hm]

theorem tockAt_ret (h : tockAt n c s m = some u) (hc : u.clock ≤ c (m + 1)) (hp : u.pc = .callback f head) :
    tockAt n c s (m + 1) = some (State.ret n { u with clock := c (m + 1) } f head (c (m + 1))) := by
  have hm : u.move = .ret := by rw [State.move, hp]
  rw [tockAt, h, Option.bind_some, step, if_pos hc, hm]
  simp only [hp]

/-- The call has returned. -/
theorem tockAt_outside {last : Option ℤ} (h : tockAt n c s m = some t) (hp : t.pc = .outside last) :
    ∀ i, tockAt n c s (m + 1 + i) = none
  | 0 => by
    have hm : t.move = .next := by rw [State.move, hp]
    rw [Nat.add_zero, tockAt, h, Option.bind_some, step, hm]
    split
    · simp only [State.next, hp]
    · rfl
  | i + 1 => by rw [← Nat.add_assoc, tockAt, tockAt_outside h hp i, Option.bind_none]

theorem tockAt_halted {e : Halt} (h : tockAt n c s m = some u) (hp : u.pc = .halted e) :
    ∀ i, tockAt n c s (m + 1 + i) = none
  | 0 => by rw [Nat.add_zero, tockAt, h, Option.bind_some, step_halted hp]
  | i + 1 => by rw [← Nat.add_assoc, tockAt, tockAt_halted h hp i, Option.bind_none]

/-- A call that returns has not halted. -/
theorem tockAt_defined {last : Option ℤ} (h : tockAt n c s m = some t) (hp : t.pc = .outside last) (i : ℕ) (u : State)
    (e : Halt) (hu : tockAt n c s i = some u) : u.pc ≠ .halted e := by
  intro he
  rcases Nat.lt_trichotomy i m with hi | rfl | hi
  · have := tockAt_halted hu he (m - (i + 1))
    rw [show i + 1 + (m - (i + 1)) = m by omega, h] at this
    cases this
  · cases h.symm.trans hu
    cases hp.symm.trans he
  · have := tockAt_outside h hp (i - (m + 1))
    rw [show m + 1 + (i - (m + 1)) = i by omega, hu] at this
    cases this

/-! ## The invariant -/

/-- So far `tock` has come to `d` slots and run the timers `F`. In front of `B`, what is left of the lists, are the
timers `R` that were put back, in slots that are not swept any more. -/
structure Sweeping (n : Buckets) (c : ℕ → ℤ) (s : State) (L₀ : ℕ → List ℕ) (d : ℕ) (R B : ℕ → List ℕ) (F : List ℕ)
    (m : ℕ) (u : State) : Prop where
  run : tockAt n c s m = some u
  clock : u.clock = c m
  start_ : u.wheel.start_ = s.wheel.start_ + 1000 * d
  startIdx_ : u.wheel.startIdx_ = (s.wheel.startIdx_ + d) % n.numSlot_
  hangs : ∃ P, Hangs n u.wheel (u.pc.top u.wheel) P (fun j => R j ++ B j) ∧ ∀ y, P y → u.wheel.Live y
  fixed : ∀ y, (u.wheel.timers y).pre_ = (s.wheel.timers y).pre_ ∧
    (u.wheel.timers y).repeat_ = (s.wheel.timers y).repeat_ ∧
    (u.wheel.timers y).interval_ = (s.wheel.timers y).interval_
  far : ∀ j < n.numSlot_, R j ≠ [] →
    ∃ e, s.wheel.ticks (c 0) < d + e ∧ e < n.numSlot_ ∧ (u.wheel.startIdx_ + e) % n.numSlot_ = j
  back : ∀ j < n.numSlot_, ∀ y ∈ R j, y ∈ F
  sub : ∀ j < n.numSlot_, ∀ y ∈ B j, y ∈ L₀ j
  fired : u.fired = s.fired ++ F.map (·, c 0)
  once : F.Nodup
  mem_iff : ∀ y, y ∈ F ↔ ∃ j < n.numSlot_, y ∈ L₀ j ∧ y ∉ B j
  oneShot : ∀ y ∈ F, (s.wheel.timers y).repeat_ = false → y ∈ u.wheel.deleted
  repeating : ∀ y ∈ F, (s.wheel.timers y).repeat_ = true → ∃ i v g, i < m ∧ tockAt n c s i = some v ∧
    v.pc = .callback g y ∧ y ∈ R (v.wheel.slotIndex n (addTime (c (i + 1)) (s.wheel.timers y).interval_))
  untouched : ∀ y ∉ F, u.wheel.timers y = s.wheel.timers y ∧ (y ∈ u.wheel.deleted ↔ y ∈ s.wheel.deleted)
  numCreated_ : u.wheel.numCreated_ = s.wheel.numCreated_

/-- The slots that have been passed have nothing left, the others have everything. -/
def Rest (n : Buckets) (w : TimeWheel) (L₀ : ℕ → List ℕ) (d : ℕ) (B : ℕ → List ℕ) (j : ℕ) : Prop :=
  (Passed n w d j → B j = []) ∧ (¬Passed n w d j → B j = L₀ j)

section Sweeping

theorem Calm.unique (hc : Calm n c s L₀) {i : ℕ} (hi : i < n.numSlot_) (hj : j < n.numSlot_) (h : x ∈ L₀ i)
    (h' : x ∈ L₀ j) : i = j := by
  have h1 := (hc.wellFormed.timer i hi x h).2.1
  have h2 := (hc.wellFormed.timer j hj x h').2.1
  omega

/-- What is left to run has not run. -/
theorem Sweeping.notMem (hc : Calm n c s L₀) (h : Sweeping n c s L₀ d R B F m u) (hj : j < n.numSlot_) (hx : x ∈ B j) :
    x ∉ F := by
  intro hF
  obtain ⟨i, hi, hm, hB⟩ := (h.mem_iff x).1 hF
  obtain rfl := hc.unique hi hj hm (h.sub j hj x hx)
  exact hB hx

theorem Sweeping.mem_old (h : Sweeping n c s L₀ d R B F m u) (hj : j < n.numSlot_) (hx : x ∈ R j ++ B j) :
    ∃ i < n.numSlot_, x ∈ L₀ i := by
  rcases List.mem_append.1 hx with hx | hx
  · obtain ⟨i, hi, hm, -⟩ := (h.mem_iff x).1 (h.back j hj x hx)
    exact ⟨i, hi, hm⟩
  · exact ⟨j, hj, h.sub j hj x hx⟩

/-- The `pre_` of every timer in a list is null. -/
theorem Sweeping.pre_eq (hc : Calm n c s L₀) (h : Sweeping n c s L₀ d R B F m u) (hj : j < n.numSlot_)
    (hx : x ∈ R j ++ B j) : (u.wheel.timers x).pre_ = none := by
  obtain ⟨i, hi, hm⟩ := h.mem_old hj hx
  exact (h.fixed x).1.trans (hc.wellFormed.timer i hi x hm).2.2

theorem Sweeping.startIdx_lt (h : Sweeping n c s L₀ d R B F m u) : u.wheel.startIdx_ < n.numSlot_ :=
  h.startIdx_ ▸ Nat.mod_lt _ n.pos

/-- Nothing is put back in the slots that are still swept. -/
theorem Sweeping.back_nil (h : Sweeping n c s L₀ d R B F m u) {e : ℕ} (hd : d + e ≤ s.wheel.ticks (c 0)) :
    R ((u.wheel.startIdx_ + e) % n.numSlot_) = [] := by
  by_contra hR
  obtain ⟨e', h1, h2, h3⟩ := h.far _ (Nat.mod_lt _ n.pos) hR
  exact add_mod_ne h.startIdx_lt (show e < e' by omega) h2 h3.symm

theorem Sweeping.back_walked (h : Sweeping n c s L₀ d R B F m u) (hd : d ≤ s.wheel.ticks (c 0)) :
    R u.wheel.startIdx_ = [] := by
  have hR := h.back_nil (e := 0) hd
  rwa [Nat.add_zero, Nat.mod_eq_of_lt h.startIdx_lt] at hR

theorem Sweeping.repeating_succ (h : Sweeping n c s L₀ d R B F m u) (i' : ℕ) : ∀ y ∈ F,
    (s.wheel.timers y).repeat_ = true → ∃ i v g, i < m + i' ∧ tockAt n c s i = some v ∧
      v.pc = .callback g y ∧ y ∈ R (v.wheel.slotIndex n (addTime (c (i + 1)) (s.wheel.timers y).interval_)) := by
  intro y hy hr
  obtain ⟨i, v, g, hi, hv⟩ := h.repeating y hy hr
  exact ⟨i, v, g, by omega, hv⟩

/-- The next statement of the call, at the next reading of the clock. -/
theorem Sweeping.next (hc : Calm n c s L₀) (h : Sweeping n c s L₀ d R B F m u) (hm : u.move = .next) :
    tockAt n c s (m + 1) = State.next n { u with clock := c (m + 1) } :=
  tockAt_next h.run (h.clock.trans_le (hc.mono (Nat.le_succ m))) hm

/-! ### The loop over the milliseconds -/

theorem Calm.ticks_eq (hc : Calm n c s L₀) : (s.wheel.ticks (c 0) : ℤ) = (c 0 - s.wheel.start_) / 1000 :=
  TimeWheel.ticks_eq hc.start_

/-- The first statements of the call. -/
theorem Calm.begin (hc : Calm n c s L₀) :
    Sweeping n c s L₀ 0 (fun _ => []) L₀ [] 0
      { s with clock := c 0, pc := .loop ⟨c 0, 1, s.wheel.ticks (c 0)⟩ } := by
  obtain ⟨last, hp⟩ := hc.outside
  have hk := hc.ticks_eq
  have hle := hc.ticks
  have hrun : tockAt n c s 0 = some { s with clock := c 0, pc := .loop ⟨c 0, 1, s.wheel.ticks (c 0)⟩ } := by
    rw [tockAt, step, if_pos hc.clock]
    simp only [hp]
    rw [State.tock, castInt_timeDifference hc.start_ (by omega), hk]
  refine ⟨hrun, rfl, ?_, ?_, ⟨fun x => ∃ j < n.numSlot_, x ∈ L₀ j, ?_, ?_⟩, fun _ => ⟨rfl, rfl, rfl⟩, ?_,
    fun _ _ => List.forall_mem_nil _, fun _ _ _ hy => hy, ?_, List.nodup_nil, fun y => ?_, List.forall_mem_nil _,
    List.forall_mem_nil _, fun _ _ => ⟨rfl, Iff.rfl⟩, rfl⟩
  · simp
  · exact (Nat.mod_eq_of_lt hc.wellFormed.startIdx_lt).symm
  · exact ⟨hc.wellFormed.chain, hc.wellFormed.nodup,
      fun j hj x hx => ⟨⟨j, hj, hx⟩, (hc.wellFormed.timer j hj x hx).2.1⟩, fun x hx => hx⟩
  · rintro x ⟨j, hj, hx⟩
    exact (hc.wellFormed.timer j hj x hx).1
  · exact fun j _ hne => absurd rfl hne
  · simp
  · simp only [List.not_mem_nil, false_iff, not_exists, not_and, not_not]
    exact fun _ _ hy => hy

/-- The loop goes on to the next slot. -/
theorem Sweeping.advance (hc : Calm n c s L₀) (h : Sweeping n c s L₀ d R B F m u) (hp : u.pc = .loop f)
    (hd : d < s.wheel.ticks (c 0)) (hi : f.i = d + 1) (hdiff : f.diff = s.wheel.ticks (c 0))
    (hk : s.wheel.ticks (c 0) < INT_MAX) :
    Sweeping n c s L₀ (d + 1) R B F (m + 1) { u with
      clock := c (m + 1)
      wheel := u.wheel.turned n
      pc := match u.wheel.slot_ (u.wheel.turned n).startIdx_ with
        | some head => .walk f (some head)
        | none => .loop { f with i := f.i + 1 } } := by
  have hrun := h.next hc (by rw [State.move, hp])
  simp only [State.next, hp, if_pos (show f.i ≤ f.diff by omega)] at hrun
  rw [State.advance_eq n _ (by omega) (by omega)] at hrun
  have hs : (u.wheel.turned n).start_ = u.wheel.start_ + 1000 := rfl
  have hidx : (u.wheel.turned n).startIdx_ = (u.wheel.startIdx_ + 1) % n.numSlot_ := rfl
  have hstart := h.start_
  obtain ⟨P, hL, hP⟩ := h.hangs
  rw [hp] at hL
  refine { h with
    run := hrun, clock := rfl, start_ := ?_, startIdx_ := ?_, hangs := ⟨P, ?_, hP⟩, far := fun j hj hR => ?_
    repeating := h.repeating_succ 1 }
  · push_cast
    omega
  · exact hidx.trans (by rw [h.startIdx_, Nat.mod_add_mod, Nat.add_assoc])
  · have htop : Pc.top (u.wheel.turned n) (match u.wheel.slot_ (u.wheel.turned n).startIdx_ with
        | some head => .walk f (some head)
        | none => .loop { f with i := f.i + 1 }) = u.wheel.slot_ := by
      cases hh : u.wheel.slot_ (u.wheel.turned n).startIdx_ with
      | none => rfl
      | some head =>
        have hu := Function.update_eq_self (u.wheel.turned n).startIdx_ u.wheel.slot_
        rwa [hh] at hu
    dsimp only
    rw [htop]
    exact Hangs.congr hL fun _ _ => rfl
  · obtain ⟨e, h1, h2, h3⟩ := h.far j hj hR
    refine ⟨e - 1, by omega, by omega, ?_⟩
    rw [← h3, show (u.wheel.turned n).startIdx_ = (u.wheel.startIdx_ + 1) % n.numSlot_ from rfl, Nat.mod_add_mod]
    congr 1
    omega

/-- The end of a list. -/
theorem Sweeping.walked (hc : Calm n c s L₀) (h : Sweeping n c s L₀ d R B F m u) (hp : u.pc = .walk f none)
    (hi : 0 ≤ f.i) (hi' : f.i < INT_MAX) :
    Sweeping n c s L₀ d R B F (m + 1) { u with
      clock := c (m + 1), wheel := u.wheel.setSlot u.wheel.startIdx_ none, pc := .loop { f with i := f.i + 1 } } := by
  have hrun := h.next hc (by rw [State.move, hp])
  simp only [State.next, hp] at hrun
  rw [State.incr_eq _ hi hi'] at hrun
  obtain ⟨P, hL, hP⟩ := h.hangs
  rw [hp] at hL
  exact { h with
    run := hrun
    clock := rfl
    hangs := ⟨P, Hangs.congr hL fun _ _ => rfl, hP⟩
    repeating := h.repeating_succ 1 }

/-! ### The loop over a list -/

/-- The state in the callback of `x`. -/
def State.inCallback (u : State) (f : Sweep) (x : ℕ) (now : ℤ) : State :=
  { u with clock := now, pc := .callback f x, fired := u.fired ++ [(x, f.now)] }

@[simp] theorem wheel_inCallback : (u.inCallback f x now).wheel = u.wheel := rfl

/-- The callback of the first timer that is left. -/
theorem Sweeping.callback (hc : Calm n c s L₀) (h : Sweeping n c s L₀ d R B F m u) (hp : u.pc = .walk f (some x))
    (hd : d ≤ s.wheel.ticks (c 0)) :
    tockAt n c s (m + 1) = some (u.inCallback f x (c (m + 1))) ∧
    tockAt n c s (m + 2) = some (State.ret n (u.inCallback f x (c (m + 2))) f x (c (m + 2))) ∧
    u.wheel.Live x ∧ ∃ (P : ℕ → Prop) (l : List ℕ), B u.wheel.startIdx_ = x :: l ∧ x ∉ l ∧
      Hangs n (u.wheel.setNext x none) (Pc.top u.wheel (.walk f (u.wheel.getNext x))) (fun y => P y ∧ y ≠ x)
        (fun j => R j ++ Function.update B u.wheel.startIdx_ l j) ∧ ∀ y, P y → u.wheel.Live y := by
  have hrun := h.next hc (by rw [State.move, hp])
  simp only [State.next, hp] at hrun
  obtain ⟨P, hL, hP⟩ := h.hangs
  rw [hp] at hL
  have hcall : Hangs n u.wheel (Pc.top u.wheel (.callback f x)) P (fun j => R j ++ B j) := hL
  obtain ⟨hx, l, hl, hpop⟩ := hcall.pop_callback h.startIdx_lt
  have hidx := (hL.top_mem h.startIdx_lt (Function.update_self ..)).2
  have hnodup := hL.nodup _ h.startIdx_lt
  rw [hl] at hnodup
  rw [State.run_eq (s := { u with clock := c (m + 1), pc := .walk f (some x) }) (hP x hx) hidx] at hrun
  have hR := h.back_walked hd
  rw [hR, List.nil_append] at hl
  have heq : Function.update (fun j => R j ++ B j) u.wheel.startIdx_ l =
      fun j => R j ++ Function.update B u.wheel.startIdx_ l j := by
    funext j
    by_cases hj : j = u.wheel.startIdx_
    · rw [hj, Function.update_self, Function.update_self, hR, List.nil_append]
    · rw [Function.update_of_ne hj, Function.update_of_ne hj]
  rw [heq] at hpop
  exact ⟨hrun, tockAt_ret hrun (hc.mono (Nat.le_succ (m + 1))) rfl, hP x hx, P, l, hl, (List.nodup_cons.1 hnodup).1,
    hpop, hP⟩

theorem mem_of_mem_tail (hB : B j = x :: l) {i y : ℕ} (hy : y ∈ Function.update B j l i) : y ∈ B i := by
  by_cases hij : i = j
  · subst hij
    rw [Function.update_self] at hy
    exact hB ▸ List.mem_cons_of_mem x hy
  · rwa [Function.update_of_ne hij] at hy

/-- One more timer has run. -/
theorem Sweeping.mem_iff_snoc (h : Sweeping n c s L₀ d R B F m u) (hj : j < n.numSlot_) (hB : B j = x :: l) (hx : x ∉ l)
    (y : ℕ) : y ∈ F ++ [x] ↔ ∃ i < n.numSlot_, y ∈ L₀ i ∧ y ∉ Function.update B j l i := by
  rw [List.mem_append, List.mem_singleton]
  constructor
  · rintro (hy | rfl)
    · obtain ⟨i, hi, hm, hn⟩ := (h.mem_iff y).1 hy
      exact ⟨i, hi, hm, fun hy' => hn (mem_of_mem_tail hB hy')⟩
    · refine ⟨j, hj, h.sub j hj y (hB ▸ List.mem_cons_self), ?_⟩
      rwa [Function.update_self]
  · rintro ⟨i, hi, hm, hn⟩
    by_cases hyx : y = x
    · exact .inr hyx
    refine .inl ((h.mem_iff y).2 ⟨i, hi, hm, fun hy' => hn ?_⟩)
    by_cases hij : i = j
    · subst hij
      rw [hB] at hy'
      rw [Function.update_self]
      exact (List.mem_cons.1 hy').resolve_left hyx
    · rwa [Function.update_of_ne hij]

theorem fixed_setNext (w : TimeWheel) (x : ℕ) (p : Option ℕ) (y : ℕ) :
    ((w.setNext x p).timers y).pre_ = (w.timers y).pre_ ∧ ((w.setNext x p).timers y).repeat_ = (w.timers y).repeat_ ∧
      ((w.setNext x p).timers y).interval_ = (w.timers y).interval_ :=
  ⟨field_setNext Timer.pre_ (fun _ _ => rfl) p y, repeat_setNext p y,
    field_setNext Timer.interval_ (fun _ _ => rfl) p y⟩

theorem fixed_push (w : TimeWheel) (x j y : ℕ) :
    ((w.push x j).timers y).pre_ = (w.timers y).pre_ ∧ ((w.push x j).timers y).repeat_ = (w.timers y).repeat_ ∧
      ((w.push x j).timers y).interval_ = (w.timers y).interval_ :=
  ⟨field_push Timer.pre_ (fun _ _ _ => rfl) y, repeat_push y, field_push Timer.interval_ (fun _ _ _ => rfl) y⟩

theorem Sweeping.fired_snoc (h : Sweeping n c s L₀ d R B F m u) :
    u.fired ++ [(x, c 0)] = s.fired ++ (F ++ [x]).map (·, c 0) := by
  rw [h.fired, List.map_append, List.append_assoc]
  rfl

theorem Sweeping.once_snoc (hc : Calm n c s L₀) (h : Sweeping n c s L₀ d R B F m u) (hj : j < n.numSlot_)
    (hB : B j = x :: l) : (F ++ [x]).Nodup := by
  refine List.nodup_append.2 ⟨h.once, List.nodup_singleton x, fun y hy z hz he => ?_⟩
  obtain rfl : y = x := he.trans (List.mem_singleton.1 hz)
  exact h.notMem hc hj (hB ▸ List.mem_cons_self) hy

/-- A one-shot timer has run, and is gone. -/
theorem Sweeping.gone (hc : Calm n c s L₀) (h : Sweeping n c s L₀ d R B F m u) (hp : u.pc = .walk f (some x))
    (hf : f.now = c 0) (hd : d ≤ s.wheel.ticks (c 0)) (hr : (u.wheel.timers x).repeat_ = false) :
    ∃ l, B u.wheel.startIdx_ = x :: l ∧
      Sweeping n c s L₀ d R (Function.update B u.wheel.startIdx_ l) (F ++ [x]) (m + 2) { u with
        clock := c (m + 2)
        wheel := (u.wheel.setNext x none).delete x
        pc := .walk f (u.wheel.getNext x)
        fired := u.fired ++ [(x, c 0)] } := by
  obtain ⟨-, hrun, hlive, P, l, hB, hxl, hL, hP⟩ := h.callback hc hp hd
  rw [State.ret_delete_eq (s := u.inCallback f x (c (m + 2))) hlive hr, State.inCallback, hf] at hrun
  have hlt := h.startIdx_lt
  refine ⟨l, hB, ⟨hrun, rfl, h.start_, h.startIdx_, ⟨_, hL.congr fun _ _ => rfl, ?_⟩, fun y => ?_, h.far, ?_,
    fun i hi y hy => h.sub i hi y (mem_of_mem_tail hB hy), h.fired_snoc, h.once_snoc hc hlt hB,
    h.mem_iff_snoc hlt hB hxl, ?_, ?_, ?_, h.numCreated_⟩⟩
  · rintro y ⟨hy, hyx⟩
    refine ⟨(hP y hy).1, fun hm => ?_⟩
    rcases List.mem_cons.1 hm with he | hm
    · exact hyx he
    · exact (hP y hy).2 hm
  · obtain ⟨h1, h2, h3⟩ := h.fixed y
    obtain ⟨h4, h5, h6⟩ := fixed_setNext u.wheel x none y
    exact ⟨h4.trans h1, h5.trans h2, h6.trans h3⟩
  · exact fun j hj y hy => List.mem_append_left _ (h.back j hj y hy)
  · intro y hy hr'
    rcases List.mem_append.1 hy with hy | hy
    · exact List.mem_cons_of_mem x (h.oneShot y hy hr')
    · rw [List.mem_singleton.1 hy]
      exact List.mem_cons_self
  · intro y hy hr'
    rcases List.mem_append.1 hy with hy | hy
    · exact h.repeating_succ 2 y hy hr'
    · rw [List.mem_singleton.1 hy, ← (h.fixed x).2.1, hr] at hr'
      cases hr'
  · intro y hy
    rw [List.mem_append, List.mem_singleton, not_or] at hy
    obtain ⟨h1, h2⟩ := h.untouched y hy.1
    refine ⟨Eq.trans ?_ h1, Iff.trans ?_ h2⟩
    · exact (timers_setNext none y).trans (if_neg hy.2)
    · exact List.mem_cons.trans (or_iff_right hy.2)

/-- The slot of a repeating timer is not swept again. -/
theorem Sweeping.slot_far (h : Sweeping n c s L₀ d R B F m u) (hc : Calm n c s L₀) (hw : c 0 + 1000 ≤ when)
    (hs : (when - u.wheel.start_) / 1000 < n.numSlot_) (hd : d ≤ s.wheel.ticks (c 0)) :
    ∃ e, s.wheel.ticks (c 0) < d + e ∧ e < n.numSlot_ ∧
      (u.wheel.startIdx_ + e) % n.numSlot_ = u.wheel.slotIndex n when := by
  have hk := hc.ticks_eq
  have hstart := h.start_
  have h0 := hc.start_
  have he : ((when - u.wheel.start_) / 1000 : ℤ) ≥ s.wheel.ticks (c 0) - d + 1 := by omega
  exact ⟨((when - u.wheel.start_) / 1000).toNat, by omega, by omega, rfl⟩

theorem Sweeping.start_le (hc : Calm n c s L₀) (h : Sweeping n c s L₀ d R B F m u) (hd : d ≤ s.wheel.ticks (c 0)) :
    u.wheel.start_ ≤ c 0 := by
  have h1 := h.start_
  have h2 := hc.ticks_eq
  have h3 := hc.start_
  omega

theorem mem_cons_update {y i : ℕ} : y ∈ Function.update R j (x :: R j) i ↔ (i = j ∧ y = x) ∨ y ∈ R i := by
  by_cases hij : i = j
  · rw [hij, Function.update_self, List.mem_cons]
    simp
  · rw [Function.update_of_ne hij]
    simp [hij]

/-- `tock` puts a repeating timer in a slot that is not swept any more. -/
theorem Sweeping.put_back (hn : 2 * n.numSlot_ ≤ INT_MAX + 2) (hc : Calm n c s L₀)
    (h : Sweeping n c s L₀ d R B F m u) (hp : u.pc = .walk f (some x)) (hf : f.now = c 0)
    (hd : d ≤ s.wheel.ticks (c 0)) (hr : (u.wheel.timers x).repeat_ = true)
    (hj : u.wheel.slotIndex n (addTime (c (m + 2)) (u.wheel.timers x).interval_) = j) :
    (∃ e, s.wheel.ticks (c 0) < d + e ∧ e < n.numSlot_ ∧ (u.wheel.startIdx_ + e) % n.numSlot_ = j) ∧
    tockAt n c s (m + 2) = some { u with
      clock := c (m + 2)
      wheel := (u.wheel.setNext x none).push x j
      pc := .walk f (u.wheel.getNext x)
      fired := u.fired ++ [(x, c 0)] } ∧
    ∃ (P : ℕ → Prop) (l : List ℕ), B u.wheel.startIdx_ = x :: l ∧ x ∉ l ∧
      Hangs n ((u.wheel.setNext x none).push x j)
        (Pc.top ((u.wheel.setNext x none).push x j) (.walk f (u.wheel.getNext x))) P
        (fun i => Function.update R j (x :: R j) i ++ Function.update B u.wheel.startIdx_ l i) ∧
      ∀ y, P y → u.wheel.Live y := by
  obtain ⟨hcall, hrun, hlive, P, l, hB, hxl, hL, hP⟩ := h.callback hc hp hd
  have hlt := h.startIdx_lt
  obtain ⟨i, hi, hxi⟩ := h.mem_old hlt (List.mem_append_right _ (hB ▸ List.mem_cons_self))
  obtain ⟨-, hrs, his⟩ := h.fixed x
  have hint : 0.001 ≤ (u.wheel.timers x).interval_ := his ▸ hc.interval i hi x hxi (hrs ▸ hr)
  obtain ⟨when, hw⟩ : ∃ when, addTime (c (m + 2)) (u.wheel.timers x).interval_ = when := ⟨_, rfl⟩
  have hdist : (addTime (c (m + 2)) (u.wheel.timers x).interval_ - u.wheel.start_) / 1000 < n.numSlot_ :=
    hc.distance (m + 1) (u.inCallback f x (c (m + 1))) f x hcall rfl hr
  rw [hw] at hdist hj
  have hwhen : c 0 + 1000 ≤ when := by
    have h1 := le_addTime_slot hint (c (m + 2))
    have h2 := hc.mono (Nat.zero_le (m + 2))
    omega
  have hstart := h.start_le hc hd
  have hN := n.le
  have hpre : ∀ y, P y ∧ y ≠ x → ((u.wheel.setNext x none).timers y).pre_ = none := by
    intro y hy
    obtain ⟨i', hi', hm⟩ := hL.linked y hy
    refine (fixed_setNext u.wheel x none y).1.trans (h.pre_eq hc hi' ?_)
    rcases List.mem_append.1 hm with hm | hm
    · exact List.mem_append_left _ hm
    · exact List.mem_append_right _ (mem_of_mem_tail hB hm)
  have hne := slotIndex_ne hlt (show u.wheel.start_ + 1000 ≤ when by omega) hdist
  rw [State.ret_repeat_eq (s := u.inCallback f x (c (m + 2))) hlive hL (fun y hy => ⟨hP y hy.1, hpre y hy⟩) hlt hr hw
    (show u.wheel.start_ + 1000 ≤ when by omega)
    ⟨by rw [wheel_inCallback]; omega, fun _ => by rw [wheel_inCallback]; omega⟩,
    wheel_inCallback, if_neg (not_le.2 hdist), State.inCallback, hf] at hrun
  have hjlt : j < n.numSlot_ := hj ▸ slotIndex_lt u.wheel when
  have hjne : j ≠ u.wheel.startIdx_ := hj ▸ hne
  have hpush := hL.push hjlt (Pc.top_eq (.walk f (u.wheel.getNext x)) fun _ => hjne) fun hy => hy.2 rfl
  have htop := Pc.top_push (w := u.wheel.setNext x none) (x := x) (.walk f (u.wheel.getNext x)) fun _ => hjne
  have hlists : Function.update (fun i => R i ++ Function.update B u.wheel.startIdx_ l i) j
      (x :: (R j ++ Function.update B u.wheel.startIdx_ l j)) =
      fun i => Function.update R j (x :: R j) i ++ Function.update B u.wheel.startIdx_ l i := by
    funext i
    by_cases hij : i = j
    · rw [hij, Function.update_self, Function.update_self, List.cons_append]
    · rw [Function.update_of_ne hij, Function.update_of_ne hij]
  rw [hlists] at hpush
  rw [hj] at hrun
  refine ⟨hj ▸ h.slot_far hc hwhen hdist hd, hrun, _, l, hB, hxl, htop ▸ hpush, ?_⟩
  rintro y (hy | rfl)
  · exact hP y hy.1
  · exact hlive

/-- A repeating timer has run, and is put back. -/
theorem Sweeping.again (hn : 2 * n.numSlot_ ≤ INT_MAX + 2) (hc : Calm n c s L₀) (h : Sweeping n c s L₀ d R B F m u)
    (hp : u.pc = .walk f (some x)) (hf : f.now = c 0) (hd : d ≤ s.wheel.ticks (c 0))
    (hr : (u.wheel.timers x).repeat_ = true)
    (hj : u.wheel.slotIndex n (addTime (c (m + 2)) (u.wheel.timers x).interval_) = j) :
    ∃ l, B u.wheel.startIdx_ = x :: l ∧
      Sweeping n c s L₀ d (Function.update R j (x :: R j)) (Function.update B u.wheel.startIdx_ l) (F ++ [x]) (m + 2)
        { u with
          clock := c (m + 2)
          wheel := (u.wheel.setNext x none).push x j
          pc := .walk f (u.wheel.getNext x)
          fired := u.fired ++ [(x, c 0)] } := by
  obtain ⟨hfar, hrun, P, l, hB, hxl, hL, hP⟩ := h.put_back hn hc hp hf hd hr hj
  have hcall := (h.callback hc hp hd).1
  have hlt := h.startIdx_lt
  obtain ⟨-, hrs, his⟩ := h.fixed x
  refine ⟨l, hB, ⟨hrun, rfl, h.start_, h.startIdx_, ⟨P, hL, hP⟩, fun y => ?_, ?_, ?_,
    fun i hi y hy => h.sub i hi y (mem_of_mem_tail hB hy), h.fired_snoc, h.once_snoc hc hlt hB,
    h.mem_iff_snoc hlt hB hxl, ?_, ?_, ?_, h.numCreated_⟩⟩
  · obtain ⟨h1, h2, h3⟩ := h.fixed y
    obtain ⟨h4, h5, h6⟩ := fixed_setNext u.wheel x none y
    obtain ⟨h7, h8, h9⟩ := fixed_push (u.wheel.setNext x none) x j y
    exact ⟨h7.trans (h4.trans h1), h8.trans (h5.trans h2), h9.trans (h6.trans h3)⟩
  · intro i hi hR
    by_cases hij : i = j
    · exact hij ▸ hfar
    · rw [Function.update_of_ne hij] at hR
      exact h.far i hi hR
  · intro i hi y hy
    rcases mem_cons_update.1 hy with ⟨-, rfl⟩ | hy
    · exact List.mem_append_right _ List.mem_cons_self
    · exact List.mem_append_left _ (h.back i hi y hy)
  · intro y hy hr'
    rcases List.mem_append.1 hy with hy | hy
    · exact h.oneShot y hy hr'
    · rw [List.mem_singleton.1 hy, ← hrs, hr] at hr'
      cases hr'
  · intro y hy hr'
    rcases List.mem_append.1 hy with hy | hy
    · obtain ⟨i, v, g, hi, hv, hg, hm⟩ := h.repeating_succ 2 y hy hr'
      exact ⟨i, v, g, hi, hv, hg, mem_cons_update.2 (.inr hm)⟩
    · obtain rfl := List.mem_singleton.1 hy
      refine ⟨m + 1, _, f, Nat.lt_succ_self _, hcall, rfl, mem_cons_update.2 (.inl ⟨?_, rfl⟩)⟩
      rw [← his]
      exact hj
  · intro y hy
    rw [List.mem_append, List.mem_singleton, not_or] at hy
    obtain ⟨h1, h2⟩ := h.untouched y hy.1
    refine ⟨Eq.trans ?_ h1, h2⟩
    rw [timers_push, if_neg hy.2, timers_setNext, if_neg hy.2]

/-- One timer runs. -/
theorem Sweeping.visit (hn : 2 * n.numSlot_ ≤ INT_MAX + 2) (hc : Calm n c s L₀) (h : Sweeping n c s L₀ d R B F m u)
    (hp : u.pc = .walk f (some x)) (hf : f.now = c 0) (hd : d ≤ s.wheel.ticks (c 0)) :
    ∃ l R' u', B u.wheel.startIdx_ = x :: l ∧
      Sweeping n c s L₀ d R' (Function.update B u.wheel.startIdx_ l) (F ++ [x]) (m + 2) u' ∧
      u'.pc = .walk f (u.wheel.getNext x) ∧ u'.wheel.startIdx_ = u.wheel.startIdx_ := by
  cases hr : (u.wheel.timers x).repeat_ with
  | false =>
    obtain ⟨l, hl, hs⟩ := h.gone hc hp hf hd hr
    exact ⟨l, R, _, hl, hs, rfl, rfl⟩
  | true =>
    obtain ⟨l, hl, hs⟩ := h.again hn hc hp hf hd hr rfl
    exact ⟨l, _, _, hl, hs, rfl, rfl⟩

/-- What is left of the list starts at `head?`. -/
theorem Sweeping.chain_walked (h : Sweeping n c s L₀ d R B F m u) (hp : u.pc = .walk f head?)
    (hd : d ≤ s.wheel.ticks (c 0)) : Chain u.wheel.getNext head? (B u.wheel.startIdx_) := by
  obtain ⟨P, hL, -⟩ := h.hangs
  have hchain := hL.chain _ h.startIdx_lt
  have htop : Pc.top u.wheel (.walk f head?) u.wheel.startIdx_ = head? := Function.update_self ..
  rw [hp, htop, h.back_walked hd] at hchain
  exact hchain

/-- The loop over a list ends. The induction is on what is left of it. -/
theorem Sweeping.list (hn : 2 * n.numSlot_ ≤ INT_MAX + 2) (hc : Calm n c s L₀) (h : Sweeping n c s L₀ d R B F m u)
    (hp : u.pc = .walk f head?) (hf : f.now = c 0) (hd : d ≤ s.wheel.ticks (c 0)) (hi : 0 ≤ f.i) (hi' : f.i < INT_MAX)
    (hj : u.wheel.startIdx_ = j) (hB : B j = l) :
    ∃ R' F' m' u', Sweeping n c s L₀ d R' (Function.update B j []) F' m' u' ∧
      u'.pc = .loop { f with i := f.i + 1 } := by
  induction l generalizing R B F m u head? with
  | nil =>
    have hchain := hB ▸ hj ▸ h.chain_walked hp hd
    obtain rfl : head? = none := hchain
    have hw := h.walked hc hp hi hi'
    rw [← Function.update_eq_self j B, hB] at hw
    exact ⟨R, F, m + 1, _, hw, rfl⟩
  | cons x l ih =>
    have hchain := hB ▸ hj ▸ h.chain_walked hp hd
    obtain ⟨rfl, -⟩ := hchain
    obtain ⟨l', R', u', hl, hs, hp', hj'⟩ := h.visit hn hc hp hf hd
    rw [hj] at hl hs
    obtain rfl : l' = l := (List.cons.inj (hl.symm.trans hB)).2
    have hlast := ih hs hp' (hj'.trans hj) (Function.update_self ..)
    rwa [Function.update_idem] at hlast

/-! ### The whole call -/

theorem Rest.succ (h : Rest n w L₀ d B j) (hj : (w.startIdx_ + (d + 1)) % n.numSlot_ ≠ j) :
    Rest n w L₀ (d + 1) B j := by
  unfold Rest
  rw [passed_succ, or_iff_left hj]
  exact h

theorem Rest.here (hB : B j = []) (hj : (w.startIdx_ + (d + 1)) % n.numSlot_ = j) : Rest n w L₀ (d + 1) B j :=
  ⟨fun _ => hB, fun h => absurd (passed_succ.2 (.inr hj)) h⟩

/-- The loop has come to its end. -/
theorem Sweeping.outside (hc : Calm n c s L₀) (h : Sweeping n c s L₀ d R B F m u) (hp : u.pc = .loop f)
    (hi : ¬f.i ≤ f.diff) :
    Sweeping n c s L₀ d R B F (m + 1) { u with clock := c (m + 1), pc := .outside (some f.now) } := by
  have hrun := h.next hc (by rw [State.move, hp])
  simp only [State.next, hp, if_neg hi] at hrun
  obtain ⟨P, hL, hP⟩ := h.hangs
  rw [hp] at hL
  exact { h with run := hrun, clock := rfl, hangs := ⟨P, hL, hP⟩, repeating := h.repeating_succ 1 }

/-- The loop of `tock` ends. The induction is on the milliseconds to go. -/
theorem Sweeping.loop (hn : 2 * n.numSlot_ ≤ INT_MAX + 2) (hc : Calm n c s L₀) (hk : s.wheel.ticks (c 0) < INT_MAX) :
    ∀ {r d : ℕ} {R B : ℕ → List ℕ} {F : List ℕ} {m : ℕ} {u : State} {f : Sweep}, d + r = s.wheel.ticks (c 0) →
      Sweeping n c s L₀ d R B F m u → u.pc = .loop f → f.now = c 0 → f.i = d + 1 → f.diff = s.wheel.ticks (c 0) →
      (∀ j < n.numSlot_, Rest n s.wheel L₀ d B j) →
      ∃ R' B' F' m' u', Sweeping n c s L₀ (s.wheel.ticks (c 0)) R' B' F' m' u' ∧ u'.pc = .outside (some (c 0)) ∧
        ∀ j < n.numSlot_, Rest n s.wheel L₀ (s.wheel.ticks (c 0)) B' j
  | 0, d, R, B, F, m, u, f, hr, h, hp, hf, hi, hdiff, hrest => by
    obtain rfl : d = s.wheel.ticks (c 0) := hr
    exact ⟨R, B, F, m + 1, _, h.outside hc hp (by omega), by rw [hf], hrest⟩
  | r + 1, d, R, B, F, m, u, f, hr, h, hp, hf, hi, hdiff, hrest => by
    have ha := h.advance hc hp (by omega) hi hdiff hk
    have hidx : (u.wheel.turned n).startIdx_ = (s.wheel.startIdx_ + (d + 1)) % n.numSlot_ := ha.startIdx_
    cases hh : u.wheel.slot_ (u.wheel.turned n).startIdx_ with
    | none =>
      rw [hh] at ha
      refine ha.loop hn hc hk (r := r) (by omega) rfl hf (by dsimp only; omega) hdiff fun j hj => ?_
      by_cases he : (s.wheel.startIdx_ + (d + 1)) % n.numSlot_ = j
      · obtain ⟨P, hL, -⟩ := h.hangs
        have hnil := (hL.chain j hj).eq_nil_iff.2 (by rw [hp, ← he, ← hidx]; exact hh)
        exact .here (List.append_eq_nil_iff.1 hnil).2 he
      · exact (hrest j hj).succ he
    | some head =>
      rw [hh] at ha
      obtain ⟨R', F', m', u', hs, hp'⟩ := ha.list hn hc rfl hf (by omega) (by omega) (by omega) hidx rfl
      refine hs.loop hn hc hk (r := r) (by omega) hp' hf (by dsimp only; omega) hdiff fun j hj => ?_
      by_cases he : (s.wheel.startIdx_ + (d + 1)) % n.numSlot_ = j
      · exact .here (by rw [he, Function.update_self]) he
      · have hr := (hrest j hj).succ he
        rw [Rest, Function.update_of_ne (Ne.symm he)]
        exact hr

theorem Sweeping.swept (hc : Calm n c s L₀) (h : Sweeping n c s L₀ (s.wheel.ticks (c 0)) R B F m t)
    (hp : t.pc = .outside (some (c 0))) (hrest : ∀ j < n.numSlot_, Rest n s.wheel L₀ (s.wheel.ticks (c 0)) B j) :
    Swept n c s L₀ m t (fun j => R j ++ B j) F := by
  have hk := hc.ticks_eq
  have h0 := hc.start_
  have hstart := h.start_
  obtain ⟨P, hL, hP⟩ := h.hangs
  rw [hp] at hL
  refine ⟨hp, tockAt_defined h.run hp, hstart, by omega, by omega, h.startIdx_,
    ⟨h.startIdx_lt, hL.chain, hL.nodup, fun j hj x hx => ?_⟩, h.fired, h.once, fun x => ?_, fun x hx hr => ?_,
    fun x hx hr => ?_, h.untouched, fun j hj => ⟨R j, h.back j hj, fun hpass => ?_, fun hpass => ?_⟩, h.numCreated_⟩
  · obtain ⟨hx', hi⟩ := hL.index j hj x hx
    exact ⟨hP x hx', hi, h.pre_eq hc hj hx⟩
  · rw [h.mem_iff x]
    constructor
    · rintro ⟨j, hj, hm, hn⟩
      refine ⟨j, hj, by_contra fun hpass => ?_, hm⟩
      rw [(hrest j hj).2 hpass] at hn
      exact hn hm
    · rintro ⟨j, hj, hpass, hm⟩
      refine ⟨j, hj, hm, ?_⟩
      rw [(hrest j hj).1 hpass]
      exact List.not_mem_nil
  · have hd := h.oneShot x hx hr
    exact ⟨hd, fun j hj hm => (hP x (hL.index j hj x hm).1).2 hd⟩
  · obtain ⟨i, v, g, hi, hv, hg, hm⟩ := h.repeating x hx hr
    exact ⟨i, v, g, hi, hv, hg, List.mem_append_left _ hm⟩
  · rw [(hrest j hj).1 hpass, List.append_nil]
  · rw [(hrest j hj).2 hpass]

/-! ### The counter of the milliseconds -/

/-- The sweep goes on, or the process has ended. -/
def Pc.Endless : Pc → Prop
  | .loop f | .walk f _ | .callback f _ => f.i ≤ INT_MAX ∧ f.diff = INT_MAX
  | .halted _ => True
  | .outside _ => False

theorem endless_incr (hd : f.diff = INT_MAX) : (u.incr f).pc.Endless := by
  rw [State.incr, int]
  split
  · rename_i i hi
    split at hi
    · rename_i hle
      cases hi
      exact ⟨hle.2, hd⟩
    · cases hi
  · trivial

/-- With `INT_MAX` milliseconds to go, `i <= diff` holds for every `int`. -/
theorem endless_step {a : Action} {u' : State} (h : u.pc.Endless) (hs : step n u a = some u') : u'.pc.Endless := by
  obtain ⟨-, hst⟩ := step_cases hs
  cases hst with
  | call hp | tock hp =>
    rw [show u.pc = _ from hp] at h
    exact h.elim
  | callback hp =>
    rw [show u.pc = _ from hp] at h
    rw [State.call]
    split
    · exact h
    · trivial
  | advance hp hi =>
    rw [show u.pc = _ from hp] at h
    rw [State.advance]
    dsimp only
    split
    · exact h
    · exact endless_incr h.2
  | outside hp hi =>
    rw [show u.pc = _ from hp] at h
    exact absurd (h.1.trans_eq h.2.symm) hi
  | run hp =>
    rw [show u.pc = _ from hp] at h
    rw [State.run]
    split
    · split
      · exact h
      · trivial
    · trivial
  | walked hp =>
    rw [show u.pc = _ from hp] at h
    exact endless_incr h.2
  | ret hp =>
    rw [show u.pc = _ from hp] at h
    rw [State.ret]
    split
    · exact h
    · trivial

/-- After `INT_MAX` milliseconds `tock` does not return. -/
theorem Calm.endless (hc : Calm n c s L₀) (hk : s.wheel.ticks (c 0) = INT_MAX) :
    ∀ (m : ℕ) (u : State), tockAt n c s m = some u → u.pc.Endless
  | 0, u, hu => by
    cases hc.begin.run.symm.trans hu
    exact ⟨show (1 : ℤ) ≤ INT_MAX by decide, congrArg Nat.cast hk⟩
  | m + 1, u, hu => by
    rw [tockAt, Option.bind_eq_some_iff] at hu
    obtain ⟨v, hv, hs⟩ := hu
    exact endless_step (hc.endless hk m v hv) hs

/-- `tock` sweeps the slots passed, unless `INT_MAX` milliseconds have passed: its counter overflows then. -/
theorem tock_sweeps (hn : 2 * n.numSlot_ ≤ INT_MAX + 2) (hc : Calm n c s L₀) :
    (∃ m t L F, tockAt n c s m = some t ∧ Swept n c s L₀ m t L F) ↔ s.wheel.ticks (c 0) < INT_MAX := by
  constructor
  · rintro ⟨m, t, L, F, ht, hs⟩
    refine lt_of_le_of_ne hc.ticks fun hk => ?_
    have he := hc.endless hk m t ht
    rw [hs.outside] at he
    exact he
  · intro hk
    have hrest : ∀ j < n.numSlot_, Rest n s.wheel L₀ 0 L₀ j := fun j _ =>
      ⟨fun ⟨e, h1, h2, _⟩ => absurd (h1.trans h2) (by decide), fun _ => rfl⟩
    obtain ⟨R, B, F, m, t, h, hp, hrest⟩ := hc.begin.loop hn hc hk (Nat.zero_add _) rfl rfl rfl rfl hrest
    exact ⟨m, t, _, F, h.run, h.swept hc hp hrest⟩

/-- A slot with a repeating timer and a one-shot one, and a `tock` a good millisecond later. -/
def oneSlot : State where
  wheel :=
    { slot_ := fun j => if j = 1 then some 1 else none
      start_ := 0
      startIdx_ := 0
      timers := fun x =>
        if x = 1 then { Timer.new 1000 0.002 with index_ := 1, next_ := some 0 }
        else { Timer.new 1000 0 with index_ := 1 }
      numCreated_ := 2
      deleted := [] }
  pc := .outside none
  clock := 0
  fired := []
  base := fun _ => 0

/-- The timer whose callback runs. -/
def Pc.called : Pc → Option ℕ
  | .callback _ head => some head
  | .outside _ | .loop _ | .walk _ _ | .halted _ => none

theorem calm_oneSlot : Calm .default (fun _ => 1500) oneSlot fun j => if j = 1 then [1, 0] else [] := by
  have hend : ∀ u ∈ tockAt .default (fun _ => 1500) oneSlot 7, u.pc = .outside (some 1500) := by decide +kernel
  have hsome : (tockAt .default (fun _ => 1500) oneSlot 7).isSome = true := by decide +kernel
  have hdist : ∀ i < 8, ∀ u ∈ tockAt .default (fun _ => 1500) oneSlot i, ∀ x ∈ u.pc.called,
      (u.wheel.timers x).repeat_ = true →
      (addTime 1500 (u.wheel.timers x).interval_ - u.wheel.start_) / 1000 < (60000 : ℕ) := by decide +kernel
  obtain ⟨t, ht⟩ := Option.isSome_iff_exists.1 hsome
  refine ⟨⟨by decide, fun j _ => ?_, fun j _ => ?_, fun j _ x hx => ?_⟩, ⟨none, rfl⟩, by decide, monotone_const,
    by decide, by decide +kernel, fun j _ x hx hr => ?_, fun i u f x hu hp hr => ?_⟩
  · by_cases hj : j = 1
    · subst hj
      exact ⟨rfl, rfl, rfl⟩
    · simp [oneSlot, hj]
  · split <;> simp
  · by_cases hj : j = 1
    · subst hj
      rw [if_pos rfl] at hx
      rcases List.mem_cons.1 hx with rfl | hx
      · exact ⟨by decide, rfl, rfl⟩
      · obtain rfl := List.mem_singleton.1 hx
        exact ⟨by decide, rfl, rfl⟩
    · rw [if_neg hj] at hx
      cases hx
  · by_cases hx1 : x = 1
    · subst hx1
      decide +kernel
    · have hf : (oneSlot.wheel.timers x).repeat_ = false := by
        rw [show oneSlot.wheel.timers x = { Timer.new 1000 0 with index_ := 1 } from if_neg hx1]
        decide +kernel
      rw [hf] at hr
      cases hr
  · rcases Nat.lt_or_ge i 8 with hi | hi
    · exact hdist i hi u hu x (by rw [hp]; rfl) hr
    · have hnone := tockAt_outside ht (hend t ht) (i - 8)
      rw [show 7 + 1 + (i - 8) = i by omega, hu] at hnone
      cases hnone

theorem tock_sweeps_oneSlot : ∃ m t L F, tockAt .default (fun _ => 1500) oneSlot m = some t ∧
    Swept .default (fun _ => 1500) oneSlot (fun j => if j = 1 then [1, 0] else []) m t L F :=
  (tock_sweeps (by decide) calm_oneSlot).2 (by decide +kernel)

/-- In an empty wheel there is no list to walk. -/
def State.Empty (s : State) : Prop := (∀ j, s.wheel.slot_ j = none) ∧ ¬s.pc.Walks

theorem State.Empty.incr (h : ∀ j, s.wheel.slot_ j = none) : (s.incr f).Empty := by
  rw [State.incr]
  split
  · exact ⟨h, id⟩
  · exact ⟨h, id⟩

theorem State.Empty.step {a : Action} {s' : State} (h : s.Empty) (ha : a.move = .next ∨ a.move = .tock)
    (hs : TimeWheel.step n s a = some s') : s'.Empty := by
  obtain ⟨-, hst⟩ := step_cases hs
  cases hst with
  | call _ => exact ha.elim nofun nofun
  | tock _ =>
    rw [State.tock]
    split
    · exact ⟨h.1, id⟩
    · exact ⟨h.1, id⟩
  | @advance now g hp _ =>
    rw [State.advance]
    dsimp only
    rw [h.1]
    exact State.Empty.incr h.1
  | outside _ _ => exact ⟨h.1, id⟩
  | callback hp | run hp | walked hp | ret hp =>
    refine absurd ?_ h.2
    rw [show s.pc = _ from hp]
    trivial

theorem tockAt_empty (h : s.Empty) : ∀ (m : ℕ) (u : State), tockAt n c s m = some u → u.Empty
  | 0, _, hu => h.step (.inr rfl) hu
  | m + 1, u, hu => by
    rw [tockAt, Option.bind_eq_some_iff] at hu
    obtain ⟨v, hv, hs⟩ := hu
    have hv := tockAt_empty h m v hv
    refine hv.step (.inl ?_) hs
    have hw := hv.2
    dsimp only
    rw [State.move]
    cases hp : v.pc with
    | callback g head =>
      rw [hp] at hw
      exact absurd trivial hw
    | outside _ | loop _ | walk _ _ | halted _ => rfl

theorem calm_init : Calm .default (fun _ => 1000 * INT_MAX) (init 0) fun _ => [] := by
  refine ⟨⟨by decide, fun _ _ => rfl, fun _ _ => List.nodup_nil, nofun⟩, ⟨none, rfl⟩, by decide, monotone_const,
    by decide, by decide, nofun, fun i u f x hu hp _ => ?_⟩
  have hw := (tockAt_empty ⟨fun _ => rfl, id⟩ i u hu).2
  rw [hp] at hw
  exact absurd trivial hw

/-- A wheel without timers, and a `tock` after `INT_MAX` milliseconds. -/
theorem not_swept_intMax : Calm .default (fun _ => 1000 * INT_MAX) (init 0) (fun _ => []) ∧
    ¬∃ m t L F, tockAt .default (fun _ => 1000 * INT_MAX) (init 0) m = some t ∧
      Swept .default (fun _ => 1000 * INT_MAX) (init 0) (fun _ => []) m t L F := by
  refine ⟨calm_init, fun ⟨m, t, L, F, ht, hs⟩ => ?_⟩
  have he := calm_init.endless (by decide) m t ht
  rw [hs.outside] at he
  exact he

end Sweeping

end Libeva.TimeWheel
