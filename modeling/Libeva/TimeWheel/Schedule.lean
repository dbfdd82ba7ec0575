import Libeva.TimeWheel.Cancel

/-!
# `runAfter` and `runEvery` from any thread

A call on the reactor's thread adds its timer at once. A call from another thread reads the clock, then compares the
time with `start_` and queues a functor, which adds the timer outside of `tock`, at any later time; so does `cancel`.
When the callback of a repeating timer has returned, `tock` adds it again.

* `slotIndexOf` are the statements of `addTimer` that compute the slot, `insertAt` those that use it.
* `Threads` is the wheel with the other threads; `Turn` are the moves.
* `Scheduled` is what is promised of a move, `Near`, `HeadExists` and `Timed` are the condition.
* `Changes` is what a statement does to the wheel; `State.Lags` and `Within` are kept by it: `start_` is not ahead of
  the clock, and the pointers of the wheel do not reach a timer whose functor is still queued.
-/

namespace Libeva.TimeWheel

variable {n : Buckets} {w : TimeWheel} {x : ℕ} {now when : ℤ}

/-- The statements of `addTimer( Timer*, Timestamp )` up to `slotIndex`. -/
def slotIndexOf (n : Buckets) (w : TimeWheel) (when : ℤ) : Except Halt ℤ := do
  let diff ← castInt (timeDifference when w.start_ * 1000)
  if n.numSlot_ ≤ diff then .error .fatal
  else
    let sum ← int (w.startIdx_ + diff)
    .ok (sum.tmod n.numSlot_)

/-- The statements behind them. -/
def insertAt (n : Buckets) (w : TimeWheel) (timer : ℕ) (slotIndex : ℤ) : Except Halt TimeWheel := do
  let w ← match ← w.slotAt n slotIndex with
    | some head => do
      let h ← w.deref head
      if h.pre_ = none then .ok (w.setNext timer (some head)) else .error .fatal
    | none => .ok w
  .ok ((w.setSlot slotIndex.toNat (some timer)).setIndex timer slotIndex)

theorem addTimerPtr_eq_bind (w : TimeWheel) (timer : ℕ) (when : ℤ) :
    w.addTimerPtr n timer when = w.slotIndexOf n when >>= w.insertAt n timer := by
  rw [addTimerPtr, slotIndexOf]
  cases castInt (timeDifference when w.start_ * 1000) with
  | error e => rfl
  | ok diff =>
    rw [ok_bind, ok_bind]
    split
    · rfl
    · cases int (w.startIdx_ + diff) with
      | error e => rfl
      | ok sum => rfl

/-! ## Other threads -/

/-- What `runInReactor` queues for another thread. -/
inductive PendingFunctor
  | add (timer : ℕ)
  | cancel (timer : ℕ)
  deriving DecidableEq

/-- The wheel of a reactor; what the calls in other threads have computed, a time and an interval; and the functors that
are queued. -/
structure Threads where
  reactor : State
  calls : ℕ → Option (ℤ × ℚ)
  pendingFunctors_ : List PendingFunctor

inductive Turn
  | reactor (o : Op)
  | read (thread : ℕ) (c : Call) (now : ℤ)
  | test (thread : ℕ)
  | cancel (timer : ℕ)
  | functor

/-- The process has not ended. -/
def Pc.Runs : Pc → Prop
  | .outside _ | .loop _ | .walk _ _ | .callback _ _ => True
  | .halted _ => False

instance : (pc : Pc) → Decidable pc.Runs
  | .outside _ | .loop _ | .walk _ _ | .callback _ _ => inferInstanceAs (Decidable True)
  | .halted _ => inferInstanceAs (Decidable False)

/-- The timer that `tock` has reached. -/
def Pc.running : Pc → Option ℕ
  | .walk _ head => head
  | .callback _ head => some head
  | .outside _ | .loop _ | .halted _ => none

namespace Threads

/-- `addTimer( TimerCallback, Timestamp, double )` in another thread. -/
def test (s : Threads) (thread : ℕ) (when : ℤ) (interval : ℚ) : Threads :=
  if when < s.reactor.wheel.start_ then { s with reactor := { s.reactor with pc := .halted .fatal } }
  else { s with
    reactor := { s.reactor with wheel := s.reactor.wheel.new when interval }
    calls := Function.update s.calls thread none
    pendingFunctors_ := s.pendingFunctors_ ++ [.add s.reactor.wheel.numCreated_] }

/-- The functor that adds `timer`. -/
def add (n : Buckets) (s : Threads) (timer : ℕ) (rest : List PendingFunctor) : Threads :=
  match s.reactor.wheel.addTimerInReactor n timer with
  | .ok w => { s with
    reactor := { s.reactor with
      wheel := w, pc := .outside none, base := Function.update s.reactor.base timer s.reactor.wheel.start_ }
    pendingFunctors_ := rest }
  | .error e => { s with reactor := { s.reactor with pc := .halted e } }

/-- The next functor runs. -/
def functor (n : Buckets) (s : Threads) : PendingFunctor → List PendingFunctor → Threads
  | .add timer, rest => s.add n timer rest
  | .cancel timer, rest => { s with reactor := s.reactor.cancel n timer, pendingFunctors_ := rest }

end Threads

/-- One move. -/
def turn (n : Buckets) (s : Threads) : Turn → Option Threads
  | .reactor o => (opStep n s.reactor o).map fun r => { s with reactor := r }
  | .read thread c now =>
    if s.reactor.pc.Runs ∧ s.reactor.clock ≤ now ∧ s.calls thread = none then
      some { s with
        reactor := { s.reactor with clock := now }
        calls := Function.update s.calls thread (some (c.when now, c.interval)) }
    else none
  | .test thread =>
    match s.calls thread with
    | some (when, interval) => if s.reactor.pc.Runs then some (s.test thread when interval) else none
    | none => none
  | .cancel timer =>
    if s.reactor.pc.Runs then some { s with pendingFunctors_ := s.pendingFunctors_ ++ [.cancel timer] } else none
  | .functor =>
    match s.pendingFunctors_, s.reactor.pc with
    | f :: rest, .outside _ => some (s.functor n f rest)
    | _, _ => none

def Threads.init (now : ℤ) : Threads := ⟨TimeWheel.init now, fun _ => none, []⟩

/-- The runs of a wheel that other threads use as well. -/
def sharedWheel (n : Buckets) (now : ℤ) : Lts.System Threads Turn := Lts.ofFun (.init now) (turn n)

/-- A delay that is not negative and less than a turn of the wheel. -/
def Call.InSpan (n : Buckets) : Call → Prop
  | .runAt _ => False
  | .runAfter delay | .runEvery delay => 0 ≤ delay ∧ delay * 1000 < n.numSlot_

/-- `slotIndex` is computed, and is a slot of the wheel. -/
def Indexes (n : Buckets) (w : TimeWheel) (when : ℤ) : Prop :=
  ∃ i, w.slotIndexOf n when = .ok i ∧ 0 ≤ i ∧ i < n.numSlot_

/-- The time with which a move calls `addTimer( Timer*, Timestamp )`. -/
def Threads.adds (s : Threads) : Turn → Option ℤ
  | .reactor (.stmt a) => s.reactor.adds a
  | .functor =>
    match s.pendingFunctors_ with
    | .add timer :: _ => some (s.reactor.wheel.timers timer).expiration_
    | .cancel _ :: _ | [] => none
  | .reactor (.cancel _) | .read _ _ _ | .test _ | .cancel _ => none

/-- The move returns from `addTimer`: it comes to no `LOG_FATAL`, and its behaviour is defined; and `slotIndex` is a
slot of the wheel. -/
def Scheduled (n : Buckets) (x : Threads × Turn × Threads) : Prop :=
  match x.2.1 with
  | .test _ => x.2.2.reactor.pc.Runs
  | .reactor _ | .functor | .read _ _ _ | .cancel _ =>
    ∀ when ∈ x.1.adds x.2.1, x.1.reactor.wheel.Indexes n when ∧ x.2.2.reactor.pc.Runs

/-- The time is less than a turn ahead of `start_`, and not further behind than `startIdx_` slots; or it is behind, and
the slot happens to be slot 0. -/
def Near (n : Buckets) (w : TimeWheel) (when : ℤ) : Prop :=
  (w.start_ - 1000 * (w.startIdx_ + 1) < when ∧ when < w.start_ + 1000 * n.numSlot_) ∨
    (when < w.start_ ∧ -(INT_MAX : ℤ) - 1 ≤ (when - w.start_).tdiv 1000 ∧
      (n.numSlot_ : ℤ) ∣ w.startIdx_ + (when - w.start_).tdiv 1000)

/-- The timer to which the slot of a time points has not been deleted. -/
def HeadExists (n : Buckets) (w : TimeWheel) (when : ℤ) : Prop :=
  ∀ head ∈ w.slot_ ((w.startIdx_ + (when - w.start_).tdiv 1000).tmod n.numSlot_).toNat, head ∉ w.deleted

/-- A time that the reactor's thread has just computed is less than a turn ahead of `start_`; when another thread
compares, `start_` is not after the time; when a functor runs, the time is near; and the head of the slot exists. -/
def Timed (n : Buckets) (s : Threads) : Turn → Prop
  | .reactor (.stmt ⟨now, .call c⟩) =>
    c.when now < s.reactor.wheel.start_ + 1000 * n.numSlot_ ∧ s.reactor.wheel.HeadExists n (c.when now)
  | .reactor (.stmt ⟨now, .ret⟩) => ∀ when ∈ s.reactor.adds ⟨now, .ret⟩,
    when < s.reactor.wheel.start_ + 1000 * n.numSlot_ ∧ s.reactor.wheel.HeadExists n when ∧
      ∀ head ∈ s.reactor.pc.running, head ∉ s.reactor.wheel.deleted
  | .test thread => ∀ p ∈ s.calls thread, s.reactor.wheel.start_ ≤ p.1
  | .functor => ∀ when ∈ s.adds .functor, s.reactor.wheel.Near n when ∧ s.reactor.wheel.HeadExists n when
  | .reactor (.stmt ⟨_, .tock⟩) | .reactor (.stmt ⟨_, .next⟩) | .reactor (.cancel _) | .read _ _ _ | .cancel _ => True

/-! ## The slot of a time -/

theorem trunc_timeDifference_tdiv (high low : ℤ) : trunc (timeDifference high low * 1000) = (high - low).tdiv 1000 := by
  rcases le_or_gt low high with h | h
  · rw [trunc_timeDifference h, Int.tdiv_eq_ediv_of_nonneg (sub_nonneg.2 h)]
  · have hneg : timeDifference high low * 1000 = -(timeDifference low high * 1000) := by
      unfold timeDifference
      push_cast
      ring
    have hpos : 0 < timeDifference low high * 1000 := by
      have h1 : (0 : ℚ) < ((low - high : ℤ) : ℚ) := Int.cast_pos.2 (sub_pos.2 h)
      unfold timeDifference kMicroSecondsPerSecond
      positivity
    have hfloor := trunc_timeDifference h.le
    rw [trunc, if_pos hpos.le] at hfloor
    rw [hneg, trunc, if_neg (by linarith), Int.ceil_neg, hfloor, ← neg_sub low high, Int.neg_tdiv,
      Int.tdiv_eq_ediv_of_nonneg (sub_nonneg.2 h.le)]

/-- The remainder of a negative number is negative, or zero. -/
theorem tmod_nonneg_iff {a b : ℤ} (ha : a < 0) (hb : 0 < b) : 0 ≤ a.tmod b ↔ b ∣ a := by
  obtain ⟨c, rfl⟩ : ∃ c, a = -c := ⟨-a, (neg_neg a).symm⟩
  have hc : 0 ≤ c := by omega
  have hmod := Int.emod_nonneg c hb.ne'
  rw [Int.neg_tmod, Int.tmod_eq_emod_of_nonneg hc, dvd_neg, Int.dvd_iff_emod_eq_zero]
  omega

theorem int_eq_ok {a b : ℤ} : int a = .ok b ↔ (-(INT_MAX : ℤ) - 1 ≤ a ∧ a ≤ INT_MAX) ∧ a = b := by
  rw [int]
  split
  · rename_i h
    exact ⟨fun he => ⟨h, Except.ok.inj he⟩, fun he => congrArg _ he.2⟩
  · rename_i h
    exact ⟨fun he => (by cases he), fun he => absurd he.1 h⟩

/-- The `int`s of `slotIndex`. -/
theorem indexes_iff_ms (hn : 2 * n.numSlot_ ≤ INT_MAX + 2) (hlt : w.startIdx_ < n.numSlot_) {ms : ℤ}
    (hms : (when - w.start_).tdiv 1000 = ms) :
    w.Indexes n when ↔ ms < n.numSlot_ ∧ -(INT_MAX : ℤ) - 1 ≤ ms ∧
      (0 ≤ w.startIdx_ + ms ∨ (n.numSlot_ : ℤ) ∣ w.startIdx_ + ms) := by
  have hpos : (0 : ℤ) < n.numSlot_ := Int.natCast_pos.2 n.pos
  have hle := n.le
  rw [Indexes, slotIndexOf, castInt, trunc_timeDifference_tdiv, hms]
  constructor
  · rintro ⟨i, hi, h0, -⟩
    obtain ⟨diff, hd, hi⟩ := bind_eq_ok.1 hi
    obtain ⟨⟨hd1, hd2⟩, rfl⟩ := int_eq_ok.1 hd
    split at hi
    · cases hi
    · rename_i hms
      obtain ⟨sum, hs, hi⟩ := bind_eq_ok.1 hi
      obtain ⟨-, rfl⟩ := int_eq_ok.1 hs
      cases hi
      refine ⟨not_le.1 hms, hd1, ?_⟩
      rcases lt_or_ge (w.startIdx_ + ms) 0 with h | h
      · exact .inr ((tmod_nonneg_iff h hpos).1 h0)
      · exact .inl h
  · rintro ⟨h1, h2, h3⟩
    have hint : int ms = .ok ms := int_eq_ok.2 ⟨⟨h2, by omega⟩, rfl⟩
    have hsum : int (w.startIdx_ + ms) = .ok (w.startIdx_ + ms) := int_eq_ok.2 ⟨⟨by omega, by omega⟩, rfl⟩
    refine ⟨(w.startIdx_ + ms).tmod n.numSlot_, ?_, ?_, Int.tmod_lt_of_pos _ hpos⟩
    · rw [hint, ok_bind, if_neg (not_le.2 h1), hsum, ok_bind]
    · rcases lt_or_ge (w.startIdx_ + ms) 0 with h | h
      · exact (tmod_nonneg_iff h hpos).2 (h3.resolve_left (not_le.2 h))
      · exact Int.tmod_nonneg _ h

theorem indexes_iff (hn : 2 * n.numSlot_ ≤ INT_MAX + 2) (hlt : w.startIdx_ < n.numSlot_) :
    w.Indexes n when ↔ w.Near n when := by
  have hle := n.le
  rw [Near]
  obtain ⟨ms, hms⟩ : ∃ ms, (when - w.start_).tdiv 1000 = ms := ⟨_, rfl⟩
  rw [indexes_iff_ms hn hlt hms, hms]
  rcases le_or_gt w.start_ when with h | h
  · rw [Int.tdiv_eq_ediv_of_nonneg (sub_nonneg.2 h)] at hms
    constructor
    · rintro ⟨h1, -, -⟩
      exact .inl ⟨by omega, by omega⟩
    · rintro (⟨-, h2⟩ | ⟨h1, -, -⟩)
      · exact ⟨by omega, by omega, .inl (by omega)⟩
      · exact absurd h (not_le.2 h1)
  · rw [← neg_sub, Int.neg_tdiv, Int.tdiv_eq_ediv_of_nonneg (sub_nonneg.2 h.le)] at hms
    have hpos := n.pos
    constructor
    · rintro ⟨-, h2, h3 | h3⟩
      · exact .inl ⟨by omega, by omega⟩
      · exact .inr ⟨h, h2, h3⟩
    · rintro (⟨h1, -⟩ | ⟨-, h2, h3⟩)
      · exact ⟨by omega, by omega, .inl (by omega)⟩
      · exact ⟨by omega, h2, .inr h3⟩

/-- A time that is not behind `start_` is near when it is less than a turn ahead. -/
theorem near_iff_of_le (h : w.start_ ≤ when) : w.Near n when ↔ when < w.start_ + 1000 * n.numSlot_ := by
  constructor
  · rintro (⟨-, h2⟩ | ⟨h1, -⟩)
    · exact h2
    · exact absurd h (not_le.2 h1)
  · exact fun h2 => .inl ⟨by omega, h2⟩

/-! ## `addTimer` returns -/

theorem slotIndexOf_ok {i : ℤ} (h : w.slotIndexOf n when = .ok i) :
    i = (w.startIdx_ + (when - w.start_).tdiv 1000).tmod n.numSlot_ := by
  obtain ⟨diff, hd, h⟩ := bind_eq_ok.1 h
  rw [castInt, trunc_timeDifference_tdiv] at hd
  obtain ⟨-, rfl⟩ := int_eq_ok.1 hd
  split at h
  · cases h
  · obtain ⟨sum, hs, h⟩ := bind_eq_ok.1 h
    obtain ⟨-, rfl⟩ := int_eq_ok.1 hs
    cases h
    rfl

/-- The timer becomes a head, in front of what the slot has pointed to, if anything. -/
theorem insertAt_ok {w' : TimeWheel} {i : ℤ} (h : w.insertAt n x i = .ok w') :
    (0 ≤ i ∧ i < n.numSlot_ ∧ ∀ head ∈ w.slot_ i.toNat, w.Live head) ∧
      ∃ next, (next = w.getNext x ∨ next = w.slot_ i.toNat) ∧
        w' = ((w.setNext x next).setSlot i.toNat (some x)).setIndex x i := by
  obtain ⟨top, ht, h⟩ := bind_eq_ok.1 h
  rw [slotAt] at ht
  split at ht
  · rename_i hi
    cases ht
    cases hh : w.slot_ i.toNat with
    | none =>
      rw [hh] at h
      cases h
      refine ⟨⟨hi.1, hi.2, fun _ hy => by cases hy⟩, _, .inl rfl, ?_⟩
      rw [setNext, getNext, Function.update_eq_self]
    | some head =>
      rw [hh] at h
      obtain ⟨t, hd, h⟩ := bind_eq_ok.1 h
      rw [deref] at hd
      split at hd
      · rename_i hlive
        split at h
        · cases h
          refine ⟨⟨hi.1, hi.2, fun y hy => ?_⟩, _, .inr rfl, rfl⟩
          cases hy
          exact hlive
        · cases h
      · cases hd
  · cases ht

theorem insertAt_isOk {i : ℤ} (hpre : ∀ y, (w.timers y).pre_ = none) (h0 : 0 ≤ i) (h1 : i < n.numSlot_)
    (hlive : ∀ head ∈ w.slot_ i.toNat, w.Live head) : ∃ w', w.insertAt n x i = .ok w' := by
  rw [insertAt, slotAt, if_pos ⟨h0, h1⟩, ok_bind]
  cases hh : w.slot_ i.toNat with
  | none => exact ⟨_, rfl⟩
  | some head =>
    simp only [deref, if_pos (hlive head hh), ok_bind, if_pos (hpre head)]
    exact ⟨_, rfl⟩

/-- No timer has a `pre_`, so what is left is whether the head can be read. -/
theorem addTimerPtr_isOk (hpre : ∀ y, (w.timers y).pre_ = none)
    (hslot : ∀ j y, w.slot_ j = some y → y < w.numCreated_) :
    (∃ w', w.addTimerPtr n x when = .ok w') ↔ w.Indexes n when ∧ w.HeadExists n when := by
  rw [addTimerPtr_eq_bind]
  constructor
  · rintro ⟨w', h⟩
    obtain ⟨i, hi, h⟩ := bind_eq_ok.1 h
    obtain ⟨⟨h0, h1, hlive⟩, -⟩ := insertAt_ok h
    refine ⟨⟨i, hi, h0, h1⟩, fun head hh => ?_⟩
    rw [← slotIndexOf_ok hi] at hh
    exact (hlive head hh).2
  · rintro ⟨⟨i, hi, h0, h1⟩, hexists⟩
    rw [HeadExists, ← slotIndexOf_ok hi] at hexists
    rw [hi, ok_bind]
    exact insertAt_isOk hpre h0 h1 fun head hh => ⟨hslot _ _ hh, hexists head hh⟩

/-! ## What a statement does to the wheel -/

/-- A timer without a `pre_` is cancelled as the head of a slot, or not at all. -/
theorem cancelInReactor_ok {w' : TimeWheel} (hpre : (w.timers x).pre_ = none) (h : w.cancelInReactor n x = .ok w') :
    ∃ j, w.slot_ j = some x ∧ w' = (w.setSlot j (w.getNext x)).delete x := by
  obtain ⟨t, ht, h⟩ := bind_eq_ok.1 h
  rw [deref] at ht
  split at ht
  · cases ht
    obtain ⟨head, hg, h⟩ := bind_eq_ok.1 h
    rw [slotGet] at hg
    split at hg
    · cases hg
      split at h
      · rename_i hh
        cases h
        exact ⟨_, hh, rfl⟩
      · obtain ⟨pre, hp, -⟩ := bind_eq_ok.1 h
        rw [hpre] at hp
        cases hp
    · cases hg
  · cases ht

/-- A move of the reactor's thread is a statement or a `cancel`. -/
theorem opStep_cases {s s' : State} {o : Op} (hs : opStep n s o = some s') :
    (∃ a, o = .stmt a ∧ s.clock ≤ a.now ∧ Stmt n { s with clock := a.now } a s') ∨
      ∃ timer, o = .cancel timer ∧ s' = s.cancel n timer := by
  cases o with
  | stmt a => exact .inl ⟨a, rfl, step_cases hs⟩
  | cancel timer =>
    rw [opStep] at hs
    split at hs
    · cases hs
      exact .inr ⟨timer, rfl, rfl⟩
    · cases hs
      exact .inr ⟨timer, rfl, rfl⟩
    · cases hs
    · cases hs
    · cases hs

/-- The wheel that follows `w`, when `tock` has reached `running`. -/
inductive Changes (w : TimeWheel) (running : Option ℕ) : TimeWheel → Prop
  | turned {w' : TimeWheel} : w'.timers = w.timers → w'.numCreated_ = w.numCreated_ → w'.deleted = w.deleted →
    (∀ j y, w'.slot_ j = some y → w.slot_ j = some y) → Changes w running w'
  | created (when : ℤ) (interval : ℚ) (j : ℕ) : Changes w running ((w.new when interval).push w.numCreated_ j)
  | again (x j : ℕ) : running = some x → Changes w running ((w.setNext x none).push x j)
  | ran (x : ℕ) : running = some x → Changes w running ((w.setNext x none).delete x)
  | cancelled (x j : ℕ) : w.slot_ j = some x → Changes w running ((w.setSlot j (w.getNext x)).delete x)

section Changes

variable {s s' : State} {a : Action} {w' : TimeWheel} {running : Option ℕ} {f : Sweep} {j : ℕ} {P Q : ℕ → Prop}

theorem slot_setSlot (top : Option ℕ) (i : ℕ) : (w.setSlot j top).slot_ i = if i = j then top else w.slot_ i :=
  Function.update_apply ..

theorem slot_push (i : ℕ) : (w.push x j).slot_ i = if i = j then some x else w.slot_ i := Function.update_apply ..

theorem timers_setIndex (i : ℤ) (y : ℕ) :
    (w.setIndex x i).timers y = if y = x then { w.timers x with index_ := i } else w.timers y :=
  Function.update_apply ..

theorem Changes.refl : Changes w running w := .turned rfl rfl rfl fun _ _ h => h

theorem changes_incr (hw : Changes w running s.wheel) : Changes w running (s.incr f).wheel := by
  rw [State.incr]
  split
  · exact hw
  · exact hw

/-- One statement. -/
theorem Stmt.changes (hs : Stmt n s a s') : Changes s.wheel s.pc.running s'.wheel := by
  cases hs with
  | call hp | callback hp =>
    rw [State.call]
    split
    · rename_i w hw
      obtain ⟨j, -, rfl⟩ := addTimer_ok hw
      exact .created _ _ _
    · exact .refl
  | tock hp =>
    rw [State.tock]
    split
    · exact .refl
    · exact .refl
  | advance hp hi =>
    rw [State.advance]
    dsimp only
    split
    · exact .turned rfl rfl rfl fun _ _ h => h
    · exact changes_incr (.turned rfl rfl rfl fun _ _ h => h)
  | outside hp hi => exact .refl
  | run hp =>
    rw [State.run]
    split
    · split
      · exact .refl
      · exact .refl
    · exact .refl
  | walked hp =>
    refine changes_incr (.turned rfl rfl rfl fun j y h => ?_)
    have h := (slot_setSlot none j).symm.trans h
    split at h
    · cases h
    · exact h
  | @ret now f head hp =>
    have hr : s.pc.running = some head := by
      rw [hp]
      rfl
    rw [State.ret]
    split
    · rename_i w next hw
      obtain ⟨-, rfl | ⟨j, -, rfl⟩⟩ := afterRun_ok hw
      · exact .ran _ hr
      · exact .again _ _ hr
    · exact .refl

theorem running_incr : (s.incr f).pc.running = none := by
  rw [State.incr]
  split
  · rfl
  · rfl

/-- `tock` reaches a timer from a slot, or from the timer in front of it. -/
theorem Stmt.running_cases (hs : Stmt n s a s') (hx : s'.pc.running = some x) :
    s.pc.running = some x ∨ (∃ j, s.wheel.slot_ j = some x) ∨ ∃ y, s.wheel.getNext y = some x := by
  cases hs with
  | call hp =>
    rw [State.call] at hx
    split at hx
    · cases hx
    · cases hx
  | callback hp =>
    rw [State.call] at hx
    split at hx
    · exact .inl (hp ▸ hx)
    · cases hx
  | tock hp =>
    rw [State.tock] at hx
    split at hx
    · cases hx
    · cases hx
  | advance hp hi =>
    rw [State.advance] at hx
    dsimp only at hx
    split at hx
    · rename_i head hh
      cases hx
      exact .inr (.inl ⟨_, hh⟩)
    · rw [running_incr] at hx
      cases hx
  | outside hp hi => cases hx
  | run hp =>
    rw [State.run] at hx
    split at hx
    · split at hx
      · exact .inl (hp ▸ hx)
      · cases hx
    · cases hx
  | walked hp =>
    rw [running_incr] at hx
    cases hx
  | ret hp =>
    rw [State.ret] at hx
    split at hx
    · rename_i w next hw
      obtain ⟨rfl, -⟩ := afterRun_ok hw
      exact .inr (.inr ⟨_, hx⟩)
    · cases hx

theorem Changes.numCreated_le (h : Changes w running w') : w.numCreated_ ≤ w'.numCreated_ := by
  cases h with
  | turned _ hn _ _ => exact hn.ge
  | created when interval j => exact Nat.le_succ _
  | again x j _ | ran x _ | cancelled x j _ => exact le_rfl

theorem Sound.setIndex {i : ℤ} (h : w.Sound) : (w.setIndex x i).Sound := by
  intro y
  rw [timers_setIndex]
  split
  · exact h x
  · exact h y

theorem Sound.changes (h : w.Sound) (hc : Changes w running w') : w'.Sound := by
  cases hc with
  | turned ht _ _ _ =>
    intro y
    rw [ht]
    exact h y
  | created when interval j => exact h.new.push
  | again x j _ => exact (h.setNext none).push
  | ran x _ => exact h.setNext none
  | cancelled x j _ => exact h

/-- The timers that the wheel points to, and those that it has deleted. -/
structure Within (w : TimeWheel) (P : ℕ → Prop) : Prop where
  slot : ∀ j y, w.slot_ j = some y → P y
  next : ∀ x y, w.getNext x = some y → P y
  deleted : ∀ y ∈ w.deleted, P y

theorem Within.mono (h : w.Within P) (hPQ : ∀ y, P y → Q y) : w.Within Q :=
  ⟨fun j y hy => hPQ y (h.slot j y hy), fun x y hy => hPQ y (h.next x y hy), fun y hy => hPQ y (h.deleted y hy)⟩

theorem Within.setNext {next : Option ℕ} (h : w.Within P) (hn : ∀ y, next = some y → P y) :
    (w.setNext x next).Within P := by
  refine ⟨h.slot, fun z y hy => ?_, h.deleted⟩
  rw [getNext, timers_setNext] at hy
  split at hy
  · exact hn y hy
  · exact h.next z y hy

theorem Within.setSlot {top : Option ℕ} (h : w.Within P) (ht : ∀ y, top = some y → P y) :
    (w.setSlot j top).Within P := by
  refine ⟨fun i y hy => ?_, h.next, h.deleted⟩
  rw [slot_setSlot] at hy
  split at hy
  · exact ht y hy
  · exact h.slot i y hy

theorem Within.setIndex {i : ℤ} (h : w.Within P) : (w.setIndex x i).Within P := by
  refine ⟨h.slot, fun z y hy => ?_, h.deleted⟩
  rw [getNext, timers_setIndex] at hy
  split at hy
  · exact h.next x y hy
  · exact h.next z y hy

theorem Within.push (h : w.Within P) (hx : P x) : (w.push x j).Within P := by
  refine ⟨fun i y hy => ?_, fun z y hy => ?_, h.deleted⟩
  · rw [slot_push] at hy
    split at hy
    · cases hy
      exact hx
    · exact h.slot i y hy
  · rw [getNext, timers_push] at hy
    split at hy
    · exact h.slot j y hy
    · exact h.next z y hy

theorem Within.new {interval : ℚ} (h : w.Within P) : (w.new when interval).Within P := by
  refine ⟨h.slot, fun z y hy => ?_, h.deleted⟩
  rw [getNext, timers_new] at hy
  split at hy
  · cases hy
  · exact h.next z y hy

theorem Within.delete (h : w.Within P) (hx : P x) : (w.delete x).Within P := by
  refine ⟨h.slot, h.next, fun y hy => ?_⟩
  rcases List.mem_cons.1 hy with rfl | hy
  · exact hx
  · exact h.deleted y hy

theorem Within.changes (h : w.Within P) (hr : ∀ y, running = some y → P y) (hc : Changes w running w')
    (hnew : w.numCreated_ < w'.numCreated_ → P w.numCreated_) : w'.Within P := by
  cases hc with
  | turned ht _ hd hs =>
    refine ⟨fun j y hy => h.slot j y (hs j y hy), fun z y hy => ?_, fun y hy => ?_⟩
    · rw [getNext, ht] at hy
      exact h.next z y hy
    · rw [hd] at hy
      exact h.deleted y hy
  | created when interval j => exact h.new.push (hnew (Nat.lt_succ_self _))
  | again x j hx => exact (h.setNext fun _ hy => by cases hy).push (hr x hx)
  | ran x hx => exact (h.setNext fun _ hy => by cases hy).delete (hr x hx)
  | cancelled x j hx => exact (h.setSlot fun y hy => h.next x y hy).delete (h.slot j x hx)

end Changes

/-! ## `start_` is not ahead of the clock -/

/-- What `tock` has still to add to `start_` ends before the reading of the clock. -/
def Pc.Lags (start clock : ℤ) : Pc → Prop
  | .outside _ => start ≤ clock
  | .loop f => f.now ≤ clock ∧ f.i ≤ f.diff + 1 ∧ start + 1000 * (f.diff + 1 - f.i) ≤ f.now
  | .walk f _ | .callback f _ => f.now ≤ clock ∧ f.i ≤ f.diff ∧ start + 1000 * (f.diff - f.i) ≤ f.now
  | .halted _ => True

structure State.Lags (n : Buckets) (s : State) : Prop where
  startIdx_lt : s.wheel.startIdx_ < n.numSlot_
  lags : s.pc.Lags s.wheel.start_ s.clock

section Lags

variable {s s' : State} {a : Action} {c : Call} {f : Sweep} {pc : Pc} {head : ℕ}

theorem Pc.Lags.mono {start clock clock' : ℤ} (h : pc.Lags start clock) (hc : clock ≤ clock') :
    pc.Lags start clock' := by
  cases pc with
  | outside last => exact le_trans h hc
  | loop f | walk f head | callback f head => exact ⟨h.1.trans hc, h.2⟩
  | halted e => trivial

theorem Pc.Lags.le {start clock : ℤ} (h : pc.Lags start clock) (hr : pc.Runs) : start ≤ clock := by
  cases pc with
  | outside last => exact h
  | loop f | walk f head | callback f head =>
    obtain ⟨h1, h2, h3⟩ := h
    omega
  | halted e => exact hr.elim

theorem State.Lags.of (h : s.Lags n) (hp : s.pc = pc) : pc.Lags s.wheel.start_ s.clock := hp ▸ h.lags

theorem State.Lags.call (h : s.Lags n) (hp : pc.Lags s.wheel.start_ s.clock) : (s.call n c now pc).Lags n := by
  rw [State.call]
  split
  · rename_i w hw
    obtain ⟨j, -, rfl⟩ := addTimer_ok hw
    exact ⟨h.startIdx_lt, hp⟩
  · exact ⟨h.startIdx_lt, trivial⟩

theorem State.Lags.incr (hlt : s.wheel.startIdx_ < n.numSlot_)
    (hp : (Pc.walk f none).Lags s.wheel.start_ s.clock) : (s.incr f).Lags n := by
  obtain ⟨h1, h2, h3⟩ := hp
  rw [State.incr]
  split
  · rename_i i hi
    obtain ⟨-, rfl⟩ := int_eq_ok.1 hi
    exact ⟨hlt, h1, by dsimp only; omega, by dsimp only; omega⟩
  · exact ⟨hlt, trivial⟩

theorem State.Lags.advance (h : s.Lags n) (hp : s.pc = .loop f) (hi : f.i ≤ f.diff) : (s.advance n f).Lags n := by
  have hlt : (s.wheel.startIdx_ + 1) % n.numSlot_ < n.numSlot_ := Nat.mod_lt _ n.pos
  have hl : (Pc.walk f none).Lags (addTime s.wheel.start_ 0.001) s.clock := by
    obtain ⟨h1, -, h3⟩ := h.of hp
    rw [addTime_slot]
    exact ⟨h1, hi, by omega⟩
  rw [State.advance]
  dsimp only
  split
  · exact ⟨hlt, hl⟩
  · exact State.Lags.incr hlt hl

theorem State.Lags.ret (h : s.Lags n) (hp : s.pc = .callback f head) : (s.ret n f head now).Lags n := by
  have hl := h.of hp
  rw [State.ret]
  split
  · rename_i w next hw
    obtain ⟨-, rfl | ⟨j, -, rfl⟩⟩ := afterRun_ok hw
    · exact ⟨h.startIdx_lt, hl⟩
    · exact ⟨h.startIdx_lt, hl⟩
  · exact ⟨h.startIdx_lt, trivial⟩

theorem State.Lags.tock (h : s.Lags n) {last : Option ℤ} (hp : s.pc = .outside last) (hc : s.clock = now) :
    (s.tock now).Lags n := by
  have hl : s.wheel.start_ ≤ now := hc ▸ h.of hp
  rw [State.tock, castInt, trunc_timeDifference hl]
  split
  · rename_i diff hd
    obtain ⟨-, rfl⟩ := int_eq_ok.1 hd
    exact ⟨h.startIdx_lt, hc.ge, by dsimp only; omega, by dsimp only; omega⟩
  · exact ⟨h.startIdx_lt, trivial⟩

/-- One statement keeps `start_` behind the clock. -/
theorem State.Lags.stmt (h : s.Lags n) (hnow : s.clock = a.now) (hs : Stmt n s a s') : s'.Lags n := by
  cases hs with
  | call hp =>
    have hl := h.of hp
    exact h.call hl
  | callback hp => exact h.call (h.of hp)
  | tock hp => exact h.tock hp hnow
  | advance hp hi => exact h.advance hp hi
  | @outside now f hp hi =>
    obtain ⟨h1, h2, h3⟩ := h.of hp
    exact ⟨h.startIdx_lt, show s.wheel.start_ ≤ s.clock by omega⟩
  | run hp =>
    have hl := h.of hp
    rw [State.run]
    split
    · split
      · exact ⟨h.startIdx_lt, hl⟩
      · exact ⟨h.startIdx_lt, trivial⟩
    · exact ⟨h.startIdx_lt, trivial⟩
  | walked hp => exact State.Lags.incr h.startIdx_lt (h.of hp)
  | ret hp => exact h.ret hp

theorem State.Lags.clock (h : s.Lags n) (hc : s.clock ≤ now) : State.Lags n { s with clock := now } :=
  ⟨h.startIdx_lt, h.lags.mono hc⟩

theorem State.Lags.cancel (h : s.Lags n) (hpre : ∀ y, (s.wheel.timers y).pre_ = none) : (s.cancel n x).Lags n := by
  rw [State.cancel]
  split
  · rename_i w hw
    obtain ⟨j, -, rfl⟩ := cancelInReactor_ok (hpre x) hw
    exact ⟨h.startIdx_lt, h.lags⟩
  · exact ⟨h.startIdx_lt, trivial⟩

theorem State.Lags.op {o : Op} (h : s.Lags n) (hpre : ∀ y, (s.wheel.timers y).pre_ = none)
    (hs : opStep n s o = some s') : s'.Lags n := by
  rcases opStep_cases hs with ⟨a, -, hc, hst⟩ | ⟨timer, -, rfl⟩
  · exact (h.clock hc).stmt rfl hst
  · exact h.cancel hpre

end Lags

/-! ## The invariant -/

/-- The timer has been created, and no functor that adds it is queued. -/
def Threads.Handed (s : Threads) (x : ℕ) : Prop :=
  x < s.reactor.wheel.numCreated_ ∧ PendingFunctor.add x ∉ s.pendingFunctors_

/-- A timer has one functor at most, and the wheel does not know it before. -/
structure Threads.Inv (n : Buckets) (s : Threads) : Prop where
  lags : s.reactor.Lags n
  sound : s.reactor.wheel.Sound
  within : s.reactor.wheel.Within s.Handed
  running : ∀ x, s.reactor.pc.running = some x → s.Handed x
  queued : ∀ x, PendingFunctor.add x ∈ s.pendingFunctors_ → x < s.reactor.wheel.numCreated_
  once : s.pendingFunctors_.Pairwise fun f g => ∀ x, f = .add x → g ≠ .add x

section Inv

variable {s s' : Threads} {a : Turn} {o : Op} {f : PendingFunctor} {rest : List PendingFunctor} {timer : ℕ}

theorem Threads.Inv.pre (h : s.Inv n) (y : ℕ) : (s.reactor.wheel.timers y).pre_ = none := (h.sound y).1

theorem Threads.Inv.created (h : s.Inv n) : ∀ y ∈ s.reactor.wheel.deleted, y < s.reactor.wheel.numCreated_ :=
  fun y hy => (h.within.deleted y hy).1

/-- A timer that waits for its functor exists. -/
theorem Threads.Inv.live (h : s.Inv n) (hm : .add x ∈ s.pendingFunctors_) : s.reactor.wheel.Live x :=
  ⟨h.queued x hm, fun hd => (h.within.deleted x hd).2 hm⟩

/-- A move of the reactor's thread that changes its wheel and the timer that `tock` has reached, but not the queue. -/
theorem Threads.Inv.changes {r : State} (h : s.Inv n) (hl : r.Lags n)
    (hc : Changes s.reactor.wheel s.reactor.pc.running r.wheel)
    (hr : ∀ x, r.pc.running = some x → s.reactor.pc.running = some x ∨ (∃ j, s.reactor.wheel.slot_ j = some x) ∨
      ∃ y, s.reactor.wheel.getNext y = some x) : Threads.Inv n { s with reactor := r } := by
  have hle := hc.numCreated_le
  have hmono : ∀ x, s.Handed x → Threads.Handed { s with reactor := r } x := fun x hx => ⟨hx.1.trans_le hle, hx.2⟩
  have hw := h.within.mono hmono
  have hrun : ∀ x, s.reactor.pc.running = some x → Threads.Handed { s with reactor := r } x :=
    fun x hx => hmono x (h.running x hx)
  refine ⟨hl, h.sound.changes hc, hw.changes hrun hc fun hlt => ?_, fun x hx => ?_,
    fun x hx => (h.queued x hx).trans_le hle, h.once⟩
  · exact ⟨hlt, fun hm => lt_irrefl _ (h.queued _ hm)⟩
  · rcases hr x hx with hx | ⟨j, hx⟩ | ⟨y, hx⟩
    · exact hrun x hx
    · exact hw.slot j x hx
    · exact hw.next y x hx

theorem Threads.Inv.cancel (h : s.Inv n) : Threads.Inv n { s with reactor := s.reactor.cancel n timer } := by
  have hl := h.lags.cancel (x := timer) h.pre
  rw [State.cancel] at hl ⊢
  split
  · rename_i w hw
    obtain ⟨j, hj, rfl⟩ := cancelInReactor_ok (h.pre timer) hw
    exact h.changes (by simpa only [hw] using hl) (.cancelled timer j hj) fun x hx => .inl hx
  · exact h.changes ⟨h.lags.startIdx_lt, trivial⟩ .refl fun x hx => by cases hx

theorem Threads.Inv.op {r : State} (h : s.Inv n) (hs : opStep n s.reactor o = some r) :
    Threads.Inv n { s with reactor := r } := by
  have hl := h.lags.op h.pre hs
  rcases opStep_cases hs with ⟨a, -, -, hst⟩ | ⟨timer, -, rfl⟩
  · exact h.changes hl hst.changes fun x => hst.running_cases
  · exact h.cancel

/-- A longer queue, or a shorter one. -/
theorem Threads.Inv.queue {q : List PendingFunctor} (h : s.Inv n)
    (hq : ∀ x, PendingFunctor.add x ∈ q → .add x ∈ s.pendingFunctors_)
    (ho : q.Pairwise fun f g => ∀ x, f = .add x → g ≠ .add x) :
    Threads.Inv n { s with pendingFunctors_ := q } := by
  have hmono : ∀ x, s.Handed x → Threads.Handed { s with pendingFunctors_ := q } x :=
    fun x hx => ⟨hx.1, fun hm => hx.2 (hq x hm)⟩
  exact ⟨h.lags, h.sound, h.within.mono hmono, fun x hx => hmono x (h.running x hx), fun x hx => h.queued x (hq x hx),
    ho⟩

theorem Threads.Inv.test {thread : ℕ} {interval : ℚ} (h : s.Inv n) : (s.test thread when interval).Inv n := by
  rw [Threads.test]
  split
  · exact h.changes ⟨h.lags.startIdx_lt, trivial⟩ .refl fun x hx => by cases hx
  · have hmono : ∀ x, s.Handed x → x < s.reactor.wheel.numCreated_ + 1 ∧
        PendingFunctor.add x ∉ s.pendingFunctors_ ++ [.add s.reactor.wheel.numCreated_] := by
      rintro x ⟨hlt, hx⟩
      refine ⟨hlt.trans (Nat.lt_succ_self _), fun hm => ?_⟩
      rcases List.mem_append.1 hm with hm | hm
      · exact hx hm
      · cases List.mem_singleton.1 hm
        exact lt_irrefl _ hlt
    refine ⟨⟨h.lags.startIdx_lt, h.lags.lags⟩, h.sound.new, h.within.new.mono hmono,
      fun x hx => hmono x (h.running x hx), fun x hx => ?_, ?_⟩
    · rcases List.mem_append.1 hx with hx | hx
      · exact (h.queued x hx).trans (Nat.lt_succ_self _)
      · cases List.mem_singleton.1 hx
        exact Nat.lt_succ_self _
    · refine List.pairwise_append.2 ⟨h.once, List.pairwise_singleton _ _, fun f hf g hg x he hx => ?_⟩
      subst he
      rw [List.mem_singleton.1 hg] at hx
      cases hx
      exact lt_irrefl _ (h.queued _ hf)

/-- The functor of a timer hands it to the wheel. -/
theorem Threads.Inv.add (h : s.Inv n) (hf : s.pendingFunctors_ = .add timer :: rest) {last : Option ℤ}
    (hp : s.reactor.pc = .outside last) : (s.add n timer rest).Inv n := by
  rw [Threads.add]
  split
  · rename_i w hw
    obtain ⟨t, -, hw⟩ := bind_eq_ok.1 hw
    rw [addTimerPtr_eq_bind] at hw
    obtain ⟨i, -, hw⟩ := bind_eq_ok.1 hw
    obtain ⟨-, next, hnext, rfl⟩ := insertAt_ok hw
    have ho := List.pairwise_cons.1 (hf ▸ h.once)
    have hmem : ∀ g ∈ rest, g ∈ s.pendingFunctors_ := fun g hg => hf ▸ List.mem_cons_of_mem _ hg
    have hrest := h.queue (q := rest) (fun x hx => hmem _ hx) ho.2
    have htimer : Threads.Handed { s with pendingFunctors_ := rest } timer :=
      ⟨h.queued timer (hf ▸ List.mem_cons_self), fun hm => ho.1 _ hm timer rfl rfl⟩
    have hnext' : ∀ y, next = some y → Threads.Handed { s with pendingFunctors_ := rest } y := by
      rcases hnext with rfl | rfl
      · exact hrest.within.next timer
      · exact hrest.within.slot _
    have htop : ∀ y, some timer = some y → Threads.Handed { s with pendingFunctors_ := rest } y := by
      rintro y ⟨⟩
      exact htimer
    have hl : s.reactor.wheel.start_ ≤ s.reactor.clock := h.lags.of hp
    exact ⟨⟨h.lags.startIdx_lt, hl⟩, (h.sound.setNext next).setIndex,
      ((hrest.within.setNext hnext').setSlot htop).setIndex, fun x hx => (by cases hx), hrest.queued, hrest.once⟩
  · exact h.changes ⟨h.lags.startIdx_lt, trivial⟩ .refl fun x hx => by cases hx

theorem Threads.Inv.functor (h : s.Inv n) (hf : s.pendingFunctors_ = f :: rest) {last : Option ℤ}
    (hp : s.reactor.pc = .outside last) : (s.functor n f rest).Inv n := by
  cases f with
  | add timer => exact h.add hf hp
  | cancel timer =>
    refine h.cancel.queue (q := rest) (fun x hx => ?_) (List.pairwise_cons.1 (hf ▸ h.once)).2
    exact hf ▸ List.mem_cons_of_mem _ hx

/-- One move. -/
theorem Threads.Inv.turn (h : s.Inv n) (hs : turn n s a = some s') : s'.Inv n := by
  cases a with
  | reactor o =>
    obtain ⟨r, hr, rfl⟩ := Option.map_eq_some_iff.1 hs
    exact h.op hr
  | read thread c now =>
    rw [TimeWheel.turn] at hs
    split at hs
    · rename_i hc
      cases hs
      exact { h with lags := h.lags.clock hc.2.1 }
    · cases hs
  | test thread =>
    rw [TimeWheel.turn] at hs
    split at hs
    · split at hs
      · cases hs
        exact h.test
      · cases hs
    · cases hs
  | cancel timer =>
    rw [TimeWheel.turn] at hs
    split at hs
    · cases hs
      refine h.queue (fun x hx => ?_) (List.pairwise_append.2 ⟨h.once, List.pairwise_singleton _ _, ?_⟩)
      · rcases List.mem_append.1 hx with hx | hx
        · exact hx
        · cases List.mem_singleton.1 hx
      · rintro f - g hg x - rfl
        cases List.mem_singleton.1 hg
    · cases hs
  | functor =>
    rw [TimeWheel.turn] at hs
    split at hs
    · rename_i hf hp
      cases hs
      exact h.functor hf hp
    · cases hs

theorem inv_reach {now : ℤ} (h : Lts.Reach (sharedWheel n now) s) : s.Inv n := by
  refine h.invariant (I := fun s => s.Inv n) ?_ fun _ _ _ _ hi hs => hi.turn hs
  rintro _ rfl
  refine ⟨⟨n.pos, le_rfl⟩, (good_init (n := n) now).sound, ⟨?_, ?_, ?_⟩, ?_, ?_, List.Pairwise.nil⟩
  · rintro j y ⟨⟩
  · rintro z y ⟨⟩
  · rintro y ⟨⟩
  · rintro x ⟨⟩
  · rintro x ⟨⟩

end Inv

/-! ## Every move -/

section Moves

variable {s s' : Threads} {c : Call} {interval : ℚ} {head : ℕ}

theorem addTimer_isOk (hpre : ∀ y, (w.timers y).pre_ = none) (hslot : ∀ j y, w.slot_ j = some y → y < w.numCreated_)
    (hc : ∀ y ∈ w.deleted, y < w.numCreated_) :
    (∃ w', w.addTimer n when interval = .ok w') ↔ w.start_ ≤ when ∧ w.Indexes n when ∧ w.HeadExists n when := by
  rw [addTimer]
  split
  · rename_i hlt
    refine iff_of_false (fun h => ?_) fun h => absurd h.1 (not_le.2 hlt)
    obtain ⟨_, h⟩ := h
    cases h
  · rename_i hge
    have hself : (w.new when interval).timers w.numCreated_ = .new when interval := by rw [timers_new, if_pos rfl]
    have hlive : (w.new when interval).Live w.numCreated_ :=
      ⟨Nat.lt_succ_self _, fun hm => lt_irrefl _ (hc _ hm)⟩
    have hpre' : ∀ y, ((w.new when interval).timers y).pre_ = none := by
      intro y
      rw [timers_new]
      split
      · rfl
      · exact hpre y
    rw [addTimerInReactor, deref, if_pos hlive, ok_bind, hself]
    refine (addTimerPtr_isOk hpre' fun j y hy => (hslot j y hy).trans (Nat.lt_succ_self _)).trans ?_
    exact (and_iff_right (not_lt.1 hge)).symm

/-- What follows the callback of a repeating timer. -/
theorem afterRun_isOk (hpre : ∀ y, (w.timers y).pre_ = none) (hslot : ∀ j y, w.slot_ j = some y → y < w.numCreated_)
    (hx : x < w.numCreated_) (hr : (w.timers x).repeat_ = true) (hw : addTime now (w.timers x).interval_ = when) :
    (∃ p, w.afterRun n x now = .ok p) ↔ w.Indexes n when ∧ w.HeadExists n when ∧ x ∉ w.deleted := by
  have hadd : (∃ w', (w.setNext x none).addTimerPtr n x when = .ok w') ↔ w.Indexes n when ∧ w.HeadExists n when :=
    addTimerPtr_isOk (fun y => (pre_setNext none y).trans (hpre y)) hslot
  rw [← and_assoc, ← hadd, afterRun, deref]
  constructor
  · rintro ⟨p, h⟩
    obtain ⟨t, ht, h⟩ := bind_eq_ok.1 h
    split at ht
    · rename_i hlive
      cases ht
      rw [hr, if_pos rfl, hw] at h
      obtain ⟨w', hw', -⟩ := bind_eq_ok.1 h
      exact ⟨⟨w', hw'⟩, hlive.2⟩
    · cases ht
  · rintro ⟨⟨w', hw'⟩, hd⟩
    rw [if_pos ⟨hx, hd⟩, ok_bind, hr, if_pos rfl, hw, hw']
    exact ⟨_, rfl⟩

theorem not_ok {β : Type*} {r : Except Halt β} {e : Halt} (he : r = .error e) : ¬∃ x, r = .ok x := by
  rintro ⟨x, hx⟩
  cases he.symm.trans hx

theorem runs_call {s : State} {pc : Pc} (hp : pc.Runs) :
    (s.call n c now pc).pc.Runs ↔ ∃ w', s.wheel.addTimer n (c.when now) c.interval = .ok w' := by
  rw [State.call]
  split
  · rename_i w hw
    exact iff_of_true hp ⟨w, hw⟩
  · rename_i e he
    exact iff_of_false id (not_ok he)

theorem runs_ret (s : State) (f : Sweep) (head : ℕ) (now : ℤ) :
    (s.ret n f head now).pc.Runs ↔ ∃ p, s.wheel.afterRun n head now = .ok p := by
  rw [State.ret]
  split
  · rename_i w next hw
    exact iff_of_true trivial ⟨_, hw⟩
  · rename_i e he
    exact iff_of_false id (not_ok he)

theorem runs_add {timer : ℕ} {rest : List PendingFunctor} :
    (s.add n timer rest).reactor.pc.Runs ↔ ∃ w', s.reactor.wheel.addTimerInReactor n timer = .ok w' := by
  rw [Threads.add]
  split
  · rename_i w hw
    exact iff_of_true trivial ⟨_, hw⟩
  · rename_i e he
    exact iff_of_false id (not_ok he)

/-- A call has to be made while the process runs, at a time that is not before `start_`. -/
theorem Threads.Inv.le_when (h : s.Inv n) (hc : c.InSpan n) (hruns : s.reactor.pc.Runs)
    (hclock : s.reactor.clock ≤ now) : s.reactor.wheel.start_ ≤ c.when now := by
  have hnow := (h.lags.lags.le hruns).trans hclock
  cases c with
  | runAt time => exact hc.elim
  | runAfter delay | runEvery interval => exact hnow.trans (le_addTime hc.1)

theorem Threads.Inv.slot (h : s.Inv n) (j y : ℕ) (hy : s.reactor.wheel.slot_ j = some y) :
    y < s.reactor.wheel.numCreated_ := (h.within.slot j y hy).1

theorem scheduled_call (hn : 2 * n.numSlot_ ≤ INT_MAX + 2) (h : s.Inv n) (hc : c.InSpan n)
    (hs : turn n s (.reactor (.stmt ⟨now, .call c⟩)) = some s') :
    Scheduled n (s, .reactor (.stmt ⟨now, .call c⟩), s') ↔ Timed n s (.reactor (.stmt ⟨now, .call c⟩)) := by
  obtain ⟨r, hr, rfl⟩ := Option.map_eq_some_iff.1 hs
  obtain ⟨hclock, hst⟩ := step_cases hr
  obtain ⟨hruns, hcall⟩ : s.reactor.pc.Runs ∧
      (r.pc.Runs ↔ ∃ w', s.reactor.wheel.addTimer n (c.when now) c.interval = .ok w') := by
    cases hst with
    | call hp =>
      rw [show s.reactor.pc = _ from hp]
      exact ⟨trivial, runs_call trivial⟩
    | callback hp =>
      rw [show s.reactor.pc = _ from hp]
      exact ⟨trivial, runs_call trivial⟩
  have hle := h.le_when hc hruns hclock
  have hscheduled : Scheduled n (s, .reactor (.stmt ⟨now, .call c⟩), { s with reactor := r }) ↔
      s.reactor.wheel.Indexes n (c.when now) ∧ r.pc.Runs := by
    simp only [Scheduled, Threads.adds, State.adds, Option.mem_def, Option.some.injEq, forall_eq']
  rw [hscheduled, hcall, addTimer_isOk h.pre h.slot h.created, indexes_iff hn h.lags.startIdx_lt, near_iff_of_le hle]
  exact ⟨fun hh => hh.2.2, fun hh => ⟨hh.1, hle, hh⟩⟩

theorem scheduled_ret (hn : 2 * n.numSlot_ ≤ INT_MAX + 2) (h : s.Inv n)
    (hs : turn n s (.reactor (.stmt ⟨now, .ret⟩)) = some s') :
    Scheduled n (s, .reactor (.stmt ⟨now, .ret⟩), s') ↔ Timed n s (.reactor (.stmt ⟨now, .ret⟩)) := by
  obtain ⟨r, hr, rfl⟩ := Option.map_eq_some_iff.1 hs
  obtain ⟨hclock, hst⟩ := step_cases hr
  refine forall₂_congr fun when hwhen => ?_
  obtain ⟨f, head, hp, hruns⟩ : ∃ f head, s.reactor.pc = .callback f head ∧
      (r.pc.Runs ↔ ∃ p, s.reactor.wheel.afterRun n head now = .ok p) := by
    cases hst with
    | ret hp => exact ⟨_, _, hp, runs_ret _ _ _ _⟩
  have hrunning : s.reactor.pc.running = some head := by
    rw [hp]
    rfl
  simp only [Threads.adds, State.adds, hp] at hwhen
  split at hwhen
  · rename_i hrep
    cases hwhen
    have hlags : s.reactor.wheel.start_ ≤ s.reactor.clock := h.lags.lags.le (by rw [hp]; trivial)
    have hle := (hlags.trans hclock).trans (le_addTime ((h.sound head).2 hrep).le)
    have hhead := (h.running head hrunning).1
    rw [hruns, afterRun_isOk h.pre h.slot hhead hrep rfl, indexes_iff hn h.lags.startIdx_lt, near_iff_of_le hle,
      hrunning]
    exact ⟨fun hh => ⟨hh.1, hh.2.2.1, fun y hy => by cases hy; exact hh.2.2.2⟩,
      fun hh => ⟨hh.1, hh.1, hh.2.1, hh.2.2 head rfl⟩⟩
  · cases hwhen

/-- The comparison in another thread ends the process if `start_` has passed the time. -/
theorem scheduled_test {thread : ℕ} (hs : turn n s (.test thread) = some s') :
    Scheduled n (s, .test thread, s') ↔ Timed n s (.test thread) := by
  rw [turn] at hs
  split at hs
  · rename_i when interval hcall
    split at hs
    · rename_i hruns
      cases hs
      have htimed : Timed n s (.test thread) ↔ s.reactor.wheel.start_ ≤ when := by
        simp only [Timed, hcall, Option.mem_def, Option.some.injEq, forall_eq']
      have hscheduled : Scheduled n (s, .test thread, s.test thread when interval) ↔
          (s.test thread when interval).reactor.pc.Runs := Iff.rfl
      rw [htimed, hscheduled, Threads.test]
      split
      · rename_i hlt
        exact iff_of_false id (not_le.2 hlt)
      · rename_i hge
        exact iff_of_true hruns (not_lt.1 hge)
    · cases hs
  · cases hs

theorem scheduled_functor (hn : 2 * n.numSlot_ ≤ INT_MAX + 2) (h : s.Inv n) (hs : turn n s .functor = some s') :
    Scheduled n (s, .functor, s') ↔ Timed n s .functor := by
  refine forall₂_congr fun when hwhen => ?_
  rw [turn] at hs
  split at hs
  · rename_i f rest last hf hp
    cases hs
    simp only [Threads.adds, hf] at hwhen
    cases f with
    | add timer =>
      cases hwhen
      have hruns : (s.functor n (.add timer) rest).reactor.pc.Runs ↔
          ∃ w', s.reactor.wheel.addTimerInReactor n timer = .ok w' := runs_add
      rw [hruns, addTimerInReactor, deref, if_pos (h.live (hf ▸ List.mem_cons_self)), ok_bind,
        addTimerPtr_isOk h.pre h.slot, indexes_iff hn h.lags.startIdx_lt]
      exact ⟨fun hh => hh.2, fun hh => ⟨hh.1, hh⟩⟩
    | cancel timer => cases hwhen
  · cases hs

/-- The calls of the move have delays in the span of the wheel. -/
def Turn.InSpan (n : Buckets) : Turn → Prop
  | .reactor (.stmt ⟨_, .call c⟩) | .read _ c _ => c.InSpan n
  | .reactor (.stmt ⟨_, .tock⟩) | .reactor (.stmt ⟨_, .next⟩) | .reactor (.stmt ⟨_, .ret⟩) | .reactor (.cancel _)
  | .test _ | .cancel _ | .functor => True

/-- **In every run a move schedules its timer if and only if it is timed.** -/
theorem scheduled_iff (hn : 2 * n.numSlot_ ≤ INT_MAX + 2) {t : Threads} {v : List (Threads × Turn × Threads)}
    (h : Lts.Run (sharedWheel n now) (.init now) v t) :
    ∀ x ∈ v, x.2.1.InSpan n → (Scheduled n x ↔ Timed n x.1 x.2.1) := by
  rintro ⟨s, a, s'⟩ hx hspan
  obtain ⟨hr, hs⟩ := h.move (.init rfl) hx
  have hi := inv_reach hr
  have hs : turn n s a = some s' := hs
  cases a with
  | reactor o =>
    cases o with
    | stmt a =>
      obtain ⟨now, move⟩ := a
      cases move with
      | call c => exact scheduled_call hn hi hspan hs
      | ret => exact scheduled_ret hn hi hs
      | tock | next => exact iff_of_true (fun _ hw => by cases hw) trivial
    | cancel timer => exact iff_of_true (fun _ hw => by cases hw) trivial
  | read thread c now => exact iff_of_true (fun _ hw => by cases hw) trivial
  | test thread => exact scheduled_test hs
  | cancel timer => exact iff_of_true (fun _ hw => by cases hw) trivial
  | functor => exact scheduled_functor hn hi hs

instance : Decidable (w.Near n when) := inferInstanceAs (Decidable (_ ∨ _))

instance : Decidable (w.HeadExists n when) :=
  inferInstanceAs (Decidable (∀ head ∈ w.slot_ ((w.startIdx_ + (when - w.start_).tdiv 1000).tmod n.numSlot_).toNat,
    head ∉ w.deleted))

instance : (c : Call) → Decidable (c.InSpan n)
  | .runAt _ => inferInstanceAs (Decidable False)
  | .runAfter _ | .runEvery _ => inferInstanceAs (Decidable (_ ∧ _))

instance : (a : Turn) → Decidable (a.InSpan n)
  | .reactor (.stmt ⟨_, .call c⟩) | .read _ c _ => inferInstanceAs (Decidable (c.InSpan n))
  | .reactor (.stmt ⟨_, .tock⟩) | .reactor (.stmt ⟨_, .next⟩) | .reactor (.stmt ⟨_, .ret⟩) | .reactor (.cancel _)
  | .test _ | .cancel _ | .functor => inferInstanceAs (Decidable True)

instance (s : Threads) : (a : Turn) → Decidable (Timed n s a)
  | .reactor (.stmt ⟨now, .call c⟩) => inferInstanceAs (Decidable
      (c.when now < s.reactor.wheel.start_ + 1000 * n.numSlot_ ∧ s.reactor.wheel.HeadExists n (c.when now)))
  | .reactor (.stmt ⟨now, .ret⟩) => inferInstanceAs (Decidable (∀ when ∈ s.reactor.adds ⟨now, .ret⟩,
      when < s.reactor.wheel.start_ + 1000 * n.numSlot_ ∧ s.reactor.wheel.HeadExists n when ∧
        ∀ head ∈ s.reactor.pc.running, head ∉ s.reactor.wheel.deleted))
  | .test thread => inferInstanceAs (Decidable (∀ p ∈ s.calls thread, s.reactor.wheel.start_ ≤ p.1))
  | .functor => inferInstanceAs (Decidable (∀ when ∈ s.adds .functor,
      s.reactor.wheel.Near n when ∧ s.reactor.wheel.HeadExists n when))
  | .reactor (.stmt ⟨_, .tock⟩) | .reactor (.stmt ⟨_, .next⟩) | .reactor (.cancel _) | .read _ _ _ | .cancel _ =>
    inferInstanceAs (Decidable True)

/-- A repeating timer, one whose callback adds another one, and one from another thread, whose functor runs when its
time has passed. At last the other thread cancels the repeating one. -/
def twoThreads : List Turn :=
  [.read 0 (.runAfter 0.002) 0, .reactor (.stmt ⟨500, .call (.runEvery 0.003)⟩),
    .reactor (.stmt ⟨500, .call (.runAfter 0.001)⟩), .test 0, .reactor (.stmt ⟨2600, .tock⟩),
    .reactor (.stmt ⟨2600, .next⟩), .reactor (.stmt ⟨2600, .next⟩), .reactor (.stmt ⟨2600, .call (.runEvery 0.002)⟩),
    .reactor (.stmt ⟨2600, .ret⟩), .reactor (.stmt ⟨2600, .next⟩), .reactor (.stmt ⟨2600, .next⟩),
    .reactor (.stmt ⟨2600, .next⟩), .functor, .reactor (.stmt ⟨3600, .tock⟩), .reactor (.stmt ⟨3600, .next⟩),
    .reactor (.stmt ⟨3600, .next⟩), .reactor (.stmt ⟨3700, .ret⟩), .reactor (.stmt ⟨3700, .next⟩),
    .reactor (.stmt ⟨3700, .next⟩), .cancel 0, .functor]

theorem scheduled_iff_twoThreads : ∃ s, Lts.exec (turn .default) (.init 0) twoThreads = some s ∧
    s.reactor.fired.map Prod.fst = [1, 0] ∧ s.reactor.wheel.deleted = [0, 1] ∧ s.pendingFunctors_ = [] ∧
    ∀ x ∈ Lts.moves (turn .default) (.init 0) twoThreads, Scheduled .default x := by
  obtain ⟨s, hs, hp, hd, hf⟩ : ∃ s ∈ Lts.exec (turn .default) (.init 0) twoThreads,
      s.reactor.fired.map Prod.fst = [1, 0] ∧ s.reactor.wheel.deleted = [0, 1] ∧ s.pendingFunctors_ = [] := by
    decide +kernel
  have htimed : ∀ x ∈ Lts.moves (turn .default) (.init 0) twoThreads,
      x.2.1.InSpan .default ∧ Timed .default x.1 x.2.1 := by decide +kernel
  refine ⟨s, hs, hp, hd, hf, fun x hx => ?_⟩
  obtain ⟨hspan, ht⟩ := htimed x hx
  exact (scheduled_iff (by decide) (Lts.Run.moves hs) x hx hspan).2 ht

/-- After ten seconds in `demultiplex` the handler of an event calls `runAfter` with a delay of 55 seconds. -/
theorem not_scheduled_blocked : Lts.Reach (sharedWheel .default 0) (.init 0) ∧ (Call.runAfter 55).InSpan .default ∧
    ∃ s, turn .default (.init 0) (.reactor (.stmt ⟨10000000, .call (.runAfter 55)⟩)) = some s ∧
      s.reactor.pc = .halted .fatal ∧
      ¬Scheduled .default (.init 0, .reactor (.stmt ⟨10000000, .call (.runAfter 55)⟩), s) := by
  obtain ⟨s, hs, hp⟩ : ∃ s ∈ turn .default (.init 0) (.reactor (.stmt ⟨10000000, .call (.runAfter 55)⟩)),
      s.reactor.pc = .halted .fatal := by
    decide +kernel
  refine ⟨.init rfl, by decide +kernel, s, hs, hp, fun h => ?_⟩
  have hruns : s.reactor.pc.Runs := (h _ rfl).2
  rw [hp] at hruns
  exact hruns

end Moves

end Libeva.TimeWheel
