import Libeva.TimeWheel.TimeWheel

/-!
# The lists of the slots

Every timer that exists hangs in exactly one slot, except that during the loop over a list the walked slot holds what
is left of it, from `head` on, and not what its pointer says. Both survive as long as nothing is added to the walked
slot, for which the addition has to be at least a millisecond ahead.

* `Hangs`: the lists of the slots, from the pointers `top` on; `Hangs.push` and `Hangs.pop` add and remove a head.
* `addTimerPtr_eq`: what `addTimer` does to a wheel whose lists hang.
* `Good` is the invariant of a run, `Clear` the condition on its steps.
-/

namespace Libeva.TimeWheel

open Linked

variable {n : Buckets} {w w' : TimeWheel} {x j : ℕ} {when : ℤ} {interval : ℚ}

def getNext (w : TimeWheel) (x : ℕ) : Option ℕ := (w.timers x).next_

/-- The slot of a time. -/
def slotIndex (n : Buckets) (w : TimeWheel) (when : ℤ) : ℕ :=
  (w.startIdx_ + ((when - w.start_) / 1000).toNat) % n.numSlot_

/-- The `int`s of `addTimer` do not overflow. -/
def Fits (n : Buckets) (w : TimeWheel) (when : ℤ) : Prop :=
  (when - w.start_) / 1000 ≤ INT_MAX ∧
    ((when - w.start_) / 1000 < n.numSlot_ → w.startIdx_ + (when - w.start_) / 1000 ≤ INT_MAX)

/-- A timer becomes the head of a slot. -/
def push (w : TimeWheel) (x j : ℕ) : TimeWheel :=
  { w with
    slot_ := Function.update w.slot_ j (some x)
    timers := Function.update w.timers x { w.timers x with next_ := w.slot_ j, index_ := j } }

theorem timers_setNext (p : Option ℕ) (y : ℕ) :
    (w.setNext x p).timers y = if y = x then { w.timers x with next_ := p } else w.timers y :=
  Function.update_apply ..

theorem timers_push (y : ℕ) :
    (w.push x j).timers y = if y = x then { w.timers x with next_ := w.slot_ j, index_ := j } else w.timers y :=
  Function.update_apply ..

theorem timers_new (y : ℕ) :
    (w.new when interval).timers y = if y = w.numCreated_ then .new when interval else w.timers y :=
  Function.update_apply ..

/-- A write to `next_` leaves the other fields of all timers. -/
theorem field_setNext {β : Type*} (g : Timer → β) (hg : ∀ (t : Timer) p, g { t with next_ := p } = g t) (p : Option ℕ)
    (y : ℕ) : g ((w.setNext x p).timers y) = g (w.timers y) := by
  rw [timers_setNext]
  split
  · rename_i hy
    rw [hg, hy]
  · rfl

/-- The links and the slot of a timer are written when it becomes a head, and nothing else. -/
theorem field_push {β : Type*} (g : Timer → β) (hg : ∀ (t : Timer) p i, g { t with next_ := p, index_ := i } = g t)
    (y : ℕ) : g ((w.push x j).timers y) = g (w.timers y) := by
  rw [timers_push]
  split
  · rename_i hy
    rw [hg, hy]
  · rfl

@[simp] theorem repeat_setNext (p : Option ℕ) (y : ℕ) :
    ((w.setNext x p).timers y).repeat_ = (w.timers y).repeat_ := field_setNext Timer.repeat_ (fun _ _ => rfl) p y

@[simp] theorem repeat_push (y : ℕ) : ((w.push x j).timers y).repeat_ = (w.timers y).repeat_ :=
  field_push Timer.repeat_ (fun _ _ _ => rfl) y

theorem slotIndex_lt (w : TimeWheel) (when : ℤ) : w.slotIndex n when < n.numSlot_ := Nat.mod_lt _ n.pos

/-- Where a number of slots further on is. -/
theorem add_mod_cases {a d m : ℕ} (ha : a < m) (hd : d ≤ m) :
    (a + d) % m = a + d ∧ a + d < m ∨ (a + d) % m + m = a + d := by
  rcases lt_or_ge (a + d) m with h | h
  · exact .inl ⟨Nat.mod_eq_of_lt h, h⟩
  · right
    rcases lt_or_ge (a + d - m) m with h' | h'
    · rw [Nat.mod_eq_sub_mod h, Nat.mod_eq_of_lt h']
      omega
    · omega

/-- Only the times of the current millisecond have the current slot. -/
theorem slotIndex_ne (hi : w.startIdx_ < n.numSlot_) (h : w.start_ + 1000 ≤ when)
    (hd : (when - w.start_) / 1000 < n.numSlot_) : w.slotIndex n when ≠ w.startIdx_ := by
  have h1 : 1 ≤ ((when - w.start_) / 1000).toNat := by omega
  have h2 : ((when - w.start_) / 1000).toNat < n.numSlot_ := by omega
  unfold slotIndex
  rcases add_mod_cases hi h2.le with ⟨h, -⟩ | h <;> omega

/-! ## Lists that hang -/

/-- From the pointers `top` on, the lists `L` of the slots have the timers `P`, each of them once. -/
structure Hangs (n : Buckets) (w : TimeWheel) (top : ℕ → Option ℕ) (P : ℕ → Prop) (L : ℕ → List ℕ) : Prop where
  chain : ∀ j < n.numSlot_, Chain w.getNext (top j) (L j)
  nodup : ∀ j < n.numSlot_, (L j).Nodup
  index : ∀ j < n.numSlot_, ∀ x ∈ L j, P x ∧ (w.timers x).index_ = j
  linked : ∀ x, P x → ∃ j < n.numSlot_, x ∈ L j

section Hangs

variable {top : ℕ → Option ℕ} {P Q : ℕ → Prop} {L : ℕ → List ℕ}

/-- The lists only depend on the timers in them. -/
theorem Hangs.congr (h : Hangs n w top P L) (hw : ∀ x, P x → w'.timers x = w.timers x) : Hangs n w' top P L where
  chain j hj := (h.chain j hj).congr fun x hx => congrArg Timer.next_ (hw x (h.index j hj x hx).1)
  nodup := h.nodup
  index j hj x hx := by
    obtain ⟨hP, hi⟩ := h.index j hj x hx
    exact ⟨hP, (congrArg Timer.index_ (hw x hP)).trans hi⟩
  linked := h.linked

/-- A timer is in the slot that its index names. -/
theorem Hangs.mem (h : Hangs n w top P L) (hx : P x) : ∃ j < n.numSlot_, x ∈ L j ∧ (w.timers x).index_ = j := by
  obtain ⟨j, hj, hm⟩ := h.linked x hx
  exact ⟨j, hj, hm, (h.index j hj x hm).2⟩

theorem Hangs.top_mem (h : Hangs n w top P L) (hj : j < n.numSlot_) (hx : top j = some x) :
    P x ∧ (w.timers x).index_ = j := by
  have hc := h.chain j hj
  rw [hx] at hc
  obtain ⟨l, hl, -⟩ := hc.uncons
  exact h.index j hj x (hl ▸ List.mem_cons_self)

/-- A timer that does not hang becomes the head of a slot. -/
theorem Hangs.push (h : Hangs n w top P L) (hj : j < n.numSlot_) (ht : top j = w.slot_ j) (hx : ¬P x) :
    Hangs n (w.push x j) (Function.update top j (some x)) (fun y => P y ∨ y = x) (Function.update L j (x :: L j)) := by
  have hne : ∀ i < n.numSlot_, ∀ y ∈ L i, y ≠ x := fun i hi y hy e => hx (e ▸ (h.index i hi y hy).1)
  have hold : ∀ y, y ≠ x → (w.push x j).timers y = w.timers y := fun y hy => by rw [timers_push, if_neg hy]
  have hnew : (w.push x j).timers x = { w.timers x with next_ := w.slot_ j, index_ := j } := by
    rw [timers_push, if_pos rfl]
  have hcongr : ∀ i < n.numSlot_, ∀ {p : Option ℕ}, Chain w.getNext p (L i) → Chain (w.push x j).getNext p (L i) :=
    fun i hi _ hc => hc.congr fun y hy => congrArg Timer.next_ (hold y (hne i hi y hy))
  refine ⟨fun i hi => ?_, fun i hi => ?_, fun i hi y hy => ?_, fun y hy => ?_⟩
  · by_cases hij : i = j
    · subst hij
      rw [Function.update_self, Function.update_self]
      refine ⟨rfl, hcongr i hi ?_⟩
      have hc := h.chain i hi
      rw [ht] at hc
      rwa [getNext, hnew]
    · rw [Function.update_of_ne hij, Function.update_of_ne hij]
      exact hcongr i hi (h.chain i hi)
  · by_cases hij : i = j
    · subst hij
      rw [Function.update_self]
      exact List.nodup_cons.2 ⟨fun hm => hne i hi x hm rfl, h.nodup i hi⟩
    · rw [Function.update_of_ne hij]
      exact h.nodup i hi
  · by_cases hyx : y = x
    · subst hyx
      rw [hnew]
      refine ⟨.inr rfl, ?_⟩
      by_cases hij : i = j
      · rw [hij]
      · rw [Function.update_of_ne hij] at hy
        exact absurd rfl (hne i hi y hy)
    · rw [hold y hyx]
      have hm : y ∈ L i := by
        by_cases hij : i = j
        · subst hij
          rw [Function.update_self] at hy
          exact (List.mem_cons.1 hy).resolve_left hyx
        · rwa [Function.update_of_ne hij] at hy
      obtain ⟨hP, hi'⟩ := h.index i hi y hm
      exact ⟨.inl hP, hi'⟩
  · rcases hy with hy | rfl
    · obtain ⟨i, hi, hm⟩ := h.linked y hy
      refine ⟨i, hi, ?_⟩
      by_cases hij : i = j
      · subst hij
        rw [Function.update_self]
        exact List.mem_cons_of_mem _ hm
      · rwa [Function.update_of_ne hij]
    · exact ⟨j, hj, by rw [Function.update_self]; exact List.mem_cons_self⟩

/-- The head of a slot goes out. -/
theorem Hangs.pop (h : Hangs n w top P L) (hj : j < n.numSlot_) (ht : top j = some x) :
    ∃ l, L j = x :: l ∧
      Hangs n (w.setNext x none) (Function.update top j (w.getNext x)) (fun y => P y ∧ y ≠ x)
        (Function.update L j l) := by
  have hc := h.chain j hj
  rw [ht] at hc
  obtain ⟨l, hl, hc'⟩ := hc.uncons
  have hd := h.nodup j hj
  rw [hl, List.nodup_cons] at hd
  have hsub : ∀ i, ∀ y ∈ Function.update L j l i, y ∈ L i := by
    intro i y hy
    by_cases hij : i = j
    · subst hij
      rw [Function.update_self] at hy
      exact hl ▸ List.mem_cons_of_mem x hy
    · rwa [Function.update_of_ne hij] at hy
  have hne : ∀ i < n.numSlot_, ∀ y ∈ Function.update L j l i, y ≠ x := by
    rintro i hi y hy rfl
    by_cases hij : i = j
    · subst hij
      rw [Function.update_self] at hy
      exact hd.1 hy
    · have h1 := (h.index i hi y (hsub i y hy)).2
      have h2 := (h.top_mem hj ht).2
      omega
  have hold : ∀ y, y ≠ x → (w.setNext x none).timers y = w.timers y := fun y hy => by
    rw [timers_setNext, if_neg hy]
  refine ⟨l, hl, fun i hi => ?_, fun i hi => ?_, fun i hi y hy => ?_, fun y hy => ?_⟩
  · have hcongr : ∀ y ∈ Function.update L j l i, (w.setNext x none).getNext y = w.getNext y :=
      fun y hy => congrArg Timer.next_ (hold y (hne i hi y hy))
    refine Chain.congr ?_ hcongr
    by_cases hij : i = j
    · subst hij
      rw [Function.update_self, Function.update_self]
      exact hc'
    · rw [Function.update_of_ne hij, Function.update_of_ne hij]
      exact h.chain i hi
  · by_cases hij : i = j
    · subst hij
      rw [Function.update_self]
      exact hd.2
    · rw [Function.update_of_ne hij]
      exact h.nodup i hi
  · obtain ⟨hP, hi'⟩ := h.index i hi y (hsub i y hy)
    rw [hold y (hne i hi y hy)]
    exact ⟨⟨hP, hne i hi y hy⟩, hi'⟩
  · obtain ⟨i, hi, hm⟩ := h.linked y hy.1
    refine ⟨i, hi, ?_⟩
    by_cases hij : i = j
    · subst hij
      rw [Function.update_self]
      rw [hl] at hm
      exact (List.mem_cons.1 hm).resolve_left hy.2
    · rwa [Function.update_of_ne hij]

/-! ## `addTimer` -/

theorem castInt_timeDifference {high low : ℤ} (h : low ≤ high) (hi : (high - low) / 1000 ≤ INT_MAX) :
    castInt (timeDifference high low * 1000) = .ok ((high - low) / 1000) := by
  have h0 : 0 ≤ (high - low) / 1000 := Int.ediv_nonneg (sub_nonneg.2 h) (by decide)
  rw [castInt, trunc_timeDifference h, int, if_pos ⟨by omega, hi⟩]

/-- In a wheel whose lists hang, `addTimer` pushes the timer, or it is too far ahead. -/
theorem addTimerPtr_eq (x : ℕ) (when : ℤ) (h : Hangs n w top P L) (hP : ∀ y, P y → w.Live y)
    (hpre : ∀ y, P y → (w.timers y).pre_ = none) (hx : w.getNext x = none) (hs : w.start_ ≤ when) (hf : w.Fits n when)
    (ht : (when - w.start_) / 1000 < n.numSlot_ → top (w.slotIndex n when) = w.slot_ (w.slotIndex n when)) :
    w.addTimerPtr n x when =
      if (n.numSlot_ : ℤ) ≤ (when - w.start_) / 1000 then .error .fatal
      else .ok (w.push x (w.slotIndex n when)) := by
  rw [addTimerPtr, castInt_timeDifference hs hf.1, ok_bind]
  split
  · rfl
  rename_i hd
  have hd := not_le.1 hd
  have h0 : 0 ≤ (when - w.start_) / 1000 := Int.ediv_nonneg (sub_nonneg.2 hs) (by decide)
  have hsum : int (w.startIdx_ + (when - w.start_) / 1000) = .ok (w.startIdx_ + (when - w.start_) / 1000) := by
    rw [int, if_pos ⟨by omega, hf.2 hd⟩]
  have hidx : Int.tmod (w.startIdx_ + (when - w.start_) / 1000) n.numSlot_ = w.slotIndex n when := by
    rw [slotIndex, ← Int.toNat_of_nonneg h0]
    exact (Int.ofNat_tmod _ _).symm
  have hslot : w.slotAt n (w.slotIndex n when) = .ok (w.slot_ (w.slotIndex n when)) := by
    have := w.slotIndex_lt (n := n) when
    rw [slotAt, if_pos (by omega), Int.toNat_natCast]
  rw [hsum, ok_bind]
  simp only [hidx, hslot, ok_bind, Int.toNat_natCast]
  cases hh : w.slot_ (w.slotIndex n when) with
  | none =>
    rw [push, hh]
    exact congrArg (fun next => Except.ok { w with
      slot_ := Function.update w.slot_ (w.slotIndex n when) (some x)
      timers := Function.update w.timers x
        { w.timers x with next_ := next, index_ := w.slotIndex n when } }) hx
  | some head =>
    have hhead : P head := (h.top_mem (slotIndex_lt w when) ((ht hd).trans hh)).1
    simp only [deref, if_pos (hP head hhead), ok_bind, if_pos (hpre head hhead)]
    simp only [push, hh, setSlot, setIndex, setNext, Function.update_self, Function.update_idem]

/-- What `addTimer` has done when it returns: the timer is the new head of a slot. -/
theorem addTimerPtr_ok (hx : w.getNext x = none) (h : w.addTimerPtr n x when = .ok w') :
    ∃ j < n.numSlot_, w' = w.push x j := by
  rw [addTimerPtr] at h
  obtain ⟨diff, -, h⟩ := bind_eq_ok.1 h
  split at h
  · cases h
  obtain ⟨sum, -, h⟩ := bind_eq_ok.1 h
  obtain ⟨top, ht, h⟩ := bind_eq_ok.1 h
  rw [slotAt] at ht
  split at ht
  · rename_i hs
    obtain ⟨j, hj⟩ := Int.eq_ofNat_of_zero_le hs.1
    rw [hj] at hs ht h
    cases ht
    refine ⟨j, by omega, ?_⟩
    rw [Int.toNat_natCast] at h
    cases hh : w.slot_ j with
    | none =>
      rw [hh] at h
      simp only [ok_bind, Except.ok.injEq] at h
      subst h
      rw [push, hh, ← hx]
      rfl
    | some head =>
      rw [hh] at h
      obtain ⟨t, -, h⟩ := bind_eq_ok.1 h
      split at h
      · simp only [ok_bind, Except.ok.injEq] at h
        subst h
        simp only [push, hh, setSlot, setIndex, setNext, Function.update_self, Function.update_idem]
      · cases h
  · cases ht

theorem addTimer_ok (h : w.addTimer n when interval = .ok w') :
    ∃ j < n.numSlot_, w' = (w.new when interval).push w.numCreated_ j := by
  rw [addTimer] at h
  split at h
  · cases h
  obtain ⟨t, -, h⟩ := bind_eq_ok.1 h
  refine addTimerPtr_ok ?_ h
  rw [getNext, timers_new, if_pos rfl]
  rfl

/-- What `tock` has done with a timer that has run: it is deleted, or the new head of a slot. -/
theorem afterRun_ok {now : ℤ} {next : Option ℕ} (h : w.afterRun n x now = .ok (w', next)) :
    next = w.getNext x ∧
      (w' = (w.setNext x none).delete x ∨ ∃ j < n.numSlot_, w' = (w.setNext x none).push x j) := by
  obtain ⟨t, ht, h⟩ := bind_eq_ok.1 h
  rw [deref] at ht
  split at ht
  · cases ht
    dsimp only at h
    split at h
    · obtain ⟨v, hv, h⟩ := bind_eq_ok.1 h
      cases h
      have hnext : (w.setNext x none).getNext x = none := by rw [getNext, timers_setNext, if_pos rfl]
      exact ⟨rfl, .inr (addTimerPtr_ok hnext hv)⟩
    · rw [ok_bind] at h
      cases h
      exact ⟨rfl, .inl rfl⟩
  · cases ht

/-- The wheel after `addTimer` has added a timer. -/
def added (n : Buckets) (w : TimeWheel) (when : ℤ) (interval : ℚ) : TimeWheel :=
  (w.new when interval).push w.numCreated_ (w.slotIndex n when)

theorem live_added (hc : ∀ y ∈ w.deleted, y < w.numCreated_) :
    (w.added n when interval).Live x ↔ w.Live x ∨ x = w.numCreated_ := by
  have : (w.added n when interval).Live x ↔ x < w.numCreated_ + 1 ∧ x ∉ w.deleted := Iff.rfl
  rw [this, Live]
  constructor
  · rintro ⟨h1, h2⟩
    rcases Nat.lt_succ_iff_lt_or_eq.1 h1 with h1 | h1
    · exact .inl ⟨h1, h2⟩
    · exact .inr h1
  · rintro (⟨h1, h2⟩ | rfl)
    · exact ⟨h1.trans (Nat.lt_succ_self _), h2⟩
    · exact ⟨Nat.lt_succ_self _, fun hm => lt_irrefl _ (hc _ hm)⟩

theorem Hangs.new (h : Hangs n w top w.Live L) (when : ℤ) (interval : ℚ) : Hangs n (w.new when interval) top w.Live L :=
  h.congr fun _ hx => by rw [timers_new, if_neg hx.1.ne]

/-- `addTimer` adds, or the time is behind `start_` or too far ahead. -/
theorem addTimer_eq (when : ℤ) (interval : ℚ) (h : Hangs n w top w.Live L) (hpre : ∀ y, (w.timers y).pre_ = none)
    (hc : ∀ y ∈ w.deleted, y < w.numCreated_) (hf : w.start_ ≤ when → w.Fits n when)
    (ht : w.start_ ≤ when → (when - w.start_) / 1000 < n.numSlot_ →
      top (w.slotIndex n when) = w.slot_ (w.slotIndex n when)) :
    w.addTimer n when interval =
      if when < w.start_ ∨ (n.numSlot_ : ℤ) ≤ (when - w.start_) / 1000 then .error .fatal
      else .ok (w.added n when interval) := by
  rw [addTimer]
  by_cases hs : when < w.start_
  · rw [if_pos hs, if_pos (.inl hs)]
  have hs' := not_lt.1 hs
  have hself : (w.new when interval).timers w.numCreated_ = .new when interval := by
    rw [timers_new, if_pos rfl]
  have hlive : (w.new when interval).Live w.numCreated_ :=
    ⟨Nat.lt_succ_self _, fun hm => lt_irrefl _ (hc _ hm)⟩
  have hpre' : ∀ y, ((w.new when interval).timers y).pre_ = none := by
    intro y
    rw [timers_new]
    split
    · rfl
    · exact hpre y
  have heq := addTimerPtr_eq w.numCreated_ when (h.new when interval)
    (fun y hy => ⟨hy.1.trans (Nat.lt_succ_self _), hy.2⟩) (fun y _ => hpre' y) (congrArg Timer.next_ hself) hs' (hf hs')
    (ht hs')
  rw [if_neg hs, addTimerInReactor, deref, if_pos hlive, ok_bind, hself]
  refine heq.trans ?_
  by_cases hd : (n.numSlot_ : ℤ) ≤ (when - w.start_) / 1000
  · exact (if_pos hd).trans (if_pos (.inr hd)).symm
  · exact (if_neg hd).trans (if_neg (not_or.2 ⟨hs, hd⟩)).symm

end Hangs

/-! ## The invariant of a run -/

/-- The loop over a list is under way. -/
def Pc.Walks : Pc → Prop
  | .walk _ _ | .callback _ _ => True
  | .outside _ | .loop _ | .halted _ => False

/-- Where the lists begin: the walked one at `head`. -/
def Pc.top (w : TimeWheel) : Pc → ℕ → Option ℕ
  | .walk _ head => Function.update w.slot_ w.startIdx_ head
  | .callback _ head => Function.update w.slot_ w.startIdx_ (some head)
  | .outside _ | .loop _ | .halted _ => w.slot_

/-- A sweep that has `left` milliseconds to go from `start`. -/
structure Sweep.Left (f : Sweep) (start clock left : ℤ) : Prop where
  clock : f.now ≤ clock
  i : 1 ≤ f.i
  diff : f.diff < INT_MAX
  nonneg : 0 ≤ left
  lower : start + 1000 * left ≤ f.now
  upper : f.now < start + 1000 * left + 1000

/-- How far behind the clock `start_` is. -/
def Pc.At (start clock : ℤ) : Pc → Prop
  | .outside last => start ≤ clock ∧ ∀ now ∈ last, start ≤ now ∧ now < start + 1000
  | .loop f => f.Left start clock (f.diff + 1 - f.i)
  | .walk f _ | .callback f _ => f.Left start clock (f.diff - f.i)
  | .halted _ => False

/-- What the constructor of a timer sets, and nothing changes. -/
def Sound (w : TimeWheel) : Prop :=
  ∀ x, (w.timers x).pre_ = none ∧ ((w.timers x).repeat_ = true → 0 < (w.timers x).interval_)

structure Good (n : Buckets) (s : State) : Prop where
  startIdx_lt : s.wheel.startIdx_ < n.numSlot_
  sound : s.wheel.Sound
  created : ∀ x ∈ s.wheel.deleted, x < s.wheel.numCreated_
  ran : ∀ x ∈ s.wheel.deleted, (s.wheel.timers x).repeat_ = false ∧ x ∈ s.fired.map Prod.fst
  called : ∀ f head, s.pc = .callback f head → head ∈ s.fired.map Prod.fst
  place : s.pc.At s.wheel.start_ s.clock
  hangs : ∃ L, Hangs n s.wheel (s.pc.top s.wheel) s.wheel.Live L

section Good

variable {s s' : State} {pc : Pc} {f : Sweep} {head : ℕ} {now : ℤ}

/-! ### The sweep -/

theorem Sweep.Left.begin {start : ℤ} (h : start ≤ now) (hi : now - start < 1000 * INT_MAX) :
    Sweep.Left ⟨now, 1, (now - start) / 1000⟩ start now ((now - start) / 1000 + 1 - 1) :=
  ⟨le_rfl, le_rfl, by dsimp only; omega, by omega, by dsimp only; omega, by dsimp only; omega⟩

theorem Sweep.Left.advance {start clock : ℤ} (h : f.Left start clock (f.diff + 1 - f.i)) (hi : f.i ≤ f.diff) :
    f.Left (start + 1000) clock (f.diff - f.i) := by
  have h1 := h.lower
  have h2 := h.upper
  exact ⟨h.clock, h.i, h.diff, by omega, by omega, by omega⟩

theorem Sweep.Left.incr {start clock : ℤ} (h : f.Left start clock (f.diff - f.i)) :
    Sweep.Left { f with i := f.i + 1 } start clock (f.diff + 1 - (f.i + 1)) := by
  have h1 := h.i
  have he : f.diff + 1 - (f.i + 1) = f.diff - f.i := by omega
  rw [he]
  exact { h with i := by dsimp only; omega }

theorem Sweep.Left.done {start clock : ℤ} (h : f.Left start clock (f.diff + 1 - f.i)) (hi : ¬f.i ≤ f.diff) :
    start ≤ f.now ∧ f.now < start + 1000 := by
  have h1 := h.nonneg
  have h2 := h.lower
  have h3 := h.upper
  omega

theorem State.incr_eq (s : State) (h1 : 0 ≤ f.i) (h2 : f.i < INT_MAX) :
    s.incr f = { s with pc := .loop { f with i := f.i + 1 } } := by
  rw [State.incr, int, if_pos ⟨by omega, by omega⟩]

theorem Sweep.Left.incr_eq {start clock left : ℤ} (h : f.Left start clock left) (hi : f.i ≤ f.diff) (s : State) :
    s.incr f = { s with pc := .loop { f with i := f.i + 1 } } := by
  have h1 := h.i
  have h2 := h.diff
  exact s.incr_eq (by omega) (by omega)

theorem Pc.At.le {start clock : ℤ} (h : pc.At start clock) : start ≤ clock := by
  cases pc with
  | outside last => exact h.1
  | loop f | walk f head | callback f head =>
    have h1 := h.lower
    have h2 := h.clock
    have h3 := h.nonneg
    omega
  | halted e => exact h.elim

theorem Pc.At.mono {start clock : ℤ} (h : pc.At start clock) (hc : clock ≤ now) : pc.At start now := by
  cases pc with
  | outside last => exact ⟨h.1.trans hc, h.2⟩
  | loop f | walk f head | callback f head => exact { h with clock := h.clock.trans hc }
  | halted e => exact h

theorem Pc.top_eq (pc : Pc) (hj : pc.Walks → j ≠ w.startIdx_) : pc.top w j = w.slot_ j := by
  cases pc with
  | outside last | loop f | halted e => rfl
  | walk f head | callback f head => exact Function.update_of_ne (hj trivial) _ _

theorem Pc.top_push (pc : Pc) (hj : pc.Walks → j ≠ w.startIdx_) :
    pc.top (w.push x j) = Function.update (pc.top w) j (some x) := by
  cases pc with
  | outside last | loop f | halted e => rfl
  | walk f head => exact Function.update_comm (hj trivial) (some x) head w.slot_
  | callback f head => exact Function.update_comm (hj trivial) (some x) (some head) w.slot_

theorem Sound.setNext (h : w.Sound) (p : Option ℕ) : (w.setNext x p).Sound := by
  intro y
  rw [timers_setNext]
  split
  · exact h x
  · exact h y

theorem Sound.push (h : w.Sound) : (w.push x j).Sound := by
  intro y
  rw [timers_push]
  split
  · exact h x
  · exact h y

theorem Sound.new (h : w.Sound) : (w.new when interval).Sound := by
  intro y
  rw [timers_new]
  split
  · exact ⟨rfl, of_decide_eq_true⟩
  · exact h y

theorem Good.place_of (h : Good n s) (hp : s.pc = pc) : pc.At s.wheel.start_ s.clock := hp ▸ h.place

theorem Good.hangs_of (h : Good n s) (hp : s.pc = pc) :
    ∃ L, Hangs n s.wheel (pc.top s.wheel) s.wheel.Live L := hp ▸ h.hangs

theorem Good.clock (h : Good n s) (hc : s.clock ≤ now) : Good n { s with clock := now } :=
  { h with place := h.place.mono hc }

/-! ### Calls -/

theorem Good.call_eq {c : Call} (h : Good n s)
    (hf : s.wheel.start_ ≤ c.when now → s.wheel.Fits n (c.when now))
    (ha : s.pc.Walks → s.wheel.start_ ≤ c.when now → s.wheel.start_ + 1000 ≤ c.when now) :
    s.call n c now pc =
      if c.when now < s.wheel.start_ ∨ (n.numSlot_ : ℤ) ≤ (c.when now - s.wheel.start_) / 1000 then
        { s with pc := .halted .fatal }
      else
        { s with
          wheel := s.wheel.added n (c.when now) c.interval
          pc := pc
          base := Function.update s.base s.wheel.numCreated_ s.wheel.start_ } := by
  obtain ⟨L, hL⟩ := h.hangs
  have heq := addTimer_eq (c.when now) c.interval hL (fun y => (h.sound y).1) h.created hf
    fun hs hd => Pc.top_eq _ fun hw => slotIndex_ne h.startIdx_lt (ha hw hs) hd
  rw [State.call, heq]
  by_cases hd : c.when now < s.wheel.start_ ∨ (n.numSlot_ : ℤ) ≤ (c.when now - s.wheel.start_) / 1000
  · rw [if_pos hd, if_pos hd]
  · rw [if_neg hd, if_neg hd]

theorem Good.added {base : ℕ → ℤ} (h : Good n s) (hpc : ∀ w, pc.top w = s.pc.top w)
    (hcall : ∀ f head, pc = .callback f head → s.pc = .callback f head)
    (hat : pc.At s.wheel.start_ s.clock) (hj : s.pc.Walks → s.wheel.slotIndex n when ≠ s.wheel.startIdx_) :
    Good n { s with wheel := s.wheel.added n when interval, pc := pc, base := base } := by
  obtain ⟨L, hL⟩ := h.hangs
  refine ⟨h.startIdx_lt, h.sound.new.push, fun x hx => ?_, fun x hx => ?_, fun f head hp => ?_, hat, ?_⟩
  · exact (h.created x hx).trans (Nat.lt_succ_self _)
  · obtain ⟨hr, hf⟩ := h.ran x hx
    refine ⟨?_, hf⟩
    rw [← hr, TimeWheel.added, repeat_push, timers_new, if_neg (h.created x hx).ne]
  · exact h.called f head (hcall f head hp)
  · have hnew : ¬s.wheel.Live s.wheel.numCreated_ := fun hl => lt_irrefl _ hl.1
    have hp := (hL.new when interval).push (slotIndex_lt s.wheel when) (Pc.top_eq _ hj) hnew
    have htop : pc.top (s.wheel.added n when interval) =
        Function.update (s.pc.top s.wheel) (s.wheel.slotIndex n when) (some s.wheel.numCreated_) := by
      rw [hpc]
      exact Pc.top_push (w := s.wheel.new when interval) _ hj
    have hlive : (s.wheel.added n when interval).Live = fun y => s.wheel.Live y ∨ y = s.wheel.numCreated_ :=
      funext fun y => propext (live_added h.created)
    rw [← htop, ← hlive] at hp
    exact ⟨_, hp⟩

/-! ### `tock` -/

theorem Good.tock_eq (h : Good n s) (hc : s.clock = now) (hi : now - s.wheel.start_ < 1000 * INT_MAX) :
    s.tock now = { s with pc := .loop ⟨now, 1, (now - s.wheel.start_) / 1000⟩ } := by
  have hs : s.wheel.start_ ≤ now := hc ▸ h.place.le
  rw [State.tock, castInt_timeDifference hs (by omega)]

theorem Good.tock (h : Good n s) (hp : ¬s.pc.Walks) (hc : s.clock = now)
    (hi : now - s.wheel.start_ < 1000 * INT_MAX) :
    Good n { s with pc := .loop ⟨now, 1, (now - s.wheel.start_) / 1000⟩ } := by
  have hh := h.hangs
  rw [show s.pc.top s.wheel = s.wheel.slot_ from funext fun j => Pc.top_eq _ fun hw => absurd hw hp] at hh
  subst hc
  exact { h with called := nofun, place := .begin h.place.le hi, hangs := hh }

theorem Good.outside (h : Good n s) (hp : s.pc = .loop f) (hi : ¬f.i ≤ f.diff) :
    Good n { s with pc := .outside (some f.now) } := by
  have hl := h.place_of hp
  have hh := h.hangs_of hp
  refine { h with called := nofun, place := ⟨h.place.le, ?_⟩, hangs := hh }
  rintro _ ⟨⟩
  exact hl.done hi

/-- The wheel when the loop has gone on to the next slot. -/
def turned (n : Buckets) (w : TimeWheel) : TimeWheel :=
  { w with startIdx_ := (w.startIdx_ + 1) % n.numSlot_, start_ := w.start_ + 1000 }

theorem State.advance_eq (n : Buckets) (s : State) (h1 : 0 ≤ f.i) (h2 : f.i < INT_MAX) :
    s.advance n f = { s with
      wheel := s.wheel.turned n
      pc := match s.wheel.slot_ (s.wheel.turned n).startIdx_ with
        | some head => .walk f (some head)
        | none => .loop { f with i := f.i + 1 } } := by
  have hturn : { s.wheel with
      startIdx_ := (s.wheel.startIdx_ + 1) % n.numSlot_, start_ := addTime s.wheel.start_ 0.001 } =
      s.wheel.turned n := by rw [addTime_slot, turned]
  rw [State.advance, hturn]
  have hslot : (s.wheel.turned n).slot_ = s.wheel.slot_ := rfl
  rw [hslot]
  cases s.wheel.slot_ (s.wheel.turned n).startIdx_ with
  | none => exact State.incr_eq _ h1 h2
  | some head => rfl

theorem Good.advance_eq (h : Good n s) (hp : s.pc = .loop f) (hi : f.i ≤ f.diff) :
    s.advance n f = { s with
      wheel := s.wheel.turned n
      pc := match s.wheel.slot_ (s.wheel.turned n).startIdx_ with
        | some head => .walk f (some head)
        | none => .loop { f with i := f.i + 1 } } := by
  have hl := h.place_of hp
  have h1 := hl.i
  have h2 := hl.diff
  exact s.advance_eq n (by omega) (by omega)

theorem Good.advance (h : Good n s) (hp : s.pc = .loop f) (hi : f.i ≤ f.diff) : Good n (s.advance n f) := by
  rw [h.advance_eq hp hi]
  have hl := h.place_of hp
  obtain ⟨L, hL⟩ := h.hangs_of hp
  have hlt : (s.wheel.turned n).startIdx_ < n.numSlot_ := Nat.mod_lt _ n.pos
  cases hh : s.wheel.slot_ (s.wheel.turned n).startIdx_ with
  | none =>
    exact { h with
      startIdx_lt := hlt
      called := nofun
      place := (hl.advance hi).incr
      hangs := ⟨L, hL.congr fun _ _ => rfl⟩ }
  | some head =>
    have htop : Pc.top (s.wheel.turned n) (.walk f (some head)) = Pc.top s.wheel (.loop f) := by
      have hu := Function.update_eq_self (s.wheel.turned n).startIdx_ s.wheel.slot_
      rw [hh] at hu
      exact hu
    rw [← htop] at hL
    exact { h with
      startIdx_lt := hlt
      called := nofun
      place := hl.advance hi
      hangs := ⟨L, hL.congr fun _ _ => rfl⟩ }

/-- The end of a list. -/
theorem Good.walked (h : Good n s) (hp : s.pc = .walk f none) :
    Good n { s with wheel := s.wheel.setSlot s.wheel.startIdx_ none, pc := .loop { f with i := f.i + 1 } } := by
  have hl := h.place_of hp
  obtain ⟨L, hL⟩ := h.hangs_of hp
  exact { h with called := nofun, place := hl.incr, hangs := ⟨L, hL.congr fun _ _ => rfl⟩ }

theorem State.run_eq (hlive : s.wheel.Live head) (hi : (s.wheel.timers head).index_ = s.wheel.startIdx_) :
    s.run f head = { s with pc := .callback f head, fired := s.fired ++ [(head, f.now)] } := by
  simp only [State.run, deref, if_pos hlive, if_pos hi.symm]

/-- The head of the list is there, and its index is the one of the slot. -/
theorem Good.run_eq (h : Good n s) (hp : s.pc = .walk f (some head)) :
    s.run f head = { s with pc := .callback f head, fired := s.fired ++ [(head, f.now)] } := by
  obtain ⟨L, hL⟩ := h.hangs_of hp
  obtain ⟨hlive, hi⟩ := hL.top_mem h.startIdx_lt (Function.update_self ..)
  exact State.run_eq hlive hi

theorem Good.run (h : Good n s) (hp : s.pc = .walk f (some head)) :
    Good n { s with pc := .callback f head, fired := s.fired ++ [(head, f.now)] } := by
  have hl := h.place_of hp
  have hh := h.hangs_of hp
  refine { h with ran := fun x hx => ⟨(h.ran x hx).1, ?_⟩, called := ?_, place := hl, hangs := hh }
  · rw [List.map_append]
    exact List.mem_append_left _ (h.ran x hx).2
  · rintro _ _ ⟨⟩
    rw [List.map_append]
    exact List.mem_append_right _ List.mem_cons_self

/-! ### The end of a callback -/

/-- When `head` has been read off, the rest of its list and the other lists hang. -/
theorem Hangs.pop_callback {P : ℕ → Prop} {L : ℕ → List ℕ} (h : Hangs n w (Pc.top w (.callback f head)) P L)
    (hlt : w.startIdx_ < n.numSlot_) :
    P head ∧ ∃ l, L w.startIdx_ = head :: l ∧
      Hangs n (w.setNext head none) (Pc.top w (.walk f (w.getNext head))) (fun y => P y ∧ y ≠ head)
        (Function.update L w.startIdx_ l) := by
  have ht : Pc.top w (.callback f head) w.startIdx_ = some head := Function.update_self ..
  obtain ⟨l, hl, hpop⟩ := h.pop hlt ht
  have htop : Function.update (Pc.top w (.callback f head)) w.startIdx_ (w.getNext head) =
      Pc.top w (.walk f (w.getNext head)) := Function.update_idem ..
  rw [htop] at hpop
  exact ⟨(h.top_mem hlt ht).1, l, hl, hpop⟩

theorem Good.pop (h : Good n s) (hp : s.pc = .callback f head) :
    s.wheel.Live head ∧ ∃ L, Hangs n (s.wheel.setNext head none)
      (Pc.top s.wheel (.walk f (s.wheel.getNext head))) (fun y => s.wheel.Live y ∧ y ≠ head) L := by
  obtain ⟨L, hL⟩ := h.hangs_of hp
  obtain ⟨hlive, l, -, hpop⟩ := hL.pop_callback h.startIdx_lt
  exact ⟨hlive, _, hpop⟩

theorem State.ret_delete_eq (hlive : s.wheel.Live head) (hr : (s.wheel.timers head).repeat_ = false) :
    s.ret n f head now =
      { s with wheel := (s.wheel.setNext head none).delete head, pc := .walk f (s.wheel.getNext head) } := by
  have heq : s.wheel.afterRun n head now = .ok ((s.wheel.setNext head none).delete head, s.wheel.getNext head) := by
    rw [afterRun, deref, if_pos hlive, ok_bind, hr]
    rfl
  rw [State.ret, heq]

theorem Good.ret_delete_eq (h : Good n s) (hp : s.pc = .callback f head)
    (hr : (s.wheel.timers head).repeat_ = false) :
    s.ret n f head now =
      { s with wheel := (s.wheel.setNext head none).delete head, pc := .walk f (s.wheel.getNext head) } :=
  State.ret_delete_eq (h.pop hp).1 hr

theorem Good.ret_delete (h : Good n s) (hp : s.pc = .callback f head)
    (hr : (s.wheel.timers head).repeat_ = false) :
    Good n { s with
      wheel := (s.wheel.setNext head none).delete head, pc := .walk f (s.wheel.getNext head) } := by
  obtain ⟨hlive, L, hL⟩ := h.pop hp
  have hl := h.place_of hp
  refine ⟨h.startIdx_lt, h.sound.setNext none, fun x hx => ?_, fun x hx => ?_, nofun, hl, L, ?_⟩
  · rcases List.mem_cons.1 hx with rfl | hx
    · exact hlive.1
    · exact h.created x hx
  · rcases List.mem_cons.1 hx with rfl | hx
    · exact ⟨(repeat_setNext none x).trans hr, h.called f x hp⟩
    · exact ⟨(repeat_setNext none x).trans (h.ran x hx).1, (h.ran x hx).2⟩
  · have heq : ((s.wheel.setNext head none).delete head).Live = fun y => s.wheel.Live y ∧ y ≠ head := by
      funext y
      have : ((s.wheel.setNext head none).delete head).Live y ↔ y < s.wheel.numCreated_ ∧ y ∉ head :: s.wheel.deleted :=
        Iff.rfl
      rw [this, List.mem_cons, not_or, and_comm (a := y ≠ head), ← and_assoc]
      rfl
    rw [← heq] at hL
    exact hL.congr fun _ _ => rfl

/-- The time of a repeating timer is its interval away. -/
theorem Good.le_again (h : Good n s) (hc : s.clock ≤ now) (hr : (s.wheel.timers head).repeat_ = true) :
    s.wheel.start_ ≤ addTime now (s.wheel.timers head).interval_ :=
  (h.place.le.trans hc).trans (le_addTime ((h.sound head).2 hr).le)

/-- The timer goes to the slot of its time, from the wheel without it. -/
theorem State.ret_repeat_eq {P : ℕ → Prop} {L : ℕ → List ℕ} (hlive : s.wheel.Live head)
    (hL : Hangs n (s.wheel.setNext head none) (Pc.top s.wheel (.walk f (s.wheel.getNext head))) P L)
    (hP : ∀ y, P y → s.wheel.Live y ∧ ((s.wheel.setNext head none).timers y).pre_ = none)
    (hlt : s.wheel.startIdx_ < n.numSlot_) (hr : (s.wheel.timers head).repeat_ = true)
    (hw : addTime now (s.wheel.timers head).interval_ = when) (hs : s.wheel.start_ + 1000 ≤ when)
    (hf : s.wheel.Fits n when) :
    s.ret n f head now =
      if (n.numSlot_ : ℤ) ≤ (when - s.wheel.start_) / 1000 then { s with pc := .halted .fatal }
      else { s with
        wheel := (s.wheel.setNext head none).push head (s.wheel.slotIndex n when)
        pc := .walk f (s.wheel.getNext head) } := by
  have hs' : s.wheel.start_ ≤ when := by omega
  have hself : (s.wheel.setNext head none).getNext head = none := by
    rw [getNext, timers_setNext, if_pos rfl]
  have heq := addTimerPtr_eq head when hL (fun y hy => (hP y hy).1) (fun y hy => (hP y hy).2)
    hself hs' hf fun hd => Pc.top_eq _ fun _ => slotIndex_ne hlt hs hd
  have hret : s.wheel.afterRun n head now =
      (s.wheel.setNext head none).addTimerPtr n head when >>= fun w => .ok (w, s.wheel.getNext head) := by
    rw [afterRun, deref, if_pos hlive, ok_bind, hr, hw]
    rfl
  rw [State.ret, hret, heq]
  by_cases hd : (n.numSlot_ : ℤ) ≤ (when - s.wheel.start_) / 1000
  · rw [if_pos hd]
    simp only [if_pos (show (n.numSlot_ : ℤ) ≤ (when - (s.wheel.setNext head none).start_) / 1000 from hd)]
    rfl
  · rw [if_neg hd]
    simp only [if_neg (show ¬(n.numSlot_ : ℤ) ≤ (when - (s.wheel.setNext head none).start_) / 1000 from hd)]
    rfl

theorem Good.ret_repeat_eq (h : Good n s) (hp : s.pc = .callback f head) (hr : (s.wheel.timers head).repeat_ = true)
    (hw : addTime now (s.wheel.timers head).interval_ = when) (hs : s.wheel.start_ + 1000 ≤ when)
    (hf : s.wheel.Fits n when) :
    s.ret n f head now =
      if (n.numSlot_ : ℤ) ≤ (when - s.wheel.start_) / 1000 then { s with pc := .halted .fatal }
      else { s with
        wheel := (s.wheel.setNext head none).push head (s.wheel.slotIndex n when)
        pc := .walk f (s.wheel.getNext head) } := by
  obtain ⟨hlive, L, hL⟩ := h.pop hp
  exact State.ret_repeat_eq hlive hL (fun y hy => ⟨hy.1, (h.sound.setNext none y).1⟩) h.startIdx_lt hr hw hs hf

theorem Good.ret_repeat (h : Good n s) (hp : s.pc = .callback f head)
    (hj : j < n.numSlot_) (hne : j ≠ s.wheel.startIdx_) :
    Good n { s with
      wheel := (s.wheel.setNext head none).push head j, pc := .walk f (s.wheel.getNext head) } := by
  obtain ⟨hlive, L, hL⟩ := h.pop hp
  have hl := h.place_of hp
  have hpush := hL.push hj (Pc.top_eq (.walk f (s.wheel.getNext head)) fun _ => hne) fun hh => hh.2 rfl
  refine ⟨h.startIdx_lt, (h.sound.setNext none).push, h.created, fun x hx => ?_, nofun, hl, ?_⟩
  · rw [repeat_push, repeat_setNext]
    exact h.ran x hx
  · have hlive' : ((s.wheel.setNext head none).push head j).Live =
        fun y => (s.wheel.Live y ∧ y ≠ head) ∨ y = head := by
      funext y
      have : ((s.wheel.setNext head none).push head j).Live y ↔ s.wheel.Live y := Iff.rfl
      rw [this, eq_iff_iff]
      by_cases hy : y = head
      · subst hy
        exact iff_of_true hlive (.inr rfl)
      · exact ⟨fun hh => .inl ⟨hh, hy⟩, fun hh => (hh.resolve_right hy).1⟩
    have htop := Pc.top_push (w := s.wheel.setNext head none) (x := head)
      (.walk f (s.wheel.getNext head)) fun _ => hne
    rw [← hlive'] at hpush
    exact ⟨_, htop ▸ hpush⟩

end Good

/-! ## No timer is lost -/

/-- The time of the addition that a statement makes. -/
def State.adds (s : State) (a : Action) : Option ℤ :=
  match a.move, s.pc with
  | .call c, _ => some (c.when a.now)
  | .ret, .callback _ head =>
    if (s.wheel.timers head).repeat_ then some (addTime a.now (s.wheel.timers head).interval_) else none
  | _, _ => none

/-- What is added during the loop over a list is at least a millisecond ahead of `start_`, and no `int` overflows. -/
structure Clear (n : Buckets) (x : State × Action × State) : Prop where
  ahead : ∀ when ∈ x.1.adds x.2.1, x.1.pc.Walks → x.1.wheel.start_ ≤ when → x.1.wheel.start_ + 1000 ≤ when
  fits : ∀ when ∈ x.1.adds x.2.1, x.1.wheel.start_ ≤ when → x.1.wheel.Fits n when
  tock : x.2.1.move = .tock → x.2.1.now - x.1.wheel.start_ < 1000 * INT_MAX

instance : (pc : Pc) → Decidable pc.Walks
  | .walk _ _ | .callback _ _ => inferInstanceAs (Decidable True)
  | .outside _ | .loop _ | .halted _ => inferInstanceAs (Decidable False)

instance (w : TimeWheel) (when : ℤ) : Decidable (w.Fits n when) := inferInstanceAs (Decidable (_ ∧ _))

instance (x : State × Action × State) : Decidable (Clear n x) :=
  decidable_of_iff
    ((∀ when ∈ x.1.adds x.2.1, x.1.pc.Walks → x.1.wheel.start_ ≤ when → x.1.wheel.start_ + 1000 ≤ when) ∧
      (∀ when ∈ x.1.adds x.2.1, x.1.wheel.start_ ≤ when → x.1.wheel.Fits n when) ∧
      (x.2.1.move = .tock → x.2.1.now - x.1.wheel.start_ < 1000 * INT_MAX))
    ⟨fun h => ⟨h.1, h.2.1, h.2.2⟩, fun h => ⟨h.ahead, h.fits, h.tock⟩⟩

/-- The timer has been added, and it is repeating or has not run. -/
def State.Pending (s : State) (x : ℕ) : Prop :=
  x < s.wheel.numCreated_ ∧ ((s.wheel.timers x).repeat_ = true ∨ x ∉ s.fired.map Prod.fst)

/-- Every list is finite, every pending timer occurs in one of them and once, and no deleted one does. -/
def State.Linked (n : Buckets) (s : State) : Prop :=
  ∃ L : ℕ → List ℕ,
    (∀ j < n.numSlot_, Chain s.wheel.getNext (s.wheel.slot_ j) (L j)) ∧
    (∀ x, s.Pending x → ∃ j < n.numSlot_, (L j).count x = 1 ∧ ∀ i < n.numSlot_, x ∈ L i → i = j) ∧
    ∀ j < n.numSlot_, ∀ x ∈ L j, x ∉ s.wheel.deleted

/-- The behaviour is defined, and outside of `tock` nothing is lost. -/
structure State.Kept (n : Buckets) (s : State) : Prop where
  defined : s.pc ≠ .halted .undefined
  linked : ∀ last, s.pc = .outside last → s.Linked n

section Kept

variable {s s' : State} {a : Action}

theorem Good.linked {last : Option ℤ} (h : Good n s) (hp : s.pc = .outside last) : s.Linked n := by
  obtain ⟨L, hL⟩ := h.hangs_of hp
  refine ⟨L, hL.chain, fun x hx => ?_, fun j hj x hm => (hL.index j hj x hm).1.2⟩
  have hlive : s.wheel.Live x := by
    refine ⟨hx.1, fun hd => ?_⟩
    obtain ⟨hr, hf⟩ := h.ran x hd
    rcases hx.2 with hr' | hf'
    · rw [hr] at hr'
      cases hr'
    · exact hf' hf
  obtain ⟨j, hj, hm, hi⟩ := hL.mem hlive
  refine ⟨j, hj, List.count_eq_one_of_mem (hL.nodup j hj) hm, fun i hi' hm' => ?_⟩
  have := (hL.index i hi' x hm').2
  omega

theorem Good.stmt (h : Good n s) (hc : Clear n (s, a, s')) (hnow : s.clock = a.now) (hs : Stmt n s a s') :
    Good n s' ∨ s'.pc = .halted .fatal := by
  cases hs with
  | @call c now last hp =>
    rw [h.call_eq (hc.fits _ rfl) (hc.ahead _ rfl)]
    split
    · exact .inr rfl
    · refine .inl (h.added (fun w => ?_) nofun ⟨h.place.le, nofun⟩ fun hw => ?_)
      · rw [hp]
        rfl
      · rw [hp] at hw
        exact hw.elim
  | @callback c now f head hp =>
    have hw : s.pc.Walks := by
      rw [hp]
      trivial
    rw [h.call_eq (hc.fits _ rfl) (hc.ahead _ rfl)]
    split
    · exact .inr rfl
    · rename_i hd
      obtain ⟨hs, hd⟩ := not_or.1 hd
      have hne := slotIndex_ne h.startIdx_lt (hc.ahead _ rfl hw (not_lt.1 hs)) (not_le.1 hd)
      exact .inl (h.added (fun w => by rw [hp]) (fun _ _ he => hp.trans he) (h.place_of hp) fun _ => hne)
  | tock hp =>
    rw [h.tock_eq hnow (hc.tock rfl)]
    refine .inl (h.tock ?_ hnow (hc.tock rfl))
    rw [hp]
    exact id
  | advance hp hi => exact .inl (h.advance hp hi)
  | outside hp hi => exact .inl (h.outside hp hi)
  | run hp =>
    rw [h.run_eq hp]
    exact .inl (h.run hp)
  | walked hp =>
    have hl := h.place_of hp
    rw [hl.incr_eq (sub_nonneg.1 hl.nonneg)]
    exact .inl (h.walked hp)
  | @ret now f head hp =>
    cases hr : (s.wheel.timers head).repeat_ with
    | false =>
      rw [h.ret_delete_eq hp hr]
      exact .inl (h.ret_delete hp hr)
    | true =>
      have hw : s.pc.Walks := by
        rw [hp]
        trivial
      have ha : addTime now (s.wheel.timers head).interval_ ∈ s.adds ⟨now, .ret⟩ := by
        simp only [State.adds, hp, hr]
        rfl
      have hst := h.le_again hnow.le hr
      have hst' := hc.ahead _ ha hw hst
      rw [h.ret_repeat_eq hp hr rfl hst' (hc.fits _ ha hst)]
      split
      · exact .inr rfl
      · rename_i hd
        exact .inl (h.ret_repeat hp (slotIndex_lt _ _) (slotIndex_ne h.startIdx_lt hst' (not_le.1 hd)))

theorem Good.step (h : Good n s) (hc : Clear n (s, a, s')) (hs : TimeWheel.step n s a = some s') :
    Good n s' ∨ s'.pc = .halted .fatal := by
  obtain ⟨hle, hst⟩ := step_cases hs
  exact (h.clock hle).stmt ⟨hc.ahead, hc.fits, hc.tock⟩ rfl hst

/-- Nothing follows the end of the process. -/
theorem step_halted {e : Halt} (hp : s.pc = .halted e) : TimeWheel.step n s a = none := by
  cases hs : TimeWheel.step n s a with
  | none => rfl
  | some s' =>
    obtain ⟨-, hst⟩ := step_cases hs
    cases hst with
    | call hp' | callback hp' | tock hp' | advance hp' _ | outside hp' _ | run hp' | walked hp' | ret hp' =>
      cases hp.symm.trans hp'

theorem good_init (now : ℤ) : Good n (init now) where
  startIdx_lt := n.pos
  sound _ := ⟨rfl, fun h => absurd (of_decide_eq_true (p := (0 : ℚ) < 0) h) (lt_irrefl 0)⟩
  created := nofun
  ran := nofun
  called := nofun
  place := ⟨le_rfl, nofun⟩
  hangs := ⟨fun _ => [], fun _ _ => rfl, fun _ _ => List.nodup_nil, nofun, fun x hx => absurd hx.1 (Nat.not_lt_zero x)⟩

/-- What a run keeps whose steps are all clear. -/
theorem good_run {now : ℤ} {t : State} {v : List (State × Action × State)}
    (h : Lts.Run (timeWheel n now) (init now) v t) (hv : ∀ x ∈ v, Clear n x) :
    ∀ u ∈ Lts.visited (init now) v, Good n u ∨ u.pc = .halted .fatal := by
  refine h.invariant ?_ hv (.inl (good_init now))
  rintro u a u' (hu | hu) hc hst
  · exact hu.step hc hst
  · cases (step_halted hu).symm.trans hst

/-- **No timer is lost.** When nothing is added to the slot that `tock` walks, and no `int` overflows, then whenever
`tock` has returned every list is finite, every pending timer occurs in exactly one list and once, and no deleted one
occurs. -/
theorem tock_keeps_timers {now : ℤ} {t : State} {v : List (State × Action × State)}
    (h : Lts.Run (timeWheel n now) (init now) v t) (hv : ∀ x ∈ v, Clear n x) :
    ∀ u ∈ Lts.visited (init now) v, u.Kept n := by
  intro u hu
  rcases good_run h hv u hu with hg | hp
  · refine ⟨fun hp => ?_, fun last hp => hg.linked hp⟩
    have hl := hg.place_of hp
    exact hl
  · exact ⟨by rw [hp]; nofun, fun last hp' => nomatch hp.symm.trans hp'⟩

/-- Two timers run in one `tock`: a callback adds a third one, and the second one repeats. -/
def addedAhead : List Action :=
  [⟨0, .call (.runAfter 0.001)⟩, ⟨0, .call (.runEvery 0.002)⟩, ⟨2500, .tock⟩, ⟨2500, .next⟩, ⟨2500, .next⟩,
    ⟨2500, .call (.runAfter 0.003)⟩, ⟨2500, .ret⟩, ⟨2500, .next⟩, ⟨2500, .next⟩, ⟨2500, .next⟩, ⟨2600, .ret⟩,
    ⟨2600, .next⟩, ⟨2600, .next⟩]

theorem tock_keeps_timers_addedAhead : ∃ s, Lts.exec (TimeWheel.step .default) (init 0) addedAhead = some s ∧
    s.pc = .outside (some 2500) ∧
    ∀ u ∈ Lts.visited (init 0) (Lts.moves (TimeWheel.step .default) (init 0) addedAhead), u.Kept .default := by
  obtain ⟨s, hs, hpc⟩ : ∃ s ∈ Lts.exec (TimeWheel.step .default) (init 0) addedAhead, s.pc = .outside (some 2500) := by
    decide +kernel
  exact ⟨s, hs, hpc, tock_keeps_timers (Lts.Run.moves hs) (by decide +kernel)⟩

/-- A callback calls `runAfter` with a delay of 0. -/
def addedNow : List Action :=
  [⟨0, .call (.runAfter 0.001)⟩, ⟨1000, .tock⟩, ⟨1000, .next⟩, ⟨1000, .next⟩, ⟨1000, .call (.runAfter 0)⟩,
    ⟨1000, .ret⟩, ⟨1000, .next⟩, ⟨1000, .next⟩]

/-- The new timer is pushed on the walked slot, which `tock` then clears. -/
theorem exec_addedNow : ∃ s, Lts.exec (TimeWheel.step .default) (init 0) addedNow = some s ∧
    s.pc = .outside (some 1000) ∧ s.Pending 1 ∧ ∀ j, s.wheel.slot_ j = none := by
  have h1 : addTime 0 0.001 = 1000 := by decide +kernel
  have h2 : addTime 1000 0 = 1000 := by decide +kernel
  have h3 : castInt (timeDifference 1000 0 * 1000) = .ok 1 := by decide +kernel
  have h4 : castInt (timeDifference 1000 1000 * 1000) = .ok 0 := by decide +kernel
  have h5 : int 1 = .ok 1 := rfl
  have h6 : int 2 = .ok 2 := rfl
  simp [addedNow, Lts.exec, TimeWheel.step, init, State.call, Call.when, Call.interval, h1, h2, h3, h4, h5, h6,
    addTimer, addTimerInReactor, addTimerPtr, new, deref, Live, Timer.new, slotAt, setSlot, setIndex, setNext,
    Buckets.default, State.tock, State.next, State.advance, State.run, State.ret, State.incr, afterRun, delete,
    State.Pending, bind, Except.bind, Function.update_apply]

theorem not_kept_addedNow : ¬∀ s, Lts.Reach (timeWheel .default 0) s → s.Kept .default := by
  intro h
  obtain ⟨s, hs, hp, hx, hslot⟩ := exec_addedNow
  obtain ⟨L, hL, hone, -⟩ := (h s (Lts.Reach.exec (.init rfl) hs)).linked _ hp
  obtain ⟨j, hj, hcount, -⟩ := hone 1 hx
  have hnil : L j = [] := (hL j hj).eq_nil_iff.2 (hslot j)
  rw [hnil] at hcount
  cases hcount

end Kept

end Libeva.TimeWheel
