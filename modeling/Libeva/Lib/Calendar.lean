import Mathlib.Data.Nat.Basic
import Mathlib.Order.Lattice

/-!
# Blocks of days and the civil calendar

A line of units is cut into blocks: block `k` has `len k` units and begins at `start len k`. `locate` finds the block
of a unit and its place there (`locate_spec`), and the place is unique and ordered as the units are (`block_lt_iff`).
Years are blocks of days, months are blocks of the days of a year, and so `ofDays` and `toDays` are inverse to each
other and keep the order. `civil` and `ofCivil` go on before the epoch, in cycles of 400 years.
-/

namespace Calendar

/-! ## Blocks -/

section Blocks

variable {len : ℕ → ℕ} {n k k' r r' d : ℕ}

def start (len : ℕ → ℕ) : ℕ → ℕ
  | 0 => 0
  | k + 1 => start len k + len k

/-- The block of the unit that is `d` units behind the beginning of block `k`, and its place in that block. -/
def locate (len : ℕ → ℕ) : ℕ → ℕ → ℕ → ℕ × ℕ
  | 0, k, d => (k, d)
  | n + 1, k, d => if d < len k then (k, d) else locate len n (k + 1) (d - len k)

theorem start_mono (h : k ≤ k') : start len k ≤ start len k' := by
  induction h with
  | refl => exact Nat.le_refl _
  | step _ ih => exact Nat.le_trans ih (Nat.le_add_right _ _)

theorem locate_spec (hlen : ∀ k, 0 < len k) (hd : d ≤ n) : (locate len n k d).2 < len (locate len n k d).1 ∧
    start len (locate len n k d).1 + (locate len n k d).2 = start len k + d ∧ k ≤ (locate len n k d).1 := by
  induction n generalizing k d with
  | zero =>
    obtain rfl := Nat.le_zero.1 hd
    exact ⟨hlen k, rfl, Nat.le_refl k⟩
  | succ n ih =>
    have hk := hlen k
    unfold locate
    split
    · rename_i h
      exact ⟨h, rfl, Nat.le_refl k⟩
    · obtain ⟨h1, h2, h3⟩ := ih (k := k + 1) (d := d - len k) (by omega)
      refine ⟨h1, ?_, Nat.le_of_succ_le h3⟩
      rw [h2, start]
      omega

/-- Units are ordered by their blocks, and by their places in one block. -/
theorem block_lt_iff (hr : r < len k) (hr' : r' < len k') :
    start len k + r < start len k' + r' ↔ k < k' ∨ k = k' ∧ r < r' := by
  rcases Nat.lt_trichotomy k k' with h | rfl | h
  · have hs : start len k + len k ≤ start len k' := start_mono (Nat.succ_le_of_lt h)
    omega
  · omega
  · have hs : start len k' + len k' ≤ start len k := start_mono (Nat.succ_le_of_lt h)
    omega

end Blocks

/-! ## Years and months -/

def isLeap (y : ℕ) : Bool := y % 4 = 0 ∧ (y % 100 ≠ 0 ∨ y % 400 = 0)

/-- The days of month `m`, from `0` on. -/
def monthDays (y : ℕ) : ℕ → ℕ
  | 1 => if isLeap y then 29 else 28
  | 3 | 5 | 8 | 10 => 30
  | _ => 31

def yearDays (y : ℕ) : ℕ := if isLeap y then 366 else 365

/-- Days since the first day of the year 1970. -/
def epochDays (k : ℕ) : ℕ := yearDays (1970 + k)

structure Date where
  year : ℕ
  /-- From `0` on. -/
  month : ℕ
  /-- From `0` on. -/
  day : ℕ
  deriving DecidableEq

def Date.Valid (t : Date) : Prop := 1970 ≤ t.year ∧ t.month < 12 ∧ t.day < monthDays t.year t.month

def ofDays (d : ℕ) : Date :=
  let y := locate epochDays d 0 d
  let m := locate (monthDays (1970 + y.1)) y.2 0 y.2
  ⟨1970 + y.1, m.1, m.2⟩

def toDays (t : Date) : ℕ :=
  start epochDays (t.year - 1970) + (start (monthDays t.year) t.month + t.day)

theorem monthDays_pos (y m : ℕ) : 0 < monthDays y m := by
  unfold monthDays
  repeat' split
  all_goals decide

theorem monthDays_le (y m : ℕ) : monthDays y m ≤ 31 := by
  unfold monthDays
  repeat' split
  all_goals decide

theorem start_monthDays (y : ℕ) : start (monthDays y) 12 = yearDays y := by
  simp only [start, monthDays, yearDays]
  split <;> rfl

theorem epochDays_pos (k : ℕ) : 0 < epochDays k := by
  unfold epochDays yearDays
  split <;> decide

theorem Date.Valid.dayOfYear_lt {t : Date} (h : t.Valid) :
    start (monthDays t.year) t.month + t.day < yearDays t.year := by
  obtain ⟨-, hm, hd⟩ := h
  have hs : start (monthDays t.year) t.month + monthDays t.year t.month ≤ start (monthDays t.year) 12 :=
    start_mono (Nat.succ_le_of_lt hm)
  rw [start_monthDays] at hs
  omega

theorem ofDays_valid (d : ℕ) : (ofDays d).Valid := by
  obtain ⟨hy, -, -⟩ := locate_spec (k := 0) epochDays_pos (Nat.le_refl d)
  obtain ⟨hm, he, -⟩ := locate_spec (k := 0) (monthDays_pos (1970 + (locate epochDays d 0 d).1))
    (Nat.le_refl (locate epochDays d 0 d).2)
  refine ⟨Nat.le_add_right _ _, ?_, hm⟩
  by_contra hlt
  have hs : start (monthDays (ofDays d).year) 12 ≤ start (monthDays (ofDays d).year) (ofDays d).month :=
    start_mono (Nat.le_of_not_lt hlt)
  rw [start_monthDays] at hs
  have hy' : (locate epochDays d 0 d).2 < yearDays (ofDays d).year := hy
  have he' : start (monthDays (ofDays d).year) (ofDays d).month + (ofDays d).day = 0 + (locate epochDays d 0 d).2 := he
  omega

/-- **Round trip.** -/
theorem toDays_ofDays (d : ℕ) : toDays (ofDays d) = d := by
  obtain ⟨-, hy, -⟩ := locate_spec (k := 0) epochDays_pos (Nat.le_refl d)
  obtain ⟨-, hm, -⟩ := locate_spec (k := 0) (monthDays_pos (1970 + (locate epochDays d 0 d).1))
    (Nat.le_refl (locate epochDays d 0 d).2)
  have hyear : (ofDays d).year - 1970 = (locate epochDays d 0 d).1 := Nat.add_sub_cancel_left ..
  have hday : start (monthDays (ofDays d).year) (ofDays d).month + (ofDays d).day = 0 + (locate epochDays d 0 d).2 := hm
  unfold toDays
  rw [hyear, hday, Nat.zero_add, hy, start, Nat.zero_add]

/-- Days are ordered by the year, the month and the day. -/
theorem toDays_lt_iff {t u : Date} (ht : t.Valid) (hu : u.Valid) : toDays t < toDays u ↔
    t.year < u.year ∨ t.year = u.year ∧ (t.month < u.month ∨ t.month = u.month ∧ t.day < u.day) := by
  have hyt : 1970 + (t.year - 1970) = t.year := Nat.add_sub_cancel' ht.1
  have hyu : 1970 + (u.year - 1970) = u.year := Nat.add_sub_cancel' hu.1
  have hdt : start (monthDays t.year) t.month + t.day < epochDays (t.year - 1970) := by
    rw [epochDays, hyt]
    exact ht.dayOfYear_lt
  have hdu : start (monthDays u.year) u.month + u.day < epochDays (u.year - 1970) := by
    rw [epochDays, hyu]
    exact hu.dayOfYear_lt
  unfold toDays
  rw [block_lt_iff hdt hdu]
  have hlt : t.year - 1970 < u.year - 1970 ↔ t.year < u.year := by omega
  have heq : t.year - 1970 = u.year - 1970 ↔ t.year = u.year := by omega
  rw [hlt, heq]
  refine or_congr_right (and_congr_right fun hy => ?_)
  rw [← hy]
  exact block_lt_iff ht.2.2 (by rw [hy]; exact hu.2.2)

/-! ## Before the epoch

The calendar repeats after 400 years, and so a day before the epoch is a later day of some cycle. -/

section Cycles

variable {y j : ℕ} {d : ℤ}

/-- The days of 400 years. -/
def cycleDays : ℕ := 146097

theorem isLeap_add_cycles (y j : ℕ) : isLeap (y + 400 * j) = isLeap y := by
  have h4 : (y + 400 * j) % 4 = y % 4 := by omega
  have h100 : (y + 400 * j) % 100 = y % 100 := by omega
  have h400 : (y + 400 * j) % 400 = y % 400 := by omega
  rw [isLeap, isLeap, h4, h100, h400]

theorem monthDays_add_cycles (y j : ℕ) : monthDays (y + 400 * j) = monthDays y := by
  funext m
  unfold monthDays
  rw [isLeap_add_cycles]

theorem start_epochDays_add (k : ℕ) : start epochDays (k + 400) = start epochDays k + cycleDays := by
  induction k with
  | zero => decide +kernel
  | succ k ih =>
    have hyear : epochDays (k + 400) = epochDays k := by
      unfold epochDays yearDays
      rw [← Nat.add_assoc, isLeap_add_cycles _ 1]
    rw [Nat.add_right_comm, start, ih, hyear, start]
    omega

theorem start_epochDays_add_cycles (k j : ℕ) : start epochDays (k + 400 * j) = start epochDays k + cycleDays * j := by
  induction j with
  | zero => rfl
  | succ j ih =>
    rw [Nat.mul_succ, ← Nat.add_assoc, start_epochDays_add, ih, Nat.mul_succ]
    omega

/-- The same date, some cycles later. -/
theorem toDays_add_cycles (hy : 1970 ≤ y) (m r j : ℕ) :
    toDays ⟨y + 400 * j, m, r⟩ = toDays ⟨y, m, r⟩ + cycleDays * j := by
  have hk : y + 400 * j - 1970 = y - 1970 + 400 * j := by omega
  unfold toDays
  dsimp only
  rw [hk, start_epochDays_add_cycles, monthDays_add_cycles]
  omega

/-- The cycles from day `d` to the epoch. -/
def cyclesTo (d : ℤ) : ℕ := ((-d).toNat + 146096) / 146097

/-- The year, month and day of any day. -/
def civil (d : ℤ) : ℤ × ℕ × ℕ :=
  let t := ofDays (d + cycleDays * cyclesTo d).toNat
  (t.year - 400 * cyclesTo d, t.month, t.day)

/-- The day of a date in any year. -/
def ofCivil (year : ℤ) (month day : ℕ) : ℤ :=
  let k := ((1970 - year).toNat + 399) / 400
  toDays ⟨(year + 400 * k).toNat, month, day⟩ - cycleDays * k

theorem cyclesTo_of_nonneg (h : 0 ≤ d) : cyclesTo d = 0 := by
  unfold cyclesTo
  omega

/-- From the epoch on there is nothing to shift. -/
theorem civil_natCast (d : ℕ) : civil d = (((ofDays d).year : ℤ), (ofDays d).month, (ofDays d).day) := by
  unfold civil
  rw [cyclesTo_of_nonneg (Int.natCast_nonneg d)]
  simp

theorem civil_valid (d : ℤ) : (civil d).2.1 < 12 ∧ (civil d).2.2 < 31 := by
  obtain ⟨-, hm, hd⟩ := ofDays_valid (d + cycleDays * cyclesTo d).toNat
  exact ⟨hm, Nat.lt_of_lt_of_le hd (monthDays_le _ _)⟩

/-- **Round trip**, for every day. -/
theorem ofCivil_civil (d : ℤ) : ofCivil (civil d).1 (civil d).2.1 (civil d).2.2 = d := by
  have h0 : 0 ≤ d + cycleDays * cyclesTo d := by
    unfold cycleDays cyclesTo
    omega
  have hdays := toDays_ofDays (d + cycleDays * cyclesTo d).toNat
  obtain ⟨hyear, -, -⟩ := ofDays_valid (d + cycleDays * cyclesTo d).toNat
  unfold ofCivil civil
  generalize ofDays (d + cycleDays * cyclesTo d).toNat = t at hdays hyear
  generalize cyclesTo d = k at *
  dsimp only
  -- a year may need fewer cycles than its first day
  obtain ⟨i, j, hi, hj, hle⟩ : ∃ i j : ℕ, ((1970 - ((t.year : ℤ) - 400 * k)).toNat + 399) / 400 = i ∧ k = i + j ∧
      1970 ≤ ((t.year : ℤ) - 400 * k + 400 * i) := by
    refine ⟨_, k - ((1970 - ((t.year : ℤ) - 400 * k)).toNat + 399) / 400, rfl, ?_, ?_⟩
    · omega
    · omega
  rw [hi]
  have hsame : t.year = ((t.year : ℤ) - 400 * k + 400 * i).toNat + 400 * j := by omega
  have hadd := toDays_add_cycles (y := ((t.year : ℤ) - 400 * k + 400 * i).toNat) (by omega) t.month t.day j
  rw [← hsame] at hadd
  have ht : toDays t = toDays ⟨t.year, t.month, t.day⟩ := rfl
  rw [ht, hadd] at hdays
  unfold cycleDays at *
  omega

/-- The year of a day, roughly. -/
theorem civil_year_le (d : ℤ) : 1970 - 400 * cyclesTo d ≤ (civil d).1 ∧
    (civil d).1 ≤ 1970 + (d + cycleDays * cyclesTo d).toNat := by
  have hdays := toDays_ofDays (d + cycleDays * cyclesTo d).toNat
  obtain ⟨hyear, -, -⟩ := ofDays_valid (d + cycleDays * cyclesTo d).toNat
  have hk : ∀ k, k ≤ start epochDays k := fun k => by
    induction k with
    | zero => exact Nat.le_refl 0
    | succ k ih => exact Nat.add_le_add ih (epochDays_pos k)
  have hle := hk ((ofDays (d + cycleDays * cyclesTo d).toNat).year - 1970)
  unfold toDays at hdays
  unfold civil
  dsimp only
  omega

end Cycles

end Calendar
