import Mathlib.Data.Nat.Digits.Lemmas

/-!
# Numerals

`digits b n` are the digits of `n` in base `b`, the least significant one first, with one digit for zero: what a loop
gives that divides by `b` until nothing is left (`digits_eq`). `value b l` reads digits that stand in the usual order.

`fixed b w n` are the last `w` digits of `n` in the usual order.

* `value_reverse_digits`, `value_fixed`: a number is read back from its digits.
* `length_digits_le`: how many digits there are.
* `fixed_eq`: what is filled up with zeros has a fixed width.
* `fixed_lt_iff`: digits of one width are ordered as the numbers are.
-/

namespace Numeral

variable {b n k d : ℕ}

def digits (b n : ℕ) : List ℕ := if n = 0 then [0] else Nat.digits b n

def value (b : ℕ) (l : List ℕ) : ℕ := l.foldl (fun n d => b * n + d) 0

/-- One turn of the loop. -/
theorem digits_eq (hb : 1 < b) (n : ℕ) : digits b n = n % b :: if n / b = 0 then [] else digits b (n / b) := by
  unfold digits
  by_cases hn : n = 0
  · rw [if_pos hn, hn, Nat.zero_mod, Nat.zero_div, if_pos rfl]
  · rw [if_neg hn, Nat.digits_def' hb (Nat.pos_of_ne_zero hn)]
    by_cases hq : n / b = 0
    · rw [if_pos hq, hq, Nat.digits_zero]
    · rw [if_neg hq, if_neg hq]

theorem lt_of_mem_digits (hb : 1 < b) (hd : d ∈ digits b n) : d < b := by
  unfold digits at hd
  split at hd
  · rw [List.mem_singleton.1 hd]
    omega
  · exact Nat.digits_lt_base hb hd

theorem digits_ne_nil : digits b n ≠ [] := by
  unfold digits
  split
  · exact List.cons_ne_nil _ _
  · rename_i hn
    exact Nat.digits_ne_nil_iff_ne_zero.2 hn

theorem length_digits_le (hb : 1 < b) (hk : 0 < k) (h : n < b ^ k) : (digits b n).length ≤ k := by
  unfold digits
  split
  · exact hk
  · exact (Nat.digits_length_le_iff hb n).2 h

theorem lt_length_digits (hb : 1 < b) (h : b ^ k ≤ n) : k < (digits b n).length := by
  unfold digits
  rw [if_neg (Nat.pos_iff_ne_zero.1 (Nat.lt_of_lt_of_le (Nat.pow_pos (by omega)) h))]
  exact (Nat.lt_digits_length_iff hb n).2 h

theorem value_reverse (l : List ℕ) : value b l.reverse = Nat.ofDigits b l := by
  unfold value
  rw [List.foldl_reverse]
  induction l with
  | nil => rfl
  | cons d l ih =>
    rw [List.foldr_cons, ih, Nat.ofDigits_cons]
    exact Nat.add_comm _ _

/-- **Round trip.** -/
theorem value_reverse_digits (b n : ℕ) : value b (digits b n).reverse = n := by
  rw [value_reverse]
  unfold digits
  split
  · rename_i hn
    rw [hn]
    rfl
  · exact Nat.ofDigits_digits b n

/-- Zeros in front do not count. -/
theorem value_zeros (k : ℕ) (l : List ℕ) : value b (List.replicate k 0 ++ l) = value b l := by
  induction k with
  | zero => rfl
  | succ k ih => exact ih

/-! ## Fixed width -/

section Fixed

variable {w m : ℕ}

def fixed (b : ℕ) : ℕ → ℕ → List ℕ
  | 0, _ => []
  | w + 1, n => fixed b w (n / b) ++ [n % b]

@[simp] theorem length_fixed : (fixed b w n).length = w := by
  induction w generalizing n with
  | zero => rfl
  | succ w ih => rw [fixed, List.length_append, ih, List.length_singleton]

theorem lt_of_mem_fixed (hb : 0 < b) (hd : d ∈ fixed b w n) : d < b := by
  induction w generalizing n with
  | zero => cases hd
  | succ w ih =>
    rw [fixed, List.mem_append, List.mem_singleton] at hd
    rcases hd with hd | rfl
    · exact ih hd
    · exact Nat.mod_lt n hb

theorem fixed_zero : fixed b w 0 = List.replicate w 0 := by
  induction w with
  | zero => rfl
  | succ w ih => rw [fixed, Nat.zero_div, Nat.zero_mod, ih, List.replicate_succ']

/-- Digits that are filled up with zeros. -/
theorem fixed_eq (hb : 1 < b) (hw : 0 < w) (h : n < b ^ w) :
    List.replicate (w - (digits b n).length) 0 ++ (digits b n).reverse = fixed b w n := by
  induction w generalizing n with
  | zero => cases hw
  | succ w ih =>
    rw [digits_eq hb, fixed]
    by_cases hq : n / b = 0
    · rw [if_pos hq, hq, fixed_zero]
      rfl
    · rw [if_neg hq, List.length_cons, List.reverse_cons, Nat.add_sub_add_right, ← List.append_assoc]
      have hlt : n / b < b ^ w := Nat.div_lt_of_lt_mul (by rwa [← Nat.pow_succ'])
      rw [ih ?_ hlt]
      refine Nat.pos_of_ne_zero ?_
      rintro rfl
      exact hq (Nat.lt_one_iff.1 hlt)

theorem value_append_singleton (l : List ℕ) (d : ℕ) : value b (l ++ [d]) = b * value b l + d := by
  unfold value
  rw [List.foldl_append]
  rfl

/-- **Round trip.** -/
theorem value_fixed (h : n < b ^ w) : value b (fixed b w n) = n := by
  induction w generalizing n with
  | zero => exact (Nat.lt_one_iff.1 h).symm
  | succ w ih =>
    rw [fixed, value_append_singleton, ih (Nat.div_lt_of_lt_mul (by rwa [← Nat.pow_succ']))]
    exact Nat.div_add_mod n b

/-- Lists of one length are ordered by their first parts, and by the rest when these are the same. -/
theorem append_lt_append_iff {α : Type*} [LinearOrder α] {a a' c c' : List α} (h : a.length = a'.length) :
    a ++ c < a' ++ c' ↔ a < a' ∨ a = a' ∧ c < c' := by
  induction a generalizing a' with
  | nil =>
    obtain rfl : a' = [] := List.length_eq_zero_iff.1 h.symm
    simp
  | cons x a ih =>
    cases a' with
    | nil => cases h
    | cons y a' =>
      rw [List.cons_append, List.cons_append, List.cons_lt_cons_iff, List.cons_lt_cons_iff,
        ih (Nat.succ.inj h), List.cons_eq_cons]
      tauto

/-- Numbers are ordered by their quotients, and by their remainders when these are the same. -/
theorem div_mod_lt_iff : n < m ↔ n / b < m / b ∨ n / b = m / b ∧ n % b < m % b := by
  have hn := Nat.div_add_mod n b
  have hm := Nat.div_add_mod m b
  constructor
  · intro hlt
    rcases Nat.lt_or_eq_of_le (Nat.div_le_div_right (c := b) (Nat.le_of_lt hlt)) with h | h
    · exact .inl h
    · rw [h] at hn
      exact .inr ⟨h, by omega⟩
  · rintro (hlt | ⟨heq, hlt⟩)
    · exact Nat.lt_of_div_lt_div hlt
    · rw [heq] at hn
      omega

/-- **Order.** -/
theorem fixed_lt_iff (hn : n < b ^ w) (hm : m < b ^ w) : fixed b w n < fixed b w m ↔ n < m := by
  induction w generalizing n m with
  | zero =>
    rw [Nat.lt_one_iff.1 hn, Nat.lt_one_iff.1 hm]
    simp [fixed]
  | succ w ih =>
    have hn' : n / b < b ^ w := Nat.div_lt_of_lt_mul (by rwa [← Nat.pow_succ'])
    have hm' : m / b < b ^ w := Nat.div_lt_of_lt_mul (by rwa [← Nat.pow_succ'])
    have hinj : fixed b w (n / b) = fixed b w (m / b) ↔ n / b = m / b :=
      ⟨fun h => by rw [← value_fixed hn', h, value_fixed hm'], fun h => by rw [h]⟩
    have hone : [n % b] < [m % b] ↔ n % b < m % b := by
      rw [List.cons_lt_cons_iff]
      simp
    rw [fixed, fixed, append_lt_append_iff (by rw [length_fixed, length_fixed]), ih hn' hm', hinj, hone]
    exact div_mod_lt_iff.symm

end Fixed

end Numeral
