import Mathlib.Algebra.Group.Nat.Defs

/-!
# The bytes of a number

* `toBytes n x`: the `n` bytes of `x`, the least significant one first; `ofBytes`: the number of a list of bytes.
* `object`, `ofObject`: a word of `n` bytes in the memory of a little-endian machine, which keeps it
  (`ofObject_object`).
* `swap`: the word with its bytes in the opposite order; what is in memory is then the big-endian word (`object_swap`).
-/

namespace Endian

variable {n x : ℕ} {l : List UInt8}

def toBytes : ℕ → ℕ → List UInt8
  | 0, _ => []
  | n + 1, x => UInt8.ofNat x :: toBytes n (x / 256)

def ofBytes : List UInt8 → ℕ
  | [] => 0
  | c :: l => c.toNat + 256 * ofBytes l

@[simp] theorem length_toBytes : (toBytes n x).length = n := by
  induction n generalizing x with
  | zero => rfl
  | succ n ih => rw [toBytes, List.length_cons, ih]

theorem ofBytes_lt (l : List UInt8) : ofBytes l < 256 ^ l.length := by
  induction l with
  | nil => exact Nat.one_pos
  | cons c l ih =>
    have hc := c.toNat_lt
    rw [ofBytes, List.length_cons, Nat.pow_succ]
    omega

theorem ofBytes_toBytes : ofBytes (toBytes n x) = x % 256 ^ n := by
  induction n generalizing x with
  | zero => rw [Nat.pow_zero, Nat.mod_one]; rfl
  | succ n ih =>
    have hlow : (UInt8.ofNat x).toNat = x % 256 := UInt8.toNat_ofNat'
    rw [toBytes, ofBytes, ih, hlow, Nat.pow_succ', ← Nat.mod_mul]

theorem toBytes_ofBytes (l : List UInt8) : toBytes l.length (ofBytes l) = l := by
  induction l with
  | nil => rfl
  | cons c l ih =>
    have hc := c.toNat_lt
    have hlow : UInt8.ofNat (c.toNat + 256 * ofBytes l) = c := by
      apply UInt8.toNat.inj
      rw [UInt8.toNat_ofNat']
      omega
    rw [ofBytes, List.length_cons, toBytes, hlow, Nat.add_mul_div_left _ _ (by decide), Nat.div_eq_of_lt hc,
      Nat.zero_add, ih]

/-! ## Words in memory -/

/-- The bytes of a word, at ascending addresses. -/
def object (n : ℕ) (x : BitVec (8 * n)) : List UInt8 := toBytes n x.toNat

/-- The word that is read from `n` bytes. -/
def ofObject (n : ℕ) (l : List UInt8) : BitVec (8 * n) := .ofNat _ (ofBytes l)

/-- The bytes of a word in the opposite order. -/
def swap (n : ℕ) (x : BitVec (8 * n)) : BitVec (8 * n) := ofObject n (object n x).reverse

@[simp] theorem length_object (x : BitVec (8 * n)) : (object n x).length = n := length_toBytes

@[simp] theorem ofObject_object (x : BitVec (8 * n)) : ofObject n (object n x) = x := by
  have hx : x.toNat < 256 ^ n := (Nat.pow_mul 2 8 n).symm ▸ x.isLt
  unfold ofObject object
  rw [ofBytes_toBytes, Nat.mod_eq_of_lt hx]
  exact (BitVec.ofNat_toNat ..).trans (BitVec.setWidth_eq x)

@[simp] theorem object_ofObject (h : l.length = n) : object n (ofObject n l) = l := by
  subst h
  have hl : ofBytes l < 2 ^ (8 * l.length) := Nat.pow_mul 2 8 _ ▸ ofBytes_lt l
  unfold object ofObject
  rw [BitVec.toNat_ofNat, Nat.mod_eq_of_lt hl, toBytes_ofBytes]

@[simp] theorem object_swap (x : BitVec (8 * n)) : object n (swap n x) = (object n x).reverse :=
  object_ofObject (by rw [List.length_reverse, length_object])

@[simp] theorem swap_swap (x : BitVec (8 * n)) : swap n (swap n x) = x := by
  rw [swap, object_swap, List.reverse_reverse, ofObject_object]

end Endian
