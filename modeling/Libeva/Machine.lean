import Libeva.Lib.Block
import Mathlib.Algebra.Group.Int.Defs
import Mathlib.Algebra.Group.Nat.Defs
import Mathlib.Data.Int.Order.Basic
import Mathlib.Data.List.Lex
import Mathlib.Order.Lattice

/-!
# Machine integers, blocks from `malloc`, and faults

What the sequential code does to `int` and to memory. An `int` is an `ℤ` in range; a signed overflow, a use of memory
outside its block and a use of a null pointer are faults that end the run. The cells of a new block are `0` where the
code leaves them uninitialised. `Safe` says that a computation does not write outside
of a block.
-/

namespace Libeva

/-- `char` data. -/
abbrev Bytes := List UInt8

/-- `memcmp` compares bytes as `unsigned char`; `Bytes` are then ordered as `std::string_view` orders them. -/
instance instLinearOrderUInt8 : LinearOrder UInt8 where
  le_refl := UInt8.le_refl
  le_trans := @UInt8.le_trans
  le_antisymm := @UInt8.le_antisymm
  le_total := UInt8.le_total
  lt_iff_le_not_ge _ _ := by grind
  toDecidableLE := inferInstance

/-- The bytes of an ASCII literal. -/
def bytes (s : String) : Bytes := s.toList.map Char.toUInt8

/-- Why a run ends without a result. -/
inductive Fault
  | heapOverflow
  | outOfBounds
  | nullDeref
  | intOverflow
  | spin
  | outOfFuel
  deriving DecidableEq

abbrev INT_MAX : ℕ := 2 ^ 31 - 1

/-- `static_cast<int>( n )` of a `size_t`. -/
@[irreducible] def toInt (n : ℕ) : ℤ := (n : ℤ).bmod (2 ^ 32)

/-- A result of type `int`. -/
@[irreducible] def int (x : ℤ) : Except Fault ℤ :=
  if -(2 ^ 31) ≤ x ∧ x < 2 ^ 31 then .ok x else .error .intOverflow

/-- An `int` as a `size_t`. -/
@[irreducible] def toSize (x : ℤ) : ℕ := (x % 2 ^ 64).toNat

/-- `malloc( n )`; a negative size is a huge one, and the pointer is null. -/
def malloc (n : ℤ) : Except Fault Bytes :=
  if 0 ≤ n then .ok (List.replicate n.toNat 0) else .error .nullDeref

/-- `memmove( dst+off, src, len )` into the block `dst` from the block `src`. -/
def memmove (dst : Bytes) (off : ℤ) (src : Bytes) (len : ℤ) : Except Fault Bytes :=
  if len < 0 ∨ off < 0 ∨ dst.length < off + len then .error .heapOverflow
  else if src.length < len then .error .outOfBounds
  else .ok (Block.write dst off.toNat (src.take len.toNat))

@[simp] theorem ok_bind {ε α β : Type} (a : α) (f : α → Except ε β) : (Except.ok a >>= f) = f a := rfl

theorem bind_eq_ok {ε α β : Type} {x : Except ε α} {f : α → Except ε β} {b : β} :
    (x >>= f) = .ok b ↔ ∃ a, x = .ok a ∧ f a = .ok b := by
  cases x with
  | error e => exact ⟨nofun, fun ⟨_, h, _⟩ => nomatch h⟩
  | ok a => exact ⟨fun h => ⟨a, rfl, h⟩, fun ⟨_, h, h'⟩ => by cases h; exact h'⟩

theorem map_eq_ok {ε α β : Type} {x : Except ε α} {f : α → β} {b : β} :
    x.map f = .ok b ↔ ∃ a, x = .ok a ∧ f a = b := by
  cases x with
  | error e => exact ⟨nofun, fun ⟨_, h, _⟩ => nomatch h⟩
  | ok a => exact ⟨fun h => ⟨a, rfl, Except.ok.inj h⟩, fun ⟨_, h, h'⟩ => by cases h; exact congrArg _ h'⟩

theorem eq_of_int {x y : ℤ} (h : int x = .ok y) : y = x := by
  unfold int at h
  split at h
  · exact (Except.ok.inj h).symm
  · cases h

theorem lt_of_int {x y : ℤ} (h : int x = .ok y) : x < 2 ^ 31 := by
  unfold int at h
  split at h
  · rename_i hx
    exact hx.2
  · cases h

theorem le_INT_MAX {n : ℕ} : n ≤ INT_MAX ↔ n < 2 ^ 31 := Nat.le_sub_one_iff_lt (by decide)

theorem toInt_of_le {n : ℕ} (h : n ≤ INT_MAX) : toInt n = n := by
  have h' : n < 2 ^ 31 := le_INT_MAX.1 h
  unfold toInt
  exact Int.bmod_eq_of_le (by omega) (by omega)

theorem int_ok {x : ℤ} (h1 : -(2 ^ 31) ≤ x) (h2 : x < 2 ^ 31) : int x = .ok x := by
  unfold int
  exact if_pos ⟨h1, h2⟩

theorem toInt_toNat_le (n : ℕ) : (toInt n).toNat ≤ n := by
  unfold toInt
  rw [Int.bmod_def]
  split <;> omega

theorem toInt_lt (n : ℕ) : toInt n < 2 ^ 31 := by
  unfold toInt
  exact Int.bmod_lt (by decide)

theorem toSize_natCast {n : ℕ} (h : n < 2 ^ 64) : toSize n = n := by
  unfold toSize
  omega

theorem toSize_of_int {x y : ℤ} (h : int x = .ok y) (h0 : 0 ≤ x) : toSize y = x.toNat := by
  have hy := eq_of_int h
  have hx := lt_of_int h
  unfold toSize
  omega

theorem malloc_ok (n : ℕ) : malloc n = .ok (List.replicate n 0) := by
  unfold malloc
  rw [if_pos (Int.natCast_nonneg n), Int.toNat_natCast]

theorem memmove_ok {dst src : Bytes} {off len : ℕ} (h : off + len ≤ dst.length) (hs : len ≤ src.length) :
    memmove dst off src len = .ok (Block.write dst off (src.take len)) := by
  unfold memmove
  rw [if_neg (by omega), if_neg (by omega), Int.toNat_natCast, Int.toNat_natCast]

theorem memmove_eq_ok {dst src block : Bytes} {off len : ℤ} : memmove dst off src len = .ok block ↔
    (0 ≤ len ∧ 0 ≤ off ∧ off + len ≤ dst.length ∧ len ≤ src.length) ∧
      Block.write dst off.toNat (src.take len.toNat) = block := by
  unfold memmove
  split
  · exact iff_of_false nofun fun h => by omega
  · split
    · exact iff_of_false nofun fun h => by omega
    · rw [Except.ok.injEq]
      exact (and_iff_right (by omega)).symm

/-! ## No write outside of a block -/

section Safe

variable {α β : Type*} {x : Except Fault α}

/-- No write outside of a block. -/
def Safe (x : Except Fault α) : Prop := x ≠ .error .heapOverflow

theorem safe_ok (a : α) : Safe (.ok a : Except Fault α) := nofun

theorem Safe.bind {α β : Type} {x : Except Fault α} {f : α → Except Fault β} (h : Safe x)
    (hf : ∀ a, x = .ok a → Safe (f a)) : Safe (x >>= f) := by
  cases x with
  | error e =>
    intro he
    cases he
    exact h rfl
  | ok a => exact hf a rfl

theorem Safe.map {f : α → β} (h : Safe x) : Safe (x.map f) := by
  cases x with
  | error e =>
    intro he
    cases he
    exact h rfl
  | ok a => exact safe_ok (f a)

theorem safe_int (y : ℤ) : Safe (int y) := by
  unfold int
  split <;> exact nofun

end Safe

end Libeva
