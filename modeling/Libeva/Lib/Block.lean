import Mathlib.Data.List.Basic

/-!
# Blocks of memory

A block is a list of cells. `write l i d` copies `d` into the block `l` at offset `i`, `read l i n` are the `n` cells at
offset `i`, `resize l n a` cuts or extends the block to `n` cells. Reads and writes meet in `read_write`,
`read_write_before` and `read_add`; all of them come from the single cells (`getElem?_read`, `getElem?_write`).
-/

namespace Block

variable {α : Type*} {l d : List α} {i j m n k : ℕ} {a : α}

def write (l : List α) (i : ℕ) (d : List α) : List α := l.take i ++ (d ++ l.drop (i + d.length))

def read (l : List α) (i n : ℕ) : List α := (l.drop i).take n

def resize (l : List α) (n : ℕ) (a : α) : List α := l.take n ++ List.replicate (n - l.length) a

theorem length_write (h : i + d.length ≤ l.length) : (write l i d).length = l.length := by
  unfold write
  simp only [List.length_append, List.length_take, List.length_drop]
  omega

theorem length_read (h : i + n ≤ l.length) : (read l i n).length = n := by
  unfold read
  simp only [List.length_take, List.length_drop]
  omega

@[simp] theorem length_resize : (resize l n a).length = n := by
  unfold resize
  simp only [List.length_append, List.length_take, List.length_replicate]
  omega

/-! ## Single cells -/

theorem getElem?_read : (read l i n)[k]? = if k < n then l[i + k]? else none := by
  unfold read
  rw [List.getElem?_take]
  split
  · rw [List.getElem?_drop]
  · rfl

theorem getElem?_write (h : i ≤ l.length) :
    (write l i d)[k]? = if k < i then l[k]? else if k < i + d.length then d[k - i]? else l[k]? := by
  unfold write
  have hi : (l.take i).length = i := by rw [List.length_take]; omega
  split
  · rename_i hk
    rw [List.getElem?_append_left (by omega), List.getElem?_take, if_pos hk]
  · rw [List.getElem?_append_right (by omega), hi]
    split
    · rw [List.getElem?_append_left (by omega)]
    · rw [List.getElem?_append_right (by omega), List.getElem?_drop]
      congr 1
      omega

/-! ## Reads after writes -/

theorem read_write_within (h : i ≤ l.length) (hj : j + n ≤ d.length) : read (write l i d) (i + j) n = read d j n := by
  apply List.ext_getElem?
  intro k
  rw [getElem?_read, getElem?_read, getElem?_write h]
  split
  · rw [if_neg (by omega), if_pos (by omega)]
    congr 1
    omega
  · rfl

theorem read_write (h : i ≤ l.length) : read (write l i d) i d.length = d := by
  have hw := read_write_within (j := 0) h (Nat.le_of_eq (Nat.zero_add d.length))
  rw [Nat.add_zero] at hw
  exact hw.trans List.take_length

theorem read_write_before (h : i ≤ l.length) (hj : j + n ≤ i) : read (write l i d) j n = read l j n := by
  apply List.ext_getElem?
  intro k
  rw [getElem?_read, getElem?_read, getElem?_write h]
  split
  · rw [if_pos (by omega)]
  · rfl

theorem read_write_after (hw : i + d.length ≤ l.length) (hj : i + d.length ≤ j) :
    read (write l i d) j n = read l j n := by
  apply List.ext_getElem?
  intro k
  rw [getElem?_read, getElem?_read, getElem?_write (by omega)]
  split
  · rw [if_neg (by omega), if_neg (by omega)]
  · rfl

theorem read_add : read l i (m + n) = read l i m ++ read l (i + m) n := by
  unfold read
  rw [List.take_add, List.drop_drop]

theorem read_resize (h : i + n ≤ l.length) (hm : l.length ≤ m) : read (resize l m a) i n = read l i n := by
  unfold read resize
  rw [List.take_of_length_le hm, List.drop_append_of_le_length (by omega), List.take_append_of_le_length]
  rw [List.length_drop]
  omega

theorem read_take (h : i + n ≤ m) : read (l.take m) i n = read l i n := by
  unfold read
  rw [List.drop_take, List.take_take, Nat.min_eq_left (by omega)]

@[simp] theorem read_zero : read l i 0 = [] := List.take_zero

/-- The cells of the first `m` that are not the first `n` of them. -/
theorem drop_read : (read l i m).drop n = read l (i + n) (m - n) := by
  unfold read
  rw [List.drop_take, List.drop_drop]

end Block
