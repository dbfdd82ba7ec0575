import Libeva.Machine
import Libeva.Lib.Numeral

/-!
# `LogStream`

A `FixedBuffer` is a block of `SIZE` cells and the offset of `cur_`; a write outside of the block is a fault. `Item`
is what an `operator<<` is given; the overloads for the integer types call `formatInteger` with the same value. What
`%.12g` makes of a `double` is given, as the text that `snprintf` prints.

* `convert`, `convertHex`: the loops on the remainders; `convert_eq` and `convertHex_eq` say that they write numerals.
* `insert_ok`: an insertion writes the whole text of the item, or nothing, and stays inside of the block.
* `kept`: the items of a list that a stream has room for.
-/

namespace Libeva.Logger

/-! ## `convert` and `convertHex` -/

/-- `digits`. -/
def digits : Bytes := bytes "9876543210123456789"

/-- `zero[lsd]`; `zero` points into the middle of `digits`. -/
def zero (lsd : ℤ) : UInt8 := digits.getD (9 + lsd).toNat 0

def digitsHex : Bytes := bytes "0123456789ABCDEF"

/-- The loop of `convert`; `%` and `/` round towards zero. -/
def convertLoop (i : ℤ) : Bytes := zero (i.tmod 10) :: if i.tdiv 10 = 0 then [] else convertLoop (i.tdiv 10)
termination_by i.natAbs
decreasing_by
  rw [Int.natAbs_tdiv]
  refine Nat.div_lt_self (Int.natAbs_pos.2 ?_) (by decide)
  rintro rfl
  contradiction

/-- The characters that `convert` leaves in `buf`, in front of a `'\0'`. -/
def convert (value : ℤ) : Bytes := (convertLoop value ++ if value < 0 then [45] else []).reverse

def convertHexLoop (i : ℕ) : Bytes := digitsHex.getD (i % 16) 0 :: if i / 16 = 0 then [] else convertHexLoop (i / 16)
termination_by i
decreasing_by exact Nat.div_lt_self (by omega) (by decide)

def convertHex (value : ℕ) : Bytes := (convertHexLoop value).reverse

/-- The decimal numeral of an integer. -/
def numeral (v : ℤ) : Bytes :=
  (if v < 0 then [45] else []) ++ (Numeral.digits 10 v.natAbs).reverse.map fun d => UInt8.ofNat (48 + d)

/-- The hexadecimal numeral of a number. -/
def hexNumeral (n : ℕ) : Bytes := (Numeral.digits 16 n).reverse.map fun d => digitsHex.getD d 0

/-- The integer that a numeral stands for. -/
def ofNumeral : Bytes → ℤ
  | 45 :: l => -(Numeral.value 10 (l.map fun c => c.toNat - 48))
  | l => Numeral.value 10 (l.map fun c => c.toNat - 48)

/-- A remainder and its negative have the same digit. -/
theorem zero_eq {d : ℤ} (h : d.natAbs < 10) : zero d = UInt8.ofNat (48 + d.natAbs) := by
  have h1 : -9 ≤ d := by omega
  have h2 : d ≤ 9 := by omega
  interval_cases d <;> rfl

theorem convertLoop_eq (i : ℤ) : convertLoop i = (Numeral.digits 10 i.natAbs).map fun d => UInt8.ofNat (48 + d) := by
  induction hn : i.natAbs using Nat.strongRecOn generalizing i with
  | ind n ih =>
    have hq : (i.tdiv 10).natAbs = n / 10 := by rw [Int.natAbs_tdiv, hn]; rfl
    have hr : (i.tmod 10).natAbs = n % 10 := by rw [Int.natAbs_tmod, hn]; rfl
    rw [convertLoop, Numeral.digits_eq (by decide), List.map_cons, zero_eq (by omega), hr]
    congr 1
    by_cases h0 : n / 10 = 0
    · rw [if_pos h0, if_pos (by omega)]
      rfl
    · rw [if_neg h0, if_neg (by omega)]
      exact ih _ (by omega) _ hq

/-- `convert` writes the numeral. -/
theorem convert_eq (v : ℤ) : convert v = numeral v := by
  unfold convert numeral
  rw [List.reverse_append, convertLoop_eq, List.map_reverse]
  split <;> rfl

theorem convertHexLoop_eq (n : ℕ) : convertHexLoop n = (Numeral.digits 16 n).map fun d => digitsHex.getD d 0 := by
  induction n using Nat.strongRecOn with
  | ind n ih =>
    rw [convertHexLoop, Numeral.digits_eq (by decide), List.map_cons]
    congr 1
    split
    · rfl
    · exact ih _ (by omega)

theorem convertHex_eq (n : ℕ) : convertHex n = hexNumeral n := by
  unfold convertHex hexNumeral
  rw [convertHexLoop_eq, List.map_reverse]

/-- The digits of a decimal numeral are read back. -/
theorem value_decimal (n : ℕ) :
    Numeral.value 10 ((((Numeral.digits 10 n).reverse.map fun d => UInt8.ofNat (48 + d)).map fun c => c.toNat - 48)) =
      n := by
  have hid : ((Numeral.digits 10 n).reverse.map fun d => UInt8.ofNat (48 + d)).map (fun c => c.toNat - 48) =
      (Numeral.digits 10 n).reverse := by
    rw [List.map_map]
    refine (List.map_congr_left fun d hd => ?_).trans (List.map_id' _)
    have hlt : d < 10 := Numeral.lt_of_mem_digits (by decide) (List.mem_reverse.1 hd)
    interval_cases d <;> rfl
  rw [hid]
  exact Numeral.value_reverse_digits 10 n

/-- **Round trip.** -/
theorem ofNumeral_numeral (v : ℤ) : ofNumeral (numeral v) = v := by
  unfold numeral
  have hval := value_decimal v.natAbs
  split
  · rw [List.singleton_append, ofNumeral, hval]
    omega
  · rw [List.nil_append]
    have hne : (Numeral.digits 10 v.natAbs).reverse ≠ [] := List.reverse_ne_nil_iff.2 Numeral.digits_ne_nil
    have hlt : ∀ d ∈ (Numeral.digits 10 v.natAbs).reverse, d < 10 := fun d hd =>
      Numeral.lt_of_mem_digits (by decide) (List.mem_reverse.1 hd)
    generalize (Numeral.digits 10 v.natAbs).reverse = l at hne hlt hval
    cases l with
    | nil => exact absurd rfl hne
    | cons d l =>
      have hd := hlt d List.mem_cons_self
      have h45 : UInt8.ofNat (48 + d) ≠ 45 := by interval_cases d <;> decide
      rw [List.map_cons] at hval ⊢
      rw [ofNumeral, hval]
      · omega
      · rintro l' he
        exact h45 (List.cons.inj he).1

theorem length_numeral {v : ℤ} (h1 : -(2 ^ 63) ≤ v) (h2 : v < 2 ^ 64) : (numeral v).length ≤ 20 := by
  unfold numeral
  rw [List.length_append, List.length_map, List.length_reverse]
  split
  · have hlen := Numeral.length_digits_le (b := 10) (n := v.natAbs) (k := 19) (by decide) (by decide) (by omega)
    simp only [List.length_singleton]
    omega
  · have hlen := Numeral.length_digits_le (b := 10) (n := v.natAbs) (k := 20) (by decide) (by decide) (by omega)
    simp only [List.length_nil]
    omega

theorem length_hexNumeral {n : ℕ} (h : n < 2 ^ 64) : (hexNumeral n).length ≤ 16 := by
  unfold hexNumeral
  rw [List.length_map, List.length_reverse]
  exact Numeral.length_digits_le (by decide) (by decide) h

/-! ## `FixedBuffer` -/

def kSmallBuffer : ℕ := 4000

structure FixedBuffer (SIZE : ℕ) where
  data_ : Bytes
  cur_ : ℕ
  length_data : data_.length = SIZE

namespace FixedBuffer

variable {SIZE : ℕ}

def new (SIZE : ℕ) : FixedBuffer SIZE := ⟨List.replicate SIZE 0, 0, List.length_replicate⟩

def avail (b : FixedBuffer SIZE) : ℤ := SIZE - b.cur_

/-- Writes `d` from `cur_` on. -/
def put (b : FixedBuffer SIZE) (d : Bytes) : Except Fault (FixedBuffer SIZE) :=
  if h : b.cur_ + d.length ≤ SIZE then
    .ok { b with
      data_ := Block.write b.data_ b.cur_ d
      length_data := by rw [Block.length_write (by rw [b.length_data]; exact h), b.length_data] }
  else .error .heapOverflow

def add (b : FixedBuffer SIZE) (len : ℕ) : FixedBuffer SIZE := { b with cur_ := b.cur_ + len }

def append (b : FixedBuffer SIZE) (buf : Bytes) : Except Fault (FixedBuffer SIZE) :=
  if buf.length < toSize b.avail then (b.put buf).map fun b => b.add buf.length else .ok b

def reset (b : FixedBuffer SIZE) : FixedBuffer SIZE := { b with cur_ := 0 }

/-- `debugString()`. -/
def debugString (b : FixedBuffer SIZE) : Except Fault (FixedBuffer SIZE) := b.put [0]

/-- `toString()`, and what `data()` and `length()` give. -/
def toString (b : FixedBuffer SIZE) : Bytes := Block.read b.data_ 0 b.cur_

end FixedBuffer

/-! ## `LogStream` -/

def kMaxNumericSize : ℕ := 32

/-- What is inserted. -/
inductive Item
  | bool (v : Bool)
  | integer (v : ℤ)
  | pointer (p : ℕ)
  /-- A `float` or `double`, as the text of it. -/
  | double (text : Bytes)
  | char (v : UInt8)
  /-- A `char` pointer, which may be null. -/
  | cstr (str : Option Bytes)
  /-- A `std::string`, a view, a buffer, or characters with their number. -/
  | string (v : Bytes)
  deriving DecidableEq

/-- Insertion of a number: `len` characters, after `text` has been written. -/
def insertNumber (b : FixedBuffer kSmallBuffer) (text : Bytes) (len : ℕ) : Except Fault (FixedBuffer kSmallBuffer) :=
  if kMaxNumericSize ≤ b.avail then (b.put text).map fun b => b.add len else .ok b

def formatInteger (b : FixedBuffer kSmallBuffer) (v : ℤ) : Except Fault (FixedBuffer kSmallBuffer) :=
  insertNumber b (convert v ++ [0]) (convert v).length

/-- `operator<<`. -/
def insert (b : FixedBuffer kSmallBuffer) : Item → Except Fault (FixedBuffer kSmallBuffer)
  | .bool v => b.append (if v then bytes "1" else bytes "0")
  | .integer v => formatInteger b v
  | .pointer p => insertNumber b (bytes "0x" ++ convertHex p ++ [0]) ((convertHex p).length + 2)
  -- `snprintf` cuts what it writes, and returns the length of the whole text
  | .double text => insertNumber b (text.take (kMaxNumericSize - 1) ++ [0]) text.length
  | .char v => b.append [v]
  | .cstr none => b.append (bytes "(null)")
  | .cstr (some str) => b.append str
  | .string v => b.append v

/-- A value of the type of the overload. -/
def Item.Valid : Item → Prop
  | .integer v => -(2 ^ 63) ≤ v ∧ v < 2 ^ 64
  | .pointer p => p < 2 ^ 64
  | .double text => text.length < kMaxNumericSize
  | _ => True

instance : DecidablePred Item.Valid
  | .integer v => inferInstanceAs (Decidable (-(2 ^ 63) ≤ v ∧ v < 2 ^ 64))
  | .pointer p => inferInstanceAs (Decidable (p < 2 ^ 64))
  | .double text => inferInstanceAs (Decidable (text.length < kMaxNumericSize))
  | .bool _ | .char _ | .cstr _ | .string _ => inferInstanceAs (Decidable True)

/-- What an item reads in the log. -/
def Item.text : Item → Bytes
  | .bool v => if v then bytes "1" else bytes "0"
  | .integer v => numeral v
  | .pointer p => bytes "0x" ++ hexNumeral p
  | .double text => text
  | .char v => [v]
  | .cstr none => bytes "(null)"
  | .cstr (some str) => str
  | .string v => v

/-- The room that an insertion asks for. -/
def Item.room : Item → ℕ
  | .integer _ | .pointer _ | .double _ => kMaxNumericSize
  | i => i.text.length + 1

/-- The items that a stream with `n` characters has room for, one after the other. -/
def kept (n : ℕ) : List Item → List Item
  | [] => []
  | i :: l => if n + i.room ≤ kSmallBuffer then i :: kept (n + i.text.length) l else kept n l

/-! ## What a stream has -/

section Stream

variable {b b' : FixedBuffer kSmallBuffer} {i : Item} {l : List Item}

/-- `b'` has the characters of `b` and `d` behind them. -/
def Grows (b b' : FixedBuffer kSmallBuffer) (d : Bytes) : Prop :=
  b'.toString = b.toString ++ d ∧ b'.cur_ = b.cur_ + d.length

theorem put_add {d e : Bytes} (h : b.cur_ + (d ++ e).length ≤ kSmallBuffer) :
    ∃ b', (b.put (d ++ e)).map (fun b => b.add d.length) = .ok b' ∧ Grows b b' d := by
  unfold FixedBuffer.put
  rw [dif_pos h]
  refine ⟨_, rfl, ?_, rfl⟩
  have hcur : b.cur_ ≤ b.data_.length := by
    rw [b.length_data]
    omega
  have hd : Block.read (d ++ e) 0 d.length = d := by
    unfold Block.read
    rw [List.drop_zero, List.take_left]
  have hw := Block.read_write_within (d := d ++ e) (j := 0) (n := d.length) hcur (by simp)
  rw [Nat.add_zero, hd] at hw
  show Block.read (Block.write b.data_ b.cur_ (d ++ e)) 0 (b.cur_ + d.length) = _
  rw [Block.read_add, Block.read_write_before hcur (by omega), Nat.zero_add, hw]
  rfl

/-- An insertion of a number. -/
theorem insertNumber_ok {d : Bytes} (hd : d.length < kMaxNumericSize) :
    ∃ b', insertNumber b (d ++ [0]) d.length = .ok b' ∧
      if b.cur_ + kMaxNumericSize ≤ kSmallBuffer then Grows b b' d else b' = b := by
  unfold insertNumber FixedBuffer.avail
  by_cases h : b.cur_ + kMaxNumericSize ≤ kSmallBuffer
  · simp only [if_pos h]
    rw [if_pos (by omega)]
    refine put_add ?_
    rw [List.length_append, List.length_singleton]
    omega
  · simp only [if_neg h]
    rw [if_neg (by omega)]
    exact ⟨b, rfl, rfl⟩

/-- An insertion of characters. -/
theorem append_ok {d : Bytes} (hb : b.cur_ ≤ kSmallBuffer) :
    ∃ b', b.append d = .ok b' ∧ if b.cur_ + (d.length + 1) ≤ kSmallBuffer then Grows b b' d else b' = b := by
  have hsize : toSize b.avail = kSmallBuffer - b.cur_ := by
    unfold FixedBuffer.avail
    rw [← Nat.cast_sub hb]
    exact toSize_natCast (lt_of_le_of_lt (Nat.sub_le _ _) (by decide))
  unfold FixedBuffer.append
  rw [hsize]
  by_cases h : b.cur_ + (d.length + 1) ≤ kSmallBuffer
  · simp only [if_pos h]
    rw [if_pos (by omega)]
    have hput := put_add (b := b) (d := d) (e := []) (by rw [List.append_nil]; omega)
    rw [List.append_nil] at hput
    exact hput
  · simp only [if_neg h]
    rw [if_neg (by omega)]
    exact ⟨b, rfl, rfl⟩

/-- **An insertion** writes the whole text of the item when there is the room that it asks for, else nothing. -/
theorem insert_ok (hb : b.cur_ < kSmallBuffer) (hv : i.Valid) :
    ∃ b', insert b i = .ok b' ∧
      if b.cur_ + i.room ≤ kSmallBuffer then Grows b b' i.text else b' = b := by
  have hle := Nat.le_of_lt hb
  cases i with
  | bool v => cases v <;> exact append_ok hle
  | integer v =>
    have hlen := length_numeral hv.1 hv.2
    simp only [insert, formatInteger, convert_eq]
    exact insertNumber_ok (lt_of_le_of_lt hlen (by decide))
  | pointer p =>
    have hlen := length_hexNumeral hv
    have hd : (bytes "0x" ++ hexNumeral p).length = (hexNumeral p).length + 2 := by
      rw [List.length_append]
      exact Nat.add_comm _ _
    simp only [insert, convertHex_eq]
    rw [← hd]
    refine insertNumber_ok ?_
    rw [hd]
    exact lt_of_le_of_lt (Nat.add_le_add_right hlen 2) (by decide)
  | double text =>
    have hlen : text.length < kMaxNumericSize := hv
    simp only [insert]
    rw [List.take_of_length_le (Nat.le_sub_one_of_lt hlen)]
    exact insertNumber_ok hlen
  | char v => exact append_ok hle
  | cstr str => cases str <;> exact append_ok hle
  | string v => exact append_ok hle

theorem length_lt_room (hv : i.Valid) : i.text.length < i.room := by
  cases i with
  | integer v => exact Nat.lt_of_le_of_lt (length_numeral hv.1 hv.2) (show 20 < kMaxNumericSize by decide)
  | pointer p =>
    have hlen := length_hexNumeral hv
    show (bytes "0x" ++ hexNumeral p).length < kMaxNumericSize
    rw [List.length_append]
    exact Nat.lt_of_le_of_lt (Nat.add_le_add_left hlen 2) (by decide)
  | double text => exact hv
  | bool v | char v | cstr str | string v => exact Nat.lt_succ_self _

/-- **A statement** on a stream writes the items that there is room for. -/
theorem insert_run (hb : b.cur_ < kSmallBuffer) (hv : ∀ i ∈ l, i.Valid) :
    ∃ b', l.foldlM insert b = .ok b' ∧ b'.cur_ < kSmallBuffer ∧
      b'.toString = b.toString ++ (kept b.cur_ l).flatMap Item.text ∧
      b'.cur_ = b.cur_ + ((kept b.cur_ l).flatMap Item.text).length := by
  induction l generalizing b with
  | nil => exact ⟨b, rfl, hb, (List.append_nil _).symm, rfl⟩
  | cons i l ih =>
    rw [List.forall_mem_cons] at hv
    obtain ⟨b₁, hs, hg⟩ := insert_ok hb hv.1
    have hlt := length_lt_room hv.1
    rw [List.foldlM_cons, hs]
    unfold kept
    by_cases hroom : b.cur_ + i.room ≤ kSmallBuffer
    · rw [if_pos hroom] at hg ⊢
      obtain ⟨b', hl, hc, ht, hn⟩ := ih (b := b₁) (by rw [hg.2]; omega) hv.2
      rw [hg.2] at ht hn
      refine ⟨b', hl, hc, ?_, ?_⟩
      · rw [ht, hg.1, List.flatMap_cons, List.append_assoc]
      · rw [hn, List.flatMap_cons, List.length_append]
        omega
    · rw [if_neg hroom] at hg ⊢
      subst hg
      exact ih hb hv.2

/-- Nothing is left out of a statement that is far from the end of the block. -/
theorem kept_eq_self {n : ℕ} (hv : ∀ i ∈ l, i.Valid)
    (h : n + (l.flatMap Item.text).length + kMaxNumericSize ≤ kSmallBuffer) : kept n l = l := by
  induction l generalizing n with
  | nil => rfl
  | cons i l ih =>
    rw [List.forall_mem_cons] at hv
    rw [List.flatMap_cons, List.length_append] at h
    have hroom : i.room ≤ i.text.length + kMaxNumericSize := by
      cases i with
      | integer v | pointer p | double text => exact Nat.le_add_left _ _
      | bool v | char v | cstr str | string v => exact Nat.add_le_add_left (by decide) _
    unfold kept
    rw [if_pos (by omega), ih hv.2 (by omega)]

theorem kept_sublist (n : ℕ) (l : List Item) : (kept n l).Sublist l := by
  induction l generalizing n with
  | nil => exact .slnil
  | cons i l ih =>
    unfold kept
    split
    · exact (ih _).cons_cons i
    · exact (ih n).cons i

/-- `debugString()` writes behind the characters, inside of the block. -/
theorem debugString_ok (hb : b.cur_ < kSmallBuffer) :
    ∃ b', b.debugString = .ok b' ∧ b'.toString = b.toString ∧ b'.data_[b'.cur_]? = some 0 := by
  have hcur : b.cur_ ≤ b.data_.length := by
    rw [b.length_data]
    exact Nat.le_of_lt hb
  unfold FixedBuffer.debugString FixedBuffer.put
  rw [dif_pos (show b.cur_ + ([0] : Bytes).length ≤ kSmallBuffer from hb)]
  refine ⟨_, rfl, ?_, ?_⟩
  · exact Block.read_write_before hcur (Nat.le_of_eq (Nat.zero_add b.cur_))
  · show (Block.write b.data_ b.cur_ [0])[b.cur_]? = some 0
    rw [Block.getElem?_write hcur, if_neg (Nat.lt_irrefl _), if_pos (by simp), Nat.sub_self]
    rfl

/-- **A stream** that has been reset takes the items of a statement that it has room for, each as a whole and in their
order; the integers are read back. -/
theorem stream_text (b : FixedBuffer kSmallBuffer) (l : List Item) (hv : ∀ i ∈ l, i.Valid) :
    (∃ b', l.foldlM insert b.reset = .ok b' ∧ b'.toString = (kept 0 l).flatMap Item.text ∧
      b'.cur_ = b'.toString.length ∧ b'.cur_ < kSmallBuffer ∧
      ∃ b'', b'.debugString = .ok b'' ∧ b''.toString = b'.toString ∧ b''.data_[b''.cur_]? = some 0) ∧
    (kept 0 l).Sublist l ∧
    ((l.flatMap Item.text).length + kMaxNumericSize ≤ kSmallBuffer → kept 0 l = l) ∧
    ∀ v, .integer v ∈ l → ofNumeral (Item.integer v).text = v := by
  refine ⟨?_, kept_sublist 0 l, fun h => kept_eq_self hv (by omega), fun v _ => ofNumeral_numeral v⟩
  obtain ⟨b', hl, hc, ht, -⟩ := insert_run (b := b.reset) (show 0 < kSmallBuffer by decide) hv
  have hempty : b.reset.toString = [] := Block.read_zero
  rw [hempty, List.nil_append] at ht
  refine ⟨b', hl, ht, (Block.length_read ?_).symm, hc, debugString_ok hc⟩
  rw [Nat.zero_add, b'.length_data]
  exact Nat.le_of_lt hc

/-- A statement with a negative number, an address and a null pointer. -/
theorem stream_text_line : ∃ b', [Item.integer (-42), .char 58, .pointer 255, .cstr none].foldlM insert
    (FixedBuffer.new kSmallBuffer).reset = .ok b' ∧ b'.toString = bytes "-42:0xFF(null)" := by
  obtain ⟨⟨b', hl, ht, -⟩, -, hkept, -⟩ := stream_text (FixedBuffer.new kSmallBuffer)
    [.integer (-42), .char 58, .pointer 255, .cstr none] (by decide)
  refine ⟨b', hl, ht.trans ?_⟩
  rw [hkept (by decide)]
  decide

end Stream

end Libeva.Logger
