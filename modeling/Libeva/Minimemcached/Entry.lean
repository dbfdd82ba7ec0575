import Libeva.Net.Buffer

/-!
# `Entry`

A key and its value in one block from `malloc`, with the three lengths as `int`. The two `resetKey` and `append` rewrite
the lengths in different ways, and only the `resetKey` with a value length looks at whether the key fits.

* `Entry.Sized`: the lengths are those of a block of `total` bytes, as far as the key and the value go.
* `Entry.Fits`: also the free space is inside the block.
* `Entry.Keyed`: the hash is the one of the key.
* `new_ok`, `resetKey_ok`, `resetKeyValue_ok`, `append_ok`, `reset_ok`, `clone_ok`: the operations where nothing
  overflows.
-/

namespace Libeva.Minimemcached

structure Entry where
  keyLen_ : ℤ
  valueLen_ : ℤ
  free_ : ℤ
  /-- The block that `data_` points to. -/
  data_ : Bytes
  hash_ : UInt64
  deriving DecidableEq

/-- `hash_str`; a `char` is signed. -/
def hash_str (str : Bytes) : UInt64 := str.foldl (fun ret c => ret * 131 + c.toInt8.toInt64.toUInt64) 0

namespace Entry

def length (e : Entry) : ℤ := e.keyLen_ + e.valueLen_

def numFree (e : Entry) : ℕ := toSize e.free_

def key (e : Entry) : Bytes := e.data_.take (toSize e.keyLen_)

/-- The `valueLen_` bytes after the key. -/
def value (e : Entry) : Bytes := Block.read e.data_ (toSize e.keyLen_) (toSize e.valueLen_)

/-- `retrieve( numBytes )`. -/
def retrieve (e : Entry) (numBytes : ℤ) : Except Fault Entry := do
  let free ← int (e.free_ - numBytes)
  return { e with free_ := free }

/-- `append( data, len )`, from the first `len` bytes of `data`. -/
def append (e : Entry) (data : Bytes) (len : ℕ) : Except Fault Entry := do
  let off ← int e.length
  let block ← memmove e.data_ off data len
  let valueLen ← int (e.valueLen_ + toInt len)
  { e with data_ := block, valueLen_ := valueLen }.retrieve (toInt len)

/-- `resetKey( key )`. -/
def resetKey (e : Entry) (key : Bytes) : Except Fault Entry := do
  let used ← int (e.keyLen_ + e.valueLen_)
  let free ← int (e.free_ + used)
  let keyLen := toInt key.length
  let block ← memmove e.data_ 0 key keyLen
  let e ← { e with free_ := free, keyLen_ := keyLen, valueLen_ := 0, data_ := block }.retrieve keyLen
  return { e with hash_ := hash_str key }

/-- `resetKey( key, valueLen )`. -/
def resetKeyValue (e : Entry) (key : Bytes) (valueLen : ℤ) : Except Fault Entry := do
  let used ← int (e.keyLen_ + e.valueLen_)
  let curTotal ← int (used + e.free_)
  let keyLen := toInt key.length
  let reqTotal ← int (keyLen + valueLen)
  let data ← (if curTotal < reqTotal then malloc reqTotal else .ok e.data_ : Except Fault Bytes)
  let block ← memmove data 0 key keyLen
  return { keyLen_ := keyLen, valueLen_ := 0, free_ := valueLen, data_ := block, hash_ := hash_str key }

def Reset (e : Entry) : Except Fault Entry := do
  let used ← int (e.keyLen_ + e.valueLen_)
  let free ← int (e.free_ + used)
  return { e with free_ := free, keyLen_ := 0, valueLen_ := 0 }

/-- `Entry( key, valueLen )`; `hash_` is first written by `resetKey`. -/
def new (key : Bytes) (valueLen : ℤ) : Except Fault Entry := do
  let free ← int (toInt key.length + valueLen)
  let data ← malloc free
  resetKey { keyLen_ := 0, valueLen_ := 0, free_ := free, data_ := data, hash_ := 0 } key

/-- `Entry( data, keyLen, valueLen, free )`. -/
def clone (data : Bytes) (keyLen valueLen free : ℤ) : Except Fault Entry := do
  let used ← int (keyLen + valueLen)
  let size ← int (used + free)
  let block ← malloc size
  let block ← memmove block 0 data used
  return { keyLen_ := keyLen, valueLen_ := valueLen, free_ := free, data_ := block,
           hash_ := hash_str (data.take (toSize keyLen)) }

def copyToBuffer (e : Entry) (buf : Net.Buffer) : Net.Buffer :=
  (((buf.append (bytes "VALUE ")).append e.key).append (bytes "\r\n")).append e.value

/-- The block has `cap` bytes, of which key and value use the first; the three lengths add up to `total`. -/
structure Sized (e : Entry) (cap total : ℕ) : Prop where
  key_nonneg : 0 ≤ e.keyLen_
  value_nonneg : 0 ≤ e.valueLen_
  used_le : e.keyLen_ + e.valueLen_ ≤ cap
  total_eq : e.keyLen_ + e.valueLen_ + e.free_ = total
  total_le : total ≤ cap
  cap_eq : e.data_.length = cap
  cap_le : cap ≤ INT_MAX

/-- What `0 <= free_` and `keyLen_ + valueLen_ + free_ <= cap` are about: all three areas are inside the block. -/
structure Fits (e : Entry) : Prop where
  free_nonneg : 0 ≤ e.free_
  total_le : e.keyLen_ + e.valueLen_ + e.free_ ≤ e.data_.length

/-- The hash is the one of the key. -/
def Keyed (e : Entry) : Prop := e.hash_ = hash_str e.key

variable {e : Entry} {cap total : ℕ} {key data : Bytes} {n : ℕ}

theorem Sized.fits (h : e.Sized cap total) (hf : 0 ≤ e.free_) : e.Fits where
  free_nonneg := hf
  total_le := by rw [h.total_eq, h.cap_eq]; exact_mod_cast h.total_le

theorem retrieve_eq {x : ℤ} (h1 : -(2 ^ 31) ≤ e.free_ - x) (h2 : e.free_ - x < 2 ^ 31) :
    e.retrieve x = .ok { e with free_ := e.free_ - x } := by
  unfold retrieve
  rw [int_ok h1 h2]
  rfl

theorem memmove_key (block : Bytes) (h : key.length ≤ block.length) :
    memmove block 0 key key.length = .ok (Block.write block 0 key) := by
  have hm := memmove_ok (show 0 + key.length ≤ block.length by omega) (Nat.le_refl key.length)
  rwa [List.take_length] at hm

/-- An entry whose block starts with its key. -/
theorem key_write {block : Bytes} {v f : ℤ} {x : UInt64} (hk : key.length ≤ INT_MAX) :
    Entry.key ⟨key.length, v, f, Block.write block 0 key, x⟩ = key := by
  have hk' : key.length < 2 ^ 64 := Nat.lt_of_le_of_lt hk (by decide)
  unfold Entry.key
  rw [toSize_natCast hk']
  exact Block.read_write (Nat.zero_le _)

/-! ## `resetKey( key )` -/

theorem resetKey_eq (h : e.Sized cap total) (hk : key.length ≤ cap) :
    e.resetKey key = .ok ⟨key.length, 0, total - key.length, Block.write e.data_ 0 key, hash_str key⟩ := by
  obtain ⟨h1, h2, h3, h4, h5, h6, h7⟩ := h
  have hc : cap < 2 ^ 31 := le_INT_MAX.1 h7
  unfold resetKey
  rw [int_ok (by omega) (by omega), ok_bind, int_ok (by omega) (by omega), ok_bind, toInt_of_le (hk.trans h7)]
  dsimp only
  rw [memmove_key e.data_ (by omega), ok_bind,
    retrieve_eq (by show _ ≤ e.free_ + _ - _; omega) (by show e.free_ + _ - _ < _; omega), ok_bind]
  show Except.ok _ = Except.ok _
  congr 2
  show e.free_ + (e.keyLen_ + e.valueLen_) - _ = _
  omega

theorem sized_resetKey (h : e.Sized cap total) (hk : key.length ≤ cap) :
    Sized ⟨key.length, 0, total - key.length, Block.write e.data_ 0 key, hash_str key⟩ cap total where
  key_nonneg := Int.natCast_nonneg _
  value_nonneg := Int.le_refl 0
  used_le := by show (key.length : ℤ) + 0 ≤ cap; omega
  total_eq := by show (key.length : ℤ) + 0 + (total - key.length) = total; omega
  total_le := h.total_le
  cap_eq := by
    have hcap := h.cap_eq
    rw [← hcap]
    exact Block.length_write (by omega)
  cap_le := h.cap_le

theorem resetKey_ok (h : e.Sized cap total) (hk : key.length ≤ cap) : ∃ e', e.resetKey key = .ok e' ∧
    e'.Sized cap total ∧ e'.key = key ∧ e'.Keyed ∧ e'.free_ = total - key.length := by
  have hkey := hk.trans h.cap_le
  refine ⟨_, resetKey_eq h hk, sized_resetKey h hk, key_write hkey, ?_, rfl⟩
  unfold Keyed
  rw [key_write hkey]

/-! ## `resetKey( key, valueLen )` -/

/-- The block after `resetKey( key, n )`. -/
def room (block : Bytes) (total m : ℕ) : Bytes := if total < m then List.replicate m 0 else block

theorem Sized.length_room (h : e.Sized cap total) (m : ℕ) :
    (room e.data_ total m).length = if total < m then m else cap := by
  unfold room
  split
  · exact List.length_replicate
  · exact h.cap_eq

theorem Sized.le_room (h : e.Sized cap total) (m : ℕ) : m ≤ (room e.data_ total m).length := by
  have hle := h.total_le
  rw [h.length_room]
  split <;> omega

theorem resetKeyValue_eq (h : e.Sized cap total) (hk : key.length + n ≤ INT_MAX) :
    e.resetKeyValue key n = .ok
      ⟨key.length, 0, n, Block.write (room e.data_ total (key.length + n)) 0 key, hash_str key⟩ := by
  have hroom := h.le_room (key.length + n)
  obtain ⟨h1, h2, h3, h4, h5, h6, h7⟩ := h
  have hc : cap < 2 ^ 31 := le_INT_MAX.1 h7
  have hk' : key.length + n < 2 ^ 31 := le_INT_MAX.1 hk
  unfold resetKeyValue
  rw [int_ok (by omega) (by omega), ok_bind, int_ok (by omega) (by omega), ok_bind,
    toInt_of_le (Nat.le_trans (Nat.le_add_right _ n) hk)]
  dsimp only
  rw [int_ok (by omega) (by omega), ok_bind, h4]
  have hdata : (if (total : ℤ) < key.length + n then malloc (key.length + n) else .ok e.data_) =
      .ok (room e.data_ total (key.length + n)) := by
    unfold room
    split
    · rw [if_pos (by omega)]
      exact malloc_ok (key.length + n)
    · rw [if_neg (by omega)]
  rw [hdata, ok_bind, memmove_key _ (by omega), ok_bind]
  rfl

theorem sized_resetKeyValue (h : e.Sized cap total) (hk : key.length + n ≤ INT_MAX) :
    Sized ⟨key.length, 0, n, Block.write (room e.data_ total (key.length + n)) 0 key, hash_str key⟩
      (if total < key.length + n then key.length + n else cap) (key.length + n) where
  key_nonneg := Int.natCast_nonneg _
  value_nonneg := Int.le_refl 0
  used_le := by
    have hroom := h.le_room (key.length + n)
    rw [h.length_room] at hroom
    show (key.length : ℤ) + 0 ≤ _
    omega
  total_eq := by show (key.length : ℤ) + 0 + n = (key.length + n : ℕ); omega
  total_le := by rw [← h.length_room]; exact h.le_room _
  cap_eq := by
    have hroom := h.le_room (key.length + n)
    rw [← h.length_room]
    exact Block.length_write (by omega)
  cap_le := by
    have hc := h.cap_le
    split <;> assumption

theorem resetKeyValue_ok (h : e.Sized cap total) (hk : key.length + n ≤ INT_MAX) : ∃ e',
    e.resetKeyValue key n = .ok e' ∧
    e'.Sized (if total < key.length + n then key.length + n else cap) (key.length + n) ∧
    e'.key = key ∧ e'.free_ = n ∧ e'.valueLen_ = 0 :=
  ⟨_, resetKeyValue_eq h hk, sized_resetKeyValue h hk, key_write (Nat.le_trans (Nat.le_add_right _ n) hk), rfl, rfl⟩

/-- A `resetKey` that returns has found room. -/
theorem le_of_resetKey {e' : Entry} (h : e.Sized cap total) (hk : key.length ≤ INT_MAX) (hr : e.resetKey key = .ok e') :
    key.length ≤ cap := by
  obtain ⟨h1, h2, h3, h4, h5, h6, h7⟩ := h
  have hc : cap < 2 ^ 31 := le_INT_MAX.1 h7
  unfold resetKey at hr
  rw [int_ok (by omega) (by omega), ok_bind, int_ok (by omega) (by omega), ok_bind, toInt_of_le hk] at hr
  obtain ⟨block, hb, -⟩ := bind_eq_ok.1 hr
  obtain ⟨⟨-, -, hle, -⟩, -⟩ := memmove_eq_ok.1 hb
  omega

theorem le_of_resetKeyValue {e' : Entry} (h : e.Sized cap total) (hk : key.length ≤ INT_MAX)
    (hr : e.resetKeyValue key n = .ok e') : key.length + n ≤ INT_MAX := by
  obtain ⟨h1, h2, h3, h4, h5, h6, h7⟩ := h
  have hc : cap < 2 ^ 31 := le_INT_MAX.1 h7
  unfold resetKeyValue at hr
  rw [int_ok (by omega) (by omega), ok_bind, int_ok (by omega) (by omega), ok_bind, toInt_of_le hk] at hr
  obtain ⟨m, hm, -⟩ := bind_eq_ok.1 hr
  have hlt := lt_of_int hm
  exact le_INT_MAX.2 (by omega)

/-! ## `append`, `Reset` and the constructors -/

theorem append_eq (h : e.Sized cap total) (hn : (n : ℤ) ≤ e.free_) (hd : n ≤ data.length) :
    e.append data n = .ok
      { e with
        valueLen_ := e.valueLen_ + n
        free_ := e.free_ - n
        data_ := Block.write e.data_ (toSize e.length) (data.take n) } := by
  obtain ⟨h1, h2, h3, h4, h5, h6, h7⟩ := h
  have hc : cap < 2 ^ 31 := le_INT_MAX.1 h7
  have hn' : n ≤ INT_MAX := by omega
  unfold append length
  obtain ⟨u, hu⟩ := Int.eq_ofNat_of_zero_le (a := e.keyLen_ + e.valueLen_) (by omega)
  rw [hu, int_ok (by omega) (by omega), ok_bind, memmove_ok (by omega) hd, ok_bind, toInt_of_le hn',
    int_ok (by omega) (by omega), ok_bind,
    retrieve_eq (by show _ ≤ e.free_ - _; omega) (by show e.free_ - _ < _; omega), toSize_natCast (by omega)]

theorem sized_append (h : e.Sized cap total) (hn : (n : ℤ) ≤ e.free_) (hd : n ≤ data.length) :
    Sized { e with
      valueLen_ := e.valueLen_ + n
      free_ := e.free_ - n
      data_ := Block.write e.data_ (toSize e.length) (data.take n) } cap total := by
  obtain ⟨h1, h2, h3, h4, h5, h6, h7⟩ := h
  refine ⟨h1, ?_, ?_, ?_, h5, ?_, h7⟩
  · show 0 ≤ e.valueLen_ + n
    omega
  · show e.keyLen_ + (e.valueLen_ + n) ≤ cap
    omega
  · show e.keyLen_ + (e.valueLen_ + n) + (e.free_ - n) = total
    omega
  · show (Block.write _ _ _).length = cap
    unfold length toSize
    rw [Block.length_write, h6]
    rw [List.length_take]
    omega

theorem key_append (h : e.Sized cap total) :
    Entry.key { e with
      valueLen_ := e.valueLen_ + n
      free_ := e.free_ - n
      data_ := Block.write e.data_ (toSize e.length) (data.take n) } = e.key := by
  obtain ⟨h1, h2, h3, h4, h5, h6, h7⟩ := h
  have hc : cap < 2 ^ 31 := le_INT_MAX.1 h7
  refine Block.read_write_before (j := 0) (n := toSize e.keyLen_) ?_ ?_
  · unfold length toSize
    omega
  · unfold length toSize
    omega

theorem value_append (h : e.Sized cap total) (hn : (n : ℤ) ≤ e.free_) (hd : n ≤ data.length) :
    Entry.value { e with
      valueLen_ := e.valueLen_ + n
      free_ := e.free_ - n
      data_ := Block.write e.data_ (toSize e.length) (data.take n) } = e.value ++ data.take n := by
  obtain ⟨h1, h2, h3, h4, h5, h6, h7⟩ := h
  have hc : cap < 2 ^ 31 := le_INT_MAX.1 h7
  have hlen : (data.take n).length = n := by rw [List.length_take]; omega
  have hoff : toSize e.length = toSize e.keyLen_ + toSize e.valueLen_ := by unfold length toSize; omega
  have hval : toSize (e.valueLen_ + n) = toSize e.valueLen_ + (data.take n).length := by unfold toSize; omega
  show Block.read (Block.write e.data_ (toSize e.length) (data.take n)) (toSize e.keyLen_)
    (toSize (e.valueLen_ + n)) = _
  have hle : toSize e.length ≤ e.data_.length := by unfold length toSize; omega
  rw [hval, Block.read_add, Block.read_write_before hle (Nat.le_of_eq hoff.symm), ← hoff, Block.read_write hle]
  rfl

theorem append_ok (h : e.Sized cap total) (hn : (n : ℤ) ≤ e.free_) (hd : n ≤ data.length) : ∃ e',
    e.append data n = .ok e' ∧ e'.Sized cap total ∧ e'.key = e.key ∧ e'.value = e.value ++ data.take n ∧
    e'.free_ = e.free_ - n :=
  ⟨_, append_eq h hn hd, sized_append h hn hd, key_append h, value_append h hn hd, rfl⟩

theorem reset_eq (h : e.Sized cap total) : e.Reset = .ok { e with free_ := total, keyLen_ := 0, valueLen_ := 0 } := by
  obtain ⟨h1, h2, h3, h4, h5, h6, h7⟩ := h
  have hc : cap < 2 ^ 31 := le_INT_MAX.1 h7
  unfold Reset
  rw [int_ok (by omega) (by omega), ok_bind, int_ok (by omega) (by omega), ok_bind]
  show Except.ok _ = Except.ok _
  congr 2
  omega

theorem sized_reset (h : e.Sized cap total) :
    Sized { e with free_ := total, keyLen_ := 0, valueLen_ := 0 } cap total where
  key_nonneg := Int.le_refl 0
  value_nonneg := Int.le_refl 0
  used_le := by show (0 : ℤ) + 0 ≤ cap; omega
  total_eq := by show (0 : ℤ) + 0 + total = total; omega
  total_le := h.total_le
  cap_eq := h.cap_eq
  cap_le := h.cap_le

theorem reset_ok (h : e.Sized cap total) : ∃ e', e.Reset = .ok e' ∧ e'.Sized cap total ∧ e'.free_ = total :=
  ⟨_, reset_eq h, sized_reset h, rfl⟩

theorem value_eq_nil (h : e.valueLen_ = 0) : e.value = [] := by
  unfold value
  rw [h]
  show Block.read _ _ (toSize ((0 : ℕ) : ℤ)) = []
  rw [toSize_natCast (by decide), Block.read_zero]

/-- `make_shared<Entry>( data(), keyLen(), valueLen(), numFree() )`. -/
theorem clone_eq (h : e.Sized cap total) (hf : 0 ≤ e.free_) :
    clone e.data_ e.keyLen_ e.valueLen_ (toInt e.numFree) = .ok
      { e with
        data_ := Block.write (List.replicate total 0) 0 (e.data_.take (toSize e.length))
        hash_ := hash_str e.key } := by
  obtain ⟨h1, h2, h3, h4, h5, h6, h7⟩ := h
  have hc : cap < 2 ^ 31 := le_INT_MAX.1 h7
  have hfree : toInt e.numFree = e.free_ := by
    unfold numFree
    rw [toInt_of_le (by unfold toSize; omega)]
    unfold toSize
    omega
  obtain ⟨u, hu⟩ := Int.eq_ofNat_of_zero_le (a := e.keyLen_ + e.valueLen_) (by omega)
  have hlen : toSize e.length = u := by unfold length toSize; omega
  unfold clone
  rw [hfree, int_ok (by omega) (by omega), ok_bind, int_ok (by omega) (by omega), ok_bind, h4, malloc_ok, ok_bind, hu]
  have hm : memmove (List.replicate total 0) 0 e.data_ u =
      .ok (Block.write (List.replicate total 0) 0 (e.data_.take u)) :=
    memmove_ok (show 0 + u ≤ _ by rw [List.length_replicate]; omega) (by omega)
  rw [hm, ok_bind, hlen]
  rfl

theorem key_clone (h : e.Sized cap total) {x : UInt64} :
    Entry.key { e with
      data_ := Block.write (List.replicate total 0) 0 (e.data_.take (toSize e.length))
      hash_ := x } = e.key := by
  obtain ⟨h1, h2, h3, h4, h5, h6, h7⟩ := h
  have hc : cap < 2 ^ 31 := le_INT_MAX.1 h7
  have hw := Block.read_write_within (l := List.replicate total (0 : UInt8)) (d := e.data_.take (toSize e.length))
    (n := toSize e.keyLen_) (i := 0) (j := 0) (Nat.zero_le _)
    (by rw [List.length_take]; unfold length toSize; omega)
  refine hw.trans (Block.read_take ?_)
  unfold length toSize
  omega

theorem value_clone (h : e.Sized cap total) {x : UInt64} :
    Entry.value { e with
      data_ := Block.write (List.replicate total 0) 0 (e.data_.take (toSize e.length))
      hash_ := x } = e.value := by
  obtain ⟨h1, h2, h3, h4, h5, h6, h7⟩ := h
  have hc : cap < 2 ^ 31 := le_INT_MAX.1 h7
  have hw := Block.read_write_within (l := List.replicate total (0 : UInt8)) (d := e.data_.take (toSize e.length))
    (n := toSize e.valueLen_) (i := 0) (j := toSize e.keyLen_) (Nat.zero_le _)
    (by rw [List.length_take]; unfold length toSize; omega)
  rw [Nat.zero_add] at hw
  refine hw.trans (Block.read_take ?_)
  unfold length toSize
  omega

theorem clone_ok (h : e.Sized cap total) (hf : 0 ≤ e.free_) : ∃ e',
    clone e.data_ e.keyLen_ e.valueLen_ (toInt e.numFree) = .ok e' ∧ e'.key = e.key ∧ e'.value = e.value ∧
    e'.Keyed := by
  refine ⟨_, clone_eq h hf, key_clone h, value_clone h, ?_⟩
  unfold Keyed
  rw [key_clone h]

theorem new_ok (key : Bytes) (n : ℕ) (hk : key.length + n ≤ INT_MAX) : ∃ e, new key n = .ok e ∧
    e.Sized (key.length + n) (key.length + n) ∧ e.free_ = n ∧ e.key = key := by
  have hk' : key.length + n < 2 ^ 31 := le_INT_MAX.1 hk
  have hs : Sized ⟨0, 0, (key.length + n : ℕ), List.replicate (key.length + n) 0, 0⟩ (key.length + n)
      (key.length + n) :=
    ⟨Int.le_refl 0, Int.le_refl 0, by show (0 : ℤ) + 0 ≤ _; omega, Int.zero_add _, Nat.le_refl _,
      List.length_replicate, hk⟩
  have hle : key.length ≤ key.length + n := Nat.le_add_right _ _
  unfold new
  rw [toInt_of_le (hle.trans hk), int_ok (by omega) (by omega), ok_bind]
  have hm : malloc ((key.length : ℤ) + n) = .ok (List.replicate (key.length + n) 0) := malloc_ok (key.length + n)
  rw [hm, ok_bind]
  obtain ⟨e, he, hsz, hkey, -, hfree⟩ := resetKey_ok hs hle
  refine ⟨e, he, hsz, ?_, hkey⟩
  rw [hfree]
  omega

end Entry

end Libeva.Minimemcached
