import Libeva.Machine

/-!
# `Buffer`

`buffer_` is the storage with its cheap prepend area; the bytes between `readerIndex_` and `writerIndex_` are readable
(`Buffer.readable`). The indices are in order by construction, and what the code asserts about a length is an argument.
Every operation is characterised by what it does to the readable bytes: `readable_append`, `readable_retrieve` and so
on. Sums of sizes do not wrap.
-/

namespace Libeva

namespace Net

def kCheapPrepend : ℕ := 8

def kInitialSize : ℕ := 1024

def kCRLF : Bytes := [13, 10]

structure Buffer where
  buffer_ : Bytes
  readerIndex_ : ℕ
  writerIndex_ : ℕ
  cheap_le : kCheapPrepend ≤ buffer_.length
  reader_le : readerIndex_ ≤ writerIndex_
  writer_le : writerIndex_ ≤ buffer_.length

namespace Buffer

/-- `Buffer( initialSize )`. -/
def new (initialSize : ℕ) : Buffer where
  buffer_ := List.replicate (kCheapPrepend + initialSize) 0
  readerIndex_ := kCheapPrepend
  writerIndex_ := kCheapPrepend
  cheap_le := by rw [List.length_replicate]; exact Nat.le_add_right _ _
  reader_le := Nat.le_refl _
  writer_le := by rw [List.length_replicate]; exact Nat.le_add_right _ _

def readableBytes (b : Buffer) : ℕ := b.writerIndex_ - b.readerIndex_

def writableBytes (b : Buffer) : ℕ := b.buffer_.length - b.writerIndex_

def prependableBytes (b : Buffer) : ℕ := b.readerIndex_

/-- The bytes from `peek()` on. -/
def readable (b : Buffer) : Bytes := Block.read b.buffer_ b.readerIndex_ b.readableBytes

/-- The memory from `peek()` to the end of the storage. -/
def peek (b : Buffer) : Bytes := b.buffer_.drop b.readerIndex_

/-- `std::search` for `kCRLF`. -/
def searchCRLF : Bytes → Option ℕ
  | [] => none
  | c :: t => if c :: t.take 1 = kCRLF then some 0 else (searchCRLF t).map (· + 1)

/-- `findCRLF()` as an offset from `peek()`. -/
def findCRLF (b : Buffer) : Option ℕ := searchCRLF b.readable

/-- `findEOL()` as an offset from `peek()`. -/
def findEOL (b : Buffer) : Option ℕ := b.readable.findIdx? (· == 10)

def retrieveAll (b : Buffer) : Buffer where
  buffer_ := b.buffer_
  readerIndex_ := kCheapPrepend
  writerIndex_ := kCheapPrepend
  cheap_le := b.cheap_le
  reader_le := Nat.le_refl _
  writer_le := b.cheap_le

def retrieve (b : Buffer) (len : ℕ) : Buffer :=
  if h : len < b.readableBytes then
    { b with
      readerIndex_ := b.readerIndex_ + len
      reader_le := by unfold readableBytes at h; omega }
  else b.retrieveAll

theorem length_readable (b : Buffer) : b.readable.length = b.readableBytes := by
  have h2 := b.reader_le
  have h3 := b.writer_le
  exact Block.length_read (by unfold readableBytes; omega)

/-- What `makeSpace` asserts before it moves the readable bytes to the front. -/
theorem kCheapPrepend_lt_readerIndex {b : Buffer} {len : ℕ} (h : b.writableBytes < len)
    (hroom : ¬b.writableBytes + b.prependableBytes < len + kCheapPrepend) : kCheapPrepend < b.readerIndex_ := by
  unfold prependableBytes at hroom
  omega

theorem length_slide {b : Buffer} {len : ℕ} (h : b.writableBytes < len)
    (hroom : ¬b.writableBytes + b.prependableBytes < len + kCheapPrepend) :
    (Block.write b.buffer_ kCheapPrepend b.readable).length = b.buffer_.length := by
  have h1 := kCheapPrepend_lt_readerIndex h hroom
  have h2 := b.reader_le
  have h3 := b.writer_le
  apply Block.length_write
  rw [length_readable]
  unfold readableBytes
  omega

/-- `makeSpace( len )`, which is called for more bytes than are writable. -/
def makeSpace (b : Buffer) (len : ℕ) (h : b.writableBytes < len) : Buffer :=
  if hroom : b.writableBytes + b.prependableBytes < len + kCheapPrepend then
    { b with
      buffer_ := Block.resize b.buffer_ (b.writerIndex_ + len) 0
      cheap_le := by
        have h' := b.cheap_le
        unfold writableBytes at h
        rw [Block.length_resize]
        omega
      writer_le := by rw [Block.length_resize]; exact Nat.le_add_right _ _ }
  else
    { b with
      buffer_ := Block.write b.buffer_ kCheapPrepend b.readable
      readerIndex_ := kCheapPrepend
      writerIndex_ := kCheapPrepend + b.readableBytes
      cheap_le := by rw [length_slide h hroom]; exact b.cheap_le
      reader_le := Nat.le_add_right _ _
      writer_le := by
        have h1 := kCheapPrepend_lt_readerIndex h hroom
        have h2 := b.reader_le
        have h3 := b.writer_le
        rw [length_slide h hroom]
        unfold readableBytes
        omega }

def ensureWritableBytes (b : Buffer) (len : ℕ) : Buffer :=
  if h : b.writableBytes < len then b.makeSpace len h else b

/-- What `ensureWritableBytes` asserts when it is done. -/
theorem le_writableBytes (b : Buffer) (len : ℕ) : len ≤ (b.ensureWritableBytes len).writableBytes := by
  unfold ensureWritableBytes
  split
  · rename_i hlt
    unfold makeSpace
    split
    · show len ≤ (Block.resize b.buffer_ (b.writerIndex_ + len) 0).length - b.writerIndex_
      rw [Block.length_resize]
      omega
    · rename_i hroom
      have h2 := b.reader_le
      have h3 := b.writer_le
      show len ≤ (Block.write b.buffer_ kCheapPrepend b.readable).length - (kCheapPrepend + b.readableBytes)
      rw [length_slide hlt hroom]
      unfold writableBytes prependableBytes at hroom
      unfold readableBytes
      omega
  · omega

/-- The caller's `std::copy( data, data+len, beginWrite() )`. -/
def fill (b : Buffer) (data : Bytes) (h : data.length ≤ b.writableBytes) : Buffer :=
  have hlen : (Block.write b.buffer_ b.writerIndex_ data).length = b.buffer_.length :=
    Block.length_write (by have h' := b.writer_le; unfold writableBytes at h; omega)
  { b with
    buffer_ := Block.write b.buffer_ b.writerIndex_ data
    cheap_le := hlen ▸ b.cheap_le
    writer_le := hlen ▸ b.writer_le }

def hasWritten (b : Buffer) (len : ℕ) (h : len ≤ b.writableBytes) : Buffer :=
  { b with
    writerIndex_ := b.writerIndex_ + len
    reader_le := Nat.le_trans b.reader_le (Nat.le_add_right _ _)
    writer_le := by have h' := b.writer_le; unfold writableBytes at h; omega }

theorem writableBytes_fill {b : Buffer} {data : Bytes} (h : data.length ≤ b.writableBytes) :
    (b.fill data h).writableBytes = b.writableBytes := by
  show (Block.write b.buffer_ b.writerIndex_ data).length - b.writerIndex_ = b.buffer_.length - b.writerIndex_
  have h' := b.writer_le
  unfold writableBytes at h
  rw [Block.length_write (by omega)]

/-- `std::copy( data, data+len, beginWrite() ); hasWritten( len );` -/
def write (b : Buffer) (data : Bytes) (h : data.length ≤ b.writableBytes) : Buffer :=
  (b.fill data h).hasWritten data.length (by rw [writableBytes_fill]; exact h)

/-- `append( data, len )`. -/
def append (b : Buffer) (data : Bytes) : Buffer :=
  (b.ensureWritableBytes data.length).write data (b.le_writableBytes data.length)

def unwrite (b : Buffer) (len : ℕ) (h : len ≤ b.readableBytes) : Buffer :=
  { b with
    writerIndex_ := b.writerIndex_ - len
    reader_le := by have h' := b.reader_le; unfold readableBytes at h; omega
    writer_le := Nat.le_trans (Nat.sub_le _ _) b.writer_le }

def prepend (b : Buffer) (data : Bytes) (h : data.length ≤ b.prependableBytes) : Buffer :=
  have hlen : (Block.write b.buffer_ (b.readerIndex_ - data.length) data).length = b.buffer_.length :=
    Block.length_write (by have h2 := b.reader_le; have h3 := b.writer_le; unfold prependableBytes at h; omega)
  { b with
    buffer_ := Block.write b.buffer_ (b.readerIndex_ - data.length) data
    readerIndex_ := b.readerIndex_ - data.length
    cheap_le := hlen ▸ b.cheap_le
    reader_le := Nat.le_trans (Nat.sub_le _ _) b.reader_le
    writer_le := hlen ▸ b.writer_le }

/-- `retrieveUntil( end )`, for the offset of `end` in the storage. -/
def retrieveUntil (b : Buffer) (end_ : ℕ) : Buffer := b.retrieve (end_ - b.readerIndex_)

/-- `retrieveAsString( len )`: the string, and the buffer after the call. -/
def retrieveAsString (b : Buffer) (len : ℕ) : Bytes × Buffer := (b.peek.take len, b.retrieve len)

/-- The length goes through `static_cast<int>`. -/
def toStringView (b : Buffer) : Bytes := b.peek.take (toSize (toInt b.readableBytes))

def swap (b rhs : Buffer) : Buffer × Buffer := (rhs, b)

def shrink (b : Buffer) (reserve : ℕ) : Buffer :=
  let other := ((new kInitialSize).ensureWritableBytes (b.readableBytes + reserve)).append b.toStringView
  (b.swap other).1

/-! ## Reads from a file descriptor -/

/-- What `readv` says: `n < 0` with an `errno`, or `n` bytes. -/
inductive Readv
  | error (errno : ℤ)
  | ok (data : Bytes)

def extrabufSize : ℕ := 65536

/-- The bytes that the `iovcnt` areas of `readFd` hold. -/
def iovTotal (b : Buffer) : ℕ := b.writableBytes + if b.writableBytes < extrabufSize then extrabufSize else 0

/-- The kernel delivers at most as many bytes as the areas hold. -/
def Readv.Fits (b : Buffer) : Readv → Prop
  | .error _ => True
  | .ok data => data.length ≤ b.iovTotal

/-- `readFd( fd, savedErr )`: the result, the `errno` if it is saved, and the buffer after the call. The kernel fills
the free space of the buffer before `extrabuf`. -/
def readFd (b : Buffer) : Readv → ℤ × Option ℤ × Buffer
  | .error errno => (-1, some errno, b)
  | .ok data =>
    let writable := b.writableBytes
    let filled := b.fill (data.take writable) (List.length_take_le _ _)
    let n := data.length
    (n, none,
      if h : n ≤ writable then filled.hasWritten n (by rw [writableBytes_fill]; exact h)
      else (filled.hasWritten writable (Nat.le_of_eq (writableBytes_fill _).symm)).append (data.drop writable))

/-! ## The readable bytes -/

theorem peek_eq (b : Buffer) : b.peek = b.readable ++ b.peek.drop b.readableBytes :=
  (List.take_append_drop b.readableBytes b.peek).symm

theorem readableBytes_eq_zero {b : Buffer} : b.readableBytes = 0 ↔ b.readable = [] := by
  rw [← b.length_readable, List.length_eq_zero_iff]

@[simp] theorem readable_new (n : ℕ) : (new n).readable = [] := by
  rw [← readableBytes_eq_zero]; exact Nat.sub_self _

@[simp] theorem readable_retrieveAll (b : Buffer) : b.retrieveAll.readable = [] := by
  rw [← readableBytes_eq_zero]; exact Nat.sub_self _

@[simp] theorem readable_retrieve (b : Buffer) (len : ℕ) : (b.retrieve len).readable = b.readable.drop len := by
  unfold retrieve
  split
  · unfold readable
    rw [Block.drop_read]
    congr 1
    unfold readableBytes
    exact Nat.sub_add_eq _ _ _
  · rename_i h
    rw [readable_retrieveAll, List.drop_of_length_le]
    rw [length_readable]
    omega

theorem readable_makeSpace (b : Buffer) (len : ℕ) (h : b.writableBytes < len) :
    (b.makeSpace len h).readable = b.readable := by
  have h2 := b.reader_le
  have h3 := b.writer_le
  have hr := b.length_readable
  unfold makeSpace
  split
  · unfold writableBytes at h
    show Block.read (Block.resize b.buffer_ (b.writerIndex_ + len) 0) b.readerIndex_ b.readableBytes = b.readable
    exact Block.read_resize (by unfold readableBytes; omega) (by omega)
  · have h1 := b.cheap_le
    show Block.read (Block.write b.buffer_ kCheapPrepend b.readable) kCheapPrepend
      (kCheapPrepend + b.readableBytes - kCheapPrepend) = b.readable
    rw [Nat.add_sub_cancel_left, ← hr]
    exact Block.read_write h1

@[simp] theorem readable_ensureWritableBytes (b : Buffer) (len : ℕ) :
    (b.ensureWritableBytes len).readable = b.readable := by
  unfold ensureWritableBytes
  split
  · exact readable_makeSpace _ _ _
  · rfl

/-- The bytes at `beginWrite()` become readable. -/
theorem readable_hasWritten (b : Buffer) (len : ℕ) (h : len ≤ b.writableBytes) :
    (b.hasWritten len h).readable = b.readable ++ Block.read b.buffer_ b.writerIndex_ len := by
  have h2 := b.reader_le
  show Block.read b.buffer_ b.readerIndex_ (b.writerIndex_ + len - b.readerIndex_) = _
  unfold readable readableBytes
  rw [Nat.sub_add_comm h2, Block.read_add, Nat.add_sub_cancel' h2]

@[simp] theorem readable_fill (b : Buffer) (data : Bytes) (h : data.length ≤ b.writableBytes) :
    (b.fill data h).readable = b.readable := by
  have h2 := b.reader_le
  show Block.read (Block.write b.buffer_ b.writerIndex_ data) b.readerIndex_ b.readableBytes = b.readable
  exact Block.read_write_before b.writer_le (by unfold readableBytes; omega)

/-- Bytes that were written at `beginWrite()`, and announced. -/
theorem readable_fill_hasWritten (b : Buffer) (data : Bytes) (len : ℕ) (h : data.length ≤ b.writableBytes)
    (hlen : len ≤ data.length) (h' : len ≤ (b.fill data h).writableBytes) :
    ((b.fill data h).hasWritten len h').readable = b.readable ++ data.take len := by
  have hd : Block.read (Block.write b.buffer_ b.writerIndex_ data) b.writerIndex_ len = data.take len := by
    exact Block.read_write_within (j := 0) b.writer_le (by omega)
  rw [readable_hasWritten, readable_fill]
  exact congrArg _ hd

theorem readable_write (b : Buffer) (data : Bytes) (h : data.length ≤ b.writableBytes) :
    (b.write data h).readable = b.readable ++ data := by
  unfold write
  rw [readable_fill_hasWritten _ _ _ _ (Nat.le_refl _), List.take_length]

@[simp] theorem readable_append (b : Buffer) (data : Bytes) : (b.append data).readable = b.readable ++ data := by
  unfold append
  rw [readable_write, readable_ensureWritableBytes]

/-- The first CRLF ends a line without carriage returns. -/
theorem searchCRLF_append {l r : Bytes} (h : 13 ∉ l) : searchCRLF (l ++ (kCRLF ++ r)) = some l.length := by
  induction l with
  | nil => rfl
  | cons c l ih =>
    rw [List.mem_cons, not_or] at h
    have hc : ¬c :: (l ++ (kCRLF ++ r)).take 1 = kCRLF := fun he => h.1 (List.cons.inj he).1.symm
    rw [List.cons_append, searchCRLF, if_neg hc, ih h.2]
    rfl

@[simp] theorem readable_retrieveUntil (b : Buffer) (end_ : ℕ) :
    (b.retrieveUntil end_).readable = b.readable.drop (end_ - b.readerIndex_) := readable_retrieve _ _

theorem readable_unwrite (b : Buffer) (len : ℕ) (h : len ≤ b.readableBytes) :
    (b.unwrite len h).readable = b.readable.take (b.readableBytes - len) := by
  show Block.read b.buffer_ b.readerIndex_ (b.writerIndex_ - len - b.readerIndex_) = _
  unfold readable Block.read
  rw [List.take_take, Nat.min_eq_left (Nat.sub_le _ _)]
  congr 1
  unfold readableBytes
  omega

theorem readable_prepend (b : Buffer) (data : Bytes) (h : data.length ≤ b.prependableBytes) :
    (b.prepend data h).readable = data ++ b.readable := by
  have h2 := b.reader_le
  have h3 := b.writer_le
  unfold prependableBytes at h
  have hsub : b.readerIndex_ - data.length + data.length = b.readerIndex_ := Nat.sub_add_cancel h
  have hnew : b.writerIndex_ - (b.readerIndex_ - data.length) = data.length + b.readableBytes := by
    unfold readableBytes
    omega
  show Block.read (Block.write b.buffer_ (b.readerIndex_ - data.length) data) (b.readerIndex_ - data.length)
    (b.writerIndex_ - (b.readerIndex_ - data.length)) = _
  rw [hnew, Block.read_add, Block.read_write (by omega), Block.read_write_after (by omega) (by omega), hsub]
  rfl

/-- The first `len` readable bytes are the first `len` bytes from `peek()` on. -/
theorem take_peek {b : Buffer} {len : ℕ} (h : len ≤ b.readableBytes) : b.peek.take len = b.readable.take len := by
  unfold readable Block.read
  rw [List.take_take, Nat.min_eq_left h]
  rfl

theorem toStringView_eq {b : Buffer} (h : b.readableBytes < 2 ^ 31) : b.toStringView = b.readable := by
  unfold toStringView
  rw [toInt_of_le (le_INT_MAX.2 h), toSize_natCast (by omega)]
  rfl

theorem readable_shrink {b : Buffer} (reserve : ℕ) (h : b.readableBytes < 2 ^ 31) :
    (b.shrink reserve).readable = b.readable := by
  unfold shrink swap
  rw [readable_append, readable_ensureWritableBytes, readable_new, List.nil_append, toStringView_eq h]

/-- `readFd` adds what the kernel delivered, wherever it put the bytes. -/
theorem readable_readFd (b : Buffer) (data : Bytes) : (b.readFd (.ok data)).2.2.readable = b.readable ++ data := by
  unfold readFd
  dsimp only
  split
  · rename_i h
    rw [readable_fill_hasWritten _ _ _ _ (by rw [List.length_take]; omega), List.take_take, Nat.min_eq_left h,
      List.take_length]
  · rename_i h
    rw [readable_append, readable_fill_hasWritten _ _ _ _ (by rw [List.length_take]; omega), List.take_take,
      Nat.min_self, List.append_assoc, List.take_append_drop]

end Buffer

end Net

end Libeva
