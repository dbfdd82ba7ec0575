import Libeva.Lib.Endian
import Libeva.Net.Buffer

/-!
# Integers in a `Buffer`

The methods for integers of four widths. The host is little-endian: `htobe16` and the others swap the bytes of an
integer, which are then copied into the storage in the order they have in memory. An `int8_t` is copied as it is.

* `Integer`, `Width`: a value of one of the four types, and the type of it.
* `Integer.wire`: the bytes of a value in network order.
* `readable_appendInt`, `readable_prependInt`, `readInt_eq`: what the methods do to the readable bytes.
* `ints_round_trip`: what has been appended or prepended is read again.
-/

namespace Libeva.Net

open Endian

namespace Buffer

/-- `htobe16`, `htobe32` and `htobe64`. -/
def htobe (n : ℕ) (x : BitVec (8 * n)) : BitVec (8 * n) := Endian.swap n x

/-- `be16toh`, `be32toh` and `be64toh`. -/
def betoh (n : ℕ) (x : BitVec (8 * n)) : BitVec (8 * n) := Endian.swap n x

/-- An `appendInt*` with a byte order, for an integer of `n` bytes. -/
def appendNet (b : Buffer) (n : ℕ) (x : BitVec (8 * n)) : Buffer := b.append (object n (htobe n x))

def appendInt64 (b : Buffer) (x : Int64) : Buffer := b.appendNet 8 x.toBitVec

def appendInt32 (b : Buffer) (x : Int32) : Buffer := b.appendNet 4 x.toBitVec

def appendInt16 (b : Buffer) (x : Int16) : Buffer := b.appendNet 2 x.toBitVec

def appendInt8 (b : Buffer) (x : Int8) : Buffer := b.append (object 1 x.toBitVec)

/-- A `peekInt*` with a byte order. -/
def peekNet (b : Buffer) (n : ℕ) (_ : n ≤ b.readableBytes) : BitVec (8 * n) := betoh n (ofObject n (b.peek.take n))

def peekInt64 (b : Buffer) (h : 8 ≤ b.readableBytes) : Int64 := .ofBitVec (b.peekNet 8 h)

def peekInt32 (b : Buffer) (h : 4 ≤ b.readableBytes) : Int32 := .ofBitVec (b.peekNet 4 h)

def peekInt16 (b : Buffer) (h : 2 ≤ b.readableBytes) : Int16 := .ofBitVec (b.peekNet 2 h)

def peekInt8 (b : Buffer) (_ : 1 ≤ b.readableBytes) : Int8 := .ofBitVec (ofObject 1 (b.peek.take 1))

def retrieveInt64 (b : Buffer) : Buffer := b.retrieve 8

def retrieveInt32 (b : Buffer) : Buffer := b.retrieve 4

def retrieveInt16 (b : Buffer) : Buffer := b.retrieve 2

def retrieveInt8 (b : Buffer) : Buffer := b.retrieve 1

def readInt64 (b : Buffer) (h : 8 ≤ b.readableBytes) : Int64 × Buffer := (b.peekInt64 h, b.retrieveInt64)

def readInt32 (b : Buffer) (h : 4 ≤ b.readableBytes) : Int32 × Buffer := (b.peekInt32 h, b.retrieveInt32)

def readInt16 (b : Buffer) (h : 2 ≤ b.readableBytes) : Int16 × Buffer := (b.peekInt16 h, b.retrieveInt16)

def readInt8 (b : Buffer) (h : 1 ≤ b.readableBytes) : Int8 × Buffer := (b.peekInt8 h, b.retrieveInt8)

/-- A `prependInt*` with a byte order. -/
def prependNet (b : Buffer) (n : ℕ) (x : BitVec (8 * n)) (h : n ≤ b.prependableBytes) : Buffer :=
  b.prepend (object n (htobe n x)) (by rwa [length_object])

def prependInt64 (b : Buffer) (x : Int64) (h : 8 ≤ b.prependableBytes) : Buffer := b.prependNet 8 x.toBitVec h

def prependInt32 (b : Buffer) (x : Int32) (h : 4 ≤ b.prependableBytes) : Buffer := b.prependNet 4 x.toBitVec h

def prependInt16 (b : Buffer) (x : Int16) (h : 2 ≤ b.prependableBytes) : Buffer := b.prependNet 2 x.toBitVec h

def prependInt8 (b : Buffer) (x : Int8) (h : 1 ≤ b.prependableBytes) : Buffer :=
  b.prepend (object 1 x.toBitVec) (by rwa [length_object])

end Buffer

/-! ## Values of all widths -/

inductive Width
  | int8
  | int16
  | int32
  | int64

/-- `sizeof`. -/
def Width.size : Width → ℕ
  | .int8 => 1
  | .int16 => 2
  | .int32 => 4
  | .int64 => 8

inductive Integer
  | int8 (x : Int8)
  | int16 (x : Int16)
  | int32 (x : Int32)
  | int64 (x : Int64)

namespace Integer

def width : Integer → Width
  | .int8 _ => .int8
  | .int16 _ => .int16
  | .int32 _ => .int32
  | .int64 _ => .int64

/-- The bytes of a value, the most significant one first. -/
def wire : Integer → Bytes
  | .int8 x => (object 1 x.toBitVec).reverse
  | .int16 x => (object 2 x.toBitVec).reverse
  | .int32 x => (object 4 x.toBitVec).reverse
  | .int64 x => (object 8 x.toBitVec).reverse

@[simp] theorem length_wire (v : Integer) : v.wire.length = v.width.size := by
  cases v with
  | int8 x | int16 x | int32 x | int64 x => exact List.length_reverse.trans (length_object _)

end Integer

namespace Buffer

/-- The `appendInt*` of the type of the value. -/
def appendInt (b : Buffer) : Integer → Buffer
  | .int8 x => b.appendInt8 x
  | .int16 x => b.appendInt16 x
  | .int32 x => b.appendInt32 x
  | .int64 x => b.appendInt64 x

/-- Appends the values in their order. -/
def appendInts (b : Buffer) (vs : List Integer) : Buffer := vs.foldl appendInt b

/-- The `prependInt*` of the type of the value. -/
def prependInt (b : Buffer) : (v : Integer) → v.width.size ≤ b.prependableBytes → Buffer
  | .int8 x, h => b.prependInt8 x h
  | .int16 x, h => b.prependInt16 x h
  | .int32 x, h => b.prependInt32 x h
  | .int64 x, h => b.prependInt64 x h

/-- The `readInt*` of a type, where its assertion holds. -/
def readInt (b : Buffer) : Width → Option (Integer × Buffer)
  | .int8 => if h : 1 ≤ b.readableBytes then some ((b.readInt8 h).map .int8 id) else none
  | .int16 => if h : 2 ≤ b.readableBytes then some ((b.readInt16 h).map .int16 id) else none
  | .int32 => if h : 4 ≤ b.readableBytes then some ((b.readInt32 h).map .int32 id) else none
  | .int64 => if h : 8 ≤ b.readableBytes then some ((b.readInt64 h).map .int64 id) else none

/-- Reads values of the types in their order. -/
def readInts (b : Buffer) : List Width → Option (List Integer × Buffer)
  | [] => some ([], b)
  | w :: ws => do
    let (v, b) ← b.readInt w
    let (vs, b) ← b.readInts ws
    return (v :: vs, b)

variable {b : Buffer} {v : Integer} {vs : List Integer} {r : Bytes} {n : ℕ}

/-! ## The readable bytes -/

theorem object_htobe (x : BitVec (8 * n)) : object n (htobe n x) = (object n x).reverse := object_swap x

theorem readable_appendNet (x : BitVec (8 * n)) : (b.appendNet n x).readable = b.readable ++ (object n x).reverse := by
  unfold appendNet
  rw [readable_append, object_htobe]

@[simp] theorem readable_appendInt (b : Buffer) (v : Integer) : (b.appendInt v).readable = b.readable ++ v.wire := by
  cases v with
  | int8 x => exact readable_append b _
  | int16 x | int32 x | int64 x => exact readable_appendNet _

@[simp] theorem readable_appendInts (b : Buffer) (vs : List Integer) :
    (b.appendInts vs).readable = b.readable ++ vs.flatMap Integer.wire := by
  induction vs generalizing b with
  | nil => exact (List.append_nil _).symm
  | cons v vs ih =>
    show ((b.appendInt v).appendInts vs).readable = _
    rw [ih, readable_appendInt, List.flatMap_cons, List.append_assoc]

theorem readable_prependNet (x : BitVec (8 * n)) (h : n ≤ b.prependableBytes) :
    (b.prependNet n x h).readable = (object n x).reverse ++ b.readable := by
  unfold prependNet
  rw [readable_prepend, object_htobe]

@[simp] theorem readable_prependInt (b : Buffer) (v : Integer) (h : v.width.size ≤ b.prependableBytes) :
    (b.prependInt v h).readable = v.wire ++ b.readable := by
  cases v with
  | int8 x => exact readable_prepend b (object 1 x.toBitVec) (by rwa [length_object])
  | int16 x | int32 x | int64 x => exact readable_prependNet _ h

/-- The bytes that are peeked at. -/
theorem take_peek_eq {l : Bytes} (h : b.readable = l ++ r) : l.length ≤ b.readableBytes ∧ b.peek.take l.length = l := by
  have hle : l.length ≤ b.readableBytes := by
    rw [← length_readable, h, List.length_append]
    exact Nat.le_add_right _ _
  exact ⟨hle, by rw [take_peek hle, h, List.take_left]⟩

theorem peekNet_eq {x : BitVec (8 * n)} (h : b.readable = (object n x).reverse ++ r) (hn : n ≤ b.readableBytes) :
    b.peekNet n hn = x := by
  have hp := (take_peek_eq h).2
  rw [List.length_reverse, length_object] at hp
  unfold peekNet betoh
  rw [hp, ← object_swap, ofObject_object, swap_swap]

/-- A value at the front of the readable bytes is read. -/
theorem readInt_eq (h : b.readable = v.wire ++ r) : b.readInt v.width = some (v, b.retrieve v.width.size) := by
  obtain ⟨hle, hp⟩ := take_peek_eq h
  rw [Integer.length_wire] at hle hp
  cases v with
  | int8 x =>
    have hx : b.peekInt8 hle = x := by
      show Int8.ofBitVec (ofObject 1 (b.peek.take 1)) = x
      rw [show b.peek.take 1 = object 1 x.toBitVec from hp, ofObject_object]
      rfl
    exact (dif_pos hle).trans (congrArg (fun y => some (Integer.int8 y, b.retrieve 1)) hx)
  | int16 x =>
    have hx := congrArg Int16.ofBitVec (peekNet_eq h hle)
    exact (dif_pos hle).trans (congrArg (fun y => some (Integer.int16 y, b.retrieve 2)) hx)
  | int32 x =>
    have hx := congrArg Int32.ofBitVec (peekNet_eq h hle)
    exact (dif_pos hle).trans (congrArg (fun y => some (Integer.int32 y, b.retrieve 4)) hx)
  | int64 x =>
    have hx := congrArg Int64.ofBitVec (peekNet_eq h hle)
    exact (dif_pos hle).trans (congrArg (fun y => some (Integer.int64 y, b.retrieve 8)) hx)

/-! ## Round trips -/

/-- Nothing is readable, and the indices are where they were at first. -/
structure Emptied (b : Buffer) : Prop where
  readable : b.readable = []
  readerIndex_ : b.readerIndex_ = kCheapPrepend
  writerIndex_ : b.writerIndex_ = kCheapPrepend

/-- `retrieve` of everything is `retrieveAll`. -/
theorem emptied_retrieve (h : b.readableBytes ≤ n) : (b.retrieve n).Emptied := by
  unfold retrieve
  rw [dif_neg (Nat.not_lt.2 h)]
  exact ⟨readable_retrieveAll b, rfl, rfl⟩

/-- The values that the readable bytes consist of are read, and the last one empties the buffer. -/
theorem readInts_eq (h : b.readable = vs.flatMap Integer.wire) (h0 : vs = [] → b.Emptied) :
    ∃ b', b.readInts (vs.map Integer.width) = some (vs, b') ∧ b'.Emptied := by
  induction vs generalizing b with
  | nil => exact ⟨b, rfl, h0 rfl⟩
  | cons v vs ih =>
    rw [List.flatMap_cons] at h
    have hread := readInt_eq h
    have hrest : (b.retrieve v.width.size).readable = vs.flatMap Integer.wire := by
      rw [readable_retrieve, h, ← v.length_wire, List.drop_left]
    obtain ⟨b', hvs, hb'⟩ := ih hrest fun hnil => by
      apply emptied_retrieve
      rw [← length_readable, h, hnil, List.flatMap_nil, List.append_nil, v.length_wire]
    refine ⟨b', ?_, hb'⟩
    rw [List.map_cons, readInts, hread]
    dsimp only [Option.bind_eq_bind, Option.bind_some]
    rw [hvs]
    rfl

/-- **Round trips.** Values that are appended to a buffer are read again once the bytes before them have been retrieved,
and the buffer is then as new. A prepended value is read again, and the bytes that were readable are left. -/
theorem ints_round_trip (b : Buffer) :
    (∀ vs : List Integer, ∃ b', ((b.appendInts vs).retrieve b.readableBytes).readInts (vs.map Integer.width) =
      some (vs, b') ∧ b'.Emptied) ∧
    ∀ (v : Integer) (h : v.width.size ≤ b.prependableBytes),
      ∃ b', (b.prependInt v h).readInt v.width = some (v, b') ∧ b'.readable = b.readable := by
  constructor
  · intro vs
    apply readInts_eq
    · rw [readable_retrieve, readable_appendInts, ← length_readable, List.drop_left]
    · rintro rfl
      exact emptied_retrieve (Nat.le_refl _)
  · intro v h
    refine ⟨_, readInt_eq (readable_prependInt b v h), ?_⟩
    rw [readable_retrieve, readable_prependInt, ← v.length_wire, List.drop_left]

/-- The order of the bytes is the one of the network. -/
example : ((Buffer.new 4).appendInts [.int32 (-2), .int8 127]).readable = [255, 255, 255, 254, 127] := by decide +kernel

end Buffer

end Libeva.Net
