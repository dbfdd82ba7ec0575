import Libeva.Lib.Runs
import Libeva.Net.Buffer
import Mathlib.Logic.Function.Basic

/-!
# `Buffer` is a byte queue

Any sequence of calls on any number of buffers, with the lengths that the methods assert, does to the readable bytes
what the corresponding sequence of queue operations does.

* `buffers`: the calls as the code performs them; the kernel fills the areas of `readv` in order.
* `queues`: the same calls on lists of bytes.
* `Buffer.Asserts`: the order of the indices, and what `ensureWritableBytes` and `makeSpace` assert.
-/

namespace Libeva.Net

/-- A call, with what the caller or the kernel puts in. `retrieveUntil` is called with `peek()+len`; `hasWritten` comes
after its caller has put `data` at `beginWrite()`. -/
inductive BufferCall (ι : Type*)
  | append (i : ι) (data : Bytes)
  | retrieve (i : ι) (len : ℕ)
  | retrieveUntil (i : ι) (len : ℕ)
  | retrieveAll (i : ι)
  | retrieveAsString (i : ι) (len : ℕ)
  | ensureWritableBytes (i : ι) (len : ℕ)
  | hasWritten (i : ι) (data : Bytes) (len : ℕ)
  | unwrite (i : ι) (len : ℕ)
  | prepend (i : ι) (data : Bytes)
  | swap (i j : ι)
  | shrink (i : ι) (reserve : ℕ)
  | readFd (i : ι) (r : Buffer.Readv)

/-- What a call returns; `readFd` may also save an `errno`. -/
inductive BufferRet
  | void
  | string (s : Bytes)
  | result (n : ℤ) (savedErr : Option ℤ)

section Queue

variable {ι : Type*} [DecidableEq ι]

/-- One call on the buffers `s`. -/
inductive Buffers.Step (s : ι → Buffer) : BufferCall ι × BufferRet → (ι → Buffer) → Prop
  | append {i : ι} {data : Bytes} :
    Step s (.append i data, .void) (Function.update s i ((s i).append data))
  | retrieve {i : ι} {len : ℕ} : len ≤ (s i).readableBytes →
    Step s (.retrieve i len, .void) (Function.update s i ((s i).retrieve len))
  | retrieveUntil {i : ι} {len : ℕ} : len ≤ (s i).readableBytes →
    Step s (.retrieveUntil i len, .void) (Function.update s i ((s i).retrieveUntil ((s i).readerIndex_ + len)))
  | retrieveAll {i : ι} :
    Step s (.retrieveAll i, .void) (Function.update s i (s i).retrieveAll)
  | retrieveAsString {i : ι} {len : ℕ} : len ≤ (s i).readableBytes →
    Step s (.retrieveAsString i len, .string ((s i).retrieveAsString len).1)
      (Function.update s i ((s i).retrieveAsString len).2)
  | ensureWritableBytes {i : ι} {len : ℕ} :
    Step s (.ensureWritableBytes i len, .void) (Function.update s i ((s i).ensureWritableBytes len))
  | hasWritten {i : ι} {data : Bytes} {len : ℕ} (h : data.length ≤ (s i).writableBytes)
    (h' : len ≤ ((s i).fill data h).writableBytes) : len ≤ data.length →
    Step s (.hasWritten i data len, .void) (Function.update s i (((s i).fill data h).hasWritten len h'))
  | unwrite {i : ι} {len : ℕ} (h : len ≤ (s i).readableBytes) :
    Step s (.unwrite i len, .void) (Function.update s i ((s i).unwrite len h))
  | prepend {i : ι} {data : Bytes} (h : data.length ≤ (s i).prependableBytes) :
    Step s (.prepend i data, .void) (Function.update s i ((s i).prepend data h))
  | swap {i j : ι} :
    Step s (.swap i j, .void)
      (Function.update (Function.update s i ((s i).swap (s j)).1) j ((s i).swap (s j)).2)
  | shrink {i : ι} {reserve : ℕ} : (s i).readableBytes < 2 ^ 31 →
    Step s (.shrink i reserve, .void) (Function.update s i ((s i).shrink reserve))
  | readFd {i : ι} {r : Buffer.Readv} : r.Fits (s i) →
    Step s (.readFd i r, .result ((s i).readFd r).1 ((s i).readFd r).2.1)
      (Function.update s i ((s i).readFd r).2.2)

/-- Any number of buffers that have just been constructed, and all sequences of calls on them. -/
def buffers : Lts.System (ι → Buffer) (BufferCall ι × BufferRet) :=
  ⟨fun s => ∀ i, ∃ initialSize, s i = .new initialSize, Buffers.Step⟩

/-- The same call on byte queues. -/
inductive Queues.Step (q : ι → Bytes) : BufferCall ι × BufferRet → (ι → Bytes) → Prop
  | append {i : ι} {data : Bytes} :
    Step q (.append i data, .void) (Function.update q i (q i ++ data))
  | retrieve {i : ι} {front rest : Bytes} : q i = front ++ rest →
    Step q (.retrieve i front.length, .void) (Function.update q i rest)
  | retrieveUntil {i : ι} {front rest : Bytes} : q i = front ++ rest →
    Step q (.retrieveUntil i front.length, .void) (Function.update q i rest)
  | retrieveAll {i : ι} :
    Step q (.retrieveAll i, .void) (Function.update q i [])
  | retrieveAsString {i : ι} {front rest : Bytes} : q i = front ++ rest →
    Step q (.retrieveAsString i front.length, .string front) (Function.update q i rest)
  | ensureWritableBytes {i : ι} {len : ℕ} :
    Step q (.ensureWritableBytes i len, .void) q
  | hasWritten {i : ι} {data rest : Bytes} :
    Step q (.hasWritten i (data ++ rest) data.length, .void) (Function.update q i (q i ++ data))
  | unwrite {i : ι} {rest back : Bytes} : q i = rest ++ back →
    Step q (.unwrite i back.length, .void) (Function.update q i rest)
  | prepend {i : ι} {data : Bytes} :
    Step q (.prepend i data, .void) (Function.update q i (data ++ q i))
  | swap {i j : ι} :
    Step q (.swap i j, .void) (Function.update (Function.update q i (q j)) j (q i))
  | shrink {i : ι} {reserve : ℕ} :
    Step q (.shrink i reserve, .void) q
  | readFd {i : ι} {data : Bytes} :
    Step q (.readFd i (.ok data), .result data.length none) (Function.update q i (q i ++ data))
  | readError {i : ι} {errno : ℤ} :
    Step q (.readFd i (.error errno), .result (-1) (some errno)) q

/-- Empty queues, and all sequences of operations on them. -/
def queues : Lts.System (ι → Bytes) (BufferCall ι × BufferRet) := ⟨fun q => ∀ i, q i = [], Queues.Step⟩

/-- The readable bytes of every buffer. -/
def contents (s : ι → Buffer) : ι → Bytes := fun i => (s i).readable

variable {s s' : ι → Buffer} {c : BufferCall ι × BufferRet}

theorem contents_update (s : ι → Buffer) (i : ι) (b : Buffer) :
    contents (Function.update s i b) = Function.update (contents s) i b.readable :=
  Function.comp_update Buffer.readable s i b

theorem contents_update_same {i : ι} {b : Buffer} (h : b.readable = (s i).readable) :
    contents (Function.update s i b) = contents s := by
  rw [contents_update, h]
  exact Function.update_eq_self i (contents s)

theorem split_front {b : Buffer} {len : ℕ} (h : len ≤ b.readableBytes) :
    ∃ front rest, b.readable = front ++ rest ∧ front.length = len ∧ b.readable.drop len = rest ∧
      b.readable.take len = front := by
  refine ⟨_, _, (List.take_append_drop len b.readable).symm, ?_, rfl, rfl⟩
  rw [List.length_take, b.length_readable]
  omega

/-- **Step refinement.** -/
theorem Buffers.Step.queues (h : Buffers.Step s c s') : Queues.Step (contents s) c (contents s') := by
  cases h with
  | append =>
    rw [contents_update, Buffer.readable_append]
    exact .append
  | retrieve h =>
    obtain ⟨front, rest, hq, rfl, hd, -⟩ := split_front h
    rw [contents_update, Buffer.readable_retrieve, hd]
    exact .retrieve hq
  | retrieveUntil h =>
    obtain ⟨front, rest, hq, rfl, hd, -⟩ := split_front h
    rw [contents_update, Buffer.readable_retrieveUntil, Nat.add_sub_cancel_left, hd]
    exact .retrieveUntil hq
  | retrieveAll =>
    rw [contents_update, Buffer.readable_retrieveAll]
    exact .retrieveAll
  | retrieveAsString h =>
    have hp := Buffer.take_peek h
    obtain ⟨front, rest, hq, rfl, hd, ht⟩ := split_front h
    unfold Buffer.retrieveAsString
    rw [contents_update, Buffer.readable_retrieve, hd, hp, ht]
    exact .retrieveAsString hq
  | ensureWritableBytes =>
    rw [contents_update_same (Buffer.readable_ensureWritableBytes _ _)]
    exact .ensureWritableBytes
  | @hasWritten i data len h h' hlen =>
    rw [contents_update, Buffer.readable_fill_hasWritten _ _ _ _ hlen]
    have hst : Queues.Step (contents s)
        (.hasWritten i (data.take len ++ data.drop len) (data.take len).length, .void) _ := .hasWritten
    rw [List.take_append_drop, List.length_take, Nat.min_eq_left hlen] at hst
    exact hst
  | @unwrite i len h =>
    rw [contents_update, Buffer.readable_unwrite]
    have hq := (List.take_append_drop ((s i).readableBytes - len) (s i).readable).symm
    have hl : ((s i).readable.drop ((s i).readableBytes - len)).length = len := by
      rw [List.length_drop, Buffer.length_readable]
      omega
    have hst := Queues.Step.unwrite (q := contents s) (i := i) hq
    rw [hl] at hst
    exact hst
  | prepend h =>
    rw [contents_update, Buffer.readable_prepend]
    exact .prepend
  | swap =>
    rw [contents_update, contents_update]
    exact .swap
  | shrink h =>
    rw [contents_update_same (Buffer.readable_shrink _ h)]
    exact .shrink
  | @readFd i r h =>
    cases r with
    | error errno =>
      have hrfl : ((s i).readFd (.error errno)).2.2.readable = (s i).readable := rfl
      rw [contents_update_same hrfl]
      exact .readError
    | ok data =>
      rw [contents_update, Buffer.readable_readFd]
      exact .readFd

/-- The indices are in order, and what `ensureWritableBytes` and `makeSpace` assert holds. -/
structure Buffer.Asserts (b : Buffer) : Prop where
  reader_le : b.readerIndex_ ≤ b.writerIndex_
  writer_le : b.writerIndex_ ≤ b.buffer_.length
  ensure (len : ℕ) : len ≤ (b.ensureWritableBytes len).writableBytes
  slide (len : ℕ) : b.writableBytes < len → ¬b.writableBytes + b.prependableBytes < len + kCheapPrepend →
    kCheapPrepend < b.readerIndex_
  moved (len : ℕ) (h : b.writableBytes < len) : (b.makeSpace len h).readableBytes = b.readableBytes

theorem Buffer.asserts (b : Buffer) : b.Asserts where
  reader_le := b.reader_le
  writer_le := b.writer_le
  ensure := b.le_writableBytes
  slide _ := Buffer.kCheapPrepend_lt_readerIndex
  moved len h := by rw [← length_readable, ← length_readable, readable_makeSpace]

/-- **`Buffer` is a byte queue.** Every sequence of calls does to the readable bytes what the queue operations do, with
the same results; and the assertions hold of every buffer, also of the ones inside of a call. -/
theorem byte_queue {s t : ι → Buffer} {w : List ((ι → Buffer) × (BufferCall ι × BufferRet) × (ι → Buffer))}
    (hs : buffers.init s) (h : Lts.Run buffers s w t) :
    queues.init (contents s) ∧
    Lts.Run queues (contents s) (w.map fun x => (contents x.1, x.2.1, contents x.2.2)) (contents t) ∧
    ∀ b : Buffer, b.Asserts := by
  refine ⟨fun i => ?_, ?_, Buffer.asserts⟩
  · obtain ⟨n, hn⟩ := hs i
    show (s i).readable = []
    rw [hn]
    exact Buffer.readable_new n
  · exact h.simulate (N := queues) (f := contents) (g := id) fun _ _ _ hst => Buffers.Step.queues hst

end Queue

/-- Two buffers of the initial size `4`: appends before and after a read, one that moves the bytes, and a `swap`. -/
theorem byte_queue_two : ∃ (t : Bool → Buffer)
      (w : List ((Bool → Buffer) × (BufferCall Bool × BufferRet) × (Bool → Buffer))),
    Lts.Run buffers (fun _ => .new 4) w t ∧
    w.map (fun x => x.2.1) = [(.append false [1, 2, 3, 4, 5], .void), (.retrieveAsString false 3, .string [1, 2, 3]),
      (.append false [6, 7], .void), (.readFd true (.ok [8, 9]), .result 2 none), (.swap false true, .void)] ∧
    Lts.Run queues (contents fun _ => .new 4) (w.map fun x => (contents x.1, x.2.1, contents x.2.2)) (contents t) ∧
    contents t true = [4, 5, 6, 7] := by
  have h1 : Lts.Run buffers (fun _ : Bool => .new 4) _ _ :=
    .single (show Buffers.Step _ (.append false [1, 2, 3, 4, 5], _) _ from .append)
  have h2 := h1.snoc (show Buffers.Step _ (.retrieveAsString false 3, _) _ from .retrieveAsString (by decide +kernel))
  have h3 := h2.snoc (show Buffers.Step _ (.append false [6, 7], _) _ from .append)
  have h4 := h3.snoc (show Buffers.Step _ (.readFd true (.ok [8, 9]), _) _ from
    .readFd (show 2 ≤ Buffer.iovTotal _ by decide +kernel))
  have h5 := h4.snoc (show Buffers.Step _ (.swap false true, _) _ from .swap)
  exact ⟨_, _, h5, rfl, (byte_queue (fun _ => ⟨4, rfl⟩) h5).2.1, by decide +kernel⟩

end Libeva.Net
