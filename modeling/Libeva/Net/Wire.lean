import Libeva.Net.TcpConnection

/-!
# From socket to socket

A server on a `TcpConnection`: `handleRead` puts what `readv` delivers into the input buffer and calls `msgCb`, which
takes bytes off that buffer and sends; `handleWrite` writes what `send` could not. What `readv` and `::write` return is
up to the kernel.

* `TcpConnection.Emits`: the sends of one `msgCb`, which may shrink the output buffer in between.
* `TcpConnection.flush`: `handleWrite` again and again while the socket takes at least one byte each time.
* `EchoServer`: the example server. `echo_stream` says that it sends back what it has read, byte by byte and in order.
-/

namespace Libeva.Net

namespace TcpConnection

variable {c c' : TcpConnection} {d : Bytes} {outs : List Bytes}

/-! ## The sends of one `msgCb` -/

/-- `send` of each of the strings, with `outputBuffer()->shrink( reserve )` anywhere between. -/
inductive Emits : TcpConnection → List Bytes → TcpConnection → Prop
  | nil (c : TcpConnection) : Emits c [] c
  | send {c c' : TcpConnection} {data : Bytes} {outs : List Bytes} {r : WriteRet} : r.Ok data.length →
    Emits (c.send data r) outs c' → Emits c (data :: outs) c'
  | shrink {c c' : TcpConnection} {outs : List Bytes} {reserve : ℕ} : c.outputBuffer_.readableBytes < 2 ^ 31 →
    Emits { c with outputBuffer_ := c.outputBuffer_.shrink reserve } outs c' → Emits c outs c'

theorem Holds.send {data : Bytes} {r : WriteRet} (h : c.Holds d) (hr : r.Ok data.length) :
    (c.send data r).Holds (d ++ data) := by
  rw [TcpConnection.send, if_pos h.connected]
  exact h.sendInReactor hr

theorem Holds.shrink (h : c.Holds d) (hlt : c.outputBuffer_.readableBytes < 2 ^ 31) (reserve : ℕ) :
    ({ c with outputBuffer_ := c.outputBuffer_.shrink reserve } : TcpConnection).Holds d := by
  have hread := Buffer.readable_shrink reserve hlt
  exact ⟨h.connected, by dsimp only; rw [hread, h.stream], by dsimp only; rw [hread]; exact h.writing⟩

theorem Holds.emits (h : c.Holds d) (he : Emits c outs c') : c'.Holds (d ++ outs.flatten) := by
  induction he generalizing d with
  | nil c => rwa [List.flatten_nil, List.append_nil]
  | send hr _ ih =>
    rw [List.flatten_cons, ← List.append_assoc]
    exact ih (h.send hr)
  | shrink hlt _ ih => exact ih (h.shrink hlt _)

/-- Every list of strings can be sent, whatever the socket takes of each. -/
theorem emits (c : TcpConnection) (outs : List Bytes) : ∃ c', Emits c outs c' := by
  induction outs generalizing c with
  | nil => exact ⟨c, .nil c⟩
  | cons data outs ih =>
    obtain ⟨c', hc⟩ := ih (c.send data (.count 0))
    exact ⟨c', .send (Nat.zero_le _) hc⟩

/-! ## Draining the output buffer -/

/-- `handleWrite` for each entry; the socket takes one byte more than the entry, if there are as many. -/
def flush (c : TcpConnection) : List ℕ → TcpConnection
  | [] => c
  | n :: ns => (c.handleWrite (.count (min (n + 1) c.outputBuffer_.readableBytes))).flush ns

theorem ok_min (c : TcpConnection) (n : ℕ) :
    (WriteRet.count (min n c.outputBuffer_.readableBytes)).Ok c.outputBuffer_.readableBytes := Nat.min_le_right _ _

/-- With bytes to write a call takes some of them. -/
theorem Holds.handleWrite_lt (h : c.Holds d) (hne : c.outputBuffer_.readable ≠ []) (n : ℕ) :
    (c.handleWrite (.count (min (n + 1) c.outputBuffer_.readableBytes))).outputBuffer_.readableBytes <
      c.outputBuffer_.readableBytes := by
  have hpos : 0 < c.outputBuffer_.readableBytes :=
    Nat.pos_of_ne_zero fun e => hne (Buffer.readableBytes_eq_zero.1 e)
  obtain ⟨m, hm⟩ : ∃ m, min (n + 1) c.outputBuffer_.readableBytes = m + 1 :=
    Nat.exists_eq_succ_of_ne_zero (by omega)
  have hdrop : (c.outputBuffer_.retrieve (m + 1)).readableBytes < c.outputBuffer_.readableBytes := by
    rw [← Buffer.length_readable, Buffer.readable_retrieve, List.length_drop, Buffer.length_readable]
    omega
  rw [hm]
  unfold TcpConnection.handleWrite
  rw [if_pos (h.writing.2 hne)]
  dsimp only
  split
  · rw [if_neg (by rw [h.connected]; exact fun e => by cases e)]
    exact hdrop
  · exact hdrop

theorem handleWrite_idle (h : c.event_.isWriting = false) (r : WriteRet) : c.handleWrite r = c := by
  unfold TcpConnection.handleWrite
  rw [if_neg (by rw [h]; exact Bool.false_ne_true)]

theorem Holds.flush (h : c.Holds d) (ns : List ℕ) : (c.flush ns).Holds d := by
  induction ns generalizing c with
  | nil => exact h
  | cons n ns ih => exact ih (h.handleWrite (c.ok_min (n + 1)))

/-- As many calls as there are bytes are enough. -/
theorem Holds.flush_empty {ns : List ℕ} (h : c.Holds d) (hlen : c.outputBuffer_.readableBytes ≤ ns.length) :
    (c.flush ns).outputBuffer_.readable = [] := by
  induction ns generalizing c with
  | nil => exact Buffer.readableBytes_eq_zero.1 (Nat.le_zero.1 hlen)
  | cons n ns ih =>
    refine ih (h.handleWrite (c.ok_min (n + 1))) ?_
    by_cases hne : c.outputBuffer_.readable = []
    · have hidle : c.event_.isWriting = false := Bool.eq_false_iff.2 fun hw => h.writing.1 hw hne
      rw [handleWrite_idle hidle, Buffer.readableBytes_eq_zero.2 hne]
      exact Nat.zero_le _
    · have hlt := h.handleWrite_lt hne n
      rw [List.length_cons] at hlen
      omega

/-- The socket has got everything, and the connection no longer waits to write. -/
theorem Holds.drained {ns : List ℕ} (h : c.Holds d) (hlen : c.outputBuffer_.readableBytes ≤ ns.length) :
    (c.flush ns).accepted = d ∧ (c.flush ns).event_.isWriting = false := by
  have hf := h.flush ns
  have hempty := h.flush_empty hlen
  refine ⟨?_, Bool.eq_false_iff.2 fun hw => hf.writing.1 hw hempty⟩
  have hstream := hf.stream
  rwa [hempty, List.append_nil] at hstream

theorem holds_established : established.Holds [] :=
  ⟨rfl, rfl, iff_of_false (by decide) fun hne => hne (Buffer.readable_new _)⟩

end TcpConnection

/-! ## `EchoServer` -/

/-- One connection of the server. -/
structure EchoServer where
  conn : TcpConnection
  inputBuffer_ : Buffer
  /-- The bytes that `readv` has delivered so far. -/
  received : Bytes

namespace EchoServer

/-- After `connectEstablished()`. -/
def established : EchoServer := ⟨.established, .new kInitialSize, []⟩

/-- `msgCb( conn, buf, timestamp )`; `r` is what `::write` returns if `send` calls it. -/
def msgCb (conn : TcpConnection) (buf : Buffer) (r : WriteRet) : TcpConnection × Buffer :=
  let (content, buf) := buf.retrieveAsString buf.readableBytes
  (conn.send content r, buf)

inductive Action
  | handleRead (data : Bytes) (r : WriteRet)
  | handleWrite (r : WriteRet)

/-- `handleRead` with the bytes that `readv` delivers, or `handleWrite`. -/
inductive Step : EchoServer → Action → EchoServer → Prop
  | handleRead {s : EchoServer} {data : Bytes} {r : WriteRet} : data ≠ [] →
    (Buffer.Readv.ok data).Fits s.inputBuffer_ →
    r.Ok (s.inputBuffer_.readFd (.ok data)).2.2.readableBytes →
    Step s (.handleRead data r)
      ⟨(msgCb s.conn (s.inputBuffer_.readFd (.ok data)).2.2 r).1,
        (msgCb s.conn (s.inputBuffer_.readFd (.ok data)).2.2 r).2, s.received ++ data⟩
  | handleWrite {s : EchoServer} {r : WriteRet} : r.Ok s.conn.outputBuffer_.readableBytes →
    Step s (.handleWrite r) { s with conn := s.conn.handleWrite r }

/-- All events on a connection. -/
def echoes : Lts.System EchoServer Action := ⟨fun s => s = established, Step⟩

/-- Between two events everything read is sent. -/
structure Echoed (s : EchoServer) : Prop where
  input : s.inputBuffer_.readable = []
  holds : s.conn.Holds s.received

theorem Echoed.step {s s' : EchoServer} {a : Action} (h : s.Echoed) (hs : Step s a s') : s'.Echoed := by
  cases hs with
  | @handleRead data r _ _ hr =>
    have hread := Buffer.readable_readFd s.inputBuffer_ data
    rw [h.input, List.nil_append] at hread
    have hcontent : ((s.inputBuffer_.readFd (.ok data)).2.2.retrieveAsString
        (s.inputBuffer_.readFd (.ok data)).2.2.readableBytes).1 = data := by
      unfold Buffer.retrieveAsString
      dsimp only
      rw [Buffer.take_peek (Nat.le_refl _), hread, ← Buffer.length_readable, hread, List.take_length]
    refine ⟨?_, ?_⟩
    · show (Buffer.retrieve _ _).readable = []
      rw [Buffer.readable_retrieve, ← Buffer.length_readable, List.drop_length]
    · show (s.conn.send (Buffer.retrieveAsString _ _).1 r).Holds (s.received ++ data)
      rw [hcontent]
      refine h.holds.send ?_
      rwa [← Buffer.length_readable, hread] at hr
  | handleWrite hr => exact ⟨h.input, h.holds.handleWrite hr⟩

theorem reach_echoed {s : EchoServer} (hs : Lts.Reach echoes s) : s.Echoed := by
  refine hs.invariant ?_ fun _ _ _ _ h hst => h.step hst
  rintro _ rfl
  exact ⟨Buffer.readable_new _, TcpConnection.holds_established⟩

/-- **The echo.** After any events the bytes that the socket has accepted, with those that wait in the output buffer
behind them, are the bytes read, in order; nothing stays in the input buffer, and write interest is on exactly when
bytes wait. As many calls of `handleWrite` as bytes wait, each of which gets a byte or more through, send them all. -/
theorem echo_stream (s : EchoServer) (hs : Lts.Reach echoes s) :
    s.conn.accepted ++ s.conn.outputBuffer_.readable = s.received ∧ s.inputBuffer_.readable = [] ∧
    (s.conn.event_.isWriting = true ↔ s.conn.outputBuffer_.readable ≠ []) ∧
    ∀ ns : List ℕ, s.conn.outputBuffer_.readableBytes ≤ ns.length →
      (s.conn.flush ns).accepted = s.received ∧ (s.conn.flush ns).event_.isWriting = false :=
  have h := reach_echoed hs
  ⟨h.holds.stream, h.input, h.holds.writing, fun _ hlen => h.holds.drained hlen⟩

/-- Three bytes are read, and the socket takes one. -/
def echoThree : EchoServer :=
  ⟨(msgCb .established ((Buffer.new kInitialSize).readFd (.ok [1, 2, 3])).2.2 (.count 1)).1,
    (msgCb .established ((Buffer.new kInitialSize).readFd (.ok [1, 2, 3])).2.2 (.count 1)).2, [1, 2, 3]⟩

theorem echo_stream_three : (echoThree.conn.flush [0, 0]).accepted = [1, 2, 3] := by
  have hread : ((Buffer.new kInitialSize).readFd (.ok [1, 2, 3])).2.2.readable = [1, 2, 3] :=
    Buffer.readable_readFd (.new kInitialSize) [1, 2, 3]
  have hreach : Lts.Reach echoes echoThree := by
    refine .step (a := .handleRead [1, 2, 3] (.count 1)) (.init rfl) (.handleRead (List.cons_ne_nil _ _) ?_ ?_)
    · show 3 ≤ (Buffer.new kInitialSize).iovTotal
      decide +kernel
    · show 1 ≤ ((Buffer.new kInitialSize).readFd (.ok [1, 2, 3])).2.2.readableBytes
      rw [← Buffer.length_readable, hread]
      decide
  exact ((echo_stream echoThree hreach).2.2.2 [0, 0] (by decide +kernel)).1

end EchoServer

end Libeva.Net
