import Libeva.Lib.Runs
import Libeva.Net.Buffer

/-!
# `TcpConnection`: the outgoing byte stream

`send` and `handleWrite` on the connection's reactor thread while the connection is `kConnected`. What `::write` returns
is an input of the step: any count up to the length, or an error.

* `Event` has the interest mask, with `POLLIN | POLLPRI` and `POLLOUT`.
* `TcpConnection.accepted` are the bytes that the socket has taken so far.
* `stream_preserved`: accepted bytes and output buffer are what was sent, and write interest is on exactly when the
  output buffer is not empty.
-/

namespace Libeva.Net

/-- `Event`: the mask of the events that the connection waits for. -/
structure Event where
  events_ : BitVec 32

namespace Event

def kNoneEvent : BitVec 32 := 0
def kReadEvent : BitVec 32 := 3
def kWriteEvent : BitVec 32 := 4

def enableReading (e : Event) : Event := ⟨e.events_ ||| kReadEvent⟩

def enableWriting (e : Event) : Event := ⟨e.events_ ||| kWriteEvent⟩

def disableWriting (e : Event) : Event := ⟨e.events_ &&& ~~~kWriteEvent⟩

def isWriting (e : Event) : Bool := e.events_ &&& kWriteEvent != 0

@[simp] theorem isWriting_enableWriting (e : Event) : e.enableWriting.isWriting = true := by
  have h : (e.events_ ||| kWriteEvent) &&& kWriteEvent = kWriteEvent := by
    ext i hi
    rw [BitVec.getElem_and, BitVec.getElem_or]
    cases kWriteEvent[i] <;> simp
  show ((e.events_ ||| kWriteEvent) &&& kWriteEvent != 0) = true
  rw [h]; rfl

@[simp] theorem isWriting_disableWriting (e : Event) : e.disableWriting.isWriting = false := by
  have h : (e.events_ &&& ~~~kWriteEvent) &&& kWriteEvent = 0 := by
    rw [BitVec.and_assoc, BitVec.and_comm (~~~kWriteEvent)]
    simp
  show ((e.events_ &&& ~~~kWriteEvent) &&& kWriteEvent != 0) = false
  rw [h]; rfl

end Event

def EWOULDBLOCK : ℕ := 11
def EPIPE : ℕ := 32
def ECONNRESET : ℕ := 104

/-- What `::write` returns: a count, or `-1` with `errno`. -/
inductive WriteRet
  | count (n : ℕ)
  | error (errno : ℕ)
  deriving DecidableEq

/-- `::write` takes no more than it is given, and the peer has not gone away. -/
def WriteRet.Ok (len : ℕ) : WriteRet → Prop
  | .count n => n ≤ len
  | .error e => e ≠ EPIPE ∧ e ≠ ECONNRESET

inductive StateE
  | kDisconnected
  | kConnecting
  | kConnected
  | kDisconnecting
  deriving DecidableEq

structure TcpConnection where
  event_ : Event
  outputBuffer_ : Buffer
  state_ : StateE
  /-- The bytes that `connSock_` has accepted. -/
  accepted : Bytes
  /-- `::shutdown( fd, SHUT_WR )` has been called. -/
  shutdown : Bool

namespace TcpConnection

/-- The rest of `sendInReactor` after its `::write` has taken `numWrite` bytes. -/
def buffer (c : TcpConnection) (data : Bytes) (numWrite : ℕ) (intoleranceError : Bool) : TcpConnection :=
  let remaining := data.length - numWrite
  if !intoleranceError && decide (0 < remaining) then
    { c with
      outputBuffer_ := c.outputBuffer_.append (data.drop numWrite)
      event_ := if c.event_.isWriting then c.event_ else c.event_.enableWriting }
  else c

/-- `sendInReactor( data, len )`; `r` is what `::write` returns if it is called. -/
def sendInReactor (c : TcpConnection) (data : Bytes) (r : WriteRet) : TcpConnection :=
  if c.state_ = .kDisconnected then c
  else if !c.event_.isWriting && c.outputBuffer_.readableBytes == 0 then
    match r with
    | .count n => { c with accepted := c.accepted ++ data.take n }.buffer data n false
    | .error e => c.buffer data 0 (e != EWOULDBLOCK && (e == EPIPE || e == ECONNRESET))
  else c.buffer data 0 false

/-- `send( data, len )` on the reactor thread. -/
def send (c : TcpConnection) (data : Bytes) (r : WriteRet) : TcpConnection :=
  if c.state_ = .kConnected then c.sendInReactor data r else c

/-- `send( buf )` on the reactor thread, with the buffer afterwards. -/
def sendBuffer (c : TcpConnection) (buf : Buffer) (r : WriteRet) : TcpConnection × Buffer :=
  if c.state_ = .kConnected then (c.sendInReactor buf.readable r, buf.retrieveAll) else (c, buf)

def shutdownInLoop (c : TcpConnection) : TcpConnection :=
  if c.event_.isWriting then c else { c with shutdown := true }

/-- `handleWrite()`; `r` is what `::write` returns if it is called. -/
def handleWrite (c : TcpConnection) (r : WriteRet) : TcpConnection :=
  if c.event_.isWriting then
    match r with
    | .count (n + 1) =>
      let c := { c with
        accepted := c.accepted ++ c.outputBuffer_.readable.take (n + 1)
        outputBuffer_ := c.outputBuffer_.retrieve (n + 1) }
      if c.outputBuffer_.readableBytes = 0 then
        let c := { c with event_ := c.event_.disableWriting }
        if c.state_ = .kDisconnecting then c.shutdownInLoop else c
      else c
    | _ => c
  else c

/-- The connection after `connectEstablished()`. -/
def established : TcpConnection where
  event_ := (Event.mk Event.kNoneEvent).enableReading
  outputBuffer_ := Buffer.new kInitialSize
  state_ := .kConnected
  accepted := []
  shutdown := false

end TcpConnection

/-! ## Runs of a connection -/

/-- A call on the reactor thread, with what `::write` returns. -/
inductive Op
  | send (data : Bytes) (r : WriteRet)
  | sendBuffer (buf : Buffer) (r : WriteRet)
  | handleWrite (r : WriteRet)

/-- A connection, and the data of its `send` calls so far. -/
structure Stream where
  conn : TcpConnection
  sent : List Bytes

/-- One call; `::write` is given the data of a `send`, or the output buffer. -/
inductive Stream.Step : Stream → Op → Stream → Prop
  | send {s : Stream} {data : Bytes} {r : WriteRet} : r.Ok data.length →
    Step s (.send data r) ⟨s.conn.send data r, s.sent ++ [data]⟩
  | sendBuffer {s : Stream} {buf : Buffer} {r : WriteRet} : r.Ok buf.readableBytes →
    Step s (.sendBuffer buf r) ⟨(s.conn.sendBuffer buf r).1, s.sent ++ [buf.readable]⟩
  | handleWrite {s : Stream} {r : WriteRet} : r.Ok s.conn.outputBuffer_.readableBytes →
    Step s (.handleWrite r) ⟨s.conn.handleWrite r, s.sent⟩

/-- All sequences of calls on a connection that has been established. -/
def streams : Lts.System Stream Op := ⟨fun s => s = ⟨.established, []⟩, Stream.Step⟩

/-- Bytes on the socket and in the output buffer, with the write interest that goes with them. -/
structure TcpConnection.Holds (c : TcpConnection) (data : Bytes) : Prop where
  connected : c.state_ = .kConnected
  stream : c.accepted ++ c.outputBuffer_.readable = data
  writing : c.event_.isWriting = true ↔ c.outputBuffer_.readable ≠ []

variable {c : TcpConnection} {d data : Bytes} {r : WriteRet}

/-- What `::write` has not taken goes behind the bytes in the output buffer. -/
theorem TcpConnection.Holds.buffer {n : ℕ} (h : c.Holds d) (hn : n ≤ data.length)
    (hw : 0 < n → c.outputBuffer_.readable = []) :
    ({ c with accepted := c.accepted ++ data.take n }.buffer data n false).Holds (d ++ data) := by
  obtain ⟨hc, hs, hi⟩ := h
  have hsplit : c.accepted ++ data.take n ++ (c.outputBuffer_.readable ++ data.drop n) = d ++ data := by
    rcases Nat.eq_zero_or_pos n with rfl | hpos
    · rw [List.take_zero, List.append_nil, List.drop_zero, ← List.append_assoc, hs]
    · rw [hw hpos] at hs ⊢
      rw [List.append_nil] at hs
      rw [List.nil_append, List.append_assoc, List.take_append_drop, hs]
  unfold TcpConnection.buffer
  by_cases hrem : 0 < data.length - n
  · have hne : data.drop n ≠ [] := by
      intro e
      have := congrArg List.length e
      rw [List.length_drop, List.length_nil] at this
      omega
    rw [if_pos (by simpa using hrem)]
    refine ⟨hc, ?_, ?_⟩
    · show c.accepted ++ data.take n ++ (c.outputBuffer_.append (data.drop n)).readable = d ++ data
      rw [Buffer.readable_append]
      exact hsplit
    · show (if c.event_.isWriting then c.event_ else c.event_.enableWriting).isWriting = true ↔
        (c.outputBuffer_.append (data.drop n)).readable ≠ []
      rw [Buffer.readable_append]
      refine iff_of_true ?_ (by simp [hne])
      split
      · assumption
      · exact c.event_.isWriting_enableWriting
  · rw [if_neg (by simpa using hrem)]
    refine ⟨hc, ?_, hi⟩
    have hlen : data.length = n := by omega
    rw [hlen.symm, List.drop_length, List.append_nil] at hsplit
    rw [← hlen]
    exact hsplit

theorem TcpConnection.Holds.sendInReactor (h : c.Holds d) (hr : r.Ok data.length) :
    (c.sendInReactor data r).Holds (d ++ data) := by
  have hbuf : (c.buffer data 0 false).Holds (d ++ data) := by
    have := h.buffer (Nat.zero_le data.length) (fun h => absurd h (Nat.lt_irrefl 0))
    rwa [List.take_zero, List.append_nil] at this
  unfold TcpConnection.sendInReactor
  rw [if_neg (by rw [h.connected]; exact nofun)]
  split
  · rename_i hw
    rw [Bool.and_eq_true, beq_iff_eq] at hw
    cases r with
    | count n => exact h.buffer hr fun _ => Buffer.readableBytes_eq_zero.1 hw.2
    | error e =>
      have he : (e != EWOULDBLOCK && (e == EPIPE || e == ECONNRESET)) = false := by
        rw [beq_eq_false_iff_ne.2 hr.1, beq_eq_false_iff_ne.2 hr.2, Bool.or_false, Bool.and_false]
      show (c.buffer data 0 (e != EWOULDBLOCK && (e == EPIPE || e == ECONNRESET))).Holds _
      rw [he]
      exact hbuf
  · exact hbuf

theorem TcpConnection.Holds.handleWrite (h : c.Holds d) (hr : r.Ok c.outputBuffer_.readableBytes) :
    (c.handleWrite r).Holds d := by
  obtain ⟨hc, hs, hi⟩ := h
  unfold TcpConnection.handleWrite
  split
  · rename_i hw
    cases r with
    | error e => exact ⟨hc, hs, hi⟩
    | count n =>
      cases n with
      | zero => exact ⟨hc, hs, hi⟩
      | succ n =>
        have hs' : c.accepted ++ c.outputBuffer_.readable.take (n + 1) ++
            (c.outputBuffer_.retrieve (n + 1)).readable = d := by
          rw [Buffer.readable_retrieve, List.append_assoc, List.take_append_drop, hs]
        dsimp only
        split
        · rename_i hz
          rw [Buffer.readableBytes_eq_zero] at hz
          rw [if_neg (by rw [hc]; exact nofun)]
          refine ⟨hc, hs', ?_⟩
          exact iff_of_false (by simp) (by simpa using hz)
        · rename_i hz
          rw [Buffer.readableBytes_eq_zero] at hz
          exact ⟨hc, hs', iff_of_true hw hz⟩
  · exact ⟨hc, hs, hi⟩

/-- After every call the bytes that the socket has accepted and the bytes in the output buffer are the data of the
`send` calls, in order; and write interest is on exactly when the output buffer is not empty. -/
theorem stream_preserved (s : Stream) (hs : Lts.Reach streams s) :
    s.conn.accepted ++ s.conn.outputBuffer_.readable = s.sent.flatten ∧
    (s.conn.event_.isWriting = true ↔ s.conn.outputBuffer_.readable ≠ []) := by
  have h : s.conn.Holds s.sent.flatten := by
    refine hs.invariant (I := fun s => s.conn.Holds s.sent.flatten) ?_ ?_
    · rintro s rfl
      exact ⟨rfl, rfl, iff_of_false (by decide) (fun hne => hne (Buffer.readable_new _))⟩
    · intro s a s' _ h hst
      cases hst with
      | send hr =>
        simp only [TcpConnection.send, if_pos h.connected, List.flatten_append, List.flatten_singleton]
        exact h.sendInReactor hr
      | sendBuffer hr =>
        simp only [TcpConnection.sendBuffer, if_pos h.connected, List.flatten_append, List.flatten_singleton]
        exact h.sendInReactor (by rw [Buffer.length_readable]; exact hr)
      | handleWrite hr => exact h.handleWrite hr
  exact ⟨h.stream, h.writing⟩

/-- The socket takes one of three bytes. -/
def sentThree : Stream := ⟨TcpConnection.established.send [1, 2, 3] (.count 1), [[1, 2, 3]]⟩

theorem stream_preserved_three :
    sentThree.conn.accepted ++ sentThree.conn.outputBuffer_.readable = sentThree.sent.flatten ∧
    (sentThree.conn.event_.isWriting = true ↔ sentThree.conn.outputBuffer_.readable ≠ []) :=
  stream_preserved sentThree (.step (a := .send [1, 2, 3] (.count 1)) (.init rfl) (.send (Nat.le_add_left 1 2)))

end Libeva.Net
