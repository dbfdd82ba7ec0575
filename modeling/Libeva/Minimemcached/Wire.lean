import Libeva.Minimemcached.Server
import Libeva.Net.Wire

/-!
# The server on its sockets

The conversations with their `TcpConnection`s: `handleRead` fills the input buffer of a connection by `readFd` and runs
`msgCb` on it, the sends of which the socket takes in whatever portions it likes, and `handleWrite` writes the rest
later. The events of all connections come in any order.

* `Node`, `Node.Step`: the server of `Server.lean` with the sockets; the strings that one `msgCb` sends may be any that
  make up what it adds to `sent`.
* `served`: between events the server answers like the reference for the chunks read so far, and each socket and its
  output buffer together have all the replies.
* `serves_on_wire`: the replies reach the sockets.
-/

namespace Libeva.Minimemcached

open Net

variable {ι : Type} [DecidableEq ι]

/-- The server and the connections of its conversations. -/
structure Node (ι : Type) where
  server : Server ι
  conn_ : ι → TcpConnection

namespace Node

/-- Connections that have been established on a new server. -/
def established (S : Server ι) : Node ι := ⟨S, fun _ => .established⟩

inductive Action (ι : Type)
  | handleRead (i : ι) (data : Bytes)
  | handleWrite (i : ι) (r : WriteRet)

inductive Step : Node ι → Action ι → Node ι → Prop
  | handleRead {s : Node ι} {i : ι} {data : Bytes} {t : Session} {outs : List Bytes} {c : TcpConnection} : data ≠ [] →
    (Buffer.Readv.ok data).Fits (s.server.conns i).2 →
    Session.msgCb ⟨s.server.server_, (s.server.conns i).1, ((s.server.conns i).2.readFd (.ok data)).2.2⟩ = .ok t →
    t.conv.sent = (s.server.conns i).1.sent ++ outs.flatten → TcpConnection.Emits (s.conn_ i) outs c →
    Step s (.handleRead i data)
      ⟨⟨t.server_, Function.update s.server.conns i (t.conv, t.buf)⟩, Function.update s.conn_ i c⟩
  | handleWrite {s : Node ι} {i : ι} {r : WriteRet} : r.Ok (s.conn_ i).outputBuffer_.readableBytes →
    Step s (.handleWrite i r) { s with conn_ := Function.update s.conn_ i ((s.conn_ i).handleWrite r) }

/-- All events on all connections. -/
def events : Lts.System (Node ι) (Action ι) := ⟨fun s => ∃ S, Server.init = .ok S ∧ s = established S, Step⟩

/-- What an event reads. -/
def Action.reads : Action ι → Option (ι × Bytes)
  | .handleRead i data => some (i, data)
  | .handleWrite _ _ => none

/-- What a run reads, in order. -/
def reads (w : List (Node ι × Action ι × Node ι)) : List (ι × Bytes) := w.filterMap fun x => x.2.1.reads

end Node

/-! ## One event -/

/-- A chunk in the input buffer, however it got there. -/
theorem Server.Serves.read {S : Server ι} {R : Ref ι} {x : ι × List Piece} {sched : List (ι × List Piece)} {b : Buffer}
    (h : S.Serves R (x :: sched)) (hb : b.readable = x.2.flatMap Piece.bytes) :
    ∃ t, Session.msgCb ⟨S.server_, (S.conns x.1).1, b⟩ = .ok t ∧
      Server.Serves ⟨t.server_, Function.update S.conns x.1 (t.conv, t.buf)⟩ (R.chunk x.1 x.2) sched := by
  obtain ⟨i, ps⟩ := x
  obtain ⟨ph, r, hw, hf, hfit, -⟩ := h.ready i
  rw [own_cons, if_pos rfl] at hf hfit
  obtain ⟨t, ph', r', ht, hw', hm', hf', hfit', hempty', hsent⟩ := Session.msgCb_pieces
    (s := ⟨S.server_, (S.conns i).1, b⟩) (R := R) hw h.agrees hf hfit hb (h.sent i)
  refine ⟨t, ht, hm', fun j => ?_, fun j => ?_⟩
  · show Ready (Function.update S.conns i (t.conv, t.buf) j) (own j sched)
    by_cases hj : j = i
    · rw [hj, Function.update_self]
      exact ⟨ph', r', hw', hf', hfit', hempty'⟩
    · have hready := h.ready j
      rw [own_cons, if_neg (Ne.symm hj)] at hready
      rw [Function.update_of_ne hj]
      exact hready
  · show (Function.update S.conns i (t.conv, t.buf) j).1.sent = _
    by_cases hj : j = i
    · rw [hj, Function.update_self]
      exact hsent
    · rw [Function.update_of_ne hj, Ref.chunk_replies hj]
      exact h.sent j

/-- A chunk only adds replies. -/
theorem Ref.replies_prefix (R : Ref ι) (i : ι) (ps : List Piece) : R.replies i <+: (R.chunk i ps).replies i := by
  induction ps generalizing R with
  | nil => exact List.prefix_refl _
  | cons p ps ih =>
    refine List.IsPrefix.trans ?_ (ih (R.piece i p))
    show R.replies i <+: Function.update R.replies i (R.replies i ++ (p.effect R.map).2) i
    rw [Function.update_self]
    exact List.prefix_append _ _

/-- `readv` has room for 64 KiB at least. -/
theorem le_iovTotal (b : Buffer) : Buffer.extrabufSize ≤ b.iovTotal := by
  unfold Buffer.iovTotal
  split <;> omega

namespace Node

/-! ## Runs -/

/-- Between two events: the server serves, and each connection has all the replies. -/
structure Serving (s : Node ι) (R : Ref ι) (sched : List (ι × List Piece)) : Prop where
  serves : s.server.Serves R sched
  holds : ∀ i, (s.conn_ i).Holds (R.replies i)

variable {s s' : Node ι} {R : Ref ι} {x : ι × List Piece} {sched : List (ι × List Piece)} {i : ι} {r : WriteRet}

theorem Serving.readable (h : s.Serving R sched) (i : ι) (data : Bytes) :
    ((s.server.conns i).2.readFd (.ok data)).2.2.readable = data := by
  obtain ⟨-, -, -, -, -, hempty⟩ := h.serves.ready i
  rw [Buffer.readable_readFd, hempty, List.nil_append]

theorem Serving.handleRead (h : s.Serving R (x :: sched))
    (hs : Step s (.handleRead x.1 (x.2.flatMap Piece.bytes)) s') : s'.Serving (R.chunk x.1 x.2) sched := by
  cases hs with
  | handleRead _ _ ht hsent hemits =>
    obtain ⟨t, ht', hserves⟩ := h.serves.read (h.readable x.1 _)
    cases ht.symm.trans ht'
    refine ⟨hserves, fun j => ?_⟩
    show (Function.update s.conn_ x.1 _ j).Holds _
    by_cases hj : j = x.1
    · have hreplies := hserves.sent x.1
      rw [Server.sent] at hreplies
      dsimp only at hreplies
      rw [Function.update_self, hsent, show (s.server.conns x.1).1.sent = R.replies x.1 from h.serves.sent x.1]
        at hreplies
      rw [hj, Function.update_self, ← hreplies]
      exact (h.holds x.1).emits hemits
    · rw [Function.update_of_ne hj, Ref.chunk_replies hj]
      exact h.holds j

theorem Serving.handleWrite (h : s.Serving R sched) (hs : Step s (.handleWrite i r) s') : s'.Serving R sched := by
  cases hs with
  | handleWrite hr =>
    refine ⟨h.serves, fun j => ?_⟩
    show (Function.update s.conn_ i _ j).Holds _
    by_cases hj : j = i
    · rw [hj, Function.update_self]
      exact (h.holds i).handleWrite hr
    · rw [Function.update_of_ne hj]
      exact h.holds j

/-- The next chunk can be handled. -/
theorem Serving.progress (h : s.Serving R (x :: sched)) (hne : x.2.flatMap Piece.bytes ≠ [])
    (hlen : (x.2.flatMap Piece.bytes).length ≤ Buffer.extrabufSize) :
    ∃ s', Step s (.handleRead x.1 (x.2.flatMap Piece.bytes)) s' := by
  obtain ⟨t, ht, hserves⟩ := h.serves.read (h.readable x.1 _)
  obtain ⟨out, hout⟩ := R.replies_prefix x.1 x.2
  obtain ⟨c, hc⟩ := TcpConnection.emits (s.conn_ x.1) [out]
  have hreplies := hserves.sent x.1
  rw [Server.sent] at hreplies
  dsimp only at hreplies
  rw [Function.update_self, ← hout, ← show (s.server.conns x.1).1.sent = R.replies x.1 from h.serves.sent x.1]
    at hreplies
  refine ⟨_, .handleRead hne (hlen.trans (le_iovTotal _)) ht ?_ hc⟩
  rw [hreplies, List.flatten_cons, List.flatten_nil, List.append_nil]

theorem serving_run {s₀ : Node ι} {w : List (Node ι × Action ι × Node ι)} {done : List (ι × List Piece)}
    (h0 : s₀.Serving R (done ++ sched)) (hr : Lts.Run events s₀ w s) (hw : reads w = wire done) :
    s.Serving (R.run done) sched := by
  induction hr generalizing done sched with
  | nil =>
    rw [show done = [] from List.map_eq_nil_iff.1 hw.symm] at h0 ⊢
    exact h0
  | @snoc s₁ s₂ a w hr hst ih =>
    rw [reads, List.filterMap_append] at hw
    cases a with
    | handleRead i data =>
      obtain ⟨done', last, rfl, hdone, hlast⟩ := List.map_eq_append_iff.1 hw.symm
      obtain ⟨x, rfl, hx⟩ := List.map_eq_singleton_iff.1 hlast
      cases hx
      have h1 : s₁.Serving (R.run done') (x :: sched) := ih (by simpa using h0) hdone.symm
      rw [Ref.run, List.foldl_append]
      exact h1.handleRead hst
    | handleWrite i r =>
      rw [show List.filterMap _ [(s₁, Action.handleWrite i r, s₂)] = [] from rfl, List.append_nil] at hw
      exact (ih h0 hw).handleWrite hst

/-- Every schedule of chunks that the buffer can take is one of a run. -/
theorem Serving.exists_run (h : s.Serving R sched)
    (hlen : ∀ x ∈ sched, x.2.flatMap Piece.bytes ≠ [] ∧ (x.2.flatMap Piece.bytes).length ≤ Buffer.extrabufSize) :
    ∃ s' w, Lts.Run events s w s' ∧ reads w = wire sched := by
  induction sched generalizing s R with
  | nil => exact ⟨s, [], .nil s, rfl⟩
  | cons x sched ih =>
    obtain ⟨hx, hrest⟩ := List.forall_mem_cons.1 hlen
    obtain ⟨t, ht⟩ := h.progress hx.1 hx.2
    obtain ⟨s', w, hr, hw⟩ := ih (h.handleRead ht) hrest
    refine ⟨s', _, (Lts.Run.single ht).trans hr, ?_⟩
    rw [reads, List.filterMap_append]
    exact congrArg (List.cons _) hw

end Node

/-- **On the wire.** Whatever the sockets take of each write, and in whatever order the events of the connections come:
when the chunks read so far are pieces of valid commands, the bytes that each socket has accepted, with those in the
output buffer behind them, are the replies of the reference; enough calls of `handleWrite` bring them all to the socket;
and the server can go on with the next chunk. -/
theorem serves_on_wire {cmds : ι → List Cmd} {done next : List (ι × List Piece)} (hv : ∀ i, ∀ c ∈ cmds i, c.Valid)
    (hp : ∀ i, own i (done ++ next) <+: (cmds i).flatMap Cmd.pieces) (hfit : ∀ i, Fits .init (own i (done ++ next)))
    {s₀ s : Node ι} {w : List (Node ι × Node.Action ι × Node ι)} (h0 : Node.events.init s₀)
    (hr : Lts.Run Node.events s₀ w s) (hw : Node.reads w = wire done) :
    (∀ i, (s.conn_ i).accepted ++ (s.conn_ i).outputBuffer_.readable =
      (Ref.run ⟨fun _ => none, fun _ => []⟩ done).replies i) ∧
    (∀ i (ns : List ℕ), (s.conn_ i).outputBuffer_.readableBytes ≤ ns.length →
      ((s.conn_ i).flush ns).accepted = (Ref.run ⟨fun _ => none, fun _ => []⟩ done).replies i) ∧
    ∀ x rest, next = x :: rest → x.2.flatMap Piece.bytes ≠ [] →
      (x.2.flatMap Piece.bytes).length ≤ Buffer.extrabufSize →
      ∃ s', Node.events.step s (.handleRead x.1 (x.2.flatMap Piece.bytes)) s' := by
  obtain ⟨S, hS, rfl⟩ := h0
  obtain ⟨S', hS', hserves⟩ := serves_init (fun i => follows_of_prefix (hv i) (hp i)) hfit
  cases hS.symm.trans hS'
  have h := Node.serving_run ⟨hserves, fun _ => TcpConnection.holds_established⟩ hr hw
  refine ⟨fun i => (h.holds i).stream, fun i ns hlen => ((h.holds i).drained hlen).1, ?_⟩
  rintro x rest rfl hne hlen
  exact h.progress hne hlen

/-- One connection sets a key and another one gets it, before and after; `handleWrite` brings out what is left. -/
theorem serves_on_wire_two : ∃ (s₀ s : Node Bool) (w : List (Node Bool × Node.Action Bool × Node Bool)),
    Lts.Run Node.events s₀ w s ∧ Node.reads w = wire sampleSched ∧
    (s.conn_ false).accepted ++ (s.conn_ false).outputBuffer_.readable = bytes "STORED\r\n" ∧
    ((s.conn_ true).flush (List.replicate (s.conn_ true).outputBuffer_.readableBytes 1)).accepted =
      bytes "END\r\nVALUE a\r\n\r\nEND\r\n" := by
  have hv : ∀ i, ∀ c ∈ sampleCmds i, c.Valid := by decide +kernel
  have hp : ∀ i, own i (sampleSched ++ []) <+: (sampleCmds i).flatMap Cmd.pieces := by decide +kernel
  have hfit : ∀ i, Fits .init (own i (sampleSched ++ [])) := by decide +kernel
  obtain ⟨S, hS, hserves⟩ := serves_init (fun i => follows_of_prefix (hv i) (hp i)) hfit
  have h0 : Node.events.init (Node.established S) := ⟨S, hS, rfl⟩
  have hserving : (Node.established S).Serving ⟨fun _ => none, fun _ => []⟩ sampleSched :=
    ⟨hserves, fun _ => TcpConnection.holds_established⟩
  obtain ⟨s, w, hr, hw⟩ := hserving.exists_run (by decide +kernel)
  obtain ⟨hsent, hflush, -⟩ := serves_on_wire hv hp hfit h0 hr hw
  refine ⟨_, s, w, hr, hw, (hsent false).trans (by decide +kernel), (hflush true _ ?_).trans (by decide +kernel)⟩
  rw [List.length_replicate]

end Libeva.Minimemcached
