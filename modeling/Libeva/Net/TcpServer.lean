import Libeva.Net.TcpConnection

/-!
# `TcpServer`: the life of the connections

The base reactor and the sub reactors `ρ` accept connections, hand the poller's reports to `Event::handle` and run
their pending functors. Names and queues are those of the source; what the poller reports, what `::read` and `::write`
return and when the callbacks of the user call `send` are inputs of the steps. System calls on the epoll descriptor
succeed, and `numCreated_` does not wrap around.

* `Conn` is a connection with its `Event`: the poller's `state_` of the event, its reactor and its descriptor.
* `Stmt` are the statements that a reactor thread still has to execute, `Server.todo` is the list of them.
* `Call` are the callbacks and the other events of a connection's life that `Server.log` lists.
* `Server.step`: the steps of all reactor threads; `~TcpServer` is not one of them, and no other thread calls `send`,
  whose functor would keep a bare `this`.
-/

namespace Libeva.Net

/-! ## `Event::handle` -/

namespace Event

def POLLIN : BitVec 32 := 0x1
def POLLPRI : BitVec 32 := 0x2
def POLLOUT : BitVec 32 := 0x4
def POLLERR : BitVec 32 := 0x8
def POLLHUP : BitVec 32 := 0x10
def POLLNVAL : BitVec 32 := 0x20
def POLLRDHUP : BitVec 32 := 0x2000

def has (revents mask : BitVec 32) : Bool := revents &&& mask != 0

/-- The tests of `handle()` in front of the four callbacks. -/
def closes (revents : BitVec 32) : Bool := has revents POLLHUP && !has revents POLLIN
def errs (revents : BitVec 32) : Bool := has revents (POLLERR ||| POLLNVAL)
def reads (revents : BitVec 32) : Bool := has revents (POLLIN ||| POLLPRI ||| POLLRDHUP)
def writes (revents : BitVec 32) : Bool := has revents POLLOUT

def disableAll (_ : Event) : Event := ⟨kNoneEvent⟩

def isNoneEvent (e : Event) : Bool := e.events_ == kNoneEvent

end Event

/-- The poller's `state_` of an event. -/
inductive EventState
  | kNew
  | kAdded
  | kDeled
  deriving DecidableEq

/-- A connection with its event, of which `conn.event_` is the mask. -/
structure Conn (ρ : Type*) where
  conn : TcpConnection
  event : EventState
  owner : ρ
  fd : ℕ
  /-- `~TcpConnection` has closed the descriptor. -/
  closed : Bool

/-- The functors that hold a connection, which its number in `numCreated_` names. -/
inductive ConnFunctor
  | connectEstablished (c : ℕ)
  | removeConnectionInReactor (c : ℕ)
  | connectDestroyed (c : ℕ)
  deriving DecidableEq

/-- The tests of `Event::handle`, in their order. -/
inductive Stage
  | close
  | error
  | read
  | write
  deriving DecidableEq

inductive Stmt
  | functor (f : ConnFunctor)
  /-- The rest of `Event::handle` of the connection's event, from a test on. -/
  | handle (c : ℕ) (revents : BitVec 32) (stage : Stage)
  /-- The last statement of `handleClose`. -/
  | closeCb (c : ℕ)
  /-- The last statement of `connectDestroyed`. -/
  | remove (c : ℕ)
  /-- A callback of the user that has been called. -/
  | user
  deriving DecidableEq

/-- What happens to a connection. `closing` has the value of the assertion in `handleClose`, and `destroyed` is the end
of `connectDestroyed`. -/
inductive Call
  | created
  | newConn
  | closing (holds : Bool)
  | finConn
  | close
  | removed
  | destroyed
  | handleRead
  | message
  | handleWrite
  | handleError
  deriving DecidableEq

structure Server (ρ : Type*) where
  numCreated_ : ℕ
  conns : ℕ → Conn ρ
  connMap_ : ℕ → Bool
  /-- The statements that a reactor thread has begun and not finished, the next one first. -/
  todo : ρ → List Stmt
  pendingFunctors_ : ρ → List ConnFunctor
  /-- The events of each reactor's poller, by their descriptors. -/
  eventMap_ : ρ × ℕ → Option ℕ
  epoll : ρ × ℕ → Option ℕ
  log : ℕ → List Call

inductive ServerAction (ρ : Type*)
  | handleNewConnection (fd : ℕ) (sub : ρ)
  | report (c : ℕ) (revents : BitVec 32)
  | doPendingFunctors (r : ρ)
  | tick (r : ρ) (read : ℤ) (write : WriteRet)
  | send (c : ℕ) (data : Bytes) (write : WriteRet)
  | release (c : ℕ)

namespace Server

variable {ρ : Type*}

/-- Where a connection's event stands in `eventMap_` and in the epoll set. -/
def key (s : Server ρ) (c : ℕ) : ρ × ℕ := ((s.conns c).owner, (s.conns c).fd)

def note (s : Server ρ) (c : ℕ) (l : List Call) : Server ρ :=
  { s with log := Function.update s.log c (s.log c ++ l) }

def setConn (s : Server ρ) (c : ℕ) (k : Conn ρ) : Server ρ := { s with conns := Function.update s.conns c k }

@[simp] theorem log_note (s : Server ρ) (c : ℕ) (l : List Call) : (s.note c l).log c = s.log c ++ l :=
  Function.update_self ..

@[simp] theorem conns_setConn (s : Server ρ) (c : ℕ) (k : Conn ρ) : (s.setConn c k).conns c = k :=
  Function.update_self ..

def setState (s : Server ρ) (c : ℕ) (state : StateE) : Server ρ :=
  s.setConn c { s.conns c with conn := { (s.conns c).conn with state_ := state } }

section Program

variable [DecidableEq ρ]

def setTodo (s : Server ρ) (r : ρ) (l : List Stmt) : Server ρ := { s with todo := Function.update s.todo r l }

def queueInReactor (s : Server ρ) (r : ρ) (f : ConnFunctor) : Server ρ :=
  { s with pendingFunctors_ := Function.update s.pendingFunctors_ r (s.pendingFunctors_ r ++ [f]) }

/-- `Demultiplexer::registerEvent` for the connection's event. -/
def registerEvent (s : Server ρ) (c : ℕ) : Server ρ :=
  let k := s.conns c
  match k.event with
  | .kNew =>
    { s.setConn c { k with event := .kAdded } with
      eventMap_ := Function.update s.eventMap_ (s.key c) (some c)
      epoll := Function.update s.epoll (s.key c) (some c) }
  | .kDeled =>
    { s.setConn c { k with event := .kAdded } with epoll := Function.update s.epoll (s.key c) (some c) }
  | .kAdded =>
    if k.conn.event_.isNoneEvent then
      { s.setConn c { k with event := .kDeled } with epoll := Function.update s.epoll (s.key c) none }
    else s

/-- `Demultiplexer::unregisterEvent` for the connection's event. -/
def unregisterEvent (s : Server ρ) (c : ℕ) : Server ρ :=
  { s.setConn c { s.conns c with event := .kNew } with
    eventMap_ := Function.update s.eventMap_ (s.key c) none
    epoll := if (s.conns c).event = .kAdded then Function.update s.epoll (s.key c) none else s.epoll }

def setEvent (s : Server ρ) (c : ℕ) (e : Event) : Server ρ :=
  (s.setConn c { s.conns c with conn := { (s.conns c).conn with event_ := e } }).registerEvent c

/-- After a call that enables or disables writing, which changes the mask, the event is updated. -/
def setTcp (s : Server ρ) (c : ℕ) (t : TcpConnection) : Server ρ :=
  let s' := s.setConn c { s.conns c with conn := t }
  if t.event_.events_ = (s.conns c).conn.event_.events_ then s' else s'.registerEvent c

/-- `handleClose` up to its last statement; `finConnCb_` is called. -/
def handleClose (s : Server ρ) (c : ℕ) : Server ρ :=
  let holds := (s.conns c).conn.state_ = .kConnected ∨ (s.conns c).conn.state_ = .kDisconnecting
  ((s.note c [.closing (decide holds)]).setState c .kDisconnected).setEvent c
    (s.conns c).conn.event_.disableAll |>.note c [.finConn]

/-- `connectEstablished`; `newConnCb_` is called. -/
def connectEstablished (s : Server ρ) (c : ℕ) : Server ρ :=
  ((s.setEvent c (s.conns c).conn.event_.enableReading).setState c .kConnected).note c [.newConn]

/-- `connectDestroyed` up to its last statement, when the connection is still `kConnected`; `finConnCb_` is called. -/
def disconnect (s : Server ρ) (c : ℕ) : Server ρ :=
  ((s.setState c .kDisconnected).setEvent c (s.conns c).conn.event_.disableAll).note c [.finConn]

/-- The next statement of a reactor thread, before `rest`. -/
def execute (base : ρ) (s : Server ρ) (r : ρ) (rest : List Stmt) (read : ℤ) (write : WriteRet) : Stmt → Server ρ
  | .user => s.setTodo r rest
  | .functor (.connectEstablished c) => (s.connectEstablished c).setTodo r (.user :: rest)
  | .functor (.removeConnectionInReactor c) =>
    (({ s with connMap_ := Function.update s.connMap_ c false }.note c [.removed]).queueInReactor (s.conns c).owner
      (.connectDestroyed c)).setTodo r rest
  | .functor (.connectDestroyed c) =>
    if (s.conns c).conn.state_ = .kConnected then (s.disconnect c).setTodo r (.user :: .remove c :: rest)
    else s.setTodo r (.remove c :: rest)
  | .remove c => ((s.unregisterEvent c).note c [.destroyed]).setTodo r rest
  -- closeCb_ is removeConnection: reactor_->runInReactor
  | .closeCb c =>
    if r = base then (s.note c [.close]).setTodo r (.functor (.removeConnectionInReactor c) :: rest)
    else ((s.note c [.close]).queueInReactor base (.removeConnectionInReactor c)).setTodo r rest
  | .handle c revents .close =>
    if Event.closes revents then (s.handleClose c).setTodo r (.user :: .closeCb c :: .handle c revents .error :: rest)
    else s.setTodo r (.handle c revents .error :: rest)
  | .handle c revents .error =>
    (if Event.errs revents then s.note c [.handleError] else s).setTodo r (.handle c revents .read :: rest)
  | .handle c revents .read =>
    if Event.reads revents then
      let s := s.note c [.handleRead]
      if 0 < read then (s.note c [.message]).setTodo r (.user :: .handle c revents .write :: rest)
      else if read = 0 then (s.handleClose c).setTodo r (.user :: .closeCb c :: .handle c revents .write :: rest)
      else (s.note c [.handleError]).setTodo r (.handle c revents .write :: rest)
    else s.setTodo r (.handle c revents .write :: rest)
  | .handle c revents .write =>
    (if Event.writes revents then
      (s.note c [.handleWrite]).setTcp c ((s.conns c).conn.handleWrite write) else s).setTodo r rest

/-- A functor or a call in progress holds a `shared_ptr` to the connection. -/
def Stmt.holds (c : ℕ) : Stmt → Bool
  | .functor (.connectEstablished d) | .functor (.removeConnectionInReactor d) | .functor (.connectDestroyed d)
  | .closeCb d | .remove d => c == d
  | .handle _ _ _ | .user => false

/-- What a reactor thread has begun, and what its functors have for it. -/
def work (s : Server ρ) (r : ρ) : List Stmt := s.todo r ++ (s.pendingFunctors_ r).map .functor

/-- Code of the user may run on the reactor thread. -/
def inUser (s : Server ρ) (r : ρ) : Bool :=
  match s.todo r with
  | [] | .user :: _ | .functor _ :: _ => true
  | _ => false

/-- The `TcpConnection` that the constructor builds. -/
def constructed : TcpConnection where
  event_ := ⟨Event.kNoneEvent⟩
  outputBuffer_ := Buffer.new kInitialSize
  state_ := .kDisconnected
  accepted := []
  shutdown := false

def step (base : ρ) (s : Server ρ) : ServerAction ρ → Option (Server ρ)
  | .handleNewConnection fd sub =>
    let c := s.numCreated_
    -- the descriptors of open sockets are different
    if s.todo base = [] ∧ ∀ d < c, (s.conns d).closed = true ∨ (s.conns d).fd ≠ fd then
      let s' := { s.setConn c ⟨constructed, .kNew, sub, fd, false⟩ with
        numCreated_ := c + 1, connMap_ := Function.update s.connMap_ c true }.note c [.created]
      some (if sub = base then s'.setTodo base [.functor (.connectEstablished c)]
        else s'.queueInReactor sub (.connectEstablished c))
    else none
  | .report c revents =>
    if s.todo (s.conns c).owner = [] ∧ s.epoll (s.key c) = some c then
      some (s.setTodo (s.conns c).owner [.handle c revents .close])
    else none
  | .doPendingFunctors r =>
    if s.todo r = [] then
      some { s.setTodo r ((s.pendingFunctors_ r).map .functor) with
        pendingFunctors_ := Function.update s.pendingFunctors_ r [] }
    else none
  | .tick r read write =>
    match s.todo r with
    | [] => none
    | i :: rest => some (s.execute base r rest read write i)
  | .send c data write =>
    if c < s.numCreated_ ∧ (s.conns c).closed = false ∧ s.inUser (s.conns c).owner = true then
      some (s.setTcp c ((s.conns c).conn.sendInReactor data write))
    else none
  -- ~TcpConnection when nobody holds the connection
  | .release c =>
    if c < s.numCreated_ ∧ s.connMap_ c = false ∧ (s.work (s.conns c).owner ++ s.work base).all (!Stmt.holds c ·) then
      some { s.setConn c { s.conns c with closed := true } with
        epoll := if s.epoll (s.key c) = some c then Function.update s.epoll (s.key c) none else s.epoll }
    else none

/-- The server before its first connection. -/
def init (base : ρ) : Server ρ where
  numCreated_ := 0
  conns _ := ⟨constructed, .kNew, base, 0, true⟩
  connMap_ _ := false
  todo _ := []
  pendingFunctors_ _ := []
  eventMap_ _ := none
  epoll _ := none
  log _ := []

/-- All interleavings of the reactor threads. -/
def servers (base : ρ) : Lts.System (Server ρ) (ServerAction ρ) := Lts.ofFun (init base) (step base)

end Program

/-- **One life of a connection.** `finConnCb_` and `closeCb_` run at most once, the former after `newConnCb_`; the
assertion of `handleClose` holds; the connection is in `connMap_` from its creation to its single removal; and
`connectDestroyed` is the last thing that happens to it, with its event in neither map from then on. -/
structure Once (s : Server ρ) (c : ℕ) : Prop where
  finConn : (s.log c).count .finConn ≤ 1
  finConn_newConn : ∀ l l', s.log c = l ++ .finConn :: l' → .newConn ∈ l
  close : (s.log c).count .close ≤ 1
  closing : .closing false ∉ s.log c
  connMap : s.connMap_ c = true ↔ .created ∈ s.log c ∧ .removed ∉ s.log c
  removed : (s.log c).count .removed ≤ 1
  destroyed : ∀ l l', s.log c = l ++ .destroyed :: l' → l' = []
  unregistered : .destroyed ∈ s.log c → ∀ k, s.eventMap_ k ≠ some c ∧ s.epoll k ≠ some c

end Server

end Libeva.Net
