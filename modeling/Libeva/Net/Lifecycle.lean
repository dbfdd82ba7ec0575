import Libeva.Net.TcpServer

/-!
# The stages of a connection's life

* `Touches`: what the operations on one connection leave alone.
* `Life`: the stages, with what each says about the poller's state of the event, the mask and what has happened;
  `Local` is the part of the invariant about the connection itself, its places in the maps and its history.
* `Local.once`: at every stage the connection has lived one life so far.
-/

namespace Libeva.Net.Server

variable {ρ : Type*} {base : ρ} {s s' s'' : Server ρ} {c d : ℕ} {r : ρ}

/-! ## What the operations on one connection leave alone -/

/-- Only connection `d` and its places in the maps change. -/
structure Touches (d : ℕ) (s s' : Server ρ) : Prop where
  numCreated : s'.numCreated_ = s.numCreated_
  todo : s'.todo = s.todo
  pending : s'.pendingFunctors_ = s.pendingFunctors_
  key : s'.key d = s.key d
  closed : (s'.conns d).closed = (s.conns d).closed
  conns : ∀ c ≠ d, s'.conns c = s.conns c
  connMap : ∀ c ≠ d, s'.connMap_ c = s.connMap_ c
  log : ∀ c ≠ d, s'.log c = s.log c
  eventMap : ∀ c ≠ d, s.eventMap_ (s.key d) ≠ some c → ∀ k, s'.eventMap_ k = some c ↔ s.eventMap_ k = some c
  epoll : ∀ c ≠ d, s.epoll (s.key d) ≠ some c → ∀ k, s'.epoll k = some c ↔ s.epoll k = some c

theorem Touches.refl (d : ℕ) (s : Server ρ) : Touches d s s :=
  ⟨rfl, rfl, rfl, rfl, rfl, fun _ _ => rfl, fun _ _ => rfl, fun _ _ => rfl, fun _ _ _ _ => Iff.rfl,
    fun _ _ _ _ => Iff.rfl⟩

theorem Touches.trans (h : Touches d s s') (h' : Touches d s' s'') : Touches d s s'' where
  numCreated := h'.numCreated.trans h.numCreated
  todo := h'.todo.trans h.todo
  pending := h'.pending.trans h.pending
  key := h'.key.trans h.key
  closed := h'.closed.trans h.closed
  conns c hc := (h'.conns c hc).trans (h.conns c hc)
  connMap c hc := (h'.connMap c hc).trans (h.connMap c hc)
  log c hc := (h'.log c hc).trans (h.log c hc)
  eventMap c hc hk k := by
    have hk' : s'.eventMap_ (s'.key d) ≠ some c := by
      rw [h.key]
      exact fun e => hk ((h.eventMap c hc hk _).1 e)
    exact (h'.eventMap c hc hk' k).trans (h.eventMap c hc hk k)
  epoll c hc hk k := by
    have hk' : s'.epoll (s'.key d) ≠ some c := by
      rw [h.key]
      exact fun e => hk ((h.epoll c hc hk _).1 e)
    exact (h'.epoll c hc hk' k).trans (h.epoll c hc hk k)

theorem touches_note (d : ℕ) (l : List Call) : Touches d s (s.note d l) :=
  { Touches.refl d s with log := fun _ hc => Function.update_of_ne hc _ _ }

theorem touches_setConn {k : Conn ρ} (hk : (k.owner, k.fd) = s.key d) (hc : k.closed = (s.conns d).closed) :
    Touches d s (s.setConn d k) :=
  { Touches.refl d s with
    key := by rw [← hk, Server.key, conns_setConn]
    closed := by rw [conns_setConn, hc]
    conns := fun _ hc => Function.update_of_ne hc _ _ }

theorem touches_setState (d : ℕ) (state : StateE) : Touches d s (s.setState d state) := touches_setConn rfl rfl

/-! ## The stages of a life -/

inductive Life
  | unborn
  | establishing
  | connected
  | closing
  | removing
  | destroying
  | leaving
  | gone
  deriving DecidableEq

namespace Life

/-- What has happened, besides the callbacks for data and errors. -/
def milestones : Life → List Call
  | .unborn => []
  | .establishing => [.created]
  | .connected => [.created, .newConn]
  | .closing => [.created, .newConn, .closing true, .finConn]
  | .removing => [.created, .newConn, .closing true, .finConn, .close]
  | .destroying | .leaving => [.created, .newConn, .closing true, .finConn, .close, .removed]
  | .gone => [.created, .newConn, .closing true, .finConn, .close, .removed, .destroyed]

def event : Life → EventState
  | .unborn | .establishing | .gone => .kNew
  | .connected => .kAdded
  | .closing | .removing | .destroying | .leaving => .kDeled

def inMap : Life → Bool
  | .establishing | .connected | .closing | .removing => true
  | .unborn | .destroying | .leaving | .gone => false

def state_ : Life → StateE
  | .connected => .kConnected
  | .unborn | .establishing | .closing | .removing | .destroying | .leaving | .gone => .kDisconnected

/-- The masks that the event may have: reading is never disabled alone. -/
def masks : Life → List (BitVec 32)
  | .connected => [3, 7]
  | .unborn | .establishing | .closing | .removing | .destroying | .leaving | .gone => [0]

end Life

def Call.milestone : Call → Bool
  | .handleRead | .message | .handleWrite | .handleError => false
  | .created | .newConn | .closing _ | .finConn | .close | .removed | .destroyed => true

/-- The connection itself, its places in the maps and its history are as at a stage of its life. -/
structure Local (s : Server ρ) (c : ℕ) (p : Life) : Prop where
  milestones : (s.log c).filter Call.milestone = p.milestones
  last : p = .gone → ∃ l, s.log c = l ++ [.destroyed]
  connMap : s.connMap_ c = p.inMap
  event : (s.conns c).event = p.event
  eventMap : ∀ k, s.eventMap_ k = some c ↔ k = s.key c ∧ p.event ≠ .kNew
  epoll : ∀ k, s.epoll k = some c ↔ k = s.key c ∧ p.event = .kAdded
  state_ : (s.conns c).conn.state_ = p.state_
  mask : (s.conns c).conn.event_.events_ ∈ p.masks
  closed : (s.conns c).closed = true → p = .gone ∨ p = .unborn
  born : p = .unborn ↔ s.numCreated_ ≤ c

variable {p : Life}

/-- An operation on a connection with another place in the maps. -/
theorem Local.touches (h : Local s c p) (ht : Touches d s s') (hc : c ≠ d) (hk : s.key d = s.key c → p.event = .kNew) :
    Local s' c p := by
  have hm : s.eventMap_ (s.key d) ≠ some c := fun e => ((h.eventMap _).1 e).2 (hk ((h.eventMap _).1 e).1)
  have he : s.epoll (s.key d) ≠ some c := by
    intro e
    have := (h.epoll _).1 e
    rw [hk this.1] at this
    exact nomatch this.2
  have hkey : s'.key c = s.key c := by rw [key, key, ht.conns c hc]
  refine ⟨?_, ?_, ?_, ?_, fun k => ?_, fun k => ?_, ?_, ?_, ?_, ?_⟩
  · rw [ht.log c hc]; exact h.milestones
  · rw [ht.log c hc]; exact h.last
  · rw [ht.connMap c hc]; exact h.connMap
  · rw [ht.conns c hc]; exact h.event
  · rw [ht.eventMap c hc hm, hkey]; exact h.eventMap k
  · rw [ht.epoll c hc he, hkey]; exact h.epoll k
  · rw [ht.conns c hc]; exact h.state_
  · rw [ht.conns c hc]; exact h.mask
  · rw [ht.conns c hc]; exact h.closed
  · rw [ht.numCreated]; exact h.born

/-- A callback for data or an error. -/
theorem Local.note {l : List Call} (h : Local s c p) (hp : p ≠ .gone) (hl : ∀ x ∈ l, Call.milestone x = false) :
    Local (s.note c l) c p := by
  refine ⟨?_, fun e => absurd e hp, h.connMap, h.event, h.eventMap, h.epoll, h.state_, h.mask, h.closed, h.born⟩
  have hnil : l.filter Call.milestone = [] := List.filter_eq_nil_iff.2 fun x hx => by rw [hl x hx]; exact nofun
  rw [log_note, List.filter_append, hnil, List.append_nil]
  exact h.milestones

theorem Local.lt (h : Local s c p) (hp : p ≠ .unborn) : c < s.numCreated_ :=
  Nat.lt_of_not_le fun hc => hp (h.born.2 hc)

theorem Local.open (h : Local s c p) (hp : p ≠ .unborn) (hp' : p ≠ .gone) : (s.conns c).closed = false := by
  rw [← Bool.not_eq_true]
  exact fun hc => (h.closed hc).elim hp' hp

theorem Local.close (h : Local s c .closing) : Local (s.note c [.close]) c .removing := by
  have hms := h.milestones
  refine ⟨?_, nofun, h.connMap, h.event, h.eventMap, h.epoll, h.state_, h.mask, fun hc => (nomatch h.closed hc), ?_⟩
  · simp [hms, Life.milestones, Call.milestone]
  · simpa [Server.note] using h.born

theorem Local.removed (h : Local s c .removing) :
    Local ({ s with connMap_ := Function.update s.connMap_ c false }.note c [.removed]) c .destroying := by
  have hms := h.milestones
  refine ⟨?_, nofun, ?_, h.event, h.eventMap, h.epoll, h.state_, h.mask, fun hc => (nomatch h.closed hc), ?_⟩
  · simp [hms, Life.milestones, Call.milestone]
  · simp [Server.note, Life.inMap]
  · simpa [Server.note] using h.born

theorem Local.mem_log {x : Call} (h : Local s c p) (hx : Call.milestone x = true) : x ∈ s.log c ↔ x ∈ p.milestones := by
  rw [← h.milestones, List.mem_filter]
  exact ⟨fun hm => ⟨hm, hx⟩, And.left⟩

theorem Local.count_log {x : Call} (h : Local s c p) (hx : Call.milestone x = true) :
    (s.log c).count x = p.milestones.count x := by
  rw [← h.milestones, List.count_filter hx]

theorem Local.once (h : Local s c p) : s.Once c where
  finConn := by
    rw [h.count_log rfl]
    cases p <;> decide
  finConn_newConn l l' hl := by
    have hm : l.filter Call.milestone ++ .finConn :: l'.filter Call.milestone = p.milestones := by
      rw [← h.milestones, hl, List.filter_append, List.filter_cons_of_pos rfl]
    refine List.mem_of_mem_filter (p := Call.milestone) ?_
    generalize l.filter Call.milestone = a at hm
    generalize l'.filter Call.milestone = b at hm
    rcases a with _ | ⟨x, _ | ⟨y, a⟩⟩ <;> cases p <;> simp_all [Life.milestones]
  close := by
    rw [h.count_log rfl]
    cases p <;> decide
  closing := by
    rw [h.mem_log rfl]
    cases p <;> decide
  connMap := by
    rw [h.connMap, h.mem_log rfl, h.mem_log rfl]
    cases p <;> decide
  removed := by
    rw [h.count_log rfl]
    cases p <;> decide
  destroyed l l' hl := by
    have hcount : (s.log c).count .destroyed ≤ 1 := by
      rw [h.count_log rfl]
      cases p <;> decide
    have hp : p = .gone := by
      have hmem : Call.destroyed ∈ p.milestones := (h.mem_log rfl).1 (by rw [hl]; simp)
      cases p <;> first | rfl | simp [Life.milestones] at hmem
    obtain ⟨l₀, hl₀⟩ := h.last hp
    -- a later entry would make the last one a second `destroyed`
    rcases List.eq_nil_or_concat l' with rfl | ⟨a, x, rfl⟩
    · rfl
    · have hx : x = .destroyed := by
        have he : (l ++ .destroyed :: a) ++ [x] = l₀ ++ [.destroyed] := by rw [← hl₀, hl]; simp
        exact List.singleton_inj.1 (List.append_inj' he rfl).2
      rw [hl, hx] at hcount
      simp at hcount
      omega
  unregistered hd k := by
    have hp : p = .gone := by
      have hmem := (h.mem_log rfl).1 hd
      cases p <;> first | rfl | simp [Life.milestones] at hmem
    subst hp
    exact ⟨fun he => absurd rfl ((h.eventMap k).1 he).2, fun he => nomatch ((h.epoll k).1 he).2⟩

/-! ## The operations -/

variable [DecidableEq ρ]

/-- A write at a place of a map where `c` is not, of something else than `c`. -/
theorem update_eq_some {m : ρ × ℕ → Option ℕ} {k : ρ × ℕ} {v : Option ℕ} (hv : v ≠ some c) (hk : m k ≠ some c)
    (k' : ρ × ℕ) : Function.update m k v k' = some c ↔ m k' = some c := by
  by_cases h : k' = k
  · subst h
    rw [Function.update_self]
    exact iff_of_false hv hk
  · rw [Function.update_of_ne h]

theorem log_registerEvent (s : Server ρ) (c : ℕ) : (s.registerEvent c).log = s.log := by
  unfold registerEvent
  dsimp only
  split
  · rfl
  · rfl
  · split <;> rfl

theorem touches_registerEvent (d : ℕ) : Touches d s (s.registerEvent d) := by
  have hconn : ∀ e, Touches d s (s.setConn d { s.conns d with event := e }) := fun e => touches_setConn rfl rfl
  unfold registerEvent
  dsimp only
  split
  · exact { hconn .kAdded with
      eventMap := fun c hc hk => update_eq_some (fun e => hc (Option.some.inj e).symm) hk
      epoll := fun c hc hk => update_eq_some (fun e => hc (Option.some.inj e).symm) hk }
  · exact { hconn .kAdded with
      epoll := fun c hc hk => update_eq_some (fun e => hc (Option.some.inj e).symm) hk }
  · split
    · exact { hconn .kDeled with epoll := fun c _ hk => update_eq_some nofun hk }
    · exact Touches.refl d s

theorem touches_unregisterEvent (d : ℕ) : Touches d s (s.unregisterEvent d) := by
  have hconn : Touches d s (s.setConn d { s.conns d with event := .kNew }) := touches_setConn rfl rfl
  exact { hconn with
    eventMap := fun c _ hk => update_eq_some (v := none) nofun hk
    epoll := fun c _ hk k => by
      dsimp only [unregisterEvent]
      split
      · exact update_eq_some (v := none) nofun hk k
      · exact Iff.rfl }

theorem touches_setEvent (d : ℕ) (e : Event) : Touches d s (s.setEvent d e) := by
  have hconn : Touches d s (s.setConn d { s.conns d with conn := { (s.conns d).conn with event_ := e } }) :=
    touches_setConn rfl rfl
  exact hconn.trans (touches_registerEvent d)

theorem touches_setTcp (d : ℕ) (t : TcpConnection) : Touches d s (s.setTcp d t) := by
  have hconn : Touches d s (s.setConn d { s.conns d with conn := t }) := touches_setConn rfl rfl
  unfold setTcp
  dsimp only
  split
  · exact hconn
  · exact hconn.trans (touches_registerEvent d)

theorem touches_handleClose (d : ℕ) : Touches d s (s.handleClose d) :=
  (((touches_note d _).trans (touches_setState d _)).trans (touches_setEvent d _)).trans (touches_note d _)

theorem touches_connectEstablished (d : ℕ) : Touches d s (s.connectEstablished d) :=
  ((touches_setEvent d _).trans (touches_setState d _)).trans (touches_note d _)

theorem Local.setTodo (h : Local s c p) (r : ρ) (l : List Stmt) : Local (s.setTodo r l) c p :=
  ⟨h.milestones, h.last, h.connMap, h.event, h.eventMap, h.epoll, h.state_, h.mask, h.closed, h.born⟩

theorem place_add {m : ρ × ℕ → Option ℕ} {k : ρ × ℕ} {q : Prop} (h : ∀ k', m k' = some c ↔ k' = k ∧ q) (k' : ρ × ℕ) :
    Function.update m k (some c) k' = some c ↔ k' = k := by
  by_cases hk : k' = k
  · subst hk
    simp
  · rw [Function.update_of_ne hk, h]
    simp [hk]

theorem place_erase {m : ρ × ℕ → Option ℕ} {k : ρ × ℕ} {q : Prop} (h : ∀ k', m k' = some c ↔ k' = k ∧ q)
    (k' : ρ × ℕ) : Function.update m k none k' ≠ some c := by
  by_cases hk : k' = k
  · subst hk
    simp
  · rw [Function.update_of_ne hk]
    exact fun e => hk ((h k').1 e).1

theorem Local.connectEstablished (h : Local s c .establishing) : Local (s.connectEstablished c) c .connected := by
  have hev : (s.conns c).event = .kNew := h.event
  have hmask : (s.conns c).conn.event_.events_ = 0 := List.mem_singleton.1 h.mask
  have heq : s.connectEstablished c = { s with
      conns := Function.update s.conns c { s.conns c with
        conn := { (s.conns c).conn with event_ := ⟨3⟩, state_ := .kConnected }, event := .kAdded }
      eventMap_ := Function.update s.eventMap_ (s.key c) (some c)
      epoll := Function.update s.epoll (s.key c) (some c)
      log := Function.update s.log c (s.log c ++ [.newConn]) } := by
    simp [Server.connectEstablished, setEvent, registerEvent, setState, Server.note, setConn, hev, Event.enableReading,
      Event.kReadEvent, hmask, key]
  have hms := h.milestones
  rw [heq]
  refine ⟨?_, nofun, h.connMap, ?_, ?_, ?_, ?_, ?_, ?_, ?_⟩
  · simp [hms, Life.milestones, Call.milestone]
  · simp [Life.event]
  · simpa [key, Life.event] using place_add h.eventMap
  · simpa [key, Life.event] using place_add h.epoll
  · simp [Life.state_]
  · simp [Life.masks]
  · intro hcl
    have := h.closed (by simpa using hcl)
    simp at this
  · simpa using h.born

/-- The assertion holds. -/
theorem Local.handleClose (h : Local s c .connected) : Local (s.handleClose c) c .closing := by
  have hev : (s.conns c).event = .kAdded := h.event
  have hst : (s.conns c).conn.state_ = .kConnected := h.state_
  have heq : s.handleClose c = { s with
      conns := Function.update s.conns c { s.conns c with
        conn := { (s.conns c).conn with event_ := ⟨Event.kNoneEvent⟩, state_ := .kDisconnected }, event := .kDeled }
      epoll := Function.update s.epoll (s.key c) none
      log := Function.update s.log c (s.log c ++ [.closing true, .finConn]) } := by
    simp [Server.handleClose, setEvent, registerEvent, setState, Server.note, setConn, hev, hst, Event.disableAll,
      Event.isNoneEvent, key]
  have hms := h.milestones
  rw [heq]
  refine ⟨?_, nofun, h.connMap, ?_, ?_, ?_, ?_, ?_, ?_, ?_⟩
  · simp [hms, Life.milestones, Call.milestone]
  · simp [Life.event]
  · simpa [key, Life.event] using h.eventMap
  · simpa [key, Life.event] using place_erase h.epoll
  · simp [Life.state_]
  · simp [Life.masks, Event.kNoneEvent]
  · intro hcl
    have := h.closed (by simpa using hcl)
    simp at this
  · simpa using h.born

theorem Local.remove (h : Local s c .leaving) : Local ((s.unregisterEvent c).note c [.destroyed]) c .gone := by
  have hev : (s.conns c).event = .kDeled := h.event
  have hms := h.milestones
  refine ⟨?_, fun _ => ⟨_, log_note _ _ _⟩, h.connMap, ?_, ?_, ?_, ?_, ?_, fun _ => .inl rfl, ?_⟩
  · have hlog : (s.unregisterEvent c).log c = s.log c := rfl
    simp [hlog, hms, Life.milestones, Call.milestone]
  · simp [unregisterEvent, Server.note, setConn, Life.event]
  · simpa [unregisterEvent, Server.note, setConn, Life.event] using place_erase h.eventMap
  · have hpoll := h.epoll
    simp only [Life.event, reduceCtorEq, and_false, iff_false] at hpoll
    simpa [unregisterEvent, Server.note, setConn, hev, Life.event] using hpoll
  · simpa [unregisterEvent, Server.note, setConn, Life.state_] using h.state_
  · simpa [unregisterEvent, Server.note, setConn, Life.masks] using h.mask
  · simpa [unregisterEvent, Server.note, setConn] using h.born

/-- A call that leaves the state alone and keeps reading enabled. -/
theorem Local.setTcp {t : TcpConnection} (h : Local s c p) (hs : t.state_ = p.state_)
    (hm : t.event_.events_ ∈ p.masks) : Local (s.setTcp c t) c p := by
  have hconn : Local (s.setConn c { s.conns c with conn := t }) c p := by
    have hkey : (s.setConn c { s.conns c with conn := t }).key c = s.key c := by simp [key]
    refine ⟨h.milestones, h.last, h.connMap, ?_, ?_, ?_, ?_, ?_, ?_, h.born⟩
    · rw [conns_setConn]; exact h.event
    · rw [hkey]; exact h.eventMap
    · rw [hkey]; exact h.epoll
    · rw [conns_setConn]; exact hs
    · rw [conns_setConn]; exact hm
    · rw [conns_setConn]; exact h.closed
  unfold Server.setTcp
  dsimp only
  split
  · exact hconn
  · rename_i hne
    -- only a connected connection has more than one mask
    have hp : p = .connected := by
      have hmask := h.mask
      cases p with
      | connected => rfl
      | _ => exact absurd ((List.mem_singleton.1 hm).trans (List.mem_singleton.1 hmask).symm) hne
    subst hp
    have hreg : (s.setConn c { s.conns c with conn := t }).registerEvent c =
        s.setConn c { s.conns c with conn := t } := by
      have hev : (s.conns c).event = .kAdded := h.event
      have hnone : t.event_.isNoneEvent = false := by
        rcases List.mem_pair.1 hm with e | e <;> simp [Event.isNoneEvent, e, Event.kNoneEvent]
      simp [registerEvent, hev, hnone]
    rw [hreg]
    exact hconn

theorem Life.enableWriting {e : Event} (h : e.events_ ∈ p.masks) (hp : p.state_ ≠ .kDisconnected) :
    e.enableWriting.events_ ∈ p.masks := by
  cases p with
  | connected => rcases List.mem_pair.1 h with he | he <;> rw [Event.enableWriting, he] <;> decide
  | _ => exact absurd rfl hp

theorem Life.disableWriting {e : Event} (h : e.events_ ∈ p.masks) : e.disableWriting.events_ ∈ p.masks := by
  cases p with
  | connected => rcases List.mem_pair.1 h with he | he <;> rw [Event.disableWriting, he] <;> decide
  | _ => rw [Event.disableWriting, List.mem_singleton.1 h]; decide

theorem Local.sendInReactor (h : Local s c p) (data : Bytes) (w : WriteRet) :
    Local (s.setTcp c ((s.conns c).conn.sendInReactor data w)) c p := by
  by_cases hst : (s.conns c).conn.state_ = .kDisconnected
  · have heq : (s.conns c).conn.sendInReactor data w = (s.conns c).conn := by
      unfold TcpConnection.sendInReactor
      rw [if_pos hst]
    rw [heq]
    exact h.setTcp h.state_ h.mask
  · have hp : p.state_ ≠ .kDisconnected := by rw [← h.state_]; exact hst
    have hbuf : ∀ (t : TcpConnection) (n : ℕ) (b : Bool), t.state_ = p.state_ → t.event_.events_ ∈ p.masks →
        (t.buffer data n b).state_ = p.state_ ∧ (t.buffer data n b).event_.events_ ∈ p.masks := by
      intro t n b ht hm
      unfold TcpConnection.buffer
      dsimp only
      split
      · refine ⟨ht, ?_⟩
        dsimp only
        split
        · exact hm
        · exact Life.enableWriting hm hp
      · exact ⟨ht, hm⟩
    have hsend : ((s.conns c).conn.sendInReactor data w).state_ = p.state_ ∧
        ((s.conns c).conn.sendInReactor data w).event_.events_ ∈ p.masks := by
      unfold TcpConnection.sendInReactor
      rw [if_neg hst]
      split
      · cases w with
        | count n => exact hbuf _ n false h.state_ h.mask
        | error e => exact hbuf _ 0 _ h.state_ h.mask
      · exact hbuf _ 0 false h.state_ h.mask
    exact h.setTcp hsend.1 hsend.2

theorem Local.handleWrite (h : Local s c p) (w : WriteRet) :
    Local (s.setTcp c ((s.conns c).conn.handleWrite w)) c p := by
  have hst := h.state_
  have hm := h.mask
  have hwrite : ((s.conns c).conn.handleWrite w).state_ = p.state_ ∧
      ((s.conns c).conn.handleWrite w).event_.events_ ∈ p.masks := by
    unfold TcpConnection.handleWrite
    split
    · cases w with
      | error e => exact ⟨hst, hm⟩
      | count n =>
        cases n with
        | zero => exact ⟨hst, hm⟩
        | succ n =>
          dsimp only
          split
          · unfold TcpConnection.shutdownInLoop
            split
            · split <;> exact ⟨hst, Life.disableWriting hm⟩
            · exact ⟨hst, Life.disableWriting hm⟩
          · exact ⟨hst, hm⟩
    · exact ⟨hst, hm⟩
  exact h.setTcp hwrite.1 hwrite.2

end Libeva.Net.Server
