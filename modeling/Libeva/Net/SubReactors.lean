import Libeva.Net.Lifecycle
import Libeva.Reactor.ReactorThreadPool

/-!
# The sub reactors of a `TcpServer`

`getSubReactor` takes the reactor of a new connection from the pool. From then on the connection belongs to the thread
of this reactor; `connMap_` belongs to the base reactor's thread.

* `Server.InThread`: the statement is executed by the thread that its `assertInDispatchingThread()` asks for.
* `Server.Confined`: so are all the statements that the threads have begun or have functors for.
* `TcpServer.step`: the steps of a server with its pool.
* `TcpServer.Dealt`: the reactors that the connections have got.
-/

namespace Libeva.Net

namespace Server

variable {ρ : Type*} {base : ρ} {owner : ℕ → ρ} {n : ℕ} {s s' : Server ρ} {c d : ℕ} {r : ρ} {i : Stmt}

/-! ## Statements and threads -/

/-- One of `n` connections is meant, and the thread is its owner's, or the base reactor's for `connMap_`. -/
def InThread (base : ρ) (owner : ℕ → ρ) (n : ℕ) (r : ρ) : Stmt → Prop
  | .functor (.removeConnectionInReactor c) => c < n ∧ r = base
  | .functor (.connectEstablished c) | .functor (.connectDestroyed c) | .handle c _ _ | .closeCb c | .remove c =>
    c < n ∧ r = owner c
  | .user => True

structure Confined (base : ρ) (owner : ℕ → ρ) (n : ℕ) (s : Server ρ) : Prop where
  numCreated : s.numCreated_ = n
  conns : ∀ c < n, (s.conns c).owner = owner c
  work : ∀ r, ∀ i ∈ s.work r, InThread base owner n r i
  epoll : ∀ k c, s.epoll k = some c → c < n

theorem confined_init : Confined base owner 0 (init base) := ⟨rfl, nofun, nofun, nofun⟩

theorem InThread.succ (h : InThread base owner n r i) : InThread base owner (n + 1) r i := by
  cases i with
  | user => trivial
  | functor f => cases f <;> exact ⟨h.1.trans (Nat.lt_succ_self n), h.2⟩
  | handle c _ _ | closeCb c | remove c => exact ⟨h.1.trans (Nat.lt_succ_self n), h.2⟩

/-- Only `d` enters the epoll set. -/
def Polls (d : ℕ) (s s' : Server ρ) : Prop := ∀ k c, s'.epoll k = some c → c = d ∨ s.epoll k = some c

theorem polls_of_eq (h : s'.epoll = s.epoll) : Polls d s s' := by
  intro k c hk
  rw [h] at hk
  exact .inr hk

theorem Confined.touches (h : Confined base owner n s) (ht : Touches d s s') (hp : Polls d s s') (hd : d < n) :
    Confined base owner n s' where
  numCreated := ht.numCreated.trans h.numCreated
  conns c hc := by
    rw [← h.conns c hc]
    by_cases hcd : c = d
    · subst hcd
      exact congrArg Prod.fst ht.key
    · rw [ht.conns c hcd]
  work r i hi := by
    rw [Server.work, ht.todo, ht.pending] at hi
    exact h.work r i hi
  epoll k c hk := by
    rcases hp k c hk with rfl | hk
    · exact hd
    · exact h.epoll k c hk

variable [DecidableEq ρ]

theorem mem_work_setTodo {l : List Stmt} {r' : ρ} (h : i ∈ (s.setTodo r l).work r') :
    i ∈ s.work r' ∨ r' = r ∧ i ∈ l := by
  by_cases hr : r' = r
  · subst hr
    have hw : (s.setTodo r' l).work r' = l ++ (s.pendingFunctors_ r').map .functor := by simp [Server.work, setTodo]
    rw [hw, List.mem_append] at h
    exact h.elim (fun h => .inr ⟨rfl, h⟩) fun h => .inl (List.mem_append_right _ h)
  · have hw : (s.setTodo r l).work r' = s.work r' := by simp [Server.work, setTodo, hr]
    exact .inl (hw ▸ h)

theorem mem_work_queueInReactor {f : ConnFunctor} {r' : ρ} (h : i ∈ (s.queueInReactor r f).work r') :
    i ∈ s.work r' ∨ r' = r ∧ i = .functor f := by
  by_cases hr : r' = r
  · subst hr
    have hw : (s.queueInReactor r' f).work r' = s.work r' ++ [.functor f] := by simp [Server.work, queueInReactor]
    rw [hw, List.mem_append, List.mem_singleton] at h
    exact h.imp_right fun h => ⟨rfl, h⟩
  · have hw : (s.queueInReactor r f).work r' = s.work r' := by simp [Server.work, queueInReactor, hr]
    exact .inl (hw ▸ h)

theorem Confined.setTodo {l : List Stmt} (h : Confined base owner n s) (hl : ∀ i ∈ l, InThread base owner n r i) :
    Confined base owner n (s.setTodo r l) := by
  refine ⟨h.numCreated, h.conns, fun r' i hi => ?_, h.epoll⟩
  rcases mem_work_setTodo hi with hi | ⟨rfl, hl'⟩
  · exact h.work r' i hi
  · exact hl i hl'

theorem Confined.queueInReactor {f : ConnFunctor} (h : Confined base owner n s)
    (hf : InThread base owner n r (.functor f)) : Confined base owner n (s.queueInReactor r f) := by
  refine ⟨h.numCreated, h.conns, fun r' i hi => ?_, h.epoll⟩
  rcases mem_work_queueInReactor hi with hi | ⟨rfl, rfl⟩
  · exact h.work r' i hi
  · exact hf

theorem polls_registerEvent (d : ℕ) : Polls d s (s.registerEvent d) := by
  intro k c hk
  unfold registerEvent at hk
  dsimp only at hk
  split at hk
  · by_cases hkey : k = s.key d
    · subst hkey
      simp at hk
      exact .inl hk.symm
    · exact .inr (by simpa [hkey] using hk)
  · by_cases hkey : k = s.key d
    · subst hkey
      simp at hk
      exact .inl hk.symm
    · exact .inr (by simpa [hkey] using hk)
  · split at hk
    · by_cases hkey : k = s.key d
      · subst hkey
        simp at hk
      · exact .inr (by simpa [hkey] using hk)
    · exact .inr hk

theorem polls_unregisterEvent (d : ℕ) : Polls d s (s.unregisterEvent d) := by
  intro k c hk
  dsimp only [unregisterEvent] at hk
  split at hk
  · by_cases hkey : k = s.key d
    · subst hkey
      simp at hk
    · exact .inr (by simpa [hkey] using hk)
  · exact .inr hk

theorem polls_setEvent (d : ℕ) (e : Event) : Polls d s (s.setEvent d e) :=
  polls_registerEvent (s := s.setConn d { s.conns d with conn := { (s.conns d).conn with event_ := e } }) d

theorem polls_setTcp (d : ℕ) (t : TcpConnection) : Polls d s (s.setTcp d t) := by
  unfold setTcp
  dsimp only
  split
  · exact fun _ _ hk => .inr hk
  · exact polls_registerEvent (s := s.setConn d { s.conns d with conn := t }) d

theorem polls_handleClose (d : ℕ) : Polls d s (s.handleClose d) :=
  polls_setEvent (s := (s.note d _).setState d .kDisconnected) d _

theorem polls_connectEstablished (d : ℕ) : Polls d s (s.connectEstablished d) := polls_setEvent d _

theorem polls_disconnect (d : ℕ) : Polls d s (s.disconnect d) :=
  polls_setEvent (s := s.setState d .kDisconnected) d _

theorem touches_disconnect (d : ℕ) : Touches d s (s.disconnect d) :=
  ((touches_setState d _).trans (touches_setEvent d _)).trans (touches_note d _)

/-! ## The steps -/

/-- A statement of a thread. -/
theorem Confined.execute {rest : List Stmt} (h : Confined base owner n s) (ht : s.todo r = i :: rest) (read : ℤ)
    (write : WriteRet) : Confined base owner n (s.execute base r rest read write i) := by
  have hwork : ∀ j ∈ i :: rest, InThread base owner n r j := by
    rw [← ht]
    exact fun j hj => h.work r j (List.mem_append_left _ hj)
  obtain ⟨hi, hrest⟩ := List.forall_mem_cons.1 hwork
  have hcons : ∀ {j l}, InThread base owner n r j → (∀ j ∈ l, InThread base owner n r j) →
      ∀ j' ∈ j :: l, InThread base owner n r j' := fun hj hl => List.forall_mem_cons.2 ⟨hj, hl⟩
  have huser : InThread base owner n r .user := trivial
  cases i with
  | user => exact h.setTodo hrest
  | functor f =>
    cases f with
    | connectEstablished c =>
      exact (h.touches (touches_connectEstablished c) (polls_connectEstablished c) hi.1).setTodo (hcons huser hrest)
    | removeConnectionInReactor c =>
      have hremove : Touches c s { s with connMap_ := Function.update s.connMap_ c false } :=
        { Touches.refl c s with connMap := fun _ hc => Function.update_of_ne hc _ _ }
      have hc := h.touches (hremove.trans (touches_note c [.removed])) (polls_of_eq rfl) hi.1
      exact (hc.queueInReactor (f := .connectDestroyed c) ⟨hi.1, h.conns c hi.1⟩).setTodo hrest
    | connectDestroyed c =>
      dsimp only [Server.execute]
      split
      · exact (h.touches (touches_disconnect c) (polls_disconnect c) hi.1).setTodo (hcons huser (hcons hi hrest))
      · exact h.setTodo (hcons hi hrest)
  | remove c =>
    have hremove := (touches_unregisterEvent (s := s) c).trans (touches_note c [.destroyed])
    exact (h.touches hremove (polls_unregisterEvent c) hi.1).setTodo hrest
  | closeCb c =>
    have hclose := h.touches (touches_note c [.close]) (polls_of_eq rfl) hi.1
    dsimp only [Server.execute]
    split
    · exact hclose.setTodo (hcons ⟨hi.1, ‹_›⟩ hrest)
    · exact (hclose.queueInReactor (r := base) (f := .removeConnectionInReactor c) ⟨hi.1, rfl⟩).setTodo hrest
  | handle c revents stage =>
    cases stage with
    | close =>
      dsimp only [Server.execute]
      split
      · exact (h.touches (touches_handleClose c) (polls_handleClose c) hi.1).setTodo
          (hcons huser (hcons hi (hcons hi hrest)))
      · exact h.setTodo (hcons hi hrest)
    | error =>
      dsimp only [Server.execute]
      split
      · exact (h.touches (touches_note c _) (polls_of_eq rfl) hi.1).setTodo (hcons hi hrest)
      · exact h.setTodo (hcons hi hrest)
    | read =>
      have hread := h.touches (touches_note c [.handleRead]) (polls_of_eq rfl) hi.1
      dsimp only [Server.execute]
      split
      · split
        · exact (hread.touches (touches_note c _) (polls_of_eq rfl) hi.1).setTodo (hcons huser (hcons hi hrest))
        · split
          · exact (hread.touches (touches_handleClose c) (polls_handleClose c) hi.1).setTodo
              (hcons huser (hcons hi (hcons hi hrest)))
          · exact (hread.touches (touches_note c _) (polls_of_eq rfl) hi.1).setTodo (hcons hi hrest)
      · exact h.setTodo (hcons hi hrest)
    | write =>
      have hwrite := h.touches (touches_note c [.handleWrite]) (polls_of_eq rfl) hi.1
      dsimp only [Server.execute]
      split
      · exact (hwrite.touches (touches_setTcp c _) (polls_setTcp c _) hi.1).setTodo hrest
      · exact h.setTodo hrest

theorem Confined.handleNewConnection {fd : ℕ} {sub : ρ} (h : Confined base owner n s) (hsub : sub = owner n)
    (hs : s.step base (.handleNewConnection fd sub) = some s') : Confined base owner (n + 1) s' := by
  subst sub
  obtain rfl := h.numCreated
  have hs₁ : Confined base owner (s.numCreated_ + 1)
      ({ s.setConn s.numCreated_ ⟨constructed, .kNew, owner s.numCreated_, fd, false⟩ with
        numCreated_ := s.numCreated_ + 1, connMap_ := Function.update s.connMap_ s.numCreated_ true }.note
          s.numCreated_ [.created]) := by
    refine ⟨rfl, fun c hc => ?_, fun r i hi => (h.work r i hi).succ, fun k c hk => Nat.lt_succ_of_lt (h.epoll k c hk)⟩
    rcases Nat.lt_succ_iff_lt_or_eq.1 hc with hc | rfl
    · rw [← h.conns c hc]
      exact congrArg Conn.owner (Function.update_of_ne hc.ne _ _)
    · simp [Server.note, setConn]
  simp only [Server.step, Option.ite_none_right_eq_some, Option.some.injEq] at hs
  rw [← hs.2]
  split
  · exact hs₁.setTodo (List.forall_mem_singleton.2 ⟨Nat.lt_succ_self _, ‹owner _ = base›.symm⟩)
  · exact hs₁.queueInReactor ⟨Nat.lt_succ_self _, rfl⟩

theorem Confined.step {a : ServerAction ρ} (h : Confined base owner n s) (hs : s.step base a = some s')
    (ha : ∀ fd sub, a ≠ .handleNewConnection fd sub) : Confined base owner n s' := by
  cases a with
  | handleNewConnection fd sub => exact absurd rfl (ha fd sub)
  | report c revents =>
    simp only [Server.step, Option.ite_none_right_eq_some, Option.some.injEq] at hs
    rw [← hs.2]
    have hc := h.epoll _ c hs.1.2
    exact h.setTodo (List.forall_mem_singleton.2 ⟨hc, h.conns c hc⟩)
  | doPendingFunctors r =>
    simp only [Server.step, Option.ite_none_right_eq_some, Option.some.injEq] at hs
    rw [← hs.2]
    refine ⟨h.numCreated, h.conns, fun r' i hi => h.work r' i ?_, h.epoll⟩
    by_cases hr : r' = r
    · subst hr
      refine List.mem_append_right _ ?_
      simpa [Server.work, Server.setTodo] using hi
    · simpa [Server.work, Server.setTodo, hr] using hi
  | tick r read write =>
    dsimp only [Server.step] at hs
    split at hs
    · cases hs
    · rw [← Option.some.inj hs]
      exact h.execute ‹_› read write
  | send c data write =>
    simp only [Server.step, Option.ite_none_right_eq_some, Option.some.injEq] at hs
    rw [← hs.2]
    exact h.touches (touches_setTcp c _) (polls_setTcp c _) (hs.1.1.trans_eq h.numCreated)
  | release c =>
    simp only [Server.step, Option.ite_none_right_eq_some, Option.some.injEq] at hs
    rw [← hs.2]
    refine ⟨h.numCreated, fun d hd => ?_, h.work, fun k d hk => ?_⟩
    · rw [← h.conns d hd]
      by_cases hdc : d = c
      · subst hdc
        simp
      · simp [setConn, hdc]
    · dsimp only at hk
      split at hk
      · by_cases hkey : k = s.key c
        · subst hkey
          simp at hk
        · exact h.epoll k d (by simpa [hkey] using hk)
      · exact h.epoll k d hk

end Server

/-! ## The server and its pool -/

/-- The members of a `TcpServer` that the connections share, with the reactors of their threads. -/
structure TcpServer where
  reactorPool_ : ReactorThreadPool
  server : Server ℕ

namespace TcpServer

open ReactorThreadPool (turn started_start turn_count_le)

/-- After `setSubReactorNum` and `start`. -/
def start (numSubReactor : ℤ) : TcpServer := ⟨(ReactorThreadPool.new.setThreadNum numSubReactor).start, Server.init 0⟩

/-- In the label of `handleNewConnection` stands the reactor that `getSubReactor` has returned. -/
def step (s : TcpServer) : ServerAction ℕ → Option TcpServer
  | .handleNewConnection fd sub => do
    let (reactor, pool) ← s.reactorPool_.getNextReactor
    if sub = reactor then
      let server ← s.server.step 0 (.handleNewConnection fd sub)
      return ⟨pool, server⟩
    else none
  | a => do
    let server ← s.server.step 0 a
    return { s with server }

def servers (numSubReactor : ℤ) : Lts.System TcpServer (ServerAction ℕ) := Lts.ofFun (start numSubReactor) step

/-- How many connections a reactor has got. -/
def load (s : Server ℕ) (r : ℕ) : ℕ := Nat.count (fun c => (s.conns c).owner = r) s.numCreated_

/-- The connections have been dealt out to the reactors of the pool. -/
structure Dealt (numSubReactor : ℤ) (s : TcpServer) : Prop where
  pool : s.reactorPool_.Started numSubReactor s.server.numCreated_
  confined : s.server.Confined 0 (turn numSubReactor) s.server.numCreated_

variable {s s' : TcpServer} {n : ℤ} {a : ServerAction ℕ}

theorem step_handleNewConnection {fd sub : ℕ} (h : s.step (.handleNewConnection fd sub) = some s') :
    s.reactorPool_.getNextReactor = some (sub, s'.reactorPool_) ∧
      s.server.step 0 (.handleNewConnection fd sub) = some s'.server := by
  obtain ⟨⟨reactor, pool⟩, hp, h⟩ := Option.bind_eq_some_iff.1 h
  dsimp only at h
  split at h
  · obtain ⟨server, hs, h⟩ := Option.bind_eq_some_iff.1 h
    obtain rfl : ⟨pool, server⟩ = s' := Option.some.inj h
    subst sub
    exact ⟨hp, hs⟩
  · cases h

theorem step_other (ha : ∀ fd sub, a ≠ .handleNewConnection fd sub) (h : s.step a = some s') :
    s'.reactorPool_ = s.reactorPool_ ∧ s.server.step 0 a = some s'.server := by
  cases a with
  | handleNewConnection fd sub => exact absurd rfl (ha fd sub)
  | report _ _ | doPendingFunctors _ | tick _ _ _ | send _ _ _ | release _ =>
    obtain ⟨server, hs, h⟩ := Option.bind_eq_some_iff.1 h
    cases h
    exact ⟨rfl, hs⟩

theorem dealt_start (n : ℤ) : Dealt n (start n) := ⟨started_start n, Server.confined_init⟩

theorem Dealt.step (h : Dealt n s) (hn : n < 2 ^ 31) (hs : s.step a = some s') : Dealt n s' := by
  by_cases ha : ∃ fd sub, a = .handleNewConnection fd sub
  · obtain ⟨fd, sub, rfl⟩ := ha
    obtain ⟨hp, hs⟩ := step_handleNewConnection hs
    obtain ⟨pool, hnext, hpool⟩ := h.pool.next hn
    rw [hp] at hnext
    obtain ⟨rfl, rfl⟩ := Prod.mk.inj (Option.some.inj hnext)
    have hc := h.confined.handleNewConnection rfl hs
    have hcreated := hc.numCreated
    rw [← hcreated] at hpool hc
    exact ⟨hpool, hc⟩
  · have ha : ∀ fd sub, a ≠ .handleNewConnection fd sub := fun fd sub e => ha ⟨fd, sub, e⟩
    obtain ⟨hp, hs⟩ := step_other ha hs
    have hc := h.confined.step hs ha
    have hcreated := hc.numCreated
    refine ⟨?_, ?_⟩
    · rw [hp, hcreated]
      exact h.pool
    · rw [hcreated]
      exact hc

/-- **Each connection has its thread.** `getSubReactor` deals the connections out in turn; each belongs to its reactor
for all its life, no reactor gets two more than another one, and whatever a thread executes or has a functor for is
about its own connections, or is `removeConnectionInReactor` at the base reactor. -/
theorem sub_reactors (n : ℤ) (hn : n < 2 ^ 31) {s : TcpServer} (h : Lts.Reach (servers n) s) :
    (∃ pool, s.reactorPool_.getNextReactor = some (turn n s.server.numCreated_, pool)) ∧
      (∀ c < s.server.numCreated_, (s.server.conns c).owner = turn n c) ∧
      (∀ i j : ℕ, 0 < i → i ≤ n → 0 < j → j ≤ n → load s.server i ≤ load s.server j + 1) ∧
      ∀ r, ∀ i ∈ s.server.work r, Server.InThread 0 (turn n) s.server.numCreated_ r i := by
  have hd : Dealt n s := h.invariant (fun _ hs => hs ▸ dealt_start n) fun _ _ _ _ hd hst => hd.step hn hst
  obtain ⟨pool, hnext, -⟩ := hd.pool.next hn
  refine ⟨⟨pool, hnext⟩, hd.confined.conns, fun i j hi hin hj hjn => ?_, hd.confined.work⟩
  have hload : ∀ r, load s.server r = Nat.count (fun c => turn n c = r) s.server.numCreated_ := by
    intro r
    rw [load, Nat.count_eq_card_filter_range, Nat.count_eq_card_filter_range]
    refine congrArg _ (Finset.filter_congr fun c hc => ?_)
    rw [hd.confined.conns c (Finset.mem_range.1 hc)]
  rw [hload, hload]
  exact turn_count_le hi hin hj hjn

/-- Three connections for two reactors; the peer of the first one ends the stream. -/
def three : List (ServerAction ℕ) :=
  [.handleNewConnection 5 1, .handleNewConnection 6 2, .handleNewConnection 7 1, .doPendingFunctors 1,
    .tick 1 0 (.count 0), .tick 1 0 (.count 0), .tick 1 0 (.count 0), .tick 1 0 (.count 0), .report 0 Event.POLLIN,
    .tick 1 0 (.count 0), .tick 1 0 (.count 0), .tick 1 0 (.count 0), .tick 1 0 (.count 0), .tick 1 0 (.count 0)]

theorem sub_reactors_three : ∃ s : TcpServer, Lts.exec step (start 2) three = some s ∧ load s.server 1 = 2 ∧
    (s.server.work 0 = [.functor (.removeConnectionInReactor 0)]) ∧
    (∃ pool, s.reactorPool_.getNextReactor = some (turn 2 s.server.numCreated_, pool)) ∧
    (∀ c < s.server.numCreated_, (s.server.conns c).owner = turn 2 c) ∧
    (∀ i j : ℕ, 0 < i → (i : ℤ) ≤ 2 → 0 < j → (j : ℤ) ≤ 2 → load s.server i ≤ load s.server j + 1) ∧
    ∀ r, ∀ i ∈ s.server.work r, Server.InThread 0 (turn 2) s.server.numCreated_ r i := by
  obtain ⟨s, hs, hload, hwork⟩ : ∃ s ∈ Lts.exec step (start 2) three, load s.server 1 = 2 ∧
      s.server.work 0 = [.functor (.removeConnectionInReactor 0)] := by
    decide +kernel
  exact ⟨s, hs, hload, hwork, sub_reactors 2 (by norm_num) (Lts.Reach.exec (.init rfl) hs)⟩

end TcpServer

end Libeva.Net
