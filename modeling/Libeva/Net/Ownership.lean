import Libeva.Net.Teardown

/-!
# Connections that are gone

`Event::handle` has only a raw pointer to its connection. A connection is destroyed when it is not in `connMap_` and no
functor or call holds it. The functor that a `send` in another thread queues does not hold it (`// FIXME` in the code);
such calls are not among the moves.

* `Unreachable`: nothing refers to the connection any more.
* `Alive`: the connection is established, and its event is registered.
-/

namespace Libeva.Net.Server

variable {ρ : Type*} {base : ρ} {s : Server ρ} {c : ℕ} {p : Life}

structure Unreachable (s : Server ρ) (c : ℕ) : Prop where
  work : ∀ r, ∀ i ∈ s.work r, Stmt.own c i = false ∧ Stmt.removes c i = false
  connMap : s.connMap_ c = false
  polled : ∀ k, s.eventMap_ k ≠ some c ∧ s.epoll k ≠ some c

structure Alive (s : Server ρ) (c : ℕ) : Prop where
  connMap : s.connMap_ c = true
  state_ : (s.conns c).conn.state_ = .kConnected
  eventMap : s.eventMap_ (s.key c) = some c
  epoll : s.epoll (s.key c) = some c
  closed : (s.conns c).closed = false

theorem Local.alive (h : Local s c .connected) : Alive s c where
  connMap := h.connMap
  state_ := h.state_
  eventMap := (h.eventMap _).2 ⟨rfl, nofun⟩
  epoll := (h.epoll _).2 ⟨rfl, rfl⟩
  closed := h.open nofun nofun

variable [DecidableEq ρ]

theorem Queued.unreachable (h : Queued base s c .gone) (hl : Local s c .gone) : Unreachable s c where
  work r i hi := by
    obtain ⟨handling, -, ho⟩ := h.own
    have hown := ho r
    have hremoves := h.removes r
    simp only [Life.own, ite_self, List.filter_eq_nil_iff] at hown
    rw [if_neg (by simp), List.filter_eq_nil_iff] at hremoves
    exact ⟨Bool.eq_false_of_not_eq_true (hown i hi), Bool.eq_false_of_not_eq_true (hremoves i hi)⟩
  connMap := hl.connMap
  polled k := by
    constructor
    · intro he
      exact ((hl.eventMap k).1 he).2 rfl
    · intro he
      cases ((hl.epoll k).1 he).2

/-- When no thread has anything to do, a connection is at one of the ends of its life. -/
theorem Queued.idle (h : Queued base s c p) (hw : ∀ r, s.work r = []) : p = .unborn ∨ p = .connected ∨ p = .gone := by
  obtain ⟨handling, -, ho⟩ := h.own
  have hown := ho (s.conns c).owner
  have hremoves := h.removes base
  rw [hw, List.filter_nil, if_pos rfl] at hown
  rw [hw, List.filter_nil] at hremoves
  cases p with
  | unborn => exact .inl rfl
  | connected => exact .inr (.inl rfl)
  | gone => exact .inr (.inr rfl)
  | removing => simp at hremoves
  | establishing | closing | destroying | leaving => simp [Life.own] at hown

/-- **No connection dangles, and none is forgotten.** In a run in which no report closes a connection and then reads the
end of its stream, nothing refers to a connection that has been destroyed; the pollers know open connections only, which
have different descriptors; and when no thread has anything to do, every connection is alive, or nothing refers to it
and it has been destroyed or can be. The moves have no `send` from another thread. -/
theorem no_dangling (w : List (Server ρ × ServerAction ρ × Server ρ)) (h : Lts.Run (servers base) (init base) w s)
    (hw : ∀ x ∈ w, ¬ClosesTwice x) :
    (∀ c < s.numCreated_, (s.conns c).closed = true → Unreachable s c) ∧
      (∀ k c, s.epoll k = some c → k = s.key c ∧ (s.conns c).closed = false) ∧
      (∀ c d, c < s.numCreated_ → d < s.numCreated_ → (s.conns c).closed = false → (s.conns d).closed = false →
        (s.conns c).fd = (s.conns d).fd → c = d) ∧
      ((∀ r, s.work r = []) → ∀ c < s.numCreated_, Alive s c ∨
        Unreachable s c ∧ ((s.conns c).closed = true ∨ ∃ s', s.step base (.release c) = some s')) := by
  have hinv : Inv base s := h.invariant (fun _ _ _ hi hc hst => hi.step hst hc) hw inv_init s h.last_mem
  refine ⟨fun c hc hcl => ?_, fun k c hk => ?_, hinv.fds, fun hidle c hc => ?_⟩
  · obtain ⟨p, hl, hq⟩ := hinv.life c
    rcases hl.closed hcl with rfl | rfl
    · exact hq.unreachable hl
    · exact absurd (hl.born.1 rfl) (Nat.not_le.2 hc)
  · obtain ⟨p, hl, -⟩ := hinv.life c
    obtain ⟨hkey, hev⟩ := (hl.epoll k).1 hk
    have hp : p = .connected := by
      cases p <;> first | rfl | cases hev
    subst hp
    exact ⟨hkey, hl.open nofun nofun⟩
  · obtain ⟨p, hl, hq⟩ := hinv.life c
    rcases hq.idle hidle with rfl | rfl | rfl
    · exact absurd (hl.born.1 rfl) (Nat.not_le.2 hc)
    · exact .inl hl.alive
    · refine .inr ⟨hq.unreachable hl, .inr ?_⟩
      have hguard : c < s.numCreated_ ∧ s.connMap_ c = false ∧
          (s.work (s.conns c).owner ++ s.work base).all (!Stmt.holds c ·) = true := by
        rw [hidle, hidle]
        exact ⟨hc, hl.connMap, rfl⟩
      exact ⟨_, if_pos hguard⟩

/-- The connection of `reportEnd` is destroyed. -/
theorem no_dangling_end : ∃ s : Server Bool,
    Lts.exec (step false) (init false) (establish ++ reportEnd Event.POLLIN ++ [.release 0]) = some s ∧
    ((s.conns 0).closed = true ∧ s.work true = []) ∧ Unreachable s 0 := by
  obtain ⟨s, hs, hc, hcl, hw⟩ : ∃ s ∈ Lts.exec (step false) (init false)
      (establish ++ reportEnd Event.POLLIN ++ [.release 0]),
      0 < s.numCreated_ ∧ (s.conns 0).closed = true ∧ s.work true = [] := by
    decide +kernel
  exact ⟨s, hs, ⟨hcl, hw⟩, (no_dangling _ (Lts.Run.moves hs) (by decide +kernel)).1 0 hc hcl⟩

end Libeva.Net.Server
