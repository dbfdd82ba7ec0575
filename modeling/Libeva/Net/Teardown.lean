import Libeva.Net.Lifecycle

/-!
# A connection is torn down once

* `Queued`: the part of the invariant about the reactors' queues, with the statements of a connection that are still to
  come at each stage of its life; `Inv` has both parts for all connections.
* `Moves`: one statement of a reactor thread is replaced by what it leads to.
* `torn_down_once`: a connection is torn down once in all runs in which no report makes `handle` call `closeCallback_`
  and then read the end of the stream, and only in these.
-/

namespace Libeva.Net.Server

variable {ρ : Type*} [DecidableEq ρ] {base : ρ} {s s' : Server ρ} {c d : ℕ} {r : ρ} {p : Life}

/-! ## The queues -/

/-- A statement on connection `c` that only its own reactor thread executes. -/
def Stmt.own (c : ℕ) : Stmt → Bool
  | .functor (.connectEstablished d) | .functor (.connectDestroyed d) | .closeCb d | .remove d | .handle d _ _ => c == d
  | .functor (.removeConnectionInReactor _) | .user => false

def Stmt.removes (c : ℕ) : Stmt → Bool
  | .functor (.removeConnectionInReactor d) => c == d
  | .functor (.connectEstablished _) | .functor (.connectDestroyed _) | .closeCb _ | .remove _ | .handle _ _ _
  | .user => false

/-- The rest of `handle` while the connection is open, or after `handleClose`: then only `closeCallback_` can have
closed it in front of the other tests but the last. -/
inductive Handles (c : ℕ) : Bool → List Stmt → Prop
  | none {closed : Bool} : Handles c closed []
  | opened {revents : BitVec 32} {stage : Stage} : (stage ≠ .close → Event.closes revents = false) →
    Handles c false [.handle c revents stage]
  | closed {revents : BitVec 32} {stage : Stage} : stage ≠ .close → (stage ≠ .write → Event.closes revents = true) →
    Handles c true [.handle c revents stage]

/-- The statements of its reactor that are still to come at a stage of a connection's life. -/
def Life.own (c : ℕ) (handling : List Stmt) : Life → List Stmt
  | .unborn | .gone => []
  | .establishing => [.functor (.connectEstablished c)]
  | .connected | .removing => handling
  | .closing => .closeCb c :: handling
  | .destroying => handling ++ [.functor (.connectDestroyed c)]
  | .leaving => [.remove c]

structure Queued (base : ρ) (s : Server ρ) (c : ℕ) (p : Life) : Prop where
  own : ∃ handling, Handles c (p != .connected) handling ∧
    ∀ r, (s.work r).filter (Stmt.own c) = if r = (s.conns c).owner then p.own c handling else []
  removes : ∀ r, (s.work r).filter (Stmt.removes c) =
    if r = base ∧ p = .removing then [.functor (.removeConnectionInReactor c)] else []

/-- Thread `r` replaces its statement `i` by `new` and queues `fs` at reactor `q`. -/
structure Moves (r : ρ) (i : Stmt) (new : List Stmt) (q : ρ) (fs : List ConnFunctor) (s s' : Server ρ) : Prop where
  todo : ∃ rest, s.todo r = i :: rest ∧ s'.todo = Function.update s.todo r (new ++ rest)
  pending : s'.pendingFunctors_ = Function.update s.pendingFunctors_ q (s.pendingFunctors_ q ++ fs)
  same : s' = { s with todo := s'.todo, pendingFunctors_ := s'.pendingFunctors_ }

variable {i : Stmt} {new rest : List Stmt} {q : ρ} {fs : List ConnFunctor} {f : ConnFunctor} {P : Stmt → Bool}

theorem moves_setTodo (new : List Stmt) (h : s.todo r = i :: rest) : Moves r i new r [] s (s.setTodo r (new ++ rest)) :=
  ⟨⟨rest, h, rfl⟩, by rw [List.append_nil, Function.update_eq_self]; rfl, rfl⟩

theorem moves_queue (new : List Stmt) (h : s.todo r = i :: rest) :
    Moves r i new q [f] s ((s.queueInReactor q f).setTodo r (new ++ rest)) :=
  ⟨⟨rest, h, rfl⟩, rfl, rfl⟩

theorem Moves.local (h : Moves r i new q fs s s') (hl : Local s c p) : Local s' c p := by
  rw [h.same]
  exact ⟨hl.milestones, hl.last, hl.connMap, hl.event, hl.eventMap, hl.epoll, hl.state_, hl.mask, hl.closed, hl.born⟩

theorem Moves.work (h : Moves r i new q fs s s') : ∃ tail, s.work r = i :: tail ∧
    ∀ x, s'.work x = (if x = r then new ++ tail else s.work x) ++ if x = q then fs.map .functor else [] := by
  obtain ⟨rest, hr, ht⟩ := h.todo
  refine ⟨rest ++ (s.pendingFunctors_ r).map .functor, by rw [Server.work, hr, List.cons_append], fun x => ?_⟩
  rw [Server.work, ht, h.pending]
  by_cases hx : x = r <;> by_cases hq : x = q
  · subst hx hq; simp
  · subst hx; simp [hq]
  · subst hq; simp [hx, Server.work]
  · simp [hx, hq, Server.work]

/-- How the statements of one kind change when the statement that is executed is of another kind. -/
theorem Moves.filter_skip (h : Moves r i new q fs s s') (hi : P i = false) (x : ρ) :
    (s'.work x).filter P = (if x = r then new.filter P else []) ++ (s.work x).filter P ++
      if x = q then (fs.map .functor).filter P else [] := by
  obtain ⟨tail, hr, hw⟩ := h.work
  rw [hw, List.filter_append]
  by_cases hx : x = r
  · subst hx
    rw [if_pos rfl, if_pos rfl, hr, List.filter_cons_of_neg (by simp [hi]), List.filter_append]
    split <;> simp
  · rw [if_neg hx, if_neg hx]
    split <;> simp

/-- And when it is of this kind, whose statements are all at reactor `o`. -/
theorem Moves.filter_head {o : ρ} {l : List Stmt} (h : Moves r i new q fs s s') (hi : P i = true)
    (hl : ∀ x, (s.work x).filter P = if x = o then l else []) : r = o ∧ ∃ tail, l = i :: tail ∧
      ∀ x, (s'.work x).filter P = (if x = o then new.filter P ++ tail else []) ++
        if x = q then (fs.map .functor).filter P else [] := by
  obtain ⟨tail, hr, hw⟩ := h.work
  have hlr := hl r
  rw [hr, List.filter_cons_of_pos hi] at hlr
  have ho : r = o := by
    by_contra hne
    rw [if_neg hne] at hlr
    cases hlr
  subst ho
  rw [if_pos rfl] at hlr
  refine ⟨rfl, tail.filter P, hlr.symm, fun x => ?_⟩
  rw [hw, List.filter_append]
  by_cases hx : x = r
  · subst hx
    rw [if_pos rfl, if_pos rfl, List.filter_append]
    split <;> simp
  · have hlx := hl x
    rw [if_neg hx] at hlx ⊢
    rw [if_neg hx, hlx]
    split <;> simp

/-- The statement is about connection `d`, or about none. -/
def Stmt.on (d : ℕ) (j : Stmt) : Prop := j = .user ∨ Stmt.own d j = true ∨ Stmt.removes d j = true

theorem Stmt.on.other {j : Stmt} (h : Stmt.on d j) (hc : c ≠ d) : Stmt.own c j = false ∧ Stmt.removes c j = false := by
  rcases h with rfl | h | h
  · exact ⟨rfl, rfl⟩
  · cases j with
    | functor f => cases f <;> simp_all [Stmt.own, Stmt.removes]
    | handle | closeCb | remove | user => simp_all [Stmt.own, Stmt.removes]
  · cases j with
    | functor f => cases f <;> simp_all [Stmt.own, Stmt.removes]
    | handle | closeCb | remove | user => simp_all [Stmt.removes]

theorem filter_other {l : List Stmt} (h : ∀ j ∈ l, Stmt.on d j) (hc : c ≠ d) :
    l.filter (Stmt.own c) = [] ∧ l.filter (Stmt.removes c) = [] :=
  ⟨List.filter_eq_nil_iff.2 fun j hj => by simp [((h j hj).other hc).1],
    List.filter_eq_nil_iff.2 fun j hj => by simp [((h j hj).other hc).2]⟩

/-- A stage is kept when the statement and what it leads to are about another connection. -/
theorem Queued.skip (h : Queued base s c p) (hm : Moves r i new q fs s s') (hi : Stmt.on d i)
    (hn : ∀ j ∈ new, Stmt.on d j) (hf : ∀ j ∈ fs.map Stmt.functor, Stmt.on d j) (hc : c ≠ d) : Queued base s' c p := by
  have hconns : s'.conns = s.conns := by rw [hm.same]
  obtain ⟨handling, hh, ho⟩ := h.own
  refine ⟨⟨handling, hh, fun x => ?_⟩, fun x => ?_⟩
  · rw [hm.filter_skip (hi.other hc).1, (filter_other hn hc).1, (filter_other hf hc).1, hconns, ho]
    simp
  · rw [hm.filter_skip (hi.other hc).2, (filter_other hn hc).2, (filter_other hf hc).2, h.removes]
    simp

theorem Queued.touches (h : Queued base s c p) (ht : Touches d s s') : Queued base s' c p := by
  have hw : s'.work = s.work := by
    funext x
    rw [work, work, ht.todo, ht.pending]
  have ho : (s'.conns c).owner = (s.conns c).owner := by
    by_cases hc : c = d
    · subst hc
      exact congrArg Prod.fst ht.key
    · rw [ht.conns c hc]
  refine ⟨?_, ?_⟩
  · rw [hw, ho]; exact h.own
  · rw [hw]; exact h.removes

structure Inv (base : ρ) (s : Server ρ) : Prop where
  life : ∀ c, ∃ p, Local s c p ∧ Queued base s c p
  fds : ∀ c d, c < s.numCreated_ → d < s.numCreated_ → (s.conns c).closed = false → (s.conns d).closed = false →
    (s.conns c).fd = (s.conns d).fd → c = d

/-- Two connections with one place in the maps: one of them has left it. -/
theorem Inv.place (h : Inv base s) (hd : d < s.numCreated_) (ho : (s.conns d).closed = false) {p' : Life}
    (hc : Local s c p') (hne : c ≠ d) (hk : s.key d = s.key c) : p'.event = .kNew := by
  by_cases hu : p' = .unborn
  · rw [hu]; rfl
  by_cases hg : p' = .gone
  · rw [hg]; rfl
  · have hfd : (s.conns d).fd = (s.conns c).fd := congrArg Prod.snd hk
    exact absurd (h.fds d c hd (hc.lt hu) ho (hc.open hu hg) hfd) (Ne.symm hne)

theorem Touches.fds (h : Inv base s) (ht : Touches d s s') (c c' : ℕ) (hc : c < s'.numCreated_)
    (hc' : c' < s'.numCreated_) (ho : (s'.conns c).closed = false) (ho' : (s'.conns c').closed = false)
    (hfd : (s'.conns c).fd = (s'.conns c').fd) : c = c' := by
  have hsame : ∀ c, (s'.conns c).closed = (s.conns c).closed ∧ (s'.conns c).fd = (s.conns c).fd := by
    intro c
    by_cases hc : c = d
    · subst hc
      exact ⟨ht.closed, congrArg Prod.snd ht.key⟩
    · rw [ht.conns c hc]
      exact ⟨rfl, rfl⟩
  rw [ht.numCreated] at hc hc'
  rw [(hsame c).1] at ho
  rw [(hsame c').1] at ho'
  rw [(hsame c).2, (hsame c').2] at hfd
  exact h.fds c c' hc hc' ho ho' hfd

/-- An operation on a connection that leaves it at its stage. -/
theorem Inv.touch (h : Inv base s) (hd : d < s.numCreated_) (ho : (s.conns d).closed = false) (ht : Touches d s s')
    (hl : ∀ p, Local s d p → Local s' d p) : Inv base s' := by
  refine ⟨fun c => ?_, ht.fds h⟩
  obtain ⟨p, hlc, hqc⟩ := h.life c
  refine ⟨p, ?_, hqc.touches ht⟩
  by_cases hc : c = d
  · subst hc
    exact hl p hlc
  · exact hlc.touches ht hc (h.place hd ho hlc hc)

/-- A statement about connection `d`: an operation on the connection, then what the statement leads to. -/
theorem Inv.act {s₁ : Server ρ} {p' : Life} (h : Inv base s) (hl : Local s d p) (hp : p ≠ .unborn) (hp' : p ≠ .gone)
    (ht : Touches d s s₁) (hm : Moves r i new q fs s₁ s') (hi : Stmt.on d i) (hn : ∀ j ∈ new, Stmt.on d j)
    (hf : ∀ j ∈ fs.map Stmt.functor, Stmt.on d j) (hl' : Local s₁ d p') (hq : Queued base s' d p') : Inv base s' := by
  refine ⟨fun c => ?_, ?_⟩
  · by_cases hc : c = d
    · subst hc
      exact ⟨p', hm.local hl', hq⟩
    · obtain ⟨pc, hlc, hqc⟩ := h.life c
      exact ⟨pc, hm.local (hlc.touches ht hc (h.place (hl.lt hp) (hl.open hp hp') hlc hc)),
        (hqc.touches ht).skip hm hi hn hf hc⟩
  · rw [hm.same]
    exact fun c c' hc hc' ho ho' hfd => ht.fds h c c' hc hc' ho ho' hfd

/-- Its own reactor executes a statement of a connection: the stage and the rest of its statements. -/
theorem Queued.head (h : Queued base s d p) (hm : Moves r i new q fs s s') (hi : Stmt.own d i = true) :
    r = (s.conns d).owner ∧ ∃ handling tail, Handles d (p != .connected) handling ∧ p.own d handling = i :: tail ∧
      ∀ x, (s'.work x).filter (Stmt.own d) = (if x = (s.conns d).owner then new.filter (Stmt.own d) ++ tail else []) ++
        if x = q then (fs.map .functor).filter (Stmt.own d) else [] := by
  obtain ⟨handling, hh, ho⟩ := h.own
  obtain ⟨hr, tail, hl, hw⟩ := hm.filter_head hi ho
  exact ⟨hr, handling, tail, hh, hl, hw⟩

/-- A statement that queues nothing. -/
theorem Queued.next (h : Queued base s d p) (hm : Moves r i new r [] s s') (hi : Stmt.own d i = true)
    (hn : new.filter (Stmt.removes d) = []) : ∃ handling tail, Handles d (p != .connected) handling ∧
      p.own d handling = i :: tail ∧ ∀ p' handling', Handles d (p' != .connected) handling' →
        p'.own d handling' = new.filter (Stmt.own d) ++ tail → (p' = .removing ↔ p = .removing) →
        Queued base s' d p' := by
  obtain ⟨-, handling, tail, hh, hl, hw⟩ := h.head hm hi
  refine ⟨handling, tail, hh, hl, fun p' handling' hh' hown hrem => ⟨⟨handling', hh', fun x => ?_⟩, fun x => ?_⟩⟩
  · have hconns : s'.conns = s.conns := by rw [hm.same]
    rw [hw, hown, hconns]
    simp
  · have hir : Stmt.removes d i = false := by
      cases i with
      | functor f => cases f <;> first | rfl | cases hi
      | handle | closeCb | remove | user => rfl
    rw [hm.filter_skip hir, hn, h.removes]
    simp [hrem]

theorem Inv.user (h : Inv base s) (hr : s.todo r = .user :: rest) : Inv base (s.setTodo r rest) := by
  have hm : Moves r .user [] r [] s (s.setTodo r rest) := moves_setTodo _ hr
  refine ⟨fun c => ?_, h.fds⟩
  obtain ⟨p, hl, hq⟩ := h.life c
  exact ⟨p, hm.local hl, hq.skip (d := c + 1) hm (.inl rfl) nofun nofun (Nat.ne_of_lt (Nat.lt_succ_self c))⟩

theorem Inv.connectEstablished (h : Inv base s) (hr : s.todo r = .functor (.connectEstablished d) :: rest) :
    Inv base ((s.connectEstablished d).setTodo r (.user :: rest)) := by
  obtain ⟨p, hl, hq⟩ := h.life d
  have ht : Touches d s (s.connectEstablished d) := touches_connectEstablished d
  have hm : Moves r (.functor (.connectEstablished d)) [.user] r [] (s.connectEstablished d)
      ((s.connectEstablished d).setTodo r (.user :: rest)) := moves_setTodo _ (by rw [ht.todo, hr])
  obtain ⟨handling, tail, hh, hown, hnext⟩ := (hq.touches ht).next hm (by simp [Stmt.own]) rfl
  have hp : p = .establishing ∧ tail = [] := by
    cases p <;> cases hh <;> simp_all [Life.own]
  obtain ⟨rfl, rfl⟩ := hp
  refine h.act hl nofun nofun ht hm (by simp [Stmt.on, Stmt.own]) (by simp [Stmt.on]) nofun hl.connectEstablished ?_
  exact hnext .connected [] .none rfl (by simp)

theorem Inv.connectDestroyed (h : Inv base s) (hr : s.todo r = .functor (.connectDestroyed d) :: rest) :
    (s.conns d).conn.state_ ≠ .kConnected ∧ Inv base (s.setTodo r (.remove d :: rest)) := by
  obtain ⟨p, hl, hq⟩ := h.life d
  have hm : Moves r (.functor (.connectDestroyed d)) [.remove d] r [] s (s.setTodo r (.remove d :: rest)) :=
    moves_setTodo _ hr
  obtain ⟨handling, tail, hh, hown, hnext⟩ := hq.next hm (by simp [Stmt.own]) rfl
  have hp : p = .destroying ∧ tail = [] := by
    cases p <;> cases hh <;> simp_all [Life.own]
  obtain ⟨rfl, rfl⟩ := hp
  have hl' : Local s d .leaving :=
    ⟨hl.milestones, nofun, hl.connMap, hl.event, hl.eventMap, hl.epoll, hl.state_, hl.mask,
      fun hc => (nomatch hl.closed hc), by simpa using hl.born⟩
  refine ⟨by rw [hl.state_]; exact nofun, ?_⟩
  refine h.act hl nofun nofun (.refl d s) hm (by simp [Stmt.on, Stmt.own]) (by simp [Stmt.on, Stmt.own]) nofun hl' ?_
  exact hnext .leaving [] .none (by simp [Life.own, Stmt.own]) (by simp)

theorem Inv.remove (h : Inv base s) (hr : s.todo r = .remove d :: rest) :
    Inv base (((s.unregisterEvent d).note d [.destroyed]).setTodo r rest) := by
  obtain ⟨p, hl, hq⟩ := h.life d
  have ht : Touches d s ((s.unregisterEvent d).note d [.destroyed]) :=
    (touches_unregisterEvent d).trans (touches_note d _)
  have hm : Moves r (.remove d) [] r [] _ (((s.unregisterEvent d).note d [.destroyed]).setTodo r rest) :=
    moves_setTodo _ (by rw [ht.todo, hr])
  obtain ⟨handling, tail, hh, hown, hnext⟩ := (hq.touches ht).next hm (by simp [Stmt.own]) rfl
  have hp : p = .leaving ∧ tail = [] := by
    cases p <;> cases hh <;> simp_all [Life.own]
  obtain ⟨rfl, rfl⟩ := hp
  refine h.act hl nofun nofun ht hm (by simp [Stmt.on, Stmt.own]) nofun nofun hl.remove ?_
  exact hnext .gone [] .none rfl (by simp)

/-- `closeCb_` calls `removeConnectionInReactor` at once on the base reactor, and queues it elsewhere. -/
theorem Inv.closeCb (h : Inv base s) (hr : s.todo r = .closeCb d :: rest) (read : ℤ) (write : WriteRet) :
    Inv base (s.execute base r rest read write (.closeCb d)) := by
  obtain ⟨p, hl, hq⟩ := h.life d
  have ht : Touches d s (s.note d [.close]) := touches_note d _
  -- the statement `new`, or the functors `fs`, are at the base reactor
  have main : ∀ {new q fs s'}, Moves r (.closeCb d) new q fs (s.note d [.close]) s' →
      (∀ j ∈ new, Stmt.on d j) → (∀ j ∈ fs.map Stmt.functor, Stmt.on d j) →
      new.filter (Stmt.own d) = [] → (fs.map Stmt.functor).filter (Stmt.own d) = [] →
      (∀ x, (if x = r then new.filter (Stmt.removes d) else []) ++
        (if x = q then (fs.map Stmt.functor).filter (Stmt.removes d) else []) =
        if x = base then [.functor (.removeConnectionInReactor d)] else []) → Inv base s' := by
    intro new q fs s' hm hn hf hno hfo hrem
    obtain ⟨-, handling, tail, hh, hown, hw⟩ := (hq.touches ht).head hm (by simp [Stmt.own])
    have hp : p = .closing ∧ tail = handling := by
      cases p <;> cases hh <;> simp_all [Life.own]
    obtain ⟨rfl, rfl⟩ := hp
    refine h.act hl nofun nofun ht hm (by simp [Stmt.on, Stmt.own]) hn hf hl.close
      ⟨⟨tail, hh, fun x => ?_⟩, fun x => ?_⟩
    · have hconns : s'.conns = (s.note d [.close]).conns := by rw [hm.same]
      rw [hw, hno, hfo, hconns]
      simp [Life.own]
    · rw [hm.filter_skip rfl, (hq.touches ht).removes]
      simpa using hrem x
  simp only [execute]
  split
  · rename_i hb
    subst hb
    refine main (moves_setTodo [.functor (.removeConnectionInReactor d)] hr) ?_ nofun ?_ rfl ?_
    · simp [Stmt.on, Stmt.removes]
    · simp [Stmt.own]
    · intro x; simp [Stmt.removes]
  · refine main (moves_queue [] hr) nofun ?_ rfl ?_ ?_
    · simp [Stmt.on, Stmt.removes]
    · simp [Stmt.own]
    · intro x; simp [Stmt.removes]

theorem Inv.removeConnectionInReactor (h : Inv base s)
    (hr : s.todo r = .functor (.removeConnectionInReactor d) :: rest) (read : ℤ) (write : WriteRet) :
    Inv base (s.execute base r rest read write (.functor (.removeConnectionInReactor d))) := by
  obtain ⟨p, hl, hq⟩ := h.life d
  have ht : Touches d s ({ s with connMap_ := Function.update s.connMap_ d false }.note d [.removed]) :=
    { touches_note d [.removed] with connMap := fun c hc => Function.update_of_ne hc _ _ }
  have main : ∀ s', Moves r (.functor (.removeConnectionInReactor d)) [] (s.conns d).owner [.connectDestroyed d]
      ({ s with connMap_ := Function.update s.connMap_ d false }.note d [.removed]) s' → Inv base s' := by
    intro s' hm
    have hconns : s'.conns = s.conns := by rw [hm.same]; rfl
    have hrem := (hq.touches ht).removes
    have hp : p = .removing := by
      obtain ⟨tail, hw, -⟩ := hm.work
      have hx := hrem r
      rw [hw, List.filter_cons_of_pos (by simp [Stmt.removes])] at hx
      by_contra hne
      simp [hne] at hx
    subst hp
    obtain ⟨-, tail, htail, hw⟩ := hm.filter_head (P := Stmt.removes d) (o := base)
      (l := [.functor (.removeConnectionInReactor d)]) (by simp [Stmt.removes]) (by simpa using hrem)
    obtain ⟨handling, hh, ho⟩ := hq.own
    have ho' : ∀ x, (({ s with connMap_ := Function.update s.connMap_ d false }.note d [.removed]).work x).filter
        (Stmt.own d) = if x = (s.conns d).owner then handling else [] := ho
    refine h.act hl nofun nofun ht hm (by simp [Stmt.on, Stmt.removes]) nofun (by simp [Stmt.on, Stmt.own]) hl.removed
      ⟨⟨handling, hh, fun x => ?_⟩, fun x => ?_⟩
    · rw [hm.filter_skip rfl, ho', hconns]
      by_cases hx : x = (s.conns d).owner
      · simp [Life.own, Stmt.own, hx]
      · simp [hx]
    · rw [hw]
      cases htail
      simp [Stmt.removes]
  exact main _ (moves_queue [] hr)

/-! ## `Event::handle` -/

variable {s₁ : Server ρ} {revents : BitVec 32} {stage stage' : Stage}

/-- A test of `handle` that does not close the connection. -/
theorem Inv.stay (h : Inv base s) (new : List Stmt) (hr : s.todo r = .handle d revents stage :: rest)
    (ht : Touches d s s₁) (hl : ∀ p, p ≠ .gone → Local s d p → Local s₁ d p) (hn : ∀ j ∈ new, Stmt.on d j)
    (hnr : new.filter (Stmt.removes d) = [])
    (hnew : ∀ closed, Handles d closed [.handle d revents stage] → Handles d closed (new.filter (Stmt.own d))) :
    Inv base (s₁.setTodo r (new ++ rest)) := by
  obtain ⟨p, hlp, hq⟩ := h.life d
  have hm : Moves r (.handle d revents stage) new r [] s₁ (s₁.setTodo r (new ++ rest)) :=
    moves_setTodo _ (by rw [ht.todo, hr])
  obtain ⟨handling, tail, hh, hown, hnext⟩ := (hq.touches ht).next hm (by simp [Stmt.own]) hnr
  have hp : handling = [.handle d revents stage] ∧ p ≠ .unborn ∧ p ≠ .gone ∧
      ∀ l, p.own d l = l ++ tail := by
    cases p <;> cases hh <;> simp_all [Life.own]
  obtain ⟨rfl, hp, hp', htail⟩ := hp
  refine h.act hlp hp hp' ht hm (by simp [Stmt.on, Stmt.own]) hn nofun (hl p hp' hlp) ?_
  exact hnext p _ (hnew _ hh) (htail _) Iff.rfl

/-- A test of `handle` that closes an open connection. -/
theorem Inv.closes (h : Inv base s) (hr : s.todo r = .handle d revents stage :: rest) (ht : Touches d s s₁)
    (hl : Local s d .connected → Local s₁ d .closing) (hopen : ¬Handles d true [.handle d revents stage])
    (hnew : Handles d true [.handle d revents stage']) :
    Inv base (s₁.setTodo r (.user :: .closeCb d :: .handle d revents stage' :: rest)) := by
  obtain ⟨p, hlp, hq⟩ := h.life d
  have hm : Moves r (.handle d revents stage) [.user, .closeCb d, .handle d revents stage'] r [] s₁
      (s₁.setTodo r (.user :: .closeCb d :: .handle d revents stage' :: rest)) :=
    moves_setTodo _ (by rw [ht.todo, hr])
  obtain ⟨handling, tail, hh, hown, hnext⟩ := (hq.touches ht).next hm (by simp [Stmt.own]) rfl
  have hp : handling = [.handle d revents stage] ∧ (p = .connected ∧ tail = [] ∨ (p != .connected) = true) := by
    cases p <;> cases hh <;> simp_all [Life.own]
  obtain ⟨rfl, hp⟩ := hp
  rcases hp with ⟨rfl, rfl⟩ | hp
  · refine h.act hlp nofun nofun ht hm (by simp [Stmt.on, Stmt.own]) (by simp [Stmt.on, Stmt.own]) nofun (hl hlp) ?_
    exact hnext .closing _ hnew (by simp [Life.own, Stmt.own]) (by simp)
  · rw [hp] at hh
    exact absurd hh hopen

theorem handles_closed_iff : Handles d true [.handle d revents stage] ↔
    stage ≠ .close ∧ (stage ≠ .write → Event.closes revents = true) :=
  ⟨fun h => by cases h with | closed h h' => exact ⟨h, h'⟩, fun h => .closed h.1 h.2⟩

/-- The tests of `handle` go on with the next one. -/
theorem Handles.go {closed : Bool} (h : Handles d closed [.handle d revents stage]) (stage' : Stage)
    (hs' : stage' ≠ .close) (hs : stage = .close → Event.closes revents = false)
    (hw : stage' ≠ .write → stage ≠ .write) : Handles d closed [.handle d revents stage'] := by
  cases h with
  | opened hc =>
    refine .opened fun _ => ?_
    by_cases he : stage = .close
    · exact hs he
    · exact hc he
  | closed hc hcw => exact .closed hs' fun hn => hcw (hw hn)

/-- The next statement of a thread reads the end of the stream in a `handle` that has called `closeCallback_`. -/
def readsAfterClose (read : ℤ) : List Stmt → Bool
  | .handle _ revents .read :: _ => Event.closes revents && Event.reads revents && decide (read = 0)
  | _ => false

/-- The connection has reported `POLLHUP` without `POLLIN`, so that `closeCallback_` is called, and then the end of the
stream is read in the same `handle`. -/
def ClosesTwice (x : Server ρ × ServerAction ρ × Server ρ) : Prop :=
  match x.2.1 with
  | .tick r read _ => readsAfterClose read (x.1.todo r) = true
  | _ => False

theorem Inv.handle (h : Inv base s) (hr : s.todo r = .handle d revents stage :: rest) {read : ℤ} {write : WriteRet}
    (hc : ¬ClosesTwice (s, .tick r read write, s')) :
    Inv base (s.execute base r rest read write (.handle d revents stage)) := by
  have hon : ∀ stage', Stmt.on d (.handle d revents stage') := fun _ => .inr (.inl (by simp [Stmt.own]))
  have hown : ∀ stage', Stmt.own d (.handle d revents stage') = true := fun _ => by simp [Stmt.own]
  cases stage with
  | close =>
    simp only [execute]
    split
    · rename_i hcl
      refine h.closes hr (touches_handleClose d) Local.handleClose ?_ ?_
      · rw [handles_closed_iff]; exact fun hn => hn.1 rfl
      · rw [handles_closed_iff]; exact ⟨by decide, fun _ => hcl⟩
    · rename_i hcl
      refine h.stay [.handle d revents .error] hr (.refl d s) (fun _ _ hl => hl) (by simp [hon]) rfl ?_
      intro closed hh
      simpa [hown] using hh.go .error (by decide) (fun _ => by simpa using hcl) fun _ => by decide
  | error =>
    have hgo : ∀ closed, Handles d closed [.handle d revents .error] →
        Handles d closed ([Stmt.handle d revents .read].filter (Stmt.own d)) := fun closed hh => by
      simpa [hown] using hh.go .read (by decide) (fun hn => by cases hn) fun _ => by decide
    simp only [execute]
    split
    · exact h.stay [.handle d revents .read] hr (touches_note d _)
        (fun p hp hl => hl.note hp (by simp [Call.milestone])) (by simp [hon]) rfl hgo
    · exact h.stay [.handle d revents .read] hr (.refl d s) (fun _ _ hl => hl) (by simp [hon]) rfl hgo
  | read =>
    have hgo : ∀ closed, Handles d closed [.handle d revents .read] →
        Handles d closed ([Stmt.handle d revents .write].filter (Stmt.own d)) := fun closed hh => by
      simpa [hown] using hh.go .write (by decide) (fun hn => by cases hn) fun _ => by decide
    have hnote : ∀ l, (∀ x ∈ l, Call.milestone x = false) → ∀ p, p ≠ .gone → Local s d p →
        Local ((s.note d [.handleRead]).note d l) d p := fun l hl p hp hlp =>
      (hlp.note hp (by simp [Call.milestone])).note hp hl
    simp only [execute]
    split
    · rename_i hreads
      split
      · exact h.stay [.user, .handle d revents .write] hr ((touches_note d _).trans (touches_note d _))
          (hnote _ (by simp [Call.milestone])) (by simp [Stmt.on, Stmt.own]) rfl hgo
      · split
        · rename_i hread
          refine h.closes hr ((touches_note d _).trans (touches_handleClose d))
            (fun hl => (hl.note (by decide) (by simp [Call.milestone])).handleClose) ?_ ?_
          · rw [handles_closed_iff]
            intro hcl
            refine hc ?_
            simp [ClosesTwice, hr, readsAfterClose, hcl.2 (by decide), hreads, hread]
          · rw [handles_closed_iff]
            exact ⟨by decide, fun hn => absurd rfl hn⟩
        · exact h.stay [.handle d revents .write] hr ((touches_note d _).trans (touches_note d _))
            (hnote _ (by simp [Call.milestone])) (by simp [hon]) rfl hgo
    · exact h.stay [.handle d revents .write] hr (.refl d s) (fun _ _ hl => hl) (by simp [hon]) rfl hgo
  | write =>
    simp only [execute]
    split
    · refine h.stay [] hr ((touches_note d _).trans (touches_setTcp d _)) (fun p hp hl => ?_)
        (List.forall_mem_nil _) rfl fun _ _ => .none
      exact (hl.note (l := [.handleWrite]) hp (by simp [Call.milestone])).handleWrite write
    · exact h.stay [] hr (.refl d s) (fun _ _ hl => hl) (List.forall_mem_nil _) rfl fun _ _ => .none

/-! ## Runs -/

theorem Inv.execute {i : Stmt} (h : Inv base s) (hr : s.todo r = i :: rest) {read : ℤ} {write : WriteRet}
    (hc : ¬ClosesTwice (s, .tick r read write, s')) : Inv base (s.execute base r rest read write i) := by
  cases i with
  | user => exact h.user hr
  | functor f =>
    cases f with
    | connectEstablished d => exact h.connectEstablished hr
    | removeConnectionInReactor d => exact h.removeConnectionInReactor hr read write
    | connectDestroyed d =>
      obtain ⟨hst, hi⟩ := h.connectDestroyed hr
      simp only [Server.execute, if_neg hst]
      exact hi
  | handle d revents stage => exact h.handle hr hc
  | closeCb d => exact h.closeCb hr read write
  | remove d => exact h.remove hr

/-- A report of a registered event. -/
theorem Inv.report (h : Inv base s) (ht : s.todo (s.conns d).owner = []) (he : s.epoll (s.key d) = some d) :
    Inv base (s.setTodo (s.conns d).owner [.handle d revents .close]) := by
  have hwork : ∀ x, (s.setTodo (s.conns d).owner [.handle d revents .close]).work x =
      (if x = (s.conns d).owner then [Stmt.handle d revents .close] else []) ++ s.work x := by
    intro x
    by_cases hx : x = (s.conns d).owner
    · subst hx
      simp [Server.work, Server.setTodo, ht]
    · simp [Server.work, Server.setTodo, hx]
  refine ⟨fun c => ?_, h.fds⟩
  obtain ⟨p, hl, hq⟩ := h.life c
  obtain ⟨handling, hh, ho⟩ := hq.own
  refine ⟨p, hl.setTodo _ _, ?_, fun x => ?_⟩
  · by_cases hc : c = d
    · subst hc
      have hp : p = .connected := by
        have hev := ((hl.epoll _).1 he).2
        cases p <;> first | rfl | cases hev
      subst hp
      have hnil : handling = [] := by
        have hown := ho (s.conns c).owner
        rw [if_pos rfl, Server.work, ht, List.nil_append] at hown
        cases hh with
        | none => rfl
        | @opened revents' stage _ =>
          have hmem : Stmt.handle c revents' stage ∈ (s.pendingFunctors_ (s.conns c).owner).map Stmt.functor :=
            List.mem_of_mem_filter (p := Stmt.own c) (by rw [hown]; exact List.mem_singleton_self _)
          simp at hmem
      subst hnil
      refine ⟨[.handle c revents .close], .opened fun hn => absurd rfl hn, fun x => ?_⟩
      show _ = if x = (s.conns c).owner then _ else _
      rw [hwork, List.filter_append, ho]
      by_cases hx : x = (s.conns c).owner <;> simp [hx, Life.own, Stmt.own]
    · refine ⟨handling, hh, fun x => ?_⟩
      show _ = if x = (s.conns c).owner then _ else _
      rw [hwork, List.filter_append, ho]
      by_cases hx : x = (s.conns d).owner <;> simp [hx, Stmt.own, hc]
  · rw [hwork, List.filter_append, hq.removes]
    by_cases hx : x = (s.conns d).owner <;> simp [hx, Stmt.removes]

theorem Inv.doPendingFunctors (h : Inv base s) (ht : s.todo r = []) :
    Inv base { s.setTodo r ((s.pendingFunctors_ r).map .functor) with
      pendingFunctors_ := Function.update s.pendingFunctors_ r [] } := by
  have hwork : ∀ x, Server.work { s.setTodo r ((s.pendingFunctors_ r).map .functor) with
      pendingFunctors_ := Function.update s.pendingFunctors_ r [] } x = s.work x := by
    intro x
    by_cases hx : x = r
    · subst hx
      simp [Server.work, Server.setTodo, ht]
    · simp [Server.work, Server.setTodo, hx]
  refine ⟨fun c => ?_, h.fds⟩
  obtain ⟨p, hl, hq⟩ := h.life c
  refine ⟨p, ⟨hl.milestones, hl.last, hl.connMap, hl.event, hl.eventMap, hl.epoll, hl.state_, hl.mask, hl.closed,
    hl.born⟩, ?_, fun x => ?_⟩
  · obtain ⟨handling, hh, ho⟩ := hq.own
    exact ⟨handling, hh, fun x => by rw [hwork]; exact ho x⟩
  · rw [hwork]
    exact hq.removes x

/-- Nobody holds a connection only after `connectDestroyed`. -/
theorem Inv.release (h : Inv base s) (hc : c < s.numCreated_) (hmap : s.connMap_ c = false)
    (hwork : (s.work (s.conns c).owner ++ s.work base).all (fun i => !Stmt.holds c i) = true) :
    Inv base { s.setConn c { s.conns c with closed := true } with
      epoll := if s.epoll (s.key c) = some c then Function.update s.epoll (s.key c) none else s.epoll } := by
  obtain ⟨p, hl, hq⟩ := h.life c
  have hp : p = .gone := by
    obtain ⟨handling, hh, ho⟩ := hq.own
    have hown := ho (s.conns c).owner
    rw [if_pos rfl] at hown
    have hheld : ∀ i ∈ p.own c handling, Stmt.holds c i = false := by
      intro i hi
      have hmem : i ∈ s.work (s.conns c).owner := List.mem_of_mem_filter (p := Stmt.own c) (by rw [hown]; exact hi)
      simpa using List.all_eq_true.1 hwork i (List.mem_append_left _ hmem)
    have hin := hl.connMap.symm.trans hmap
    have hborn := hl.born
    cases p with
    | gone => rfl
    | unborn => exact absurd (hborn.1 rfl) (Nat.not_le.2 hc)
    | establishing | connected | closing | removing => cases hin
    | destroying => simpa [Stmt.holds] using hheld (.functor (.connectDestroyed c)) (by simp [Life.own])
    | leaving => simpa [Stmt.holds] using hheld (.remove c) (by simp [Life.own])
  subst hp
  have hepoll : s.epoll (s.key c) ≠ some c := fun e => nomatch ((hl.epoll _).1 e).2
  rw [if_neg hepoll]
  suffices main : Inv base (s.setConn c { s.conns c with closed := true }) from main
  have hother : ∀ d ≠ c, (s.setConn c { s.conns c with closed := true }).conns d = s.conns d := fun d hd =>
    Function.update_of_ne hd _ _
  have hown : ∀ d, ((s.setConn c { s.conns c with closed := true }).conns d).owner = (s.conns d).owner := by
    intro d
    by_cases hd : d = c
    · subst hd; rw [conns_setConn]
    · rw [hother d hd]
  refine ⟨fun d => ?_, fun d d' hd hd' ho ho' hfd => ?_⟩
  · obtain ⟨pd, hld, hqd⟩ := h.life d
    have hqd' : Queued base (s.setConn c { s.conns c with closed := true }) d pd := by
      obtain ⟨handling, hh, hwo⟩ := hqd.own
      exact ⟨⟨handling, hh, fun x => by rw [hown]; exact hwo x⟩, hqd.removes⟩
    by_cases hcd : d = c
    · subst hcd
      refine ⟨.gone, ⟨hl.milestones, hl.last, hl.connMap, ?_, ?_, ?_, ?_, ?_, fun _ => .inl rfl, hl.born⟩, ?_⟩
      · rw [conns_setConn]; exact hl.event
      · simpa [key, Life.event, setConn] using hl.eventMap
      · simpa [key, Life.event, setConn] using hl.epoll
      · rw [conns_setConn]; exact hl.state_
      · rw [conns_setConn]; exact hl.mask
      · obtain ⟨handling, hh, hwo⟩ := hq.own
        exact ⟨⟨handling, hh, fun x => by rw [hown]; exact hwo x⟩, hq.removes⟩
    · have hk : (s.setConn c { s.conns c with closed := true }).key d = s.key d := by rw [key, key, hother d hcd]
      refine ⟨pd, ⟨hld.milestones, hld.last, hld.connMap, ?_, ?_, ?_, ?_, ?_, ?_, hld.born⟩, hqd'⟩
      · rw [hother d hcd]; exact hld.event
      · rw [hk]; exact hld.eventMap
      · rw [hk]; exact hld.epoll
      · rw [hother d hcd]; exact hld.state_
      · rw [hother d hcd]; exact hld.mask
      · rw [hother d hcd]; exact hld.closed
  · have hne : ∀ e, ((s.setConn c { s.conns c with closed := true }).conns e).closed = false → e ≠ c := by
      rintro e he rfl
      rw [conns_setConn] at he
      cases he
    have hd₁ := hother d (hne d ho)
    have hd₂ := hother d' (hne d' ho')
    rw [hd₁] at ho hfd
    rw [hd₂] at ho' hfd
    exact h.fds d d' hd hd' ho ho' hfd

/-- The server with a new connection, for which nothing has been done. -/
def accepted (s : Server ρ) (fd : ℕ) (sub : ρ) : Server ρ :=
  { s.setConn s.numCreated_ ⟨constructed, .kNew, sub, fd, false⟩ with
    numCreated_ := s.numCreated_ + 1, connMap_ := Function.update s.connMap_ s.numCreated_ true }.note s.numCreated_
    [.created]

/-- Connection `numCreated_` is created, and `connectEstablished` is queued or done as its first statement. -/
structure Accepts (fd : ℕ) (sub : ρ) (s s' : Server ρ) : Prop where
  same : s' = { s.accepted fd sub with todo := s'.todo, pendingFunctors_ := s'.pendingFunctors_ }
  work : ∀ x, ∃ l l', s'.work x = l ++ s.work x ++ l' ∧
    l ++ l' = if x = sub then [.functor (.connectEstablished s.numCreated_)] else []

section Accepts

variable {fd : ℕ} {sub : ρ}

theorem Accepts.filter (ha : Accepts fd sub s s') (P : Stmt → Bool) (x : ρ) :
    ∃ l l', (s'.work x).filter P = l ++ (s.work x).filter P ++ l' ∧
      l ++ l' = if x = sub then [Stmt.functor (.connectEstablished s.numCreated_)].filter P else [] := by
  obtain ⟨l, l', hw, hl⟩ := ha.work x
  refine ⟨l.filter P, l'.filter P, by rw [hw, List.filter_append, List.filter_append], ?_⟩
  rw [← List.filter_append, hl]
  split <;> rfl

/-- The statements that are not about the new connection. -/
theorem Accepts.filter_eq (ha : Accepts fd sub s s') (x : ρ)
    (hP : P (.functor (.connectEstablished s.numCreated_)) = false) : (s'.work x).filter P = (s.work x).filter P := by
  obtain ⟨l, l', hw, hll⟩ := ha.filter P x
  have hnil : l ++ l' = [] := by rw [hll]; simp [hP]
  rw [List.append_eq_nil_iff] at hnil
  rw [hw, hnil.1, hnil.2, List.nil_append, List.append_nil]

/-- The statements about the new connection, of which there was none. -/
theorem Accepts.filter_new (ha : Accepts fd sub s s') (x : ρ) (hP : (s.work x).filter P = []) :
    (s'.work x).filter P = if x = sub then [Stmt.functor (.connectEstablished s.numCreated_)].filter P else [] := by
  obtain ⟨l, l', hw, hll⟩ := ha.filter P x
  rw [hw, hP, List.append_nil, hll]

theorem Accepts.conn (ha : Accepts fd sub s s') : s'.conns s.numCreated_ = ⟨constructed, .kNew, sub, fd, false⟩ := by
  rw [ha.same]; exact conns_setConn s _ _

theorem Accepts.conns (ha : Accepts fd sub s s') (hc : c ≠ s.numCreated_) : s'.conns c = s.conns c := by
  rw [ha.same]; exact Function.update_of_ne hc _ _

theorem Accepts.num (ha : Accepts fd sub s s') : s'.numCreated_ = s.numCreated_ + 1 := by rw [ha.same]; rfl

theorem Accepts.log (ha : Accepts fd sub s s') :
    s'.log = Function.update s.log s.numCreated_ (s.log s.numCreated_ ++ [.created]) := by rw [ha.same]; rfl

theorem Accepts.connMap (ha : Accepts fd sub s s') : s'.connMap_ = Function.update s.connMap_ s.numCreated_ true := by
  rw [ha.same]; rfl

theorem Accepts.eventMap (ha : Accepts fd sub s s') : s'.eventMap_ = s.eventMap_ := by rw [ha.same]; rfl

theorem Accepts.epoll (ha : Accepts fd sub s s') : s'.epoll = s.epoll := by rw [ha.same]; rfl

/-- The life of the new connection begins. -/
theorem Accepts.born (ha : Accepts fd sub s s') (hl : Local s s.numCreated_ .unborn)
    (hq : Queued base s s.numCreated_ .unborn) :
    Local s' s.numCreated_ .establishing ∧ Queued base s' s.numCreated_ .establishing := by
  obtain ⟨handling, -, hwo⟩ := hq.own
  have hms := hl.milestones
  have hev := hl.eventMap
  have hpo := hl.epoll
  simp only [Life.event, ne_eq, not_true_eq_false, and_false, iff_false, reduceCtorEq] at hev hpo
  refine ⟨⟨?_, fun hn => (by cases hn), ?_, ?_, ?_, ?_, ?_, ?_, ?_, ?_⟩, ⟨[], .none, fun x => ?_⟩, fun x => ?_⟩
  · simp [ha.log, hms, Life.milestones, Call.milestone]
  · rw [ha.connMap, Function.update_self]; rfl
  · rw [ha.conn]; rfl
  · rw [ha.eventMap]; simpa [Life.event] using hev
  · rw [ha.epoll]; simpa [Life.event] using hpo
  · rw [ha.conn]; rfl
  · rw [ha.conn]; exact List.mem_singleton_self _
  · rw [ha.conn]; exact fun hn => absurd hn Bool.false_ne_true
  · rw [ha.num]; simp
  · rw [ha.filter_new x (by rw [hwo]; simp [Life.own]), ha.conn]
    simp [Life.own, Stmt.own]
  · rw [ha.filter_new x (by rw [hq.removes]; simp)]
    simp [Stmt.removes]

/-- The other connections go on as before. -/
theorem Accepts.other (ha : Accepts fd sub s s') (hc : c ≠ s.numCreated_) (hl : Local s c p)
    (hq : Queued base s c p) : Local s' c p ∧ Queued base s' c p := by
  obtain ⟨handling, hh, hwo⟩ := hq.own
  have hkey : s'.key c = s.key c := by rw [key, key, ha.conns hc]
  refine ⟨⟨?_, ?_, ?_, ?_, ?_, ?_, ?_, ?_, ?_, ?_⟩, ⟨handling, hh, fun x => ?_⟩, fun x => ?_⟩
  · rw [ha.log, Function.update_of_ne hc]; exact hl.milestones
  · rw [ha.log, Function.update_of_ne hc]; exact hl.last
  · rw [ha.connMap, Function.update_of_ne hc]; exact hl.connMap
  · rw [ha.conns hc]; exact hl.event
  · rw [ha.eventMap, hkey]; exact hl.eventMap
  · rw [ha.epoll, hkey]; exact hl.epoll
  · rw [ha.conns hc]; exact hl.state_
  · rw [ha.conns hc]; exact hl.mask
  · rw [ha.conns hc]; exact hl.closed
  · rw [ha.num, hl.born]; omega
  · rw [ha.filter_eq x (by simpa [Stmt.own] using hc), ha.conns hc]; exact hwo x
  · rw [ha.filter_eq x rfl]; exact hq.removes x

theorem Inv.accepted (h : Inv base s) (hfd : ∀ d < s.numCreated_, (s.conns d).closed = true ∨ (s.conns d).fd ≠ fd)
    (ha : Accepts fd sub s s') : Inv base s' := by
  have hnum := ha.num
  refine ⟨fun c => ?_, fun c d hc hd ho ho' hcd => ?_⟩
  · obtain ⟨p, hl, hq⟩ := h.life c
    by_cases hc : c = s.numCreated_
    · obtain rfl : p = .unborn := hl.born.2 (Nat.le_of_eq hc.symm)
      subst hc
      exact ⟨.establishing, ha.born hl hq⟩
    · exact ⟨p, ha.other hc hl hq⟩
  · have hnew : ∀ c ≠ s.numCreated_, c < s'.numCreated_ → (s'.conns c).closed = false → (s'.conns c).fd ≠ fd := by
      intro c hne hc ho
      rw [ha.conns hne] at ho ⊢
      have hlt : c < s.numCreated_ := by omega
      exact (hfd c hlt).resolve_left (by rw [ho]; exact nofun)
    by_cases hcn : c = s.numCreated_ <;> by_cases hdn : d = s.numCreated_
    · rw [hcn, hdn]
    · refine absurd hcd.symm ?_
      rw [hcn, ha.conn]
      exact hnew d hdn hd ho'
    · refine absurd hcd ?_
      rw [hdn, ha.conn]
      exact hnew c hcn hc ho
    · rw [ha.conns hcn] at ho hcd
      rw [ha.conns hdn] at ho' hcd
      exact h.fds c d (by omega) (by omega) ho ho' hcd

end Accepts

theorem Inv.handleNewConnection {fd : ℕ} {sub : ρ} (h : Inv base s)
    (hs : Server.step base s (.handleNewConnection fd sub) = some s') : Inv base s' := by
  simp only [Server.step] at hs
  split at hs
  · rename_i hg
    obtain ⟨ht, hfd⟩ := hg
    cases hs
    split
    · rename_i hb
      subst hb
      refine h.accepted hfd ⟨rfl, fun x => ?_⟩
      by_cases hx : x = sub
      · subst hx
        exact ⟨[.functor (.connectEstablished s.numCreated_)], [], by simp [Server.work, Server.setTodo, ht]; rfl,
          by simp⟩
      · exact ⟨[], [], by simp [Server.work, Server.setTodo, hx]; rfl, by simp [hx]⟩
    · refine h.accepted hfd ⟨rfl, fun x => ?_⟩
      by_cases hx : x = sub
      · subst hx
        exact ⟨[], [.functor (.connectEstablished s.numCreated_)], by simp [Server.work, Server.queueInReactor]; rfl,
          by simp⟩
      · exact ⟨[], [], by simp [Server.work, Server.queueInReactor, hx]; rfl, by simp [hx]⟩
  · cases hs

theorem Inv.step {a : ServerAction ρ} (h : Inv base s) (hs : Server.step base s a = some s')
    (hc : ¬ClosesTwice (s, a, s')) : Inv base s' := by
  cases a with
  | handleNewConnection fd sub => exact h.handleNewConnection hs
  | report c revents =>
    simp only [Server.step] at hs
    split at hs
    · rename_i hg
      cases hs
      exact h.report hg.1 hg.2
    · cases hs
  | doPendingFunctors r =>
    simp only [Server.step] at hs
    split at hs
    · rename_i hg
      cases hs
      exact h.doPendingFunctors hg
    · cases hs
  | tick r read write =>
    simp only [Server.step] at hs
    split at hs
    · cases hs
    · rename_i i rest hr
      cases hs
      exact h.execute hr hc
  | send c data write =>
    simp only [Server.step] at hs
    split at hs
    · rename_i hg
      cases hs
      exact h.touch hg.1 hg.2.1 (touches_setTcp c _) fun p hl => hl.sendInReactor data write
    · cases hs
  | release c =>
    simp only [Server.step] at hs
    split at hs
    · rename_i hg
      cases hs
      exact h.release hg.1 hg.2.1 hg.2.2
    · cases hs

theorem inv_init : Inv base (init base) := by
  refine ⟨fun c => ⟨.unborn, ?_, ⟨[], .none, fun x => ?_⟩, fun x => ?_⟩, fun _ _ hc => absurd hc (Nat.not_lt_zero _)⟩
  · exact ⟨rfl, nofun, rfl, rfl, fun _ => ⟨nofun, fun hk => absurd rfl hk.2⟩,
      fun _ => ⟨nofun, fun hk => (nomatch hk.2)⟩, rfl, List.mem_singleton_self _, fun _ => .inr rfl,
      iff_of_true rfl (Nat.zero_le _)⟩
  · rw [Life.own, ite_self]
    rfl
  · rw [if_neg fun hx => (nomatch hx.2)]
    rfl

/-- The second `handleClose` finds the connection disconnected. -/
theorem Inv.closesTwice {a : ServerAction ρ} (h : Inv base s) (hs : Server.step base s a = some s')
    (hc : ClosesTwice (s, a, s')) : ∃ c, ¬s'.Once c := by
  cases a with
  | tick r read write =>
    simp only [ClosesTwice, readsAfterClose] at hc
    split at hc
    · rename_i d revents rest hr
      simp only [Bool.and_eq_true, decide_eq_true_eq] at hc
      obtain ⟨⟨hcl, hreads⟩, hread⟩ := hc
      obtain ⟨p, hl, hq⟩ := h.life d
      have hp : p ≠ .connected := by
        rintro rfl
        obtain ⟨handling, tail, hh, hown, -⟩ := hq.next (moves_setTodo [] hr) (by simp [Stmt.own]) rfl
        cases hh with
        | none => cases hown
        | opened ho =>
          cases hown
          rw [ho nofun] at hcl
          cases hcl
      have hst : (s.conns d).conn.state_ = .kDisconnected := by
        rw [hl.state_]
        cases p <;> first | rfl | exact absurd rfl hp
      simp only [Server.step, hr, Server.execute, hreads, hread] at hs
      cases hs
      refine ⟨d, fun ho => ho.closing ?_⟩
      have hlog : ((s.note d [.handleRead]).handleClose d).log d =
          s.log d ++ [.handleRead] ++ [.closing false] ++ [.finConn] := by
        simp only [Server.handleClose, log_note, setEvent, log_registerEvent]
        simp [Server.setState, setConn, Server.note, hst]
      show Call.closing false ∈ ((s.note d [.handleRead]).handleClose d).log d
      rw [hlog]
      simp
    · cases hc
  | handleNewConnection _ _ | report _ _ | doPendingFunctors _ | send _ _ _ | release _ => exact hc.elim

/-- **A connection is torn down once.** In the states of a run all connections live one life, exactly when no report of
the run makes `handle` call `closeCallback_` and then read the end of the stream. -/
theorem torn_down_once (w : List (Server ρ × ServerAction ρ × Server ρ))
    (h : Lts.Run (servers base) (init base) w s) :
    (∀ u ∈ Lts.visited (init base) w, ∀ c, u.Once c) ↔ ∀ x ∈ w, ¬ClosesTwice x := by
  refine ⟨fun honce => ?_, fun hw u hu c => ?_⟩
  · have hfirst : Inv base s ∧ (∀ x ∈ w, ¬ClosesTwice x) := by
      induction h with
      | nil => exact ⟨inv_init, nofun⟩
      | @snoc t t' a w hr hst ih =>
        rw [Lts.visited_snoc] at honce
        obtain ⟨hi, hw⟩ := ih fun u hu => honce u (List.mem_append_left _ hu)
        have hx : ¬ClosesTwice (t, a, t') := by
          intro hc
          obtain ⟨c, hn⟩ := hi.closesTwice hst hc
          exact hn (honce t' (List.mem_append_right _ List.mem_cons_self) c)
        refine ⟨hi.step hst hx, fun x hxw => ?_⟩
        rcases List.mem_append.1 hxw with hxw | hxw
        · exact hw x hxw
        · rw [List.mem_singleton.1 hxw]
          exact hx
    exact hfirst.2
  · obtain ⟨p, hl, -⟩ := (h.invariant (I := Inv base) (fun _ _ _ hi hc hst => hi.step hst hc) hw inv_init u hu).life c
    exact hl.once

instance : (x : Server ρ × ServerAction ρ × Server ρ) → Decidable (ClosesTwice x)
  | (s, .tick r read _, _) => inferInstanceAs (Decidable (readsAfterClose read (s.todo r) = true))
  | (_, .handleNewConnection _ _, _) | (_, .report _ _, _) | (_, .doPendingFunctors _, _) | (_, .send _ _ _, _)
  | (_, .release _, _) => inferInstanceAs (Decidable False)

/-- The base reactor `false` accepts a connection for reactor `true`, which establishes it. -/
def establish : List (ServerAction Bool) :=
  [.handleNewConnection 5 true, .doPendingFunctors true, .tick true 0 (.count 0), .tick true 0 (.count 0)]

/-- A report, the statements of its `handle` with the end of the stream, and the functors that follow. -/
def reportEnd (revents : BitVec 32) : List (ServerAction Bool) :=
  .report 0 revents :: List.replicate 6 (.tick true 0 (.count 0)) ++
    [.doPendingFunctors false, .tick false 0 (.count 0), .doPendingFunctors true, .tick true 0 (.count 0),
      .tick true 0 (.count 0)]

theorem torn_down_once_end : ∃ s : Server Bool,
    Lts.exec (step false) (init false) (establish ++ reportEnd Event.POLLIN) = some s ∧ .destroyed ∈ s.log 0 ∧
    ∀ u ∈ Lts.visited (init false) (Lts.moves (step false) (init false) (establish ++ reportEnd Event.POLLIN)),
      ∀ c, u.Once c := by
  obtain ⟨s, hs, hlog⟩ : ∃ s ∈ Lts.exec (step false) (init false) (establish ++ reportEnd Event.POLLIN),
      .destroyed ∈ s.log 0 := by
    decide +kernel
  exact ⟨s, hs, hlog, (torn_down_once _ (Lts.Run.moves hs)).2 (by decide +kernel)⟩

/-- `POLLHUP` and `POLLPRI` without `POLLIN`: the end of the stream is read after `closeCallback_`. -/
def hangUp : List (ServerAction Bool) :=
  establish ++ .report 0 (Event.POLLHUP ||| Event.POLLPRI) :: List.replicate 5 (.tick true 0 (.count 0))

theorem not_once_hangUp : ¬∀ s : Server Bool, Lts.Reach (servers false) s → ∀ c, s.Once c := by
  intro h
  obtain ⟨s, hs, hlog⟩ : ∃ s ∈ Lts.exec (step false) (init false) hangUp, (s.log 0).count .finConn = 2 := by
    decide +kernel
  have honce := (h s (Lts.Reach.exec (.init rfl) hs) 0).finConn
  rw [hlog] at honce
  exact absurd honce (by decide)

end Libeva.Net.Server
