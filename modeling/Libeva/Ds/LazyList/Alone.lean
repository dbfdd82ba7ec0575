import Libeva.Ds.LazyList.Heap
import Mathlib.Logic.Relation

/-!
# A call that runs alone

When no call is in progress every node between `head_` and `tail_` is unmarked and every lock is free
(`State.AtRest`). A thread that then makes all the steps of one call comes to its end: its traversal stops
(`walk`), the locks are there for it to take and `validate` does not fail (`solo_lockPred`), and the rest has no loop
(`ends_notEqual`, `ends_isEqual`). The exception is a `remove` that has found its key, where deleted nodes are freed:
it unlocks `curr` after `delete curr`, and there it stops (`stuck_isEqual`).

* `State.call`: a call without interruption, with fuel for its steps.
* `update_alone`, `get_alone`, `contains_alone`: what it returns and what it does to the map that the list stands for.
  `contains` starts at `head_`, whose entry is the default of its type, and not behind it as the others do.
* `remove_stuck`: the call that does not return.
-/

namespace Libeva.Ds.LazyList

open Linked (Path)

variable {ι α κ : Type*} [LinearOrder κ] (key : α → κ)

/-- The entries that `traversal` hands to its argument, from the pointer `curr` on; `none` when it uses a null pointer
or a node that has been deleted. -/
def State.traverse (s : State ι α) : ℕ → Option Ref → Option (List α)
  | 0, _ => none
  | fuel + 1, curr =>
    if curr = some tail_ then some []
    else match curr with
      | none => none
      | some n => if s.live n then (s.traverse fuel (s.next n)).map ((s.mem n).entry_ :: ·) else none

/-- `traversal`; there are fewer nodes than addresses in use. -/
def State.traversal (s : State ι α) : Option (List α) := s.traverse s.brk (s.next head_)

section Program

variable [DecidableEq ι]

/-- Thread `t` makes steps until its call has returned. -/
def State.finish (m : Memory) (t : ι) : ℕ → State ι α → Option (Result α × State ι α)
  | 0, _ => none
  | fuel + 1, s =>
    match s.pc t with
    | .ret _ r => some (r, s)
    | _ => (s.tick key m t).bind (State.finish m t fuel)

/-- Thread `t` runs the call `c`, and no other thread makes a step. -/
def State.call (m : Memory) (t : ι) (fuel : ℕ) (s : State ι α) (c : Call α) : Option (Result α × State ι α) :=
  (step key s (.invoke t c)).bind (State.finish key m t fuel)

/-- Steps of thread `t` only. -/
def Solo (m : Memory) (t : ι) : State ι α → State ι α → Prop :=
  Relation.ReflTransGen fun s s' => s.tick key m t = some s'

end Program

/-- No call is in progress. -/
def State.AtRest (s : State ι α) : Prop := ∀ t, (s.pc t).call? = none

variable {key} {m : Memory} {s s' s'' : State ι α} {t : ι} {p q : Pc α} {k : α} {n : Ref} {w : Window α} {l : List Ref}

/-! ## At rest -/

omit [LinearOrder κ] in
theorem Pc.locks_of_call? (h : p.call? = none) : p.locks = [] ∧ p.unlinking? = none := by
  cases p <;> first | exact ⟨rfl, rfl⟩ | cases h

theorem State.AtRest.unmarked (hr : s.AtRest) (h : Inv key s) (hn : n ∈ head_ :: s.chain) : s.marked n = false := by
  rcases List.mem_cons.1 hn with rfl | hn
  · exact h.shape.head
  · rw [Bool.eq_false_iff]
    intro hm
    obtain ⟨t, ht⟩ := h.shape.unlinking n hn hm
    rw [(Pc.locks_of_call? (hr t)).2] at ht
    cases ht

theorem State.AtRest.unlocked (hr : s.AtRest) (h : Inv key s) (n : Ref) : (s.mem n).spinLock_ = none := by
  rw [Option.eq_none_iff_forall_ne_some]
  intro t ht
  have hl := (h.locks t n).1 ht
  rw [(Pc.locks_of_call? (hr t)).1] at hl
  cases hl

/-- At rest the map has the entries of the nodes between `head_` and `tail_`. -/
theorem State.AtRest.abs_eq_some (hr : s.AtRest) (h : Inv key s) {x : κ} {e : α} :
    s.abs key x = some e ↔ ∃ n ∈ s.chain, s.keyOf key n = x ∧ (s.mem n).entry_ = e := by
  rw [h.abs_eq_some]
  constructor
  · rintro ⟨n, hl, hm, hk, he⟩
    exact ⟨n, h.shape.complete n hl hm, hk, he⟩
  · rintro ⟨n, hn, hk, he⟩
    exact ⟨n, h.shape.linked n hn, hr.unmarked h (List.mem_cons_of_mem _ hn), hk, he⟩

theorem State.AtRest.abs_isSome (hr : s.AtRest) (h : Inv key s) {x : κ} :
    (s.abs key x).isSome ↔ ∃ n ∈ s.chain, s.keyOf key n = x := by
  rw [Option.isSome_iff_exists]
  constructor
  · rintro ⟨e, he⟩
    obtain ⟨n, hn, hk, -⟩ := (hr.abs_eq_some h).1 he
    exact ⟨n, hn, hk⟩
  · rintro ⟨n, hn, hk⟩
    exact ⟨_, (hr.abs_eq_some h).2 ⟨n, hn, hk, rfl⟩⟩

/-- Between calls a thread can start one. -/
theorem State.AtRest.invoke [DecidableEq ι] (hr : s.AtRest) (h : Inv key s) {c : Call α}
    (hc : key c.arg < s.keyOf key tail_) : step key s (.invoke t c) = some (s.goto t c.entry) := by
  have hloc := h.loc t
  have hcall := hr t
  rw [step]
  cases hp : s.pc t <;> rw [hp] at hloc hcall <;> first
    | exact if_pos hc
    | exact hloc.elim
    | cases hcall

/-- `traversal` follows the path to `tail_`. -/
theorem traverse_path {a : Ref} {fuel : ℕ} (hp : Path s.next a l tail_) (hl : tail_ ∉ l)
    (hlive : ∀ n ∈ l, s.live n = true) (hf : l.length < fuel) :
    s.traverse fuel (s.next a) = some (l.map fun n => (s.mem n).entry_) := by
  induction l generalizing a fuel with
  | nil =>
    obtain ⟨fuel, rfl⟩ : ∃ m, fuel = m + 1 := ⟨fuel - 1, by simp at hf; omega⟩
    rw [Linked.path_nil.1 hp, State.traverse, if_pos rfl]
    rfl
  | cons n l ih =>
    obtain ⟨fuel, rfl⟩ : ∃ m, fuel = m + 1 := ⟨fuel - 1, by simp at hf; omega⟩
    have hn : some n ≠ some tail_ := fun e => hl (by rw [Option.some.inj e]; exact List.mem_cons_self)
    rw [hp.1, State.traverse, if_neg hn]
    rw [if_pos (hlive n List.mem_cons_self), ih hp.2 (fun hm => hl (List.mem_cons_of_mem _ hm))
      (fun x hx => hlive x (List.mem_cons_of_mem _ hx)) (by simpa using hf)]
    rfl

theorem Inv.traversal_eq (h : Inv key s) (hh : Heap s) :
    s.traversal = some (s.chain.map fun n => (s.mem n).entry_) :=
  traverse_path h.shape.path h.shape.tail_notMem
    (fun n hn => hh.list n (List.mem_cons_of_mem _ (List.mem_append_left _ hn))) h.shape.length_lt

/-! ## Steps of one thread -/

section Solo

variable [DecidableEq ι]

theorem State.finish_ret {c : Call α} {r : Result α} (hp : s.pc t = .ret c r) (fuel : ℕ) :
    State.finish key m t (fuel + 1) s = some (r, s) := by
  rw [State.finish, hp]

theorem State.finish_step (hs : s.tick key m t = some s') (fuel : ℕ) :
    State.finish key m t (fuel + 1) s = State.finish key m t fuel s' := by
  rw [State.finish]
  split
  · rename_i hp
    have hs := tick_step hs
    rw [step, hp] at hs
    cases hs
  · rw [hs]
    rfl

theorem State.finish_mono {x : Result α × State ι α} {i j : ℕ} (h : State.finish key m t i s = some x) (hi : i ≤ j) :
    State.finish key m t j s = some x := by
  induction i generalizing s j with
  | zero => cases h
  | succ i ih =>
    obtain ⟨j, rfl⟩ : ∃ k, j = k + 1 := ⟨j - 1, by omega⟩
    rw [State.finish] at h ⊢
    split at h
    · exact h
    · obtain ⟨u, hs, hu⟩ := Option.bind_eq_some_iff.1 h
      rw [hs]
      exact ih hu (by omega)

/-- A thread that comes to a return does so with enough fuel. -/
theorem Solo.finish {c : Call α} {r : Result α} (h : Solo key m t s s') (hp : s'.pc t = .ret c r) :
    ∃ n, ∀ fuel, n ≤ fuel → State.finish key m t fuel s = some (r, s') := by
  induction h using Relation.ReflTransGen.head_induction_on with
  | refl =>
    refine ⟨1, fun fuel hf => ?_⟩
    obtain ⟨fuel, rfl⟩ : ∃ m, fuel = m + 1 := ⟨fuel - 1, by omega⟩
    exact State.finish_ret hp fuel
  | head hs _ ih =>
    obtain ⟨n, hn⟩ := ih
    refine ⟨n + 1, fun fuel hf => ?_⟩
    obtain ⟨fuel, rfl⟩ : ∃ m, fuel = m + 1 := ⟨fuel - 1, by omega⟩
    rw [State.finish_step hs, hn fuel (by omega)]

/-- A thread that comes to a point in its call where it has no step does not return. -/
theorem Solo.finish_none (h : Solo key m t s s') (hp : (s'.pc t).call? ≠ none) (hs : s'.tick key m t = none)
    (fuel : ℕ) : State.finish key m t fuel s = none := by
  induction h using Relation.ReflTransGen.head_induction_on generalizing fuel with
  | refl =>
    cases fuel with
    | zero => rfl
    | succ fuel =>
      rw [State.finish]
      split
      · rename_i hret
        rw [hret] at hp
        exact absurd rfl hp
      · rw [hs]
        rfl
  | head hst _ ih =>
    cases fuel with
    | zero => rfl
    | succ fuel => rw [State.finish_step hst, ih]

theorem goto_goto : (s.goto t p).goto t q = s.goto t q := by
  simp only [State.goto, Function.update_idem]

theorem tick_goto : step key (s.goto t p) (.tick t) = exec (s.goto t p) t (fetch key p) := by
  rw [step, goto_pc, Function.update_self]

/-- A statement whose node can be used. -/
theorem Solo.exec (hs : exec (s.goto t p) t (fetch key p) = some s') (hn : ∀ n ∈ (fetch key p).node?, m.Has s n) :
    Solo key m t (s.goto t p) s' := by
  refine .single ?_
  have hpc : (s.goto t p).pc t = p := by rw [goto_pc, Function.update_self]
  rw [tick_eq (by rw [hpc]; exact hn), tick_goto, hs]

theorem solo_readEntry {f : α → Pc α} (hf : fetch key p = .readEntry n f) (hn : m.Has s n) :
    Solo key m t (s.goto t p) (s.goto t (f (s.mem n).entry_)) :=
  .exec (by rw [hf, LazyList.exec, goto_goto]; rfl) (by rw [hf]; rintro _ ⟨⟩; exact hn)

theorem solo_readNext {f : Option Ref → Pc α} (hf : fetch key p = .readNext n f) (hn : m.Has s n) :
    Solo key m t (s.goto t p) (s.goto t (f (s.next n))) :=
  .exec (by rw [hf, LazyList.exec, goto_goto]; rfl) (by rw [hf]; rintro _ ⟨⟩; exact hn)

theorem solo_readMarked {f : Bool → Pc α} (hf : fetch key p = .readMarked n f) (hn : m.Has s n) :
    Solo key m t (s.goto t p) (s.goto t (f (s.marked n))) :=
  .exec (by rw [hf, LazyList.exec, goto_goto]; rfl) (by rw [hf]; rintro _ ⟨⟩; exact hn)

/-- The traversal of each call, from the node `curr` behind `pred` on: it stops at the first node whose key is not
below `k`. The program points are `L` at the test, `N` at `next_`, and `E` after the loop. -/
theorem walk {L E : Ref → Ref → Pc α} {N : Ref → Pc α}
    (hL : ∀ p c, fetch key (L p c) = .readEntry c fun e => if cmp key e k then N c else E p c)
    (hN : ∀ c, fetch key (N c) = .readNext c fun m => deref m fun c' => L c c') {pred curr : Ref}
    (hp : Path s.next pred l tail_) (hc : s.next pred = some curr) (hk : key k ≤ s.keyOf key tail_)
    (hl : ∀ n ∈ l ++ [tail_], m.Has s n) :
    ∃ p c, Solo key m t (s.goto t (L pred curr)) (s.goto t (E p c)) ∧ p ∈ pred :: l ∧
      (p = pred ∨ s.keyOf key p < key k) ∧ s.next p = some c ∧ key k ≤ s.keyOf key c := by
  have test := fun p c => solo_readEntry (m := m) (s := s) (t := t) (hL p c)
  induction l generalizing pred curr with
  | nil =>
    obtain rfl : curr = tail_ := Option.some.inj (hc.symm.trans hp)
    have hstop := test pred tail_ (hl _ (by simp))
    rw [if_neg (mt cmp_iff.1 (not_lt.2 hk))] at hstop
    exact ⟨pred, tail_, hstop, List.mem_cons_self, .inl rfl, hc, hk⟩
  | cons n l ih =>
    obtain rfl : curr = n := Option.some.inj (hc.symm.trans hp.1)
    have hcurr := hl curr (by simp)
    by_cases hlt : s.keyOf key curr < key k
    · obtain ⟨m, -, hm⟩ := hp.2.succ curr List.mem_cons_self
      obtain ⟨p, c, hsolo, hpm, hpk, hnext, hck⟩ := ih hp.2 hm fun x hx => hl x (List.mem_cons_of_mem _ hx)
      have hgo := test pred curr hcurr
      rw [if_pos (cmp_iff.2 hlt)] at hgo
      have hstep := solo_readNext (t := t) (hN curr) hcurr
      rw [hm] at hstep
      refine ⟨p, c, (hgo.trans hstep).trans hsolo, List.mem_cons_of_mem _ hpm, .inr ?_, hnext, hck⟩
      exact hpk.elim (fun e => e ▸ hlt) id
    · have hstop := test pred curr hcurr
      rw [if_neg (mt cmp_iff.1 hlt)] at hstop
      exact ⟨pred, curr, hstop, List.mem_cons_self, .inl rfl, hc, not_lt.1 hlt⟩

/-- The thread alone comes to the return of its update. -/
def Ends (key : α → κ) (m : Memory) (t : ι) (o : Upd) (k : α) (s : State ι α) : Prop :=
  ∃ s' b, Solo key m t s s' ∧ s'.pc t = .ret (.update o k) (.bool b)

/-- Where deleted nodes are freed, the thread alone comes to a point of its update where it has no step. -/
def Stuck (key : α → κ) (t : ι) (s : State ι α) : Prop :=
  ∃ s', Solo key .freed t s s' ∧ (s'.pc t).call? ≠ none ∧ s'.tick key .freed t = none

variable {o : Upd}

theorem Ends.of_solo (h : Ends key m t o k s') (hs : Solo key m t s s') : Ends key m t o k s :=
  have ⟨u, b, hu, hp⟩ := h
  ⟨u, b, hs.trans hu, hp⟩

theorem Stuck.of_solo (h : Stuck key t s') (hs : Solo key .freed t s s') : Stuck key t s :=
  have ⟨u, hu, hp⟩ := h
  ⟨u, hs.trans hu, hp⟩

theorem Ends.of_exec (hs : LazyList.exec (s.goto t p) t (fetch key p) = some s')
    (hn : ∀ n ∈ (fetch key p).node?, m.Has s n) (h : Ends key m t o k s') : Ends key m t o k (s.goto t p) :=
  h.of_solo (.exec hs hn)

theorem ends_unlock (s : State ι α) (b : Bool) (hp : m.Has s w.pred) (hc : m.Has s w.curr) :
    Ends key m t w.upd w.key (s.goto t (.unlockCurr w (some b))) := by
  have hret : ∀ s : State ι α, Ends key m t w.upd w.key (s.goto t (.ret (.update w.upd w.key) (.bool b))) :=
    fun s => ⟨_, b, .refl, by rw [goto_pc, Function.update_self]⟩
  have hpred : ∀ s : State ι α, m.Has s w.pred → Ends key m t w.upd w.key (s.goto t (.unlockPred w (some b))) :=
    fun s hp => .of_exec rfl (by rintro _ ⟨⟩; exact hp) (hret _)
  exact .of_exec rfl (by rintro _ ⟨⟩; exact hc) (hpred _ hp)

/-- The key is not there: `add` links a new node, and `remove` has nothing to do. -/
theorem ends_notEqual (s : State ι α) (hp : m.Has s w.pred) (hc : m.Has s w.curr) :
    Ends key m t w.upd w.key (s.goto t w.notEqual) := by
  unfold Window.notEqual
  split
  · have hlink : ∀ (s : State ι α) n, m.Has s w.pred → m.Has s w.curr →
        Ends key m t w.upd w.key (s.goto t (.link w n)) :=
      fun s n hp hc => .of_exec rfl (by rintro _ ⟨⟩; exact hp) (ends_unlock _ true hp hc)
    have hset : ∀ (s : State ι α) n, m.Has s w.pred → m.Has s w.curr → m.Has s n →
        Ends key m t w.upd w.key (s.goto t (.setNext w n)) :=
      fun s n hp hc hn => .of_exec rfl (by rintro _ ⟨⟩; exact hn) (hlink _ n hp hc)
    have hnew : ∀ n, m.Has s n ∨ n = s.brk → m = .retained ∨ Function.update s.live s.brk true n = true := by
      rintro n (hn | rfl)
      · refine hn.imp id fun hn => ?_
        rw [Function.update_apply]
        split
        · rfl
        · exact hn
      · exact .inr (Function.update_self ..)
    exact .of_exec rfl nofun (hset _ _ (hnew _ (.inl hp)) (hnew _ (.inl hc)) (hnew _ (.inr rfl)))
  · exact ends_unlock s false hp hc

/-- `remove` has found its key: the steps up to `delete curr`. -/
theorem solo_mark (key : α → κ) (t : ι) (s : State ι α) (hp : m.Has s w.pred) (hc : m.Has s w.curr) :
    ∃ s', Solo key m t (s.goto t (.mark w)) s' ∧ s'.pc t = .unlockCurr w (some true) ∧
      s'.live = Function.update s.live w.curr false := by
  have hdelete : ∀ s : State ι α, m.Has s w.curr → ∃ s', Solo key m t (s.goto t (.delete w)) s' ∧
      s'.pc t = .unlockCurr w (some true) ∧ s'.live = Function.update s.live w.curr false :=
    fun s hc => ⟨_, .exec rfl (by rintro _ ⟨⟩; exact hc), Function.update_self .., rfl⟩
  -- the states are given: unification would take the one before the statement
  let s₁ := (s.goto t (.mark w)).write w.curr { s.mem w.curr with marked_ := true }
  let s₂ := s₁.goto t (.readNext w)
  let s₃ := (s₂.goto t (.unlink w (s₂.next w.curr))).write w.pred { s₂.mem w.pred with next_ := s₂.next w.curr }
  obtain ⟨s', hs, h⟩ := hdelete s₃ hc
  have hunlink : Solo key m t (s₂.goto t (.unlink w (s₂.next w.curr))) s' :=
    .trans (Solo.exec rfl (by rintro _ ⟨⟩; exact hp)) hs
  have hread : Solo key m t (s₁.goto t (.readNext w)) s' := .trans (Solo.exec rfl (by rintro _ ⟨⟩; exact hc)) hunlink
  exact ⟨s', .trans (Solo.exec rfl (by rintro _ ⟨⟩; exact hc)) hread, h⟩

theorem goto_self (h : s.pc t = p) : s.goto t p = s := by
  rw [State.goto, ← h, Function.update_eq_self]

/-- The key is there: `add` replaces the entry; `remove` returns if the node it has deleted can still be unlocked. -/
theorem ends_isEqual (s : State ι α) (hp : m.Has s w.pred) (hc : m.Has s w.curr) (hm : m = .retained ∨ w.upd = .add) :
    Ends key m t w.upd w.key (s.goto t w.isEqual) := by
  unfold Window.isEqual
  split
  · exact .of_exec rfl (by rintro _ ⟨⟩; exact hc) (ends_unlock _ true hp hc)
  · rename_i hupd
    obtain rfl := hm.resolve_right fun h => by rw [hupd] at h; cases h
    obtain ⟨s', hs, hpc, -⟩ := solo_mark key t s hp hc
    have hend : Ends key .retained t w.upd w.key (s'.goto t (.unlockCurr w (some true))) :=
      ends_unlock s' true (.inl rfl) (.inl rfl)
    rw [goto_self hpc] at hend
    exact hend.of_solo hs

/-- Where deleted nodes are freed, the unlocking of `curr` is undefined. -/
theorem stuck_isEqual (s : State ι α) (hp : s.live w.pred = true) (hc : s.live w.curr = true) (hupd : w.upd = .remove) :
    Stuck key t (s.goto t w.isEqual) := by
  obtain ⟨s', hs, hpc, hlive⟩ := solo_mark (m := .freed) key t s (.inr hp) (.inr hc)
  rw [Window.isEqual, hupd]
  refine ⟨s', hs, by rw [hpc]; exact Option.some_ne_none _, tick_freed (n := w.curr) (by rw [hpc]; rfl) ?_⟩
  rw [hlive, Function.update_self]

/-- After `validate` there is no loop and no lock to wait for. -/
theorem solo_equalL (s : State ι α) (hc : m.Has s w.curr) (hk : key w.key ≤ s.keyOf key w.curr) :
    Solo key m t (s.goto t (.equalL w))
      (s.goto t (if key w.key < s.keyOf key w.curr then w.notEqual else w.isEqual)) := by
  have hleft := solo_readEntry (t := t) (show fetch key (.equalL w) = _ from rfl) hc
  rw [if_neg (mt cmp_iff.1 (not_lt.2 hk))] at hleft
  have hright := solo_readEntry (t := t) (show fetch key (.equalR w) = _ from rfl) hc
  simp only [cmp_iff] at hright
  exact hleft.trans hright

/-- A free lock is taken, and the rest of the list is as it was. -/
theorem solo_lock (hfree : (s.mem n).spinLock_ = none) (hf : fetch key p = .lock n q) (hn : m.Has s n) :
    ∃ s', Solo key m t (s.goto t p) (State.goto s' t q) ∧ s'.live = s.live ∧
      (∀ u, s'.marked u = s.marked u ∧ s'.next u = s.next u ∧ s'.keyOf key u = s.keyOf key u) ∧
      ∀ u, u ≠ n → (s'.mem u).spinLock_ = (s.mem u).spinLock_ := by
  have hmem : (s.write n { s.mem n with spinLock_ := some t }).mem =
      Function.update s.mem n { s.mem n with spinLock_ := some t } := rfl
  refine ⟨s.write n { s.mem n with spinLock_ := some t }, .exec ?_ (by rw [hf]; rintro _ ⟨⟩; exact hn), rfl,
    fun u => ⟨write_same Node.marked_ hmem rfl u, write_same Node.next_ hmem rfl u,
      write_same (fun x => key x.entry_) hmem rfl u⟩, fun u hu => ?_⟩
  · rw [hf, LazyList.exec, goto_mem, hfree]
    dsimp only
    simp only [State.goto, State.write, Function.update_idem]
  · rw [hmem, Function.update_of_ne hu]

/-- Two free locks of unmarked neighbours are taken, and `validate` does not fail. -/
theorem solo_lockPred (key : α → κ) (hne : w.pred ≠ w.curr) (hfree : ∀ n, (s.mem n).spinLock_ = none)
    (hp : s.marked w.pred = false) (hc : s.marked w.curr = false) (hn : s.next w.pred = some w.curr)
    (hpl : m.Has s w.pred) (hcl : m.Has s w.curr) :
    ∃ s', Solo key m t (s.goto t (.lockPred w)) (State.goto s' t (.equalL w)) ∧ s'.live = s.live ∧
      ∀ n, s'.keyOf key n = s.keyOf key n := by
  obtain ⟨s₁, hpred, hlive₁, hsame₁, hlock₁⟩ :=
    solo_lock (t := t) (hfree w.pred) (show fetch key (.lockPred w) = _ from rfl) hpl
  obtain ⟨s₂, hcurr, hlive₂, hsame₂, -⟩ := solo_lock (t := t) ((hlock₁ _ hne.symm).trans (hfree w.curr))
    (show fetch key (.lockCurr w) = _ from rfl) (by rw [Memory.Has, hlive₁]; exact hcl)
  have hlive : s₂.live = s.live := hlive₂.trans hlive₁
  have hpl₂ : m.Has s₂ w.pred := by rw [Memory.Has, hlive]; exact hpl
  have hcl₂ : m.Has s₂ w.curr := by rw [Memory.Has, hlive]; exact hcl
  have hval₁ := solo_readMarked (t := t) (show fetch key (.valPred w) = _ from rfl) hpl₂
  have hval₂ := solo_readMarked (t := t) (show fetch key (.valCurr w) = _ from rfl) hcl₂
  have hval₃ := solo_readNext (t := t) (show fetch key (.valNext w) = _ from rfl) hpl₂
  rw [(hsame₂ _).1, (hsame₁ _).1, hp] at hval₁
  rw [(hsame₂ _).1, (hsame₁ _).1, hc] at hval₂
  rw [(hsame₂ _).2.1, (hsame₁ _).2.1, hn, if_pos rfl] at hval₃
  exact ⟨s₂, (((hpred.trans hcurr).trans hval₁).trans hval₂).trans hval₃, hlive,
    fun n => (hsame₂ n).2.2.trans (hsame₁ n).2.2⟩

/-- What the thread has done so far: the other threads are where they were, and the map is as it was or as the update
leaves it, with the result that has been decided. -/
structure Alone (key : α → κ) (s : State ι α) (t : ι) (o : Upd) (k : α) (s' : State ι α) : Prop where
  inv : Inv key s'
  heap : Heap s'
  pc : ∀ u, u ≠ t → s'.pc u = s.pc u
  head : s'.keyOf key head_ = s.keyOf key head_
  tail : s'.keyOf key tail_ = s.keyOf key tail_
  running : (s'.pc t).call? = some (.update o k) ∨ ∃ r, s'.pc t = .ret (.update o k) r
  effect : ((s'.pc t).phase key s' = none ∧ s'.abs key = s.abs key) ∨
    ∃ b, (s'.pc t).phase key s' = some b ∧ o.apply key k (s.abs key) = (s'.abs key, b)

omit [LinearOrder κ] [DecidableEq ι] in
theorem Window.notEqual_call (w : Window α) : w.notEqual.call? = some (.update w.upd w.key) := by
  unfold Window.notEqual; split <;> rfl

omit [LinearOrder κ] [DecidableEq ι] in
theorem Window.isEqual_call (w : Window α) : w.isEqual.call? = some (.update w.upd w.key) := by
  unfold Window.isEqual; split <;> rfl

/-- A step goes on with the call, returns from it or crashes. -/
theorem exec_call (hs : LazyList.exec s t (fetch key p) = some s') :
    (s'.pc t).call? = p.call? ∨ (∃ c r, p.call? = some c ∧ s'.pc t = .ret c r) ∨ s'.pc t = .crash := by
  have hself : ∀ {s : State ι α} {q : Pc α}, (s.goto t q).pc t = q := fun {s q} => by rw [goto_pc, Function.update_self]
  cases p with
  | idle => cases hs
  | ret => cases hs
  | crash => cases hs
  | lockPred w | lockCurr w =>
    simp only [fetch, LazyList.exec] at hs
    split at hs
    · cases hs
      rw [hself]
      exact .inl rfl
    · cases hs
  | unlockPred w r =>
    cases r with
    | none =>
      cases hs
      rw [hself]
      exact .inl rfl
    | some b =>
      cases hs
      rw [hself]
      exact .inr (.inl ⟨_, _, rfl, rfl⟩)
  | equalL w | equalR w =>
    simp only [fetch, LazyList.exec, Option.some.injEq] at hs
    subst hs
    rw [hself]
    split <;> first
      | exact .inl rfl
      | exact .inl w.notEqual_call
      | exact .inl w.isEqual_call
  | readHead u k | next u k c | getHead k | getNext k c | conNext k c =>
    simp only [fetch, LazyList.exec, deref, Option.some.injEq] at hs
    subst hs
    rw [hself]
    split
    · exact .inl rfl
    · exact .inr (.inr rfl)
  | _ =>
    simp only [fetch, LazyList.exec, Option.some.injEq] at hs
    subst hs
    rw [hself]
    first
      | exact .inl rfl
      | exact .inr (.inl ⟨_, _, rfl, rfl⟩)
      | (split <;> first | exact .inl rfl | exact .inr (.inl ⟨_, _, rfl, rfl⟩))

theorem Alone.step (h : Alone key s t o k s') (hs : LazyList.step key s' (.tick t) = some s'') :
    Alone key s t o k s'' := by
  have hinv := h.inv.step hs
  have hcall : (s'.pc t).call? = some (.update o k) := by
    refine h.running.resolve_right ?_
    rintro ⟨r, hp⟩
    rw [LazyList.step, hp] at hs
    cases hs
  refine ⟨hinv, h.heap.step h.inv hs, fun u hu => ?_, (h.inv.step_keyOf hs (.inl rfl)).trans h.head,
    (h.inv.step_keyOf hs (.inr (.inl rfl))).trans h.tail, ?_, ?_⟩
  · obtain ⟨p, hp⟩ := exec_pc hs
    rw [hp, Function.update_of_ne hu, h.pc u hu]
  · rcases exec_call hs with hc | ⟨c, r, hc, hp⟩ | hp
    · exact .inl (hc.trans hcall)
    · rw [hcall] at hc
      cases hc
      exact .inr ⟨r, hp⟩
    · have hloc := hinv.loc t
      rw [hp] at hloc
      exact hloc.elim
  · rcases phase_own h.inv hs hcall with ⟨hp, habs⟩ | ⟨b, hnone, hp, happ, -⟩
    · rw [hp, habs]
      exact h.effect
    · rcases h.effect with ⟨-, habs⟩ | ⟨b', hsome, -⟩
      · exact .inr ⟨b, hp, habs ▸ happ⟩
      · rw [hnone] at hsome
        cases hsome

theorem Alone.solo (h : Alone key s t o k s') (hs : Solo key m t s' s'') : Alone key s t o k s'' := by
  induction hs with
  | refl => exact h
  | tail _ hst ih => exact ih.step (tick_step hst)

/-! ## The calls -/

/-- Where a traversal behind `head_` stops. -/
structure Stop (key : α → κ) (s : State ι α) (k : α) (p c : Ref) : Prop where
  pred_mem : p ∈ head_ :: s.chain
  pred_lt : p ≠ head_ → s.keyOf key p < key k
  next : s.next p = some c
  curr_mem : c ∈ s.chain ∨ c = tail_
  le_curr : key k ≤ s.keyOf key c

omit [DecidableEq ι] in
theorem Stop.curr_ne_head {p c : Ref} (hw : Stop key s k p c) (h : Inv key s) : c ≠ head_ := by
  rcases hw.curr_mem with hc | rfl
  · exact (h.shape.linked c hc).ne_head
  · simp [head_, tail_]

omit [DecidableEq ι] in
theorem Stop.ne {p c : Ref} (hw : Stop key s k p c) (h : Inv key s) : p ≠ c := by
  rintro rfl
  exact absurd hw.le_curr (not_le.2 (hw.pred_lt (hw.curr_ne_head h)))

omit [DecidableEq ι] in
theorem Stop.curr_unmarked {p c : Ref} (hw : Stop key s k p c) (h : Inv key s) (hr : s.AtRest) :
    s.marked c = false := by
  rcases hw.curr_mem with hc | rfl
  · exact hr.unmarked h (List.mem_cons_of_mem _ hc)
  · exact h.shape.tail

omit [DecidableEq ι] in
/-- The traversal has found the key, or there is none. -/
theorem Stop.abs_eq {p c : Ref} (hw : Stop key s k p c) (h : Inv key s) (hr : s.AtRest)
    (hk : key k < s.keyOf key tail_) :
    s.abs key (key k) = if key k < s.keyOf key c then none else some (s.mem c).entry_ := by
  split
  · rename_i hlt
    exact h.abs_none_between hw.pred_mem hw.pred_lt hw.next hlt
  · rename_i hlt
    have heq : s.keyOf key c = key k := le_antisymm (not_lt.1 hlt) hw.le_curr
    have hc : c ∈ s.chain := by
      refine hw.curr_mem.resolve_right ?_
      rintro rfl
      exact absurd hk (by rw [heq]; exact lt_irrefl _)
    exact (hr.abs_eq_some h).2 ⟨c, hc, heq, rfl⟩

omit [DecidableEq ι] in
theorem Stop.live {p c : Ref} (hw : Stop key s k p c) (hh : Heap s) : s.live p = true ∧ s.live c = true := by
  refine ⟨hh.list p ?_, hh.list c (List.mem_cons_of_mem _ ?_)⟩
  · exact (List.mem_cons.1 hw.pred_mem).elim (fun e => e ▸ List.mem_cons_self) fun hp =>
      List.mem_cons_of_mem _ (List.mem_append_left _ hp)
  · exact hw.curr_mem.elim (List.mem_append_left _) fun e => e ▸ List.mem_append_right _ List.mem_cons_self

/-- The traversals, from the test at the first node on. -/
theorem walk_head (h : Inv key s) (hh : Heap s) (hk : key k < s.keyOf key tail_) {L E : Ref → Ref → Pc α}
    {N : Ref → Pc α}
    (hL : ∀ p c, fetch key (L p c) = .readEntry c fun e => if cmp key e k then N c else E p c)
    (hN : ∀ c, fetch key (N c) = .readNext c fun m => deref m fun c' => L c c') :
    ∃ p c, Solo key m t (s.goto t (deref (s.next head_) (L head_))) (s.goto t (E p c)) ∧ Stop key s k p c := by
  obtain ⟨c₀, -, hn₀⟩ := h.shape.path.succ head_ List.mem_cons_self
  obtain ⟨p, c, hsolo, hp, hpk, hnext, hck⟩ := walk (m := m) hL hN h.shape.path hn₀ (le_of_lt hk) fun n hn =>
    hh.has (List.mem_cons_of_mem _ hn)
  obtain ⟨c', hc', hn'⟩ := h.shape.path.succ p hp
  obtain rfl : c = c' := Option.some.inj (hnext.symm.trans hn')
  rw [hn₀]
  exact ⟨p, c, hsolo, hp, hpk.resolve_left, hnext, by simpa using hc', hck⟩

/-- What a call that runs alone has returned, and the state it leaves: at rest, with the map `f`. -/
structure Returned (key : α → κ) (m : Memory) (s : State ι α) (t : ι) (c : Call α) (r : Result α) (f : κ → Option α)
    (s' : State ι α) : Prop where
  inv : Inv key s'
  heap : Heap s'
  rest : s'.AtRest
  head : s'.keyOf key head_ = s.keyOf key head_
  tail : s'.keyOf key tail_ = s.keyOf key tail_
  abs : s'.abs key = f
  call : ∃ n, ∀ fuel, n ≤ fuel → s.call key m t fuel c = some (r, s')

theorem State.AtRest.call (hr : s.AtRest) (h : Inv key s) {c : Call α} {r : Result α}
    (hc : key c.arg < s.keyOf key tail_) (hsolo : Solo key m t (s.goto t c.entry) s') (hp : s'.pc t = .ret c r) :
    ∃ n, ∀ fuel, n ≤ fuel → s.call key m t fuel c = some (r, s') := by
  obtain ⟨n, hn⟩ := hsolo.finish hp
  refine ⟨n, fun fuel hf => ?_⟩
  rw [State.call, hr.invoke h hc]
  exact hn fuel hf

theorem State.AtRest.goto (hr : s.AtRest) (hp : p.call? = none) : (s.goto t p).AtRest := by
  intro u
  rw [goto_pc, Function.update_apply]
  split
  · exact hp
  · exact hr u

theorem Inv.solo (h : Inv key s) (hh : Heap s) (hs : Solo key m t s s') : Inv key s' ∧ Heap s' := by
  induction hs with
  | refl => exact ⟨h, hh⟩
  | tail _ hst ih => exact ⟨ih.1.step (tick_step hst), ih.2.step ih.1 (tick_step hst)⟩

/-- A call that only reads. -/
theorem State.AtRest.returned (hr : s.AtRest) (h : Inv key s) (hh : Heap s) {c : Call α} {r : Result α}
    (hc : key c.arg < s.keyOf key tail_) (hsolo : Solo key m t (s.goto t c.entry) (s.goto t (.ret c r))) :
    Returned key m s t c r (s.abs key) (s.goto t (.ret c r)) where
  inv := ((h.step (hr.invoke h hc)).solo (hh.step h (hr.invoke h hc)) hsolo).1
  heap := ((h.step (hr.invoke h hc)).solo (hh.step h (hr.invoke h hc)) hsolo).2
  rest := hr.goto rfl
  head := rfl
  tail := rfl
  abs := rfl
  call := hr.call h hc hsolo (by rw [goto_pc, Function.update_self])

/-- An update comes to the test of the node where its traversal stops, with both locks. -/
theorem solo_update (h : Inv key s) (hh : Heap s) (hr : s.AtRest) (hk : key k < s.keyOf key tail_) (t : ι) (o : Upd) :
    ∃ p c s', Solo key m t (s.goto t (.readHead o k))
        (State.goto s' t
          (if key k < s.keyOf key c then Window.notEqual ⟨o, k, p, c⟩ else Window.isEqual ⟨o, k, p, c⟩)) ∧
      Stop key s k p c ∧ s'.live = s.live := by
  obtain ⟨p, c, hwalk, hw⟩ := walk_head (m := m) (t := t) h hh hk
    (L := fun p c => .loop ⟨o, k, p, c⟩) (E := fun p c => .lockPred ⟨o, k, p, c⟩) (N := fun c => .next o k c)
    (fun _ _ => rfl) (fun _ => rfl)
  obtain ⟨hp, hc⟩ := hw.live hh
  have hread := solo_readNext (m := m) (t := t) (show fetch key (.readHead o k) = _ from rfl)
    (hh.has List.mem_cons_self)
  obtain ⟨s', hlock, hlive, hkey⟩ := solo_lockPred key (m := m) (t := t) (w := ⟨o, k, p, c⟩) (hw.ne h)
    (hr.unlocked h) (hr.unmarked h hw.pred_mem) (hw.curr_unmarked h hr) hw.next (.inr hp) (.inr hc)
  have hequal := solo_equalL (m := m) (t := t) (w := ⟨o, k, p, c⟩) s' (.inr (by rw [hlive]; exact hc))
    (by rw [hkey]; exact hw.le_curr)
  rw [hkey] at hequal
  exact ⟨p, c, s', ((hread.trans hwalk).trans hlock).trans hequal, hw, hlive⟩

/-- `add` and `remove` return what the sequential operation returns on the map, and leave what it leaves, but for a
`remove` that finds its key where deleted nodes are freed. -/
theorem update_alone (h : Inv key s) (hh : Heap s) (hr : s.AtRest) (hk : key k < s.keyOf key tail_) (t : ι) (o : Upd)
    (hm : (m = .retained ∨ o = .add) ∨ s.abs key (key k) = none) :
    ∃ s', Returned key m s t (.update o k) (.bool (o.apply key k (s.abs key)).2) (o.apply key k (s.abs key)).1 s' := by
  obtain ⟨p, c, u, hsolo, hw, hlive⟩ := solo_update (m := m) h hh hr hk t o
  have hp : m.Has u p := .inr (by rw [hlive]; exact (hw.live hh).1)
  have hc : m.Has u c := .inr (by rw [hlive]; exact (hw.live hh).2)
  have hends : Ends key m t o k (s.goto t (.readHead o k)) := by
    refine Ends.of_solo ?_ hsolo
    split
    · exact ends_notEqual (w := ⟨o, k, p, c⟩) u hp hc
    · rename_i hlt
      refine ends_isEqual (w := ⟨o, k, p, c⟩) u hp hc (hm.resolve_right ?_)
      rw [hw.abs_eq h hr hk, if_neg hlt]
      exact Option.some_ne_none _
  obtain ⟨s', b, hsolo, hp⟩ := hends
  have hinvoke := hr.invoke (t := t) (c := .update o k) h hk
  have halone : Alone key s t o k (s.goto t (.readHead o k)) :=
    ⟨h.step hinvoke, hh.step h hinvoke, fun u hu => Function.update_of_ne hu .., rfl, rfl,
      .inl (by rw [goto_pc, Function.update_self]; rfl), .inl ⟨by rw [goto_pc, Function.update_self]; rfl, rfl⟩⟩
  have hend := halone.solo hsolo
  obtain ⟨b', hb', happ⟩ : ∃ b', some b = some b' ∧ o.apply key k (s.abs key) = (s'.abs key, b') := by
    have heff := hend.effect
    rw [hp] at heff
    refine heff.resolve_left fun h => ?_
    have hnone := h.1
    cases hnone
  cases hb'
  rw [happ]
  refine ⟨s', hend.inv, hend.heap, fun u => ?_, hend.head, hend.tail, rfl, hr.call h hk hsolo hp⟩
  by_cases hu : u = t
  · rw [hu, hp]; rfl
  · rw [hend.pc u hu]; exact hr u

/-- A `remove` that finds its key does not return where deleted nodes are freed. -/
theorem remove_stuck (h : Inv key s) (hh : Heap s) (hr : s.AtRest) (hk : key k < s.keyOf key tail_)
    (habs : s.abs key (key k) ≠ none) (t : ι) (fuel : ℕ) : s.call key .freed t fuel (.update .remove k) = none := by
  obtain ⟨p, c, u, hsolo, hw, hlive⟩ := solo_update (m := .freed) h hh hr hk t .remove
  rw [hw.abs_eq h hr hk] at habs
  rw [if_neg fun hlt => habs (if_pos hlt)] at hsolo
  obtain ⟨s', hs, hp, htick⟩ := (stuck_isEqual (w := ⟨.remove, k, p, c⟩) u (by rw [hlive]; exact (hw.live hh).1)
    (by rw [hlive]; exact (hw.live hh).2) rfl).of_solo hsolo
  rw [State.call, hr.invoke (c := .update .remove k) h hk]
  exact hs.finish_none hp htick fuel

theorem get_alone (h : Inv key s) (hh : Heap s) (hr : s.AtRest) (hk : key k < s.keyOf key tail_) (t : ι) :
    ∃ s', Returned key m s t (.get k) (.entry (s.abs key (key k))) (s.abs key) s' := by
  obtain ⟨p, c, hwalk, hw⟩ := walk_head (m := m) (t := t) h hh hk
    (L := fun _ c => .getLoop k c) (E := fun _ c => .getMarked k c) (N := fun c => .getNext k c)
    (fun _ _ => rfl) (fun _ => rfl)
  have hc : m.Has s c := .inr (hw.live hh).2
  have hread := solo_readNext (m := m) (t := t) (show fetch key (.getHead k) = _ from rfl) (hh.has List.mem_cons_self)
  have hmarked := solo_readMarked (t := t) (show fetch key (.getMarked k c) = _ from rfl) hc
  rw [hw.curr_unmarked h hr] at hmarked
  have hleft := solo_readEntry (t := t) (show fetch key (.getEqualL k c) = _ from rfl) hc
  rw [if_neg (mt cmp_iff.1 (not_lt.2 hw.le_curr))] at hleft
  have hright := solo_readEntry (t := t) (show fetch key (.getEqualR k c) = _ from rfl) hc
  rw [hw.abs_eq h hr hk]
  have hsolo := ((Relation.ReflTransGen.trans hread hwalk).trans hmarked).trans hleft
  by_cases hlt : key k < s.keyOf key c
  · rw [if_pos (cmp_iff.2 hlt)] at hright
    rw [if_pos hlt]
    exact ⟨_, hr.returned h hh hk (hsolo.trans hright)⟩
  · rw [if_neg (mt cmp_iff.1 hlt)] at hright
    rw [if_neg hlt]
    have hentry := solo_readEntry (t := t) (show fetch key (.getEntry k c) = _ from rfl) hc
    exact ⟨_, hr.returned h hh hk ((hsolo.trans hright).trans hentry)⟩

/-- `contains` at an unmarked node with a key that is not below `k`. -/
theorem solo_conEqualL {c : Ref} (hm : s.marked c = false) (hc : key k ≤ s.keyOf key c) (hl : m.Has s c) :
    Solo key m t (s.goto t (.conEqualL k c))
      (s.goto t (.ret (.contains k) (.bool (!decide (key k < s.keyOf key c))))) := by
  have hleft := solo_readEntry (t := t) (show fetch key (.conEqualL k c) = _ from rfl) hl
  rw [if_neg (mt cmp_iff.1 (not_lt.2 hc))] at hleft
  have hright := solo_readEntry (t := t) (show fetch key (.conEqualR k c) = _ from rfl) hl
  have hmarked := solo_readMarked (t := t) (show fetch key (.conMarked k c) = _ from rfl) hl
  rw [hm] at hmarked
  by_cases hlt : key k < s.keyOf key c
  · rw [if_pos (cmp_iff.2 hlt)] at hright
    rw [decide_eq_true hlt]
    exact hleft.trans hright
  · rw [if_neg (mt cmp_iff.1 hlt)] at hright
    rw [decide_eq_false hlt]
    exact (hleft.trans hright).trans hmarked

/-- What `contains` returns: the walk stops at `head_` if the key of its entry is not below `k`. -/
def State.containsAnswer (key : α → κ) (s : State ι α) (k : α) : Bool :=
  if s.keyOf key head_ < key k then (s.abs key (key k)).isSome else decide (key k = s.keyOf key head_)

theorem contains_alone (h : Inv key s) (hh : Heap s) (hr : s.AtRest) (hk : key k < s.keyOf key tail_) (t : ι) :
    ∃ s', Returned key m s t (.contains k) (.bool (s.containsAnswer key k)) (s.abs key) s' := by
  have hhead : m.Has s head_ := hh.has List.mem_cons_self
  have htest := solo_readEntry (t := t) (show fetch key (.conLoop k head_) = _ from rfl) hhead
  rw [State.containsAnswer]
  split
  · rename_i hlt
    rw [if_pos (cmp_iff.2 hlt)] at htest
    obtain ⟨p, c, hwalk, hw⟩ := walk_head (m := m) (t := t) h hh hk
      (L := fun _ c => .conLoop k c) (E := fun _ c => .conEqualL k c) (N := fun c => .conNext k c)
      (fun _ _ => rfl) (fun _ => rfl)
    have hnext := solo_readNext (t := t) (show fetch key (.conNext k head_) = _ from rfl) hhead
    have hend := solo_conEqualL (m := m) (t := t) (hw.curr_unmarked h hr) hw.le_curr (.inr (hw.live hh).2)
    have hsome : (s.abs key (key k)).isSome = !decide (key k < s.keyOf key c) := by
      rw [hw.abs_eq h hr hk]
      split <;> rename_i hc <;> simp [hc]
    rw [hsome]
    exact ⟨_, hr.returned h hh hk (((htest.trans hnext).trans hwalk).trans hend)⟩
  · rename_i hlt
    rw [if_neg (mt cmp_iff.1 hlt)] at htest
    have hend := solo_conEqualL (t := t) h.shape.head (not_lt.1 hlt) hhead
    have hdec : decide (key k = s.keyOf key head_) = !decide (key k < s.keyOf key head_) := by
      rw [← decide_not, decide_eq_decide, not_lt]
      exact ⟨fun e => le_of_eq e.symm, fun hle => le_antisymm (not_lt.1 hlt) hle⟩
    rw [hdec]
    exact ⟨_, hr.returned h hh hk (htest.trans hend)⟩

/-- The map after a call. -/
def Call.after (key : α → κ) (m : κ → Option α) : Call α → κ → Option α
  | .update o k => (o.apply key k m).1
  | .get _ | .contains _ => m

/-- What a call returns. -/
def State.answer (key : α → κ) (s : State ι α) : Call α → Result α
  | .update o k => .bool (o.apply key k (s.abs key)).2
  | .get k => .entry (s.abs key (key k))
  | .contains k => .bool (s.containsAnswer key k)

/-- Every call returns where deleted nodes are kept, and elsewhere one that deletes none. -/
theorem call_alone (h : Inv key s) (hh : Heap s) (hr : s.AtRest) {c : Call α}
    (hc : key c.arg < s.keyOf key tail_) (t : ι)
    (hm : m = .retained ∨ ∀ k, c = .update .remove k → s.abs key (key k) = none) :
    ∃ s', Returned key m s t c (s.answer key c) (c.after key (s.abs key)) s' := by
  cases c with
  | update o k =>
    refine update_alone h hh hr hc t o ?_
    cases o with
    | add => exact .inl (.inr rfl)
    | remove => exact hm.imp .inl fun hm => hm k rfl
  | get k => exact get_alone h hh hr hc t
  | contains k => exact contains_alone h hh hr hc t

/-- More fuel makes no other end of a call. -/
theorem State.call_mono {c : Call α} {x : Result α × State ι α} {i j : ℕ} (h : s.call key m t i c = some x)
    (hi : i ≤ j) : s.call key m t j c = some x := by
  obtain ⟨u, hu, hf⟩ := Option.bind_eq_some_iff.1 h
  rw [State.call, hu]
  exact State.finish_mono hf hi

/-! ## Lists of the `max_val` constructor -/

variable [Inhabited α] {maxVal : α}

/-- Between calls: at rest, with the two sentinels of the constructor. -/
structure Ready (key : α → κ) (maxVal : α) (s : State ι α) : Prop where
  inv : Inv key s
  heap : Heap s
  rest : s.AtRest
  head : s.keyOf key head_ = key default
  tail : s.keyOf key tail_ = key maxVal

omit [DecidableEq ι] in
theorem ready_init (key : α → κ) (maxVal : α) : Ready key maxVal (State.init maxVal : State ι α) where
  inv := inv_init maxVal
  heap := heap_init maxVal
  rest _ := rfl
  head := rfl
  tail := rfl

theorem Returned.ready {c : Call α} {r : Result α} {f : κ → Option α} (h : Returned key m s t c r f s')
    (hs : Ready key maxVal s) : Ready key maxVal s' :=
  ⟨h.inv, h.heap, h.rest, h.head.trans hs.head, h.tail.trans hs.tail⟩

/-- A list that any interleaving of calls leaves. -/
theorem Ready.of_reach (h : Lts.Reach (threads key maxVal) s) (hr : s.AtRest) : Ready key maxVal s := by
  have hinit : ∀ s : State ι α, (threads key maxVal).init s → s.keyOf key head_ = key default ∧
      s.keyOf key tail_ = key maxVal := by
    rintro _ rfl
    exact ⟨rfl, rfl⟩
  obtain ⟨hhead, htail⟩ := h.invariant hinit fun s a s' hreach hi hs =>
    ⟨((reach_inv hreach).step_keyOf hs (.inl rfl)).trans hi.1,
      ((reach_inv hreach).step_keyOf hs (.inr (.inl rfl))).trans hi.2⟩
  exact ⟨reach_inv h, reach_heap h, hr, hhead, htail⟩

end Solo

end Libeva.Ds.LazyList
