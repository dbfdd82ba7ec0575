import Libeva.TimeWheel.Slots

/-!
# `cancel`

`cancel` on the reactor's thread, outside of `tock` or in a callback; from another thread it runs as a functor, outside
of `tock`. `addTimer` does not set `pre_`, and so only the head of a list can be unlinked.

* `cancelInReactor` is the code, `Op` adds it to the statements of the wheel.
* `Linkage` is the invariant: the lists hang, whatever is added and when; what is pushed on the walked slot is in none.
* `State.Hung` are the timers in the lists, `State.Removes` is what is promised of `cancel`, and `State.Heads` the
  condition.
-/

namespace Libeva.TimeWheel

open Linked

variable {n : Buckets} {w : TimeWheel} {x j : ℕ}

/-- The object that a pointer points to. -/
def pointee (p : Option ℕ) : Except Halt ℕ :=
  match p with
  | some x => .ok x
  | none => .error .undefined

/-- `slot_[ i ]` -/
def slotGet (n : Buckets) (w : TimeWheel) (i : ℤ) : Except Halt (Option ℕ) :=
  if 0 ≤ i ∧ i < n.numSlot_ then .ok (w.slot_ i.toNat) else .error .undefined

def setPre (w : TimeWheel) (timer : ℕ) (pre : Option ℕ) : TimeWheel :=
  { w with timers := Function.update w.timers timer { w.timers timer with pre_ := pre } }

def cancelInReactor (n : Buckets) (w : TimeWheel) (timer : ℕ) : Except Halt TimeWheel := do
  let t ← w.deref timer
  if (← w.slotGet n t.index_) = some timer then
    .ok ((w.setSlot t.index_.toNat t.next_).delete timer)
  else
    let pre ← pointee t.pre_
    let _ ← w.deref pre
    let w := w.setNext pre t.next_
    let t ← w.deref timer
    let next ← pointee t.next_
    let _ ← w.deref next
    .ok ((w.setPre next t.pre_).delete timer)

/-- A statement of the wheel, or a `cancel`. -/
inductive Op
  | stmt (a : Action)
  | cancel (timer : ℕ)

def State.cancel (n : Buckets) (s : State) (timer : ℕ) : State :=
  match s.wheel.cancelInReactor n timer with
  | .ok w => { s with wheel := w }
  | .error e => { s with pc := .halted e }

def opStep (n : Buckets) (s : State) : Op → Option State
  | .stmt a => step n s a
  | .cancel timer =>
    match s.pc with
    | .outside _ | .callback _ _ => some (s.cancel n timer)
    | .loop _ | .walk _ _ | .halted _ => none

/-- The runs of a wheel whose timers may be cancelled. -/
def cancelWheel (n : Buckets) (now : ℤ) : Lts.System State Op := Lts.ofFun (init now) (opStep n)

namespace State

/-- The lists that `tock` goes on with, the walked one from its `head` on. -/
def Lists (n : Buckets) (s : State) (L : ℕ → List ℕ) : Prop :=
  ∀ j < n.numSlot_, Chain s.wheel.getNext (s.pc.top s.wheel j) (L j)

/-- The timer is in one of the lists. -/
def Hung (n : Buckets) (s : State) (x : ℕ) : Prop := ∃ L, s.Lists n L ∧ ∃ j < n.numSlot_, x ∈ L j

/-- `cancel` follows no null pointer, and takes the timer out of its list and nothing else out of any list. -/
def Removes (n : Buckets) (s : State) (x : ℕ) : Prop :=
  ∃ w, s.wheel.cancelInReactor n x = .ok w ∧
    ∀ L, s.Lists n L → Lists n { s with wheel := w } fun j => (L j).erase x

/-- The timer is the head of its slot, and `tock` is not walking it. -/
def Heads (n : Buckets) (s : State) (x : ℕ) : Prop :=
  0 ≤ (s.wheel.timers x).index_ ∧ (s.wheel.timers x).index_ < n.numSlot_ ∧
    s.wheel.slot_ (s.wheel.timers x).index_.toNat = some x ∧
    (s.pc.Walks → (s.wheel.timers x).index_ ≠ s.wheel.startIdx_)

end State

/-! ## Additions -/

/-- An addition to the walked slot is not seen by the loop over its list. -/
theorem Pc.top_push_walked (pc : Pc) (hw : pc.Walks) : pc.top (w.push x w.startIdx_) = pc.top w := by
  cases pc with
  | outside last | loop f | halted e => exact hw.elim
  | walk f head => exact Function.update_idem ..
  | callback f head => exact Function.update_idem ..

/-- Whatever slot a timer is pushed on, the lists hang. -/
theorem Hangs.push_any (pc : Pc) {P : ℕ → Prop} {L : ℕ → List ℕ} (h : Hangs n w (pc.top w) P L)
    (hj : j < n.numSlot_) (hx : ¬P x) :
    ∃ Q L', Hangs n (w.push x j) (pc.top (w.push x j)) Q L' ∧ ∀ y, Q y → P y ∨ y = x := by
  by_cases hw : pc.Walks ∧ j = w.startIdx_
  · obtain ⟨hw, rfl⟩ := hw
    refine ⟨P, L, ?_, fun y hy => .inl hy⟩
    rw [pc.top_push_walked hw]
    refine h.congr fun y hy => ?_
    rw [timers_push, if_neg (show y ≠ x from fun e => hx (e ▸ hy))]
  · have hne : pc.Walks → j ≠ w.startIdx_ := fun hp he => hw ⟨hp, he⟩
    have hpush := h.push hj (Pc.top_eq pc hne) hx
    rw [← Pc.top_push pc hne] at hpush
    exact ⟨_, _, hpush, fun y hy => hy⟩

/-! ## The invariant -/

structure Linkage (n : Buckets) (s : State) : Prop where
  startIdx_lt : s.wheel.startIdx_ < n.numSlot_
  pre : ∀ x, (s.wheel.timers x).pre_ = none
  created : ∀ x ∈ s.wheel.deleted, x < s.wheel.numCreated_
  hangs : ∃ P L, Hangs n s.wheel (s.pc.top s.wheel) P L ∧ ∀ y, P y → s.wheel.Live y

section Linkage

variable {s s' : State} {a : Action} {c : Call} {f : Sweep} {pc : Pc} {head : ℕ} {now : ℤ}

theorem pre_setNext (p : Option ℕ) (y : ℕ) : ((w.setNext x p).timers y).pre_ = (w.timers y).pre_ :=
  field_setNext Timer.pre_ (fun _ _ => rfl) p y

theorem pre_push (y : ℕ) : ((w.push x j).timers y).pre_ = (w.timers y).pre_ :=
  field_push Timer.pre_ (fun _ _ _ => rfl) y

theorem Linkage.hangs_of (h : Linkage n s) (hp : s.pc = pc) :
    ∃ P L, Hangs n s.wheel (pc.top s.wheel) P L ∧ ∀ y, P y → s.wheel.Live y := hp ▸ h.hangs

/-- The same wheel at another point with the same lists. -/
theorem Linkage.goto (h : Linkage n s) (hp : pc.top s.wheel = s.pc.top s.wheel) (fired : List (ℕ × ℤ)) :
    Linkage n { s with pc := pc, fired := fired } := by
  obtain ⟨P, L, hL, hP⟩ := h.hangs
  exact { h with hangs := ⟨P, L, hp ▸ hL, hP⟩ }

theorem Linkage.call (h : Linkage n s) (hp : ∀ w, pc.top w = s.pc.top w) :
    Linkage n (s.call n c now pc) ∨ ∃ e, (s.call n c now pc).pc = .halted e := by
  rw [State.call]
  split
  · rename_i w hw
    left
    obtain ⟨j, hj, rfl⟩ := addTimer_ok hw
    obtain ⟨P, L, hL, hP⟩ := h.hangs
    have hnew : ∀ y, P y → y ≠ s.wheel.numCreated_ := fun y hy => (hP y hy).1.ne
    have hL' : Hangs n (s.wheel.new (c.when now) c.interval) (s.pc.top s.wheel) P L :=
      hL.congr fun y hy => by rw [timers_new, if_neg (hnew y hy)]
    obtain ⟨Q, L', hQ, hQP⟩ := Hangs.push_any s.pc hL' hj fun hx => hnew _ hx rfl
    refine ⟨h.startIdx_lt, fun y => ?_, fun y hy => (h.created y hy).trans (Nat.lt_succ_self _), Q, L', ?_,
      fun y hy => ?_⟩
    · refine (pre_push y).trans ?_
      rw [timers_new]
      split
      · rfl
      · exact h.pre y
    · rw [hp]
      exact hQ
    · rcases hQP y hy with hy | rfl
      · exact ⟨(hP y hy).1.trans (Nat.lt_succ_self _), (hP y hy).2⟩
      · exact ⟨Nat.lt_succ_self _, fun hm => lt_irrefl _ (h.created _ hm)⟩
  · exact .inr ⟨_, rfl⟩

theorem Linkage.incr (h : Linkage n { s with pc := .loop { f with i := f.i + 1 } }) :
    Linkage n (s.incr f) ∨ ∃ e, (s.incr f).pc = .halted e := by
  rw [State.incr, int]
  split
  · rename_i i hi
    split at hi
    · cases hi
      exact .inl h
    · cases hi
  · exact .inr ⟨_, rfl⟩

theorem Linkage.advance (h : Linkage n s) (hp : s.pc = .loop f) :
    Linkage n (s.advance n f) ∨ ∃ e, (s.advance n f).pc = .halted e := by
  obtain ⟨P, L, hL, hP⟩ := h.hangs_of hp
  have hlt : (s.wheel.startIdx_ + 1) % n.numSlot_ < n.numSlot_ := Nat.mod_lt _ n.pos
  rw [State.advance]
  dsimp only
  split
  · rename_i head hh
    left
    refine ⟨hlt, h.pre, h.created, P, L, ?_, hP⟩
    have htop : Function.update s.wheel.slot_ ((s.wheel.startIdx_ + 1) % n.numSlot_) (some head) = s.wheel.slot_ := by
      rw [← hh, Function.update_eq_self]
    dsimp only [Pc.top]
    rw [htop]
    exact hL.congr fun _ _ => rfl
  · exact Linkage.incr ⟨hlt, h.pre, h.created, P, L, hL.congr fun _ _ => rfl, hP⟩

theorem Linkage.ret (h : Linkage n s) (hp : s.pc = .callback f head) :
    Linkage n (s.ret n f head now) ∨ ∃ e, (s.ret n f head now).pc = .halted e := by
  obtain ⟨P, L, hL, hP⟩ := h.hangs_of hp
  obtain ⟨hhead, l, -, hpop⟩ := hL.pop_callback h.startIdx_lt
  rw [State.ret]
  split
  · rename_i w next hw
    left
    obtain ⟨rfl, rfl | ⟨j, hj, rfl⟩⟩ := afterRun_ok hw
    · refine ⟨h.startIdx_lt, fun y => (pre_setNext none y).trans (h.pre y), fun y hy => ?_, _, _,
        hpop.congr fun _ _ => rfl, fun y hy => ⟨(hP y hy.1).1, fun hm => ?_⟩⟩
      · rcases List.mem_cons.1 hy with rfl | hy
        · exact (hP y hhead).1
        · exact h.created y hy
      · rcases List.mem_cons.1 hm with he | hm
        · exact hy.2 he
        · exact (hP y hy.1).2 hm
    · obtain ⟨Q, L', hQ, hQP⟩ := Hangs.push_any (w := s.wheel.setNext head none) (.walk f (s.wheel.getNext head))
        (x := head) hpop hj fun hx => hx.2 rfl
      refine ⟨h.startIdx_lt, fun y => ?_, h.created, Q, L', hQ, fun y hy => ?_⟩
      · exact ((pre_push y).trans (pre_setNext none y)).trans (h.pre y)
      · rcases hQP y hy with hy | rfl
        · exact hP y hy.1
        · exact hP y hhead
  · exact .inr ⟨_, rfl⟩

/-- One statement keeps the invariant, or ends the process. -/
theorem Linkage.stmt (h : Linkage n s) (hs : Stmt n s a s') : Linkage n s' ∨ ∃ e, s'.pc = .halted e := by
  cases hs with
  | call hp => exact h.call fun w => by rw [hp]; rfl
  | callback hp => exact h.call fun w => by rw [hp]
  | tock hp =>
    rw [State.tock]
    split
    · exact .inl (h.goto (by rw [hp]; rfl) s.fired)
    · exact .inr ⟨_, rfl⟩
  | advance hp hi => exact h.advance hp
  | outside hp hi => exact .inl (h.goto (by rw [hp]; rfl) s.fired)
  | @run now f head hp =>
    rw [State.run]
    split
    · split
      · exact .inl (h.goto (by rw [hp]; rfl) _)
      · exact .inr ⟨_, rfl⟩
    · exact .inr ⟨_, rfl⟩
  | @walked now f hp =>
    obtain ⟨P, L, hL, hP⟩ := h.hangs_of hp
    exact Linkage.incr ⟨h.startIdx_lt, h.pre, h.created, P, L, hL.congr fun _ _ => rfl, hP⟩
  | ret hp => exact h.ret hp

/-! ## The two branches of `cancel` -/

theorem slotGet_eq (hj : j < n.numSlot_) : w.slotGet n j = .ok (w.slot_ j) := by
  rw [slotGet, if_pos ⟨by omega, by omega⟩, Int.toNat_natCast]

theorem cancel_head (hx : w.Live x) (hj : j < n.numSlot_) (hi : (w.timers x).index_ = j) (hs : w.slot_ j = some x) :
    w.cancelInReactor n x = .ok ((w.setSlot j (w.getNext x)).delete x) := by
  rw [cancelInReactor, deref, if_pos hx, ok_bind, hi, slotGet_eq hj, ok_bind, if_pos hs, Int.toNat_natCast]
  rfl

/-- A timer that is not the head has a null `pre_`, which `cancel` dereferences. -/
theorem cancel_inner (hx : w.Live x) (hj : j < n.numSlot_) (hi : (w.timers x).index_ = j)
    (hs : w.slot_ j ≠ some x) (hpre : (w.timers x).pre_ = none) : w.cancelInReactor n x = .error .undefined := by
  rw [cancelInReactor, deref, if_pos hx, ok_bind, hi, slotGet_eq hj, ok_bind, if_neg hs, hpre]
  rfl

theorem Pc.top_setSlot (pc : Pc) (p : Option ℕ) (hj : pc.Walks → j ≠ w.startIdx_) :
    pc.top (w.setSlot j p) = Function.update (pc.top w) j p := by
  cases pc with
  | outside last | loop f | halted e => rfl
  | walk f head | callback f head => exact Function.update_comm (hj trivial) ..

theorem Pc.top_setSlot_walked (pc : Pc) (p : Option ℕ) (hw : pc.Walks) :
    pc.top (w.setSlot w.startIdx_ p) = pc.top w := by
  cases pc with
  | outside last | loop f | halted e => exact hw.elim
  | walk f head | callback f head => exact Function.update_idem ..

/-- The head of a slot that is not walked is cancelled. -/
theorem Hangs.cancel {P : ℕ → Prop} {L : ℕ → List ℕ} (h : Hangs n w (pc.top w) P L) (hj : j < n.numSlot_)
    (hne : pc.Walks → j ≠ w.startIdx_) (hs : w.slot_ j = some x) :
    ∃ l, L j = x :: l ∧ Hangs n ((w.setSlot j (w.getNext x)).delete x) (pc.top (w.setSlot j (w.getNext x)))
      (fun y => P y ∧ y ≠ x) (Function.update L j l) := by
  obtain ⟨l, hl, hpop⟩ := h.pop hj ((Pc.top_eq pc hne).trans hs)
  refine ⟨l, hl, ?_⟩
  rw [Pc.top_setSlot pc _ hne]
  refine hpop.congr fun y hy => ?_
  rw [timers_setNext, if_neg hy.2]
  rfl

theorem Linkage.live_of_heads (h : Linkage n s) (hx : s.Heads n x) : ∃ j < n.numSlot_,
    (s.wheel.timers x).index_ = j ∧ s.wheel.slot_ j = some x ∧ (s.pc.Walks → j ≠ s.wheel.startIdx_) ∧
      s.wheel.Live x := by
  obtain ⟨h0, h1, hs, hw⟩ := hx
  obtain ⟨j, hj⟩ := Int.eq_ofNat_of_zero_le h0
  rw [hj, Int.toNat_natCast] at hs
  obtain ⟨P, L, hL, hP⟩ := h.hangs
  have hne : s.pc.Walks → j ≠ s.wheel.startIdx_ := fun hp he => hw hp (by omega)
  have hjlt : j < n.numSlot_ := by omega
  exact ⟨j, hjlt, hj, hs, hne, hP x (hL.top_mem hjlt ((Pc.top_eq s.pc hne).trans hs)).1⟩

theorem Linkage.cancel (h : Linkage n s) (hx : s.Heads n x) : Linkage n (s.cancel n x) := by
  obtain ⟨j, hj, hi, hs, hne, hlive⟩ := h.live_of_heads hx
  obtain ⟨P, L, hL, hP⟩ := h.hangs
  obtain ⟨l, -, hcancel⟩ := hL.cancel hj hne hs
  rw [State.cancel, cancel_head hlive hj hi hs]
  refine ⟨h.startIdx_lt, h.pre, fun y hy => ?_, _, _, hcancel, fun y hy => ⟨(hP y hy.1).1, fun hm => ?_⟩⟩
  · rcases List.mem_cons.1 hy with rfl | hy
    · exact hlive.1
    · exact h.created y hy
  · rcases List.mem_cons.1 hm with he | hm
    · exact hy.2 he
    · exact (hP y hy.1).2 hm

/-- Of the timers in the lists, `cancel` removes the heads. -/
theorem Linkage.removes_iff (h : Linkage n s) (hx : s.Hung n x) : s.Removes n x ↔ s.Heads n x := by
  obtain ⟨P, L, hL, hP⟩ := h.hangs
  constructor
  · rintro ⟨w, hw, hlists⟩
    obtain ⟨L', hL', j, hj, hm⟩ := hx
    obtain ⟨hPx, hi⟩ := hL.index j hj x ((hL' j hj).unique (hL.chain j hj) ▸ hm)
    have hs : s.wheel.slot_ j = some x := by
      by_contra hs
      rw [cancel_inner (hP x hPx) hj hi hs (h.pre x)] at hw
      cases hw
    refine ⟨by omega, by omega, by rw [hi]; exact hs, fun hp he => ?_⟩
    obtain rfl : j = s.wheel.startIdx_ := by omega
    rw [cancel_head (hP x hPx) hj hi hs] at hw
    cases hw
    -- the walk goes on from the same pointer
    have hsame := hlists L' hL' _ hj
    have htop : s.pc.top ((s.wheel.setSlot s.wheel.startIdx_ (s.wheel.getNext x)).delete x) = s.pc.top s.wheel :=
      Pc.top_setSlot_walked s.pc _ hp
    dsimp only at hsame
    rw [htop] at hsame
    have hlen := congrArg List.length ((hL' _ hj).unique hsame)
    have hpos := List.length_pos_of_mem hm
    rw [List.length_erase_of_mem hm] at hlen
    omega
  · intro hhead
    obtain ⟨j, hj, hi, hs, hne, hlive⟩ := h.live_of_heads hhead
    obtain ⟨l, hl, hcancel⟩ := hL.cancel hj hne hs
    refine ⟨_, cancel_head hlive hj hi hs, fun L' hL' i hi' => ?_⟩
    have hc := hcancel.chain i hi'
    have he : (L' i).erase x = Function.update L j l i := by
      rw [(hL' i hi').unique (hL.chain i hi')]
      by_cases hij : i = j
      · rw [hij, Function.update_self, hl, List.erase_cons_head]
      · rw [Function.update_of_ne hij]
        refine List.erase_of_not_mem fun hm => hij ?_
        have := (hL.index i hi' x hm).2
        omega
    dsimp only
    rw [he]
    exact hc

theorem Linkage.hung (h : Linkage n s) (hx : s.Heads n x) : s.Hung n x := by
  obtain ⟨j, hj, -, hs, hne, -⟩ := h.live_of_heads hx
  obtain ⟨P, L, hL, -⟩ := h.hangs
  obtain ⟨l, hl, -⟩ := hL.cancel hj hne hs
  exact ⟨L, hL.chain, j, hj, hl ▸ List.mem_cons_self⟩

/-! ## Every run -/

theorem linkage_init (now : ℤ) : Linkage n (init now) where
  startIdx_lt := n.pos
  pre _ := rfl
  created := nofun
  hangs := ⟨fun _ => False, fun _ => [],
    ⟨fun _ _ => rfl, fun _ _ => List.nodup_nil, nofun, fun _ hx => hx.elim⟩, fun _ hx => hx.elim⟩

theorem Linkage.step (h : Linkage n s) (hs : TimeWheel.step n s a = some s') :
    Linkage n s' ∨ ∃ e, s'.pc = .halted e := by
  obtain ⟨-, hst⟩ := step_cases hs
  have h' : Linkage n { s with clock := a.now } := { h with }
  exact h'.stmt hst

/-- The timers that are cancelled are heads. -/
def HeadsOnly (n : Buckets) (x : State × Op × State) : Prop :=
  match x.2.1 with
  | .stmt _ => True
  | .cancel timer => x.1.Heads n timer

theorem Linkage.op {o : Op} (h : Linkage n s) (hc : HeadsOnly n (s, o, s')) (hs : opStep n s o = some s') :
    Linkage n s' ∨ ∃ e, s'.pc = .halted e := by
  cases o with
  | stmt a => exact h.step hs
  | cancel timer =>
    left
    rw [opStep] at hs
    split at hs
    · cases hs
      exact h.cancel hc
    · cases hs
      exact h.cancel hc
    · cases hs
    · cases hs
    · cases hs

/-- Nothing follows the end of the process. -/
theorem opStep_halted {o : Op} {e : Halt} (hp : s.pc = .halted e) : opStep n s o = none := by
  cases o with
  | stmt a => exact step_halted hp
  | cancel timer => simp only [opStep, hp]

/-- What a run keeps whose cancelled timers are all heads. -/
theorem linkage_run {t : State} {v : List (State × Op × State)} (h : Lts.Run (cancelWheel n now) (init now) v t)
    (hv : ∀ x ∈ v, HeadsOnly n x) : ∀ u ∈ Lts.visited (init now) v, Linkage n u ∨ ∃ e, u.pc = .halted e := by
  refine h.invariant ?_ hv (.inl (linkage_init now))
  rintro u o u' (hu | ⟨e, hu⟩) hc hst
  · exact hu.op hc hst
  · cases (opStep_halted hu).symm.trans hst

/-- **`cancel` removes a timer if it is the head of its slot, and only then**, and not while `tock` walks the slot. -/
theorem cancel_removes_iff {t : State} {v : List (State × Op × State)}
    (h : Lts.Run (cancelWheel n now) (init now) v t) (hv : ∀ x ∈ v, HeadsOnly n x) :
    ∀ u ∈ Lts.visited (init now) v, (∀ e, u.pc ≠ .halted e) →
      ∀ x, u.Hung n x → (u.Removes n x ↔ u.Heads n x) := by
  intro u hu hdef x hx
  rcases linkage_run h hv u hu with hl | ⟨e, he⟩
  · exact hl.removes_iff hx
  · exact absurd he (hdef e)

instance : Decidable (s.Heads n x) :=
  match hp : s.pc with
  | .walk _ _ | .callback _ _ =>
    decidable_of_iff (0 ≤ (s.wheel.timers x).index_ ∧ (s.wheel.timers x).index_ < n.numSlot_ ∧
      s.wheel.slot_ (s.wheel.timers x).index_.toNat = some x ∧ (True → (s.wheel.timers x).index_ ≠ s.wheel.startIdx_))
      (by rw [State.Heads, hp]; rfl)
  | .outside _ | .loop _ | .halted _ =>
    decidable_of_iff (0 ≤ (s.wheel.timers x).index_ ∧ (s.wheel.timers x).index_ < n.numSlot_ ∧
      s.wheel.slot_ (s.wheel.timers x).index_.toNat = some x ∧ (False → (s.wheel.timers x).index_ ≠ s.wheel.startIdx_))
      (by rw [State.Heads, hp]; rfl)

instance (x : State × Op × State) : Decidable (HeadsOnly n x) :=
  match x with
  | (_, .stmt _, _) => .isTrue trivial
  | (s, .cancel timer, _) => inferInstanceAs (Decidable (s.Heads n timer))

/-- Two timers in a slot; the second one, its head, is cancelled. -/
def cancelSecond : List Op :=
  [.stmt ⟨0, .call (.runAfter 0.001)⟩, .stmt ⟨0, .call (.runAfter 0.001)⟩, .cancel 1]

theorem cancel_removes_iff_second : ∃ s, Lts.exec (opStep .default) (init 0) cancelSecond = some s ∧
    s.Heads .default 0 ∧ s.Removes .default 0 := by
  obtain ⟨s, hs, hp, hx⟩ : ∃ s ∈ Lts.exec (opStep .default) (init 0) cancelSecond,
      s.pc = .outside none ∧ s.Heads .default 0 := by
    decide +kernel
  have hv : ∀ x ∈ Lts.moves (opStep .default) (init 0) cancelSecond, HeadsOnly .default x := by decide +kernel
  have hrun : Lts.Run (cancelWheel .default 0) (init 0) _ s := Lts.Run.moves hs
  have hdef : ∀ e, s.pc ≠ .halted e := fun e he => nomatch hp.symm.trans he
  have hl := (linkage_run hrun hv s hrun.last_mem).resolve_right fun ⟨e, he⟩ => hdef e he
  exact ⟨s, hs, hx, (cancel_removes_iff hrun hv s hrun.last_mem hdef 0 (hl.hung hx)).2 hx⟩

/-- Two timers in a slot. -/
def shared : List Op := [.stmt ⟨0, .call (.runAfter 0.001)⟩, .stmt ⟨0, .call (.runAfter 0.001)⟩]

/-- The first one is at the end of the list. -/
theorem not_removes_shared : ∃ s, Lts.exec (opStep .default) (init 0) shared = some s ∧
    s.pc = .outside none ∧ s.Hung .default 0 ∧ s.wheel.Live 0 ∧ ¬s.Removes .default 0 := by
  obtain ⟨s, hs, hp, hx, hlive, hi, hpre, hslot, hnext⟩ : ∃ s ∈ Lts.exec (opStep .default) (init 0) shared,
      s.pc = .outside none ∧ s.Heads .default 1 ∧ s.wheel.Live 0 ∧ (s.wheel.timers 0).index_ = (1 : ℕ) ∧
      (s.wheel.timers 0).pre_ = none ∧ s.wheel.slot_ 1 = some 1 ∧ s.wheel.getNext 1 = some 0 := by
    decide +kernel
  have hv : ∀ x ∈ Lts.moves (opStep .default) (init 0) shared, HeadsOnly .default x := by decide +kernel
  have hrun : Lts.Run (cancelWheel .default 0) (init 0) _ s := Lts.Run.moves hs
  have hl := (linkage_run hrun hv s hrun.last_mem).resolve_right fun ⟨e, he⟩ => nomatch hp.symm.trans he
  refine ⟨s, hs, hp, ?_, hlive, fun ⟨w, hw, _⟩ => ?_⟩
  · obtain ⟨P, L, hL, -⟩ := hl.hangs
    have hc := hL.chain 1 (by decide)
    rw [hp, show Pc.top s.wheel (.outside none) 1 = some 1 from hslot] at hc
    obtain ⟨l, h1, hc⟩ := hc.uncons
    rw [hnext] at hc
    obtain ⟨l', h2, -⟩ := hc.uncons
    exact ⟨L, hL.chain, 1, by decide, by rw [h1, h2]; simp⟩
  · rw [cancel_inner hlive (by decide) hi (by rw [hslot]; decide) hpre] at hw
    cases hw

end Linkage

end Libeva.TimeWheel
