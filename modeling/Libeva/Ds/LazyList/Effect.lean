import Libeva.Ds.LazyList.Relink

/-!
# What one step can do to the nodes

* `Change s t w s'`: the four statements that change a node a traversal can see, `replace`, `link`, `mark`, `unlink`.
* `Quiet s s'`: no such node changes, none is linked.
* `step_cases`: every step is one or the other. The rest are its consequences for one node: its key never changes, a
  linked node stays linked, and off the list nothing about a node changes any more.
-/

namespace Libeva.Ds.LazyList

open Linked (Path follow)

variable {ι α κ : Type*} [LinearOrder κ] {key : α → κ} {s s' : State ι α} {t u : ι} {p : Pc α} {w : Window α} {n : Ref}

/-- No node that a traversal can see changes. -/
structure Quiet (s s' : State ι α) : Prop where
  linked : ∀ n, s'.Linked n ↔ s.Linked n
  entry : ∀ n, n = head_ ∨ s.Curr n → (s'.mem n).entry_ = (s.mem n).entry_
  marked : ∀ n, n = head_ ∨ s.Curr n → s'.marked n = s.marked n
  next : ∀ n, n = head_ ∨ s.Curr n → s'.next n = s.next n

variable [DecidableEq ι]

/-- The statements that change the list, with the state they lead to. -/
inductive Change (s : State ι α) (t : ι) (w : Window α) : State ι α → Prop
  | replace (hp : s.pc t = .replace w) :
    Change s t w ((s.write w.curr { s.mem w.curr with entry_ := w.key }).goto t (.unlockCurr w (some true)))
  | link {n : Ref} (hp : s.pc t = .link w n) :
    Change s t w ((s.write w.pred { s.mem w.pred with next_ := some n }).goto t (.unlockCurr w (some true)))
  | mark (hp : s.pc t = .mark w) :
    Change s t w ((s.write w.curr { s.mem w.curr with marked_ := true }).goto t (.readNext w))
  | unlink {m : Option Ref} (hp : s.pc t = .unlink w m) :
    Change s t w ((s.write w.pred { s.mem w.pred with next_ := m }).goto t (.delete w))

omit [LinearOrder κ] in
/-- A step that leaves the list memory and the private nodes alone. -/
theorem Quiet.of_mem (hpc : s'.pc = Function.update s.pc t p) (hf : p.fresh? = (s.pc t).fresh?) (hb : s'.brk = s.brk)
    (he : ∀ n, (s'.mem n).entry_ = (s.mem n).entry_) (hm : ∀ n, s'.marked n = s.marked n)
    (hn : ∀ n, s'.next n = s.next n) : Quiet s s' :=
  ⟨linked_iff hpc hb hf, fun n _ => he n, fun n _ => hm n, fun n _ => hn n⟩

omit [LinearOrder κ] in
theorem Quiet.goto (hf : p.fresh? = (s.pc t).fresh?) : Quiet s (s.goto t p) :=
  .of_mem rfl hf rfl (fun _ => rfl) (fun _ => rfl) fun _ => rfl

omit [LinearOrder κ] in
/-- A lock or unlock. -/
theorem Quiet.lock (hf : p.fresh? = (s.pc t).fresh?) (o : Option ι) :
    Quiet s ((s.write n { s.mem n with spinLock_ := o }).goto t p) :=
  .of_mem rfl hf rfl (write_same Node.entry_ rfl rfl) (write_same Node.marked_ rfl rfl) (write_same Node.next_ rfl rfl)

theorem Quiet.new (h : Inv key s) (hp : s.pc t = .new w) :
    Quiet s ({ s.write s.brk ⟨w.key, none, none, false⟩ with
      brk := s.brk + 1, live := Function.update s.live s.brk true }.goto t (.setNext w s.brk)) := by
  have hx : ∀ n, n = head_ ∨ s.Curr n → Function.update s.mem s.brk ⟨w.key, none, none, false⟩ n = s.mem n :=
    fun n hn => Function.update_of_ne (Nat.ne_of_lt (h.shape.curr_lt hn)) _ _
  refine ⟨fun n => ?_, fun n hn => congrArg Node.entry_ (hx n hn), fun n hn => congrArg Node.marked_ (hx n hn),
    fun n hn => congrArg Node.next_ (hx n hn)⟩
  have hft : (s.pc t).fresh? = none := by rw [hp]; rfl
  simp only [State.Linked, goto_brk, goto_pc, write_pc]
  constructor
  · rintro ⟨h1, h2, h3⟩
    have hne : n ≠ s.brk := fun e => h3 t (by rw [Function.update_self, e]; rfl)
    refine ⟨h1, Nat.lt_of_le_of_ne (Nat.lt_succ_iff.1 h2) hne, ?_⟩
    intro u
    by_cases hu : u = t
    · rw [hu, hft]; exact (Option.some_ne_none n).symm
    · have := h3 u
      rwa [Function.update_of_ne hu] at this
  · rintro ⟨h1, h2, h3⟩
    refine ⟨h1, Nat.lt_succ_of_lt h2, ?_⟩
    intro u
    by_cases hu : u = t
    · rw [hu, Function.update_self]; exact fun e => Nat.ne_of_gt h2 (Option.some.inj e)
    · rw [Function.update_of_ne hu]; exact h3 u

theorem Quiet.setNext (h : Inv key s) (hp : s.pc t = .setNext w n) :
    Quiet s ((s.write n { s.mem n with next_ := some w.curr }).goto t (.link w n)) := by
  have hx : ∀ m, m = head_ ∨ s.Curr m → Function.update s.mem n { s.mem n with next_ := some w.curr } m = s.mem m :=
    fun m hm => Function.update_of_ne (h.shape.fresh_ne (t := t) (by rw [hp]; rfl) hm) _ _
  exact ⟨linked_iff rfl rfl (by rw [hp]; rfl), fun m hm => congrArg Node.entry_ (hx m hm),
    fun m hm => congrArg Node.marked_ (hx m hm), fun m hm => congrArg Node.next_ (hx m hm)⟩

omit [LinearOrder κ] [DecidableEq ι] in
theorem deref_fresh {m : Option Ref} {f : Ref → Pc α} (hf : ∀ n, (f n).fresh? = none) : (deref m f).fresh? = none := by
  cases m with
  | none => rfl
  | some n => exact hf n

omit [LinearOrder κ] [DecidableEq ι] in
theorem Window.notEqual_fresh : w.notEqual.fresh? = none := by
  unfold Window.notEqual; split <;> rfl

omit [LinearOrder κ] [DecidableEq ι] in
theorem Window.isEqual_fresh : w.isEqual.fresh? = none := by
  unfold Window.isEqual; split <;> rfl

theorem step_cases {a : Action ι α} (h : Inv key s) (hs : step key s a = some s') :
    Quiet s s' ∨ ∃ t w, a = .tick t ∧ Change s t w s' := by
  cases a with
  | invoke t c =>
    simp only [LazyList.step] at hs
    split at hs <;> try split at hs
    all_goals cases hs
    all_goals rename_i hp _; exact .inl (.goto (by rw [hp]; cases c <;> rfl))
  | tick t =>
    simp only [LazyList.step] at hs
    cases hp : s.pc t with
    | replace w => rw [hp] at hs; cases hs; exact .inr ⟨t, w, rfl, .replace hp⟩
    | link w n => rw [hp] at hs; cases hs; exact .inr ⟨t, w, rfl, .link hp⟩
    | mark w => rw [hp] at hs; cases hs; exact .inr ⟨t, w, rfl, .mark hp⟩
    | unlink w m => rw [hp] at hs; cases hs; exact .inr ⟨t, w, rfl, .unlink hp⟩
    | new w => rw [hp] at hs; cases hs; exact .inl (.new h hp)
    | setNext w n => rw [hp] at hs; cases hs; exact .inl (.setNext h hp)
    | delete w =>
      rw [hp] at hs; cases hs
      exact .inl (.of_mem (p := .unlockCurr w (some true)) rfl (by rw [hp]; rfl) rfl (fun _ => rfl) (fun _ => rfl)
        fun _ => rfl)
    | lockPred w | lockCurr w =>
      simp only [hp, fetch, exec] at hs
      split at hs
      · cases hs; exact .inl (.lock (by rw [hp]; rfl) _)
      · cases hs
    | unlockCurr w r => rw [hp] at hs; cases hs; exact .inl (.lock (by rw [hp]; rfl) _)
    | unlockPred w r => cases r <;> (rw [hp] at hs; cases hs; exact .inl (.lock (by rw [hp]; rfl) _))
    | idle | ret | crash => rw [hp] at hs; cases hs
    | _ =>
      simp only [hp, fetch, exec, Option.some.injEq] at hs
      subst hs
      refine .inl (.goto ?_)
      rw [hp]
      first
        | rfl
        | exact deref_fresh fun _ => rfl
        | split <;> first | rfl | exact Window.notEqual_fresh | exact Window.isEqual_fresh

/-! ## Consequences for one node -/

omit [LinearOrder κ] in
/-- A write that keeps a field of the node. -/
theorem goto_same {β : Type*} (f : Node ι α → β) {x : Node ι α} {m : Ref} (h : f x = f (s.mem n)) :
    f (((s.write n x).goto t p).mem m) = f (s.mem m) := write_same f rfl h m

omit [LinearOrder κ] in
theorem write_linked {x : Node ι α} {m : Ref} (hf : p.fresh? = (s.pc t).fresh?) :
    ((s.write n x).goto t p).Linked m ↔ s.Linked m := by
  have hpc : ((s.write n x).goto t p).pc = Function.update s.pc t p := rfl
  exact linked_iff hpc rfl hf m

section Node

variable {a : Action ι α}

/-- A linked node stays linked. -/
theorem Inv.step_linked (h : Inv key s) (hs : LazyList.step key s a = some s') (hn : s.Linked n) : s'.Linked n := by
  rcases step_cases h hs with hq | ⟨t, w, -, hc⟩
  · exact (hq.linked n).2 hn
  · cases hc with
    | replace hp | mark hp | unlink hp => exact (write_linked (by rw [hp]; rfl)).2 hn
    | link hp =>
      obtain ⟨-, -, -, -, hl⟩ := h.shape.link (hp ▸ h.loc t) hp (h.arg t (.update w.upd w.key) (by rw [hp]; rfl)) rfl
      exact (hl n).2 (.inr hn)

/-- The key of a node never changes, also when its entry is replaced. -/
theorem Inv.step_keyOf (h : Inv key s) (hs : LazyList.step key s a = some s') (hn : n = head_ ∨ s.Curr n) :
    s'.keyOf key n = s.keyOf key n := by
  rcases step_cases h hs with hq | ⟨t, w, -, hc⟩
  · exact congrArg key (hq.entry n hn)
  · cases hc with
    | replace hp =>
      have hloc := h.loc t
      rw [hp] at hloc
      exact goto_same (fun y => key y.entry_) hloc.2.2.symm
    | link hp | mark hp | unlink hp => exact goto_same (fun y => key y.entry_) rfl

/-- The successor of a node that is off the list after the step. -/
theorem Inv.step_next (h : Inv key s) (hs : LazyList.step key s a = some s') (hn : s.Linked n) (hoff : n ∉ s'.chain) :
    s'.next n = s.next n := by
  have hs' := (h.step hs).shape
  have hn' := h.step_linked hs hn
  -- only a `pred` gets a new successor, and it is unmarked
  have pred : ∀ {w : Window α}, s.marked w.pred = false → s'.marked w.pred = s.marked w.pred → n ≠ w.pred := by
    rintro w hm hmk rfl
    exact hoff (hs'.complete _ hn' (hmk.trans hm))
  rcases step_cases h hs with hq | ⟨t, w, -, hc⟩
  · exact hq.next n (.inr (.inr hn))
  · have hloc := h.loc t
    cases hc with
    | replace hp | mark hp => exact goto_same Node.next_ rfl
    | link hp | unlink hp =>
      rw [hp] at hloc
      have hne := pred hloc.1.2.1 (goto_same Node.marked_ rfl)
      rw [State.next, goto_mem, write_mem, Function.update_of_ne hne]

/-- The mark of a node that is off the list after the step. -/
theorem Inv.step_marked (h : Inv key s) (hs : LazyList.step key s a = some s') (hn : s.Linked n) (hoff : n ∉ s'.chain) :
    s'.marked n = s.marked n := by
  rcases step_cases h hs with hq | ⟨t, w, -, hc⟩
  · exact hq.marked n (.inr (.inr hn))
  · have hloc := h.loc t
    cases hc with
    | replace hp | link hp | unlink hp => exact goto_same Node.marked_ rfl
    | mark hp =>
      rw [hp] at hloc
      have hnext : State.next ((s.write w.curr { s.mem w.curr with marked_ := true }).goto t (.readNext w)) = s.next :=
        funext fun m => goto_same Node.next_ rfl
      have hne : n ≠ w.curr := by
        rintro rfl
        rw [State.chain, hnext] at hoff
        exact hoff (h.shape.complete _ hn hloc.1.2.2.1)
      rw [State.marked, goto_mem, write_mem, Function.update_of_ne hne]

/-- The entry of a node that is off the list, or marked, after the step. -/
theorem Inv.step_entry (h : Inv key s) (hs : LazyList.step key s a = some s') (hn : s.Linked n)
    (hoff : ¬(n ∈ s'.chain ∧ s'.marked n = false)) : (s'.mem n).entry_ = (s.mem n).entry_ := by
  have hs' := (h.step hs).shape
  have hn' := h.step_linked hs hn
  rcases step_cases h hs with hq | ⟨t, w, -, hc⟩
  · exact hq.entry n (.inr (.inr hn))
  · have hloc := h.loc t
    cases hc with
    | link hp | mark hp | unlink hp => exact goto_same Node.entry_ rfl
    | replace hp =>
      rw [hp] at hloc
      have hm : State.marked ((s.write w.curr { s.mem w.curr with entry_ := w.key }).goto t
          (.unlockCurr w (some true))) w.curr = s.marked w.curr := goto_same Node.marked_ rfl
      have hne : n ≠ w.curr := by
        rintro rfl
        exact hoff ⟨hs'.complete _ hn' (hm.trans hloc.1.2.2.1), hm.trans hloc.1.2.2.1⟩
      rw [goto_mem, write_mem, Function.update_of_ne hne]

end Node

end Libeva.Ds.LazyList
