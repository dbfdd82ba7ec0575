import Libeva.Ds.LazyList.Linear

/-!
# The heap of `LazyList`

In `threads` the memory of a deleted node stays readable. `State.tick` is the step of a thread that asks for the node
which its statement uses: with `Memory.retained` a deleted node still serves, as one kept in `garbage_` would, and with
`Memory.freed` its use is undefined and the thread has no step.

`Heap` is what `remove` keeps of the heap: the nodes of the list are there, and the one it deletes is off the list.
-/

namespace Libeva.Ds.LazyList

open Linked (Path)

variable {ι α κ : Type*} [LinearOrder κ] (key : α → κ)

/-- What becomes of the memory of a deleted node. -/
inductive Memory
  | retained
  | freed
  deriving DecidableEq

/-- The node can be used. -/
def Memory.Has (m : Memory) (s : State ι α) (n : Ref) : Prop := m = .retained ∨ s.live n = true

instance (m : Memory) (s : State ι α) (n : Ref) : Decidable (m.Has s n) := inferInstanceAs (Decidable (_ ∨ _))

/-- The node that a statement uses. -/
def Instr.node? : Instr α → Option Ref
  | .halt | .new _ _ => none
  | .readEntry n _ | .readNext n _ | .readMarked n _ | .writeEntry n _ _ | .writeNext n _ _ | .writeMarked n _ _
  | .lock n _ | .unlock n _ | .delete n _ => some n

/-- A step of thread `t` on a heap. -/
def State.tick [DecidableEq ι] (m : Memory) (t : ι) (s : State ι α) : Option (State ι α) :=
  if ∀ n ∈ (fetch key (s.pc t)).node?, m.Has s n then step key s (.tick t) else none

/-- The nodes of the list and the new ones are on the heap; a `remove` deletes a node that it has taken off the list. -/
structure Heap (s : State ι α) : Prop where
  list : ∀ n ∈ head_ :: (s.chain ++ [tail_]), s.live n = true
  fresh : ∀ t n, (s.pc t).fresh? = some n → s.live n = true
  cut : ∀ t w, s.pc t = .delete w → s.Linked w.curr ∧ w.curr ∉ s.chain

variable {key} {s s' : State ι α} {t : ι} {p : Pc α} {w : Window α} {n : Ref} {m : Memory}

theorem Heap.has (h : Heap s) (hn : n ∈ head_ :: (s.chain ++ [tail_])) : m.Has s n := .inr (h.list n hn)

theorem heap_init [Inhabited α] (maxVal : α) : Heap (State.init maxVal : State ι α) where
  list n hn := by
    have hchain : (State.init maxVal : State ι α).chain = [] := rfl
    rw [hchain, List.nil_append, List.mem_cons, List.mem_singleton] at hn
    rcases hn with rfl | rfl <;> rfl
  fresh t n ht := by cases ht
  cut t w hp := by cases hp

variable [DecidableEq ι]

theorem tick_step (hs : s.tick key m t = some s') : step key s (.tick t) = some s' := by
  unfold State.tick at hs
  split at hs
  · exact hs
  · cases hs

theorem tick_eq (hn : ∀ n ∈ (fetch key (s.pc t)).node?, m.Has s n) : s.tick key m t = step key s (.tick t) := if_pos hn

/-- The use of a node that has been deleted is undefined. -/
theorem tick_freed (hn : (fetch key (s.pc t)).node? = some n) (hl : s.live n = false) :
    s.tick key .freed t = none := by
  refine if_neg fun h => ?_
  rcases h n hn with h | h
  · cases h
  · rw [hl] at h
    cases h

/-! ## What a step does to the heap -/

/-- Only a `delete` takes a node off the heap, and a new node is put there. -/
theorem exec_live {i : Instr α} (hs : exec s t i = some s') (hi : ∀ n p, i ≠ .delete n p)
    (hl : s.live n = true ∨ s.brk ≤ n ∧ n < s'.brk) : s'.live n = true := by
  have same : s'.live = s.live → s'.brk = s.brk → s'.live n = true := fun h hb => by
    rw [h]
    exact hl.resolve_right fun hn => absurd (hb ▸ hn.2) (Nat.not_lt.2 hn.1)
  cases i with
  | halt => cases hs
  | delete n p => exact absurd rfl (hi n p)
  | lock n p =>
    simp only [exec] at hs
    split at hs
    · cases hs; exact same rfl rfl
    · cases hs
  | new e f =>
    cases hs
    show Function.update s.live s.brk true n = true
    by_cases hb : n = s.brk
    · rw [hb, Function.update_self]
    · rw [Function.update_of_ne hb]
      exact hl.resolve_right fun hn => hb (Nat.le_antisymm (Nat.lt_succ_iff.1 hn.2) hn.1)
  | _ => cases hs; exact same rfl rfl

omit [DecidableEq ι] in
theorem fetch_delete {q : Pc α} (h : fetch key p = .delete n q) : ∃ w, p = .delete w := by
  cases p with
  | delete w => exact ⟨w, rfl⟩
  | unlockPred w r => cases r <;> cases h
  | _ => cases h

/-- The points from which a call creates a node or comes to its `delete`. -/
theorem exec_points (hs : exec s t (fetch key p) = some s') :
    ((s'.pc t).fresh? = none ∨ (s'.pc t).fresh? = p.fresh? ∨ ∃ w, p = .new w) ∧
    ∀ w, s'.pc t = .delete w → ∃ m, p = .unlink w m := by
  have hself : ∀ {s : State ι α} {q : Pc α}, (s.goto t q).pc t = q := fun {s q} => by rw [goto_pc, Function.update_self]
  cases p with
  | idle | ret | crash => cases hs
  | new w =>
    cases hs
    rw [hself]
    exact ⟨.inr (.inr ⟨w, rfl⟩), fun _ hv => by cases hv⟩
  | setNext w n =>
    cases hs
    rw [hself]
    exact ⟨.inr (.inl rfl), fun _ hv => by cases hv⟩
  | unlink w m =>
    cases hs
    rw [hself]
    refine ⟨.inl rfl, fun v hv => ?_⟩
    cases hv
    exact ⟨m, rfl⟩
  | lockPred w | lockCurr w =>
    simp only [fetch, exec] at hs
    split at hs
    · cases hs
      rw [hself]
      exact ⟨.inl rfl, fun _ hv => by cases hv⟩
    · cases hs
  | unlockPred w r =>
    cases r <;>
    · cases hs
      rw [hself]
      exact ⟨.inl rfl, fun _ hv => by cases hv⟩
  | equalL w | equalR w =>
    simp only [fetch, exec, Option.some.injEq] at hs
    subst hs
    rw [hself]
    simp only [Window.notEqual, Window.isEqual]
    split <;> try split
    all_goals exact ⟨.inl rfl, fun _ hv => by cases hv⟩
  | readHead u k | next u k c | getHead k | getNext k c | conNext k c =>
    simp only [fetch, exec, deref, Option.some.injEq] at hs
    subst hs
    rw [hself]
    split <;> exact ⟨.inl rfl, fun _ hv => by cases hv⟩
  | _ =>
    simp only [fetch, exec, Option.some.injEq] at hs
    subst hs
    rw [hself]
    first
      | exact ⟨.inl rfl, fun _ hv => by cases hv⟩
      | (split <;> exact ⟨.inl rfl, fun _ hv => by cases hv⟩)

/-- A step puts no node on the list but the new one of its call. -/
theorem Inv.step_chain (h : Inv key s) (hs : LazyList.step key s (.tick t) = some s') (hn : n ∈ s'.chain) :
    n ∈ s.chain ∨ (s.pc t).fresh? = some n := by
  have hi := h.step hs
  rcases step_cases h hs with hq | ⟨u, w, hu, hc⟩
  · have hpath : Path s'.next head_ s.chain tail_ := h.shape.path.congr fun x hx => by
      refine hq.next x ?_
      exact (List.mem_cons.1 hx).imp id fun hx => .inr (h.shape.linked x hx)
    rw [hi.shape.path.unique hpath hi.shape.tail_notMem h.shape.tail_notMem] at hn
    exact .inl hn
  · cases hu
    have hloc := h.loc t
    have harg : ∀ {v : Window α}, (s.pc t).call? = some (.update v.upd v.key) → key v.key < s.keyOf key tail_ :=
      fun hv => h.arg t _ hv
    cases hc with
    | replace hp | mark hp =>
      have hpath : Path s.next head_ _ tail_ := hi.shape.path.congr fun x _ => by
        symm
        exact goto_same Node.next_ rfl
      rw [hpath.unique h.shape.path hi.shape.tail_notMem h.shape.tail_notMem] at hn
      exact .inl hn
    | link hp =>
      rw [hp] at hloc
      obtain ⟨l₁, l₂, hl, hsh, -⟩ := h.shape.link hloc hp (harg (by rw [hp]; rfl)) rfl
      rw [hsh.chain_eq] at hn
      rw [hl, hp]
      simp only [List.mem_append, List.mem_cons] at hn ⊢
      rcases hn with hn | rfl | hn
      · exact .inl (.inl hn)
      · exact .inr rfl
      · exact .inl (.inr hn)
    | unlink hp =>
      rw [hp] at hloc
      obtain ⟨l₁, l₂, hl, hsh, -⟩ := h.shape.unlink hloc hp (harg (by rw [hp]; rfl)) rfl
      rw [hsh.chain_eq] at hn
      rw [hl]
      simp only [List.mem_append, List.mem_cons] at hn ⊢
      rcases hn with hn | hn
      · exact .inl (.inl hn)
      · exact .inl (.inr (.inr hn))

/-- A node that is unlinked is off the list. -/
theorem Inv.unlink_notMem (h : Inv key s) {m : Option Ref} (hp : s.pc t = .unlink w m)
    (hs : LazyList.step key s (.tick t) = some s') : s'.Linked w.curr ∧ w.curr ∉ s'.chain := by
  have hloc := h.loc t
  rw [hp] at hloc
  have harg : key w.key < s.keyOf key tail_ := h.arg t (.update w.upd w.key) (by rw [hp]; rfl)
  have hcl := hloc.1.1.linked hloc.2.2.1 harg
  refine ⟨h.step_linked hs hcl, ?_⟩
  rw [LazyList.step, hp] at hs
  cases hs
  obtain ⟨l₁, l₂, hl, hsh, -⟩ := h.shape.unlink hloc hp harg rfl
  rw [hsh.chain_eq]
  have hnd := h.shape.nodup
  rw [hl] at hnd
  exact (List.nodup_cons.1 (List.nodup_middle.1 (List.nodup_cons.1 hnd).2)).1

/-! ## All steps -/

/-- A step that deletes nothing. -/
theorem Heap.update (hh : Heap s) (h : Inv key s) (hs : LazyList.step key s (.tick t) = some s')
    (hp : ∀ w, s.pc t ≠ .delete w) : Heap s' := by
  have hlive : ∀ n, s.live n = true → s'.live n = true := fun n hl =>
    exec_live hs (fun n q hf => by obtain ⟨w, hw⟩ := fetch_delete hf; exact hp w hw) (.inl hl)
  obtain ⟨q, hq⟩ := exec_pc hs
  have hother : ∀ u, u ≠ t → s'.pc u = s.pc u := fun u hu => by rw [hq, Function.update_of_ne hu]
  refine ⟨fun n hn => ?_, fun u n hu => ?_, fun u w hu => ?_⟩
  · simp only [List.mem_cons, List.mem_append, List.not_mem_nil, or_false] at hn
    rcases hn with rfl | hn | rfl
    · exact hlive _ (hh.list _ (by simp))
    · rcases h.step_chain hs hn with hn | hn
      · exact hlive n (hh.list n (by simp [hn]))
      · exact hlive n (hh.fresh t n hn)
    · exact hlive _ (hh.list _ (by simp))
  · by_cases hut : u = t
    · subst hut
      rcases (exec_points hs).1 with hf | hf | ⟨w, hw⟩
      · rw [hf] at hu
        cases hu
      · exact hlive n (hh.fresh u n (hf.symm.trans hu))
      · rw [LazyList.step, hw] at hs
        cases hs
        rw [goto_pc, Function.update_self] at hu
        cases hu
        exact Function.update_self ..
    · rw [hother u hut] at hu
      exact hlive n (hh.fresh u n hu)
  · by_cases hut : u = t
    · subst hut
      obtain ⟨m, hm⟩ := (exec_points hs).2 w hu
      exact h.unlink_notMem hm hs
    · rw [hother u hut] at hu
      obtain ⟨hl, hoff⟩ := hh.cut u w hu
      refine ⟨h.step_linked hs hl, fun hn => ?_⟩
      exact (h.step_chain hs hn).elim hoff (hl.2.2 t)

/-- `delete curr` -/
theorem Heap.delete (hh : Heap s) (hp : s.pc t = .delete w) :
    Heap ({ s with live := Function.update s.live w.curr false }.goto t (.unlockCurr w (some true))) := by
  obtain ⟨hl, hoff⟩ := hh.cut t w hp
  have hlive : ∀ n, n ≠ w.curr → s.live n = true → Function.update s.live w.curr false n = true := fun n hn h => by
    rw [Function.update_of_ne hn, h]
  have hlinked : ∀ n, State.Linked
      ({ s with live := Function.update s.live w.curr false }.goto t (.unlockCurr w (some true))) n ↔ s.Linked n :=
    linked_iff rfl rfl (by rw [hp]; rfl)
  refine ⟨fun n hn => hlive n ?_ (hh.list n hn), fun u n hu => ?_, fun u v hu => ?_⟩
  · rintro rfl
    simp only [List.mem_cons, List.mem_append, List.not_mem_nil, or_false] at hn
    rcases hn with hn | hn | hn
    · exact hl.ne_head hn
    · exact hoff hn
    · exact hl.ne_tail hn
  · by_cases hut : u = t
    · rw [hut, goto_pc, Function.update_self] at hu
      cases hu
    · rw [goto_pc, Function.update_of_ne hut] at hu
      exact hlive n (fun e => hl.2.2 u (e ▸ hu)) (hh.fresh u n hu)
  · by_cases hut : u = t
    · rw [hut, goto_pc, Function.update_self] at hu
      cases hu
    · rw [goto_pc, Function.update_of_ne hut] at hu
      obtain ⟨hv, hvoff⟩ := hh.cut u v hu
      exact ⟨(hlinked _).2 hv, hvoff⟩

/-- The call of a thread that has none in progress. -/
theorem Heap.invoke (hh : Heap s) (hp : (s.pc t).fresh? = none) (c : Call α) : Heap (s.goto t c.entry) := by
  have hlinked : ∀ n, (s.goto t c.entry).Linked n ↔ s.Linked n :=
    linked_iff rfl rfl (by rw [hp]; cases c <;> rfl)
  refine ⟨hh.list, fun u n hu => ?_, fun u w hu => ?_⟩
  · by_cases hut : u = t
    · rw [hut, goto_pc, Function.update_self] at hu
      cases c <;> cases hu
    · rw [goto_pc, Function.update_of_ne hut] at hu
      exact hh.fresh u n hu
  · by_cases hut : u = t
    · rw [hut, goto_pc, Function.update_self] at hu
      cases c <;> cases hu
    · rw [goto_pc, Function.update_of_ne hut] at hu
      obtain ⟨hl, hoff⟩ := hh.cut u w hu
      exact ⟨(hlinked _).2 hl, hoff⟩

theorem Heap.step {a : Action ι α} (hh : Heap s) (h : Inv key s) (hs : LazyList.step key s a = some s') : Heap s' := by
  cases a with
  | invoke t c =>
    simp only [LazyList.step] at hs
    split at hs <;> try split at hs
    all_goals cases hs
    all_goals rename_i hp _; exact hh.invoke (by rw [hp]; rfl) c
  | tick t =>
    by_cases hp : ∃ w, s.pc t = .delete w
    · obtain ⟨w, hp⟩ := hp
      rw [LazyList.step, hp] at hs
      cases hs
      exact hh.delete hp
    · exact hh.update h hs fun w hw => hp ⟨w, hw⟩

/-- In every interleaving the nodes of the list are on the heap. -/
theorem reach_heap [Inhabited α] {maxVal : α} (h : Lts.Reach (threads key maxVal) s) : Heap s :=
  h.invariant (fun _ hs => hs ▸ heap_init maxVal) fun _ _ _ hr hh hs => hh.step (reach_inv hr) hs

end Libeva.Ds.LazyList
