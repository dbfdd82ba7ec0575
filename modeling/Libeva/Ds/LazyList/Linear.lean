import Libeva.Ds.LazyList.Effect
import Mathlib.Data.List.Pairwise
import Mathlib.Data.Nat.Basic

/-!
# Updates are linearizable

`State.abs` is the map from keys to entries that the list stands for: the unmarked nodes between `head_` and `tail_`.
Only three statements change it (`curr->entry_ = key`, `pred->next_ = entry`, `curr->mark( true )`), and each changes it
as the sequential operation `Upd.apply` does. `State.phase` is the outcome of a call once it is decided; for a `remove`
that returns `false` this is the last read of its `validate`. `phase_own` and `phase_other` say what one step does to
both, and `Lts.Run.crossing` turns that into exactly one linearization point for each completed call.
-/

namespace Libeva.Ds.LazyList

open Linked (Path follow)

variable {ι α κ : Type*} [LinearOrder κ] (key : α → κ)

/-! ## The map that a list stands for -/

/-- The entry of the unmarked node with key `x` on the `next_` chain from `head_`. -/
def State.abs (s : State ι α) (x : κ) : Option α :=
  (s.chain.find? fun n => !s.marked n && decide (s.keyOf key n = x)).map fun n => (s.mem n).entry_

/-- The sequential operations, with what they return. -/
def Upd.apply (u : Upd) (k : α) (m : κ → Option α) : (κ → Option α) × Bool :=
  match u with
  | .add => (Function.update m (key k) (some k), true)
  | .remove => (Function.update m (key k) none, (m (key k)).isSome)

/-- What the statement at a program point does to the map. -/
def Pc.effect (m : κ → Option α) : Pc α → κ → Option α
  | .replace w | .link w _ => Function.update m (key w.key) (some w.key)
  | .mark w => Function.update m (key w.key) none
  | _ => m

/-- The outcome of an update, from the step on that decides it. -/
def Pc.phase (s : State ι α) : Pc α → Option Bool
  | .equalL w | .equalR w => if w.upd = .remove ∧ s.keyOf key w.curr ≠ key w.key then some false else none
  | .readNext _ | .unlink _ _ | .delete _ => some true
  | .unlockCurr _ r | .unlockPred _ r => r
  | .ret _ (.bool b) => some b
  | _ => none

variable {key} {s s' : State ι α} {l : List Ref} {t u : ι} {p : Pc α} {w : Window α} {n : Ref}

/-- Keys tell the nodes of the list apart. -/
theorem Shape.keyOf_inj (h : Shape key s l) {m : Ref} (hn : n ∈ l) (hm : m ∈ l)
    (hk : s.keyOf key n = s.keyOf key m) : n = m := by
  by_contra hne
  have hp : l.Pairwise fun a b => s.keyOf key a ≠ s.keyOf key b := h.sorted.imp fun hab => ne_of_lt hab
  have : Std.Symm fun a b => s.keyOf key a ≠ s.keyOf key b := ⟨fun _ _ hab => hab.symm⟩
  exact hp.forall hn hm hne hk

/-- The map through the linked nodes: the chain has all unmarked ones. -/
theorem Inv.abs_eq_some (h : Inv key s) {x : κ} {e : α} : s.abs key x = some e ↔
    ∃ n, s.Linked n ∧ s.marked n = false ∧ s.keyOf key n = x ∧ (s.mem n).entry_ = e := by
  simp only [State.abs, Option.map_eq_some_iff]
  constructor
  · rintro ⟨n, hn, rfl⟩
    have hp := List.find?_some hn
    simp only [Bool.and_eq_true, Bool.not_eq_true', decide_eq_true_eq] at hp
    exact ⟨n, h.shape.linked n (List.mem_of_find?_eq_some hn), hp.1, hp.2, rfl⟩
  · rintro ⟨n, hl, hm, hk, rfl⟩
    have hmem := h.shape.complete n hl hm
    refine ⟨n, ?_, rfl⟩
    cases hf : s.chain.find? (fun n => !s.marked n && decide (s.keyOf key n = x)) with
    | none => simpa [hm, hk] using List.find?_eq_none.1 hf n hmem
    | some m =>
      have hp := List.find?_some hf
      simp only [Bool.and_eq_true, decide_eq_true_eq] at hp
      rw [h.shape.keyOf_inj (List.mem_of_find?_eq_some hf) hmem (hp.2.trans hk.symm)]

theorem Inv.abs_eq_none (h : Inv key s) {x : κ} :
    s.abs key x = none ↔ ∀ n, s.Linked n → s.marked n = false → s.keyOf key n ≠ x := by
  constructor
  · intro ha n hl hm hk
    rw [h.abs_eq_some.2 ⟨n, hl, hm, hk, rfl⟩] at ha
    cases ha
  · intro hn
    cases ha : s.abs key x with
    | none => rfl
    | some e =>
      obtain ⟨n, hl, hm, hk, -⟩ := h.abs_eq_some.1 ha
      exact absurd hk (hn n hl hm)

/-- The map only depends on the marks and entries of the linked nodes. -/
theorem Inv.abs_congr (h : Inv key s) (h' : Inv key s') (hl : ∀ n, s'.Linked n ↔ s.Linked n)
    (hm : ∀ n, s.Linked n → s'.marked n = s.marked n) (he : ∀ n, s.Linked n → (s'.mem n).entry_ = (s.mem n).entry_) :
    s'.abs key = s.abs key := by
  funext x
  apply Option.ext
  intro e
  rw [h.abs_eq_some, h'.abs_eq_some]
  apply exists_congr
  intro n
  rw [hl n]
  apply and_congr_right
  intro hn
  rw [hm n hn, State.keyOf, he n hn]; rfl

/-- The new map has `k` at its key and is otherwise the old one. -/
theorem Inv.abs_insert (h : Inv key s) (h' : Inv key s') {k : α} (hn : s'.Linked n) (hm : s'.marked n = false)
    (he : (s'.mem n).entry_ = k) (hl : ∀ m, m ≠ n → (s'.Linked m ↔ s.Linked m))
    (hold : s.Linked n → s.keyOf key n = key k)
    (hmk : ∀ m, m ≠ n → s'.marked m = s.marked m) (hen : ∀ m, m ≠ n → (s'.mem m).entry_ = (s.mem m).entry_) :
    s'.abs key = Function.update (s.abs key) (key k) (some k) := by
  have hkn : s'.keyOf key n = key k := by rw [State.keyOf, he]
  funext x
  apply Option.ext
  intro e
  by_cases hx : x = key k
  · subst hx
    rw [Function.update_self, h'.abs_eq_some.2 ⟨n, hn, hm, hkn, he⟩]
  · rw [Function.update_of_ne hx, h.abs_eq_some, h'.abs_eq_some]
    apply exists_congr
    intro m
    by_cases hmn : m = n
    · subst hmn
      refine iff_of_false (fun hc => hx (hc.2.2.1.symm.trans hkn)) fun hc => hx (hc.2.2.1.symm.trans (hold hc.1))
    · rw [hl m hmn, hmk m hmn, State.keyOf, hen m hmn]; rfl

/-- The new map has nothing at the key of the node that became marked and is otherwise the old one. -/
theorem Inv.abs_erase (h : Inv key s) (h' : Inv key s') (hn : s.Linked n) (hm : s.marked n = false)
    (hm' : s'.marked n = true) (hl : ∀ m, s'.Linked m ↔ s.Linked m) (hmk : ∀ m, m ≠ n → s'.marked m = s.marked m)
    (hen : ∀ m, (s'.mem m).entry_ = (s.mem m).entry_) :
    s'.abs key = Function.update (s.abs key) (s.keyOf key n) none := by
  have hk : ∀ m, s'.keyOf key m = s.keyOf key m := fun m => by rw [State.keyOf, hen]; rfl
  funext x
  by_cases hx : x = s.keyOf key n
  · subst hx
    rw [Function.update_self, h'.abs_eq_none]
    intro m hml hmm hkm
    have hne : m ≠ n := fun e => by rw [e, hm'] at hmm; cases hmm
    refine hne (h.shape.keyOf_inj (h.shape.complete m ((hl m).1 hml) (by rw [← hmk m hne]; exact hmm))
      (h.shape.complete n hn hm) ?_)
    rw [← hk]; exact hkm
  · rw [Function.update_of_ne hx]
    apply Option.ext
    intro e
    rw [h.abs_eq_some, h'.abs_eq_some]
    apply exists_congr
    intro m
    by_cases hmn : m = n
    · subst hmn
      exact iff_of_false (fun hc => hx (by rw [← hc.2.2.1, hk])) fun hc => hx hc.2.2.1.symm
    · rw [hl m, hmk m hmn, hk, hen]

/-- Between two neighbours of the list no key is in the map. -/
theorem Inv.abs_none_between (h : Inv key s) {x : κ} {b c : Ref} (hb : b ∈ head_ :: s.chain)
    (hlt : b ≠ head_ → s.keyOf key b < x) (hnext : s.next b = some c) (hc : x < s.keyOf key c) :
    s.abs key x = none := by
  rw [h.abs_eq_none]
  intro n hn hm hkn
  obtain ⟨l₁, l₂, he, hpath⟩ := h.shape.path.split hb
  have hmem : n ∈ l₁ ++ b :: l₂ := by
    rw [← he]; exact List.mem_cons_of_mem _ (h.shape.complete n hn hm)
  have hsorted : (l₁ ++ b :: l₂).Pairwise fun a b => b ≠ head_ ∧ (a ≠ head_ → s.keyOf key a < s.keyOf key b) := by
    rw [← he]
    refine List.pairwise_cons.2 ⟨fun b hb => ⟨(h.shape.linked b hb).ne_head, fun e => absurd rfl e⟩, ?_⟩
    exact h.shape.sorted.imp_of_mem fun {a b} _ hb hab => ⟨(h.shape.linked b hb).ne_head, fun _ => hab⟩
  rw [List.pairwise_append, List.pairwise_cons] at hsorted
  obtain ⟨-, ⟨hp2, h2⟩, h12⟩ := hsorted
  rcases List.mem_append.1 hmem with hn1 | hn1
  · have := h12 n hn1 b List.mem_cons_self
    exact absurd (lt_trans (this.2 hn.ne_head) (hlt this.1)) (by rw [hkn]; exact lt_irrefl _)
  · rcases List.mem_cons.1 hn1 with rfl | hn2
    · exact absurd (hlt hn.ne_head) (by rw [hkn]; exact lt_irrefl _)
    · cases l₂ with
      | nil => cases hn2
      | cons c' l₂ =>
        obtain rfl : c = c' := Option.some.inj (hnext.symm.trans hpath.1)
        rcases List.mem_cons.1 hn2 with rfl | hn3
        · exact absurd hc (by rw [hkn]; exact lt_irrefl _)
        · have := ((List.pairwise_cons.1 h2).1 n hn3).2 (hp2 _ List.mem_cons_self).1
          rw [hkn] at this
          exact lt_asymm hc this

/-- Under `validate` the key is in the map only when `curr` carries it. -/
theorem Window.Valid.abs_none (hv : w.Valid key s) (h : Inv key s) (hk : s.keyOf key w.curr ≠ key w.key) :
    s.abs key (key w.key) = none := by
  obtain ⟨hfound, hpm, -, hnext⟩ := hv
  exact h.abs_none_between (h.shape.mem_of_unmarked hfound.pred_or hpm) hfound.pred_lt hnext
    (lt_of_le_of_ne hfound.2 hk.symm)

/-! ## What one step does -/

/-- A step that changes no node changes no map. -/
theorem Quiet.abs (hq : Quiet s s') (h : Inv key s) (h' : Inv key s') : s'.abs key = s.abs key :=
  h.abs_congr h' hq.linked (fun n hn => hq.marked n (.inr (.inr hn))) fun n hn => hq.entry n (.inr (.inr hn))

variable [DecidableEq ι] {a : Action ι α}

@[simp] theorem goto_abs : (s.goto t p).abs key = s.abs key := rfl

/-- The four statements that change nodes, on the map. -/
theorem Change.abs (hc : Change s t w s') (h : Inv key s) (h' : Inv key s') :
    s'.abs key = (s.pc t).effect key (s.abs key) := by
  have hloc := h.loc t
  have harg : ∀ {p : Pc α}, s.pc t = p → p.call? = some (.update w.upd w.key) → key w.key < s.keyOf key tail_ :=
    fun hp hcall => h.arg t (.update w.upd w.key) (by rw [hp]; exact hcall)
  cases hc with
  | replace hp =>
    rw [hp] at hloc ⊢
    obtain ⟨⟨hfound, -, hcm, -⟩, -, hk⟩ := hloc
    have hl := hfound.linked hk (harg hp rfl)
    refine h.abs_insert h' (n := w.curr) ((write_linked (by rw [hp]; rfl)).2 hl)
      ((goto_same Node.marked_ (by rfl)).trans hcm)
      ?_ (fun m _ => write_linked (by rw [hp]; rfl)) (fun _ => hk) (fun m _ => goto_same Node.marked_ rfl)
      fun m hm => ?_
    · rw [goto_mem, write_mem, Function.update_self]
    · rw [goto_mem, write_mem, Function.update_of_ne hm]
  | @link n hp =>
    rw [hp] at hloc ⊢
    obtain ⟨-, -, -, -, hl⟩ := h.shape.link hloc hp (harg hp rfl) rfl
    obtain ⟨-, -, -, hent, hnm, -⟩ := hloc
    refine h.abs_insert h' ((hl n).2 (.inl rfl)) ((goto_same Node.marked_ (by rfl)).trans hnm)
      ((goto_same Node.entry_ (by rfl)).trans hent) (fun m hm => (hl m).trans (or_iff_right hm))
      (fun hn => absurd (by rw [hp]; rfl) (hn.2.2 t)) (fun m _ => goto_same Node.marked_ rfl)
      fun m _ => goto_same Node.entry_ rfl
  | mark hp =>
    rw [hp] at hloc ⊢
    obtain ⟨⟨hfound, -, hcm, -⟩, -, hk⟩ := hloc
    have hl := hfound.linked hk (harg hp rfl)
    rw [Pc.effect, ← hk]
    refine h.abs_erase h' hl hcm ?_ (fun m => write_linked (by rw [hp]; rfl)) ?_
      fun m => goto_same Node.entry_ rfl
    · rw [State.marked, goto_mem, write_mem, Function.update_self]
    · intro m hm
      rw [State.marked, goto_mem, write_mem, Function.update_of_ne hm]
  | unlink hp =>
    rw [hp]
    exact h.abs_congr h' (fun m => write_linked (by rw [hp]; rfl)) (fun m _ => goto_same Node.marked_ rfl)
      fun m _ => goto_same Node.entry_ rfl

/-- One step of `t`, on the map. -/
theorem Inv.tick_abs (h : Inv key s) (hs : LazyList.step key s (.tick t) = some s') :
    s'.abs key = (s.pc t).effect key (s.abs key) := by
  have h' := h.step hs
  cases hp : s.pc t with
  | replace w =>
    simp only [LazyList.step, hp] at hs
    cases hs
    rw [(Change.replace hp).abs h h', hp]
  | link w n =>
    simp only [LazyList.step, hp] at hs
    cases hs
    rw [(Change.link hp).abs h h', hp]
  | mark w =>
    simp only [LazyList.step, hp] at hs
    cases hs
    rw [(Change.mark hp).abs h h', hp]
  | _ =>
    rcases step_cases h hs with hq | ⟨t', w, e, hc⟩
    · exact hq.abs h h'
    · cases e
      rw [hc.abs h h', hp]

theorem exec_pc {i : Instr α} (hs : exec s t i = some s') : ∃ p, s'.pc = Function.update s.pc t p := by
  cases i with
  | halt => cases hs
  | lock n p =>
    simp only [exec] at hs
    split at hs
    · cases hs; exact ⟨_, rfl⟩
    · cases hs
  | _ => cases hs; exact ⟨_, rfl⟩

/-- A step of another thread leaves a call where it is. -/
theorem step_pc (hs : step key s a = some s') (ha : a ≠ .tick t) (hc : (s.pc t).call? ≠ none) :
    s'.pc t = s.pc t := by
  cases a with
  | tick u =>
    obtain ⟨p, hp⟩ := exec_pc hs
    rw [hp, Function.update_of_ne]
    rintro rfl
    exact ha rfl
  | invoke u c =>
    simp only [step] at hs
    have hut : t ≠ u := by
      rintro rfl
      split at hs <;> rename_i hp
      · rw [hp] at hc; exact hc rfl
      · rw [hp] at hc; exact hc rfl
      · cases hs
    split at hs <;> try split at hs
    all_goals cases hs
    all_goals rw [goto_pc, Function.update_of_ne hut]

/-- A step of another thread does not decide a call. -/
theorem phase_other (h : Inv key s) (hs : step key s a = some s') (ha : a ≠ .tick t)
    (hc : (s.pc t).call? ≠ none) : (s'.pc t).phase key s' = (s.pc t).phase key s := by
  rw [step_pc hs ha hc]
  have hloc := h.loc t
  cases hp : s.pc t with
  | equalL w | equalR w =>
    rw [hp] at hloc
    simp only [Pc.phase, h.step_keyOf hs (.inr hloc.1.1.2)]
  | ret c r => exact absurd (by rw [hp]; rfl) hc
  | _ => rfl

/-- A step of an update decides nothing and leaves the map alone, or decides the call and does to the map what the
sequential operation does. -/
theorem phase_own {k : α} {o : Upd} (h : Inv key s) (hs : step key s (.tick t) = some s')
    (hc : (s.pc t).call? = some (.update o k)) :
    ((s'.pc t).phase key s' = (s.pc t).phase key s ∧ s'.abs key = s.abs key) ∨
      ∃ b, (s.pc t).phase key s = none ∧ (s'.pc t).phase key s' = some b ∧
        o.apply key k (s.abs key) = (s'.abs key, b) ∧ (o = .remove → b = false → ∃ w, s.pc t = .valNext w) := by
  have habs := h.tick_abs hs
  have hloc := h.loc t
  have hpcs : ∀ {s : State ι α} {p : Pc α}, (s.goto t p).pc t = p := fun {s p} => by rw [goto_pc, Function.update_self]
  simp only [step] at hs
  cases hp : s.pc t with
  | readHead u k | next u k c =>
    rw [hp] at habs
    simp only [hp, fetch, exec, Option.some.injEq] at hs
    subst hs
    refine .inl ⟨?_, habs⟩
    rw [hpcs]
    simp only [deref]
    split <;> rfl
  | loop w | valPred w | valCurr w =>
    rw [hp] at habs
    simp only [hp, fetch, exec, Option.some.injEq] at hs
    subst hs
    refine .inl ⟨?_, habs⟩
    rw [hpcs]
    split <;> rfl
  | lockPred w | lockCurr w =>
    rw [hp] at habs
    simp only [hp, fetch, exec] at hs
    split at hs
    · cases hs; exact .inl ⟨by rw [hpcs]; rfl, habs⟩
    · cases hs
  | new w | setNext w n | readNext w | unlink w m | delete w | unlockCurr w r =>
    rw [hp] at hs habs
    cases hs
    exact .inl ⟨by rw [hpcs]; rfl, habs⟩
  | unlockPred w r =>
    rw [hp] at habs
    cases r <;> (rw [hp] at hs; cases hs; exact .inl ⟨by rw [hpcs]; rfl, habs⟩)
  | valNext w =>
    rw [hp] at habs hc hloc
    cases hc
    simp only [hp, fetch, exec, Option.some.injEq] at hs
    subst hs
    rw [hpcs]
    split
    · rename_i hnext
      have hv : w.Valid key s := ⟨hloc.1, hloc.2.1, hloc.2.2, hnext⟩
      by_cases hfail : w.upd = .remove ∧ s.keyOf key w.curr ≠ key w.key
      · -- `remove` has seen that its key is absent
        refine .inr ⟨false, rfl, if_pos hfail, ?_, fun _ _ => ⟨w, rfl⟩⟩
        have hnone := hv.abs_none h hfail.2
        rw [goto_abs, hfail.1, Upd.apply, hnone]
        exact congrArg₂ Prod.mk (Function.update_eq_self_iff.2 hnone.symm) rfl
      · exact .inl ⟨if_neg hfail, habs⟩
    · exact .inl ⟨rfl, habs⟩
  | equalL w =>
    rw [hp] at habs hloc
    simp only [hp, fetch, exec, cmp, decide_eq_true_eq, Option.some.injEq] at hs
    subst hs
    refine .inl ⟨?_, habs⟩
    have hge : ¬key (s.mem w.curr).entry_ < key w.key := not_lt.2 hloc.1.2
    rw [hpcs, if_neg hge]
    rfl
  | equalR w =>
    rw [hp] at habs hloc
    simp only [hp, fetch, exec, cmp, decide_eq_true_eq, Option.some.injEq] at hs
    subst hs
    refine .inl ⟨?_, habs⟩
    rw [hpcs, Pc.phase]
    split
    · rename_i hlt
      cases hu : w.upd <;> simp [Window.notEqual, hu, Pc.phase, State.keyOf, ne_of_gt hlt]
    · rename_i hlt
      have heq : key (s.mem w.curr).entry_ = key w.key := le_antisymm (not_lt.1 hlt) hloc.1.2
      cases hu : w.upd <;> simp [Window.isEqual, hu, Pc.phase, State.keyOf, heq]
  | replace w | link w n =>
    have hadd : w.upd = .add := by rw [hp] at hloc; exact hloc.2.1
    rw [hp] at hs habs hc
    cases hc
    cases hs
    exact .inr ⟨true, rfl, by rw [hpcs]; rfl, by rw [habs, hadd]; rfl, fun hr => by rw [hadd] at hr; cases hr⟩
  | mark w =>
    rw [hp] at hs habs hc hloc
    cases hc
    cases hs
    obtain ⟨⟨hfound, -, hcm, -⟩, hrem, hk⟩ := hloc
    have hl := hfound.linked hk (h.arg t (.update w.upd w.key) (by rw [hp]; rfl))
    have hsome : s.abs key (key w.key) = some (s.mem w.curr).entry_ := h.abs_eq_some.2 ⟨_, hl, hcm, hk, rfl⟩
    exact .inr ⟨true, rfl, by rw [hpcs]; rfl, by rw [habs, hrem, Upd.apply, hsome]; rfl,
      fun _ hb => absurd hb.symm Bool.false_ne_true⟩
  | _ => rw [hp] at hc; cases hc

/-! ## Runs -/

/-- The list in memory is well formed. -/
structure WellFormed (key : α → κ) (s : State ι α) : Prop where
  path : Path s.next head_ s.chain tail_
  sorted : (s.chain ++ [tail_]).Pairwise fun a b => s.keyOf key a < s.keyOf key b
  complete : ∀ n, s.Linked n → s.marked n = false → n ∈ s.chain
  unlinking : ∀ n ∈ s.chain, s.marked n = true → ∃ t, (s.pc t).unlinking? = some n

omit [DecidableEq ι] in
theorem Inv.wellFormed (h : Inv key s) : WellFormed key s where
  path := h.shape.path
  sorted := List.pairwise_append.2 ⟨h.shape.sorted, List.pairwise_singleton _ _, fun n hn m hm => by
    rw [List.mem_singleton.1 hm]; exact h.shape.lt_max n (h.shape.linked n hn)⟩
  complete := h.shape.complete
  unlinking := h.shape.unlinking

/-- The move at which an update of `t` takes effect with the result `b`. -/
def TakesEffect (key : α → κ) (t : ι) (o : Upd) (k : α) (b : Bool) (x : State ι α × Action ι α × State ι α) : Prop :=
  x.2.1 = .tick t ∧ o.apply key k (x.1.abs key) = (x.2.2.abs key, b) ∧
    (o = .remove → b = false → ∃ v, x.1.pc t = .valNext v)

/-- A move that leaves the map alone if it is one of `t`. -/
def Silent (key : α → κ) (t : ι) (x : State ι α × Action ι α × State ι α) : Prop :=
  x.2.1 = .tick t → x.2.2.abs key = x.1.abs key

/-- In every reachable state the list is well formed, and every completed `add` and `remove` has one step of its own at
which the map changes as the sequential operation changes it, with the result that the call returns; its other steps
leave the map alone. The step of a `remove` that returns `false` is the last one of its `validate`. -/
theorem update_linearizable [Inhabited α] (key : α → κ) (maxVal : α) :
    (∀ s : State ι α, Lts.Reach (threads key maxVal) s → WellFormed key s) ∧
    ∀ (s s' : State ι α) (w : List (State ι α × Action ι α × State ι α)) (t : ι) (o : Upd) (k : α) (b : Bool),
      Lts.Reach (threads key maxVal) s → Lts.Run (threads key maxVal) s w s' → s.pc t = .readHead o k →
      (∀ x ∈ w, (x.1.pc t).call? = some (.update o k)) → s'.pc t = .ret (.update o k) (.bool b) →
      ∃ w₁ x w₂, w = w₁ ++ x :: w₂ ∧ TakesEffect key t o k b x ∧ ∀ y ∈ w₁ ++ w₂, Silent key t y := by
  refine ⟨fun s hs => (reach_inv hs).wellFormed, ?_⟩
  intro s s' w t o k b hs hr h0 hG h1
  have hpre : ∀ (s : State ι α) a s', Lts.Reach (threads key maxVal) s → (threads key maxVal).step s a s' →
      (s.pc t).call? = some (.update o k) → (s.pc t).phase key s = none →
      ((s'.pc t).phase key s' = none ∧ Silent key t (s, a, s')) ∨
        ∃ b, (s'.pc t).phase key s' = some b ∧ TakesEffect key t o k b (s, a, s') := by
    intro s a s' hs hst hG h0
    by_cases ha : a = .tick t
    · subst ha
      rcases phase_own (reach_inv hs) hst hG with ⟨hp, habs⟩ | ⟨b, -, hp, happ, hval⟩
      · exact .inl ⟨hp.trans h0, fun _ => habs⟩
      · exact .inr ⟨b, hp, rfl, happ, hval⟩
    · exact .inl ⟨(phase_other (reach_inv hs) hst ha (by rw [hG]; exact nofun)).trans h0, fun e => absurd e ha⟩
  have hpost : ∀ (s : State ι α) a s' b, Lts.Reach (threads key maxVal) s → (threads key maxVal).step s a s' →
      (s.pc t).call? = some (.update o k) → (s.pc t).phase key s = some b →
      (s'.pc t).phase key s' = some b ∧ Silent key t (s, a, s') := by
    intro s a s' b hs hst hG h0
    by_cases ha : a = .tick t
    · subst ha
      rcases phase_own (reach_inv hs) hst hG with ⟨hp, habs⟩ | ⟨b', hp, -⟩
      · exact ⟨hp.trans h0, fun _ => habs⟩
      · rw [h0] at hp; cases hp
    · exact ⟨(phase_other (reach_inv hs) hst ha (by rw [hG]; exact nofun)).trans h0, fun e => absurd e ha⟩
  exact Lts.Run.crossing hpre hpost hs hr hG (by rw [h0]; rfl) (by rw [h1]; rfl)

/-- One thread has called `add( 5 )` on an empty list of numbers below `9`. -/
def addFive : State ℕ ℕ := (State.init 9).goto 0 (.readHead .add 5)

theorem reach_addFive : Lts.Reach (threads id 9) addFive :=
  .step (a := .invoke 0 (.update .add 5)) (.init rfl) rfl

/-- The call has returned. -/
def addedFive : State ℕ ℕ := (Lts.exec (step id) addFive (List.replicate 14 (.tick 0))).get (by decide)

theorem exec_addFive : Lts.exec (step id) addFive (List.replicate 14 (.tick 0)) = some addedFive :=
  (Option.some_get _).symm

/-- `5` is in the list; thread `0` has called `add( 7 )` and thread `1` has called `remove( 5 )`. -/
def addRemove : State ℕ ℕ := (addedFive.goto 0 (.readHead .add 7)).goto 1 (.readHead .remove 5)

theorem reach_addRemove : Lts.Reach (threads id 9) addRemove :=
  .step (a := .invoke 1 (.update .remove 5)) (.step (a := .invoke 0 (.update .add 7)) (reach_addFive.exec exec_addFive)
    rfl) rfl

/-- `add( 7 )` comes to the node of `5`, and `remove( 5 )` takes it out. -/
def removed : List (Action ℕ ℕ) := List.replicate 4 (.tick 0) ++ List.replicate 15 (.tick 1)

/-- The `validate` of `add( 7 )` fails, and it starts again. -/
def retried : List (Action ℕ ℕ) := removed ++ List.replicate 19 (.tick 0)

theorem update_linearizable_five :
    (∃ w₁ x w₂, Lts.moves (step id) addRemove removed = w₁ ++ x :: w₂ ∧ TakesEffect id 1 .remove 5 true x ∧
      ∀ y ∈ w₁ ++ w₂, Silent id 1 y) ∧
    ∃ w₁ x w₂, Lts.moves (step id) addRemove retried = w₁ ++ x :: w₂ ∧ TakesEffect id 0 .add 7 true x ∧
      ∀ y ∈ w₁ ++ w₂, Silent id 0 y :=
  ⟨(update_linearizable id 9).2 addRemove _ _ 1 .remove 5 true reach_addRemove
      (.schedule (by decide +kernel)) rfl (by decide +kernel) (by decide +kernel),
    (update_linearizable id 9).2 addRemove _ _ 0 .add 7 true reach_addRemove
      (.schedule (by decide +kernel)) rfl (by decide +kernel) (by decide +kernel)⟩

end Libeva.Ds.LazyList
