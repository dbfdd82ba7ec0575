import Libeva.Ds.LazyList.Preserve

/-!
# Linking, marking and unlinking

The three statements that change the list: `pred->next_ = entry` inserts the new node (`Linked.Path.insert`),
`curr->mark( true )` changes no pointer, `pred->next_ = curr->next_` takes the marked node out (`Linked.Path.remove`).
Each relies on `validate` under both locks: `pred` is unmarked, so it is on the list, and `curr` is its successor.

`Inv.tick` goes through the program points; `reach_inv` has the invariant in every reachable state.
-/

namespace Libeva.Ds.LazyList

open Linked (Path follow)

variable {ι α κ : Type*} [LinearOrder κ] {key : α → κ} {s s' : State ι α} {l : List Ref} {t u : ι} {p : Pc α}
  {w : Window α} {n : Ref}

/-- A node locked by `t` is not locked by another thread. -/
theorem Inv.lock_ne (h : Inv key s) (hut : u ≠ t) (hn : n ∈ (s.pc t).locks) {m : Ref} (hm : m ∈ (s.pc u).locks) :
    m ≠ n := by
  rintro rfl
  have h1 := (h.locks t m).2 hn
  rw [(h.locks u m).2 hm] at h1
  exact hut (Option.some.inj h1)

variable [DecidableEq ι]

/-- A thread's new node becomes a linked one. -/
theorem Shape.linked_publish (h : Shape key s l) (hfn : (s.pc t).fresh? = some n) (hft : (s'.pc t).fresh? = none)
    (hf : ∀ u, u ≠ t → (s'.pc u).fresh? = (s.pc u).fresh?) (hbrk : s'.brk = s.brk) (m : Ref) :
    s'.Linked m ↔ m = n ∨ s.Linked m := by
  constructor
  · rintro ⟨h1, h2, h3⟩
    refine or_iff_not_imp_left.2 fun hne => ⟨h1, by rw [← hbrk]; exact h2, ?_⟩
    intro u
    by_cases hu : u = t
    · rw [hu, hfn]; exact fun e => hne (Option.some.inj e).symm
    · rw [← hf u hu]; exact h3 u
  · rintro (rfl | ⟨h1, h2, h3⟩)
    · refine ⟨(h.fresh t m hfn).1, by rw [hbrk]; exact (h.fresh t m hfn).2, ?_⟩
      intro u
      by_cases hu : u = t
      · rw [hu, hft]; exact nofun
      · rw [hf u hu]; exact fun e => hu (h.fresh_inj u t m e hfn)
    · refine ⟨h1, by rw [hbrk]; exact h2, ?_⟩
      intro u
      by_cases hu : u = t
      · rw [hu, hft]; exact nofun
      · rw [hf u hu]; exact h3 u

/-- `pred->next_ = entry`, with the list before and after. -/
theorem Shape.link (h : Shape key s l) (hloc : Local key s (.link w n)) (hp : s.pc t = .link w n)
    (harg : key w.key < s.keyOf key tail_)
    (hs' : s' = (s.write w.pred { s.mem w.pred with next_ := some n }).goto t (.unlockCurr w (some true))) :
    ∃ l₁ l₂, l = l₁ ++ l₂ ∧ Shape key s' (l₁ ++ n :: l₂) ∧ ∀ m, s'.Linked m ↔ m = n ∨ s.Linked m := by
  obtain ⟨⟨hfound, hpm, hcm, hnext⟩, -, hlt, hent, hnm, hnn⟩ := hloc
  have hpc : s'.pc = Function.update s.pc t (.unlockCurr w (some true)) := by rw [hs']; rfl
  have hmem : s'.mem = Function.update s.mem w.pred { s.mem w.pred with next_ := some n } := by rw [hs']; rfl
  have hbrk : s'.brk = s.brk := by rw [hs']; rfl
  have hfn : (s.pc t).fresh? = some n := by rw [hp]; rfl
  have hft : (s'.pc t).fresh? = none := by rw [hpc, Function.update_self]; rfl
  have hf : ∀ u, u ≠ t → (s'.pc u).fresh? = (s.pc u).fresh? := fun u hu => by rw [hpc, Function.update_of_ne hu]
  have hl := h.linked_publish hfn hft hf hbrk
  have hm : ∀ m, s'.marked m = s.marked m := write_same Node.marked_ hmem rfl
  have hk : ∀ m, s'.keyOf key m = s.keyOf key m := write_same (fun y => key y.entry_) hmem rfl
  have hkn : s.keyOf key n = key w.key := by rw [State.keyOf, hent]
  have hnext' : ∀ m, m ≠ w.pred → s'.next m = s.next m := by
    intro m hne
    rw [State.next, hmem, Function.update_of_ne hne]
  have hpn : s'.next w.pred = some n := by rw [State.next, hmem, Function.update_self]
  have hnp : n ≠ w.pred := fun e => h.fresh_ne hfn (hfound.pred_or.imp id .inr) e.symm
  obtain ⟨l₁, l₂, rfl, hpath, hlast, hhead⟩ := Path.insert hnext hpn ((hnext' n hnp).trans hnn)
    h.path h.nodup (h.mem_of_unmarked hfound.pred_or hpm) fun x _ => hnext' x
  refine ⟨l₁, l₂, rfl, ?_, hl⟩
  have hmemL : ∀ x, x ∈ l₁ ++ n :: l₂ ↔ x = n ∨ x ∈ l₁ ++ l₂ := by
    intro x
    simp only [List.mem_append, List.mem_cons]; tauto
  exact
    { path := hpath
      linked := fun x hx => (hl x).2 (((hmemL x).1 hx).imp id (h.linked x))
      sorted := by
        simp only [hk]
        refine Linked.pairwise_insert (R := fun a b => s.keyOf key a < s.keyOf key b) (fun _ _ _ => lt_trans) h.sorted
          ?_ ?_
        · intro x hx
          -- the last node before the new one is `pred`, which lies before the key
          have hx' : x = w.pred := by
            cases l₁ with
            | nil => cases hx
            | cons a l₁ =>
              rw [List.getLast?_cons_cons] at hlast
              exact Option.some.inj ((Option.mem_def.1 hx).symm.trans hlast)
          have hxl : s.Linked x := h.linked x (List.mem_append_left _ (List.mem_of_getLast? hx))
          rw [hkn, hx']
          exact hfound.pred_lt (hx' ▸ hxl.ne_head)
        · intro y hy
          have hy' : y = w.curr := by
            cases l₂ with
            | nil => cases hy
            | cons a l₂ => exact Option.some.inj ((Option.mem_def.1 hy).symm.trans hhead)
          rw [hkn, hy']; exact hlt
      complete := fun x hx hmk => (hmemL x).2 (((hl x).1 hx).imp id fun hx => h.complete x hx (by rw [← hm]; exact hmk))
      unlinking := by
        intro x hx hmk
        rw [hm] at hmk
        rcases (hmemL x).1 hx with rfl | hx
        · rw [hnm] at hmk; cases hmk
        · obtain ⟨u, hu⟩ := h.unlinking x hx hmk
          have hut : u ≠ t := fun e => by rw [e, hp] at hu; cases hu
          exact ⟨u, by rw [hpc, Function.update_of_ne hut]; exact hu⟩
      succ := by
        intro x hx
        have mono : ∀ y, s.Linked y → s'.Linked y := fun y hy => (hl y).2 (.inr hy)
        rcases (hl x).1 hx with rfl | hx
        · exact ⟨w.curr, (hnext' _ hnp).trans hnn, hfound.1.2.keeps mono, by rw [hk, hk, hkn]; exact hlt⟩
        · by_cases hxp : x = w.pred
          · subst hxp
            exact ⟨n, hpn, .inr ((hl n).2 (.inl rfl)), by rw [hk, hk, hkn]; exact hfound.pred_lt hx.ne_head⟩
          · obtain ⟨y, h1, h2, h3⟩ := h.succ x hx
            exact ⟨y, (hnext' x hxp).trans h1, h2.keeps mono, by rw [hk, hk]; exact h3⟩
      lt_max := by
        intro x hx
        rw [hk, hk]
        rcases (hl x).1 hx with rfl | hx
        · rw [hkn]; exact harg
        · exact h.lt_max x hx
      head := by rw [hm]; exact h.head
      tail := by rw [hm]; exact h.tail
      brk := by rw [hbrk]; exact h.brk
      fresh := by
        intro u x hx
        rw [hbrk]
        by_cases hu : u = t
        · rw [hu, hft] at hx; cases hx
        · rw [hf u hu] at hx; exact h.fresh u x hx
      fresh_inj := by
        intro u v x hu hv
        by_cases hut : u = t
        · rw [hut, hft] at hu; cases hu
        · by_cases hvt : v = t
          · rw [hvt, hft] at hv; cases hv
          · rw [hf u hut] at hu; rw [hf v hvt] at hv; exact h.fresh_inj u v x hu hv }

theorem Inv.link (h : Inv key s) (hp : s.pc t = .link w n) :
    Inv key ((s.write w.pred { s.mem w.pred with next_ := some n }).goto t (.unlockCurr w (some true))) := by
  generalize hs' : (s.write w.pred { s.mem w.pred with next_ := some n }).goto t (.unlockCurr w (some true)) = s'
  have hpc : s'.pc = Function.update s.pc t (.unlockCurr w (some true)) := by rw [← hs']; rfl
  have hmem : s'.mem = Function.update s.mem w.pred { s.mem w.pred with next_ := some n } := by rw [← hs']; rfl
  have hloc := h.loc t
  rw [hp] at hloc
  have harg : key w.key < s.keyOf key tail_ := h.arg t (.update w.upd w.key) (by rw [hp]; rfl)
  obtain ⟨l₁, l₂, -, hsh, hl⟩ := h.shape.link hloc hp harg hs'.symm
  have hk : ∀ m, s'.keyOf key m = s.keyOf key m := write_same (fun y => key y.entry_) hmem rfl
  have mono : ∀ m, s.Linked m → s'.Linked m := fun m hm => (hl m).2 (.inr hm)
  have hpl : w.pred ∈ (s.pc t).locks := by rw [hp]; simp [Pc.locks]
  refine h.update hpc hsh (fun u hu => ⟨mono, fun m _ => hk m, fun m hm => ⟨write_same Node.marked_ hmem rfl m, ?_⟩,
    fun m hm => ?_⟩) (h.locks_same hpc (by rw [hp]; rfl) (write_same Node.spinLock_ hmem rfl)) (hk _)
    (h.arg_of (.inr (by rw [hp]; rfl))) (hloc.1.1.keeps mono fun m _ => hk m)
  · rw [State.next, hmem, Function.update_of_ne (h.lock_ne hu hpl hm)]
  · rw [hmem, Function.update_of_ne (h.shape.fresh_ne hm (hloc.1.1.pred_or.imp id .inr)).symm]

/-- `curr->mark( true )`. -/
theorem Inv.mark (h : Inv key s) (hp : s.pc t = .mark w) :
    Inv key ((s.write w.curr { s.mem w.curr with marked_ := true }).goto t (.readNext w)) := by
  generalize hs' : (s.write w.curr { s.mem w.curr with marked_ := true }).goto t (.readNext w) = s'
  have hpc : s'.pc = Function.update s.pc t (.readNext w) := by rw [← hs']; rfl
  have hmem : s'.mem = Function.update s.mem w.curr { s.mem w.curr with marked_ := true } := by rw [← hs']; rfl
  have hbrk : s'.brk = s.brk := by rw [← hs']; rfl
  have hloc := h.loc t
  rw [hp] at hloc
  obtain ⟨⟨hfound, hpm, hcm, hnext⟩, hrem, hkc⟩ := hloc
  have harg : key w.key < s.keyOf key tail_ := h.arg t (.update w.upd w.key) (by rw [hp]; rfl)
  have hcl : s.Linked w.curr := hfound.linked hkc harg
  have hf : ∀ u, (s'.pc u).fresh? = (s.pc u).fresh? := update_same _ hpc (by rw [hp]; rfl)
  have hl : ∀ m, s'.Linked m ↔ s.Linked m := linked_iff hpc hbrk (by rw [hp]; rfl)
  have hk : ∀ m, s'.keyOf key m = s.keyOf key m := write_same (fun y => key y.entry_) hmem rfl
  have hn : ∀ m, s'.next m = s.next m := write_same Node.next_ hmem rfl
  have hm : ∀ m, m ≠ w.curr → s'.marked m = s.marked m := by
    intro m hne
    rw [State.marked, hmem, Function.update_of_ne hne]
  have hmc : s'.marked w.curr = true := by rw [State.marked, hmem, Function.update_self]
  have hcl' : w.curr ∈ (s.pc t).locks := by rw [hp]; simp [Pc.locks]
  have hsh := h.shape
  refine h.update hpc (l := s.chain) ?_ (fun u hu => ⟨fun m => (hl m).2, fun m _ => hk m,
    fun m hm' => ⟨hm m (h.lock_ne hu hcl' hm'), hn m⟩, fun m hm' => ?_⟩)
    (h.locks_same hpc (by rw [hp]; rfl) (write_same Node.spinLock_ hmem rfl)) (hk _)
    (h.arg_of (.inr (by rw [hp]; rfl))) ?_
  · exact
      { path := hsh.path.congr fun x _ => hn x
        linked := fun m hx => (hl m).2 (hsh.linked m hx)
        sorted := by simpa only [hk] using hsh.sorted
        complete := by
          intro m hx hmk
          refine hsh.complete m ((hl m).1 hx) ?_
          by_cases hmn : m = w.curr
          · rw [hmn, hmc] at hmk; cases hmk
          · rw [← hm m hmn]; exact hmk
        unlinking := by
          intro m hx hmk
          by_cases hmn : m = w.curr
          · exact ⟨t, by rw [hpc, Function.update_self, hmn]; rfl⟩
          · obtain ⟨u, hu⟩ := hsh.unlinking m hx (by rw [← hm m hmn]; exact hmk)
            have hut : u ≠ t := fun e => by rw [e, hp] at hu; cases hu
            exact ⟨u, by rw [hpc, Function.update_of_ne hut]; exact hu⟩
        succ := by
          intro m hx
          obtain ⟨y, h1, h2, h3⟩ := hsh.succ m ((hl m).1 hx)
          exact ⟨y, (hn m).trans h1, h2.keeps fun z => (hl z).2, by rw [hk, hk]; exact h3⟩
        lt_max := fun m hx => by rw [hk, hk]; exact hsh.lt_max m ((hl m).1 hx)
        head := by rw [hm _ hcl.ne_head.symm]; exact hsh.head
        tail := by rw [hm _ hcl.ne_tail.symm]; exact hsh.tail
        brk := by rw [hbrk]; exact hsh.brk
        fresh := fun u m hu => by rw [hf] at hu; rw [hbrk]; exact hsh.fresh u m hu
        fresh_inj := fun u v m hu hv => by rw [hf] at hu hv; exact hsh.fresh_inj u v m hu hv }
  · rw [hmem, Function.update_of_ne (hsh.fresh_ne hm' (.inr (.inr hcl))).symm]
  · exact ⟨⟨hfound.keeps (fun m => (hl m).2) fun m _ => hk m, by rw [hm _ hfound.pred_ne]; exact hpm, hmc,
      (hn _).trans hnext⟩, hrem, by rw [hk]; exact hkc⟩

/-- `pred->next_ = curr->next_`, with the list before and after. -/
theorem Shape.unlink (h : Shape key s l) {m : Option Ref} (hloc : Local key s (.unlink w m))
    (hp : s.pc t = .unlink w m) (harg : key w.key < s.keyOf key tail_)
    (hs' : s' = (s.write w.pred { s.mem w.pred with next_ := m }).goto t (.delete w)) :
    ∃ l₁ l₂, l = l₁ ++ w.curr :: l₂ ∧ Shape key s' (l₁ ++ l₂) ∧ ∀ n, s'.Linked n ↔ s.Linked n := by
  obtain ⟨⟨hfound, hpm, hcm, hnext⟩, -, hkc, rfl⟩ := hloc
  have hpc : s'.pc = Function.update s.pc t (.delete w) := by rw [hs']; rfl
  have hmem : s'.mem = Function.update s.mem w.pred { s.mem w.pred with next_ := s.next w.curr } := by rw [hs']; rfl
  have hbrk : s'.brk = s.brk := by rw [hs']; rfl
  have hcl : s.Linked w.curr := hfound.linked hkc harg
  have hf : ∀ u, (s'.pc u).fresh? = (s.pc u).fresh? := update_same _ hpc (by rw [hp]; rfl)
  have hl : ∀ n, s'.Linked n ↔ s.Linked n := linked_iff hpc hbrk (by rw [hp]; rfl)
  have hm : ∀ n, s'.marked n = s.marked n := write_same Node.marked_ hmem rfl
  have hk : ∀ n, s'.keyOf key n = s.keyOf key n := write_same (fun y => key y.entry_) hmem rfl
  have hnext' : ∀ n, n ≠ w.pred → s'.next n = s.next n := by
    intro n hne
    rw [State.next, hmem, Function.update_of_ne hne]
  have hpn : s'.next w.pred = s.next w.curr := by rw [State.next, hmem, Function.update_self]
  obtain ⟨l₁, l₂, rfl, hpath⟩ := Path.remove hnext hcl.ne_tail hpn h.path h.nodup
    (h.mem_of_unmarked hfound.pred_or hpm) fun x _ => hnext' x
  refine ⟨l₁, l₂, rfl, ?_, hl⟩
  have hsub : ∀ x ∈ l₁ ++ l₂, x ∈ l₁ ++ w.curr :: l₂ := by
    intro x hx
    simp only [List.mem_append, List.mem_cons] at hx ⊢; tauto
  have hne : ∀ x ∈ l₁ ++ l₂, x ≠ w.curr := by
    intro x hx e
    have := List.nodup_middle.1 (List.nodup_cons.1 h.nodup).2
    exact (List.nodup_cons.1 this).1 (e ▸ hx)
  exact
    { path := hpath
      linked := fun x hx => (hl x).2 (h.linked x (hsub x hx))
      sorted := by
        simp only [hk]
        exact h.sorted.sublist (List.Sublist.append_left (List.sublist_cons_self _ _) _)
      complete := by
        intro x hx hmk
        rw [hm] at hmk
        have := h.complete x ((hl x).1 hx) hmk
        simp only [List.mem_append, List.mem_cons] at this ⊢
        rcases this with h1 | rfl | h1
        · exact .inl h1
        · rw [hcm] at hmk; cases hmk
        · exact .inr h1
      unlinking := by
        intro x hx hmk
        obtain ⟨u, hu⟩ := h.unlinking x (hsub x hx) (by rw [← hm]; exact hmk)
        have hut : u ≠ t := by
          intro e
          rw [e, hp] at hu
          exact hne x hx (Option.some.inj hu).symm
        exact ⟨u, by rw [hpc, Function.update_of_ne hut]; exact hu⟩
      succ := by
        intro x hx
        have hx := (hl x).1 hx
        have mono : ∀ y, s.Linked y → s'.Linked y := fun y => (hl y).2
        by_cases hxp : x = w.pred
        · subst hxp
          obtain ⟨y, h1, h2, h3⟩ := h.succ _ hcl
          refine ⟨y, hpn.trans h1, h2.keeps mono, ?_⟩
          rw [hk, hk]
          exact lt_trans (hfound.pred_lt hx.ne_head) (hkc ▸ h3)
        · obtain ⟨y, h1, h2, h3⟩ := h.succ x hx
          exact ⟨y, (hnext' x hxp).trans h1, h2.keeps mono, by rw [hk, hk]; exact h3⟩
      lt_max := fun x hx => by rw [hk, hk]; exact h.lt_max x ((hl x).1 hx)
      head := by rw [hm]; exact h.head
      tail := by rw [hm]; exact h.tail
      brk := by rw [hbrk]; exact h.brk
      fresh := fun u x hu => by rw [hf] at hu; rw [hbrk]; exact h.fresh u x hu
      fresh_inj := fun u v x hu hv => by rw [hf] at hu hv; exact h.fresh_inj u v x hu hv }

theorem Inv.unlink (h : Inv key s) {m : Option Ref} (hp : s.pc t = .unlink w m) :
    Inv key ((s.write w.pred { s.mem w.pred with next_ := m }).goto t (.delete w)) := by
  generalize hs' : (s.write w.pred { s.mem w.pred with next_ := m }).goto t (.delete w) = s'
  have hpc : s'.pc = Function.update s.pc t (.delete w) := by rw [← hs']; rfl
  have hmem : s'.mem = Function.update s.mem w.pred { s.mem w.pred with next_ := m } := by rw [← hs']; rfl
  have hloc := h.loc t
  rw [hp] at hloc
  have harg : key w.key < s.keyOf key tail_ := h.arg t (.update w.upd w.key) (by rw [hp]; rfl)
  obtain ⟨l₁, l₂, -, hsh, hl⟩ := h.shape.unlink hloc hp harg hs'.symm
  have hk : ∀ m, s'.keyOf key m = s.keyOf key m := write_same (fun y => key y.entry_) hmem rfl
  have mono : ∀ m, s.Linked m → s'.Linked m := fun m => (hl m).2
  have hpl : w.pred ∈ (s.pc t).locks := by rw [hp]; simp [Pc.locks]
  refine h.update hpc hsh (fun u hu => ⟨mono, fun m _ => hk m, fun m hm => ⟨write_same Node.marked_ hmem rfl m, ?_⟩,
    fun m hm => ?_⟩) (h.locks_same hpc (by rw [hp]; rfl) (write_same Node.spinLock_ hmem rfl)) (hk _)
    (h.arg_of (.inr (by rw [hp]; rfl))) ⟨hloc.1.1.keeps mono fun m _ => hk m, hloc.2.1⟩
  · rw [State.next, hmem, Function.update_of_ne (h.lock_ne hu hpl hm)]
  · rw [hmem, Function.update_of_ne (h.shape.fresh_ne hm (hloc.1.1.pred_or.imp id .inr)).symm]

/-! ## All steps -/

omit [DecidableEq ι] in
/-- The successor of a node before the key is a node that a traversal can stand on. -/
theorem Shape.deref_succ (h : Shape key s l) (hn : n = head_ ∨ s.Linked n) : ∃ m, s.next n = some m ∧ s.Curr m := by
  rcases hn with rfl | hn
  · exact h.head_succ
  · obtain ⟨m, h1, h2, -⟩ := h.succ n hn
    exact ⟨m, h1, h2⟩

omit [DecidableEq ι] in
/-- A node before a key below `max_val` is linked. -/
theorem State.Curr.linked_of_lt {k : κ} (h : s.Curr n) (hn : s.keyOf key n < k) (hk : k < s.keyOf key tail_) :
    s.Linked n := by
  apply h.resolve_left
  intro e
  rw [e] at hn
  exact lt_asymm hn hk

theorem Inv.tick (h : Inv key s) (hs : exec s t (fetch key (s.pc t)) = some s') : Inv key s' := by
  have hloc := h.loc t
  have harg := h.arg t
  cases hp : s.pc t with
  | idle | ret | crash => rw [hp] at hs; cases hs
  | readHead u k =>
    obtain ⟨c, hc, hcur⟩ := h.shape.head_succ
    simp only [hp, fetch, exec, hc, deref, Option.some.injEq] at hs
    subst hs
    exact h.read hp rfl rfl rfl (.inr rfl) ⟨.inl rfl, hcur⟩
  | loop w =>
    rw [hp] at hloc
    have hk := harg (.update w.upd w.key) (by rw [hp]; rfl)
    simp only [hp, fetch, exec, cmp, decide_eq_true_eq, Option.some.injEq] at hs
    subst hs
    split
    · rename_i hlt
      exact h.read hp rfl rfl rfl (.inr rfl) ⟨hloc.2.linked_of_lt hlt hk, hlt⟩
    · rename_i hlt
      exact h.read hp rfl rfl rfl (.inr rfl) ⟨hloc, not_lt.1 hlt⟩
  | next u k c =>
    rw [hp] at hloc
    obtain ⟨m, hm, hcur⟩ := h.shape.deref_succ (.inr hloc.1)
    simp only [hp, fetch, exec, hm, deref, Option.some.injEq] at hs
    subst hs
    exact h.read hp rfl rfl rfl (.inr rfl) ⟨.inr hloc, hcur⟩
  | lockPred w =>
    rw [hp] at hloc
    simp only [hp, fetch, exec] at hs
    split at hs
    · rename_i hfree
      cases hs
      exact h.lock hfree (hloc.pred_or.imp id .inr) (by simp [hp, Pc.locks]) rfl (by rw [hp]; rfl) (by rw [hp]; rfl)
        (by rw [hp]; rfl) hloc
    · cases hs
  | lockCurr w =>
    rw [hp] at hloc
    simp only [hp, fetch, exec] at hs
    split at hs
    · rename_i hfree
      cases hs
      exact h.lock hfree (.inr hloc.1.2) (by simp [hp, Pc.locks, or_comm]) rfl (by rw [hp]; rfl) (by rw [hp]; rfl)
        (by rw [hp]; rfl) hloc
    · cases hs
  | valPred w =>
    rw [hp] at hloc
    simp only [hp, fetch, exec, Option.some.injEq] at hs
    subst hs
    split
    · exact h.read hp rfl rfl rfl (.inr rfl) hloc
    · rename_i hm
      exact h.read hp rfl rfl rfl (.inr rfl) ⟨hloc, Bool.eq_false_iff.2 hm⟩
  | valCurr w =>
    rw [hp] at hloc
    simp only [hp, fetch, exec, Option.some.injEq] at hs
    subst hs
    split
    · exact h.read hp rfl rfl rfl (.inr rfl) hloc.1
    · rename_i hm
      exact h.read hp rfl rfl rfl (.inr rfl) ⟨hloc.1, hloc.2, Bool.eq_false_iff.2 hm⟩
  | valNext w =>
    rw [hp] at hloc
    simp only [hp, fetch, exec, Option.some.injEq] at hs
    subst hs
    split
    · rename_i hm
      exact h.read hp rfl rfl rfl (.inr rfl) ⟨hloc.1, hloc.2.1, hloc.2.2, hm⟩
    · exact h.read hp rfl rfl rfl (.inr rfl) hloc.1
  | equalL w =>
    rw [hp] at hloc
    have hge : ¬key (s.mem w.curr).entry_ < key w.key := not_lt.2 hloc.1.2
    simp only [hp, fetch, exec, cmp, decide_eq_true_eq, if_neg hge, Option.some.injEq] at hs
    subst hs
    exact h.read hp rfl rfl rfl (.inr rfl) hloc
  | equalR w =>
    rw [hp] at hloc
    simp only [hp, fetch, exec, cmp, decide_eq_true_eq, Option.some.injEq] at hs
    subst hs
    split
    · rename_i hlt
      cases hu : w.upd with
      | add =>
        simp only [Window.notEqual, hu]
        exact h.read hp rfl rfl rfl (.inr rfl) ⟨hloc, hu, hlt⟩
      | remove =>
        simp only [Window.notEqual, hu]
        exact h.read hp rfl rfl rfl (.inr rfl) hloc.1
    · rename_i hlt
      have heq : s.keyOf key w.curr = key w.key := le_antisymm (not_lt.1 hlt) hloc.1.2
      cases hu : w.upd with
      | add =>
        simp only [Window.isEqual, hu]
        exact h.read hp rfl rfl rfl (.inr rfl) ⟨hloc, hu, heq⟩
      | remove =>
        simp only [Window.isEqual, hu]
        exact h.read hp rfl rfl rfl (.inr rfl) ⟨hloc, hu, heq⟩
  | replace w => rw [hp] at hs; cases hs; exact h.replace hp
  | new w => rw [hp] at hs; cases hs; exact h.new hp
  | setNext w n => rw [hp] at hs; cases hs; exact h.setNext hp
  | link w n => rw [hp] at hs; cases hs; exact h.link hp
  | mark w => rw [hp] at hs; cases hs; exact h.mark hp
  | readNext w =>
    rw [hp] at hs hloc
    cases hs
    exact h.read hp rfl rfl rfl (.inr rfl) ⟨hloc.1, hloc.2.1, hloc.2.2, rfl⟩
  | unlink w m => rw [hp] at hs; cases hs; exact h.unlink hp
  | delete w => rw [hp] at hs; cases hs; exact h.delete hp
  | unlockCurr w r =>
    rw [hp] at hs hloc
    cases hs
    have hne := Window.Found.pred_ne hloc
    refine h.unlock (by simp [hp, Pc.locks]) (fun m => ?_) rfl (by rw [hp]; rfl) (by rw [hp]; rfl)
      (.inr (by rw [hp]; rfl)) hloc
    simp only [hp, Pc.locks, List.mem_cons, List.not_mem_nil, or_false]
    constructor
    · rintro rfl; exact ⟨hne, .inl rfl⟩
    · rintro ⟨h1, h2⟩; exact h2.resolve_right h1
  | unlockPred w r =>
    rw [hp] at hs
    cases r with
    | none =>
      cases hs
      exact h.unlock (by simp [hp, Pc.locks]) (by simp [hp, Pc.locks]) rfl (by rw [hp]; rfl) (by rw [hp]; rfl)
        (.inr (by rw [hp]; rfl)) trivial
    | some b =>
      cases hs
      exact h.unlock (by simp [hp, Pc.locks]) (by simp [hp, Pc.locks]) rfl (by rw [hp]; rfl) (by rw [hp]; rfl)
        (.inl rfl) trivial
  | getHead k =>
    obtain ⟨c, hc, hcur⟩ := h.shape.head_succ
    simp only [hp, fetch, exec, hc, deref, Option.some.injEq] at hs
    subst hs
    exact h.read hp rfl rfl rfl (.inr rfl) hcur
  | getLoop k c =>
    rw [hp] at hloc
    have hk := harg (.get k) (by rw [hp]; rfl)
    simp only [hp, fetch, exec, cmp, decide_eq_true_eq, Option.some.injEq] at hs
    subst hs
    split
    · rename_i hlt
      exact h.read hp rfl rfl rfl (.inr rfl) ⟨State.Curr.linked_of_lt hloc hlt hk, hlt⟩
    · rename_i hlt
      exact h.read hp rfl rfl rfl (.inr rfl) ⟨hloc, not_lt.1 hlt⟩
  | getNext k c =>
    rw [hp] at hloc
    obtain ⟨m, hm, hcur⟩ := h.shape.deref_succ (.inr hloc.1)
    simp only [hp, fetch, exec, hm, deref, Option.some.injEq] at hs
    subst hs
    exact h.read hp rfl rfl rfl (.inr rfl) hcur
  | getMarked k c =>
    rw [hp] at hloc
    simp only [hp, fetch, exec, Option.some.injEq] at hs
    subst hs
    split
    · exact h.read hp rfl rfl rfl (.inl rfl) trivial
    · exact h.read hp rfl rfl rfl (.inr rfl) hloc
  | getEqualL k c =>
    rw [hp] at hloc
    simp only [hp, fetch, exec, Option.some.injEq] at hs
    subst hs
    split
    · exact h.read hp rfl rfl rfl (.inl rfl) trivial
    · exact h.read hp rfl rfl rfl (.inr rfl) hloc
  | getEqualR k c =>
    rw [hp] at hloc
    simp only [hp, fetch, exec, cmp, decide_eq_true_eq, Option.some.injEq] at hs
    subst hs
    split
    · exact h.read hp rfl rfl rfl (.inl rfl) trivial
    · rename_i hlt
      exact h.read hp rfl rfl rfl (.inr rfl) ⟨hloc.1, le_antisymm (not_lt.1 hlt) hloc.2⟩
  | getEntry k c =>
    rw [hp] at hs
    cases hs
    exact h.read hp rfl rfl rfl (.inl rfl) trivial
  | conLoop k c =>
    rw [hp] at hloc
    have hk := harg (.contains k) (by rw [hp]; rfl)
    simp only [hp, fetch, exec, cmp, decide_eq_true_eq, Option.some.injEq] at hs
    subst hs
    split
    · rename_i hlt
      exact h.read hp rfl rfl rfl (.inr rfl) (hloc.imp id fun hc => hc.linked_of_lt hlt hk)
    · exact h.read hp rfl rfl rfl (.inr rfl) hloc
  | conNext k c =>
    rw [hp] at hloc
    obtain ⟨m, hm, hcur⟩ := h.shape.deref_succ hloc
    simp only [hp, fetch, exec, hm, deref, Option.some.injEq] at hs
    subst hs
    exact h.read hp rfl rfl rfl (.inr rfl) (.inr hcur)
  | conEqualL k c | conEqualR k c =>
    rw [hp] at hloc
    simp only [hp, fetch, exec, Option.some.injEq] at hs
    subst hs
    split
    · exact h.read hp rfl rfl rfl (.inl rfl) trivial
    · exact h.read hp rfl rfl rfl (.inr rfl) hloc
  | conMarked k c =>
    rw [hp] at hs
    cases hs
    exact h.read hp rfl rfl rfl (.inl rfl) trivial

theorem Inv.step {a : Action ι α} (h : Inv key s) (hs : step key s a = some s') : Inv key s' := by
  cases a with
  | tick t => exact h.tick hs
  | invoke t c =>
    simp only [LazyList.step] at hs
    split at hs
    · rename_i hp
      split at hs
      · rename_i hc
        cases hs
        exact h.invoke (by rw [hp]; exact ⟨rfl, rfl, rfl⟩) hc
      · cases hs
    · rename_i hp
      split at hs
      · rename_i hc
        cases hs
        exact h.invoke (by rw [hp]; exact ⟨rfl, rfl, rfl⟩) hc
      · cases hs
    · cases hs

omit [DecidableEq ι] in
theorem inv_init [Inhabited α] (maxVal : α) : Inv key (State.init maxVal : State ι α) := by
  have hl : ∀ n, ¬(State.init maxVal : State ι α).Linked n := fun n hn =>
    absurd hn.2.1 (Nat.not_lt.2 (Nat.succ_le_of_lt hn.1))
  have hm : ∀ n, (State.init maxVal : State ι α).marked n = false := by
    intro n
    simp only [State.marked, State.init]; split <;> rfl
  have hs : Shape key (State.init maxVal : State ι α) [] :=
    { path := rfl
      linked := by simp
      sorted := List.Pairwise.nil
      complete := fun n hn => absurd hn (hl n)
      unlinking := by simp
      succ := fun n hn => absurd hn (hl n)
      lt_max := fun n hn => absurd hn (hl n)
      head := hm _
      tail := hm _
      brk := Nat.lt_succ_self 1
      fresh := fun t n ht => by cases ht
      fresh_inj := fun t u n ht => by cases ht }
  refine ⟨by rw [hs.chain_eq]; exact hs, ?_, fun t c ht => (by cases ht), fun t => trivial⟩
  intro t n
  simp only [State.init, Pc.locks, List.not_mem_nil, iff_false]
  split
  · intro ht
    cases ht
  · intro ht
    cases ht

theorem reach_inv [Inhabited α] {maxVal : α} (h : Lts.Reach (threads key maxVal) s) : Inv key s :=
  h.invariant (fun _ hs => hs ▸ inv_init maxVal) fun _ _ _ _ hi hs => hi.step hs

end Libeva.Ds.LazyList
