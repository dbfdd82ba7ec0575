import Libeva.Ds.FineGrainedQueue.Invariant

/-!
# `FineGrainedQueue` is a FIFO queue

* `Inv.control`: the steps that only move a program counter and take or release a mutex.
* `Inv.setEntry`, `Inv.setNext`, `Inv.setTail` are the three writes of `push`, `Inv.read` and `Inv.take` the reading of
  an entry and the move of `head_` in the pops, `Inv.delete` the end of a pop.
* `Pc.outcome` is what a pop returns, from the move of `head_` on; `outcome_own` and `outcome_other` say what one step
  does to it, and `Lts.Run.crossing` turns that into the one node that the pop takes.
* `queue_fifo`: in every reachable state the popped values and the queue are the pushed values, and a pop returns the
  value of the node it takes.
-/

namespace Libeva.Ds.FineGrainedQueue

open Linked (Segment)

variable {ι α : Type*} {s s' : State ι α} {l k : List Ref} {t u : ι} {p : Pc α} {n : Ref} {v : α}
  {m : Option ι} {f : Pc α → Bool}

section Mutex

variable [DecidableEq ι]

theorem mutex_same (hp : f p = f (s.pc t)) (h : ∀ u, m = some u ↔ f (s.pc u) = true) (u : ι) :
    m = some u ↔ f (Function.update s.pc t p u) = true := by
  by_cases hu : u = t
  · rw [hu, Function.update_self, hp]; exact h t
  · rw [Function.update_of_ne hu]; exact h u

theorem mutex_lock (hm : m = none) (hp : f p = true) (h : ∀ u, m = some u ↔ f (s.pc u) = true) (u : ι) :
    some t = some u ↔ f (Function.update s.pc t p u) = true := by
  by_cases hu : u = t
  · rw [hu, Function.update_self, hp]; simp
  · rw [Function.update_of_ne hu, ← h u, hm, Option.some.injEq]
    exact ⟨fun e => absurd e.symm hu, nofun⟩

theorem mutex_unlock (ht : f (s.pc t) = true) (hp : f p = false) (h : ∀ u, m = some u ↔ f (s.pc u) = true) (u : ι) :
    none = some u ↔ f (Function.update s.pc t p u) = true := by
  by_cases hu : u = t
  · rw [hu, Function.update_self, hp]; simp
  · rw [Function.update_of_ne hu, ← h u, (h t).2 ht, Option.some.injEq]
    exact ⟨nofun, fun e => absurd e.symm hu⟩

/-- A property of program points that `t` keeps is kept for all threads. -/
theorem update_same {β : Type*} (g : Pc α → β) (h : g p = g (s.pc t)) (u : ι) :
    g (Function.update s.pc t p u) = g (s.pc u) := by
  by_cases hu : u = t
  · rw [hu, Function.update_self, h]
  · rw [Function.update_of_ne hu]

end Mutex

/-- What the shape says about the program counters. -/
theorem Shape.pcs {pc : ι → Pc α} {a b : Option ι} (h : Shape s l) (hf : ∀ u, (pc u).fresh? = (s.pc u).fresh?)
    (ho : ∀ u, (pc u).owned? = (s.pc u).owned?) (hi : ∀ u, (pc u).inFlight? = (s.pc u).inFlight?) :
    Shape { s with head_mutex_ := a, tail_mutex_ := b, pc := pc } l where
  seg := h.seg
  nodup := h.nodup
  alloc := h.alloc
  live := h.live
  log := h.log
  result := h.result
  inFlight n hn hr := by simp only [hi]; exact h.inFlight n hn hr
  fresh t n ht := h.fresh t n ((hf t).symm.trans ht)
  fresh_inj t u n ht hu := h.fresh_inj t u n ((hf t).symm.trans ht) ((hf u).symm.trans hu)
  owned t n ht := h.owned t n ((ho t).symm.trans ht)
  owned_inj t u n ht hu := h.owned_inj t u n ((ho t).symm.trans ht) ((ho u).symm.trans hu)

variable [DecidableEq ι]

/-- A step that moves the program counter of `t` and perhaps takes or releases a mutex. -/
theorem Inv.control {a b : Option ι} (h : Inv s) (hf : p.fresh? = (s.pc t).fresh?) (ho : p.owned? = (s.pc t).owned?)
    (hi : p.inFlight? = (s.pc t).inFlight?) (hhead : ∀ u, a = some u ↔ (Function.update s.pc t p u).hasHead = true)
    (htail : ∀ u, b = some u ↔ (Function.update s.pc t p u).hasTail = true) (hloc : Local s s.chain p) :
    Inv { s with head_mutex_ := a, tail_mutex_ := b, pc := Function.update s.pc t p } := by
  have hs := h.shape.pcs (a := a) (b := b) (update_same Pc.fresh? hf) (update_same Pc.owned? ho)
    (update_same Pc.inFlight? hi)
  refine h.update rfl hs
    ⟨fun _ hn => hn, fun _ _ hr => hr, fun _ _ _ => ⟨rfl, fun _ hn => hn, id⟩, fun _ _ _ => ⟨rfl, rfl⟩⟩
    hhead htail ?_
  cases p <;> exact hloc

omit [DecidableEq ι] in
/-- `notify_all` moves the sleeping threads to the lock again. -/
theorem Inv.wakeAll (h : Inv s) :
    Inv { s with pc := fun u => if (s.pc u).isAsleep then .lockHead .waitAndPop else s.pc u } := by
  have same : ∀ {β : Type _} (g : Pc α → β), g (.lockHead .waitAndPop) = g .asleep → ∀ u,
      g (if (s.pc u).isAsleep then .lockHead .waitAndPop else s.pc u) = g (s.pc u) := by
    intro β g hg u
    cases hp : s.pc u <;> first | exact hg | rfl
  refine ⟨?_, ?_, ?_, ?_⟩
  · exact h.shape.pcs (same _ rfl) (same _ rfl) (same _ rfl)
  · intro u
    rw [same Pc.hasHead rfl]; exact h.head u
  · intro u
    rw [same Pc.hasTail rfl]; exact h.tail u
  · intro u
    have hloc := h.loc u
    show Local s s.chain (if (s.pc u).isAsleep then .lockHead .waitAndPop else s.pc u)
    split
    · exact trivial
    · exact hloc

/-! ## push -/

/-- `make_unique<Node>()`. -/
theorem Inv.new [Inhabited α] (h : Inv s) (hp : s.pc t = .pushNew v) :
    Inv ({ s.write s.brk ⟨default, none⟩ with
      brk := s.brk + 1, live := Function.update s.live s.brk true }.goto t (.pushLock v s.brk)) := by
  have hsh := h.shape
  have hmem : ∀ {n}, n < s.brk → Function.update s.mem s.brk ⟨default, none⟩ n = s.mem n :=
    fun hn => Function.update_of_ne (Nat.ne_of_lt hn) _ _
  have hlive : ∀ {n}, n < s.brk → Function.update s.live s.brk true n = s.live n :=
    fun hn => Function.update_of_ne (Nat.ne_of_lt hn) _ _
  have hl : ∀ {n}, n ∈ s.popped ++ s.chain → n < s.brk := fun hn => hsh.alloc _ (List.mem_append_left _ hn)
  have hlt : ∀ {n}, n ∈ s.chain ++ [s.tail_] → n < s.brk := fun hn => hsh.alloc _ (by
    rw [List.append_assoc]; exact List.mem_append_right _ hn)
  have hf : ∀ u, u ≠ t → Pc.fresh? (Function.update s.pc t (.pushLock v s.brk) u) = (s.pc u).fresh? := by
    intro u hu
    rw [Function.update_of_ne hu]
  have hft : Pc.fresh? (Function.update s.pc t (.pushLock v s.brk) t) = some s.brk := by
    rw [Function.update_self]; rfl
  have ho := update_same (s := s) (t := t) (p := .pushLock v s.brk) Pc.owned? (by rw [hp]; rfl)
  have hi := update_same (s := s) (t := t) (p := .pushLock v s.brk) Pc.inFlight? (by rw [hp]; rfl)
  refine h.update (k := s.chain) rfl ?_ ?_ (mutex_same (congrArg Pc.hasHead hp).symm h.head)
    (mutex_same (congrArg Pc.hasTail hp).symm h.tail)
    trivial
  · exact
      { seg := hsh.seg.congr fun x hx => congrArg Node.next_ (hmem (hl (List.mem_append_right _ hx)))
        nodup := hsh.nodup
        alloc := fun n hn => Nat.lt_succ_of_lt (hsh.alloc n hn)
        live := fun n hn => (hlive (hlt hn)).trans (hsh.live n hn)
        log := by
          refine Eq.trans ?_ hsh.log
          exact List.map_congr_left fun n hn => congrArg (fun x => (n, Node.entry_ x)) (hmem (hl hn))
        result := by
          intro n v hr
          obtain ⟨h1, h2⟩ := hsh.result n v hr
          exact ⟨h1, (congrArg Node.entry_ (hmem (hl h1))).trans h2⟩
        inFlight := by
          intro n hn hr
          obtain ⟨u, hu⟩ := hsh.inFlight n hn hr
          exact ⟨u, (hi u).trans hu⟩
        fresh := by
          intro u n hu
          by_cases hut : u = t
          · subst hut
            obtain rfl : s.brk = n := Option.some.inj (hft.symm.trans hu)
            refine ⟨Nat.lt_succ_self _, Function.update_self .., ?_⟩
            intro hn
            exact Nat.lt_irrefl _ (hsh.alloc _ hn)
          · obtain ⟨h1, h2, h3⟩ := hsh.fresh u n ((hf u hut).symm.trans hu)
            exact ⟨Nat.lt_succ_of_lt h1, (hlive h1).trans h2, h3⟩
        fresh_inj := by
          intro u w n hu hw
          by_cases hut : u = t <;> by_cases hwt : w = t
          · rw [hut, hwt]
          · subst hut
            obtain rfl : s.brk = n := Option.some.inj (hft.symm.trans hu)
            exact absurd (hsh.fresh w _ ((hf w hwt).symm.trans hw)).1 (Nat.lt_irrefl _)
          · subst hwt
            obtain rfl : s.brk = n := Option.some.inj (hft.symm.trans hw)
            exact absurd (hsh.fresh u _ ((hf u hut).symm.trans hu)).1 (Nat.lt_irrefl _)
          · exact hsh.fresh_inj u w n ((hf u hut).symm.trans hu) ((hf w hwt).symm.trans hw)
        owned := by
          intro u n hu
          obtain ⟨h1, h2⟩ := hsh.owned u n ((ho u).symm.trans hu)
          exact ⟨h1, (hlive (hl (List.mem_append_left _ h1))).trans h2⟩
        owned_inj := fun u w n hu hw => hsh.owned_inj u w n ((ho u).symm.trans hu) ((ho w).symm.trans hw) }
  · exact ⟨fun _ hn => hn, fun _ _ hr => hr, fun _ _ _ => ⟨rfl, fun _ hn => hn, id⟩,
      fun _ _ _ => ⟨rfl, hmem (hlt (by simp))⟩⟩

/-- A write to the node `tail_` under `tail_mutex_`. -/
theorem Inv.setTailNode {x : Node α} (h : Inv s) (ht : (s.pc t).hasTail = true) (hf : p.fresh? = (s.pc t).fresh?)
    (ho : p.owned? = (s.pc t).owned?) (hi : p.inFlight? = (s.pc t).inFlight?) (hh : p.hasHead = (s.pc t).hasHead)
    (htl : p.hasTail = true) (hloc : Local ((s.write s.tail_ x).goto t p) s.chain p) :
    Inv ((s.write s.tail_ x).goto t p) := by
  have hsh := h.shape
  have hmem : ∀ {n}, n ∈ s.popped ++ s.chain → Function.update s.mem s.tail_ x n = s.mem n := fun hn =>
    Function.update_of_ne (fun e => (List.nodup_append.1 hsh.nodup).2.2 _ hn _ (List.mem_singleton.2 rfl) e) _ _
  have hf := update_same (s := s) (t := t) Pc.fresh? hf
  have ho := update_same (s := s) (t := t) Pc.owned? ho
  have hi := update_same (s := s) (t := t) Pc.inFlight? hi
  refine h.update (k := s.chain) rfl ?_ ?_ (mutex_same hh h.head) (mutex_same (htl.trans ht.symm) h.tail) hloc
  · exact
      { seg := hsh.seg.congr fun y hy => congrArg Node.next_ (hmem (List.mem_append_right _ hy))
        nodup := hsh.nodup
        alloc := hsh.alloc
        live := hsh.live
        log := by
          refine Eq.trans ?_ hsh.log
          exact List.map_congr_left fun n hn => congrArg (fun y => (n, Node.entry_ y)) (hmem hn)
        result := by
          intro n v hr
          obtain ⟨h1, h2⟩ := hsh.result n v hr
          exact ⟨h1, (congrArg Node.entry_ (hmem h1)).trans h2⟩
        inFlight := by
          intro n hn hr
          obtain ⟨u, hu⟩ := hsh.inFlight n hn hr
          exact ⟨u, (hi u).trans hu⟩
        fresh := fun u n hu => hsh.fresh u n ((hf u).symm.trans hu)
        fresh_inj := fun u w n hu hw => hsh.fresh_inj u w n ((hf u).symm.trans hu) ((hf w).symm.trans hw)
        owned := fun u n hu => hsh.owned u n ((ho u).symm.trans hu)
        owned_inj := fun u w n hu hw => hsh.owned_inj u w n ((ho u).symm.trans hu) ((ho w).symm.trans hw) }
  · refine ⟨fun _ hn => hn, fun _ _ hr => hr, fun _ _ _ => ⟨rfl, fun _ hn => hn, id⟩, ?_⟩
    intro u hu htu
    have h1 := (h.tail t).2 ht
    rw [(h.tail u).2 htu] at h1
    exact absurd (Option.some.inj h1) hu

/-- `tail_ = tail_->next_` completes the push. -/
theorem Inv.setTail (h : Inv s) (hp : s.pc t = .pushTail v n) :
    Inv ({ s with tail_ := n, pushed := s.pushed ++ [(s.tail_, v)] }.goto t (.pushUnlock v)) := by
  have hsh := h.shape
  have hloc := h.loc t
  rw [hp] at hloc
  obtain ⟨hv, hn⟩ := hloc
  have hft : (s.pc t).fresh? = some n := by rw [hp]; rfl
  obtain ⟨hnb, hnl, hnm⟩ := hsh.fresh t n hft
  have hnd : (s.popped ++ s.chain ++ [s.tail_] ++ [n]).Nodup :=
    hsh.nodup.append (List.nodup_singleton n) (List.disjoint_singleton.2 hnm)
  have hf : ∀ u m, Pc.fresh? (Function.update s.pc t (.pushUnlock v) u) = some m →
      (s.pc u).fresh? = some m ∧ m ≠ n := by
    intro u m hu
    by_cases hut : u = t
    · rw [hut, Function.update_self] at hu; cases hu
    · rw [Function.update_of_ne hut] at hu
      exact ⟨hu, fun e => hut (hsh.fresh_inj u t n (e ▸ hu) hft)⟩
  have ho := update_same (s := s) (t := t) (p := .pushUnlock v) Pc.owned? (by rw [hp]; rfl)
  have hi := update_same (s := s) (t := t) (p := .pushUnlock v) Pc.inFlight? (by rw [hp]; rfl)
  refine h.update (k := s.chain ++ [s.tail_]) rfl ?_ ?_ (mutex_same (congrArg Pc.hasHead hp).symm h.head)
    (mutex_same (congrArg Pc.hasTail hp).symm h.tail) trivial
  · exact
      { seg := hsh.seg.snoc hn
        nodup := by
          rw [← List.append_assoc]; exact hnd
        alloc := by
          intro m hm
          rw [← List.append_assoc] at hm
          rcases List.mem_append.1 hm with hm | hm
          · exact hsh.alloc m hm
          · rw [List.mem_singleton.1 hm]; exact hnb
        live := by
          intro m hm
          rcases List.mem_append.1 hm with hm | hm
          · exact hsh.live m hm
          · rw [List.mem_singleton.1 hm]; exact hnl
        log := by
          rw [← List.append_assoc, List.map_append]
          exact congrArg₂ _ hsh.log (by rw [← hv]; rfl)
        result := by
          intro m w hr
          obtain ⟨h1, h2⟩ := hsh.result m w hr
          exact ⟨by rw [← List.append_assoc]; exact List.mem_append_left _ h1, h2⟩
        inFlight := by
          intro m hm hr
          obtain ⟨u, hu⟩ := hsh.inFlight m hm hr
          exact ⟨u, (hi u).trans hu⟩
        fresh := by
          intro u m hu
          obtain ⟨hu, hmn⟩ := hf u m hu
          obtain ⟨h1, h2, h3⟩ := hsh.fresh u m hu
          refine ⟨h1, h2, ?_⟩
          rw [← List.append_assoc, List.mem_append, List.mem_singleton]
          exact fun hm => hm.elim h3 hmn
        fresh_inj := fun u w m hu hw => hsh.fresh_inj u w m (hf u m hu).1 (hf w m hw).1
        owned := fun u m hu => hsh.owned u m ((ho u).symm.trans hu)
        owned_inj := fun u w m hu hw => hsh.owned_inj u w m ((ho u).symm.trans hu) ((ho w).symm.trans hw) }
  · refine ⟨fun _ hn => hn, fun _ _ hr => hr,
      fun _ _ _ => ⟨rfl, fun _ hm => List.mem_append_left _ hm, fun _ => by simp⟩,
      fun u hu htu => ?_⟩
    have h1 := (h.tail t).2 (by rw [hp]; rfl)
    rw [(h.tail u).2 htu] at h1
    exact absurd (Option.some.inj h1) hu

/-! ## tryPop, waitAndPop -/

/-- The entry of a completed push is read. -/
theorem Inv.read (h : Inv s) (hn : n ∈ s.popped ++ s.chain) (hf : p.fresh? = (s.pc t).fresh?)
    (ho : p.owned? = (s.pc t).owned?) (hi : (s.pc t).inFlight? = none ∨ (s.pc t).inFlight? = some n)
    (hh : p.hasHead = (s.pc t).hasHead) (ht : p.hasTail = (s.pc t).hasTail)
    (hloc : Local { s with result := Function.update s.result n (some (s.entry n)) } s.chain p) :
    Inv ({ s with result := Function.update s.result n (some (s.entry n)) }.goto t p) := by
  have hsh := h.shape
  have hf := update_same (s := s) (t := t) Pc.fresh? hf
  have ho := update_same (s := s) (t := t) Pc.owned? ho
  have hself : Function.update s.result n (some (s.entry n)) n = some (s.entry n) := Function.update_self ..
  have hres : ∀ m w, s.result m = some w → Function.update s.result n (some (s.entry n)) m = some w := by
    intro m w hr
    by_cases hm : m = n
    · rw [hm, Function.update_self, ← (hsh.result m w hr).2, hm]
    · rw [Function.update_of_ne hm]; exact hr
  refine h.update (k := s.chain) rfl ?_ ?_ (mutex_same hh h.head) (mutex_same ht h.tail) (by cases p <;> exact hloc)
  · exact
      { seg := hsh.seg
        nodup := hsh.nodup
        alloc := hsh.alloc
        live := hsh.live
        log := hsh.log
        result := by
          intro m w hr
          by_cases hm : m = n
          · subst hm
            exact ⟨hn, Option.some.inj (hself.symm.trans hr)⟩
          · exact hsh.result m w ((Function.update_of_ne hm ..).symm.trans hr)
        inFlight := by
          intro m hm hr
          have hmn : m ≠ n := by
            rintro rfl
            exact absurd (hself.symm.trans hr) nofun
          obtain ⟨u, hu⟩ := hsh.inFlight m hm ((Function.update_of_ne hmn ..).symm.trans hr)
          have hut : u ≠ t := by
            rintro rfl
            rcases hi with hi | hi
            · rw [hi] at hu; cases hu
            · rw [hi] at hu; exact hmn (Option.some.inj hu).symm
          exact ⟨u, (congrArg Pc.inFlight? (Function.update_of_ne hut ..)).trans hu⟩
        fresh := fun u m hu => hsh.fresh u m ((hf u).symm.trans hu)
        fresh_inj := fun u w m hu hw => hsh.fresh_inj u w m ((hf u).symm.trans hu) ((hf w).symm.trans hw)
        owned := fun u m hu => hsh.owned u m ((ho u).symm.trans hu)
        owned_inj := fun u w m hu hw => hsh.owned_inj u w m ((ho u).symm.trans hu) ((ho w).symm.trans hw) }
  · exact ⟨fun _ hm => hm, hres, fun _ _ _ => ⟨rfl, fun _ hm => hm, id⟩, fun _ _ _ => ⟨rfl, rfl⟩⟩

/-- `head_ = head_->next_` takes the first node. -/
theorem Inv.take (h : Inv s) (hl : s.chain ≠ []) (hn : s.next s.head_ = some n) (hth : (s.pc t).hasHead = true)
    (hf : p.fresh? = (s.pc t).fresh?) (hot : (s.pc t).owned? = none) (ho : p.owned? = some s.head_)
    (hi : (s.pc t).inFlight? = none) (hr : s.result s.head_ = none → p.inFlight? = some s.head_)
    (hh : p.hasHead = true) (ht : p.hasTail = (s.pc t).hasTail)
    (hloc : ∀ l, Local { s with head_ := n, popped := s.popped ++ [s.head_] } l p) :
    Inv ({ s with head_ := n, popped := s.popped ++ [s.head_] }.goto t p) := by
  have hsh := h.shape
  obtain ⟨l, hc⟩ : ∃ l, s.chain = s.head_ :: l := by
    cases hc : s.chain with
    | nil => exact absurd hc hl
    | cons m l =>
      have hseg := hsh.seg
      rw [hc] at hseg
      exact ⟨l, by rw [hseg.1]⟩
  have hseg := hsh.seg
  rw [hc] at hseg
  obtain ⟨-, m, hm, hseg⟩ := hseg
  obtain rfl : n = m := Option.some.inj (hn.symm.trans hm)
  have happ : s.popped ++ [s.head_] ++ l = s.popped ++ s.chain := by rw [hc]; simp
  have hnot : s.head_ ∉ s.popped := fun hp =>
    (List.nodup_append.1 (List.nodup_append.1 hsh.nodup).1).2.2 _ hp _ (hsh.head_mem hl) rfl
  have hit : Pc.inFlight? (Function.update s.pc t p t) = p.inFlight? := by rw [Function.update_self]
  have hf := update_same (s := s) (t := t) Pc.fresh? hf
  have ho' : ∀ u m, Pc.owned? (Function.update s.pc t p u) = some m →
      (u = t ∧ m = s.head_) ∨ (u ≠ t ∧ (s.pc u).owned? = some m) := by
    intro u m hu
    by_cases hut : u = t
    · subst hut
      rw [Function.update_self, ho] at hu
      exact .inl ⟨rfl, (Option.some.inj hu).symm⟩
    · rw [Function.update_of_ne hut] at hu
      exact .inr ⟨hut, hu⟩
  refine h.update (k := l) rfl ?_ ?_ (mutex_same (hh.trans hth.symm) h.head) (mutex_same ht h.tail)
    (by cases p <;> exact hloc l)
  · exact
      { seg := hseg
        nodup := by
          show (s.popped ++ [s.head_] ++ l ++ [s.tail_]).Nodup
          rw [happ]; exact hsh.nodup
        alloc := fun m (hm : m ∈ s.popped ++ [s.head_] ++ l ++ [s.tail_]) => hsh.alloc m (by rw [← happ]; exact hm)
        live := fun m hm => hsh.live m (by rw [hc]; exact List.mem_cons_of_mem _ hm)
        log := (congrArg (List.map fun n => (n, s.entry n)) happ).trans hsh.log
        result := by
          intro m w hr
          obtain ⟨h1, h2⟩ := hsh.result m w hr
          refine ⟨?_, h2⟩
          show m ∈ s.popped ++ [s.head_] ++ l
          rw [happ]; exact h1
        inFlight := by
          intro m hm hrm
          rcases List.mem_append.1 hm with hm | hm
          · obtain ⟨u, hu⟩ := hsh.inFlight m hm hrm
            have hut : u ≠ t := by
              rintro rfl
              rw [hi] at hu; cases hu
            exact ⟨u, (congrArg Pc.inFlight? (Function.update_of_ne hut ..)).trans hu⟩
          · obtain rfl := List.mem_singleton.1 hm
            exact ⟨t, hit.trans (hr hrm)⟩
        fresh := by
          intro u m hu
          show m < s.brk ∧ s.live m = true ∧ m ∉ s.popped ++ [s.head_] ++ l ++ [s.tail_]
          rw [happ]; exact hsh.fresh u m ((hf u).symm.trans hu)
        fresh_inj := fun u w m hu hw => hsh.fresh_inj u w m ((hf u).symm.trans hu) ((hf w).symm.trans hw)
        owned := by
          intro u m hu
          rcases ho' u m hu with ⟨-, rfl⟩ | ⟨-, hu⟩
          · exact ⟨List.mem_append_right _ List.mem_cons_self, hsh.live _ (List.mem_append_left _ (hsh.head_mem hl))⟩
          · obtain ⟨h1, h2⟩ := hsh.owned u m hu
            exact ⟨List.mem_append_left _ h1, h2⟩
        owned_inj := by
          intro u w m hu hw
          rcases ho' u m hu with ⟨rfl, rfl⟩ | ⟨-, hu⟩
          · rcases ho' w _ hw with ⟨rfl, -⟩ | ⟨-, hw⟩
            · rfl
            · exact absurd (hsh.owned w _ hw).1 hnot
          · rcases ho' w m hw with ⟨-, rfl⟩ | ⟨-, hw⟩
            · exact absurd (hsh.owned u _ hu).1 hnot
            · exact hsh.owned_inj u w m hu hw }
  · refine ⟨fun _ hm => List.mem_append_left _ hm, fun _ _ hr => hr, ?_, fun _ _ _ => ⟨rfl, rfl⟩⟩
    intro u hu hhu
    have h1 := (h.head t).2 hth
    rw [(h.head u).2 hhu] at h1
    exact absurd (Option.some.inj h1) hu

/-- `delete` at the end of a pop. -/
theorem Inv.delete (h : Inv s) (hot : (s.pc t).owned? = some n) (hf : p.fresh? = (s.pc t).fresh?) (ho : p.owned? = none)
    (hi : p.inFlight? = (s.pc t).inFlight?) (hh : p.hasHead = (s.pc t).hasHead) (ht : p.hasTail = (s.pc t).hasTail)
    (hloc : Local s s.chain p) : Inv ({ s with live := Function.update s.live n false }.goto t p) := by
  have hsh := h.shape
  obtain ⟨hnp, -⟩ := hsh.owned t n hot
  have hlive : ∀ {m}, m ≠ n → Function.update s.live n false m = s.live m := fun hm => Function.update_of_ne hm ..
  have hne : ∀ {m}, m ∈ s.chain ++ [s.tail_] → m ≠ n := by
    rintro m hm rfl
    have hnd := hsh.nodup
    rw [List.append_assoc] at hnd
    exact (List.nodup_append.1 hnd).2.2 m hnp m hm rfl
  have hf := update_same (s := s) (t := t) Pc.fresh? hf
  have hi := update_same (s := s) (t := t) Pc.inFlight? hi
  have ho' : ∀ u m, Pc.owned? (Function.update s.pc t p u) = some m → (s.pc u).owned? = some m ∧ m ≠ n := by
    intro u m hu
    by_cases hut : u = t
    · rw [hut, Function.update_self, ho] at hu; cases hu
    · rw [Function.update_of_ne hut] at hu
      exact ⟨hu, fun e => hut (hsh.owned_inj u t n (e ▸ hu) hot)⟩
  refine h.update (k := s.chain) rfl ?_ ?_ (mutex_same hh h.head) (mutex_same ht h.tail) (by cases p <;> exact hloc)
  · exact
      { seg := hsh.seg
        nodup := hsh.nodup
        alloc := hsh.alloc
        live := fun m hm => (hlive (hne hm)).trans (hsh.live m hm)
        log := hsh.log
        result := hsh.result
        inFlight := by
          intro m hm hr
          obtain ⟨u, hu⟩ := hsh.inFlight m hm hr
          exact ⟨u, (hi u).trans hu⟩
        fresh := by
          intro u m hu
          obtain ⟨h1, h2, h3⟩ := hsh.fresh u m ((hf u).symm.trans hu)
          refine ⟨h1, (hlive ?_).trans h2, h3⟩
          rintro rfl
          exact h3 (List.mem_append_left _ (List.mem_append_left _ hnp))
        fresh_inj := fun u w m hu hw => hsh.fresh_inj u w m ((hf u).symm.trans hu) ((hf w).symm.trans hw)
        owned := by
          intro u m hu
          obtain ⟨hu, hmn⟩ := ho' u m hu
          obtain ⟨h1, h2⟩ := hsh.owned u m hu
          exact ⟨h1, (hlive hmn).trans h2⟩
        owned_inj := fun u w m hu hw => hsh.owned_inj u w m (ho' u m hu).1 (ho' w m hw).1 }
  · exact ⟨fun _ hm => hm, fun _ _ hr => hr, fun _ _ _ => ⟨rfl, fun _ hm => hm, id⟩, fun _ _ _ => ⟨rfl, rfl⟩⟩

/-! ## All steps -/

omit [DecidableEq ι] in
/-- The node at `head_` of a non-empty queue is on the heap, with a successor. -/
theorem Shape.head_node (h : Shape s l) (hl : l ≠ []) : s.live s.head_ = true ∧ ∃ n, s.next s.head_ = some n := by
  refine ⟨h.live _ (List.mem_append_left _ (h.head_mem hl)), ?_⟩
  have hseg := h.seg
  cases l with
  | nil => exact absurd rfl hl
  | cons m l =>
    obtain ⟨hm, n, hn, -⟩ := hseg
    exact ⟨n, by rw [hm]; exact hn⟩

theorem Inv.compare (h : Inv s) {q : Pop} {b c : Ref} (hp : s.pc t = .compare q b c)
    (hpf : p.fresh? = none) (hpo : p.owned? = none) (hpi : p.inFlight? = none) (hh : p.hasHead = true)
    (ht : p.hasTail = false) (hloc : Local s s.chain p) : Inv (s.goto t p) :=
  h.control (by rw [hp]; exact hpf) (by rw [hp]; exact hpo) (by rw [hp]; exact hpi)
    (mutex_same (hh.trans (congrArg Pc.hasHead hp).symm) h.head)
    (mutex_same (ht.trans (congrArg Pc.hasTail hp).symm) h.tail) hloc

theorem Inv.tick [Inhabited α] (h : Inv s) (hs : exec s t (s.pc t) = some s') : Inv s' := by
  have hsh := h.shape
  have hloc := h.loc t
  have htl : s.live s.tail_ = true := hsh.live _ (by simp)
  have hself : ∀ x, Function.update s.mem s.tail_ x s.tail_ = x := fun x => Function.update_self ..
  cases hp : s.pc t with
  | idle | crash | ret | asleep => rw [hp] at hs; cases hs
  | pushNew v => rw [hp] at hs; cases hs; exact h.new hp
  | pushLock v n =>
    simp only [hp, exec] at hs
    split at hs
    · rename_i hm
      cases hs
      exact h.control (by rw [hp]; rfl) (by rw [hp]; rfl) (by rw [hp]; rfl)
        (mutex_same (congrArg Pc.hasHead hp).symm h.head) (mutex_lock hm rfl h.tail) trivial
    · cases hs
  | pushEntry v n =>
    simp only [hp, exec, State.access, htl, if_true, Option.some.injEq] at hs
    subst hs
    exact h.setTailNode (by rw [hp]; rfl) (by rw [hp]; rfl) (by rw [hp]; rfl) (by rw [hp]; rfl) (by rw [hp]; rfl) rfl
      (congrArg Node.entry_ (hself _))
  | pushNext v n =>
    simp only [hp, exec, State.access, htl, if_true, Option.some.injEq] at hs
    subst hs
    rw [hp] at hloc
    exact h.setTailNode (by rw [hp]; rfl) (by rw [hp]; rfl) (by rw [hp]; rfl) (by rw [hp]; rfl) (by rw [hp]; rfl) rfl
      ⟨(congrArg Node.entry_ (hself _)).trans hloc, congrArg Node.next_ (hself _)⟩
  | pushTail v n =>
    rw [hp] at hloc
    simp only [hp, exec, State.access, htl, if_true, hloc.2, State.deref, Option.some.injEq] at hs
    subst hs
    exact h.setTail hp
  | pushUnlock v =>
    rw [hp] at hs
    cases hs
    exact h.control (by rw [hp]; rfl) (by rw [hp]; rfl) (by rw [hp]; rfl)
      (mutex_same (congrArg Pc.hasHead hp).symm h.head) (mutex_unlock (by rw [hp]; rfl) rfl h.tail) trivial
  | notify v =>
    rw [hp] at hs
    cases hs
    have hpt : (if (s.pc t).isAsleep then .lockHead .waitAndPop else s.pc t : Pc α) = .notify v := by rw [hp]; rfl
    have hw := h.wakeAll
    refine hw.control ?_ ?_ ?_ (mutex_same ?_ hw.head) (mutex_same ?_ hw.tail) trivial <;>
    · dsimp only
      rw [hpt]; rfl
  | lockHead q =>
    simp only [hp, exec] at hs
    split at hs
    · rename_i hm
      cases hs
      exact h.control (by rw [hp]; rfl) (by rw [hp]; rfl) (by rw [hp]; rfl) (mutex_lock hm rfl h.head)
        (mutex_same (congrArg Pc.hasTail hp).symm h.tail) trivial
    · cases hs
  | readHead q =>
    rw [hp] at hs
    cases hs
    exact h.control (by rw [hp]; rfl) (by rw [hp]; rfl) (by rw [hp]; rfl)
      (mutex_same (congrArg Pc.hasHead hp).symm h.head) (mutex_same (congrArg Pc.hasTail hp).symm h.tail) rfl
  | lockTail q b =>
    rw [hp] at hloc
    simp only [hp, exec] at hs
    split at hs
    · rename_i hm
      cases hs
      exact h.control (by rw [hp]; rfl) (by rw [hp]; rfl) (by rw [hp]; rfl)
        (mutex_same (congrArg Pc.hasHead hp).symm h.head) (mutex_lock hm rfl h.tail) hloc
    · cases hs
  | readTail q b =>
    rw [hp] at hs hloc
    cases hs
    exact h.control (by rw [hp]; rfl) (by rw [hp]; rfl) (by rw [hp]; rfl)
      (mutex_same (congrArg Pc.hasHead hp).symm h.head) (mutex_same (congrArg Pc.hasTail hp).symm h.tail)
      ⟨hloc, by simp⟩
  | unlockTail q b c =>
    rw [hp] at hs hloc
    cases hs
    exact h.control (by rw [hp]; rfl) (by rw [hp]; rfl) (by rw [hp]; rfl)
      (mutex_same (congrArg Pc.hasHead hp).symm h.head) (mutex_unlock (by rw [hp]; rfl) rfl h.tail) hloc
  | compare q b c =>
    rw [hp] at hloc
    -- `tail_` may have moved on since it was read, but then the queue is not empty
    have hne : b ≠ c → s.chain ≠ [] := by
      intro hbc hc
      obtain ⟨rfl, hm⟩ := hloc
      rw [hc] at hm
      exact hbc (((hsh.eq_nil_iff).1 hc).trans (List.mem_singleton.1 hm).symm)
    cases q with
    | tryPop =>
      simp only [hp, exec, Option.some.injEq] at hs
      subst hs
      split
      · exact h.compare hp rfl rfl rfl rfl rfl trivial
      · rename_i hbc
        exact h.compare hp rfl rfl rfl rfl rfl (hne hbc)
    | waitAndPop =>
      simp only [hp, exec, Option.some.injEq] at hs
      subst hs
      split
      · exact h.compare hp rfl rfl rfl rfl rfl trivial
      · rename_i hbc
        exact h.compare hp rfl rfl rfl rfl rfl (hne hbc)
  | unlockFalse | sleep =>
    rw [hp] at hs
    cases hs
    exact h.control (by rw [hp]; rfl) (by rw [hp]; rfl) (by rw [hp]; rfl) (mutex_unlock (by rw [hp]; rfl) rfl h.head)
      (mutex_same (congrArg Pc.hasTail hp).symm h.tail) trivial
  | tryEntry =>
    rw [hp] at hloc
    obtain ⟨hlive, -⟩ := hsh.head_node hloc
    simp only [hp, exec, State.access, hlive, if_true, Option.some.injEq] at hs
    subst hs
    exact h.read (List.mem_append_right _ (hsh.head_mem hloc)) (by rw [hp]; rfl) (by rw [hp]; rfl)
      (.inl (by rw [hp]; rfl)) (by rw [hp]; rfl) (by rw [hp]; rfl) ⟨hloc, Function.update_self ..⟩
  | tryMove v =>
    rw [hp] at hloc
    obtain ⟨hlive, n, hn⟩ := hsh.head_node hloc.1
    simp only [hp, exec, State.access, hlive, if_true, hn, State.deref, Option.some.injEq] at hs
    subst hs
    exact h.take hloc.1 hn (by rw [hp]; rfl) (by rw [hp]; rfl) (by rw [hp]; rfl) rfl (by rw [hp]; rfl)
      (fun hr => absurd (hloc.2.symm.trans hr) nofun) rfl (by rw [hp]; rfl) fun _ => hloc.2
  | tryUnlock n v =>
    rw [hp] at hs hloc
    cases hs
    exact h.control (by rw [hp]; rfl) (by rw [hp]; rfl) (by rw [hp]; rfl) (mutex_unlock (by rw [hp]; rfl) rfl h.head)
      (mutex_same (congrArg Pc.hasTail hp).symm h.tail) hloc
  | tryDelete n v | waitDelete n v =>
    rw [hp] at hs hloc
    cases hs
    have hot : (s.pc t).owned? = some n := by rw [hp]; rfl
    exact h.delete hot (by rw [hp]; rfl) rfl (by rw [hp]; rfl) (by rw [hp]; rfl) (by rw [hp]; rfl)
      ⟨n, (hsh.owned t n hot).1, hloc⟩
  | waitMove =>
    rw [hp] at hloc
    obtain ⟨hlive, n, hn⟩ := hsh.head_node hloc
    simp only [hp, exec, State.access, hlive, if_true, hn, State.deref, Option.some.injEq] at hs
    subst hs
    exact h.take hloc hn (by rw [hp]; rfl) (by rw [hp]; rfl) (by rw [hp]; rfl) rfl (by rw [hp]; rfl)
      (fun _ => rfl) rfl (by rw [hp]; rfl) fun _ => trivial
  | waitUnlock n =>
    rw [hp] at hs
    cases hs
    exact h.control (by rw [hp]; rfl) (by rw [hp]; rfl) (by rw [hp]; rfl) (mutex_unlock (by rw [hp]; rfl) rfl h.head)
      (mutex_same (congrArg Pc.hasTail hp).symm h.tail) trivial
  | waitEntry n =>
    obtain ⟨hn, hlive⟩ := hsh.owned t n (by rw [hp]; rfl)
    simp only [hp, exec, State.access, hlive, if_true, Option.some.injEq] at hs
    subst hs
    exact h.read (List.mem_append_left _ hn) (by rw [hp]; rfl) (by rw [hp]; rfl) (.inr (by rw [hp]; rfl))
      (by rw [hp]; rfl) (by rw [hp]; rfl) (Function.update_self ..)

theorem Inv.step [Inhabited α] {a : Action ι α} (h : Inv s) (hs : step s a = some s') : Inv s' := by
  cases a with
  | tick t => exact h.tick hs
  | invoke t c =>
    simp only [FineGrainedQueue.step] at hs
    have hloc := h.loc t
    split at hs <;> rename_i hp
    · cases hs
      cases c <;>
        exact h.control (by rw [hp]; rfl) (by rw [hp]; rfl) (by rw [hp]; rfl)
          (mutex_same (congrArg Pc.hasHead hp).symm h.head) (mutex_same (congrArg Pc.hasTail hp).symm h.tail) trivial
    · cases hs
      cases c <;>
        exact h.control (by rw [hp]; rfl) (by rw [hp]; rfl) (by rw [hp]; rfl)
          (mutex_same (congrArg Pc.hasHead hp).symm h.head) (mutex_same (congrArg Pc.hasTail hp).symm h.tail) trivial
    · cases hs
  | wake t =>
    simp only [FineGrainedQueue.step] at hs
    split at hs
    · rename_i hp
      cases hs
      have hp : s.pc t = .asleep := by
        generalize s.pc t = p at hp
        cases p <;> first | rfl | cases hp
      exact h.control (by rw [hp]; rfl) (by rw [hp]; rfl) (by rw [hp]; rfl)
        (mutex_same (congrArg Pc.hasHead hp).symm h.head) (mutex_same (congrArg Pc.hasTail hp).symm h.tail) trivial
    · cases hs

omit [DecidableEq ι] in
theorem inv_init [Inhabited α] : Inv (State.init : State ι α) := by
  have hs : Shape (State.init : State ι α) [] :=
    { seg := rfl
      nodup := List.nodup_singleton 0
      alloc := fun n hn => by rw [List.mem_singleton.1 hn]; exact Nat.zero_lt_one
      live := fun n hn => by rw [List.mem_singleton.1 hn]; rfl
      log := rfl
      result := nofun
      inFlight := nofun
      fresh := nofun
      fresh_inj := nofun
      owned := nofun
      owned_inj := nofun }
  exact ⟨by rw [hs.chain_eq]; exact hs, fun t => ⟨nofun, nofun⟩, fun t => ⟨nofun, nofun⟩, fun t => trivial⟩

theorem reach_inv [Inhabited α] (h : Lts.Reach threads s) : Inv s :=
  h.invariant (fun _ hs => hs ▸ inv_init) fun _ _ _ _ hi hs => hi.step hs

/-! ## A tryPop that returns false -/

section False

variable [Inhabited α] {a : Action ι α} {w : List (State ι α × Action ι α × State ι α)}

/-- Another thread leaves a call where it is, or wakes it up. -/
theorem exec_pc (hs : exec s u p = some s') (hut : t ≠ u) :
    s'.pc t = s.pc t ∨ (s.pc t).isAsleep = true ∧ s'.pc t = .lockHead .waitAndPop := by
  have hgo : ∀ (s₁ : State ι α) q, (s₁.goto u q).pc t = s₁.pc t := fun s₁ q => Function.update_of_ne hut ..
  cases p with
  | idle | crash | ret | asleep => cases hs
  | pushLock | lockHead | lockTail =>
    simp only [exec] at hs
    split at hs
    · cases hs; exact .inl (hgo _ _)
    · cases hs
  | compare q b c => cases q <;> (cases hs; exact .inl (hgo _ _))
  | pushEntry | pushNext | tryEntry | waitEntry =>
    simp only [exec, State.access, Option.some.injEq] at hs
    subst hs
    split <;> exact .inl (hgo _ _)
  | pushTail | tryMove | waitMove =>
    simp only [exec, State.access, State.deref, Option.some.injEq] at hs
    subst hs
    split
    · split <;> exact .inl (hgo _ _)
    · exact .inl (hgo _ _)
  | notify v =>
    cases hs
    rw [hgo]
    dsimp only
    split
    · rename_i ht
      exact .inr ⟨ht, rfl⟩
    · exact .inl rfl
  | _ => cases hs; exact .inl (hgo _ _)

theorem step_pc (hs : step s a = some s') (ha : a ≠ .tick t) (hc : (s.pc t).call? ≠ none) :
    s'.pc t = s.pc t ∨ (s.pc t).isAsleep = true ∧ s'.pc t = .lockHead .waitAndPop := by
  cases a with
  | tick u => exact exec_pc hs fun e => ha (by rw [e])
  | invoke u c =>
    simp only [step] at hs
    have hut : t ≠ u := by
      rintro rfl
      split at hs <;> rename_i hp
      · rw [hp] at hc; exact hc rfl
      · rw [hp] at hc; exact hc rfl
      · cases hs
    split at hs <;> cases hs <;> exact .inl (Function.update_of_ne hut ..)
  | wake u =>
    simp only [step] at hs
    split at hs
    · rename_i hp
      cases hs
      by_cases hut : t = u
      · subst hut
        exact .inr ⟨hp, Function.update_self ..⟩
      · exact .inl (Function.update_of_ne hut ..)
    · cases hs

omit [DecidableEq ι] [Inhabited α] in
theorem Pc.not_asleep {p : Pc α} (hc : p.call? = some (.pop .tryPop)) : p.isAsleep = false := by
  cases p <;> first | rfl | cases hc

/-- The move at which the `tryPop` of `t` reads `tail_`. -/
def ReadsTail (t : ι) (x : State ι α × Action ι α × State ι α) : Prop :=
  x.2.1 = .tick t ∧ ∃ h, x.1.pc t = .readTail .tryPop h

/-- What a `tryPop` knows about the queue at the time it read `tail_`. -/
def TailRead (t : ι) (w : List (State ι α × Action ι α × State ι α)) : Pc α → Prop
  | .unlockTail .tryPop b c | .compare .tryPop b c => ∃ x ∈ w, ReadsTail t x ∧ (b = c → x.1.chain = [])
  | .unlockFalse | .ret (.pop .tryPop) none => ∃ x ∈ w, ReadsTail t x ∧ x.1.chain = []
  | _ => True

omit [Inhabited α] [DecidableEq ι] in
theorem TailRead.mono {x : State ι α × Action ι α × State ι α} (h : TailRead t w p) : TailRead t (w ++ [x]) p := by
  have up : ∀ {P : State ι α × Action ι α × State ι α → Prop}, (∃ y ∈ w, P y) → ∃ y ∈ w ++ [x], P y :=
    fun ⟨y, hy, hP⟩ => ⟨y, List.mem_append_left _ hy, hP⟩
  cases p with
  | unlockTail q b c | compare q b c =>
    cases q with
    | tryPop => exact up h
    | waitAndPop => exact trivial
  | unlockFalse => exact up h
  | ret c r =>
    cases c with
    | push v => exact trivial
    | pop q =>
      cases q <;> cases r <;> first | exact up h | exact trivial
  | _ => exact trivial

/-- One step of `tryPop`. -/
theorem TailRead.step (hi : Inv s) (hs : exec s t (s.pc t) = some s') (hc : (s.pc t).call? = some (.pop .tryPop))
    (h : TailRead t w (s.pc t)) : TailRead t (w ++ [(s, .tick t, s')]) (s'.pc t) := by
  have hgo : ∀ (s₁ : State ι α) q, (s₁.goto t q).pc t = q := fun s₁ q => Function.update_self ..
  cases hp : s.pc t with
  | lockHead q | lockTail q b =>
    simp only [hp, exec] at hs
    split at hs
    · cases hs; rw [hgo]; exact trivial
    · cases hs
  | readHead q => rw [hp] at hs; cases hs; rw [hgo]; exact trivial
  | readTail q b =>
    have hloc := hi.loc t
    rw [hp] at hs hc hloc
    cases hc
    cases hs
    rw [hgo]
    refine ⟨_, List.mem_append_right _ (List.mem_singleton.2 rfl), ⟨rfl, b, hp⟩, ?_⟩
    intro e
    exact hi.shape.eq_nil_iff.2 (hloc.symm.trans e)
  | unlockTail q b c =>
    rw [hp] at hs hc h
    cases hc
    cases hs
    rw [hgo]
    exact h.mono
  | compare q b c =>
    rw [hp] at hs hc h
    cases hc
    cases hs
    rw [hgo]
    split
    · rename_i hbc
      obtain ⟨x, hx, hr, he⟩ := h
      exact ⟨x, List.mem_append_left _ hx, hr, he hbc⟩
    · exact trivial
  | unlockFalse =>
    rw [hp] at hs h
    cases hs
    rw [hgo]
    exact TailRead.mono h
  | tryUnlock n v | tryDelete n v => rw [hp] at hs; cases hs; rw [hgo]; exact trivial
  | tryEntry =>
    simp only [hp, exec, State.access, Option.some.injEq] at hs
    subst hs
    split <;> (rw [hgo]; exact trivial)
  | tryMove v =>
    simp only [hp, exec, State.access, State.deref, Option.some.injEq] at hs
    subst hs
    split
    · split <;> (rw [hgo]; exact trivial)
    · rw [hgo]; exact trivial
  | _ => rw [hp] at hc; cases hc

theorem tailRead_run (hs : Lts.Reach threads s) (hr : Lts.Run threads s w s') (h0 : s.pc t = .lockHead .tryPop)
    (hG : ∀ x ∈ w, (x.1.pc t).call? = some (.pop .tryPop)) : TailRead t w (s'.pc t) := by
  induction hr with
  | nil => rw [h0]; exact trivial
  | @snoc s₁ s₂ a w hr hst ih =>
    have h := ih fun x hx => hG x (List.mem_append_left _ hx)
    have hc : (s₁.pc t).call? = some (.pop .tryPop) := hG (s₁, a, s₂) (by simp)
    by_cases ha : a = .tick t
    · subst ha
      exact h.step (reach_inv (hr.reach hs)) hst hc
    · have hpc := step_pc hst ha (by rw [hc]; exact Option.some_ne_none _)
      rw [hpc.resolve_right fun hw => by rw [Pc.not_asleep hc] at hw; exact Bool.false_ne_true hw.1]
      exact h.mono

end False

/-! ## The node that a pop takes -/

section Taken

variable [Inhabited α] {a : Action ι α} {w : List (State ι α × Action ι α × State ι α)} {q : Pop}

/-- The move at which the pop of `t` takes `n` off the queue: it moves `head_`, under `head_mutex_`. -/
structure Takes (t : ι) (n : Ref) (x : State ι α × Action ι α × State ι α) : Prop where
  tick : x.2.1 = .tick t
  lock : x.1.head_mutex_ = some t
  head : x.1.head_ = n
  popped : x.2.2.popped = x.1.popped ++ [n]

/-- The pop takes the node of the push whose number is that of the pops before it, and the value of this push is `v`. -/
def TakesValue (t : ι) (v : α) (x : State ι α × Action ι α × State ι α) : Prop :=
  ∃ n, Takes t n x ∧ x.2.2.pushed[x.1.popped.length]? = some (n, v)

/-- What a pop returns, once it has moved `head_`. -/
def Pc.outcome (s : State ι α) : Pc α → Option α
  | .tryUnlock _ v | .tryDelete _ v | .waitDelete _ v | .ret (.pop _) (some v) => some v
  | .waitUnlock n | .waitEntry n => some (s.entry n)
  | _ => none

/-- The entry of a node that has been popped does not change any more. -/
theorem Inv.step_entry (h : Inv s) (hs : FineGrainedQueue.step s a = some s') (hn : n ∈ s.popped) :
    s'.entry n = s.entry n := by
  have hsh := h.shape
  have hbrk : n ≠ s.brk := Nat.ne_of_lt (hsh.alloc n (by simp [hn]))
  have htail : n ≠ s.tail_ := fun e => (List.nodup_append.1 hsh.nodup).2.2 n (List.mem_append_left _ hn) _
    (List.mem_singleton.2 rfl) e
  cases a with
  | invoke u c =>
    simp only [FineGrainedQueue.step] at hs
    split at hs <;> cases hs <;> rfl
  | wake u =>
    simp only [FineGrainedQueue.step] at hs
    split at hs <;> cases hs
    rfl
  | tick u =>
    simp only [FineGrainedQueue.step] at hs
    cases hp : s.pc u with
    | idle | crash | ret | asleep => rw [hp] at hs; cases hs
    | pushNew v =>
      rw [hp] at hs
      cases hs
      exact congrArg Node.entry_ (Function.update_of_ne hbrk ..)
    | pushEntry v m | pushNext v m =>
      simp only [hp, exec, State.access, Option.some.injEq] at hs
      subst hs
      split
      · exact congrArg Node.entry_ (Function.update_of_ne htail ..)
      · rfl
    | pushLock | lockHead | lockTail =>
      simp only [hp, exec] at hs
      split at hs <;> cases hs
      rfl
    | compare q b c => cases q <;> (rw [hp] at hs; cases hs; rfl)
    | tryEntry | waitEntry =>
      simp only [hp, exec, State.access, Option.some.injEq] at hs
      subst hs
      split <;> rfl
    | pushTail | tryMove | waitMove =>
      simp only [hp, exec, State.access, State.deref, Option.some.injEq] at hs
      subst hs
      split
      · split <;> rfl
      · rfl
    | _ => rw [hp] at hs; cases hs; rfl

/-- Other threads do not change what a pop returns. -/
theorem outcome_other (h : Inv s) (hs : step s a = some s') (ha : a ≠ .tick t) (hc : (s.pc t).call? = some (.pop q)) :
    (s'.pc t).outcome s' = (s.pc t).outcome s := by
  rcases step_pc hs ha (by rw [hc]; exact Option.some_ne_none _) with hpc | ⟨hsl, hpc⟩
  · rw [hpc]
    cases hp : s.pc t with
    | waitUnlock n | waitEntry n =>
      exact congrArg some (h.step_entry hs (h.shape.owned t n (by rw [hp]; rfl)).1)
    | ret => rw [hp] at hc; cases hc
    | _ => rfl
  · rw [hpc]
    cases hp : s.pc t <;> first | rfl | (rw [hp] at hsl; cases hsl)

omit [Inhabited α] [DecidableEq ι] in
/-- The node that `head_` points to has the value of the next push. -/
theorem Inv.pushed_head (h : Inv s) (hl : s.chain ≠ []) :
    s.pushed[s.popped.length]? = some (s.head_, s.entry s.head_) := by
  obtain ⟨l, hl⟩ : ∃ l, s.chain = s.head_ :: l := by
    have hseg := h.shape.seg
    cases hc : s.chain with
    | nil => exact absurd hc hl
    | cons n l =>
      rw [hc] at hseg
      exact ⟨l, by rw [hseg.1]⟩
  rw [← h.shape.log, hl]
  simp

/-- A step of a pop moves `head_` and decides what is returned, or takes nothing. -/
theorem outcome_own (h : Inv s) (hs : step s (.tick t) = some s') (hc : (s.pc t).call? = some (.pop q)) :
    ((s'.pc t).outcome s' = (s.pc t).outcome s ∧ ∀ n, ¬Takes t n (s, .tick t, s')) ∨
      ∃ v, (s.pc t).outcome s = none ∧ (s'.pc t).outcome s' = some v ∧ TakesValue t v (s, .tick t, s') := by
  have hgo : ∀ {s₁ : State ι α} {p : Pc α}, (s₁.goto t p).pc t = p := Function.update_self ..
  have hquiet : s'.popped = s.popped → ∀ n, ¬Takes t n (s, .tick t, s') := fun he n hx => by
    have hlen := congrArg List.length (he.symm.trans hx.popped)
    simp at hlen
  have hsh := h.shape
  have hloc := h.loc t
  have hlock : (s.pc t).hasHead = true → s.head_mutex_ = some t := (h.head t).2
  simp only [FineGrainedQueue.step] at hs
  cases hp : s.pc t with
  | lockHead q | lockTail q b =>
    simp only [hp, exec] at hs
    split at hs
    · cases hs
      rw [hgo]
      exact .inl ⟨rfl, hquiet rfl⟩
    · cases hs
  | readHead q | readTail q b | unlockTail q b c | unlockFalse | sleep | tryUnlock n v | tryDelete n v | waitUnlock n
  | waitDelete n v =>
    rw [hp] at hs
    cases hs
    rw [hgo]
    exact .inl ⟨rfl, hquiet rfl⟩
  | compare q b c =>
    cases q <;>
    · rw [hp] at hs
      cases hs
      rw [hgo]
      refine .inl ⟨?_, hquiet rfl⟩
      split <;> rfl
  | tryEntry =>
    rw [hp] at hloc
    have hlive := (hsh.head_node hloc).1
    simp only [hp, exec, State.access, hlive, if_true, Option.some.injEq] at hs
    subst hs
    rw [hgo]
    exact .inl ⟨rfl, hquiet rfl⟩
  | waitEntry n =>
    have hlive := (hsh.owned t n (by rw [hp]; rfl)).2
    simp only [hp, exec, State.access, hlive, if_true, Option.some.injEq] at hs
    subst hs
    rw [hgo]
    exact .inl ⟨rfl, hquiet rfl⟩
  | tryMove v =>
    rw [hp] at hloc hlock
    obtain ⟨hlive, n, hn⟩ := hsh.head_node hloc.1
    simp only [hp, exec, State.access, hlive, if_true, hn, State.deref, Option.some.injEq] at hs
    subst hs
    rw [hgo]
    refine .inr ⟨v, rfl, rfl, s.head_, ⟨rfl, hlock rfl, rfl, rfl⟩, ?_⟩
    rw [← (hsh.result _ _ hloc.2).2]
    exact h.pushed_head hloc.1
  | waitMove =>
    rw [hp] at hloc hlock
    obtain ⟨hlive, n, hn⟩ := hsh.head_node hloc
    simp only [hp, exec, State.access, hlive, if_true, hn, State.deref, Option.some.injEq] at hs
    subst hs
    rw [hgo]
    exact .inr ⟨_, rfl, rfl, s.head_, ⟨rfl, hlock rfl, rfl, rfl⟩, h.pushed_head hloc⟩
  | asleep => rw [hp] at hs; cases hs
  | _ => rw [hp] at hc; cases hc

/-- A pop that returns a value takes one node, with this value; one that returns none takes nothing. -/
theorem taken_run (hs : Lts.Reach threads s) (hr : Lts.Run threads s w s') (h0 : s.pc t = .lockHead q)
    (hG : ∀ x ∈ w, (x.1.pc t).call? = some (.pop q)) :
    (∀ v, (s'.pc t).outcome s' = some v → ∃ w₁ x w₂, w = w₁ ++ x :: w₂ ∧ TakesValue t v x ∧
      ∀ y ∈ w₁ ++ w₂, ∀ n, ¬Takes t n y) ∧
    ((s'.pc t).outcome s' = none → ∀ y ∈ w, ∀ n, ¬Takes t n y) := by
  have hmove : ∀ (s : State ι α) a s', Lts.Reach threads s → threads.step s a s' → (s.pc t).call? = some (.pop q) →
      ((s'.pc t).outcome s' = (s.pc t).outcome s ∧ ∀ n, ¬Takes t n (s, a, s')) ∨
        ∃ v, (s.pc t).outcome s = none ∧ (s'.pc t).outcome s' = some v ∧ TakesValue t v (s, a, s') := by
    intro s a s' hs hst hG
    by_cases ha : a = .tick t
    · subst ha
      exact outcome_own (reach_inv hs) hst hG
    · exact .inl ⟨outcome_other (reach_inv hs) hst ha hG, fun n hx => ha hx.tick⟩
  have hpre : ∀ (s : State ι α) a s', Lts.Reach threads s → threads.step s a s' → (s.pc t).call? = some (.pop q) →
      (s.pc t).outcome s = none → ((s'.pc t).outcome s' = none ∧ ∀ n, ¬Takes t n (s, a, s')) ∨
        ∃ v, (s'.pc t).outcome s' = some v ∧ TakesValue t v (s, a, s') := by
    intro s a s' hs hst hG h0
    rcases hmove s a s' hs hst hG with ⟨he, hq⟩ | ⟨v, -, hv, hx⟩
    · exact .inl ⟨he.trans h0, hq⟩
    · exact .inr ⟨v, hv, hx⟩
  have hpost : ∀ (s : State ι α) a s' v, Lts.Reach threads s → threads.step s a s' →
      (s.pc t).call? = some (.pop q) → (s.pc t).outcome s = some v →
      (s'.pc t).outcome s' = some v ∧ ∀ n, ¬Takes t n (s, a, s') := by
    intro s a s' v hs hst hG h0
    rcases hmove s a s' hs hst hG with ⟨he, hq⟩ | ⟨v, hnone, -⟩
    · exact ⟨he.trans h0, hq⟩
    · rw [h0] at hnone
      cases hnone
  refine ⟨fun v h1 => ?_, fun h1 => ?_⟩
  · exact Lts.Run.crossing hpre hpost hs hr hG (by rw [h0]; rfl) h1
  · induction hr with
    | nil => nofun
    | @snoc s₁ s₂ a w hr hst ih =>
      rcases hmove _ _ _ (hr.reach hs) hst (hG (s₁, a, s₂) (by simp)) with ⟨he, hq⟩ | ⟨v, -, hv, -⟩
      · intro y hy
        rcases List.mem_append.1 hy with hy | hy
        · exact ih (fun x hx => hG x (List.mem_append_left _ hx)) (he.symm.trans h1) y hy
        · rw [List.mem_singleton.1 hy]
          exact hq
      · rw [hv] at h1
        cases h1

end Taken

/-! ## The queue is a FIFO queue -/

/-- The node whose entry the next step of `t` reads. -/
def State.reads (s : State ι α) (t : ι) : Option Ref :=
  match s.pc t with
  | .tryEntry => some s.head_
  | .waitEntry n => some n
  | _ => none

/-- Popped values, then the queue, are the pushed values. -/
structure Fifo (s : State ι α) : Prop where
  seg : Segment s.next s.head_ s.chain s.tail_
  /-- No node is popped twice. -/
  nodup : (s.popped ++ s.chain).Nodup
  log : s.popped.map (fun n => (n, s.popVal n)) ++ s.chain.map (fun n => (n, s.entry n)) = s.pushed
  /-- A pop that has moved `head_` and not read its entry is a `waitAndPop` about to read it. -/
  inFlight : ∀ n ∈ s.popped, s.result n = none → ∃ t, (s.pc t).inFlight? = some n
  returned : ∀ t q v, s.pc t = .ret (.pop q) (some v) → ∃ n ∈ s.popped, s.result n = some v
  reads : ∀ t n, s.reads t = some n → (n, s.entry n) ∈ s.pushed

omit [DecidableEq ι] in
theorem Inv.fifo (h : Inv s) : Fifo s where
  seg := h.shape.seg
  nodup := (List.nodup_append.1 h.shape.nodup).1
  log := by
    rw [← h.shape.log, List.map_append]
    refine congrArg₂ _ (List.map_congr_left ?_) rfl
    intro n _
    rw [State.popVal]
    cases hr : s.result n with
    | none => rfl
    | some v => rw [(h.shape.result n v hr).2]; rfl
  inFlight := h.shape.inFlight
  returned t q v hp := by
    have hloc := h.loc t
    rw [hp] at hloc
    exact hloc
  reads t n hn := by
    have hmem : n ∈ s.popped ++ s.chain := by
      have hloc := h.loc t
      unfold State.reads at hn
      split at hn
      · rename_i hp
        cases hn
        rw [hp] at hloc
        exact List.mem_append_right _ (h.shape.head_mem hloc)
      · rename_i hp
        cases hn
        exact List.mem_append_left _ (h.shape.owned t n (by rw [hp]; rfl)).1
      · cases hn
    rw [← h.shape.log]
    exact List.mem_map.2 ⟨n, hmem, rfl⟩

/-- In every reachable state the values of the pops, in the order in which they moved `head_`, followed by the entries
from `head_` up to `tail_`, are the values of the pushes that have moved `tail_`, in that order. A pop that returns a
value has one move that takes a node, and the value is that of the node it takes; a `tryPop` that returns `false` takes
none, and read `tail_` when the queue was empty. -/
theorem queue_fifo [Inhabited α] :
    (∀ s : State ι α, Lts.Reach threads s → Fifo s) ∧
    (∀ (s s' : State ι α) (w : List (State ι α × Action ι α × State ι α)) (t : ι) (q : Pop) (v : α),
      Lts.Reach threads s → Lts.Run threads s w s' → s.pc t = .lockHead q →
      (∀ x ∈ w, (x.1.pc t).call? = some (.pop q)) → s'.pc t = .ret (.pop q) (some v) →
      ∃ w₁ x w₂, w = w₁ ++ x :: w₂ ∧ TakesValue t v x ∧ ∀ y ∈ w₁ ++ w₂, ∀ n, ¬Takes t n y) ∧
    ∀ (s s' : State ι α) (w : List (State ι α × Action ι α × State ι α)) (t : ι),
      Lts.Reach threads s → Lts.Run threads s w s' → s.pc t = .lockHead .tryPop →
      (∀ x ∈ w, (x.1.pc t).call? = some (.pop .tryPop)) → s'.pc t = .ret (.pop .tryPop) none →
      (∃ x ∈ w, ReadsTail t x ∧ x.1.chain = []) ∧ ∀ y ∈ w, ∀ n, ¬Takes t n y := by
  refine ⟨fun s hs => (reach_inv hs).fifo, ?_, ?_⟩
  · intro s s' w t q v hs hr h0 hG h1
    exact (taken_run hs hr h0 hG).1 v (by rw [h1]; rfl)
  · intro s s' w t hs hr h0 hG h1
    have h := tailRead_run hs hr h0 hG
    rw [h1] at h
    exact ⟨h, (taken_run hs hr h0 hG).2 (by rw [h1]; rfl)⟩

/-- Thread `1` has pushed `7`, and thread `0` has called `tryPop`. -/
def oneQueued : State ℕ ℕ := (Lts.exec step State.init
  (.invoke 1 (.push 7) :: List.replicate 7 (.tick 1) ++ [.invoke 0 (.pop .tryPop)])).get (by decide)

theorem reach_oneQueued : Lts.Reach threads oneQueued := .exec (.init rfl) (Option.some_get _).symm

/-- The `tryPop` waits for the `push` of thread `2`, and thread `1` for the `tryPop`. -/
def overlapping : List (Action ℕ ℕ) :=
  .invoke 2 (.push 8) :: List.replicate 2 (.tick 2) ++ List.replicate 2 (.tick 0) ++ List.replicate 5 (.tick 2) ++
    .invoke 1 (.pop .waitAndPop) :: List.replicate 7 (.tick 0) ++ List.replicate 6 (.tick 1) ++ [.tick 0]

/-- Threads `0` and `1` have called `tryPop` and `push( 7 )` on the new queue. -/
def tryPopEmpty : State ℕ ℕ :=
  (Lts.exec step State.init [.invoke 1 (.push 7), .invoke 0 (.pop .tryPop)]).get (by decide)

theorem reach_tryPopEmpty : Lts.Reach threads tryPopEmpty := .exec (.init rfl) (Option.some_get _).symm

/-- The `push` comes to its end between the reading of `tail_` and the return of the `tryPop`. -/
def tooLate : List (Action ℕ ℕ) :=
  [.tick 1] ++ List.replicate 5 (.tick 0) ++ List.replicate 4 (.tick 1) ++ List.replicate 2 (.tick 0)

theorem queue_fifo_overlapping :
    (∃ s ∈ Lts.exec step oneQueued overlapping, s.popped = [0] ∧ s.chain = [1] ∧ s.pushed = [(0, 7), (1, 8)] ∧ Fifo s) ∧
    (∃ w₁ x w₂, Lts.moves step oneQueued overlapping = w₁ ++ x :: w₂ ∧ TakesValue 0 7 x ∧
      ∀ y ∈ w₁ ++ w₂, ∀ n, ¬Takes 0 n y) ∧
    (∃ x ∈ Lts.moves step tryPopEmpty tooLate, ReadsTail 0 x ∧ x.1.chain = []) ∧
    ∀ y ∈ Lts.moves step tryPopEmpty tooLate, ∀ n, ¬Takes 0 n y := by
  obtain ⟨s, hs, hlogs⟩ : ∃ s ∈ Lts.exec step oneQueued overlapping,
      s.popped = [0] ∧ s.chain = [1] ∧ s.pushed = [(0, 7), (1, 8)] := by
    decide +kernel
  exact ⟨⟨s, hs, hlogs.1, hlogs.2.1, hlogs.2.2, queue_fifo.1 s (reach_oneQueued.exec hs)⟩,
    queue_fifo.2.1 oneQueued _ _ 0 .tryPop 7 reach_oneQueued (.schedule (by decide +kernel)) (by decide +kernel)
      (by decide +kernel) (by decide +kernel),
    queue_fifo.2.2 tryPopEmpty _ _ 0 reach_tryPopEmpty (.schedule (by decide +kernel)) (by decide +kernel)
      (by decide +kernel) (by decide +kernel)⟩

end Libeva.Ds.FineGrainedQueue
