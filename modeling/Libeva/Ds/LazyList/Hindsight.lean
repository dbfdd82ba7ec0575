import Libeva.Ds.LazyList.Linear

/-!
# `get` is linearizable

`get` takes no lock, so the node it stands on may have been replaced, marked or unlinked since. What it has read is
explained by a past state of its own run: off the list a node changes no more (`Inv.step_next`, `Inv.step_marked`,
`Inv.step_entry`), so its fields now are those of the last state that had it on the list (`node_hindsight`).

* `Before k s c`: in `s` the node `c` follows a node of the list that lies before `k`.
* `Explained`: what a `get` at a program point knows about the states since its call; `Explained.step` is one step.
* `get_linearizable`: a hit was the entry of the key, and a miss was right, at some state during the call.
-/

namespace Libeva.Ds.LazyList

variable {ι α κ : Type*} [LinearOrder κ] {key : α → κ} {s s' : State ι α} {t : ι} {n : Ref}
  {vs vs' : List (State ι α)} {k : α} {p : Pc α}

/-- A node of the list that lies before the key has `c` as its successor. -/
def Before (key : α → κ) (k : α) (s : State ι α) (c : Ref) : Prop :=
  ∃ b ∈ head_ :: s.chain, (b ≠ head_ → s.keyOf key b < key k) ∧ s.next b = some c

/-- How a `get( k )` at a program point is explained by the states `vs` since its call. -/
def Explained (key : α → κ) (k : α) (vs : List (State ι α)) : Pc α → Prop
  | .getLoop _ c | .getNext _ c | .getMarked _ c => ∃ s ∈ vs, Before key k s c
  | .getEqualL _ c | .getEqualR _ c =>
    (∃ s ∈ vs, Before key k s c) ∧ (c = tail_ ∨ ∃ s ∈ vs, c ∈ s.chain ∧ s.marked c = false)
  | .getEntry _ c => ∃ s ∈ vs, c ∈ s.chain ∧ s.marked c = false
  | .ret _ (.entry r) => ∃ s ∈ vs, s.abs key (key k) = r
  | _ => True

theorem Explained.mono (h : Explained key k vs p) (hv : ∀ s ∈ vs, s ∈ vs') : Explained key k vs' p := by
  have up : ∀ {P : State ι α → Prop}, (∃ s ∈ vs, P s) → ∃ s ∈ vs', P s := fun ⟨s, hs, hP⟩ => ⟨s, hv s hs, hP⟩
  cases p with
  | getLoop | getNext | getMarked | getEntry => exact up h
  | getEqualL | getEqualR => exact ⟨up h.1, h.2.imp id up⟩
  | ret c r =>
    cases r with
    | bool => exact trivial
    | entry r => exact up h
  | _ => exact trivial

/-- What follows a node of the list is on the list or is its end. -/
theorem Before.mem_or (h : Before key k s n) (hi : Inv key s) : n ∈ s.chain ∨ n = tail_ := by
  obtain ⟨b, hb, -, hn⟩ := h
  obtain ⟨m, hm, hn'⟩ := hi.shape.path.succ b hb
  obtain rfl : n = m := Option.some.inj (hn.symm.trans hn')
  simpa using hm

theorem Before.abs_none (h : Before key k s n) (hi : Inv key s) (hk : key k < s.keyOf key n) :
    s.abs key (key k) = none := by
  obtain ⟨b, hb, hlt, hn⟩ := h
  exact hi.abs_none_between hb hlt hn hk

/-- A marked node on the list: the key is not in the map. -/
theorem Inv.abs_none_of_marked (h : Inv key s) (hn : n ∈ s.chain) (hm : s.marked n = true) :
    s.abs key (s.keyOf key n) = none := by
  rw [h.abs_eq_none]
  intro m hl hmm hk
  rw [h.shape.keyOf_inj (h.shape.complete m hl hmm) hn hk, hm] at hmm
  cases hmm

variable [DecidableEq ι] [Inhabited α] {maxVal : α} {w : List (State ι α × Action ι α × State ι α)}

/-! ## The past of a node -/

/-- A fact about a node that held in the past, held when the node had its present fields. -/
theorem node_hindsight {β : Type*} {P : State ι α → Prop} {f : State ι α → β}
    (hP : ∀ s, Lts.Reach (threads key maxVal) s → P s → s.Linked n)
    (hf : ∀ s a s', Inv key s → step key s a = some s' → s.Linked n → ¬P s' → f s' = f s)
    (hs : Lts.Reach (threads key maxVal) s) (hr : Lts.Run (threads key maxVal) s w s')
    (h : ∃ v ∈ Lts.visited s w, P v) : ∃ v ∈ Lts.visited s w, P v ∧ f v = f s' := by
  obtain ⟨v, hv, hPv, -, hR⟩ := Lts.Run.hindsight (P := P) (R := fun v s => s.Linked n ∧ f v = f s)
    (fun s hs hPs => ⟨hP s hs hPs, rfl⟩) (fun v s a s' hs hst hR hnP => .inl
      ⟨(reach_inv hs).step_linked hst hR.1, hR.2.trans (hf s a s' (reach_inv hs) hst hR.1 hnP).symm⟩) hs hr h
  exact ⟨v, hv, hPv, hR⟩

/-- The key of a node that a traversal can stand on is what it was at any past state. -/
theorem keyOf_past (hs : Lts.Reach (threads key maxVal) s) (hr : Lts.Run (threads key maxVal) s w s') :
    ∀ v ∈ Lts.visited s w, v.Curr n → s'.Curr n ∧ s'.keyOf key n = v.keyOf key n := by
  induction hr with
  | nil =>
    intro v hv hc
    obtain rfl : v = s := by simpa [Lts.visited] using hv
    exact ⟨hc, rfl⟩
  | @snoc s₁ s₂ a w hr hst ih =>
    intro v hv hc
    rw [Lts.visited_snoc] at hv
    rcases List.mem_append.1 hv with hv | hv
    · obtain ⟨h1, h2⟩ := ih v hv hc
      have hi := reach_inv (hr.reach hs)
      exact ⟨h1.imp id (hi.step_linked hst), (hi.step_keyOf hst (.inr h1)).trans h2⟩
    · obtain rfl := List.mem_singleton.1 hv
      exact ⟨hc, rfl⟩

/-! ## One step of `get` -/

/-- One step of `get`, after a run `w` from its call. -/
theorem Explained.step {s₀ : State ι α} (hs : Lts.Reach (threads key maxVal) s₀)
    (hr : Lts.Run (threads key maxVal) s₀ w s) (hst : LazyList.step key s (.tick t) = some s')
    (hc : (s.pc t).call? = some (.get k)) (h : Explained key k (Lts.visited s₀ w) (s.pc t)) :
    Explained key k (Lts.visited s₀ w) (s'.pc t) := by
  have hi := reach_inv (hr.reach hs)
  have hloc := hi.loc t
  have hinv : ∀ v ∈ Lts.visited s₀ w, Inv key v := fun v hv => reach_inv (hr.reach_visited hs v hv)
  have hkey : ∀ {c v}, v ∈ Lts.visited s₀ w → (c ∈ v.chain ∨ c = tail_) → v.keyOf key c = s.keyOf key c :=
    fun hv hcv => (keyOf_past hs hr _ hv
      (hcv.elim (fun hcv => .inr ((hinv _ hv).shape.linked _ hcv)) .inl)).2.symm
  have hlink : ∀ {c : Ref} (v : State ι α), Lts.Reach (threads key maxVal) v → c ∈ v.chain → v.Linked c :=
    fun v hv => (reach_inv hv).shape.linked _
  have hpcs : ∀ {s : State ι α} {p : Pc α}, (s.goto t p).pc t = p := fun {s p} => by rw [goto_pc, Function.update_self]
  simp only [LazyList.step] at hst
  cases hp : s.pc t with
  | getHead k' =>
    obtain ⟨c, hnext, -⟩ := hi.shape.head_succ
    simp only [hp, fetch, exec, hnext, deref, Option.some.injEq] at hst
    subst hst
    rw [hpcs]
    exact ⟨s, hr.last_mem, head_, List.mem_cons_self, fun e => absurd rfl e, hnext⟩
  | getLoop k' c =>
    rw [hp] at h
    simp only [hp, fetch, exec, Option.some.injEq] at hst
    subst hst
    rw [hpcs]
    split <;> exact h
  | getNext k' c =>
    rw [hp] at h hloc hc
    cases hc
    obtain ⟨v, hv, hbef⟩ := h
    obtain ⟨m, hnext, -⟩ := hi.shape.deref_succ (.inr hloc.1)
    simp only [hp, fetch, exec, hnext, deref, Option.some.injEq] at hst
    subst hst
    rw [hpcs]
    have hmem : c ∈ v.chain := (hbef.mem_or (hinv v hv)).resolve_right hloc.1.ne_tail
    obtain ⟨u, hu, hcu, hn⟩ := node_hindsight (P := fun v => c ∈ v.chain) (f := fun v => v.next c) hlink
      (fun _ _ _ hi hst => hi.step_next hst) hs hr ⟨v, hv, hmem⟩
    exact ⟨u, hu, c, List.mem_cons_of_mem _ hcu, fun _ => by rw [hkey hu (.inl hcu)]; exact hloc.2, hn.trans hnext⟩
  | getMarked k' c =>
    rw [hp] at h hloc hc
    cases hc
    obtain ⟨v, hv, hbef⟩ := h
    simp only [hp, fetch, exec, Option.some.injEq] at hst
    subst hst
    rw [hpcs]
    split
    · rename_i hm
      have hct : c ≠ tail_ := by
        intro e
        have htail := hi.shape.tail
        rw [← e, State.marked, hm] at htail
        cases htail
      have hmem : c ∈ v.chain := (hbef.mem_or (hinv v hv)).resolve_right hct
      rcases lt_or_eq_of_le hloc.2 with hlt | heq
      · exact ⟨v, hv, hbef.abs_none (hinv v hv) (by rw [hkey hv (.inl hmem)]; exact hlt)⟩
      · -- the key was on the list, and marked, when `c` was last on the list
        obtain ⟨u, hu, hcu, hmu⟩ := node_hindsight (P := fun v => c ∈ v.chain) (f := fun v => v.marked c) hlink
          (fun _ _ _ hi hst => hi.step_marked hst) hs hr ⟨v, hv, hmem⟩
        refine ⟨u, hu, ?_⟩
        rw [heq, ← hkey hu (.inl hcu)]
        exact (hinv u hu).abs_none_of_marked hcu (hmu.trans hm)
    · rename_i hm
      refine ⟨⟨v, hv, hbef⟩, hloc.1.imp id fun hl => ⟨s, hr.last_mem, ?_, Bool.eq_false_iff.2 hm⟩⟩
      exact hi.shape.complete c hl (Bool.eq_false_iff.2 hm)
  | getEqualL k' c =>
    rw [hp] at h hloc hc
    cases hc
    simp only [hp, fetch, exec, cmp, decide_eq_true_eq, Option.some.injEq] at hst
    subst hst
    have hge : ¬key (s.mem c).entry_ < key k := not_lt.2 hloc.2
    rw [hpcs, if_neg hge]
    exact h
  | getEqualR k' c =>
    rw [hp] at h hloc hc
    cases hc
    obtain ⟨⟨v, hv, hbef⟩, hun⟩ := h
    simp only [hp, fetch, exec, cmp, decide_eq_true_eq, Option.some.injEq] at hst
    subst hst
    rw [hpcs]
    split
    · rename_i hlt
      exact ⟨v, hv, hbef.abs_none (hinv v hv) (by rw [hkey hv (hbef.mem_or (hinv v hv))]; exact hlt)⟩
    · rename_i hlt
      apply hun.resolve_left
      intro e
      have harg := hi.arg t (.get k) (by rw [hp]; rfl)
      rw [e] at hlt
      exact hlt harg
  | getEntry k' c =>
    rw [hp] at h hloc hc
    cases hc
    rw [hp] at hst
    cases hst
    rw [hpcs]
    obtain ⟨u, hu, ⟨hcu, hmu⟩, he⟩ := node_hindsight (P := fun v => c ∈ v.chain ∧ v.marked c = false)
      (f := fun v => (v.mem c).entry_) (fun v hv hP => hlink v hv hP.1) (fun _ _ _ hi hst => hi.step_entry hst) hs hr h
    refine ⟨u, hu, ((hinv u hu).abs_eq_some).2 ⟨c, (hinv u hu).shape.linked c hcu, hmu, ?_, he⟩⟩
    rw [hkey hu (.inl hcu)]
    exact hloc.2
  | _ => rw [hp] at hc; cases hc

/-- What a `get` has learnt at the end of a run from its call. -/
theorem explained_run (hs : Lts.Reach (threads key maxVal) s) (hr : Lts.Run (threads key maxVal) s w s')
    (h0 : s.pc t = .getHead k) (hG : ∀ x ∈ w, (x.1.pc t).call? = some (.get k)) :
    Explained key k (Lts.visited s w) (s'.pc t) := by
  induction hr with
  | nil => rw [h0]; exact trivial
  | @snoc s₁ s₂ a w hr hst ih =>
    have h := ih fun x hx => hG x (List.mem_append_left _ hx)
    have hc : (s₁.pc t).call? = some (.get k) := hG (s₁, a, s₂) (by simp)
    have hv : ∀ v ∈ Lts.visited s w, v ∈ Lts.visited s (w ++ [(s₁, a, s₂)]) := by
      intro v hv
      rw [Lts.visited_snoc]; exact List.mem_append_left _ hv
    by_cases ha : a = .tick t
    · subst ha
      exact (h.step hs hr hst hc).mono hv
    · rw [step_pc hst ha (by rw [hc]; exact nofun)]
      exact h.mono hv

/-- A `get( k )` that returns `r`, whether an entry or the `T()` of a miss, returns what the map had for `k` at some
state between its first and its last step. -/
theorem get_linearizable (key : α → κ) (maxVal : α) (s s' : State ι α)
    (w : List (State ι α × Action ι α × State ι α)) (t : ι) (k : α) (r : Option α)
    (hs : Lts.Reach (threads key maxVal) s) (hr : Lts.Run (threads key maxVal) s w s') (h0 : s.pc t = .getHead k)
    (hG : ∀ x ∈ w, (x.1.pc t).call? = some (.get k)) (h1 : s'.pc t = .ret (.get k) (.entry r)) :
    ∃ v ∈ Lts.visited s w, v.abs key (key k) = r := by
  have h := explained_run hs hr h0 hG
  rw [h1] at h
  exact h

/-- `5` is in the list, and thread `1` has called `get( 5 )`. -/
def getFive : State ℕ ℕ := addedFive.goto 1 (.getHead 5)

theorem reach_getFive : Lts.Reach (threads id 9) getFive :=
  .step (a := .invoke 1 (.get 5)) (reach_addFive.exec exec_addFive) rfl

/-- Thread `0` unlinks the node after the `get` has tested its mark, or before. -/
def unlinked (tested : ℕ) : List (Action ℕ ℕ) :=
  List.replicate tested (.tick 1) ++ .invoke 0 (.update .remove 5) :: List.replicate 12 (.tick 0)

theorem get_linearizable_five :
    (∃ v ∈ Lts.visited getFive (Lts.moves (step id) getFive (unlinked 3 ++ List.replicate 3 (.tick 1))),
      v.abs id 5 = some 5) ∧
    ∃ v ∈ Lts.visited getFive (Lts.moves (step id) getFive (unlinked 2 ++ [.tick 1])), v.abs id 5 = none :=
  ⟨get_linearizable id 9 getFive _ _ 1 5 (some 5) reach_getFive (.schedule (by decide +kernel)) rfl
      (by decide +kernel) (by decide +kernel),
    get_linearizable id 9 getFive _ _ 1 5 none reach_getFive (.schedule (by decide +kernel)) rfl
      (by decide +kernel) (by decide +kernel)⟩

end Libeva.Ds.LazyList
