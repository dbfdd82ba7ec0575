import Libeva.Ds.LazyList.Alone
import Libeva.Ds.LazyList.Hindsight

/-!
# The history of a run

* `Effect`, `effect`: the update that a move decides, with what it returns. A move without an effect leaves the map
  alone, one with an effect changes it as the sequential operation does (`effect_cases`).
* `call_effects`: while an update of a thread is in progress that thread has no effect, or the one of this call.
* `Seen`: what a `contains` that has passed `head_` knows about the states since its call, as `Explained` for `get`.
  It passes `head_` when the key of the default entry is below its own.
-/

namespace Libeva.Ds.LazyList

variable {ι α κ : Type*} [LinearOrder κ] {key : α → κ} {s s' : State ι α} {t : ι} {a : Action ι α} {k : α} {n : Ref}

/-! ## Effects -/

/-- An update that has taken effect. -/
structure Effect (ι α : Type*) where
  thread : ι
  upd : Upd
  arg : α
  result : Bool
  deriving DecidableEq

/-- A thread that has decided its update in this move. -/
def effect (key : α → κ) (x : State ι α × Action ι α × State ι α) : Option (Effect ι α) :=
  match x.2.1 with
  | .invoke _ _ => none
  | .tick t =>
    match (x.1.pc t).call?, (x.1.pc t).phase key x.1, (x.2.2.pc t).phase key x.2.2 with
    | some (.update u k), none, some b => some ⟨t, u, k, b⟩
    | _, _, _ => none

/-- The effects of a run, in order. -/
def effects (key : α → κ) (w : List (State ι α × Action ι α × State ι α)) : List (Effect ι α) :=
  w.filterMap (effect key)

theorem effects_append (v w : List (State ι α × Action ι α × State ι α)) :
    effects key (v ++ w) = effects key v ++ effects key w := List.filterMap_append

variable [DecidableEq ι]

/-- A step that is not one of an update in progress. -/
theorem Inv.step_abs (h : Inv key s) (hs : LazyList.step key s a = some s')
    (ha : ∀ t u k, a = .tick t → (s.pc t).call? ≠ some (.update u k)) : s'.abs key = s.abs key := by
  rcases step_cases h hs with hq | ⟨t, w, rfl, hc⟩
  · exact hq.abs h (h.step hs)
  · refine absurd ?_ (ha t w.upd w.key rfl)
    cases hc with
    | replace hp | link hp | mark hp | unlink hp => rw [hp]; rfl

theorem effect_cases (h : Inv key s) (hs : step key s a = some s') :
    (effect key (s, a, s') = none ∧ s'.abs key = s.abs key) ∨
      ∃ e, effect key (s, a, s') = some e ∧ a = .tick e.thread ∧
        (s.pc e.thread).call? = some (.update e.upd e.arg) ∧
        e.upd.apply key e.arg (s.abs key) = (s'.abs key, e.result) := by
  cases a with
  | invoke t c => exact .inl ⟨rfl, h.step_abs hs fun _ _ _ e => by cases e⟩
  | tick t =>
    by_cases hc : ∃ u k, (s.pc t).call? = some (.update u k)
    · obtain ⟨u, k, hc⟩ := hc
      rcases phase_own h hs hc with ⟨hp, habs⟩ | ⟨b, h0, h1, happ, -⟩
      · refine .inl ⟨?_, habs⟩
        simp only [effect, hc, hp]
        cases (s.pc t).phase key s <;> rfl
      · exact .inr ⟨⟨t, u, k, b⟩, by simp only [effect, hc, h0, h1], rfl, hc, happ⟩
    · refine .inl ⟨?_, h.step_abs hs fun t' u k e => ?_⟩
      · simp only [effect]
        split
        · rename_i hcall _ _
          exact absurd ⟨_, _, hcall⟩ hc
        · rfl
      · cases e
        exact fun hcall => hc ⟨u, k, hcall⟩

omit [DecidableEq ι] in
theorem effect_thread {e : Effect ι α} (he : effect key (s, .tick t, s') = some e) : e.thread = t := by
  simp only [effect] at he
  split at he
  · cases he
    rfl
  · cases he

/-! ## The effects of one call -/

section Call

variable [Inhabited α] {maxVal : α} {w : List (State ι α × Action ι α × State ι α)} {o : Upd}

/-- What returns at the end of a call is this call. -/
theorem ret_run {c d : Call α} {r : Result α} (hr : Lts.Run (threads key maxVal) s w s') (h0 : s.pc t = c.entry)
    (hG : ∀ x ∈ w, (x.1.pc t).call? = some c) (h1 : s'.pc t = .ret d r) : d = c := by
  cases hr with
  | nil =>
    rw [h0] at h1
    cases c <;> cases h1
  | @snoc s₁ _ a w hr hst =>
    have hc : (s₁.pc t).call? = some c := hG (s₁, a, s') (by simp)
    by_cases ha : a = .tick t
    · subst ha
      rcases exec_call hst with h | ⟨e, x, he, hp⟩ | h
      · rw [h1, hc] at h
        cases h
      · rw [h1] at hp
        cases hp
        exact Option.some.inj (he.symm.trans hc)
      · rw [h1] at h
        cases h
    · rw [step_pc hst ha (by rw [hc]; exact Option.some_ne_none _)] at h1
      rw [h1] at hc
      cases hc

/-- The effects of a thread since it has called an update: none before it is decided, and then this one. -/
theorem call_effects (hs : Lts.Reach (threads key maxVal) s) (hr : Lts.Run (threads key maxVal) s w s')
    (h0 : s.pc t = .readHead o k) (hG : ∀ x ∈ w, (x.1.pc t).call? = some (.update o k)) :
    (effects key w).filter (fun e => e.thread = t) =
      ((s'.pc t).phase key s').toList.map fun b => ⟨t, o, k, b⟩ := by
  induction hr with
  | nil => rw [h0]; rfl
  | @snoc s₁ s₂ a w hr hst ih =>
    have hc : (s₁.pc t).call? = some (.update o k) := hG (s₁, a, s₂) (by simp)
    have hi := reach_inv (hr.reach hs)
    rw [effects_append, List.filter_append, ih fun x hx => hG x (List.mem_append_left _ hx)]
    by_cases ha : a = .tick t
    · subst ha
      rcases phase_own hi hst hc with ⟨hp, -⟩ | ⟨b, hp, hp', -⟩
      · have hnone : effect key (s₁, Action.tick t, s₂) = none := by
          simp only [effect, hc, hp]
          cases (s₁.pc t).phase key s₁ <;> rfl
        rw [hp, effects, List.filterMap_cons_none hnone, List.filterMap_nil, List.filter_nil, List.append_nil]
      · have hsome : effect key (s₁, Action.tick t, s₂) = some ⟨t, o, k, b⟩ := by simp only [effect, hc, hp, hp']
        rw [hp, hp', effects, List.filterMap_cons_some hsome, List.filterMap_nil]
        simp
    · rw [phase_other hi hst ha (by rw [hc]; exact Option.some_ne_none _)]
      have hnot : (effects key [(s₁, a, s₂)]).filter (fun e => e.thread = t) = [] := by
        rw [List.filter_eq_nil_iff]
        intro e he
        rcases effect_cases hi hst with ⟨hn, -⟩ | ⟨e', he', rfl, -⟩
        · rw [effects, List.filterMap_cons_none hn] at he
          cases he
        · rw [effects, List.filterMap_cons_some he', List.filterMap_nil, List.mem_singleton] at he
          subst he
          exact fun e' => ha (congrArg Action.tick (of_decide_eq_true e'))
      rw [hnot, List.append_nil]

end Call

/-! ## `contains` -/

/-- How a `contains( k )` at a program point is explained by the states `vs` since its call. -/
def Seen (key : α → κ) (k : α) (vs : List (State ι α)) : Pc α → Prop
  | .conLoop _ c => c = head_ ∨ ∃ s ∈ vs, Before key k s c
  | .conNext _ c => c = head_ ∨ ∃ s ∈ vs, Before key k s c ∧ s.keyOf key c < key k
  | .conEqualL _ c | .conEqualR _ c => ∃ s ∈ vs, Before key k s c ∧ key k ≤ s.keyOf key c
  | .conMarked _ c => ∃ s ∈ vs, Before key k s c ∧ key k = s.keyOf key c
  | .ret _ (.bool b) => ∃ s ∈ vs, (s.abs key (key k)).isSome = b
  | _ => True

omit [DecidableEq ι] in
theorem Seen.mono {vs vs' : List (State ι α)} {p : Pc α} (h : Seen key k vs p) (hv : ∀ s ∈ vs, s ∈ vs') :
    Seen key k vs' p := by
  have up : ∀ {P : State ι α → Prop}, (∃ s ∈ vs, P s) → ∃ s ∈ vs', P s := fun ⟨s, hs, hP⟩ => ⟨s, hv s hs, hP⟩
  cases p with
  | conLoop | conNext => exact h.imp id up
  | conEqualL | conEqualR | conMarked => exact up h
  | ret c r =>
    cases r with
    | bool => exact up h
    | entry r => exact trivial
  | _ => exact trivial

variable [Inhabited α] {maxVal : α} {w : List (State ι α × Action ι α × State ι α)}

/-- The key of the entry of `head_` is the default's. -/
theorem reach_head (h : Lts.Reach (threads key maxVal) s) : s.keyOf key head_ = key default := by
  refine h.invariant (I := fun s => s.keyOf key head_ = key default) ?_ ?_
  · rintro _ rfl
    rfl
  · intro s a s' hr hi hs
    exact ((reach_inv hr).step_keyOf hs (.inl rfl)).trans hi

/-- One step of `contains`, after a run `w` from its call. -/
theorem Seen.step {s₀ : State ι α} (hs : Lts.Reach (threads key maxVal) s₀)
    (hr : Lts.Run (threads key maxVal) s₀ w s) (hst : LazyList.step key s (.tick t) = some s')
    (hc : (s.pc t).call? = some (.contains k)) (hk : key default < key k)
    (h : Seen key k (Lts.visited s₀ w) (s.pc t)) : Seen key k (Lts.visited s₀ w) (s'.pc t) := by
  have hreach := hr.reach hs
  have hi := reach_inv hreach
  have hloc := hi.loc t
  have hinv : ∀ v ∈ Lts.visited s₀ w, Inv key v := fun v hv => reach_inv (hr.reach_visited hs v hv)
  have hlink : ∀ {c : Ref} (v : State ι α), Lts.Reach (threads key maxVal) v → c ∈ v.chain → v.Linked c :=
    fun v hv => (reach_inv hv).shape.linked _
  have hcurr : ∀ {c v}, v ∈ Lts.visited s₀ w → Before key k v c → v.Curr c := fun {c v} hv hb =>
    (hb.mem_or (hinv v hv)).elim (fun hm => .inr ((hinv v hv).shape.linked c hm)) .inl
  have hkey : ∀ {c v}, v ∈ Lts.visited s₀ w → Before key k v c → s.keyOf key c = v.keyOf key c :=
    fun hv hb => (keyOf_past hs hr _ hv (hcurr hv hb)).2
  have hpcs : ∀ {s : State ι α} {p : Pc α}, (s.goto t p).pc t = p := fun {s p} => by rw [goto_pc, Function.update_self]
  have harg : key k < s.keyOf key tail_ := hi.arg t (.contains k) hc
  simp only [LazyList.step] at hst
  cases hp : s.pc t with
  | conLoop k' c =>
    rw [hp] at h hc
    cases hc
    simp only [hp, fetch, exec, cmp, decide_eq_true_eq, Option.some.injEq] at hst
    subst hst
    rw [hpcs]
    split
    · rename_i hlt
      refine h.imp id (Exists.imp fun v hv => ⟨hv.1, hv.2, ?_⟩)
      rw [← hkey hv.1 hv.2]
      exact hlt
    · rename_i hge
      -- the walk does not end at `head_`
      rcases h with rfl | ⟨v, hv, hb⟩
      · rw [← reach_head hreach] at hk
        exact absurd hk hge
      · exact ⟨v, hv, hb, by rw [← hkey hv hb]; exact not_lt.1 hge⟩
  | conNext k' c =>
    rw [hp] at h hloc hc
    cases hc
    obtain ⟨m, hnext, -⟩ := hi.shape.deref_succ hloc
    simp only [hp, fetch, exec, hnext, deref, Option.some.injEq] at hst
    subst hst
    rw [hpcs]
    refine .inr ?_
    rcases h with rfl | ⟨v, hv, hb, hlt⟩
    · exact ⟨s, hr.last_mem, head_, List.mem_cons_self, fun e => absurd rfl e, hnext⟩
    · have hmem : c ∈ v.chain := by
        refine (hb.mem_or (hinv v hv)).resolve_right fun e => ?_
        rw [← hkey hv hb, e] at hlt
        exact lt_asymm harg hlt
      obtain ⟨u, hu, hcu, hn⟩ := node_hindsight (P := fun v => c ∈ v.chain) (f := fun v => v.next c) hlink
        (fun _ _ _ hi hst => hi.step_next hst) hs hr ⟨v, hv, hmem⟩
      refine ⟨u, hu, c, List.mem_cons_of_mem _ hcu, fun _ => ?_, hn.trans hnext⟩
      rw [← (keyOf_past hs hr u hu (.inr ((hinv u hu).shape.linked c hcu))).2, hkey hv hb]
      exact hlt
  | conEqualL k' c =>
    rw [hp] at h hc
    cases hc
    obtain ⟨v, hv, hb, hle⟩ := h
    simp only [hp, fetch, exec, cmp, decide_eq_true_eq, Option.some.injEq] at hst
    subst hst
    have hge : ¬key (s.mem c).entry_ < key k := by
      rw [← hkey hv hb] at hle
      exact not_lt.2 hle
    rw [hpcs, if_neg hge]
    exact ⟨v, hv, hb, hle⟩
  | conEqualR k' c =>
    rw [hp] at h hc
    cases hc
    obtain ⟨v, hv, hb, hle⟩ := h
    simp only [hp, fetch, exec, cmp, decide_eq_true_eq, Option.some.injEq] at hst
    subst hst
    have hkc : key (s.mem c).entry_ = v.keyOf key c := hkey hv hb
    rw [hpcs]
    split
    · rename_i hlt
      rw [hkc] at hlt
      exact ⟨v, hv, by rw [hb.abs_none (hinv v hv) hlt]; rfl⟩
    · rename_i hge
      rw [hkc] at hge
      exact ⟨v, hv, hb, le_antisymm hle (not_lt.1 hge)⟩
  | conMarked k' c =>
    rw [hp] at h hc
    cases hc
    obtain ⟨v, hv, hb, heq⟩ := h
    simp only [hp, fetch, exec, Option.some.injEq] at hst
    subst hst
    rw [hpcs]
    have hsk : s.keyOf key c = key k := (hkey hv hb).trans heq.symm
    have htail : c ≠ tail_ := by
      rintro rfl
      exact absurd hsk (ne_of_gt harg)
    have hmem : c ∈ v.chain := (hb.mem_or (hinv v hv)).resolve_right htail
    cases hm : s.marked c with
    | true =>
      -- the key was on the list, and marked, when `c` was last on the list
      obtain ⟨u, hu, hcu, hmu⟩ := node_hindsight (P := fun v => c ∈ v.chain) (f := fun v => v.marked c) hlink
        (fun _ _ _ hi hst => hi.step_marked hst) hs hr ⟨v, hv, hmem⟩
      refine ⟨u, hu, ?_⟩
      have hku := (keyOf_past hs hr u hu (.inr ((hinv u hu).shape.linked c hcu))).2
      rw [← hsk, hku, (hinv u hu).abs_none_of_marked hcu (hmu.trans hm)]
      exact (congrArg not hm).symm
    | false =>
      have hl : s.Linked c := (keyOf_past hs hr v hv (hcurr hv hb)).1.resolve_left htail
      refine ⟨s, hr.last_mem, ?_⟩
      rw [hi.abs_eq_some.2 ⟨c, hl, hm, hsk, rfl⟩]
      exact (congrArg not hm).symm
  | _ => rw [hp] at hc; cases hc

/-- What a `contains` has learnt at the end of a run from its call. -/
theorem seen_run (hs : Lts.Reach (threads key maxVal) s) (hr : Lts.Run (threads key maxVal) s w s')
    (h0 : s.pc t = .conLoop k head_) (hG : ∀ x ∈ w, (x.1.pc t).call? = some (.contains k))
    (hk : key default < key k) : Seen key k (Lts.visited s w) (s'.pc t) := by
  induction hr with
  | nil => rw [h0]; exact .inl rfl
  | @snoc s₁ s₂ a w hr hst ih =>
    have h := ih fun x hx => hG x (List.mem_append_left _ hx)
    have hc : (s₁.pc t).call? = some (.contains k) := hG (s₁, a, s₂) (by simp)
    have hv : ∀ v ∈ Lts.visited s w, v ∈ Lts.visited s (w ++ [(s₁, a, s₂)]) := by
      intro v hv
      rw [Lts.visited_snoc]
      exact List.mem_append_left _ hv
    by_cases ha : a = .tick t
    · subst ha
      exact (h.step hs hr hst hc hk).mono hv
    · rw [step_pc hst ha (by rw [hc]; exact Option.some_ne_none _)]
      exact h.mono hv

/-- **`contains` is linearizable.** A `contains( k )` of a key above the default's returns whether the map had the key
at some state between its first and its last step. -/
theorem contains_linearizable (key : α → κ) (maxVal : α) (s s' : State ι α)
    (w : List (State ι α × Action ι α × State ι α)) (t : ι) (k : α) (b : Bool)
    (hs : Lts.Reach (threads key maxVal) s) (hr : Lts.Run (threads key maxVal) s w s') (h0 : s.pc t = .conLoop k head_)
    (hG : ∀ x ∈ w, (x.1.pc t).call? = some (.contains k)) (h1 : s'.pc t = .ret (.contains k) (.bool b))
    (hk : key default < key k) : ∃ v ∈ Lts.visited s w, (v.abs key (key k)).isSome = b := by
  have h := seen_run hs hr h0 hG hk
  rw [h1] at h
  exact h

/-- Thread `1` has called `contains( 5 )` while thread `0` is about to add `5`. -/
def askFive : State ℕ ℕ := addFive.goto 1 (.conLoop 5 head_)

theorem reach_askFive : Lts.Reach (threads id 9) askFive :=
  .step (a := .invoke 1 (.contains 5)) reach_addFive rfl

/-- The addition, with the last steps of `contains` after it. -/
def askSchedule : List (Action ℕ ℕ) :=
  [.tick 1] ++ List.replicate 14 (.tick 0) ++ List.replicate 5 (.tick 1)

theorem contains_linearizable_five : ∃ v ∈ Lts.visited askFive (Lts.moves (step id) askFive askSchedule),
    (v.abs id 5).isSome = true :=
  contains_linearizable id 9 askFive ((Lts.exec (step id) askFive askSchedule).get (by decide)) _ 1 5 true
    reach_askFive (Lts.Run.moves (Option.some_get _).symm) rfl (by decide) (by decide) (by decide)

end Libeva.Ds.LazyList
