import Libeva.Ds.LazyList.History
import Libeva.Lib.Family

/-!
# `HashSet` under threads

Any number of threads run `add`, `remove`, `get` and `contains` on one set. A call picks its bucket by the hash of its
argument (`mylist`) and then runs on that list alone, so the set is a family of lists, one for each bucket; `idx` is
the bucket of an argument, `Hash()( key ) % Len` in a `HashSet`.

* `State`, `step`: the buckets in memory, and the bucket that each thread works on.
* `contents`: the map after the updates that have taken effect, read off them in order.
* `Tracks`: the buckets hold what `contents` says, and every effect so far had the right result.
* `linearizable`: the run of the set is explained by the order of the effects in it.
-/

namespace Libeva.Ds.HashSet.Threads

open LazyList (Call Result Upd Pc Action Effect)

variable {ι α β κ : Type*} [LinearOrder κ]

structure State (ι β α : Type*) where
  buckets_ : β → LazyList.State ι α
  /-- The local variable of the call, or of the last one. -/
  mylist : ι → β

/-- Where thread `t` is. -/
def State.pc (s : State ι β α) (t : ι) : Pc α := (s.buckets_ (s.mylist t)).pc t

section Program

variable [DecidableEq ι] [DecidableEq β] (key : α → κ) (idx : α → β)

/-- `LinkedList *mylist = buckets_.at( idx ).get()` and the first point of the call there; or a step of a call. -/
def step (s : State ι β α) : Action ι α → Option (State ι β α)
  | .invoke t c =>
    if (s.pc t).call? = none then
      (LazyList.step key (s.buckets_ (idx c.arg)) (.invoke t c)).map fun b =>
        ⟨Function.update s.buckets_ (idx c.arg) b, Function.update s.mylist t (idx c.arg)⟩
    else none
  | .tick t =>
    (LazyList.step key (s.buckets_ (s.mylist t)) (.tick t)).map fun b =>
      { s with buckets_ := Function.update s.buckets_ (s.mylist t) b }

/-- `HashSet( max_key )` under all interleavings; no thread has called yet. -/
def threads [Inhabited α] (max_key : α) (home : β) : Lts.System (State ι β α) (Action ι α) :=
  Lts.ofFun ⟨fun _ => LazyList.State.init max_key, fun _ => home⟩ (step key idx)

end Program

/-- What `buckets_` have for a key. -/
def State.lookup (key : α → κ) (idx : α → β) (s : State ι β α) (k : α) : Option α :=
  (s.buckets_ (idx k)).abs key (key k)

/-- The update that a move decides. -/
def effect (key : α → κ) (x : State ι β α × Action ι α × State ι β α) : Option (Effect ι α) :=
  match x.2.1 with
  | .invoke _ _ => none
  | .tick t => LazyList.effect key (x.1.buckets_ (x.1.mylist t), .tick t, x.2.2.buckets_ (x.1.mylist t))

def effects (key : α → κ) (w : List (State ι β α × Action ι α × State ι β α)) : List (Effect ι α) :=
  w.filterMap (effect key)

/-- The map after the updates, the oldest first. -/
def contents (key : α → κ) (es : List (Effect ι α)) : κ → Option α :=
  es.foldl (fun m e => (e.upd.apply key e.arg m).1) fun _ => none

/-- Every update returned what it returns on the map that the updates before it leave. -/
def Legal (key : α → κ) (es : List (Effect ι α)) : Prop :=
  ∀ es₁ e es₂, es = es₁ ++ e :: es₂ → e.result = (e.upd.apply key e.arg (contents key es₁)).2

variable {key : α → κ} {idx : α → β}

/-! ## The map of a sequence of updates -/

theorem contents_snoc (es : List (Effect ι α)) (e : Effect ι α) :
    contents key (es ++ [e]) = (e.upd.apply key e.arg (contents key es)).1 := by
  simp only [contents, List.foldl_append, List.foldl_cons, List.foldl_nil]

theorem apply_of_ne {m : κ → Option α} {u : Upd} {k : α} {x : κ} (hx : x ≠ key k) :
    (u.apply key k m).1 x = m x := by
  cases u <;> exact Function.update_of_ne hx _ _

@[simp] theorem apply_add_self {m : κ → Option α} {k : α} : (Upd.add.apply key k m).1 (key k) = some k :=
  Function.update_self ..

@[simp] theorem apply_remove_self {m : κ → Option α} {k : α} : (Upd.remove.apply key k m).1 (key k) = none :=
  Function.update_self ..

theorem apply_congr {m m' : κ → Option α} {u : Upd} {k : α} (h : m (key k) = m' (key k)) :
    (u.apply key k m).1 (key k) = (u.apply key k m').1 (key k) ∧ (u.apply key k m).2 = (u.apply key k m').2 := by
  cases u
  · exact ⟨by rw [apply_add_self, apply_add_self], rfl⟩
  · exact ⟨by rw [apply_remove_self, apply_remove_self], by simp only [Upd.apply, h]⟩

theorem legal_snoc {es : List (Effect ι α)} {e : Effect ι α} (h : Legal key es)
    (he : e.result = (e.upd.apply key e.arg (contents key es)).2) : Legal key (es ++ [e]) := by
  intro es₁ x es₂ heq
  rcases List.eq_nil_or_concat es₂ with rfl | ⟨es₂, y, rfl⟩
  · obtain ⟨rfl, rfl⟩ := List.append_inj' heq rfl |>.imp id List.singleton_inj.1
    exact he
  · rw [List.concat_eq_append, ← List.cons_append, ← List.append_assoc] at heq
    exact h es₁ x es₂ (List.append_inj' heq rfl).1

/-! ## One bucket -/

variable [DecidableEq ι] [DecidableEq β] {s s' : State ι β α} {t : ι} {a : Action ι α} {c : Call α}

/-- The bucket that a step steps. -/
def pick (idx : α → β) (a : Action ι α) (s : State ι β α) : Option (β × Action ι α) :=
  match a with
  | .invoke _ c => some (idx c.arg, a)
  | .tick t => some (s.mylist t, a)

theorem step_pick (hs : step key idx s a = some s') : ∃ i, pick idx a s = some (i, a) ∧
    LazyList.step key (s.buckets_ i) a = some (s'.buckets_ i) ∧ ∀ j, j ≠ i → s'.buckets_ j = s.buckets_ j := by
  have self : ∀ (i : β) (b : LazyList.State ι α), Function.update s.buckets_ i b i = b := fun i b =>
    Function.update_self ..
  cases a with
  | invoke t c =>
    simp only [step] at hs
    split at hs
    · obtain ⟨b, hb, rfl⟩ := Option.map_eq_some_iff.1 hs
      exact ⟨_, rfl, hb.trans (congrArg some (self _ b).symm), fun j hj => Function.update_of_ne hj _ _⟩
    · cases hs
  | tick t =>
    obtain ⟨b, hb, rfl⟩ := Option.map_eq_some_iff.1 hs
    exact ⟨_, rfl, hb.trans (congrArg some (self _ b).symm), fun j hj => Function.update_of_ne hj _ _⟩

/-- A thread is in a call in one bucket at most, the one of its argument. -/
structure Home (idx : α → β) (s : State ι β α) : Prop where
  other : ∀ t i, i ≠ s.mylist t → ((s.buckets_ i).pc t).call? = none
  own : ∀ t c, (s.pc t).call? = some c → idx c.arg = s.mylist t

omit [DecidableEq ι] [DecidableEq β] [LinearOrder κ] in
theorem call_entry (c : Call α) : c.entry.call? = some c := by
  cases c <;> rfl

omit [DecidableEq β] in
theorem invoke_pc {b b' : LazyList.State ι α} (hs : LazyList.step key b (.invoke t c) = some b') :
    b'.pc = Function.update b.pc t c.entry := by
  simp only [LazyList.step] at hs
  split at hs <;> try split at hs
  all_goals cases hs
  all_goals rfl

omit [DecidableEq β] in
/-- A call that is in progress after a step of the thread was so before. -/
theorem tick_call {b b' : LazyList.State ι α} (hs : LazyList.step key b (.tick t) = some b')
    (hc : (b'.pc t).call? = some c) : (b.pc t).call? = some c := by
  rcases LazyList.exec_call hs with h | ⟨d, r, -, h⟩ | h
  · exact h.symm.trans hc
  · rw [h] at hc
    cases hc
  · rw [h] at hc
    cases hc

/-- A step moves one thread, in the bucket that is its own afterwards. -/
theorem step_pc (hs : step key idx s a = some s') : ∃ t i p,
    (∀ j u, (s'.buckets_ j).pc u = if j = i ∧ u = t then p else (s.buckets_ j).pc u) ∧
    s'.mylist = Function.update s.mylist t i ∧
    ((a = .tick t ∧ i = s.mylist t ∧ ∀ c, p.call? = some c → (s.pc t).call? = some c) ∨
      ∃ c, a = .invoke t c ∧ i = idx c.arg ∧ p = c.entry ∧ (s.pc t).call? = none) := by
  -- the program counters of all buckets, from those of one
  have pcs : ∀ {i : β} {b : LazyList.State ι α} {t : ι} {p : Pc α}, b.pc = Function.update (s.buckets_ i).pc t p →
      ∀ j u, (Function.update s.buckets_ i b j).pc u = if j = i ∧ u = t then p else (s.buckets_ j).pc u := by
    intro i b t p hb j u
    by_cases hj : j = i
    · subst hj
      simp only [Function.update_self, hb, Function.update_apply, true_and]
    · rw [Function.update_of_ne hj, if_neg fun h => hj h.1]
  cases a with
  | invoke t c =>
    simp only [step] at hs
    split at hs
    · rename_i hidle
      obtain ⟨b, hb, rfl⟩ := Option.map_eq_some_iff.1 hs
      exact ⟨t, idx c.arg, c.entry, pcs (invoke_pc hb), rfl, .inr ⟨c, rfl, rfl, rfl, hidle⟩⟩
    · cases hs
  | tick t =>
    obtain ⟨b, hb, rfl⟩ := Option.map_eq_some_iff.1 hs
    obtain ⟨p, hp⟩ := LazyList.exec_pc hb
    refine ⟨t, s.mylist t, p, pcs hp, (Function.update_eq_self ..).symm, .inl ⟨rfl, rfl, fun c hc => ?_⟩⟩
    exact tick_call hb (by rw [hp, Function.update_self]; exact hc)

theorem Home.step (h : Home idx s) (hs : Threads.step key idx s a = some s') : Home idx s' := by
  obtain ⟨t, i, p, hpc, hmy, hcase⟩ := step_pc hs
  refine ⟨fun u j hj => ?_, fun u d hd => ?_⟩
  · rw [hmy] at hj
    by_cases hu : u = t
    · subst hu
      rw [Function.update_self] at hj
      rw [hpc, if_neg fun e => hj e.1]
      rcases hcase with ⟨-, rfl, -⟩ | ⟨c, -, rfl, -, hidle⟩
      · exact h.other u j hj
      · by_cases hm : j = s.mylist u
        · rw [hm]
          exact hidle
        · exact h.other u j hm
    · rw [Function.update_of_ne hu] at hj
      rw [hpc, if_neg fun e => hu e.2]
      exact h.other u j hj
  · rw [State.pc, hmy, hpc] at hd
    rw [hmy]
    by_cases hu : u = t
    · subst hu
      rw [Function.update_self, if_pos ⟨rfl, rfl⟩] at hd
      rw [Function.update_self]
      rcases hcase with ⟨-, rfl, hcall⟩ | ⟨c, -, rfl, rfl, -⟩
      · exact h.own u d (hcall d hd)
      · rw [call_entry] at hd
        cases hd
        rfl
    · rw [Function.update_of_ne hu, if_neg fun e => hu e.2] at hd
      rw [Function.update_of_ne hu]
      exact h.own u d hd

section Reach

variable [Inhabited α] {max_key : α} {home : β}

/-- Each bucket is a list under threads. -/
theorem family : Lts.Family (threads (ι := ι) key idx max_key home) (LazyList.threads key max_key)
    (fun i s => s.buckets_ i) (pick idx) where
  init := by
    rintro _ i rfl
    rfl
  own s a s' i b hs hp := by
    obtain ⟨j, hj, hstep, -⟩ := step_pick hs
    cases hj.symm.trans hp
    exact hstep
  other s a s' i hs hp := by
    obtain ⟨j, hj, -, hother⟩ := step_pick hs
    exact hother i fun e => hp a (by rw [e]; exact hj)

theorem reach_bucket (hs : Lts.Reach (threads key idx max_key home) s) (i : β) :
    LazyList.Inv key (s.buckets_ i) := LazyList.reach_inv (family.reach hs i)

theorem reach_home (hs : Lts.Reach (threads key idx max_key home) s) : Home idx s := by
  refine hs.invariant ?_ fun _ _ _ _ h hst => h.step hst
  rintro _ rfl
  exact ⟨fun _ _ _ => rfl, fun _ _ h => by cases h⟩

/-! ## The effects of a run -/

variable {k : α} {w : List (State ι β α × Action ι α × State ι β α)}

omit [DecidableEq ι] [DecidableEq β] [Inhabited α] in
theorem effects_append (v w : List (State ι β α × Action ι α × State ι β α)) :
    effects key (v ++ w) = effects key v ++ effects key w := List.filterMap_append

/-- A step decides nothing and leaves the map alone, or it decides an update in the bucket of its argument. -/
theorem effect_cases (hr : Lts.Reach (threads key idx max_key home) s) (hs : step key idx s a = some s') :
    (effect key (s, a, s') = none ∧ ∀ k, s'.lookup key idx k = s.lookup key idx k) ∨
      ∃ e, effect key (s, a, s') = some e ∧ (s.pc e.thread).call? = some (.update e.upd e.arg) ∧
        (∀ j, j ≠ idx e.arg → s'.buckets_ j = s.buckets_ j) ∧
        e.upd.apply key e.arg ((s.buckets_ (idx e.arg)).abs key) = ((s'.buckets_ (idx e.arg)).abs key, e.result) := by
  obtain ⟨i, hpick, hstep, hother⟩ := step_pick hs
  have quiet : (s'.buckets_ i).abs key = (s.buckets_ i).abs key → ∀ k, s'.lookup key idx k = s.lookup key idx k := by
    intro habs k
    by_cases hk : idx k = i
    · rw [State.lookup, hk, habs, State.lookup, hk]
    · rw [State.lookup, hother _ hk, State.lookup]
  rcases LazyList.effect_cases (reach_bucket hr i) hstep with ⟨he, habs⟩ | ⟨e, he, rfl, hcall, happ⟩
  · refine .inl ⟨?_, quiet habs⟩
    cases a with
    | invoke t c => rfl
    | tick t =>
      cases hpick
      exact he
  · cases hpick
    have hidx := (reach_home hr).own e.thread _ hcall
    exact .inr ⟨e, he, hcall, fun j hj => hother j (hidx ▸ hj), by rw [show idx e.arg = _ from hidx]; exact happ⟩

/-- The buckets hold what the effects leave, and all effects are right. -/
structure Tracks (key : α → κ) (idx : α → β) (s : State ι β α) (es : List (Effect ι α)) : Prop where
  legal : Legal key es
  lookup : ∀ k, s.lookup key idx k = contents key es (key k)

theorem Tracks.step (hidx : ∀ a b, key a = key b → idx a = idx b) (hr : Lts.Reach (threads key idx max_key home) s)
    (hs : Threads.step key idx s a = some s') (h : Tracks key idx s (effects key w)) :
    Tracks key idx s' (effects key (w ++ [(s, a, s')])) := by
  rw [effects_append]
  rcases effect_cases hr hs with ⟨he, hlook⟩ | ⟨e, he, -, hother, happ⟩
  · rw [show effects key [(s, a, s')] = [] from List.filterMap_cons_none he, List.append_nil]
    exact ⟨h.legal, fun k => (hlook k).trans (h.lookup k)⟩
  · rw [show effects key [(s, a, s')] = [e] from List.filterMap_cons_some he]
    obtain ⟨hmap, hres⟩ := apply_congr (u := e.upd) (h.lookup e.arg)
    refine ⟨legal_snoc h.legal (by rw [← hres, happ]), fun k => ?_⟩
    rw [contents_snoc]
    by_cases hk : key k = key e.arg
    · rw [hk, ← hmap, happ, State.lookup, hk, hidx k e.arg hk]
    · rw [apply_of_ne hk, ← h.lookup k]
      by_cases hi : idx k = idx e.arg
      · have habs : (s'.buckets_ (idx k)).abs key = (e.upd.apply key e.arg ((s.buckets_ (idx k)).abs key)).1 := by
          rw [hi, happ]
        rw [State.lookup, habs, apply_of_ne hk, State.lookup]
      · rw [State.lookup, hother _ hi, State.lookup]

theorem Tracks.run (hidx : ∀ a b, key a = key b → idx a = idx b) {s₀ : State ι β α}
    (h0 : (threads key idx max_key home).init s₀) (hr : Lts.Run (threads key idx max_key home) s₀ w s) :
    Tracks key idx s (effects key w) := by
  induction hr with
  | nil =>
    obtain rfl := h0
    refine ⟨fun es₁ e es₂ he => ?_, fun _ => rfl⟩
    exact absurd he.symm (List.append_ne_nil_of_right_ne_nil _ (List.cons_ne_nil _ _))
  | snoc hr hst ih => exact ih.step hidx (hr.reach (.init h0)) hst

/-! ## One call -/

theorem mylist_run {s₀ : State ι β α} (hs : Lts.Reach (threads key idx max_key home) s₀)
    (hr : Lts.Run (threads key idx max_key home) s₀ w s) (h0 : s₀.pc t = c.entry)
    (hG : ∀ x ∈ w, (x.1.pc t).call? = some c) : s.mylist t = idx c.arg := by
  induction hr with
  | nil => exact ((reach_home hs).own t c (by rw [h0, call_entry])).symm
  | @snoc s₁ s₂ a w hr hst ih =>
    obtain ⟨u, i, p, -, hmy, hcase⟩ := step_pc hst
    have hcall : (s₁.pc t).call? = some c := hG (s₁, a, s₂) (by simp)
    rw [hmy]
    by_cases hu : t = u
    · subst hu
      rw [Function.update_self]
      rcases hcase with ⟨-, rfl, -⟩ | ⟨d, -, -, -, hidle⟩
      · exact ih fun x hx => hG x (List.mem_append_left _ hx)
      · rw [hcall] at hidle
        cases hidle
    · rw [Function.update_of_ne hu]
      exact ih fun x hx => hG x (List.mem_append_left _ hx)

/-- The moves of a call are those of its bucket. -/
theorem proj_call (hs : Lts.Reach (threads key idx max_key home) s)
    (hr : Lts.Run (threads key idx max_key home) s w s') (hG : ∀ x ∈ w, (x.1.pc t).call? = some c) :
    ∀ y ∈ Lts.proj (fun i (s : State ι β α) => s.buckets_ i) (pick idx) (idx c.arg) w,
      (y.1.pc t).call? = some c := by
  intro y hy
  obtain ⟨x, hx, hxy⟩ := List.mem_filterMap.1 hy
  obtain ⟨p, -, hp⟩ := Option.bind_eq_some_iff.1 hxy
  split at hp
  · cases hp
    have hcall := hG x hx
    rwa [State.pc, ← (reach_home (hr.move hs hx).1).own t c hcall] at hcall
  · cases hp

/-- The effects of a thread in a call are its effects on its bucket. -/
theorem effects_call (hs : Lts.Reach (threads key idx max_key home) s)
    (hr : Lts.Run (threads key idx max_key home) s w s') (hG : ∀ x ∈ w, (x.1.pc t).call? = some c) :
    (effects key w).filter (fun e => e.thread = t) =
      (LazyList.effects key (Lts.proj (fun i (s : State ι β α) => s.buckets_ i) (pick idx) (idx c.arg) w)).filter
        fun e => e.thread = t := by
  rw [effects, LazyList.effects, Lts.proj, List.filterMap_filterMap, List.filter_filterMap, List.filter_filterMap]
  refine List.filterMap_congr fun x hx => ?_
  obtain ⟨s, a, s'⟩ := x
  have hown := (reach_home (hr.move hs hx).1).own t c (hG _ hx)
  cases a with
  | invoke u d =>
    simp only [effect, Lts.projMove, pick, Option.bind_some]
    split <;> rfl
  | tick u =>
    simp only [effect, Lts.projMove, pick, Option.bind_some]
    split
    · rename_i hu
      rw [Option.bind_some, hu]
    · rename_i hu
      -- another bucket: the thread is another one
      rw [Option.bind_none, Option.filter_none, Option.filter_eq_none_iff]
      intro e he
      rw [LazyList.effect_thread he, decide_eq_true_eq]
      rintro rfl
      exact hu hown.symm

/-! ## Runs -/

/-- What a call of `t` returns, when it has run in the moves `w` after the moves `v`. -/
structure Explains (key : α → κ) (v w : List (State ι β α × Action ι α × State ι β α)) (t : ι) (s : State ι β α) :
    Prop where
  update : ∀ o k b, s.pc t = .ret (.update o k) (.bool b) →
    (effects key w).filter (fun e => e.thread = t) = [⟨t, o, k, b⟩]
  get : ∀ k r, s.pc t = .ret (.get k) (.entry r) →
    ∃ x y, w = x ++ y ∧ contents key (effects key (v ++ x)) (key k) = r
  contains : ∀ k b, s.pc t = .ret (.contains k) (.bool b) → key default < key k →
    ∃ x y, w = x ++ y ∧ (contents key (effects key (v ++ x)) (key k)).isSome = b

theorem explains {v : List (State ι β α × Action ι α × State ι β α)} {s₀ s₁ : State ι β α}
    (hidx : ∀ a b, key a = key b → idx a = idx b) (h0 : (threads key idx max_key home).init s₀)
    (hv : Lts.Run (threads key idx max_key home) s₀ v s₁) (hw : Lts.Run (threads key idx max_key home) s₁ w s)
    (hp : s₁.pc t = c.entry) (hG : ∀ x ∈ w, (x.1.pc t).call? = some c) : Explains key v w t s := by
  have hs₁ := hv.reach (.init h0)
  have hrun := family.run hw (idx c.arg)
  have hreach := family.reach hs₁ (idx c.arg)
  have hproj := proj_call hs₁ hw hG
  have hstart : (s₁.buckets_ (idx c.arg)).pc t = c.entry := by
    rw [(reach_home hs₁).own t c (by rw [hp, call_entry])]
    exact hp
  have hend : (s.buckets_ (idx c.arg)).pc t = s.pc t := by
    rw [State.pc, mylist_run hs₁ hw hp hG]
  have hc : ∀ d r, s.pc t = .ret d r → d = c := fun d r hret =>
    LazyList.ret_run hrun hstart hproj (hend.trans hret)
  -- what the bucket had during the call is what the effects so far left
  have past : ∀ {k : α}, k = c.arg → ∀ {P : Option α → Prop},
      (∃ u ∈ Lts.visited (s₁.buckets_ (idx c.arg))
        (Lts.proj (fun i (s : State ι β α) => s.buckets_ i) (pick idx) (idx c.arg) w), P (u.abs key (key k))) →
      ∃ x y, w = x ++ y ∧ P (contents key (effects key (v ++ x)) (key k)) := by
    rintro k rfl P ⟨u, hu, hP⟩
    obtain ⟨x, y, s₂, hxy, hx, rfl⟩ := family.visited_proj hw (idx c.arg) hu
    have ht := Tracks.run hidx h0 (hv.trans hx)
    exact ⟨x, y, hxy, by rw [← ht.lookup]; exact hP⟩
  refine ⟨fun o k b hret => ?_, fun k r hret => ?_, fun k b hret hk => ?_⟩
  · obtain rfl := hc _ _ hret
    rw [effects_call hs₁ hw hG, LazyList.call_effects hreach hrun hstart hproj, hend, hret]
    rfl
  · obtain rfl := hc _ _ hret
    have h := LazyList.explained_run hreach hrun hstart hproj
    rw [hend, hret] at h
    exact past (P := fun m => m = r) rfl h
  · obtain rfl := hc _ _ hret
    have h := LazyList.seen_run hreach hrun hstart hproj hk
    rw [hend, hret] at h
    exact past (P := fun m => m.isSome = b) rfl h

/-- **A linearizable map.** In every run of any number of threads the buckets hold what the updates that have taken
effect leave, and each of these returned what it returns on the map before it. A completed update took effect once, in
its own run, with its result. A completed `get`, and a completed `contains` of a key above the default's, returned what
the map had at some point of its own run. -/
theorem linearizable (key : α → κ) (idx : α → β) (max_key : α) (home : β)
    (hidx : ∀ a b, key a = key b → idx a = idx b) (s₀ s : State ι β α)
    (v : List (State ι β α × Action ι α × State ι β α)) (h0 : (threads key idx max_key home).init s₀)
    (hv : Lts.Run (threads key idx max_key home) s₀ v s) :
    Legal key (effects key v) ∧ (∀ k, s.lookup key idx k = contents key (effects key v) (key k)) ∧
      ∀ (s' : State ι β α) w t c, Lts.Run (threads key idx max_key home) s w s' → s.pc t = c.entry →
        (∀ x ∈ w, (x.1.pc t).call? = some c) → Explains key v w t s' :=
  have ht := Tracks.run hidx h0 hv
  ⟨ht.legal, ht.lookup, fun _ _ _ _ hw hp hG => explains hidx h0 hv hw hp hG⟩

end Reach

/-! ## A run of two threads -/

/-- A set of numbers below `9` with two buckets. -/
def empty : State (Fin 2) ℕ ℕ := ⟨fun _ => LazyList.State.init 9, fun _ => 0⟩

/-- Thread `0` adds `5` while thread `1` adds `4`; then thread `1` calls `get( 5 )`. -/
def twoAdds : List (LazyList.Action (Fin 2) ℕ) :=
  [.invoke 0 (.update .add 5), .invoke 1 (.update .add 4)] ++
    (List.replicate 14 [.tick 0, .tick 1]).flatten ++ [.invoke 1 (.get 5)]

/-- The end of these calls. -/
def added : State (Fin 2) ℕ ℕ := (Lts.exec (step id (· % 2)) empty twoAdds).get (by decide +kernel)

/-- The end of the `get`. -/
def got : State (Fin 2) ℕ ℕ := (Lts.exec (step id (· % 2)) added (List.replicate 6 (.tick 1))).get (by decide +kernel)

theorem linearizable_twoAdds :
    effects id (Lts.moves (step id (· % 2)) empty twoAdds) = [⟨0, .add, 5, true⟩, ⟨1, .add, 4, true⟩] ∧
    Legal id (effects id (Lts.moves (step id (· % 2)) empty twoAdds)) ∧
    Explains id (Lts.moves (step id (· % 2)) empty twoAdds)
      (Lts.moves (step id (· % 2)) added (List.replicate 6 (.tick 1))) 1 got ∧
    got.pc 1 = .ret (.get 5) (.entry (some 5)) :=
  have h := linearizable id (· % 2) 9 0 (fun _ _ h => congrArg (· % 2) h) empty added _ rfl
    (Lts.Run.moves (Option.some_get _).symm)
  ⟨by decide +kernel, h.1, h.2.2 got _ 1 (.get 5) (Lts.Run.moves (Option.some_get _).symm) (by decide +kernel)
    (by decide +kernel), by decide +kernel⟩


end Libeva.Ds.HashSet.Threads
