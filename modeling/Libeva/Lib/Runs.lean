import Mathlib.Data.List.Basic

/-!
# Labelled transition systems: invariants, runs and hindsight

A system is a set of initial states and a labelled step relation; an interleaving of threads is such a system whose
labels name the thread that moves.

* `Reach.invariant`: what holds initially and is kept by every step of a reachable state holds of every reachable state.
* `Run s w t`: a finite run from `s` to `t` with the list `w` of its moves; `visited s w` are the states it passes.
* `Run.invariant`: what every step under a condition on the moves keeps holds all along a run that meets it.
* `Run.simulate`: runs of one system are runs of another one, under a map of the states and labels.
* `Run.hindsight`: a fact about a past state of the run that every step carries over to the present one.
* `Run.crossing`: a run that starts before a point of no return and ends after it passes that point in exactly one
  move; this is the shape of a linearization point.
-/

namespace Lts

variable {S A : Type*}

/-- The initial states and the labelled steps. -/
structure System (S A : Type*) where
  init : S → Prop
  step : S → A → S → Prop

/-- The states that some run from an initial state reaches. -/
inductive Reach (M : System S A) : S → Prop
  | init {s : S} : M.init s → Reach M s
  | step {s s' : S} {a : A} : Reach M s → M.step s a s' → Reach M s'

/-- The system of a partial step function. -/
def ofFun (s₀ : S) (f : S → A → Option S) : System S A := ⟨fun s => s = s₀, fun s a s' => f s a = some s'⟩

/-- Runs a schedule of a partial step function. -/
def exec (f : S → A → Option S) (s : S) : List A → Option S
  | [] => some s
  | a :: as => (f s a).bind fun s' => exec f s' as

theorem exec_append {f : S → A → Option S} : ∀ {as bs : List A} {s : S},
    exec f s (as ++ bs) = (exec f s as).bind fun t => exec f t bs
  | [], _, _ => rfl
  | a :: as, bs, s => by
    rw [List.cons_append, exec, exec, Option.bind_assoc]
    exact congrArg _ (funext fun _ => exec_append)

variable {M : System S A}

/-- An inductive invariant holds of every reachable state. -/
theorem Reach.invariant {I : S → Prop} (h0 : ∀ s, M.init s → I s)
    (hs : ∀ s a s', Reach M s → I s → M.step s a s' → I s') {s : S} (h : Reach M s) : I s := by
  induction h with
  | init hi => exact h0 _ hi
  | step hr hst ih => exact hs _ _ _ hr ih hst

theorem Reach.exec {s₀ : S} {f : S → A → Option S} : ∀ {as : List A} {s t : S}, Reach (ofFun s₀ f) s →
    exec f s as = some t → Reach (ofFun s₀ f) t
  | [], s, t, hr, h => by cases h; exact hr
  | a :: as, s, t, hr, h => by
    obtain ⟨s', hs, h⟩ := Option.bind_eq_some_iff.1 h
    exact Reach.exec (.step hr hs) h

/-! ## Runs -/

/-- A run from the first state to the last, with its moves in order. -/
inductive Run (M : System S A) : S → List (S × A × S) → S → Prop
  | nil (s : S) : Run M s [] s
  | snoc {s t u : S} {a : A} {w : List (S × A × S)} : Run M s w t → M.step t a u → Run M s (w ++ [(t, a, u)]) u

/-- The states of a run: where it starts and where each move ends. -/
def visited (s : S) (w : List (S × A × S)) : List S := s :: w.map fun x => x.2.2

theorem visited_snoc (s : S) (w : List (S × A × S)) (x : S × A × S) :
    visited s (w ++ [x]) = visited s w ++ [x.2.2] := by simp [visited]

theorem Run.last_mem {s t : S} {w : List (S × A × S)} (h : Run M s w t) : t ∈ visited s w := by
  cases h with
  | nil => simp [visited]
  | snoc => rw [visited_snoc]; simp

theorem Run.reach {s t : S} {w : List (S × A × S)} (h : Run M s w t) (hs : Reach M s) : Reach M t := by
  induction h with
  | nil => exact hs
  | snoc _ hst ih => exact .step ih hst

/-- Every state a run passes is reachable. -/
theorem Run.reach_visited {s t : S} {w : List (S × A × S)} (h : Run M s w t) (hs : Reach M s) :
    ∀ u ∈ visited s w, Reach M u := by
  induction h with
  | nil => simpa [visited] using hs
  | snoc hr hst ih =>
    intro u hu
    rw [visited_snoc, List.mem_append, List.mem_singleton] at hu
    rcases hu with hu | rfl
    · exact ih u hu
    · exact .step (hr.reach hs) hst

theorem Run.trans {s t u : S} {v w : List (S × A × S)} (h : Run M s v t) (h' : Run M t w u) :
    Run M s (v ++ w) u := by
  induction h' with
  | nil => simpa using h
  | snoc _ hst ih => rw [← List.append_assoc]; exact .snoc ih hst

theorem Run.single {s t : S} {a : A} (h : M.step s a t) : Run M s [(s, a, t)] t := by
  simpa using Run.snoc (.nil s) h

/-- What is kept by every step that meets a condition holds all along a run whose moves all meet it. -/
theorem Run.invariant {I : S → Prop} {C : S × A × S → Prop}
    (hstep : ∀ s a s', I s → C (s, a, s') → M.step s a s' → I s') {s t : S} {w : List (S × A × S)}
    (h : Run M s w t) (hw : ∀ x ∈ w, C x) (hs : I s) : ∀ u ∈ visited s w, I u := by
  induction h with
  | nil => simpa [visited] using hs
  | snoc hr hst ih =>
    rw [List.forall_mem_append] at hw
    have ih := ih hw.1
    rw [visited_snoc, List.forall_mem_append]
    refine ⟨ih, ?_⟩
    rw [List.forall_mem_singleton]
    exact hstep _ _ _ (ih _ hr.last_mem) (hw.2 _ List.mem_cons_self) hst

/-- A map of states and labels that carries steps over to steps carries runs over to runs. -/
theorem Run.simulate {T B : Type*} {N : System T B} {f : S → T} {g : A → B}
    (hstep : ∀ s a s', M.step s a s' → N.step (f s) (g a) (f s')) {s t : S} {w : List (S × A × S)} (h : Run M s w t) :
    Run N (f s) (w.map fun x => (f x.1, g x.2.1, f x.2.2)) (f t) := by
  induction h with
  | nil => exact .nil _
  | snoc _ hst ih =>
    rw [List.map_append]
    exact .snoc ih (hstep _ _ _ hst)

/-- The runs of a system with fewer steps. -/
theorem Run.mono {N : System S A} (hstep : ∀ s a s', M.step s a s' → N.step s a s') {s t : S} {w : List (S × A × S)}
    (h : Run M s w t) : Run N s w t := by
  induction h with
  | nil => exact .nil _
  | snoc _ hst ih => exact .snoc ih (hstep _ _ _ hst)

/-- The moves of a schedule of a partial step function. -/
def moves (f : S → A → Option S) (s : S) : List A → List (S × A × S)
  | [] => []
  | a :: as =>
    match f s a with
    | some s' => (s, a, s') :: moves f s' as
    | none => []

theorem Run.moves {s₀ : S} {f : S → A → Option S} : ∀ {as : List A} {s t : S}, exec f s as = some t →
    Run (ofFun s₀ f) s (moves f s as) t
  | [], s, t, h => by cases h; exact .nil s
  | a :: as, s, t, h => by
    obtain ⟨s', hs, h⟩ := Option.bind_eq_some_iff.1 h
    rw [Lts.moves, hs]
    exact (Run.single (M := ofFun s₀ f) hs).trans (Run.moves h)

/-- A schedule that does not get stuck is a run. -/
theorem Run.schedule {s₀ s : S} {f : S → A → Option S} {as : List A} (h : (Lts.exec f s as).isSome) :
    Run (ofFun s₀ f) s (Lts.moves f s as) ((Lts.exec f s as).get h) :=
  .moves (Option.some_get h).symm

/-- Every move of a run is a step of the system from a reachable state. -/
theorem Run.move {s t : S} {w : List (S × A × S)} (h : Run M s w t) (hs : Reach M s) {x : S × A × S} (hx : x ∈ w) :
    Reach M x.1 ∧ M.step x.1 x.2.1 x.2.2 := by
  induction h with
  | nil => cases hx
  | snoc hr hst ih =>
    rcases List.mem_append.1 hx with hx | hx
    · exact ih hx
    · rw [List.mem_singleton] at hx
      subst hx
      exact ⟨hr.reach hs, hst⟩

/-- **Hindsight.** If `P` held at a past state of the run, then `P` held at a past state that is related by `R` to the
present one: every step keeps the relation, or ends `P` and starts it anew from the state before. -/
theorem Run.hindsight {P : S → Prop} {R : S → S → Prop} (hrefl : ∀ s, Reach M s → P s → R s s)
    (hstep : ∀ u s a s', Reach M s → M.step s a s' → R u s → ¬P s' → R u s' ∨ (P s ∧ R s s')) {s t : S}
    {w : List (S × A × S)} (hs : Reach M s) (h : Run M s w t) (hP : ∃ u ∈ visited s w, P u) :
    ∃ u ∈ visited s w, P u ∧ R u t := by
  induction h with
  | nil =>
    obtain ⟨u, hu, hPu⟩ := hP
    obtain rfl : u = s := by simpa [visited] using hu
    exact ⟨u, hu, hPu, hrefl u hs hPu⟩
  | @snoc t t' a w hr hst ih =>
    rw [visited_snoc] at hP ⊢
    by_cases hP' : P t'
    · exact ⟨t', by simp, hP', hrefl t' (.step (hr.reach hs) hst) hP'⟩
    · obtain ⟨u, hu, hPu⟩ := hP
      have hu' : u ∈ visited s w := by
        rcases List.mem_append.1 hu with h | h
        · exact h
        · rw [List.mem_singleton] at h
          subst h
          exact absurd hPu hP'
      obtain ⟨v, hv, hPv, hR⟩ := ih ⟨u, hu', hPu⟩
      rcases hstep v t a t' (hr.reach hs) hst hR hP' with hR' | ⟨hPt, hR'⟩
      · exact ⟨v, List.mem_append_left _ hv, hPv, hR'⟩
      · exact ⟨t, List.mem_append_left _ hr.last_mem, hPt, hR'⟩

/-- **Crossing.** `phase` is `none` before the point of no return and `some r` after it, where `r` is the outcome. If
every move from before either stays before, quietly, or crosses by a `lin r` move, and every move from after stays and
is quiet, then a run from before to after has exactly one `lin` move and all its other moves are quiet. `G` holds at
every state that the run leaves. -/
theorem Run.crossing {R : Type*} {G : S → Prop} {phase : S → Option R} {quiet : S × A × S → Prop}
    {lin : R → S × A × S → Prop}
    (hpre : ∀ s a s', Reach M s → M.step s a s' → G s → phase s = none →
      (phase s' = none ∧ quiet (s, a, s')) ∨ ∃ r, phase s' = some r ∧ lin r (s, a, s'))
    (hpost : ∀ s a s' r, Reach M s → M.step s a s' → G s → phase s = some r →
      phase s' = some r ∧ quiet (s, a, s')) {s t : S} {w : List (S × A × S)} {r : R} (hs : Reach M s)
    (h : Run M s w t) (hG : ∀ x ∈ w, G x.1) (h0 : phase s = none) (h1 : phase t = some r) :
    ∃ w₁ x w₂, w = w₁ ++ x :: w₂ ∧ lin r x ∧ ∀ y ∈ w₁ ++ w₂, quiet y := by
  have main : (phase t = none ∧ ∀ y ∈ w, quiet y) ∨
      ∃ r, phase t = some r ∧ ∃ w₁ x w₂, w = w₁ ++ x :: w₂ ∧ lin r x ∧ ∀ y ∈ w₁ ++ w₂, quiet y := by
    clear h1
    induction h with
    | nil => exact .inl ⟨h0, by simp⟩
    | @snoc t t' a w hr hst ih =>
      have hGt : G t := hG (t, a, t') (by simp)
      have snoc : ∀ {v : List (S × A × S)}, (∀ y ∈ v, quiet y) → quiet (t, a, t') →
          ∀ y ∈ v ++ [(t, a, t')], quiet y := by
        intro v hv hq y hy
        rcases List.mem_append.1 hy with hy | hy
        · exact hv y hy
        · rw [List.mem_singleton.1 hy]; exact hq
      rcases ih fun x hx => hG x (List.mem_append_left _ hx) with ⟨hp, hq⟩ | ⟨r, hp, w₁, x, w₂, rfl, hl, hq⟩
      · rcases hpre _ _ _ (hr.reach hs) hst hGt hp with ⟨hp', hq'⟩ | ⟨r, hp', hl⟩
        · exact .inl ⟨hp', snoc hq hq'⟩
        · exact .inr ⟨r, hp', w, _, [], by simp, hl, by simpa using hq⟩
      · obtain ⟨hp', hq'⟩ := hpost _ _ _ _ (hr.reach hs) hst hGt hp
        refine .inr ⟨r, hp', w₁, x, w₂ ++ [(t, a, t')], by simp, hl, ?_⟩
        rw [← List.append_assoc]
        exact snoc hq hq'
  rcases main with ⟨hp, _⟩ | ⟨r', hp, h⟩
  · rw [hp] at h1; cases h1
  · rw [hp] at h1; cases h1; exact h

end Lts
