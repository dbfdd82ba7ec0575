import Libeva.Lib.Runs

/-!
# Families: a system as many systems side by side

The state of `M` has a component for each index, and every step of `M` is a step of one component or of none. What holds
of the reachable states and of the runs of one component then holds of each component of `M`.

* `Family`: how the steps of `M` are steps of the components.
* `proj`: the moves of one component among the moves of a run.
* `Family.reach`, `Family.run`: a component of a reachable state is reachable, and of a run is a run.
* `visited_proj`: the states of the component are components of states of the run.
-/

namespace Lts

variable {S A T B I : Type*}

section Proj

variable [DecidableEq I] (comp : I → S → T) (pick : A → S → Option (I × B))

/-- A move as one of component `i`, if it is. -/
def projMove (i : I) (x : S × A × S) : Option (T × B × T) :=
  (pick x.2.1 x.1).bind fun p => if p.1 = i then some (comp i x.1, p.2, comp i x.2.2) else none

/-- The moves of component `i`. -/
def proj (i : I) (w : List (S × A × S)) : List (T × B × T) := w.filterMap (projMove comp pick i)

end Proj

/-- Every step of `M` steps the component that `pick` names, a copy of `N`, and keeps the others. -/
structure Family (M : System S A) (N : System T B) (comp : I → S → T) (pick : A → S → Option (I × B)) : Prop where
  init : ∀ s i, M.init s → N.init (comp i s)
  own : ∀ s a s' i b, M.step s a s' → pick a s = some (i, b) → N.step (comp i s) b (comp i s')
  other : ∀ s a s' i, M.step s a s' → (∀ b, pick a s ≠ some (i, b)) → comp i s' = comp i s

variable {M : System S A} {N : System T B} {comp : I → S → T} {pick : A → S → Option (I × B)} {s t : S}
  {w : List (S × A × S)}

/-- A component of a reachable state is reachable. -/
theorem Family.reach (h : Family M N comp pick) (hs : Reach M s) (i : I) : Reach N (comp i s) := by
  induction hs with
  | init h0 => exact .init (h.init _ i h0)
  | @step s s' a _ hst ih =>
    by_cases hp : ∃ b, pick a s = some (i, b)
    · obtain ⟨b, hb⟩ := hp
      exact .step ih (h.own _ _ _ i b hst hb)
    · rw [h.other _ _ _ i hst (not_exists.1 hp)]
      exact ih

variable [DecidableEq I]

theorem proj_append (i : I) (v w : List (S × A × S)) :
    proj comp pick i (v ++ w) = proj comp pick i v ++ proj comp pick i w :=
  List.filterMap_append

/-- One step, in one component. -/
theorem Family.proj_single (h : Family M N comp pick) {s' : S} {a : A} (hst : M.step s a s') (i : I) :
    (∃ b, pick a s = some (i, b) ∧ proj comp pick i [(s, a, s')] = [(comp i s, b, comp i s')] ∧
      N.step (comp i s) b (comp i s')) ∨
    (proj comp pick i [(s, a, s')] = [] ∧ comp i s' = comp i s) := by
  by_cases hp : ∃ b, pick a s = some (i, b)
  · obtain ⟨b, hb⟩ := hp
    refine .inl ⟨b, hb, ?_, h.own _ _ _ i b hst hb⟩
    simp only [proj, List.filterMap_cons, projMove, hb, Option.bind_some, if_true, List.filterMap_nil]
  · refine .inr ⟨?_, h.other _ _ _ i hst (not_exists.1 hp)⟩
    have hnone : projMove comp pick i (s, a, s') = none := by
      rw [projMove, Option.bind_eq_none_iff]
      rintro ⟨j, b⟩ hb
      exact if_neg fun e => hp ⟨b, by rw [← e]; exact hb⟩
    simp only [proj, List.filterMap_cons, hnone, List.filterMap_nil]

/-- The moves of a component are a run of it. -/
theorem Family.run (h : Family M N comp pick) (hr : Run M s w t) (i : I) :
    Run N (comp i s) (proj comp pick i w) (comp i t) := by
  induction hr with
  | nil => exact .nil _
  | snoc _ hst ih =>
    rw [proj_append]
    rcases h.proj_single hst i with ⟨b, -, hx, hst'⟩ | ⟨hx, he⟩
    · rw [hx]
      exact .snoc ih hst'
    · rw [hx, he, List.append_nil]
      exact ih

/-- A state that the run of a component passes is the component of a state that the run passes. -/
theorem Family.visited_proj (h : Family M N comp pick) (hr : Run M s w t) (i : I) {v : T}
    (hv : v ∈ visited (comp i s) (proj comp pick i w)) :
    ∃ w₁ w₂ u, w = w₁ ++ w₂ ∧ Run M s w₁ u ∧ comp i u = v := by
  induction hr with
  | nil =>
    obtain rfl : v = comp i s := by simpa [visited, proj] using hv
    exact ⟨[], [], s, rfl, .nil s, rfl⟩
  | @snoc t t' a w hr hst ih =>
    have past : v ∈ visited (comp i s) (proj comp pick i w) →
        ∃ w₁ w₂ u, w ++ [(t, a, t')] = w₁ ++ w₂ ∧ Run M s w₁ u ∧ comp i u = v := by
      intro hv
      obtain ⟨w₁, w₂, u, rfl, hu⟩ := ih hv
      exact ⟨w₁, w₂ ++ [(t, a, t')], u, by rw [List.append_assoc], hu⟩
    rw [proj_append] at hv
    rcases h.proj_single hst i with ⟨b, -, hx, -⟩ | ⟨hx, -⟩
    · rw [hx, visited_snoc] at hv
      rcases List.mem_append.1 hv with hv | hv
      · exact past hv
      · exact ⟨w ++ [(t, a, t')], [], t', by rw [List.append_nil], .snoc hr hst, (List.mem_singleton.1 hv).symm⟩
    · rw [hx, List.append_nil] at hv
      exact past hv

end Lts
