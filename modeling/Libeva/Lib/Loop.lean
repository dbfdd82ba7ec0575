import Mathlib.Data.Nat.Notation

/-!
# Loops with a fallible body

One pass of the body fails, leaves the loop (`none`) or goes to the next state.

* `run`: the loop with a bound on its passes; `Ends`: how the loop ends, without a bound.
* `ends_run`: where a measure falls with every pass, the bounded loop ends as the loop does.
* `Visits`: the states at the head of the loop, which `trail` lists in their order; `trail_invariant` is the rule for
  invariants that look back at the states before.
* `Ends.sim`, `Ends.sim_fail`: a loop that another loop follows pass by pass.
-/

namespace Loop

variable {S T E : Type*}

def run (body : S → Except E (Option S)) (e : E) : ℕ → S → Except E S
  | 0, _ => .error e
  | n + 1, s =>
    match body s with
    | .error f => .error f
    | .ok none => .ok s
    | .ok (some s') => run body e n s'

inductive Ends (body : S → Except E (Option S)) : S → Except E S → Prop
  | leave {s : S} : body s = .ok none → Ends body s (.ok s)
  | fail {s : S} {f : E} : body s = .error f → Ends body s (.error f)
  | pass {s s' : S} {o : Except E S} : body s = .ok (some s') → Ends body s' o → Ends body s o

inductive Visits (body : S → Except E (Option S)) : S → S → Prop
  | here (s : S) : Visits body s s
  | pass {s s' t : S} : body s = .ok (some s') → Visits body s' t → Visits body s t

/-- The states at the head of the loop, up to a bound on the passes. -/
def trail (body : S → Except E (Option S)) : ℕ → S → List S
  | 0, _ => []
  | n + 1, s =>
    match body s with
    | .ok (some s') => s :: trail body n s'
    | _ => [s]

variable {body : S → Except E (Option S)} {s s' t : S} {o o' : Except E S} {e f : E} {n : ℕ}

theorem Ends.det (h : Ends body s o) (h' : Ends body s o') : o = o' := by
  induction h with
  | leave hb => cases h' with
    | leave _ => rfl
    | fail hb' => rw [hb] at hb'; cases hb'
    | pass hb' _ => rw [hb] at hb'; cases hb'
  | fail hb => cases h' with
    | leave hb' => rw [hb] at hb'; cases hb'
    | fail hb' => rw [hb] at hb'; cases hb'; rfl
    | pass hb' _ => rw [hb] at hb'; cases hb'
  | pass hb _ ih => cases h' with
    | leave hb' => rw [hb] at hb'; cases hb'
    | fail hb' => rw [hb] at hb'; cases hb'
    | pass hb' h' => rw [hb] at hb'; cases hb'; exact ih h'

theorem ends_run {μ : S → ℕ} (hμ : ∀ s s', body s = .ok (some s') → μ s' < μ s) (hn : μ s < n) :
    Ends body s (run body e n s) := by
  induction n generalizing s with
  | zero => exact absurd hn (Nat.not_lt_zero _)
  | succ n ih =>
    unfold run
    split
    · rename_i hb
      exact .fail hb
    · rename_i hb
      exact .leave hb
    · rename_i s' hb
      exact .pass hb (ih (Nat.lt_of_lt_of_le (hμ s s' hb) (Nat.le_of_lt_succ hn)))

theorem Visits.mem_trail {μ : S → ℕ} (hμ : ∀ s s', body s = .ok (some s') → μ s' < μ s) (h : Visits body s t)
    (hn : μ s < n) : t ∈ trail body n s := by
  induction h generalizing n with
  | here =>
    cases n with
    | zero => exact absurd hn (Nat.not_lt_zero _)
    | succ n => unfold trail; split <;> exact List.mem_cons_self
  | pass hb _ ih =>
    cases n with
    | zero => exact absurd hn (Nat.not_lt_zero _)
    | succ n =>
      unfold trail
      rw [hb]
      exact List.mem_cons_of_mem _ (ih (Nat.lt_of_lt_of_le (hμ _ _ hb) (Nat.le_of_lt_succ hn)))

theorem Visits.ends (h : Visits body s t) (ht : Ends body t o) : Ends body s o := by
  induction h with
  | here => exact ht
  | pass hb _ ih => exact .pass hb (ih ht)

theorem Visits.invariant {I : S → Prop} (hI : ∀ s s', I s → body s = .ok (some s') → I s') (h : Visits body s t)
    (hs : I s) : I t := by
  induction h with
  | here => exact hs
  | pass hb _ ih => exact ih (hI _ _ hs hb)

/-- A loop that ends leaves without a failure exactly if no pass of it fails. -/
theorem Ends.ok_iff (h : Ends body s o) : (∃ t, o = .ok t) ↔ ∀ u, Visits body s u → ∃ r, body u = .ok r := by
  induction h with
  | @leave s hb =>
    refine iff_of_true ⟨s, rfl⟩ ?_
    intro u hu
    cases hu with
    | here => exact ⟨none, hb⟩
    | pass hb' _ => rw [hb] at hb'; cases hb'
  | @fail s _ hb =>
    refine iff_of_false nofun ?_
    intro hall
    obtain ⟨r, hr⟩ := hall s (.here s)
    rw [hb] at hr
    cases hr
  | @pass s s' _ hb _ ih =>
    rw [ih]
    constructor
    · intro hall u hu
      cases hu with
      | here => exact ⟨some s', hb⟩
      | pass hb' hu => rw [hb] at hb'; cases hb'; exact hall u hu
    · exact fun hall u hu => hall u (.pass hb hu)

/-- A loop that ends leaves from the last state it visits. -/
theorem Ends.visits (h : Ends body s (.ok t)) : Visits body s t ∧ body t = .ok none := by
  generalize ho : Except.ok t = o at h
  induction h with
  | leave hb => cases ho; exact ⟨.here _, hb⟩
  | fail hb => cases ho
  | pass hb _ ih => exact ⟨.pass hb (ih ho).1, (ih ho).2⟩

/-- The list of the states before grows with every pass. -/
theorem trail_invariant {I : List S → S → Prop} {l l' : List S} (before : List S)
    (hI : ∀ before s s', I before s → body s = .ok (some s') → I (before ++ [s]) s') (hs : I before s)
    (h : trail body n s = l ++ t :: l') : I (before ++ l) t := by
  induction n generalizing s before l with
  | zero => exact absurd h.symm (List.append_ne_nil_of_right_ne_nil _ (List.cons_ne_nil _ _))
  | succ n ih =>
    unfold trail at h
    split at h
    · rename_i hb
      rcases List.cons_eq_append_iff.1 h with ⟨rfl, hl⟩ | ⟨l, rfl, hl⟩
      · cases hl
        rw [List.append_nil]
        exact hs
      · rw [List.append_cons]
        exact ih _ (hI _ _ _ hs hb) hl
    · rcases List.append_eq_singleton_iff.1 h.symm with ⟨rfl, hl⟩ | ⟨-, hl⟩
      · cases hl
        rw [List.append_nil]
        exact hs
      · cases hl

/-- The state from which the loop leaves is the last of its trail. -/
theorem Ends.trail {μ : S → ℕ} (hμ : ∀ s s', body s = .ok (some s') → μ s' < μ s) (h : Ends body s (.ok t))
    (hn : μ s < n) : ∃ l, trail body n s = l ++ [t] := by
  generalize ho : Except.ok t = o at h
  induction h generalizing n with
  | leave hb =>
    cases ho
    cases n with
    | zero => exact absurd hn (Nat.not_lt_zero _)
    | succ n =>
      refine ⟨[], ?_⟩
      unfold Loop.trail
      rw [hb]
      rfl
  | fail hb => cases ho
  | @pass s _ _ hb _ ih =>
    cases n with
    | zero => exact absurd hn (Nat.not_lt_zero _)
    | succ n =>
      obtain ⟨l, hl⟩ := ih (Nat.lt_of_lt_of_le (hμ _ _ hb) (Nat.le_of_lt_succ hn)) ho
      refine ⟨s :: l, ?_⟩
      unfold Loop.trail
      rw [hb, List.cons_append, ← hl]

/-! ## Simulation -/

section Simulation

variable {body' : T → Except E (Option T)} {P : S → Prop} {R : S → T → Prop} {a : T}

theorem Visits.sim (hstep : ∀ s s' a, P s → R s a → body s = .ok (some s') → ∃ b, body' a = .ok (some b) ∧ R s' b)
    (h : Visits body s t) (hP : ∀ u, Visits body s u → P u) (hR : R s a) : ∃ b, Visits body' a b ∧ R t b := by
  induction h generalizing a with
  | here => exact ⟨a, .here a, hR⟩
  | pass hb _ ih =>
    obtain ⟨b, hb', hRb⟩ := hstep _ _ _ (hP _ (.here _)) hR hb
    obtain ⟨c, hv, hRc⟩ := ih (fun u hu => hP u (.pass hb hu)) hRb
    exact ⟨c, .pass hb' hv, hRc⟩

theorem Ends.sim (hstep : ∀ s s' a, P s → R s a → body s = .ok (some s') → ∃ b, body' a = .ok (some b) ∧ R s' b)
    (h : Ends body s (.ok t)) (hP : ∀ u, Visits body s u → P u) (hR : R s a) : ∃ b, Visits body' a b ∧ R t b :=
  h.visits.1.sim hstep hP hR

theorem Ends.sim_fail
    (hstep : ∀ s s' a, P s → R s a → body s = .ok (some s') → ∃ b, body' a = .ok (some b) ∧ R s' b)
    (hfail : ∀ s a f, P s → R s a → body s = .error f → body' a = .error f) (h : Ends body s (.error f))
    (hP : ∀ u, Visits body s u → P u) (hR : R s a) : Ends body' a (.error f) := by
  generalize ho : Except.error f = o at h
  induction h generalizing a with
  | leave hb => cases ho
  | fail hb =>
    cases ho
    exact .fail (hfail _ _ _ (hP _ (.here _)) hR hb)
  | pass hb _ ih =>
    obtain ⟨b, hb', hRb⟩ := hstep _ _ _ (hP _ (.here _)) hR hb
    exact .pass hb' (ih (fun u hu => hP u (.pass hb hu)) hRb ho)

end Simulation

end Loop
