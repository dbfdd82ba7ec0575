import Mathlib.Data.List.Infix

/-!
# Texts in front of a delimiter

A delimiter whose first letter occurs nowhere else in it cannot overlap itself. A text that does not contain it then
ends where the delimiter is found first (`le_of_not_infix`).

* `rest_of_le`: two factorizations of one list, by their first factors.
* `prefix_of_shift`: two occurrences of the delimiter do not overlap.
-/

namespace Delimiter

variable {α : Type*} {a : α} {t u v p q r s : List α}

/-- The shorter first factor is in front of the longer one. -/
theorem rest_of_le (h : p ++ s = q ++ r) (hle : p.length ≤ q.length) : ∃ u, q = p ++ u ∧ s = u ++ r := by
  rcases List.append_eq_append_iff.1 h with ⟨u, hq, hs⟩ | ⟨u, hp, hr⟩
  · exact ⟨u, hq, hs⟩
  · obtain rfl : u = [] := by
      rw [hp, List.length_append] at hle
      exact List.length_eq_zero_iff.1 (by omega)
    rw [List.append_nil] at hp
    exact ⟨[], by rw [hp, List.append_nil], hr.symm⟩

/-- A second occurrence comes after the whole first one. -/
theorem prefix_of_shift (ha : a ∉ t) (hu : u ≠ []) (h : a :: t ++ q = u ++ (a :: t ++ s)) : a :: t <+: u := by
  rcases List.append_eq_append_iff.1 h with ⟨w, rfl, -⟩ | ⟨w, hw, hq⟩
  · exact List.prefix_append _ _
  · cases u with
    | nil => exact absurd rfl hu
    | cons b u =>
      rw [List.cons_append, List.cons.injEq] at hw
      obtain ⟨rfl, rfl⟩ := hw
      cases w with
      | nil =>
        rw [List.append_nil]
      | cons c w =>
        rw [List.cons_append, List.cons_append, List.cons.injEq] at hq
        obtain ⟨rfl, -⟩ := hq
        exact absurd (List.mem_append_right u List.mem_cons_self) ha

/-- A text without the delimiter ends at the first occurrence. -/
theorem le_of_not_infix (ha : a ∉ t) (hv : ¬a :: t <:+: v) (h : v ++ (a :: t ++ s) = p ++ (a :: t ++ q)) :
    v.length ≤ p.length := by
  by_contra hlt
  obtain ⟨u, rfl, hu⟩ := rest_of_le h.symm (Nat.le_of_not_le hlt)
  have hne : u ≠ [] := by
    rintro rfl
    exact hlt (Nat.le_of_eq (congrArg List.length (List.append_nil p)))
  exact hv ((prefix_of_shift ha hne hu).isInfix.trans (List.suffix_append p u).isInfix)

end Delimiter
