import Mathlib.Data.List.TakeWhile

/-!
# The fields of a list

A field is a maximal run of elements that are no separators; it is given with what comes after it, which says where it
is.

* `IsField`: a field of a list; `isField_append`: the fields of a list that starts with one.
* `induction`: over the separators and fields of a list.
* `fields`: all fields (`mem_fields`), each with all that follow it behind it (`pairwise_fields`).
-/

namespace Fields

variable {α : Type*} {p : α → Bool} {c : α} {l w r v s : List α}

/-- `w` is a maximal run of elements that are no separators, and `r` is what comes after it. -/
structure IsField (p : α → Bool) (l w r : List α) : Prop where
  start : ∃ a, l = a ++ (w ++ r) ∧ ∀ c ∈ a.getLast?, p c = true
  ne_nil : w ≠ []
  word : ∀ c ∈ w, p c = false
  stop : ∀ c ∈ r.head?, p c = true

/-- The fields of a list in their order. -/
def fields (p : α → Bool) : List α → List (List α × List α)
  | [] => []
  | c :: l =>
    if p c then fields p l
    else if l.head?.all p then ([c], l) :: fields p l
    else (fields p l).modifyHead fun x => (c :: x.1, x.2)

theorem fields_sep (h : p c = true) : fields p (c :: l) = fields p l := if_pos h

/-- The first field of a list that starts with it. -/
theorem fields_append (hne : w ≠ []) (hw : ∀ c ∈ w, p c = false) (hr : ∀ c ∈ r.head?, p c = true) :
    fields p (w ++ r) = (w, r) :: fields p r := by
  induction w with
  | nil => exact absurd rfl hne
  | cons c w ih =>
    have hc : ¬p c = true := by rw [hw c List.mem_cons_self]; exact Bool.false_ne_true
    rw [List.cons_append, fields, if_neg hc]
    cases w with
    | nil =>
      have hall : r.head?.all p = true := by
        cases r with
        | nil => rfl
        | cons d r => exact hr d rfl
      exact if_pos hall
    | cons d w =>
      have hd : ¬(d :: w ++ r).head?.all p = true := by
        show ¬p d = true
        rw [hw d (List.mem_cons_of_mem _ List.mem_cons_self)]
        exact Bool.false_ne_true
      rw [if_neg hd, ih (List.cons_ne_nil _ _) fun e he => hw e (List.mem_cons_of_mem _ he)]
      rfl

/-- A list is empty, starts with a separator, or starts with a field. -/
@[elab_as_elim] theorem induction {motive : List α → Prop} (p : α → Bool) (nil : motive [])
    (sep : ∀ c l, p c = true → motive l → motive (c :: l))
    (field : ∀ w r, w ≠ [] → (∀ c ∈ w, p c = false) → (∀ c ∈ r.head?, p c = true) → motive r → motive (w ++ r))
    (l : List α) : motive l := by
  induction hn : l.length using Nat.strongRecOn generalizing l with
  | ind n ih =>
    subst hn
    cases l with
    | nil => exact nil
    | cons c l =>
      by_cases hc : p c = true
      · exact sep c l hc (ih _ (Nat.lt_succ_self _) l rfl)
      · have hw : (!p c) = true := by rw [Bool.not_eq_true] at hc; rw [hc]; rfl
        have htake : (c :: l).takeWhile (fun c => !p c) = c :: l.takeWhile fun c => !p c :=
          List.takeWhile_cons_of_pos hw
        have hdrop : (c :: l).dropWhile (fun c => !p c) = l.dropWhile fun c => !p c :=
          List.dropWhile_cons_of_pos hw
        rw [← List.takeWhile_append_dropWhile (p := fun c => !p c) (l := c :: l)]
        refine field _ _ ?_ ?_ ?_ (ih _ ?_ _ rfl)
        · rw [htake]
          exact List.cons_ne_nil _ _
        · intro d hd
          have hp := List.mem_takeWhile_imp hd
          rwa [Bool.not_eq_true'] at hp
        · intro d hd
          have hp := List.head?_dropWhile_not (fun c => !p c) (c :: l)
          rw [Option.mem_def.1 hd] at hp
          simpa using hp
        · rw [hdrop]
          exact Nat.lt_succ_of_le (List.dropWhile_sublist _).length_le

theorem isField_sep (h : p c = true) : IsField p (c :: l) w r ↔ IsField p l w r := by
  constructor
  · rintro ⟨⟨a, ha, hlast⟩, hne, hw, hr⟩
    cases a with
    | nil =>
      cases w with
      | nil => exact absurd rfl hne
      | cons d w =>
        obtain rfl : c = d := (List.cons.inj ha).1
        rw [hw c List.mem_cons_self] at h
        cases h
    | cons d a =>
      refine ⟨⟨a, (List.cons.inj ha).2, fun e he => hlast e ?_⟩, hne, hw, hr⟩
      cases a with
      | nil => cases he
      | cons f a => rwa [List.getLast?_cons_cons]
  · rintro ⟨⟨a, rfl, hlast⟩, hne, hw, hr⟩
    refine ⟨⟨c :: a, rfl, fun e he => ?_⟩, hne, hw, hr⟩
    cases a with
    | nil => exact Option.some.inj he ▸ h
    | cons f a =>
      rw [List.getLast?_cons_cons] at he
      exact hlast e he

/-- Two fields at the same place are the same. -/
theorem eq_of_append (h : w ++ r = v ++ s) (hw : ∀ c ∈ w, p c = false) (hr : ∀ c ∈ r.head?, p c = true)
    (hv : ∀ c ∈ v, p c = false) (hs : ∀ c ∈ s.head?, p c = true) : w = v ∧ r = s := by
  induction w generalizing v with
  | nil =>
    cases v with
    | nil => exact ⟨rfl, h⟩
    | cons d v =>
      rw [List.nil_append] at h
      have hd := hr d (h ▸ rfl)
      rw [hv d List.mem_cons_self] at hd
      cases hd
  | cons c w ih =>
    cases v with
    | nil =>
      rw [List.nil_append] at h
      have hc := hs c (h ▸ rfl)
      rw [hw c List.mem_cons_self] at hc
      cases hc
    | cons d v =>
      obtain ⟨rfl, htail⟩ := List.cons.inj h
      obtain ⟨rfl, rfl⟩ := ih htail (fun e he => hw e (List.mem_cons_of_mem _ he))
        fun e he => hv e (List.mem_cons_of_mem _ he)
      exact ⟨rfl, rfl⟩

theorem isField_append (hne : v ≠ []) (hv : ∀ c ∈ v, p c = false) (hs : ∀ c ∈ s.head?, p c = true) :
    IsField p (v ++ s) w r ↔ (w = v ∧ r = s) ∨ IsField p s w r := by
  constructor
  · rintro ⟨⟨a, ha, hlast⟩, hwne, hw, hr⟩
    rcases List.append_eq_append_iff.1 ha with ⟨u, rfl, hu⟩ | ⟨u, rfl, hu⟩
    · refine .inr ⟨⟨u, hu, fun c hc => hlast c ?_⟩, hwne, hw, hr⟩
      rw [List.getLast?_append, Option.mem_def.1 hc]
      rfl
    · -- nothing of `v` is in front of the field
      cases ho : a.getLast? with
      | some c =>
        have hc := hlast c ho
        rw [hv c (List.mem_append_left _ (List.mem_of_getLast? ho))] at hc
        cases hc
      | none =>
        obtain rfl := List.getLast?_eq_none_iff.1 ho
        exact .inl (eq_of_append hu hw hr hv hs)
  · rintro (⟨rfl, rfl⟩ | ⟨⟨a, rfl, hlast⟩, hwne, hw, hr⟩)
    · exact ⟨⟨[], rfl, nofun⟩, hne, hv, hs⟩
    · refine ⟨⟨v ++ a, (List.append_assoc ..).symm, fun c hc => hlast c ?_⟩, hwne, hw, hr⟩
      cases a with
      | nil =>
        cases w with
        | nil => exact absurd rfl hwne
        | cons d w =>
          have hd := hs d rfl
          rw [hw d List.mem_cons_self] at hd
          cases hd
      | cons d a =>
        rw [List.getLast?_append, List.getLast?_cons, Option.some_or] at hc
        rwa [List.getLast?_cons]

/-- The list has all fields, and nothing else. -/
theorem mem_fields {x : List α × List α} : x ∈ fields p l ↔ IsField p l x.1 x.2 := by
  induction l using induction p with
  | nil =>
    refine iff_of_false nofun ?_
    rintro ⟨⟨a, ha, -⟩, hne, -, -⟩
    exact hne (List.append_eq_nil_iff.1 (List.append_eq_nil_iff.1 ha.symm).2).1
  | sep c l hc ih => rw [fields_sep hc, isField_sep hc, ih]
  | field v s hne hv hs ih =>
    rw [fields_append hne hv hs, isField_append hne hv hs, List.mem_cons, ih, Prod.ext_iff]

/-- A field is behind all fields before it. -/
theorem pairwise_fields (p : α → Bool) (l : List α) : (fields p l).Pairwise fun x y => y.1 ++ y.2 <:+ x.2 := by
  induction l using induction p with
  | nil => exact List.Pairwise.nil
  | sep c l hc ih => rwa [fields_sep hc]
  | field v s hne hv hs ih =>
    rw [fields_append hne hv hs]
    refine List.pairwise_cons.2 ⟨fun x hx => ?_, ih⟩
    obtain ⟨a, ha, -⟩ := (mem_fields.1 hx).start
    exact ⟨a, ha.symm⟩

end Fields
