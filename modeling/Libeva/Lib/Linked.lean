import Mathlib.Data.List.Nodup
import Mathlib.Data.List.Perm.Subperm

/-!
# Singly linked lists in memory

`next` gives every address its successor. `Path next a l b` says that the nodes strictly between `a` and `b` are `l`,
`Segment next a l b` that `l` are the nodes from `a` on, up to `b` and without it; `follow` computes both. A node is
inserted after `p` or removed from behind `p` by writes to `next` at `p` and at the inserted node only (`Path.insert`,
`Path.remove`), and a sorted list stays sorted under both (`pairwise_insert`). `Chain next a l` says that the nodes from
the pointer `a` on, up to null, are `l`.
-/

namespace Linked

variable {ρ : Type*}

/-- From `a` the successors are `l`, then `b`. -/
def Path (next : ρ → Option ρ) : ρ → List ρ → ρ → Prop
  | a, [], b => next a = some b
  | a, n :: l, b => next a = some n ∧ Path next n l b

variable {next next' : ρ → Option ρ} {a b : ρ} {l : List ρ}

@[simp] theorem path_nil : Path next a [] b ↔ next a = some b := Iff.rfl

@[simp] theorem path_cons {n : ρ} : Path next a (n :: l) b ↔ next a = some n ∧ Path next n l b := Iff.rfl

/-- A path only depends on the successors of its nodes. -/
theorem Path.congr : ∀ {a : ρ} {l : List ρ}, Path next a l b → (∀ x ∈ a :: l, next' x = next x) → Path next' a l b
  | a, [], h, hx => by rw [path_nil, hx a (by simp)]; exact h
  | a, n :: l, h, hx => ⟨by rw [hx a (by simp)]; exact h.1, h.2.congr fun x hm => hx x (List.mem_cons_of_mem _ hm)⟩

/-- The same path from another first node. -/
theorem Path.move {c : ρ} (h : Path next a l b) (hc : next' c = next a) (hx : ∀ x ∈ l, next' x = next x) :
    Path next' c l b := by
  cases l with
  | nil => exact hc.trans h
  | cons n l => exact ⟨hc.trans h.1, h.2.congr hx⟩

/-- Every node of a path has a successor on it. -/
theorem Path.succ : ∀ {a : ρ} {l : List ρ}, Path next a l b → ∀ x ∈ a :: l, ∃ y ∈ l ++ [b], next x = some y
  | a, [], h, x, hx => by
    rw [List.mem_singleton.1 hx]
    exact ⟨b, by simp, h⟩
  | a, n :: l, h, x, hx => by
    rcases List.mem_cons.1 hx with rfl | hx
    · exact ⟨n, by simp, h.1⟩
    · obtain ⟨y, hy, hn⟩ := h.2.succ x hx
      exact ⟨y, by simp only [List.cons_append, List.mem_cons, hy, or_true], hn⟩

/-- A node of a path splits it. -/
theorem Path.split {p : ρ} : ∀ {a : ρ} {l : List ρ}, Path next a l b → p ∈ a :: l →
    ∃ l₁ l₂, a :: l = l₁ ++ p :: l₂ ∧ Path next p l₂ b
  | a, [], h, hp => by
    obtain rfl := List.mem_singleton.1 hp
    exact ⟨[], [], rfl, h⟩
  | a, n :: l, h, hp => by
    rcases List.mem_cons.1 hp with rfl | hp
    · exact ⟨[], n :: l, rfl, h⟩
    · obtain ⟨l₁, l₂, e, h'⟩ := h.2.split hp
      exact ⟨a :: l₁, l₂, by rw [e]; rfl, h'⟩

/-! ## Inserting and removing a node -/

/-- Node `n` goes in behind `p`, before the old successor `c` of `p`. -/
theorem Path.insert {p c n : ρ} (hc : next p = some c) (hp' : next' p = some n) (hn' : next' n = some c) :
    ∀ {a : ρ} {l : List ρ}, Path next a l b → (a :: l).Nodup → p ∈ a :: l →
      (∀ x ∈ a :: l, x ≠ p → next' x = next x) →
      ∃ l₁ l₂, l = l₁ ++ l₂ ∧ Path next' a (l₁ ++ n :: l₂) b ∧ (a :: l₁).getLast? = some p ∧
        (l₂ ++ [b]).head? = some c := by
  intro a l h hd hp hx
  by_cases hap : a = p
  · subst hap
    refine ⟨[], l, rfl, ⟨hp', h.move (hn'.trans hc.symm) ?_⟩, by simp, ?_⟩
    · intro x hm
      exact hx x (List.mem_cons_of_mem _ hm) fun e => (List.nodup_cons.1 hd).1 (e ▸ hm)
    · cases l with
      | nil => exact h.symm.trans hc
      | cons m l => exact h.1.symm.trans hc
  · cases l with
    | nil => exact absurd (List.mem_singleton.1 hp).symm hap
    | cons m l =>
      obtain ⟨l₁, l₂, rfl, h', hl, hh⟩ := Path.insert hc hp' hn' h.2 (List.nodup_cons.1 hd).2
        ((List.mem_cons.1 hp).resolve_left fun e => hap e.symm) fun x hm => hx x (List.mem_cons_of_mem _ hm)
      refine ⟨m :: l₁, l₂, rfl, ⟨(hx a (by simp) hap).trans h.1, h'⟩, ?_, hh⟩
      rw [List.getLast?_cons_cons]; exact hl
termination_by _ l => l.length

/-- The successor `c` of `p` goes out. -/
theorem Path.remove {p c : ρ} (hc : next p = some c) (hcb : c ≠ b) (hp' : next' p = next c) :
    ∀ {a : ρ} {l : List ρ}, Path next a l b → (a :: l).Nodup → p ∈ a :: l →
      (∀ x ∈ a :: l, x ≠ p → next' x = next x) →
      ∃ l₁ l₂, l = l₁ ++ c :: l₂ ∧ Path next' a (l₁ ++ l₂) b := by
  intro a l h hd hp hx
  by_cases hap : a = p
  · subst hap
    cases l with
    | nil => exact absurd (Option.some.inj (hc.symm.trans h)) hcb
    | cons m l =>
      obtain rfl : c = m := Option.some.inj (hc.symm.trans h.1)
      refine ⟨[], l, rfl, h.2.move hp' fun x hm => hx x (by simp [hm]) ?_⟩
      rintro rfl
      exact (List.nodup_cons.1 hd).1 (List.mem_cons_of_mem _ hm)
  · cases l with
    | nil => exact absurd (List.mem_singleton.1 hp).symm hap
    | cons m l =>
      obtain ⟨l₁, l₂, rfl, h'⟩ := Path.remove hc hcb hp' h.2 (List.nodup_cons.1 hd).2
        ((List.mem_cons.1 hp).resolve_left fun e => hap e.symm) fun x hm => hx x (List.mem_cons_of_mem _ hm)
      exact ⟨m :: l₁, l₂, rfl, ⟨(hx a (by simp) hap).trans h.1, h'⟩⟩
termination_by _ l => l.length

/-- Inserting between two neighbours keeps a list sorted. -/
theorem pairwise_insert {R : ρ → ρ → Prop} (htr : ∀ x y z, R x y → R y z → R x z) {n : ρ} :
    ∀ {l₁ l₂ : List ρ}, (l₁ ++ l₂).Pairwise R → (∀ x ∈ l₁.getLast?, R x n) → (∀ y ∈ l₂.head?, R n y) →
      (l₁ ++ n :: l₂).Pairwise R
  | [], l₂, h, _, hr => by
    refine List.pairwise_cons.2 ⟨?_, h⟩
    intro z hz
    cases l₂ with
    | nil => cases hz
    | cons y l₂ =>
      have hy := hr y rfl
      rcases List.mem_cons.1 hz with rfl | hz
      · exact hy
      · exact htr _ _ _ hy ((List.pairwise_cons.1 h).1 z hz)
  | x :: l₁, l₂, h, hl, hr => by
    obtain ⟨hx, h'⟩ := List.pairwise_cons.1 h
    have hxn : R x n := by
      cases l₁ with
      | nil => exact hl x rfl
      | cons y l₁ =>
        obtain ⟨z, hz⟩ : ∃ z, (y :: l₁).getLast? = some z := ⟨_, List.getLast?_eq_some_getLast (by simp)⟩
        have hzm : z ∈ (y :: l₁) ++ l₂ := List.mem_append_left _ (List.mem_of_getLast? hz)
        exact htr _ _ _ (hx z hzm) (hl z (by rw [List.getLast?_cons_cons]; exact hz))
    refine List.pairwise_cons.2 ⟨?_, pairwise_insert htr h' ?_ hr⟩
    · intro z hz
      rcases List.mem_append.1 hz with hz | hz
      · exact hx z (List.mem_append_left _ hz)
      · rcases List.mem_cons.1 hz with rfl | hz
        · exact hxn
        · exact hx z (List.mem_append_right _ hz)
    · intro z hz
      cases l₁ with
      | nil => cases hz
      | cons y l₁ => exact hl z (by rw [List.getLast?_cons_cons]; exact hz)

/-! ## Segments -/

/-- The nodes from `a` on, up to `b` and without it, are `l`. -/
def Segment (next : ρ → Option ρ) : ρ → List ρ → ρ → Prop
  | a, [], b => a = b
  | a, n :: l, b => a = n ∧ ∃ c, next n = some c ∧ Segment next c l b

@[simp] theorem segment_nil : Segment next a [] b ↔ a = b := Iff.rfl

@[simp] theorem segment_cons {n : ρ} :
    Segment next a (n :: l) b ↔ a = n ∧ ∃ c, next n = some c ∧ Segment next c l b := Iff.rfl

/-- A segment only depends on the successors of its nodes. -/
theorem Segment.congr : ∀ {a : ρ} {l : List ρ}, Segment next a l b → (∀ x ∈ l, next' x = next x) →
    Segment next' a l b
  | _, [], h, _ => h
  | _, _ :: _, ⟨rfl, c, hc, h⟩, hx =>
    ⟨rfl, c, (hx _ List.mem_cons_self).trans hc, h.congr fun x hm => hx x (List.mem_cons_of_mem _ hm)⟩

/-- The end of a segment moves on. -/
theorem Segment.snoc {c : ρ} (hc : next b = some c) : ∀ {a : ρ} {l : List ρ}, Segment next a l b →
    Segment next a (l ++ [b]) c
  | _, [], h => ⟨h, c, hc, rfl⟩
  | _, _ :: _, ⟨rfl, d, hd, h⟩ => ⟨rfl, d, hd, h.snoc hc⟩

/-! ## Chains -/

/-- The nodes from the pointer `a` on, up to the null pointer, are `l`. -/
def Chain (next : ρ → Option ρ) : Option ρ → List ρ → Prop
  | a, [] => a = none
  | a, n :: l => a = some n ∧ Chain next (next n) l

variable {p : Option ρ}

@[simp] theorem chain_nil : Chain next p [] ↔ p = none := Iff.rfl

@[simp] theorem chain_cons {n : ρ} : Chain next p (n :: l) ↔ p = some n ∧ Chain next (next n) l := Iff.rfl

/-- A chain only depends on the successors of its nodes. -/
theorem Chain.congr : ∀ {p : Option ρ} {l : List ρ}, Chain next p l → (∀ x ∈ l, next' x = next x) → Chain next' p l
  | _, [], h, _ => h
  | _, n :: _, ⟨hp, h⟩, hx => by
    refine ⟨hp, ?_⟩
    rw [hx n List.mem_cons_self]
    exact h.congr fun x hm => hx x (List.mem_cons_of_mem _ hm)

/-- A pointer is null when its chain is empty, and only then. -/
theorem Chain.eq_nil_iff (h : Chain next p l) : l = [] ↔ p = none := by
  cases l with
  | nil => exact iff_of_true rfl h
  | cons n l => exact iff_of_false (List.cons_ne_nil n l) fun e => nomatch e.symm.trans h.1

/-- A pointer has one chain. -/
theorem Chain.unique : ∀ {p : Option ρ} {l l' : List ρ}, Chain next p l → Chain next p l' → l = l'
  | _, [], [], _, _ => rfl
  | _, [], _ :: _, h, h' => nomatch (chain_nil.1 h).symm.trans h'.1
  | _, _ :: _, [], h, h' => nomatch h.1.symm.trans (chain_nil.1 h')
  | _, _ :: _, _ :: _, ⟨h, hl⟩, ⟨h', hl'⟩ => by
    cases h.symm.trans h'
    rw [hl.unique hl']

/-- The first node of a chain. -/
theorem Chain.uncons {n : ρ} (h : Chain next (some n) l) : ∃ l', l = n :: l' ∧ Chain next (next n) l' := by
  cases l with
  | nil => cases h
  | cons m l =>
    obtain ⟨hm, h⟩ := h
    cases hm
    exact ⟨l, rfl, h⟩

/-! ## Computing paths and segments -/

variable [DecidableEq ρ]

/-- The nodes from `p` on until `b`, at most `fuel` of them. -/
def follow (next : ρ → Option ρ) (b : ρ) : ℕ → Option ρ → List ρ
  | fuel + 1, some n => if n = b then [] else n :: follow next b fuel (next n)
  | _, _ => []

/-- With enough fuel `follow` finds the path. -/
theorem Path.follow_eq : ∀ {a : ρ} {l : List ρ} {fuel : ℕ}, Path next a l b → b ∉ l → l.length < fuel →
    follow next b fuel (next a) = l
  | a, [], fuel + 1, h, _, _ => by rw [path_nil.1 h, follow, if_pos rfl]
  | a, n :: l, fuel + 1, h, hb, hf => by
    rw [h.1, follow, if_neg fun e => hb (by simp [e]),
      h.2.follow_eq (fun e => hb (List.mem_cons_of_mem _ e)) (by simpa using hf)]

/-- A node has one path to the end. -/
theorem Path.unique {l' : List ρ} (h : Path next a l b) (h' : Path next a l' b) (hb : b ∉ l) (hb' : b ∉ l') :
    l = l' := by
  have hl : l.length < l.length + l'.length + 1 := by omega
  exact (h.follow_eq hb hl).symm.trans (h'.follow_eq hb' (by omega))

theorem Segment.follow_eq : ∀ {a : ρ} {l : List ρ} {fuel : ℕ}, Segment next a l b → b ∉ l → l.length < fuel →
    follow next b fuel (some a) = l
  | _, [], fuel + 1, h, _, _ => by rw [follow, if_pos (segment_nil.1 h)]
  | _, n :: l, fuel + 1, ⟨rfl, c, hc, h⟩, hb, hf => by
    rw [follow, if_neg fun e => hb (by simp [e]), hc,
      h.follow_eq (fun e => hb (List.mem_cons_of_mem _ e)) (by simpa using hf)]

/-- A duplicate-free list of numbers below `n` has at most `n` members. -/
theorem length_le_of_nodup {l : List ℕ} {n : ℕ} (hd : l.Nodup) (h : ∀ x ∈ l, x < n) : l.length ≤ n := by
  simpa using (hd.subperm fun x hx => List.mem_range.2 (h x hx)).length_le

end Linked
