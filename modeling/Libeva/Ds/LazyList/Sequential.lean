import Libeva.Ds.LazyList.Threads
import Libeva.Machine

/-!
# `LazyList` in one thread

Where all calls come from one thread the locks are free between them, and a list is its nodes after `head_`, the tail
last. A traversal has no test for the end: it stops at the first node whose entry is not below the key, and stepping
past the tail uses a null pointer.

* `Sane`: the nodes are sorted, unmarked and the entry of the tail has the key `top`.
* `lookup`: the entry with a key, if there is one.
* `get_eq`, `add_eq`: for keys up to `top` the calls are those of a finite map; `get_above`, `add_above`: for the other
  keys they crash.
-/

namespace Libeva.Ds.LazyList

/-- A node after `head_`. -/
structure Cell (α : Type*) where
  entry_ : α
  marked_ : Bool
  deriving DecidableEq

variable {α κ : Type*}

/-- `LazyList( max_val )`. -/
def build (max_val : α) : List (Cell α) := [⟨max_val, false⟩]

section Calls

variable [LinearOrder κ] (key : α → κ)

def equal (lhs rhs : α) : Bool := !cmp key lhs rhs && !cmp key rhs lhs

/-- `add( key )` from the node before, which is marked or not. No one else moves the nodes, so that a `validate` that
fails fails for ever. -/
def add (k : α) (pred : Bool) : List (Cell α) → Except Fault (List (Cell α))
  | [] => .error .nullDeref
  | n :: ns =>
    if cmp key n.entry_ k then (add k n.marked_ ns).map (n :: ·)
    else if pred || n.marked_ then .error .spin
    else if equal key n.entry_ k then .ok ({ n with entry_ := k } :: ns)
    else .ok (⟨k, false⟩ :: n :: ns)

/-- `get( key )`; `none` is `T()`. -/
def get (k : α) : List (Cell α) → Except Fault (Option α)
  | [] => .error .nullDeref
  | n :: ns =>
    if cmp key n.entry_ k then get k ns
    else .ok (if n.marked_ || !equal key n.entry_ k then none else some n.entry_)

/-! ## A finite map -/

/-- The entry with the key `x`. -/
def lookup (x : κ) (l : List (Cell α)) : Option α := (l.find? fun n => decide (key n.entry_ = x)).map Cell.entry_

structure Sane (top : κ) (l : List (Cell α)) : Prop where
  sorted : l.Pairwise fun m n => key m.entry_ < key n.entry_
  unmarked : ∀ n ∈ l, n.marked_ = false
  le_top : ∀ n ∈ l, key n.entry_ ≤ top
  top_mem : ∃ n ∈ l, key n.entry_ = top

variable {key} {top x : κ} {k : α} {l : List (Cell α)} {n : Cell α}

theorem equal_iff {a b : α} : equal key a b = true ↔ key a = key b := by
  unfold equal cmp
  rw [Bool.and_eq_true, Bool.not_eq_true', Bool.not_eq_true', decide_eq_false_iff_not, decide_eq_false_iff_not, not_lt,
    not_lt]
  exact ⟨fun h => le_antisymm h.2 h.1, fun h => ⟨h.ge, h.le⟩⟩

theorem lookup_cons : lookup key x (n :: l) = if key n.entry_ = x then some n.entry_ else lookup key x l := by
  unfold lookup
  rw [List.find?_cons]
  by_cases h : key n.entry_ = x
  · rw [if_pos h, decide_eq_true h]; rfl
  · rw [if_neg h, decide_eq_false h]

theorem key_of_lookup {a : α} (h : lookup key x l = some a) : key a = x := by
  obtain ⟨n, hn, rfl⟩ := Option.map_eq_some_iff.1 h
  have hp := List.find?_some hn
  exact of_decide_eq_true hp

/-- No entry has a key below that of the first. -/
theorem lookup_of_lt (hs : (n :: l).Pairwise fun m n => key m.entry_ < key n.entry_) (hx : x < key n.entry_) :
    lookup key x (n :: l) = none := by
  unfold lookup
  rw [Option.map_eq_none_iff, List.find?_eq_none]
  intro m hm he
  rw [decide_eq_true_iff] at he
  rcases List.mem_cons.1 hm with rfl | hm
  · exact hx.ne' he
  · exact (hx.trans (List.rel_of_pairwise_cons hs hm)).ne' he

theorem sane_build (key : α → κ) (max_val : α) : Sane key (key max_val) (build max_val) where
  sorted := List.pairwise_singleton _ _
  unmarked _ h := by rw [List.mem_singleton.1 h]
  le_top _ h := by rw [List.mem_singleton.1 h]
  top_mem := ⟨_, List.mem_singleton_self _, rfl⟩

theorem lookup_build (max_val : α) : lookup key x (build max_val) = if key max_val = x then some max_val else none :=
  lookup_cons

/-- The traversal stops, and `get` is the lookup. -/
theorem get_eq (hs : l.Pairwise fun m n => key m.entry_ < key n.entry_) (hu : ∀ n ∈ l, n.marked_ = false)
    (hb : ∃ n ∈ l, key k ≤ key n.entry_) : get key k l = .ok (lookup key (key k) l) := by
  induction l with
  | nil => obtain ⟨n, hn, _⟩ := hb; cases hn
  | cons n ns ih =>
    unfold get
    rcases lt_trichotomy (key n.entry_) (key k) with h | h | h
    · have hb' : ∃ m ∈ ns, key k ≤ key m.entry_ := by
        obtain ⟨m, hm, hle⟩ := hb
        rcases List.mem_cons.1 hm with rfl | hm
        · exact absurd hle (not_le.2 h)
        · exact ⟨m, hm, hle⟩
      rw [if_pos (cmp_iff.2 h), ih hs.of_cons (fun m hm => hu m (List.mem_cons_of_mem _ hm)) hb', lookup_cons,
        if_neg h.ne]
    · rw [if_neg (mt cmp_iff.1 h.not_lt), hu n List.mem_cons_self, equal_iff.2 h, lookup_cons, if_pos h]
      rfl
    · have he : equal key n.entry_ k = false := Bool.eq_false_iff.2 (mt equal_iff.1 h.ne')
      rw [if_neg (mt cmp_iff.1 h.asymm), he, lookup_of_lt hs h]
      simp

theorem get_above (hl : ∀ n ∈ l, key n.entry_ < key k) : get key k l = .error .nullDeref := by
  induction l with
  | nil => rfl
  | cons n ns ih =>
    unfold get
    rw [if_pos (cmp_iff.2 (hl n List.mem_cons_self))]
    exact ih fun m hm => hl m (List.mem_cons_of_mem _ hm)

theorem add_above {pred : Bool} (hl : ∀ n ∈ l, key n.entry_ < key k) : add key k pred l = .error .nullDeref := by
  induction l generalizing pred with
  | nil => rfl
  | cons n ns ih =>
    unfold add
    rw [if_pos (cmp_iff.2 (hl n List.mem_cons_self)), ih fun m hm => hl m (List.mem_cons_of_mem _ hm)]
    rfl

theorem safe_get : Safe (get key k l) := by
  induction l with
  | nil => exact nofun
  | cons n ns ih =>
    unfold get
    split
    · exact ih
    · exact safe_ok _

theorem safe_add {pred : Bool} : Safe (add key k pred l) := by
  induction l generalizing pred with
  | nil => exact nofun
  | cons n ns ih =>
    unfold add
    split
    · exact ih.map
    · split
      · exact nofun
      · split
        · exact safe_ok _
        · exact safe_ok _

/-- What `add` leaves behind: the keys are the old ones and that of `k`. -/
structure Added (key : α → κ) (k : α) (l l' : List (Cell α)) : Prop where
  sorted : l'.Pairwise fun m n => key m.entry_ < key n.entry_
  unmarked : ∀ n ∈ l', n.marked_ = false
  keys : ∀ x, (∃ n ∈ l', key n.entry_ = x) ↔ x = key k ∨ ∃ n ∈ l, key n.entry_ = x
  lookup_eq : ∀ x, lookup key x l' = if x = key k then some k else lookup key x l

theorem add_ok (hs : l.Pairwise fun m n => key m.entry_ < key n.entry_) (hu : ∀ n ∈ l, n.marked_ = false)
    (hb : ∃ n ∈ l, key k ≤ key n.entry_) : ∃ l', add key k false l = .ok l' ∧ Added key k l l' := by
  induction l with
  | nil => obtain ⟨n, hn, _⟩ := hb; cases hn
  | cons n ns ih =>
    have hn : n.marked_ = false := hu n List.mem_cons_self
    have hns : ∀ m ∈ ns, m.marked_ = false := fun m hm => hu m (List.mem_cons_of_mem _ hm)
    unfold add
    rcases lt_trichotomy (key n.entry_) (key k) with h | h | h
    · have hb' : ∃ m ∈ ns, key k ≤ key m.entry_ := by
        obtain ⟨m, hm, hle⟩ := hb
        rcases List.mem_cons.1 hm with rfl | hm
        · exact absurd hle (not_le.2 h)
        · exact ⟨m, hm, hle⟩
      obtain ⟨l', hadd, ha⟩ := ih hs.of_cons hns hb'
      rw [if_pos (cmp_iff.2 h), hn, hadd]
      refine ⟨n :: l', rfl, ?_, ?_, ?_, ?_⟩
      · refine List.pairwise_cons.2 ⟨?_, ha.sorted⟩
        intro m hm
        rcases (ha.keys _).1 ⟨m, hm, rfl⟩ with hm' | ⟨p, hp, hpm⟩
        · rw [hm']; exact h
        · rw [← hpm]; exact List.rel_of_pairwise_cons hs hp
      · exact fun m hm => (List.mem_cons.1 hm).elim (fun e => e ▸ hn) (ha.unmarked m)
      · intro x
        have hk := ha.keys x
        simp only [List.mem_cons, exists_eq_or_imp] at hk ⊢
        rw [hk]
        exact or_left_comm
      · intro x
        rw [lookup_cons, lookup_cons, ha.lookup_eq]
        by_cases hx : key n.entry_ = x
        · rw [if_pos hx, if_pos hx, if_neg (hx ▸ h.ne)]
        · rw [if_neg hx, if_neg hx]
    · rw [if_neg (mt cmp_iff.1 h.not_lt), hn, equal_iff.2 h]
      refine ⟨_, rfl, ?_, ?_, ?_, ?_⟩
      · exact List.pairwise_cons.2 ⟨fun m hm => h ▸ List.rel_of_pairwise_cons hs hm, hs.of_cons⟩
      · exact fun m hm => (List.mem_cons.1 hm).elim (fun e => by rw [e]) (hns m)
      · intro x
        simp only [List.mem_cons, exists_eq_or_imp, h]
        tauto
      · intro x
        rw [lookup_cons, lookup_cons, h]
        by_cases hx : key k = x
        · rw [if_pos hx, if_pos hx.symm]
        · rw [if_neg hx, if_neg hx, if_neg (Ne.symm hx)]
    · have he : equal key n.entry_ k = false := Bool.eq_false_iff.2 (mt equal_iff.1 h.ne')
      rw [if_neg (mt cmp_iff.1 h.asymm), hn, he]
      refine ⟨_, rfl, ?_, ?_, ?_, ?_⟩
      · refine List.pairwise_cons.2 ⟨?_, hs⟩
        intro m hm
        rcases List.mem_cons.1 hm with rfl | hm
        · exact h
        · exact h.trans (List.rel_of_pairwise_cons hs hm)
      · exact fun m hm => (List.mem_cons.1 hm).elim (fun e => e ▸ rfl) (hu m)
      · intro x
        simp only [List.mem_cons, exists_eq_or_imp]
        exact or_congr_left eq_comm
      · intro x
        rw [lookup_cons]
        by_cases hx : key k = x
        · rw [if_pos hx, if_pos hx.symm]
        · rw [if_neg hx, if_neg (Ne.symm hx)]

/-! ## Lists with a sentinel -/

theorem Sane.get_eq (h : Sane key top l) (hk : key k ≤ top) : get key k l = .ok (lookup key (key k) l) := by
  obtain ⟨n, hn, htop⟩ := h.top_mem
  exact LazyList.get_eq h.sorted h.unmarked ⟨n, hn, htop ▸ hk⟩

theorem Sane.add_eq (h : Sane key top l) (hk : key k ≤ top) : ∃ l', add key k false l = .ok l' ∧ Sane key top l' ∧
    ∀ x, lookup key x l' = if x = key k then some k else lookup key x l := by
  obtain ⟨n, hn, htop⟩ := h.top_mem
  obtain ⟨l', hadd, ha⟩ := add_ok h.sorted h.unmarked ⟨n, hn, htop ▸ hk⟩
  refine ⟨l', hadd, ⟨ha.sorted, ha.unmarked, ?_, (ha.keys top).2 (.inr ⟨n, hn, htop⟩)⟩, ha.lookup_eq⟩
  intro m hm
  rcases (ha.keys _).1 ⟨m, hm, rfl⟩ with h' | ⟨p, hp, h'⟩
  · rw [h']; exact hk
  · rw [← h']; exact h.le_top p hp

theorem Sane.below (h : Sane key top l) (hk : top < key k) : ∀ n ∈ l, key n.entry_ < key k :=
  fun n hn => (h.le_top n hn).trans_lt hk

end Calls

end Libeva.Ds.LazyList
