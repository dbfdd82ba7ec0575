import Libeva.Ds.LazyList.Sequential

/-!
# `HashSet` in one thread

A fixed number `Len` of `LazyList` buckets, all with the same sentinel. A call goes to the bucket of the hash of its
argument (`bucket`), and to no other.
-/

namespace Libeva.Ds

/-- `buckets_`, of which the first `Len` are used. -/
structure HashSet (α : Type*) where
  buckets_ : ℕ → List (LazyList.Cell α)

namespace HashSet

variable {α κ : Type*}

/-- `HashSet( max_key )`. -/
def build (max_key : α) : HashSet α := ⟨fun _ => LazyList.build max_key⟩

variable [LinearOrder κ] (Len : ℕ) (cmpKey : α → κ) (hash : α → ℕ)

def add (s : HashSet α) (key : α) : Except Fault (HashSet α) := do
  let idx := hash key % Len
  let l ← LazyList.add cmpKey key false (s.buckets_ idx)
  return ⟨fun i => if i = idx then l else s.buckets_ i⟩

def get (s : HashSet α) (key : α) : Except Fault (Option α) := LazyList.get cmpKey key (s.buckets_ (hash key % Len))

/-- The bucket of a hash. -/
def bucket (s : HashSet α) (h : ℕ) : List (LazyList.Cell α) := s.buckets_ (h % Len)

variable {Len cmpKey} {top : κ} {s : HashSet α} {key : α}

theorem get_eq (h : LazyList.Sane cmpKey top (bucket Len s (hash key))) (hk : cmpKey key ≤ top) :
    get Len cmpKey hash s key = .ok (LazyList.lookup cmpKey (cmpKey key) (bucket Len s (hash key))) := h.get_eq hk

theorem get_above (h : LazyList.Sane cmpKey top (bucket Len s (hash key))) (hk : top < cmpKey key) :
    get Len cmpKey hash s key = .error .nullDeref := LazyList.get_above (h.below hk)

theorem add_above (h : LazyList.Sane cmpKey top (bucket Len s (hash key))) (hk : top < cmpKey key) :
    add Len cmpKey hash s key = .error .nullDeref := by
  unfold add
  dsimp only
  rw [show LazyList.add cmpKey key false (s.buckets_ (hash key % Len)) = _ from LazyList.add_above (h.below hk)]
  rfl

theorem add_eq (h : LazyList.Sane cmpKey top (bucket Len s (hash key))) (hk : cmpKey key ≤ top) :
    ∃ s' l, add Len cmpKey hash s key = .ok s' ∧ LazyList.Sane cmpKey top l ∧
      (∀ x, LazyList.lookup cmpKey x l =
        if x = cmpKey key then some key else LazyList.lookup cmpKey x (bucket Len s (hash key))) ∧
      ∀ g, bucket Len s' g = if g % Len = hash key % Len then l else bucket Len s g := by
  obtain ⟨l, hadd, hl, hlook⟩ := h.add_eq hk
  unfold add
  dsimp only
  rw [show LazyList.add cmpKey key false (s.buckets_ (hash key % Len)) = _ from hadd]
  exact ⟨_, l, rfl, hl, hlook, fun g => rfl⟩

end HashSet

end Libeva.Ds
