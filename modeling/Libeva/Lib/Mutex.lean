import Mathlib.Data.Option.Basic

/-!
# A mutex and its critical sections

`inside` says which threads are in a critical section, `owner` is the thread that has the mutex. `Owned inside owner`
says that they agree; a thread that takes the mutex, gives it back, or moves inside or outside of its critical section
keeps it.
-/

namespace Mutex

variable {ι : Type*} {inside inside' : ι → Bool} {owner : Option ι} {t u : ι}

/-- The thread inside of a critical section is the owner. -/
def Owned (inside : ι → Bool) (owner : Option ι) : Prop := ∀ t, inside t = true ↔ owner = some t

/-- Mutual exclusion. -/
theorem Owned.unique (h : Owned inside owner) (ht : inside t = true) (hu : inside u = true) : t = u :=
  Option.some.inj (((h t).1 ht).symm.trans ((h u).1 hu))

theorem Owned.outside (h : Owned inside none) (t : ι) : inside t = false := by
  rw [← Bool.not_eq_true, h t]
  exact (Option.some_ne_none t).symm

/-- A step of `t` on one side of its lock operations. -/
theorem Owned.keep (h : Owned inside owner) (ht : inside' t = inside t) (hu : ∀ u, u ≠ t → inside' u = inside u) :
    Owned inside' owner := by
  intro u
  by_cases hut : u = t
  · rw [hut, ht, h t]
  · rw [hu u hut, h u]

theorem Owned.acquire (h : Owned inside none) (ht : inside' t = true) (hu : ∀ u, u ≠ t → inside' u = inside u) :
    Owned inside' (some t) := by
  intro u
  by_cases hut : u = t
  · rw [hut, ht]
    exact iff_of_true rfl rfl
  · rw [hu u hut, h.outside u]
    exact iff_of_false Bool.false_ne_true fun he => hut (Option.some.inj he).symm

theorem Owned.release (h : Owned inside owner) (hin : inside t = true) (ht : inside' t = false)
    (hu : ∀ u, u ≠ t → inside' u = inside u) : Owned inside' none := by
  intro u
  refine iff_of_false ?_ (Option.some_ne_none u).symm
  by_cases hut : u = t
  · rw [hut, ht]
    exact Bool.false_ne_true
  · rw [hu u hut]
    exact fun hi => hut (h.unique hi hin)

end Mutex
