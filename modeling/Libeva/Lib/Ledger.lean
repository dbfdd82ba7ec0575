import Mathlib.Data.List.Nodup
import Mathlib.Data.List.Perm.Basic

/-!
# Items that are kept in places

Each place `p` holds the items `f p`. `Ledger f S` says that the items of `S` are in one place each, once, and that
there are no others. A new item is put into a place (`Ledger.put`), and an item moves from one place to another
(`Ledger.move`), whatever the order of the items in a place.
-/

variable {P α : Type*}

structure Ledger (f : P → List α) (S : α → Prop) : Prop where
  nodup : ∀ p, (f p).Nodup
  disjoint : ∀ p q a, a ∈ f p → a ∈ f q → p = q
  mem : ∀ a, S a ↔ ∃ p, a ∈ f p

namespace Ledger

variable {f g : P → List α} {S T : α → Prop} {a : α} {p q : P}

theorem empty (hS : ∀ a, ¬S a) (hf : ∀ p, f p = []) : Ledger f S where
  nodup p := by rw [hf p]; exact List.nodup_nil
  disjoint p q a h := by rw [hf p] at h; cases h
  mem a := ⟨fun h => (hS a h).elim, fun ⟨p, h⟩ => by rw [hf p] at h; cases h⟩

/-- A new item goes into place `p`. -/
theorem put (h : Ledger f S) (ha : ¬S a) (hp : (g p).Perm (a :: f p)) (ho : ∀ q, q ≠ p → g q = f q)
    (hT : ∀ x, T x ↔ x = a ∨ S x) : Ledger g T := by
  have hnew : ∀ q, a ∉ f q := fun q hm => ha ((h.mem a).2 ⟨q, hm⟩)
  have hg : ∀ q x, x ∈ g q ↔ (q = p ∧ x = a) ∨ x ∈ f q := by
    intro q x
    by_cases hq : q = p
    · subst hq
      rw [hp.mem_iff, List.mem_cons]
      simp
    · rw [ho q hq]
      simp [hq]
  refine ⟨fun q => ?_, fun q r x hq hr => ?_, fun x => ?_⟩
  · by_cases hq : q = p
    · subst hq
      exact hp.nodup_iff.2 (List.nodup_cons.2 ⟨hnew q, h.nodup q⟩)
    · rw [ho q hq]
      exact h.nodup q
  · rcases (hg q x).1 hq with ⟨rfl, rfl⟩ | hq <;> rcases (hg r _).1 hr with ⟨rfl, hx⟩ | hr
    · rfl
    · exact absurd hr (hnew r)
    · exact absurd (hx ▸ hq) (hnew q)
    · exact h.disjoint q r x hq hr
  · rw [hT, h.mem]
    constructor
    · rintro (rfl | ⟨q, hq⟩)
      · exact ⟨p, (hg p x).2 (.inl ⟨rfl, rfl⟩)⟩
      · exact ⟨q, (hg q x).2 (.inr hq)⟩
    · rintro ⟨q, hq⟩
      exact ((hg q x).1 hq).imp And.right fun hq => ⟨q, hq⟩

/-- An item moves from place `p` to place `q`. -/
theorem move (h : Ledger f S) (hpq : p ≠ q) (hp : (f p).Perm (a :: g p)) (hq : (g q).Perm (a :: f q))
    (ho : ∀ r, r ≠ p → r ≠ q → g r = f r) : Ledger g S := by
  have hap : a ∈ f p := hp.mem_iff.2 List.mem_cons_self
  have hd := List.nodup_cons.1 (hp.nodup_iff.1 (h.nodup p))
  have hother : ∀ r, r ≠ p → a ∉ f r := fun r hr hm => hr (h.disjoint r p a hm hap)
  have hg : ∀ r x, x ∈ g r ↔ (r = q ∧ x = a) ∨ (x ∈ f r ∧ x ≠ a) := by
    intro r x
    by_cases hrp : r = p
    · subst hrp
      rw [hp.mem_iff, List.mem_cons]
      have hne : x ∈ g r → x ≠ a := fun hx e => hd.1 (e ▸ hx)
      grind
    · by_cases hrq : r = q
      · subst hrq
        rw [hq.mem_iff, List.mem_cons]
        have hne : x ∈ f r → x ≠ a := fun hx e => hother r hrp (e ▸ hx)
        grind
      · rw [ho r hrp hrq]
        have hne : x ∈ f r → x ≠ a := fun hx e => hother r hrp (e ▸ hx)
        grind
  refine ⟨fun r => ?_, fun r t x hr ht => ?_, fun x => ?_⟩
  · by_cases hrp : r = p
    · exact hrp ▸ hd.2
    · by_cases hrq : r = q
      · subst hrq
        exact hq.nodup_iff.2 (List.nodup_cons.2 ⟨hother r hrp, h.nodup r⟩)
      · rw [ho r hrp hrq]
        exact h.nodup r
  · rcases (hg r x).1 hr with ⟨rfl, rfl⟩ | ⟨hr, hne⟩ <;> rcases (hg t _).1 ht with ⟨rfl, hx⟩ | ⟨ht, hne'⟩
    · rfl
    · exact absurd rfl hne'
    · exact absurd hx hne
    · exact h.disjoint r t x hr ht
  · rw [h.mem]
    constructor
    · rintro ⟨r, hr⟩
      by_cases hx : x = a
      · exact ⟨q, (hg q x).2 (.inl ⟨rfl, hx⟩)⟩
      · exact ⟨r, (hg r x).2 (.inr ⟨hr, hx⟩)⟩
    · rintro ⟨r, hr⟩
      rcases (hg r x).1 hr with ⟨-, rfl⟩ | ⟨hr, -⟩
      · exact ⟨p, hap⟩
      · exact ⟨r, hr⟩

/-- An item is in one place, once. -/
theorem once [DecidableEq α] (h : Ledger f S) (ha : S a) : ∃ p, (f p).count a = 1 ∧ ∀ q, q ≠ p → a ∉ f q := by
  obtain ⟨p, hp⟩ := (h.mem a).1 ha
  exact ⟨p, List.count_eq_one_of_mem (h.nodup p) hp, fun q hq hm => hq (h.disjoint q p a hm hp)⟩

end Ledger
