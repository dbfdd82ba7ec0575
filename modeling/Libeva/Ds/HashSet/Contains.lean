import Libeva.Ds.HashSet.FiniteMap
import Mathlib.Data.Int.Order.Basic

/-!
# `contains` and `remove`

`contains( k )` looks at the entry of `head_` too, which is the default of its type: where this is not below `k` the
walk ends there, and the answer is whether `k` is the default. So it is right for the keys above the default, and
below it by coincidence only (`Ready.contains_iff`). `remove( k )` of a node that is there unlocks it after its
`delete`: where deleted nodes are freed it returns for an absent key only (`Ready.remove_iff`).
-/

namespace Libeva.Ds.LazyList

variable {ι α κ : Type*} [LinearOrder κ] {key : α → κ} {s : State ι α} {t : ι} {k : α}

/-- A node with the key of `k` is between `head_` and `tail_`. -/
def State.Holds (key : α → κ) (s : State ι α) (k : α) : Prop := ∃ n ∈ s.chain, s.keyOf key n = key k

instance [DecidableEq κ] (s : State ι α) (k : α) : Decidable (s.Holds key k) :=
  inferInstanceAs (Decidable (∃ n ∈ s.chain, s.keyOf key n = key k))

/-- `contains( k )` and `remove( k )` return the same, which is whether `k` is there; `R` are the calls that return,
with what they return. -/
def Agree (R : Call α → Result α → Prop) (holds : Prop) (k : α) : Prop :=
  ∃ b, R (.contains k) (.bool b) ∧ R (.update .remove k) (.bool b) ∧ (b = true ↔ holds)

/-- When they do, and what each of them does: `contains` is right above the default and there where `k` is there if and
only if it is the default; `remove` returns when there is nothing to remove. -/
structure AgreeExactly [Inhabited α] (key : α → κ) (R : Call α → Result α → Prop) (holds : Prop) (k : α) : Prop where
  agree : Agree R holds k ↔ ¬holds ∧ key k ≠ key default
  contains : (∃ b, R (.contains k) (.bool b) ∧ (b = true ↔ holds)) ↔
    key default < key k ∨ (holds ↔ key k = key default)
  remove : ∀ r, R (.update .remove k) r ↔ ¬holds ∧ r = .bool false

variable [DecidableEq ι]

/-- The call returns `r` with enough fuel, where deleted nodes are freed. -/
def State.Returns (key : α → κ) (s : State ι α) (t : ι) (c : Call α) (r : Result α) : Prop :=
  ∃ n s', ∀ fuel, n ≤ fuel → s.call key .freed t fuel c = some (r, s')

theorem Returned.returns {s' : State ι α} {c : Call α} {r : Result α} {f : κ → Option α}
    (h : Returned key .freed s t c r f s') : s.Returns key t c r :=
  have ⟨n, hn⟩ := h.call
  ⟨n, s', hn⟩

theorem State.Returns.unique {c : Call α} {r r' : Result α} (h : s.Returns key t c r) (h' : s.Returns key t c r') :
    r = r' := by
  obtain ⟨n, u, hn⟩ := h
  obtain ⟨m, v, hm⟩ := h'
  have heq := (hn (max n m) (Nat.le_max_left ..)).symm.trans (hm (max n m) (Nat.le_max_right ..))
  cases heq
  rfl

variable [Inhabited α] {maxVal : α}

omit [DecidableEq ι] in
theorem Ready.holds_iff (h : Ready key maxVal s) : (s.abs key (key k)).isSome = true ↔ s.Holds key k :=
  h.rest.abs_isSome h.inv

/-- `contains` returns whether `k` is there exactly when the default is below `k`, or `k` is there if and only if it
is the default. -/
theorem Ready.contains_iff (h : Ready key maxVal s) (hk : key k < key maxVal) (t : ι) :
    (∃ b, s.Returns key t (.contains k) (.bool b) ∧ (b = true ↔ s.Holds key k)) ↔
      key default < key k ∨ (s.Holds key k ↔ key k = key default) := by
  obtain ⟨_, hret⟩ := contains_alone (m := .freed) h.inv h.heap h.rest (k := k) (by rw [h.tail]; exact hk) t
  have hanswer : (s.containsAnswer key k = true ↔ s.Holds key k) ↔
      key default < key k ∨ (s.Holds key k ↔ key k = key default) := by
    rw [State.containsAnswer, h.head]
    split
    · rename_i hlt
      exact iff_of_true h.holds_iff (.inl hlt)
    · rename_i hlt
      rw [or_iff_right hlt, decide_eq_true_iff]
      exact iff_comm
  rw [← hanswer]
  constructor
  · rintro ⟨b, hb, hiff⟩
    rwa [Result.bool.inj (hret.returns.unique hb)]
  · exact fun hiff => ⟨_, hret.returns, hiff⟩

/-- `remove` returns exactly when `k` is not there, and then `false`. -/
theorem Ready.remove_iff (h : Ready key maxVal s) (hk : key k < key maxVal) (t : ι) (r : Result α) :
    s.Returns key t (.update .remove k) r ↔ ¬s.Holds key k ∧ r = .bool false := by
  have hlt : key k < s.keyOf key tail_ := by rw [h.tail]; exact hk
  by_cases hold : s.Holds key k
  · refine iff_of_false ?_ fun hr => hr.1 hold
    rintro ⟨n, s', hn⟩
    have habs := Option.isSome_iff_ne_none.1 (h.holds_iff.2 hold)
    have hnone := remove_stuck h.inv h.heap h.rest hlt habs t n
    rw [hn n (Nat.le_refl n)] at hnone
    cases hnone
  · have habs : s.abs key (key k) = none := Option.not_isSome_iff_eq_none.1 fun hs => hold (h.holds_iff.1 hs)
    obtain ⟨_, hret⟩ := update_alone (m := .freed) h.inv h.heap h.rest hlt t .remove (.inr habs)
    rw [Upd.apply, habs] at hret
    constructor
    · exact fun hr => ⟨hold, hr.unique hret.returns⟩
    · rintro ⟨-, rfl⟩
      exact hret.returns

/-- A list at rest: the calls agree when `k` is neither there nor the default. -/
theorem Ready.agreeExactly (h : Ready key maxVal s) (hk : key k < key maxVal) (t : ι) :
    AgreeExactly key (s.Returns key t) (s.Holds key k) k := by
  have hcontains := h.contains_iff hk t
  refine ⟨⟨?_, ?_⟩, hcontains, h.remove_iff hk t⟩
  · rintro ⟨b, hc, hr, hb⟩
    obtain ⟨hold, -⟩ := (h.remove_iff hk t _).1 hr
    refine ⟨hold, fun heq => ?_⟩
    rcases hcontains.1 ⟨b, hc, hb⟩ with hlt | hiff
    · exact absurd hlt (by rw [heq]; exact lt_irrefl _)
    · exact hold (hiff.2 heq)
  · rintro ⟨hold, hne⟩
    obtain ⟨b, hc, hb⟩ := hcontains.2 (.inr (iff_of_false hold hne))
    obtain rfl : b = false := Bool.eq_false_iff.2 fun hb' => hold (hb.1 hb')
    exact ⟨false, hc, (h.remove_iff hk t _).2 ⟨hold, rfl⟩, hb⟩

end Libeva.Ds.LazyList

namespace Libeva.Ds.HashSet

open LazyList (State Call Result Ready Agree AgreeExactly threads)

variable {ι α κ : Type*} [LinearOrder κ] [DecidableEq ι] {Len : ℕ} {key : α → κ} {hash : α → ℕ} {s : Table ι α} {t : ι}
  {k : α}

/-- A call of a `HashSet` and what it returns. -/
def Table.Gives (Len : ℕ) (key : α → κ) (hash : α → ℕ) (s : Table ι α) (t : ι) (c : Call α) (r : Result α) : Prop :=
  ∃ s', s.Returns Len key hash .freed t c r s'

/-- A call of the set returns what the call of the bucket does. -/
theorem Table.gives_iff {c : Call α} {r : Result α} :
    s.Gives Len key hash t c r ↔ (s.buckets_ (hash c.arg % Len)).Returns key t c r := by
  constructor
  · rintro ⟨s', n, hn⟩
    refine ⟨n, s'.buckets_ (hash c.arg % Len), fun fuel hf => ?_⟩
    obtain ⟨x, hx, hs⟩ := Option.map_eq_some_iff.1 (hn fuel hf)
    cases hs
    dsimp only
    rw [hx, Function.update_self]
  · rintro ⟨n, b, hn⟩
    refine ⟨⟨Function.update s.buckets_ (hash c.arg % Len) b⟩, n, fun fuel hf => ?_⟩
    rw [Table.call, hn fuel hf]
    rfl

variable [Inhabited α] {max_key : α}

/-- **`contains` and `remove`.** In every list that an interleaving of calls leaves, and in every set that a sequence of
calls leaves, they agree on `k` exactly when `k` is not there and is not the default either. -/
theorem contains_agrees_iff (key : α → κ) (max_key : α) :
    (∀ s : State ι α, Lts.Reach (threads key max_key) s → s.AtRest → ∀ t k, key k < key max_key →
      AgreeExactly key (s.Returns key t) (s.Holds key k) k) ∧
    ∀ Len (hash : α → ℕ), (∀ a b, key a = key b → hash a = hash b) →
      ∀ (s : Table ι α) cs, Lts.Reach (calls Len key hash max_key) (s, cs) → ∀ t k, key k < key max_key →
        AgreeExactly key (s.Gives Len key hash t) ((s.buckets_ (hash k % Len)).Holds key k) k := by
  refine ⟨fun s hs hr t k hk => (Ready.of_reach hs hr).agreeExactly hk t, fun Len hash hhash s cs hs t k hk => ?_⟩
  obtain ⟨hagree, hcontains, hremove⟩ := (reach_bucket hhash hs (hash k % Len)).ready.agreeExactly hk t
  constructor <;> simp only [Agree, Table.gives_iff]
  · exact hagree
  · exact hcontains
  · exact hremove

/-- `4`, `0` and `-2` are added to a list of integers. -/
def entries : State Unit ℤ := (Lts.exec (LazyList.step id) (State.init 9)
  ([4, 0, -2].flatMap fun k => .invoke () (.update .add k) :: List.replicate 14 (.tick ()))).get (by decide +kernel)

theorem reach_entries : Lts.Reach (threads id 9) entries := .exec (.init rfl) (Option.some_get _).symm

/-- They are added to a set. -/
def entrySet : Table Unit ℤ × List (Call ℤ) := (Lts.exec (step 4 id Int.natAbs 9) (Table.build 9, [])
  ([4, 0, -2].map fun k => ((), 20, .update .add k))).get (by decide +kernel)

theorem reach_entrySet : Lts.Reach (calls 4 id Int.natAbs 9) entrySet := .exec (.init rfl) (Option.some_get _).symm

theorem contains_agrees_iff_entries :
    (∀ k ∈ [1, -1], Agree (entries.Returns id ()) (entries.Holds id k) k) ∧
    (∀ k ∈ [4, 0, -2], ¬Agree (entries.Returns id ()) (entries.Holds id k) k) ∧
    (∀ k ∈ [1, -1], Agree (entrySet.1.Gives 4 id Int.natAbs ()) ((entrySet.1.buckets_ (k.natAbs % 4)).Holds id k) k) ∧
    ∀ k ∈ [4, 0, -2],
      ¬Agree (entrySet.1.Gives 4 id Int.natAbs ()) ((entrySet.1.buckets_ (k.natAbs % 4)).Holds id k) k := by
  have hlist : ∀ k < 9, AgreeExactly id (entries.Returns id ()) (entries.Holds id k) k := fun k hk =>
    (contains_agrees_iff id 9).1 entries reach_entries (fun ⟨⟩ => by decide +kernel) () k hk
  have hset : ∀ k < 9, AgreeExactly id (entrySet.1.Gives 4 id Int.natAbs ())
      ((entrySet.1.buckets_ (k.natAbs % 4)).Holds id k) k := fun k hk =>
    (contains_agrees_iff id 9).2 4 Int.natAbs (fun _ _ h => congrArg Int.natAbs h) entrySet.1 entrySet.2
      reach_entrySet () k hk
  refine ⟨fun k hk => (hlist k ?_).agree.2 ?_, fun k hk h => ((hlist k ?_).agree.1 h).1 ?_,
    fun k hk => (hset k ?_).agree.2 ?_, fun k hk h => ((hset k ?_).agree.1 h).1 ?_⟩
  all_goals clear hlist hset; try clear h
  all_goals revert k; decide +kernel

/-- A new list of integers. -/
def noEntry : State Unit ℤ := State.init 9

/-- `contains( 0 )` is `true`, and `remove( 0 )` is `false`. -/
theorem not_agrees_noEntry : (noEntry.call id .freed () 9 (.contains 0)).map Prod.fst = some (.bool true) ∧
    (noEntry.call id .freed () 20 (.update .remove 0)).map Prod.fst = some (.bool false) ∧
    ¬Agree (noEntry.Returns id ()) (noEntry.Holds id 0) 0 := by
  have hready : Ready (id : ℤ → ℤ) 9 noEntry := LazyList.ready_init id 9
  exact ⟨by decide, by decide, fun h => ((hready.agreeExactly (by decide) ()).agree.1 h).2 rfl⟩

end Libeva.Ds.HashSet
