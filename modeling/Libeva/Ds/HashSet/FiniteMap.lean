import Libeva.Ds.LazyList.Alone

/-!
# `HashSet` as a finite map

The buckets are lists in memory, as `LazyList` builds them from nodes and pointers, and a call is the call of one
bucket, which runs alone (`LazyList.State.call`). `lastAdded` reads the map off the calls so far, the newest first.

* `Bucket`: what a bucket is between calls: at rest, with the entries that hash to it.
* `finite_map`: where deleted nodes are kept, every call returns what the map says, and a traversal of a bucket visits
  its entries in order.
* `finite_map_iff`: where they are freed, this holds of the sequences of calls that remove nothing they have added; any
  other one comes to a `remove` that unlocks the node it has deleted.
-/

namespace Libeva.Ds.HashSet

open LazyList (Call Result Upd Memory Ready Returned)

variable {ι α κ : Type*} [LinearOrder κ]

/-- `buckets_`, each a list in memory; the first `Len` are used. -/
structure Table (ι α : Type*) where
  buckets_ : ℕ → LazyList.State ι α

/-- `HashSet( max_key )`. -/
def Table.build [Inhabited α] (max_key : α) : Table ι α := ⟨fun _ => LazyList.State.init max_key⟩

section Program

variable [DecidableEq ι] (Len : ℕ) (key : α → κ) (hash : α → ℕ)

/-- `remove`, `add`, `contains` and `get` by thread `t`: the call of the bucket of the argument's hash. -/
def Table.call (m : Memory) (t : ι) (fuel : ℕ) (s : Table ι α) (c : Call α) : Option (Result α × Table ι α) :=
  let idx := hash c.arg % Len
  ((s.buckets_ idx).call key m t fuel c).map fun x => (x.1, ⟨Function.update s.buckets_ idx x.2⟩)

/-- The call returns `r`, in state `s'`, with enough fuel. -/
def Table.Returns (m : Memory) (s : Table ι α) (t : ι) (c : Call α) (r : Result α) (s' : Table ι α) : Prop :=
  ∃ n, ∀ fuel, n ≤ fuel → s.call Len key hash m t fuel c = some (r, s')

/-- A call with an argument below `max_key`, where deleted nodes are kept; with each state the calls so far, the newest
first. -/
def step (max_key : α) (s : Table ι α × List (Call α)) (a : ι × ℕ × Call α) : Option (Table ι α × List (Call α)) :=
  if key a.2.2.arg < key max_key then
    (s.1.call Len key hash .retained a.1 a.2.1 a.2.2).map fun x => (x.2, a.2.2 :: s.2)
  else none

/-- Calls one after the other. -/
def calls [Inhabited α] (max_key : α) : Lts.System (Table ι α × List (Call α)) (ι × ℕ × Call α) :=
  Lts.ofFun (Table.build max_key, []) (step Len key hash max_key)

end Program

/-- The last entry with the key `x` that has been added and not removed since. -/
def lastAdded (key : α → κ) (x : κ) : List (Call α) → Option α
  | [] => none
  | .update .add k :: cs => if key k = x then some k else lastAdded key x cs
  | .update .remove k :: cs => if key k = x then none else lastAdded key x cs
  | .get _ :: cs | .contains _ :: cs => lastAdded key x cs

/-- What the map says about a call, after the calls `cs`. -/
def Answer (key : α → κ) (cs : List (Call α)) : Call α → Result α → Prop
  | .update .add _, r => r = .bool true
  | .update .remove k, r => r = .bool (lastAdded key (key k) cs).isSome
  | .get k, r => r = .entry (lastAdded key (key k) cs)
  | .contains _, _ => True

/-- A traversal of a bucket visits the entries of the map that hash to it, in order. -/
def Table.Visits (Len : ℕ) (key : α → κ) (hash : α → ℕ) (s : Table ι α) (cs : List (Call α)) : Prop :=
  ∀ i < Len, ∃ es, (s.buckets_ i).traversal = some es ∧ es.Pairwise (key · < key ·) ∧
    ∀ e, e ∈ es ↔ lastAdded key (key e) cs = some e ∧ hash e % Len = i

/-- The next call returns what the map says, and the buckets hold its entries. -/
structure Table.Refines [DecidableEq ι] (Len : ℕ) (key : α → κ) (hash : α → ℕ) (max_key : α) (s : Table ι α)
    (cs : List (Call α)) : Prop where
  call : ∀ t (c : Call α), key c.arg < key max_key →
    ∃ r s', s.Returns Len key hash .retained t c r s' ∧ Answer key cs c r
  visits : s.Visits Len key hash cs

/-- Every call of a sequence returns what the map says after the calls `past`, and leaves its entries in the buckets,
where deleted nodes are freed. -/
def Table.Follows [DecidableEq ι] (Len : ℕ) (key : α → κ) (hash : α → ℕ) (s : Table ι α) (past : List (Call α)) :
    List (ι × Call α) → Prop
  | [] => True
  | (t, c) :: cs => ∃ r s', s.Returns Len key hash .freed t c r s' ∧ Answer key past c r ∧
      s'.Visits Len key hash (c :: past) ∧ s'.Follows Len key hash (c :: past) cs

/-- The second call removes a key that the first one has added. -/
def Undoes (key : α → κ) : Call α → Call α → Prop
  | .update .add k, .update .remove k' => key k = key k'
  | _, _ => False

instance (key : α → κ) : DecidableRel (Undoes key)
  | .update .add _, .update .remove _ => inferInstanceAs (Decidable (_ = _))
  | .update .remove _, _ | .get _, _ | .contains _, _ | .update .add _, .update .add _ | .update .add _, .get _
  | .update .add _, .contains _ => inferInstanceAs (Decidable False)

/-! ## The buckets -/

variable {Len : ℕ} {key : α → κ} {hash : α → ℕ} {max_key : α} {m : Memory} {s s' : Table ι α} {cs : List (Call α)}
  {k : α} {i : ℕ}

theorem lastAdded_cons (x : κ) (c : Call α) (cs : List (Call α)) :
    lastAdded key x (c :: cs) = c.after key (fun x => lastAdded key x cs) x := by
  cases c with
  | update o k => cases o <;> simp only [lastAdded, Call.after, Upd.apply, Function.update_apply, eq_comm]
  | get k => rfl
  | contains k => rfl

/-- A call only changes the map at its own key. -/
theorem after_of_ne {f : κ → Option α} {c : Call α} {x : κ} (hx : x ≠ key c.arg) : c.after key f x = f x := by
  cases c with
  | update o k => cases o <;> exact Function.update_of_ne hx _ _
  | get k => rfl
  | contains k => rfl

/-- What a call leaves at its own key depends on what is there. -/
theorem after_congr {f g : κ → Option α} {c : Call α} (h : f (key c.arg) = g (key c.arg)) :
    c.after key f (key c.arg) = c.after key g (key c.arg) := by
  cases c with
  | update o k => cases o <;> simp only [Call.after, Upd.apply, Call.arg, Function.update_self]
  | get k => exact h
  | contains k => exact h

/-- A call to a bucket that runs alone there. -/
theorem Table.Returns.of_bucket [DecidableEq ι] {t : ι} {c : Call α} {r : Result α} {f : κ → Option α}
    {b : LazyList.State ι α} (h : Returned key m (s.buckets_ (hash c.arg % Len)) t c r f b) :
    s.Returns Len key hash m t c r ⟨Function.update s.buckets_ (hash c.arg % Len) b⟩ := by
  obtain ⟨n, hn⟩ := h.call
  refine ⟨n, fun fuel hf => ?_⟩
  rw [Table.call, hn fuel hf]
  rfl

variable [Inhabited α]

/-- Bucket `i` between calls: it stands for the entries of the map that hash to it. -/
structure Bucket (Len : ℕ) (key : α → κ) (hash : α → ℕ) (max_key : α) (s : Table ι α) (cs : List (Call α)) (i : ℕ) :
    Prop where
  ready : Ready key max_key (s.buckets_ i)
  abs : ∀ e, (s.buckets_ i).abs key (key e) = if hash e % Len = i then lastAdded key (key e) cs else none

theorem bucket_build (max_key : α) (i : ℕ) : Bucket Len key hash max_key (Table.build max_key : Table ι α) [] i where
  ready := LazyList.ready_init key max_key
  abs e := by
    have hnone : (LazyList.State.init max_key : LazyList.State ι α).abs key (key e) = none := rfl
    rw [Table.build, hnone]
    split <;> rfl

theorem Bucket.traversal (h : Bucket Len key hash max_key s cs i) : ∃ es, (s.buckets_ i).traversal = some es ∧
    es.Pairwise (key · < key ·) ∧ ∀ e, e ∈ es ↔ lastAdded key (key e) cs = some e ∧ hash e % Len = i := by
  refine ⟨_, h.ready.inv.traversal_eq h.ready.heap, ?_, fun e => ?_⟩
  · rw [List.pairwise_map]
    exact h.ready.inv.shape.sorted
  · have habs := h.ready.rest.abs_eq_some h.ready.inv (x := key e) (e := e)
    rw [h.abs] at habs
    rw [List.mem_map]
    constructor
    · rintro ⟨n, hn, he⟩
      have hif := habs.2 ⟨n, hn, congrArg key he, he⟩
      split at hif
      · rename_i hi
        exact ⟨hif, hi⟩
      · cases hif
    · rintro ⟨hlast, hi⟩
      obtain ⟨n, hn, -, he⟩ := habs.1 (by rw [if_pos hi, hlast])
      exact ⟨n, hn, he⟩

/-- The bucket of a call, after it. -/
theorem Bucket.after {c : Call α} (hhash : ∀ a b, key a = key b → hash a = hash b)
    (h : Bucket Len key hash max_key s cs (hash c.arg % Len)) (e : α) :
    c.after key ((s.buckets_ (hash c.arg % Len)).abs key) (key e) =
      if hash e % Len = hash c.arg % Len then lastAdded key (key e) (c :: cs) else none := by
  rw [lastAdded_cons]
  by_cases he : key e = key c.arg
  · rw [if_pos (by rw [hhash e c.arg he]), he]
    refine after_congr ?_
    rw [h.abs, if_pos rfl]
  · rw [after_of_ne he, after_of_ne he, h.abs]

/-- Another bucket than that of the call. -/
theorem Bucket.other {c : Call α} (hhash : ∀ a b, key a = key b → hash a = hash b)
    (h : Bucket Len key hash max_key s cs i) (hi : i ≠ hash c.arg % Len) (e : α) :
    (s.buckets_ i).abs key (key e) = if hash e % Len = i then lastAdded key (key e) (c :: cs) else none := by
  rw [h.abs, lastAdded_cons]
  split
  · rename_i he
    have hne : key e ≠ key c.arg := fun hk => hi (by rw [← he, hhash e c.arg hk])
    exact (after_of_ne (f := fun x => lastAdded key x cs) hne).symm
  · rfl

section Calls

variable [DecidableEq ι] {t : ι} {c : Call α} {r : Result α}

omit [DecidableEq ι] in
/-- What a bucket returns is what the map says. -/
theorem Bucket.answer (h : Bucket Len key hash max_key s cs (hash c.arg % Len)) :
    Answer key cs c ((s.buckets_ (hash c.arg % Len)).answer key c) := by
  have hmap : (s.buckets_ (hash c.arg % Len)).abs key (key c.arg) = lastAdded key (key c.arg) cs := by
    rw [h.abs, if_pos rfl]
  cases c with
  | update o k =>
    cases o with
    | add => rfl
    | remove => exact congrArg (fun e => Result.bool e.isSome) hmap
  | get k => exact congrArg Result.entry hmap
  | contains k => trivial

/-- A call returns what the map says, and leaves all buckets as they are to be. -/
theorem bucket_step (hhash : ∀ a b, key a = key b → hash a = hash b) (h : ∀ i, Bucket Len key hash max_key s cs i)
    (hc : key c.arg < key max_key) (t : ι)
    (hm : m = .retained ∨ ∀ k, c = .update .remove k → lastAdded key (key k) cs = none) :
    ∃ r s', s.Returns Len key hash m t c r s' ∧ Answer key cs c r ∧
      ∀ i, Bucket Len key hash max_key s' (c :: cs) i := by
  have hb := h (hash c.arg % Len)
  obtain ⟨b, hret⟩ := LazyList.call_alone (m := m) hb.ready.inv hb.ready.heap hb.ready.rest (c := c)
    (by rw [hb.ready.tail]; exact hc) t (hm.imp id fun hm k hk => by
      subst hk
      exact (hb.abs k).trans ((if_pos rfl).trans (hm k rfl)))
  refine ⟨_, _, .of_bucket hret, hb.answer, fun i => ?_⟩
  by_cases hi : i = hash c.arg % Len
  · subst hi
    refine ⟨?_, fun e => ?_⟩
    · dsimp only
      rw [Function.update_self]
      exact hret.ready hb.ready
    · dsimp only
      rw [Function.update_self, hret.abs]
      exact hb.after hhash e
  · refine ⟨?_, fun e => ?_⟩
    · dsimp only
      rw [Function.update_of_ne hi]
      exact (h i).ready
    · dsimp only
      rw [Function.update_of_ne hi]
      exact (h i).other hhash hi e

omit [Inhabited α] in
/-- More fuel makes no other end of a call. -/
theorem Table.returns_of_call {fuel : ℕ} (h : s.call Len key hash m t fuel c = some (r, s')) :
    s.Returns Len key hash m t c r s' := by
  refine ⟨fuel, fun j hj => ?_⟩
  obtain ⟨x, hx, hs⟩ := Option.map_eq_some_iff.1 h
  rw [Table.call, LazyList.State.call_mono hx hj, ← hs]
  rfl

omit [Inhabited α] in
/-- A call comes to one end. -/
theorem Table.Returns.unique {r' : Result α} {u : Table ι α} (h : s.Returns Len key hash m t c r s')
    (h' : s.Returns Len key hash m t c r' u) : r' = r ∧ u = s' := by
  obtain ⟨i, hi⟩ := h
  obtain ⟨j, hj⟩ := h'
  have heq := (hj (max i j) (Nat.le_max_right ..)).symm.trans (hi (max i j) (Nat.le_max_left ..))
  cases heq
  exact ⟨rfl, rfl⟩

/-! ## Where deleted nodes are kept -/

theorem reach_bucket (hhash : ∀ a b, key a = key b → hash a = hash b)
    (h : Lts.Reach (calls (ι := ι) Len key hash max_key) (s, cs)) (i : ℕ) : Bucket Len key hash max_key s cs i := by
  refine h.invariant (I := fun x => ∀ i, Bucket Len key hash max_key x.1 x.2 i) ?_ ?_ i
  · rintro _ rfl i
    exact bucket_build max_key i
  · intro x a y _ hi hs i
    simp only [calls, Lts.ofFun, step] at hs
    split at hs
    · rename_i hc
      obtain ⟨z, hz, rfl⟩ := Option.map_eq_some_iff.1 hs
      obtain ⟨r, u, hret, -, hu⟩ := bucket_step hhash hi hc a.1 (.inl rfl)
      rw [(hret.unique (Table.returns_of_call hz)).2]
      exact hu i
    · cases hs

/-- Where deleted nodes are kept the set is a finite map: after every sequence of calls each call returns what the map
says, and the buckets hold its entries, in order. -/
theorem finite_map (hhash : ∀ a b, key a = key b → hash a = hash b)
    (h : Lts.Reach (calls (ι := ι) Len key hash max_key) (s, cs)) : s.Refines Len key hash max_key cs where
  call t c hc := by
    obtain ⟨r, s', hret, hans, -⟩ := bucket_step hhash (reach_bucket hhash h) hc t (.inl rfl)
    exact ⟨r, s', hret, hans⟩
  visits i _ := (reach_bucket hhash h i).traversal

/-! ## Where deleted nodes are freed -/

omit [DecidableEq ι] [Inhabited α] [LinearOrder κ] in
theorem undoes_iff {a b : Call α} :
    Undoes key a b ↔ ∃ k k', a = .update .add k ∧ b = .update .remove k' ∧ key k = key k' := by
  constructor
  · intro h
    unfold Undoes at h
    split at h
    · exact ⟨_, _, rfl, rfl, h⟩
    · exact h.elim
  · rintro ⟨k, k', rfl, rfl, h⟩
    exact h

omit [Inhabited α] in
/-- Calls that remove nothing they have added: the keys of the map are those that have been added. -/
theorem lastAdded_eq_none (h : cs.Pairwise fun b a => ¬Undoes key a b) {x : κ} :
    lastAdded key x cs = none ↔ ∀ k, .update .add k ∈ cs → key k ≠ x := by
  induction cs with
  | nil => exact iff_of_true rfl nofun
  | cons c cs ih =>
    obtain ⟨hc, h⟩ := List.pairwise_cons.1 h
    have ih := ih h
    cases c with
    | update o k =>
      cases o with
      | add =>
        rw [lastAdded]
        split
        · rename_i hk
          exact iff_of_false (Option.some_ne_none k) fun hall => hall k List.mem_cons_self hk
        · rename_i hk
          simp only [List.mem_cons, Call.update.injEq, true_and, forall_eq_or_imp, ih, ne_eq, hk, not_false_eq_true]
      | remove =>
        rw [lastAdded]
        split
        · rename_i hk
          refine iff_of_true rfl fun k' hk' hx => hc _ ((List.mem_cons.1 hk').resolve_left ?_) (hx.trans hk.symm)
          exact fun e => by cases e
        · simpa using ih
    | get k => simpa [lastAdded] using ih
    | contains k => simpa [lastAdded] using ih

/-- A `remove` of a key that is there does not return. -/
theorem remove_not_returns (h : ∀ i, Bucket Len key hash max_key s cs i) (hk : key k < key max_key)
    (hlast : lastAdded key (key k) cs ≠ none) :
    ¬s.Returns Len key hash .freed t (.update .remove k) r s' := by
  rintro ⟨n, hn⟩
  have hb := h (hash k % Len)
  have hnone := LazyList.remove_stuck hb.ready.inv hb.ready.heap hb.ready.rest (k := k)
    (by rw [hb.ready.tail]; exact hk) (by rw [hb.abs, if_pos rfl]; exact hlast) t n
  have hsome := hn n (Nat.le_refl n)
  rw [Table.call, show hash (Call.update Upd.remove k).arg = hash k from rfl, hnone] at hsome
  cases hsome

/-- A sequence of calls after the calls `cs`. -/
theorem follows_iff (hhash : ∀ a b, key a = key b → hash a = hash b) {as : List (ι × Call α)}
    (has : ∀ a ∈ as, key a.2.arg < key max_key) (h : ∀ i, Bucket Len key hash max_key s cs i)
    (hcs : cs.Pairwise fun b a => ¬Undoes key a b) :
    s.Follows Len key hash cs as ↔ (cs.reverse ++ as.map Prod.snd).Pairwise fun a b => ¬Undoes key a b := by
  induction as generalizing s cs with
  | nil => simpa [Table.Follows, List.pairwise_reverse] using hcs
  | cons a as ih =>
    obtain ⟨t, c⟩ := a
    obtain ⟨ha, has⟩ := List.forall_mem_cons.1 has
    by_cases hc : ∀ b ∈ cs, ¬Undoes key b c
    · have hnone : ∀ k, c = .update .remove k → lastAdded key (key k) cs = none := by
        rintro k rfl
        exact (lastAdded_eq_none hcs).2 fun k' hk' => hc _ hk'
      obtain ⟨r, s', hret, hans, hb⟩ := bucket_step hhash h ha t (.inr hnone)
      have ih := ih has hb (List.pairwise_cons.2 ⟨hc, hcs⟩)
      rw [List.reverse_cons, List.append_assoc] at ih
      refine Iff.trans ⟨?_, fun hf => ?_⟩ ih
      · rintro ⟨r', u, hret', -, -, hf⟩
        rwa [(hret.unique hret').2] at hf
      · exact ⟨r, s', hret, hans, fun i _ => (hb i).traversal, hf⟩
    · push Not at hc
      obtain ⟨b, hb, hund⟩ := hc
      obtain ⟨k, k', rfl, rfl, hk⟩ := undoes_iff.1 hund
      refine iff_of_false ?_ fun hp => ?_
      · rintro ⟨r, u, hret, -⟩
        exact remove_not_returns h ha (fun hnone => (lastAdded_eq_none hcs).1 hnone k hb hk) hret
      · exact (List.pairwise_append.1 hp).2.2 _ (List.mem_reverse.2 hb) _ List.mem_cons_self hund

/-- **A finite map, as long as nothing is removed.** A sequence of calls on a new set follows the map if and only if
none of them removes a key that an earlier one has added. -/
theorem finite_map_iff (Len : ℕ) (key : α → κ) (hash : α → ℕ) (max_key : α)
    (hhash : ∀ a b, key a = key b → hash a = hash b) (as : List (ι × Call α))
    (has : ∀ a ∈ as, key a.2.arg < key max_key) :
    (Table.build max_key).Follows Len key hash [] as ↔ as.Pairwise fun a b => ¬Undoes key a.2 b.2 := by
  rw [follows_iff hhash has (bucket_build max_key) List.Pairwise.nil, List.reverse_nil, List.nil_append,
    List.pairwise_map]

/-- Numbers with the key and the hash of their tens: `57` replaces `52`, and there is nothing to remove. -/
def tens : List (Unit × Call ℕ) :=
  [((), .update .add 52), ((), .update .remove 31), ((), .update .add 57), ((), .get 50), ((), .update .add 33),
    ((), .get 40)]

theorem finite_map_iff_tens : (Table.build 90).Follows 2 (· / 10) (· / 10) [] tens ∧
    ¬(Table.build 90).Follows 2 (· / 10) (· / 10) [] (tens ++ [((), .update .remove 50)]) :=
  ⟨(finite_map_iff 2 (· / 10) (· / 10) 90 (fun _ _ h => h) tens (by decide)).2 (by decide),
    fun h => absurd ((finite_map_iff 2 (· / 10) (· / 10) 90 (fun _ _ h => h)
      (tens ++ [((), .update .remove 50)]) (by decide)).1 h) (by decide)⟩

/-- `add( 5 )`, `remove( 5 )`. -/
theorem not_follows_five : ¬(Table.build 9).Follows 4 id id []
    [((), .update .add 5), ((), .update .remove (5 : ℕ))] := fun h =>
  absurd ((follows_iff (fun _ _ h => h) (by decide) (bucket_build 9) List.Pairwise.nil).1 h) (by decide)

end Calls

end Libeva.Ds.HashSet
