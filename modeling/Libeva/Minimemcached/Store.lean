import Libeva.Ds.HashSet
import Libeva.Minimemcached.Entry

/-!
# `MiniMemcached`: the store

An array of shards, each a `HashSet` of entries, and the same sentinel entry at the end of every bucket of every shard.
The shard and the bucket of an entry both come from its hash.

* `lookup`: the entry with a key, in the bucket of the hash of the key.
* `set_eq`, `get_eq`: for keys up to the sentinel's the store is a finite map; `set_above`, `get_above`: the others
  crash it.
* `Call`, `Correct`, `Covered`: sequences of calls, what the store should do on them, and for which it does.
* `store_correct_iff`: the calls are correct exactly when no key is above the sentinel's, and the sentinel's own key is
  set before it is got.
-/

namespace Libeva.Minimemcached

def kNumShards : ℕ := 1700

/-- The buckets of a `Shard`. -/
def Len : ℕ := 2010

def greatestKey : Bytes := List.replicate 100 122

structure MiniMemcached where
  shards_ : ℕ → Ds.HashSet Entry

namespace MiniMemcached

/-- The constructor. -/
def new : Except Fault MiniMemcached := do
  let entry ← Entry.new greatestKey 256
  return ⟨fun _ => .build entry⟩

/-- `EntryPtrHasher`. -/
def hasher (e : Entry) : ℕ := e.hash_.toNat

def set (m : MiniMemcached) (entry : Entry) : Except Fault MiniMemcached := do
  let idx := entry.hash_.toNat % kNumShards
  let shard ← Ds.HashSet.add Len Entry.key hasher (m.shards_ idx) entry
  return ⟨fun i => if i = idx then shard else m.shards_ i⟩

def get (m : MiniMemcached) (entry : Entry) : Except Fault (Option Entry) :=
  Ds.HashSet.get Len Entry.key hasher (m.shards_ (entry.hash_.toNat % kNumShards)) entry

/-! ## A finite map -/

/-- The bucket of a hash. -/
def bucket (m : MiniMemcached) (h : UInt64) : List (Ds.LazyList.Cell Entry) :=
  Ds.HashSet.bucket Len (m.shards_ (h.toNat % kNumShards)) h.toNat

/-- The entry with the key `k`. -/
def lookup (m : MiniMemcached) (k : Bytes) : Option Entry := Ds.LazyList.lookup Entry.key k (m.bucket (hash_str k))

/-- Every bucket is sorted up to the sentinel. -/
def Sane (m : MiniMemcached) : Prop := ∀ h, Ds.LazyList.Sane Entry.key greatestKey (m.bucket h)

variable {m : MiniMemcached} {e : Entry}

theorem new_ok : ∃ e, new = .ok ⟨fun _ => .build e⟩ ∧ e.key = greatestKey := by
  have hlen : greatestKey.length = 100 := List.length_replicate
  obtain ⟨e, hnew, -, -, hkey⟩ := Entry.new_ok greatestKey 256 (by rw [hlen]; decide)
  refine ⟨e, ?_, hkey⟩
  unfold new
  rw [show Entry.new greatestKey 256 = _ from hnew]
  rfl

theorem sane_build (he : e.key = greatestKey) : Sane ⟨fun _ => .build e⟩ := fun _ =>
  he ▸ Ds.LazyList.sane_build Entry.key e

theorem lookup_build (he : e.key = greatestKey) (k : Bytes) :
    lookup ⟨fun _ => .build e⟩ k = if greatestKey = k then some e else none := by
  refine (Ds.LazyList.lookup_build e).trans ?_
  by_cases h : greatestKey = k
  · rw [if_pos h, if_pos (he.trans h)]
  · rw [if_neg h, if_neg (he ▸ h)]

theorem key_of_lookup {k : Bytes} (h : m.lookup k = some e) : e.key = k := Ds.LazyList.key_of_lookup h

theorem get_eq (hm : m.Sane) (he : e.Keyed) (hk : e.key ≤ greatestKey) : m.get e = .ok (m.lookup e.key) := by
  have hg := Ds.HashSet.get_eq hasher (hm e.hash_) hk
  unfold lookup
  rw [← he]
  exact hg

theorem get_above (hm : m.Sane) (hk : greatestKey < e.key) : m.get e = .error .nullDeref :=
  Ds.HashSet.get_above hasher (hm e.hash_) hk

theorem set_above (hm : m.Sane) (hk : greatestKey < e.key) : m.set e = .error .nullDeref := by
  unfold set
  dsimp only
  rw [Ds.HashSet.add_above hasher (hm e.hash_) hk]
  rfl

theorem set_eq (hm : m.Sane) (he : e.Keyed) (hk : e.key ≤ greatestKey) : ∃ m', m.set e = .ok m' ∧ m'.Sane ∧
    ∀ x, m'.lookup x = if x = e.key then some e else m.lookup x := by
  obtain ⟨s', l, hadd, hl, hlook, hbucket⟩ := Ds.HashSet.add_eq hasher (hm e.hash_) hk
  unfold set
  dsimp only
  rw [hadd]
  refine ⟨_, rfl, ?_⟩
  -- the bucket of any hash is the new list, or what it was
  have hb : ∀ h : UInt64, bucket ⟨fun i => if i = e.hash_.toNat % kNumShards then s' else m.shards_ i⟩ h =
      if h.toNat % kNumShards = e.hash_.toNat % kNumShards ∧ h.toNat % Len = e.hash_.toNat % Len then l
      else m.bucket h := by
    intro h
    unfold bucket
    dsimp only
    by_cases hs : h.toNat % kNumShards = e.hash_.toNat % kNumShards
    · rw [if_pos hs, hbucket, hs]
      simp only [true_and]
      rfl
    · rw [if_neg hs, if_neg (fun h => hs h.1)]
  have hsame : ∀ h : UInt64, h.toNat % kNumShards = e.hash_.toNat % kNumShards ∧
      h.toNat % Len = e.hash_.toNat % Len → m.bucket h = m.bucket e.hash_ := by
    rintro h ⟨h1, h2⟩
    unfold bucket Ds.HashSet.bucket
    rw [h1, h2]
  refine ⟨?_, ?_⟩
  · intro h
    rw [hb]
    split
    · exact hl
    · exact hm h
  · intro x
    unfold lookup
    rw [hb]
    split
    · rename_i hx
      rw [hlook, hsame _ hx]
      by_cases hxe : x = e.key
      · rw [if_pos hxe, if_pos hxe]
      · rw [if_neg hxe, if_neg hxe]
        rfl
    · rename_i hx
      rw [if_neg]
      intro hxe
      rw [hxe, ← he] at hx
      exact hx ⟨rfl, rfl⟩

theorem safe_get (m : MiniMemcached) (e : Entry) : Safe (m.get e) := Ds.LazyList.safe_get

theorem safe_set (m : MiniMemcached) (e : Entry) : Safe (m.set e) := by
  have hadd : Safe (Ds.HashSet.add Len Entry.key hasher (m.shards_ (e.hash_.toNat % kNumShards)) e) :=
    Ds.LazyList.safe_add.bind fun _ _ => safe_ok _
  exact hadd.bind fun _ _ => safe_ok _

/-! ## Sequences of calls -/

/-- A call on an entry as the constructors and `resetKey` leave it, with the hash of its key. -/
inductive Call
  | set (e : { e : Entry // e.Keyed })
  | get (e : { e : Entry // e.Keyed })

def Call.key : Call → Bytes
  | .set e | .get e => e.1.key

/-- The keys that the wire protocol admits: non-empty, without space, CR and LF. -/
def Admitted (k : Bytes) : Prop := k ≠ [] ∧ ∀ c ∈ k, c ≠ 32 ∧ c ≠ 13 ∧ c ≠ 10

/-- Every call returns, and a `get` of a key that has not been set (the keys in `seen` have) returns the null
pointer. -/
def Correct (m : MiniMemcached) (seen : List Bytes) : List Call → Prop
  | [] => True
  | .set e :: cs => ∃ m', m.set e.1 = .ok m' ∧ Correct m' (e.1.key :: seen) cs
  | .get e :: cs => ∃ r, m.get e.1 = .ok r ∧ (e.1.key ∉ seen → r = none) ∧ Correct m seen cs

/-- No key is above the sentinel's, and there is no `get` of the sentinel's key before it has been set. -/
def Covered (seen : List Bytes) : List Call → Prop
  | [] => True
  | .set e :: cs => e.1.key ≤ greatestKey ∧ Covered (e.1.key :: seen) cs
  | .get e :: cs => e.1.key ≤ greatestKey ∧ (e.1.key = greatestKey → greatestKey ∈ seen) ∧ Covered seen cs

/-- The store after the keys in `seen` have been set. -/
structure Holds (m : MiniMemcached) (seen : List Bytes) : Prop where
  sane : m.Sane
  unseen : ∀ k ∉ seen, k ≠ greatestKey → m.lookup k = none
  greatest : m.lookup greatestKey ≠ none

theorem Holds.set {seen : List Bytes} (h : m.Holds seen) (he : e.Keyed) (hk : e.key ≤ greatestKey) :
    ∃ m', m.set e = .ok m' ∧ m'.Holds (e.key :: seen) := by
  obtain ⟨m', hset, hs, hlook⟩ := set_eq h.sane he hk
  refine ⟨m', hset, hs, ?_, ?_⟩
  · intro k hk hg
    obtain ⟨hne, hnot⟩ := not_or.1 (mt List.mem_cons.2 hk)
    rw [hlook, if_neg hne]
    exact h.unseen k hnot hg
  · rw [hlook]
    split
    · exact nofun
    · exact h.greatest

theorem Holds.correct_iff {seen : List Bytes} {calls : List Call} (h : m.Holds seen) :
    Correct m seen calls ↔ Covered seen calls := by
  induction calls generalizing m seen with
  | nil => exact Iff.rfl
  | cons c cs ih =>
    cases c with
    | set e =>
      rcases le_or_gt e.1.key greatestKey with hk | hk
      · obtain ⟨m', hset, h'⟩ := h.set e.2 hk
        constructor
        · rintro ⟨m'', hset', hc⟩
          rw [hset] at hset'
          cases hset'
          exact ⟨hk, (ih h').1 hc⟩
        · exact fun hc => ⟨m', hset, (ih h').2 hc.2⟩
      · constructor
        · rintro ⟨m', hset, -⟩
          rw [set_above h.sane hk] at hset
          cases hset
        · exact fun hc => absurd hc.1 (not_le.2 hk)
    | get e =>
      rcases le_or_gt e.1.key greatestKey with hk | hk
      · have hget := get_eq h.sane e.2 hk
        constructor
        · rintro ⟨r, hget', hr, hc⟩
          rw [hget] at hget'
          cases hget'
          refine ⟨hk, fun hg => by_contra fun hnot => ?_, (ih h).1 hc⟩
          rw [hg] at hr
          exact h.greatest (hr hnot)
        · rintro ⟨-, hg, hc⟩
          refine ⟨_, hget, ?_, (ih h).2 hc⟩
          intro hnot
          exact h.unseen _ hnot fun hg' => hnot (hg' ▸ hg hg')
      · constructor
        · rintro ⟨r, hget, -⟩
          rw [get_above h.sane hk] at hget
          cases hget
        · exact fun hc => absurd hc.1 (not_le.2 hk)

theorem holds_build (he : e.key = greatestKey) : Holds ⟨fun _ => .build e⟩ [] where
  sane := sane_build he
  unseen k _ hk := by rw [lookup_build he, if_neg hk.symm]
  greatest := by rw [lookup_build he, if_pos rfl]; exact nofun

/-- **The sentinel.** A sequence of calls on a new store never steps past a tail and never finds a key that was not set,
if and only if no key is above the sentinel's and the sentinel's key is not got before it is set. -/
theorem store_correct_iff (calls : List Call) : (∃ m, new = .ok m ∧ Correct m [] calls) ↔ Covered [] calls := by
  obtain ⟨e, hnew, he⟩ := new_ok
  rw [← (holds_build he).correct_iff]
  constructor
  · rintro ⟨m, hm, hc⟩
    rw [hnew] at hm
    cases hm
    exact hc
  · exact fun hc => ⟨_, hnew, hc⟩

/-- The key of one byte after `'z'`. -/
def brace : { e : Entry // e.Keyed } := ⟨⟨1, 0, 0, [123], hash_str [123]⟩, by unfold Entry.Keyed; decide +kernel⟩

theorem not_correct_brace :
    ¬∀ calls : List Call, (∀ c ∈ calls, Admitted c.key) → ∃ m, new = .ok m ∧ Correct m [] calls := by
  intro h
  have hadm : ∀ c ∈ [Call.get brace], Admitted c.key := by
    intro c hc
    rw [List.mem_singleton.1 hc]
    unfold Admitted
    decide +kernel
  obtain ⟨m, hm, r, hget, -⟩ := h [.get brace] hadm
  obtain ⟨e, hnew, he⟩ := new_ok
  rw [hnew] at hm
  cases hm
  rw [get_above (sane_build he) (by decide +kernel)] at hget
  cases hget

end MiniMemcached

end Libeva.Minimemcached
