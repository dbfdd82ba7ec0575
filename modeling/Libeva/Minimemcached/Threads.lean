import Libeva.Ds.HashSet.Threads
import Libeva.Minimemcached.Store
import Mathlib.Data.List.Induction

/-!
# `MiniMemcached` under threads

`set` and `get` by any number of threads on the shards. The shards side by side are one hash set, whose bucket of an
entry is the bucket in its shard, and nobody calls `remove` or `contains`. The keys come before that of the tail entry,
100 times `z`.

* `contents_adds`: while nothing is removed, a key that has been set keeps an entry, one set since.
* `get_fresh`: a `get` never returns an entry older than a `set` that had returned before it began.
-/

namespace Libeva.Minimemcached.MiniMemcached

open Ds.LazyList (Upd Pc Action Effect)
open Ds.HashSet.Threads (State contents effects effects_append contents_snoc apply_of_ne apply_add_self
  apply_remove_self call_entry)

/-- What a stored `EntryPtr` points to: the constructors and `resetKey` leave the hash of the key. -/
abbrev Stored := { e : Entry // e.Keyed }

def Stored.key (e : Stored) : Bytes := e.1.key

/-- The entry of `head_` is a null pointer, which neither call reads. -/
instance : Inhabited Stored := ⟨brace⟩

/-- The shard and the bucket in it. -/
def index (e : Stored) : ℕ × ℕ := (e.1.hash_.toNat % kNumShards, hasher e.1 % Len)

theorem index_congr {a b : Stored} (h : a.key = b.key) : index a = index b := by
  have hhash : a.1.hash_ = b.1.hash_ := by
    rw [a.2, b.2, show a.1.key = b.1.key from h]
  rw [index, index, hasher, hasher, hhash]

/-- The calls of the store: `set` adds, `get` gets. -/
def Serves : Ds.LazyList.Call Stored → Prop
  | .update .add _ | .get _ => True
  | .update .remove _ | .contains _ => False

instance Serves.decidable : DecidablePred Serves
  | .update .add _ | .get _ => .isTrue trivial
  | .update .remove _ | .contains _ => .isFalse id

section Program

variable {ι : Type*} [DecidableEq ι]

/-- A thread calls `set` or `get`, or makes a step of its call. -/
def step (s : State ι (ℕ × ℕ) Stored) (a : Action ι Stored) : Option (State ι (ℕ × ℕ) Stored) :=
  match a with
  | .invoke _ c => if Serves c then Ds.HashSet.Threads.step Stored.key index s a else none
  | .tick _ => Ds.HashSet.Threads.step Stored.key index s a

/-- The shards of the constructor, with their sentinel. -/
def threads (greatest : Stored) : Lts.System (State ι (ℕ × ℕ) Stored) (Action ι Stored) :=
  Lts.ofFun ⟨fun _ => Ds.LazyList.State.init greatest, fun _ => (0, 0)⟩ step

end Program

/-! ## Nothing is removed -/

section Adds

variable {ι α κ : Type*} [LinearOrder κ] {key : α → κ} {es es' : List (Effect ι α)} {e : Effect ι α} {x : κ}

/-- What is found has been added. -/
theorem mem_of_contents {k : α} (h : contents key es x = some k) : ∃ e ∈ es, e.arg = k ∧ key k = x := by
  induction es using List.reverseRecOn with
  | nil => cases h
  | append_singleton es e ih =>
    rw [contents_snoc] at h
    by_cases hx : x = key e.arg
    · subst hx
      cases hu : e.upd with
      | add =>
        rw [hu, apply_add_self] at h
        cases h
        exact ⟨e, by simp, rfl, rfl⟩
      | remove =>
        rw [hu, apply_remove_self] at h
        cases h
    · rw [apply_of_ne hx] at h
      obtain ⟨f, hf, hk⟩ := ih h
      exact ⟨f, List.mem_append_left _ hf, hk⟩

/-- Since an addition the key has an entry, of this addition or a later one. -/
theorem contents_adds (he : e.upd = .add) (hes : ∀ f ∈ es', f.upd = .add) :
    ∃ f ∈ e :: es', contents key (es ++ e :: es') (key e.arg) = some f.arg ∧ key f.arg = key e.arg := by
  induction es' using List.reverseRecOn with
  | nil =>
    refine ⟨e, List.mem_cons_self, ?_, rfl⟩
    rw [contents_snoc, he, apply_add_self]
  | append_singleton es' g ih =>
    rw [← List.cons_append, ← List.append_assoc, contents_snoc]
    by_cases hx : key e.arg = key g.arg
    · refine ⟨g, by simp, ?_, hx.symm⟩
      rw [hes g (by simp), hx, apply_add_self]
    · obtain ⟨f, hf, hc, hk⟩ := ih fun f hf => hes f (List.mem_append_left _ hf)
      exact ⟨f, List.mem_append_left _ hf, by rw [apply_of_ne hx, hc], hk⟩

end Adds

section Runs

variable {ι : Type*} [DecidableEq ι] {greatest : Stored} {s s' : State ι (ℕ × ℕ) Stored} {a : Action ι Stored}
  {w : List (State ι (ℕ × ℕ) Stored × Action ι Stored × State ι (ℕ × ℕ) Stored)}

theorem step_cases (hs : step s a = some s') : Ds.HashSet.Threads.step Stored.key index s a = some s' ∧
    ∀ t c, a = .invoke t c → Serves c := by
  cases a with
  | invoke t c =>
    simp only [step] at hs
    split at hs
    · rename_i hc
      exact ⟨hs, fun _ _ e => by cases e; exact hc⟩
    · cases hs
  | tick t => exact ⟨hs, fun _ _ e => by cases e⟩

/-- The store runs as a hash set. -/
theorem run_set (hr : Lts.Run (threads greatest) s w s') :
    Lts.Run (Ds.HashSet.Threads.threads Stored.key index greatest (0, 0)) s w s' := by
  have h := hr.simulate (N := Ds.HashSet.Threads.threads Stored.key index greatest (0, 0)) (f := id) (g := id)
    fun _ _ _ hst => (step_cases hst).1
  simpa using h

theorem reach_set (hs : Lts.Reach (threads greatest) s) :
    Lts.Reach (Ds.HashSet.Threads.threads Stored.key index greatest (0, 0)) s := by
  induction hs with
  | init h => exact .init h
  | step _ hst ih => exact .step ih (step_cases hst).1

/-- No thread is in a `remove`. -/
theorem reach_serves (hs : Lts.Reach (threads greatest) s) : ∀ t c, (s.pc t).call? = some c → Serves c := by
  refine hs.invariant (I := fun s => ∀ t c, (s.pc t).call? = some c → Serves c) ?_ ?_
  · rintro _ rfl t c h
    cases h
  · intro s a s' _ hi hst u d hd
    obtain ⟨hst, hserve⟩ := step_cases hst
    obtain ⟨t, i, p, hpc, hmy, hcase⟩ := Ds.HashSet.Threads.step_pc hst
    rw [State.pc, hmy, hpc] at hd
    by_cases hu : u = t
    · subst hu
      rw [Function.update_self, if_pos ⟨rfl, rfl⟩] at hd
      rcases hcase with ⟨-, -, hcall⟩ | ⟨c, ha, -, rfl, -⟩
      · exact hi u d (hcall d hd)
      · rw [call_entry] at hd
        cases hd
        exact hserve u d ha
    · rw [Function.update_of_ne hu, if_neg fun e => hu e.2] at hd
      exact hi u d hd

theorem effects_add (hs : Lts.Reach (threads greatest) s) (hr : Lts.Run (threads greatest) s w s') :
    ∀ f ∈ effects Stored.key w, f.upd = .add := by
  intro f hf
  obtain ⟨x, hx, hxf⟩ := List.mem_filterMap.1 hf
  obtain ⟨hreach, hst⟩ := hr.move hs hx
  rcases Ds.HashSet.Threads.effect_cases (reach_set hreach) (step_cases hst).1 with ⟨he, -⟩ | ⟨e, he, hcall, -⟩
  · rw [he] at hxf
    cases hxf
  · rw [he] at hxf
    cases hxf
    have hserve := reach_serves hreach _ _ hcall
    cases hu : f.upd with
    | add => rfl
    | remove =>
      rw [hu] at hserve
      exact hserve.elim

/-- **No stale entry.** In every run of `set` and `get` by any number of threads a completed `get` returns null or an
entry with its key that some `set` has stored; and if a `set` of the key had returned before the `get` began, then an
entry that has been stored since the begin of that `set`. -/
theorem get_fresh (greatest : Stored) (s₀ s s' : State ι (ℕ × ℕ) Stored)
    (v w : List (State ι (ℕ × ℕ) Stored × Action ι Stored × State ι (ℕ × ℕ) Stored)) (t : ι) (e : Stored)
    (r : Option Stored) (h0 : (threads greatest).init s₀) (hv : Lts.Run (threads greatest) s₀ v s)
    (hw : Lts.Run (threads greatest) s w s') (hp : s.pc t = .getHead e)
    (hG : ∀ x ∈ w, (x.1.pc t).call? = some (.get e)) (hret : s'.pc t = .ret (.get e) (.entry r)) :
    (r = none ∨ ∃ f ∈ effects Stored.key (v ++ w), r = some f.arg ∧ f.arg.key = e.key) ∧
    ∀ v₁ v₂ v₃ s₁ s₂ t' e', v = v₁ ++ v₂ ++ v₃ → Lts.Run (threads greatest) s₀ v₁ s₁ →
      Lts.Run (threads greatest) s₁ v₂ s₂ → s₁.pc t' = .readHead .add e' →
      (∀ x ∈ v₂, (x.1.pc t').call? = some (.update .add e')) → s₂.pc t' = .ret (.update .add e') (.bool true) →
      e'.key = e.key → ∃ f ∈ effects Stored.key (v₂ ++ v₃ ++ w), r = some f.arg ∧ f.arg.key = e.key := by
  obtain ⟨x, y, rfl, hr⟩ := (Ds.HashSet.Threads.explains (c := .get e) (fun _ _ h => index_congr h) h0 (run_set hv)
    (run_set hw) hp hG).get e r hret
  have hadd := effects_add (.init h0) (hv.trans hw)
  refine ⟨?_, ?_⟩
  · cases r with
    | none => exact .inl rfl
    | some k =>
      obtain ⟨f, hf, rfl, hk⟩ := mem_of_contents hr
      rw [← List.append_assoc, effects_append]
      exact .inr ⟨f, List.mem_append_left _ hf, rfl, hk⟩
  · rintro v₁ v₂ v₃ s₁ s₂ t' e' rfl hv₁ hv₂ hp' hG' hret' hkey
    have hset := (Ds.HashSet.Threads.explains (c := .update .add e') (fun _ _ h => index_congr h) h0 (run_set hv₁)
      (run_set hv₂) hp' hG').update .add e' true hret'
    have hmem : (⟨t', .add, e', true⟩ : Effect ι Stored) ∈ effects Stored.key v₂ :=
      List.mem_of_mem_filter (p := fun f => f.thread = t') (by rw [hset]; exact List.mem_singleton_self _)
    obtain ⟨es₁, es₂, hes⟩ := List.append_of_mem hmem
    have hsplit : effects Stored.key (v₁ ++ v₂ ++ v₃ ++ x) =
        (effects Stored.key v₁ ++ es₁) ++ ⟨t', .add, e', true⟩ :: (es₂ ++ effects Stored.key (v₃ ++ x)) := by
      simp only [effects_append, hes, List.append_assoc, List.cons_append]
    have hafter : ∀ f ∈ es₂ ++ effects Stored.key (v₃ ++ x), f.upd = .add := by
      intro f hf
      refine hadd f ?_
      rw [← List.append_assoc, effects_append, hsplit]
      exact List.mem_append_left _ (List.mem_append_right _ (List.mem_cons_of_mem _ hf))
    have hlast : (⟨t', .add, e', true⟩ : Effect ι Stored).upd = .add := rfl
    obtain ⟨f, hf, hc, hk⟩ : ∃ f ∈ ⟨t', .add, e', true⟩ :: (es₂ ++ effects Stored.key (v₃ ++ x)),
        contents Stored.key ((effects Stored.key v₁ ++ es₁) ++ ⟨t', .add, e', true⟩ ::
          (es₂ ++ effects Stored.key (v₃ ++ x))) e'.key = some f.arg ∧ f.arg.key = e'.key := contents_adds hlast hafter
    rw [← hsplit] at hc
    refine ⟨f, ?_, ?_, hk.trans hkey⟩
    · simp only [effects_append, hes, List.append_assoc, List.mem_append, List.mem_cons] at hf ⊢
      tauto
    · rw [← hr, ← hc]
      exact congrArg _ hkey.symm

end Runs

/-! ## A run of two threads -/

def greatestStored : Stored := ⟨⟨100, 0, 0, greatestKey, hash_str greatestKey⟩, by unfold Entry.Keyed; decide +kernel⟩

/-- The key `a` with the value `1`. -/
def storedA : Stored := ⟨⟨1, 1, 0, [97, 49], hash_str [97]⟩, by unfold Entry.Keyed; decide +kernel⟩

def opened : State Bool (ℕ × ℕ) Stored := ⟨fun _ => Ds.LazyList.State.init greatestStored, fun _ => (0, 0)⟩

def setting : State Bool (ℕ × ℕ) Stored :=
  (Lts.exec step opened [.invoke false (.update .add storedA)]).get (by decide +kernel)

def setA : State Bool (ℕ × ℕ) Stored :=
  (Lts.exec step setting (List.replicate 14 (.tick false))).get (by decide +kernel)

def getting : State Bool (ℕ × ℕ) Stored := (Lts.exec step setA [.invoke true (.get storedA)]).get (by decide +kernel)

def gotA : State Bool (ℕ × ℕ) Stored := (Lts.exec step getting (List.replicate 6 (.tick true))).get (by decide +kernel)

theorem get_fresh_storedA : ∃ f ∈ effects Stored.key (Lts.moves step setting (List.replicate 14 (.tick false)) ++
    Lts.moves step setA [.invoke true (.get storedA)] ++ Lts.moves step getting (List.replicate 6 (.tick true))),
    some storedA = some f.arg ∧ f.arg.key = storedA.key := by
  have h1 : Lts.Run (threads greatestStored) opened _ setting := Lts.Run.moves (Option.some_get _).symm
  have h2 : Lts.Run (threads greatestStored) setting _ setA := Lts.Run.moves (Option.some_get _).symm
  have h3 : Lts.Run (threads greatestStored) setA _ getting := Lts.Run.moves (Option.some_get _).symm
  have h4 : Lts.Run (threads greatestStored) getting _ gotA := Lts.Run.moves (Option.some_get _).symm
  exact (get_fresh greatestStored opened getting gotA _ _ true storedA (some storedA) rfl ((h1.trans h2).trans h3) h4
    (by decide +kernel) (by decide +kernel) (by decide +kernel)).2 _ _ _ setting setA false storedA rfl h1 h2
    (by decide +kernel) (by decide +kernel) (by decide +kernel) rfl

end Libeva.Minimemcached.MiniMemcached
