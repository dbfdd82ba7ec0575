import Libeva.Ds.FineGrainedQueue.Threads
import Mathlib.Data.List.Nodup

/-!
# The invariant of `FineGrainedQueue` under threads

* `Shape s l`: the nodes from `head_` up to `tail_` are `l`; the popped nodes, `l`, `tail_` and the nodes that pushes
  have created are all different; and the entries of the popped nodes and of `l` are the pushed values.
* `Local s l p`: what the local variables of a call at `p` mean. `Frame` is what they rely on when another thread moves:
  `head_` under `head_mutex_`, `tail_` and its node under `tail_mutex_`, and the popped node of the call.
-/

namespace Libeva.Ds.FineGrainedQueue

open Linked (Segment)

variable {ι α : Type*} {s s' : State ι α} {l k : List Ref} {t u : ι} {p : Pc α} {n : Ref}

abbrev State.entry (s : State ι α) (n : Ref) : α := (s.mem n).entry_

abbrev State.next (s : State ι α) (n : Ref) : Option Ref := (s.mem n).next_

structure Shape (s : State ι α) (l : List Ref) : Prop where
  seg : Segment s.next s.head_ l s.tail_
  nodup : (s.popped ++ l ++ [s.tail_]).Nodup
  alloc : ∀ n ∈ s.popped ++ l ++ [s.tail_], n < s.brk
  live : ∀ n ∈ l ++ [s.tail_], s.live n = true
  log : (s.popped ++ l).map (fun n => (n, s.entry n)) = s.pushed
  result : ∀ n v, s.result n = some v → n ∈ s.popped ++ l ∧ s.entry n = v
  inFlight : ∀ n ∈ s.popped, s.result n = none → ∃ t, (s.pc t).inFlight? = some n
  fresh : ∀ t n, (s.pc t).fresh? = some n → n < s.brk ∧ s.live n = true ∧ n ∉ s.popped ++ l ++ [s.tail_]
  fresh_inj : ∀ t u n, (s.pc t).fresh? = some n → (s.pc u).fresh? = some n → t = u
  owned : ∀ t n, (s.pc t).owned? = some n → n ∈ s.popped ∧ s.live n = true
  owned_inj : ∀ t u n, (s.pc t).owned? = some n → (s.pc u).owned? = some n → t = u

/-- The local variables of a call at `p`. -/
def Local (s : State ι α) (l : List Ref) : Pc α → Prop
  | .pushNext v _ => s.entry s.tail_ = v
  | .pushTail v n => s.entry s.tail_ = v ∧ s.next s.tail_ = some n
  | .lockTail _ h | .readTail _ h => h = s.head_
  | .unlockTail _ h tl | .compare _ h tl => h = s.head_ ∧ tl ∈ l ++ [s.tail_]
  | .tryEntry | .waitMove => l ≠ []
  | .tryMove v => l ≠ [] ∧ s.result s.head_ = some v
  | .tryUnlock n v | .tryDelete n v | .waitDelete n v => s.result n = some v
  | .ret (.pop _) (some v) => ∃ n ∈ s.popped, s.result n = some v
  | .crash => False
  | _ => True

/-- The invariant of the interleavings. -/
structure Inv (s : State ι α) : Prop where
  shape : Shape s s.chain
  head : ∀ t, s.head_mutex_ = some t ↔ (s.pc t).hasHead = true
  tail : ∀ t, s.tail_mutex_ = some t ↔ (s.pc t).hasTail = true
  loc : ∀ t, Local s s.chain (s.pc t)

theorem Shape.tail_notMem (h : Shape s l) : s.tail_ ∉ l := fun hm =>
  (List.nodup_append.1 h.nodup).2.2 _ (List.mem_append_right _ hm) _ (List.mem_singleton.2 rfl) rfl

/-- The computed chain is the list of the shape. -/
theorem Shape.chain_eq (h : Shape s l) : s.chain = l := by
  refine h.seg.follow_eq h.tail_notMem ?_
  have hd : (l ++ [s.tail_]).Nodup := by
    have := h.nodup
    rw [List.append_assoc] at this
    exact (List.nodup_append.1 this).2.1
  have := Linked.length_le_of_nodup (n := s.brk) hd fun x hx => h.alloc x (by
    rw [List.append_assoc]; exact List.mem_append_right _ hx)
  rw [List.length_append, List.length_singleton] at this
  exact this

/-- A non-empty queue starts at `head_`. -/
theorem Shape.head_mem (h : Shape s l) (hl : l ≠ []) : s.head_ ∈ l := by
  cases l with
  | nil => exact absurd rfl hl
  | cons n l => rw [h.seg.1]; exact List.mem_cons_self

/-- The queue is empty exactly when `head_` and `tail_` meet. -/
theorem Shape.eq_nil_iff (h : Shape s l) : l = [] ↔ s.head_ = s.tail_ := by
  constructor
  · rintro rfl; exact h.seg
  · intro e
    by_contra hl
    exact h.tail_notMem (e ▸ h.head_mem hl)

/-! ## Steps of other threads -/

/-- What the other threads rely on when `t` moves. -/
structure Frame (s s' : State ι α) (l k : List Ref) (t : ι) : Prop where
  popped : ∀ n ∈ s.popped, n ∈ s'.popped
  result : ∀ n v, s.result n = some v → s'.result n = some v
  head : ∀ u, u ≠ t → (s.pc u).hasHead = true →
    s'.head_ = s.head_ ∧ (∀ n ∈ l ++ [s.tail_], n ∈ k ++ [s'.tail_]) ∧ (l ≠ [] → k ≠ [])
  tail : ∀ u, u ≠ t → (s.pc u).hasTail = true → s'.tail_ = s.tail_ ∧ s'.mem s.tail_ = s.mem s.tail_

theorem Local.frame (hf : Frame s s' l k t) (hu : u ≠ t) (h : Local s l (s.pc u)) : Local s' k (s.pc u) := by
  have hhead := hf.head u hu
  have htail := hf.tail u hu
  generalize s.pc u = p at h hhead htail
  cases p with
  | pushNext v n =>
    obtain ⟨h1, h2⟩ := htail rfl
    simp only [Local, State.entry, h1, h2] at h ⊢
    exact h
  | pushTail v n =>
    obtain ⟨h1, h2⟩ := htail rfl
    simp only [Local, State.entry, State.next, h1, h2] at h ⊢
    exact h
  | lockTail q b | readTail q b => exact Eq.trans h (hhead rfl).1.symm
  | unlockTail q b c | compare q b c =>
    obtain ⟨h1, h2, -⟩ := hhead rfl
    exact ⟨h.1.trans h1.symm, h2 c h.2⟩
  | tryEntry | waitMove => exact (hhead rfl).2.2 h
  | tryMove v =>
    obtain ⟨h1, -, h3⟩ := hhead rfl
    exact ⟨h3 h.1, by rw [h1]; exact hf.result _ _ h.2⟩
  | tryUnlock n v | tryDelete n v | waitDelete n v => exact hf.result _ _ h
  | ret c r =>
    cases c with
    | push v => exact trivial
    | pop q =>
      cases r with
      | none => exact trivial
      | some v =>
        obtain ⟨n, hn, hr⟩ := h
        exact ⟨n, hf.popped n hn, hf.result n v hr⟩
  | crash => exact h
  | _ => exact trivial

variable [DecidableEq ι]

/-- The invariant after a step of `t`, from the shape, the mutexes, the frame and the local variables of `t`. -/
theorem Inv.update (h : Inv s) (hpc : s'.pc = Function.update s.pc t p) (hs : Shape s' k)
    (hf : Frame s s' s.chain k t) (hhead : ∀ u, s'.head_mutex_ = some u ↔ (s'.pc u).hasHead = true)
    (htail : ∀ u, s'.tail_mutex_ = some u ↔ (s'.pc u).hasTail = true) (hloc : Local s' k p) : Inv s' := by
  refine ⟨by rw [hs.chain_eq]; exact hs, hhead, htail, ?_⟩
  intro u
  rw [hs.chain_eq]
  by_cases hu : u = t
  · rw [hu, hpc, Function.update_self]; exact hloc
  · rw [hpc, Function.update_of_ne hu]; exact (h.loc u).frame hf hu

end Libeva.Ds.FineGrainedQueue
