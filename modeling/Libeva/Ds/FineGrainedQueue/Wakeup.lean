import Libeva.Ds.FineGrainedQueue.Fifo

/-!
# `waitAndPop` and its notification

A consumer evaluates `head_ != getTail()` under `head_mutex_`, but `push` publishes `tail_` under `tail_mutex_` and
notifies under no mutex at all.

* `LostWakeup`: a consumer sleeps, the queue is not empty, and nobody is there to wake the consumer.
* `Missed`: a `notify_all` between the moment at which a consumer has read `tail_` and the moment at which it sleeps.
* `Covered`: while a consumer sleeps, or is about to, and the queue is not empty, some `push` has yet to notify.
-/

namespace Libeva.Ds.FineGrainedQueue

/-- A `push` between moving `tail_` and its `notify_all`. -/
def Pc.owesNotify {α : Type*} : Pc α → Bool
  | .pushUnlock _ | .notify _ => true
  | _ => false

/-- A `push` at its `notify_all`. -/
def Pc.notifies {α : Type*} : Pc α → Bool
  | .notify _ => true
  | _ => false

/-- A `waitAndPop` that has found the queue empty and does not sleep yet. -/
def Pc.dozes {α : Type*} : Pc α → Bool
  | .unlockTail .waitAndPop h t | .compare .waitAndPop h t => h == t
  | .sleep => true
  | _ => false

section Wakeup

variable {ι α : Type*}

/-- A consumer is asleep on a queue that is not empty, no `push` has yet to notify, and no other consumer is awake. -/
def LostWakeup (s : State ι α) : Prop :=
  ∃ t, s.pc t = .asleep ∧ s.head_ ≠ s.tail_ ∧ (∀ u, (s.pc u).owesNotify = false) ∧
    ∀ u, u ≠ t → (s.pc u).call? = some (.pop .waitAndPop) → s.pc u = .asleep

/-- `notify_all` runs while a consumer that has found the queue empty is not asleep yet, and the queue is not empty any
more. -/
def Missed (x : State ι α × Action ι α × State ι α) : Prop :=
  match x.2.1 with
  | .tick t => (x.1.pc t).notifies = true ∧ x.1.head_ ≠ x.1.tail_ ∧ ∃ u, (x.1.pc u).dozes = true
  | _ => False

instance (x : State Bool α × Action Bool α × State Bool α) : Decidable (Missed x) := by
  unfold Missed
  split <;> infer_instance

/-- A consumer sleeps or is about to. -/
def Pc.waits (p : Pc α) : Bool := p.dozes || p.isAsleep

def Covered (s : State ι α) : Prop :=
  ∀ u, (s.pc u).waits = true → s.head_ ≠ s.tail_ → ∃ t, (s.pc t).owesNotify = true

variable {s s' : State ι α} {t : ι} {p : Pc α}

theorem isAsleep_iff : p.isAsleep = true ↔ p = .asleep := by
  cases p <;> simp [Pc.isAsleep]

variable [DecidableEq ι]

@[simp] theorem goto_pc : (s.goto t p).pc = Function.update s.pc t p := rfl

/-- A step of `t` that leaves `head_` and `tail_` alone. -/
theorem Covered.goto (h : Covered s) (hpc : s'.pc = Function.update s.pc t p) (hh : s'.head_ = s.head_)
    (ht : s'.tail_ = s.tail_) (hw : p.waits = true → (s.pc t).waits = true ∨ s.head_ = s.tail_)
    (ho : (s.pc t).owesNotify = true → p.owesNotify = true) : Covered s' := by
  intro u hu hne
  rw [hh, ht] at hne
  rw [hpc] at hu ⊢
  obtain ⟨v, hv⟩ : ∃ v, (s.pc v).owesNotify = true := by
    by_cases hut : u = t
    · subst hut
      rw [Function.update_self] at hu
      exact h u ((hw hu).resolve_right hne) hne
    · rw [Function.update_of_ne hut] at hu
      exact h u hu hne
  by_cases hvt : v = t
  · subst hvt
    exact ⟨v, by rw [Function.update_self]; exact ho hv⟩
  · exact ⟨v, by rw [Function.update_of_ne hvt]; exact hv⟩

/-- A step of `t`, which owes nothing before and does not wait after it. -/
theorem Covered.awake (h : Covered s) (hpc : s'.pc = Function.update s.pc t p) (hh : s'.head_ = s.head_)
    (ht : s'.tail_ = s.tail_) (hw : p.waits = false) (ho : (s.pc t).owesNotify = false) : Covered s' := by
  refine h.goto hpc hh ht ?_ ?_
  · intro hp
    rw [hw] at hp
    cases hp
  · intro hp
    rw [ho] at hp
    cases hp

/-- A step of `t` that takes a node off the queue. -/
theorem Covered.take (h : Covered s) (hpc : s'.pc = Function.update s.pc t p) (hne : s.head_ ≠ s.tail_)
    (hw : p.waits = false) (ho : (s.pc t).owesNotify = false) : Covered s' := by
  intro u hu _
  rw [hpc] at hu ⊢
  have hut : u ≠ t := by
    rintro rfl
    rw [Function.update_self, hw] at hu
    cases hu
  rw [Function.update_of_ne hut] at hu
  obtain ⟨v, hv⟩ := h u hu hne
  have hvt : v ≠ t := by
    rintro rfl
    rw [ho] at hv
    cases hv
  exact ⟨v, by rw [Function.update_of_ne hvt]; exact hv⟩

variable [Inhabited α]

theorem Covered.tick (h : Covered s) (hi : Inv s) (hm : ¬Missed (s, .tick t, s'))
    (hs : exec s t (s.pc t) = some s') : Covered s' := by
  have hloc := hi.loc t
  have hsh := hi.shape
  cases hp : s.pc t with
  | idle | crash | ret | asleep => rw [hp] at hs; cases hs
  | pushNew | pushUnlock | readHead | unlockFalse | tryUnlock | tryDelete | waitUnlock | waitDelete =>
    rw [hp] at hs
    cases hs
    exact h.goto rfl rfl rfl (fun hw => absurd hw Bool.false_ne_true) (by rw [hp]; exact id)
  | pushLock | lockHead | lockTail =>
    simp only [hp, exec] at hs
    split at hs
    · cases hs
      exact h.awake rfl rfl rfl rfl (by rw [hp]; rfl)
    · cases hs
  | pushEntry | pushNext | tryEntry | waitEntry =>
    simp only [hp, exec, State.access, Option.some.injEq] at hs
    subst hs
    split <;> exact h.awake rfl rfl rfl rfl (by rw [hp]; rfl)
  | pushTail v n =>
    rw [hp] at hloc
    have hlive : s.live s.tail_ = true := hsh.live _ (by simp)
    simp only [hp, exec, State.access, hlive, if_true, State.deref, hloc.2, Option.some.injEq] at hs
    subst hs
    intro _ _ _
    refine ⟨t, ?_⟩
    rw [goto_pc, Function.update_self]
    rfl
  | notify v =>
    rw [hp] at hs
    cases hs
    -- nobody sleeps after `notify_all`, and who is about to sleep has an empty queue
    intro u hu hne
    have hd : ∀ u, (s.pc u).dozes = false := fun u =>
      Bool.eq_false_iff.2 fun hu => hm ⟨by rw [hp]; rfl, hne, u, hu⟩
    by_cases hut : u = t
    · subst hut
      rw [goto_pc, Function.update_self] at hu
      cases hu
    · rw [goto_pc, Function.update_of_ne hut] at hu
      dsimp only at hu
      split at hu
      · cases hu
      · rename_i hsleep
        rw [Pc.waits, hd u, Bool.false_or] at hu
        exact absurd hu hsleep
  | readTail q b =>
    rw [hp] at hs hloc
    cases hs
    refine h.goto rfl rfl rfl ?_ (fun ho => by rw [hp] at ho; cases ho)
    intro hw
    cases q with
    | tryPop => cases hw
    | waitAndPop =>
      have hb : b = s.tail_ := by simpa [Pc.waits, Pc.isAsleep, Pc.dozes] using hw
      exact .inr (Eq.trans hloc.symm hb)
  | unlockTail q b c =>
    rw [hp] at hs
    cases hs
    refine h.goto rfl rfl rfl ?_ (fun ho => by rw [hp] at ho; cases ho)
    rw [hp]
    exact fun hw => .inl (by cases q <;> exact hw)
  | compare q b c =>
    cases q with
    | tryPop =>
      simp only [hp, exec, Option.some.injEq] at hs
      subst hs
      exact h.awake rfl rfl rfl (by split <;> rfl) (by rw [hp]; rfl)
    | waitAndPop =>
      simp only [hp, exec, Option.some.injEq] at hs
      subst hs
      refine h.goto rfl rfl rfl ?_ (fun ho => by rw [hp] at ho; cases ho)
      rw [hp]
      split
      · rename_i hbc
        exact fun _ => .inl (by rw [hbc]; exact Bool.or_eq_true_iff.2 (.inl (beq_self_eq_true c)))
      · exact fun hw => absurd hw Bool.false_ne_true
  | sleep =>
    rw [hp] at hs
    cases hs
    exact h.goto rfl rfl rfl (fun _ => .inl (by rw [hp]; rfl)) (fun ho => by rw [hp] at ho; cases ho)
  | tryMove v =>
    rw [hp] at hloc
    obtain ⟨hlive, n, hn⟩ := hsh.head_node hloc.1
    simp only [hp, exec, State.access, hlive, if_true, hn, State.deref, Option.some.injEq] at hs
    subst hs
    exact h.take rfl (mt hsh.eq_nil_iff.2 hloc.1) rfl (by rw [hp]; rfl)
  | waitMove =>
    rw [hp] at hloc
    obtain ⟨hlive, n, hn⟩ := hsh.head_node hloc
    simp only [hp, exec, State.access, hlive, if_true, hn, State.deref, Option.some.injEq] at hs
    subst hs
    exact h.take rfl (mt hsh.eq_nil_iff.2 hloc) rfl (by rw [hp]; rfl)

theorem Covered.step {a : Action ι α} (h : Covered s) (hi : Inv s) (hm : ¬Missed (s, a, s')) (hs : step s a = some s') :
    Covered s' := by
  cases a with
  | tick t => exact h.tick hi hm hs
  | invoke t c =>
    simp only [FineGrainedQueue.step] at hs
    split at hs <;> rename_i hp
    · cases hs
      cases c <;> exact h.awake rfl rfl rfl rfl (by rw [hp]; rfl)
    · cases hs
      cases c <;> exact h.awake rfl rfl rfl rfl (by rw [hp]; rfl)
    · cases hs
  | wake t =>
    simp only [FineGrainedQueue.step] at hs
    split at hs
    · rename_i hp
      cases hs
      exact h.awake rfl rfl rfl rfl (by rw [isAsleep_iff.1 hp]; rfl)
    · cases hs

theorem covered_run {w : List (State ι α × Action ι α × State ι α)} (h : Lts.Run threads State.init w s)
    (hw : ∀ x ∈ w, ¬Missed x) : Covered s := by
  have hinit : Covered (State.init : State ι α) := fun _ hu => nomatch hu
  obtain ⟨-, hcov⟩ := h.invariant (I := fun s => Inv s ∧ Covered s)
    (fun _ _ _ hi hm hst => ⟨hi.1.step hst, hi.2.step hi.1 hm hst⟩) hw ⟨inv_init, hinit⟩ s h.last_mem
  exact hcov

/-- **No lost wakeup**, in every state of a run in which no `notify_all` falls between the predicate of a consumer that
has found the queue empty and its sleep while the queue is not empty any more. -/
theorem no_lost_wakeup (s : State ι α) (w : List (State ι α × Action ι α × State ι α))
    (h : Lts.Run threads State.init w s) (hw : ∀ x ∈ w, ¬Missed x) : ¬LostWakeup s := by
  rintro ⟨t, ht, hne, howes, -⟩
  obtain ⟨u, hu⟩ := covered_run h hw t (by rw [ht]; rfl) hne
  rw [howes u] at hu
  cases hu

/-- A consumer goes to sleep and a push wakes it up. -/
def wakeOne : List (Action Bool ℕ) :=
  .invoke false (.pop .waitAndPop) :: List.replicate 7 (.tick false) ++ .invoke true (.push 5) ::
    List.replicate 7 (.tick true)

theorem no_lost_wakeup_wakeOne : ∃ s, Lts.exec step State.init wakeOne = some s ∧ ¬LostWakeup s := by
  have hsome : (Lts.exec step State.init wakeOne).isSome = true := by decide
  obtain ⟨s, hs⟩ := Option.isSome_iff_exists.1 hsome
  exact ⟨s, hs, no_lost_wakeup s _ (Lts.Run.moves hs) (by decide)⟩

/-- The push comes between the predicate and the sleep. -/
def wakeNone : List (Action Bool ℕ) :=
  .invoke false (.pop .waitAndPop) :: List.replicate 6 (.tick false) ++ .invoke true (.push 5) ::
    List.replicate 7 (.tick true) ++ [.tick false]

theorem lostWakeup_wakeNone : ¬∀ s : State Bool ℕ, Lts.Reach threads s → ¬LostWakeup s := by
  intro h
  obtain ⟨s, hs, hlost⟩ : ∃ s ∈ Lts.exec step State.init wakeNone, s.pc false = .asleep ∧ s.head_ ≠ s.tail_ ∧
      (∀ u, (s.pc u).owesNotify = false) ∧
      ∀ u, u ≠ false → (s.pc u).call? = some (.pop .waitAndPop) → s.pc u = .asleep := by
    decide
  exact h s (Lts.Reach.exec (.init rfl) hs) ⟨false, hlost⟩

end Wakeup

end Libeva.Ds.FineGrainedQueue
