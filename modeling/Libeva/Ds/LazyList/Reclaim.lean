import Libeva.Ds.LazyList.Heap

/-!
# `delete curr` in `remove`

`State.HoldsLive` says that the nodes which calls in progress hold as `pred` or `curr` are on the heap. A run keeps it
exactly as long as no `remove` reaches its `delete curr`: until then every node ever created is on the heap
(`live_of_run`), and `delete curr` itself runs under a guard that has yet to unlock `curr`.
-/

namespace Libeva.Ds.LazyList

variable {ι α κ : Type*} [LinearOrder κ] {key : α → κ} {s s' : State ι α} {t : ι} {n : Ref} {p : Pc α}

/-- Every node that a call in progress holds is on the heap. -/
def State.HoldsLive (s : State ι α) : Prop := ∀ t, ∀ n ∈ (s.pc t).holds, s.live n = true

/-- The move is the `delete curr` of a `remove`. -/
def Deletes (x : State ι α × Action ι α × State ι α) : Prop := ∃ t w, x.2.1 = .tick t ∧ x.1.pc t = .delete w

def Pc.deletes : Pc α → Bool
  | .delete _ => true
  | _ => false

instance : DecidablePred (@Deletes ι α)
  | (_, .invoke _ _, _) => isFalse fun ⟨_, _, ha, _⟩ => by cases ha
  | (s, .tick t, _) => decidable_of_iff ((s.pc t).deletes = true) (by
    cases hp : s.pc t <;> simp [Pc.deletes, Deletes, hp])

theorem Local.holds_curr (h : Local key s p) (hn : n ∈ p.holds) : n = head_ ∨ s.Curr n := by
  have seen : ∀ {w : Window α}, w.Seen key s → n = w.pred ∨ n = w.curr → n = head_ ∨ s.Curr n := by
    rintro w hw (rfl | rfl)
    · exact hw.1.imp id fun h1 => .inr h1.1
    · exact .inr hw.2
  cases p with
  | idle | ret | crash | readHead | getHead => cases hn
  | next u k c | getNext k c =>
    rw [List.mem_singleton.1 hn]
    exact .inr (.inr h.1)
  | getLoop k c => rw [List.mem_singleton.1 hn]; exact .inr h
  | getMarked k c | getEqualL k c | getEqualR k c | getEntry k c => rw [List.mem_singleton.1 hn]; exact .inr h.1
  | conLoop k c | conEqualL k c | conEqualR k c | conMarked k c => rw [List.mem_singleton.1 hn]; exact h
  | conNext k c => rw [List.mem_singleton.1 hn]; exact h.imp id .inr
  | loop w =>
    simp only [Pc.holds, List.mem_cons, List.not_mem_nil, or_false] at hn
    exact seen h hn
  | lockPred w | lockCurr w | valPred w | unlockCurr w | unlockPred w =>
    simp only [Pc.holds, List.mem_cons, List.not_mem_nil, or_false] at hn
    exact seen h.1 hn
  | valCurr w | valNext w | equalL w | equalR w | delete w =>
    simp only [Pc.holds, List.mem_cons, List.not_mem_nil, or_false] at hn
    exact seen h.1.1 hn
  | replace w | new w | setNext w m | link w m | mark w | readNext w | unlink w m =>
    simp only [Pc.holds, List.mem_cons, List.not_mem_nil, or_false] at hn
    exact seen h.1.1.1 hn

variable [DecidableEq ι]

/-- Until a `remove` deletes a node, every node ever created is on the heap. -/
theorem live_of_run [Inhabited α] {maxVal : α} {w : List (State ι α × Action ι α × State ι α)}
    (hr : Lts.Run (threads key maxVal) (State.init maxVal) w s) (hw : ∀ x ∈ w, ¬Deletes x) :
    ∀ n < s.brk, s.live n = true := by
  induction hr with
  | nil => intro n hn; exact decide_eq_true hn
  | @snoc s s' a w hr hst ih =>
    have h := ih fun x hx => hw x (List.mem_append_left _ hx)
    cases a with
    | invoke t c =>
      obtain ⟨p, rfl⟩ : ∃ p, s' = s.goto t p := by
        change step key s (.invoke t c) = some s' at hst
        simp only [step] at hst
        split at hst <;> try split at hst
        all_goals cases hst
        all_goals exact ⟨_, rfl⟩
      exact h
    | tick t =>
      intro n hn
      refine exec_live hst (fun m p hf => ?_) ((Nat.lt_or_ge n s.brk).imp (h n) fun hb => ⟨hb, hn⟩)
      obtain ⟨v, hv⟩ := fetch_delete hf
      exact hw (s, .tick t, s') (by simp) ⟨t, v, rfl, hv⟩

/-- After a `delete curr` its own call still holds `curr`. -/
theorem not_holdsLive_of_delete {w : Window α} (hp : s.pc t = .delete w) (hs : step key s (.tick t) = some s') :
    ¬s'.HoldsLive := by
  simp only [step, hp] at hs
  cases hs
  intro h
  have hc := h t w.curr (by rw [goto_pc, Function.update_self]; simp [Pc.holds])
  rw [goto_live] at hc
  simp at hc

/-- A run without `delete curr` keeps what its calls hold. -/
theorem holdsLive_of_run [Inhabited α] {maxVal : α} {w : List (State ι α × Action ι α × State ι α)}
    (hr : Lts.Run (threads key maxVal) (State.init maxVal) w s) (hw : ∀ x ∈ w, ¬Deletes x) : s.HoldsLive := by
  intro t n hn
  have hi := reach_inv (hr.reach (.init rfl))
  exact live_of_run hr hw n (hi.shape.curr_lt ((hi.loc t).holds_curr hn))

/-- In the states of a run every node that a call holds is on the heap, if and only if no `remove` of the run comes to
its `delete curr`. -/
theorem holdsLive_iff [Inhabited α] (key : α → κ) (maxVal : α) (s : State ι α)
    (w : List (State ι α × Action ι α × State ι α)) (hr : Lts.Run (threads key maxVal) (State.init maxVal) w s) :
    (∀ v ∈ Lts.visited (State.init maxVal) w, v.HoldsLive) ↔ ∀ x ∈ w, ¬Deletes x := by
  constructor
  · rintro h x hx ⟨t, v, ha, hp⟩
    obtain ⟨-, hst⟩ := hr.move (.init rfl) hx
    rw [ha] at hst
    refine not_holdsLive_of_delete hp hst (h x.2.2 ?_)
    exact List.mem_cons_of_mem _ (List.mem_map.2 ⟨x, hx, rfl⟩)
  · intro hw
    induction hr with
    | nil =>
      intro v hv
      rw [List.mem_singleton.1 hv]
      exact holdsLive_of_run (Lts.Run.nil (M := threads key maxVal) _) hw
    | @snoc s s' a w hr hst ih =>
      intro v hv
      rw [Lts.visited_snoc] at hv
      rcases List.mem_append.1 hv with hv | hv
      · exact ih (fun x hx => hw x (List.mem_append_left _ hx)) v hv
      · rw [List.mem_singleton.1 hv]
        exact holdsLive_of_run (hr.snoc hst) hw

/-- The thread that has added `5` has called `remove( 5 )`. -/
def removeFive : State ℕ ℕ := addedFive.goto 0 (.readHead .remove 5)

theorem reach_removeFive : Lts.Reach (threads id 9) removeFive :=
  .step (a := .invoke 0 (.update .remove 5)) (reach_addFive.exec exec_addFive) rfl

/-- Right after its `delete curr`, with the lock of `curr` still to be released. -/
def deletedFive : State ℕ ℕ := (Lts.exec (step id) removeFive (List.replicate 13 (.tick 0))).get (by decide)

theorem not_holdsLive_five : ¬∀ s : State ℕ ℕ, Lts.Reach (threads id 9) s → s.HoldsLive := fun h =>
  absurd (h deletedFive (reach_removeFive.exec (Option.some_get _).symm) 0 2 (by decide)) (by decide)

/-- `5` is added, `remove( 7 )` finds nothing, thread `1` stands on the node of `5`, and `remove( 5 )` unlinks it. -/
def unlinkFive : List (Action ℕ ℕ) :=
  .invoke 0 (.update .add 5) :: List.replicate 14 (.tick 0) ++ .invoke 0 (.update .remove 7) ::
    List.replicate 13 (.tick 0) ++ [.invoke 1 (.get 5), .tick 1] ++ .invoke 0 (.update .remove 5) ::
    List.replicate 12 (.tick 0)

theorem holdsLive_iff_five :
    (∀ v ∈ Lts.visited (State.init 9) (Lts.moves (step id) (State.init 9) unlinkFive), v.HoldsLive) ∧
    ¬∀ v ∈ Lts.visited (State.init 9) (Lts.moves (step id) (State.init 9) (unlinkFive ++ [.tick 0])), v.HoldsLive :=
  ⟨(holdsLive_iff id 9 _ _ (.schedule (by decide +kernel))).2 (by decide +kernel), fun h =>
    absurd ((holdsLive_iff id 9 _ _ (.schedule (by decide +kernel))).1 h) (by decide +kernel)⟩

end Libeva.Ds.LazyList
