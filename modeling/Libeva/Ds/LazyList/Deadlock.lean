import Libeva.Ds.LazyList.Relink
import Mathlib.Logic.Relation
import Mathlib.Order.WithBot

/-!
# The locks of `add` and `remove`

An update locks `pred` and then `curr`, as an unlocked traversal has seen them, on nodes that may have been unlinked
since. The key of a node never changes, so `pred` lies before `curr` for ever, and a thread that waits while it holds a
lock waits for a node further on: `State.rank` is the position of a node, and it increases along `State.WaitsFor`.
-/

namespace Libeva.Ds.LazyList

variable {ι α κ : Type*} [LinearOrder κ]

/-- The node whose lock a call is about to take. -/
def Pc.wants? : Pc α → Option Ref
  | .lockPred w => some w.pred
  | .lockCurr w => some w.curr
  | _ => none

/-- In the traversal, or outside of any call. -/
def Pc.Free : Pc α → Prop
  | .idle | .ret _ _ | .readHead _ _ | .loop _ | .next _ _ _ => True
  | _ => False

/-- Thread `t` waits for a lock that thread `u` holds. -/
def State.WaitsFor (s : State ι α) (t u : ι) : Prop := ∃ n, (s.pc t).wants? = some n ∧ (s.mem n).spinLock_ = some u

/-- The position of a node: `head_` before all keys. -/
def State.rank (key : α → κ) (s : State ι α) (n : Ref) : WithBot κ :=
  if n = head_ then ⊥ else ((s.keyOf key n : κ) : WithBot κ)

/-- The waiting threads form no cycle; a lock is taken exactly while a guard of its holder has yet to release it, and
this is no one else's; no guard is left in a traversal or after a return. -/
structure State.DeadlockFree (s : State ι α) : Prop where
  acyclic : ∀ t, ¬Relation.TransGen s.WaitsFor t t
  notSelf : ∀ t, ¬s.WaitsFor t t
  holder : ∀ t n, (s.mem n).spinLock_ = some t ↔ n ∈ (s.pc t).locks
  exclusive : ∀ t u n, n ∈ (s.pc t).locks → n ∈ (s.pc u).locks → t = u
  released : ∀ t, (s.pc t).Free → ∀ n, (s.mem n).spinLock_ ≠ some t

variable {key : α → κ} {s : State ι α} {t u v : ι} {w : Window α} {n : Ref}

/-- `pred` lies before `curr`. -/
theorem Window.Found.rank_lt (h : w.Found key s) : s.rank key w.pred < s.rank key w.curr := by
  have hc : s.rank key w.curr = s.keyOf key w.curr := if_neg h.1.2.ne_head
  rw [hc, State.rank]
  split
  · exact WithBot.bot_lt_coe _
  · rename_i hp
    exact WithBot.coe_lt_coe.2 ((h.pred_lt hp).trans_le h.2)

/-- A thread that waits and holds a lock holds one before the one it waits for. -/
theorem Inv.rank_lt (h : Inv key s) {m : Ref} (hn : n ∈ (s.pc t).locks) (hm : (s.pc t).wants? = some m) :
    s.rank key n < s.rank key m := by
  have hloc := h.loc t
  cases hp : s.pc t with
  | lockCurr w =>
    rw [hp] at hloc hn hm
    cases hm
    rw [List.mem_singleton.1 hn]
    exact Window.Found.rank_lt hloc
  | lockPred w =>
    rw [hp] at hn
    cases hn
  | _ =>
    rw [hp] at hm
    cases hm

/-- The lock that a thread waits for, when it waits. -/
def State.wanted (key : α → κ) (s : State ι α) (t : ι) : WithBot κ :=
  match (s.pc t).wants? with
  | some n => s.rank key n
  | none => ⊥

omit [LinearOrder κ] in
theorem wanted_eq (hw : (s.pc t).wants? = some n) : s.wanted key t = s.rank key n := by
  rw [State.wanted, hw]

/-- Along two waiting threads the position increases. -/
theorem Inv.wanted_lt (h : Inv key s) (htu : s.WaitsFor t u) (huv : s.WaitsFor u v) :
    s.wanted key t < s.wanted key u := by
  obtain ⟨n, hn, hheld⟩ := htu
  obtain ⟨m, hm, -⟩ := huv
  rw [wanted_eq hn, wanted_eq hm]
  exact h.rank_lt ((h.locks u n).1 hheld) hm

/-- A chain of waiting threads whose last one waits as well. -/
theorem Inv.wanted_lt_trans (h : Inv key s) (htu : Relation.TransGen s.WaitsFor t u) (huv : s.WaitsFor u v) :
    s.wanted key t < s.wanted key u := by
  induction htu generalizing v with
  | single htu => exact h.wanted_lt htu huv
  | tail _ hbc ih => exact (ih hbc).trans (h.wanted_lt hbc huv)

theorem Inv.acyclic (h : Inv key s) : ¬Relation.TransGen s.WaitsFor t t := by
  intro hc
  obtain ⟨u, htu, -⟩ := Relation.TransGen.head'_iff.1 hc
  exact lt_irrefl _ (h.wanted_lt_trans hc htu)

theorem Pc.Free.locks_eq {p : Pc α} (h : p.Free) : p.locks = [] := by
  cases p with
  | idle | ret | readHead | loop | next => rfl
  | _ => exact h.elim

theorem Inv.deadlockFree (h : Inv key s) : s.DeadlockFree where
  acyclic _ := h.acyclic
  notSelf _ hw := h.acyclic (.single hw)
  holder := h.locks
  exclusive t u n ht hu := Option.some.inj (((h.locks t n).2 ht).symm.trans ((h.locks u n).2 hu))
  released t hf n hn := by
    have hm := (h.locks t n).1 hn
    rw [hf.locks_eq] at hm
    cases hm

variable [DecidableEq ι]

/-- **No deadlock.** In every reachable state the waiting threads form no cycle, every lock is held by one call only,
and a call holds none in its traversals and after its return. -/
theorem locks_acyclic [Inhabited α] {maxVal : α} (h : Lts.Reach (threads key maxVal) s) : s.DeadlockFree :=
  (reach_inv h).deadlockFree

/-- Thread `0` has locked `head_` for its `add`, and thread `1` waits for it. -/
def contended : List (Action ℕ ℕ) :=
  [.invoke 0 (.update .add 5), .tick 0, .tick 0, .tick 0, .invoke 1 (.update .remove 5), .tick 1, .tick 1]

theorem locks_acyclic_contended : ∃ s, Lts.exec (step id) (State.init 9) contended = some s ∧ s.WaitsFor 1 0 ∧
    s.DeadlockFree := by
  obtain ⟨s, hs, hwait⟩ : ∃ s ∈ Lts.exec (step id) (State.init 9) contended,
      (s.pc 1).wants? = some head_ ∧ (s.mem head_).spinLock_ = some 0 := by
    decide
  exact ⟨s, hs, ⟨head_, hwait⟩, locks_acyclic (.exec (.init rfl) hs)⟩

end Libeva.Ds.LazyList
