import Libeva.Machine
import Mathlib.Data.Int.CardIntervalMod

/-!
# `ReactorThreadPool`

The base reactor is `0`, and the reactors of the threads are numbered from `1` on in the order of their construction.
`start` gets no callback, as from `TcpServer`. `at` throws outside of the vector, and `getNextReactor` then has no
value.

* `turn`: the reactors take turns.
* `Started`: a pool whose threads are started, after `k` calls of `getNextReactor`; `Started.next` is the next call.
* `turn_count_le`: how often the reactors have been given.
-/

namespace Libeva

structure ReactorThreadPool where
  reactors_ : List ℕ
  threadNum_ : ℤ
  nextIndex_ : ℤ
  deriving DecidableEq

namespace ReactorThreadPool

def new : ReactorThreadPool := ⟨[], 0, 0⟩

def setThreadNum (p : ReactorThreadPool) (threadNum : ℤ) : ReactorThreadPool := { p with threadNum_ := threadNum }

/-- The loop of `start`, with the turns that are left. -/
def startLoop : ℕ → ReactorThreadPool → ReactorThreadPool
  | 0, p => p
  | n + 1, p => startLoop n { p with reactors_ := p.reactors_ ++ [p.reactors_.length + 1] }

def start (p : ReactorThreadPool) : ReactorThreadPool := startLoop p.threadNum_.toNat p

def getNextReactor (p : ReactorThreadPool) : Option (ℕ × ReactorThreadPool) :=
  if 0 < p.threadNum_ then
    p.reactors_[toSize p.nextIndex_]?.map fun ret =>
      (ret, { p with nextIndex_ := (p.nextIndex_ + 1).tmod p.threadNum_ })
  else some (0, p)

/-- The reactor that call `k` of `getNextReactor` gives. -/
def turn (threadNum : ℤ) (k : ℕ) : ℕ := if 0 < threadNum then k % threadNum.toNat + 1 else 0

structure Started (n : ℤ) (k : ℕ) (p : ReactorThreadPool) : Prop where
  reactors : p.reactors_ = (List.range n.toNat).map (· + 1)
  threadNum : p.threadNum_ = n
  nextIndex : 0 < n → p.nextIndex_ = (k % n.toNat : ℕ)

variable {p : ReactorThreadPool} {n : ℤ} {k : ℕ}

theorem startLoop_eq (m : ℕ) (h : p.reactors_ = (List.range k).map (· + 1)) :
    startLoop m p = { p with reactors_ := (List.range (k + m)).map (· + 1) } := by
  induction m generalizing p k with
  | zero =>
    rw [startLoop, Nat.add_zero, ← h]
  | succ m ih =>
    have hnext : p.reactors_ ++ [p.reactors_.length + 1] = (List.range (k + 1)).map (· + 1) := by
      rw [h, List.length_map, List.length_range, List.range_succ, List.map_append]
      rfl
    rw [startLoop, ih (k := k + 1) hnext, Nat.add_right_comm, Nat.add_assoc]

theorem started_start (n : ℤ) : Started n 0 (new.setThreadNum n).start := by
  unfold start
  rw [startLoop_eq (k := 0) _ rfl]
  refine ⟨?_, rfl, fun _ => ?_⟩
  · simp [setThreadNum]
  · simp [setThreadNum, new]

/-- **Round robin.** `at` does not throw. -/
theorem Started.next (h : Started n k p) (hn : n < 2 ^ 31) :
    ∃ p', p.getNextReactor = some (turn n k, p') ∧ Started n (k + 1) p' := by
  unfold getNextReactor turn
  rw [h.threadNum]
  split
  · rename_i hpos
    have hk : k % n.toNat < n.toNat := Nat.mod_lt k (by omega)
    have hget : p.reactors_[toSize p.nextIndex_]? = some (k % n.toNat + 1) := by
      rw [h.reactors, h.nextIndex hpos, toSize_natCast (by omega), List.getElem?_map, List.getElem?_range hk]
      rfl
    rw [hget]
    refine ⟨_, rfl, h.reactors, rfl, fun _ => ?_⟩
    dsimp only
    rw [h.nextIndex hpos, Int.tmod_eq_emod_of_nonneg (by omega)]
    have hn' : n = (n.toNat : ℤ) := (Int.toNat_of_nonneg hpos.le).symm
    rw [hn', Int.toNat_natCast, ← Nat.cast_succ, ← Int.natCast_mod, Nat.succ_eq_add_one, Nat.mod_add_mod]
  · exact ⟨p, rfl, h.reactors, h.threadNum, fun hpos => absurd hpos ‹_›⟩

/-- The reactors have been given equally often, but for one time. -/
theorem turn_count_le {i j : ℕ} (hi : 0 < i) (hin : i ≤ n) (hj : 0 < j) (hjn : j ≤ n) :
    Nat.count (fun c => turn n c = i) k ≤ Nat.count (fun c => turn n c = j) k + 1 := by
  have hpos : 0 < n := by omega
  have hcount : ∀ v < n.toNat, Nat.count (fun c => turn n c = v + 1) k =
      k / n.toNat + if v < k % n.toNat then 1 else 0 := by
    intro v hv
    have h := Nat.count_modEq_card (b := k) (v.zero_le.trans_lt hv) v
    rw [Nat.mod_eq_of_lt hv] at h
    rw [← h]
    congr 1
    funext c
    rw [turn, if_pos hpos, Nat.add_right_cancel_iff, Nat.ModEq, Nat.mod_eq_of_lt hv]
  obtain ⟨i, rfl⟩ := Nat.exists_eq_succ_of_ne_zero hi.ne'
  obtain ⟨j, rfl⟩ := Nat.exists_eq_succ_of_ne_zero hj.ne'
  rw [Nat.succ_eq_add_one, Nat.succ_eq_add_one, hcount i (by omega), hcount j (by omega)]
  split <;> split <;> omega

end ReactorThreadPool

end Libeva
