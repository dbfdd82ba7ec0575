import Libeva.Ds.LazyList.Threads
import Libeva.Lib.Linked

/-!
# The invariant of `LazyList` under threads

* `Shape s l`: the nodes between `head_` and `tail_` are `l`, sorted; every unmarked linked node is among them, a marked
  one only while its remover is between mark and unlink; and every linked node, unlinked or not, still has a successor
  with a larger key, so that a traversal that stands on it goes on.
* `Local s p`: what the local variables of a call at `p` mean in `s`. `Local.keeps` says which changes of other threads
  they survive: a call relies on the nodes it has locked, on its own new node, and on keys never changing.
* `Inv` joins both with the owners of the locks; `Inv.step` is its preservation, one lemma for each kind of statement.
-/

namespace Libeva.Ds.LazyList

open Linked (Path follow)

variable {ι α κ : Type*} [LinearOrder κ] (key : α → κ)

/-! ## The list in memory -/

abbrev State.next (s : State ι α) (n : Ref) : Option Ref := (s.mem n).next_

abbrev State.marked (s : State ι α) (n : Ref) : Bool := (s.mem n).marked_

def State.keyOf (s : State ι α) (n : Ref) : κ := key (s.mem n).entry_

/-- The nodes on the `next_` chain from `head_`, up to `tail_`. -/
def State.chain (s : State ι α) : List Ref := follow s.next tail_ s.brk (s.next head_)

/-- A node that an `add` has created and linked, whether or not it has been unlinked since. -/
def State.Linked (s : State ι α) (n : Ref) : Prop := tail_ < n ∧ n < s.brk ∧ ∀ t, (s.pc t).fresh? ≠ some n

/-- A node that a traversal can stand on behind `head_`. -/
def State.Curr (s : State ι α) (n : Ref) : Prop := n = tail_ ∨ s.Linked n

structure Shape (s : State ι α) (l : List Ref) : Prop where
  path : Path s.next head_ l tail_
  linked : ∀ n ∈ l, s.Linked n
  sorted : l.Pairwise fun a b => s.keyOf key a < s.keyOf key b
  complete : ∀ n, s.Linked n → s.marked n = false → n ∈ l
  unlinking : ∀ n ∈ l, s.marked n = true → ∃ t, (s.pc t).unlinking? = some n
  succ : ∀ n, s.Linked n → ∃ m, s.next n = some m ∧ s.Curr m ∧ s.keyOf key n < s.keyOf key m
  lt_max : ∀ n, s.Linked n → s.keyOf key n < s.keyOf key tail_
  head : s.marked head_ = false
  tail : s.marked tail_ = false
  brk : tail_ < s.brk
  fresh : ∀ t n, (s.pc t).fresh? = some n → tail_ < n ∧ n < s.brk
  fresh_inj : ∀ t u n, (s.pc t).fresh? = some n → (s.pc u).fresh? = some n → t = u

variable {key} {s s' : State ι α} {l : List Ref} {t : ι}

theorem State.Linked.ne_head {n : Ref} (h : s.Linked n) : n ≠ head_ := by
  rintro rfl; exact absurd h.1 (by decide)

theorem State.Linked.ne_tail {n : Ref} (h : s.Linked n) : n ≠ tail_ := by
  rintro rfl; exact absurd h.1 (by decide)

theorem State.Curr.ne_head {n : Ref} (h : s.Curr n) : n ≠ head_ := by
  rcases h with rfl | h
  · simp [head_, tail_]
  · exact h.ne_head

theorem Shape.nodup (h : Shape key s l) : (head_ :: l).Nodup := by
  refine List.nodup_cons.2 ⟨fun hm => (h.linked _ hm).ne_head rfl, ?_⟩
  exact h.sorted.imp fun {a b} (hab : s.keyOf key a < s.keyOf key b) (e : a = b) => absurd hab (by simp [e])

theorem Shape.tail_notMem (h : Shape key s l) : tail_ ∉ l := fun hm => (h.linked _ hm).ne_tail rfl

/-- There are fewer nodes on the list than addresses in use. -/
theorem Shape.length_lt (h : Shape key s l) : l.length < s.brk := by
  have hd : (head_ :: tail_ :: l).Nodup := by
    have := h.nodup
    simp only [List.nodup_cons, List.mem_cons] at this ⊢
    exact ⟨by simp only [not_or]; exact ⟨by simp [head_, tail_], this.1⟩, h.tail_notMem, this.2⟩
  have hb := h.brk
  have := Linked.length_le_of_nodup (n := s.brk) hd fun x hx => by
    simp only [List.mem_cons] at hx
    rcases hx with rfl | rfl | hx
    · exact Nat.lt_of_le_of_lt (Nat.zero_le _) hb
    · exact hb
    · exact (h.linked x hx).2.1
  simp only [List.length_cons] at this
  omega

/-- The computed chain is the list of the shape. -/
theorem Shape.chain_eq (h : Shape key s l) : s.chain = l := h.path.follow_eq h.tail_notMem h.length_lt

/-- A node that can be traversed and is unmarked is on the list or one of its ends. -/
theorem Shape.mem_of_unmarked (h : Shape key s l) {n : Ref} (hn : n = head_ ∨ s.Linked n)
    (hm : s.marked n = false) : n ∈ head_ :: l := by
  rcases hn with rfl | hn
  · exact List.mem_cons_self
  · exact List.mem_cons_of_mem _ (h.complete n hn hm)

theorem Shape.head_succ (h : Shape key s l) : ∃ m, s.next head_ = some m ∧ s.Curr m := by
  obtain ⟨m, hm, hn⟩ := h.path.succ head_ List.mem_cons_self
  refine ⟨m, hn, ?_⟩
  rcases List.mem_append.1 hm with hm | hm
  · exact .inr (h.linked m hm)
  · exact .inl (List.mem_singleton.1 hm)

/-- Steps that touch no successor, mark, key or address keep the shape. -/
theorem Shape.congr (h : Shape key s l) (hn : ∀ n, s'.next n = s.next n) (hm : ∀ n, s'.marked n = s.marked n)
    (hk : ∀ n, s'.keyOf key n = s.keyOf key n) (hb : s'.brk = s.brk) (hf : ∀ t, (s'.pc t).fresh? = (s.pc t).fresh?)
    (hu : ∀ t, (s'.pc t).unlinking? = (s.pc t).unlinking?) : Shape key s' l := by
  have hl : ∀ n, s'.Linked n ↔ s.Linked n := fun n => by simp only [State.Linked, hb, hf]
  have hc : ∀ n, s'.Curr n ↔ s.Curr n := fun n => by simp only [State.Curr, hl]
  exact
    { path := h.path.congr fun x _ => hn x
      linked := fun n hx => (hl n).2 (h.linked n hx)
      sorted := by simpa only [hk] using h.sorted
      complete := fun n hx hmk => h.complete n ((hl n).1 hx) (by rw [← hm]; exact hmk)
      unlinking := by
        intro n hx hmk
        obtain ⟨t, ht⟩ := h.unlinking n hx (by rw [← hm]; exact hmk)
        exact ⟨t, by rw [hu]; exact ht⟩
      succ := by
        intro n hx
        obtain ⟨m, h1, h2, h3⟩ := h.succ n ((hl n).1 hx)
        exact ⟨m, by rw [hn]; exact h1, (hc m).2 h2, by rw [hk, hk]; exact h3⟩
      lt_max := fun n hx => by rw [hk, hk]; exact h.lt_max n ((hl n).1 hx)
      head := by rw [hm]; exact h.head
      tail := by rw [hm]; exact h.tail
      brk := by rw [hb]; exact h.brk
      fresh := fun t n ht => by rw [hb]; exact h.fresh t n (by rw [← hf]; exact ht)
      fresh_inj := fun t u n ht hu' => h.fresh_inj t u n (by rw [← hf]; exact ht) (by rw [← hf]; exact hu') }

/-! ## The local variables of a call -/

variable (key)

/-- In the traversal: `pred` lies before the key. -/
def Window.Seen (s : State ι α) (w : Window α) : Prop :=
  (w.pred = head_ ∨ (s.Linked w.pred ∧ s.keyOf key w.pred < key w.key)) ∧ s.Curr w.curr

/-- After the traversal: `curr` does not lie before the key. -/
def Window.Found (s : State ι α) (w : Window α) : Prop := w.Seen key s ∧ key w.key ≤ s.keyOf key w.curr

/-- Both locks held and `validate` passed. -/
def Window.Valid (s : State ι α) (w : Window α) : Prop :=
  w.Found key s ∧ s.marked w.pred = false ∧ s.marked w.curr = false ∧ s.next w.pred = some w.curr

/-- `curr` marked and not unlinked yet. -/
def Window.Cut (s : State ι α) (w : Window α) : Prop :=
  w.Found key s ∧ s.marked w.pred = false ∧ s.marked w.curr = true ∧ s.next w.pred = some w.curr

def Local (s : State ι α) : Pc α → Prop
  | .loop w => w.Seen key s
  | .next _ k c => s.Linked c ∧ s.keyOf key c < key k
  | .lockPred w | .lockCurr w | .valPred w | .unlockCurr w _ | .unlockPred w _ => w.Found key s
  | .valCurr w => w.Found key s ∧ s.marked w.pred = false
  | .valNext w => w.Found key s ∧ s.marked w.pred = false ∧ s.marked w.curr = false
  | .equalL w | .equalR w => w.Valid key s
  | .replace w => w.Valid key s ∧ w.upd = .add ∧ s.keyOf key w.curr = key w.key
  | .new w => w.Valid key s ∧ w.upd = .add ∧ key w.key < s.keyOf key w.curr
  | .setNext w n => w.Valid key s ∧ w.upd = .add ∧ key w.key < s.keyOf key w.curr ∧ (s.mem n).entry_ = w.key ∧
      s.marked n = false
  | .link w n => w.Valid key s ∧ w.upd = .add ∧ key w.key < s.keyOf key w.curr ∧ (s.mem n).entry_ = w.key ∧
      s.marked n = false ∧ s.next n = some w.curr
  | .mark w => w.Valid key s ∧ w.upd = .remove ∧ s.keyOf key w.curr = key w.key
  | .readNext w => w.Cut key s ∧ w.upd = .remove ∧ s.keyOf key w.curr = key w.key
  | .unlink w m => w.Cut key s ∧ w.upd = .remove ∧ s.keyOf key w.curr = key w.key ∧ s.next w.curr = m
  | .delete w => w.Found key s ∧ w.upd = .remove
  | .getLoop _ c => s.Curr c
  | .getNext k c => s.Linked c ∧ s.keyOf key c < key k
  | .getMarked k c | .getEqualL k c | .getEqualR k c => s.Curr c ∧ key k ≤ s.keyOf key c
  | .getEntry k c => s.Curr c ∧ s.keyOf key c = key k
  | .conLoop _ c | .conEqualL _ c | .conEqualR _ c | .conMarked _ c => c = head_ ∨ s.Curr c
  | .conNext _ c => c = head_ ∨ s.Linked c
  | .crash => False
  | _ => True

/-- What a call at `p` relies on when another thread takes the state from `s` to `s'`. -/
structure Keeps (s s' : State ι α) (p : Pc α) : Prop where
  linked : ∀ n, s.Linked n → s'.Linked n
  key : ∀ n, s.Curr n → s'.keyOf key n = s.keyOf key n
  locked : ∀ n ∈ p.locks, s'.marked n = s.marked n ∧ s'.next n = s.next n
  fresh : ∀ n, p.fresh? = some n → s'.mem n = s.mem n

variable {key} {w : Window α} {p : Pc α}

theorem State.Curr.keeps {n : Ref} (hl : ∀ n, s.Linked n → s'.Linked n) (h : s.Curr n) : s'.Curr n :=
  h.imp id (hl n)

theorem Window.Seen.keeps (hl : ∀ n, s.Linked n → s'.Linked n)
    (hk : ∀ n, s.Curr n → s'.keyOf key n = s.keyOf key n) (h : w.Seen key s) : w.Seen key s' := by
  refine ⟨h.1.imp id fun h1 => ⟨hl _ h1.1, ?_⟩, h.2.keeps hl⟩
  rw [hk _ (.inr h1.1)]; exact h1.2

theorem Window.Found.keeps (hl : ∀ n, s.Linked n → s'.Linked n)
    (hk : ∀ n, s.Curr n → s'.keyOf key n = s.keyOf key n) (h : w.Found key s) : w.Found key s' :=
  ⟨h.1.keeps hl hk, by rw [hk _ h.1.2]; exact h.2⟩

theorem Local.keeps (hk : Keeps key s s' p) (h : Local key s p) : Local key s' p := by
  obtain ⟨hl, hkey, hlock, hfr⟩ := hk
  have seen : ∀ w : Window α, w.Seen key s → w.Seen key s' := fun w => .keeps hl hkey
  have found : ∀ w : Window α, w.Found key s → w.Found key s' := fun w => .keeps hl hkey
  have curr : ∀ {w : Window α}, w.Found key s → s'.keyOf key w.curr = s.keyOf key w.curr := fun hw => hkey _ hw.1.2
  cases p with
  | loop w => exact seen w h
  | next u k c => exact ⟨hl c h.1, by rw [hkey c (.inr h.1)]; exact h.2⟩
  | lockPred w | lockCurr w | valPred w | unlockCurr w r | unlockPred w r => exact found w h
  | valCurr w => exact ⟨found w h.1, by rw [(hlock w.pred (by simp [Pc.locks])).1]; exact h.2⟩
  | valNext w =>
    obtain ⟨h1, h2, h3⟩ := h
    exact ⟨found w h1, by rw [(hlock w.pred (by simp [Pc.locks])).1]; exact h2,
      by rw [(hlock w.curr (by simp [Pc.locks])).1]; exact h3⟩
  | equalL w | equalR w | replace w | new w | setNext w n | link w n | mark w | readNext w | unlink w m =>
    obtain ⟨hp1, hp2⟩ := hlock w.pred (by simp [Pc.locks])
    obtain ⟨hc1, hc2⟩ := hlock w.curr (by simp [Pc.locks])
    have hfr' := fun n hn => hfr n hn
    simp only [Local, Window.Valid, Window.Cut, Pc.fresh?, Option.some.injEq, State.marked, State.next] at *
    first
      | exact ⟨found w h.1, by rw [hp1]; exact h.2.1, by rw [hc1]; exact h.2.2.1, by rw [hp2]; exact h.2.2.2⟩
      | simp_all [curr h.1.1]
  | delete w => exact ⟨found w h.1, h.2⟩
  | getLoop k c => exact State.Curr.keeps hl h
  | getNext k c => exact ⟨hl c h.1, by rw [hkey c (.inr h.1)]; exact h.2⟩
  | getMarked k c | getEqualL k c | getEqualR k c => exact ⟨h.1.keeps hl, by rw [hkey c h.1]; exact h.2⟩
  | getEntry k c => exact ⟨h.1.keeps hl, by rw [hkey c h.1]; exact h.2⟩
  | conLoop k c | conEqualL k c | conEqualR k c | conMarked k c => exact h.imp id (.keeps hl)
  | conNext k c => exact h.imp id (hl c)
  | crash => exact h
  | _ => trivial

end Libeva.Ds.LazyList
