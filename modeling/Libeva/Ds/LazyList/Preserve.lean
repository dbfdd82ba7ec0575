import Libeva.Ds.LazyList.Invariant

/-!
# Steps that leave the list as it is

`Inv.update` assembles the invariant after a step of thread `t` from the shape, the locks, the argument and the local
variables of `t`, and what the other threads rely on (`Keeps`). The lemmas after it are the kinds of statements that do
not change the list: reads (`Inv.goto`), `lock`, `unlock`, `replace` and `delete`, and writes to nodes that no traversal
can see (`Inv.hidden`: `new`, `setNext`).
-/

namespace Libeva.Ds.LazyList

open Linked (Path follow)

variable {ι α κ : Type*} [LinearOrder κ] {key : α → κ}

/-- The invariant of the interleavings. -/
structure Inv (key : α → κ) (s : State ι α) : Prop where
  shape : Shape key s s.chain
  locks : ∀ t n, (s.mem n).spinLock_ = some t ↔ n ∈ (s.pc t).locks
  arg : ∀ t c, (s.pc t).call? = some c → key c.arg < s.keyOf key tail_
  loc : ∀ t, Local key s (s.pc t)

variable {s s' : State ι α} {l : List Ref} {t u : ι} {p : Pc α} {w : Window α} {n : Ref}

/-! ## Facts about the window of an update -/

theorem Window.Found.pred_ne (h : w.Found key s) : w.pred ≠ w.curr := by
  intro e
  rcases h.1.1 with hp | ⟨_, hp⟩
  · exact h.1.2.ne_head (e ▸ hp)
  · rw [e] at hp; exact absurd h.2 (not_le.2 hp)

theorem Window.Found.pred_lt (h : w.Found key s) (hp : w.pred ≠ head_) : s.keyOf key w.pred < key w.key :=
  (h.1.1.resolve_left hp).2

theorem Window.Found.pred_or (h : w.Found key s) : w.pred = head_ ∨ s.Linked w.pred := h.1.1.imp id And.left

/-- A node whose key is that of the argument is not `tail_`. -/
theorem Window.Found.linked (h : w.Found key s) (hk : s.keyOf key w.curr = key w.key)
    (ha : key w.key < s.keyOf key tail_) : s.Linked w.curr := by
  refine h.1.2.resolve_left ?_
  intro e
  rw [← hk, e] at ha
  exact lt_irrefl _ ha

/-- Only nodes that a traversal can stand on are ever locked. -/
theorem Local.locks_curr (h : Local key s p) (hn : n ∈ p.locks) : n = head_ ∨ s.Curr n := by
  have found : ∀ {w : Window α}, w.Found key s → n = w.pred ∨ n = w.curr → n = head_ ∨ s.Curr n := by
    rintro w hw (rfl | rfl)
    · exact hw.pred_or.imp id .inr
    · exact .inr hw.1.2
  cases p with
  | lockCurr w | unlockPred w r =>
    simp only [Pc.locks, List.mem_singleton] at hn
    exact found h (.inl hn)
  | valPred w | unlockCurr w r =>
    simp only [Pc.locks, List.mem_cons, List.not_mem_nil, or_false] at hn
    exact found h hn
  | valCurr w | valNext w | equalL w | equalR w | delete w =>
    simp only [Pc.locks, List.mem_cons, List.not_mem_nil, or_false] at hn
    exact found h.1 hn
  | replace w | new w | setNext w m | link w m | mark w | readNext w | unlink w m =>
    simp only [Pc.locks, List.mem_cons, List.not_mem_nil, or_false] at hn
    exact found h.1.1 hn
  | _ => simp [Pc.locks] at hn

theorem Shape.curr_lt (h : Shape key s l) (hn : n = head_ ∨ s.Curr n) : n < s.brk := by
  have hb := h.brk
  rcases hn with rfl | rfl | hn
  · exact Nat.lt_trans (by decide) hb
  · exact hb
  · exact hn.2.1

/-- A node that is still private to a thread is none that a traversal can stand on. -/
theorem Shape.fresh_ne (h : Shape key s l) (hf : (s.pc t).fresh? = some n) {m : Ref} (hm : m = head_ ∨ s.Curr m) :
    m ≠ n := by
  rintro rfl
  rcases hm with rfl | rfl | hm
  · exact absurd (h.fresh t _ hf).1 (by decide)
  · exact absurd (h.fresh t _ hf).1 (by decide)
  · exact hm.2.2 t hf

/-! ## Program counters and writes -/

@[simp] theorem write_mem {x : Node ι α} : (s.write n x).mem = Function.update s.mem n x := rfl
@[simp] theorem write_brk {x : Node ι α} : (s.write n x).brk = s.brk := rfl
@[simp] theorem write_live {x : Node ι α} : (s.write n x).live = s.live := rfl
@[simp] theorem write_pc {x : Node ι α} : (s.write n x).pc = s.pc := rfl

/-- A write that keeps a field of the node keeps it for all nodes. -/
theorem write_same {β : Type*} (f : Node ι α → β) {x : Node ι α} (hmem : s'.mem = Function.update s.mem n x)
    (h : f x = f (s.mem n)) (m : Ref) : f (s'.mem m) = f (s.mem m) := by
  rw [hmem]
  by_cases hm : m = n
  · subst hm; rw [Function.update_self, h]
  · rw [Function.update_of_ne hm]

section Update

variable [DecidableEq ι]

@[simp] theorem goto_mem : (s.goto t p).mem = s.mem := rfl
@[simp] theorem goto_brk : (s.goto t p).brk = s.brk := rfl
@[simp] theorem goto_live : (s.goto t p).live = s.live := rfl
@[simp] theorem goto_pc : (s.goto t p).pc = Function.update s.pc t p := rfl
/-- A property of program points that `t` keeps is kept for all threads. -/
theorem update_same {β : Type*} (f : Pc α → β) (hpc : s'.pc = Function.update s.pc t p) (h : f p = f (s.pc t))
    (u : ι) : f (s'.pc u) = f (s.pc u) := by
  rw [hpc]
  by_cases hu : u = t
  · subst hu; rw [Function.update_self, h]
  · rw [Function.update_of_ne hu]

omit [LinearOrder κ] in
/-- A step that creates and links no node. -/
theorem linked_iff (hpc : s'.pc = Function.update s.pc t p) (hb : s'.brk = s.brk)
    (hf : p.fresh? = (s.pc t).fresh?) (n : Ref) : s'.Linked n ↔ s.Linked n := by
  simp only [State.Linked, hb, update_same Pc.fresh? hpc hf]

omit [DecidableEq ι] in
/-- The argument of a call that goes on or ends. -/
theorem Inv.arg_of (h : Inv key s) (hc : p.call? = none ∨ p.call? = (s.pc t).call?) (c : Call α)
    (hp : p.call? = some c) : key c.arg < s.keyOf key tail_ := by
  rcases hc with hc | hc
  · rw [hc] at hp; cases hp
  · exact h.arg t c (by rw [← hc]; exact hp)

theorem Inv.update (h : Inv key s) (hpc : s'.pc = Function.update s.pc t p) (hs : Shape key s' l)
    (hkeep : ∀ u, u ≠ t → Keeps key s s' (s.pc u))
    (hlock : ∀ u n, (s'.mem n).spinLock_ = some u ↔ n ∈ (s'.pc u).locks)
    (htail : s'.keyOf key tail_ = s.keyOf key tail_) (harg : ∀ c, p.call? = some c → key c.arg < s.keyOf key tail_)
    (hloc : Local key s' p) : Inv key s' := by
  refine ⟨by rw [hs.chain_eq]; exact hs, hlock, ?_, ?_⟩
  · intro u c hc
    rw [htail]
    by_cases hu : u = t
    · subst hu
      rw [hpc, Function.update_self] at hc
      exact harg c hc
    · rw [hpc, Function.update_of_ne hu] at hc
      exact h.arg u c hc
  · intro u
    by_cases hu : u = t
    · subst hu; rw [hpc, Function.update_self]; exact hloc
    · rw [hpc, Function.update_of_ne hu]; exact (h.loc u).keeps (hkeep u hu)

/-- The owners of the locks when no lock changes. -/
theorem Inv.locks_same (h : Inv key s) (hpc : s'.pc = Function.update s.pc t p) (hp : p.locks = (s.pc t).locks)
    (hl : ∀ n, (s'.mem n).spinLock_ = (s.mem n).spinLock_) (u : ι) (n : Ref) :
    (s'.mem n).spinLock_ = some u ↔ n ∈ (s'.pc u).locks := by
  rw [hl, update_same Pc.locks hpc hp]; exact h.locks u n

omit [LinearOrder κ] in
/-- A step that changes no node a traversal can see, no address and no private node. -/
theorem Keeps.same (hpc : s'.pc = Function.update s.pc t p) (hp : p.fresh? = (s.pc t).fresh?) (hb : s'.brk = s.brk)
    (hn : ∀ n, s'.next n = s.next n) (hm : ∀ n, s'.marked n = s.marked n) (hk : ∀ n, s'.keyOf key n = s.keyOf key n)
    (hf : ∀ n, (s.pc u).fresh? = some n → s'.mem n = s.mem n) : Keeps key s s' (s.pc u) where
  linked m := (linked_iff hpc hb hp m).2
  key m _ := hk m
  locked m _ := ⟨hm m, hn m⟩
  fresh := hf

/-- A step that writes no node moves only the program counter, and perhaps the heap. -/
theorem Inv.goto (h : Inv key s) (hpc : s'.pc = Function.update s.pc t p) (hmem : s'.mem = s.mem)
    (hb : s'.brk = s.brk) (hl : p.locks = (s.pc t).locks) (hf : p.fresh? = (s.pc t).fresh?)
    (hu : p.unlinking? = (s.pc t).unlinking?) (harg : ∀ c, p.call? = some c → key c.arg < s.keyOf key tail_)
    (hloc : Local key s p) : Inv key s' := by
  have hm : ∀ n, s'.mem n = s.mem n := fun n => by rw [hmem]
  have hk : ∀ n, s'.keyOf key n = s.keyOf key n := fun n => by rw [State.keyOf, hm]; rfl
  have keep : ∀ q : Pc α, Keeps key s s' q := fun q =>
    ⟨fun n => (linked_iff hpc hb hf n).2, fun n _ => hk n,
      fun n _ => by simp only [State.marked, State.next, hm, and_self], fun n _ => hm n⟩
  exact h.update hpc (h.shape.congr (fun n => by rw [State.next, hm]) (fun n => by rw [State.marked, hm]) hk hb
    (update_same _ hpc hf) (update_same _ hpc hu)) (fun u _ => keep _)
    (h.locks_same hpc hl fun n => by rw [hm]) (hk _) harg (hloc.keeps (keep p))

/-- A read by the statement at `q` leads to `p`. -/
theorem Inv.read {q : Pc α} (h : Inv key s) (hp : s.pc t = q) (hl : p.locks = q.locks) (hf : p.fresh? = q.fresh?)
    (hu : p.unlinking? = q.unlinking?) (hc : p.call? = none ∨ p.call? = q.call?) (hloc : Local key s p) :
    Inv key (s.goto t p) := by
  subst hp
  exact h.goto rfl rfl rfl hl hf hu (h.arg_of hc) hloc

/-- A thread without a call starts one. -/
theorem Inv.invoke (h : Inv key s) {c : Call α} (hp : (s.pc t).locks = [] ∧ (s.pc t).fresh? = none ∧
    (s.pc t).unlinking? = none) (hc : key c.arg < s.keyOf key tail_) : Inv key (s.goto t c.entry) := by
  obtain ⟨hl, hf, hu⟩ := hp
  refine h.goto rfl rfl rfl ?_ ?_ ?_ ?_ ?_
  · rw [hl]; cases c <;> rfl
  · rw [hf]; cases c <;> rfl
  · rw [hu]; cases c <;> rfl
  · intro c' hc'
    have : c' = c := by cases c <;> exact (Option.some.inj hc').symm
    rw [this]; exact hc
  · cases c with
    | update u k => exact trivial
    | get k => exact trivial
    | contains k => exact .inl rfl

/-- A write to a lock or to an entry, with the key kept, at a node that a traversal can see. -/
theorem Inv.write (h : Inv key s) {x : Node ι α} (hx : x.next_ = s.next n) (hm : x.marked_ = s.marked n)
    (hk : key x.entry_ = s.keyOf key n) (hn : n = head_ ∨ s.Curr n) (hf : p.fresh? = (s.pc t).fresh?)
    (hu : p.unlinking? = (s.pc t).unlinking?) (hc : p.call? = none ∨ p.call? = (s.pc t).call?)
    (hnone : p.fresh? = none)
    (hlock : ∀ u m, (((s.write n x).goto t p).mem m).spinLock_ = some u ↔ m ∈ (((s.write n x).goto t p).pc u).locks)
    (hloc : Local key s p) : Inv key ((s.write n x).goto t p) := by
  have same : ∀ u, (∀ m, (s.pc u).fresh? = some m → ((s.write n x).goto t p).mem m = s.mem m) := by
    intro u m hm'
    rw [goto_mem, write_mem, Function.update_of_ne (h.shape.fresh_ne hm' hn).symm]
  have keep : ∀ u, Keeps key s ((s.write n x).goto t p) (s.pc u) := fun u =>
    .same rfl hf rfl (write_same Node.next_ rfl hx) (write_same Node.marked_ rfl hm)
      (write_same (fun y => key y.entry_) rfl hk) (same u)
  refine h.update rfl (h.shape.congr (write_same Node.next_ rfl hx) (write_same Node.marked_ rfl hm)
    (write_same (fun y => key y.entry_) rfl hk) rfl (update_same _ rfl hf) (update_same _ rfl hu))
    (fun u _ => keep u) hlock (write_same (fun y => key y.entry_) rfl hk _) (h.arg_of hc) (hloc.keeps ?_)
  exact ⟨(keep t).linked, (keep t).key,
    fun m _ => ⟨write_same Node.marked_ rfl hm m, write_same Node.next_ rfl hx m⟩,
    fun m hm' => by rw [hnone] at hm'; cases hm'⟩

/-- A free lock is taken. -/
theorem Inv.lock (h : Inv key s) (hfree : (s.mem n).spinLock_ = none) (hn : n = head_ ∨ s.Curr n)
    (hl : ∀ m, m ∈ p.locks ↔ m = n ∨ m ∈ (s.pc t).locks) (hf : p.fresh? = none) (hf' : (s.pc t).fresh? = none)
    (hu : p.unlinking? = (s.pc t).unlinking?) (hc : p.call? = (s.pc t).call?) (hloc : Local key s p) :
    Inv key ((s.write n { s.mem n with spinLock_ := some t }).goto t p) := by
  refine h.write rfl rfl rfl hn (hf.trans hf'.symm) hu (.inr hc) hf ?_ hloc
  intro u m
  have hm := h.locks u m
  simp only [goto_mem, write_mem, goto_pc, write_pc]
  by_cases hu : u = t <;> by_cases hmn : m = n
  · subst hu hmn; simp [hl]
  · subst hu; simp [hmn, hl, hm]
  · subst hmn
    have : m ∉ (s.pc u).locks := fun hin => by rw [← hm, hfree] at hin; cases hin
    simp [Function.update_of_ne hu, this, Ne.symm hu]
  · simp [Function.update_of_ne hu, hmn, hm]

/-- A held lock is released. -/
theorem Inv.unlock (h : Inv key s) (hheld : n ∈ (s.pc t).locks)
    (hl : ∀ m, m ∈ p.locks ↔ m ≠ n ∧ m ∈ (s.pc t).locks) (hf : p.fresh? = none) (hf' : (s.pc t).fresh? = none)
    (hu : p.unlinking? = (s.pc t).unlinking?) (hc : p.call? = none ∨ p.call? = (s.pc t).call?)
    (hloc : Local key s p) : Inv key ((s.write n { s.mem n with spinLock_ := none }).goto t p) := by
  refine h.write rfl rfl rfl ((h.loc t).locks_curr hheld) (hf.trans hf'.symm) hu hc hf ?_ hloc
  intro u m
  have hm := h.locks u m
  simp only [goto_mem, write_mem, goto_pc, write_pc]
  by_cases hu : u = t <;> by_cases hmn : m = n
  · subst hu hmn; simp [hl]
  · subst hu; simp [hmn, hl, hm]
  · subst hmn
    have : m ∉ (s.pc u).locks := by
      intro hin
      rw [← hm, (h.locks t m).2 hheld] at hin
      exact hu (Option.some.inj hin).symm
    simp [Function.update_of_ne hu, this]
  · simp [Function.update_of_ne hu, hmn, hm]

/-- `curr->entry_ = std::move( key )`. -/
theorem Inv.replace (h : Inv key s) (hp : s.pc t = .replace w) :
    Inv key ((s.write w.curr { s.mem w.curr with entry_ := w.key }).goto t (.unlockCurr w (some true))) := by
  have hloc := h.loc t
  rw [hp] at hloc
  refine h.write rfl rfl hloc.2.2.symm (.inr hloc.1.1.1.2) (by rw [hp]; rfl) (by rw [hp]; rfl) (.inr (by rw [hp]; rfl))
    rfl (h.locks_same rfl (by rw [hp]; rfl) (write_same Node.spinLock_ rfl rfl)) hloc.1.1

/-- `delete curr` takes the cell out of the heap and leaves its memory alone. -/
theorem Inv.delete (h : Inv key s) (hp : s.pc t = .delete w) :
    Inv key ({ s with live := Function.update s.live w.curr false }.goto t (.unlockCurr w (some true))) := by
  have hloc := h.loc t
  rw [hp] at hloc
  exact h.goto rfl rfl rfl (by rw [hp]; rfl) (by rw [hp]; rfl) (by rw [hp]; rfl) (h.arg_of (.inr (by rw [hp]; rfl)))
    hloc.1

/-! ## Creating a node -/

/-- A step that writes only nodes which no traversal can see: the private node of `t`, or a new one. -/
theorem Inv.hidden (h : Inv key s) (hpc : s'.pc = Function.update s.pc t p) (hl : ∀ n, s'.Linked n ↔ s.Linked n)
    (hx : ∀ n, n = head_ ∨ s.Curr n → s'.mem n = s.mem n) (hb : s.brk ≤ s'.brk)
    (hfr : ∀ u n, (s'.pc u).fresh? = some n → tail_ < n ∧ n < s'.brk)
    (hinj : ∀ u v n, (s'.pc u).fresh? = some n → (s'.pc v).fresh? = some n → u = v)
    (hother : ∀ u, u ≠ t → ∀ n, (s.pc u).fresh? = some n → s'.mem n = s.mem n)
    (hlocks : p.locks = (s.pc t).locks) (hnew : ∀ n, ¬(n = head_ ∨ s.Curr n) → ∀ u, (s'.mem n).spinLock_ ≠ some u)
    (hu : p.unlinking? = (s.pc t).unlinking?) (hcall : p.call? = none ∨ p.call? = (s.pc t).call?)
    (hloc : Local key s' p) : Inv key s' := by
  have hsh := h.shape
  have hk : ∀ {n}, n = head_ ∨ s.Curr n → s'.keyOf key n = s.keyOf key n := fun hn => by
    rw [State.keyOf, hx _ hn]; rfl
  have hc : ∀ n, s'.Linked n → n = head_ ∨ s.Curr n := fun n hn => .inr (.inr ((hl n).1 hn))
  have hchain : ∀ n ∈ s.chain, n = head_ ∨ s.Curr n := fun n hn => .inr (.inr (hsh.linked n hn))
  refine h.update hpc (l := s.chain) ?_ ?_ ?_ (hk (.inr (.inl rfl)))
    (h.arg_of hcall) hloc
  · exact
      { path := hsh.path.congr fun x hxm => by
          rw [State.next, hx x ((List.mem_cons.1 hxm).elim .inl (hchain x))]
        linked := fun n hn => (hl n).2 (hsh.linked n hn)
        sorted := hsh.sorted.imp_of_mem fun {a b} ha hb hab => by
          rw [hk (hchain a ha), hk (hchain b hb)]; exact hab
        complete := fun n hn hmk => hsh.complete n ((hl n).1 hn) (by rw [State.marked, ← hx n (hc n hn)]; exact hmk)
        unlinking := by
          intro n hn hmk
          obtain ⟨u, hu'⟩ := hsh.unlinking n hn (by rw [State.marked, ← hx n (hchain n hn)]; exact hmk)
          exact ⟨u, by rw [update_same Pc.unlinking? hpc hu]; exact hu'⟩
        succ := by
          intro n hn
          obtain ⟨m, h1, h2, h3⟩ := hsh.succ n ((hl n).1 hn)
          exact ⟨m, by rw [State.next, hx n (hc n hn)]; exact h1, h2.keeps fun y => (hl y).2,
            by rw [hk (hc n hn), hk (.inr h2)]; exact h3⟩
        lt_max := fun n hn => by rw [hk (hc n hn), hk (.inr (.inl rfl))]; exact hsh.lt_max n ((hl n).1 hn)
        head := by rw [State.marked, hx _ (.inl rfl)]; exact hsh.head
        tail := by rw [State.marked, hx _ (.inr (.inl rfl))]; exact hsh.tail
        brk := Nat.lt_of_lt_of_le hsh.brk hb
        fresh := hfr
        fresh_inj := hinj }
  · intro u hu
    exact
      { linked := fun n => (hl n).2
        key := fun n hn => hk (.inr hn)
        locked := by
          intro n hn
          rw [State.marked, State.next, hx n ((h.loc u).locks_curr hn)]; exact ⟨rfl, rfl⟩
        fresh := hother u hu }
  · intro u n
    rw [update_same Pc.locks hpc hlocks]
    by_cases hn : n = head_ ∨ s.Curr n
    · rw [hx n hn]; exact h.locks u n
    · exact ⟨fun e => absurd e (hnew n hn u), fun hin => absurd ((h.loc u).locks_curr hin) hn⟩

/-- `new EntryNode( std::move( key ) )`. -/
theorem Inv.new (h : Inv key s) (hp : s.pc t = .new w) :
    Inv key ({ s.write s.brk ⟨w.key, none, none, false⟩ with
      brk := s.brk + 1, live := Function.update s.live s.brk true }.goto t (.setNext w s.brk)) := by
  generalize hs' : ({ s.write s.brk ⟨w.key, none, none, false⟩ with
      brk := s.brk + 1, live := Function.update s.live s.brk true }.goto t (.setNext w s.brk) : State ι α) = s'
  have hpc : s'.pc = Function.update s.pc t (.setNext w s.brk) := by rw [← hs']; rfl
  have hbrk : s'.brk = s.brk + 1 := by rw [← hs']; rfl
  have hnew : s'.mem s.brk = ⟨w.key, none, none, false⟩ := by rw [← hs']; simp
  have hmem : ∀ {n}, n ≠ s.brk → s'.mem n = s.mem n := fun hn => by rw [← hs']; simp [Function.update_of_ne hn]
  have hloc := h.loc t
  rw [hp] at hloc
  have hsh := h.shape
  have hf : ∀ u, u ≠ t → (s'.pc u).fresh? = (s.pc u).fresh? := fun u hu => by rw [hpc, Function.update_of_ne hu]
  have hft : (s'.pc t).fresh? = some s.brk := by rw [hpc, Function.update_self]; rfl
  have hx : ∀ n, n = head_ ∨ s.Curr n → s'.mem n = s.mem n := fun n hn => hmem (Nat.ne_of_lt (hsh.curr_lt hn))
  have hl : ∀ n, s'.Linked n ↔ s.Linked n := by
    intro n
    constructor
    · rintro ⟨h1, h2, h3⟩
      have hne : n ≠ s.brk := fun e => h3 t (by rw [hft, e])
      refine ⟨h1, by rw [hbrk] at h2; exact Nat.lt_of_le_of_ne (Nat.lt_succ_iff.1 h2) hne, ?_⟩
      intro u
      by_cases hu : u = t
      · rw [hu, hp]; exact nofun
      · rw [← hf u hu]; exact h3 u
    · rintro ⟨h1, h2, h3⟩
      refine ⟨h1, by rw [hbrk]; exact Nat.lt_succ_of_lt h2, ?_⟩
      intro u
      by_cases hu : u = t
      · rw [hu, hft]; exact fun e => absurd (Option.some.inj e) (Nat.ne_of_gt h2)
      · rw [hf u hu]; exact h3 u
  have hk : ∀ n, s.Curr n → s'.keyOf key n = s.keyOf key n := fun n hn => by rw [State.keyOf, hx n (.inr hn)]; rfl
  refine h.hidden hpc hl hx (by rw [hbrk]; exact Nat.le_succ _) (fun u n hu => ?_) (fun u v n hu hv => ?_)
    (fun u _ n hn => hmem (Nat.ne_of_lt (hsh.fresh u n hn).2)) (by rw [hp]; rfl) (fun n hn u => ?_) (by rw [hp]; rfl)
    (.inr (by rw [hp]; rfl)) ?_
  · rw [hbrk]
    by_cases hut : u = t
    · rw [hut, hft] at hu; cases hu; exact ⟨hsh.brk, Nat.lt_succ_self _⟩
    · rw [hf u hut] at hu
      exact ⟨(hsh.fresh u n hu).1, Nat.lt_succ_of_lt (hsh.fresh u n hu).2⟩
  · by_cases hut : u = t <;> by_cases hvt : v = t
    · rw [hut, hvt]
    · rw [hut, hft] at hu; rw [hf v hvt] at hv
      cases hu; exact absurd (hsh.fresh v _ hv).2 (Nat.lt_irrefl _)
    · rw [hvt, hft] at hv; rw [hf u hut] at hu
      cases hv; exact absurd (hsh.fresh u _ hu).2 (Nat.lt_irrefl _)
    · rw [hf u hut] at hu; rw [hf v hvt] at hv; exact hsh.fresh_inj u v n hu hv
  · by_cases hnb : n = s.brk
    · rw [hnb, hnew]; exact nofun
    · rw [hmem hnb]
      exact fun e => hn ((h.loc u).locks_curr ((h.locks u n).1 e))
  · obtain ⟨⟨hfound, hv⟩, hadd, hlt⟩ := hloc
    refine ⟨⟨hfound.keeps (fun n => (hl n).2) hk, ?_⟩, hadd, ?_, by rw [hnew], by rw [State.marked, hnew]⟩
    · simp only [State.marked, State.next, hx _ (.inr hfound.1.2), hx _ (hfound.pred_or.imp id .inr)]
      exact hv
    · rw [hk _ hfound.1.2]; exact hlt

/-- `entry->next_ = curr`. -/
theorem Inv.setNext (h : Inv key s) (hp : s.pc t = .setNext w n) :
    Inv key ((s.write n { s.mem n with next_ := some w.curr }).goto t (.link w n)) := by
  generalize hs' : (s.write n { s.mem n with next_ := some w.curr }).goto t (.link w n) = s'
  have hpc : s'.pc = Function.update s.pc t (.link w n) := by rw [← hs']; rfl
  have hmem : s'.mem = Function.update s.mem n { s.mem n with next_ := some w.curr } := by rw [← hs']; rfl
  have hbrk : s'.brk = s.brk := by rw [← hs']; rfl
  have hloc := h.loc t
  rw [hp] at hloc
  have hsh := h.shape
  have hfn : (s.pc t).fresh? = some n := by rw [hp]; rfl
  have hf : ∀ u, (s'.pc u).fresh? = (s.pc u).fresh? := update_same _ hpc (by rw [hp]; rfl)
  have hl : ∀ m, s'.Linked m ↔ s.Linked m := linked_iff hpc hbrk (by rw [hp]; rfl)
  have hm : ∀ m, s'.marked m = s.marked m := write_same Node.marked_ hmem rfl
  have hk : ∀ m, s'.keyOf key m = s.keyOf key m := write_same (fun y => key y.entry_) hmem rfl
  have hx : ∀ m, m = head_ ∨ s.Curr m → s'.mem m = s.mem m := by
    intro m hx
    rw [hmem, Function.update_of_ne (hsh.fresh_ne hfn hx)]
  refine h.hidden hpc hl hx (Nat.le_of_eq hbrk.symm) (fun u m hu => by rw [hf] at hu; rw [hbrk]; exact hsh.fresh u m hu)
    (fun u v m hu hv => by rw [hf] at hu hv; exact hsh.fresh_inj u v m hu hv) (fun u hu m hm' => ?_) (by rw [hp]; rfl)
    (fun m hm' u => ?_) (by rw [hp]; rfl) (.inr (by rw [hp]; rfl)) ?_
  · have hne : m ≠ n := by rintro rfl; exact hu (hsh.fresh_inj u t m hm' hfn)
    rw [hmem, Function.update_of_ne hne]
  · rw [write_same Node.spinLock_ hmem rfl]
    exact fun e => hm' ((h.loc u).locks_curr ((h.locks u m).1 e))
  · obtain ⟨hv, hadd, hlt, hent, hmk⟩ := hloc
    refine ⟨⟨hv.1.keeps (fun m => (hl m).2) fun m _ => hk m, ?_⟩, hadd, by rw [hk]; exact hlt, ?_, ?_, ?_⟩
    · rw [hm, hm, State.next, hx _ (hv.1.pred_or.imp id .inr)]; exact hv.2
    · rw [hmem, Function.update_self]; exact hent
    · rw [hm]; exact hmk
    · rw [State.next, hmem, Function.update_self]

end Update

end Libeva.Ds.LazyList
