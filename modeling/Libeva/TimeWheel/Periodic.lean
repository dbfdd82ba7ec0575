import Libeva.TimeWheel.Expiry

/-!
# Timers that run again

All timers, one-shot and repeating ones, that are added at any time and by callbacks too, at least a millisecond ahead
of `start_`. Time is exact: a `double` is a rational number here.

* `times` is the time for which a timer has been added last: by the call, or by `tock` after its last run.
* `Due` is the invariant: the slot of a timer tells in which millisecond its time is.
* `State.OnSchedule` is what is promised, `Ahead` the condition on the steps.
-/

namespace Libeva.TimeWheel

variable {n : Buckets} {s s' : State} {a : Action} {f : Sweep} {x head : ℕ} {now when : ℤ} {interval : ℚ}
  {time : ℕ → ℤ}

/-- The times of the timers after a statement. -/
def State.retime (s : State) (a : Action) (time : ℕ → ℤ) : ℕ → ℤ :=
  match a.move, s.pc with
  | .call c, _ => Function.update time s.wheel.numCreated_ (c.when a.now)
  | .ret, .callback _ head =>
    if (s.wheel.timers head).repeat_ then
      Function.update time head (addTime a.now (s.wheel.timers head).interval_)
    else time
  | _, _ => time

def times (v : List (State × Action × State)) : ℕ → ℤ :=
  v.foldl (fun time x => x.1.retime x.2.1 time) fun _ => 0

/-- A callback runs again only if its timer repeats, and an interval later, give or take a millisecond. -/
def State.Again (s : State) : Prop :=
  s.fired.Pairwise fun p q => p.1 = q.1 →
    (s.wheel.timers p.1).repeat_ = true ∧ addTime p.2 (s.wheel.timers p.1).interval_ - 1000 < q.2

/-- When `tock` has returned, the time of every timer that is pending is after its reading; and no callback runs as
early as a millisecond before its time. -/
structure State.OnSchedule (s : State) (time : ℕ → ℤ) : Prop where
  late : ∀ now, s.pc = .outside (some now) → ∀ x, s.Pending x → now < time x
  early : ∀ f x, s.pc = .callback f x → time x - 1000 < f.now
  again : s.Again

/-- Everything is added at least a millisecond ahead of `start_`, and no `int` overflows. -/
structure Ahead (n : Buckets) (x : State × Action × State) : Prop extends Clear n x where
  ahead_all : ∀ when ∈ x.1.adds x.2.1, x.1.wheel.start_ ≤ when → x.1.wheel.start_ + 1000 ≤ when

instance (x : State × Action × State) : Decidable (Ahead n x) :=
  decidable_of_iff
    (Clear n x ∧ ∀ when ∈ x.1.adds x.2.1, x.1.wheel.start_ ≤ when → x.1.wheel.start_ + 1000 ≤ when)
    ⟨fun h => ⟨h.1, h.2⟩, fun h => ⟨h.toClear, h.ahead_all⟩⟩

/-! ## The invariant -/

structure Due (n : Buckets) (time : ℕ → ℤ) (s : State) : Prop where
  slot : ∀ x, s.wheel.Live x → ∃ k : ℕ, s.pc.first ≤ k ∧ k < n.numSlot_ ∧
    (s.wheel.timers x).index_ = ((s.wheel.startIdx_ + k) % n.numSlot_ : ℕ) ∧
    s.wheel.start_ + 1000 * k ≤ time x ∧ time x < s.wheel.start_ + 1000 * k + 1000
  fired : ∀ p ∈ s.fired, p.1 < s.wheel.numCreated_ ∧ p.2 ≤ s.clock
  rerun : ∀ p ∈ s.fired, s.wheel.Live p.1 → (∀ f, s.pc ≠ .callback f p.1) →
    (s.wheel.timers p.1).repeat_ = true ∧ addTime p.2 (s.wheel.timers p.1).interval_ ≤ time p.1
  again : s.Again

/-- The first timer of a walked list, and the one in a callback, is in its millisecond. -/
theorem Due.top (h : Due n time s) (hg : Good n s) (hp : s.pc.top s.wheel s.wheel.startIdx_ = some head) :
    s.wheel.Live head ∧ time head < s.wheel.start_ + 1000 := by
  obtain ⟨L, hL⟩ := hg.hangs
  obtain ⟨hlive, hi⟩ := hL.top_mem hg.startIdx_lt hp
  obtain ⟨k, -, hk, hidx, -, hlt⟩ := h.slot head hlive
  have hstart := hg.startIdx_lt
  have h0 : k = 0 := by
    rcases add_mod_cases hstart hk.le with ⟨h1, -⟩ | h1 <;> omega
  subst h0
  exact ⟨hlive, by omega⟩

theorem Due.clock (h : Due n time s) (hc : s.clock ≤ now) : Due n time { s with clock := now } :=
  { h with fired := fun p hp => ⟨(h.fired p hp).1, (h.fired p hp).2.trans hc⟩ }

/-- Another program point of the same loop. -/
theorem Due.move {pc : Pc} (h : Due n time s) (hf : pc.first = s.pc.first) (hp : ∀ f x, s.pc ≠ .callback f x) :
    Due n time { s with pc := pc } where
  slot := by
    have hslot := h.slot
    rw [← hf] at hslot
    exact hslot
  fired := h.fired
  rerun p hm hl _ := h.rerun p hm hl fun f => hp f p.1
  again := h.again

/-! ## Steps -/

@[simp] theorem interval_setNext (w : TimeWheel) (x : ℕ) (p : Option ℕ) (y : ℕ) :
    ((w.setNext x p).timers y).interval_ = (w.timers y).interval_ :=
  field_setNext Timer.interval_ (fun _ _ => rfl) p y

@[simp] theorem interval_push (w : TimeWheel) (x j y : ℕ) :
    ((w.push x j).timers y).interval_ = (w.timers y).interval_ := field_push Timer.interval_ (fun _ _ _ => rfl) y

theorem Due.added {pc : Pc} {base : ℕ → ℤ} (h : Due n time s) (hg : Good n s) (hf : pc.first = s.pc.first)
    (hf1 : pc.first ≤ 1) (hp : ∀ f x, s.pc = .callback f x → pc = .callback f x)
    (hs : s.wheel.start_ + 1000 ≤ when) (ht : (when - s.wheel.start_) / 1000 < n.numSlot_) :
    Due n (Function.update time s.wheel.numCreated_ when)
      { s with wheel := s.wheel.added n when interval, pc := pc, base := base } where
  slot y hy := by
    rcases (live_added hg.created).1 hy with hy | rfl
    · obtain ⟨k, hk, hk', hidx, hd⟩ := h.slot y hy
      rw [Function.update_of_ne hy.1.ne]
      dsimp only
      rw [hf, timers_added_of_ne _ hy.1.ne]
      exact ⟨k, hk, hk', hidx, hd⟩
    · rw [Function.update_self]
      dsimp only
      rw [timers_added_self]
      have hstart : (s.wheel.added n when interval).start_ = s.wheel.start_ := rfl
      refine ⟨((when - s.wheel.start_) / 1000).toNat, by omega, by omega, rfl, by omega, by omega⟩
  fired p hm := ⟨(h.fired p hm).1.trans (Nat.lt_succ_self _), (h.fired p hm).2⟩
  rerun p hm hl hc := by
    have hne := (h.fired p hm).1.ne
    have hlive : s.wheel.Live p.1 := ((live_added hg.created).1 hl).resolve_right hne
    rw [Function.update_of_ne hne]
    dsimp only
    rw [timers_added_of_ne _ hne]
    exact h.rerun p hm hlive fun f he => hc f (hp f p.1 he)
  again := by
    refine h.again.imp_of_mem fun {p q} hm _ hpq he => ?_
    dsimp only
    rw [timers_added_of_ne _ (h.fired p hm).1.ne]
    exact hpq he

/-- The sweep comes one slot closer to every timer. -/
theorem Due.closer (h : Due n time s) (hp : s.pc = .loop f) (hx : s.wheel.Live x) :
    ∃ k : ℕ, k + 1 < n.numSlot_ ∧
      (s.wheel.timers x).index_ = (((s.wheel.turned n).startIdx_ + k) % n.numSlot_ : ℕ) ∧
      (s.wheel.turned n).start_ + 1000 * k ≤ time x ∧ time x < (s.wheel.turned n).start_ + 1000 * k + 1000 := by
  obtain ⟨k, hk, hk', hidx, hd, hd'⟩ := h.slot x hx
  rw [hp] at hk
  have hk : 1 ≤ k := hk
  have hstart : (s.wheel.turned n).start_ = s.wheel.start_ + 1000 := rfl
  have hmod : ((s.wheel.turned n).startIdx_ + (k - 1)) % n.numSlot_ = (s.wheel.startIdx_ + k) % n.numSlot_ := by
    rw [turned, Nat.mod_add_mod]
    congr 1
    omega
  exact ⟨k - 1, by omega, by rw [hmod]; exact hidx, by omega, by omega⟩

theorem Due.advance (h : Due n time s) (hg : Good n s) (hp : s.pc = .loop f) (hi : f.i ≤ f.diff) :
    Due n time (s.advance n f) := by
  have hrerun := fun p hm hl => h.rerun p hm hl fun _ he => nomatch hp.symm.trans he
  rw [hg.advance_eq hp hi]
  cases hh : s.wheel.slot_ (s.wheel.turned n).startIdx_ with
  | none =>
    refine { h with slot := fun y hy => ?_, rerun := fun p hm hl _ => hrerun p hm hl }
    obtain ⟨k, hk, hidx, hd⟩ := h.closer hp hy
    have hlt : (s.wheel.turned n).startIdx_ < n.numSlot_ := Nat.mod_lt _ n.pos
    have h0 : k ≠ 0 := by
      rintro rfl
      rw [Nat.add_zero, Nat.mod_eq_of_lt hlt] at hidx
      refine hg.index_ne hlt ?_ hy hidx
      rw [hp]
      exact hh
    exact ⟨k, Nat.one_le_iff_ne_zero.2 h0, by omega, hidx, hd⟩
  | some head =>
    refine { h with slot := fun y hy => ?_, rerun := fun p hm hl _ => hrerun p hm hl }
    obtain ⟨k, hk, hidx, hd⟩ := h.closer hp hy
    exact ⟨k, Nat.zero_le k, by omega, hidx, hd⟩

theorem Due.walked (h : Due n time s) (hg : Good n s) (hp : s.pc = .walk f none) :
    Due n time { s with wheel := s.wheel.setSlot s.wheel.startIdx_ none, pc := .loop { f with i := f.i + 1 } } := by
  have hrerun := fun p hm hl => h.rerun p hm hl fun _ he => nomatch hp.symm.trans he
  refine { h with slot := fun y hy => ?_, rerun := fun p hm hl _ => hrerun p hm hl }
  obtain ⟨k, -, hk, hidx, hd⟩ := h.slot y hy
  have h0 : k ≠ 0 := by
    rintro rfl
    rw [Nat.add_zero, Nat.mod_eq_of_lt hg.startIdx_lt] at hidx
    refine hg.index_ne hg.startIdx_lt ?_ hy hidx
    rw [hp]
    exact Function.update_self ..
  exact ⟨k, Nat.one_le_iff_ne_zero.2 h0, hk, hidx, hd⟩

theorem Due.run (h : Due n time s) (hg : Good n s) (hp : s.pc = .walk f (some head)) :
    Due n time { s with pc := .callback f head, fired := s.fired ++ [(head, f.now)] } := by
  have htop : s.pc.top s.wheel s.wheel.startIdx_ = some head := by
    rw [hp]
    exact Function.update_self ..
  obtain ⟨hlive, hlt⟩ := h.top hg htop
  have hpl := hg.place_of hp
  have hslot := h.slot
  rw [hp] at hslot
  have hrerun := fun p hm hl => h.rerun p hm hl fun _ he => nomatch hp.symm.trans he
  refine ⟨hslot, fun p hm => ?_, fun p hm hl hc => ?_, ?_⟩
  · rcases List.mem_append.1 hm with hm | hm
    · exact h.fired p hm
    · rw [List.mem_singleton.1 hm]
      exact ⟨hlive.1, hpl.clock⟩
  · rcases List.mem_append.1 hm with hm | hm
    · exact hrerun p hm hl
    · rw [List.mem_singleton.1 hm] at hc
      exact absurd rfl (hc f)
  · refine List.pairwise_append.2 ⟨h.again, List.pairwise_singleton _ _, fun p hm q hq he => ?_⟩
    rw [List.mem_singleton.1 hq] at he ⊢
    have he : p.1 = head := he
    obtain ⟨hr, htime⟩ := hrerun p hm (he ▸ hlive)
    refine ⟨hr, ?_⟩
    rw [he] at htime ⊢
    have h1 := hpl.lower
    have h2 := hpl.nonneg
    dsimp only
    omega

theorem Due.ret_delete (h : Due n time s) (hp : s.pc = .callback f head) :
    Due n time { s with
      wheel := (s.wheel.setNext head none).delete head, pc := .walk f (s.wheel.getNext head) } := by
  have hlive : ∀ y, ((s.wheel.setNext head none).delete head).Live y → s.wheel.Live y ∧ y ≠ head :=
    fun y hy => ⟨⟨hy.1, fun hm => hy.2 (List.mem_cons_of_mem _ hm)⟩, fun he => hy.2 (he ▸ List.mem_cons_self)⟩
  have hslot := h.slot
  rw [hp] at hslot
  have hrepeat : ∀ y, (((s.wheel.setNext head none).delete head).timers y).repeat_ = (s.wheel.timers y).repeat_ :=
    fun y => repeat_setNext none y
  have hinterval : ∀ y, (((s.wheel.setNext head none).delete head).timers y).interval_ =
    (s.wheel.timers y).interval_ := fun y => interval_setNext s.wheel head none y
  refine ⟨fun y hy => ?_, h.fired, fun p hm hl _ => ?_, ?_⟩
  · obtain ⟨k, hk, hk', hidx, hd⟩ := hslot y (hlive y hy).1
    exact ⟨k, hk, hk', (index_setNext s.wheel head none y).trans hidx, hd⟩
  · obtain ⟨hl, hne⟩ := hlive p.1 hl
    dsimp only
    rw [hrepeat, hinterval]
    refine h.rerun p hm hl fun g hg => ?_
    rw [hp] at hg
    cases hg
    exact hne rfl
  · simpa only [State.Again, hrepeat, hinterval] using h.again

theorem Due.ret_repeat (h : Due n time s) (hp : s.pc = .callback f head) (hnow : s.clock = now)
    (hr : (s.wheel.timers head).repeat_ = true) (hw : addTime now (s.wheel.timers head).interval_ = when)
    (hs : s.wheel.start_ + 1000 ≤ when) (ht : (when - s.wheel.start_) / 1000 < n.numSlot_) :
    Due n (Function.update time head when) { s with
      wheel := (s.wheel.setNext head none).push head (s.wheel.slotIndex n when)
      pc := .walk f (s.wheel.getNext head) } := by
  have hslot := h.slot
  rw [hp] at hslot
  have hrepeat : ∀ y, (((s.wheel.setNext head none).push head (s.wheel.slotIndex n when)).timers y).repeat_ =
      (s.wheel.timers y).repeat_ := fun y => (repeat_push y).trans (repeat_setNext none y)
  have hinterval : ∀ y, (((s.wheel.setNext head none).push head (s.wheel.slotIndex n when)).timers y).interval_ =
      (s.wheel.timers y).interval_ :=
    fun y => (interval_push _ head _ y).trans (interval_setNext s.wheel head none y)
  refine ⟨fun y hy => ?_, h.fired, fun p hm hl _ => ?_, ?_⟩
  · dsimp only
    rw [timers_push]
    by_cases hyh : y = head
    · subst hyh
      rw [if_pos rfl, Function.update_self]
      refine ⟨((when - s.wheel.start_) / 1000).toNat, Nat.zero_le _, by omega, rfl, ?_, ?_⟩
      · show s.wheel.start_ + _ ≤ _
        omega
      · show _ < s.wheel.start_ + _ + 1000
        omega
    · rw [if_neg hyh, Function.update_of_ne hyh, index_setNext]
      exact hslot y hy
  · dsimp only
    rw [hrepeat, hinterval]
    by_cases hph : p.1 = head
    · rw [hph, Function.update_self, ← hw]
      refine ⟨hr, ?_⟩
      have := (h.fired p hm).2
      unfold addTime
      omega
    · rw [Function.update_of_ne hph]
      refine h.rerun p hm hl fun g hc => ?_
      rw [hp] at hc
      cases hc
      exact hph rfl
  · simpa only [State.Again, hrepeat, hinterval] using h.again

/-- One statement keeps the invariants, or the process ends. -/
theorem Due.stmt (h : Due n time s) (hg : Good n s) (ha : Ahead n (s, a, s')) (hnow : s.clock = a.now)
    (hs : Stmt n s a s') :
    Good n s' ∧ Due n (s.retime a time) s' ∨ s'.pc = .halted .fatal ∧ s'.Again := by
  cases hs with
  | @call c now last hp =>
    rw [hg.call_eq (ha.fits _ rfl) (ha.ahead _ rfl)]
    split
    · exact .inr ⟨rfl, h.again⟩
    · rename_i hd
      obtain ⟨hst, hd⟩ := not_or.1 hd
      have hfirst : (Pc.outside none).first = s.pc.first := by
        rw [hp]
        rfl
      refine .inl ⟨hg.added (fun w => ?_) nofun ⟨hg.place.le, nofun⟩ fun hw => ?_,
        h.added hg hfirst le_rfl (fun _ _ hc => nomatch hp.symm.trans hc) (ha.ahead_all _ rfl (not_lt.1 hst))
          (not_le.1 hd)⟩
      · rw [hp]
        rfl
      · rw [hp] at hw
        exact hw.elim
  | @callback c now f head hp =>
    have hw : s.pc.Walks := by
      rw [hp]
      trivial
    rw [hg.call_eq (ha.fits _ rfl) (ha.ahead _ rfl)]
    split
    · exact .inr ⟨rfl, h.again⟩
    · rename_i hd
      obtain ⟨hst, hd⟩ := not_or.1 hd
      have hst := ha.ahead_all _ rfl (not_lt.1 hst)
      have hne := slotIndex_ne hg.startIdx_lt hst (not_le.1 hd)
      have hfirst : (Pc.callback f head).first = s.pc.first := by rw [hp]
      exact .inl ⟨hg.added (fun w => by rw [hp]) (fun _ _ he => hp.trans he) (hg.place_of hp) fun _ => hne,
        h.added hg hfirst (Nat.zero_le 1) (fun _ _ hc => hp.symm.trans hc) hst (not_le.1 hd)⟩
  | tock hp =>
    rw [hg.tock_eq hnow (ha.tock rfl)]
    refine .inl ⟨hg.tock ?_ hnow (ha.tock rfl), h.move ?_ fun _ _ hc => nomatch hp.symm.trans hc⟩
    · rw [hp]
      exact id
    · rw [hp]
      rfl
  | advance hp hi => exact .inl ⟨hg.advance hp hi, h.advance hg hp hi⟩
  | outside hp hi =>
    refine .inl ⟨hg.outside hp hi, h.move ?_ fun _ _ hc => nomatch hp.symm.trans hc⟩
    rw [hp]
    rfl
  | run hp =>
    rw [hg.run_eq hp]
    exact .inl ⟨hg.run hp, h.run hg hp⟩
  | walked hp =>
    have hl := hg.place_of hp
    rw [hl.incr_eq (sub_nonneg.1 hl.nonneg)]
    exact .inl ⟨hg.walked hp, h.walked hg hp⟩
  | @ret now f head hp =>
    cases hr : (s.wheel.timers head).repeat_ with
    | false =>
      have htime : s.retime ⟨now, .ret⟩ time = time := by simp [State.retime, hp, hr]
      rw [hg.ret_delete_eq hp hr, htime]
      exact .inl ⟨hg.ret_delete hp hr, h.ret_delete hp⟩
    | true =>
      have htime : s.retime ⟨now, .ret⟩ time =
          Function.update time head (addTime now (s.wheel.timers head).interval_) := by simp [State.retime, hp, hr]
      have hadds : addTime now (s.wheel.timers head).interval_ ∈ s.adds ⟨now, .ret⟩ := by
        simp [State.adds, hp, hr]
      have hle := hg.le_again hnow.le hr
      have hst := ha.ahead_all _ hadds hle
      rw [hg.ret_repeat_eq hp hr rfl hst (ha.fits _ hadds hle), htime]
      split
      · exact .inr ⟨rfl, h.again⟩
      · rename_i hd
        exact .inl ⟨hg.ret_repeat hp (slotIndex_lt _ _) (slotIndex_ne hg.startIdx_lt hst (not_le.1 hd)),
          h.ret_repeat hp hnow hr rfl hst (not_le.1 hd)⟩

/-! ## Every run -/

/-- Nothing is overdue when `tock` has returned. -/
theorem Due.onSchedule (h : Due n time s) (hg : Good n s) : s.OnSchedule time where
  late now hp x hx := by
    have hlive : s.wheel.Live x := by
      refine ⟨hx.1, fun hd => ?_⟩
      obtain ⟨hr, hf⟩ := hg.ran x hd
      rcases hx.2 with hr' | hf'
      · rw [hr] at hr'
        cases hr'
      · exact hf' hf
    obtain ⟨k, hk, -, -, hd, -⟩ := h.slot x hlive
    have hpl := hg.place_of hp
    rw [hp] at hk
    have hk : 1 ≤ k := hk
    have := (hpl.2 now rfl).2
    omega
  early f x hp := by
    have htop : s.pc.top s.wheel s.wheel.startIdx_ = some x := by
      rw [hp]
      exact Function.update_self ..
    have hlt := (h.top hg htop).2
    have hpl := hg.place_of hp
    have h1 := hpl.lower
    have h2 := hpl.nonneg
    omega
  again := h.again

theorem times_snoc (v : List (State × Action × State)) (x : State × Action × State) :
    times (v ++ [x]) = x.1.retime x.2.1 (times v) := by
  simp [times]

theorem due_init (now : ℤ) (time : ℕ → ℤ) : Due n time (init now) where
  slot x hx := absurd hx.1 (Nat.not_lt_zero x)
  fired := nofun
  rerun := nofun
  again := List.Pairwise.nil

/-- **Timers on schedule.** In a run in which everything is added at least a millisecond ahead of `start_`, no timer is
overdue when `tock` has returned, no callback runs early, and only repeating timers run again, an interval after the
last time. -/
theorem on_schedule {t : State} {v : List (State × Action × State)}
    (h : Lts.Run (timeWheel n now) (init now) v t) (hv : ∀ x ∈ v, Ahead n x) : t.OnSchedule (times v) := by
  have hinv : Good n t ∧ Due n (times v) t ∨ t.pc = .halted .fatal ∧ t.Again := by
    induction h with
    | nil => exact .inl ⟨good_init now, due_init now _⟩
    | @snoc s s' a v hr hst ih =>
      rw [List.forall_mem_append, List.forall_mem_singleton] at hv
      rw [times_snoc]
      rcases ih hv.1 with ⟨hg, hd⟩ | ⟨hp, -⟩
      · obtain ⟨hle, hs⟩ := step_cases hst
        have ha := hv.2
        exact (hd.clock hle).stmt (hg.clock hle) ⟨⟨ha.ahead, ha.fits, ha.tock⟩, ha.ahead_all⟩ rfl hs
      · cases (step_halted hp).symm.trans hst
  rcases hinv with ⟨hg, hd⟩ | ⟨hp, ha⟩
  · exact hd.onSchedule hg
  · exact ⟨fun _ he => (nomatch hp.symm.trans he), fun _ _ he => (nomatch hp.symm.trans he), ha⟩

/-- The repeating timer runs in a second `tock`, with the one that was added in a callback. -/
def addedAgain : List Action :=
  addedAhead ++ ⟨5000, .tock⟩ :: ([.next, .next, .next, .ret, .next, .next, .next, .ret, .next, .next].map (⟨5000, ·⟩))

theorem on_schedule_addedAgain : ∃ s, Lts.exec (TimeWheel.step .default) (init 0) addedAgain = some s ∧
    s.pc = .outside (some 5000) ∧ s.fired = [(0, 2500), (1, 2500), (1, 5000), (2, 5000)] ∧
    s.OnSchedule (times (Lts.moves (TimeWheel.step .default) (init 0) addedAgain)) := by
  obtain ⟨s, hs, hpc, hfired⟩ : ∃ s ∈ Lts.exec (TimeWheel.step .default) (init 0) addedAgain,
      s.pc = .outside (some 5000) ∧ s.fired = [(0, 2500), (1, 2500), (1, 5000), (2, 5000)] := by
    decide +kernel
  exact ⟨s, hs, hpc, hfired, on_schedule (Lts.Run.moves hs) (by decide +kernel)⟩

end Libeva.TimeWheel
