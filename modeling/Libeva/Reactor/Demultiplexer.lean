import Libeva.Net.TcpServer

/-!
# `Demultiplexer`: the poller's books

Any number of events `ε` of one reactor, each with its own descriptor `fd`. The asserts are compiled out and
`epoll_ctl` succeeds.

* `epoll` is the kernel's interest set, with the `data.ptr` and the `events` of each descriptor; `ctls` lists the calls
  of `epoll_ctl`, each with the answer to whether its descriptor was in the set.
* `Books` is the agreement of `eventMap_`, the states and masks of the events, and the kernel.
* `disableAll` is not idempotent: `handleDelEvent` adds an event that is to be disabled (`not_idempotent`).
-/

namespace Libeva.Reactor

open Net (Event EventState)

inductive CtlOp
  | add
  | mod
  | del
  deriving DecidableEq

structure Ctl where
  op : CtlOp
  fd : ℕ
  /-- The descriptor was in the interest set. -/
  present : Bool
  deriving DecidableEq

structure Demultiplexer (ε : Type*) where
  event : ε → Event
  state : ε → EventState
  revents : ε → BitVec 32
  eventMap_ : ℕ → Option ε
  epoll : ℕ → Option (ε × BitVec 32)
  /-- The size of `eventList_`. -/
  eventListSize : ℕ
  ctls : List Ctl

inductive EventCall
  | enableReading
  | enableWriting
  | disableWriting
  | disableAll
  | remove
  deriving DecidableEq

namespace Demultiplexer

def kInitEventListSize : ℕ := 16

variable {ε : Type*} [DecidableEq ε] (fd : ε → ℕ)

/-- `registerInner`, with what `epoll_ctl` does. -/
def registerInner (s : Demultiplexer ε) (op : CtlOp) (ev : ε) : Demultiplexer ε :=
  { s with
    epoll := Function.update s.epoll (fd ev) (if op = .del then none else some (ev, (s.event ev).events_))
    ctls := s.ctls ++ [⟨op, fd ev, (s.epoll (fd ev)).isSome⟩] }

def setState (s : Demultiplexer ε) (ev : ε) (state : EventState) : Demultiplexer ε :=
  { s with state := Function.update s.state ev state }

def handleNewEvent (s : Demultiplexer ε) (ev : ε) : Demultiplexer ε :=
  ({ s with eventMap_ := Function.update s.eventMap_ (fd ev) (some ev) }.setState ev .kAdded).registerInner fd .add ev

def handleDelEvent (s : Demultiplexer ε) (ev : ε) : Demultiplexer ε := (s.setState ev .kAdded).registerInner fd .add ev

def handleExistEvent (s : Demultiplexer ε) (ev : ε) : Demultiplexer ε :=
  if (s.event ev).isNoneEvent then (s.registerInner fd .del ev).setState ev .kDeled else s.registerInner fd .mod ev

def registerEvent (s : Demultiplexer ε) (ev : ε) : Demultiplexer ε :=
  match s.state ev with
  | .kNew => s.handleNewEvent fd ev
  | .kDeled => s.handleDelEvent fd ev
  | .kAdded => s.handleExistEvent fd ev

def unregisterEvent (s : Demultiplexer ε) (ev : ε) : Demultiplexer ε :=
  let t := { s with eventMap_ := Function.update s.eventMap_ (fd ev) none }
  (if s.state ev = .kAdded then t.registerInner fd .del ev else t).setState ev .kNew

/-- The change of the mask, and `update()`. -/
def setEvent (s : Demultiplexer ε) (ev : ε) (e : Event) : Demultiplexer ε :=
  { s with event := Function.update s.event ev e }.registerEvent fd ev

/-- A call on an event. -/
def call (s : Demultiplexer ε) (ev : ε) : EventCall → Demultiplexer ε
  | .enableReading => s.setEvent fd ev (s.event ev).enableReading
  | .enableWriting => s.setEvent fd ev (s.event ev).enableWriting
  | .disableWriting => s.setEvent fd ev (s.event ev).disableWriting
  | .disableAll => s.setEvent fd ev (s.event ev).disableAll
  | .remove => s.unregisterEvent fd ev

/-- The events of what `epoll_wait` reports: descriptors of the interest set, with their `revents`. -/
def demultiplex (s : Demultiplexer ε) : List (ℕ × BitVec 32) → Demultiplexer ε × List ε
  | [] => (s, [])
  | reports =>
    let ret := reports.filterMap fun r => (s.epoll r.1).map fun p => (p.1, r.2)
    let t := { s with revents := ret.foldl (fun f p => Function.update f p.1 p.2) s.revents }
    (if reports.length = s.eventListSize then { t with eventListSize := s.eventListSize * 2 } else t, ret.map Prod.fst)

inductive Action (ε : Type*)
  | call (ev : ε) (c : EventCall)
  | demultiplex (reports : List (ℕ × BitVec 32))

def step (s : Demultiplexer ε) : Action ε → Option (Demultiplexer ε)
  | .call ev c => some (s.call fd ev c)
  | .demultiplex reports =>
    if reports.length ≤ s.eventListSize ∧ ∀ r ∈ reports, (s.epoll r.1).isSome then some (s.demultiplex reports).1
    else none

/-- The poller of a new reactor, with events that no call has been made on. -/
def init : Demultiplexer ε where
  event _ := ⟨Event.kNoneEvent⟩
  state _ := .kNew
  revents _ := 0
  eventMap_ _ := none
  epoll _ := none
  eventListSize := kInitEventListSize
  ctls := []

/-- The runs of a reactor's poller. -/
def poller : Lts.System (Demultiplexer ε) (Action ε) := Lts.ofFun init (step fd)

/-! ## The books agree -/

/-- `eventMap_` has the events that are added or were so, the kernel those that are added, with their masks; every call
of `epoll_ctl` is one that the kernel accepts; and what `demultiplex` returns is in `eventMap_`. -/
structure Books (s : Demultiplexer ε) : Prop where
  eventMap : ∀ f ev, s.eventMap_ f = some ev ↔ fd ev = f ∧ (s.state ev = .kAdded ∨ s.state ev = .kDeled)
  epoll : ∀ f ev mask, s.epoll f = some (ev, mask) ↔ fd ev = f ∧ s.state ev = .kAdded ∧ mask = (s.event ev).events_
  ctls : ∀ c ∈ s.ctls, c.present = true ↔ c.op ≠ .add
  active : ∀ reports, ∀ ev ∈ (s.demultiplex reports).2, s.eventMap_ (fd ev) = some ev

/-- The invariant: both maps at the descriptor of an event, and elsewhere. -/
structure Inv (s : Demultiplexer ε) : Prop where
  eventMap : ∀ ev, s.eventMap_ (fd ev) = if s.state ev = .kNew then none else some ev
  epoll : ∀ ev, s.epoll (fd ev) = if s.state ev = .kAdded then some (ev, (s.event ev).events_) else none
  other : ∀ f, (∀ ev, fd ev ≠ f) → s.eventMap_ f = none ∧ s.epoll f = none
  ctls : ∀ c ∈ s.ctls, c.present = true ↔ c.op ≠ .add

variable {fd} {s s' : Demultiplexer ε} {ev : ε}

omit [DecidableEq ε] in
theorem Inv.isSome_epoll (h : Inv fd s) (ev : ε) : (s.epoll (fd ev)).isSome = decide (s.state ev = .kAdded) := by
  rw [h.epoll]
  split <;> rename_i hs
  · rw [decide_eq_true hs]
    rfl
  · rw [decide_eq_false hs]
    rfl

/-- One event and its entries in the maps change, and a call of `epoll_ctl` that fits is made or none. -/
theorem Inv.update (hfd : fd.Injective) (h : Inv fd s) {e : Event} {state : EventState} {l : List Ctl}
    (hs : s'.state = Function.update s.state ev state) (he : s'.event = Function.update s.event ev e)
    (hm : s'.eventMap_ = Function.update s.eventMap_ (fd ev) (if state = .kNew then none else some ev))
    (hp : s'.epoll = Function.update s.epoll (fd ev) (if state = .kAdded then some (ev, e.events_) else none))
    (hc : s'.ctls = s.ctls ++ l) (hl : ∀ c ∈ l, c.present = true ↔ c.op ≠ .add) : Inv fd s' where
  eventMap x := by
    rw [hs, hm]
    by_cases hx : x = ev
    · subst hx
      rw [Function.update_self, Function.update_self]
    · rw [Function.update_of_ne hx, Function.update_of_ne (hfd.ne hx)]
      exact h.eventMap x
  epoll x := by
    rw [hs, he, hp]
    by_cases hx : x = ev
    · subst hx
      simp only [Function.update_self]
    · rw [Function.update_of_ne hx, Function.update_of_ne hx, Function.update_of_ne (hfd.ne hx)]
      exact h.epoll x
  other f hf := by
    rw [hm, hp, Function.update_of_ne (hf ev).symm, Function.update_of_ne (hf ev).symm]
    exact h.other f hf
  ctls c hm := by
    rw [hc] at hm
    rcases List.mem_append.1 hm with hm | hm
    · exact h.ctls c hm
    · exact hl c hm

/-- The state of an event after `registerEvent`. -/
def registered (state : EventState) (e : Event) : EventState :=
  if state = .kAdded ∧ e.isNoneEvent then .kDeled else .kAdded

/-- The call of `epoll_ctl` in `registerEvent`. -/
def registerOp (state : EventState) (e : Event) : CtlOp :=
  if state = .kAdded then if e.isNoneEvent then .del else .mod else .add

/-- What `registerEvent` does after a change of the mask, in any state of the event. -/
theorem Inv.setEvent_eq (h : Inv fd s) (e : Event) :
    s.setEvent fd ev e = { s with
      event := Function.update s.event ev e
      state := Function.update s.state ev (registered (s.state ev) e)
      eventMap_ := Function.update s.eventMap_ (fd ev) (some ev)
      epoll := Function.update s.epoll (fd ev)
        (if registered (s.state ev) e = .kAdded then some (ev, e.events_) else none)
      ctls := s.ctls ++ [⟨registerOp (s.state ev) e, fd ev, decide (s.state ev = .kAdded)⟩] } := by
  have hepoll := h.isSome_epoll ev
  have hmap : s.state ev ≠ .kNew → Function.update s.eventMap_ (fd ev) (some ev) = s.eventMap_ := by
    intro hs
    rw [Function.update_eq_self_iff, h.eventMap, if_neg hs]
  unfold setEvent registerEvent
  cases hs : s.state ev with
  | kNew =>
    rw [hs] at hepoll
    simp only [handleNewEvent, registerInner, setState, registered, registerOp, hepoll, Function.update_self]
    rfl
  | kDeled =>
    rw [hs] at hepoll
    rw [hmap (by rw [hs]; exact nofun)]
    simp only [handleDelEvent, registerInner, setState, registered, registerOp, hepoll, Function.update_self]
    rfl
  | kAdded =>
    rw [hs] at hepoll
    have hself : Function.update s.state ev .kAdded = s.state := Function.update_eq_self_iff.2 hs.symm
    rw [hmap (by rw [hs]; exact nofun)]
    cases hn : e.isNoneEvent with
    | true =>
      simp only [handleExistEvent, Function.update_self, hn, registerInner, setState, registered, registerOp, hepoll]
      rfl
    | false =>
      simp only [handleExistEvent, Function.update_self, hn, registerInner, registered, registerOp, hepoll,
        Bool.false_eq_true, and_false, if_false, hself]
      rfl

theorem registered_ne (state : EventState) (e : Event) : registered state e ≠ .kNew := by
  unfold registered
  split <;> exact nofun

theorem Inv.setEvent (hfd : fd.Injective) (h : Inv fd s) (e : Event) : Inv fd (s.setEvent fd ev e) := by
  rw [h.setEvent_eq]
  refine h.update hfd rfl rfl (by rw [if_neg (registered_ne _ _)]) rfl rfl ?_
  intro c hc
  rw [List.mem_singleton.1 hc]
  unfold registerOp
  cases s.state ev with
  | kNew | kDeled => exact ⟨nofun, fun hadd => absurd rfl hadd⟩
  | kAdded => cases e.isNoneEvent <;> exact ⟨nofun, fun _ => rfl⟩

theorem Inv.unregisterEvent (hfd : fd.Injective) (h : Inv fd s) : Inv fd (s.unregisterEvent fd ev) := by
  have hepoll := h.isSome_epoll ev
  have hevent : Function.update s.event ev (s.event ev) = s.event := Function.update_eq_self _ _
  unfold Demultiplexer.unregisterEvent
  by_cases hs : s.state ev = .kAdded
  · rw [decide_eq_true hs] at hepoll
    simp only [if_pos hs]
    refine h.update hfd rfl hevent.symm rfl rfl rfl ?_
    intro c hc
    rw [List.mem_singleton.1 hc]
    exact ⟨fun _ => nofun, fun _ => hepoll⟩
  · simp only [if_neg hs]
    have hp : Function.update s.epoll (fd ev) none = s.epoll := by
      rw [Function.update_eq_self_iff, h.epoll, if_neg hs]
    exact h.update hfd rfl hevent.symm rfl hp.symm (List.append_nil _).symm nofun

theorem Inv.call (hfd : fd.Injective) (h : Inv fd s) (c : EventCall) : Inv fd (s.call fd ev c) := by
  cases c with
  | enableReading | enableWriting | disableWriting | disableAll => exact h.setEvent hfd _
  | remove => exact h.unregisterEvent hfd

/-- `demultiplex` changes no book. -/
theorem demultiplex_same (s : Demultiplexer ε) (reports : List (ℕ × BitVec 32)) :
    ∃ revents size, (s.demultiplex reports).1 = { s with revents := revents, eventListSize := size } := by
  cases reports with
  | nil => exact ⟨_, _, rfl⟩
  | cons r reports =>
    unfold demultiplex
    dsimp only
    split <;> exact ⟨_, _, rfl⟩

theorem Inv.step (hfd : fd.Injective) (h : Inv fd s) {a : Action ε} (hs : Demultiplexer.step fd s a = some s') :
    Inv fd s' := by
  cases a with
  | call ev c =>
    cases hs
    exact h.call hfd c
  | demultiplex reports =>
    simp only [Demultiplexer.step] at hs
    split at hs
    · obtain ⟨revents, size, heq⟩ := s.demultiplex_same reports
      cases hs
      rw [heq]
      exact ⟨h.eventMap, h.epoll, h.other, h.ctls⟩
    · cases hs

omit [DecidableEq ε] in
theorem inv_init : Inv fd (init : Demultiplexer ε) := ⟨fun _ => rfl, fun _ => rfl, fun _ _ => ⟨rfl, rfl⟩, nofun⟩

/-- What the poller returns was in the interest set. -/
theorem mem_demultiplex {reports : List (ℕ × BitVec 32)} (h : ev ∈ (s.demultiplex reports).2) :
    ∃ f mask, s.epoll f = some (ev, mask) := by
  cases reports with
  | nil => cases h
  | cons r reports =>
    obtain ⟨p, hp, rfl⟩ := List.mem_map.1 h
    obtain ⟨q, -, hq⟩ := List.mem_filterMap.1 hp
    obtain ⟨x, hx, rfl⟩ := Option.map_eq_some_iff.1 hq
    exact ⟨q.1, x.2, hx⟩

omit [DecidableEq ε] in
/-- A map that has `g` at the descriptors of the events, and nothing elsewhere. -/
theorem map_eq_some_iff {β : Type*} {m : ℕ → Option β} {g : ε → Option β} (hm : ∀ ev, m (fd ev) = g ev)
    (ho : ∀ f, (∀ ev, fd ev ≠ f) → m f = none) (f : ℕ) (b : β) : m f = some b ↔ ∃ ev, fd ev = f ∧ g ev = some b := by
  constructor
  · intro hb
    by_contra hex
    have hne : ∀ ev, fd ev ≠ f := by
      rintro ev rfl
      exact hex ⟨ev, rfl, (hm ev).symm.trans hb⟩
    rw [ho f hne] at hb
    cases hb
  · rintro ⟨ev, rfl, hb⟩
    exact (hm ev).trans hb

omit [DecidableEq ε] in
theorem Inv.eventMap_iff (h : Inv fd s) (f : ℕ) (ev : ε) :
    s.eventMap_ f = some ev ↔ fd ev = f ∧ (s.state ev = .kAdded ∨ s.state ev = .kDeled) := by
  rw [map_eq_some_iff h.eventMap fun f hf => (h.other f hf).1]
  have hstate : s.state ev ≠ .kNew ↔ s.state ev = .kAdded ∨ s.state ev = .kDeled := by cases s.state ev <;> simp
  rw [← hstate]
  constructor
  · rintro ⟨x, rfl, hx⟩
    split at hx
    · cases hx
    · rename_i hs
      cases hx
      exact ⟨rfl, hs⟩
  · rintro ⟨rfl, hs⟩
    exact ⟨ev, rfl, if_neg hs⟩

omit [DecidableEq ε] in
theorem Inv.epoll_iff (h : Inv fd s) (f : ℕ) (ev : ε) (mask : BitVec 32) :
    s.epoll f = some (ev, mask) ↔ fd ev = f ∧ s.state ev = .kAdded ∧ mask = (s.event ev).events_ := by
  rw [map_eq_some_iff h.epoll fun f hf => (h.other f hf).2]
  constructor
  · rintro ⟨x, rfl, hx⟩
    split at hx
    · rename_i hs
      cases hx
      exact ⟨rfl, hs, rfl⟩
    · cases hx
  · rintro ⟨rfl, hs, rfl⟩
    exact ⟨ev, rfl, if_pos hs⟩

theorem Inv.books (h : Inv fd s) : Books fd s where
  eventMap := h.eventMap_iff
  epoll := h.epoll_iff
  ctls := h.ctls
  active reports ev hev := by
    obtain ⟨f, mask, hf⟩ := mem_demultiplex hev
    obtain ⟨-, hs, -⟩ := (h.epoll_iff f ev mask).1 hf
    exact (h.eventMap_iff _ ev).2 ⟨rfl, .inl hs⟩

/-- **The books agree** in every reachable state of a poller whose events have different descriptors. -/
theorem books_agree (hfd : fd.Injective) (h : Lts.Reach (poller fd) s) : Books fd s :=
  Inv.books (h.invariant (fun _ hs => hs ▸ inv_init) fun _ _ _ _ hi hs => hi.step hfd hs)

/-- Two events, one of which is disabled, enabled anew and removed. -/
def twoEvents : List (Action ℕ) :=
  [.call 0 .enableReading, .call 1 .enableReading, .call 1 .enableWriting, .demultiplex [(5, 1), (4, 16)],
    .call 0 .disableAll, .call 0 .enableWriting, .call 0 .disableAll, .call 0 .remove]

theorem books_agree_twoEvents : ∃ s, Lts.exec (step (· + 4)) init twoEvents = some s ∧ s.epoll 5 = some (1, 7) ∧
    s.epoll 4 = none ∧ s.ctls.length = 6 ∧ Books (· + 4) s := by
  obtain ⟨s, hs, h5, h4, hctls⟩ : ∃ s ∈ Lts.exec (step (· + 4)) init twoEvents,
      s.epoll 5 = some (1, 7) ∧ s.epoll 4 = none ∧ s.ctls.length = 6 := by
    decide
  exact ⟨s, hs, h5, h4, hctls, books_agree (fun _ _ => Nat.add_right_cancel) (.exec (.init rfl) hs)⟩

/-! ## Disabling twice -/

/-- The second `disableAll` changes neither the state of the event nor the two maps, and the descriptor is out of the
interest set. -/
def Disables (fd : ε → ℕ) (s : Demultiplexer ε) (ev : ε) : Prop :=
  let t := s.call fd ev .disableAll
  let u := t.call fd ev .disableAll
  u.state ev = t.state ev ∧ u.eventMap_ = t.eventMap_ ∧ u.epoll = t.epoll ∧ u.epoll (fd ev) = none

theorem registered_disableAll (state : EventState) (e : Event) :
    registered state e.disableAll = if state = .kAdded then .kDeled else .kAdded := by
  have hnone : e.disableAll.isNoneEvent = true := rfl
  simp only [registered, hnone, and_true]

theorem Inv.state_disableAll (h : Inv fd s) : (s.call fd ev .disableAll).state ev =
    if s.state ev = .kAdded then .kDeled else .kAdded := by
  rw [Demultiplexer.call, h.setEvent_eq, ← registered_disableAll (s.state ev) (s.event ev)]
  exact Function.update_self ..

/-- An added event goes out of the interest set, and any other one goes in, with an empty mask. -/
theorem Inv.epoll_disableAll (h : Inv fd s) (ev : ε) : (s.call fd ev .disableAll).epoll (fd ev) =
    if s.state ev = .kAdded then none else some (ev, Event.kNoneEvent) := by
  rw [Demultiplexer.call, h.setEvent_eq, registered_disableAll]
  by_cases hs : s.state ev = .kAdded
  · simp [hs]
  · simp [hs, Event.disableAll]

/-- **`disableAll` twice.** In no reachable state, for no event, does the second call leave all as it is: what the first
call takes out of the interest set comes back, and what it puts in goes out. -/
theorem not_disables (hfd : fd.Injective) (h : Lts.Reach (poller fd) s) (ev : ε) : ¬s.Disables fd ev := by
  have hi : Inv fd s := h.invariant (fun _ hs => hs ▸ inv_init) fun _ _ _ _ hi hs => hi.step hfd hs
  rintro ⟨-, -, hepoll, -⟩
  have hfst := hi.epoll_disableAll ev
  have hcall : Inv fd (s.call fd ev .disableAll) := hi.call hfd .disableAll
  have hsnd := hcall.epoll_disableAll ev
  rw [hepoll, hfst, hi.state_disableAll] at hsnd
  cases hs : s.state ev <;> rw [hs] at hsnd <;> cases hsnd

/-- An event that reads. -/
def reading : Demultiplexer ℕ := (init : Demultiplexer ℕ).call (· + 4) 0 .enableReading

theorem reach_reading : Lts.Reach (poller (· + 4)) reading :=
  .step (a := .call 0 .enableReading) (.init rfl) rfl

theorem not_disables_reading : ¬reading.Disables (· + 4) 0 :=
  not_disables (fun _ _ => Nat.add_right_cancel) reach_reading 0

theorem disabledTwice_reading : ¬∀ s : Demultiplexer ℕ, Lts.Reach (poller (· + 4)) s → ∀ ev, s.Disables (· + 4) ev := by
  intro h
  have hstate := (h reading reach_reading 0).1
  revert hstate
  decide

end Demultiplexer

end Libeva.Reactor
