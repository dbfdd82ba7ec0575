import Libeva.Net.TcpConnection
import Libeva.Reactor.Dispatch

/-!
# `TcpConnection::send` from other threads

Any number of threads call the two overloads of `send` on a connection, and write to their memory and to their buffers
between the calls, while the connection's reactor thread runs `dispatch`.

* `Functor`: what a `send` binds. The overload for a `Buffer*` binds a copy of the readable bytes, the other one binds
  the caller's pointer, which `sendInReactor` reads when the functor runs.
* `Senders.called` and `Senders.handed` log the bytes of each call and the bytes that `sendInReactor` is given.
* `sends_transmitted`: what is handed over is what the calls were given, as long as no thread writes to the bytes of a
  `send( data, len )` before its functor has run.
-/

namespace Libeva.Net

/-- A functor of the reactor: what a `send` of thread `t` binds, or one that does not send. -/
inductive Functor (ι : Type*)
  | sendInReactor_strview (t : ι) (message : Bytes)
  | sendInReactor (t : ι) (data len : ℕ)
  | other
  deriving DecidableEq

/-- The `len` bytes from the address `data` on. -/
def bytesAt (memory : ℕ → UInt8) (data len : ℕ) : Bytes := (List.range' data len).map memory

namespace Functor

variable {ι : Type*}

def caller : Functor ι → Option ι
  | .sendInReactor_strview t _ | .sendInReactor t _ _ => some t
  | .other => none

/-- What the functor hands to `sendInReactor`, with the thread that has called `send`. -/
def hands (memory : ℕ → UInt8) : Functor ι → List (ι × Bytes)
  | .sendInReactor_strview t message => [(t, message)]
  | .sendInReactor t data len => [(t, bytesAt memory data len)]
  | .other => []

/-- The functor will read the byte at address `a`. -/
def Reads (a : ℕ) : Functor ι → Prop
  | .sendInReactor _ data len => data ≤ a ∧ a < data + len
  | _ => False

instance (a : ℕ) : (f : Functor ι) → Decidable (f.Reads a)
  | .sendInReactor _ _ _ => inferInstanceAs (Decidable (_ ∧ _))
  | .sendInReactor_strview _ _ | .other => inferInstanceAs (Decidable False)

variable {f : Functor ι} {t : ι} {m m' : ℕ → UInt8}

theorem hands_of_caller (m : ℕ → UInt8) (h : f.caller = some t) : ∃ data, f.hands m = [(t, data)] := by
  cases f with
  | sendInReactor_strview u message =>
    cases h
    exact ⟨message, rfl⟩
  | sendInReactor u data len =>
    cases h
    exact ⟨bytesAt m data len, rfl⟩
  | other => cases h

theorem length_hands (m : ℕ → UInt8) {fs : List (Functor ι)} (h : ∀ f ∈ fs, f.caller = some t) :
    (fs.flatMap (hands m)).length = fs.length := by
  induction fs with
  | nil => rfl
  | cons f fs ih =>
    rw [List.forall_mem_cons] at h
    obtain ⟨data, hd⟩ := hands_of_caller m h.1
    rw [List.flatMap_cons, hd, List.length_append, ih h.2, List.length_singleton, List.length_cons, Nat.add_comm]

/-- The functor does not look at the rest of the memory. -/
theorem hands_congr (h : ∀ a, f.Reads a → m' a = m a) : f.hands m' = f.hands m := by
  cases f with
  | sendInReactor_strview | other => rfl
  | sendInReactor t data len =>
    have he : bytesAt m' data len = bytesAt m data len := by
      refine List.map_congr_left fun a ha => h a ?_
      rw [List.mem_range'_1] at ha
      exact ha
    rw [hands, hands, he]

end Functor

/-- The reactor of a connection, the connection's `state_`, and the threads that send on it. -/
structure Senders (ι κ : Type*) where
  reactor : Reactor.State ι (Functor ι)
  state_ : StateE
  memory : ℕ → UInt8
  buffers : κ → Buffer
  /-- What the `send` of a thread has bound and not queued yet. -/
  bound : ι → Option (Functor ι)
  /-- The calls of `send` so far, with the bytes of each at the time of the call. -/
  called : List (ι × Bytes)
  /-- The bytes handed to `sendInReactor` so far, with the thread of each call. -/
  handed : List (ι × Bytes)

namespace Senders

variable {ι κ : Type*}

inductive Action (ι κ : Type*)
  | send (t : ι) (data len : ℕ)
  | sendBuffer (t : ι) (buf : κ)
  | runInReactor (t : ι)
  | write (t : ι) (a : ℕ) (b : UInt8)
  | assign (t : ι) (buf : κ) (b : Buffer)
  | setState (state : StateE)
  | reactor (a : Reactor.Action ι (Functor ι))

section Program

variable [DecidableEq ι] [DecidableEq κ]

/-- The thread is in no call. -/
def Idle (s : Senders ι κ) (t : ι) : Prop := s.bound t = none ∧ s.reactor.threads t = .idle

instance (s : Senders ι κ) (t : ι) : Decidable (s.Idle t) := inferInstanceAs (Decidable (_ ∧ _))

/-- `std::bind` in a `send`. -/
def bind (s : Senders ι κ) (t : ι) (data : Bytes) (f : Functor ι) : Senders ι κ :=
  { s with bound := Function.update s.bound t (some f), called := s.called ++ [(t, data)] }

/-- Steps of `dispatch`, `queueInReactor` and `stop` beside the sends. -/
def Allows (s : Senders ι κ) : Reactor.Action ι (Functor ι) → Prop
  | .queueInReactor f => f = .other
  | .threadQueueInReactor t f => f = .other ∧ s.bound t = none
  | .threadStop t => s.bound t = none
  | _ => True

instance (s : Senders ι κ) : (a : Reactor.Action ι (Functor ι)) → Decidable (s.Allows a)
  | .queueInReactor _ => inferInstanceAs (Decidable (_ = _))
  | .threadQueueInReactor _ _ => inferInstanceAs (Decidable (_ ∧ _))
  | .threadStop _ => inferInstanceAs (Decidable (_ = _))
  | .tick | .demultiplex _ | .stop | .threadTick _ => inferInstanceAs (Decidable True)

def step (s : Senders ι κ) : Action ι κ → Option (Senders ι κ)
  | .send t data len =>
    if s.Idle t then
      some (if s.state_ = .kConnected then s.bind t (bytesAt s.memory data len) (.sendInReactor t data len) else s)
    else none
  | .sendBuffer t buf =>
    if s.Idle t then
      let message := (s.buffers buf).readable
      some (if s.state_ = .kConnected then
        { s with buffers := Function.update s.buffers buf (s.buffers buf).retrieveAll }.bind t message
          (.sendInReactor_strview t message) else s)
    else none
  -- the caller is not the reactor thread: queueInReactor
  | .runInReactor t =>
    match s.bound t with
    | some f => (Reactor.step s.reactor (.threadQueueInReactor t f)).map fun r =>
      { s with reactor := r, bound := Function.update s.bound t none }
    | none => none
  | .write t a b => if s.Idle t then some { s with memory := Function.update s.memory a b } else none
  | .assign t buf b => if s.Idle t then some { s with buffers := Function.update s.buffers buf b } else none
  -- connectEstablished and handleClose run in a callback
  | .setState state =>
    match s.reactor.pc with
    | .callback _ => some { s with state_ := state }
    | _ => none
  | .reactor a =>
    if s.Allows a then (Reactor.step s.reactor a).map fun r =>
      { s with reactor := r, handed := s.handed ++ (s.reactor.runs a).flatMap (Functor.hands s.memory) }
    else none

/-- A new connection with a new reactor, over any memory and buffers. -/
def init (memory : ℕ → UInt8) (buffers : κ → Buffer) : Senders ι κ where
  reactor := .init
  state_ := .kDisconnected
  memory := memory
  buffers := buffers
  bound _ := none
  called := []
  handed := []

/-- All interleavings of the reactor thread with the threads that send. -/
def senders (memory : ℕ → UInt8) (buffers : κ → Buffer) : Lts.System (Senders ι κ) (Action ι κ) :=
  Lts.ofFun (init memory buffers) step

end Program

/-! ## What is handed over -/

section Transmits

variable [DecidableEq ι] {s s' : Senders ι κ} {t u : ι} {f : Functor ι}

/-- The functors of thread `t` that have been bound and not been run. -/
def outstanding (s : Senders ι κ) (t : ι) : List (Functor ι) :=
  (s.reactor.waiting ++ (s.bound t).toList).filter fun f => f.caller = some t

/-- What thread `t` has sent, in a log of all threads. -/
def sentBy (t : ι) (log : List (ι × Bytes)) : List (ι × Bytes) := log.filter fun x => x.1 = t

/-- For each thread, what has been handed over is what its first calls had as data, call by call and once each, and
each of its other calls has one functor that is still to be run. -/
def Transmits (s : Senders ι κ) : Prop :=
  ∀ t, ∃ later, sentBy t s.called = sentBy t s.handed ++ later ∧ later.length = (s.outstanding t).length

/-- The address belongs to the data of a `send( data, len )` whose functor has not been run. -/
def Pins (s : Senders ι κ) (a : ℕ) : Prop := ∃ t, ∃ f ∈ s.outstanding t, f.Reads a

/-- The step does not change the data of a `send( data, len )` whose functor has not been run. -/
def Spares (s : Senders ι κ) : Action ι κ → Prop
  | .write _ a b => s.Pins a → s.memory a = b
  | _ => True

structure Inv (s : Senders ι κ) : Prop where
  reactor : Reactor.Inv s.reactor
  caller : ∀ t f, s.bound t = some f → f.caller = some t
  sent : ∀ t, sentBy t s.called = sentBy t s.handed ++ (s.outstanding t).flatMap (Functor.hands s.memory)

/-- What the functors of thread `t` hand over is what all functors hand over for thread `t`. -/
theorem sentBy_hands (m : ℕ → UInt8) (t : ι) (fs : List (Functor ι)) :
    sentBy t (fs.flatMap (Functor.hands m)) =
      (fs.filter fun f => f.caller = some t).flatMap (Functor.hands m) := by
  induction fs with
  | nil => rfl
  | cons f fs ih =>
    rw [List.flatMap_cons, sentBy, List.filter_append, ← sentBy, ← sentBy, ih]
    cases f with
    | sendInReactor_strview u message | sendInReactor u data len =>
      by_cases hu : u = t <;> simp [Functor.hands, Functor.caller, sentBy, hu]
    | other => simp [Functor.hands, Functor.caller, sentBy]

theorem Inv.transmits (h : Inv s) : s.Transmits := by
  intro t
  refine ⟨_, h.sent t, Functor.length_hands s.memory (t := t) ?_⟩
  intro f hf
  simpa using (List.mem_filter.1 hf).2

/-- A step of the reactor: what it runs is handed over, and what it queues had been bound. -/
theorem Inv.react {r : Reactor.State ι (Functor ι)} {a : Reactor.Action ι (Functor ι)} {b : ι → Option (Functor ι)}
    (h : Inv s) (hr : Reactor.step s.reactor a = some r) (hb : ∀ t f, b t = some f → f.caller = some t)
    (hq : ∀ t, (a.queues ++ (b t).toList).filter (fun f => f.caller = some t) =
      (s.bound t).toList.filter fun f => f.caller = some t) :
    Inv { s with
      reactor := r, bound := b, handed := s.handed ++ (s.reactor.runs a).flatMap (Functor.hands s.memory) } := by
  refine ⟨h.reactor.step hr, hb, fun t => ?_⟩
  have hw := h.reactor.waiting_step hr
  have hout : (s.outstanding t) = (s.reactor.runs a).filter (fun f => f.caller = some t) ++
      (r.waiting ++ (b t).toList).filter fun f => f.caller = some t := by
    rw [outstanding, List.filter_append, ← hq t, ← List.filter_append, ← List.append_assoc, ← hw,
      ← List.filter_append, List.append_assoc]
  rw [h.sent t, hout, List.flatMap_append, ← sentBy_hands, ← List.append_assoc]
  congr 1
  exact (List.filter_append _ _).symm

/-- A thread calls `send` and binds a functor that hands over the data of the call. -/
theorem Inv.bind {data : Bytes} (h : Inv s) (ht : s.bound t = none) (hf : f.caller = some t)
    (hd : f.hands s.memory = [(t, data)]) : Inv (s.bind t data f) := by
  refine ⟨h.reactor, ?_, ?_⟩
  · intro u g hg
    simp only [Senders.bind, Function.update_apply] at hg
    split at hg
    · cases hg
      rename_i hu
      rw [hu]
      exact hf
    · exact h.caller u g hg
  · intro u
    have hsent := h.sent u
    simp only [outstanding, Senders.bind, sentBy, List.filter_append] at hsent ⊢
    rw [hsent, List.append_assoc]
    congr 1
    by_cases hu : u = t
    · subst hu
      simp [ht, hf, hd]
    · simp [Function.update_of_ne hu, Ne.symm hu]

/-- A write that spares the data of the calls that are still to be handed over. -/
theorem Inv.write {a : ℕ} {b : UInt8} (h : Inv s) (hb : s.Pins a → s.memory a = b) :
    Inv { s with memory := Function.update s.memory a b } := by
  refine ⟨h.reactor, h.caller, fun t => ?_⟩
  rw [h.sent t]
  congr 1
  refine (List.flatMap_congr fun f hf => Functor.hands_congr fun c hc => ?_).symm
  by_cases hca : c = a
  · subst hca
    exact (Function.update_self c b s.memory).trans (hb ⟨t, f, hf, hc⟩).symm
  · exact Function.update_of_ne hca _ _

theorem inv_init (memory : ℕ → UInt8) (buffers : κ → Buffer) : Inv (init memory buffers : Senders ι κ) where
  reactor := Reactor.inv_init
  caller _ _ hf := by cases hf
  sent _ := rfl

variable [DecidableEq κ]

theorem Inv.step {a : Action ι κ} (h : Inv s) (ha : s.Spares a) (hs : step s a = some s') : Inv s' := by
  cases a with
  | send t data len =>
    simp only [Senders.step] at hs
    split at hs
    · rename_i ht
      cases hs
      split
      · exact h.bind ht.1 rfl rfl
      · exact h
    · cases hs
  | sendBuffer t buf =>
    simp only [Senders.step] at hs
    split at hs
    · rename_i ht
      cases hs
      split
      · refine Inv.bind (s := { s with buffers := _ }) ?_ ht.1 rfl rfl
        exact ⟨h.reactor, h.caller, h.sent⟩
      · exact h
    · cases hs
  | runInReactor t =>
    simp only [Senders.step] at hs
    split at hs
    · rename_i f hf
      obtain ⟨r, hr, rfl⟩ := Option.map_eq_some_iff.1 hs
      have hb := h.react (b := Function.update s.bound t none) hr ?_ ?_
      · simpa [Reactor.State.runs] using hb
      · intro u g hg
        rw [Function.update_apply] at hg
        split at hg
        · cases hg
        · exact h.caller u g hg
      · intro u
        by_cases hu : u = t
        · subst hu
          simp [Reactor.Action.queues, hf]
        · have hc := h.caller t f hf
          simp [Reactor.Action.queues, Function.update_of_ne hu, hc, Ne.symm hu]
    · cases hs
  | write t a b =>
    simp only [Senders.step] at hs
    split at hs <;> cases hs
    exact h.write ha
  | assign t buf b =>
    simp only [Senders.step] at hs
    split at hs <;> cases hs
    exact ⟨h.reactor, h.caller, h.sent⟩
  | setState state =>
    simp only [Senders.step] at hs
    split at hs <;> cases hs
    exact ⟨h.reactor, h.caller, h.sent⟩
  | reactor a =>
    simp only [Senders.step] at hs
    split at hs
    · rename_i hal
      obtain ⟨r, hr, rfl⟩ := Option.map_eq_some_iff.1 hs
      refine h.react hr h.caller fun t => ?_
      have hother : a.queues = [] ∨ a.queues = [.other] := by
        cases a with
        | queueInReactor g => exact .inr (congrArg (fun g => [g]) hal)
        | threadQueueInReactor u g => exact .inr (congrArg (fun g => [g]) hal.1)
        | tick | demultiplex _ | stop | threadTick _ | threadStop _ => exact .inl rfl
      rcases hother with hq | hq <;> simp [hq, Functor.caller]
    · cases hs

variable {memory : ℕ → UInt8} {buffers : κ → Buffer}

/-- **What `send` transmits from other threads.** In every state of a run in which no thread writes to the data of a
`send( data, len )` before its functor has run, each thread's calls have been handed to `sendInReactor` in their order,
once each, with the bytes that the data of the call held at the time of the call. -/
theorem sends_transmitted (w : List (Senders ι κ × Action ι κ × Senders ι κ))
    (h : Lts.Run (senders memory buffers) (init memory buffers) w s) (hw : ∀ x ∈ w, x.1.Spares x.2.1) :
    s.Transmits :=
  (h.invariant (I := Inv) (C := fun x => x.1.Spares x.2.1) (fun _ _ _ hi hc hst => hi.step hc hst) hw
    (inv_init memory buffers) s h.last_mem).transmits

instance (s : Senders Bool κ) : (a : Action Bool κ) → Decidable (s.Spares a)
  | .write _ a _ => inferInstanceAs (Decidable ((∃ t, ∃ f ∈ s.outstanding t, f.Reads a) → _))
  | .send .. | .sendBuffer .. | .runInReactor .. | .assign .. | .setState .. | .reactor .. =>
    inferInstanceAs (Decidable True)

/-- A functor of the reactor has established the connection and returned. -/
def connect : List (Action Bool Unit) :=
  [.reactor .tick, .reactor (.threadQueueInReactor true .other), .reactor (.threadTick true),
    .reactor (.threadTick true), .reactor .tick, .reactor (.demultiplex [.wakeup])] ++
  List.replicate 8 (.reactor .tick) ++ [.setState .kConnected] ++ List.replicate 5 (.reactor .tick)

/-- The reactor wakes up and runs one functor. -/
def runOne : List (Action Bool Unit) :=
  .reactor (.demultiplex [.wakeup]) :: List.replicate 8 (.reactor .tick)

/-- Each thread sends, the functors run, and then thread `false` reuses its byte. -/
def reuseLate : List (Action Bool Unit) :=
  connect ++ [.send false 0 1, .sendBuffer true (), .runInReactor false, .runInReactor true,
    .reactor (.threadTick false), .reactor (.threadTick false)] ++ runOne ++ [.reactor .tick, .reactor .tick] ++
    [.write false 0 7]

theorem sends_transmitted_reuseLate : ∃ s : Senders Bool Unit,
    Lts.exec step (init (fun _ => 1) fun _ => .new 4) reuseLate = some s ∧ s.Transmits := by
  have hsome : (Lts.exec step (init (fun _ => 1) fun _ => .new 4) reuseLate).isSome = true := by decide +kernel
  obtain ⟨s, hs⟩ := Option.isSome_iff_exists.1 hsome
  exact ⟨s, hs, sends_transmitted _ (Lts.Run.moves hs) (by decide +kernel)⟩

/-- Thread `false` returns from `send( data, 1 )` and reuses its byte before the functor runs. -/
def reuseEarly : List (Action Bool Unit) :=
  connect ++ [.send false 0 1, .runInReactor false, .reactor (.threadTick false), .reactor (.threadTick false),
    .write false 0 7] ++ runOne

theorem not_transmits_reuseEarly :
    ¬∀ s : Senders Bool Unit, Lts.Reach (senders (fun _ => 1) fun _ => .new 4) s → s.Transmits := by
  intro h
  obtain ⟨s, hs, hc, hh⟩ : ∃ s ∈ Lts.exec step (init (fun _ => 1) fun _ => .new 4) reuseEarly,
      s.called = [(false, [1])] ∧ s.handed = [(false, [7])] := by
    decide +kernel
  obtain ⟨later, hl, -⟩ := h s (Lts.Reach.exec (.init rfl) hs) false
  rw [hc, hh] at hl
  exact absurd (List.cons.inj hl).1 (by decide)

end Transmits

end Senders

end Libeva.Net
