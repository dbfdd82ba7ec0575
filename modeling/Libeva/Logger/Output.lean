import Libeva.Logger.LogFile
import Libeva.Logger.Logging

/-!
# The logger on a `LogFile`

`g_output` and `g_flush` are `outputFunc` and `flushFunc`, which call `append` and `flush` of `g_logFile`. A thread
whose `Logger` is destroyed is inside of `g_logFile` until the call returns; the other threads go on, and so does the
clock. `abort()` ends the process, and what is in the buffer of a file then is lost.

* `project`: a run of the process is a run of the `LogFile`, whose calls are the lines of the messages.
* `Inv.dying`: what a thread that is about to abort has on disk.
-/

namespace Libeva.Output

open LogFile (Config Durable)

structure Process (ι : Type*) where
  logger : Logger.State ι
  file : LogFile.State ι

inductive Action (ι : Type*)
  | logger (a : Logger.Action ι)
  | file (a : LogFile.Action ι)

section Program

variable {ι : Type*}

/-- `outputFunc` and `flushFunc`. -/
def call : Logger.Event ι → LogFile.Action ι
  | .output t _ msg => .append t msg
  | .flush t => .flush t

/-- The thread of the action is not in a call of `g_logFile`. -/
def Process.Ready (p : Process ι) : Logger.Action ι → Prop
  | .setLogLevel _ => True
  | .log t _ _ _ | .insert t _ | .destroy t | .flush t | .abort t => p.file.pc t = .idle

instance (p : Process ι) : DecidablePred p.Ready
  | .setLogLevel _ => inferInstanceAs (Decidable True)
  | .log t _ _ _ | .insert t _ | .destroy t | .flush t | .abort t => inferInstanceAs (Decidable (p.file.pc t = .idle))

/-- The action is not a call. -/
def internal : LogFile.Action ι → Bool
  | .append _ _ | .flush _ => false
  | .tick _ | .fwrite _ _ | .drain _ | .clock _ => true

variable [DecidableEq ι] (cfg : Config) (env : Logger.Env ι)

def step (p : Process ι) : Action ι → Option (Process ι)
  | .logger a =>
    if p.Ready a then
      (Logger.step env p.logger a).bind fun logger =>
        (Lts.exec (LogFile.step cfg) p.file ((logger.events.drop p.logger.events.length).map call)).map fun file =>
          ⟨logger, file⟩
    else none
  | .file a =>
    if p.logger.status = .running ∧ internal a = true then
      (LogFile.step cfg p.file a).map fun file => { p with file }
    else none

/-- All interleavings of the threads. -/
def process : Lts.System (Process ι) (Action ι) where
  init p := p.logger = Logger.init ∧ (LogFile.logFile cfg ι).init p.file
  step p a p' := step cfg env p a = some p'

end Program

/-! ## Runs -/

section Runs

variable {ι : Type*}

def Action.Valid : Action ι → Prop
  | .logger a => a.Valid
  | .file _ => True

instance : DecidablePred (@Action.Valid ι)
  | .logger a => inferInstanceAs (Decidable a.Valid)
  | .file _ => inferInstanceAs (Decidable True)

variable [DecidableEq ι]

/-- `fwrite_unlocked` takes nothing of what is left of a line. -/
def Fails (x : Process ι × Action ι × Process ι) : Prop :=
  match x.2.1 with
  | .logger _ => False
  | .file a => LogFile.Fails (x.1.file, a, x.2.2.file)

instance (x : Process ι × Action ι × Process ι) : Decidable (Fails x) := by
  unfold Fails
  split <;> infer_instance

/-- The lines of `t`. -/
def texts (t : ι) (es : List (Logger.Event ι)) : List Bytes := es.filterMap fun
  | .output u _ msg => if u = t then some msg else none
  | .flush _ => none

variable {cfg : Config} {env : Logger.Env ι} {p p' : Process ι} {a : Action ι} {t : ι}

/-- A thread that has called `g_flush` is in `LogFile::flush`, or has its lines on disk. -/
def Dying (f : LogFile.State ι) (t : ι) : Prop :=
  f.pc t = .lockFlush ∨ f.pc t = .fflush ∨ ((f.pc t = .unlock true ∨ f.pc t = .idle) ∧ Durable f t)

structure Inv (env : Logger.Env ι) (p : Process ι) : Prop where
  logger : Logger.Inv env p.logger
  spec : p.logger.spec.Ok env
  file : LogFile.Inv p.file
  dying : ∀ t, p.logger.phase t = .abort → Dying p.file t
  aborted : p.logger.spec.aborted = true → ∃ t, p.logger.phase t = .abort ∧ p.file.pc t = .idle

theorem Dying.durable {f f' : LogFile.State ι} {a : LogFile.Action ι} (hts : cfg.threadSafe = true)
    (hi : LogFile.Inv f) (hd : Durable f t) (hp : f.pc t = .unlock true ∨ f.pc t = .idle)
    (hs : LogFile.step cfg f a = some f') : Durable f' t := by
  refine hd.step hts hi ?_ ?_ hs
  · rcases hp with hp | hp <;> rw [hp] <;> rfl
  · rcases hp with hp | hp <;> rw [hp] <;> rfl

/-- What another thread does. -/
theorem Dying.other {f f' : LogFile.State ι} {a : LogFile.Action ι} (hts : cfg.threadSafe = true) (hi : LogFile.Inv f)
    (h : Dying f t) (ha : a.thread? ≠ some t) (hs : LogFile.step cfg f a = some f') : Dying f' t := by
  unfold Dying
  rw [LogFile.step_pc_of_ne hts hs ha]
  exact h.imp_right (Or.imp_right fun ⟨hp, hd⟩ => ⟨hp, Dying.durable hts hi hd hp hs⟩)

/-- What a thread in `LogFile::flush` does next. -/
theorem flush_steps (hts : cfg.threadSafe = true) {f f' : LogFile.State ι} {a : LogFile.Action ι}
    (ha : internal a = true) (ht : a.thread? = some t) (hs : LogFile.step cfg f a = some f') :
    (f.pc t = .lockFlush → f'.pc t = .fflush) ∧ (f.pc t = .fflush → f'.pc t = .unlock true) ∧
    (f.pc t = .unlock true → f'.pc t = .idle) ∧ f.pc t ≠ .idle := by
  cases a with
  | append | flush => cases ha
  | drain | clock => cases ht
  | fwrite u x =>
    cases ht
    simp only [LogFile.step] at hs
    refine ⟨fun hp => ?_, fun hp => ?_, fun hp => ?_, fun hp => ?_⟩ <;> rw [hp] at hs <;> cases hs
  | tick u =>
    cases ht
    simp only [LogFile.step] at hs
    refine ⟨fun hp => ?_, fun hp => ?_, fun hp => ?_, fun hp => ?_⟩ <;> rw [hp] at hs
    · obtain ⟨-, rfl⟩ := LogFile.lock_eq_some hts hs
      exact Function.update_self ..
    · cases hs
      exact Function.update_self ..
    · cases hs
      exact Function.update_self ..
    · cases hs

/-- A step inside of `g_logFile`. -/
theorem Inv.internal (hts : cfg.threadSafe = true) (h : Inv env p) (hrun : p.logger.status = .running)
    {a : LogFile.Action ι} {f : LogFile.State ι} (ha : Output.internal a = true)
    (hs : LogFile.step cfg p.file a = some f) : Inv env { p with file := f } := by
  have hfile := h.file.step hts hs
  refine ⟨h.logger, h.spec, hfile, fun t ht => ?_, fun hab => ?_⟩
  · by_cases hact : a.thread? = some t
    · obtain ⟨h1, h2, h3, h4⟩ := flush_steps hts ha hact hs
      rcases h.dying t ht with hp | hp | ⟨hp | hp, hd⟩
      · exact .inr (.inl (h1 hp))
      · exact .inr (.inr ⟨.inl (h2 hp), LogFile.durable_of_flushed hfile (hfile.flushed t (h2 hp))⟩)
      · exact .inr (.inr ⟨.inr (h3 hp), Dying.durable hts h.file hd (.inl hp) hs⟩)
      · exact absurd hp h4
    · exact (h.dying t ht).other hts h.file hact hs
  · have hnot : p.logger.spec.aborted = false := by
      show decide (p.logger.status = .aborted) = false
      rw [hrun]
      rfl
    exact absurd hab (by rw [show ({ p with file := f } : Process ι).logger = p.logger from rfl, hnot]; simp)

/-- What a step of the logger calls. -/
inductive Calls (s s' : Logger.Spec ι) : Logger.Action ι → Prop
  | none {a : Logger.Action ι} : s'.events = s.events → (∀ t, s'.phase t = .abort → s.phase t = .abort) →
    (s'.aborted = true → ∃ t, a = .abort t ∧ s'.phase t = .abort) → Calls s s' a
  | output (t : ι) (m : Logger.Message) (msg : Bytes) : s'.events = s.events ++ [.output t m msg] →
    s'.aborted = false → (∀ u, s'.phase u = .abort → u ≠ t ∧ s.phase u = .abort) → Calls s s' (.destroy t)
  | flush (t : ι) : s'.events = s.events ++ [.flush t] → s'.aborted = false →
    (∀ u, s'.phase u = .abort → u ≠ t → s.phase u = .abort) → Calls s s' (.flush t)

theorem calls_of_moves {s s' : Logger.Spec ι} {a : Logger.Action ι} (h0 : s.aborted = false)
    (hm : Logger.Spec.Moves env s a s') : Calls s s' a := by
  cases hm with
  | setLogLevel | log | skip | insert => exact .none rfl (fun _ h => h) fun h => absurd h (by simp [h0])
  | destroy t m ms hp hms =>
    refine .output t m _ rfl h0 fun u hu => ?_
    dsimp only at hu
    by_cases hut : u = t
    · rw [hut, Function.update_self] at hu
      split at hu <;> cases hu
    · rw [Function.update_of_ne hut] at hu
      exact ⟨hut, hu⟩
  | flush t hp =>
    refine .flush t rfl h0 fun u hu hut => ?_
    dsimp only at hu
    rwa [Function.update_of_ne hut] at hu
  | abort t hp => exact .none rfl (fun _ h => h) fun _ => ⟨t, rfl, hp⟩

theorem texts_append_call {f f' : LogFile.State ι} {es : List (Logger.Event ι)} {e : Logger.Event ι} :
    texts t (es ++ [e]) = texts t es ++ LogFile.calls t [(f, call e, f')] := by
  unfold texts LogFile.calls
  rw [List.filterMap_append]
  cases e with
  | output u m msg => by_cases hu : u = t <;> simp [call, hu]
  | flush u => simp [call]

/-- A step of the logger, with its calls. -/
theorem Inv.logged (hts : cfg.threadSafe = true) (henv : ∀ t, env.gettid t < 2 ^ 31) (h : Inv env p)
    {a : Logger.Action ι} (hv : a.Valid) (hs : step cfg env p (.logger a) = some p') : Inv env p' ∧
    ∃ w, Lts.Run (LogFile.logFile cfg ι) p.file w p'.file ∧ (∀ x ∈ w, ¬LogFile.Fails x) ∧
      ∀ t, texts t p'.logger.events = texts t p.logger.events ++ LogFile.calls t w := by
  simp only [step] at hs
  split at hs
  swap
  · cases hs
  rename_i hready
  obtain ⟨l, hl, hs⟩ := Option.bind_eq_some_iff.1 hs
  obtain ⟨f, hf, rfl⟩ := Option.map_eq_some_iff.1 hs
  obtain ⟨hi, hst⟩ := h.logger.step henv hv hl
  have h0 : p.logger.spec.aborted = false := by
    by_contra hab
    rw [Bool.not_eq_false] at hab
    unfold Logger.Spec.step at hst
    rw [if_pos hab] at hst
    cases hst
  have hm := Logger.Spec.moves hst
  have hok := h.spec.step hv hm
  -- a call of `g_logFile` is one step of it
  have hcall : ∀ e, l.events = p.logger.events ++ [e] → LogFile.step cfg p.file (call e) = some f := by
    intro e he
    rw [he, List.drop_left, List.map_singleton] at hf
    obtain ⟨f', hs, hf⟩ := Option.bind_eq_some_iff.1 hf
    cases hf
    exact hs
  cases calls_of_moves h0 hm with
  | none he hph hab =>
    rw [show l.events = p.logger.events from he, List.drop_length] at hf
    cases hf
    refine ⟨⟨hi, hok, h.file, fun t ht => h.dying t (hph t ht), fun hb => ?_⟩, [], .nil _, fun x hx => (nomatch hx),
      fun t => ?_⟩
    · obtain ⟨t, rfl, ht⟩ := hab hb
      exact ⟨t, ht, hready⟩
    · rw [show l.events = p.logger.events from he]
      exact (List.append_nil _).symm
  | output t m msg he hna hph =>
    have hs := hcall _ he
    refine ⟨⟨hi, hok, h.file.step hts hs, fun u hu => ?_, fun hb => absurd hb (by simp [hna])⟩, _, Lts.Run.single hs,
      fun x hx => ?_, fun u => ?_⟩
    · obtain ⟨hut, hu⟩ := hph u hu
      have hne : (call (.output t m msg)).thread? ≠ some u := fun ht => hut (Option.some.inj ht).symm
      exact (h.dying u hu).other hts h.file hne hs
    · cases List.mem_singleton.1 hx
      exact fun hfail => hfail
    · rw [show l.events = _ from he]
      exact texts_append_call
  | flush t he hna hph =>
    have hs := hcall _ he
    refine ⟨⟨hi, hok, h.file.step hts hs, fun u hu => ?_, fun hb => absurd hb (by simp [hna])⟩, _, Lts.Run.single hs,
      fun x hx => ?_, fun u => ?_⟩
    · by_cases hut : u = t
      · subst hut
        simp only [call, LogFile.step] at hs
        split at hs <;> cases hs
        exact .inl (Function.update_self ..)
      · have hne : (call (.flush t)).thread? ≠ some u := fun ht => hut (Option.some.inj ht).symm
        exact (h.dying u (hph u hu hut)).other hts h.file hne hs
    · cases List.mem_singleton.1 hx
      exact fun hfail => hfail
    · rw [show l.events = _ from he]
      exact texts_append_call

variable {p₀ : Process ι} {w : List (Process ι × Action ι × Process ι)}

/-- **Projection.** A run of the process is a run of the `LogFile`; the calls of a thread are its lines. -/
theorem project (hts : cfg.threadSafe = true) (henv : ∀ t, env.gettid t < 2 ^ 31) (h0 : (process cfg env).init p₀)
    (hr : Lts.Run (process cfg env) p₀ w p) (hw : ∀ x ∈ w, x.2.1.Valid) : Inv env p ∧
    ∃ v, Lts.Run (LogFile.logFile cfg ι) p₀.file v p.file ∧
      ((∀ x ∈ w, ¬Fails x) → ∀ x ∈ v, ¬LogFile.Fails x) ∧ ∀ t, texts t p.logger.events = LogFile.calls t v := by
  induction hr with
  | nil =>
    obtain ⟨hl, hf⟩ := h0
    have hfile := LogFile.reach_inv hts (.init hf)
    obtain ⟨hok, -⟩ := Logger.run_lines henv (.nil (Logger.init : Logger.State ι)) (fun x hx => nomatch hx)
    refine ⟨⟨?_, ?_, hfile, fun t ht => ?_, fun ha => ?_⟩, [], .nil _, fun _ x hx => (nomatch hx), fun t => ?_⟩
    · rw [hl]
      exact Logger.inv_init
    · rw [hl]
      exact hok
    · rw [hl] at ht
      cases ht
    · rw [hl] at ha
      cases ha
    · rw [hl]
      rfl
  | @snoc p p' a w _ hst ih =>
    rw [List.forall_mem_append, List.forall_mem_singleton] at hw
    obtain ⟨hi, v, hv, hfails, hcalls⟩ := ih hw.1
    cases a with
    | logger a =>
      obtain ⟨hi', v', hv', hfails', hcalls'⟩ := hi.logged hts henv hw.2 hst
      refine ⟨hi', v ++ v', hv.trans hv', fun hx => ?_, fun t => ?_⟩
      · rw [List.forall_mem_append] at hx ⊢
        exact ⟨hfails hx.1, hfails'⟩
      · rw [hcalls' t, hcalls t, LogFile.calls, LogFile.calls, LogFile.calls, List.filterMap_append]
    | file a =>
      have hst : step cfg env p (.file a) = some p' := hst
      simp only [step] at hst
      split at hst
      swap
      · cases hst
      rename_i hrun
      obtain ⟨f, hf, rfl⟩ := Option.map_eq_some_iff.1 hst
      refine ⟨hi.internal hts hrun.1 hrun.2 hf, v ++ [(p.file, a, f)], .snoc hv hf, fun hx => ?_, fun t => ?_⟩
      · rw [List.forall_mem_append, List.forall_mem_singleton] at hx ⊢
        exact ⟨hfails hx.1, hx.2⟩
      · have hnone : LogFile.calls t [(p.file, a, f)] = [] := by
          cases a with
          | append | flush => cases hrun.2
          | tick | fwrite | drain | clock => rfl
        rw [LogFile.calls, List.filterMap_append, ← LogFile.calls, ← LogFile.calls, hnone, List.append_nil]
        exact hcalls t

theorem texts_eq {es : List (Logger.Event ι)} (h : ∀ t m msg, .output t m msg ∈ es → msg = m.text env t) (t : ι) :
    texts t es = (Logger.outputs t es).map (Logger.Message.text env t) := by
  induction es with
  | nil => rfl
  | cons e es ih =>
    have ih := ih fun t m msg hm => h t m msg (List.mem_cons_of_mem _ hm)
    cases e with
    | flush u => exact ih
    | output u m msg =>
      have hmsg := h u m msg List.mem_cons_self
      unfold texts Logger.outputs at ih ⊢
      by_cases hu : u = t
      · simp only [List.filterMap_cons, if_pos hu, List.map_cons, ih]
        rw [hmsg, hu]
      · simp only [List.filterMap_cons, if_neg hu, ih]

/-- **The lines of the messages** are what the files have, thread by thread and in order; and when a fatal message
aborts the process, no line of its thread is lost: each of them is on disk, as often as it has been handed over. -/
theorem lines_in_files (cfg : Config) (env : Logger.Env ι) (hts : cfg.threadSafe = true)
    (henv : ∀ t, env.gettid t < 2 ^ 31) (p₀ p : Process ι) (w : List (Process ι × Action ι × Process ι))
    (h0 : (process cfg env).init p₀) (hr : Lts.Run (process cfg env) p₀ w p) (hw : ∀ x ∈ w, x.2.1.Valid) :
    (∀ f ∈ p.file.files, f.contents = LogFile.text f.entries) ∧
    (∀ t, p.file.lines t ++ (p.file.pc t).pending =
      (Logger.outputs t p.logger.events).map (Logger.Message.text env t)) ∧
    ((∀ x ∈ w, ¬Fails x) → p.logger.status = .aborted →
      ∃ t, (∃ m ∈ Logger.outputs t p.logger.events, m.site.macro_.level = .FATAL) ∧
        (∀ m ∈ Logger.outputs t p.logger.events, ∃ f ∈ p.file.files, m.text env t <:+: f.disk) ∧
        ∀ f ∈ p.file.files, ∀ l e l', f.entries = l ++ e :: l' → e.thread = t →
          LogFile.Whole e ∧ LogFile.text (l ++ [e]) <+: f.disk) := by
  obtain ⟨hi, v, hv, hfails, hcalls⟩ := project hts henv h0 hr hw
  have htexts : ∀ t, p.file.lines t ++ (p.file.pc t).pending =
      (Logger.outputs t p.logger.events).map (Logger.Message.text env t) := by
    intro t
    rw [LogFile.lines_run hts h0.2 hv t, ← hcalls t]
    exact texts_eq (fun t m msg hm => (hi.spec.events t m msg hm).1) t
  refine ⟨hi.file.files, htexts, fun hx ha => ?_⟩
  obtain ⟨t, ht, hidle⟩ := hi.aborted (decide_eq_true ha)
  obtain ⟨l, l', he, m, msg, hm, hfatal⟩ := hi.spec.abort t ht
  have hd : Durable p.file t := by
    rcases hi.dying t ht with hp | hp | ⟨-, hd⟩
    · rw [hidle] at hp
      cases hp
    · rw [hidle] at hp
      cases hp
    · exact hd
  have hall := LogFile.complete_run hts h0.2 hv (hfails hx)
  have hnone : (p.file.pc t).writing? = none := by
    rw [hidle]
    rfl
  refine ⟨t, ⟨m, List.mem_filterMap.2 ⟨.output t m msg, ?_, if_pos rfl⟩, hfatal⟩, fun m' hm' => ?_,
    fun f hf l e l' hes he => LogFile.entry_on_disk hi.file hall hd hnone hf hes he⟩
  · rw [show p.logger.events = _ from he]
    exact List.mem_append_left _ hm
  · refine LogFile.line_on_disk hi.file hall hd hnone ?_
    have hlines := htexts t
    rw [hidle, show LogFile.Pc.idle.pending = [] from rfl, List.append_nil] at hlines
    rw [hlines]
    exact List.mem_map.2 ⟨m', hm', rfl⟩

end Runs

/-- Files of a thousand bytes. -/
def thousand : Config := ⟨1000, true, 3, 1024⟩

/-- One thread aborts; the library writes nothing out before `fflush`. -/
def aborting : List (Action Bool) :=
  [.logger (.log true Logger.fatalSite 1709251200000000 13), .logger (.destroy true), .file (.tick true),
    .file (.fwrite true 20), .file (.fwrite true 57)] ++ List.replicate 5 (.file (.tick true)) ++
  [.logger (.flush true), .file (.tick true), .file (.tick true), .file (.tick true), .logger (.abort true)]

theorem lines_in_files_aborting :
    ∃ p ∈ Lts.exec (step thousand Logger.twoThreads) ⟨Logger.init, LogFile.init 1⟩ aborting,
    p.logger.status = .aborted ∧ ∃ t, ∀ m ∈ Logger.outputs t p.logger.events,
      ∃ f ∈ p.file.files, m.text Logger.twoThreads t <:+: f.disk := by
  obtain ⟨p, hp, ha, hw, hf⟩ :
      ∃ p ∈ Lts.exec (step thousand Logger.twoThreads) ⟨Logger.init, LogFile.init 1⟩ aborting,
        p.logger.status = .aborted ∧
        (∀ x ∈ Lts.moves (step thousand Logger.twoThreads) ⟨Logger.init, LogFile.init 1⟩ aborting, x.2.1.Valid) ∧
        ∀ x ∈ Lts.moves (step thousand Logger.twoThreads) ⟨Logger.init, LogFile.init 1⟩ aborting, ¬Fails x := by
    decide +kernel
  have hr : Lts.Run (process thousand Logger.twoThreads) ⟨Logger.init, LogFile.init 1⟩ _ p :=
    Lts.Run.mono (M := Lts.ofFun ⟨Logger.init, LogFile.init 1⟩ (step thousand Logger.twoThreads))
      (N := process thousand Logger.twoThreads) (fun _ _ _ hst => hst) (Lts.Run.moves hp)
  obtain ⟨t, -, hall, -⟩ := (lines_in_files thousand Logger.twoThreads rfl (by decide) _ p _
    ⟨rfl, 1, by decide, rfl⟩ hr hw).2.2 hf ha
  exact ⟨p, hp, ha, t, hall⟩

end Libeva.Output
