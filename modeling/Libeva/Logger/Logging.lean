import Libeva.Lib.Runs
import Libeva.Logger.LogStream
import Libeva.Timestamp
import Mathlib.Logic.Function.Basic

/-!
# `Logger`

Any number of threads run `LOG_..` statements. A statement builds a `Logger`, inserts the items of its body, and
destroys the `Logger`, which hands the line to `g_output`; the statements of one thread may be nested. A `const char*`
buffer of a thread is the characters in front of its `'\0'`. The assertions are on.

* `formatTime`, `Impl.new`, `Impl.finish`: what the program does with the buffers of a thread.
* `Message.text`: what the line of a message is, from the message only.
* `Spec`: statements and their messages, with no buffers; `refines` connects the two.
-/

namespace Libeva.Logger

open Timestamp (gmtime_r decimal snprintf)

/-! ## Statements -/

inductive LogLevel
  | TRACE
  | DEBUG
  | INFO
  | WARN
  | ERROR
  | FATAL
  deriving DecidableEq

def LogLevel.toNat : LogLevel → ℕ
  | .TRACE => 0
  | .DEBUG => 1
  | .INFO => 2
  | .WARN => 3
  | .ERROR => 4
  | .FATAL => 5

def LogLevelName : LogLevel → Bytes
  | .TRACE => bytes "TRACE "
  | .DEBUG => bytes "DEBUG "
  | .INFO => bytes "INFO  "
  | .WARN => bytes "WARN  "
  | .ERROR => bytes "ERROR "
  | .FATAL => bytes "FATAL "

/-- The macros. -/
inductive Macro
  | LOG_TRACE
  | LOG_DEBUG
  | LOG_INFO
  | LOG_WARN
  | LOG_ERROR
  | LOG_FATAL
  | LOG_SYSERR
  | LOG_SYSFATAL
  deriving DecidableEq

namespace Macro

/-- The level that the constructor gives to `Impl`. -/
def level : Macro → LogLevel
  | LOG_TRACE => .TRACE
  | LOG_DEBUG => .DEBUG
  | LOG_INFO => .INFO
  | LOG_WARN => .WARN
  | LOG_ERROR | LOG_SYSERR => .ERROR
  | LOG_FATAL | LOG_SYSFATAL => .FATAL

/-- The test in front of the statement; there is none from `LOG_WARN` on. -/
def enabled (g_logLevel : LogLevel) : Macro → Bool
  | LOG_TRACE => g_logLevel.toNat ≤ LogLevel.TRACE.toNat
  | LOG_DEBUG => g_logLevel.toNat ≤ LogLevel.DEBUG.toNat
  | LOG_INFO => g_logLevel.toNat ≤ LogLevel.INFO.toNat
  | LOG_WARN | LOG_ERROR | LOG_FATAL | LOG_SYSERR | LOG_SYSFATAL => true

/-- The constructor gets `__func__`. -/
def hasFunc : Macro → Bool
  | LOG_TRACE | LOG_DEBUG => true
  | LOG_INFO | LOG_WARN | LOG_ERROR | LOG_FATAL | LOG_SYSERR | LOG_SYSFATAL => false

/-- The constructor reads `errno`. -/
def hasErrno : Macro → Bool
  | LOG_SYSERR | LOG_SYSFATAL => true
  | LOG_TRACE | LOG_DEBUG | LOG_INFO | LOG_WARN | LOG_ERROR | LOG_FATAL => false

end Macro

/-- The place of a statement. -/
structure Site where
  macro_ : Macro
  file : Bytes
  line : ℤ
  func : Bytes
  deriving DecidableEq

/-- `SourceFile`: what is behind the last slash. -/
def basename (filename : Bytes) : Bytes := (filename.reverse.takeWhile fun c => c ≠ 47).reverse

/-- A statement that is being run, or has been. -/
structure Message where
  site : Site
  time : ℕ
  savedErrno : ℤ
  body : List Item
  deriving DecidableEq

/-! ## The program -/

/-- How the process may end, but by `abort()` after a fatal message. -/
inductive Stop
  | fault (f : Fault)
  | assertion
  deriving DecidableEq

/-- The `__thread` variables. -/
structure Local where
  t_time : Bytes
  t_lastSecond : ℕ
  t_cachedTid : ℕ
  t_tidString : Bytes
  t_tidStringLength : ℕ

def Local.new : Local := ⟨[], 0, 0, [], 6⟩

/-- `CurrentThread::tid()` -/
def Local.tid (l : Local) (gettid : ℕ) : Local :=
  if l.t_cachedTid = 0 then
    { l with
      t_cachedTid := gettid
      t_tidString := snprintf 32 (decimal 32 5 gettid ++ [32])
      t_tidStringLength := (decimal 32 5 gettid ++ [32]).length }
  else l

/-- What the system gives to the threads. -/
structure Env (ι : Type*) where
  gettid : ι → ℕ
  strerror : ℤ → Bytes

abbrev Buffer := FixedBuffer kSmallBuffer

def write (b : Buffer) (l : List Item) : Except Stop Buffer := (l.foldlM insert b).mapError .fault

/-- `stream_ << T( str, len )`; the constructor of `T` asserts the length. -/
def writeT (b : Buffer) (str : Bytes) (len : ℕ) : Except Stop Buffer :=
  if str.length = len then (b.append str).mapError .fault else .error .assertion

/-- The part of `formatTime` that fills `t_time`. -/
def Local.refresh (l : Local) (seconds : ℕ) : Except Stop Local :=
  if seconds ≠ l.t_lastSecond then
    if (gmtime_r seconds).text.length = 17 then
      .ok { l with t_lastSecond := seconds, t_time := snprintf 64 (gmtime_r seconds).text }
    else .error .assertion
  else .ok l

/-- `Fmt us(".%06dZ ", microseconds)` -/
def fmt (microseconds : ℕ) : Bytes := 46 :: (decimal 48 6 microseconds ++ [90, 32])

def formatTime (l : Local) (time_ : ℕ) (stream_ : Buffer) : Except Stop (Local × Buffer) := do
  let l ← l.refresh (time_ / Timestamp.kMicroSecondsPerSecond)
  let us := fmt (time_ % Timestamp.kMicroSecondsPerSecond)
  if us.length = 9 then
    let stream_ ← writeT stream_ l.t_time 17
    let stream_ ← writeT stream_ (snprintf 32 us) 9
    return (l, stream_)
  else throw .assertion

structure Impl where
  time_ : ℕ
  stream_ : Buffer
  level_ : LogLevel
  line_ : ℤ
  basename_ : Bytes
  /-- What has been given to it. -/
  message : Message

/-- What follows the level when there is an `errno`. -/
def errnoItems (strerror : ℤ → Bytes) (savedErrno : ℤ) : List Item :=
  if savedErrno ≠ 0 then
    [.cstr (some (strerror savedErrno)), .cstr (some (bytes " (errno=")), .integer savedErrno,
      .cstr (some (bytes ") "))]
  else []

def funcItems (site : Site) : List Item := if site.macro_.hasFunc then [.cstr (some site.func), .char 32] else []

section Program

variable {ι : Type*} (env : Env ι)

/-- The constructor of `Logger`. -/
def Impl.new (t : ι) (l : Local) (m : Message) : Except Stop (Local × Impl) := do
  let (l, stream_) ← formatTime l m.time (FixedBuffer.new kSmallBuffer)
  let l := l.tid (env.gettid t)
  let stream_ ← writeT stream_ l.t_tidString l.t_tidStringLength
  let stream_ ← writeT stream_ (LogLevelName m.site.macro_.level) 6
  let stream_ ← write stream_ (errnoItems env.strerror m.savedErrno)
  let stream_ ← write stream_ (funcItems m.site)
  return (l, ⟨m.time, stream_, m.site.macro_.level, m.site.line, basename m.site.file, m⟩)

/-- `stream() << i` -/
def Impl.insert (impl : Impl) (i : Item) : Except Stop Impl := do
  let stream_ ← write impl.stream_ [i]
  return { impl with stream_, message := { impl.message with body := impl.message.body ++ [i] } }

def Impl.finish (impl : Impl) : Except Stop Buffer :=
  write impl.stream_ [.cstr (some (bytes " - ")), .string impl.basename_, .char 58, .integer impl.line_, .char 10]

/-- A call of `g_output` or `g_flush`. -/
inductive Event (ι : Type*)
  | output (t : ι) (m : Message) (msg : Bytes)
  | flush (t : ι)
  deriving DecidableEq

/-- What a thread is about to do after a fatal message. -/
inductive Phase
  | running
  | flush
  | abort
  deriving DecidableEq

inductive Status
  | running
  | aborted
  | stopped (e : Stop)
  deriving DecidableEq

structure State (ι : Type*) where
  g_logLevel : LogLevel
  locals : ι → Local
  /-- The loggers of a thread, the innermost one first. -/
  impls : ι → List Impl
  phase : ι → Phase
  events : List (Event ι)
  status : Status

inductive Action (ι : Type*)
  | setLogLevel (level : LogLevel)
  /-- A statement begins, at the given time and with the given `errno`. -/
  | log (t : ι) (site : Site) (now : ℕ) (errno : ℤ)
  | insert (t : ι) (i : Item)
  | destroy (t : ι)
  | flush (t : ι)
  | abort (t : ι)

def message (site : Site) (now : ℕ) (errno : ℤ) : Message := ⟨site, now, if site.macro_.hasErrno then errno else 0, []⟩

/-- A thread computes a value, or ends the process. -/
def State.compute {α : Type} (s : State ι) (x : Except Stop α) (f : α → State ι) : State ι :=
  match x with
  | .ok a => f a
  | .error e => { s with status := .stopped e }

/-- The process when `main` begins. -/
def init : State ι where
  g_logLevel := .TRACE
  locals _ := .new
  impls _ := []
  phase _ := .running
  events := []
  status := .running

variable [DecidableEq ι]

def step (s : State ι) (a : Action ι) : Option (State ι) :=
  if s.status ≠ .running then none
  else match a with
    | .setLogLevel level => some { s with g_logLevel := level }
    | .log t site now errno =>
      if s.phase t ≠ .running then none
      else if site.macro_.enabled s.g_logLevel then
        some (s.compute (Impl.new env t (s.locals t) (message site now errno)) fun x => { s with
          locals := Function.update s.locals t x.1
          impls := Function.update s.impls t (x.2 :: s.impls t) })
      else some s
    | .insert t i =>
      match s.phase t, s.impls t with
      | .running, impl :: impls => some (s.compute (impl.insert i) fun impl =>
        { s with impls := Function.update s.impls t (impl :: impls) })
      | _, _ => none
    | .destroy t =>
      match s.phase t, s.impls t with
      | .running, impl :: impls => some (s.compute impl.finish fun stream_ =>
        { s with
          impls := Function.update s.impls t impls
          events := s.events ++ [.output t impl.message stream_.toString]
          phase := Function.update s.phase t (if impl.level_ = .FATAL then .flush else .running) })
      | _, _ => none
    | .flush t =>
      if s.phase t = .flush then
        some { s with events := s.events ++ [.flush t], phase := Function.update s.phase t .abort }
      else none
    | .abort t => if s.phase t = .abort then some { s with status := .aborted } else none

/-- All interleavings of the threads. -/
def logger : Lts.System (State ι) (Action ι) := Lts.ofFun init (step env)

end Program

/-! ## The specification -/

section Specification

variable {ι : Type*} (env : Env ι)

/-- What a line is made of. -/
def Message.head (t : ι) (m : Message) : List Item :=
  [.string (gmtime_r (m.time / Timestamp.kMicroSecondsPerSecond : ℕ)).text,
    .string (fmt (m.time % Timestamp.kMicroSecondsPerSecond)), .string (decimal 32 5 (env.gettid t) ++ [32]),
    .string (LogLevelName m.site.macro_.level)] ++
  (errnoItems env.strerror m.savedErrno ++ funcItems m.site)

def Message.tail (m : Message) : List Item :=
  [.cstr (some (bytes " - ")), .string (basename m.site.file), .char 58, .integer m.site.line, .char 10]

def Message.items (t : ι) (m : Message) : List Item := m.head env t ++ (m.body ++ m.tail)

/-- The line of a message. -/
def Message.text (t : ι) (m : Message) : Bytes := (kept 0 (m.items env t)).flatMap Item.text

/-- Threads that run statements. -/
structure Spec (ι : Type*) where
  level : LogLevel
  /-- The statements that a thread is in, the innermost one first. -/
  statements : ι → List Message
  phase : ι → Phase
  events : List (Event ι)
  aborted : Bool

namespace Spec

def init : Spec ι := ⟨.TRACE, fun _ => [], fun _ => .running, [], false⟩

variable [DecidableEq ι]

def step (s : Spec ι) (a : Action ι) : Option (Spec ι) :=
  if s.aborted then none
  else match a with
    | .setLogLevel level => some { s with level }
    | .log t site now errno =>
      if s.phase t ≠ .running then none
      else if site.macro_.enabled s.level then
        some { s with statements := Function.update s.statements t (message site now errno :: s.statements t) }
      else some s
    | .insert t i =>
      match s.phase t, s.statements t with
      | .running, m :: ms =>
        some { s with statements := Function.update s.statements t ({ m with body := m.body ++ [i] } :: ms) }
      | _, _ => none
    | .destroy t =>
      match s.phase t, s.statements t with
      | .running, m :: ms => some { s with
          statements := Function.update s.statements t ms
          events := s.events ++ [.output t m (m.text env t)]
          phase := Function.update s.phase t (if m.site.macro_.level = .FATAL then .flush else .running) }
      | _, _ => none
    | .flush t =>
      if s.phase t = .flush then
        some { s with events := s.events ++ [.flush t], phase := Function.update s.phase t .abort }
      else none
    | .abort t => if s.phase t = .abort then some { s with aborted := true } else none

def system : Lts.System (Spec ι) (Action ι) := Lts.ofFun init (step env)

end Spec

end Specification

/-! ## The refinement -/

/-- A value of the type that the code has for it: the clock is at least a second past the epoch, and before the year
10000. -/
def Action.Valid {ι : Type*} : Action ι → Prop
  | .log _ site now errno => Timestamp.InRange (now / Timestamp.kMicroSecondsPerSecond) ∧
    0 < now / Timestamp.kMicroSecondsPerSecond ∧ (-(2 ^ 31) ≤ errno ∧ errno < 2 ^ 31) ∧
    -(2 ^ 31) ≤ site.line ∧ site.line < 2 ^ 31
  | .insert _ i => i.Valid
  | .setLogLevel _ | .destroy _ | .flush _ | .abort _ => True

instance {ι : Type*} : DecidablePred (Action.Valid (ι := ι))
  | .log _ site now errno => inferInstanceAs (Decidable (Timestamp.InRange (now / Timestamp.kMicroSecondsPerSecond) ∧
    0 < now / Timestamp.kMicroSecondsPerSecond ∧ (-(2 ^ 31) ≤ errno ∧ errno < 2 ^ 31) ∧ -(2 ^ 31) ≤ site.line ∧
    site.line < 2 ^ 31))
  | .insert _ i => inferInstanceAs (Decidable i.Valid)
  | .setLogLevel _ | .destroy _ | .flush _ | .abort _ => inferInstanceAs (Decidable True)

section Refinement

variable {b b' : Buffer} {l l' : List Item} {i : Item} {n : ℕ}

/-- The buffer has the items of `l` that there was room for. -/
structure Wrote (b : Buffer) (l : List Item) : Prop where
  valid : ∀ i ∈ l, i.Valid
  cur_lt : b.cur_ < kSmallBuffer
  text : b.toString = (kept 0 l).flatMap Item.text
  cur : b.cur_ = ((kept 0 l).flatMap Item.text).length

theorem kept_append (n : ℕ) (l l' : List Item) :
    kept n (l ++ l') = kept n l ++ kept (n + ((kept n l).flatMap Item.text).length) l' := by
  induction l generalizing n with
  | nil => rfl
  | cons i l ih =>
    rw [List.cons_append, kept, kept]
    split
    · rw [ih, List.cons_append, List.flatMap_cons, List.length_append, Nat.add_assoc]
    · exact ih n

theorem Wrote.write (h : Wrote b l) (hv : ∀ i ∈ l', i.Valid) :
    ∃ b', Logger.write b l' = .ok b' ∧ Wrote b' (l ++ l') := by
  obtain ⟨b', hb, hc, ht, hn⟩ := insert_run h.cur_lt hv
  refine ⟨b', ?_, ?_⟩
  · rw [Logger.write, hb]
    rfl
  · have hk := kept_append 0 l l'
    rw [Nat.zero_add, ← h.cur] at hk
    refine ⟨List.forall_mem_append.2 ⟨h.valid, hv⟩, hc, ?_, ?_⟩
    · rw [ht, hk, List.flatMap_append, h.text]
    · rw [hn, hk, List.flatMap_append, List.length_append, ← h.cur]

theorem Wrote.writeT (h : Wrote b l) {str : Bytes} {len : ℕ} (hl : str.length = len) :
    ∃ b', Logger.writeT b str len = .ok b' ∧ Wrote b' (l ++ [.string str]) := by
  have hv : ∀ i ∈ [Item.string str], i.Valid := by simp [Item.Valid]
  obtain ⟨b', hw, hb⟩ := h.write hv
  refine ⟨b', ?_, hb⟩
  rw [Logger.writeT, if_pos hl, ← hw]
  simp only [Logger.write, List.foldlM_cons, List.foldlM_nil, Logger.insert, bind_pure]

theorem wrote_new : Wrote (FixedBuffer.new kSmallBuffer) [] where
  valid _ h := nomatch h
  cur_lt := by decide
  text := Block.read_zero
  cur := rfl

/-! ### The buffers of a thread -/

/-- What `t_time` and `t_tidString` hold once they have been filled. -/
structure Local.Ok (gettid : ℕ) (v : Local) : Prop where
  time : v.t_lastSecond ≠ 0 → v.t_time = (gmtime_r v.t_lastSecond).text ∧ v.t_time.length = 17
  tid : v.t_cachedTid ≠ 0 →
    v.t_tidString = decimal 32 5 gettid ++ [32] ∧ v.t_tidStringLength = (decimal 32 5 gettid ++ [32]).length

variable {v : Local} {gettid seconds time_ : ℕ}

theorem Local.Ok.refresh (h : v.Ok gettid) (hr : Timestamp.InRange seconds) (h0 : 0 < seconds) :
    ∃ v', v.refresh seconds = .ok v' ∧ v'.Ok gettid ∧ v'.t_time = (gmtime_r seconds).text ∧
      (gmtime_r seconds).text.length = 17 := by
  have hlen : (gmtime_r seconds).text.length = 17 := by rw [Timestamp.text_gmtime hr, Timestamp.length_secondText]
  unfold Local.refresh
  by_cases hs : seconds ≠ v.t_lastSecond
  · have hcut : snprintf 64 (gmtime_r seconds).text = (gmtime_r seconds).text :=
      List.take_of_length_le (by omega)
    rw [if_pos hs, if_pos hlen, hcut]
    exact ⟨_, rfl, ⟨fun _ => ⟨rfl, hlen⟩, h.tid⟩, rfl, hlen⟩
  · rw [if_neg hs]
    rw [not_not] at hs
    subst hs
    exact ⟨v, rfl, h, (h.time (Nat.ne_of_gt h0)).1, hlen⟩

theorem Local.Ok.cacheTid (h : v.Ok gettid) (ht : gettid < 2 ^ 31) : (v.tid gettid).Ok gettid ∧
    (v.tid gettid).t_tidString = decimal 32 5 gettid ++ [32] ∧
    (v.tid gettid).t_tidStringLength = (decimal 32 5 gettid ++ [32]).length := by
  have hlen := Timestamp.length_decimal 32 (w := 5) (n := gettid) (k := 10) (by decide) (Nat.lt_trans ht (by decide))
  have hcut : snprintf 32 (decimal 32 5 gettid ++ [32]) = decimal 32 5 gettid ++ [32] := by
    refine List.take_of_length_le ?_
    rw [List.length_append, List.length_singleton]
    omega
  unfold Local.tid
  by_cases hc : v.t_cachedTid = 0
  · rw [if_pos hc, hcut]
    exact ⟨⟨h.time, fun _ => ⟨rfl, rfl⟩⟩, rfl, rfl⟩
  · rw [if_neg hc]
    exact ⟨h, h.tid hc⟩

theorem length_fmt {us : ℕ} (h : us < 10 ^ 6) : (fmt us).length = 9 := by
  unfold fmt
  rw [Timestamp.decimal_zeros (by decide) h, List.length_cons, List.length_append, Timestamp.length_field]
  rfl

theorem Local.Ok.formatTime (h : v.Ok gettid) (hb : Wrote b l)
    (hr : Timestamp.InRange (time_ / Timestamp.kMicroSecondsPerSecond))
    (h0 : 0 < time_ / Timestamp.kMicroSecondsPerSecond) :
    ∃ v' b', Logger.formatTime v time_ b = .ok (v', b') ∧ v'.Ok gettid ∧
      Wrote b' (l ++ [.string (gmtime_r (time_ / Timestamp.kMicroSecondsPerSecond : ℕ)).text,
        .string (fmt (time_ % Timestamp.kMicroSecondsPerSecond))]) := by
  obtain ⟨v', hv, hok, htime, hlen⟩ := h.refresh hr h0
  have hfmt : (fmt (time_ % Timestamp.kMicroSecondsPerSecond)).length = 9 := length_fmt (Nat.mod_lt time_ (by decide))
  have hcut : snprintf 32 (fmt (time_ % Timestamp.kMicroSecondsPerSecond)) =
      fmt (time_ % Timestamp.kMicroSecondsPerSecond) :=
    List.take_of_length_le (by omega)
  obtain ⟨b₁, h1, hb₁⟩ := hb.writeT (htime ▸ hlen)
  obtain ⟨b₂, h2, hb₂⟩ := hb₁.writeT hfmt
  refine ⟨v', b₂, ?_, hok, ?_⟩
  · unfold Logger.formatTime
    simp only [hv, ok_bind, if_pos hfmt, h1, hcut, h2]
    rfl
  · rw [htime, List.append_assoc] at hb₂
    exact hb₂

/-! ### Loggers -/

section Loggers

variable {ι : Type*} {env : Env ι} {t : ι} {m : Message} {impl : Impl}

/-- `impl` has what its message is made of. -/
structure Impl.Ok (env : Env ι) (t : ι) (impl : Impl) : Prop where
  wrote : Wrote impl.stream_ (impl.message.head env t ++ impl.message.body)
  level : impl.level_ = impl.message.site.macro_.level
  basename : impl.basename_ = Logger.basename impl.message.site.file
  line : impl.line_ = impl.message.site.line
  line_valid : -(2 ^ 31) ≤ impl.line_ ∧ impl.line_ < 2 ^ 31

theorem length_LogLevelName (level : LogLevel) : (LogLevelName level).length = 6 := by
  cases level <;> decide

theorem errnoItems_valid (strerror : ℤ → Bytes) {e : ℤ} (h : -(2 ^ 31) ≤ e ∧ e < 2 ^ 31) :
    ∀ i ∈ errnoItems strerror e, i.Valid := by
  unfold errnoItems
  split
  · simp only [List.forall_mem_cons, Item.Valid]
    simp
    omega
  · exact fun _ hi => nomatch hi

theorem funcItems_valid (site : Site) : ∀ i ∈ funcItems site, i.Valid := by
  unfold funcItems
  split
  · simp [Item.Valid]
  · exact fun _ hi => nomatch hi

theorem Local.Ok.construct (h : v.Ok (env.gettid t)) (ht : env.gettid t < 2 ^ 31) (hbody : m.body = [])
    (hr : Timestamp.InRange (m.time / Timestamp.kMicroSecondsPerSecond))
    (h0 : 0 < m.time / Timestamp.kMicroSecondsPerSecond)
    (he : -(2 ^ 31) ≤ m.savedErrno ∧ m.savedErrno < 2 ^ 31) (hl : -(2 ^ 31) ≤ m.site.line ∧ m.site.line < 2 ^ 31) :
    ∃ v' impl, Impl.new env t v m = .ok (v', impl) ∧ v'.Ok (env.gettid t) ∧ impl.Ok env t ∧ impl.message = m := by
  obtain ⟨v₁, b₁, h1, hv₁, hb₁⟩ := h.formatTime wrote_new hr h0
  obtain ⟨hv₂, htext, hlen⟩ := hv₁.cacheTid ht
  obtain ⟨b₂, h2, hb₂⟩ := hb₁.writeT (hlen.symm ▸ congrArg List.length htext)
  obtain ⟨b₃, h3, hb₃⟩ := hb₂.writeT (length_LogLevelName m.site.macro_.level)
  obtain ⟨b₄, h4, hb₄⟩ := hb₃.write (errnoItems_valid env.strerror he)
  obtain ⟨b₅, h5, hb₅⟩ := hb₄.write (funcItems_valid m.site)
  refine ⟨v₁.tid (env.gettid t),
    ⟨m.time, b₅, m.site.macro_.level, m.site.line, Logger.basename m.site.file, m⟩, ?_, hv₂, ?_, rfl⟩
  · unfold Impl.new
    simp only [h1, ok_bind, h2, h3, h4, h5]
    rfl
  · refine ⟨?_, rfl, rfl, rfl, hl⟩
    rw [htext] at hb₅
    simpa [Message.head, hbody] using hb₅

theorem Impl.Ok.insert (h : impl.Ok env t) (hi : i.Valid) : ∃ impl', impl.insert i = .ok impl' ∧ impl'.Ok env t ∧
    impl'.message = { impl.message with body := impl.message.body ++ [i] } := by
  obtain ⟨b', hb, hw⟩ := h.wrote.write (List.forall_mem_singleton.2 hi)
  refine ⟨{ impl with stream_ := b', message := { impl.message with body := impl.message.body ++ [i] } }, ?_,
    ⟨?_, h.level, h.basename, h.line, h.line_valid⟩, rfl⟩
  · unfold Impl.insert
    rw [hb, ok_bind]
    rfl
  · rw [List.append_assoc] at hw
    exact hw

theorem Impl.Ok.finish (h : impl.Ok env t) : ∃ b', impl.finish = .ok b' ∧ b'.toString = impl.message.text env t := by
  have hv : ∀ i ∈ impl.message.tail, i.Valid := by
    have hl := h.line_valid
    rw [h.line] at hl
    simp only [Message.tail, List.forall_mem_cons, Item.Valid]
    simp
    omega
  obtain ⟨b', hb, hw⟩ := h.wrote.write hv
  refine ⟨b', ?_, ?_⟩
  · rw [← hb, Impl.finish, h.basename, h.line]
    rfl
  · rw [hw.text, List.append_assoc]
    rfl

end Loggers

/-! ### Runs -/

section Runs

variable {ι : Type*} [DecidableEq ι] {env : Env ι} {s s' : State ι} {a : Action ι}

omit [DecidableEq ι] in
/-- The process without its buffers. -/
def State.spec (s : State ι) : Spec ι where
  level := s.g_logLevel
  statements t := (s.impls t).map Impl.message
  phase := s.phase
  events := s.events
  aborted := decide (s.status = .aborted)

omit [DecidableEq ι] in
structure Inv (env : Env ι) (s : State ι) : Prop where
  locals : ∀ t, (s.locals t).Ok (env.gettid t)
  impls : ∀ t, ∀ impl ∈ s.impls t, impl.Ok env t
  status : ∀ e, s.status ≠ .stopped e

omit [DecidableEq ι] in
theorem inv_init : Inv env init where
  locals _ := ⟨fun h => absurd rfl h, fun h => absurd rfl h⟩
  impls _ _ h := nomatch h
  status _ h := nomatch h

theorem map_update {t : ι} {impls : List Impl} (s : State ι) :
    (fun u => (Function.update s.impls t impls u).map Impl.message) =
      Function.update (fun u => (s.impls u).map Impl.message) t (impls.map Impl.message) := by
  funext u
  by_cases hu : u = t
  · rw [hu, Function.update_self, Function.update_self]
  · rw [Function.update_of_ne hu, Function.update_of_ne hu]

theorem forall_update {α : Type*} {P : ι → α → Prop} {f : ι → α} {t : ι} {x : α} (h : ∀ u, P u (f u)) (hx : P t x) :
    ∀ u, P u (Function.update f t x u) := by
  intro u
  by_cases hu : u = t
  · rw [hu, Function.update_self]
    exact hx
  · rw [Function.update_of_ne hu]
    exact h u

omit [DecidableEq ι] in
theorem Inv.log (henv : ∀ t, env.gettid t < 2 ^ 31) (h : Inv env s) {t : ι} {site : Site} {now : ℕ} {errno : ℤ}
    (hv : (Action.log t site now errno).Valid) :
    ∃ x, Impl.new env t (s.locals t) (message site now errno) = .ok x ∧ x.1.Ok (env.gettid t) ∧ x.2.Ok env t ∧
      x.2.message = message site now errno := by
  obtain ⟨hr, h0, he, hl⟩ := hv
  have hsaved : -(2 ^ 31) ≤ (message site now errno).savedErrno ∧ (message site now errno).savedErrno < 2 ^ 31 := by
    unfold message
    dsimp only
    split
    · exact he
    · decide
  obtain ⟨v', impl, hn, hv', hi, hm⟩ :=
    (h.locals t).construct (henv t) (m := message site now errno) rfl hr h0 hsaved hl
  exact ⟨(v', impl), hn, hv', hi, hm⟩

/-- **A step** keeps the invariant, and is a step of the specification. -/
theorem Inv.step (henv : ∀ t, env.gettid t < 2 ^ 31) (h : Inv env s) (hv : a.Valid)
    (hs : Logger.step env s a = some s') : Inv env s' ∧ Spec.step env s.spec a = some s'.spec := by
  unfold Logger.step at hs
  split at hs
  · cases hs
  rename_i hrun
  rw [not_not] at hrun
  have hlive : ¬s.spec.aborted = true := by
    show ¬decide (s.status = .aborted) = true
    rw [hrun]
    decide
  unfold Spec.step
  rw [if_neg hlive]
  cases a with
  | setLogLevel level =>
    cases hs
    exact ⟨⟨h.locals, h.impls, h.status⟩, rfl⟩
  | log t site now errno =>
    obtain ⟨x, hx, hv', hi, hm⟩ := h.log henv hv
    dsimp only at hs ⊢
    by_cases hp : s.phase t = .running
    · rw [if_neg (by rw [hp]; simp)] at hs
      rw [if_neg (by rw [show s.spec.phase t = s.phase t from rfl, hp]; simp)]
      by_cases hen : site.macro_.enabled s.g_logLevel = true
      · rw [if_pos hen, hx] at hs
        rw [if_pos (show site.macro_.enabled s.spec.level = true from hen)]
        cases hs
        refine ⟨⟨forall_update h.locals hv', ?_, h.status⟩, ?_⟩
        · exact forall_update (P := fun u (l : List Impl) => ∀ impl ∈ l, impl.Ok env u) h.impls
            (List.forall_mem_cons.2 ⟨hi, h.impls t⟩)
        · simp only [State.compute, State.spec, map_update, List.map_cons, hm]
          rfl
      · rw [if_neg hen] at hs
        rw [if_neg (show ¬site.macro_.enabled s.spec.level = true from hen)]
        cases hs
        exact ⟨h, rfl⟩
    · rw [if_pos hp] at hs
      cases hs
  | insert t i =>
    dsimp only at hs ⊢
    split at hs
    · rename_i impl impls hp hi
      have himpls := h.impls t
      rw [hi, List.forall_mem_cons] at himpls
      obtain ⟨impl', hins, hok, hm⟩ := himpls.1.insert hv
      rw [hins] at hs
      cases hs
      refine ⟨⟨h.locals, ?_, h.status⟩, ?_⟩
      · exact forall_update (P := fun u (l : List Impl) => ∀ impl ∈ l, impl.Ok env u) h.impls
          (List.forall_mem_cons.2 ⟨hok, himpls.2⟩)
      · simp only [State.compute, State.spec, map_update, hp, hi, List.map_cons, hm]
        rfl
    · cases hs
  | destroy t =>
    dsimp only at hs ⊢
    split at hs
    · rename_i impl impls hp hi
      have himpls := h.impls t
      rw [hi, List.forall_mem_cons] at himpls
      obtain ⟨b', hfin, ht⟩ := himpls.1.finish
      rw [hfin] at hs
      cases hs
      refine ⟨⟨h.locals, ?_, h.status⟩, ?_⟩
      · exact forall_update (P := fun u (l : List Impl) => ∀ impl ∈ l, impl.Ok env u) h.impls himpls.2
      · simp only [State.compute, State.spec, map_update, hp, hi, List.map_cons, ht, himpls.1.level]
    · cases hs
  | flush t =>
    dsimp only at hs ⊢
    split at hs
    · rename_i hp
      cases hs
      rw [if_pos (show s.spec.phase t = .flush from hp)]
      exact ⟨⟨h.locals, h.impls, h.status⟩, rfl⟩
    · cases hs
  | abort t =>
    dsimp only at hs ⊢
    split at hs
    · rename_i hp
      cases hs
      rw [if_pos (show s.spec.phase t = .abort from hp)]
      exact ⟨⟨h.locals, h.impls, fun _ he => nomatch he⟩, rfl⟩
    · cases hs

theorem run_spec (henv : ∀ t, env.gettid t < 2 ^ 31) {w : List (State ι × Action ι × State ι)}
    (hr : Lts.Run (logger env) init w s) (hw : ∀ x ∈ w, x.2.1.Valid) : Inv env s ∧
    Lts.Run (Spec.system env) Spec.init (w.map fun x => (x.1.spec, x.2.1, x.2.2.spec)) s.spec := by
  generalize hs₀ : (init : State ι) = s₀ at hr
  induction hr with
  | nil =>
    subst hs₀
    exact ⟨inv_init, .nil _⟩
  | snoc _ hst ih =>
    rw [List.forall_mem_append, List.forall_mem_singleton] at hw
    obtain ⟨hi, hrun⟩ := ih hw.1
    obtain ⟨hi', hst'⟩ := hi.step henv hw.2 hst
    rw [List.map_append]
    exact ⟨hi', .snoc hrun hst'⟩

/-- **Refinement.** Whatever the threads do, the process never stops at a fault or an assertion, and it runs as the
specification does: what `g_output` gets are the lines of the messages. -/
theorem refines (env : Env ι) (henv : ∀ t, env.gettid t < 2 ^ 31) (s : State ι)
    (w : List (State ι × Action ι × State ι)) (hr : Lts.Run (logger env) init w s) (hw : ∀ x ∈ w, x.2.1.Valid) :
    (∀ e, s.status ≠ .stopped e) ∧
    Lts.Run (Spec.system env) Spec.init (w.map fun x => (x.1.spec, x.2.1, x.2.2.spec)) s.spec := by
  obtain ⟨hi, hrun⟩ := run_spec henv hr hw
  exact ⟨hi.status, hrun⟩

end Runs

end Refinement

/-! ## The lines -/

section Lines

variable {ι : Type*}

structure Message.Valid (env : Env ι) (t : ι) (m : Message) : Prop where
  time : Timestamp.InRange (m.time / Timestamp.kMicroSecondsPerSecond)
  items : ∀ i ∈ m.items env t, i.Valid

/-- `t` has written a fatal message. -/
def Fatal (t : ι) (es : List (Event ι)) : Prop := ∃ m msg, .output t m msg ∈ es ∧ m.site.macro_.level = .FATAL

/-- `t` has called `g_flush` behind a fatal message. -/
def Flushed (t : ι) (es : List (Event ι)) : Prop := ∃ l l', es = l ++ .flush t :: l' ∧ Fatal t l

/-- The messages of `t`. -/
def outputs [DecidableEq ι] (t : ι) (es : List (Event ι)) : List Message := es.filterMap fun
  | .output u m _ => if u = t then some m else none
  | .flush _ => none

/-- A message without its body. -/
def Message.header (m : Message) : Message := { m with body := [] }

variable [DecidableEq ι] {env : Env ι} {s s' : Spec ι} {a : Action ι}

/-- What a step does. -/
inductive Spec.Moves (env : Env ι) (s : Spec ι) : Action ι → Spec ι → Prop
  | setLogLevel (level : LogLevel) : Moves env s (.setLogLevel level) { s with level }
  | log (t : ι) (site : Site) (now : ℕ) (errno : ℤ) : s.phase t = .running → site.macro_.enabled s.level = true →
    Moves env s (.log t site now errno)
      { s with statements := Function.update s.statements t (message site now errno :: s.statements t) }
  | skip (t : ι) (site : Site) (now : ℕ) (errno : ℤ) : s.phase t = .running → site.macro_.enabled s.level = false →
    Moves env s (.log t site now errno) s
  | insert (t : ι) (i : Item) (m : Message) (ms : List Message) : s.phase t = .running → s.statements t = m :: ms →
    Moves env s (.insert t i)
      { s with statements := Function.update s.statements t ({ m with body := m.body ++ [i] } :: ms) }
  | destroy (t : ι) (m : Message) (ms : List Message) : s.phase t = .running → s.statements t = m :: ms →
    Moves env s (.destroy t)
      { s with
        statements := Function.update s.statements t ms
        events := s.events ++ [.output t m (m.text env t)]
        phase := Function.update s.phase t (if m.site.macro_.level = .FATAL then .flush else .running) }
  | flush (t : ι) : s.phase t = .flush → Moves env s (.flush t)
      { s with events := s.events ++ [.flush t], phase := Function.update s.phase t .abort }
  | abort (t : ι) : s.phase t = .abort → Moves env s (.abort t) { s with aborted := true }

theorem Spec.moves (hs : Spec.step env s a = some s') : Spec.Moves env s a s' := by
  unfold Spec.step at hs
  split at hs
  · cases hs
  cases a with
  | setLogLevel level =>
    cases hs
    exact .setLogLevel level
  | log t site now errno =>
    dsimp only at hs
    split at hs
    · cases hs
    rename_i hp
    rw [not_not] at hp
    split at hs
    · rename_i hen
      cases hs
      exact .log t site now errno hp hen
    · rename_i hen
      cases hs
      exact .skip t site now errno hp (Bool.not_eq_true _ ▸ hen)
  | insert t i =>
    dsimp only at hs
    split at hs
    · rename_i m ms hp hm
      cases hs
      exact .insert t i m ms hp hm
    · cases hs
  | destroy t =>
    dsimp only at hs
    split at hs
    · rename_i m ms hp hm
      cases hs
      exact .destroy t m ms hp hm
    · cases hs
  | flush t =>
    dsimp only at hs
    split at hs
    · rename_i hp
      cases hs
      exact .flush t hp
    · cases hs
  | abort t =>
    dsimp only at hs
    split at hs
    · rename_i hp
      cases hs
      exact .abort t hp
    · cases hs

/-- What holds of the messages and of the fatal ones. -/
structure Spec.Ok (env : Env ι) (s : Spec ι) : Prop where
  statements : ∀ t, ∀ m ∈ s.statements t, m.Valid env t
  events : ∀ t m msg, .output t m msg ∈ s.events → msg = m.text env t ∧ m.Valid env t
  flush : ∀ t, s.phase t = .flush → Fatal t s.events
  abort : ∀ t, s.phase t = .abort → Flushed t s.events
  aborted : s.aborted = true → ∃ t, Flushed t s.events

omit [DecidableEq ι] in
theorem Fatal.append {t : ι} {es es' : List (Event ι)} (h : Fatal t es) : Fatal t (es ++ es') := by
  obtain ⟨m, msg, hm, hl⟩ := h
  exact ⟨m, msg, List.mem_append_left _ hm, hl⟩

omit [DecidableEq ι] in
theorem Flushed.append {t : ι} {es es' : List (Event ι)} (h : Flushed t es) : Flushed t (es ++ es') := by
  obtain ⟨l, l', rfl, hf⟩ := h
  exact ⟨l, l' ++ es', by rw [List.append_assoc, List.cons_append], hf⟩

omit [DecidableEq ι] in
theorem valid_message {t : ι} {site : Site} {now : ℕ} {errno : ℤ} (hv : (Action.log t site now errno).Valid) :
    (message site now errno).Valid env t := by
  obtain ⟨hr, -, he, hl⟩ := hv
  have hsaved : -(2 ^ 31) ≤ (message site now errno).savedErrno ∧ (message site now errno).savedErrno < 2 ^ 31 := by
    unfold message
    dsimp only
    split
    · exact he
    · decide
  refine ⟨hr, ?_⟩
  have herr := errnoItems_valid env.strerror hsaved
  have hfunc := funcItems_valid site
  simp only [Message.items, Message.head, Message.tail, List.forall_mem_append]
  refine ⟨⟨by simp [Item.Valid], herr, hfunc⟩, (fun _ hi => nomatch hi), ?_⟩
  simp only [List.forall_mem_cons, Item.Valid]
  simp [message]
  omega

omit [DecidableEq ι] in
theorem Message.Valid.insert {t : ι} {m : Message} {i : Item} (h : m.Valid env t) (hi : i.Valid) :
    Message.Valid env t { m with body := m.body ++ [i] } := by
  obtain ⟨hr, hall⟩ := h
  refine ⟨hr, ?_⟩
  simp only [Message.items, List.forall_mem_append] at hall ⊢
  exact ⟨hall.1, ⟨hall.2.1, List.forall_mem_singleton.2 hi⟩, hall.2.2⟩

theorem Spec.Ok.step (h : s.Ok env) (hv : a.Valid) (hm : Spec.Moves env s a s') : s'.Ok env := by
  obtain ⟨hst, hev, hfl, hab, hd⟩ := h
  cases hm with
  | setLogLevel level => exact ⟨hst, hev, hfl, hab, hd⟩
  | skip => exact ⟨hst, hev, hfl, hab, hd⟩
  | log t site now errno hp hen =>
    refine ⟨?_, hev, hfl, hab, hd⟩
    exact forall_update (P := fun u (l : List Message) => ∀ m ∈ l, m.Valid env u) hst
      (List.forall_mem_cons.2 ⟨valid_message hv, hst t⟩)
  | insert t i m ms hp hms =>
    have hms' := hst t
    rw [hms, List.forall_mem_cons] at hms'
    refine ⟨?_, hev, hfl, hab, hd⟩
    exact forall_update (P := fun u (l : List Message) => ∀ m ∈ l, m.Valid env u) hst
      (List.forall_mem_cons.2 ⟨hms'.1.insert hv, hms'.2⟩)
  | destroy t m ms hp hms =>
    have hms' := hst t
    rw [hms, List.forall_mem_cons] at hms'
    refine ⟨?_, fun u m' msg hmem => ?_, ?_, ?_, fun ha => ?_⟩
    · exact forall_update (P := fun u (l : List Message) => ∀ m ∈ l, m.Valid env u) hst hms'.2
    · rcases List.mem_append.1 hmem with hmem | hmem
      · exact hev u m' msg hmem
      · cases List.mem_singleton.1 hmem
        exact ⟨rfl, hms'.1⟩
    · refine forall_update (P := fun u p => p = Phase.flush → Fatal u _) (fun u hu => (hfl u hu).append) fun hp' => ?_
      split at hp'
      · rename_i hf
        exact ⟨m, _, List.mem_append_right _ List.mem_cons_self, hf⟩
      · cases hp'
    · refine forall_update (P := fun u p => p = Phase.abort → Flushed u _) (fun u hu => (hab u hu).append) fun hp' => ?_
      split at hp' <;> cases hp'
    · obtain ⟨u, hu⟩ := hd ha
      exact ⟨u, hu.append⟩
  | flush t hp =>
    refine ⟨hst, fun u m msg hmem => ?_, ?_, ?_, fun ha => ?_⟩
    · rcases List.mem_append.1 hmem with hmem | hmem
      · exact hev u m msg hmem
      · cases List.mem_singleton.1 hmem
    · exact forall_update (P := fun u p => p = Phase.flush → Fatal u _) (fun u hu => (hfl u hu).append)
        fun hp' => nomatch hp'
    · exact forall_update (P := fun u p => p = Phase.abort → Flushed u _) (fun u hu => (hab u hu).append)
        fun _ => ⟨s.events, [], rfl, hfl t hp⟩
    · obtain ⟨u, hu⟩ := hd ha
      exact ⟨u, hu.append⟩
  | abort t hp => exact ⟨hst, hev, hfl, hab, fun _ => ⟨t, hab t hp⟩⟩

/-! ### Every statement gives one line -/

/-- The message of a statement that passes its test. -/
def begins (t : ι) (g_logLevel : LogLevel) : Action ι → List Message
  | .log u site now errno => if u = t ∧ site.macro_.enabled g_logLevel = true then [message site now errno] else []
  | .setLogLevel _ | .insert _ _ | .destroy _ | .flush _ | .abort _ => []

/-- The messages that `t` has begun in a run. -/
def begun (t : ι) (w : List (State ι × Action ι × State ι)) : List Message :=
  w.flatMap fun x => begins t x.1.g_logLevel x.2.1

def Spec.begun (t : ι) (w : List (Spec ι × Action ι × Spec ι)) : List Message :=
  w.flatMap fun x => begins t x.1.level x.2.1

/-- The messages that `t` has written, and those that it is in. -/
def Spec.headers (s : Spec ι) (t : ι) : List Message := (outputs t s.events ++ s.statements t).map Message.header

theorem outputs_append (t : ι) (es es' : List (Event ι)) : outputs t (es ++ es') = outputs t es ++ outputs t es' :=
  List.filterMap_append

/-- A step keeps the messages, but for the one that it begins. -/
theorem Spec.Moves.headers (hm : Spec.Moves env s a s') (t : ι) :
    (s'.headers t).Perm (s.headers t ++ begins t s.level a) := by
  cases hm with
  | setLogLevel | abort => exact .of_eq (List.append_nil _).symm
  | skip u site now errno hp hen => simp [begins, hen]
  | log u site now errno hp hen =>
    simp only [begins, hen, and_true, Spec.headers]
    by_cases hu : u = t
    · subst hu
      rw [Function.update_self, if_pos rfl, List.map_append, List.map_append, List.map_cons, List.append_assoc]
      exact (List.perm_append_singleton _ _).symm.append_left _
    · rw [Function.update_of_ne (Ne.symm hu), if_neg hu, List.append_nil]
  | insert u i m ms hp hms =>
    refine .of_eq ?_
    simp only [begins, List.append_nil, Spec.headers]
    by_cases hu : u = t
    · subst hu
      rw [Function.update_self, hms, List.map_append, List.map_append]
      rfl
    · rw [Function.update_of_ne (Ne.symm hu)]
  | destroy u m ms hp hms =>
    refine .of_eq ?_
    simp only [begins, List.append_nil, Spec.headers, outputs_append]
    by_cases hu : u = t
    · subst hu
      rw [Function.update_self, hms]
      simp [outputs]
    · rw [Function.update_of_ne (Ne.symm hu)]
      simp [outputs, hu]
  | flush u hp =>
    refine .of_eq ?_
    simp only [begins, List.append_nil, Spec.headers, outputs_append]
    simp [outputs]

/-! ### What a line looks like -/

omit [DecidableEq ι] in
theorem kept_length_lt {n : ℕ} {l : List Item} (hn : n < kSmallBuffer) (hv : ∀ i ∈ l, i.Valid) :
    n + ((kept n l).flatMap Item.text).length < kSmallBuffer := by
  induction l generalizing n with
  | nil => exact hn
  | cons i l ih =>
    rw [List.forall_mem_cons] at hv
    have hlt := length_lt_room hv.1
    unfold kept
    split
    · rename_i h
      have hl := ih (n := n + i.text.length) (by omega) hv.2
      rw [List.flatMap_cons, List.length_append]
      omega
    · exact ih hn hv.2

omit [DecidableEq ι] in
/-- Every line has its time stamp, the thread and the level. -/
theorem Message.Valid.text {t : ι} {m : Message} (h : m.Valid env t) (ht : env.gettid t < 2 ^ 31) :
    ∃ rest, m.text env t = Timestamp.secondText (m.time / Timestamp.kMicroSecondsPerSecond) ++
      (46 :: (Timestamp.field 6 (m.time % Timestamp.kMicroSecondsPerSecond) ++ (90 :: 32 ::
        (decimal 32 5 (env.gettid t) ++ (32 :: (LogLevelName m.site.macro_.level ++ rest)))))) := by
  have hus : m.time % Timestamp.kMicroSecondsPerSecond < 10 ^ 6 := Nat.mod_lt _ (by decide)
  have htid := Timestamp.length_decimal 32 (w := 5) (n := env.gettid t) (k := 10) (by decide)
    (Nat.lt_trans ht (by decide))
  obtain ⟨rest, hitems⟩ : ∃ rest, m.items env t =
      [.string (gmtime_r (m.time / Timestamp.kMicroSecondsPerSecond : ℕ)).text,
        .string (fmt (m.time % Timestamp.kMicroSecondsPerSecond)), .string (decimal 32 5 (env.gettid t) ++ [32]),
        .string (LogLevelName m.site.macro_.level)] ++ rest := by
    unfold Message.items Message.head
    rw [List.append_assoc]
    exact ⟨_, rfl⟩
  unfold Message.text
  rw [hitems, kept_append, kept_eq_self (by simp [Item.Valid])]
  · generalize kept _ rest = l
    refine ⟨l.flatMap Item.text, ?_⟩
    rw [List.flatMap_append, Timestamp.text_gmtime h.time]
    simp [Item.text, fmt, Timestamp.decimal_zeros (show 0 < 6 by decide) hus]
  · simp only [List.flatMap_cons, List.flatMap_nil, Item.text, Timestamp.text_gmtime h.time, List.length_append,
      Timestamp.length_secondText, length_fmt hus, length_LogLevelName, List.length_nil, List.length_singleton]
    unfold kMaxNumericSize kSmallBuffer
    omega

omit [DecidableEq ι] in
theorem Message.Valid.text_lt {t u : ι} {m m' : Message} (h : m.Valid env t) (h' : m'.Valid env u)
    (ht : env.gettid t < 2 ^ 31) (hu : env.gettid u < 2 ^ 31) (hlt : m.time < m'.time) :
    m.text env t < m'.text env u := by
  obtain ⟨rest, hm⟩ := h.text ht
  obtain ⟨rest', hm'⟩ := h'.text hu
  have hus : m.time % Timestamp.kMicroSecondsPerSecond < 10 ^ 6 := Nat.mod_lt _ (by decide)
  have hus' : m'.time % Timestamp.kMicroSecondsPerSecond < 10 ^ 6 := Nat.mod_lt _ (by decide)
  rw [hm, hm', Numeral.append_lt_append_iff (by rw [Timestamp.length_secondText, Timestamp.length_secondText]),
    Timestamp.secondText_lt_iff h.time h'.time, Timestamp.cons_lt_cons, Timestamp.field_lt_iff hus hus']
  rcases Numeral.div_mod_lt_iff.1 hlt with hlt | ⟨heq, hlt⟩
  · exact .inl hlt
  · rw [heq]
    exact .inr ⟨rfl, .inl hlt⟩

theorem Spec.run_ok {w : List (Spec ι × Action ι × Spec ι)} (hr : Lts.Run (Spec.system env) Spec.init w s)
    (hw : ∀ x ∈ w, x.2.1.Valid) : s.Ok env ∧ ∀ t, (s.headers t).Perm (Spec.begun t w) := by
  generalize hs₀ : (Spec.init : Spec ι) = s₀ at hr
  induction hr with
  | nil =>
    subst hs₀
    refine ⟨⟨?_, ?_, ?_, ?_, ?_⟩, fun t => .nil⟩
    · exact fun _ _ h => nomatch h
    · exact fun _ _ _ h => nomatch h
    · exact fun _ h => nomatch h
    · exact fun _ h => nomatch h
    · exact fun h => nomatch h
  | snoc _ hst ih =>
    rw [List.forall_mem_append, List.forall_mem_singleton] at hw
    obtain ⟨hok, hperm⟩ := ih hw.1
    have hm := Spec.moves hst
    refine ⟨hok.step hw.2 hm, fun t => ?_⟩
    rw [Spec.begun, List.flatMap_append, List.flatMap_singleton]
    exact (hm.headers t).trans ((hperm t).append_right _)

theorem run_lines (henv : ∀ t, env.gettid t < 2 ^ 31) {s : State ι} {w : List (State ι × Action ι × State ι)}
    (hr : Lts.Run (logger env) init w s) (hw : ∀ x ∈ w, x.2.1.Valid) :
    s.spec.Ok env ∧ ∀ t, (s.spec.headers t).Perm (begun t w) := by
  obtain ⟨hok, hperm⟩ := Spec.run_ok (run_spec henv hr hw).2 (List.forall_mem_map.2 hw)
  refine ⟨hok, fun t => ?_⟩
  have hp := hperm t
  rwa [Spec.begun, List.flatMap_map] at hp

/-- **The lines.** In every run of any number of threads: a line has the time stamp of its statement, from which the
clock is read back, the thread and the level, and the whole text when this is far from the end of the buffer; lines are
ordered as text as their time stamps are; the lines of a thread are those of the statements that passed their test, each
once, but for the statements that the thread is still in; and the process aborts only behind a fatal line and a
flush. -/
theorem log_lines (env : Env ι) (henv : ∀ t, env.gettid t < 2 ^ 31) (s : State ι)
    (w : List (State ι × Action ι × State ι)) (hr : Lts.Run (logger env) init w s) (hw : ∀ x ∈ w, x.2.1.Valid) :
    (∀ t m msg, .output t m msg ∈ s.events →
      msg.length < kSmallBuffer ∧ Timestamp.ofFormattedString msg = m.time ∧
      (∃ rest, msg.drop 26 = decimal 32 5 (env.gettid t) ++ (32 :: (LogLevelName m.site.macro_.level ++ rest))) ∧
      (((m.items env t).flatMap Item.text).length + kMaxNumericSize ≤ kSmallBuffer →
        msg = (m.items env t).flatMap Item.text)) ∧
    (∀ t m msg u m' msg', .output t m msg ∈ s.events → .output u m' msg' ∈ s.events → m.time < m'.time → msg < msg') ∧
    (∀ t, ((outputs t s.events ++ (s.impls t).map Impl.message).map Message.header).Perm (begun t w)) ∧
    (s.status = .aborted → ∃ t, Flushed t s.events) := by
  obtain ⟨hok, hperm⟩ := run_lines henv hr hw
  refine ⟨fun t m msg hmem => ?_, fun t m msg u m' msg' hmem hmem' hlt => ?_, hperm, fun ha => ?_⟩
  · obtain ⟨hmsg, hm⟩ := hok.events t m msg hmem
    rw [hmsg]
    obtain ⟨rest, htext⟩ := hm.text (henv t)
    refine ⟨?_, ?_, ⟨rest, ?_⟩, fun hlen => ?_⟩
    · have hlt := kept_length_lt (n := 0) (by decide) hm.items
      rwa [Nat.zero_add] at hlt
    · rw [htext]
      exact Timestamp.ofFormattedString_append hm.time _
    · rw [htext]
      rw [List.drop_append, List.drop_of_length_le (by simp), Timestamp.length_secondText, List.nil_append,
        List.drop_succ_cons, List.drop_append, List.drop_of_length_le (by simp), Timestamp.length_field]
      rfl
    · unfold Message.text
      rw [kept_eq_self hm.items (by omega)]
  · obtain ⟨hmsg, hm⟩ := hok.events t m msg hmem
    obtain ⟨hmsg', hm'⟩ := hok.events u m' msg' hmem'
    rw [hmsg, hmsg']
    exact hm.text_lt hm' (henv t) (henv u) hlt
  · exact hok.aborted (decide_eq_true ha)

end Lines

/-- Two threads. -/
def twoThreads : Env Bool := ⟨fun t => if t then 4242 else 7, fun _ => bytes "Permission denied"⟩

def infoSite : Site := ⟨.LOG_INFO, bytes "/src/a.cc", 12, []⟩

def fatalSite : Site := ⟨.LOG_SYSFATAL, bytes "b.cc", 7, []⟩

/-- A fatal statement of one thread inside of a statement of the other one; a statement below the level is skipped. -/
def fatalInside : List (Action Bool) :=
  [.setLogLevel .INFO, .log true ⟨.LOG_DEBUG, bytes "b.cc", 6, bytes "main"⟩ 1709251199000000 0,
    .log false infoSite 1709251199999999 0, .insert false (.cstr (some (bytes "n="))), .insert false (.integer (-5)),
    .log true fatalSite 1709251200000000 13, .destroy true, .flush true, .destroy false, .abort true]

/-- What they write. -/
def fatalEvents : List (Event Bool) :=
  [.output true ⟨fatalSite, 1709251200000000, 13, []⟩
      (bytes "20240301 00:00:00.000000Z  4242 FATAL Permission denied (errno=13)  - b.cc:7" ++ [10]), .flush true,
    .output false ⟨infoSite, 1709251199999999, 0, [.cstr (some (bytes "n=")), .integer (-5)]⟩
      (bytes "20240229 23:59:59.999999Z     7 INFO  n=-5 - a.cc:12" ++ [10])]

theorem fatalInside_run : ∃ s ∈ Lts.exec (step twoThreads) init fatalInside, s.events = fatalEvents ∧
    s.status = .aborted ∧ ∀ x ∈ Lts.moves (step twoThreads) init fatalInside, x.2.1.Valid := by
  decide +kernel

theorem refines_fatal : ∃ s ∈ Lts.exec (step twoThreads) init fatalInside, (∀ e, s.status ≠ .stopped e) ∧
    s.spec.events = fatalEvents := by
  obtain ⟨s, hs, hev, -, hw⟩ := fatalInside_run
  have henv : ∀ t, twoThreads.gettid t < 2 ^ 31 := by decide
  exact ⟨s, hs, (refines twoThreads henv s _ (Lts.Run.moves hs) hw).1, hev⟩

theorem log_lines_fatal : ∃ s ∈ Lts.exec (step twoThreads) init fatalInside, s.events = fatalEvents ∧
    (∃ t, Flushed t s.events) ∧
    ∀ t m msg, .output t m msg ∈ fatalEvents → Timestamp.ofFormattedString msg = m.time := by
  obtain ⟨s, hs, hev, hst, hw⟩ := fatalInside_run
  have henv : ∀ t, twoThreads.gettid t < 2 ^ 31 := by decide
  obtain ⟨hlines, -, -, hab⟩ := log_lines twoThreads henv s _ (Lts.Run.moves hs) hw
  refine ⟨s, hs, hev, hab hst, fun t m msg hmem => (hlines t m msg ?_).2.1⟩
  rw [hev]
  exact hmem

end Libeva.Logger
