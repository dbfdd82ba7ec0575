import Libeva.Machine
import Libeva.Lib.Mutex
import Libeva.Lib.Runs
import Mathlib.Data.List.ModifyLast

/-!
# `LogFile` and `AppendFile` under threads

Any number of threads call `append` and `flush`. `::fwrite_unlocked` may take fewer bytes than it is given, the library
may write out a part of `buffer_` at any time, and the clock may show anything. Opening and closing a file does not
fail; `rollFile` is called by `append` and the constructor only.

* `AppendFile`: an open file; `Entry` records what has been given to it, and how much of it `fwrite` has taken.
* `exec`: the statement at a program point; `Pc.rewrite` is the loop of `AppendFile::append`.
* `Inv`: each file has its lines one after the other, and only the owner of `mutex_` may be in one.
-/

namespace Libeva

namespace FileUtil

/-- A line that `append` has been given, and how many bytes of it have been taken. -/
structure Entry (ι : Type*) where
  thread : ι
  line : Bytes
  taken : ℕ
  deriving DecidableEq

/-- `FileUtil::AppendFile`, with what the file has got since it was opened. -/
structure AppendFile (ι : Type*) where
  /-- The time in the name of the file. -/
  opened : ℤ
  disk : Bytes
  buffer_ : Bytes
  writtenBytes_ : ℕ
  entries : List (Entry ι)

namespace AppendFile

variable {ι : Type*}

/-- The constructor. -/
def new (now : ℤ) : AppendFile ι := ⟨now, [], [], 0, []⟩

/-- `fflush` and `fclose` write out what is left. -/
def flush (f : AppendFile ι) : AppendFile ι := { f with disk := f.disk ++ f.buffer_, buffer_ := [] }

/-- The library writes out `k` bytes. -/
def drain (f : AppendFile ι) (k : ℕ) : AppendFile ι :=
  { f with disk := f.disk ++ f.buffer_.take k, buffer_ := f.buffer_.drop k }

/-- `fwrite_unlocked` takes these bytes. -/
def write (f : AppendFile ι) (b : Bytes) : AppendFile ι := { f with buffer_ := f.buffer_ ++ b }

/-- What the file has when it is closed now. -/
def contents (f : AppendFile ι) : Bytes := f.disk ++ f.buffer_

end AppendFile

end FileUtil

namespace LogFile

open FileUtil (AppendFile Entry)

/-- The arguments of the constructor. -/
structure Config where
  rollSize_ : ℤ
  threadSafe : Bool
  flushInterval_ : ℤ
  checkEveryN_ : ℤ

def kRollPerSeconds_ : ℤ := 60 * 60 * 24

/-- The program points. `unlock` knows whether it comes after an `fflush`. -/
inductive Pc
  | idle
  | lockAppend (line : Bytes)
  | write (line : Bytes)
  | rewrite (line : Bytes) (n : ℕ)
  | written (line : Bytes)
  | testSize
  | count
  | testCount
  | checkTime
  | roll
  | lockFlush
  | fflush
  | unlock (flushed : Bool)
  deriving DecidableEq

structure State (ι : Type*) where
  mutex_ : Option ι
  count_ : ℤ
  startOfPeriod_ : ℤ
  lastRoll_ : ℤ
  lastFlush_ : ℤ
  /-- The files that have been closed, in their order. -/
  closed : List (AppendFile ι)
  file_ : AppendFile ι
  pc : ι → Pc
  now : ℤ

inductive Action (ι : Type*)
  | append (t : ι) (line : Bytes)
  | flush (t : ι)
  | tick (t : ι)
  /-- `fwrite_unlocked` returns `x`. -/
  | fwrite (t : ι) (x : ℕ)
  | drain (k : ℕ)
  | clock (now : ℤ)

section Program

variable {ι : Type*} [DecidableEq ι] (cfg : Config)

def State.goto (s : State ι) (t : ι) (p : Pc) : State ι := { s with pc := Function.update s.pc t p }

/-- `now / kRollPerSeconds_ * kRollPerSeconds_`. -/
def period (now : ℤ) : ℤ := now.tdiv kRollPerSeconds_ * kRollPerSeconds_

/-- `fwrite_unlocked` takes the `x` bytes of `line` from `n` on. -/
def State.put (s : State ι) (line : Bytes) (n x : ℕ) : State ι :=
  { s with file_ := { s.file_.write ((line.drop n).take x) with
    entries := s.file_.entries.modifyLast fun e => { e with taken := e.taken + x } } }

/-- Taking `mutex_`, if there is one. -/
def State.lock (s : State ι) (t : ι) (p : Pc) : Option (State ι) :=
  if cfg.threadSafe then
    match s.mutex_ with
    | none => some ({ s with mutex_ := some t }.goto t p)
    | some _ => none
  else some (s.goto t p)

/-- The statement at a program point; a taken mutex blocks, and a write waits for its result. -/
def exec (s : State ι) (t : ι) : Pc → Option (State ι)
  | .idle | .write _ | .rewrite _ _ => none
  | .lockAppend line =>
    (s.lock cfg t (.write line)).map fun s =>
      { s with file_ := { s.file_ with entries := s.file_.entries ++ [⟨t, line, 0⟩] } }
  | .written line =>
    some ({ s with file_ := { s.file_ with writtenBytes_ := s.file_.writtenBytes_ + line.length } }.goto t .testSize)
  | .testSize => some (s.goto t (if cfg.rollSize_ < s.file_.writtenBytes_ then .roll else .count))
  | .count => some ({ s with count_ := s.count_ + 1 }.goto t .testCount)
  | .testCount => some (
      if cfg.checkEveryN_ ≤ s.count_ then { s with count_ := 0 }.goto t .checkTime else s.goto t (.unlock false))
  | .checkTime => some (
      if period s.now ≠ s.startOfPeriod_ then s.goto t .roll
      else if cfg.flushInterval_ < s.now - s.lastFlush_ then { s with lastFlush_ := s.now }.goto t .fflush
      else s.goto t (.unlock false))
  | .roll => some (
      if s.lastRoll_ < s.now then
        { s with
          lastRoll_ := s.now
          lastFlush_ := s.now
          startOfPeriod_ := period s.now
          closed := s.closed ++ [s.file_.flush]
          file_ := .new s.now }.goto t (.unlock false)
      else s.goto t (.unlock false))
  | .lockFlush => s.lock cfg t .fflush
  | .fflush => some ({ s with file_ := s.file_.flush }.goto t (.unlock true))
  | .unlock _ => some ({ s with mutex_ := none }.goto t .idle)

/-- `fwrite_unlocked( logline + n, 1, len - n )` returns `x`; in the loop the bytes that it leaves are given to it
again, unless it has taken none. -/
def fwrite (s : State ι) (t : ι) (x : ℕ) : Pc → Option (State ι)
  | .write line =>
    if x ≤ line.length then
      some ((s.put line 0 x).goto t (if x < line.length then .rewrite line x else .written line))
    else none
  | .rewrite line n =>
    if x ≤ line.length - n then
      some ((s.put line n x).goto t (if x ≠ 0 ∧ n + x < line.length then .rewrite line (n + x) else .written line))
    else none
  | _ => none

def step (s : State ι) : Action ι → Option (State ι)
  | .append t line => if s.pc t = .idle then some (s.goto t (.lockAppend line)) else none
  | .flush t => if s.pc t = .idle then some (s.goto t .lockFlush) else none
  | .tick t => exec cfg s t (s.pc t)
  | .fwrite t x => fwrite s t x (s.pc t)
  | .drain k => some { s with file_ := s.file_.drain k }
  | .clock now => some { s with now := now }

/-- The object that the constructor builds at time `now`. -/
def init (now : ℤ) : State ι where
  mutex_ := none
  count_ := 0
  startOfPeriod_ := period now
  lastRoll_ := now
  lastFlush_ := now
  closed := []
  file_ := .new now
  pc _ := .idle
  now := now

/-- All interleavings of the threads; `rollFile` opens the first file when the clock is past the epoch. -/
def logFile (ι : Type*) [DecidableEq ι] : Lts.System (State ι) (Action ι) where
  init s := ∃ now, 0 < now ∧ s = init now
  step s a s' := step cfg s a = some s'

end Program

/-! ## The invariant -/

/-- What `fwrite` has taken of a line. -/
def text {ι : Type*} (l : List (Entry ι)) : Bytes := l.flatMap fun e => e.line.take e.taken

/-- The thread is in a critical section. -/
def Pc.holds : Pc → Bool
  | .idle | .lockAppend _ | .lockFlush => false
  | .write _ | .rewrite _ _ | .written _ | .testSize | .count | .testCount | .checkTime | .roll | .fflush
  | .unlock _ => true

/-- The line that `AppendFile::append` is writing, and how much of it has been taken. -/
def Pc.writing? : Pc → Option (Bytes × ℕ)
  | .write line => some (line, 0)
  | .rewrite line n => some (line, n)
  | _ => none

theorem holds_of_writing {p : Pc} {q : Bytes × ℕ} (h : p.writing? = some q) : p.holds = true := by
  cases p <;> first | rfl | cases h

section Invariant

variable {ι : Type*}

structure Inv (s : State ι) : Prop where
  owned : Mutex.Owned (fun t => (s.pc t).holds) s.mutex_
  contents : s.file_.contents = text s.file_.entries
  closed : ∀ f ∈ s.closed, f.buffer_ = [] ∧ f.disk = text f.entries
  writing : ∀ t line n, (s.pc t).writing? = some (line, n) → ∃ l, s.file_.entries = l ++ [⟨t, line, n⟩]
  /-- A thread that has called `fflush` has found nothing more to write out. -/
  flushed : ∀ t, s.pc t = .unlock true → s.file_.buffer_ = []
  names : (s.closed.map AppendFile.opened ++ [s.file_.opened]).Pairwise (· < ·)
  opened : s.file_.opened = s.lastRoll_

variable [DecidableEq ι] {cfg : Config} {s s' : State ι} {t u : ι} {a : Action ι} {p : Pc}

@[simp] theorem goto_pc : (s.goto t p).pc = Function.update s.pc t p := rfl

/-- A step of `t` that leaves the files alone. -/
theorem Inv.goto (h : Inv s) (hpc : s'.pc = Function.update s.pc t p)
    (hown : Mutex.Owned (fun t => (s'.pc t).holds) s'.mutex_) (hf : s'.file_ = s.file_) (hc : s'.closed = s.closed)
    (hr : s'.lastRoll_ = s.lastRoll_) (hw : p.writing? = none) (hfl : p ≠ .unlock true) : Inv s' where
  owned := hown
  contents := by rw [hf]; exact h.contents
  closed := by rw [hc]; exact h.closed
  writing u line n hu := by
    rw [hf]
    rw [hpc] at hu
    by_cases hut : u = t
    · rw [hut, Function.update_self, hw] at hu
      cases hu
    · rw [Function.update_of_ne hut] at hu
      exact h.writing u line n hu
  flushed u hu := by
    rw [hf]
    rw [hpc] at hu
    by_cases hut : u = t
    · rw [hut, Function.update_self] at hu
      exact absurd hu hfl
    · rw [Function.update_of_ne hut] at hu
      exact h.flushed u hu
  names := by rw [hc, hf]; exact h.names
  opened := by rw [hf, hr]; exact h.opened

/-- A step of the owner that changes the files. -/
theorem Inv.own (h : Inv s) (ht : (s.pc t).holds = true) (hp : p.holds = true)
    (hpc : s'.pc = Function.update s.pc t p) (hm : s'.mutex_ = s.mutex_)
    (hcont : s'.file_.contents = text s'.file_.entries)
    (hcl : ∀ f ∈ s'.closed, f.buffer_ = [] ∧ f.disk = text f.entries)
    (hw : ∀ line n, p.writing? = some (line, n) → ∃ l, s'.file_.entries = l ++ [⟨t, line, n⟩])
    (hfl : p = .unlock true → s'.file_.buffer_ = [])
    (hnames : (s'.closed.map AppendFile.opened ++ [s'.file_.opened]).Pairwise (· < ·))
    (hop : s'.file_.opened = s'.lastRoll_) : Inv s' := by
  have hne : ∀ u, u ≠ t → s'.pc u = s.pc u := fun u hu => by rw [hpc, Function.update_of_ne hu]
  have hself : s'.pc t = p := by rw [hpc, Function.update_self]
  -- no other thread is in a critical section
  have halone : ∀ u, (s.pc u).holds = true → u = t := fun u hu => h.owned.unique hu ht
  refine ⟨?_, hcont, hcl, fun u line n hu => ?_, fun u hu => ?_, hnames, hop⟩
  · rw [hm]
    refine h.owned.keep (t := t) ?_ fun u hu => congrArg Pc.holds (hne u hu)
    rw [hself, ht, hp]
  · by_cases hut : u = t
    · rw [hut, hself] at hu
      rw [hut]
      exact hw line n hu
    · rw [hne u hut] at hu
      exact absurd (halone u (holds_of_writing hu)) hut
  · by_cases hut : u = t
    · rw [hut, hself] at hu
      exact hfl hu
    · rw [hne u hut] at hu
      exact absurd (halone u (by rw [hu]; rfl)) hut

/-- A step of the owner that leaves the files alone. -/
theorem Inv.inside (h : Inv s) (ht : (s.pc t).holds = true) (hp : p.holds = true)
    (hpc : s'.pc = Function.update s.pc t p) (hm : s'.mutex_ = s.mutex_) (hf : s'.file_ = s.file_)
    (hc : s'.closed = s.closed) (hr : s'.lastRoll_ = s.lastRoll_) (hw : p.writing? = none) (hfl : p ≠ .unlock true) :
    Inv s' := by
  refine h.goto hpc ?_ hf hc hr hw hfl
  rw [hm]
  refine h.owned.keep (t := t) ?_ fun u hu => ?_
  · rw [hpc, Function.update_self, ht, hp]
  · rw [hpc, Function.update_of_ne hu]

/-- Taking `mutex_`. -/
theorem lock_eq_some (hts : cfg.threadSafe = true) (hs : s.lock cfg t p = some s') :
    s.mutex_ = none ∧ s' = { s with mutex_ := some t }.goto t p := by
  rw [State.lock, if_pos hts] at hs
  split at hs
  · rename_i hm
    exact ⟨hm, (Option.some.inj hs).symm⟩
  · cases hs

theorem Inv.acquire (h : Inv s) (hm : s.mutex_ = none) (hp : p.holds = true) :
    Mutex.Owned (fun u => (({ s with mutex_ := some t }.goto t p).pc u).holds) (some t) := by
  have hown := h.owned
  rw [hm] at hown
  refine hown.acquire ?_ fun u hu => ?_
  · rw [goto_pc, Function.update_self, hp]
  · rw [goto_pc, Function.update_of_ne hu]

omit [DecidableEq ι] in
theorem text_append (l l' : List (Entry ι)) : text (l ++ l') = text l ++ text l' := List.flatMap_append

theorem Inv.tick (hts : cfg.threadSafe = true) (h : Inv s) (hs : exec cfg s t (s.pc t) = some s') : Inv s' := by
  have within : ∀ {p}, (s.pc t).holds = true → p.holds = true → p.writing? = none → p ≠ .unlock true →
      Inv (s.goto t p) := fun ht hp hw hfl => h.inside ht hp rfl rfl rfl rfl rfl hw hfl
  cases hp : s.pc t <;> rw [hp] at hs within
  case idle | write | rewrite => cases hs
  case lockAppend line =>
    obtain ⟨s₁, hs₁, rfl⟩ := Option.map_eq_some_iff.1 hs
    obtain ⟨hm, rfl⟩ := lock_eq_some hts hs₁
    have hout : ∀ u, (s.pc u).holds = false := by
      have hown := h.owned
      rw [hm] at hown
      exact hown.outside
    refine ⟨h.acquire hm rfl, ?_, h.closed, fun u line' n hu => ?_, fun u hu => ?_, h.names, h.opened⟩
    · show s.file_.contents = text (s.file_.entries ++ [⟨t, line, 0⟩])
      rw [text_append, h.contents]
      simp [text]
    · replace hu : ((State.goto { s with mutex_ := some t } t (.write line)).pc u).writing? = _ := hu
      by_cases hut : u = t
      · rw [hut, goto_pc, Function.update_self] at hu
        cases hu
        exact ⟨_, by rw [hut]⟩
      · rw [goto_pc, Function.update_of_ne hut] at hu
        exact absurd (holds_of_writing hu) (by rw [hout u]; exact Bool.false_ne_true)
    · replace hu : (State.goto { s with mutex_ := some t } t (.write line)).pc u = _ := hu
      by_cases hut : u = t
      · rw [hut, goto_pc, Function.update_self] at hu
        cases hu
      · rw [goto_pc, Function.update_of_ne hut] at hu
        exact h.flushed u hu
  case lockFlush =>
    obtain ⟨hm, rfl⟩ := lock_eq_some hts hs
    exact h.goto (p := .fflush) rfl (h.acquire hm rfl) rfl rfl rfl rfl Pc.noConfusion
  case written line =>
    cases hs
    exact h.own (by rw [hp]; rfl) (p := .testSize) rfl rfl rfl h.contents h.closed (fun _ _ hw => nomatch hw)
      (fun he => Pc.noConfusion he) h.names h.opened
  case testSize =>
    cases hs
    split <;> exact within rfl rfl rfl Pc.noConfusion
  case count =>
    cases hs
    exact h.inside (p := .testCount) (by rw [hp]; rfl) rfl rfl rfl rfl rfl rfl rfl Pc.noConfusion
  case testCount =>
    cases hs
    split
    · exact h.inside (p := .checkTime) (by rw [hp]; rfl) rfl rfl rfl rfl rfl rfl rfl Pc.noConfusion
    · exact within rfl rfl rfl (by simp)
  case checkTime =>
    cases hs
    split
    · exact within rfl rfl rfl Pc.noConfusion
    · split
      · exact h.inside (p := .fflush) (by rw [hp]; rfl) rfl rfl rfl rfl rfl rfl rfl Pc.noConfusion
      · exact within rfl rfl rfl (by simp)
  case roll =>
    cases hs
    split
    · rename_i hlt
      refine h.own (by rw [hp]; rfl) (p := .unlock false) rfl rfl rfl rfl ?_ (fun _ _ hw => nomatch hw) (by simp) ?_ rfl
      · intro f hf
        rcases List.mem_append.1 hf with hf | hf
        · exact h.closed f hf
        · rw [List.mem_singleton.1 hf]
          exact ⟨rfl, h.contents⟩
      · show ((s.closed ++ [s.file_.flush]).map AppendFile.opened ++ [s.now]).Pairwise (· < ·)
        rw [List.map_append, List.pairwise_append]
        refine ⟨h.names, List.pairwise_singleton _ _, fun x hx y hy => ?_⟩
        rw [List.mem_singleton.1 hy]
        refine lt_of_le_of_lt ?_ hlt
        rw [← h.opened]
        rcases List.mem_append.1 hx with hx | hx
        · exact le_of_lt ((List.pairwise_append.1 h.names).2.2 x hx _ List.mem_cons_self)
        · exact le_of_eq (List.mem_singleton.1 hx)
    · exact within rfl rfl rfl (by simp)
  case fflush =>
    cases hs
    refine h.own (by rw [hp]; rfl) (p := .unlock true) rfl rfl rfl ?_ h.closed (fun _ _ hw => nomatch hw)
      (fun _ => rfl) h.names h.opened
    exact (List.append_nil _).trans h.contents
  case unlock fl =>
    cases hs
    refine h.goto (p := .idle) rfl ?_ rfl rfl rfl rfl Pc.noConfusion
    refine h.owned.release (t := t) (by rw [hp]; rfl) ?_ fun u hu => ?_
    · rw [goto_pc, Function.update_self]
      rfl
    · rw [goto_pc, Function.update_of_ne hu]

/-- What `fwrite` takes goes behind what it has taken of the line before. -/
theorem Inv.put (h : Inv s) {line : Bytes} {n x : ℕ} (hw : (s.pc t).writing? = some (line, n))
    (hp : p = .written line ∨ p = .rewrite line (n + x)) : Inv ((s.put line n x).goto t p) := by
  obtain ⟨l, hl⟩ := h.writing t line n hw
  have hentries : (s.put line n x).file_.entries = l ++ [⟨t, line, n + x⟩] := by
    show s.file_.entries.modifyLast _ = _
    rw [hl, List.modifyLast_concat]
  refine h.own (holds_of_writing hw) (by rcases hp with rfl | rfl <;> rfl) rfl rfl ?_ h.closed ?_ ?_ h.names h.opened
  · show s.file_.disk ++ (s.file_.buffer_ ++ (line.drop n).take x) = text (s.put line n x).file_.entries
    have hc := h.contents
    rw [hl, text_append] at hc
    rw [hentries, text_append, ← List.append_assoc]
    show s.file_.contents ++ _ = _
    rw [hc, List.append_assoc]
    simp [text, List.take_add]
  · intro line' n' hw'
    rcases hp with rfl | rfl
    · cases hw'
    · cases hw'
      exact ⟨l, hentries⟩
  · rcases hp with rfl | rfl <;> exact fun he => Pc.noConfusion he

theorem Inv.step (hts : cfg.threadSafe = true) (h : Inv s) (hs : LogFile.step cfg s a = some s') : Inv s' := by
  cases a with
  | append t line =>
    simp only [LogFile.step] at hs
    split at hs <;> cases hs
    rename_i hp
    refine h.goto (p := .lockAppend line) rfl ?_ rfl rfl rfl rfl Pc.noConfusion
    refine h.owned.keep (t := t) ?_ fun u hu => ?_
    · rw [goto_pc, Function.update_self, hp]
      rfl
    · rw [goto_pc, Function.update_of_ne hu]
  | flush t =>
    simp only [LogFile.step] at hs
    split at hs <;> cases hs
    rename_i hp
    refine h.goto (p := .lockFlush) rfl ?_ rfl rfl rfl rfl Pc.noConfusion
    refine h.owned.keep (t := t) ?_ fun u hu => ?_
    · rw [goto_pc, Function.update_self, hp]
      rfl
    · rw [goto_pc, Function.update_of_ne hu]
  | tick t => exact h.tick hts hs
  | fwrite t x =>
    simp only [LogFile.step] at hs
    cases hp : s.pc t <;> rw [hp] at hs
    case write line =>
      simp only [fwrite] at hs
      split at hs <;> cases hs
      refine h.put (by rw [hp]; rfl) ?_
      split
      · exact .inr (by rw [Nat.zero_add])
      · exact .inl rfl
    case rewrite line n =>
      simp only [fwrite] at hs
      split at hs <;> cases hs
      refine h.put (by rw [hp]; rfl) ?_
      split
      · exact .inr rfl
      · exact .inl rfl
    all_goals cases hs
  | drain k =>
    cases hs
    refine { h with contents := ?_, flushed := fun u hu => ?_ }
    · show (s.file_.disk ++ s.file_.buffer_.take k) ++ s.file_.buffer_.drop k = _
      rw [List.append_assoc, List.take_append_drop]
      exact h.contents
    · show s.file_.buffer_.drop k = []
      rw [h.flushed u hu, List.drop_nil]
  | clock now =>
    cases hs
    exact { h with }

omit [DecidableEq ι] in
theorem inv_init {now : ℤ} : Inv (init now : State ι) where
  owned _ := iff_of_false Bool.false_ne_true (Option.some_ne_none _).symm
  contents := rfl
  closed _ h := nomatch h
  writing _ _ _ h := nomatch h
  flushed _ h := Pc.noConfusion h
  names := List.pairwise_singleton _ _
  opened := rfl

theorem reach_inv (hts : cfg.threadSafe = true) (h : Lts.Reach (logFile cfg ι) s) : Inv s := by
  refine h.invariant (fun _ h0 => ?_) fun _ _ _ _ hi hst => hi.step hts hst
  obtain ⟨now, -, rfl⟩ := h0
  exact inv_init

/-! ## What has been given to the files -/

/-- The files in the order in which they were opened. -/
def State.files (s : State ι) : List (AppendFile ι) := s.closed ++ [s.file_]

/-- The line of an `append` that has not taken `mutex_` yet. -/
def Pc.pending : Pc → List Bytes
  | .lockAppend line => [line]
  | _ => []

/-- What a step does to the lines. -/
inductive Effect (s : State ι) : Action ι → State ι → Prop
  | call {s' : State ι} (t : ι) (line : Bytes) : s.pc t = .idle → s' = s.goto t (.lockAppend line) →
    Effect s (.append t line) s'
  | begin {s' : State ι} (t : ι) (line : Bytes) : s.pc t = .lockAppend line → s.mutex_ = none →
    s'.pc = Function.update s.pc t (.write line) → s'.closed = s.closed →
    s'.file_.entries = s.file_.entries ++ [⟨t, line, 0⟩] → Effect s (.tick t) s'
  | put {s' : State ι} (t : ι) (line : Bytes) (n x : ℕ) (p : Pc) : (s.pc t).writing? = some (line, n) →
    x ≤ line.length - n → (p = .rewrite line (n + x) ∨
      p = .written line ∧ (line.length ≤ n + x ∨ x = 0 ∧ s.pc t = .rewrite line n)) →
    s' = (s.put line n x).goto t p → Effect s (.fwrite t x) s'
  | roll {s' : State ι} (t : ι) : s.pc t = .roll → s'.pc = Function.update s.pc t (.unlock false) →
    s'.closed = s.closed ++ [s.file_.flush] → s'.file_.entries = [] → Effect s (.tick t) s'
  | quiet {s' : State ι} {a : Action ι} : (∀ t line, a ≠ .append t line) →
    (∀ u, (s'.pc u).writing? = (s.pc u).writing? ∧ (s'.pc u).pending = (s.pc u).pending) → s'.closed = s.closed →
    s'.file_.entries = s.file_.entries → Effect s a s'

theorem Effect.goto (ha : ∀ t line, a ≠ .append t line) (hpc : s'.pc = Function.update s.pc t p)
    (hw : p.writing? = (s.pc t).writing?) (hp : p.pending = (s.pc t).pending) (hc : s'.closed = s.closed)
    (hf : s'.file_.entries = s.file_.entries) : Effect s a s' := by
  refine .quiet ha (fun u => ?_) hc hf
  rw [hpc]
  by_cases hut : u = t
  · rw [hut, Function.update_self]
    exact ⟨hw, hp⟩
  · rw [Function.update_of_ne hut]
    exact ⟨rfl, rfl⟩

theorem effect (hts : cfg.threadSafe = true) (hs : LogFile.step cfg s a = some s') : Effect s a s' := by
  cases a with
  | append t line =>
    simp only [LogFile.step] at hs
    split at hs <;> cases hs
    rename_i hp
    exact .call t line hp rfl
  | flush t =>
    simp only [LogFile.step] at hs
    split at hs <;> cases hs
    rename_i hp
    exact .goto (fun _ _ he => nomatch he) rfl (by rw [hp]; rfl) (by rw [hp]; rfl) rfl rfl
  | drain k =>
    cases hs
    exact .quiet (fun _ _ he => nomatch he) (fun _ => ⟨rfl, rfl⟩) rfl rfl
  | clock now =>
    cases hs
    exact .quiet (fun _ _ he => nomatch he) (fun _ => ⟨rfl, rfl⟩) rfl rfl
  | fwrite t x =>
    simp only [LogFile.step] at hs
    cases hp : s.pc t <;> rw [hp] at hs
    case write line =>
      simp only [fwrite] at hs
      split at hs <;> cases hs
      rename_i hx
      refine .put t line 0 x _ (by rw [hp]; rfl) hx ?_ rfl
      split
      · exact .inl (by rw [Nat.zero_add])
      · exact .inr ⟨rfl, .inl (by omega)⟩
    case rewrite line n =>
      simp only [fwrite] at hs
      split at hs <;> cases hs
      rename_i hx
      refine .put t line n x _ (by rw [hp]; rfl) hx ?_ rfl
      split
      · exact .inl rfl
      · refine .inr ⟨rfl, ?_⟩
        by_cases h0 : x = 0
        · exact .inr ⟨h0, hp⟩
        · exact .inl (by omega)
    all_goals cases hs
  | tick t =>
    have hto : ∀ {s' : State ι} {p : Pc}, s'.pc = Function.update s.pc t p → p.writing? = (s.pc t).writing? →
        p.pending = (s.pc t).pending → s'.closed = s.closed → s'.file_.entries = s.file_.entries →
        Effect s (.tick t) s' := fun hpc hw hp hc hf => .goto (fun _ _ he => nomatch he) hpc hw hp hc hf
    simp only [LogFile.step] at hs
    cases hp : s.pc t <;> rw [hp] at hs hto
    case idle | write | rewrite => cases hs
    case lockAppend line =>
      obtain ⟨s₁, hs₁, rfl⟩ := Option.map_eq_some_iff.1 hs
      obtain ⟨hm, rfl⟩ := lock_eq_some hts hs₁
      exact .begin t line hp hm rfl rfl rfl
    case lockFlush =>
      obtain ⟨hm, rfl⟩ := lock_eq_some hts hs
      exact hto rfl rfl rfl rfl rfl
    case written | count | fflush | unlock =>
      cases hs
      exact hto rfl rfl rfl rfl rfl
    case testSize =>
      cases hs
      split <;> exact hto rfl rfl rfl rfl rfl
    case testCount =>
      cases hs
      split <;> exact hto rfl rfl rfl rfl rfl
    case checkTime =>
      cases hs
      split
      · exact hto rfl rfl rfl rfl rfl
      · split <;> exact hto rfl rfl rfl rfl rfl
    case roll =>
      cases hs
      split
      · exact .roll t hp rfl rfl rfl
      · exact hto rfl rfl rfl rfl rfl

/-! ### No line is cut -/

/-- All of the line has been taken. -/
def Whole (e : Entry ι) : Prop := e.taken = e.line.length

structure Complete (s : State ι) : Prop where
  closed : ∀ f ∈ s.closed, ∀ e ∈ f.entries, Whole e
  before : ∀ e ∈ s.file_.entries.dropLast, Whole e
  last : (∀ t, (s.pc t).writing? = none) → ∀ e ∈ s.file_.entries, Whole e
  le : ∀ t line n, (s.pc t).writing? = some (line, n) → n ≤ line.length

/-- The loop of `AppendFile::append`. -/
def Pc.rewrites : Pc → Bool
  | .rewrite _ _ => true
  | _ => false

/-- `fwrite_unlocked` takes nothing of what is left of a line. -/
def Fails (x : State ι × Action ι × State ι) : Prop :=
  match x.2.1 with
  | .fwrite t n => n = 0 ∧ (x.1.pc t).rewrites = true
  | _ => False

instance (x : State ι × Action ι × State ι) : Decidable (Fails x) := by
  unfold Fails
  split <;> infer_instance

omit [DecidableEq ι] in
theorem complete_init {now : ℤ} : Complete (init now : State ι) where
  closed _ h := nomatch h
  before _ h := nomatch h
  last _ _ h := nomatch h
  le _ _ _ h := nomatch h

theorem Complete.step (hi : Inv s) (h : Complete s) (he : Effect s a s') (hf : ¬Fails (s, a, s')) : Complete s' := by
  cases he with
  | call t line hp hs' =>
    subst hs'
    have hw : ∀ u, ((s.goto t (.lockAppend line)).pc u).writing? = (s.pc u).writing? := by
      intro u
      by_cases hut : u = t
      · rw [hut, goto_pc, Function.update_self, hp]
        rfl
      · rw [goto_pc, Function.update_of_ne hut]
    refine ⟨h.closed, h.before, fun hn => h.last fun u => (hw u).symm.trans (hn u), fun u l n hu => ?_⟩
    exact h.le u l n ((hw u).symm.trans hu)
  | quiet ha hpc hc hf =>
    refine ⟨by rw [hc]; exact h.closed, by rw [hf]; exact h.before, fun hn => ?_, fun u l n hu => ?_⟩
    · rw [hf]
      exact h.last fun u => (hpc u).1.symm.trans (hn u)
    · exact h.le u l n ((hpc u).1.symm.trans hu)
  | begin t line hp hm hpc hc hf =>
    have hnone : ∀ u, (s.pc u).writing? = none := by
      intro u
      have hown := hi.owned
      rw [hm] at hown
      rw [← Option.not_isSome_iff_eq_none, Option.isSome_iff_exists]
      rintro ⟨q, hq⟩
      exact absurd (holds_of_writing hq) (by rw [hown.outside u]; exact Bool.false_ne_true)
    refine ⟨by rw [hc]; exact h.closed, ?_, fun hn => ?_, fun u l n hu => ?_⟩
    · rw [hf, List.dropLast_concat]
      exact h.last hnone
    · have ht := hn t
      rw [hpc, Function.update_self] at ht
      cases ht
    · rw [hpc] at hu
      by_cases hut : u = t
      · rw [hut, Function.update_self] at hu
        cases hu
        exact Nat.zero_le _
      · rw [Function.update_of_ne hut, hnone u] at hu
        cases hu
  | roll t hp hpc hc hf =>
    have hnone : ∀ u, (s.pc u).writing? = none := by
      intro u
      rw [← Option.not_isSome_iff_eq_none, Option.isSome_iff_exists]
      rintro ⟨q, hq⟩
      obtain rfl : u = t := hi.owned.unique (holds_of_writing hq) (by rw [hp]; rfl)
      rw [hp] at hq
      cases hq
    refine ⟨?_, ?_, fun _ => ?_, ?_⟩
    · rw [hc]
      intro f hm
      rcases List.mem_append.1 hm with hm | hm
      · exact h.closed f hm
      · rw [List.mem_singleton.1 hm]
        exact h.last hnone
    · rw [hf]
      exact fun e he => absurd he List.not_mem_nil
    · rw [hf]
      exact fun e he => absurd he List.not_mem_nil
    · intro u l n hu
      rw [hpc] at hu
      by_cases hut : u = t
      · rw [hut, Function.update_self] at hu
        cases hu
      · rw [Function.update_of_ne hut, hnone u] at hu
        cases hu
  | put t line n x p hw hx hp hs' =>
    subst hs'
    obtain ⟨l, hl⟩ := hi.writing t line n hw
    have hentries : (s.put line n x).file_.entries = l ++ [⟨t, line, n + x⟩] := by
      show s.file_.entries.modifyLast _ = _
      rw [hl, List.modifyLast_concat]
    have hle := h.le t line n hw
    have hbefore := h.before
    rw [hl, List.dropLast_concat] at hbefore
    refine ⟨h.closed, ?_, fun hn => ?_, fun u l' n' hu => ?_⟩
    · show ∀ e ∈ (s.put line n x).file_.entries.dropLast, Whole e
      rw [hentries, List.dropLast_concat]
      exact hbefore
    · show ∀ e ∈ (s.put line n x).file_.entries, Whole e
      rw [hentries]
      have hnt := hn t
      rw [goto_pc, Function.update_self] at hnt
      intro e he
      rcases List.mem_append.1 he with he | he
      · exact hbefore e he
      · rw [List.mem_singleton.1 he]
        rcases hp with rfl | ⟨-, hend⟩
        · cases hnt
        · show n + x = line.length
          rcases hend with hend | ⟨h0, hre⟩
          · omega
          · exact absurd ⟨h0, congrArg Pc.rewrites hre⟩ hf
    · by_cases hut : u = t
      · rw [hut, goto_pc, Function.update_self] at hu
        rcases hp with rfl | ⟨rfl, -⟩
        · cases hu
          omega
        · cases hu
      · rw [goto_pc, Function.update_of_ne hut] at hu
        exact h.le u l' n' hu

/-! ### The order of the lines -/

variable {w : List (State ι × Action ι × State ι)} {s₀ : State ι}

/-- The lines that thread `t` has given to `append`. -/
def calls (t : ι) (w : List (State ι × Action ι × State ι)) : List Bytes := w.filterMap fun x =>
  match x.2.1 with
  | .append u line => if u = t then some line else none
  | _ => none

/-- The lines of thread `t` in the files. -/
def State.lines (s : State ι) (t : ι) : List Bytes :=
  ((s.files.flatMap AppendFile.entries).filter fun e => e.thread = t).map Entry.line

omit [DecidableEq ι] in
theorem Inv.files (hi : Inv s) : ∀ f ∈ s.files, f.contents = text f.entries := by
  intro f hf
  rcases List.mem_append.1 hf with hf | hf
  · rw [AppendFile.contents, (hi.closed f hf).1, (hi.closed f hf).2, List.append_nil]
  · rw [List.mem_singleton.1 hf, hi.contents]

omit [DecidableEq ι] in
theorem flatMap_files (s : State ι) :
    s.files.flatMap AppendFile.entries = s.closed.flatMap AppendFile.entries ++ s.file_.entries := by
  simp [State.files]

theorem pending_of_writing {q : Bytes × ℕ} (h : p.writing? = some q) : p.pending = [] := by
  cases p <;> first | rfl | cases h

/-- A step keeps what a thread has in the files, but for the line that it begins. -/
theorem Effect.lines (hi : Inv s) (he : Effect s a s') (u : ι) :
    s'.lines u ++ (s'.pc u).pending = s.lines u ++ (s.pc u).pending ++ calls u [(s, a, s')] := by
  cases he with
  | call t line hp hs' =>
    subst hs'
    show s.lines u ++ _ = _
    by_cases hut : u = t
    · rw [hut, goto_pc, Function.update_self, hp]
      simp [calls, Pc.pending]
    · rw [goto_pc, Function.update_of_ne hut]
      simp [calls, Ne.symm hut]
  | quiet ha hpc hc hf =>
    have hnone : calls u [(s, a, s')] = [] := by
      rw [calls, List.filterMap_cons_none, List.filterMap_nil]
      cases a with
      | append t line => exact absurd rfl (ha t line)
      | flush | tick | fwrite | drain | clock => rfl
    rw [State.lines, State.lines, flatMap_files, flatMap_files, hc, hf, (hpc u).2, hnone, List.append_nil]
  | begin t line hp hm hpc hc hf =>
    rw [State.lines, State.lines, flatMap_files, flatMap_files, hc, hf, hpc]
    by_cases hut : u = t
    · rw [hut, Function.update_self, hp]
      simp [calls, Pc.pending]
    · rw [Function.update_of_ne hut]
      simp [calls, Ne.symm hut]
  | roll t hp hpc hc hf =>
    have hpend : (s'.pc u).pending = (s.pc u).pending := by
      rw [hpc]
      by_cases hut : u = t
      · rw [hut, Function.update_self, hp]
        rfl
      · rw [Function.update_of_ne hut]
    rw [State.lines, State.lines, flatMap_files, flatMap_files, hc, hf, hpend]
    simp [calls, AppendFile.flush]
  | put t line n x p hw hx hp hs' =>
    obtain ⟨l, hl⟩ := hi.writing t line n hw
    have hentries : s'.file_.entries = l ++ [⟨t, line, n + x⟩] := by
      rw [hs']
      show s.file_.entries.modifyLast _ = _
      rw [hl, List.modifyLast_concat]
    have hclosed : s'.closed = s.closed := by rw [hs']; rfl
    have hpend : (s'.pc u).pending = (s.pc u).pending := by
      rw [hs']
      by_cases hut : u = t
      · rw [hut, goto_pc, Function.update_self, pending_of_writing hw]
        rcases hp with rfl | ⟨rfl, -⟩ <;> rfl
      · rw [goto_pc, Function.update_of_ne hut]
        rfl
    rw [State.lines, State.lines, flatMap_files, flatMap_files, hclosed, hentries, hl, hpend]
    by_cases hut : t = u <;> simp [calls, hut]

theorem lines_run (hts : cfg.threadSafe = true) (h0 : (logFile cfg ι).init s₀) (hr : Lts.Run (logFile cfg ι) s₀ w s)
    (u : ι) : s.lines u ++ (s.pc u).pending = calls u w := by
  induction hr with
  | nil =>
    obtain ⟨now, -, rfl⟩ := h0
    rfl
  | @snoc s₁ s₂ a w hr hst ih =>
    have hi := reach_inv hts (hr.reach (.init h0))
    rw [(effect hts hst).lines hi u, ih, calls, calls, calls, List.filterMap_append]

theorem complete_run (hts : cfg.threadSafe = true) (h0 : (logFile cfg ι).init s₀) (hr : Lts.Run (logFile cfg ι) s₀ w s)
    (hw : ∀ x ∈ w, ¬Fails x) : Complete s := by
  induction hr with
  | nil =>
    obtain ⟨now, -, rfl⟩ := h0
    exact complete_init
  | @snoc s₁ s₂ a w hr hst ih =>
    rw [List.forall_mem_append] at hw
    have hi := reach_inv hts (hr.reach (.init h0))
    exact (ih hw.1).step hi (effect hts hst) (hw.2 _ List.mem_cons_self)

/-! ### What is on disk -/

omit [DecidableEq ι] in
theorem text_split (l : List (Entry ι)) (e : Entry ι) (l' : List (Entry ι)) :
    text (l ++ e :: l') = text (l ++ [e]) ++ text l' := by
  rw [← text_append, ← List.append_cons]

/-- The lines of thread `t` in the open file are on disk, and all in front of them. -/
def Durable (s : State ι) (t : ι) : Prop :=
  ∀ l e l', s.file_.entries = l ++ e :: l' → e.thread = t → text (l ++ [e]) <+: s.file_.disk

/-- The thread that acts. -/
def Action.thread? : Action ι → Option ι
  | .append t _ | .flush t | .tick t | .fwrite t _ => some t
  | .drain _ | .clock _ => none

/-- A step moves only the thread that acts. -/
theorem step_pc_of_ne (hts : cfg.threadSafe = true) (hs : LogFile.step cfg s a = some s') (h : a.thread? ≠ some t) :
    s'.pc t = s.pc t := by
  cases a with
  | append u line | flush u =>
    have hne : t ≠ u := fun he => h (congrArg some he.symm)
    simp only [LogFile.step] at hs
    split at hs <;> cases hs
    exact Function.update_of_ne hne ..
  | fwrite u x =>
    have hne : t ≠ u := fun he => h (congrArg some he.symm)
    simp only [LogFile.step] at hs
    cases hp : s.pc u <;> rw [hp] at hs <;> simp only [fwrite] at hs
    case write | rewrite =>
      split at hs <;> cases hs
      exact Function.update_of_ne hne ..
    all_goals cases hs
  | drain k | clock now =>
    cases hs
    rfl
  | tick u =>
    have hne : t ≠ u := fun he => h (congrArg some he.symm)
    simp only [LogFile.step] at hs
    cases hp : s.pc u <;> rw [hp] at hs
    case idle | write | rewrite => cases hs
    case lockAppend line =>
      obtain ⟨s₁, hs₁, rfl⟩ := Option.map_eq_some_iff.1 hs
      obtain ⟨-, rfl⟩ := lock_eq_some hts hs₁
      exact Function.update_of_ne hne ..
    case lockFlush =>
      obtain ⟨-, rfl⟩ := lock_eq_some hts hs
      exact Function.update_of_ne hne ..
    case fflush | written | count | unlock | testSize =>
      cases hs
      exact Function.update_of_ne hne ..
    case testCount | checkTime | roll =>
      cases hs
      repeat' split
      all_goals exact Function.update_of_ne hne ..

/-- What is on disk stays there while the file is open. -/
theorem disk_prefix (hts : cfg.threadSafe = true) (hs : LogFile.step cfg s a = some s') (hc : s'.closed = s.closed) :
    s.file_.disk <+: s'.file_.disk := by
  cases a with
  | append t line | flush t =>
    simp only [LogFile.step] at hs
    split at hs <;> cases hs
    exact List.prefix_rfl
  | fwrite t x =>
    simp only [LogFile.step] at hs
    cases hp : s.pc t <;> rw [hp] at hs <;> simp only [fwrite] at hs
    case write | rewrite =>
      split at hs <;> cases hs
      exact List.prefix_rfl
    all_goals cases hs
  | drain k =>
    cases hs
    exact List.prefix_append _ _
  | clock now =>
    cases hs
    exact List.prefix_rfl
  | tick t =>
    simp only [LogFile.step] at hs
    cases hp : s.pc t <;> rw [hp] at hs
    case idle | write | rewrite => cases hs
    case lockAppend line =>
      obtain ⟨s₁, hs₁, rfl⟩ := Option.map_eq_some_iff.1 hs
      obtain ⟨-, rfl⟩ := lock_eq_some hts hs₁
      exact List.prefix_rfl
    case lockFlush =>
      obtain ⟨-, rfl⟩ := lock_eq_some hts hs
      exact List.prefix_rfl
    case fflush =>
      cases hs
      exact List.prefix_append _ _
    case written | count | unlock =>
      cases hs
      exact List.prefix_rfl
    case testSize | testCount | checkTime =>
      cases hs
      repeat' split
      all_goals exact List.prefix_rfl
    case roll =>
      cases hs
      split
      · rename_i hnow
        rw [if_pos hnow] at hc
        exact absurd (congrArg List.length hc) (by simp [State.goto])
      · exact List.prefix_rfl

omit [DecidableEq ι] in
theorem split_concat {es l l' : List (Entry ι)} {e x : Entry ι} (h : es ++ [x] = l ++ e :: l') (hne : e ≠ x) :
    ∃ l'', es = l ++ e :: l'' := by
  rcases List.eq_nil_or_concat l' with rfl | ⟨l'', y, rfl⟩
  · exact absurd (List.singleton_inj.1 (List.append_inj' h rfl).2).symm hne
  · rw [List.concat_eq_append, ← List.cons_append, ← List.append_assoc] at h
    exact ⟨l'', (List.append_inj' h rfl).1⟩

/-- What another thread does keeps the lines of `t` on disk. -/
theorem Durable.step (hts : cfg.threadSafe = true) (hi : Inv s) (h : Durable s t) (hw : (s.pc t).writing? = none)
    (hp : (s.pc t).pending = []) (hs : LogFile.step cfg s a = some s') : Durable s' t := by
  have hdisk := disk_prefix hts hs
  intro l e l' hl he
  cases effect hts hs with
  | call u line _ hs' =>
    subst hs'
    exact h l e l' hl he
  | quiet _ _ hc hf =>
    rw [hf] at hl
    exact (h l e l' hl he).trans (hdisk hc)
  | begin u line hpc _ _ hc hf =>
    have hne : e ≠ ⟨u, line, 0⟩ := by
      rintro rfl
      subst he
      rw [hpc] at hp
      cases hp
    rw [hf] at hl
    obtain ⟨l'', hes⟩ := split_concat hl hne
    exact (h l e l'' hes he).trans (hdisk hc)
  | roll u _ _ _ hf =>
    rw [hf] at hl
    exact absurd hl.symm (List.append_ne_nil_of_right_ne_nil _ (List.cons_ne_nil _ _))
  | put u line n x p hwu _ _ hs' =>
    obtain ⟨es, hes⟩ := hi.writing u line n hwu
    have hes' : s'.file_.entries = es ++ [⟨u, line, n + x⟩] := by
      rw [hs']
      show s.file_.entries.modifyLast _ = _
      rw [hes, List.modifyLast_concat]
    have hne : e ≠ ⟨u, line, n + x⟩ := by
      rintro rfl
      subst he
      rw [hw] at hwu
      cases hwu
    rw [hes'] at hl
    obtain ⟨l'', rfl⟩ := split_concat hl hne
    rw [List.append_assoc, List.cons_append] at hes
    refine (h l e _ hes he).trans (hdisk ?_)
    rw [hs']
    rfl

omit [DecidableEq ι] in
/-- After an `fflush` all lines are on disk. -/
theorem durable_of_flushed (hi : Inv s) (hb : s.file_.buffer_ = []) : Durable s t := by
  intro l e l' hl _
  have hc := hi.contents
  rw [AppendFile.contents, hb, List.append_nil] at hc
  rw [hc, hl, text_split l e l']
  exact List.prefix_append _ _

omit [DecidableEq ι] in
theorem text_of_whole {l : List (Entry ι)} (h : ∀ e ∈ l, Whole e) : text l = l.flatMap Entry.line := by
  refine List.flatMap_congr fun e he => ?_
  rw [show e.taken = e.line.length from h e he, List.take_length]

omit [DecidableEq ι] in
/-- A line of a thread that is not writing is whole, and on disk with all in front of it. -/
theorem entry_on_disk (hi : Inv s) (hc : Complete s) (hd : Durable s t) (hw : (s.pc t).writing? = none)
    {f : AppendFile ι} (hf : f ∈ s.files) {l l' : List (Entry ι)} {e : Entry ι} (hes : f.entries = l ++ e :: l')
    (ht : e.thread = t) : Whole e ∧ text (l ++ [e]) <+: f.disk := by
  have he : e ∈ f.entries := by
    rw [hes]
    exact List.mem_append_right _ List.mem_cons_self
  rcases List.mem_append.1 hf with hcl | hcl
  · refine ⟨hc.closed f hcl e he, ?_⟩
    rw [(hi.closed f hcl).2, hes, text_split l e l']
    exact List.prefix_append _ _
  · obtain rfl := List.mem_singleton.1 hcl
    refine ⟨?_, hd l e l' hes ht⟩
    by_cases hall : ∀ u, (s.pc u).writing? = none
    · exact hc.last hall e he
    · obtain ⟨u, hu⟩ := not_forall.1 hall
      obtain ⟨⟨line, n⟩, hu⟩ := Option.ne_none_iff_exists'.1 hu
      obtain ⟨es, hwes⟩ := hi.writing u line n hu
      refine hc.before e ?_
      rw [hwes, List.dropLast_concat]
      rw [hwes, List.mem_append, List.mem_singleton] at he
      refine he.resolve_right ?_
      rintro rfl
      subst ht
      rw [hw] at hu
      cases hu

theorem line_on_disk (hi : Inv s) (hc : Complete s) (hd : Durable s t) (hw : (s.pc t).writing? = none) {line : Bytes}
    (hl : line ∈ s.lines t) : ∃ f ∈ s.files, line <:+: f.disk := by
  obtain ⟨e, he, rfl⟩ := List.mem_map.1 hl
  obtain ⟨he, ht⟩ := List.mem_filter.1 he
  obtain ⟨f, hf, he⟩ := List.mem_flatMap.1 he
  obtain ⟨l, l', hes⟩ := List.append_of_mem he
  obtain ⟨hwhole, hdisk⟩ := entry_on_disk hi hc hd hw hf hes (of_decide_eq_true ht)
  -- the bytes of the line are the last ones of what has been given up to it
  have hline : e.line <:+: text (l ++ [e]) := by
    rw [text_append, text, text, List.flatMap_singleton, show e.taken = e.line.length from hwhole, List.take_length]
    exact (List.suffix_append _ _).isInfix
  exact ⟨f, hf, hline.trans hdisk.isInfix⟩

end Invariant

section Main

variable {ι : Type*} [DecidableEq ι]

/-- **The log.** In every run of any number of threads: each file has the lines it has been given one after the other,
and none is split between two files; what has been closed is on disk; the names of the files increase; the files have
the lines of each thread in the order of its calls of `append`, and no others; after an `fflush` everything is on
disk; and when no `fwrite` in the loop has taken nothing, all lines are whole as soon as the lock is free. -/
theorem log_files (cfg : Config) (hts : cfg.threadSafe = true) (s₀ s : State ι)
    (w : List (State ι × Action ι × State ι)) (h0 : (logFile cfg ι).init s₀) (hr : Lts.Run (logFile cfg ι) s₀ w s) :
    (∀ f ∈ s.files, f.contents = text f.entries) ∧
    (∀ f ∈ s.closed, f.disk = f.contents) ∧
    (s.files.map AppendFile.opened).Pairwise (· < ·) ∧
    (∀ t, s.lines t ++ (s.pc t).pending = calls t w) ∧
    (∀ t, s.pc t = .unlock true → ∀ f ∈ s.files, f.disk = text f.entries) ∧
    ((∀ x ∈ w, ¬Fails x) → s.mutex_ = none → ∀ f ∈ s.files, f.contents = f.entries.flatMap Entry.line) := by
  have hi := reach_inv hts (hr.reach (.init h0))
  have hclosed : ∀ f ∈ s.closed, f.disk = f.contents := by
    intro f hf
    rw [AppendFile.contents, (hi.closed f hf).1, List.append_nil]
  have hcont := hi.files
  refine ⟨hcont, hclosed, ?_, lines_run hts h0 hr, fun t ht f hf => ?_, fun hw hm f hf => ?_⟩
  · rw [State.files, List.map_append]
    exact hi.names
  · rcases List.mem_append.1 hf with hc | hc
    · exact (hi.closed f hc).2
    · rw [← hcont f hf, List.mem_singleton.1 hc, AppendFile.contents, hi.flushed t ht, List.append_nil]
  · have hall := complete_run hts h0 hr hw
    have hown := hi.owned
    rw [hm] at hown
    have hnone : ∀ u, (s.pc u).writing? = none := by
      intro u
      rw [← Option.not_isSome_iff_eq_none, Option.isSome_iff_exists]
      rintro ⟨q, hq⟩
      exact absurd (holds_of_writing hq) (by rw [hown.outside u]; exact Bool.false_ne_true)
    rw [hcont f hf]
    refine text_of_whole ?_
    rcases List.mem_append.1 hf with hc | hc
    · exact hall.closed f hc
    · rw [List.mem_singleton.1 hc]
      exact hall.last hnone

end Main

/-- Files of two bytes. -/
def twoBytes : Config := ⟨2, true, 3, 1024⟩

/-- Two threads append; the first file is over its size after the first line, of which a write takes one byte only. -/
def rolled : List (Action Bool) :=
  [.append true [65, 66, 10], .append false [67, 10], .tick true, .clock 2, .fwrite true 1, .drain 1, .fwrite true 2] ++
  List.replicate 4 (.tick true) ++ [.tick false, .fwrite false 2] ++ List.replicate 5 (.tick false)

theorem log_files_rolled : ∃ s ∈ Lts.exec (step twoBytes) (init 1) rolled,
    (∀ f ∈ s.files, f.contents = f.entries.flatMap Entry.line) ∧
    s.files.map AppendFile.contents = [[65, 66, 10], [67, 10]] := by
  obtain ⟨s, hs, hm, hw, hf⟩ : ∃ s ∈ Lts.exec (step twoBytes) (init 1) rolled, s.mutex_ = none ∧
      (∀ x ∈ Lts.moves (step twoBytes) (init 1) rolled, ¬Fails x) ∧
      s.files.map AppendFile.contents = [[65, 66, 10], [67, 10]] := by
    decide +kernel
  have hr : Lts.Run (logFile twoBytes Bool) (init 1) _ s :=
    Lts.Run.mono (M := Lts.ofFun (init 1) (step twoBytes)) (N := logFile twoBytes Bool) (fun _ _ _ hst => hst)
      (Lts.Run.moves hs)
  exact ⟨s, hs, (log_files twoBytes rfl (init 1) s _ ⟨1, by decide, rfl⟩ hr).2.2.2.2.2 hw hm, hf⟩

end LogFile

end Libeva
