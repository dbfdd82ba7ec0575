import Libeva.Lib.Loop
import Libeva.Minimemcached.Store
import Libeva.Minimemcached.Tokenizer

/-!
# `Conversation`: one connection of the server

`msgCb` runs on the connection's input buffer whenever a chunk has been appended to it. Its loop takes a command line or
the bytes of a value per pass. The connection stays `kConnected` and the calls run on its reactor thread, so that what
is passed to `send` is sent.

* `Conversation.sent` are the bytes passed to `conn_->send` so far.
* `Session` is a conversation with the store and the input buffer, and `Session.pass` one pass of the loop of `msgCb`.
* `request` is what a command line asks for, and `handle_command_cases` is `handle_command` by request.
-/

namespace Libeva.Minimemcached

open Net StringTokenizer

inductive STATE
  | kNewCommand
  | kReceiveValue
  | kDiscardValue
  deriving DecidableEq

structure Conversation where
  currEntry_ : Entry
  command_ : Bytes
  state_ : STATE
  outputBuf_ : Buffer
  /-- What has been passed to `conn_->send`. -/
  sent : Bytes

namespace Conversation

/-- `Conversation( server, conn )`. -/
def new : Except Fault Conversation := do
  let entry ← Entry.new (bytes "Invalid") 128
  return { currEntry_ := entry, command_ := [], state_ := .kNewCommand, outputBuf_ := .new kInitialSize, sent := [] }

def reply (c : Conversation) (msg : Bytes) : Conversation := { c with sent := c.sent ++ msg }

/-- The loop of `TestHandler`, which takes a character or more each time. -/
def testLoop : ℕ → StringTokenizer → Conversation → Conversation
  | 0, _, c => c
  | n + 1, t, c =>
    match t.hasMoreToken with
    | (false, _) => c
    | (true, t) =>
      let (token, t) := t.nextToken
      testLoop n t ((c.reply token.chars).reply (bytes " "))

def TestHandler (c : Conversation) (tokenizer : StringTokenizer) : Conversation :=
  (testLoop tokenizer.rest.length tokenizer c).reply (bytes "\r\n")

/-- `GetHandler` for a token that is not empty. -/
def getKey (c : Conversation) (server : MiniMemcached) (token : Bytes) : Except Fault Conversation := do
  let currEntry ← c.currEntry_.resetKey token
  let entry ← server.get currEntry
  let buf := match entry with
    | some entry => entry.copyToBuffer c.outputBuf_
    | none => c.outputBuf_
  let buf := buf.append (bytes "END\r\n")
  -- `conn_->outputBuffer()->shrink` keeps the bytes that wait there
  return { c with currEntry_ := currEntry, outputBuf_ := buf.retrieveAll, sent := c.sent ++ buf.readable }

def GetHandler (c : Conversation) (server : MiniMemcached) (tokenizer : StringTokenizer) : Except Fault Conversation :=
  let token := tokenizer.nextToken.1
  if token.chars = [] then .ok c else c.getKey server token.chars

/-- The first and the fourth of the tokens that `SetHandler` takes. -/
def setTokens (tokenizer : StringTokenizer) : Option (StringView × StringView) :=
  let (token, tokenizer) := tokenizer.nextToken
  match tokenizer.hasMoreToken with
  | (false, _) => none
  | (true, tokenizer) =>
    match tokenizer.nextToken.2.hasMoreToken with
    | (false, _) => none
    | (true, tokenizer) =>
      match tokenizer.nextToken.2.hasMoreToken with
      | (false, _) => none
      | (true, tokenizer) => some (token, tokenizer.nextToken.1)

/-- `SetHandler` from `atoi` on. -/
def setKey (c : Conversation) (token data : Bytes) : Except Fault Conversation := do
  let numBytes ← atoi data
  if numBytes ≤ 0 ∨ 1024 < numBytes then return c
  else
    let currEntry ← c.currEntry_.resetKeyValue token numBytes
    return { c with currEntry_ := currEntry, state_ := .kReceiveValue }

def SetHandler (c : Conversation) (tokenizer : StringTokenizer) : Except Fault Conversation :=
  match setTokens tokenizer with
  | none => .ok { c with state_ := .kNewCommand }
  | some (token, numBytes) => c.setKey token.chars numBytes.data

/-- `sep` of `handle_command`. -/
def sep (ch : UInt8) : Bool := ch == 32

/-- `controller_.find( command_ )` and the call of the handler. -/
def dispatch (c : Conversation) (server : MiniMemcached) (tokenizer : StringTokenizer) : Except Fault Conversation :=
  if c.command_ = bytes "Test" then .ok (c.TestHandler tokenizer)
  else if c.command_ = bytes "get" then c.GetHandler server tokenizer
  else if c.command_ = bytes "set" then c.SetHandler tokenizer
  else .ok (c.reply (bytes "Invalid command:[%s]\r\n"))

/-- `handle_command( req )`, with the memory after `req`. -/
def handle_command (c : Conversation) (server : MiniMemcached) (req after : Bytes) : Except Fault Conversation :=
  match hasMoreToken ⟨req, after, sep⟩ with
  | (false, _) => .ok (c.reply (bytes "Error\r\n"))
  | (true, tokenizer) =>
    let (command, tokenizer) := tokenizer.nextToken
    dispatch { c with command_ := command.chars } server tokenizer

def resetRequest (c : Conversation) : Except Fault Conversation := do
  let currEntry ← c.currEntry_.Reset
  return { c with command_ := [], currEntry_ := currEntry }

/-! ## What a line asks for -/

/-- A line that gets past the checks of its handler; a `set` with the rest of the line from its fourth argument on. -/
inductive Request
  | get (key : Bytes)
  | set (key count : Bytes)
  | other
  deriving DecidableEq

def requestOf (command : Bytes) (tokenizer : StringTokenizer) : Request :=
  if command = bytes "get" then
    if tokenizer.nextToken.1.chars = [] then .other else .get tokenizer.nextToken.1.chars
  else if command = bytes "set" then
    match setTokens tokenizer with
    | none => .other
    | some (token, numBytes) => .set token.chars numBytes.data
  else .other

def request (req : Bytes) : Request :=
  match hasMoreToken ⟨req, [], sep⟩ with
  | (false, _) => .other
  | (true, tokenizer) => requestOf tokenizer.nextToken.1.chars tokenizer.nextToken.2

/-- What does not touch the entry, the reply under construction and, between commands, the state. -/
structure Same (c c' : Conversation) : Prop where
  currEntry : c'.currEntry_ = c.currEntry_
  outputBuf : c'.outputBuf_ = c.outputBuf_
  state : c.state_ = .kNewCommand → c'.state_ = .kNewCommand

variable {c : Conversation} {server : MiniMemcached} {t : StringTokenizer} {req after k d : Bytes}

theorem testLoop_push (a : Bytes) (n : ℕ) : testLoop n (t.push a) c = testLoop n t c := by
  induction n generalizing t c with
  | zero => rfl
  | succ n ih =>
    unfold testLoop
    rw [hasMoreToken_push]
    rcases t.hasMoreToken with ⟨_ | _, t⟩
    · rfl
    · dsimp only
      rw [nextToken_push]
      exact ih

theorem same_testLoop (n : ℕ) : Same c (testLoop n t c) := by
  induction n generalizing t c with
  | zero => exact ⟨rfl, rfl, id⟩
  | succ n ih =>
    unfold testLoop
    rcases t.hasMoreToken with ⟨_ | _, t⟩
    · exact ⟨rfl, rfl, id⟩
    · obtain ⟨h1, h2, h3⟩ := ih (t := t.nextToken.2) (c := (c.reply t.nextToken.1.chars).reply (bytes " "))
      exact ⟨h1, h2, h3⟩

/-- The memory after a line is the memory after each of its tokens. -/
theorem setTokens_push (a : Bytes) : setTokens (t.push a) = (setTokens t).map fun p => (p.1.push a, p.2.push a) := by
  unfold setTokens
  simp only [nextToken_push, hasMoreToken_push]
  rcases t.nextToken.2.hasMoreToken with ⟨_ | _, t⟩
  · rfl
  · simp only [nextToken_push, hasMoreToken_push]
    rcases t.nextToken.2.hasMoreToken with ⟨_ | _, t⟩
    · rfl
    · simp only [nextToken_push, hasMoreToken_push]
      rcases t.nextToken.2.hasMoreToken with ⟨_ | _, t⟩
      · rfl
      · simp only [nextToken_push]
        rfl

theorem dispatch_get (h : requestOf c.command_ t = .get k) : c.dispatch server (t.push after) = c.getKey server k := by
  unfold requestOf at h
  split at h
  · rename_i hget
    unfold dispatch GetHandler
    rw [if_neg (by rw [hget]; decide), if_pos hget, nextToken_push]
    dsimp only
    split at h
    · cases h
    · rename_i hk
      cases h
      exact if_neg hk
  · split at h
    · split at h <;> cases h
    · cases h

theorem dispatch_set (h : requestOf c.command_ t = .set k d) :
    c.dispatch server (t.push after) = c.setKey k (d ++ after) := by
  unfold requestOf at h
  split at h
  · split at h <;> cases h
  · rename_i hget
    split at h
    · rename_i hset
      unfold dispatch SetHandler
      rw [if_neg (by rw [hset]; decide), if_neg hget, if_pos hset, setTokens_push]
      split at h
      · cases h
      · rename_i hp
        cases h
        rw [hp]
        simp only [Option.map_some, StringView.chars_push, StringView.data_push]
    · cases h

theorem dispatch_other (h : requestOf c.command_ t = .other) :
    ∃ c', Same c c' ∧ ∀ server after, c.dispatch server (t.push after) = .ok c' := by
  unfold dispatch
  unfold requestOf at h
  by_cases htest : c.command_ = bytes "Test"
  · refine ⟨c.TestHandler t, ?_, ?_⟩
    · obtain ⟨h1, h2, h3⟩ := same_testLoop (c := c) (t := t) t.rest.length
      exact ⟨h1, h2, h3⟩
    · intro _ after
      rw [if_pos htest]
      unfold TestHandler
      rw [testLoop_push]
      rfl
  · simp only [if_neg htest]
    split at h
    · rename_i hget
      refine ⟨c, ⟨rfl, rfl, id⟩, ?_⟩
      intro _ after
      split at h
      · rename_i hk
        rw [if_pos hget]
        unfold GetHandler
        rw [nextToken_push]
        exact if_pos hk
      · cases h
    · rename_i hget
      simp only [if_neg hget]
      split at h
      · rename_i hset
        simp only [if_pos hset]
        split at h
        · rename_i hp
          refine ⟨{ c with state_ := .kNewCommand }, ⟨rfl, rfl, fun _ => rfl⟩, ?_⟩
          intro _ after
          unfold SetHandler
          rw [setTokens_push, hp]
          rfl
        · cases h
      · rename_i hset
        simp only [if_neg hset]
        exact ⟨c.reply (bytes "Invalid command:[%s]\r\n"), ⟨rfl, rfl, id⟩, fun _ _ => rfl⟩

theorem setTokens_fst {p : StringView × StringView} (h : setTokens t = some p) : p.1 = t.nextToken.1 := by
  unfold setTokens at h
  dsimp only at h
  split at h
  · cases h
  · split at h
    · cases h
    · split at h
      · cases h
      · cases h
        rfl

/-- The key that a line asks for is a part of the line. -/
theorem length_request (h : request req = .get k ∨ request req = .set k d) : k.length ≤ req.length := by
  unfold request at h
  rcases hm : hasMoreToken ⟨req, [], sep⟩ with ⟨more, t⟩
  have h1 : t.rest.length ≤ req.length := by
    have := length_hasMoreToken ⟨req, [], sep⟩
    rwa [hm] at this
  have h2 := length_nextToken t
  have h3 := length_nextToken t.nextToken.2
  rw [hm] at h
  cases more with
  | false => rcases h with h | h <;> cases h
  | true =>
    dsimp only at h
    unfold requestOf at h
    split at h
    · split at h
      · rcases h with h | h <;> cases h
      · rcases h with h | h
        · cases h
          omega
        · cases h
    · split at h
      · split at h
        · rcases h with h | h <;> cases h
        · rename_i token numBytes hp
          have htoken : token = t.nextToken.2.nextToken.1 := setTokens_fst hp
          rcases h with h | h
          · cases h
          · cases h
            rw [htoken]
            omega
      · rcases h with h | h <;> cases h

theorem same_command (c : Conversation) (cmd : Bytes) : Same c { c with command_ := cmd } := ⟨rfl, rfl, id⟩

/-- What `handle_command` does with a line, by what the line asks for. -/
theorem handle_command_cases (c : Conversation) (req : Bytes) :
    (∃ k cmd, request req = .get k ∧
      ∀ server after, c.handle_command server req after = getKey { c with command_ := cmd } server k) ∨
    (∃ k d cmd, request req = .set k d ∧
      ∀ server after, c.handle_command server req after = setKey { c with command_ := cmd } k (d ++ after)) ∨
    (∃ c', request req = .other ∧ Same c c' ∧ ∀ server after, c.handle_command server req after = .ok c') := by
  unfold request handle_command
  rcases hm : hasMoreToken ⟨req, [], sep⟩ with ⟨more, t⟩
  have hpush : ∀ after, hasMoreToken ⟨req, after, sep⟩ = (more, t.push after) := by
    intro after
    rw [show (⟨req, after, sep⟩ : StringTokenizer) = push ⟨req, [], sep⟩ after from rfl, hasMoreToken_push, hm]
  simp only [hpush]
  rcases more with _ | _
  · exact .inr (.inr ⟨c.reply (bytes "Error\r\n"), rfl, ⟨rfl, rfl, id⟩, fun _ _ => rfl⟩)
  · simp only [nextToken_push, StringView.chars_push]
    rcases hr : requestOf t.nextToken.1.chars t.nextToken.2 with k | ⟨k, d⟩ | _
    · exact .inl ⟨k, t.nextToken.1.chars, rfl, fun _ _ => dispatch_get hr⟩
    · exact .inr (.inl ⟨k, d, t.nextToken.1.chars, rfl, fun _ _ => dispatch_set hr⟩)
    · obtain ⟨c', ⟨h1, h2, h3⟩, h⟩ := dispatch_other (c := { c with command_ := t.nextToken.1.chars }) hr
      exact .inr (.inr ⟨c', rfl, ⟨h1, h2, h3⟩, h⟩)

theorem handle_command_get (c : Conversation) (h : request req = .get k) : ∃ cmd, ∀ server after,
    c.handle_command server req after = getKey { c with command_ := cmd } server k := by
  rcases c.handle_command_cases req with ⟨_, cmd, h', hcmd⟩ | ⟨_, _, _, h', -⟩ | ⟨_, h', -⟩
  · rw [h] at h'
    cases h'
    exact ⟨cmd, hcmd⟩
  · rw [h] at h'
    cases h'
  · rw [h] at h'
    cases h'

theorem handle_command_set (c : Conversation) (h : request req = .set k d) : ∃ cmd, ∀ server after,
    c.handle_command server req after = setKey { c with command_ := cmd } k (d ++ after) := by
  rcases c.handle_command_cases req with ⟨_, _, h', -⟩ | ⟨_, _, cmd, h', hcmd⟩ | ⟨_, h', -⟩
  · rw [h] at h'
    cases h'
  · rw [h] at h'
    cases h'
    exact ⟨cmd, hcmd⟩
  · rw [h] at h'
    cases h'

/-! ## The lines of the protocol -/

theorem stop_sep (r : Bytes) : Stop sep (32 :: r) := stop_cons rfl

theorem request_get (hk : Word sep k) : request (bytes "get" ++ 32 :: k) = .get k := by
  have hget : Word sep (bytes "get") := by unfold Word; decide +kernel
  have hnext := nextToken_word (a := []) hk stop_nil
  rw [List.append_nil] at hnext
  unfold request
  rw [hasMoreToken_word hget]
  dsimp only
  rw [nextToken_word hget (stop_sep k)]
  unfold requestOf
  dsimp only
  rw [if_pos rfl, nextToken_sep rfl, hnext, if_neg hk.1]

theorem request_set {flags exp n : Bytes} (hk : Word sep k) (hf : Word sep flags) (he : Word sep exp)
    (hn : Word sep n) : request (bytes "set" ++ 32 :: (k ++ 32 :: (flags ++ 32 :: (exp ++ 32 :: n)))) = .set k n := by
  have hset : Word sep (bytes "set") := by unfold Word; decide +kernel
  have hnext := nextToken_word (a := []) hn stop_nil
  have hmore := hasMoreToken_word (a := []) (r := []) hn
  rw [List.append_nil] at hnext hmore
  unfold request
  rw [hasMoreToken_word hset]
  dsimp only
  rw [nextToken_word hset (stop_sep _)]
  unfold requestOf setTokens
  dsimp only
  rw [if_neg (by decide), if_pos rfl, nextToken_sep rfl, nextToken_word hk (stop_sep _)]
  dsimp only
  rw [hasMoreToken_sep rfl, hasMoreToken_word hf]
  dsimp only
  rw [nextToken_word hf (stop_sep _)]
  dsimp only
  rw [hasMoreToken_sep rfl, hasMoreToken_word he]
  dsimp only
  rw [nextToken_word he (stop_sep _)]
  dsimp only
  rw [hasMoreToken_sep rfl, hmore]
  dsimp only
  rw [hnext]
  dsimp only [StringView.data]
  rw [List.append_nil, List.append_nil]

end Conversation

/-- A conversation, the store it shares and its input buffer. -/
structure Session where
  server_ : MiniMemcached
  conv : Conversation
  buf : Buffer

namespace Session

open Conversation

/-- The number of bytes that `receiveValue` takes. -/
def numBytes (s : Session) : ℕ := min s.buf.readableBytes s.conv.currEntry_.numFree

def receiveValue (s : Session) : Except Fault Session := do
  let currEntry ← s.conv.currEntry_.append s.buf.readable s.numBytes
  let entry ← Entry.clone currEntry.data_ currEntry.keyLen_ currEntry.valueLen_ (toInt currEntry.numFree)
  let server ← s.server_.set entry
  let conv ← { s.conv with currEntry_ := currEntry, sent := s.conv.sent ++ bytes "STORED\r\n",
                           state_ := .kNewCommand }.resetRequest
  return { server_ := server, conv := conv, buf := s.buf.retrieve s.numBytes }

/-- A line of `n` bytes and its end of `e` bytes; the length of the line is an `int`. -/
def line (s : Session) (n e : ℕ) : Except Fault Session :=
  let len := toInt n
  if len < 0 then .error .outOfBounds
  else do
    let conv ← (if len ≠ 0 then
      s.conv.handle_command s.server_ (s.buf.readable.take len.toNat) (s.buf.peek.drop len.toNat)
      else .ok s.conv : Except Fault Conversation)
    let k ← int (len + e)
    return { s with conv := conv, buf := s.buf.retrieve (toSize k) }

/-- One pass of the loop of `msgCb`; `none` leaves it. -/
def pass (s : Session) : Except Fault (Option Session) :=
  if s.buf.readableBytes = 0 then .ok none
  else
    match s.conv.state_ with
    | .kNewCommand =>
      match s.buf.findCRLF with
      | some n => (s.line n 2).map some
      | none =>
        match s.buf.findEOL with
        | some n => (s.line n 1).map some
        | none => .ok none
    | .kReceiveValue => s.receiveValue.map some
    | .kDiscardValue => .error .spin

def msgCb (s : Session) : Except Fault Session := Loop.run pass .outOfFuel (2 * s.buf.readableBytes + 2) s

/-- A chunk arrives. -/
def deliver (s : Session) (chunk : Bytes) : Except Fault Session := { s with buf := s.buf.append chunk }.msgCb

end Session

end Libeva.Minimemcached
