import Libeva.Minimemcached.Segmentation

/-!
# The server against a reference map

Any number of connections share one store, and their chunks arrive in any order. A chunk is a sequence of pieces, where
a command has the pieces that it may be cut into.

* `Server`, `Server.run`: the store, the conversations and their input buffers, and the deliveries.
* `Cmd`, `Piece`: the commands of the protocol and their pieces; `own` are the pieces that one connection has got.
* `Ref`: the reference map with the replies. A `get` is complete with its line and a `set` with its body.
* `Fits`: every line has an `int` as its length, and the key of every `get` fits into the block that the scratch entry
  has by then.
* `Session.pass_piece`: one piece is one pass of `msgCb` and does what the reference does; `serves` is the whole run.
-/

namespace Libeva.Minimemcached

open Net StringTokenizer

/-! ## The server -/

structure Server (ι : Type) where
  server_ : MiniMemcached
  conns : ι → Conversation × Buffer

/-! ## The protocol -/

/-- A token: non-empty, without space, CR and LF. -/
abbrev Token := { t : Bytes // MiniMemcached.Admitted t }

inductive Cmd
  | get (k : Token)
  | set (k flags exp : Token) (body : Bytes)

def Cmd.Valid : Cmd → Prop
  | .get k => k.1 < greatestKey
  | .set k _ _ body => k.1 < greatestKey ∧ 1 ≤ body.length ∧ body.length ≤ 1024

instance (c : Cmd) : Decidable c.Valid := by cases c <;> unfold Cmd.Valid <;> infer_instance

/-- What a chunk is made of. -/
inductive Piece
  | getLine (k : Token)
  | setLine (k flags exp : Token) (body : Bytes)
  | body (k : Token) (body : Bytes)
  | crlf
  deriving DecidableEq

def Cmd.pieces : Cmd → List Piece
  | .get k => [.getLine k]
  | .set k flags exp body => [.setLine k flags exp body, .body k body, .crlf]

/-- The line of a piece without its end. -/
def getLine (k : Bytes) : Bytes := bytes "get" ++ 32 :: k

def setLine (k flags exp : Bytes) (n : ℕ) : Bytes :=
  bytes "set" ++ 32 :: (k ++ 32 :: (flags ++ 32 :: (exp ++ 32 :: decimal n)))

def Piece.bytes : Piece → Bytes
  | .getLine k => Minimemcached.getLine k.1 ++ kCRLF
  | .setLine k flags exp data => Minimemcached.setLine k.1 flags.1 exp.1 data.length ++ kCRLF
  | .body _ data => data
  | .crlf => kCRLF

namespace Server

variable {ι : Type} [DecidableEq ι]

/-- New connections on a new store. -/
def init : Except Fault (Server ι) := do
  let server ← MiniMemcached.new
  let conv ← Conversation.new
  return ⟨server, fun _ => (conv, .new kInitialSize)⟩

/-- A chunk arrives on the connection `i`. -/
def deliver (S : Server ι) (i : ι) (chunk : Bytes) : Except Fault (Server ι) := do
  let s ← Session.deliver ⟨S.server_, (S.conns i).1, (S.conns i).2⟩ chunk
  return ⟨s.server_, Function.update S.conns i (s.conv, s.buf)⟩

def run (S : Server ι) : List (ι × Bytes) → Except Fault (Server ι)
  | [] => .ok S
  | x :: sched => do
    let S ← S.deliver x.1 x.2
    S.run sched

/-- What each connection has been sent. -/
def sent (S : Server ι) (i : ι) : Bytes := (S.conns i).1.sent

end Server

/-! ## The reference -/

/-- The reply to a `get`. -/
def getReply (k : Bytes) : Option Bytes → Bytes
  | some v => bytes "VALUE " ++ k ++ bytes "\r\n" ++ v ++ bytes "END\r\n"
  | none => bytes "END\r\n"

/-- What a piece does to the map and what the reply to it is. A `get` is complete with its line and a `set` with its
body. -/
def Piece.effect (map : Bytes → Option Bytes) : Piece → (Bytes → Option Bytes) × Bytes
  | .getLine k => (map, getReply k.1 (map k.1))
  | .body k data => (Function.update map k.1 (some data), Libeva.bytes "STORED\r\n")
  | .setLine .. | .crlf => (map, [])

/-- A finite map and the replies on each connection. -/
structure Ref (ι : Type) where
  map : Bytes → Option Bytes
  replies : ι → Bytes

namespace Ref

variable {ι : Type} [DecidableEq ι]

def piece (r : Ref ι) (i : ι) (p : Piece) : Ref ι where
  map := (p.effect r.map).1
  replies := Function.update r.replies i (r.replies i ++ (p.effect r.map).2)

def chunk (r : Ref ι) (i : ι) (ps : List Piece) : Ref ι := ps.foldl (fun r p => r.piece i p) r

def run (r : Ref ι) (sched : List (ι × List Piece)) : Ref ι := sched.foldl (fun r x => r.chunk x.1 x.2) r

end Ref

/-- The pieces that the connection `i` gets. -/
def own {ι : Type} [DecidableEq ι] (i : ι) (sched : List (ι × List Piece)) : List Piece :=
  (sched.filter fun x => x.1 = i).flatMap Prod.snd

/-! ## The block of the scratch entry -/

/-- The size of the block of a scratch entry, and the total of its lengths. -/
structure Room where
  cap : ℕ
  total : ℕ

/-- `Entry( "Invalid", 128 )`. -/
def Room.init : Room := ⟨135, 135⟩

/-- The block that a `set` whose key and value have `m` bytes together leaves behind. -/
def Room.grow (r : Room) (m : ℕ) : Room := ⟨if r.total < m then m else r.cap, m⟩

def Room.next (r : Room) : Piece → Room
  | .setLine k _ _ body => r.grow (k.1.length + body.length)
  | .getLine _ | .body .. | .crlf => r

/-- The lengths are `int`s, and a `get` has a key that fits. -/
def Room.Takes (r : Room) : Piece → Prop
  | .getLine k => k.1.length ≤ r.cap ∧ (getLine k.1).length + 2 ≤ INT_MAX
  | .setLine k flags exp body =>
    k.1.length + body.length ≤ INT_MAX ∧ (setLine k.1 flags.1 exp.1 body.length).length + 2 ≤ INT_MAX
  | .body .. | .crlf => True

instance (r : Room) (p : Piece) : Decidable (r.Takes p) := by cases p <;> unfold Room.Takes <;> infer_instance

def Fits (r : Room) : List Piece → Prop
  | [] => True
  | p :: ps => r.Takes p ∧ Fits (r.next p) ps

instance Fits.decidable : (r : Room) → (ps : List Piece) → Decidable (Fits r ps)
  | _, [] => isTrue trivial
  | r, p :: ps =>
    have := Fits.decidable (r.next p) ps
    inferInstanceAs (Decidable (r.Takes p ∧ Fits (r.next p) ps))

/-! ## One piece -/

/-- What a connection waits for. -/
inductive Phase
  | command
  | value (k : Token) (body : Bytes)
  | crlf

/-- The pieces of valid commands in their order. -/
inductive Next : Phase → Piece → Phase → Prop
  | getLine {k : Token} : k.1 < greatestKey → Next .command (.getLine k) .command
  | setLine {k flags exp : Token} {body : Bytes} : 1 ≤ body.length → body.length ≤ 1024 →
    Next .command (.setLine k flags exp body) (.value k body)
  | body {k : Token} {body : Bytes} : k.1 < greatestKey → body ≠ [] → Next (.value k body) (.body k body) .crlf
  | crlf : Next .crlf .crlf .command

def Follows (ph : Phase) : List Piece → Prop
  | [] => True
  | p :: ps => ∃ ph', Next ph p ph' ∧ Follows ph' ps

/-- A conversation between two pieces. -/
structure Waits (ph : Phase) (r : Room) (c : Conversation) : Prop where
  sized : c.currEntry_.Sized r.cap r.total
  out : c.outputBuf_.readable = []
  state : match ph with
    | .value k body => c.state_ = .kReceiveValue ∧ c.currEntry_.key = k.1 ∧ c.currEntry_.free_ = body.length ∧
      c.currEntry_.valueLen_ = 0
    | _ => c.state_ = .kNewCommand

/-- The store holds the values of the map. -/
structure Agrees (m : MiniMemcached) (map : Bytes → Option Bytes) : Prop where
  sane : m.Sane
  lookup_eq : ∀ k, k < greatestKey → (m.lookup k).map Entry.value = map k

theorem Token.word (k : Token) : Word Conversation.sep k.1 :=
  ⟨k.2.1, fun c hc => beq_eq_false_iff_ne.2 (k.2.2 c hc).1⟩

theorem Token.no_cr (k : Token) : 13 ∉ k.1 := fun h => (k.2.2 13 h).2.1 rfl

theorem word_decimal {n : ℕ} (h : 0 < n) : Word Conversation.sep (decimal n) := by
  refine ⟨decimal_ne_nil h, ?_⟩
  intro c hc
  have hd := isdigit_iff.1 (isdigit_decimal c hc)
  refine beq_eq_false_iff_ne.2 ?_
  intro he
  rw [he] at hd
  exact absurd hd.1 (by decide)

/-- Neither a carriage return nor a line feed is in a numeral. -/
theorem decimal_notMem {n : ℕ} {x : UInt8} (hx : x = 13 ∨ x = 10) : x ∉ decimal n := by
  intro h
  have hd := isdigit_decimal x h
  rcases hx with rfl | rfl
  · exact absurd hd (by decide)
  · exact absurd hd (by decide)

theorem no_cr_getLine (k : Token) : 13 ∉ getLine k.1 := by
  unfold getLine
  simp only [List.mem_append, List.mem_cons]
  rintro (h | h | h)
  · exact absurd h (by decide)
  · exact absurd h (by decide)
  · exact k.no_cr h

theorem Token.notMem (k : Token) {x : UInt8} (hx : x = 13 ∨ x = 10) : x ∉ k.1 := by
  intro h
  rcases hx with rfl | rfl
  · exact (k.2.2 13 h).2.1 rfl
  · exact (k.2.2 10 h).2.2 rfl

theorem setLine_notMem (k flags exp : Token) (n : ℕ) {x : UInt8} (hx : x = 13 ∨ x = 10) :
    x ∉ setLine k.1 flags.1 exp.1 n := by
  have hset : x ∉ bytes "set" := by rcases hx with rfl | rfl <;> decide
  have hspace : x ≠ 32 := by rcases hx with rfl | rfl <;> decide
  unfold setLine
  simp only [List.mem_append, List.mem_cons]
  rintro (h | h | h | h | h | h | h | h | h)
  · exact hset h
  · exact hspace h
  · exact k.notMem hx h
  · exact hspace h
  · exact flags.notMem hx h
  · exact hspace h
  · exact exp.notMem hx h
  · exact hspace h
  · exact decimal_notMem hx h

theorem no_cr_setLine (k flags exp : Token) (n : ℕ) : 13 ∉ setLine k.1 flags.1 exp.1 n :=
  setLine_notMem k flags exp n (.inl rfl)

namespace Session

open Conversation

variable {s : Session} {l rest : Bytes}

theorem found_line (hl : 13 ∉ l) (hb : s.buf.readable = l ++ (kCRLF ++ rest)) : s.found = some (l.length, 2) := by
  unfold found Buffer.findCRLF
  rw [hb, Buffer.searchCRLF_append hl]

theorem readable_line (hb : s.buf.readable = l ++ (kCRLF ++ rest)) :
    (s.buf.retrieve (l.length + 2)).readable = rest := by
  rw [Buffer.readable_retrieve, hb, ← List.drop_drop, List.drop_left]
  rfl

/-- A line that ends with CRLF is one pass. -/
theorem pass_line (hs : s.conv.state_ = .kNewCommand) (hl : 13 ∉ l) (hne : l ≠ [])
    (hb : s.buf.readable = l ++ (kCRLF ++ rest)) (hlen : l.length + 2 ≤ INT_MAX) :
    ∃ w, ∀ c, s.conv.handle_command s.server_ l (13 :: w) = .ok c →
      s.pass = .ok (some ⟨s.server_, c, s.buf.retrieve (l.length + 2)⟩) := by
  have hlt : l.length + 2 < 2 ^ 31 := le_INT_MAX.1 hlen
  have hpos := List.length_pos_of_ne_nil hne
  have hto : toInt l.length = l.length := toInt_of_le (by omega)
  obtain ⟨w, hw⟩ : ∃ w, s.buf.peek = s.buf.readable ++ w := ⟨_, s.buf.peek_eq⟩
  refine ⟨10 :: (rest ++ w), ?_⟩
  intro c hc
  rw [pass_newCommand hs (by rw [hb]; exact fun he => hne (List.append_eq_nil_iff.1 he).1), found_line hl hb]
  dsimp only
  unfold line
  rw [hto]
  dsimp only
  rw [if_neg (by omega), if_pos (by omega), Int.toNat_natCast, hw, hb, List.take_left, List.append_assoc,
    List.drop_left]
  rw [show kCRLF ++ rest ++ w = 13 :: 10 :: (rest ++ w) from rfl, hc, ok_bind, int_ok (by omega) (by omega), ok_bind]
  have hsize : toSize ((l.length : ℤ) + (2 : ℕ)) = l.length + 2 := toSize_natCast (n := l.length + 2) (by omega)
  rw [hsize]
  rfl

theorem pass_crlf (hs : s.conv.state_ = .kNewCommand) (hb : s.buf.readable = kCRLF ++ rest) :
    s.pass = .ok (some ⟨s.server_, s.conv, s.buf.retrieve 2⟩) := by
  have hto : toInt 0 = 0 := toInt_of_le (Nat.zero_le _)
  rw [pass_newCommand hs (by rw [hb]; exact nofun), found_line (l := []) nofun hb]
  dsimp only [List.length_nil]
  unfold line
  rw [hto]
  dsimp only
  rw [if_neg (by decide), if_neg (by decide), ok_bind, int_ok (by decide) (by decide), ok_bind]
  have hsize : toSize ((0 : ℤ) + (2 : ℕ)) = 2 := toSize_natCast (n := 2) (by decide)
  rw [hsize]
  rfl

theorem readable_copyToBuffer (e : Entry) (b : Buffer) :
    (e.copyToBuffer b).readable = b.readable ++ (bytes "VALUE " ++ e.key ++ bytes "\r\n" ++ e.value) := by
  unfold Entry.copyToBuffer
  simp only [Buffer.readable_append, List.append_assoc]

/-- The reply to a `get` is that of the map. -/
theorem getKey_eq {c : Conversation} {m : MiniMemcached} {map : Bytes → Option Bytes} {r : Room} {k : Bytes}
    (hs : c.currEntry_.Sized r.cap r.total) (hout : c.outputBuf_.readable = []) (hm : Agrees m map)
    (hk : k < greatestKey) (hle : k.length ≤ r.cap) : ∃ c', c.getKey m k = .ok c' ∧
      c'.currEntry_.Sized r.cap r.total ∧ c'.outputBuf_.readable = [] ∧ c'.state_ = c.state_ ∧
      c'.sent = c.sent ++ getReply k (map k) := by
  obtain ⟨e, he, hs', hkey, hkeyed, -⟩ := Entry.resetKey_ok hs hle
  have hget := MiniMemcached.get_eq hm.sane hkeyed (hkey ▸ hk.le)
  rw [hkey] at hget
  have hlook := hm.lookup_eq k hk
  unfold getKey
  rw [he, ok_bind, hget, ok_bind]
  refine ⟨_, rfl, hs', Buffer.readable_retrieveAll _, rfl, ?_⟩
  dsimp only
  rw [Buffer.readable_append, ← hlook]
  cases hl : m.lookup k with
  | none =>
    dsimp only [Option.map_none, getReply]
    rw [hout, List.nil_append]
  | some e =>
    dsimp only [Option.map_some, getReply]
    rw [readable_copyToBuffer, hout, List.nil_append, MiniMemcached.key_of_lookup hl]

/-- A value is taken off the buffer and stored. -/
theorem receiveValue_stores {r : Room} {k body : Bytes} (hs : s.conv.currEntry_.Sized r.cap r.total)
    (hkey : s.conv.currEntry_.key = k) (hfree : s.conv.currEntry_.free_ = body.length)
    (hval : s.conv.currEntry_.valueLen_ = 0) (hm : s.server_.Sane) (hk : k ≤ greatestKey)
    (hb : s.buf.readable = body ++ rest) : ∃ s', s.receiveValue = .ok s' ∧
      s'.conv.currEntry_.Sized r.cap r.total ∧ s'.conv.outputBuf_ = s.conv.outputBuf_ ∧
      s'.conv.state_ = .kNewCommand ∧ s'.conv.sent = s.conv.sent ++ bytes "STORED\r\n" ∧
      s'.buf.readable = rest ∧ s'.server_.Sane ∧ ∀ x, (s'.server_.lookup x).map Entry.value =
        if x = k then some body else (s.server_.lookup x).map Entry.value := by
  have hcap := hs.cap_le
  have hbody : body.length < 2 ^ 31 := by
    have h1 := hs.total_eq
    have h2 := hs.total_le
    have h3 := hs.key_nonneg
    have hc : r.cap < 2 ^ 31 := le_INT_MAX.1 hcap
    omega
  have hnum : s.numBytes = body.length := by
    have hfree' : s.conv.currEntry_.numFree = body.length := by
      unfold Entry.numFree
      rw [hfree]
      exact toSize_natCast (by omega)
    unfold numBytes
    rw [hfree', ← Buffer.length_readable, hb, List.length_append]
    exact Nat.min_eq_right (Nat.le_add_right _ _)
  have hn : (body.length : ℤ) ≤ s.conv.currEntry_.free_ := hfree.ge
  have hd : body.length ≤ s.buf.readable.length := by
    rw [hb, List.length_append]
    exact Nat.le_add_right _ _
  obtain ⟨e₁, h₁, hs₁, hkey₁, hvalue₁, hfree₁⟩ := Entry.append_ok hs hn hd
  obtain ⟨e₂, h₂, hkey₂, hvalue₂, hkeyed₂⟩ := Entry.clone_ok hs₁ (by omega)
  obtain ⟨e₃, h₃, hs₃, -⟩ := Entry.reset_ok hs₁
  have hkey' : e₂.key = k := hkey₂.trans (hkey₁.trans hkey)
  have hvalue' : e₂.value = body := by
    rw [hvalue₂, hvalue₁, Entry.value_eq_nil hval, List.nil_append, hb, List.take_left]
  obtain ⟨m', hset, hsane, hlook⟩ := MiniMemcached.set_eq hm hkeyed₂ (hkey' ▸ hk)
  unfold receiveValue resetRequest
  dsimp only
  rw [hnum, h₁, ok_bind, h₂, ok_bind, hset, ok_bind, h₃, ok_bind]
  refine ⟨_, rfl, hs₃, rfl, rfl, rfl, ?_, hsane, ?_⟩
  · show (s.buf.retrieve body.length).readable = rest
    rw [Buffer.readable_retrieve, hb, List.drop_left]
  · intro x
    show (m'.lookup x).map Entry.value = _
    rw [hlook, hkey']
    by_cases hxk : x = k
    · rw [if_pos hxk, if_pos hxk, Option.map_some, hvalue']
    · rw [if_neg hxk, if_neg hxk]

/-- The store that holds the values of a map does so with the new value. -/
theorem receiveValue_eq {map : Bytes → Option Bytes} {r : Room} {k body : Bytes}
    (hs : s.conv.currEntry_.Sized r.cap r.total) (hkey : s.conv.currEntry_.key = k)
    (hfree : s.conv.currEntry_.free_ = body.length) (hval : s.conv.currEntry_.valueLen_ = 0) (hm : Agrees s.server_ map)
    (hk : k < greatestKey) (hb : s.buf.readable = body ++ rest) : ∃ s', s.receiveValue = .ok s' ∧
      s'.conv.currEntry_.Sized r.cap r.total ∧ s'.conv.outputBuf_ = s.conv.outputBuf_ ∧
      s'.conv.state_ = .kNewCommand ∧ s'.conv.sent = s.conv.sent ++ bytes "STORED\r\n" ∧
      s'.buf.readable = rest ∧ Agrees s'.server_ (Function.update map k (some body)) := by
  obtain ⟨s', h, hs', hout, hst, hsent, hrest, hsane, hlook⟩ :=
    receiveValue_stores hs hkey hfree hval hm.sane hk.le hb
  refine ⟨s', h, hs', hout, hst, hsent, hrest, hsane, ?_⟩
  intro x hx
  rw [hlook]
  by_cases hxk : x = k
  · rw [if_pos hxk, hxk, Function.update_self]
  · rw [if_neg hxk, Function.update_of_ne hxk]
    exact hm.lookup_eq x hx

/-- **One piece** is one pass, which replies and stores as the reference does. -/
theorem pass_piece {ph ph' : Phase} {r : Room} {p : Piece} {map : Bytes → Option Bytes} (hw : Waits ph r s.conv)
    (hm : Agrees s.server_ map) (hn : Next ph p ph') (ht : r.Takes p) (hb : s.buf.readable = p.bytes ++ rest) :
    ∃ s', s.pass = .ok (some s') ∧ Waits ph' (r.next p) s'.conv ∧ Agrees s'.server_ (p.effect map).1 ∧
      s'.buf.readable = rest ∧ s'.conv.sent = s.conv.sent ++ (p.effect map).2 := by
  obtain ⟨hsized, hout, hstate⟩ := hw
  cases hn with
  | @getLine k hk =>
    obtain ⟨hle, hlen⟩ := ht
    rw [Piece.bytes, List.append_assoc] at hb
    have hne : Minimemcached.getLine k.1 ≠ [] := nofun
    obtain ⟨w, hw⟩ := pass_line hstate (no_cr_getLine k) hne hb hlen
    obtain ⟨cmd, hcmd⟩ := s.conv.handle_command_get (request_get k.word)
    obtain ⟨c, hc, hsz, hout', hst, hsent⟩ := getKey_eq (c := { s.conv with command_ := cmd }) hsized hout hm hk hle
    exact ⟨_, hw c ((hcmd _ _).trans hc), ⟨hsz, hout', hst.trans hstate⟩, hm, readable_line hb, hsent⟩
  | @setLine k flags exp body hpos hmax =>
    obtain ⟨hle, hlen⟩ := ht
    rw [Piece.bytes, List.append_assoc] at hb
    have hne : Minimemcached.setLine k.1 flags.1 exp.1 body.length ≠ [] := nofun
    obtain ⟨w, hw⟩ := pass_line hstate (no_cr_setLine k flags exp body.length) hne hb hlen
    obtain ⟨cmd, hcmd⟩ :=
      s.conv.handle_command_set (request_set k.word flags.word exp.word (word_decimal hpos))
    obtain ⟨e, he, hsz, hkey, hfree, hval⟩ := Entry.resetKeyValue_ok hsized hle
    have hn : atoi (decimal body.length ++ 13 :: w) = .ok body.length :=
      atoi_decimal hpos (Nat.le_trans (Nat.le_add_left _ _) hle) rfl w
    have hset : setKey { s.conv with command_ := cmd } k.1 (decimal body.length ++ 13 :: w) =
        .ok { s.conv with command_ := cmd, currEntry_ := e, state_ := .kReceiveValue } := by
      unfold setKey
      rw [hn, ok_bind, if_neg (by omega), he]
      rfl
    refine ⟨_, hw _ ((hcmd _ _).trans hset), ⟨hsz, hout, rfl, hkey, hfree, hval⟩, hm, readable_line hb, ?_⟩
    exact (List.append_nil _).symm
  | @body k body hk hne =>
    obtain ⟨hst, hkey, hfree, hval⟩ := hstate
    obtain ⟨s', hs', hsz, hout', hst', hsent, hrest, hagree⟩ := receiveValue_eq hsized hkey hfree hval hm hk hb
    have hread : s.buf.readable ≠ [] := by
      rw [hb]
      exact fun he => hne (List.append_eq_nil_iff.1 he).1
    exact ⟨s', by rw [pass_receiveValue hst hread, hs']; rfl, ⟨hsz, hout' ▸ hout, hst'⟩, hagree, hrest, hsent⟩
  | crlf =>
    refine ⟨_, pass_crlf hstate hb, ⟨hsized, hout, hstate⟩, hm, ?_, (List.append_nil _).symm⟩
    show (s.buf.retrieve 2).readable = rest
    rw [Buffer.readable_retrieve, hb]
    rfl

variable {ι : Type} [DecidableEq ι]

/-- A chunk of pieces is handled as a whole; `qs` are the pieces that come later. -/
theorem msgCb_pieces {ph : Phase} {r : Room} {ps qs : List Piece} {R : Ref ι} {i : ι} (hw : Waits ph r s.conv)
    (hm : Agrees s.server_ R.map) (hf : Follows ph (ps ++ qs)) (hfit : Fits r (ps ++ qs))
    (hb : s.buf.readable = ps.flatMap Piece.bytes) (hsent : s.conv.sent = R.replies i) : ∃ s' ph' r',
      s.msgCb = .ok s' ∧ Waits ph' r' s'.conv ∧ Agrees s'.server_ (R.chunk i ps).map ∧ Follows ph' qs ∧ Fits r' qs ∧
      s'.buf.readable = [] ∧ s'.conv.sent = (R.chunk i ps).replies i := by
  suffices h : ∃ s' ph' r', Loop.Visits pass s s' ∧ Waits ph' r' s'.conv ∧ Agrees s'.server_ (R.chunk i ps).map ∧
      Follows ph' qs ∧ Fits r' qs ∧ s'.buf.readable = [] ∧ s'.conv.sent = (R.chunk i ps).replies i by
    obtain ⟨s', ph', r', hv, hw', hm', hf', hfit', hempty, hsent'⟩ := h
    exact ⟨s', ph', r', s.ends_msgCb.det (hv.ends (.leave (pass_empty hempty))), hw', hm', hf', hfit', hempty, hsent'⟩
  induction ps generalizing s ph r R with
  | nil => exact ⟨s, ph, r, .here s, hw, hm, hf, hfit, hb, hsent⟩
  | cons p ps ih =>
    obtain ⟨ph₁, hnext, hf₁⟩ := hf
    obtain ⟨htakes, hfit₁⟩ := hfit
    obtain ⟨s₁, hp, hw₁, hm₁, hrest, hsent₁⟩ := pass_piece hw hm hnext htakes hb
    have hreplies : s₁.conv.sent = (R.piece i p).replies i := by
      rw [hsent₁, hsent]
      exact (Function.update_self i _ R.replies).symm
    obtain ⟨s', ph', r', hv, h⟩ := ih (R := R.piece i p) hw₁ hm₁ hf₁ hfit₁ hrest hreplies
    exact ⟨s', ph', r', .pass hp hv, h⟩

end Session

variable {ι : Type} [DecidableEq ι]

theorem Ref.chunk_replies {R : Ref ι} {i j : ι} (h : j ≠ i) (ps : List Piece) :
    (R.chunk i ps).replies j = R.replies j := by
  induction ps generalizing R with
  | nil => rfl
  | cons p ps ih => exact (ih (R := R.piece i p)).trans (Function.update_of_ne h _ _)

theorem own_cons (i : ι) (x : ι × List Piece) (sched : List (ι × List Piece)) :
    own i (x :: sched) = if x.1 = i then x.2 ++ own i sched else own i sched := by
  unfold own
  rw [List.filter_cons]
  by_cases h : x.1 = i
  · rw [if_pos (decide_eq_true h), if_pos h, List.flatMap_cons]
  · rw [if_neg (by rw [decide_eq_true_iff]; exact h), if_neg h]

/-- A connection between two chunks, with the pieces that are still to come. -/
def Ready (x : Conversation × Buffer) (ps : List Piece) : Prop :=
  ∃ ph r, Waits ph r x.1 ∧ Follows ph ps ∧ Fits r ps ∧ x.2.readable = []

/-- The server between two chunks. -/
structure Server.Serves (S : Server ι) (R : Ref ι) (sched : List (ι × List Piece)) : Prop where
  agrees : Agrees S.server_ R.map
  ready : ∀ i, Ready (S.conns i) (own i sched)
  sent : ∀ i, S.sent i = R.replies i

/-- The bytes of a schedule. -/
def wire (sched : List (ι × List Piece)) : List (ι × Bytes) := sched.map fun x => (x.1, x.2.flatMap Piece.bytes)

theorem Server.Serves.deliver {S : Server ι} {R : Ref ι} {x : ι × List Piece} {sched : List (ι × List Piece)}
    (h : S.Serves R (x :: sched)) : ∃ S', S.deliver x.1 (x.2.flatMap Piece.bytes) = .ok S' ∧
      S'.Serves (R.chunk x.1 x.2) sched := by
  obtain ⟨i, ps⟩ := x
  obtain ⟨ph, r, hw, hf, hfit, hempty⟩ := h.ready i
  rw [own_cons, if_pos rfl] at hf hfit
  obtain ⟨s, ph', r', hs, hw', hm', hf', hfit', hempty', hsent⟩ := Session.msgCb_pieces
    (s := ⟨S.server_, (S.conns i).1, (S.conns i).2.append (ps.flatMap Piece.bytes)⟩) (R := R) hw h.agrees hf hfit
    (by rw [Buffer.readable_append, hempty, List.nil_append]) (h.sent i)
  refine ⟨⟨s.server_, Function.update S.conns i (s.conv, s.buf)⟩, ?_, hm', ?_, ?_⟩
  · unfold Server.deliver Session.deliver
    dsimp only
    rw [hs]
    rfl
  · intro j
    show Ready (Function.update S.conns i (s.conv, s.buf) j) (own j sched)
    by_cases hj : j = i
    · rw [hj, Function.update_self]
      exact ⟨ph', r', hw', hf', hfit', hempty'⟩
    · have hready := h.ready j
      rw [own_cons, if_neg (Ne.symm hj)] at hready
      rw [Function.update_of_ne hj]
      exact hready
  · intro j
    show (Function.update S.conns i (s.conv, s.buf) j).1.sent = _
    by_cases hj : j = i
    · rw [hj, Function.update_self]
      exact hsent
    · rw [Function.update_of_ne hj, Ref.chunk_replies hj]
      exact h.sent j

theorem Server.Serves.run {S : Server ι} {R : Ref ι} {sched : List (ι × List Piece)} (h : S.Serves R sched) :
    (S.run (wire sched)).map Server.sent = .ok (R.run sched).replies := by
  induction sched generalizing S R with
  | nil => exact congrArg Except.ok (funext h.sent)
  | cons x sched ih =>
    obtain ⟨S', hdel, h'⟩ := h.deliver
    show (S.deliver x.1 (x.2.flatMap Piece.bytes) >>= fun S => S.run (wire sched)).map Server.sent = _
    rw [hdel]
    exact ih h'

/-- The pieces of valid commands, cut off anywhere. -/
theorem follows_of_prefix {cmds : List Cmd} {ps : List Piece} (hv : ∀ c ∈ cmds, c.Valid)
    (hp : ps <+: cmds.flatMap Cmd.pieces) : Follows .command ps := by
  induction cmds generalizing ps with
  | nil => rw [List.prefix_nil.1 hp]; trivial
  | cons c cmds ih =>
    have hc := hv c List.mem_cons_self
    have ih (qs : List Piece) (hq : qs <+: cmds.flatMap Cmd.pieces) : Follows .command qs :=
      ih (fun d hd => hv d (List.mem_cons_of_mem _ hd)) hq
    rw [List.flatMap_cons] at hp
    cases c with
    | get k =>
      rcases List.prefix_cons_iff.1 hp with rfl | ⟨qs, rfl, hq⟩
      · trivial
      · exact ⟨.command, .getLine hc, ih qs hq⟩
    | set k flags exp body =>
      obtain ⟨hk, hpos, hmax⟩ := hc
      rcases List.prefix_cons_iff.1 hp with rfl | ⟨qs, rfl, hq⟩
      · trivial
      refine ⟨.value k body, .setLine hpos hmax, ?_⟩
      rcases List.prefix_cons_iff.1 hq with rfl | ⟨rs, rfl, hr⟩
      · trivial
      refine ⟨.crlf, .body hk (List.ne_nil_of_length_pos hpos), ?_⟩
      rcases List.prefix_cons_iff.1 hr with rfl | ⟨us, rfl, hu⟩
      · trivial
      exact ⟨.command, .crlf, ih us hu⟩

theorem serves_init {sched : List (ι × List Piece)} (hf : ∀ i, Follows .command (own i sched))
    (hfit : ∀ i, Fits .init (own i sched)) :
    ∃ S : Server ι, Server.init = .ok S ∧ S.Serves ⟨fun _ => none, fun _ => []⟩ sched := by
  obtain ⟨g, hg, hkey⟩ := MiniMemcached.new_ok
  obtain ⟨e, he, hs, -⟩ := Entry.new_ok (bytes "Invalid") 128 (by decide)
  have hconv : Conversation.new = .ok ⟨e, [], .kNewCommand, .new kInitialSize, []⟩ := by
    unfold Conversation.new
    rw [show Entry.new (bytes "Invalid") 128 = _ from he]
    rfl
  refine ⟨⟨⟨fun _ => .build g⟩, fun _ => (⟨e, [], .kNewCommand, .new kInitialSize, []⟩, .new kInitialSize)⟩, ?_,
    ⟨MiniMemcached.sane_build hkey, fun k hk => ?_⟩, fun i => ?_, fun i => rfl⟩
  · unfold Server.init
    rw [hg, hconv]
    rfl
  · rw [MiniMemcached.lookup_build hkey, if_neg hk.ne']
    rfl
  · exact ⟨.command, .init, ⟨hs, Buffer.readable_new _, rfl⟩, hf i, hfit i, Buffer.readable_new _⟩

/-- **The server.** For any connections whose chunks are pieces of valid commands, delivered in any order, the replies
on every connection are those of the reference, where the key of every `get` fits into the scratch entry. -/
theorem serves {cmds : ι → List Cmd} {sched : List (ι × List Piece)} (hv : ∀ i, ∀ c ∈ cmds i, c.Valid)
    (hp : ∀ i, own i sched <+: (cmds i).flatMap Cmd.pieces) (hfit : ∀ i, Fits .init (own i sched)) :
    (Server.init >>= fun S => S.run (wire sched)).map Server.sent =
      .ok (Ref.run ⟨fun _ => none, fun _ => []⟩ sched).replies := by
  obtain ⟨S, hS, h⟩ := serves_init (fun i => follows_of_prefix (hv i) (hp i)) hfit
  rw [hS, ok_bind]
  exact h.run

/-- The tokens of one byte each, and a key that is longer than the block of a new scratch entry. -/
def tokenA : Token := ⟨[97], by unfold MiniMemcached.Admitted; decide +kernel⟩

def tokenZero : Token := ⟨[48], by unfold MiniMemcached.Admitted; decide +kernel⟩

def longKey : Token := ⟨List.replicate 200 97, by unfold MiniMemcached.Admitted; decide +kernel⟩

/-- One connection sets a key, the other gets it before and after the body has arrived. -/
def sampleCmds : Bool → List Cmd
  | false => [.set tokenA tokenZero tokenZero kCRLF]
  | true => [.get tokenA, .get tokenA]

def sampleSched : List (Bool × List Piece) :=
  [(false, [.setLine tokenA tokenZero tokenZero kCRLF]), (true, [.getLine tokenA]), (false, [.body tokenA kCRLF]),
    (true, [.getLine tokenA]), (false, [.crlf])]

theorem serves_two : (Server.init >>= fun S : Server Bool => S.run (wire sampleSched)).map Server.sent =
    .ok (Ref.run ⟨fun _ => none, fun _ => []⟩ sampleSched).replies := by
  have hv : ∀ i, ∀ c ∈ sampleCmds i, c.Valid := by decide +kernel
  exact serves hv (by decide +kernel) (by decide +kernel)

theorem not_serves_longKey : ¬∀ (ι : Type) [DecidableEq ι] (cmds : ι → List Cmd) (sched : List (ι × List Piece)),
    (∀ i, ∀ c ∈ cmds i, c.Valid) → (∀ i, own i sched <+: (cmds i).flatMap Cmd.pieces) →
      (Server.init >>= fun S => S.run (wire sched)).map Server.sent =
        .ok (Ref.run ⟨fun _ => none, fun _ => []⟩ sched).replies := by
  intro h
  have hfault : (Server.init >>= fun S : Server Unit =>
      S.run (wire [((), [.getLine longKey])])).toOption.isNone = true := by decide +kernel
  have hok := h Unit (fun _ => [.get longKey]) [((), [.getLine longKey])] (fun _ => by decide +kernel)
    (fun ⟨⟩ => by decide +kernel)
  obtain ⟨S, hS, -⟩ := map_eq_ok.1 hok
  rw [hS] at hfault
  cases hfault

end Libeva.Minimemcached
