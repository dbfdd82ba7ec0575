import Libeva.Minimemcached.Framing
import Mathlib.Data.List.Forall2

/-!
# One reply to every command

The stream of a connection consists of command lines, where the line of a `set` may be followed by the value that it
announces. A `get` without a key, a `set` with too few tokens and a `set` with a byte count out of range are not replied
to.

* `Item`: what one pass of `msgCb` takes; `Order`: a command with its items.
* `Turns`: the passes of `msgCb` with what each takes and what it sends.
* `Paired`: every item that completes a command is sent one reply, and no other item is.
* `Item.Takes`, `Item.Fits`: a line that is replied to, with a key that fits; `paired_iff`.
-/

namespace Libeva.Minimemcached

open Net StringTokenizer

/-! ## Lines without a key or a value -/

namespace Conversation

/-- The command of a line. -/
def verb (req : Bytes) : Bytes :=
  match hasMoreToken ⟨req, [], sep⟩ with
  | (false, _) => []
  | (true, tokenizer) => tokenizer.nextToken.1.chars

variable {c c' : Conversation} {server : MiniMemcached} {t : StringTokenizer} {req after l k d : Bytes}

theorem sent_testLoop (n : ℕ) : ∃ r, (testLoop n t c).sent = c.sent ++ r := by
  induction n generalizing t c with
  | zero => exact ⟨[], (List.append_nil _).symm⟩
  | succ n ih =>
    unfold testLoop
    rcases t.hasMoreToken with ⟨_ | _, t⟩
    · exact ⟨[], (List.append_nil _).symm⟩
    · obtain ⟨r, hr⟩ := ih (t := t.nextToken.2) (c := (c.reply t.nextToken.1.chars).reply (bytes " "))
      refine ⟨t.nextToken.1.chars ++ (bytes " " ++ r), ?_⟩
      dsimp only
      rw [hr]
      unfold reply
      simp only [List.append_assoc]

/-- A handler that is given a `get` or `set` that lacks a token is silent, and all others reply. -/
theorem dispatch_sent (ho : requestOf c.command_ t = .other) (h : c.dispatch server (t.push after) = .ok c') :
    ∃ r, c'.sent = c.sent ++ r ∧ (r = [] ↔ c.command_ = bytes "get" ∨ c.command_ = bytes "set") := by
  unfold dispatch at h
  unfold requestOf at ho
  split at h
  · rename_i htest
    cases h
    obtain ⟨r, hr⟩ := sent_testLoop (t := t.push after) (c := c) (t.push after).rest.length
    refine ⟨r ++ bytes "\r\n", ?_, iff_of_false ?_ ?_⟩
    · show (testLoop _ _ c).sent ++ bytes "\r\n" = _
      rw [hr, List.append_assoc]
    · exact List.append_ne_nil_of_right_ne_nil _ (by decide)
    · rw [htest]
      decide
  · split at h
    · rename_i hget
      rw [if_pos hget] at ho
      split at ho
      · rename_i hk
        unfold GetHandler at h
        rw [nextToken_push] at h
        dsimp only at h
        rw [StringView.chars_push, if_pos hk] at h
        cases h
        exact ⟨[], (List.append_nil _).symm, iff_of_true rfl (.inl hget)⟩
      · cases ho
    · rename_i hget
      rw [if_neg hget] at ho
      split at h
      · rename_i hset
        rw [if_pos hset] at ho
        unfold SetHandler at h
        rw [setTokens_push] at h
        cases hp : setTokens t with
        | none =>
          rw [hp] at h
          cases h
          exact ⟨[], (List.append_nil _).symm, iff_of_true rfl (.inr hset)⟩
        | some p =>
          rw [hp] at ho
          cases ho
      · rename_i hset
        cases h
        exact ⟨_, rfl, iff_of_false (by decide) (not_or.2 ⟨hget, hset⟩)⟩

/-- What is sent for a line that asks for no key. -/
theorem handle_command_sent (hr : request req = .other) (h : c.handle_command server req after = .ok c') :
    ∃ r, c'.sent = c.sent ++ r ∧ (r = [] ↔ verb req = bytes "get" ∨ verb req = bytes "set") := by
  unfold request at hr
  unfold handle_command at h
  unfold verb
  rcases hm : hasMoreToken ⟨req, [], sep⟩ with ⟨more, t⟩
  have hpush : hasMoreToken ⟨req, after, sep⟩ = (more, t.push after) := by
    rw [show (⟨req, after, sep⟩ : StringTokenizer) = push ⟨req, [], sep⟩ after from rfl, hasMoreToken_push, hm]
  rw [hpush] at h
  rw [hm] at hr
  cases more with
  | false =>
    cases h
    refine ⟨_, rfl, iff_of_false (by decide) ?_⟩
    dsimp only
    decide
  | true =>
    dsimp only at h hr ⊢
    rw [nextToken_push] at h
    dsimp only at h
    rw [StringView.chars_push] at h
    exact dispatch_sent (c := { c with command_ := t.nextToken.1.chars }) hr h

theorem getSent_ne_nil (entry : Option Entry) : getSent entry ≠ [] := by
  unfold getSent getOutput
  rw [Buffer.readable_append]
  exact List.append_ne_nil_of_right_ne_nil _ (by decide)

/-- A key that fits and that the store can look for is replied to. -/
theorem getKey_replies {m : MiniMemcached} {r : Room} (hs : c.currEntry_.Sized r.cap r.total)
    (hout : c.outputBuf_.readable = []) (hm : m.Sane) (hk : k ≤ greatestKey) (hle : k.length ≤ r.cap) :
    ∃ c', c.getKey m k = .ok c' ∧ c'.currEntry_.Sized r.cap r.total ∧ c'.outputBuf_.readable = [] ∧
      c'.state_ = c.state_ ∧ ∃ y, c'.sent = c.sent ++ y ∧ y ≠ [] := by
  obtain ⟨e, he, hs', hkey, hkeyed, -⟩ := Entry.resetKey_ok hs hle
  have hget := MiniMemcached.get_eq hm hkeyed (hkey ▸ hk)
  have hex : ∃ c', c.getKey m k = .ok c' := by
    unfold getKey
    rw [he, ok_bind, hget]
    exact ⟨_, rfl⟩
  obtain ⟨c', hc⟩ := hex
  obtain ⟨hout', _, entry, -, -, hsent⟩ := getKey_sent hc hout
  obtain ⟨e', _, he', -, hentry, hstate⟩ := Session.getKey_ok hc
  rw [he] at he'
  cases he'
  exact ⟨c', hc, hentry ▸ hs', hout', hstate, _, hsent, getSent_ne_nil entry⟩

/-- A `get` that returns has a key that fits and that the store can look for. -/
theorem le_of_getKey {m : MiniMemcached} {r : Room} (hs : c.currEntry_.Sized r.cap r.total) (hm : m.Sane)
    (hlen : k.length ≤ INT_MAX) (h : c.getKey m k = .ok c') : k.length ≤ r.cap ∧ k ≤ greatestKey := by
  obtain ⟨e, entry, he, hget, -, -⟩ := Session.getKey_ok h
  have hle := Entry.le_of_resetKey hs hlen he
  obtain ⟨e', he', -, hkey, -, -⟩ := Entry.resetKey_ok hs hle
  rw [he] at he'
  cases he'
  refine ⟨hle, ?_⟩
  by_contra hgt
  rw [MiniMemcached.get_above hm (by rw [hkey]; exact lt_of_not_ge hgt)] at hget
  cases hget

theorem setKey_sent (h : c.setKey k d = .ok c') : c'.sent = c.sent := by
  obtain ⟨n, -, ⟨-, rfl⟩ | ⟨-, e, -, rfl⟩⟩ := Session.setKey_ok h
  · rfl
  · rfl

end Conversation

/-! ## The stream -/

/-- What one pass takes: a line that is a command, the line of a `set` whose value follows, that value, or an empty
line. -/
inductive Item
  | reply (l : Bytes)
  | set (l k : Bytes) (n : ℕ)
  | value (k v : Bytes)
  | crlf
  deriving DecidableEq

def Item.bytes : Item → Bytes
  | .reply l | .set l _ _ => l ++ kCRLF
  | .value _ v => v
  | .crlf => kCRLF

/-- The items with which a command is complete. -/
def Item.replies : Item → Bool
  | .reply _ | .value .. => true
  | .set .. | .crlf => false

/-- A command line, or the line of a `set` with its value, which may be followed by CRLF. -/
inductive Order
  | line (l : Bytes)
  | store (l k v : Bytes) (crlf : Bool)

def Order.items : Order → List Item
  | .line l => [.reply l]
  | .store l k v crlf => .set l k v.length :: .value k v :: if crlf then [.crlf] else []

/-- The line of a `set` with the key `k` and a byte count of `n`. -/
def Announces (l k : Bytes) (n : ℕ) : Prop :=
  1 ≤ n ∧ n ≤ 1024 ∧ ∃ count, Conversation.request l = .set k count ∧ atoi (count ++ kCRLF) = .ok n

/-- No line is empty, and a value is as long as its line announces. -/
def Order.Complete : Order → Prop
  | .line l => l ≠ [] ∧ 13 ∉ l
  | .store l k v _ => 13 ∉ l ∧ Announces l k v.length

/-- What a connection waits for. -/
inductive Stage
  | command
  | value (k : Bytes) (n : ℕ)

namespace Item

/-- The items in their order. -/
inductive Next : Stage → Item → Stage → Prop
  | reply {l : Bytes} : l ≠ [] → 13 ∉ l → Next .command (.reply l) .command
  | set {l k : Bytes} {n : ℕ} : 13 ∉ l → Announces l k n → Next .command (.set l k n) (.value k n)
  | value {k v : Bytes} : v ≠ [] → Next (.value k v.length) (.value k v) .command
  | crlf : Next .command .crlf .command

def Follows (st : Stage) : List Item → Prop
  | [] => True
  | i :: is => ∃ st', Next st i st' ∧ Follows st' is

def room (r : Room) : Item → Room
  | .set _ k n => r.grow (k.length + n)
  | .reply _ | .value .. | .crlf => r

/-- A line that is replied to: its key fits into the scratch entry and is not above the one that the store starts with,
and a `get` has a key. -/
def Replied (r : Room) (l : Bytes) : Prop :=
  match Conversation.request l with
  | .get k => k.length ≤ r.cap ∧ k ≤ greatestKey
  | .set .. => False
  | .other => ¬(Conversation.verb l = Libeva.bytes "get" ∨ Conversation.verb l = Libeva.bytes "set")

instance (r : Room) (l : Bytes) : Decidable (Replied r l) := by
  unfold Replied
  split <;> infer_instance

/-- The lengths are `int`s. -/
def Takes (r : Room) : Item → Prop
  | .reply l => l.length + 2 ≤ INT_MAX ∧ Replied r l
  | .set l k n => l.length + 2 ≤ INT_MAX ∧ k.length + n ≤ INT_MAX
  | .value k _ => k ≤ greatestKey
  | .crlf => True

instance (r : Room) (i : Item) : Decidable (Takes r i) := by
  unfold Takes
  split <;> infer_instance

def Fits (r : Room) : List Item → Prop
  | [] => True
  | i :: is => Takes r i ∧ Fits (room r i) is

instance Fits.decidable : (r : Room) → (is : List Item) → Decidable (Fits r is)
  | _, [] => isTrue trivial
  | r, i :: is =>
    have := Fits.decidable (room r i) is
    inferInstanceAs (Decidable (Takes r i ∧ Fits (room r i) is))

/-- A pass has taken the item, and has sent something if the item completes a command. -/
def Matches (i : Item) (x : Bytes × Bytes) : Prop := x.1 = i.bytes ∧ (i.replies = true ↔ x.2 ≠ [])

end Item

/-- The passes of `msgCb`: what each of them takes and what it sends. -/
inductive Turns : Session → List (Bytes × Bytes) → Session → Prop
  | leave {s : Session} : s.pass = .ok none → Turns s [] s
  | turn {s s' t : Session} {x y : Bytes} {log : List (Bytes × Bytes)} : s.pass = .ok (some s') →
    s.buf.readable = x ++ s'.buf.readable → s'.conv.sent = s.conv.sent ++ y → Turns s' log t →
    Turns s ((x, y) :: log) t

/-- The turns are those of `msgCb`. -/
theorem Turns.msgCb {s t : Session} {log : List (Bytes × Bytes)} (h : Turns s log t) : s.msgCb = .ok t := by
  suffices he : Loop.Ends Session.pass s (.ok t) from s.ends_msgCb.det he
  induction h with
  | leave hp => exact .leave hp
  | turn hp _ _ _ ih => exact .pass hp ih

/-- Chunks arrive, each with the store as the other connections have left it. -/
inductive Handles : Conversation × Buffer → List (MiniMemcached × Bytes) → List (Bytes × Bytes) → Prop
  | done {x : Conversation × Buffer} : Handles x [] []
  | chunk {c : Conversation} {b : Buffer} {m : MiniMemcached} {data : Bytes} {t : Session}
    {chunks : List (MiniMemcached × Bytes)} {log log' : List (Bytes × Bytes)} : Turns ⟨m, c, b.append data⟩ log t →
    Handles (t.conv, t.buf) chunks log' → Handles (c, b) ((m, data) :: chunks) (log ++ log')

/-- The bytes of the chunks. -/
def Item.wire (chunks : List (MiniMemcached × List Item)) : List (MiniMemcached × Bytes) :=
  chunks.map fun x => (x.1, x.2.flatMap Item.bytes)

/-- The chunks are handled, and every command is replied to, at its last item and not before. -/
def Paired (x : Conversation × Buffer) (chunks : List (MiniMemcached × List Item)) : Prop :=
  ∃ log, Handles x (Item.wire chunks) log ∧ List.Forall₂ Item.Matches (chunks.flatMap Prod.snd) log

/-! ## One item -/

/-- A conversation between two items. -/
structure Stage.Waits (st : Stage) (r : Room) (c : Conversation) : Prop where
  sized : c.currEntry_.Sized r.cap r.total
  out : c.outputBuf_.readable = []
  state : match st with
    | .value k n => c.state_ = .kReceiveValue ∧ c.currEntry_.key = k ∧ c.currEntry_.free_ = n ∧
      c.currEntry_.valueLen_ = 0
    | .command => c.state_ = .kNewCommand

/-- The byte count does not depend on what is behind the line. -/
theorem Announces.atoi_eq {count : Bytes} {n : ℕ} (h : atoi (count ++ kCRLF) = .ok n) (w : Bytes) :
    atoi (count ++ 13 :: w) = .ok n := by
  have hc : ∃ c ∈ count, isspace c = false := by
    by_contra hall
    push Not at hall
    have hdrop : (count ++ kCRLF).dropWhile isspace = [] := by
      rw [List.dropWhile_eq_nil_iff]
      intro c hc
      rcases List.mem_append.1 hc with hc | hc
      · exact Bool.eq_true_of_not_eq_false (hall c hc)
      · obtain rfl | rfl : c = 13 ∨ c = 10 := by simpa [kCRLF] using hc
        · rfl
        · rfl
    unfold atoi strtol at h
    rw [hdrop] at h
    cases h
  rw [atoi_append hc rfl w [10]]
  exact h

namespace Session

open Conversation

variable {s s' : Session} {st st' : Stage} {r : Room} {i : Item} {l k rest y : Bytes} {n : ℕ}

/-- A pass that has taken just the line has had its length as an `int`. -/
theorem line_taken (hs : s.conv.state_ = .kNewCommand) (hl : 13 ∉ l) (hne : l ≠ [])
    (hb : s.buf.readable = l ++ (kCRLF ++ rest)) (hp : s.pass = .ok (some s'))
    (hx : s.buf.readable = l ++ (kCRLF ++ s'.buf.readable)) : l.length + 2 ≤ INT_MAX ∧
      ∃ w, s.conv.handle_command s.server_ l (13 :: w) = .ok s'.conv := by
  obtain ⟨-, ⟨-, n, e, hf, hline⟩ | ⟨hs', -⟩⟩ := pass_cases hp
  · rw [found_line hl hb] at hf
    cases hf
    obtain ⟨hnn, c, rfl, hc⟩ := line_ok hline
    have hle := le_of_line hline
    have hto := toInt_toNat_le l.length
    -- the pass takes as many bytes as the line and its end have
    have hlen : (toInt l.length).toNat = l.length := by
      have h1 := congrArg List.length hx
      have h2 := congrArg List.length hb
      rw [Buffer.readable_retrieve] at h1
      simp only [List.length_append, List.length_drop] at h1 h2
      have h3 : kCRLF.length = 2 := rfl
      omega
    have hint : l.length + 2 ≤ INT_MAX := le_INT_MAX.2 (by omega)
    refine ⟨hint, ?_⟩
    have hpos := List.length_pos_of_ne_nil hne
    rw [if_pos (by omega), hlen] at hc
    obtain ⟨w, hw⟩ : ∃ w, s.buf.peek = s.buf.readable ++ w := ⟨_, s.buf.peek_eq⟩
    rw [hw, hb, List.take_left, List.append_assoc, List.drop_left] at hc
    exact ⟨10 :: (rest ++ w), hc⟩
  · rw [hs] at hs'
    cases hs'

/-- **One item** is one pass, which sends something if the item completes a command. -/
theorem pass_item (hw : st.Waits r s.conv) (hm : s.server_.Sane) (hn : Item.Next st i st') (ht : Item.Takes r i)
    (hb : s.buf.readable = i.bytes ++ rest) : ∃ s' y, s.pass = .ok (some s') ∧ st'.Waits (i.room r) s'.conv ∧
      s'.server_.Sane ∧ s'.buf.readable = rest ∧ s'.conv.sent = s.conv.sent ++ y ∧ (i.replies = true ↔ y ≠ []) := by
  obtain ⟨hsized, hout, hstate⟩ := hw
  cases hn with
  | @reply l hne hl =>
    obtain ⟨hlen, hrep⟩ := ht
    rw [Item.bytes, List.append_assoc] at hb
    obtain ⟨w, hw⟩ := pass_line hstate hl hne hb hlen
    unfold Item.Replied at hrep
    cases hreq : request l with
    | get k =>
      rw [hreq] at hrep
      obtain ⟨cmd, hcmd⟩ := s.conv.handle_command_get hreq
      obtain ⟨c, hc, hsz, hout', hst, y, hsent, hy⟩ :=
        getKey_replies (c := { s.conv with command_ := cmd }) hsized hout hm hrep.2 hrep.1
      exact ⟨_, y, hw c ((hcmd _ _).trans hc), ⟨hsz, hout', hst.trans hstate⟩, hm, readable_line hb, hsent,
        iff_of_true rfl hy⟩
    | set k d =>
      rw [hreq] at hrep
      exact hrep.elim
    | other =>
      rw [hreq] at hrep
      rcases s.conv.handle_command_cases l with ⟨_, _, h', -⟩ | ⟨_, _, _, h', -⟩ | ⟨c, -, ⟨h1, h2, h3⟩, hcmd⟩
      · rw [hreq] at h'
        cases h'
      · rw [hreq] at h'
        cases h'
      · obtain ⟨y, hsent, hy⟩ := handle_command_sent hreq (hcmd s.server_ (13 :: w))
        exact ⟨_, y, hw c (hcmd _ _), ⟨h1 ▸ hsized, h2 ▸ hout, h3 hstate⟩, hm, readable_line hb, hsent,
          iff_of_true rfl (mt hy.1 hrep)⟩
  | @set l k n hl ha =>
    obtain ⟨hlen, hle⟩ := ht
    obtain ⟨hpos, hmax, count, hreq, hcount⟩ := ha
    have hne : l ≠ [] := by
      rintro rfl
      cases hreq
    rw [Item.bytes, List.append_assoc] at hb
    obtain ⟨w, hw⟩ := pass_line hstate hl hne hb hlen
    obtain ⟨cmd, hcmd⟩ := s.conv.handle_command_set hreq
    obtain ⟨e, he, hsz, hkey, hfree, hval⟩ := Entry.resetKeyValue_ok hsized hle
    have hset : setKey { s.conv with command_ := cmd } k (count ++ 13 :: w) =
        .ok { s.conv with command_ := cmd, currEntry_ := e, state_ := .kReceiveValue } := by
      unfold setKey
      rw [Announces.atoi_eq hcount, ok_bind, if_neg (by omega), he]
      rfl
    exact ⟨_, [], hw _ ((hcmd _ _).trans hset), ⟨hsz, hout, rfl, hkey, hfree, hval⟩, hm, readable_line hb,
      (List.append_nil _).symm, iff_of_false Bool.false_ne_true (fun h => h rfl)⟩
  | @value k v hne =>
    obtain ⟨hst, hkey, hfree, hval⟩ := hstate
    obtain ⟨s', hs', hsz, hout', hst', hsent, hrest, hsane, -⟩ :=
      receiveValue_stores hsized hkey hfree hval hm ht hb
    have hread : s.buf.readable ≠ [] := by
      rw [hb]
      exact fun he => hne (List.append_eq_nil_iff.1 he).1
    exact ⟨s', _, by rw [pass_receiveValue hst hread, hs']; rfl, ⟨hsz, hout' ▸ hout, hst'⟩, hsane, hrest, hsent,
      iff_of_true rfl (by decide)⟩
  | crlf =>
    refine ⟨_, [], pass_crlf hstate hb, ⟨hsized, hout, hstate⟩, hm, ?_, (List.append_nil _).symm,
      iff_of_false Bool.false_ne_true (fun h => h rfl)⟩
    show (s.buf.retrieve 2).readable = rest
    rw [Buffer.readable_retrieve, hb]
    rfl

/-- A stored value has a key that the store can look for. -/
theorem le_of_receiveValue (hw : (Stage.value k n).Waits r s.conv) (hm : s.server_.Sane)
    (h : s.receiveValue = .ok s') : k ≤ greatestKey := by
  obtain ⟨hsized, -, -, hkey, hfree, -⟩ := hw
  obtain ⟨e₁, e₂, -, happ, hclone, hset, -⟩ := receiveValue_ok h
  have hnum := numBytes_le_free (s := s) (by omega)
  obtain ⟨e, he, hs₁, hkey₁, -, hfree₁⟩ := Entry.append_ok hsized hnum numBytes_le_length
  rw [happ] at he
  cases he
  obtain ⟨e, he, hkey₂, -, -⟩ := Entry.clone_ok hs₁ (by omega)
  rw [hclone] at he
  cases he
  by_contra hgt
  rw [MiniMemcached.set_above hm (by rw [hkey₂, hkey₁, hkey]; exact lt_of_not_ge hgt)] at hset
  cases hset

/-- A pass that has taken just the item, and replied as it should, has been able to. -/
theorem takes_of_pass (hw : st.Waits r s.conv) (hm : s.server_.Sane) (hn : Item.Next st i st')
    (hb : s.buf.readable = i.bytes ++ rest) (hp : s.pass = .ok (some s'))
    (hx : s.buf.readable = i.bytes ++ s'.buf.readable) (hsent : s'.conv.sent = s.conv.sent ++ y)
    (hy : i.replies = true ↔ y ≠ []) : Item.Takes r i := by
  have hstate := hw.state
  cases hn with
  | @reply l hne hl =>
    rw [Item.bytes, List.append_assoc] at hb hx
    obtain ⟨hlen, w, hc⟩ := line_taken hstate hl hne hb hp hx
    refine ⟨hlen, ?_⟩
    have hne : y ≠ [] := hy.1 rfl
    unfold Item.Replied
    cases hreq : request l with
    | get k =>
      obtain ⟨cmd, hcmd⟩ := s.conv.handle_command_get hreq
      have hk := length_request (d := []) (.inl hreq)
      rw [hcmd] at hc
      exact le_of_getKey (c := { s.conv with command_ := cmd }) hw.sized hm (by omega) hc
    | set k d =>
      obtain ⟨cmd, hcmd⟩ := s.conv.handle_command_set hreq
      rw [hcmd] at hc
      have hsame := setKey_sent hc
      rw [hsent] at hsame
      exact hne (List.append_right_eq_self.1 hsame)
    | other =>
      obtain ⟨z, hz, hiff⟩ := handle_command_sent hreq hc
      rw [hsent] at hz
      obtain rfl := List.append_cancel_left hz
      exact mt hiff.2 hne
  | @set l k n hl ha =>
    obtain ⟨hpos, hmax, count, hreq, hcount⟩ := ha
    have hne : l ≠ [] := by
      rintro rfl
      cases hreq
    rw [Item.bytes, List.append_assoc] at hb hx
    obtain ⟨hlen, w, hc⟩ := line_taken hstate hl hne hb hp hx
    refine ⟨hlen, ?_⟩
    obtain ⟨cmd, hcmd⟩ := s.conv.handle_command_set hreq
    have hk := length_request (.inr hreq)
    rw [hcmd] at hc
    obtain ⟨x, hx, ⟨hout, -⟩ | ⟨-, e, he, -⟩⟩ := setKey_ok hc
    · rw [Announces.atoi_eq hcount] at hx
      cases hx
      omega
    · rw [Announces.atoi_eq hcount] at hx
      cases hx
      exact Entry.le_of_resetKeyValue hw.sized (by omega) he
  | @value k v hne =>
    obtain ⟨-, ⟨hs, -⟩ | ⟨-, hrec⟩⟩ := pass_cases hp
    · rw [hstate.1] at hs
      cases hs
    · exact le_of_receiveValue hw hm hrec
  | crlf => trivial

/-- The loop does not stop in front of an item. -/
theorem pass_ne_none (hw : st.Waits r s.conv) (hn : Item.Next st i st') (hb : s.buf.readable = i.bytes ++ rest) :
    s.pass ≠ .ok none := by
  have hline : ∀ {l : Bytes}, 13 ∉ l → s.buf.readable = l ++ (kCRLF ++ rest) → s.pass ≠ .ok none := by
    intro l hl hb hp
    rcases pass_leaves hp with hnil | ⟨-, hf⟩
    · rw [hb] at hnil
      exact absurd hnil (List.append_ne_nil_of_right_ne_nil _ nofun)
    · rw [found_line hl hb] at hf
      cases hf
  have hstate := hw.state
  cases hn with
  | reply hne hl =>
    rw [Item.bytes, List.append_assoc] at hb
    exact hline hl hb
  | set hl ha =>
    rw [Item.bytes, List.append_assoc] at hb
    exact hline hl hb
  | value hne =>
    intro hp
    rcases pass_leaves hp with hnil | ⟨hs, -⟩
    · rw [hb] at hnil
      exact absurd hnil (List.append_ne_nil_of_left_ne_nil hne _)
    · rw [hstate.1] at hs
      cases hs
  | crlf => exact hline (l := []) nofun hb

/-! ## Chunks of items -/

variable {is js : List Item} {t : Session} {log log' : List (Bytes × Bytes)}

/-- A chunk whose commands can be replied to is handled as a whole. -/
theorem turns_items (hw : st.Waits r s.conv) (hm : s.server_.Sane) (hf : Item.Follows st (is ++ js))
    (hfit : Item.Fits r (is ++ js)) (hb : s.buf.readable = is.flatMap Item.bytes) : ∃ log t st' r', Turns s log t ∧
      List.Forall₂ Item.Matches is log ∧ st'.Waits r' t.conv ∧ Item.Follows st' js ∧ Item.Fits r' js ∧
      t.buf.readable = [] := by
  induction is generalizing s st r with
  | nil => exact ⟨[], s, st, r, .leave (pass_empty hb), .nil, hw, hf, hfit, hb⟩
  | cons i is ih =>
    obtain ⟨st₁, hnext, hf₁⟩ := hf
    obtain ⟨htakes, hfit₁⟩ := hfit
    obtain ⟨s₁, y, hp, hw₁, hm₁, hrest, hsent, hy⟩ := pass_item hw hm hnext htakes hb
    obtain ⟨log, t, st', r', ht, hlog, h⟩ := ih hw₁ hm₁ hf₁ hfit₁ hrest
    have hx : s.buf.readable = i.bytes ++ s₁.buf.readable := by
      rw [hrest]
      exact hb
    exact ⟨_, t, st', r', .turn hp hx hsent ht, .cons ⟨rfl, hy⟩ hlog, h⟩

/-- Where the items of a chunk have been replied to, they could be. -/
theorem fits_of_turns (hw : st.Waits r s.conv) (hm : s.server_.Sane) (hf : Item.Follows st (is ++ js))
    (hb : s.buf.readable = is.flatMap Item.bytes) (h : Turns s log t)
    (hlog : List.Forall₂ Item.Matches (is ++ js) (log ++ log')) : ∃ st' r', st'.Waits r' t.conv ∧
      Item.Follows st' js ∧ t.buf.readable = [] ∧ List.Forall₂ Item.Matches js log' ∧
      (Item.Fits r' js → Item.Fits r (is ++ js)) := by
  induction is generalizing s st r log with
  | nil =>
    cases h with
    | leave hp => exact ⟨st, r, hw, hf, hb, hlog, id⟩
    | turn hp _ _ _ =>
      rw [pass_empty hb] at hp
      cases hp
  | cons i is ih =>
    obtain ⟨st₁, hnext, hf₁⟩ := hf
    cases h with
    | leave hp => exact absurd hp (pass_ne_none hw hnext hb)
    | @turn _ s₁ _ x y log hp hx hsent h =>
      obtain ⟨⟨hx', hy⟩, hlog₁⟩ := List.forall₂_cons.1 hlog
      dsimp only at hx' hy
      subst hx'
      have htakes := takes_of_pass hw hm hnext hb hp hx hsent hy
      obtain ⟨s', _, hp', hw₁, hm₁, hrest, -⟩ := pass_item hw hm hnext htakes hb
      rw [hp] at hp'
      cases hp'
      obtain ⟨st', r', hw', hf', hempty, hlog', hfit⟩ := ih hw₁ hm₁ hf₁ hrest h hlog₁
      exact ⟨st', r', hw', hf', hempty, hlog', fun h' => ⟨htakes, hfit h'⟩⟩

end Session

variable {st : Stage} {r : Room} {c : Conversation} {b : Buffer} {chunks : List (MiniMemcached × List Item)}

theorem paired_of_fits (hm : ∀ x ∈ chunks, x.1.Sane) (hw : st.Waits r c) (hb : b.readable = [])
    (hf : Item.Follows st (chunks.flatMap Prod.snd)) (hfit : Item.Fits r (chunks.flatMap Prod.snd)) :
    Paired (c, b) chunks := by
  induction chunks generalizing c b st r with
  | nil => exact ⟨[], .done, .nil⟩
  | cons x chunks ih =>
    obtain ⟨m, is⟩ := x
    rw [List.flatMap_cons] at hf hfit
    obtain ⟨log, t, st', r', ht, hlog, hw', hf', hfit', hempty⟩ := Session.turns_items
      (s := ⟨m, c, b.append (is.flatMap Item.bytes)⟩) hw (hm (m, is) List.mem_cons_self) hf hfit
      (by rw [Buffer.readable_append, hb, List.nil_append])
    obtain ⟨log', ht', hlog'⟩ := ih (fun x hx => hm x (List.mem_cons_of_mem _ hx)) hw' hempty hf' hfit'
    refine ⟨log ++ log', .chunk ht ht', ?_⟩
    rw [List.flatMap_cons]
    exact List.rel_append hlog hlog'

theorem fits_of_paired (hm : ∀ x ∈ chunks, x.1.Sane) (hw : st.Waits r c) (hb : b.readable = [])
    (hf : Item.Follows st (chunks.flatMap Prod.snd)) (h : Paired (c, b) chunks) :
    Item.Fits r (chunks.flatMap Prod.snd) := by
  induction chunks generalizing c b st r with
  | nil => trivial
  | cons x chunks ih =>
    obtain ⟨m, is⟩ := x
    obtain ⟨_, hh, hlog⟩ := h
    rw [List.flatMap_cons] at hf hlog ⊢
    cases hh with
    | @chunk _ _ _ _ t _ log log' ht ht' =>
      obtain ⟨st', r', hw', hf', hempty, hlog', hfit⟩ := Session.fits_of_turns hw (hm (m, is) List.mem_cons_self) hf
        (by rw [Buffer.readable_append, hb, List.nil_append]) ht hlog
      exact hfit (ih (fun x hx => hm x (List.mem_cons_of_mem _ hx)) hw' hempty hf' ⟨log', ht', hlog'⟩)

/-! ## Commands -/

theorem follows_items {orders : List Order} (ho : ∀ o ∈ orders, o.Complete) :
    Item.Follows .command (orders.flatMap Order.items) := by
  induction orders with
  | nil => trivial
  | cons o orders ih =>
    have hc := ho o List.mem_cons_self
    have ih := ih fun o ho' => ho o (List.mem_cons_of_mem _ ho')
    cases o with
    | line l => exact ⟨.command, .reply hc.1 hc.2, ih⟩
    | store l k v crlf =>
      have hne : v ≠ [] := List.ne_nil_of_length_pos hc.2.1
      refine ⟨.value k v.length, .set hc.1 hc.2, .command, .value hne, ?_⟩
      cases crlf with
      | false => exact ih
      | true => exact ⟨.command, .crlf, ih⟩

/-- A new conversation. -/
theorem waits_new {c : Conversation} (hc : Conversation.new = .ok c) : Stage.command.Waits .init c := by
  obtain ⟨e, he, hs, -⟩ := Entry.new_ok (bytes "Invalid") 128 (by decide)
  unfold Conversation.new at hc
  rw [show Entry.new (bytes "Invalid") 128 = _ from he] at hc
  cases hc
  exact ⟨hs, Buffer.readable_new _, rfl⟩

/-- **Replies.** For any stream of commands on a new connection, cut into chunks between items and in between changes of
the store, every command gets one reply, and in the order of the commands, if and only if each of its lines can be
replied to. -/
theorem paired_iff {orders : List Order} (hc : Conversation.new = .ok c) (hm : ∀ x ∈ chunks, x.1.Sane)
    (ho : ∀ o ∈ orders, o.Complete) (h : chunks.flatMap Prod.snd = orders.flatMap Order.items) :
    Paired (c, .new kInitialSize) chunks ↔ Item.Fits .init (orders.flatMap Order.items) := by
  have hf := follows_items ho
  rw [← h] at hf ⊢
  exact ⟨fits_of_paired hm (waits_new hc) (Buffer.readable_new _) hf,
    paired_of_fits hm (waits_new hc) (Buffer.readable_new _) hf⟩

/-- Commands of all kinds that are replied to. -/
def goodOrders : List Order :=
  [.line (bytes "Test a"), .store (bytes "set a 0 0 2") (bytes "a") kCRLF true, .line (bytes "get a"),
    .line (bytes "nonsense"), .line (bytes " ")]

theorem paired_iff_good : ∃ m c, MiniMemcached.new = .ok m ∧ Conversation.new = .ok c ∧
    Paired (c, .new kInitialSize) [(m, goodOrders.flatMap Order.items)] := by
  obtain ⟨e, hm, hkey⟩ := MiniMemcached.new_ok
  have hsome : Conversation.new.toOption.isSome = true := by decide +kernel
  obtain ⟨c, hc⟩ : ∃ c, Conversation.new = .ok c := by
    cases h : Conversation.new with
    | error f => rw [h] at hsome; cases hsome
    | ok c => exact ⟨c, rfl⟩
  have hset : Announces (bytes "set a 0 0 2") (bytes "a") 2 := ⟨by decide, by decide, bytes "2", rfl, rfl⟩
  have ho : ∀ o ∈ goodOrders, o.Complete := by
    intro o ho
    simp only [goodOrders, List.mem_cons, List.not_mem_nil, or_false] at ho
    rcases ho with rfl | rfl | rfl | rfl | rfl
    · exact ⟨by decide, by decide⟩
    · exact ⟨by decide, hset⟩
    · exact ⟨by decide, by decide⟩
    · exact ⟨by decide, by decide⟩
    · exact ⟨by decide, by decide⟩
  refine ⟨_, c, hm, hc, (paired_iff hc ?_ ho ?_).2 (by decide +kernel)⟩
  · intro x hx
    rw [List.mem_singleton] at hx
    subst hx
    exact MiniMemcached.sane_build hkey
  · exact List.append_nil _

/-- A `get` without a key. -/
theorem not_paired_get : ¬∀ (c : Conversation) (chunks : List (MiniMemcached × List Item)) (orders : List Order),
    Conversation.new = .ok c → (∀ x ∈ chunks, x.1.Sane) → (∀ o ∈ orders, o.Complete) →
      chunks.flatMap Prod.snd = orders.flatMap Order.items → Paired (c, .new kInitialSize) chunks := by
  intro h
  obtain ⟨e, -, hkey⟩ := MiniMemcached.new_ok
  have hsome : Conversation.new.toOption.isSome = true := by decide +kernel
  cases hc : Conversation.new with
  | error f => rw [hc] at hsome; cases hsome
  | ok c =>
    have hm : ∀ x ∈ [((⟨fun _ => .build e⟩ : MiniMemcached), [Item.reply (bytes "get")])], x.1.Sane := by
      intro x hx
      rw [List.mem_singleton] at hx
      subst hx
      exact MiniMemcached.sane_build hkey
    have ho : ∀ o ∈ [Order.line (bytes "get")], o.Complete := by
      intro o ho
      rw [List.mem_singleton] at ho
      subst ho
      exact ⟨by decide, by decide⟩
    have hnot : ¬Item.Fits .init [Item.reply (bytes "get")] := by decide +kernel
    exact hnot (fits_of_paired hm (waits_new hc) (Buffer.readable_new _) (follows_items ho)
      (h c _ [.line (bytes "get")] hc hm ho rfl))

end Libeva.Minimemcached
