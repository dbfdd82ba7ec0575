import Libeva.Minimemcached.Conversation

/-!
# The passes of `msgCb`

* `found`: the line at which a pass of a conversation without a pending value looks; `pass_newCommand`.
* `pass_cases`, `line_ok`, `receiveValue_ok`: what a pass that goes on has done.
* `pass_leaves`: what is there when a pass leaves.
* `ends_msgCb`: every pass takes bytes from the buffer or a value off the wait, so that the loop ends.
* `getKey_ok`, `setKey_ok`: what the two handlers have done.
-/

namespace Libeva.Minimemcached

open Net StringTokenizer

namespace Session

open Conversation

variable {s s' : Session} {n e : ℕ}

/-- The length of the line that the next pass takes and of the end of that line. -/
def found (s : Session) : Option (ℕ × ℕ) :=
  match s.buf.findCRLF with
  | some n => some (n, 2)
  | none => s.buf.findEOL.map fun n => (n, 1)

theorem pass_empty (h : s.buf.readable = []) : s.pass = .ok none := if_pos (Buffer.readableBytes_eq_zero.2 h)

theorem pass_newCommand (hs : s.conv.state_ = .kNewCommand) (h : s.buf.readable ≠ []) :
    s.pass = match s.found with
      | some (n, e) => (s.line n e).map some
      | none => .ok none := by
  unfold pass found
  rw [if_neg (mt Buffer.readableBytes_eq_zero.1 h), hs]
  cases s.buf.findCRLF with
  | some n => rfl
  | none => cases s.buf.findEOL <;> rfl

theorem found_of_searchCRLF {n : ℕ} (h : Buffer.searchCRLF s.buf.readable = some n) : s.found = some (n, 2) := by
  unfold found Buffer.findCRLF
  rw [h]

theorem mem_of_searchCRLF : ∀ {l : Bytes} {n : ℕ}, Buffer.searchCRLF l = some n → 10 ∈ l
  | [], _, h => by cases h
  | c :: t, n, h => by
    unfold Buffer.searchCRLF at h
    split at h
    · rename_i hc
      cases t with
      | nil => cases hc
      | cons d t =>
        cases hc
        exact List.mem_cons_of_mem _ List.mem_cons_self
    · obtain ⟨_, hn, _⟩ := Option.map_eq_some_iff.1 h
      exact List.mem_cons_of_mem _ (mem_of_searchCRLF hn)

/-- A line is found exactly if there is a line feed. -/
theorem found_eq_none_iff : s.found = none ↔ 10 ∉ s.buf.readable := by
  unfold found
  constructor
  · intro hf hmem
    split at hf
    · cases hf
    · have hnone := List.findIdx?_eq_none_iff.1 (Option.map_eq_none_iff.1 hf) 10 hmem
      exact absurd hnone (by decide)
  · intro hb
    have hcrlf : s.buf.findCRLF = none := by
      cases h : s.buf.findCRLF with
      | none => rfl
      | some n => exact absurd (mem_of_searchCRLF h) hb
    have heol : s.buf.findEOL = none := by
      unfold Buffer.findEOL
      rw [List.findIdx?_eq_none_iff]
      intro x hx
      exact beq_eq_false_iff_ne.2 fun he => hb (he ▸ hx)
    rw [hcrlf, heol]
    rfl

theorem found_nil (h : s.buf.readable = []) : s.found = none := by
  rw [found_eq_none_iff, h]
  exact List.not_mem_nil

/-- Without a line feed the loop waits. -/
theorem pass_waits (hs : s.conv.state_ = .kNewCommand) (hb : 10 ∉ s.buf.readable) : s.pass = .ok none := by
  by_cases hne : s.buf.readable = []
  · exact pass_empty hne
  · rw [pass_newCommand hs hne, found_eq_none_iff.2 hb]

theorem pass_receiveValue (hs : s.conv.state_ = .kReceiveValue) (h : s.buf.readable ≠ []) :
    s.pass = s.receiveValue.map some := by
  unfold pass
  rw [if_neg (mt Buffer.readableBytes_eq_zero.1 h), hs]

/-- What a pass that goes on has done. -/
theorem pass_cases (h : s.pass = .ok (some s')) : s.buf.readable ≠ [] ∧
    ((s.conv.state_ = .kNewCommand ∧ ∃ n e, s.found = some (n, e) ∧ s.line n e = .ok s') ∨
      (s.conv.state_ = .kReceiveValue ∧ s.receiveValue = .ok s')) := by
  have hne : s.buf.readable ≠ [] := fun he => by rw [pass_empty he] at h; cases h
  refine ⟨hne, ?_⟩
  cases hs : s.conv.state_ with
  | kNewCommand =>
    rw [pass_newCommand hs hne] at h
    cases hf : s.found with
    | none => rw [hf] at h; cases h
    | some p =>
      rw [hf] at h
      obtain ⟨t, ht, hst⟩ := map_eq_ok.1 h
      cases hst
      exact .inl ⟨rfl, p.1, p.2, rfl, ht⟩
  | kReceiveValue =>
    rw [pass_receiveValue hs hne] at h
    obtain ⟨t, ht, hst⟩ := map_eq_ok.1 h
    cases hst
    exact .inr ⟨rfl, ht⟩
  | kDiscardValue =>
    unfold pass at h
    rw [if_neg (mt Buffer.readableBytes_eq_zero.1 hne), hs] at h
    cases h

/-- A pass that leaves has found nothing to take. -/
theorem pass_leaves (h : s.pass = .ok none) :
    s.buf.readable = [] ∨ s.conv.state_ = .kNewCommand ∧ s.found = none := by
  refine or_iff_not_imp_left.2 ?_
  intro hne
  cases hs : s.conv.state_ with
  | kNewCommand =>
    refine ⟨rfl, ?_⟩
    rw [pass_newCommand hs hne] at h
    cases hf : s.found with
    | none => rfl
    | some p =>
      rw [hf] at h
      obtain ⟨_, _, h⟩ := map_eq_ok.1 h
      cases h
  | kReceiveValue =>
    rw [pass_receiveValue hs hne] at h
    obtain ⟨_, _, h⟩ := map_eq_ok.1 h
    cases h
  | kDiscardValue =>
    unfold pass at h
    rw [if_neg (mt Buffer.readableBytes_eq_zero.1 hne), hs] at h
    cases h

theorem found_pos (h : s.found = some (n, e)) : 0 < e := by
  unfold found at h
  split at h
  · cases h; decide
  · obtain ⟨m, -, hm⟩ := Option.map_eq_some_iff.1 h
    cases hm; decide

/-- A line has been handled, unless it was empty, and is gone from the buffer. -/
theorem line_ok (h : s.line n e = .ok s') : 0 ≤ toInt n ∧ ∃ c,
    s' = ⟨s.server_, c, s.buf.retrieve ((toInt n).toNat + e)⟩ ∧
    (if toInt n ≠ 0 then
      s.conv.handle_command s.server_ (s.buf.readable.take (toInt n).toNat) (s.buf.peek.drop (toInt n).toNat) = .ok c
    else c = s.conv) := by
  unfold line at h
  dsimp only at h
  split at h
  · cases h
  · rename_i hneg
    obtain ⟨c, hc, h⟩ := bind_eq_ok.1 h
    obtain ⟨k, hk, h⟩ := bind_eq_ok.1 h
    cases h
    have hsize : toSize k = (toInt n).toNat + e := by
      rw [toSize_of_int hk (by omega)]
      omega
    refine ⟨not_lt.1 hneg, c, by rw [hsize], ?_⟩
    rcases eq_or_ne (toInt n) 0 with hz | hz
    · rw [if_neg (not_not.2 hz)] at hc ⊢
      cases hc
      rfl
    · rw [if_pos hz] at hc ⊢
      exact hc

theorem le_of_line (h : s.line n e = .ok s') : toInt n + e < 2 ^ 31 := by
  unfold line at h
  dsimp only at h
  split at h
  · cases h
  · obtain ⟨c, -, h⟩ := bind_eq_ok.1 h
    obtain ⟨x, hx, -⟩ := bind_eq_ok.1 h
    exact lt_of_int hx

theorem getKey_ok {c c' : Conversation} {server : MiniMemcached} {k : Bytes} (h : c.getKey server k = .ok c') :
    ∃ e entry, c.currEntry_.resetKey k = .ok e ∧ server.get e = .ok entry ∧ c'.currEntry_ = e ∧
      c'.state_ = c.state_ := by
  unfold getKey at h
  obtain ⟨e, he, h⟩ := bind_eq_ok.1 h
  obtain ⟨entry, hg, h⟩ := bind_eq_ok.1 h
  cases h
  exact ⟨e, entry, he, hg, rfl, rfl⟩

theorem setKey_ok {c c' : Conversation} {k d : Bytes} (h : c.setKey k d = .ok c') : ∃ n, atoi d = .ok n ∧
    ((n ≤ 0 ∨ 1024 < n) ∧ c' = c ∨ ¬(n ≤ 0 ∨ 1024 < n) ∧ ∃ e, c.currEntry_.resetKeyValue k n = .ok e ∧
      c' = { c with currEntry_ := e, state_ := .kReceiveValue }) := by
  unfold setKey at h
  obtain ⟨n, hn, h⟩ := bind_eq_ok.1 h
  refine ⟨n, hn, ?_⟩
  split at h
  · rename_i hr
    cases h
    exact .inl ⟨hr, rfl⟩
  · rename_i hr
    obtain ⟨e, he, h⟩ := bind_eq_ok.1 h
    cases h
    exact .inr ⟨hr, e, he, rfl⟩

theorem receiveValue_ok (h : s.receiveValue = .ok s') : ∃ currEntry entry reset,
    s.conv.currEntry_.append s.buf.readable s.numBytes = .ok currEntry ∧
    Entry.clone currEntry.data_ currEntry.keyLen_ currEntry.valueLen_ (toInt currEntry.numFree) = .ok entry ∧
    s.server_.set entry = .ok s'.server_ ∧ currEntry.Reset = .ok reset ∧
    s'.conv = { s.conv with
      currEntry_ := reset, command_ := [], state_ := .kNewCommand, sent := s.conv.sent ++ bytes "STORED\r\n" } ∧
    s'.buf = s.buf.retrieve s.numBytes := by
  unfold receiveValue at h
  obtain ⟨currEntry, happ, h⟩ := bind_eq_ok.1 h
  obtain ⟨entry, hclone, h⟩ := bind_eq_ok.1 h
  obtain ⟨server, hset, h⟩ := bind_eq_ok.1 h
  obtain ⟨conv, hconv, h⟩ := bind_eq_ok.1 h
  cases h
  obtain ⟨reset, hreset, h⟩ := bind_eq_ok.1 hconv
  cases h
  exact ⟨currEntry, entry, reset, happ, hclone, hset, hreset, rfl, rfl⟩

theorem numBytes_le_length : s.numBytes ≤ s.buf.readable.length := by
  rw [Buffer.length_readable]
  exact Nat.min_le_left _ _

theorem numBytes_le_free (h : 0 ≤ s.conv.currEntry_.free_) : (s.numBytes : ℤ) ≤ s.conv.currEntry_.free_ := by
  have hmin : s.numBytes ≤ s.conv.currEntry_.numFree := Nat.min_le_right _ _
  unfold Entry.numFree toSize at hmin
  omega

/-- A line leaves the parser as it was, or waiting for a value of 1 to 1024 bytes. -/
theorem state_of_line {n e : ℕ} (hs : s.conv.state_ = .kNewCommand) (hl : s.line n e = .ok s') :
    s'.conv.state_ = .kNewCommand ∨
      s'.conv.state_ = .kReceiveValue ∧ 0 < s'.conv.currEntry_.numFree ∧ s'.conv.currEntry_.numFree ≤ 1024 := by
  obtain ⟨-, c, rfl, hc⟩ := line_ok hl
  dsimp only
  split at hc
  · rcases s.conv.handle_command_cases (s.buf.readable.take (toInt n).toNat) with
      ⟨k, cmd, -, hcmd⟩ | ⟨k, d, cmd, -, hcmd⟩ | ⟨c', -, hsame, hcmd⟩
    · rw [hcmd] at hc
      obtain ⟨_, _, _, _, _, hstate⟩ := getKey_ok hc
      exact .inl (hstate.trans hs)
    · rw [hcmd] at hc
      obtain ⟨x, -, ⟨-, rfl⟩ | ⟨hr, e', he, rfl⟩⟩ := setKey_ok hc
      · exact .inl hs
      · refine .inr ⟨rfl, ?_⟩
        have hfree : e'.free_ = x := by
          unfold Entry.resetKeyValue at he
          obtain ⟨_, -, he⟩ := bind_eq_ok.1 he
          obtain ⟨_, -, he⟩ := bind_eq_ok.1 he
          obtain ⟨_, -, he⟩ := bind_eq_ok.1 he
          obtain ⟨_, -, he⟩ := bind_eq_ok.1 he
          obtain ⟨_, -, he⟩ := bind_eq_ok.1 he
          cases he
          rfl
        obtain ⟨w, rfl⟩ := Int.eq_ofNat_of_zero_le (show 0 ≤ x by omega)
        unfold Entry.numFree
        dsimp only
        rw [hfree, toSize_natCast (by omega)]
        omega
    · rw [hcmd] at hc
      cases hc
      exact .inl (hsame.state hs)
  · rw [hc]
    exact .inl hs

/-! ## Writes -/

theorem safe_getKey {c : Conversation} {server : MiniMemcached} {k : Bytes} (h : Safe (c.currEntry_.resetKey k)) :
    Safe (c.getKey server k) := by
  unfold getKey
  refine h.bind ?_
  intro e _
  refine (server.safe_get e).bind ?_
  intro entry _
  exact safe_ok _

theorem safe_setKey {c : Conversation} {k d : Bytes}
    (h : ∀ n, atoi d = .ok n → ¬(n ≤ 0 ∨ 1024 < n) → Safe (c.currEntry_.resetKeyValue k n)) : Safe (c.setKey k d) := by
  unfold setKey
  apply Safe.bind
  · intro he
    cases atoi_error he
  · intro n hn
    split
    · exact safe_ok _
    · rename_i hrange
      exact (h n hn hrange).bind fun _ _ => safe_ok _

theorem safe_line (h : 0 < toInt n → Safe (s.conv.handle_command s.server_ (s.buf.readable.take (toInt n).toNat)
    (s.buf.peek.drop (toInt n).toNat))) : Safe (s.line n e) := by
  unfold line
  dsimp only
  split
  · exact nofun
  · rename_i hneg
    apply Safe.bind
    · split
      · rename_i hz
        exact h (by omega)
      · exact safe_ok _
    · intro c _
      exact (safe_int _).bind fun _ _ => safe_ok _

theorem safe_receiveValue (h : Safe (s.conv.currEntry_.append s.buf.readable s.numBytes))
    (hclone : ∀ e, s.conv.currEntry_.append s.buf.readable s.numBytes = .ok e →
      Safe (Entry.clone e.data_ e.keyLen_ e.valueLen_ (toInt e.numFree))) : Safe s.receiveValue := by
  unfold receiveValue
  refine h.bind ?_
  intro e he
  refine (hclone e he).bind ?_
  intro entry _
  refine (s.server_.safe_set entry).bind ?_
  intro server _
  apply Safe.bind
  · unfold resetRequest Entry.Reset
    refine Safe.bind ?_ fun _ _ => safe_ok _
    exact (safe_int _).bind fun _ _ => (safe_int _).bind fun _ _ => safe_ok _
  · intro conv _
    exact safe_ok _

/-! ## The loop ends -/

/-- Falls with every pass: a pass that takes no byte ends the wait for a value. -/
def measure (s : Session) : ℕ := 2 * s.buf.readable.length + if s.conv.state_ = .kReceiveValue then 1 else 0

theorem measure_pass (h : s.pass = .ok (some s')) : s'.measure < s.measure := by
  obtain ⟨hne, ⟨hs, n, e, hf, hl⟩ | ⟨hs, hr⟩⟩ := pass_cases h
  · obtain ⟨-, c, rfl, -⟩ := line_ok hl
    have he := found_pos hf
    have hlen := List.length_pos_of_ne_nil hne
    have hnot : ¬s.conv.state_ = .kReceiveValue := by rw [hs]; exact nofun
    unfold measure
    rw [Buffer.readable_retrieve, List.length_drop, if_neg hnot]
    split <;> omega
  · obtain ⟨_, _, _, _, _, _, _, hconv, hbuf⟩ := receiveValue_ok hr
    unfold measure
    rw [hconv, hbuf, Buffer.readable_retrieve, List.length_drop, if_neg nofun, if_pos hs]
    omega

/-- The bound of `msgCb` on its passes is never reached. -/
theorem ends_msgCb (s : Session) : Loop.Ends pass s s.msgCb := by
  refine Loop.ends_run (fun _ _ h => measure_pass h) ?_
  unfold measure
  rw [Buffer.length_readable]
  split <;> omega

end Session

end Libeva.Minimemcached
