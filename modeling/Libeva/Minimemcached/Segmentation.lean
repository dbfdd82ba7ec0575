import Libeva.Minimemcached.Capacity

/-!
# Cutting a stream into chunks

A pass of `msgCb` sees the bytes that have arrived. Where it does not depend on those that have not (`Uncut`), it does
what a pass with the whole rest of the stream in the buffer does that looks for the first line feed (`wholePass`).

* `Ahead rest s t`: the session `t` differs from `s` in that the bytes `rest` have arrived already.
* `Ahead.pass`: one pass of `s` and one whole pass of `t`; `Ahead.feed`: the runs over all chunks.
* `Led`: where a value is waited for, its line was the last thing taken; `Sound.passes` carries this through a run.
* `segmentation_independent`: two ways of cutting one stream end in the same store, conversation and unconsumed bytes,
  or in the same fault, and the value that is stored is what follows the line.
-/

namespace Libeva.Minimemcached

open Net

/-- The length of the first line that ends with a line feed, and of its end: the carriage return before the line feed
belongs to it. -/
def firstLine : Bytes → Option (ℕ × ℕ)
  | [] => none
  | c :: t =>
    if c = 10 then some (0, 1)
    else if c :: t.take 1 = kCRLF then some (0, 2)
    else (firstLine t).map fun p => (p.1 + 1, p.2)

/-- The search for CRLF and the first line, where the line has no line feed in it. -/
theorem firstLine_of_searchCRLF {l r : Bytes} {n : ℕ} (h : Buffer.searchCRLF l = some n) (hn : 10 ∉ l.take n) :
    firstLine (l ++ r) = some (n, 2) ∧ ∃ y, l = l.take n ++ 13 :: 10 :: y := by
  induction l generalizing n with
  | nil => cases h
  | cons c t ih =>
    unfold Buffer.searchCRLF at h
    split at h
    · rename_i hc
      cases h
      obtain ⟨y, hy⟩ : ∃ y, c :: t = 13 :: 10 :: y := by
        cases t with
        | nil => cases hc
        | cons d y =>
          cases hc
          exact ⟨y, rfl⟩
      rw [hy]
      exact ⟨rfl, y, rfl⟩
    · rename_i hc
      obtain ⟨m, hm, rfl⟩ := Option.map_eq_some_iff.1 h
      rw [List.take_succ_cons, List.mem_cons, not_or] at hn
      obtain ⟨hfirst, y, hy⟩ := ih hm hn.2
      refine ⟨?_, y, by rw [List.take_succ_cons, List.cons_append, ← hy]⟩
      have hne : t ≠ [] := by
        rintro rfl
        cases hm
      have htake : (t ++ r).take 1 = t.take 1 :=
        List.take_append_of_le_length (Nat.succ_le_of_lt (List.length_pos_of_ne_nil hne))
      rw [List.cons_append, firstLine, if_neg (Ne.symm hn.1), htake, if_neg hc, hfirst]
      rfl

/-- The search for a line feed and the first line, where there is no CRLF. -/
theorem firstLine_of_findEOL {l r : Bytes} {n : ℕ} (h : Buffer.searchCRLF l = none)
    (hn : l.findIdx? (· == 10) = some n) : firstLine (l ++ r) = some (n, 1) ∧ ∃ y, l = l.take n ++ 10 :: y := by
  induction l generalizing n with
  | nil => cases hn
  | cons c t ih =>
    unfold Buffer.searchCRLF at h
    split at h
    · cases h
    · rename_i hc
      rw [List.findIdx?_cons] at hn
      split at hn
      · rename_i h10
        cases hn
        rw [beq_iff_eq] at h10
        subst h10
        exact ⟨rfl, t, rfl⟩
      · rename_i h10
        obtain ⟨m, hm, rfl⟩ := Option.map_eq_some_iff.1 hn
        obtain ⟨hfirst, y, hy⟩ := ih (Option.map_eq_none_iff.1 h) hm
        refine ⟨?_, y, by rw [List.take_succ_cons, List.cons_append, ← hy]⟩
        have hne : t ≠ [] := by
          rintro rfl
          cases hm
        have htake : (t ++ r).take 1 = t.take 1 :=
          List.take_append_of_le_length (Nat.succ_le_of_lt (List.length_pos_of_ne_nil hne))
        rw [beq_iff_eq] at h10
        rw [List.cons_append, firstLine, if_neg h10, htake, if_neg hc, hfirst]
        rfl

theorem firstLine_none {l : Bytes} (h : l.findIdx? (· == 10) = none) : firstLine l = none := by
  induction l with
  | nil => rfl
  | cons c t ih =>
    rw [List.findIdx?_cons] at h
    split at h
    · cases h
    · rename_i h10
      have ht := Option.map_eq_none_iff.1 h
      rw [beq_iff_eq] at h10
      rw [firstLine, if_neg h10, ih ht]
      split
      · rename_i hc
        cases t with
        | nil => cases hc
        | cons d y =>
          cases hc
          cases ht
      · rfl

namespace Session

open Conversation

/-- A pass that looks for the first line feed. -/
def wholePass (s : Session) : Except Fault (Option Session) :=
  if s.buf.readableBytes = 0 then .ok none
  else
    match s.conv.state_ with
    | .kNewCommand =>
      match firstLine s.buf.readable with
      | some (n, e) => (s.line n e).map some
      | none => .ok none
    | .kReceiveValue => s.receiveValue.map some
    | .kDiscardValue => .error .spin

/-- The next pass does not depend on bytes that have not arrived: a line that ends at the first CRLF has no line feed in
it, the byte count of a `set` does not run on past its line, and a value that is waited for is there as a whole. -/
def Uncut (s : Session) : Prop :=
  match s.conv.state_ with
  | .kNewCommand =>
    (∀ n ∈ s.buf.findCRLF, 10 ∉ s.buf.readable.take n) ∧
      ∀ n ∈ s.found.map Prod.fst, match request (s.buf.readable.take (toInt n).toNat) with
        | .set _ count => ∃ c ∈ count, isspace c = false
        | _ => True
  | _ => s.buf.readable = [] ∨ s.conv.currEntry_.numFree ≤ s.buf.readableBytes

instance (s : Session) : Decidable s.Uncut := by
  unfold Uncut
  split
  · have : ∀ n, Decidable (match request (s.buf.readable.take (toInt n).toNat) with
        | .set _ count => ∃ c ∈ count, isspace c = false
        | _ => True) := fun n => by split <;> infer_instance
    infer_instance
  · infer_instance

/-- The bytes `rest` have arrived already. -/
structure Ahead (rest : Bytes) (s t : Session) : Prop where
  server_eq : t.server_ = s.server_
  conv_eq : t.conv = s.conv
  readable_eq : t.buf.readable = s.buf.readable ++ rest

/-- Two outcomes of a pass: the same fault, or sessions of which one is ahead. -/
inductive Together (rest : Bytes) : Except Fault Session → Except Fault Session → Prop
  | fault (f : Fault) : Together rest (.error f) (.error f)
  | ahead {s t : Session} : Ahead rest s t → Together rest (.ok s) (.ok t)

variable {rest : Bytes} {s t : Session}

theorem Ahead.retrieve (h : Ahead rest s t) {c : Conversation} {m : MiniMemcached} {k : ℕ}
    (hk : k ≤ s.buf.readable.length) : Ahead rest ⟨m, c, s.buf.retrieve k⟩ ⟨m, c, t.buf.retrieve k⟩ where
  server_eq := rfl
  conv_eq := rfl
  readable_eq := by
    show (t.buf.retrieve k).readable = (s.buf.retrieve k).readable ++ rest
    rw [Buffer.readable_retrieve, Buffer.readable_retrieve, h.readable_eq, List.drop_append_of_le_length hk]

/-- A line is handled in the same way if what is behind its end is another. -/
theorem Ahead.handle_command (h : Ahead rest s t) {n len : ℕ} {a : UInt8} {y : Bytes} (hlen : len ≤ n)
    (hn : n ≤ s.buf.readable.length) (hl : s.buf.readable = s.buf.readable.take n ++ a :: y) (ha : isdigit a = false)
    (hcount : match request (s.buf.readable.take len) with
      | .set _ count => ∃ c ∈ count, isspace c = false
      | _ => True) :
    t.conv.handle_command t.server_ (t.buf.readable.take len) (t.buf.peek.drop len) =
      s.conv.handle_command s.server_ (s.buf.readable.take len) (s.buf.peek.drop len) := by
  rw [h.server_eq, h.conv_eq, h.readable_eq, List.take_append_of_le_length (hlen.trans hn)]
  have hdrop : ∀ w, (s.buf.readable ++ w).drop len = (s.buf.readable.take n).drop len ++ a :: (y ++ w) := by
    intro w
    conv_lhs => rw [hl]
    rw [List.append_assoc, List.drop_append_of_le_length (by rw [List.length_take]; omega)]
    rfl
  obtain ⟨w, hw⟩ : ∃ w, s.buf.peek = s.buf.readable ++ w := ⟨_, s.buf.peek_eq⟩
  obtain ⟨w', hw'⟩ : ∃ w, t.buf.peek = s.buf.readable ++ w := by
    refine ⟨rest ++ t.buf.peek.drop t.buf.readableBytes, ?_⟩
    rw [← List.append_assoc, ← h.readable_eq]
    exact t.buf.peek_eq
  rw [hw, hw', hdrop, hdrop]
  rcases handle_command_cases s.conv (s.buf.readable.take len) with
    ⟨k, _, -, hcmd⟩ | ⟨k, d, _, hreq, hcmd⟩ | ⟨c, -, -, hcmd⟩
  · rw [hcmd, hcmd]
  · rw [hreq] at hcount
    obtain ⟨b, hb, hspace⟩ := hcount
    rw [hcmd, hcmd]
    unfold setKey
    rw [← List.append_assoc, ← List.append_assoc,
      atoi_append ⟨b, List.mem_append_left _ hb, hspace⟩ ha (y ++ w') (y ++ w)]
  · rw [hcmd, hcmd]

theorem Ahead.line (h : Ahead rest s t) {n e : ℕ} {a : UInt8} {y : Bytes} (hn : n + e ≤ s.buf.readable.length)
    (hl : s.buf.readable = s.buf.readable.take n ++ a :: y) (ha : isdigit a = false)
    (hcount : match request (s.buf.readable.take (toInt n).toNat) with
      | .set _ count => ∃ c ∈ count, isspace c = false
      | _ => True) : Together rest (s.line n e) (t.line n e) := by
  have hlen := toInt_toNat_le n
  have hcmd := h.handle_command hlen (by omega) hl ha hcount
  unfold Session.line
  dsimp only
  rw [hcmd, h.conv_eq]
  by_cases hneg : toInt n < 0
  · rw [if_pos hneg, if_pos hneg]
    exact .fault _
  · rw [if_neg hneg, if_neg hneg]
    generalize (if toInt n ≠ 0 then s.conv.handle_command s.server_ (s.buf.readable.take (toInt n).toNat)
      (s.buf.peek.drop (toInt n).toNat) else .ok s.conv : Except Fault Conversation) = x
    cases x with
    | error f => exact .fault f
    | ok c =>
      rw [ok_bind, ok_bind]
      cases hk : int (toInt n + e) with
      | error f => exact .fault f
      | ok k =>
        have hsize := toSize_of_int hk (by omega)
        rw [ok_bind, ok_bind, h.server_eq]
        exact .ahead (h.retrieve (by omega))

theorem append_congr {e : Entry} {d d' : Bytes} {n : ℕ} (hn : n ≤ d.length) :
    e.append (d ++ d') n = e.append d n := by
  unfold Entry.append memmove
  have h1 : ¬((d.length : ℤ) < n) := by omega
  have h2 : ¬(((d ++ d').length : ℤ) < n) := by rw [List.length_append]; omega
  rw [Int.toNat_natCast, List.take_append_of_le_length hn]
  simp only [if_neg h1, if_neg h2]

/-- As many bytes of a value are taken in the same way if more are there. -/
theorem Ahead.receiveValue_of_numBytes (h : Ahead rest s t) (hnum : t.numBytes = s.numBytes) :
    Together rest s.receiveValue t.receiveValue := by
  have hle : s.numBytes ≤ s.buf.readable.length := numBytes_le_length
  unfold Session.receiveValue
  rw [hnum, h.conv_eq, h.server_eq, h.readable_eq, append_congr hle]
  cases s.conv.currEntry_.append s.buf.readable s.numBytes with
  | error f => exact .fault f
  | ok currEntry =>
    rw [ok_bind, ok_bind]
    cases Entry.clone currEntry.data_ currEntry.keyLen_ currEntry.valueLen_ (toInt currEntry.numFree) with
    | error f => exact .fault f
    | ok entry =>
      rw [ok_bind, ok_bind]
      cases s.server_.set entry with
      | error f => exact .fault f
      | ok server =>
        rw [ok_bind, ok_bind]
        unfold resetRequest
        cases currEntry.Reset with
        | error f => exact .fault f
        | ok reset => exact .ahead (h.retrieve hle)

/-- A value that is there as a whole is taken in the same way if more is there. -/
theorem Ahead.receiveValue (h : Ahead rest s t) (hfree : s.conv.currEntry_.numFree ≤ s.buf.readableBytes) :
    Together rest s.receiveValue t.receiveValue := by
  refine h.receiveValue_of_numBytes ?_
  have hle : s.buf.readableBytes ≤ t.buf.readableBytes := by
    rw [← Buffer.length_readable, ← Buffer.length_readable, h.readable_eq, List.length_append]
    exact Nat.le_add_right _ _
  unfold numBytes
  rw [h.conv_eq, Nat.min_eq_right hfree, Nat.min_eq_right (hfree.trans hle)]

/-- One pass: where it goes on or fails, so does the whole pass of the session that is ahead. -/
theorem Ahead.pass (h : Ahead rest s t) (hu : s.Uncut) (hgo : s.pass ≠ .ok none) :
    ∃ x y, s.pass = x.map some ∧ t.wholePass = y.map some ∧ Together rest x y := by
  have hne : s.buf.readable ≠ [] := fun he => hgo (pass_empty he)
  have hpos : ¬t.buf.readableBytes = 0 := by
    intro he
    rw [Buffer.readableBytes_eq_zero, h.readable_eq] at he
    exact hne (List.append_eq_nil_iff.1 he).1
  unfold wholePass
  rw [if_neg hpos, h.conv_eq]
  unfold Uncut at hu
  cases hs : s.conv.state_ with
  | kNewCommand =>
    rw [hs] at hu
    obtain ⟨hlf, hcount⟩ := hu
    rw [pass_newCommand hs hne] at hgo ⊢
    cases hf : s.found with
    | none => rw [hf] at hgo; exact absurd rfl hgo
    | some p =>
      obtain ⟨n, e⟩ := p
      have hc := hcount n (by rw [hf]; rfl)
      unfold found at hf
      cases hcrlf : s.buf.findCRLF with
      | some m =>
        rw [hcrlf] at hf
        cases hf
        obtain ⟨hfirst, y, hy⟩ := firstLine_of_searchCRLF (r := rest) hcrlf (hlf n (by rw [hcrlf]; rfl))
        have hlen : n + 2 ≤ s.buf.readable.length := by
          have := congrArg List.length hy
          rw [List.length_append, List.length_take, List.length_cons, List.length_cons] at this
          omega
        rw [h.readable_eq, hfirst]
        exact ⟨_, _, rfl, rfl, h.line hlen hy rfl hc⟩
      | none =>
        rw [hcrlf] at hf
        obtain ⟨m, hn, hp⟩ := Option.map_eq_some_iff.1 hf
        cases hp
        obtain ⟨hfirst, y, hy⟩ := firstLine_of_findEOL (r := rest) hcrlf hn
        have hlen : n + 1 ≤ s.buf.readable.length := by
          have := congrArg List.length hy
          rw [List.length_append, List.length_take, List.length_cons] at this
          omega
        rw [h.readable_eq, hfirst]
        exact ⟨_, _, rfl, rfl, h.line hlen hy rfl hc⟩
  | kReceiveValue =>
    rw [hs] at hu
    rw [pass_receiveValue hs hne]
    exact ⟨_, _, rfl, rfl, h.receiveValue (hu.resolve_left hne)⟩
  | kDiscardValue =>
    unfold Session.pass
    rw [if_neg (mt Buffer.readableBytes_eq_zero.1 hne), hs]
    exact ⟨.error .spin, .error .spin, rfl, rfl, .fault _⟩

theorem Ahead.stop (h : Ahead [] s t) (hs : s.pass = .ok none) : t.wholePass = .ok none := by
  have hread : t.buf.readable = s.buf.readable := h.readable_eq.trans (List.append_nil _)
  unfold wholePass
  by_cases hne : s.buf.readable = []
  · exact if_pos (Buffer.readableBytes_eq_zero.2 (hread.trans hne))
  · obtain ⟨hst, hf⟩ := (pass_leaves hs).resolve_left hne
    rw [if_neg (mt Buffer.readableBytes_eq_zero.1 (hread ▸ hne)), h.conv_eq, hst]
    unfold found at hf
    split at hf
    · cases hf
    · rw [hread, firstLine_none (Option.map_eq_none_iff.1 hf)]

/-! ## Runs -/

/-- The chunks arrive one after the other. -/
def feed (s : Session) : List Bytes → Except Fault Session
  | [] => .ok s
  | chunk :: chunks => do
    let s ← s.deliver chunk
    s.feed chunks

/-- The sessions at the head of the loop of `msgCb`. -/
def heads (s : Session) : List Session := Loop.trail pass (2 * s.buf.readableBytes + 2) s

/-- The sessions at the head of the loop while the chunks arrive, each with the bytes that are still to come. -/
def passes (s : Session) : List Bytes → List (Session × Bytes)
  | [] => []
  | chunk :: chunks =>
    let s := { s with buf := s.buf.append chunk }
    s.heads.map (·, chunks.flatten) ++
      match s.msgCb with
      | .ok s => s.passes chunks
      | .error _ => []

/-- The store, the conversation (with all replies and the parser state) and the unconsumed bytes. -/
def observe (s : Session) : MiniMemcached × Conversation × Bytes := (s.server_, s.conv, s.buf.readable)

theorem Ahead.observe (h : Ahead [] s t) : t.observe = s.observe := by
  unfold Session.observe
  rw [h.server_eq, h.conv_eq, h.readable_eq, List.append_nil]

theorem measure_lt (s : Session) : s.measure < 2 * s.buf.readableBytes + 2 := by
  unfold measure
  rw [Buffer.length_readable]
  split <;> omega

theorem mem_heads {u : Session} (h : Loop.Visits Session.pass s u) : u ∈ s.heads :=
  h.mem_trail (fun _ _ hp => measure_pass hp) s.measure_lt

theorem Ahead.step {s' : Session} (h : Ahead rest s t) (hu : s.Uncut) (hp : s.pass = .ok (some s')) :
    ∃ t', t.wholePass = .ok (some t') ∧ Ahead rest s' t' := by
  obtain ⟨x, y, hx, hy, htog⟩ := h.pass hu (by rw [hp]; exact nofun)
  rw [hx] at hp
  obtain ⟨a, rfl, ha⟩ := map_eq_ok.1 hp
  cases ha
  cases htog with
  | ahead h' => exact ⟨_, hy, h'⟩

theorem Ahead.fail {f : Fault} (h : Ahead rest s t) (hu : s.Uncut) (hp : s.pass = .error f) :
    t.wholePass = .error f := by
  obtain ⟨x, y, hx, hy, htog⟩ := h.pass hu (by rw [hp]; exact nofun)
  rw [hx] at hp
  cases htog with
  | fault g => cases hp; exact hy
  | ahead h' => cases hp

/-- A run in chunks ends as the whole passes over the whole stream do. -/
theorem Ahead.feed {chunks : List Bytes} (h : Ahead chunks.flatten s t) (hu : ∀ x ∈ s.passes chunks, x.1.Uncut)
    (hs : chunks = [] → s.pass = .ok none) :
    ∃ o, Loop.Ends wholePass t o ∧ o.map Session.observe = (s.feed chunks).map Session.observe := by
  induction chunks generalizing s t with
  | nil => exact ⟨.ok t, .leave (h.stop (hs rfl)), congrArg Except.ok h.observe⟩
  | cons chunk chunks ih =>
    have h1 : Ahead chunks.flatten { s with buf := s.buf.append chunk } t := by
      refine ⟨h.server_eq, h.conv_eq, ?_⟩
      show t.buf.readable = (s.buf.append chunk).readable ++ chunks.flatten
      rw [Buffer.readable_append, h.readable_eq, List.flatten_cons, List.append_assoc]
    unfold passes at hu
    unfold Session.feed deliver
    dsimp only at hu
    generalize { s with buf := s.buf.append chunk } = s₁ at h1 hu ⊢
    have hv : ∀ u, Loop.Visits Session.pass s₁ u → u.Uncut := fun u hv =>
      hu (u, _) (List.mem_append_left _ (List.mem_map_of_mem (mem_heads hv)))
    have hend := s₁.ends_msgCb
    cases hm : s₁.msgCb with
    | error f =>
      rw [hm] at hend
      exact ⟨_, hend.sim_fail (fun _ _ _ hP hR hp => hR.step hP hp) (fun _ _ _ hP hR hp => hR.fail hP hp) hv h1, rfl⟩
    | ok s₂ =>
      rw [hm] at hend hu
      obtain ⟨t', hvis, ht'⟩ := hend.sim (fun _ _ _ hP hR hp => hR.step hP hp) hv h1
      obtain ⟨o, ho, hout⟩ := ih ht' (fun x hmem => hu x (List.mem_append_right _ hmem)) fun _ => hend.visits.2
      exact ⟨o, hvis.ends ho, hout⟩

/-! ## The value that is stored -/

/-- The lengths of the scratch entry are those of its block, and there is no value yet where one is waited for. -/
def Sound (c : Conversation) : Prop := ∃ cap total, c.currEntry_.Sized cap total ∧
  (c.state_ = .kReceiveValue → 0 ≤ c.currEntry_.free_ ∧ c.currEntry_.valueLen_ = 0)

/-- A pass accepts a `set` line with this key and byte count; in the stream, `body` follows the line. -/
def Accepts (x : Session × Bytes) (key : Bytes) (n : ℕ) (body : Bytes) : Prop :=
  ∃ s' data, x.1.pass = .ok (some s') ∧ x.1.conv.state_ = .kNewCommand ∧ s'.conv.state_ = .kReceiveValue ∧
    x.1.job = .set key data ∧ atoi data = .ok n ∧ body = s'.buf.readable ++ x.2

/-- The value that a pass stores is the `n` bytes that follow the `set` line. The line was taken by the last of the
earlier passes that took anything. -/
def Stores (earlier : List (Session × Bytes)) (s : Session) : Prop :=
  ∀ s', s.pass = .ok (some s') → s.conv.state_ = .kReceiveValue → ∃ x idle key n body entry,
    x :: idle <:+ earlier ∧ (∀ y ∈ idle, y.1.pass = .ok none) ∧ Accepts x key n body ∧
      s.server_.set entry = .ok s'.server_ ∧ entry.key = key ∧ entry.value = body.take n ∧ entry.value.length = n

/-- Where a value is waited for, the scratch entry is as the line left it, and what follows the line is still there. -/
def Led (earlier : List (Session × Bytes)) (s : Session) (rest : Bytes) : Prop :=
  s.conv.state_ = .kReceiveValue → ∃ x idle, x :: idle <:+ earlier ∧ (∀ y ∈ idle, y.1.pass = .ok none) ∧
    Accepts x s.conv.currEntry_.key s.conv.currEntry_.numFree (s.buf.readable ++ rest)

theorem Sound.same {c c' : Conversation} (h : Sound c) (hc : Same c c') (hs : c.state_ = .kNewCommand) : Sound c' := by
  obtain ⟨cap, total, hsz, -⟩ := h
  refine ⟨cap, total, hc.currEntry ▸ hsz, ?_⟩
  intro h
  rw [hc.state hs] at h
  cases h

theorem Sound.getKey {c c' : Conversation} {server : MiniMemcached} {k : Bytes} (h : Sound c)
    (hs : c.state_ = .kNewCommand) (hk : k.length ≤ INT_MAX) (hg : c.getKey server k = .ok c') :
    Sound c' ∧ c'.state_ = .kNewCommand := by
  obtain ⟨cap, total, hsz, -⟩ := h
  obtain ⟨e, _, he, -, hc', hstate⟩ := getKey_ok hg
  have hstate' : c'.state_ = .kNewCommand := hstate.trans hs
  obtain ⟨e', he', hsz', -⟩ := Entry.resetKey_ok hsz (Entry.le_of_resetKey hsz hk he)
  rw [he'] at he
  cases he
  refine ⟨⟨cap, total, hc' ▸ hsz', ?_⟩, hstate'⟩
  intro hr
  rw [hstate'] at hr
  cases hr

theorem Sound.setKey {c c' : Conversation} {k d : Bytes} (h : Sound c) (hs : c.state_ = .kNewCommand)
    (hk : k.length ≤ INT_MAX) (hset : c.setKey k d = .ok c') : Sound c' ∧ (c'.state_ = .kReceiveValue →
      atoi d = .ok c'.currEntry_.numFree ∧ c'.currEntry_.key = k) := by
  obtain ⟨m, hm, ⟨-, rfl⟩ | ⟨hrange, e, he, rfl⟩⟩ := setKey_ok hset
  · refine ⟨h, ?_⟩
    intro hr
    rw [hs] at hr
    cases hr
  · obtain ⟨cap, total, hsz, -⟩ := h
    obtain ⟨b, rfl⟩ := Int.eq_ofNat_of_zero_le (a := m) (by omega)
    obtain ⟨e', he', hsz', hk', hfree, hval⟩ := Entry.resetKeyValue_ok hsz (Entry.le_of_resetKeyValue hsz hk he)
    rw [show c.currEntry_.resetKeyValue k b = _ from he'] at he
    cases he
    refine ⟨⟨_, _, hsz', fun _ => ⟨hfree ▸ Int.natCast_nonneg b, hval⟩⟩, ?_⟩
    intro _
    refine ⟨?_, hk'⟩
    show atoi d = .ok ((toSize e.free_ : ℕ) : ℤ)
    rw [hfree, toSize_natCast (by omega)]
    exact hm

/-- A command line, in a conversation that waits for one. -/
theorem Sound.line {s' : Session} (h : Sound s.conv) (hs : s.conv.state_ = .kNewCommand)
    (hne : s.buf.readable ≠ []) {n k : ℕ} (hf : s.found = some (n, k)) (hl : s.line n k = .ok s') :
    Sound s'.conv ∧ (s'.conv.state_ = .kReceiveValue → ∃ data, s.job = .set s'.conv.currEntry_.key data ∧
      atoi data = .ok s'.conv.currEntry_.numFree) := by
  obtain ⟨hpos, c', rfl, hc⟩ := line_ok hl
  have hjob := job_line hne hs hf
  have hint := toInt_lt n
  rcases hpos.eq_or_lt with hz | hz
  · rw [if_neg (not_not.2 hz.symm)] at hc
    rw [hc]
    refine ⟨h, ?_⟩
    intro hr
    rw [hs] at hr
    cases hr
  · rw [if_pos hz.ne'] at hc
    rw [if_neg hz.not_ge] at hjob
    have hlen : (s.buf.readable.take (toInt n).toNat).length ≤ INT_MAX := by
      have hlt : (s.buf.readable.take (toInt n).toNat).length < 2 ^ 31 := by
        rw [List.length_take]
        omega
      exact le_INT_MAX.2 hlt
    rcases handle_command_cases s.conv (s.buf.readable.take (toInt n).toNat) with
      ⟨key, cmd, hreq, hcmd⟩ | ⟨key, d, cmd, hreq, hcmd⟩ | ⟨c, hreq, hsame, hcmd⟩
    · have hsame := same_command s.conv cmd
      have hkey := (length_request (d := []) (.inl hreq)).trans hlen
      obtain ⟨hsound, hstate⟩ := (h.same hsame hs).getKey (hsame.state hs) hkey ((hcmd _ _).symm.trans hc)
      refine ⟨hsound, ?_⟩
      intro hr
      rw [hstate] at hr
      cases hr
    · have hsame := same_command s.conv cmd
      have hkey := (length_request (.inr hreq)).trans hlen
      obtain ⟨hsound, hset⟩ := (h.same hsame hs).setKey (hsame.state hs) hkey ((hcmd _ _).symm.trans hc)
      rw [hreq] at hjob
      refine ⟨hsound, ?_⟩
      intro hr
      obtain ⟨hnum, rfl⟩ := hset hr
      exact ⟨_, hjob, hnum⟩
    · rw [hcmd] at hc
      cases hc
      refine ⟨h.same hsame hs, ?_⟩
      intro hr
      rw [hsame.state hs] at hr
      cases hr

/-- A value, in a conversation that waits for one. -/
theorem Sound.value {s' : Session} (h : Sound s.conv) (hs : s.conv.state_ = .kReceiveValue)
    (hr : s.receiveValue = .ok s') : Sound s'.conv ∧ ∃ entry, s.server_.set entry = .ok s'.server_ ∧
      entry.key = s.conv.currEntry_.key ∧ entry.value = s.buf.readable.take s.numBytes := by
  obtain ⟨cap, total, hsz, hval⟩ := h
  obtain ⟨hfree, hzero⟩ := hval hs
  have hn := numBytes_le_free hfree
  obtain ⟨e, entry, reset, happ, hclone, hset, hreset, hconv, -⟩ := receiveValue_ok hr
  obtain ⟨e₁, h₁, hsz₁, hkey₁, hvalue₁, hfree₁⟩ := Entry.append_ok hsz hn numBytes_le_length
  rw [h₁] at happ
  cases happ
  obtain ⟨e₂, h₂, hkey₂, hvalue₂, -⟩ := Entry.clone_ok hsz₁ (by omega)
  rw [h₂] at hclone
  cases hclone
  obtain ⟨e₃, h₃, hsz₃, -⟩ := Entry.reset_ok hsz₁
  rw [h₃] at hreset
  cases hreset
  refine ⟨?_, entry, hset, hkey₂.trans hkey₁, ?_⟩
  · rw [hconv]
    exact ⟨cap, total, hsz₃, fun h => by cases h⟩
  · rw [hvalue₂, hvalue₁, Entry.value_eq_nil hzero, List.nil_append]

theorem Sound.pass {s' : Session} (h : Sound s.conv) (hp : s.pass = .ok (some s')) : Sound s'.conv := by
  obtain ⟨hne, ⟨hs, n, k, hf, hl⟩ | ⟨hs, hr⟩⟩ := pass_cases hp
  · exact (h.line hs hne hf hl).1
  · exact (h.value hs hr).1

/-- What a pass leaves behind: either no value is waited for, or the pass took the line. -/
theorem Sound.led {s' : Session} {earlier : List (Session × Bytes)} (h : Sound s.conv) (hp : s.pass = .ok (some s')) :
    Led (earlier ++ [(s, rest)]) s' rest := by
  intro hr
  obtain ⟨hne, ⟨hs, n, k, hf, hl⟩ | ⟨hs, hv⟩⟩ := pass_cases hp
  · obtain ⟨data, hjob, hnum⟩ := (h.line hs hne hf hl).2 hr
    exact ⟨_, [], List.suffix_append _ _, nofun, _, data, hp, hs, hr, hjob, hnum, rfl⟩
  · obtain ⟨_, _, _, -, -, -, -, hconv, -⟩ := receiveValue_ok hv
    rw [hconv] at hr
    cases hr

/-- A pass that finds nothing to take. -/
theorem Led.idle {earlier : List (Session × Bytes)} (h : Led earlier s rest) (hp : s.pass = .ok none) :
    Led (earlier ++ [(s, rest)]) s rest := by
  intro hr
  obtain ⟨x, idle, hsuffix, hidle, hacc⟩ := h hr
  refine ⟨x, idle ++ [(s, rest)], List.suffix_append_self_iff.2 hsuffix, ?_, hacc⟩
  intro y hy
  rcases List.mem_append.1 hy with hy | hy
  · exact hidle y hy
  · rw [List.mem_singleton.1 hy]
    exact hp

/-- The next chunk moves from what is still to come into the buffer. -/
theorem Led.arrive {earlier : List (Session × Bytes)} {chunk : Bytes} (h : Led earlier s (chunk ++ rest)) :
    Led earlier { s with buf := s.buf.append chunk } rest := by
  intro hr
  obtain ⟨x, idle, hsuffix, hidle, hacc⟩ := h hr
  refine ⟨x, idle, hsuffix, hidle, ?_⟩
  show Accepts x _ _ ((s.buf.append chunk).readable ++ rest)
  rw [Buffer.readable_append, List.append_assoc]
  exact hacc

theorem Led.stores {earlier : List (Session × Bytes)} (hl : Led earlier s rest) (h : Sound s.conv) (hu : s.Uncut) :
    s.Stores earlier := by
  intro s' hp hs
  obtain ⟨hne, ⟨hs', -⟩ | ⟨-, hr⟩⟩ := pass_cases hp
  · rw [hs] at hs'
    cases hs'
  · obtain ⟨x, idle, hsuffix, hidle, hacc⟩ := hl hs
    obtain ⟨-, entry, hset, hkey, hvalue⟩ := h.value hs hr
    unfold Uncut at hu
    rw [hs] at hu
    have hfree : s.conv.currEntry_.numFree ≤ s.buf.readable.length := by
      rw [Buffer.length_readable]
      exact hu.resolve_left hne
    have hnum : s.numBytes = s.conv.currEntry_.numFree := Nat.min_eq_right (hu.resolve_left hne)
    rw [hnum] at hvalue
    refine ⟨x, idle, _, _, _, entry, hsuffix, hidle, hacc, hset, hkey, ?_, ?_⟩
    · rw [hvalue, List.take_append_of_le_length hfree]
    · rw [hvalue, List.length_take, Nat.min_eq_left hfree]

/-- The passes of one call of `msgCb`. -/
theorem Sound.heads {earlier : List (Session × Bytes)} {l l' : List Session} {u : Session} (h : Sound s.conv)
    (hl : Led earlier s rest) (hu : s.heads = l ++ u :: l') :
    Sound u.conv ∧ Led (earlier ++ l.map (·, rest)) u rest := by
  refine Loop.trail_invariant (I := fun l s => Sound s.conv ∧ Led (earlier ++ l.map (·, rest)) s rest) [] ?_ ⟨h, ?_⟩ hu
  · intro l s s' hI hp
    rw [List.map_append, ← List.append_assoc]
    exact ⟨hI.1.pass hp, hI.1.led hp⟩
  · rw [List.map_nil, List.append_nil]
    exact hl

/-- The session that `msgCb` leaves, which waits for the next chunk. -/
theorem Sound.msgCb {earlier : List (Session × Bytes)} {s' : Session} (h : Sound s.conv) (hl : Led earlier s rest)
    (hm : s.msgCb = .ok s') : Sound s'.conv ∧ Led (earlier ++ s.heads.map (·, rest)) s' rest := by
  have hend := s.ends_msgCb
  rw [hm] at hend
  obtain ⟨l, hlast⟩ := hend.trail (fun _ _ hp => measure_pass hp) s.measure_lt
  obtain ⟨hsound, hled⟩ := h.heads hl hlast
  refine ⟨hsound, ?_⟩
  rw [show s.heads = _ from hlast, List.map_append, ← List.append_assoc]
  exact hled.idle hend.visits.2

/-- Where an element of two lists, one after the other, comes from. -/
theorem append_cons_cases {α : Type*} {xs ys l l' : List α} {x : α} (h : xs ++ ys = l ++ x :: l') :
    (∃ l₂, xs = l ++ x :: l₂) ∨ ∃ l₁, l = xs ++ l₁ ∧ ys = l₁ ++ x :: l' := by
  rcases List.append_eq_append_iff.1 h with ⟨l₁, hl, hy⟩ | ⟨l₂, hxs, hl'⟩
  · exact .inr ⟨l₁, hl, hy⟩
  · rcases List.cons_eq_append_iff.1 hl' with ⟨rfl, hy⟩ | ⟨l₂, rfl, -⟩
    · refine .inr ⟨[], ?_, hy⟩
      rw [hxs, List.append_nil, List.append_nil]
    · exact .inl ⟨l₂, hxs⟩

theorem Sound.passes {chunks : List Bytes} {earlier l l' : List (Session × Bytes)} {x : Session × Bytes}
    (h : Sound s.conv) (hl : Led earlier s chunks.flatten) (hx : s.passes chunks = l ++ x :: l') :
    Sound x.1.conv ∧ Led (earlier ++ l) x.1 x.2 := by
  induction chunks generalizing s earlier l with
  | nil => exact absurd hx.symm (List.append_ne_nil_of_right_ne_nil _ (List.cons_ne_nil _ _))
  | cons chunk chunks ih =>
    unfold Session.passes at hx
    dsimp only at hx
    rw [List.flatten_cons] at hl
    have hl := hl.arrive
    have h : Sound ({ s with buf := s.buf.append chunk } : Session).conv := h
    rcases append_cons_cases hx with ⟨l₂, hheads⟩ | ⟨l₁, rfl, hlater⟩
    · obtain ⟨us, vs, hsplit, rfl, hv⟩ := List.map_eq_append_iff.1 hheads
      obtain ⟨u, vs, rfl, rfl, -⟩ := List.map_eq_cons_iff.1 hv
      exact h.heads hl hsplit
    · split at hlater
      · rename_i s' hm
        rw [← List.append_assoc]
        obtain ⟨hsound, hled⟩ := h.msgCb hl hm
        exact ih hsound hled hlater
      · exact absurd hlater.symm (List.append_ne_nil_of_right_ne_nil _ (List.cons_ne_nil _ _))

theorem sound_new {c : Conversation} (h : Conversation.new = .ok c) : Sound c ∧ c.state_ = .kNewCommand := by
  obtain ⟨⟨-, cap, total, hs⟩, hstate⟩ := roomy_new h
  refine ⟨⟨cap, total, hs, ?_⟩, hstate⟩
  intro hr
  rw [hstate] at hr
  cases hr

/-- **Segmentation.** Two ways of cutting a stream in which no pass depends on bytes still to come end in the same way,
and the value that is stored is what follows its line. -/
theorem segmentation_independent {server : MiniMemcached} {conv : Conversation} {chunks chunks' : List Bytes}
    (hconv : Conversation.new = .ok conv) (hcut : chunks.flatten = chunks'.flatten)
    (h : ∀ x ∈ passes ⟨server, conv, .new kInitialSize⟩ chunks, x.1.Uncut)
    (h' : ∀ x ∈ passes ⟨server, conv, .new kInitialSize⟩ chunks', x.1.Uncut) :
    (feed ⟨server, conv, .new kInitialSize⟩ chunks).map observe =
        (feed ⟨server, conv, .new kInitialSize⟩ chunks').map observe ∧
      ∀ earlier x later, passes ⟨server, conv, .new kInitialSize⟩ chunks = earlier ++ x :: later →
        x.1.Stores earlier := by
  -- the session that has received the whole stream at once
  have hahead : Ahead chunks.flatten ⟨server, conv, .new kInitialSize⟩
      ⟨server, conv, (Buffer.new kInitialSize).append chunks.flatten⟩ :=
    ⟨rfl, rfl, by rw [Buffer.readable_append]⟩
  have hempty : Session.pass ⟨server, conv, .new kInitialSize⟩ = .ok none := pass_empty (Buffer.readable_new _)
  obtain ⟨o, ho, hout⟩ := hahead.feed h fun _ => hempty
  rw [hcut] at hahead ho
  obtain ⟨o', ho', hout'⟩ := hahead.feed h' fun _ => hempty
  refine ⟨?_, ?_⟩
  · rw [← hout, ← hout', ho.det ho']
  · intro earlier x later hx
    have hwaits : Led [] ⟨server, conv, .new kInitialSize⟩ chunks.flatten := by
      intro hr
      rw [(sound_new hconv).2] at hr
      cases hr
    obtain ⟨hsound, hled⟩ := (sound_new hconv).1.passes hwaits hx
    exact hled.stores hsound (h x (hx ▸ List.mem_append_right _ List.mem_cons_self))

/-- A `set` and a `get`, cut behind the `set` line, and cut inside of lines and line ends. -/
def cutBetween : List Bytes := [bytes "set a 0 0 2\r\n", bytes "xy\r\nget a\r\n"]

def cutInside : List Bytes := [bytes "set a 0 ", bytes "0 2\r\nxy", bytes "\r", bytes "\nget a\r\n"]

theorem segmentation_independent_two : ∃ s, fresh = .ok s ∧
    (s.feed cutBetween).map observe = (s.feed cutInside).map observe ∧
      ∀ earlier x later, s.passes cutBetween = earlier ++ x :: later → x.1.Stores earlier := by
  have hsome : fresh.toOption.isSome = true := by decide +kernel
  have hbetween : ∀ s ∈ fresh.toOption, ∀ x ∈ s.passes cutBetween, x.1.Uncut := by decide +kernel
  have hinside : ∀ s ∈ fresh.toOption, ∀ x ∈ s.passes cutInside, x.1.Uncut := by decide +kernel
  cases hf : fresh with
  | error f => rw [hf] at hsome; cases hsome
  | ok s =>
    rw [hf] at hbetween hinside
    obtain ⟨server, -, h⟩ := bind_eq_ok.1 (show _ >>= _ = _ from hf)
    obtain ⟨conv, hconv, h⟩ := bind_eq_ok.1 h
    cases h
    exact ⟨_, rfl, segmentation_independent hconv (by decide) (hbetween _ rfl) (hinside _ rfl)⟩

/-- The same `set` cut inside of its value. -/
def cutValue : List Bytes := [bytes "set a 0 0 2\r\nx", bytes "y\r\nget a\r\n"]

theorem not_segmentation_independent_value : ¬∀ server conv (chunks chunks' : List Bytes),
    Conversation.new = .ok conv → chunks.flatten = chunks'.flatten → (∀ c ∈ chunks ++ chunks', c ≠ []) →
      (feed ⟨server, conv, .new kInitialSize⟩ chunks).map observe =
        (feed ⟨server, conv, .new kInitialSize⟩ chunks').map observe := by
  intro h
  have hne : ∀ s ∈ fresh.toOption, (s.feed cutBetween).toOption.map (fun s => s.conv.sent) ≠
      (s.feed cutValue).toOption.map fun s => s.conv.sent := by decide +kernel
  have hsome : fresh.toOption.isSome = true := by decide +kernel
  cases hf : fresh with
  | error f => rw [hf] at hsome; cases hsome
  | ok s =>
    rw [hf] at hne
    obtain ⟨server, -, h'⟩ := bind_eq_ok.1 (show _ >>= _ = _ from hf)
    obtain ⟨conv, hconv, h'⟩ := bind_eq_ok.1 h'
    cases h'
    have heq := h server conv cutBetween cutValue hconv (by decide) (by decide)
    have hsent : ∀ x : Except Fault Session, x.toOption.map (fun s => s.conv.sent) =
        (x.map observe).toOption.map fun p => p.2.1.sent := fun x => by cases x <;> rfl
    refine hne _ rfl ?_
    rw [hsent, hsent, heq]

end Session

end Libeva.Minimemcached
