import Libeva.Minimemcached.Segmentation

/-!
# What `msgCb` takes

The loop ends because each of its passes takes a byte. That rests on two things that are set elsewhere: the state is
never `kDiscardValue`, whose branch does nothing, and a value that is waited for has room in the entry.

* `Live`: these two; `live_of_pass`, `Live.consumes`.
* `Handles`: the code can deal with the line of the next pass; `pass_returns_iff`.
* `Drains`: the loop returns, takes a byte per pass, and leaves nothing that it could take; `drains_iff`.
-/

namespace Libeva.Minimemcached

open Net StringTokenizer

namespace Session

open Conversation

/-- The state is one of those with a branch, and a value that is waited for has room. -/
structure Live (c : Conversation) : Prop where
  state : c.state_ ≠ .kDiscardValue
  room : c.state_ = .kReceiveValue → 0 < c.currEntry_.numFree

/-- The call on the store of the next pass returns. -/
def storeReturns (s : Session) : Bool :=
  match s.job, s.touch with
  | .get _, .ok e => (s.server_.get e).isOk
  | .value, .ok e =>
    match Entry.clone e.data_ e.keyLen_ e.valueLen_ (toInt e.numFree) with
    | .ok entry => (s.server_.set entry).isOk
    | .error _ => true
  | _, _ => true

/-- The key of a `get` has room in the block of the entry, and the byte count of a `set` is a number, which with the
length of the key is an `int`. -/
def Job.Fits (entry : Entry) : Job → Prop
  | .get key => key.length ≤ entry.data_.length
  | .set key data => ∃ n ∈ (atoi data).toOption, 1 ≤ n ∧ n ≤ 1024 → key.length + n ≤ INT_MAX
  | _ => True

instance (entry : Entry) : (j : Job) → Decidable (j.Fits entry)
  | .get _ => inferInstanceAs (Decidable (_ ≤ _))
  | .set _ _ => inferInstanceAs (Decidable (∃ n ∈ _, _))
  | .idle | .value => inferInstanceAs (Decidable True)

/-- The code can deal with what the next pass takes; the length of a line is not negative as an `int`. -/
def Handles (s : Session) : Prop :=
  (s.conv.state_ = .kNewCommand → ∀ p ∈ s.found, 0 ≤ toInt p.1 ∧ toInt p.1 + p.2 < 2 ^ 31) ∧
    s.job.Fits s.conv.currEntry_

instance (s : Session) : Decidable s.Handles := by
  unfold Handles
  infer_instance

/-- The loop of `msgCb` returns, never in `kDiscardValue` and with less in the buffer after each pass, and it leaves
nothing that it could take. -/
structure Drains (s : Session) : Prop where
  returns : ∃ t, s.msgCb = .ok t ∧ Loop.Ends pass s (.ok t) ∧
    (t.buf.readable = [] ∨ t.conv.state_ = .kNewCommand ∧ 10 ∉ t.buf.readable)
  state : ∀ u, Loop.Visits pass s u → u.conv.state_ ≠ .kDiscardValue
  consumes : ∀ u u', Loop.Visits pass s u → u.pass = .ok (some u') → u'.buf.readableBytes < u.buf.readableBytes

variable {s s' t u : Session} {c c' : Conversation} {server : MiniMemcached} {k d : Bytes} {n e : ℕ}

/-! ## Progress -/

theorem live_of_pass (hp : s.pass = .ok (some s')) : Live s'.conv := by
  obtain ⟨-, ⟨hs, n, e, -, hl⟩ | ⟨-, hr⟩⟩ := pass_cases hp
  · rcases state_of_line hs hl with hstate | ⟨hstate, hpos, -⟩
    · exact ⟨by rw [hstate]; exact nofun, by rw [hstate]; exact nofun⟩
    · exact ⟨by rw [hstate]; exact nofun, fun _ => hpos⟩
  · obtain ⟨_, _, _, _, _, _, _, hconv, -⟩ := receiveValue_ok hr
    rw [hconv]
    exact ⟨nofun, nofun⟩

/-- A pass that goes on takes a byte. -/
theorem Live.consumes (h : Live s.conv) (hp : s.pass = .ok (some s')) : s'.buf.readableBytes < s.buf.readableBytes := by
  obtain ⟨hne, hcases⟩ := pass_cases hp
  have hlen := List.length_pos_of_ne_nil hne
  rw [← Buffer.length_readable, ← Buffer.length_readable]
  rcases hcases with ⟨-, n, e, hf, hl⟩ | ⟨hs, hr⟩
  · obtain ⟨-, c, rfl, -⟩ := line_ok hl
    have he := found_pos hf
    rw [Buffer.readable_retrieve, List.length_drop]
    omega
  · obtain ⟨_, _, _, _, _, _, _, -, hbuf⟩ := receiveValue_ok hr
    have hnum : 0 < s.numBytes := lt_min (by rwa [← Buffer.length_readable]) (h.room hs)
    rw [hbuf, Buffer.readable_retrieve, List.length_drop]
    omega

/-- The loop leaves an empty buffer, or the start of a line. -/
theorem drained_of_leave (hp : s.pass = .ok none) :
    s.buf.readable = [] ∨ s.conv.state_ = .kNewCommand ∧ 10 ∉ s.buf.readable := by
  rcases pass_leaves hp with hnil | ⟨hs, hf⟩
  · exact .inl hnil
  · exact .inr ⟨hs, found_eq_none_iff.1 hf⟩

/-! ## What the next pass can deal with -/

theorem getKey_returns_iff (hc : Sound c) (hk : k.length ≤ INT_MAX)
    (hstore : ∀ e, c.currEntry_.resetKey k = .ok e → (server.get e).isOk) :
    (∃ c', c.getKey server k = .ok c') ↔ (Job.get k).Fits c.currEntry_ := by
  obtain ⟨cap, total, hsz, -⟩ := hc
  unfold Job.Fits
  rw [hsz.cap_eq]
  constructor
  · rintro ⟨c', h⟩
    obtain ⟨e, _, he, -⟩ := getKey_ok h
    exact Entry.le_of_resetKey hsz hk he
  · intro hle
    obtain ⟨e, he, -⟩ := Entry.resetKey_ok hsz hle
    have hget := hstore e he
    unfold getKey
    rw [he, ok_bind]
    cases hg : server.get e with
    | error f => rw [hg] at hget; cases hget
    | ok entry => exact ⟨_, rfl⟩

theorem setKey_returns_iff (hc : Sound c) (hk : k.length ≤ INT_MAX) :
    (∃ c', c.setKey k d = .ok c') ↔ (Job.set k d).Fits c.currEntry_ := by
  obtain ⟨cap, total, hsz, -⟩ := hc
  unfold Job.Fits
  dsimp only
  cases hn : atoi d with
  | error f =>
    refine iff_of_false ?_ ?_
    · rintro ⟨c', h⟩
      obtain ⟨n, hn', -⟩ := setKey_ok h
      rw [hn] at hn'
      cases hn'
    · rintro ⟨n, hmem, -⟩
      cases hmem
  | ok n =>
    constructor
    · rintro ⟨c', h⟩
      refine ⟨n, rfl, fun hrange => ?_⟩
      obtain ⟨n', hn', ⟨hrange', -⟩ | ⟨-, e, he, -⟩⟩ := setKey_ok h
      · rw [hn] at hn'
        cases hn'
        omega
      · rw [hn] at hn'
        cases hn'
        obtain ⟨m, rfl⟩ := Int.eq_ofNat_of_zero_le (a := n) (by omega)
        exact_mod_cast Entry.le_of_resetKeyValue hsz hk he
    · rintro ⟨_, hmem, hfits⟩
      cases hmem
      unfold setKey
      rw [hn, ok_bind]
      split
      · exact ⟨c, rfl⟩
      · rename_i hrange
        obtain ⟨m, rfl⟩ := Int.eq_ofNat_of_zero_le (a := n) (by omega)
        have hkm : k.length + m ≤ INT_MAX := by exact_mod_cast hfits (by omega)
        obtain ⟨e, he, -⟩ := Entry.resetKeyValue_ok hsz hkm
        rw [show c.currEntry_.resetKeyValue k m = _ from he]
        exact ⟨_, rfl⟩

theorem line_returns_iff : (∃ s', s.line n e = .ok s') ↔ (0 ≤ toInt n ∧ toInt n + e < 2 ^ 31) ∧
    (toInt n ≠ 0 → ∃ c, s.conv.handle_command s.server_ (s.buf.readable.take (toInt n).toNat)
      (s.buf.peek.drop (toInt n).toNat) = .ok c) := by
  constructor
  · rintro ⟨s', h⟩
    obtain ⟨hpos, c, -, hc⟩ := line_ok h
    exact ⟨⟨hpos, le_of_line h⟩, fun hz => ⟨c, by rwa [if_pos hz] at hc⟩⟩
  · rintro ⟨⟨hpos, hlt⟩, hc⟩
    unfold line
    dsimp only
    rw [if_neg hpos.not_gt, int_ok (by omega) hlt]
    by_cases hz : toInt n = 0
    · rw [if_neg (not_not.2 hz)]
      exact ⟨_, rfl⟩
    · obtain ⟨c, hc⟩ := hc hz
      rw [if_pos hz, hc]
      exact ⟨_, rfl⟩

theorem job_idle (h : s.found = none) (hs : s.conv.state_ = .kNewCommand) : s.job = .idle := by
  unfold job
  rw [hs, h]
  split <;> rfl

theorem handle_command_returns_iff (hc : Sound s.conv) (hs : s.conv.state_ = .kNewCommand) (hne : s.buf.readable ≠ [])
    (hf : s.found = some (n, e)) (hr : s.storeReturns) (hpos : 0 < toInt n) :
    (∃ c, s.conv.handle_command s.server_ (s.buf.readable.take (toInt n).toNat) (s.buf.peek.drop (toInt n).toNat) =
      .ok c) ↔ s.job.Fits s.conv.currEntry_ := by
  have hjob := job_line hne hs hf
  rw [if_neg hpos.not_ge] at hjob
  have hlen : (s.buf.readable.take (toInt n).toNat).length ≤ INT_MAX := by
    have hlt := toInt_lt n
    rw [List.length_take]
    exact le_INT_MAX.2 (by omega)
  rcases s.conv.handle_command_cases (s.buf.readable.take (toInt n).toNat) with
    ⟨key, cmd, hreq, hcmd⟩ | ⟨key, d, cmd, hreq, hcmd⟩ | ⟨c, hreq, -, hcmd⟩
  · rw [hreq] at hjob
    rw [hjob, hcmd]
    refine getKey_returns_iff (hc.same (same_command _ cmd) hs)
      ((length_request (d := []) (.inl hreq)).trans hlen) fun e he => ?_
    have ht : s.touch = .ok e := by
      unfold touch
      rw [hjob]
      exact he
    unfold storeReturns at hr
    rwa [hjob, ht] at hr
  · rw [hreq] at hjob
    rw [hjob, hcmd]
    exact setKey_returns_iff (hc.same (same_command _ cmd) hs) ((length_request (.inr hreq)).trans hlen)
  · rw [hreq] at hjob
    rw [hjob, hcmd]
    exact iff_of_true ⟨c, rfl⟩ trivial

/-- A value that is waited for is appended, and the entry is put into the store. -/
theorem receiveValue_returns (hc : Sound s.conv) (hs : s.conv.state_ = .kReceiveValue) (hne : s.buf.readable ≠ [])
    (hr : s.storeReturns) : ∃ s', s.receiveValue = .ok s' := by
  obtain ⟨cap, total, hsz, hval⟩ := hc
  obtain ⟨hfree, -⟩ := hval hs
  have hn := numBytes_le_free hfree
  obtain ⟨e, happ, hsz', -, -, hfree'⟩ := Entry.append_ok hsz hn numBytes_le_length
  obtain ⟨entry, hclone, -⟩ := Entry.clone_ok hsz' (by omega)
  obtain ⟨reset, hreset, -⟩ := Entry.reset_ok hsz'
  have ht : s.touch = .ok e := by
    unfold touch
    rw [job_value hne hs]
    exact happ
  unfold storeReturns at hr
  rw [job_value hne hs, ht] at hr
  dsimp only at hr
  rw [hclone] at hr
  have hset : (s.server_.set entry).isOk = true := hr
  unfold receiveValue resetRequest
  rw [happ, ok_bind, hclone, ok_bind]
  cases hserver : s.server_.set entry with
  | error f => rw [hserver] at hset; cases hset
  | ok server =>
    rw [ok_bind, hreset]
    exact ⟨_, rfl⟩

/-- One step: where the store returns, the next pass returns exactly if the code can deal with what it takes. -/
theorem pass_returns_iff (hc : Sound s.conv) (hl : Live s.conv) (hr : s.storeReturns) :
    (∃ o, s.pass = .ok o) ↔ s.Handles := by
  unfold Handles
  by_cases hne : s.buf.readable = []
  · have hjob : s.job = .idle := if_pos (Buffer.readableBytes_eq_zero.2 hne)
    rw [pass_empty hne, found_nil hne, hjob]
    exact iff_of_true ⟨none, rfl⟩ ⟨fun _ => nofun, trivial⟩
  cases hs : s.conv.state_ with
  | kNewCommand =>
    rw [pass_newCommand hs hne]
    cases hf : s.found with
    | none =>
      rw [job_idle hf hs]
      exact iff_of_true ⟨none, rfl⟩ ⟨fun _ => nofun, trivial⟩
    | some p =>
      obtain ⟨n, e⟩ := p
      have hmap : (∃ o, (s.line n e).map some = .ok o) ↔ ∃ s', s.line n e = .ok s' := by
        cases s.line n e with
        | error f => exact iff_of_false nofun nofun
        | ok s' => exact iff_of_true ⟨_, rfl⟩ ⟨s', rfl⟩
      have hlen : (STATE.kNewCommand = .kNewCommand → ∀ p ∈ some (n, e), 0 ≤ toInt p.1 ∧ toInt p.1 + p.2 < 2 ^ 31) ↔
          0 ≤ toInt n ∧ toInt n + e < 2 ^ 31 :=
        ⟨fun h => h rfl (n, e) rfl, fun h _ p hp => by cases hp; exact h⟩
      rw [hmap, hlen, line_returns_iff]
      refine and_congr_right ?_
      intro hpos
      rcases hpos.1.eq_or_lt with hz | hz
      · rw [job_line hne hs hf, if_pos hz.ge]
        exact iff_of_true (fun hn => absurd hz.symm hn) trivial
      · rw [← handle_command_returns_iff hc hs hne hf hr hz]
        exact forall_prop_of_true hz.ne'
  | kReceiveValue =>
    obtain ⟨s', hs'⟩ := receiveValue_returns hc hs hne hr
    rw [pass_receiveValue hs hne, hs', job_value hne hs]
    exact iff_of_true ⟨_, rfl⟩ ⟨nofun, trivial⟩
  | kDiscardValue => exact absurd hs hl.state

/-! ## Any buffer -/

theorem drains_of_live (hc : Sound s.conv) (hl : Live s.conv) (hstore : ∀ u, Loop.Visits pass s u → u.storeReturns) :
    Drains s ↔ ∀ u, Loop.Visits pass s u → u.Handles := by
  have hvisits : ∀ u, Loop.Visits pass s u → Sound u.conv ∧ Live u.conv := fun u hu =>
    hu.invariant (I := fun u => Sound u.conv ∧ Live u.conv) (fun _ _ h hp => ⟨h.1.pass hp, live_of_pass hp⟩) ⟨hc, hl⟩
  have hend := s.ends_msgCb
  have hiff : (∃ t, s.msgCb = .ok t) ↔ ∀ u, Loop.Visits pass s u → u.Handles := by
    rw [hend.ok_iff]
    refine forall_congr' fun u => forall_congr' fun hu => ?_
    exact pass_returns_iff (hvisits u hu).1 (hvisits u hu).2 (hstore u hu)
  rw [← hiff]
  constructor
  · rintro ⟨⟨t, ht, -⟩, -, -⟩
    exact ⟨t, ht⟩
  · rintro ⟨t, ht⟩
    rw [ht] at hend
    exact ⟨⟨t, ht, hend, drained_of_leave hend.visits.2⟩, fun u hu => (hvisits u hu).2.state,
      fun u _ hu hp => (hvisits u hu).2.consumes hp⟩

theorem live_reach {s₀ : Session} (h0 : fresh = .ok s₀) (h : Lts.Reach (Lts.ofFun s₀ act) s) :
    Sound s.conv ∧ Live s.conv := by
  refine h.invariant (I := fun s => Sound s.conv ∧ Live s.conv) ?_ ?_
  · rintro _ rfl
    obtain ⟨hsound, hs⟩ := sound_new (conv_of_fresh h0)
    exact ⟨hsound, ⟨by rw [hs]; exact nofun, by rw [hs]; exact nofun⟩⟩
  · intro t a u _ ht hst
    cases a with
    | recv chunk => cases hst; exact ht
    | store server => cases hst; exact ht
    | pass =>
      have hp := pass_of_act hst
      exact ⟨ht.1.pass hp, live_of_pass hp⟩

/-- **Progress.** In every state that a connection reaches, with any bytes in the buffer and where the calls on the
store return, `msgCb` drains the buffer if and only if the code can deal with what each of its passes takes. -/
theorem drains_iff {s₀ : Session} (h0 : fresh = .ok s₀) (h : Lts.Reach (Lts.ofFun s₀ act) s) (b : Buffer)
    (hstore : ∀ u, Loop.Visits pass { s with buf := b } u → u.storeReturns) :
    Drains { s with buf := b } ↔ ∀ u, Loop.Visits pass { s with buf := b } u → u.Handles := by
  obtain ⟨hsound, hlive⟩ := live_reach h0 h
  exact drains_of_live (s := { s with buf := b }) hsound hlive hstore

/-- A value is waited for. -/
def awaiting : List Act := [.recv (bytes "set a 0 0 3\r\n"), .pass]

/-- The value, a line end, commands and the start of another. -/
def mixed : Buffer := (Buffer.new kInitialSize).append (bytes "xyz\r\n\nget a\nTest\r\nset a\r\nge")

theorem drains_iff_mixed : ∃ s₀ s, execFresh awaiting = some (s₀, s) ∧ Drains { s with buf := mixed } := by
  have hsome : (execFresh awaiting).isSome = true := by decide +kernel
  obtain ⟨⟨s₀, s⟩, hp⟩ := Option.isSome_iff_exists.1 hsome
  obtain ⟨h0, hrun⟩ := exec_fresh hp
  have hall : ∀ p ∈ execFresh awaiting, ∀ u ∈ heads { p.2 with buf := mixed }, u.storeReturns ∧ u.Handles := by
    decide +kernel
  rw [hp] at hall
  have hheads := hall (s₀, s) rfl
  refine ⟨s₀, s, hp, (drains_iff h0 (hrun.reach (.init rfl)) mixed fun u hu => (hheads u (mem_heads hu)).1).2 ?_⟩
  intro u hu
  exact (hheads u (mem_heads hu)).2

/-- A line of `n + 2` bytes. -/
def longLine (n : ℕ) : Bytes := 120 :: 32 :: List.replicate n 97

/-- Four gigabytes in front of the line end: the length of the line is -2 as an `int`. -/
theorem not_drains_longLine : ¬∀ s₀ s b, fresh = .ok s₀ → Lts.Reach (Lts.ofFun s₀ act) s →
    (∀ u, Loop.Visits pass { s with buf := b } u → u.storeReturns) → Drains { s with buf := b } := by
  intro h
  obtain ⟨m, c, hfresh, hs, -⟩ := fresh_eq
  obtain ⟨n, hn⟩ : ∃ n, n = 2 ^ 32 - 4 := ⟨_, rfl⟩
  have hlen : (longLine n).length = n + 2 := congrArg (· + 2) List.length_replicate
  have hcr : 13 ∉ longLine n := by
    unfold longLine
    simp [List.mem_replicate]
  have hneg : toInt (n + 2) < 0 := by
    unfold toInt
    rw [hn]
    decide
  let s : Session := ⟨m, c, (Buffer.new kInitialSize).append (longLine n ++ kCRLF)⟩
  have hread : s.buf.readable = longLine n ++ (kCRLF ++ []) := by
    show ((Buffer.new kInitialSize).append _).readable = _
    rw [Buffer.readable_append, Buffer.readable_new, List.nil_append, List.append_nil]
  have hne : s.buf.readable ≠ [] := by
    rw [hread]
    exact List.cons_ne_nil _ _
  have hfound : s.found = some (n + 2, 2) := by
    apply found_of_searchCRLF
    rw [hread, Buffer.searchCRLF_append hcr, hlen]
  have hpass : s.pass = .error .outOfBounds := by
    rw [pass_newCommand hs hne, hfound]
    dsimp only
    unfold line
    dsimp only
    rw [if_pos hneg]
    rfl
  have hdrains : Drains s := by
    refine h _ ⟨m, c, .new kInitialSize⟩ _ hfresh (.init rfl) ?_
    intro u hu
    cases hu with
    | here =>
      unfold storeReturns
      rw [job_line hne hs hfound, if_pos hneg.le]
    | pass hp _ => rw [hpass] at hp; cases hp
  obtain ⟨t, -, hend, -⟩ := hdrains.returns
  cases hend.det (.fail hpass)

end Session

end Libeva.Minimemcached
