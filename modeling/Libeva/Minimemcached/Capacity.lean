import Libeva.Lib.Runs
import Libeva.Minimemcached.Passes

/-!
# The capacity of the scratch entry over whole conversations

* `Act`, `act`: chunks arrive, the other conversations change the store, `msgCb` makes a pass.
* `job`, `touch`: what the next pass does with `currEntry_` before the `Reset`.
* `KeyFits`: the key of a `get` is no longer than the three lengths of the entry together, and key and value of a `set`
  have an `int` as their length.
* `entry_fits`: in a run whose passes all meet `KeyFits` the lengths stay inside the block and so does every `memmove`.
-/

namespace Libeva.Minimemcached

open Net

namespace Session

open Conversation

/-- A new connection on a new store. -/
def fresh : Except Fault Session := do
  let server ← MiniMemcached.new
  let conv ← Conversation.new
  return ⟨server, conv, .new kInitialSize⟩

theorem fresh_eq : ∃ m c, fresh = .ok ⟨m, c, .new kInitialSize⟩ ∧ c.state_ = .kNewCommand ∧ c.sent = [] := by
  obtain ⟨e, hm, -⟩ := MiniMemcached.new_ok
  obtain ⟨e', he, -⟩ := Entry.new_ok (bytes "Invalid") 128 (by decide)
  refine ⟨⟨fun _ => .build e⟩, ⟨e', [], .kNewCommand, .new kInitialSize, []⟩, ?_, rfl, rfl⟩
  unfold fresh Conversation.new
  rw [hm, show Entry.new (bytes "Invalid") 128 = _ from he]
  rfl

inductive Act
  | recv (chunk : Bytes)
  | store (server : MiniMemcached)
  | pass

def act (s : Session) : Act → Option Session
  | .recv chunk => some { s with buf := s.buf.append chunk }
  | .store server => some { s with server_ := server }
  | .pass =>
    match s.pass with
    | .ok s' => s'
    | .error _ => none

inductive Job
  | idle
  | get (key : Bytes)
  | set (key data : Bytes)
  | value

/-- What the next pass does with `currEntry_`; `data` is what `atoi` gets. -/
def job (s : Session) : Job :=
  if s.buf.readableBytes = 0 then .idle
  else
    match s.conv.state_ with
    | .kNewCommand =>
      match s.found with
      | none => .idle
      | some (n, _) =>
        if toInt n ≤ 0 then .idle
        else
          match request (s.buf.readable.take (toInt n).toNat) with
          | .get key => .get key
          | .set key count => .set key (count ++ s.buf.peek.drop (toInt n).toNat)
          | .other => .idle
    | .kReceiveValue => .value
    | .kDiscardValue => .idle

/-- `currEntry_` after the `resetKey` or the `append` of the next pass. -/
def touch (s : Session) : Except Fault Entry :=
  match s.job with
  | .idle => .ok s.conv.currEntry_
  | .get key => s.conv.currEntry_.resetKey key
  | .set key data =>
    match atoi data with
    | .error f => .error f
    | .ok n => if n ≤ 0 ∨ 1024 < n then .ok s.conv.currEntry_ else s.conv.currEntry_.resetKeyValue key n
  | .value => s.conv.currEntry_.append s.buf.readable s.numBytes

/-- The next pass meets the condition: a `get` has a key that fits, a `set` a key and a value whose length is an
`int`. -/
def KeyFits (s : Session) : Prop :=
  match s.job with
  | .get key => key.length ≤ s.conv.currEntry_.keyLen_ + s.conv.currEntry_.valueLen_ + s.conv.currEntry_.free_
  | .set key data =>
    match atoi data with
    | .ok n => 1 ≤ n ∧ n ≤ 1024 → key.length + n ≤ INT_MAX
    | .error _ => True
  | _ => True

instance (s : Session) : Decidable s.KeyFits := by
  unfold KeyFits
  split
  · infer_instance
  · split <;> infer_instance
  · infer_instance

/-- A move that is not a pass at which the condition fails. -/
def Meets (x : Session × Act × Session) : Prop :=
  match x.2.1 with
  | .pass => x.1.KeyFits
  | _ => True

instance (x : Session × Act × Session) : Decidable (Meets x) := by
  unfold Meets
  split <;> infer_instance

variable {s s' : Session} {e : Entry}

theorem job_line {n k : ℕ} (hne : s.buf.readable ≠ []) (hs : s.conv.state_ = .kNewCommand)
    (hf : s.found = some (n, k)) :
    s.job = if toInt n ≤ 0 then .idle
      else match request (s.buf.readable.take (toInt n).toNat) with
        | .get key => .get key
        | .set key count => .set key (count ++ s.buf.peek.drop (toInt n).toNat)
        | .other => .idle := by
  unfold job
  rw [if_neg (mt Buffer.readableBytes_eq_zero.1 hne), hs, hf]

theorem job_value (hne : s.buf.readable ≠ []) (hs : s.conv.state_ = .kReceiveValue) : s.job = .value := by
  unfold job
  rw [if_neg (mt Buffer.readableBytes_eq_zero.1 hne), hs]

theorem pass_of_act (h : s.act .pass = some s') : s.pass = .ok (some s') := by
  unfold act at h
  dsimp only at h
  split at h
  · rename_i t hp
    rw [hp, h]
  · cases h

/-- A pass leaves `currEntry_` as `touch` says, or as the `Reset` after it. -/
theorem touch_of_pass (h : s.pass = .ok (some s')) :
    ∃ e, s.touch = .ok e ∧ (s'.conv.currEntry_ = e ∨ e.Reset = .ok s'.conv.currEntry_) := by
  obtain ⟨hne, ⟨hs, n, k, hf, hl⟩ | ⟨hs, hr⟩⟩ := pass_cases h
  · obtain ⟨hpos, c', rfl, hc⟩ := line_ok hl
    have hjob := job_line hne hs hf
    unfold touch
    rcases hpos.eq_or_lt with hz | hz
    · rw [if_neg (not_not.2 hz.symm)] at hc
      rw [hjob, if_pos hz.ge]
      exact ⟨_, rfl, .inl (by rw [hc])⟩
    · rw [if_pos hz.ne'] at hc
      rw [hjob, if_neg hz.not_ge]
      rcases handle_command_cases s.conv (s.buf.readable.take (toInt n).toNat) with
        ⟨key, _, hreq, hcmd⟩ | ⟨key, d, _, hreq, hcmd⟩ | ⟨c, hreq, hsame, hcmd⟩
      · rw [hcmd] at hc
        obtain ⟨e, _, he, -, hc', -⟩ := getKey_ok hc
        rw [hreq]
        exact ⟨e, he, .inl hc'⟩
      · rw [hcmd] at hc
        obtain ⟨m, hm, ⟨hrange, hc'⟩ | ⟨hrange, e, he, hc'⟩⟩ := setKey_ok hc
        · rw [hreq]
          dsimp only
          rw [hm]
          exact ⟨_, if_pos hrange, .inl (by rw [hc'])⟩
        · rw [hreq]
          dsimp only
          rw [hm]
          exact ⟨e, (if_neg hrange).trans he, .inl (by rw [hc'])⟩
      · rw [hcmd] at hc
        cases hc
        rw [hreq]
        exact ⟨_, rfl, .inl hsame.currEntry⟩
  · obtain ⟨e, _, _, he, -, -, hreset, hconv, -⟩ := receiveValue_ok hr
    unfold touch
    rw [job_value hne hs]
    exact ⟨e, he, .inr (by rw [hconv]; exact hreset)⟩

/-- The lengths are inside the block, with some capacity and some total. -/
def Roomy (e : Entry) : Prop := 0 ≤ e.free_ ∧ ∃ cap total, e.Sized cap total

theorem Roomy.fits (h : Roomy e) : e.Fits := by
  obtain ⟨hf, _, _, hs⟩ := h
  exact hs.fits hf

theorem Roomy.reset {e' : Entry} (h : Roomy e) (hr : e.Reset = .ok e') : Roomy e' := by
  obtain ⟨-, cap, total, hs⟩ := h
  obtain ⟨e'', hr', hs', hf⟩ := Entry.reset_ok hs
  rw [hr'] at hr
  cases hr
  exact ⟨hf ▸ Int.natCast_nonneg _, cap, total, hs'⟩

/-- One step: `resetKey` and `append` stay inside the block and leave the lengths inside it. -/
theorem Roomy.touch (h : Roomy s.conv.currEntry_) (hk : s.KeyFits) :
    Safe s.touch ∧ ∀ e, s.touch = .ok e → Roomy e := by
  have done : ∀ {x : Except Fault Entry} {e : Entry}, x = .ok e → Roomy e → Safe x ∧ ∀ e, x = .ok e → Roomy e := by
    rintro _ e rfl he
    exact ⟨safe_ok e, fun e' h => Except.ok.inj h ▸ he⟩
  have ⟨hf, cap, total, hs⟩ := h
  unfold KeyFits at hk
  unfold Session.touch
  cases hj : s.job with
  | idle => exact done rfl h
  | get key =>
    rw [hj] at hk
    dsimp only at hk ⊢
    rw [hs.total_eq] at hk
    have hle := hs.total_le
    have hfit : key.length ≤ cap := by omega
    obtain ⟨e, he, hs', -, -, hf'⟩ := Entry.resetKey_ok hs hfit
    exact done he ⟨by omega, cap, total, hs'⟩
  | set key data =>
    rw [hj] at hk
    dsimp only at hk ⊢
    cases hn : atoi data with
    | error f =>
      rw [atoi_error hn]
      exact ⟨nofun, nofun⟩
    | ok n =>
      rw [hn] at hk
      dsimp only at hk ⊢
      split
      · exact done rfl h
      · rename_i hrange
        obtain ⟨m, rfl⟩ := Int.eq_ofNat_of_zero_le (a := n) (by omega)
        have hkm : key.length + m ≤ INT_MAX := by exact_mod_cast hk (by omega)
        obtain ⟨e, he, hs', -, hf', -⟩ := Entry.resetKeyValue_ok hs hkm
        exact done he ⟨hf' ▸ Int.natCast_nonneg _, _, _, hs'⟩
  | value =>
    have hn := numBytes_le_free hf
    obtain ⟨e, he, hs', -, -, hf'⟩ := Entry.append_ok hs hn numBytes_le_length
    exact done he ⟨by omega, cap, total, hs'⟩

theorem Roomy.safe_clone (h : Roomy e) :
    Safe (Entry.clone e.data_ e.keyLen_ e.valueLen_ (toInt e.numFree)) := by
  obtain ⟨hf, cap, total, hs⟩ := h
  obtain ⟨e', he', -⟩ := Entry.clone_ok hs hf
  rw [he']
  exact safe_ok e'

/-- A pass writes outside of a block only with its `resetKey` or `append`. -/
theorem Roomy.safe_pass (ht : Safe s.touch) (hroom : ∀ e, s.touch = .ok e → Roomy e) : Safe s.pass := by
  by_cases hne : s.buf.readable = []
  · rw [pass_empty hne]
    exact safe_ok _
  unfold Session.touch at ht hroom
  cases hs : s.conv.state_ with
  | kNewCommand =>
    rw [pass_newCommand hs hne]
    cases hf : s.found with
    | none => exact safe_ok _
    | some p =>
      obtain ⟨n, e⟩ := p
      refine Safe.map (safe_line ?_)
      intro hpos
      rw [job_line hne hs hf, if_neg hpos.not_ge] at ht
      rcases handle_command_cases s.conv (s.buf.readable.take (toInt n).toNat) with
        ⟨key, cmd, hreq, hcmd⟩ | ⟨key, d, cmd, hreq, hcmd⟩ | ⟨c, hreq, -, hcmd⟩
      · rw [hreq] at ht
        rw [hcmd]
        exact safe_getKey ht
      · rw [hreq] at ht
        rw [hcmd]
        refine safe_setKey ?_
        intro m hm hrange
        dsimp only at ht
        rw [hm] at ht
        dsimp only at ht
        rw [if_neg hrange] at ht
        exact ht
      · rw [hcmd]
        exact safe_ok c
  | kReceiveValue =>
    rw [job_value hne hs] at ht hroom
    rw [pass_receiveValue hs hne]
    exact Safe.map (safe_receiveValue ht fun e he => (hroom e he).safe_clone)
  | kDiscardValue =>
    unfold Session.pass
    rw [if_neg (mt Buffer.readableBytes_eq_zero.1 hne), hs]
    exact nofun

theorem conv_of_fresh (h : fresh = .ok s) : Conversation.new = .ok s.conv := by
  unfold fresh at h
  obtain ⟨server, -, h⟩ := bind_eq_ok.1 h
  obtain ⟨conv, hconv, h⟩ := bind_eq_ok.1 h
  cases h
  exact hconv

theorem roomy_new {c : Conversation} (h : Conversation.new = .ok c) :
    Roomy c.currEntry_ ∧ c.state_ = .kNewCommand := by
  unfold Conversation.new at h
  obtain ⟨e, he, h⟩ := bind_eq_ok.1 h
  cases h
  obtain ⟨e', he', hs, hf, -⟩ := Entry.new_ok (bytes "Invalid") 128 (by decide)
  rw [show Entry.new (bytes "Invalid") 128 = _ from he'] at he
  cases he
  exact ⟨⟨by rw [hf]; exact Int.natCast_nonneg _, _, _, hs⟩, rfl⟩

/-- A run whose moves all meet the condition keeps the lengths inside the block. -/
theorem roomy_run {s₀ : Session} {w : List (Session × Act × Session)} (h0 : Roomy s₀.conv.currEntry_)
    (h : Lts.Run (Lts.ofFun s₀ act) s₀ w s) (hw : ∀ x ∈ w, Meets x) : Roomy s.conv.currEntry_ := by
  refine h.invariant (I := fun s => Roomy s.conv.currEntry_) ?_ hw h0 s h.last_mem
  intro t a u ht hk hst
  cases a with
  | recv chunk => cases hst; exact ht
  | store server => cases hst; exact ht
  | pass =>
    obtain ⟨e, he, hu⟩ := touch_of_pass (pass_of_act hst)
    have hroom := (ht.touch hk).2 e he
    rcases hu with hu | hu
    · rw [hu]; exact hroom
    · exact hroom.reset hu

/-- **Capacity.** In every state of a run whose passes meet the condition the three lengths fit into the block. If the
next pass meets it too, then that pass, its `resetKey` and its `append` write into the block only, and the lengths that
`resetKey` or `append` leaves fit. -/
theorem entry_fits {s₀ : Session} {w : List (Session × Act × Session)} (h0 : fresh = .ok s₀)
    (h : Lts.Run (Lts.ofFun s₀ act) s₀ w s) (hw : ∀ x ∈ w, Meets x) : s.conv.currEntry_.Fits ∧
    (s.KeyFits → Safe s.pass ∧ Safe s.touch ∧ ∀ e, s.touch = .ok e → e.Fits) := by
  have hs := roomy_run (roomy_new (conv_of_fresh h0)).1 h hw
  refine ⟨hs.fits, ?_⟩
  intro hk
  obtain ⟨hsafe, hroom⟩ := hs.touch hk
  exact ⟨Roomy.safe_pass hsafe hroom, hsafe, fun e he => (hroom e he).fits⟩

/-- A schedule on a new connection. -/
def execFresh (acts : List Act) : Option (Session × Session) :=
  match fresh with
  | .ok s₀ => (Lts.exec act s₀ acts).map fun s => (s₀, s)
  | .error _ => none

theorem exec_fresh {acts : List Act} {p : Session × Session} (h : execFresh acts = some p) :
    fresh = .ok p.1 ∧ Lts.Run (Lts.ofFun p.1 act) p.1 (Lts.moves act p.1 acts) p.2 := by
  unfold execFresh at h
  split at h
  · rename_i s₀ hs₀
    obtain ⟨s, hs, rfl⟩ := Option.map_eq_some_iff.1 h
    exact ⟨hs₀, Lts.Run.moves hs⟩
  · cases h

/-- A value of one byte is set. -/
def setShort : List Act := [.recv (bytes "set a 0 0 1\r\nx\r\n"), .pass, .pass, .pass]

/-- After that a key of three bytes is got. -/
def getLong : List Act := setShort ++ [.recv (bytes "get abc\r\n"), .pass]

/-- The same key is got, and set again with a value of two bytes. -/
def getSet : List Act :=
  setShort ++ [.recv (bytes "get a\r\nset a 0 0 2\r\nxy\r\n"), .pass, .pass, .pass, .pass]

theorem entry_fits_getSet : ∃ s₀ s, execFresh getSet = some (s₀, s) ∧ s.conv.currEntry_.Fits := by
  have hsome : (execFresh getSet).isSome = true := by decide +kernel
  obtain ⟨⟨s₀, s⟩, hp⟩ := Option.isSome_iff_exists.1 hsome
  obtain ⟨h0, hrun⟩ := exec_fresh hp
  refine ⟨s₀, s, hp, (entry_fits h0 hrun ?_).1⟩
  have hall : ((execFresh getSet).map fun p : Session × Session =>
      decide (∀ x ∈ Lts.moves act p.1 getSet, Meets x)) = some true := by decide +kernel
  rw [hp] at hall
  exact of_decide_eq_true (Option.some.inj hall)

theorem not_fits_getLong : ¬∀ s₀ s w, fresh = .ok s₀ → Lts.Run (Lts.ofFun s₀ act) s₀ w s → s.conv.currEntry_.Fits := by
  intro h
  have hfree : (execFresh getLong).map (fun p => p.2.conv.currEntry_.free_) = some (-1) := by decide +kernel
  obtain ⟨⟨s₀, s⟩, hp, hs⟩ := Option.map_eq_some_iff.1 hfree
  obtain ⟨h0, hrun⟩ := exec_fresh hp
  have hfits := (h s₀ s _ h0 hrun).free_nonneg
  rw [hs] at hfits
  exact absurd hfits (by decide)

end Session

end Libeva.Minimemcached
