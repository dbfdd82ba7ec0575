import Libeva.Lib.Delimiter
import Libeva.Minimemcached.Replies

/-!
# The body of a rejected `set`

A `set` with a byte count out of range is not followed by a wait for its body: the parser never enters `kDiscardValue`,
and takes the body for command lines.

* `resume`, `Heads`: the loop from any of its heads on, through all later chunks.
* `Inert`, `skip`: lines that change neither store nor replies are taken, however they are cut into chunks.
* `Twin`: sessions that differ in the last command only; `Twin.resume`.
* `Discarded`: the rest of any stream is handled as if the `set` and its body were not there; `discarded_iff`.
-/

namespace Libeva.Minimemcached

open Net StringTokenizer

namespace Session

open Conversation

/-- The loop of `msgCb` goes on, and then the later chunks arrive. -/
def resume (s : Session) (later : List Bytes) : Except Fault Session := do
  let s ← s.msgCb
  s.feed later

/-- The heads of the loop while that happens, with the bytes that are still to arrive. -/
inductive Heads : Session → List Bytes → Session → Bytes → Prop
  | here {s u : Session} {later : List Bytes} : Loop.Visits pass s u → Heads s later u later.flatten
  | later {s t u : Session} {chunk rest : Bytes} {later : List Bytes} : s.msgCb = .ok t →
    Heads { t with buf := t.buf.append chunk } later u rest → Heads s (chunk :: later) u rest

/-- A pass hands a line to `handle_command`. -/
def Hands (s : Session) : Prop := s.conv.state_ = .kNewCommand ∧ ∃ n e, s.found = some (n, e) ∧ toInt n ≠ 0

variable {s s' t u : Session} {c c' : Conversation} {m : MiniMemcached} {b : Buffer} {chunk rest l : Bytes}
  {later chunks : List Bytes}

theorem msgCb_pass (hp : s.pass = .ok (some s')) : s.msgCb = s'.msgCb := s.ends_msgCb.det (.pass hp s'.ends_msgCb)

theorem msgCb_leave (hp : s.pass = .ok none) : s.msgCb = .ok s := s.ends_msgCb.det (.leave hp)

theorem resume_pass (hp : s.pass = .ok (some s')) : s.resume later = s'.resume later := by
  unfold resume
  rw [msgCb_pass hp]

theorem resume_wait (hp : s.pass = .ok none) :
    s.resume (chunk :: later) = { s with buf := s.buf.append chunk }.resume later := by
  unfold resume
  rw [msgCb_leave hp]
  rfl

theorem Heads.pass (h : Heads s later u rest) (hp : s.pass = .ok (some s')) :
    (u = s ∧ rest = later.flatten) ∨ Heads s' later u rest := by
  cases h with
  | here hv =>
    cases hv with
    | here => exact .inl ⟨rfl, rfl⟩
    | pass hp' hv =>
      rw [hp] at hp'
      cases hp'
      exact .inr (.here hv)
  | later hm h => exact .inr (.later (msgCb_pass hp ▸ hm) h)

theorem Heads.wait (h : Heads s later u rest) (hp : s.pass = .ok none) : (u = s ∧ rest = later.flatten) ∨
    ∃ chunk later', later = chunk :: later' ∧ Heads { s with buf := s.buf.append chunk } later' u rest := by
  cases h with
  | here hv =>
    cases hv with
    | here => exact .inl ⟨rfl, rfl⟩
    | pass hp' _ =>
      rw [hp] at hp'
      cases hp'
  | later hm h =>
    rw [msgCb_leave hp] at hm
    cases hm
    exact .inr ⟨_, _, rfl, h⟩

/-! ## Lines that are skipped -/

/-- The line of a command, or an empty line, that turns the conversation `c` into `c'`, whatever the store is. -/
structure Inert (c : Conversation) (l : Bytes) (c' : Conversation) : Prop where
  state : c.state_ = .kNewCommand
  no_cr : 13 ∉ l
  no_lf : 10 ∉ l
  length_le : l.length + 2 ≤ INT_MAX
  empty : l = [] → c' = c
  handled : l ≠ [] → ∀ server w, c.handle_command server l (13 :: w) = .ok c'

/-- Lines that are skipped one after the other. -/
inductive Lines : Conversation → List Bytes → Conversation → Prop
  | nil {c : Conversation} : Lines c [] c
  | cons {c c₁ c' : Conversation} {l : Bytes} {ls : List Bytes} : Inert c l c₁ → Lines c₁ ls c' → Lines c (l :: ls) c'

/-- The bytes of lines. -/
def text (ls : List Bytes) : Bytes := ls.flatMap (· ++ kCRLF)

theorem text_cons (l : Bytes) (ls : List Bytes) : text (l :: ls) = l ++ (kCRLF ++ text ls) := by
  unfold text
  rw [List.flatMap_cons, List.append_assoc]

theorem pass_inert (hi : Inert c l c') (hb : b.readable = l ++ (kCRLF ++ rest)) :
    pass ⟨m, c, b⟩ = .ok (some ⟨m, c', b.retrieve (l.length + 2)⟩) := by
  by_cases hl : l = []
  · subst hl
    rw [hi.empty rfl]
    exact pass_crlf (s := ⟨m, c, b⟩) hi.state hb
  · obtain ⟨w, hw⟩ := pass_line (s := ⟨m, c, b⟩) hi.state hi.no_cr hl hb hi.length_le
    exact hw c' (hi.handled hl m w)

/-- A part of a line and its end, without the line feed. -/
theorem pass_unended {p q : Bytes} (hi : Inert c l c') (hb : b.readable = p) (hpq : p ++ q = l ++ kCRLF) (hq : q ≠ []) :
    pass ⟨m, c, b⟩ = .ok none := by
  refine pass_waits hi.state ?_
  show 10 ∉ b.readable
  rw [hb]
  intro h10
  obtain ⟨q, x, rfl⟩ := (List.eq_nil_or_concat' q).resolve_left hq
  have hsplit : (p ++ q) ++ [x] = (l ++ [13]) ++ [10] := by
    rw [List.append_assoc, hpq, List.append_assoc]
    rfl
  have hp : p ++ q = l ++ [13] := (List.append_inj' hsplit rfl).1
  have hmem : 10 ∈ l ++ [13] := hp ▸ List.mem_append_left q h10
  rcases List.mem_append.1 hmem with h | h
  · exact hi.no_lf h
  · exact absurd h (by decide)

/-- A head of the loop in front of the lines `ls`, or with nothing in the buffer, before the bytes `after`. -/
def Facing (ls : List Bytes) (after : Bytes) (u : Session) (rest : Bytes) : Prop :=
  ∃ ls', ls' <:+ ls ∧ u.buf.readable ++ rest = text ls' ++ after ∧ (ls' = [] → u.buf.readable = [])

theorem Facing.cons {ls : List Bytes} {after : Bytes} (h : Facing ls after u rest) : Facing (l :: ls) after u rest := by
  obtain ⟨ls', hs, h⟩ := h
  exact ⟨ls', hs.trans (List.suffix_cons l ls), h⟩

/-- From the head `s` on, the loop skips `ls` and goes on as from `t`; `z` has arrived by then, `chunks` have not. -/
def Skips (ls : List Bytes) (z : Bytes) (chunks : List Bytes) (s : Session) (later : List Bytes) (t : Session) : Prop :=
  s.resume later = t.resume chunks ∧
    ∀ u rest, Heads s later u rest → Facing ls (z ++ chunks.flatten) u rest ∨ Heads t chunks u rest

section Skips

variable {ls : List Bytes} {z : Bytes}

/-- The loop waits in front of the lines for the next chunk. -/
theorem Skips.wait (hp : s.pass = .ok none) (hf : Facing ls (z ++ chunks.flatten) s (chunk :: later).flatten)
    (h : Skips ls z chunks { s with buf := s.buf.append chunk } later t) : Skips ls z chunks s (chunk :: later) t := by
  obtain ⟨hres, hheads⟩ := h
  refine ⟨(resume_wait hp).trans hres, fun u rest h => ?_⟩
  rcases h.wait hp with ⟨rfl, rfl⟩ | ⟨_, _, he, h⟩
  · exact .inl hf
  · cases he
    exact hheads u rest h

/-- A pass skips the first of the lines. -/
theorem Skips.pass (hp : s.pass = .ok (some s')) (hf : Facing (l :: ls) (z ++ chunks.flatten) s later.flatten)
    (h : Skips ls z chunks s' later t) : Skips (l :: ls) z chunks s later t := by
  obtain ⟨hres, hheads⟩ := h
  refine ⟨(resume_pass hp).trans hres, fun u rest h => ?_⟩
  rcases h.pass hp with ⟨rfl, rfl⟩ | h
  · exact .inl hf
  · exact (hheads u rest h).imp Facing.cons id

/-- Without lines nothing happens until the chunk with `z` is there. -/
theorem skip_nil {front : List Bytes} (hfront : front.flatten = []) (hb : b.readable :: later = front ++ z :: chunks) :
    ∃ b', b'.readable = z ∧ Skips [] z chunks ⟨m, c, b⟩ later ⟨m, c, b'⟩ := by
  induction front generalizing b later with
  | nil =>
    obtain ⟨rfl, rfl⟩ := List.cons.inj hb
    exact ⟨b, rfl, rfl, fun u rest h => .inr h⟩
  | cons f fs ih =>
    rw [List.flatten_cons] at hfront
    obtain ⟨rfl, hfs⟩ := List.append_eq_nil_iff.1 hfront
    rw [List.cons_append, List.cons.injEq] at hb
    obtain ⟨hempty, hlater⟩ := hb
    obtain ⟨chunk, later', rfl⟩ : ∃ chunk later', later = chunk :: later' := by
      cases fs with
      | nil => exact ⟨_, _, hlater⟩
      | cons g fs => exact ⟨_, _, hlater⟩
    have hread : (b.append chunk).readable = chunk := by rw [Buffer.readable_append, hempty, List.nil_append]
    obtain ⟨b', hz, h⟩ := ih (b := b.append chunk) hfs (by rw [hread]; exact hlater)
    refine ⟨b', hz, .wait (pass_empty hempty) ⟨[], List.suffix_refl _, ?_, fun _ => hempty⟩ h⟩
    show b.readable ++ _ = _
    rw [hempty, hlater, List.flatten_append, hfs]
    rfl

/-- A line that is there as a whole is skipped by one pass, when the loop can skip the lines behind it. -/
theorem skip_line {c₁ : Conversation} (hi : Inert c l c₁) {g y : Bytes} {front : List Bytes}
    (hread : b.readable = l ++ (kCRLF ++ g)) (htext : front.flatten ++ y = text ls)
    (hg : g :: later = front ++ (y ++ z) :: chunks)
    (ih : ∀ b₁ : Buffer, b₁.readable = g →
      ∃ b', b'.readable = z ∧ Skips ls z chunks ⟨m, c₁, b₁⟩ later ⟨m, c', b'⟩) :
    ∃ b', b'.readable = z ∧ Skips (l :: ls) z chunks ⟨m, c, b⟩ later ⟨m, c', b'⟩ := by
  obtain ⟨b', hz, h⟩ := ih (b.retrieve (l.length + 2)) (readable_line (s := ⟨m, c, b⟩) hread)
  refine ⟨b', hz, .pass (pass_inert hi hread) ⟨l :: ls, List.suffix_refl _, ?_, nofun⟩ h⟩
  have hflat := congrArg List.flatten hg
  rw [List.flatten_cons, List.flatten_append, List.flatten_cons] at hflat
  show b.readable ++ later.flatten = _
  simp only [hread, text_cons, ← htext, List.append_assoc, hflat]

/-- The chunk behind the first one joins it. -/
theorem join_chunks {f y : Bytes} {fs : List Bytes} (hlater : later = fs ++ (y ++ z) :: chunks) :
    ∃ chunk later' front' y', later = chunk :: later' ∧ front'.length = fs.length ∧
      front'.flatten ++ y' = f ++ (fs.flatten ++ y) ∧ (f ++ chunk) :: later' = front' ++ (y' ++ z) :: chunks := by
  cases fs with
  | nil =>
    refine ⟨y ++ z, chunks, [], f ++ y, hlater, rfl, rfl, ?_⟩
    rw [List.append_assoc, List.nil_append]
  | cons g fs =>
    refine ⟨g, fs ++ (y ++ z) :: chunks, (f ++ g) :: fs, y, hlater, rfl, ?_, rfl⟩
    simp only [List.flatten_cons, List.append_assoc]

/-- **Skipping.** Lines that are skipped, in whatever chunks they arrive: the loop goes on behind them. The induction is
on the lines and, for one line, on the number of chunks up to its end. -/
theorem skip (hl : Lines c ls c') {front : List Bytes} {y : Bytes} (htext : front.flatten ++ y = text ls)
    (hb : b.readable :: later = front ++ (y ++ z) :: chunks) :
    ∃ b', b'.readable = z ∧ Skips ls z chunks ⟨m, c, b⟩ later ⟨m, c', b'⟩ := by
  induction hl generalizing b later front y with
  | nil =>
    obtain ⟨hfront, rfl⟩ := List.append_eq_nil_iff.1 htext
    exact skip_nil hfront hb
  | @cons c c₁ c' l ls hi _ ih =>
    rw [text_cons] at htext
    induction hn : front.length generalizing b later front y with
    | zero =>
      obtain rfl := List.length_eq_zero_iff.1 hn
      obtain ⟨hread, rfl⟩ := List.cons.inj hb
      rw [List.flatten_nil, List.nil_append] at htext
      have hread : b.readable = l ++ (kCRLF ++ (text ls ++ z)) := by
        rw [hread, htext, List.append_assoc, List.append_assoc]
      have hnone : ([] : List Bytes).flatten ++ text ls = text ls := rfl
      exact skip_line hi hread hnone rfl fun b₁ hb₁ => ih hnone (by rw [hb₁]; rfl)
    | succ n ih' =>
      cases front with
      | nil => cases hn
      | cons f fs =>
        rw [List.cons_append, List.cons.injEq] at hb
        obtain ⟨hread, hlater⟩ := hb
        rw [List.flatten_cons, List.append_assoc] at htext
        by_cases hlen : (l ++ kCRLF).length ≤ f.length
        · obtain ⟨g, rfl, hg⟩ := Delimiter.rest_of_le ((List.append_assoc l kCRLF _).trans htext.symm) hlen
          rw [List.append_assoc] at hread
          have hfront : (g :: fs).flatten ++ y = text ls := by rw [List.flatten_cons, List.append_assoc, hg]
          have hjoin : g :: later = (g :: fs) ++ (y ++ z) :: chunks := by rw [hlater]; rfl
          exact skip_line hi hread hfront hjoin fun b₁ hb₁ => ih hfront (by rw [hb₁]; exact hjoin)
        · obtain ⟨q, hq, -⟩ := Delimiter.rest_of_le (htext.trans (List.append_assoc l kCRLF _).symm)
            (Nat.le_of_not_le hlen)
          have hne : q ≠ [] := by
            rintro rfl
            rw [hq, List.append_nil] at hlen
            exact hlen (Nat.le_refl _)
          have hflatten := congrArg List.flatten hlater
          obtain ⟨chunk, later', front', y', rfl, hfront', hflat, hjoin⟩ := join_chunks (f := f) hlater
          have hread' : (b.append chunk).readable = f ++ chunk := by rw [Buffer.readable_append, hread]
          rw [← hread'] at hjoin
          obtain ⟨b', hz, h⟩ := ih' (hflat.trans htext) hjoin (hfront'.trans (Nat.succ.inj hn))
          refine ⟨b', hz, .wait (pass_unended hi hread hq.symm hne) ⟨l :: ls, List.suffix_refl _, ?_, nofun⟩ h⟩
          show b.readable ++ _ = _
          rw [hflatten, List.flatten_append, List.flatten_cons, hread, text_cons, ← htext]
          simp only [List.append_assoc]

end Skips

/-! ## Sessions that differ in the last command -/

/-- The byte count of a `set` does not run on past its line. -/
def Counted (s : Session) : Prop :=
  ∀ n ∈ s.found.map Prod.fst, match request (s.buf.readable.take (toInt n).toNat) with
    | .set _ count => ∃ c ∈ count, isspace c = false
    | _ => True

/-- The conversation without `command_`, which every command line sets anew. -/
def forget (c : Conversation) : Conversation := { c with command_ := [] }

/-- The same store, the same unconsumed bytes and, but for `command_`, the same conversation. -/
structure Twin (s t : Session) : Prop where
  server_eq : s.server_ = t.server_
  conv_eq : forget s.conv = forget t.conv
  readable_eq : s.buf.readable = t.buf.readable

/-- Two outcomes of a pass. -/
inductive Alike : Except Fault (Option Session) → Except Fault (Option Session) → Prop
  | fault (f : Fault) : Alike (.error f) (.error f)
  | leave : Alike (.ok none) (.ok none)
  | pass {s t : Session} : Twin s t → Alike (.ok (some s)) (.ok (some t))

theorem Twin.trans (h : Twin s t) (h' : Twin t u) : Twin s u :=
  ⟨h.server_eq.trans h'.server_eq, h.conv_eq.trans h'.conv_eq, h.readable_eq.trans h'.readable_eq⟩

theorem Alike.trans {x y z : Except Fault (Option Session)} (h : Alike x y) (h' : Alike y z) : Alike x z := by
  cases h with
  | fault f => exact h'
  | leave => exact h'
  | pass ht =>
    cases h' with
    | pass ht' => exact .pass (ht.trans ht')

theorem Together.alike {x y : Except Fault Session} (h : Together [] x y) : Alike (x.map some) (y.map some) := by
  cases h with
  | fault f => exact .fault f
  | ahead h =>
    exact .pass ⟨h.server_eq.symm, congrArg forget h.conv_eq.symm, (h.readable_eq.trans (List.append_nil _)).symm⟩

/-- `handle_command` does not look at the last command. -/
theorem handle_command_forget (c : Conversation) (m : MiniMemcached) (req after : Bytes) :
    (c.handle_command m req after).map forget = ((forget c).handle_command m req after).map forget := by
  unfold handle_command
  rcases hasMoreToken ⟨req, after, sep⟩ with ⟨_ | _, t⟩
  · rfl
  · rfl

/-- Results that agree but for the last command are taken over alike. -/
theorem alike_of_map_forget {x y : Except Fault Conversation} (hx : x.map forget = y.map forget) (z : Except Fault ℤ) :
    Alike ((x >>= fun c => z >>= fun k => .ok (⟨m, c, b.retrieve (toSize k)⟩ : Session)).map some)
      ((y >>= fun c => z >>= fun k => .ok (⟨m, c, b.retrieve (toSize k)⟩ : Session)).map some) := by
  cases x with
  | error f =>
    cases y with
    | error g => cases hx; exact .fault f
    | ok d => cases hx
  | ok d =>
    cases y with
    | error g => cases hx
    | ok d' =>
      rw [ok_bind, ok_bind]
      cases z with
      | error f => exact .fault f
      | ok k => exact .pass ⟨rfl, Except.ok.inj hx, rfl⟩

theorem line_forget (hc : forget c = forget c') (n e : ℕ) :
    Alike ((line ⟨m, c, b⟩ n e).map some) ((line ⟨m, c', b⟩ n e).map some) := by
  have hcmd := (handle_command_forget c m (b.readable.take (toInt n).toNat) (b.peek.drop (toInt n).toNat)).trans
    ((congrArg (fun c => (handle_command c _ _ _).map forget) hc).trans (handle_command_forget c' m _ _).symm)
  unfold line
  dsimp only
  by_cases hneg : toInt n < 0
  · rw [if_pos hneg, if_pos hneg]
    exact .fault _
  · rw [if_neg hneg, if_neg hneg]
    refine alike_of_map_forget ?_ _
    split
    · exact hcmd
    · exact congrArg Except.ok hc

/-- Without a change of the buffer, a pass does not look at the last command. -/
theorem pass_forget (hc : forget c = forget c') : Alike (pass ⟨m, c, b⟩) (pass ⟨m, c', b⟩) := by
  have hstate : (forget c).state_ = (forget c').state_ := by rw [hc]
  have hstate : c.state_ = c'.state_ := hstate
  by_cases hne : b.readable = []
  · rw [pass_empty hne, pass_empty hne]
    exact .leave
  · cases hs : c.state_ with
    | kNewCommand =>
      have hfound : found ⟨m, c', b⟩ = found ⟨m, c, b⟩ := rfl
      rw [pass_newCommand hs hne, pass_newCommand (hstate ▸ hs) hne, hfound]
      cases found ⟨m, c, b⟩ with
      | none => exact .leave
      | some p => exact line_forget hc p.1 p.2
    | kReceiveValue =>
      have hrec : receiveValue ⟨m, c, b⟩ = receiveValue ⟨m, c', b⟩ := by
        obtain ⟨e, x, st, out, sent⟩ := c
        obtain ⟨e', x', st', out', sent'⟩ := c'
        cases hc
        rfl
      rw [pass_receiveValue hs hne, pass_receiveValue (hstate ▸ hs) hne, hrec]
      cases receiveValue ⟨m, c', b⟩ with
      | error f => exact .fault f
      | ok s => exact .pass ⟨rfl, rfl, rfl⟩
    | kDiscardValue =>
      unfold pass
      dsimp only
      rw [if_neg (mt Buffer.readableBytes_eq_zero.1 hne), if_neg (mt Buffer.readableBytes_eq_zero.1 hne), ← hstate, hs]
      exact .fault _

theorem take_of_searchCRLF : ∀ {l : Bytes} {n : ℕ}, Buffer.searchCRLF l = some n → ∃ y, l = l.take n ++ 13 :: 10 :: y
  | [], _, h => by cases h
  | c :: t, n, h => by
    unfold Buffer.searchCRLF at h
    split at h
    · rename_i hc
      cases h
      cases t with
      | nil => cases hc
      | cons d y =>
        cases hc
        exact ⟨y, rfl⟩
    · obtain ⟨k, hk, rfl⟩ := Option.map_eq_some_iff.1 h
      obtain ⟨y, hy⟩ := take_of_searchCRLF hk
      exact ⟨y, by rw [List.take_succ_cons, List.cons_append, ← hy]⟩

theorem take_of_findEOL {l : Bytes} {n : ℕ} (h : l.findIdx? (· == 10) = some n) : ∃ y, l = l.take n ++ 10 :: y := by
  obtain ⟨hlt, hc, -⟩ := List.findIdx?_eq_some_iff_getElem.1 h
  refine ⟨l.drop (n + 1), ?_⟩
  rw [beq_iff_eq] at hc
  rw [← hc, ← List.drop_eq_getElem_cons hlt, List.take_append_drop]

/-- The line that a pass takes, and its end. -/
theorem found_split {n e : ℕ} (h : s.found = some (n, e)) : n + e ≤ s.buf.readable.length ∧
    ∃ a y, isdigit a = false ∧ s.buf.readable = s.buf.readable.take n ++ a :: y := by
  unfold found at h
  split at h
  · rename_i k hk
    cases h
    obtain ⟨y, hy⟩ := take_of_searchCRLF hk
    refine ⟨?_, 13, _, rfl, hy⟩
    have hlen := congrArg List.length hy
    rw [List.length_append, List.length_take, List.length_cons, List.length_cons] at hlen
    omega
  · obtain ⟨k, hk, hp⟩ := Option.map_eq_some_iff.1 h
    cases hp
    obtain ⟨y, hy⟩ := take_of_findEOL hk
    refine ⟨?_, 10, _, rfl, hy⟩
    have hlen := congrArg List.length hy
    rw [List.length_append, List.length_take, List.length_cons] at hlen
    omega

theorem found_congr (h : s.buf.readable = t.buf.readable) : s.found = t.found := by
  unfold found Buffer.findCRLF Buffer.findEOL
  rw [h]

/-- Without a change of the conversation, a pass does not look at the memory behind the unconsumed bytes. -/
theorem Ahead.alike (h : Ahead [] s t) (hc : s.Counted) : Alike s.pass t.pass := by
  have hr : t.buf.readable = s.buf.readable := h.readable_eq.trans (List.append_nil _)
  by_cases hne : s.buf.readable = []
  · rw [pass_empty hne, pass_empty (hr.trans hne)]
    exact .leave
  · have hne' : t.buf.readable ≠ [] := fun he => hne (hr.symm.trans he)
    cases hs : s.conv.state_ with
    | kNewCommand =>
      rw [pass_newCommand hs hne, pass_newCommand (h.conv_eq ▸ hs) hne', found_congr hr]
      cases hf : s.found with
      | none => exact .leave
      | some p =>
        obtain ⟨n, e⟩ := p
        obtain ⟨hlen, a, y, ha, hy⟩ := found_split hf
        have hmem : n ∈ s.found.map Prod.fst := by rw [hf, Option.map_some, Option.mem_some_iff]
        refine (h.line hlen hy ha ?_).alike
        have hcount := hc n hmem
        revert hcount
        generalize request (s.buf.readable.take (toInt n).toNat) = req
        cases req <;> exact id
    | kReceiveValue =>
      have hnum : t.numBytes = s.numBytes := by
        unfold numBytes
        rw [← Buffer.length_readable, ← Buffer.length_readable, hr, h.conv_eq]
      rw [pass_receiveValue hs hne, pass_receiveValue (h.conv_eq ▸ hs) hne']
      exact (h.receiveValue_of_numBytes hnum).alike
    | kDiscardValue =>
      unfold Session.pass
      rw [if_neg (mt Buffer.readableBytes_eq_zero.1 hne), if_neg (mt Buffer.readableBytes_eq_zero.1 hne'),
        h.conv_eq, hs]
      exact .fault _

theorem counted_congr (hr : s.buf.readable = t.buf.readable) (hc : t.Counted) : s.Counted := by
  unfold Counted
  rw [found_congr hr, hr]
  exact hc

theorem Twin.alike (h : Twin s t) (hc : t.Counted) : Alike s.pass t.pass := by
  have hahead : Ahead [] s ⟨t.server_, s.conv, t.buf⟩ :=
    ⟨h.server_eq.symm, rfl, h.readable_eq.symm.trans (List.append_nil _).symm⟩
  exact (hahead.alike (counted_congr h.readable_eq hc)).trans (pass_forget h.conv_eq)

theorem Twin.append (h : Twin s t) (chunk : Bytes) :
    Twin { s with buf := s.buf.append chunk } { t with buf := t.buf.append chunk } where
  server_eq := h.server_eq
  conv_eq := h.conv_eq
  readable_eq := by
    show (s.buf.append chunk).readable = (t.buf.append chunk).readable
    rw [Buffer.readable_append, Buffer.readable_append, h.readable_eq]

/-- The store and the replies. -/
def outcome (s : Session) : MiniMemcached × Bytes := (s.server_, s.conv.sent)

theorem Twin.outcome (h : Twin s t) : s.outcome = t.outcome := by
  have hsent : (forget s.conv).sent = (forget t.conv).sent := by rw [h.conv_eq]
  exact Prod.ext h.server_eq hsent

/-- **Twins** have the same replies and the same store from now on. -/
theorem Twin.resume (h : Twin s t) (hc : ∀ u rest, Heads t chunks u rest → u.Counted) :
    (s.resume chunks).map Session.outcome = (t.resume chunks).map Session.outcome := by
  -- the loop of the one follows the loop of the other
  have hstep : ∀ t t' s, t.Counted → Twin s t → t.pass = .ok (some t') → ∃ s', s.pass = .ok (some s') ∧ Twin s' t' := by
    intro t t' s hc h hp
    have ha := h.alike hc
    rw [hp] at ha
    generalize hx : s.pass = x at ha
    cases ha with
    | pass h' => exact ⟨_, rfl, h'⟩
  have hfail : ∀ t s f, t.Counted → Twin s t → t.pass = .error f → s.pass = .error f := by
    intro t s f hc h hp
    have ha := h.alike hc
    rw [hp] at ha
    generalize hx : s.pass = x at ha
    cases ha with
    | fault => rfl
  have hleave : ∀ t s, t.Counted → Twin s t → t.pass = .ok none → s.pass = .ok none := by
    intro t s hc h hp
    have ha := h.alike hc
    rw [hp] at ha
    generalize hx : s.pass = x at ha
    cases ha with
    | leave => rfl
  have loop : ∀ {s t}, Twin s t → (∀ u, Loop.Visits Session.pass t u → u.Counted) →
      (∃ f, s.msgCb = .error f ∧ t.msgCb = .error f) ∨
        ∃ s' t', s.msgCb = .ok s' ∧ t.msgCb = .ok t' ∧ Twin s' t' := by
    intro s t h hc
    have hend := t.ends_msgCb
    cases hm : t.msgCb with
    | error f =>
      rw [hm] at hend
      have hs := hend.sim_fail (R := fun t s => Twin s t) hstep hfail hc h
      exact .inl ⟨f, s.ends_msgCb.det hs, rfl⟩
    | ok t' =>
      rw [hm] at hend
      obtain ⟨s', hv, h'⟩ := hend.sim (R := fun t s => Twin s t) hstep hc h
      have hstop := hleave t' s' (hc t' hend.visits.1) h' hend.visits.2
      exact .inr ⟨s', t', s.ends_msgCb.det (hv.ends (.leave hstop)), rfl, h'⟩
  induction chunks generalizing s t with
  | nil =>
    unfold Session.resume
    rcases loop h fun u hv => hc u _ (.here hv) with ⟨f, hs, ht⟩ | ⟨s', t', hs, ht, h'⟩
    · rw [hs, ht]
    · rw [hs, ht]
      exact congrArg Except.ok h'.outcome
  | cons chunk chunks ih =>
    unfold Session.resume
    rcases loop h fun u hv => hc u _ (.here hv) with ⟨f, hs, ht⟩ | ⟨s', t', hs, ht, h'⟩
    · rw [hs, ht]
    · rw [hs, ht]
      exact ih (h'.append chunk) fun u rest hu => hc u rest (.later ht hu)

/-! ## A `set` whose body is discarded -/

/-- A `set` line, its body and the end of that. -/
def rejected (k flags exp : Token) (body : Bytes) : Bytes :=
  setLine k.1 flags.1 exp.1 body.length ++ (kCRLF ++ (body ++ kCRLF))

/-- A head of the loop that stands in the body, where the bytes `after` follow. -/
def Within (body after : Bytes) (u : Session) (rest : Bytes) : Prop :=
  after.length + 2 < (u.buf.readable ++ rest).length ∧ (u.buf.readable ++ rest).length ≤ body.length + 2 + after.length

/-- Wherever the `set` stands in a stream, however it is cut (into `front` and `y`), and whatever follows (`z`, and then
the chunks): the store and the replies are those of the stream without it, and no part of the body is taken for a
command. -/
def Discarded (k flags exp : Token) (body : Bytes) : Prop :=
  ∀ (s₀ : Session) (m : MiniMemcached) (c : Conversation) (b b' : Buffer) (front : List Bytes) (y z : Bytes)
    (later chunks : List Bytes), fresh = .ok s₀ → Lts.Reach (Lts.ofFun s₀ act) ⟨m, c, b⟩ → c.state_ = .kNewCommand →
    front.flatten ++ y = rejected k flags exp body → b.readable :: later = front ++ (y ++ z) :: chunks →
    b'.readable = z → (∀ u rest, Heads ⟨m, c, b'⟩ chunks u rest → u.Counted) →
    (resume ⟨m, c, b⟩ later).map outcome = (resume ⟨m, c, b'⟩ chunks).map outcome ∧
    ∀ u rest, Heads ⟨m, c, b⟩ later u rest → Within body (z ++ chunks.flatten) u rest → ¬u.Hands

/-- The line has an `int` as its length, `atoi` makes its byte count a number out of range, and the body consists of
empty lines. -/
def Blank (k flags exp : Token) (body : Bytes) : Prop :=
  (setLine k.1 flags.1 exp.1 body.length).length + 2 ≤ INT_MAX ∧
    (atoiValue body.length ≤ 0 ∨ 1024 < atoiValue body.length) ∧ ∃ j, body = text (List.replicate j [])

variable {k flags exp : Token} {body : Bytes}

theorem length_pass (hp : s.pass = .ok (some s')) : s'.buf.readable.length ≤ s.buf.readable.length := by
  obtain ⟨-, ⟨-, n, e, -, hl⟩ | ⟨-, hr⟩⟩ := pass_cases hp
  · obtain ⟨-, c, rfl, -⟩ := line_ok hl
    rw [Buffer.readable_retrieve, List.length_drop]
    exact Nat.sub_le _ _
  · obtain ⟨_, _, _, _, _, _, _, _, hbuf⟩ := receiveValue_ok hr
    rw [hbuf, Buffer.readable_retrieve, List.length_drop]
    exact Nat.sub_le _ _

theorem length_visits (h : Loop.Visits pass s u) : u.buf.readable.length ≤ s.buf.readable.length := by
  refine h.invariant (I := fun u => u.buf.readable.length ≤ s.buf.readable.length) ?_ (Nat.le_refl _)
  intro t u ht hp
  exact (length_pass hp).trans ht

theorem length_heads (h : Heads s later u rest) :
    (u.buf.readable ++ rest).length ≤ (s.buf.readable ++ later.flatten).length := by
  induction h with
  | here hv =>
    rw [List.length_append, List.length_append]
    exact Nat.add_le_add_right (length_visits hv) _
  | @later s t u chunk rest later hm _ ih =>
    have hv := length_visits (Loop.Ends.visits (hm ▸ s.ends_msgCb)).1
    refine ih.trans ?_
    rw [Buffer.readable_append, List.flatten_cons]
    simp only [List.length_append]
    omega

/-- In front of an empty line nothing is handed over. -/
theorem not_hands_crlf {after : Bytes} (h : s.buf.readable ++ rest = kCRLF ++ after) : ¬s.Hands := by
  rintro ⟨-, n, e, hf, hn⟩
  have hzero : n = 0 := by
    unfold found Buffer.findCRLF Buffer.findEOL at hf
    rcases hread : s.buf.readable with _ | ⟨a, _ | ⟨d, w⟩⟩
    · rw [hread] at hf
      cases hf
    · rw [hread] at h hf
      cases h
      cases hf
    · rw [hread] at h hf
      cases h
      cases hf
      rfl
  rw [hzero] at hn
  exact hn (toInt_of_le (n := 0) (Nat.zero_le _))

theorem not_hands_empty (h : s.buf.readable = []) : ¬s.Hands := by
  rintro ⟨-, n, e, hf, -⟩
  rw [found_nil h] at hf
  cases hf

theorem text_replicate (j : ℕ) : text (List.replicate (j + 1) []) = text (List.replicate j []) ++ kCRLF := by
  unfold text
  rw [List.replicate_succ', List.flatMap_append]
  rfl

/-- A `set` that is rejected and has a body of empty lines is skipped. -/
theorem lines_rejected (h : Blank k flags exp body) (hpos : 0 < body.length) (hs : c.state_ = .kNewCommand) :
    ∃ c' j, forget c' = forget c ∧
      Lines c (setLine k.1 flags.1 exp.1 body.length :: List.replicate (j + 1) []) c' ∧
      body = text (List.replicate j []) := by
  obtain ⟨hlen, hatoi, j, hj⟩ := h
  obtain ⟨cmd, hcmd⟩ := c.handle_command_set (request_set k.word flags.word exp.word (word_decimal hpos))
  have blanks : ∀ n, Lines { c with command_ := cmd } (List.replicate n []) { c with command_ := cmd } := by
    intro n
    induction n with
    | zero => exact .nil
    | succ n ih => exact .cons ⟨hs, nofun, nofun, by decide, fun _ => rfl, fun h => absurd rfl h⟩ ih
  refine ⟨{ c with command_ := cmd }, j, rfl, .cons ⟨hs, setLine_notMem k flags exp _ (.inl rfl),
    setLine_notMem k flags exp _ (.inr rfl), hlen, nofun, fun _ server w => ?_⟩ (blanks _), hj⟩
  refine (hcmd server (13 :: w)).trans ?_
  unfold setKey
  rw [atoi_numeral hpos rfl w, ok_bind, if_pos hatoi]
  rfl

theorem discarded_of_blank (hpos : 0 < body.length) (h : Blank k flags exp body) : Discarded k flags exp body := by
  intro s₀ m c b b' front y z later chunks _ _ hs hregion hb hz hcount
  obtain ⟨c', j, hc', hlines, hbody⟩ := lines_rejected h hpos hs
  have htext : text (setLine k.1 flags.1 exp.1 body.length :: List.replicate (j + 1) []) =
      rejected k flags exp body := by
    unfold rejected
    rw [text_cons, text_replicate, ← hbody]
  obtain ⟨b'', hz'', hres, hheads⟩ := skip (m := m) hlines (hregion.trans htext.symm) hb
  have htwin : Twin ⟨m, c', b''⟩ ⟨m, c, b'⟩ := ⟨rfl, hc', hz''.trans hz.symm⟩
  refine ⟨by rw [hres]; exact htwin.resume hcount, ?_⟩
  rintro u rest hu ⟨hlow, hhigh⟩
  rcases hheads u rest hu with ⟨ls, hsuf, hread, hempty⟩ | hlater
  · rcases List.suffix_cons_iff.1 hsuf with rfl | hsuf
    · -- the line is still there
      rw [hread, htext] at hhigh
      unfold rejected at hhigh
      simp only [List.length_append] at hhigh
      have hcrlf : kCRLF.length = 2 := rfl
      omega
    · have hls : ∀ l ∈ ls, l = [] := fun l hl => List.eq_of_mem_replicate (hsuf.subset hl)
      cases ls with
      | nil => exact not_hands_empty (hempty rfl)
      | cons l ls =>
        obtain rfl := hls l List.mem_cons_self
        rw [text_cons, List.nil_append, List.append_assoc] at hread
        exact not_hands_crlf hread
  · have hle := length_heads hlater
    rw [hz''] at hle
    omega

/-! ## Bodies that are not discarded -/

theorem drop_of_searchCRLF : ∀ {l : Bytes} {n i : ℕ}, Buffer.searchCRLF l = some n → i ≤ n →
    Buffer.searchCRLF (l.drop i) = some (n - i)
  | _, _, 0, h, _ => h
  | [], _, _ + 1, h, _ => by cases h
  | c :: t, n, i + 1, h, hi => by
    unfold Buffer.searchCRLF at h
    split at h
    · cases h
      exact absurd hi (Nat.not_succ_le_zero i)
    · obtain ⟨k, hk, rfl⟩ := Option.map_eq_some_iff.1 h
      rw [List.drop_succ_cons, Nat.add_sub_add_right]
      exact drop_of_searchCRLF hk (Nat.le_of_succ_le_succ hi)

/-- The rest of a line whose length has wrapped has a negative `int` as its length. -/
theorem toInt_neg {p v : ℕ} (hnn : 0 ≤ toInt p) (hlt : toInt p + 2 < 2 ^ 31) (hp : 2 ^ 31 ≤ p + 2) (hv : v ≤ 1024) :
    (toInt p).toNat + 2 + v ≤ p ∧ toInt (p - ((toInt p).toNat + 2) - v) < 0 := by
  unfold toInt at *
  rw [Int.bmod_def] at hnn hlt ⊢
  split at hnn
  · rename_i hmod
    rw [if_pos hmod] at hlt ⊢
    have hle : (p % 2 ^ 32) + 2 + v ≤ p := by omega
    have hto : ((p : ℤ) % ((2 ^ 32 : ℕ) : ℤ)).toNat = p % 2 ^ 32 := by omega
    rw [hto]
    refine ⟨hle, ?_⟩
    rw [Int.bmod_def]
    split
    · omega
    · omega
  · omega

theorem pass_of_msgCb (hm : s.msgCb = .ok t) : s.pass = .ok none ∨ ∃ s', s.pass = .ok (some s') ∧ s'.msgCb = .ok t := by
  have hend := s.ends_msgCb
  rw [hm] at hend
  cases hend with
  | leave hp => exact .inl hp
  | @pass _ s' _ hp h => exact .inr ⟨s', hp, s'.ends_msgCb.det h⟩

theorem line_of_searchCRLF {n : ℕ} (hs : s.conv.state_ = .kNewCommand)
    (h : Buffer.searchCRLF s.buf.readable = some n) (hm : s.msgCb = .ok t) :
    ∃ s', s.line n 2 = .ok s' ∧ s'.msgCb = .ok t := by
  have hne : s.buf.readable ≠ [] := by
    intro he
    rw [he] at h
    cases h
  have hpass := pass_newCommand hs hne
  rw [found_of_searchCRLF h] at hpass
  dsimp only at hpass
  rcases pass_of_msgCb hm with hp | ⟨s', hp, hm'⟩
  · rw [hpass] at hp
    obtain ⟨_, _, hp⟩ := map_eq_ok.1 hp
    cases hp
  · rw [hpass] at hp
    obtain ⟨_, hl, hp⟩ := map_eq_ok.1 hp
    cases hp
    exact ⟨s', hl, hm'⟩

/-- A line that is too long for an `int` ends in a fault: what is left of it has a negative length. -/
theorem fits_of_msgCb {n : ℕ} (hs : s.conv.state_ = .kNewCommand)
    (h : Buffer.searchCRLF s.buf.readable = some n) (hm : s.msgCb = .ok t) : n + 2 ≤ INT_MAX := by
  by_contra hlong
  have hbig : 2 ^ 31 ≤ n + 2 := Nat.le_of_not_lt fun hlt => hlong (le_INT_MAX.2 hlt)
  obtain ⟨s₁, hl, hm₁⟩ := line_of_searchCRLF hs h hm
  have hlt := le_of_line hl
  obtain ⟨hnn, c, hs₁, -⟩ := line_ok hl
  have hread : s₁.buf.readable = s.buf.readable.drop ((toInt n).toNat + 2) := by
    rw [hs₁, Buffer.readable_retrieve]
  -- wherever the rest of the line is taken as a line, its length is negative
  have stuck : ∀ {s' : Session} {v : ℕ}, v ≤ 1024 → s'.conv.state_ = .kNewCommand →
      s'.buf.readable = s₁.buf.readable.drop v → s'.msgCb ≠ .ok t := by
    intro s' v hv hs' hread' hm'
    obtain ⟨hle, hneg⟩ := toInt_neg hnn hlt hbig hv
    have hsearch : Buffer.searchCRLF s'.buf.readable = some (n - ((toInt n).toNat + 2) - v) := by
      rw [hread', hread]
      exact drop_of_searchCRLF (drop_of_searchCRLF h (by omega)) (by omega)
    obtain ⟨s'', hl', -⟩ := line_of_searchCRLF hs' hsearch hm'
    exact absurd (line_ok hl').1 (not_le.2 hneg)
  rcases state_of_line hs hl with hst | ⟨hst, -, hfree⟩
  · exact stuck (Nat.zero_le _) hst rfl hm₁
  · obtain ⟨hle, -⟩ := toInt_neg hnn hlt hbig (Nat.zero_le 1024)
    have hne : s₁.buf.readable ≠ [] := by
      intro he
      have hdrop := drop_of_searchCRLF h (i := (toInt n).toNat + 2) (by omega)
      rw [← hread, he] at hdrop
      cases hdrop
    rcases pass_of_msgCb hm₁ with hp | ⟨s₂, hp, hm₂⟩
    · rw [pass_receiveValue hst hne] at hp
      obtain ⟨_, _, hp⟩ := map_eq_ok.1 hp
      cases hp
    · rw [pass_receiveValue hst hne] at hp
      obtain ⟨_, hr, hp⟩ := map_eq_ok.1 hp
      cases hp
      obtain ⟨_, _, _, _, _, _, _, hconv, hbuf⟩ := receiveValue_ok hr
      refine stuck (v := s₁.numBytes) ((Nat.min_le_right _ _).trans hfree) (by rw [hconv]) ?_ hm₂
      rw [hbuf, Buffer.readable_retrieve]

/-- Replies are only added to. -/
theorem sent_pass (hp : s.pass = .ok (some s')) : s.conv.sent <+: s'.conv.sent := by
  obtain ⟨-, ⟨-, n, e, -, hl⟩ | ⟨-, hr⟩⟩ := pass_cases hp
  · obtain ⟨-, c, rfl, hc⟩ := line_ok hl
    dsimp only
    split at hc
    · rcases s.conv.handle_command_cases (s.buf.readable.take (toInt n).toNat) with
        ⟨k, cmd, -, hcmd⟩ | ⟨k, d, cmd, -, hcmd⟩ | ⟨_, hreq, -, -⟩
      · rw [hcmd] at hc
        unfold getKey at hc
        obtain ⟨_, -, hc⟩ := bind_eq_ok.1 hc
        obtain ⟨_, -, hc⟩ := bind_eq_ok.1 hc
        cases hc
        exact List.prefix_append _ _
      · rw [hcmd] at hc
        have hsent := setKey_sent hc
        rw [hsent]
      · obtain ⟨y, hy, -⟩ := handle_command_sent hreq hc
        exact ⟨y, hy.symm⟩
    · rw [hc]
  · obtain ⟨_, _, _, _, _, _, _, hconv, -⟩ := receiveValue_ok hr
    rw [hconv]
    exact List.prefix_append _ _

theorem sent_msgCb (hm : s.msgCb = .ok t) : s.conv.sent <+: t.conv.sent := by
  have hv := (Loop.Ends.visits (hm ▸ s.ends_msgCb)).1
  clear hm
  induction hv with
  | here => exact List.prefix_refl _
  | pass hp _ ih => exact (sent_pass hp).trans ih

theorem searchCRLF_end (w : Bytes) : ∃ n, Buffer.searchCRLF (w ++ kCRLF) = some n := by
  induction w with
  | nil => exact ⟨0, rfl⟩
  | cons c w ih =>
    obtain ⟨n, hn⟩ := ih
    rw [List.cons_append]
    unfold Buffer.searchCRLF
    split
    · exact ⟨0, rfl⟩
    · exact ⟨n + 1, by rw [hn]; rfl⟩

/-- A text that is taken without a fault and of which nothing is handed over consists of empty lines. -/
theorem blank_of_quiet (hs : s.conv.state_ = .kNewCommand) (hb : s.buf.readable = body ++ kCRLF) (hm : s.msgCb = .ok t)
    (hq : ∀ u, Loop.Visits pass s u → 2 < u.buf.readable.length → ¬u.Hands) :
    ∃ j, body = text (List.replicate j []) := by
  induction hn : body.length using Nat.strong_induction_on generalizing s body with
  | _ n ih =>
    by_cases hempty : body = []
    · exact ⟨0, hempty⟩
    have hpos := List.length_pos_of_ne_nil hempty
    obtain ⟨p, hp⟩ := searchCRLF_end body
    rw [← hb] at hp
    have hzero : toInt p = 0 := by
      by_contra hne
      refine hq s (.here s) ?_ ⟨hs, p, 2, found_of_searchCRLF hp, hne⟩
      rw [hb, List.length_append]
      exact Nat.lt_add_of_pos_left hpos
    -- a length that is no `int` would have been a fault
    have hp0 : p = 0 := by
      have hle := fits_of_msgCb hs hp hm
      rw [toInt_of_le (by omega)] at hzero
      exact_mod_cast hzero
    rw [hp0] at hp
    obtain ⟨w, hw⟩ := take_of_searchCRLF hp
    rw [hb, List.take_zero, List.nil_append] at hw
    obtain ⟨body', rfl⟩ : ∃ body', body = kCRLF ++ body' := by
      rcases body with _ | ⟨c, _ | ⟨d, body⟩⟩
      · exact absurd rfl hempty
      · cases hw
      · cases hw
        exact ⟨body, rfl⟩
    rw [List.append_assoc] at hb
    have hpass := pass_crlf hs hb
    have hread : (s.buf.retrieve 2).readable = body' ++ kCRLF := by
      rw [Buffer.readable_retrieve, hb]
      rfl
    rw [msgCb_pass hpass] at hm
    obtain ⟨j, hj⟩ := ih body'.length (by rw [← hn, List.length_append]; exact Nat.lt_add_of_pos_left (by decide))
      (s := ⟨s.server_, s.conv, s.buf.retrieve 2⟩) hs hread hm (fun u hu => hq u (.pass hpass hu)) rfl
    exact ⟨j + 1, by rw [hj, List.replicate_succ, text_cons, List.nil_append]⟩

/-- What `Discarded` says of a new connection on which just the `set` and its body arrive. -/
theorem Discarded.fresh (h : Discarded k flags exp body) : ∃ (s t : Session), s.conv.state_ = .kNewCommand ∧
    s.conv.sent = [] ∧ s.buf.readable = rejected k flags exp body ∧ s.msgCb = .ok t ∧ t.conv.sent = [] ∧
    ∀ u, Loop.Visits pass s u → 2 < u.buf.readable.length → u.buf.readable.length ≤ body.length + 2 → ¬u.Hands := by
  obtain ⟨m, c, hfresh, hs, hsent⟩ := fresh_eq
  have hread : ((Buffer.new kInitialSize).append (rejected k flags exp body)).readable = rejected k flags exp body := by
    rw [Buffer.readable_append, Buffer.readable_new, List.nil_append]
  have hreach : Lts.Reach (Lts.ofFun (⟨m, c, .new kInitialSize⟩ : Session) act)
      ⟨m, c, (Buffer.new kInitialSize).append (rejected k flags exp body)⟩ :=
    .step (a := .recv (rejected k flags exp body)) (.init rfl) rfl
  have hempty : pass ⟨m, c, .new kInitialSize⟩ = .ok none := pass_empty (Buffer.readable_new _)
  have hcount : ∀ u rest, Heads ⟨m, c, .new kInitialSize⟩ [] u rest → u.Counted := by
    intro u rest hu
    rcases hu.wait hempty with ⟨rfl, -⟩ | ⟨_, _, he, -⟩
    · have hnone : found ⟨m, c, .new kInitialSize⟩ = none := found_nil (Buffer.readable_new _)
      intro n hn
      rw [hnone] at hn
      cases hn
    · cases he
  obtain ⟨hout, hquiet⟩ := h _ m c _ (.new kInitialSize) [] (rejected k flags exp body) [] [] [] hfresh hreach hs rfl
    (by rw [hread, List.append_nil]; rfl) (Buffer.readable_new _) hcount
  refine ⟨⟨m, c, (Buffer.new kInitialSize).append (rejected k flags exp body)⟩, ?_⟩
  unfold resume at hout
  rw [msgCb_leave hempty] at hout
  obtain ⟨t, ht, hst⟩ := map_eq_ok.1 hout
  obtain ⟨t', ht', hfeed⟩ := bind_eq_ok.1 ht
  cases hfeed
  refine ⟨t, hs, hsent, hread, ht', (congrArg Prod.snd hst).trans hsent, ?_⟩
  intro u hu hlow hhigh
  refine hquiet u [] (.here hu) ⟨?_, ?_⟩
  · rw [List.append_nil]
    exact hlow
  · rw [List.append_nil]
    exact hhigh

theorem blank_of_discarded (hpos : 0 < body.length) (h : Discarded k flags exp body) : Blank k flags exp body := by
  obtain ⟨s, t, hs, hsent, hb, hm, ht, hquiet⟩ := h.fresh
  have hl := no_cr_setLine k flags exp body.length
  have hb' : s.buf.readable =
      setLine k.1 flags.1 exp.1 body.length ++ (kCRLF ++ (body ++ kCRLF)) := hb
  have hsearch : Buffer.searchCRLF s.buf.readable = some (setLine k.1 flags.1 exp.1 body.length).length := by
    rw [hb', Buffer.searchCRLF_append hl]
  have hlen := fits_of_msgCb hs hsearch hm
  have hne : setLine k.1 flags.1 exp.1 body.length ≠ [] := nofun
  obtain ⟨s₁, hline, hm₁⟩ := line_of_searchCRLF hs hsearch hm
  have hpass : s.pass = .ok (some s₁) := by
    rw [pass_newCommand hs (by rw [hb']; exact List.append_ne_nil_of_left_ne_nil hne _),
      found_of_searchCRLF hsearch]
    dsimp only
    rw [hline]
    rfl
  have hx : s.buf.readable = setLine k.1 flags.1 exp.1 body.length ++ (kCRLF ++ s₁.buf.readable) ∧
      s₁.buf.readable = body ++ kCRLF := by
    obtain ⟨-, c, rfl, -⟩ := line_ok hline
    have hread : (s.buf.retrieve ((toInt (setLine k.1 flags.1 exp.1 body.length).length).toNat + 2)).readable =
        body ++ kCRLF := by
      rw [toInt_of_le (by omega), Int.toNat_natCast]
      exact readable_line hb'
    exact ⟨by rw [hread, hb'], hread⟩
  obtain ⟨-, w, hc⟩ := line_taken hs hl hne hb' hpass hx.1
  obtain ⟨cmd, hcmd⟩ := s.conv.handle_command_set (request_set k.word flags.word exp.word (word_decimal hpos))
  have hc' : setKey { s.conv with command_ := cmd } k.1 (decimal body.length ++ 13 :: w) = .ok s₁.conv :=
    (hcmd s.server_ (13 :: w)).symm.trans hc
  obtain ⟨x, hx', hcase⟩ := setKey_ok hc'
  rw [atoi_numeral hpos rfl w] at hx'
  cases hx'
  rcases hcase with ⟨hrange, hconv⟩ | ⟨-, e, -, hconv⟩
  · -- rejected: the parser goes on with the body
    have hs₁ : s₁.conv.state_ = .kNewCommand := by
      rw [hconv]
      exact hs
    refine ⟨hlen, hrange, blank_of_quiet hs₁ hx.2 hm₁ ?_⟩
    intro u hu hlow
    refine hquiet u (.pass hpass hu) hlow ((length_visits hu).trans ?_)
    rw [hx.2, List.length_append]
    exact Nat.le_refl _
  · -- accepted: a value is stored
    have hs₁ : s₁.conv.state_ = .kReceiveValue := by rw [hconv]
    have hne₁ : s₁.buf.readable ≠ [] := by
      rw [hx.2]
      exact List.append_ne_nil_of_right_ne_nil _ nofun
    rcases pass_of_msgCb hm₁ with hp | ⟨s₂, hp, hm₂⟩
    · obtain ⟨hs₂, -⟩ := (pass_leaves hp).resolve_left hne₁
      rw [hs₁] at hs₂
      cases hs₂
    · rw [pass_receiveValue hs₁ hne₁] at hp
      obtain ⟨_, hr, hp⟩ := map_eq_ok.1 hp
      cases hp
      obtain ⟨_, _, _, _, _, _, _, hconv₂, -⟩ := receiveValue_ok hr
      obtain ⟨y, hy⟩ := sent_msgCb hm₂
      rw [ht, hconv₂] at hy
      have hnil := (List.append_eq_nil_iff.1 hy).1
      exact absurd (List.append_eq_nil_iff.1 hnil).2 (by decide)

/-- **The body of a rejected `set`** is discarded, in every stream, if and only if the `set` is rejected and the body
consists of empty lines. -/
theorem discarded_iff (hbody : 1024 < body.length) : Discarded k flags exp body ↔ Blank k flags exp body := by
  have hpos : 0 < body.length := by omega
  exact ⟨blank_of_discarded hpos, discarded_of_blank hpos⟩

theorem discarded_iff_blank : Discarded tokenA tokenZero tokenZero (text (List.replicate 513 [])) :=
  (discarded_iff (by decide +kernel)).2 ⟨by decide +kernel, .inr (by decide +kernel), 513, rfl⟩

/-- A body that starts with a command. -/
def commandBody : Bytes := bytes "get a\r\n" ++ List.replicate 1018 120

theorem not_discarded_command : ¬∀ (k flags exp : Token) (body : Bytes), 1024 < body.length →
    Discarded k flags exp body := by
  intro h
  have hlen : 1024 < commandBody.length := by decide +kernel
  obtain ⟨-, -, j, hj⟩ := blank_of_discarded (by omega) (h tokenA tokenZero tokenZero commandBody hlen)
  cases j with
  | zero => exact absurd (congrArg List.length hj) (by decide +kernel)
  | succ j =>
    rw [List.replicate_succ, text_cons] at hj
    have hhead : (103 : UInt8) = 13 := (List.cons.inj hj).1
    exact absurd hhead (by decide)

end Session

end Libeva.Minimemcached
