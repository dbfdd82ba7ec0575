import Libeva.Lib.Delimiter
import Libeva.Minimemcached.Server

/-!
# The framing of the replies to `get`

A reply carries the value without its length, up to the text `END`. Two sequences of results for the same keys may have
the same replies only if both contain a value with the text `END` and a line end in it.

* `getSent`: what `GetHandler` sends for what `server_->get` returns (`getKey_sent`).
* `step_same`: from equal streams, either the first results are equal or one stream falls behind the other.
* `step_behind`: a stream without `END` in its values never catches up again.
-/

namespace Libeva.Minimemcached

open Net

/-- The buffer of `GetHandler` before it is sent. -/
def getOutput (outputBuf : Buffer) (entry : Option Entry) : Buffer :=
  let buf := match entry with
    | some entry => entry.copyToBuffer outputBuf
    | none => outputBuf
  buf.append (bytes "END\r\n")

/-- What `GetHandler` sends. -/
def getSent (entry : Option Entry) : Bytes := (getOutput (.new kInitialSize) entry).readable

/-- The result that a client is after. -/
def result (entry : Option Entry) : Option Bytes := entry.map Entry.value

/-- A result for the key `k`. -/
def Answers (k : Bytes) (entry : Option Entry) : Prop :=
  ∀ e ∈ entry, e.key = k ∧ 1 ≤ e.value.length ∧ e.value.length ≤ 1024

def END : Bytes := bytes "END\r\n"

/-- A result whose value does not contain `END`. -/
def Clean (entry : Option Entry) : Prop := ∀ e ∈ entry, ¬END <:+: e.value

instance (k : Bytes) (entry : Option Entry) : Decidable (Answers k entry) :=
  inferInstanceAs (Decidable (∀ e ∈ entry, e.key = k ∧ 1 ≤ e.value.length ∧ e.value.length ≤ 1024))

instance (entry : Option Entry) : Decidable (Clean entry) :=
  inferInstanceAs (Decidable (∀ e ∈ entry, ¬END <:+: e.value))

theorem readable_getOutput {b : Buffer} {entry : Option Entry} {k : Bytes} (h : ∀ e ∈ entry, e.key = k) :
    (getOutput b entry).readable = b.readable ++ getReply k (result entry) := by
  unfold getOutput
  cases entry with
  | none => exact Buffer.readable_append _ _
  | some e =>
    dsimp only [result, Option.map_some, getReply]
    rw [Buffer.readable_append, Session.readable_copyToBuffer, h e rfl, List.append_assoc]

theorem getSent_eq {entry : Option Entry} {k : Bytes} (h : Answers k entry) :
    getSent entry = getReply k (result entry) := by
  unfold getSent
  rw [readable_getOutput fun e he => (h e he).1, Buffer.readable_new, List.nil_append]

/-- `GetHandler` leaves its buffer empty, and sends just the reply. -/
theorem getKey_sent {c c' : Conversation} {m : MiniMemcached} {k : Bytes} (h : c.getKey m k = .ok c')
    (hout : c.outputBuf_.readable = []) :
    c'.outputBuf_.readable = [] ∧ ∃ e entry, c.currEntry_.resetKey k = .ok e ∧ m.get e = .ok entry ∧
      c'.sent = c.sent ++ getSent entry := by
  unfold Conversation.getKey at h
  obtain ⟨e, he, h⟩ := bind_eq_ok.1 h
  obtain ⟨entry, hentry, h⟩ := bind_eq_ok.1 h
  cases h
  refine ⟨Buffer.readable_retrieveAll _, e, entry, he, hentry, ?_⟩
  unfold getSent getOutput
  cases entry with
  | none => simp only [Buffer.readable_append, hout, Buffer.readable_new]
  | some e => simp only [Buffer.readable_append, Session.readable_copyToBuffer, hout, Buffer.readable_new]

/-! ## Two streams -/

section Decode

variable {k v w y S T : Bytes} {r r' : Option Bytes}

/-- The letters of `END` after the first. -/
def endTail : Bytes := [78, 68, 13, 10]

theorem END_eq : END = 69 :: endTail := rfl

theorem fst_notMem : 69 ∉ endTail := by decide

def header (k : Bytes) : Bytes := bytes "VALUE " ++ k ++ bytes "\r\n"

theorem getReply_some : getReply k (some v) = header k ++ (v ++ END) := by
  unfold getReply header END
  simp only [List.append_assoc]

theorem header_eq : header k = bytes "VALUE " ++ k ++ 13 :: [10] := rfl

/-- The text `END` in a header is the end of the header. -/
theorem header_end (hk : 13 ∉ k) (h : header k ++ S = y ++ (END ++ T)) (hy : y.length < (header k).length) :
    header k = y ++ END := by
  obtain ⟨u, hu, hrest⟩ := Delimiter.rest_of_le h.symm hy.le
  rw [hu]
  congr 1
  rcases List.append_eq_append_iff.1 hrest with ⟨d, rfl, -⟩ | ⟨d, hend, -⟩
  · -- the first CR of the header is the one of `END`
    have hA : 13 ∉ bytes "VALUE " ++ k := by
      rw [List.mem_append, not_or]
      exact ⟨by decide, hk⟩
    have hsplit : bytes "VALUE " ++ k ++ 13 :: [10] = (y ++ [69, 78, 68]) ++ 13 :: (10 :: d) := by
      rw [← header_eq, hu, END_eq, List.append_assoc y]
      rfl
    obtain ⟨-, -, hd⟩ := (List.append_cons_inj_of_notMem hA (by decide)).1 hsplit
    rw [← (List.cons.inj hd).2, List.append_nil]
  · -- the last letter of the header is the last one of `END`
    rcases List.eq_nil_or_concat' u with rfl | ⟨u, b, rfl⟩
    · rw [hu, List.append_nil] at hy
      exact absurd hy (Nat.lt_irrefl _)
    have hlast : bytes "VALUE " ++ k ++ [13] ++ [10] = y ++ u ++ [b] := by
      rw [List.append_assoc y, ← hu, header_eq, List.append_assoc]
      rfl
    obtain rfl : 10 = b := (List.cons.inj (List.append_inj' hlast rfl).2).1
    have hsplit : [69, 78, 68, 13] ++ 10 :: [] = u ++ 10 :: d := by
      rw [List.append_assoc] at hend
      exact hend
    obtain ⟨-, -, rfl⟩ := (List.append_cons_inj_of_notMem (by decide) (by decide)).1 hsplit
    rw [hend, List.append_nil]

theorem le_of_clean (hv : ¬END <:+: v) (h : v ++ (END ++ S) = y ++ (END ++ T)) : v.length ≤ y.length :=
  Delimiter.le_of_not_infix fst_notMem hv h

theorem getReply_none_ne (v : Bytes) (S T : Bytes) : getReply k none ++ S ≠ getReply k (some v) ++ T := by
  intro h
  have hhead : (69 : UInt8) = 86 := (List.cons.inj h).1
  exact absurd hhead (by decide)

/-- From equal streams, either the first results are equal or the clean stream is behind. -/
theorem step_same (hr : ∀ v ∈ r, ¬END <:+: v) (h : getReply k r ++ S = getReply k r' ++ T) :
    (r = r' ∧ S = T) ∨ ∃ y, S = y ++ (END ++ T) := by
  cases r with
  | none =>
    cases r' with
    | none => exact .inl ⟨rfl, List.append_cancel_left h⟩
    | some v' => exact absurd h (getReply_none_ne v' S T)
  | some v =>
    cases r' with
    | none => exact absurd h.symm (getReply_none_ne v T S)
    | some v' =>
      simp only [getReply_some, List.append_assoc, List.append_cancel_left_eq] at h
      obtain ⟨u, rfl, hrest⟩ := Delimiter.rest_of_le h (le_of_clean (hr v rfl) h)
      by_cases hu : u = []
      · subst hu
        exact .inl ⟨by rw [List.append_nil], List.append_cancel_left hrest⟩
      · obtain ⟨x, rfl⟩ := Delimiter.prefix_of_shift fst_notMem hu hrest
        rw [List.append_assoc] at hrest
        exact .inr ⟨x, List.append_cancel_left hrest⟩

/-- What a reply consists of in front of its `END`. -/
theorem getReply_end (k : Bytes) (r : Option Bytes) : ∃ z, getReply k r = z ++ END ∧
    (z = [] ∨ ∃ v, z = header k ++ v) := by
  cases r with
  | none => exact ⟨[], rfl, .inl rfl⟩
  | some v => exact ⟨header k ++ v, by rw [getReply_some, List.append_assoc], .inr ⟨v, rfl⟩⟩

/-- The clean stream that is behind stays behind: its next reply ends before the next reply of the other stream. -/
theorem step_behind (hk : 13 ∉ k) (hr : ∀ v ∈ r, v ≠ [] ∧ ¬END <:+: v)
    (h : getReply k r ++ S = y ++ (END ++ (getReply k r' ++ T))) : ∃ y, S = y ++ (END ++ T) := by
  obtain ⟨z, hz, hz'⟩ := getReply_end k r'
  rw [hz, List.append_assoc] at h
  suffices hle : (getReply k r).length ≤ (y ++ (END ++ z)).length by
    have h' : getReply k r ++ S = (y ++ (END ++ z)) ++ (END ++ T) := by
      rw [h, List.append_assoc, List.append_assoc]
    obtain ⟨u, -, hu⟩ := Delimiter.rest_of_le h' hle
    exact ⟨u, hu⟩
  simp only [List.length_append]
  cases r with
  | none => exact Nat.le_trans (Nat.le_add_right _ z.length) (Nat.le_add_left _ _)
  | some v =>
    obtain ⟨hne, hclean⟩ := hr v rfl
    rw [getReply_some, List.append_assoc, List.append_assoc] at h
    rw [getReply_some, List.length_append, List.length_append]
    by_cases hy : y.length < (header k).length
    · have hend := header_end hk h hy
      rw [hend, List.append_assoc, List.append_cancel_left_eq, List.append_cancel_left_eq] at h
      rcases hz' with rfl | ⟨v', rfl⟩
      · have hv := le_of_clean hclean h
        exact absurd (List.length_eq_zero_iff.1 (Nat.le_zero.1 hv)) hne
      · have hv : v.length ≤ y.length := by
          rw [hend, List.append_assoc, List.append_assoc] at h
          exact le_of_clean hclean h
        rw [hend]
        simp only [List.length_append]
        omega
    · obtain ⟨c, rfl, hrest⟩ := Delimiter.rest_of_le h (Nat.le_of_not_lt hy)
      have hv := le_of_clean hclean hrest
      rw [List.length_append]
      omega

end Decode

/-! ## The streams of two sequences of results -/

section Streams

variable {ks : List Bytes} {rs rs' : List (Option Entry)}

theorem Clean.value {entry : Option Entry} {k : Bytes} (h : Clean entry) (ha : Answers k entry) :
    ∀ v ∈ result entry, v ≠ [] ∧ ¬END <:+: v := by
  cases entry with
  | none => exact nofun
  | some e =>
    rintro v ⟨⟩
    exact ⟨List.ne_nil_of_length_pos (ha e rfl).2.1, h e rfl⟩

theorem not_behind (hk : ∀ k ∈ ks, 13 ∉ k) (h : List.Forall₂ Answers ks rs) (h' : List.Forall₂ Answers ks rs')
    (hc : ∀ r ∈ rs, Clean r) (y : Bytes) : rs.flatMap getSent ≠ y ++ (END ++ rs'.flatMap getSent) := by
  induction h generalizing rs' y with
  | nil =>
    intro he
    have hlen := congrArg List.length he
    rw [List.length_append, List.length_append] at hlen
    exact absurd hlen.symm (Nat.ne_of_gt (Nat.add_pos_right _ (Nat.add_pos_left (by decide) _)))
  | @cons k r ks rs ha _ ih =>
    cases h' with
    | @cons _ r' _ rs' ha' h' =>
      intro he
      rw [List.flatMap_cons, List.flatMap_cons, getSent_eq ha, getSent_eq ha'] at he
      have hk' : 13 ∉ k := hk k List.mem_cons_self
      obtain ⟨y, hy⟩ := step_behind hk' ((hc r List.mem_cons_self).value ha) he
      exact ih (fun k hm => hk k (List.mem_cons_of_mem _ hm)) h' (fun r hm => hc r (List.mem_cons_of_mem _ hm)) y hy

theorem results_of_clean (hk : ∀ k ∈ ks, 13 ∉ k) (h : List.Forall₂ Answers ks rs) (h' : List.Forall₂ Answers ks rs')
    (hc : ∀ r ∈ rs, Clean r) (heq : rs.flatMap getSent = rs'.flatMap getSent) :
    rs.map result = rs'.map result := by
  induction h generalizing rs' with
  | nil =>
    cases h'
    rfl
  | @cons k r ks rs ha h ih =>
    cases h' with
    | @cons _ r' _ rs' ha' h' =>
      have hk' : ∀ k ∈ ks, 13 ∉ k := fun k hm => hk k (List.mem_cons_of_mem _ hm)
      have hc' : ∀ r ∈ rs, Clean r := fun r hm => hc r (List.mem_cons_of_mem _ hm)
      rw [List.flatMap_cons, List.flatMap_cons, getSent_eq ha, getSent_eq ha'] at heq
      have hr := fun v hv => ((hc r List.mem_cons_self).value ha v hv).2
      rcases step_same hr heq with ⟨hres, hst⟩ | ⟨y, hy⟩
      · rw [List.map_cons, List.map_cons, hres, ih hk' h' hc' hst]
      · exact absurd hy (not_behind hk' h h' hc' y)

/-- **The replies determine the results**, for the same keys, when the values of one of the two sequences do not contain
`END`. -/
theorem results_of_replies (hk : ∀ k ∈ ks, ∀ c ∈ k, c ≠ 32 ∧ c ≠ 13 ∧ c ≠ 10) (h : List.Forall₂ Answers ks rs)
    (h' : List.Forall₂ Answers ks rs') (hc : (∀ r ∈ rs, Clean r) ∨ ∀ r ∈ rs', Clean r)
    (heq : rs.flatMap getSent = rs'.flatMap getSent) : rs.map result = rs'.map result := by
  have hk' : ∀ k ∈ ks, 13 ∉ k := fun k hm hcr => (hk k hm 13 hcr).2.1 rfl
  rcases hc with hc | hc
  · exact results_of_clean hk' h h' hc heq
  · exact (results_of_clean hk' h' h hc heq.symm).symm

end Streams

/-- An entry with the key `k` and the value `v`. -/
def hit (k v : Bytes) : Entry := ⟨k.length, v.length, 0, k ++ v, hash_str k⟩

theorem results_of_replies_two :
    [none, some (hit [107] [97])].map result = [none, some (hit [107] [97])].map result := by
  have hk : ∀ k ∈ [[107], [107]], ∀ c ∈ k, c ≠ 32 ∧ c ≠ 13 ∧ c ≠ (10 : UInt8) := by decide +kernel
  have h : List.Forall₂ Answers [[107], [107]] [none, some (hit [107] [97])] := by decide +kernel
  exact results_of_replies hk h h (.inl (by decide +kernel)) rfl

/-- The text between the two values may belong to either of them. -/
theorem not_results_of_replies : ¬∀ (ks : List Bytes) (rs rs' : List (Option Entry)),
    (∀ k ∈ ks, ∀ c ∈ k, c ≠ 32 ∧ c ≠ 13 ∧ c ≠ 10) → List.Forall₂ Answers ks rs → List.Forall₂ Answers ks rs' →
      rs.flatMap getSent = rs'.flatMap getSent → rs.map result = rs'.map result := by
  intro h
  have h' := h [bytes "k", bytes "k"]
    [some (hit (bytes "k") (bytes "a")), some (hit (bytes "k") (bytes "bEND\r\nVALUE k\r\nc"))]
    [some (hit (bytes "k") (bytes "aEND\r\nVALUE k\r\nb")), some (hit (bytes "k") (bytes "c"))]
    (by decide +kernel) (by decide +kernel) (by decide +kernel) (by decide +kernel)
  exact absurd h' (by decide +kernel)

end Libeva.Minimemcached
