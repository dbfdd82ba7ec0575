import Libeva.Lib.Fields
import Libeva.Minimemcached.Tokenizer

/-!
# The tokens of a string

`hasMoreToken` and `nextToken` both move `beg_`, and a handler calls them in any order.

* `Call`, `calls`, `tokens`: calls on a tokenizer, and what the calls of `nextToken` return.
* `views`: the fields that are left, as views into the string.
* `views_hasMoreToken`, `views_nextToken`: what each call leaves.
* `tokens_eq`: the calls of `nextToken` return the fields in their order and then nothing.
-/

namespace Libeva.Minimemcached.StringTokenizer

open Fields

inductive Call
  | hasMoreToken
  | nextToken
  deriving DecidableEq

def call (t : StringTokenizer) : Call → StringTokenizer
  | .hasMoreToken => t.hasMoreToken.2
  | .nextToken => t.nextToken.2

def calls (t : StringTokenizer) (cs : List Call) : StringTokenizer := cs.foldl call t

/-- What the calls of `nextToken` return. -/
def tokens (t : StringTokenizer) : List Call → List StringView
  | [] => []
  | .hasMoreToken :: cs => tokens t.hasMoreToken.2 cs
  | .nextToken :: cs => t.nextToken.1 :: tokens t.nextToken.2 cs

/-- A field of what is left is a view with the rest and the memory behind the string after it. -/
def views (t : StringTokenizer) : List StringView := (fields t.sepFunc_ t.rest).map fun x => ⟨x.1, x.2 ++ t.after⟩

/-- The view at `end_`. -/
def done (t : StringTokenizer) : StringView := ⟨[], t.after⟩

variable {t : StringTokenizer} {p : UInt8 → Bool} {s a : Bytes} {cs : List Call} {v : StringView}

theorem views_sep {c : UInt8} (h : p c = true) : views ⟨c :: s, a, p⟩ = views ⟨s, a, p⟩ := by
  unfold views
  rw [fields_sep h]

theorem views_word {w : Bytes} (hw : Word p w) (hs : Stop p s) :
    views ⟨w ++ s, a, p⟩ = ⟨w, s ++ a⟩ :: views ⟨s, a, p⟩ := by
  unfold views
  rw [fields_append hw.1 hw.2 hs]
  rfl

theorem chars_ne_nil (h : v ∈ t.views) : v.chars ≠ [] := by
  obtain ⟨x, hx, rfl⟩ := List.mem_map.1 h
  exact (mem_fields.1 hx).ne_nil

/-! ## One call -/

/-- `hasMoreToken` only skips separators. -/
theorem views_hasMoreToken (t : StringTokenizer) : t.hasMoreToken.2.views = t.views := by
  obtain ⟨s, a, p⟩ := t
  induction s using Fields.induction p with
  | nil => rfl
  | sep c s hc ih => rw [hasMoreToken_sep hc, views_sep hc, ih]
  | field w s hne hw hs ih => rw [hasMoreToken_word ⟨hne, hw⟩]

theorem hasMoreToken_iff (t : StringTokenizer) : t.hasMoreToken.1 = true ↔ t.views ≠ [] := by
  obtain ⟨s, a, p⟩ := t
  induction s using Fields.induction p with
  | nil => exact iff_of_false nofun fun h => h rfl
  | sep c s hc ih => rw [hasMoreToken_sep hc, views_sep hc, ih]
  | field w s hne hw hs ih =>
    rw [hasMoreToken_word ⟨hne, hw⟩, views_word ⟨hne, hw⟩ hs]
    exact iff_of_true rfl (List.cons_ne_nil _ _)

/-- The next token is the first field that is left. -/
theorem nextToken_fst (t : StringTokenizer) : t.nextToken.1 = t.views.head?.getD t.done := by
  obtain ⟨s, a, p⟩ := t
  induction s using Fields.induction p with
  | nil => rfl
  | sep c s hc ih =>
    rw [nextToken_sep hc, views_sep hc, ih]
    rfl
  | field w s hne hw hs ih =>
    rw [nextToken_word ⟨hne, hw⟩ hs, views_word ⟨hne, hw⟩ hs]
    rfl

theorem views_nextToken (t : StringTokenizer) : t.nextToken.2.views = t.views.tail := by
  obtain ⟨s, a, p⟩ := t
  induction s using Fields.induction p with
  | nil => rfl
  | sep c s hc ih => rw [nextToken_sep hc, views_sep hc, ih]
  | field w s hne hw hs ih =>
    rw [nextToken_word ⟨hne, hw⟩ hs, views_word ⟨hne, hw⟩ hs]
    rfl

theorem nextToken_ne_nil : t.nextToken.1.chars ≠ [] ↔ t.views ≠ [] := by
  rw [nextToken_fst]
  cases hv : t.views with
  | nil => exact iff_of_false (fun h => h rfl) fun h => h rfl
  | cons v vs =>
    refine iff_of_true (chars_ne_nil (t := t) ?_) (List.cons_ne_nil _ _)
    rw [hv]
    exact List.mem_cons_self

/-! ## Any calls -/

/-- The tokens are the fields in their order, and empty views after the last. -/
theorem tokens_eq (t : StringTokenizer) (cs : List Call) : tokens t cs =
    t.views.take (cs.count .nextToken) ++ List.replicate (cs.count .nextToken - t.views.length) t.done := by
  induction cs generalizing t with
  | nil => rw [List.count_nil, List.take_zero, Nat.zero_sub]; rfl
  | cons c cs ih =>
    cases c with
    | hasMoreToken =>
      have hcount : (Call.hasMoreToken :: cs).count Call.nextToken = cs.count .nextToken :=
        List.count_cons_of_ne (by decide)
      have h := ih t.hasMoreToken.2
      rw [views_hasMoreToken] at h
      rw [hcount, tokens, h]
      rfl
    | nextToken =>
      have h := ih t.nextToken.2
      rw [views_nextToken] at h
      rw [List.count_cons_self, tokens, h, nextToken_fst]
      cases t.views with
      | nil =>
        rw [List.tail_nil, List.take_nil, List.take_nil, List.length_nil, Nat.sub_zero, Nat.sub_zero]
        rfl
      | cons v vs =>
        rw [List.length_cons, Nat.succ_sub_succ]
        rfl

/-- Only the calls of `nextToken` matter. -/
theorem tokens_filter (t : StringTokenizer) (cs : List Call) :
    tokens t (cs.filter (· = .nextToken)) = tokens t cs := by
  have hcount : (cs.filter (· = .nextToken)).count .nextToken = cs.count .nextToken := List.count_filter (by rfl)
  rw [tokens_eq, tokens_eq, hcount]

theorem views_calls_hasMoreToken (t : StringTokenizer) (n : ℕ) :
    (t.calls (List.replicate n .hasMoreToken)).views = t.views := by
  induction n generalizing t with
  | zero => rfl
  | succ n ih =>
    show (t.hasMoreToken.2.calls _).views = _
    rw [ih, views_hasMoreToken]

/-- The views are the maximal runs of non-separators. -/
theorem mem_views : v ∈ t.views ↔ ∃ r, IsField t.sepFunc_ t.rest v.chars r ∧ v.after = r ++ t.after := by
  unfold views
  rw [List.mem_map]
  constructor
  · rintro ⟨x, hx, rfl⟩
    exact ⟨x.2, mem_fields.1 hx, rfl⟩
  · rintro ⟨r, hr, ha⟩
    exact ⟨(v.chars, r), mem_fields.2 hr, by rw [← ha]⟩

/-- Each view begins behind the ones before it. -/
theorem pairwise_views (t : StringTokenizer) : t.views.Pairwise fun v w => w.data <:+ v.after := by
  unfold views
  rw [List.pairwise_map]
  refine (pairwise_fields t.sepFunc_ t.rest).imp ?_
  rintro x y ⟨z, hz⟩
  refine ⟨z, ?_⟩
  unfold StringView.data
  rw [← List.append_assoc, ← List.append_assoc, List.append_assoc z, hz]

/-- **The tokens.** Of any string, with any separators and any calls, the tokens that are not empty are the maximal runs
of non-separators in their order. At any point `hasMoreToken` says whether the next token is not empty, however often it
is called, its calls do not matter for the tokens that follow, and after a `false` these are all empty. -/
theorem tokens_fields (s after : Bytes) (sepFunc : UInt8 → Bool) (cs : List Call) :
    (tokens ⟨s, after, sepFunc⟩ cs).filter (·.chars ≠ []) =
      (views ⟨s, after, sepFunc⟩).take (cs.count .nextToken) ∧
    (∀ v, v ∈ views ⟨s, after, sepFunc⟩ ↔ ∃ r, IsField sepFunc s v.chars r ∧ v.after = r ++ after) ∧
    ((views ⟨s, after, sepFunc⟩).Pairwise fun v w => w.data <:+ v.after) ∧
    (∀ n, (calls ⟨s, after, sepFunc⟩ cs).hasMoreToken.1 = true ↔
      ((calls ⟨s, after, sepFunc⟩ cs).calls (List.replicate n .hasMoreToken)).nextToken.1.chars ≠ []) ∧
    (∀ ds, tokens (calls ⟨s, after, sepFunc⟩ cs) (ds.filter (· = .nextToken)) =
      tokens (calls ⟨s, after, sepFunc⟩ cs) ds) ∧
    ((calls ⟨s, after, sepFunc⟩ cs).hasMoreToken.1 = false → ∀ ds, ∀ v ∈ tokens (calls ⟨s, after, sepFunc⟩ cs) ds,
      v.chars = []) := by
  refine ⟨?_, fun v => mem_views, pairwise_views _, fun n => ?_, tokens_filter _, fun hfalse ds v hv => ?_⟩
  · rw [tokens_eq, List.filter_append]
    have htake : ∀ v ∈ (views ⟨s, after, sepFunc⟩).take (cs.count .nextToken), decide (v.chars ≠ []) = true :=
      fun v hv => decide_eq_true (chars_ne_nil (List.mem_of_mem_take hv))
    rw [List.filter_eq_self.2 htake, List.filter_replicate_of_neg (of_decide_eq_false rfl), List.append_nil]
  · rw [hasMoreToken_iff, nextToken_ne_nil, views_calls_hasMoreToken]
  · have hnil : (calls ⟨s, after, sepFunc⟩ cs).views = [] := by
      by_contra hne
      rw [(hasMoreToken_iff _).2 hne] at hfalse
      cases hfalse
    rw [tokens_eq, hnil, List.take_nil, List.nil_append] at hv
    rw [List.eq_of_mem_replicate hv]
    rfl

example : (tokens ⟨bytes "  get a ", [], (· == 32)⟩ [.nextToken, .hasMoreToken, .nextToken, .nextToken]).map (·.chars) =
    [bytes "get", bytes "a", []] := by
  decide +kernel

end Libeva.Minimemcached.StringTokenizer
