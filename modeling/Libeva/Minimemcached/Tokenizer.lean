import Libeva.Machine
import Mathlib.Data.List.TakeWhile
import Mathlib.Data.Nat.Digits.Defs

/-!
# The tokens of a command line, and `atoi`

A `string_view` into the input buffer has memory behind it. The tokenizer stays inside its view, but `atoi` gets a
pointer to the first character of a token and reads on until the number ends.

* `StringTokenizer`: the characters from `beg_` to `end_`, with the memory after them.
* `strtol`, `atoi`: as in the C library of the platform, where a `long` has 64 bits.
* `nextToken_word`, `hasMoreToken_word`: a line that starts with a word.
* `atoi_decimal`: the number of a decimal numeral, with anything but a digit after it.
* `atoi_append`: the memory after a line does not matter if the line has more to it than white space.
-/

namespace Libeva.Minimemcached

/-- A `string_view` and the memory after it. -/
structure StringView where
  chars : Bytes
  after : Bytes
  deriving DecidableEq

/-- What can be read from `data()`. -/
def StringView.data (v : StringView) : Bytes := v.chars ++ v.after

/-- The same view with more memory after it. -/
def StringView.push (v : StringView) (a : Bytes) : StringView := ⟨v.chars, v.after ++ a⟩

@[simp] theorem StringView.chars_push (v : StringView) (a : Bytes) : (v.push a).chars = v.chars := rfl

@[simp] theorem StringView.data_push (v : StringView) (a : Bytes) : (v.push a).data = v.data ++ a :=
  (List.append_assoc ..).symm

/-- `StringTokenizer`: what is between `beg_` and `end_`, and the memory after `end_`. -/
structure StringTokenizer where
  rest : Bytes
  after : Bytes
  sepFunc_ : UInt8 → Bool

namespace StringTokenizer

/-- The loop that both calls start with. -/
def skip (t : StringTokenizer) : StringTokenizer := { t with rest := t.rest.dropWhile t.sepFunc_ }

def hasMoreToken (t : StringTokenizer) : Bool × StringTokenizer := (!t.skip.rest.isEmpty, t.skip)

def nextToken (t : StringTokenizer) : StringView × StringTokenizer :=
  let token := t.skip.rest.takeWhile fun c => !t.sepFunc_ c
  let rest := t.skip.rest.dropWhile fun c => !t.sepFunc_ c
  (⟨token, rest ++ t.after⟩, { t with rest := rest })

theorem length_hasMoreToken (t : StringTokenizer) : t.hasMoreToken.2.rest.length ≤ t.rest.length :=
  (List.dropWhile_sublist _).length_le

/-- A token and what is left come from what was there. -/
theorem length_nextToken (t : StringTokenizer) :
    t.nextToken.1.chars.length + t.nextToken.2.rest.length ≤ t.rest.length := by
  unfold nextToken
  dsimp only
  rw [← List.length_append, List.takeWhile_append_dropWhile]
  exact t.length_hasMoreToken

/-! ### Words -/

/-- A non-empty string without separators. -/
def Word (p : UInt8 → Bool) (w : Bytes) : Prop := w ≠ [] ∧ ∀ c ∈ w, p c = false

/-- The end of a string, or a separator. -/
def Stop (p : UInt8 → Bool) (r : Bytes) : Prop := ∀ c ∈ r.head?, p c = true

variable {p : UInt8 → Bool} {c : UInt8} {w r x a : Bytes}

theorem stop_nil : Stop p [] := nofun

theorem stop_cons (h : p c = true) : Stop p (c :: r) := fun _ hd => Option.some.inj hd ▸ h

theorem hasMoreToken_sep (h : p c = true) : hasMoreToken ⟨c :: x, a, p⟩ = hasMoreToken ⟨x, a, p⟩ := by
  unfold hasMoreToken skip
  rw [List.dropWhile_cons_of_pos h]

theorem nextToken_sep (h : p c = true) : nextToken ⟨c :: x, a, p⟩ = nextToken ⟨x, a, p⟩ := by
  unfold nextToken skip
  rw [List.dropWhile_cons_of_pos h]

theorem hasMoreToken_word (h : Word p w) : hasMoreToken ⟨w ++ r, a, p⟩ = (true, ⟨w ++ r, a, p⟩) := by
  obtain ⟨hne, hw⟩ := h
  cases w with
  | nil => exact absurd rfl hne
  | cons d w =>
    have hd : ¬p d = true := by rw [hw d List.mem_cons_self]; exact Bool.false_ne_true
    unfold hasMoreToken skip
    rw [List.cons_append, List.dropWhile_cons_of_neg hd]
    rfl

/-- The next token is the word at the front. -/
theorem nextToken_word (h : Word p w) (hr : Stop p r) :
    nextToken ⟨w ++ r, a, p⟩ = (⟨w, r ++ a⟩, ⟨r, a, p⟩) := by
  have hskip : skip ⟨w ++ r, a, p⟩ = ⟨w ++ r, a, p⟩ := congrArg Prod.snd (hasMoreToken_word h)
  have hw : ∀ d ∈ w, (!p d) = true := fun d hd => by rw [h.2 d hd]; rfl
  unfold nextToken
  rw [hskip]
  dsimp only
  rw [List.takeWhile_append_of_pos hw, List.dropWhile_append_of_pos hw]
  cases r with
  | nil => rw [List.takeWhile_nil, List.append_nil, List.dropWhile_nil]
  | cons d r =>
    have hd : ¬(!p d) = true := by rw [hr d rfl]; exact Bool.false_ne_true
    rw [List.takeWhile_cons_of_neg (p := fun c => !p c) hd, List.dropWhile_cons_of_neg (p := fun c => !p c) hd,
      List.append_nil]

/-! ### Memory behind the view -/

/-- The same view with more memory after it. -/
def push (t : StringTokenizer) (a : Bytes) : StringTokenizer := { t with after := t.after ++ a }

@[simp] theorem hasMoreToken_push (t : StringTokenizer) (a : Bytes) :
    (t.push a).hasMoreToken = (t.hasMoreToken.1, t.hasMoreToken.2.push a) := rfl

@[simp] theorem nextToken_push (t : StringTokenizer) (a : Bytes) :
    (t.push a).nextToken = (t.nextToken.1.push a, t.nextToken.2.push a) := by
  unfold nextToken StringView.push
  rw [List.append_assoc]
  rfl

end StringTokenizer

/-! ## `atoi` -/

def isspace (c : UInt8) : Bool := c == 32 || (9 ≤ c && c ≤ 13)

def isdigit (c : UInt8) : Bool := 48 ≤ c && c ≤ 57

/-- The value of a string of digits. -/
def digits (l : Bytes) : ℕ := l.foldl (fun n c => 10 * n + (c.toNat - 48)) 0

/-- The number after its sign; reading on past the end of the memory is a fault. -/
def number (neg : Bool) (s : Bytes) : Except Fault ℤ :=
  if s.all isdigit then .error .outOfBounds
  else
    let n : ℤ := digits (s.takeWhile isdigit)
    .ok (if neg then max (-(2 ^ 63)) (-n) else min (2 ^ 63 - 1) n)

/-- `strtol( s, nullptr, 10 )`. -/
def strtol (s : Bytes) : Except Fault ℤ :=
  match s.dropWhile isspace with
  | [] => .error .outOfBounds
  | c :: t => number (c == 45) (if c == 43 || c == 45 then t else c :: t)

/-- `atoi( s )`. -/
def atoi (s : Bytes) : Except Fault ℤ := (strtol s).map fun n => n.bmod (2 ^ 32)

theorem number_error {neg : Bool} {s : Bytes} {f : Fault} (h : number neg s = .error f) : f = .outOfBounds := by
  unfold number at h
  split at h
  · exact (Except.error.inj h).symm
  · cases h

theorem atoi_error {s : Bytes} {f : Fault} (h : atoi s = .error f) : f = .outOfBounds := by
  unfold atoi at h
  cases hs : strtol s with
  | error g =>
    rw [hs] at h
    cases h
    unfold strtol at hs
    split at hs
    · exact (Except.error.inj hs).symm
    · exact number_error hs
  | ok n => rw [hs] at h; cases h

/-- What comes after the first byte that is no digit does not matter. -/
theorem number_append {neg : Bool} {a : UInt8} (ha : isdigit a = false) (d y z : Bytes) :
    number neg (d ++ a :: y) = number neg (d ++ a :: z) := by
  unfold number
  have hall : ∀ w : Bytes, (d ++ a :: w).all isdigit = false := by
    intro w
    rw [List.all_append, List.all_cons, ha, Bool.false_and, Bool.and_false]
  have htake : ∀ w : Bytes, (d ++ a :: w).takeWhile isdigit = d.takeWhile isdigit := by
    intro w
    rw [List.takeWhile_append, List.takeWhile_cons_of_neg (by rw [ha]; exact Bool.false_ne_true), List.append_nil]
    split
    · rename_i h
      exact ((List.takeWhile_prefix _).eq_of_length h).symm
    · rfl
  rw [hall, hall, htake, htake]

/-- What comes after the line does not matter if the line has more to it than white space. -/
theorem atoi_append {d : Bytes} (hd : ∃ c ∈ d, isspace c = false) {a : UInt8} (ha : isdigit a = false) (y z : Bytes) :
    atoi (d ++ a :: y) = atoi (d ++ a :: z) := by
  have hne : d.dropWhile isspace ≠ [] := by
    obtain ⟨c, hc, hs⟩ := hd
    intro he
    rw [List.dropWhile_eq_nil_iff.1 he c hc] at hs
    cases hs
  have hdrop : ∀ w : Bytes, (d ++ a :: w).dropWhile isspace = d.dropWhile isspace ++ a :: w := by
    intro w
    rw [List.dropWhile_append, if_neg (by rw [List.isEmpty_iff]; exact hne)]
  unfold atoi strtol
  rw [hdrop, hdrop]
  cases hw : d.dropWhile isspace with
  | nil => exact absurd hw hne
  | cons c t =>
    dsimp only [List.cons_append]
    congr 1
    by_cases hsign : (c == 43 || c == 45) = true
    · rw [if_pos hsign, if_pos hsign]
      exact number_append ha t y z
    · rw [if_neg hsign, if_neg hsign]
      exact number_append ha (c :: t) y z

/-- The decimal numeral of a positive number. -/
def decimal (n : ℕ) : Bytes := ((Nat.digits 10 n).reverse).map fun d => UInt8.ofNat (48 + d)

theorem digit_toNat {d : ℕ} (h : d < 10) : (UInt8.ofNat (48 + d)).toNat = 48 + d := by
  rw [UInt8.toNat_ofNat']
  omega

theorem isdigit_iff {c : UInt8} : isdigit c = true ↔ 48 ≤ c.toNat ∧ c.toNat ≤ 57 := by
  unfold isdigit
  rw [Bool.and_eq_true, decide_eq_true_iff, decide_eq_true_iff, UInt8.le_iff_toNat_le, UInt8.le_iff_toNat_le]
  rfl

theorem isdigit_digit {d : ℕ} (h : d < 10) : isdigit (UInt8.ofNat (48 + d)) = true := by
  rw [isdigit_iff, digit_toNat h]
  omega

/-- The digits in reverse order are the number. -/
theorem foldr_digits (l : List ℕ) (hl : ∀ d ∈ l, d < 10) :
    l.foldr (fun d n => 10 * n + ((UInt8.ofNat (48 + d)).toNat - 48)) 0 = Nat.ofDigits 10 l := by
  induction l with
  | nil => rfl
  | cons d l ih =>
    rw [List.foldr_cons, ih fun e he => hl e (List.mem_cons_of_mem _ he), digit_toNat (hl d List.mem_cons_self),
      Nat.ofDigits_cons]
    show 10 * _ + (48 + d - 48) = d + 10 * _
    omega

theorem digits_decimal (n : ℕ) : digits (decimal n) = n := by
  unfold digits decimal
  rw [List.foldl_map, List.foldl_reverse]
  refine (foldr_digits _ fun d hd => Nat.digits_lt_base (by decide) hd).trans ?_
  exact Nat.ofDigits_digits 10 n

theorem isdigit_decimal {n : ℕ} : ∀ c ∈ decimal n, isdigit c = true := by
  intro c hc
  unfold decimal at hc
  obtain ⟨d, hd, rfl⟩ := List.mem_map.1 hc
  exact isdigit_digit (Nat.digits_lt_base (by decide) (List.mem_reverse.1 hd))

theorem decimal_ne_nil {n : ℕ} (h : 0 < n) : decimal n ≠ [] := by
  unfold decimal
  intro he
  rw [List.map_eq_nil_iff, List.reverse_eq_nil_iff, Nat.digits_eq_nil_iff_eq_zero] at he
  omega

/-- A digit is neither white space nor a sign. -/
theorem not_space_of_digit {c : UInt8} (h : isdigit c = true) :
    isspace c = false ∧ (c == 43 || c == 45) = false ∧ (c == 45) = false := by
  unfold isdigit at h
  unfold isspace
  grind

/-- What `atoi` makes of a decimal numeral: `strtol` stops at the greatest `long`, and the `int` wraps. -/
def atoiValue (n : ℕ) : ℤ := (min (2 ^ 63 - 1) (n : ℤ)).bmod (2 ^ 32)

/-- The number of a decimal numeral with anything but a digit after it. -/
theorem atoi_numeral {n : ℕ} (h0 : 0 < n) {a : UInt8} (ha : isdigit a = false) (y : Bytes) :
    atoi (decimal n ++ a :: y) = .ok (atoiValue n) := by
  have hdig := isdigit_decimal (n := n)
  have hval := digits_decimal n
  have hne := decimal_ne_nil h0
  generalize decimal n = l at hdig hval hne
  cases l with
  | nil => exact absurd rfl hne
  | cons c t =>
    obtain ⟨hspace, hsign, hneg⟩ := not_space_of_digit (hdig c List.mem_cons_self)
    have hall : (c :: t ++ a :: y).all isdigit = false := by
      rw [List.all_append, List.all_cons (a := a), ha, Bool.false_and, Bool.and_false]
    have htake : (c :: t ++ a :: y).takeWhile isdigit = c :: t := by
      rw [List.takeWhile_append_of_pos hdig, List.takeWhile_cons_of_neg (by rw [ha]; exact Bool.false_ne_true),
        List.append_nil]
    unfold atoi strtol
    rw [List.cons_append, List.dropWhile_cons_of_neg (by rw [hspace]; exact Bool.false_ne_true)]
    dsimp only
    rw [hsign, hneg, if_neg Bool.false_ne_true]
    unfold number
    rw [← List.cons_append, hall, htake, hval, if_neg Bool.false_ne_true]
    dsimp only
    rw [if_neg Bool.false_ne_true]
    rfl

theorem atoi_decimal {n : ℕ} (h0 : 0 < n) (h : n ≤ INT_MAX) {a : UInt8} (ha : isdigit a = false) (y : Bytes) :
    atoi (decimal n ++ a :: y) = .ok n := by
  have hlt : n < 2 ^ 31 := le_INT_MAX.1 h
  rw [atoi_numeral h0 ha y]
  unfold atoiValue
  rw [min_eq_right (by omega)]
  exact congrArg Except.ok (Int.bmod_eq_of_le (by omega) (by omega))

end Libeva.Minimemcached
