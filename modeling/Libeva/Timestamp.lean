import Libeva.Machine
import Libeva.Lib.Calendar
import Libeva.Lib.Numeral

/-!
# `Timestamp` as text

A `Timestamp` is its microseconds since the epoch, negative ones before it. `gmtime_r` is the one of the library; the
division of C drops the fraction, and so the microseconds of a time before the epoch are negative.

* `toFormattedString_eq`: from the epoch to the year 9999 the text has fields of fixed widths.
* `ofText`, `ofString`: readers of the two formats, for every time stamp.
* `text_order`: the texts are read back, and are ordered as the time stamps are while the fields have fixed widths.
-/

namespace Libeva.Timestamp

def kMicroSecondsPerSecond : ℕ := 1000 * 1000

/-- `fromUnixTime( t, microseconds )` -/
def fromUnixTime (t microseconds : ℤ) : ℤ := t * kMicroSecondsPerSecond + microseconds

def secondsSinceEpoch (us : ℤ) : ℤ := us.tdiv kMicroSecondsPerSecond

/-- `struct tm`. -/
structure Tm where
  tm_year : ℤ
  tm_mon : ℕ
  tm_mday : ℕ
  tm_hour : ℕ
  tm_min : ℕ
  tm_sec : ℕ
  deriving DecidableEq

/-- The civil time of a second, in UTC; years count from 1900. -/
def gmtime_r (seconds : ℤ) : Tm :=
  let t := Calendar.civil (seconds / 86400)
  let r := (seconds % 86400).toNat
  ⟨t.1 - 1900, t.2.1, t.2.2 + 1, r / 3600, r % 3600 / 60, r % 3600 % 60⟩

def digit (d : ℕ) : UInt8 := UInt8.ofNat (48 + d)

/-- `%d` of a number, with a width, filled up with `c`. -/
def decimal (c : UInt8) (w n : ℕ) : Bytes :=
  List.replicate (w - (Numeral.digits 10 n).length) c ++ (Numeral.digits 10 n).reverse.map digit

/-- `%d`, filled up with blanks in front of the sign or with zeros behind it. -/
def decimalInt (c : UInt8) (w : ℕ) (z : ℤ) : Bytes :=
  if 0 ≤ z then decimal c w z.natAbs
  else if c = 48 then 45 :: decimal 48 (w - 1) z.natAbs
  else List.replicate (w - ((Numeral.digits 10 z.natAbs).length + 1)) c ++ 45 :: decimal c 0 z.natAbs

/-- `"%4d%02d%02d %02d:%02d:%02d"`. -/
def Tm.text (tm_time : Tm) : Bytes :=
  decimalInt 32 4 (tm_time.tm_year + 1900) ++ (decimal 48 2 (tm_time.tm_mon + 1) ++ (decimal 48 2 tm_time.tm_mday ++
    (32 :: (decimal 48 2 tm_time.tm_hour ++ (58 :: (decimal 48 2 tm_time.tm_min ++
      (58 :: decimal 48 2 tm_time.tm_sec)))))))

/-- `snprintf` into a block of `n` characters. -/
def snprintf (n : ℕ) (text : Bytes) : Bytes := text.take (n - 1)

def toString (us : ℤ) : Bytes :=
  snprintf 32 (decimalInt 32 0 (us.tdiv kMicroSecondsPerSecond) ++
    (46 :: decimalInt 48 6 (us.tmod kMicroSecondsPerSecond)))

def toFormattedString (us : ℤ) (showMicroseconds : Bool) : Bytes :=
  let tm_time := gmtime_r (us.tdiv kMicroSecondsPerSecond)
  if showMicroseconds then snprintf 64 (tm_time.text ++ (46 :: decimalInt 48 6 (us.tmod kMicroSecondsPerSecond)))
  else snprintf 64 tm_time.text

/-! ## Fields -/

section Fields

variable {n n' w : ℕ} {x x' l : Bytes} {t : Tm}

/-- A field of `w` characters. -/
def field (w n : ℕ) : Bytes := (Numeral.fixed 10 w n).map digit

/-- The number in a field. -/
def number (l : Bytes) : ℕ := Numeral.value 10 (l.map fun c => c.toNat - 48)

@[simp] theorem length_field : (field w n).length = w := by
  unfold field
  rw [List.length_map, Numeral.length_fixed]

theorem map_digit {l : List ℕ} (h : ∀ d ∈ l, d < 10) : (l.map digit).map (fun c => c.toNat - 48) = l := by
  rw [List.map_map]
  refine (List.map_congr_left fun d hd => ?_).trans (List.map_id' l)
  have hlt := h d hd
  interval_cases d <;> rfl

@[simp] theorem number_field (h : n < 10 ^ w) : number (field w n) = n := by
  unfold number field
  rw [map_digit fun d => Numeral.lt_of_mem_fixed (by decide), Numeral.value_fixed h]

theorem number_decimal (c : UInt8) (n : ℕ) : number (decimal c 0 n) = n := by
  unfold number decimal
  rw [Nat.zero_sub, List.replicate_zero, List.nil_append,
    map_digit fun d hd => Numeral.lt_of_mem_digits (by decide) (List.mem_reverse.1 hd), Numeral.value_reverse_digits]

theorem decimalInt_natCast (c : UInt8) (w n : ℕ) : decimalInt c w (n : ℤ) = decimal c w n := by
  rw [decimalInt, if_pos (Int.natCast_nonneg n), Int.natAbs_natCast]

theorem decimal_zeros (hw : 0 < w) (h : n < 10 ^ w) : decimal 48 w n = field w n := by
  unfold decimal field
  rw [← Numeral.fixed_eq (by decide) hw h, List.map_append, List.map_replicate]
  rfl

/-- Nothing is filled up. -/
theorem decimal_full (c : UInt8) (hw : 0 < w) (h : n < 10 ^ w) (hl : 10 ^ (w - 1) ≤ n) : decimal c w n = field w n := by
  have hlen := Numeral.lt_length_digits (b := 10) (by decide) hl
  have hfill : w - (Numeral.digits 10 n).length = 0 := by omega
  unfold decimal field
  rw [← Numeral.fixed_eq (by decide) hw h, hfill]
  rfl

theorem toNat_digit {d : ℕ} (h : d < 10) : (digit d).toNat = 48 + d := by
  interval_cases d <;> rfl

theorem map_digit_lt_iff {l l' : List ℕ} (h : ∀ d ∈ l, d < 10) (h' : ∀ d ∈ l', d < 10) :
    l.map digit < l'.map digit ↔ l < l' := by
  induction l generalizing l' with
  | nil => cases l' <;> simp
  | cons d l ih =>
    cases l' with
    | nil => simp
    | cons d' l' =>
      rw [List.forall_mem_cons] at h h'
      have hlt : digit d < digit d' ↔ d < d' := by
        rw [UInt8.lt_iff_toNat_lt, toNat_digit h.1, toNat_digit h'.1]
        omega
      have heq : digit d = digit d' ↔ d = d' := by
        rw [← UInt8.toNat_inj, toNat_digit h.1, toNat_digit h'.1]
        omega
      rw [List.map_cons, List.map_cons, List.cons_lt_cons_iff, List.cons_lt_cons_iff, hlt, heq, ih h.2 h'.2]

/-- Texts are ordered by their first fields. -/
theorem field_lt_iff (h : n < 10 ^ w) (h' : n' < 10 ^ w) :
    field w n ++ x < field w n' ++ x' ↔ n < n' ∨ n = n' ∧ x < x' := by
  have hlt : field w n < field w n' ↔ n < n' := by
    unfold field
    rw [map_digit_lt_iff (fun _ => Numeral.lt_of_mem_fixed (by decide)) (fun _ => Numeral.lt_of_mem_fixed (by decide)),
      Numeral.fixed_lt_iff h h']
  have heq : field w n = field w n' ↔ n = n' :=
    ⟨fun he => by rw [← number_field h, he, number_field h'], fun he => by rw [he]⟩
  rw [Numeral.append_lt_append_iff (by rw [length_field, length_field]), hlt, heq]

/-! ### Integers -/

/-- The integer that blanks, a sign and digits stand for. -/
def integer (l : Bytes) : ℤ :=
  let l := l.dropWhile (· == 32)
  if l.head? = some 45 then -(number l.tail) else number l

def IsDigit (c : UInt8) : Prop := ∃ d < 10, c = digit d

theorem IsDigit.ne {c : UInt8} (h : IsDigit c) : c ≠ 32 ∧ c ≠ 45 ∧ c ≠ 46 := by
  obtain ⟨d, hd, rfl⟩ := h
  interval_cases d <;> decide

theorem isDigit_of_mem_field {c : UInt8} (h : c ∈ field w n) : IsDigit c := by
  obtain ⟨d, hd, rfl⟩ := List.mem_map.1 h
  exact ⟨d, Numeral.lt_of_mem_fixed (by decide) hd, rfl⟩

theorem isDigit_of_mem_decimal {c : UInt8} (h : c ∈ decimal 48 w n) : IsDigit c := by
  rcases List.mem_append.1 h with h | h
  · exact ⟨0, by decide, List.eq_of_mem_replicate h⟩
  · obtain ⟨d, hd, rfl⟩ := List.mem_map.1 h
    exact ⟨d, Numeral.lt_of_mem_digits (by decide) (List.mem_reverse.1 hd), rfl⟩

theorem number_decimal_zeros (w n : ℕ) : number (decimal 48 w n) = n := by
  have hn := number_decimal 48 n
  unfold number decimal at *
  rw [Nat.zero_sub, List.replicate_zero, List.nil_append] at hn
  rw [List.map_append, List.map_replicate]
  exact (Numeral.value_zeros _ _).trans hn

theorem dropWhile_blanks (k : ℕ) {c : UInt8} (hc : c ≠ 32) :
    (List.replicate k 32 ++ c :: l).dropWhile (· == 32) = c :: l := by
  rw [List.dropWhile_append_of_pos fun d hd => by rw [List.eq_of_mem_replicate hd]; rfl,
    List.dropWhile_cons_of_neg (by simpa using hc)]

theorem integer_digits (k : ℕ) (h : ∀ c ∈ l, IsDigit c) (hl : l ≠ []) :
    integer (List.replicate k 32 ++ l) = number l := by
  cases l with
  | nil => exact absurd rfl hl
  | cons c l =>
    obtain ⟨h32, h45, -⟩ := (h c List.mem_cons_self).ne
    unfold integer
    rw [dropWhile_blanks k h32]
    exact if_neg fun he => h45 (Option.some.inj he)

theorem integer_minus (k : ℕ) (l : Bytes) : integer (List.replicate k 32 ++ 45 :: l) = -(number l) := by
  unfold integer
  rw [dropWhile_blanks k (by decide)]
  rfl

theorem decimal_ne_nil (c : UInt8) (w n : ℕ) : decimal c w n ≠ [] := by
  intro h
  have hd := (List.append_eq_nil_iff.1 h).2
  exact Numeral.digits_ne_nil (List.reverse_eq_nil_iff.1 (List.map_eq_nil_iff.1 hd))

theorem decimal_blanks (w n : ℕ) :
    decimal 32 w n = List.replicate (w - (Numeral.digits 10 n).length) 32 ++ decimal 48 0 n := by
  unfold decimal
  rw [Nat.zero_sub, List.replicate_zero, List.nil_append]

/-- **Round trip.** -/
theorem integer_decimalInt {c : UInt8} (hc : c = 32 ∨ c = 48) (w : ℕ) (z : ℤ) : integer (decimalInt c w z) = z := by
  have hzero (w n : ℕ) : integer (decimal 48 w n) = n := by
    have hi := integer_digits 0 (fun _ => isDigit_of_mem_decimal) (decimal_ne_nil 48 w n)
    rwa [number_decimal_zeros, List.replicate_zero, List.nil_append] at hi
  unfold decimalInt
  rcases hc with rfl | rfl
  · split
    · rw [decimal_blanks, integer_digits _ (fun _ => isDigit_of_mem_decimal) (decimal_ne_nil 48 0 _),
        number_decimal_zeros]
      omega
    · rw [if_neg (by decide), integer_minus, number_decimal]
      omega
  · split
    · rw [hzero]
      omega
    · have hi := integer_minus 0 (decimal 48 (w - 1) z.natAbs)
      rw [number_decimal_zeros, List.replicate_zero, List.nil_append] at hi
      rw [if_pos rfl, hi]
      omega

/-- The text of an integer has no point. -/
theorem ne_point_of_mem_decimalInt {c d : UInt8} (hc : c = 32 ∨ c = 48) {w : ℕ} {z : ℤ} (h : d ∈ decimalInt c w z) :
    d ≠ 46 := by
  have hdigits : ∀ {w n : ℕ}, d ∈ decimal 48 w n → d ≠ 46 := fun hd => (isDigit_of_mem_decimal hd).ne.2.2
  have hblanks : ∀ {w n : ℕ}, d ∈ decimal 32 w n → d ≠ 46 := fun hd => by
    rw [decimal_blanks] at hd
    rcases List.mem_append.1 hd with hd | hd
    · rw [List.eq_of_mem_replicate hd]
      decide
    · exact hdigits hd
  have hminus : ∀ {l : Bytes}, (d ∈ l → d ≠ 46) → d ∈ 45 :: l → d ≠ 46 := fun hl hd => by
    rcases List.mem_cons.1 hd with rfl | hd
    · decide
    · exact hl hd
  unfold decimalInt at h
  rcases hc with rfl | rfl
  · split at h
    · exact hblanks h
    · rw [if_neg (by decide)] at h
      rcases List.mem_append.1 h with h | h
      · rw [List.eq_of_mem_replicate h]
        decide
      · exact hminus hblanks h
  · split at h
    · exact hdigits h
    · rw [if_pos rfl] at h
      exact hminus hdigits h

theorem length_decimal (c : UInt8) {w n k : ℕ} (hk : 0 < k) (h : n < 10 ^ k) : (decimal c w n).length ≤ max w k := by
  have hlen := Numeral.length_digits_le (b := 10) (by decide) hk h
  unfold decimal
  rw [List.length_append, List.length_replicate, List.length_map, List.length_reverse]
  omega

theorem length_decimalInt (c : UInt8) {w k : ℕ} {z : ℤ} (hk : 0 < k) (h : z.natAbs < 10 ^ k) :
    (decimalInt c w z).length ≤ max w k + 1 := by
  have hlen := Numeral.length_digits_le (b := 10) (by decide) hk h
  unfold decimalInt
  split
  · exact Nat.le_succ_of_le (length_decimal c hk h)
  · split
    · have hd := length_decimal 48 (w := w - 1) hk h
      rw [List.length_cons]
      omega
    · unfold decimal
      simp only [List.length_append, List.length_replicate, List.length_cons, List.length_map, List.length_reverse]
      omega

end Fields

/-! ## Civil times -/

section Civil

open Calendar (Date ofDays toDays)

variable {t u : Date} {r r' s s' us us' : ℕ} {x : Bytes}

/-- The year of a second has four digits. -/
def InRange (s : ℕ) : Prop := (ofDays (s / 86400)).year < 10000

instance : DecidablePred InRange := fun s => inferInstanceAs (Decidable ((ofDays (s / 86400)).year < 10000))

def dateText (t : Date) : Bytes := field 4 t.year ++ (field 2 (t.month + 1) ++ field 2 (t.day + 1))

/-- The text of a second of the day. -/
def clockText (r : ℕ) : Bytes :=
  32 :: (field 2 (r / 3600) ++ (58 :: (field 2 (r % 3600 / 60) ++ (58 :: field 2 (r % 3600 % 60)))))

def secondText (s : ℕ) : Bytes := dateText (ofDays (s / 86400)) ++ clockText (s % 86400)

@[simp] theorem length_dateText : (dateText t).length = 8 := by simp [dateText]

@[simp] theorem length_clockText : (clockText r).length = 9 := by simp [clockText]

@[simp] theorem length_secondText : (secondText s).length = 17 := by simp [secondText]

/-- The text of any second: only its year has no fixed width. -/
theorem text_gmtime_eq (s : ℤ) : (gmtime_r s).text = decimalInt 32 4 (Calendar.civil (s / 86400)).1 ++
    (field 2 ((Calendar.civil (s / 86400)).2.1 + 1) ++ (field 2 ((Calendar.civil (s / 86400)).2.2 + 1) ++
      clockText (s % 86400).toNat)) := by
  obtain ⟨hmon, hday⟩ := Calendar.civil_valid (s / 86400)
  have hr : (s % 86400).toNat < 86400 := by omega
  unfold gmtime_r Tm.text clockText
  generalize Calendar.civil (s / 86400) = t at *
  generalize (s % 86400).toNat = r at *
  dsimp only
  rw [Int.sub_add_cancel, decimal_zeros (by decide) (by omega), decimal_zeros (by decide) (by omega),
    decimal_zeros (by decide) (by omega), decimal_zeros (by decide) (by omega), decimal_zeros (by decide) (by omega)]

theorem text_gmtime (h : InRange s) : (gmtime_r s).text = secondText s := by
  obtain ⟨hyear, -, -⟩ := Calendar.ofDays_valid (s / 86400)
  have hdays : (s : ℤ) / 86400 = ((s / 86400 : ℕ) : ℤ) := by omega
  have hrest : ((s : ℤ) % 86400).toNat = s % 86400 := by omega
  rw [text_gmtime_eq, hdays, hrest, Calendar.civil_natCast, decimalInt_natCast]
  unfold secondText dateText
  unfold InRange at h
  generalize ofDays (s / 86400) = t at *
  rw [decimal_full 32 (by decide) h (show 10 ^ 3 ≤ t.year by omega)]
  simp only [List.append_assoc]

/-! ### Order -/

theorem cons_lt_cons {c : UInt8} {x x' : Bytes} : c :: x < c :: x' ↔ x < x' := by
  rw [List.cons_lt_cons_iff]
  simp

theorem last_field_lt_iff {n n' w : ℕ} (h : n < 10 ^ w) (h' : n' < 10 ^ w) : field w n < field w n' ↔ n < n' := by
  have hlt : field w n ++ [] < field w n' ++ [] ↔ n < n' ∨ n = n' ∧ ([] : Bytes) < [] := field_lt_iff h h'
  simpa using hlt

theorem dateText_lt_iff (ht : t.Valid) (hu : u.Valid) (hy : t.year < 10000) (hy' : u.year < 10000) :
    dateText t < dateText u ↔ toDays t < toDays u := by
  rw [Calendar.toDays_lt_iff ht hu]
  obtain ⟨-, hm, hd⟩ := ht
  obtain ⟨-, hm', hd'⟩ := hu
  have h31 := Calendar.monthDays_le t.year t.month
  have h31' := Calendar.monthDays_le u.year u.month
  unfold dateText
  rw [field_lt_iff hy hy', field_lt_iff (by omega) (by omega), last_field_lt_iff (by omega) (by omega)]
  simp only [Nat.add_lt_add_iff_right, Nat.add_right_cancel_iff]

theorem clockText_lt_iff (hr : r < 86400) (hr' : r' < 86400) : clockText r < clockText r' ↔ r < r' := by
  unfold clockText
  rw [cons_lt_cons, field_lt_iff (by omega) (by omega), cons_lt_cons, field_lt_iff (by omega) (by omega), cons_lt_cons,
    last_field_lt_iff (by omega) (by omega), ← Numeral.div_mod_lt_iff, ← Numeral.div_mod_lt_iff]

/-! ### Reading -/

/-- The days that the first eight characters stand for. -/
def ofDateText (l : Bytes) : ℕ :=
  toDays ⟨number (Block.read l 0 4), number (Block.read l 4 2) - 1, number (Block.read l 6 2) - 1⟩

/-- The second of the day that nine characters stand for. -/
def ofClockText (l : Bytes) : ℕ :=
  number (Block.read l 1 2) * 3600 + (number (Block.read l 4 2) * 60 + number (Block.read l 7 2))

def ofSecondText (l : Bytes) : ℕ := ofDateText l * 86400 + ofClockText (l.drop 8)

theorem read_field {n w : ℕ} {x : Bytes} : Block.read (field w n ++ x) 0 w = field w n := by
  unfold Block.read
  exact List.take_left' length_field

theorem read_cons {c : UInt8} {l : Bytes} {i k : ℕ} : Block.read (c :: l) (i + 1) k = Block.read l i k := rfl

theorem read_drop {l x : Bytes} {i j k : ℕ} (h : l.length = i) : Block.read (l ++ x) (i + j) k = Block.read x j k := by
  unfold Block.read
  rw [← h, List.drop_append, List.drop_of_length_le (Nat.le_add_right _ _), Nat.add_sub_cancel_left, List.nil_append]

theorem ofDateText_dateText (ht : t.Valid) (hy : t.year < 10000) : ofDateText (dateText t ++ x) = toDays t := by
  obtain ⟨-, hm, hd⟩ := ht
  have h31 := Calendar.monthDays_le t.year t.month
  unfold ofDateText dateText
  simp only [List.append_assoc]
  rw [read_field, number_field hy, read_drop (i := 4) (j := 0) length_field, read_field, number_field (by omega),
    read_drop (i := 4) (j := 2) length_field, read_drop (i := 2) (j := 0) length_field, read_field,
    number_field (by omega)]
  rfl

theorem ofClockText_clockText (hr : r < 86400) : ofClockText (clockText r ++ x) = r := by
  unfold ofClockText clockText
  simp only [List.append_assoc, List.cons_append]
  rw [read_cons, read_field, number_field (by omega), read_cons, read_drop (i := 2) (j := 1) length_field, read_cons,
    read_field, number_field (by omega), read_cons, read_drop (i := 2) (j := 4) length_field, read_cons,
    read_drop (i := 2) (j := 1) length_field, read_cons, read_field, number_field (by omega)]
  omega

theorem ofSecondText_secondText (h : InRange s) : ofSecondText (secondText s ++ x) = s := by
  unfold ofSecondText secondText
  rw [List.append_assoc, ofDateText_dateText (Calendar.ofDays_valid _) h, Calendar.toDays_ofDays,
    List.drop_left' length_dateText, ofClockText_clockText (Nat.mod_lt _ (by decide))]
  omega

theorem secondText_lt_iff (h : InRange s) (h' : InRange s') : secondText s < secondText s' ↔ s < s' := by
  have heq : dateText (ofDays (s / 86400)) = dateText (ofDays (s' / 86400)) ↔ s / 86400 = s' / 86400 := by
    refine ⟨fun he => ?_, fun he => by rw [he]⟩
    have hd := ofDateText_dateText (x := []) (Calendar.ofDays_valid (s / 86400)) h
    rw [he, ofDateText_dateText (Calendar.ofDays_valid _) h', Calendar.toDays_ofDays, Calendar.toDays_ofDays] at hd
    exact hd.symm
  unfold secondText
  rw [Numeral.append_lt_append_iff (by rw [length_dateText, length_dateText]), heq,
    dateText_lt_iff (Calendar.ofDays_valid _) (Calendar.ofDays_valid _) h h', Calendar.toDays_ofDays,
    Calendar.toDays_ofDays, clockText_lt_iff (Nat.mod_lt _ (by decide)) (Nat.mod_lt _ (by decide)),
    ← Numeral.div_mod_lt_iff]

end Civil

/-! ## The texts of time stamps -/

section Texts

variable {us : ℤ} {s : ℤ}

/-- The second that `Tm.text` stands for: the last thirteen characters have fixed places. -/
def ofTmText (l : Bytes) : ℤ :=
  let w := l.length - 13
  Calendar.ofCivil (integer (l.take w)) (number (Block.read l w 2) - 1) (number (Block.read l (w + 2) 2) - 1) * 86400 +
    ofClockText (l.drop (w + 4))

/-- Seconds in front of the point, microseconds behind it. -/
def ofParts (seconds : Bytes → ℤ) (l : Bytes) : ℤ :=
  fromUnixTime (seconds (l.takeWhile (· != 46))) (integer (l.dropWhile (· != 46)).tail)

/-- The time stamp that stands in `toFormattedString()`. -/
def ofText (l : Bytes) : ℤ := ofParts ofTmText l

/-- The time stamp that stands in `toString()`. -/
def ofString (l : Bytes) : ℤ := ofParts integer l

theorem ofTmText_text (s : ℤ) : ofTmText (gmtime_r s).text = s := by
  have hdays := Calendar.ofCivil_civil (s / 86400)
  obtain ⟨hmon, hday⟩ := Calendar.civil_valid (s / 86400)
  have hint := integer_decimalInt (.inl rfl) 4 (Calendar.civil (s / 86400)).1
  have hclock := ofClockText_clockText (x := []) (show (s % 86400).toNat < 86400 by omega)
  rw [text_gmtime_eq]
  generalize Calendar.civil (s / 86400) = t at *
  generalize decimalInt 32 4 t.1 = year at hint
  rw [List.append_nil] at hclock
  have hlen : (year ++ (field 2 (t.2.1 + 1) ++ (field 2 (t.2.2 + 1) ++ clockText (s % 86400).toNat))).length =
      year.length + 13 := by
    simp
  have hdrop : (year ++ (field 2 (t.2.1 + 1) ++ (field 2 (t.2.2 + 1) ++ clockText (s % 86400).toNat))).drop
      (year.length + 4) = clockText (s % 86400).toNat := by
    rw [← List.drop_drop, List.drop_left, ← List.append_assoc, List.drop_left' (by simp)]
  have hmonth : number (Block.read (year ++ (field 2 (t.2.1 + 1) ++ (field 2 (t.2.2 + 1) ++
      clockText (s % 86400).toNat))) year.length 2) = t.2.1 + 1 := by
    rw [← Nat.add_zero year.length, read_drop rfl, read_field, number_field (by omega)]
  have hdom : number (Block.read (year ++ (field 2 (t.2.1 + 1) ++ (field 2 (t.2.2 + 1) ++
      clockText (s % 86400).toNat))) (year.length + 2) 2) = t.2.2 + 1 := by
    rw [read_drop rfl, read_drop (i := 2) (j := 0) length_field, read_field, number_field (by omega)]
  unfold ofTmText
  rw [hlen, Nat.add_sub_cancel]
  dsimp only
  rw [List.take_left, hint, hdrop, hclock, hmonth, hdom, Nat.add_sub_cancel, Nat.add_sub_cancel, hdays]
  omega

theorem ofParts_append {f : Bytes → ℤ} {l l' : Bytes} (h : ∀ c ∈ l, c ≠ 46) :
    ofParts f (l ++ 46 :: l') = fromUnixTime (f l) (integer l') := by
  have hne : ∀ c ∈ l, (c != 46) = true := fun c hc => bne_iff_ne.2 (h c hc)
  unfold ofParts
  rw [List.takeWhile_append_of_pos hne, List.dropWhile_append_of_pos hne, List.takeWhile_cons_of_neg (by decide),
    List.dropWhile_cons_of_neg (by decide), List.append_nil, List.tail_cons]

theorem ne_point_of_mem_text {c : UInt8} (h : c ∈ (gmtime_r s).text) : c ≠ 46 := by
  rw [text_gmtime_eq] at h
  have hfield : ∀ {w n : ℕ}, c ∈ field w n → c ≠ 46 := fun hc => (isDigit_of_mem_field hc).ne.2.2
  unfold clockText at h
  simp only [List.mem_append, List.mem_cons] at h
  rcases h with h | h | h | rfl | h | rfl | h | rfl | h
  · exact ne_point_of_mem_decimalInt (.inl rfl) h
  · exact hfield h
  · exact hfield h
  · decide
  · exact hfield h
  · decide
  · exact hfield h
  · decide
  · exact hfield h

/-- The parts of a time stamp. -/
theorem fromUnixTime_tdiv (us : ℤ) :
    fromUnixTime (us.tdiv kMicroSecondsPerSecond) (us.tmod kMicroSecondsPerSecond) = us :=
  Int.tdiv_mul_add_tmod us kMicroSecondsPerSecond

theorem natAbs_tmod_lt (us : ℤ) : (us.tmod kMicroSecondsPerSecond).natAbs < 10 ^ 6 := by
  rw [Int.natAbs_tmod]
  exact Nat.mod_lt _ (by decide)

theorem natAbs_tdiv_lt (h : -(2 ^ 63) ≤ us ∧ us < 2 ^ 63) : (us.tdiv kMicroSecondsPerSecond).natAbs < 10 ^ 13 := by
  rw [Int.natAbs_tdiv]
  refine Nat.div_lt_of_lt_mul ?_
  have hk : (kMicroSecondsPerSecond : ℤ).natAbs = 1000000 := rfl
  rw [hk]
  omega

/-- The texts fit in their buffers. -/
theorem length_text (h : s.natAbs < 10 ^ 13) : (gmtime_r s).text.length ≤ 30 := by
  obtain ⟨hlow, hhigh⟩ := Calendar.civil_year_le (s / 86400)
  have hyear : (Calendar.civil (s / 86400)).1.natAbs < 10 ^ 10 := by
    unfold Calendar.cycleDays Calendar.cyclesTo at *
    omega
  have hlen := length_decimalInt 32 (w := 4) (by decide) hyear
  rw [text_gmtime_eq]
  simp only [List.length_append, length_field, length_clockText]
  omega

theorem toString_eq (h : -(2 ^ 63) ≤ us ∧ us < 2 ^ 63) :
    toString us = decimalInt 32 0 (us.tdiv kMicroSecondsPerSecond) ++
      46 :: decimalInt 48 6 (us.tmod kMicroSecondsPerSecond) := by
  have hs := length_decimalInt 32 (w := 0) (by decide) (natAbs_tdiv_lt h)
  have hm := length_decimalInt 48 (w := 6) (by decide) (natAbs_tmod_lt us)
  unfold toString snprintf
  refine List.take_of_length_le ?_
  rw [List.length_append, List.length_cons]
  omega

theorem toFormattedString_eq (h : -(2 ^ 63) ≤ us ∧ us < 2 ^ 63) :
    toFormattedString us true = (gmtime_r (secondsSinceEpoch us)).text ++
      46 :: decimalInt 48 6 (us.tmod kMicroSecondsPerSecond) ∧
    toFormattedString us false = (gmtime_r (secondsSinceEpoch us)).text := by
  have hs := length_text (natAbs_tdiv_lt h)
  have hm := length_decimalInt 48 (w := 6) (by decide) (natAbs_tmod_lt us)
  unfold toFormattedString snprintf secondsSinceEpoch
  simp only [if_true, if_false, Bool.false_eq_true]
  constructor
  · refine List.take_of_length_le ?_
    rw [List.length_append, List.length_cons]
    omega
  · refine List.take_of_length_le ?_
    omega

/-- **Round trip**, for every time stamp. -/
theorem ofText_toFormattedString (h : -(2 ^ 63) ≤ us ∧ us < 2 ^ 63) :
    ofText (toFormattedString us true) = us ∧ ofTmText (toFormattedString us false) = secondsSinceEpoch us ∧
      ofString (toString us) = us := by
  obtain ⟨ht, hf⟩ := toFormattedString_eq h
  rw [ht, hf, toString_eq h, ofText, ofString, ofParts_append fun _ => ne_point_of_mem_text,
    ofParts_append fun _ => ne_point_of_mem_decimalInt (.inl rfl), ofTmText_text, integer_decimalInt (.inl rfl),
    integer_decimalInt (.inr rfl)]
  exact ⟨fromUnixTime_tdiv us, rfl, fromUnixTime_tdiv us⟩

/-! ### Fixed widths -/

section Nat

variable {us us' : ℕ}

/-- The time stamp that a text begins with whose fields have fixed widths. -/
def ofFormattedString (l : Bytes) : ℕ := ofSecondText l * kMicroSecondsPerSecond + number (Block.read l 18 6)

theorem ofFormattedString_append (h : InRange (us / kMicroSecondsPerSecond)) (x : Bytes) :
    ofFormattedString
      (secondText (us / kMicroSecondsPerSecond) ++ (46 :: (field 6 (us % kMicroSecondsPerSecond) ++ x))) = us := by
  have hus : us % kMicroSecondsPerSecond < 10 ^ 6 := Nat.mod_lt us (by decide)
  unfold ofFormattedString
  rw [ofSecondText_secondText h, read_drop (i := 17) (j := 1) length_secondText, read_cons, read_field,
    number_field hus]
  exact Nat.div_add_mod' us kMicroSecondsPerSecond

/-- The year of a second that is not before the epoch. -/
theorem inRange_iff (s : ℕ) : InRange s ↔ (gmtime_r s).tm_year + 1900 < 10000 := by
  have hdays : (s : ℤ) / 86400 = ((s / 86400 : ℕ) : ℤ) := by omega
  unfold gmtime_r InRange
  rw [hdays, Calendar.civil_natCast]
  dsimp only
  omega

theorem secondsSinceEpoch_natCast (us : ℕ) : secondsSinceEpoch us = ((us / kMicroSecondsPerSecond : ℕ) : ℤ) :=
  (Int.ofNat_tdiv us kMicroSecondsPerSecond).symm

/-- Until the year 9999 the fields have fixed widths. -/
theorem toFormattedString_natCast (h : InRange (us / kMicroSecondsPerSecond)) :
    toFormattedString us true = secondText (us / kMicroSecondsPerSecond) ++
      (46 :: field 6 (us % kMicroSecondsPerSecond)) ∧
    toFormattedString us false = secondText (us / kMicroSecondsPerSecond) := by
  have hus : us % kMicroSecondsPerSecond < 10 ^ 6 := Nat.mod_lt us (by decide)
  have hdiv : (us : ℤ).tdiv kMicroSecondsPerSecond = ((us / kMicroSecondsPerSecond : ℕ) : ℤ) :=
    secondsSinceEpoch_natCast us
  have hmod : (us : ℤ).tmod kMicroSecondsPerSecond = ((us % kMicroSecondsPerSecond : ℕ) : ℤ) :=
    (Int.ofNat_tmod us kMicroSecondsPerSecond).symm
  unfold toFormattedString snprintf
  rw [hdiv, hmod]
  simp only [text_gmtime h, decimalInt_natCast, decimal_zeros (show 0 < 6 by decide) hus, if_true, if_false,
    Bool.false_eq_true]
  constructor
  · rw [List.take_of_length_le (by simp)]
  · rw [List.take_of_length_le (by simp)]

theorem toFormattedString_lt_iff (h : InRange (us / kMicroSecondsPerSecond))
    (h' : InRange (us' / kMicroSecondsPerSecond)) :
    (toFormattedString us true < toFormattedString us' true ↔ us < us') ∧
    (toFormattedString us false < toFormattedString us' false ↔
      us / kMicroSecondsPerSecond < us' / kMicroSecondsPerSecond) := by
  have hus : us % kMicroSecondsPerSecond < 10 ^ 6 := Nat.mod_lt us (by decide)
  have hus' : us' % kMicroSecondsPerSecond < 10 ^ 6 := Nat.mod_lt us' (by decide)
  obtain ⟨ht, hf⟩ := toFormattedString_natCast h
  obtain ⟨ht', hf'⟩ := toFormattedString_natCast h'
  rw [ht, ht', hf, hf']
  refine ⟨?_, secondText_lt_iff h h'⟩
  have heq : secondText (us / kMicroSecondsPerSecond) = secondText (us' / kMicroSecondsPerSecond) ↔
      us / kMicroSecondsPerSecond = us' / kMicroSecondsPerSecond := by
    refine ⟨fun he => ?_, fun he => by rw [he]⟩
    have hs := ofSecondText_secondText (x := []) h
    rw [he, ofSecondText_secondText h'] at hs
    exact hs.symm
  rw [Numeral.append_lt_append_iff (by rw [length_secondText, length_secondText]), secondText_lt_iff h h', heq,
    cons_lt_cons, last_field_lt_iff hus hus', ← Numeral.div_mod_lt_iff]

end Nat

/-- **The texts** of time stamps are read back; from the epoch to the year 9999 they are ordered as the time stamps are,
and without the microseconds as the seconds are. -/
theorem text_order (us us' : ℤ) (h : -(2 ^ 63) ≤ us ∧ us < 2 ^ 63) :
    ofText (toFormattedString us true) = us ∧
    ofTmText (toFormattedString us false) = secondsSinceEpoch us ∧
    ofString (toString us) = us ∧
    (0 ≤ us → 0 ≤ us' → (gmtime_r (secondsSinceEpoch us)).tm_year + 1900 < 10000 →
      (gmtime_r (secondsSinceEpoch us')).tm_year + 1900 < 10000 →
      (toFormattedString us true < toFormattedString us' true ↔ us < us') ∧
      (toFormattedString us false < toFormattedString us' false ↔
        secondsSinceEpoch us < secondsSinceEpoch us')) := by
  obtain ⟨ht, hf, hs⟩ := ofText_toFormattedString h
  refine ⟨ht, hf, hs, fun h0 h0' hy hy' => ?_⟩
  obtain ⟨k, rfl⟩ := Int.eq_ofNat_of_zero_le h0
  obtain ⟨k', rfl⟩ := Int.eq_ofNat_of_zero_le h0'
  rw [secondsSinceEpoch_natCast, ← inRange_iff] at hy hy'
  rw [secondsSinceEpoch_natCast, secondsSinceEpoch_natCast, Int.ofNat_lt, Int.ofNat_lt]
  exact toFormattedString_lt_iff hy hy'

/-- The last microsecond of a leap day and the first one of the next month; and the last one before the epoch. -/
theorem text_order_leap : toFormattedString 1709251199999999 true < toFormattedString 1709251200000000 true ∧
    toFormattedString 1709251199999999 true = bytes "20240229 23:59:59.999999" ∧
    ofText (toFormattedString (-1) true) = -1 ∧ toString (-1) = bytes "0.-00001" := by
  have hlt := (text_order 1709251199999999 1709251200000000 (by decide)).2.2.2 (by decide) (by decide)
    (by decide +kernel) (by decide +kernel)
  exact ⟨hlt.1.2 (by decide), by decide +kernel, (text_order (-1) 0 (by decide)).1, by decide +kernel⟩

end Texts

end Libeva.Timestamp
