import Mathlib.Data.List.Lex
import Mathlib.Data.String.Basic
import Mathlib.Order.Lattice
import Mathlib.Tactic.Ring

/-!
# Lib.Rfc3339 — UTC instants of the years 0 to 9999 and their texts

A `DateTime` is a date of the Gregorian calendar and a time of day in nanoseconds, without leap
seconds; instants compare by the nanoseconds since the epoch.  `text` prints the fraction with as
many digits as it needs: none, 3, 6 or 9.  Texts compare as the instants (`text_lt_text`), though a
short one may meet a long one: where it ends its `+` is less than any point or digit.
-/

namespace Rfc3339

/-! ### Decimal digits -/

def digit (n : ℕ) : Char := Char.ofNat (48 + n)

/-- The last `w` decimal digits of a number. -/
def digits : (w n : ℕ) → List Char
  | 0, _ => []
  | w + 1, n => digits w (n / 10) ++ [digit (n % 10)]

@[simp] theorem length_digits : ∀ w n, (digits w n).length = w
  | 0, _ => rfl
  | w + 1, n => by rw [digits, List.length_append, length_digits w, List.length_singleton]

theorem digit_lt : ∀ n < 10, ∀ m < n, digit m < digit n := by decide

theorem digit_ge : ∀ n < 10, digit 0 ≤ digit n := by decide

theorem digits_ge : ∀ {w n : ℕ}, ∀ c ∈ digits w n, digit 0 ≤ c
  | 0, _, c, hc => by cases hc
  | w + 1, n, c, hc => by
    rcases List.mem_append.mp hc with hc | hc
    · exact digits_ge c hc
    · rw [List.mem_singleton.mp hc]
      exact digit_ge _ (Nat.mod_lt _ (by decide))

/-- The first digits are those of the quotient. -/
theorem digits_add (w n : ℕ) : ∀ k, digits (w + k) n = digits w (n / 10 ^ k) ++ digits k n
  | 0 => by rw [pow_zero, Nat.div_one, digits, List.append_nil]; rfl
  | k + 1 => by
    rw [← add_assoc, digits, digits_add w (n / 10) k, digits, List.append_assoc, Nat.div_div_eq_div_mul,
      pow_succ']

theorem digits_of_mod {k n : ℕ} (h : n % 10 ^ k = 0) : digits k n = List.replicate k (digit 0) := by
  induction k generalizing n with
  | zero => rfl
  | succ k ih =>
    have hdvd : 10 ^ k * 10 ∣ n := Nat.dvd_of_mod_eq_zero (pow_succ 10 k ▸ h)
    have hlast : n % 10 = 0 := Nat.mod_eq_zero_of_dvd ((Nat.dvd_mul_left 10 _).trans hdvd)
    rw [digits, ih (Nat.mod_eq_zero_of_dvd (Nat.dvd_div_of_mul_dvd (mul_comm 10 _ ▸ hdvd))), hlast]
    exact (List.replicate_succ' ..).symm

/-- A list that is less than one of its length stays less, whatever follows. -/
theorem append_lt_append : ∀ {x y : List Char}, x < y → x.length = y.length → ∀ s t, x ++ s < y ++ t
  | [], [], h, _, _, _ => absurd h (lt_irrefl _)
  | [], _ :: _, _, hl, _, _ => by cases hl
  | _ :: _, [], _, hl, _, _ => by cases hl
  | c :: x, d :: y, h, hl, s, t => by
    rw [List.cons_append, List.cons_append, List.cons_lt_cons_iff]
    rcases List.cons_lt_cons_iff.mp h with hcd | ⟨hcd, hxy⟩
    · exact .inl hcd
    · exact .inr ⟨hcd, append_lt_append hxy (Nat.succ.inj hl) s t⟩

theorem digits_lt_digits {w n m : ℕ} (h : n < m) (hm : m < 10 ^ w) : digits w n < digits w m := by
  induction w generalizing n m with
  | zero => rw [pow_zero] at hm; omega
  | succ w ih =>
    rw [pow_succ] at hm
    rw [digits, digits]
    rcases Nat.lt_or_ge (n / 10) (m / 10) with hdiv | hdiv
    · exact append_lt_append (ih hdiv (by omega)) (by rw [length_digits, length_digits]) _ _
    · rw [show n / 10 = m / 10 by omega]
      refine List.append_left_lt ?_
      rw [List.cons_lt_cons_iff]
      exact .inl (digit_lt _ (by omega) _ (by omega))

/-- A field of fixed width decides before what follows. -/
theorem field_lt {w n m : ℕ} (h : n < m) (hm : m < 10 ^ w) (s t : List Char) :
    digits w n ++ s < digits w m ++ t :=
  append_lt_append (digits_lt_digits h hm) (by rw [length_digits, length_digits]) s t

/-- A field that is the same leaves it to what follows. -/
theorem field_left_lt {w n : ℕ} {c : Char} {s t : List Char} (h : s < t) :
    digits w n ++ c :: s < digits w n ++ c :: t :=
  List.append_left_lt (List.cons_lt_cons_iff.mpr (.inr ⟨rfl, h⟩))

/-! ### Trailing zeros -/

/-- Zeros are the least digits. -/
theorem not_lt_zeros : ∀ {x : List Char}, (∀ c ∈ x, digit 0 ≤ c) →
    ¬ x < List.replicate x.length (digit 0)
  | [], _ => lt_irrefl _
  | c :: x, hx => by
    rw [List.length_cons, List.replicate_succ, List.cons_lt_cons_iff]
    rintro (h | ⟨-, h⟩)
    · exact absurd (hx c (List.mem_cons_self ..)) (not_le.mpr h)
    · exact not_lt_zeros (fun d hd => hx d (List.mem_cons_of_mem _ hd)) h

/-- **Zeros may be left out** before a character less than any digit. -/
theorem plus_lt {e : Char} (he : e < digit 0) (s t : List Char) : ∀ {x y : List Char} {i j : ℕ},
    (∀ c ∈ x, digit 0 ≤ c) → (∀ c ∈ y, digit 0 ≤ c) → x.length + i = y.length + j →
    x ++ List.replicate i (digit 0) < y ++ List.replicate j (digit 0) → x ++ e :: s < y ++ e :: t
  | [], [], i, j, _, _, hl, h => by
    rw [List.length_nil, zero_add, zero_add] at hl
    subst hl
    exact absurd h (lt_irrefl _)
  | [], d :: y, _, _, _, hy, _, _ => by
    rw [List.nil_append, List.cons_append, List.cons_lt_cons_iff]
    exact .inl (he.trans_le (hy d (List.mem_cons_self ..)))
  | c :: x, [], i, j, hx, _, hl, h => by
    have hdigits : ∀ d ∈ c :: x ++ List.replicate i (digit 0), digit 0 ≤ d := by
      intro d hd
      rcases List.mem_append.mp hd with hd | hd
      · exact hx d hd
      · exact (List.eq_of_mem_replicate hd).ge
    refine absurd h ?_
    have hlength : (c :: x ++ List.replicate i (digit 0)).length = j := by
      rw [List.length_append, List.length_replicate, hl, List.length_nil, zero_add]
    rw [List.nil_append, ← hlength]
    exact not_lt_zeros hdigits
  | c :: x, d :: y, i, j, hx, hy, hl, h => by
    rw [List.cons_append, List.cons_append, List.cons_lt_cons_iff] at h ⊢
    refine h.imp_right fun hxy => ⟨hxy.1, ?_⟩
    rw [List.length_cons, List.length_cons] at hl
    exact plus_lt he s t (fun d hd => hx d (List.mem_cons_of_mem _ hd))
      (fun d hd => hy d (List.mem_cons_of_mem _ hd)) (by omega) hxy.2

/-! ### The calendar -/

def isLeap (y : ℕ) : Bool := y % 4 = 0 && (y % 100 ≠ 0 || y % 400 = 0)

def monthDays (y m : ℕ) : ℕ :=
  if m = 2 then if isLeap y then 29 else 28 else if m ∈ [4, 6, 9, 11] then 30 else 31

/-- The days of a year before its month `m`. -/
def daysBeforeMonth (y : ℕ) : ℕ → ℕ
  | 0 => 0
  | 1 => 0
  | m + 2 => daysBeforeMonth y (m + 1) + monthDays y (m + 1)

def yearDays (y : ℕ) : ℕ := if isLeap y then 366 else 365

/-- The days before a year, from the year 0 on. -/
def daysBeforeYear : ℕ → ℕ
  | 0 => 0
  | y + 1 => daysBeforeYear y + yearDays y

theorem daysBeforeMonth_thirteen (y : ℕ) : daysBeforeMonth y 13 = yearDays y := by
  unfold yearDays
  cases h : isLeap y <;> simp [daysBeforeMonth, monthDays, h]

/-- A month ends before the next begins. -/
theorem month_le {y m m' : ℕ} (hm : 1 ≤ m) (h : m < m') :
    daysBeforeMonth y m + monthDays y m ≤ daysBeforeMonth y m' := by
  obtain ⟨m, rfl⟩ := Nat.exists_eq_add_of_le' hm
  induction h with
  | refl => exact le_refl _
  | @step k hk ih =>
    obtain ⟨k, rfl⟩ := Nat.exists_eq_add_of_le' (Nat.one_le_of_lt hk)
    exact ih.trans (Nat.le_add_right _ _)

theorem year_le {y y' : ℕ} (h : y < y') : daysBeforeYear y + yearDays y ≤ daysBeforeYear y' := by
  induction h with
  | refl => exact le_refl _
  | step _ ih => exact ih.trans (Nat.le_add_right _ _)

/-! ### Instants -/

/-- A UTC instant. -/
@[ext] structure DateTime where
  year : ℕ
  month : ℕ
  day : ℕ
  hour : ℕ
  minute : ℕ
  second : ℕ
  nano : ℕ
  year_le : year ≤ 9999
  month_pos : 1 ≤ month
  month_le : month ≤ 12
  day_pos : 1 ≤ day
  day_le : day ≤ monthDays year month
  hour_lt : hour < 24
  minute_lt : minute < 60
  second_lt : second < 60
  nano_lt : nano < 1000000000

namespace DateTime

variable {a b : DateTime}

/-- The days since 1 January of the year 0. -/
def days (a : DateTime) : ℕ := daysBeforeYear a.year + daysBeforeMonth a.year a.month + (a.day - 1)

/-- The nanoseconds since then. -/
def nanos (a : DateTime) : ℕ :=
  (((a.days * 24 + a.hour) * 60 + a.minute) * 60 + a.second) * 1000000000 + a.nano

/-- The later field decides only if the earlier agree. -/
theorem nanos_lt_cases (h : a.nanos < b.nanos) : a.days < b.days ∨ a.days = b.days ∧
    (a.hour < b.hour ∨ a.hour = b.hour ∧ (a.minute < b.minute ∨ a.minute = b.minute ∧
      (a.second < b.second ∨ a.second = b.second ∧ a.nano < b.nano))) := by
  have := a.hour_lt
  have := a.minute_lt
  have := a.second_lt
  have := a.nano_lt
  have := b.hour_lt
  have := b.minute_lt
  have := b.second_lt
  have := b.nano_lt
  unfold nanos at h
  omega

/-- A day is in its month, and its month in its year. -/
theorem days_lt (a : DateTime) : a.days < daysBeforeYear a.year + daysBeforeMonth a.year a.month +
    monthDays a.year a.month ∧ a.days < daysBeforeYear a.year + yearDays a.year := by
  have hpos := a.day_pos
  have hle := a.day_le
  have hmonth := Rfc3339.month_le (y := a.year) a.month_pos (Nat.lt_succ_of_le a.month_le)
  rw [daysBeforeMonth_thirteen] at hmonth
  unfold days
  omega

theorem days_lt_of_year (h : a.year < b.year) : a.days < b.days := by
  have hlater := Rfc3339.year_le h
  have ha := a.days_lt.2
  have hb : daysBeforeYear b.year ≤ b.days := by unfold days; omega
  omega

theorem days_lt_of_month (hyear : a.year = b.year) (h : a.month < b.month) : a.days < b.days := by
  have hlater := Rfc3339.month_le (y := a.year) a.month_pos h
  have ha := a.days_lt.1
  have hb : daysBeforeYear b.year + daysBeforeMonth b.year b.month ≤ b.days := by unfold days; omega
  rw [← hyear] at hb
  omega

/-- Days compare as dates do. -/
theorem days_lt_cases (h : a.days < b.days) : a.year < b.year ∨ a.year = b.year ∧
    (a.month < b.month ∨ a.month = b.month ∧ a.day < b.day) := by
  rcases lt_trichotomy a.year b.year with hyear | hyear | hyear
  · exact .inl hyear
  · refine .inr ⟨hyear, ?_⟩
    rcases lt_trichotomy a.month b.month with hmonth | hmonth | hmonth
    · exact .inl hmonth
    · refine .inr ⟨hmonth, ?_⟩
      unfold days at h
      rw [hyear, hmonth] at h
      omega
    · exact absurd (days_lt_of_month hyear.symm hmonth) h.asymm
  · exact absurd (days_lt_of_year hyear) h.asymm

theorem days_inj (h : a.days = b.days) : a.year = b.year ∧ a.month = b.month ∧ a.day = b.day := by
  have hyear : a.year = b.year := by
    rcases lt_trichotomy a.year b.year with hyear | hyear | hyear
    · exact absurd h (days_lt_of_year hyear).ne
    · exact hyear
    · exact absurd h (days_lt_of_year hyear).ne'
  have hmonth : a.month = b.month := by
    rcases lt_trichotomy a.month b.month with hmonth | hmonth | hmonth
    · exact absurd h (days_lt_of_month hyear hmonth).ne
    · exact hmonth
    · exact absurd h (days_lt_of_month hyear.symm hmonth).ne'
  refine ⟨hyear, hmonth, ?_⟩
  have ha := a.day_pos
  have hb := b.day_pos
  unfold days at h
  rw [hyear, hmonth] at h
  omega

theorem nanos_injective : Function.Injective nanos := by
  intro a b h
  have := a.hour_lt
  have := a.minute_lt
  have := a.second_lt
  have := a.nano_lt
  have := b.hour_lt
  have := b.minute_lt
  have := b.second_lt
  have := b.nano_lt
  have hfields : a.days = b.days ∧ a.hour = b.hour ∧ a.minute = b.minute ∧ a.second = b.second ∧
      a.nano = b.nano := by
    unfold nanos at h
    omega
  obtain ⟨hdays, hhour, hminute, hsecond, hnano⟩ := hfields
  obtain ⟨hyear, hmonth, hday⟩ := days_inj hdays
  exact DateTime.ext hyear hmonth hday hhour hminute hsecond hnano

instance linearOrder : LinearOrder DateTime := LinearOrder.lift' nanos nanos_injective

/-! ### Texts -/

/-- The fraction of a second, with its point. -/
def fraction (nano : ℕ) : List Char :=
  if nano = 0 then []
  else if nano % 1000000 = 0 then '.' :: digits 3 (nano / 1000000)
  else if nano % 1000 = 0 then '.' :: digits 6 (nano / 1000)
  else '.' :: digits 9 nano

/-- `YYYY-MM-DDThh:mm:ss`, the fraction and `+00:00`. -/
def chars (a : DateTime) : List Char :=
  digits 4 a.year ++ ('-' :: (digits 2 a.month ++ ('-' :: (digits 2 a.day ++ ('T' ::
    (digits 2 a.hour ++ (':' :: (digits 2 a.minute ++ (':' :: (digits 2 a.second ++
      (fraction a.nano ++ ['+', '0', '0', ':', '0', '0'])))))))))))

def text (a : DateTime) : String := String.ofList a.chars

/-- A fraction that is not zero has the first of its nine digits, and zeros for the rest. -/
theorem fraction_eq {nano : ℕ} (h : nano ≠ 0) : ∃ x i, fraction nano = '.' :: x ∧
    (∀ c ∈ x, digit 0 ≤ c) ∧ x.length + i = 9 ∧ x ++ List.replicate i (digit 0) = digits 9 nano := by
  unfold fraction
  rw [if_neg h]
  by_cases hmilli : nano % 1000000 = 0
  · rw [if_pos hmilli]
    exact ⟨digits 3 (nano / 1000000), 6, rfl, digits_ge, by rw [length_digits],
      by rw [← digits_of_mod hmilli]; exact (digits_add 3 nano 6).symm⟩
  rw [if_neg hmilli]
  by_cases hmicro : nano % 1000 = 0
  · rw [if_pos hmicro]
    exact ⟨digits 6 (nano / 1000), 3, rfl, digits_ge, by rw [length_digits],
      by rw [← digits_of_mod hmicro]; exact (digits_add 6 nano 3).symm⟩
  · rw [if_neg hmicro]
    exact ⟨digits 9 nano, 0, rfl, digits_ge, by rw [length_digits], List.append_nil _⟩

/-- Fractions compare as the nanoseconds, whatever their lengths. -/
theorem fraction_lt {n m : ℕ} (h : n < m) (hm : m < 1000000000) (s : List Char) :
    fraction n ++ '+' :: s < fraction m ++ '+' :: s := by
  obtain ⟨y, j, hfm, hy, hlm, hdm⟩ := fraction_eq (Nat.ne_of_gt (Nat.zero_lt_of_lt h))
  rw [hfm]
  by_cases hn : n = 0
  · subst hn
    -- a plus sign meets the point
    rw [show fraction 0 = [] from rfl, List.nil_append, List.cons_append, List.cons_lt_cons_iff]
    exact .inl (by decide)
  · obtain ⟨x, i, hfn, hx, hln, hdn⟩ := fraction_eq hn
    rw [hfn, List.cons_append, List.cons_append, List.cons_lt_cons_iff]
    refine .inr ⟨rfl, plus_lt (by decide) s s hx hy (hln.trans hlm.symm) ?_⟩
    rw [hdn, hdm]
    exact digits_lt_digits h hm

theorem day_lt (a : DateTime) : a.day < 100 := by
  have hle := a.day_le
  unfold monthDays at hle
  split_ifs at hle <;> omega

theorem chars_lt (h : a < b) : a.chars < b.chars := by
  have hmonth := b.month_le
  have hday : b.day < 10 ^ 2 := b.day_lt
  have hyear := b.year_le
  have hhour := b.hour_lt
  have hminute := b.minute_lt
  have hsecond := b.second_lt
  unfold chars
  rcases nanos_lt_cases h with h | ⟨hdays, h⟩
  · rcases days_lt_cases h with h | ⟨hy, h⟩
    · exact field_lt h (by omega) _ _
    rw [hy]
    refine field_left_lt ?_
    rcases h with h | ⟨hm, h⟩
    · exact field_lt h (by omega) _ _
    rw [hm]
    exact field_left_lt (field_lt h hday _ _)
  · obtain ⟨hy, hm, hd⟩ := days_inj hdays
    rw [hy, hm, hd]
    refine field_left_lt ?_
    refine field_left_lt ?_
    refine field_left_lt ?_
    rcases h with h | ⟨hh, h⟩
    · exact field_lt h (by omega) _ _
    rw [hh]
    refine field_left_lt ?_
    rcases h with h | ⟨hmin, h⟩
    · exact field_lt h (by omega) _ _
    rw [hmin]
    refine field_left_lt ?_
    rcases h with h | ⟨hs, h⟩
    · exact field_lt h (by omega) _ _
    rw [hs]
    exact List.append_left_lt (fraction_lt h b.nano_lt _)

theorem text_strictMono : StrictMono text := by
  intro a b h
  rw [text, text, String.lt_iff_toList_lt, String.toList_ofList, String.toList_ofList]
  exact chars_lt h

/-- **Texts compare as the instants.** -/
theorem text_lt_text : a.text < b.text ↔ a < b := text_strictMono.lt_iff_lt

theorem text_inj : a.text = b.text ↔ a = b := text_strictMono.injective.eq_iff

/-! ### Reading a text -/

/-- The number that digits are. -/
def value (l : List Char) : ℕ := Nat.ofDigitChars 10 l 0

theorem value_digits : ∀ w n, value (digits w n) = n % 10 ^ w
  | 0, n => by rw [pow_zero, Nat.mod_one]; rfl
  | w + 1, n => by
    have hdigit : ∀ n < 10, (digit n).toNat - 48 = n := by decide
    have ih := value_digits w (n / 10)
    unfold value at ih ⊢
    rw [digits, Nat.ofDigitChars_append, ih, Nat.ofDigitChars_cons, Nat.ofDigitChars_nil,
      show ('0' : Char).toNat = 48 from rfl, hdigit _ (Nat.mod_lt _ (by decide)), pow_succ', Nat.mod_mul]
    omega

/-- An instant of these fields, if there is one. -/
def ofFields (year month day hour minute second nano : ℕ) : Option DateTime :=
  if h : year ≤ 9999 ∧ (1 ≤ month ∧ month ≤ 12) ∧ (1 ≤ day ∧ day ≤ monthDays year month) ∧ hour < 24 ∧
      minute < 60 ∧ second < 60 ∧ nano < 1000000000 then
    some ⟨year, month, day, hour, minute, second, nano, h.1, h.2.1.1, h.2.1.2, h.2.2.1.1, h.2.2.1.2,
      h.2.2.2.1, h.2.2.2.2.1, h.2.2.2.2.2.1, h.2.2.2.2.2.2⟩
  else none

theorem ofFields_self (a : DateTime) :
    ofFields a.year a.month a.day a.hour a.minute a.second a.nano = some a :=
  dif_pos ⟨a.year_le, ⟨a.month_pos, a.month_le⟩, ⟨a.day_pos, a.day_le⟩, a.hour_lt, a.minute_lt,
    a.second_lt, a.nano_lt⟩

/-- The instant whose text this is. -/
def parse (s : String) : Option DateTime := do
  let l := s.toList
  let field (start width : ℕ) : ℕ := value ((l.drop start).take width)
  let frac := ((l.drop 19).takeWhile (· ≠ '+')).drop 1
  let a ← ofFields (field 0 4) (field 5 2) (field 8 2) (field 11 2) (field 14 2) (field 17 2)
    (value frac * 10 ^ (9 - frac.length))
  if a.text = s then some a else none

theorem value_zeros (x : List Char) (i : ℕ) :
    value (x ++ List.replicate i (digit 0)) = value x * 10 ^ i := by
  unfold value
  rw [Nat.ofDigitChars_append, show digit 0 = '0' by decide, Nat.ofDigitChars_replicate_zero, mul_comm]

/-- The digits after the point are the nanoseconds, scaled. -/
theorem value_fraction {nano : ℕ} (h : nano < 1000000000) (s : List Char) :
    let frac := ((fraction nano ++ '+' :: s).takeWhile (· ≠ '+')).drop 1
    value frac * 10 ^ (9 - frac.length) = nano := by
  dsimp only
  have hcut : ∀ x : List Char, (∀ c ∈ x, digit 0 ≤ c) → (x ++ '+' :: s).takeWhile (· ≠ '+') = x := by
    intro x hx
    rw [List.takeWhile_append_of_pos]
    · simp
    · intro c hc
      rw [decide_eq_true_eq]
      rintro rfl
      exact absurd (hx _ hc) (by decide)
  by_cases hn : nano = 0
  · subst hn
    exact Nat.zero_mul _
  · obtain ⟨x, i, hx, hdigits, hlength, hvalue⟩ := fraction_eq hn
    rw [hx, List.cons_append, List.takeWhile_cons_of_pos (by decide), hcut x hdigits, List.drop_one,
      List.tail_cons, show 9 - x.length = i by omega, ← value_zeros, hvalue, value_digits]
    exact Nat.mod_eq_of_lt h

/-- **What is printed is read back.** -/
theorem parse_text (a : DateTime) : parse a.text = some a := by
  have hyear := a.year_le
  have hmonth := a.month_le
  have hhour := a.hour_lt
  have hminute := a.minute_lt
  have hsecond := a.second_lt
  have hday : a.day < 10 ^ 2 := a.day_lt
  have hfield : ∀ {w n : ℕ}, n < 10 ^ w → value (digits w n) = n := by
    intro w n hn
    rw [value_digits, Nat.mod_eq_of_lt hn]
  -- each field stands at its place
  have hfields : ofFields (value ((a.chars.drop 0).take 4)) (value ((a.chars.drop 5).take 2))
      (value ((a.chars.drop 8).take 2)) (value ((a.chars.drop 11).take 2))
      (value ((a.chars.drop 14).take 2)) (value ((a.chars.drop 17).take 2)) a.nano = some a := by
    rw [show (a.chars.drop 0).take 4 = digits 4 a.year from rfl,
      show (a.chars.drop 5).take 2 = digits 2 a.month from rfl,
      show (a.chars.drop 8).take 2 = digits 2 a.day from rfl,
      show (a.chars.drop 11).take 2 = digits 2 a.hour from rfl,
      show (a.chars.drop 14).take 2 = digits 2 a.minute from rfl,
      show (a.chars.drop 17).take 2 = digits 2 a.second from rfl,
      hfield (by omega), hfield (by omega), hfield hday, hfield (by omega), hfield (by omega),
      hfield (by omega)]
    exact ofFields_self a
  have hfraction := value_fraction a.nano_lt ['0', '0', ':', '0', '0']
  rw [← show a.chars.drop 19 = fraction a.nano ++ ['+', '0', '0', ':', '0', '0'] from rfl] at hfraction
  unfold parse
  dsimp only
  rw [show a.text.toList = a.chars from String.toList_ofList, hfraction, hfields]
  exact if_pos rfl

end DateTime

end Rfc3339
