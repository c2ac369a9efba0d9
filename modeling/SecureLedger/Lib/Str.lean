import Mathlib.Data.List.DropRight

/-!
# Lib.Str — the parts of Rust's `str` and of HTTP header values the models use

`trim` strips Unicode White_Space at both ends, `len` counts UTF-8 bytes, `stripPrefix` and
`splitHead` are `strip_prefix` and the first item of `split`; `visibleAscii` is the reading of a
header value as text, which fails on anything but visible ASCII and tabs.  `decimal` reads the text
of an integer, `parseUnsigned` is `parse` of an unsigned type.
-/

namespace Str

/-- `char::is_whitespace`: the Unicode property White_Space. -/
def isWhitespace (c : Char) : Bool :=
  let n := c.toNat
  (0x09 ≤ n && n ≤ 0x0D) || n = 0x20 || n = 0x85 || n = 0xA0 || n = 0x1680 ||
    (0x2000 ≤ n && n ≤ 0x200A) || n = 0x2028 || n = 0x2029 || n = 0x202F || n = 0x205F || n = 0x3000

/-- `str::trim`. -/
def trim (s : String) : String :=
  String.ofList ((s.toList.dropWhile isWhitespace).rdropWhile isWhitespace)

/-- `str::len`: the length in bytes. -/
def len (s : String) : ℕ := s.utf8ByteSize

/-- `str::is_empty`. -/
def isEmpty (s : String) : Bool := len s = 0

/-- `s.strip_prefix(p)`. -/
def stripPrefix (p s : String) : Option String :=
  (p.toList.isPrefixOf? s.toList).map String.ofList

/-- The first item of `s.split(c)`. -/
def splitHead (c : Char) (s : String) : String := String.ofList (s.toList.takeWhile (· ≠ c))

/-- `HeaderValue::to_str` on the value's bytes. -/
def visibleAscii (bytes : List UInt8) : Option String :=
  if bytes.all fun b => (32 ≤ b && b < 127) || b = 9 then
    some (String.ofList (bytes.map fun b => Char.ofNat b.toNat))
  else none

/-- The number that decimal digits are. -/
def decimalDigits (l : List Char) : Option ℕ :=
  if !l.isEmpty && l.all Char.isDigit then some (Nat.ofDigitChars 10 l 0) else none

/-- The integer that a decimal text is. -/
def decimal (s : String) : Option ℤ :=
  match s.toList with
  | [] => none
  | c :: l => if c = '-' then (decimalDigits l).map fun n : ℕ => -(n : ℤ) else (decimalDigits (c :: l)).map Int.ofNat

theorem decimalDigits_toDigits (n : ℕ) : decimalDigits (Nat.toDigits 10 n) = some n := by
  have hne : (Nat.toDigits 10 n).isEmpty = false := List.isEmpty_eq_false_iff.mpr Nat.toDigits_ne_nil
  have hall : (Nat.toDigits 10 n).all Char.isDigit :=
    List.all_eq_true.mpr fun c hc => Nat.isDigit_of_mem_toDigits (by decide) (by decide) hc
  unfold decimalDigits
  rw [hne, hall, Nat.ofDigitChars_toDigits (by decide) (by decide)]
  rfl

/-- What is printed is read back. -/
theorem decimal_toString (n : ℤ) : decimal (toString n) = some n := by
  rw [Int.toString_eq_repr, Int.repr_eq_if]
  by_cases h : 0 ≤ n
  · obtain ⟨c, l, hcl⟩ := List.exists_cons_of_ne_nil (Nat.toDigits_ne_nil (n := n.toNat) (b := 10))
    have hdigit : c.isDigit :=
      Nat.isDigit_of_mem_toDigits (b := 10) (n := n.toNat) (by decide) (by decide) (by simp [hcl])
    have hc : c ≠ '-' := by
      rintro rfl
      exact absurd hdigit (by decide)
    rw [if_pos h, decimal, Nat.toList_repr, hcl]
    dsimp only
    rw [if_neg hc, ← hcl, decimalDigits_toDigits]
    exact congrArg some (Int.toNat_of_nonneg h)
  · have hlist : ("-" ++ (-n).toNat.repr).toList = '-' :: Nat.toDigits 10 (-n).toNat := by
      rw [String.toList_append, Nat.toList_repr]
      rfl
    rw [if_neg h, decimal, hlist]
    dsimp only
    rw [if_pos rfl, decimalDigits_toDigits, Option.map_some, Int.toNat_of_nonneg (by omega), Int.neg_neg]

theorem dropWhile_rdropWhile {α : Type} (p : α → Bool) (l : List α) :
    ((l.dropWhile p).rdropWhile p).dropWhile p = (l.dropWhile p).rdropWhile p := by
  rw [List.dropWhile_eq_self_iff]
  intro hl
  -- the first element is that of `dropWhile p l`, which `p` refuses
  have hpre : (l.dropWhile p).rdropWhile p <+: l.dropWhile p := List.rdropWhile_prefix p _
  have hlen : 0 < (l.dropWhile p).length := lt_of_lt_of_le hl hpre.length_le
  rw [hpre.getElem hl]
  exact List.dropWhile_get_zero_not p l hlen

/-- A trimmed text is its own trim. -/
@[simp] theorem trim_trim (s : String) : trim (trim s) = trim s := by
  simp only [trim, String.toList_ofList, dropWhile_rdropWhile, List.rdropWhile_idempotent]

/-! ### Unsigned integers -/

/-- One more digit, unless the number leaves the values below `bound`. -/
def pushDigit (bound n : ℕ) (c : Char) : Option ℕ :=
  let m := 10 * n + (c.toNat - '0'.toNat)
  if c.isDigit ∧ m < bound then some m else none

/-- `str::parse` of an unsigned integer type with the values below `bound`: a plus sign may stand first. -/
def parseUnsigned (bound : ℕ) (s : String) : Option ℕ :=
  let digits := match s.toList with
    | '+' :: l => l
    | l => l
  if digits.isEmpty then none else digits.foldlM (pushDigit bound) 0

/-- A decimal numeral, with or without a plus sign. -/
def Numeral (s : String) (n : ℕ) : Prop :=
  ∃ l, l ≠ [] ∧ (∀ c ∈ l, c.isDigit) ∧ (s.toList = l ∨ s.toList = '+' :: l) ∧ Nat.ofDigitChars 10 l 0 = n

theorem le_ofDigitChars (l : List Char) (n : ℕ) : n ≤ Nat.ofDigitChars 10 l n := by
  rw [Nat.ofDigitChars_eq_ofDigitChars_zero]
  exact Nat.le_add_right_of_le (Nat.le_mul_of_pos_left n (Nat.pow_pos (by decide)))

theorem foldlM_pushDigit {bound n m : ℕ} {l : List Char} (hn : n < bound) : l.foldlM (pushDigit bound) n = some m ↔
    (∀ c ∈ l, c.isDigit) ∧ Nat.ofDigitChars 10 l n = m ∧ m < bound := by
  induction l generalizing n with
  | nil =>
    simp only [List.foldlM_nil, Nat.ofDigitChars_nil]
    constructor
    · rintro ⟨⟩
      exact ⟨by simp, rfl, hn⟩
    · rintro ⟨-, rfl, -⟩
      rfl
  | cons c l ih =>
    rw [List.foldlM_cons, List.forall_mem_cons, Nat.ofDigitChars_cons]
    by_cases h : c.isDigit ∧ 10 * n + (c.toNat - '0'.toNat) < bound
    · have hpush : pushDigit bound n c = some (10 * n + (c.toNat - '0'.toNat)) := if_pos h
      rw [hpush, and_iff_right h.1]
      exact ih h.2
    · have hpush : pushDigit bound n c = none := if_neg h
      rw [hpush]
      refine iff_of_false (fun h => by cases h) ?_
      rintro ⟨⟨hc, -⟩, rfl, hlt⟩
      exact h ⟨hc, (le_ofDigitChars _ _).trans_lt hlt⟩

/-- **What is parsed** are the numerals below the bound. -/
theorem parseUnsigned_eq_some {bound n : ℕ} (hbound : 0 < bound) {s : String} :
    parseUnsigned bound s = some n ↔ Numeral s n ∧ n < bound := by
  have hdigits : ∀ l : List Char, (if l.isEmpty then none else l.foldlM (pushDigit bound) 0) = some n ↔
      l ≠ [] ∧ (∀ c ∈ l, c.isDigit) ∧ Nat.ofDigitChars 10 l 0 = n ∧ n < bound := by
    intro l
    cases l with
    | nil => exact iff_of_false (fun h => by cases h) fun h => h.1 rfl
    | cons c l => exact (foldlM_pushDigit hbound).trans (and_iff_right (List.cons_ne_nil c l)).symm
  unfold parseUnsigned
  dsimp only
  rw [hdigits]
  unfold Numeral
  constructor
  · rintro ⟨hne, hall, hvalue, hlt⟩
    refine ⟨⟨_, hne, hall, ?_, hvalue⟩, hlt⟩
    split
    · next l hs => exact .inr hs
    · exact .inl rfl
  · rintro ⟨⟨l, hne, hall, hs | hs, hvalue⟩, hlt⟩
    · have hplus : ∀ l', s.toList ≠ '+' :: l' := by
        intro l' hs'
        rw [hs] at hs'
        have := hall '+' (hs' ▸ List.mem_cons_self ..)
        exact absurd this (by decide)
      split
      · next l' hs' => exact absurd hs' (hplus l')
      · exact hs ▸ ⟨hne, hall, hvalue, hlt⟩
    · rw [hs]
      exact ⟨hne, hall, hvalue, hlt⟩

end Str
