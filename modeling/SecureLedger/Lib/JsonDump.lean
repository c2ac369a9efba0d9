import SecureLedger.Lib.Json

/-!
# Lib.JsonDump — writing JSON

`Value.dump` is `json.dumps(v, indent=2)`: code points outside printable ASCII are escaped, those beyond
16 bits as a surrogate pair, and a token stays as it is.  What is written is ASCII, and is read back if it
can be read at all: `read_dump`, `wf_iff_read`.
-/

namespace Json

open Py (Code Text code lit)

/-! ### Strings -/

def hexDigit (n : ℕ) : Code := codeOf (if n < 10 then 0x30 + n else 0x57 + n)

/-- `\u` and four digits. -/
def unitText (n : ℕ) : Text :=
  [backslash, code 'u', hexDigit (n / 0x1000), hexDigit (n / 0x100 % 16), hexDigit (n / 0x10 % 16),
    hexDigit (n % 16)]

def shortEscapes : List (Code × Code) :=
  [(backslash, backslash), (quotation, quotation), (codeOf 0x8, code 'b'), (codeOf 0xC, code 'f'),
    (codeOf 0xA, code 'n'), (codeOf 0xD, code 'r'), (codeOf 0x9, code 't')]

def escapeCode (c : Code) : Text :=
  if 0x20 ≤ c.val ∧ c.val ≤ 0x7E ∧ c ≠ quotation ∧ c ≠ backslash then [c]
  else if c.val < 0x10000 then
    ((shortEscapes.lookup c).map fun d => [backslash, d]).getD (unitText c.val)
  else
    let n := c.val - 0x10000
    unitText (0xD800 + n / 0x400) ++ unitText (0xDC00 + n % 0x400)

/-- `encode_basestring_ascii`. -/
def quote (s : Text) : Text := quotation :: (s.flatMap escapeCode ++ [quotation])

/-! ### Values -/

def decimal (n : ℕ) : Text := (Nat.toDigits 10 n).map code

def intText (n : ℤ) : Text := if n < 0 then code '-' :: decimal n.natAbs else decimal n.natAbs

/-- A new line, so far in. -/
def newline (level : ℕ) : Text := code '\n' :: List.replicate (2 * level) (code ' ')

mutual

def Value.dump (level : ℕ) : Value → Text
  | .null => lit "null"
  | .bool b => lit (if b then "true" else "false")
  | .int n => intText n
  | .float token => token
  | .str s => quote s
  | .list [] => lit "[]"
  | .list (v :: items) =>
    code '[' :: (newline (level + 1) ++ (v.dump (level + 1) ++ dumpItems level items))
  | .dict [] => [lbrace, rbrace]
  | .dict ((k, v) :: items) =>
    lbrace :: (newline (level + 1) ++ (quote k ++ (lit ": " ++ (v.dump (level + 1) ++ dumpMembers level items))))

/-- The other items of a list, and its end. -/
def dumpItems (level : ℕ) : List Value → Text
  | [] => newline level ++ [code ']']
  | v :: items => code ',' :: (newline (level + 1) ++ (v.dump (level + 1) ++ dumpItems level items))

/-- The other items of a dictionary, and its end. -/
def dumpMembers (level : ℕ) : List (Text × Value) → Text
  | [] => newline level ++ [rbrace]
  | (k, v) :: items =>
    code ',' ::
      (newline (level + 1) ++ (quote k ++ (lit ": " ++ (v.dump (level + 1) ++ dumpMembers level items))))

end

/-! ### Reading on -/

section Reading

variable {r r' r'' : Reader} {mode : Mode} {stack : List Frame} {root : Option Value} {s t : Text} {v : Value}

/-- A value may come next. -/
structure Reader.Awaits (r : Reader) : Prop where
  mode : r.mode = .value ∨ r.mode = .first
  stack : ∀ items stack, r.stack ≠ .key items :: stack

/-- The text is read as the value, wherever one may come. -/
def Reads (s : Text) (v : Value) : Prop :=
  ∀ r : Reader, r.Awaits → ∃ r', run r s = some r' ∧ r'.settle = r.put v

theorem mode_put (h : r.put v = some r') : r'.mode = .after := by
  unfold Reader.put at h
  split at h
  · cases h; rfl
  · cases h; rfl
  · cases h; rfl
  · cases h

theorem settle_of_after (h : r.mode = .after) : r.settle = some r := by
  unfold Reader.settle
  rw [h]

theorem feed_after {c : Code} (h : r.mode = .after) : r.feed c = r.afterValue c := by
  unfold Reader.feed
  rw [h]

theorem next_comma (part : Part) : part.next (code ',') = none := by cases part <;> rfl

theorem next_newline (part : Part) : part.next (code '\n') = none := by cases part <;> rfl

/-- What may stand behind a number completes it. -/
theorem run_settle {c : Code} (hc : c = code ',' ∨ c = code '\n') (hsettle : r.settle = some r')
    (hafter : r'.mode = .after) : run r (c :: s) = run r' (c :: s) := by
  have hnext : ∀ part : Part, part.next c = none := by
    rcases hc with rfl | rfl
    · exact next_comma
    · exact next_newline
  have hne : c ≠ code 'I' := by rcases hc with rfl | rfl <;> decide
  have hfeed : r.feed c = r'.feed c := by
    obtain ⟨mode, stack, root⟩ := r
    cases mode with
    | number part token =>
      have hstep : Reader.feed ⟨.number part token, stack, root⟩ c =
          (Reader.settle ⟨.number part token, stack, root⟩).bind fun r => r.afterValue c := by
        unfold Reader.feed
        dsimp only
        rw [hnext, if_neg fun h => hne h.2]
      rw [hstep, hsettle, feed_after hafter]
      rfl
    | _ => cases hsettle; rfl
  rw [run_cons, run_cons, hfeed]

/-- Blanks are passed over between tokens. -/
theorem run_newline {level : ℕ} (h : ∀ c, isSpace c → r.feed c = some r) : run r (newline level) = some r := by
  have hspaces : ∀ n, run r (List.replicate n (code ' ')) = some r := by
    intro n
    induction n with
    | zero => rfl
    | succ n ih => rw [List.replicate_succ, run_cons, h _ (by decide), Option.bind_some, ih]
  rw [newline, run_cons, h _ (by decide), Option.bind_some, hspaces]

theorem feed_space_of_after {c : Code} (h : r.mode = .after) (hc : isSpace c) : r.feed c = some r := by
  rw [feed_after h, Reader.afterValue, if_pos hc]

theorem feed_space_of_value {c : Code} (h : r.mode = .value ∨ r.mode = .first) (hc : isSpace c) :
    r.feed c = some r := by
  unfold Reader.feed
  rcases h with h | h <;> rw [h] <;> exact if_pos hc

/-- The first code point of a value. -/
theorem feed_start {c : Code} (h : r.mode = .value ∨ r.mode = .first) (hspace : ¬ isSpace c)
    (hclose : c ≠ code ']' ∧ c ≠ rbrace) : r.feed c = r.start c := by
  unfold Reader.feed
  rcases h with h | h
  · rw [h]
    exact if_neg hspace
  · rw [h]
    dsimp only
    rw [if_neg hspace, if_neg (not_or.mpr hclose)]

theorem Reader.Awaits.start_eq (h : r.Awaits) {c : Code} (hc : c ≠ quotation) : r.start c =
    if c = code '[' then some ⟨.first, .list [] :: r.stack, r.root⟩
    else if c = lbrace then some ⟨.first, .key [] :: r.stack, r.root⟩
    else match constants.find? fun p => p.1.head? = some c with
      | some p => r.goto (.word p.1.tail p.2)
      | none => (Part.start.next c).bind fun part => r.goto (.number part [c]) := by
  unfold Reader.start
  rw [if_neg hc]
  split
  · next items stack hstack => exact absurd hstack (h.stack items stack)
  · rfl

/-! ### Words and numbers -/

theorem run_word : ∀ {s : Text}, s ≠ [] → run ⟨.word s v, stack, root⟩ s = Reader.put ⟨.after, stack, root⟩ v
  | [c], _ => by
    have hlast : Reader.feed ⟨.word [c] v, stack, root⟩ c = Reader.put ⟨.after, stack, root⟩ v := if_pos rfl
    rw [run_cons, hlast]
    exact Option.bind_fun_some _
  | c :: d :: s, _ => by
    have hnext : Reader.feed ⟨.word (c :: d :: s) v, stack, root⟩ c = some ⟨.word (d :: s) v, stack, root⟩ :=
      if_pos rfl
    rw [run_cons, hnext]
    exact run_word (List.cons_ne_nil _ _)

/-- The reader with the value that was put. -/
theorem Reader.Awaits.put (h : r.Awaits) (v : Value) : ∃ r', r.put v = some r' ∧ r'.settle = some r' := by
  obtain ⟨mode, stack, root⟩ := r
  have hput : ∃ r', Reader.put ⟨mode, stack, root⟩ v = some r' := by
    cases stack with
    | nil => exact ⟨_, rfl⟩
    | cons f stack =>
      cases f with
      | list items => exact ⟨_, rfl⟩
      | key items => exact absurd rfl (h.stack items stack)
      | value items k => exact ⟨_, rfl⟩
  obtain ⟨r', hr'⟩ := hput
  exact ⟨r', hr', settle_of_after (mode_put hr')⟩

theorem reads_constant {p : Text × Value} (hp : p ∈ constants) : Reads p.1 p.2 := by
  intro r hr
  have hconstants : p.1.head?.isSome ∧ p.1.tail ≠ [] ∧ ∀ c ∈ p.1.head?, ¬ isSpace c ∧ c ≠ quotation ∧
      (c ≠ code ']' ∧ c ≠ rbrace) ∧ c ≠ code '[' ∧ c ≠ lbrace ∧
      constants.find? (fun p => p.1.head? = some c) = some p := by
    simp only [constants, List.mem_cons, List.not_mem_nil, or_false] at hp
    rcases hp with rfl | rfl | rfl | rfl | rfl <;>
      exact ⟨rfl, by decide, fun c hc => by
        cases hc
        exact ⟨by decide, by decide, by decide, by decide, by decide, rfl⟩⟩
  obtain ⟨_ | ⟨c, s⟩, v⟩ := p
  · exact absurd hconstants.1 (by simp)
  · obtain ⟨-, hs, hc⟩ := hconstants
    obtain ⟨hspace, hquote, hclose, hlist, hdict, hfind⟩ := hc c rfl
    obtain ⟨r', hr', hsettle⟩ := hr.put v
    refine ⟨r', ?_, hsettle.trans hr'.symm⟩
    rw [run_cons, feed_start hr.mode hspace hclose, hr.start_eq hquote, if_neg hlist, if_neg hdict, hfind]
    exact (run_word hs).trans hr'

/-- The first code point of a number is nothing else. -/
theorem Reader.Awaits.feed_number (h : r.Awaits) {c : Code} {part : Part} (hc : Part.start.next c = some part) :
    r.feed c = some ⟨.number part [c], r.stack, r.root⟩ := by
  have hval : c = code '-' ∨ isDigit c := by
    by_contra hne
    rw [not_or] at hne
    have hzero : c ≠ code '0' := fun h => hne.2 (h ▸ by decide)
    simp [Part.next, hne, hzero] at hc
  have hspace : ¬ isSpace c ∧ c ≠ quotation ∧ (c ≠ code ']' ∧ c ≠ rbrace) ∧ c ≠ code '[' ∧ c ≠ lbrace ∧
      constants.find? (fun p => p.1.head? = some c) = none := by
    rcases hval with rfl | hval
    · decide
    · simp only [isDigit, Bool.and_eq_true, decide_eq_true_eq] at hval
      have hne : ∀ d : Code, d.val < 0x30 ∨ 0x39 < d.val → c ≠ d := by
        rintro d hd rfl
        omega
      refine ⟨?_, hne _ (by decide), ⟨hne _ (by decide), hne _ (by decide)⟩, hne _ (by decide), hne _ (by decide), ?_⟩
      · simp only [isSpace, Bool.or_eq_true, decide_eq_true_eq]
        omega
      · refine List.find?_eq_none.mpr fun p hp => ?_
        simp only [decide_eq_true_eq]
        intro hd
        simp only [constants, List.mem_cons, List.not_mem_nil, or_false] at hp
        rcases hp with rfl | rfl | rfl | rfl | rfl <;> cases hd <;> exact absurd hval (by decide)
  obtain ⟨hspace, hquote, hclose, hlist, hdict, hfind⟩ := hspace
  rw [feed_start h.mode hspace hclose, h.start_eq hquote, if_neg hlist, if_neg hdict, hfind]
  show (Part.start.next c).bind _ = _
  rw [hc]
  rfl

/-- The rest of a number. -/
theorem run_number : ∀ {s acc : Text} {part part' : Part}, s.foldlM Part.next part = some part' →
    run ⟨.number part acc, stack, root⟩ s = some ⟨.number part' (acc ++ s), stack, root⟩
  | [], acc, part, part', h => by
    cases h
    rw [List.append_nil]
    rfl
  | c :: s, acc, part, part', h => by
    obtain ⟨part₁, hnext, h⟩ := Option.bind_eq_some_iff.mp h
    have hfeed : Reader.feed ⟨.number part acc, stack, root⟩ c =
        some ⟨.number part₁ (acc ++ [c]), stack, root⟩ := by
      unfold Reader.feed
      dsimp only
      rw [hnext]
      rfl
    rw [run_cons, hfeed, Option.bind_some, run_number h, List.append_assoc]
    rfl

/-- A number is complete at the end. -/
theorem reads_number {part : Part} (h : s.foldlM Part.next .start = some part) (hv : part.value? s = some v) :
    Reads s v := by
  intro r hr
  cases s with
  | nil => cases h; cases hv
  | cons c s =>
    obtain ⟨part₁, hnext, h⟩ := Option.bind_eq_some_iff.mp h
    refine ⟨⟨.number part (c :: s), r.stack, r.root⟩, ?_, ?_⟩
    · rw [run_cons, hr.feed_number hnext, Option.bind_some, run_number h]
      rfl
    · show (part.value? (c :: s)).bind _ = _
      rw [hv]
      rfl

theorem reads_float (h : isFloat s) : Reads s (.float s) := by
  rw [isFloat, Bool.or_eq_true, List.contains_iff_mem] at h
  rcases h with h | h
  · simp only [List.mem_cons, List.not_mem_nil, or_false] at h
    rcases h with rfl | rfl | rfl
    · exact reads_constant (p := (lit "NaN", .float (lit "NaN"))) (by simp [constants])
    · exact reads_constant (p := (lit "Infinity", .float (lit "Infinity"))) (by simp [constants])
    · intro r hr
      obtain ⟨r', hr', hsettle⟩ := hr.put (.float (lit "-Infinity"))
      refine ⟨r', ?_, hsettle.trans hr'.symm⟩
      have hminus : r.feed (code '-') = some ⟨.number .minus [code '-'], r.stack, r.root⟩ :=
        hr.feed_number (by decide)
      show run r (code '-' :: code 'I' :: lit "nfinity") = some r'
      rw [run_cons, hminus, Option.bind_some, run_cons]
      show run ⟨.word (lit "nfinity") (.float (lit "-Infinity")), r.stack, r.root⟩ (lit "nfinity") = some r'
      rw [run_word (by decide)]
      exact hr'
  · obtain ⟨part, hpart, hends⟩ := (Option.any_eq_true ..).mp h
    simp only [Bool.or_eq_true, decide_eq_true_eq] at hends
    rcases hends with rfl | rfl
    · exact reads_number hpart rfl
    · exact reads_number hpart rfl

/-! ### Integers -/

theorem code_digitChar : ∀ d < 10, (code d.digitChar).val = 0x30 + d := by decide

/-- The digits of a number that has several. -/
theorem decimal_of_ge {n : ℕ} (hn : 10 ≤ n) : decimal n = decimal (n / 10) ++ [code (n % 10).digitChar] := by
  unfold decimal
  rw [Nat.toDigits_of_base_le (by omega) hn, List.map_append]
  rfl

theorem decimal_of_lt {n : ℕ} (hn : n < 10) : decimal n = [code n.digitChar] := by
  unfold decimal
  rw [Nat.toDigits_of_lt_base hn]
  rfl

theorem natOf_concat {c : Code} : natOf (s ++ [c]) = 10 * natOf s + (c.val - 0x30) := by
  simp [natOf]

theorem natOf_decimal (n : ℕ) : natOf (decimal n) = n := by
  induction n using Nat.strong_induction_on with
  | _ n ih =>
    by_cases hn : n < 10
    · rw [decimal_of_lt hn]
      show 10 * 0 + ((code n.digitChar).val - 0x30) = n
      rw [code_digitChar n hn]
      omega
    · rw [decimal_of_ge (by omega), natOf_concat, ih (n / 10) (by omega), code_digitChar (n % 10) (by omega)]
      omega

theorem next_digit {part : Part} (h : part = .start ∨ part = .minus) :
    ∀ d < 10, part.next (code d.digitChar) = some (if d = 0 then .zero else .digits) := by
  rcases h with rfl | rfl <;> decide

theorem next_digits : ∀ d < 10, Part.digits.next (code d.digitChar) = some .digits := by decide

/-- A number begins with a zero only if it is zero. -/
theorem part_decimal {part : Part} (h : part = .start ∨ part = .minus) (n : ℕ) :
    (decimal n).foldlM Part.next part = some (if n = 0 then .zero else .digits) := by
  induction n using Nat.strong_induction_on with
  | _ n ih =>
    by_cases hn : n < 10
    · rw [decimal_of_lt hn, List.foldlM_cons, next_digit h n hn]
      rfl
    · rw [decimal_of_ge (by omega), List.foldlM_append, ih (n / 10) (by omega), if_neg (by omega),
        if_neg (by omega)]
      show (Part.digits.next _).bind _ = _
      rw [next_digits (n % 10) (by omega)]
      rfl

theorem head_decimal (n : ℕ) : (decimal n).head? ≠ some (code '-') := by
  intro h
  have hpart := part_decimal (.inr rfl) n
  cases hs : decimal n with
  | nil => rw [hs] at h; cases h
  | cons c s =>
    rw [hs] at h hpart
    cases h
    have hminus : Part.minus.next (code '-') = none := by decide
    rw [List.foldlM_cons, hminus] at hpart
    cases hpart

theorem reads_int (n : ℤ) : Reads (intText n) (.int n) := by
  unfold intText
  have hvalue : ∀ m : ℕ, ∀ token : Text,
      (if m = 0 then Part.zero else Part.digits).value? token = some (.int (intOf token)) := by
    intro m token
    split <;> rfl
  split
  · next hneg =>
    have htoken : (code '-' :: decimal n.natAbs).foldlM Part.next .start =
        some (if n.natAbs = 0 then .zero else .digits) := part_decimal (.inr rfl) n.natAbs
    refine reads_number htoken ?_
    have hint : intOf (code '-' :: decimal n.natAbs) = n := by
      rw [intOf, List.head?_cons, if_pos rfl, List.tail_cons, natOf_decimal]
      omega
    rw [hvalue, hint]
  · next hpos =>
    refine reads_number (part_decimal (.inl rfl) n.natAbs) ?_
    have hint : intOf (decimal n.natAbs) = n := by
      rw [intOf, if_neg (head_decimal _), natOf_decimal]
      omega
    rw [hvalue, hint]

/-! ### Strings, back -/

variable {acc : Text} {escaped : Bool} {c : Code}

theorem hexValue?_hexDigit : ∀ k < 16, hexValue? (hexDigit k) = some k := by decide

theorem codeOf_val (c : Code) : codeOf c.val = c := Fin.ext (Nat.mod_eq_of_lt c.isLt)

theorem val_codeOf {n : ℕ} (h : n < 0x110000) : (codeOf n).val = n := Nat.mod_eq_of_lt h

/-- A digit that is not the last. -/
theorem feed_hex {count n k : ℕ} (hk : k < 16) (hcount : count ≠ 3) :
    Reader.feed ⟨.unicode acc escaped count n, stack, root⟩ (hexDigit k) =
      some ⟨.unicode acc escaped (count + 1) (16 * n + k), stack, root⟩ := by
  unfold Reader.feed
  dsimp only
  rw [hexValue?_hexDigit k hk, Option.bind_some, if_neg hcount]
  rfl

theorem feed_lastHex {n k : ℕ} (hk : k < 16) :
    Reader.feed ⟨.unicode acc escaped 3 n, stack, root⟩ (hexDigit k) =
      some ⟨.string (addUnit acc escaped (codeOf (16 * n + k))) true, stack, root⟩ := by
  unfold Reader.feed
  dsimp only
  rw [hexValue?_hexDigit k hk, Option.bind_some, if_pos rfl]
  rfl

theorem run_unitText {n : ℕ} (hn : n < 0x10000) : run ⟨.string acc escaped, stack, root⟩ (unitText n) =
    some ⟨.string (addUnit acc escaped (codeOf n)) true, stack, root⟩ := by
  have hslash : run ⟨.string acc escaped, stack, root⟩ [backslash, code 'u'] =
      some ⟨.unicode acc escaped 0 0, stack, root⟩ := rfl
  have hvalue : 16 * (16 * (16 * (16 * 0 + n / 0x1000) + n / 0x100 % 16) + n / 0x10 % 16) + n % 16 = n := by
    omega
  show run _ ([backslash, code 'u'] ++ [hexDigit (n / 0x1000), hexDigit (n / 0x100 % 16),
    hexDigit (n / 0x10 % 16), hexDigit (n % 16)]) = _
  rw [run_append, hslash, Option.bind_some, run_cons, feed_hex (by omega) (by decide), Option.bind_some, run_cons,
    feed_hex (by omega) (by decide), Option.bind_some, run_cons, feed_hex (by omega) (by decide),
    Option.bind_some, run_cons, feed_lastHex (by omega), hvalue]
  rfl

/-- A unit that completes no pair. -/
theorem addUnit_of_whole (h : Whole (acc ++ [c])) : addUnit acc escaped c = acc ++ [c] := by
  unfold addUnit
  rcases List.eq_nil_or_concat acc with rfl | ⟨acc, a, rfl⟩
  · simp [isHigh]
  · rw [List.concat_eq_append] at h ⊢
    obtain ⟨-, hpair⟩ := whole_concat.mp h
    have hnot := hpair a (by simp)
    simp only [List.getLast?_concat, Option.getD_some]
    rw [if_neg]
    rw [Bool.and_eq_true, Bool.and_eq_true]
    exact fun h => hnot ⟨h.1.2, h.2⟩

/-- A code point beyond 16 bits is the pair that it is written as. -/
theorem addUnit_pair (h : 0x10000 ≤ c.val) :
    addUnit (addUnit acc escaped (codeOf (0xD800 + (c.val - 0x10000) / 0x400))) true
      (codeOf (0xDC00 + (c.val - 0x10000) % 0x400)) = acc ++ [c] := by
  have hlt := c.isLt
  have hhigh := @val_codeOf (0xD800 + (c.val - 0x10000) / 0x400) (by omega)
  have hlow := @val_codeOf (0xDC00 + (c.val - 0x10000) % 0x400) (by omega)
  generalize codeOf (0xD800 + (c.val - 0x10000) / 0x400) = high at hhigh ⊢
  generalize codeOf (0xDC00 + (c.val - 0x10000) % 0x400) = low at hlow ⊢
  have hishigh : isHigh high = true := by
    simp only [isHigh, Bool.and_eq_true, decide_eq_true_eq]
    omega
  have hnotlow : isLow high = false := by
    simp only [isLow, Bool.and_eq_false_iff, decide_eq_false_iff_not]
    omega
  have hislow : isLow low = true := by
    simp only [isLow, Bool.and_eq_true, decide_eq_true_eq]
    omega
  have hjoin : joinPair high low = c := by
    apply Fin.ext
    rw [joinPair_val hishigh hislow]
    omega
  have hfirst : addUnit acc escaped high = acc ++ [high] := by
    unfold addUnit
    simp [hnotlow]
  rw [hfirst]
  unfold addUnit
  simp [hishigh, hislow, hjoin]

theorem lookup_escapes : ∀ p ∈ shortEscapes, p.2 ≠ code 'u' ∧ escapes.lookup p.2 = some p.1 := by
  intro p hp
  simp only [shortEscapes, List.mem_cons, List.not_mem_nil, or_false] at hp
  rcases hp with rfl | rfl | rfl | rfl | rfl | rfl | rfl <;> exact ⟨by decide, by decide⟩

theorem run_escapeCode (h : Whole (acc ++ [c])) : ∃ escaped',
    run ⟨.string acc escaped, stack, root⟩ (escapeCode c) = some ⟨.string (acc ++ [c]) escaped', stack, root⟩ := by
  unfold escapeCode
  split
  · next hplain =>
    obtain ⟨hge, -, hquote, hslash⟩ := hplain
    refine ⟨false, ?_⟩
    have hfeed : Reader.feed ⟨.string acc escaped, stack, root⟩ c =
        some ⟨.string (acc ++ [c]) false, stack, root⟩ := by
      unfold Reader.feed
      dsimp only
      rw [if_neg hquote, if_neg hslash, if_neg (by omega)]
      rfl
    rw [run_cons, hfeed]
    rfl
  · split
    · next hlt =>
      cases hshort : shortEscapes.lookup c with
      | none =>
        refine ⟨true, ?_⟩
        show run _ (unitText c.val) = _
        rw [run_unitText hlt, codeOf_val, addUnit_of_whole h]
      | some d =>
        obtain ⟨l, l', heq, -⟩ := List.lookup_eq_some_iff.mp hshort
        have hmem : (c, d) ∈ shortEscapes := by rw [heq]; simp
        obtain ⟨hne, hlookup⟩ := lookup_escapes (c, d) hmem
        refine ⟨false, ?_⟩
        have hslash : Reader.feed ⟨.string acc escaped, stack, root⟩ backslash =
            some ⟨.escape acc escaped, stack, root⟩ := rfl
        have hfeed : Reader.feed ⟨.escape acc escaped, stack, root⟩ d =
            some ⟨.string (acc ++ [c]) false, stack, root⟩ := by
          unfold Reader.feed
          dsimp only
          rw [if_neg hne, hlookup]
          rfl
        show run _ [backslash, d] = _
        rw [run_cons, hslash, Option.bind_some, run_cons, hfeed]
        rfl
    · next hge =>
      have hlt := c.isLt
      refine ⟨true, ?_⟩
      dsimp only
      rw [run_append, run_unitText (by omega), Option.bind_some, run_unitText (by omega), addUnit_pair (by omega)]

theorem run_escapes : ∀ {s acc : Text} {escaped : Bool}, Whole (acc ++ s) → ∃ escaped',
    run ⟨.string acc escaped, stack, root⟩ (s.flatMap escapeCode) = some ⟨.string (acc ++ s) escaped', stack, root⟩
  | [], acc, escaped, _ => ⟨escaped, by rw [List.append_nil]; rfl⟩
  | c :: s, acc, escaped, h => by
    rw [← List.singleton_append, ← List.append_assoc] at h ⊢
    obtain ⟨escaped₁, hfirst⟩ := @run_escapeCode stack root acc escaped c (whole_append.mp h).1
    obtain ⟨escaped', hrest⟩ := @run_escapes s (acc ++ [c]) escaped₁ h
    refine ⟨escaped', ?_⟩
    rw [List.flatMap_append, List.flatMap_singleton, run_append, hfirst]
    exact hrest

/-- A string is read as it was. -/
theorem run_quote (hmode : r.mode = .value ∨ r.mode = .first) (hs : Whole s) : run r (quote s) = r.endString s := by
  have hstart : r.feed quotation = some ⟨.string [] false, r.stack, r.root⟩ :=
    (feed_start hmode (by decide) (by decide)).trans (if_pos rfl)
  obtain ⟨escaped, hrun⟩ := @run_escapes r.stack r.root s [] false hs
  have hend : Reader.feed ⟨.string s escaped, r.stack, r.root⟩ quotation =
      Reader.endString ⟨.string s escaped, r.stack, r.root⟩ s := by
    unfold Reader.feed
    exact if_pos rfl
  rw [quote, run_cons, hstart, Option.bind_some, run_append, hrun, Option.bind_some, run_cons, List.nil_append, hend]
  -- the end of a string does not look at the mode
  exact Option.bind_fun_some _

theorem reads_str (hs : Whole s) : Reads (quote s) (.str s) := by
  intro r hr
  obtain ⟨r', hr', hsettle⟩ := hr.put (.str s)
  refine ⟨r', ?_, hsettle.trans hr'.symm⟩
  rw [run_quote hr.mode hs]
  unfold Reader.endString
  split
  · next items stack hstack => exact absurd hstack (hr.stack items stack)
  · exact hr'

/-! ### Lists and dictionaries, back -/

theorem run_newline_of_after (level : ℕ) (h : r.mode = .after) : run r (newline level) = some r :=
  run_newline fun _ hc => feed_space_of_after h hc

theorem run_newline_of_value (level : ℕ) (h : r.mode = .value ∨ r.mode = .first) :
    run r (newline level) = some r := run_newline fun _ hc => feed_space_of_value h hc

theorem awaits_list {items : List Value} (h : mode = .value ∨ mode = .first) :
    Reader.Awaits ⟨mode, .list items :: stack, root⟩ := ⟨h, fun _ _ h => by cases h⟩

theorem awaits_value {items : List (Text × Value)} {k : Text} (h : mode = .value ∨ mode = .first) :
    Reader.Awaits ⟨mode, .value items k :: stack, root⟩ := ⟨h, fun _ _ h => by cases h⟩

/-- The item that comes next in a list. -/
theorem run_item {level : ℕ} {items : List Value} (hv : Reads (v.dump level) v)
    (h : mode = .value ∨ mode = .first) : ∃ r',
      run ⟨mode, .list items :: stack, root⟩ (newline level ++ (v.dump level ++ t)) = run r' t ∧
        r'.settle = some ⟨.after, .list (items ++ [v]) :: stack, root⟩ := by
  obtain ⟨r', hr', hsettle⟩ := hv _ (awaits_list h)
  exact ⟨r', by rw [run_append, run_newline_of_value level h, Option.bind_some, run_append, hr']; rfl, hsettle⟩

/-- The other items of a list. -/
theorem run_dumpItems (level : ℕ) : ∀ {items acc : List Value} {r : Reader},
    (∀ v ∈ items, Reads (v.dump (level + 1)) v) → r.settle = some ⟨.after, .list acc :: stack, root⟩ →
      run r (dumpItems level items) = Reader.put ⟨.after, stack, root⟩ (.list (acc ++ items))
  | [], acc, r, _, hr => by
    have hclose : Reader.feed ⟨.after, .list acc :: stack, root⟩ (code ']') =
        Reader.put ⟨.after, stack, root⟩ (.list acc) := rfl
    have hnewline := @run_newline_of_after ⟨.after, .list acc :: stack, root⟩ level rfl
    rw [dumpItems, List.append_nil]
    show run r (code '\n' :: (List.replicate (2 * level) (code ' ') ++ [code ']'])) = _
    rw [run_settle (.inr rfl) hr rfl]
    show run _ (newline level ++ [code ']']) = _
    rw [run_append, hnewline, Option.bind_some, run_cons, hclose]
    exact Option.bind_fun_some _
  | v :: items, acc, r, h, hr => by
    have hcomma : Reader.feed ⟨.after, .list acc :: stack, root⟩ (code ',') =
        some ⟨.value, .list acc :: stack, root⟩ := rfl
    obtain ⟨r', hrun, hsettle⟩ := @run_item .value stack root (dumpItems level items) v (level + 1) acc
      (h v (List.mem_cons_self ..)) (.inl rfl)
    rw [dumpItems, run_settle (.inl rfl) hr rfl, run_cons, hcomma, Option.bind_some, hrun,
      run_dumpItems level (fun w hw => h w (List.mem_cons_of_mem _ hw)) hsettle, List.append_assoc]
    rfl

theorem reads_list {level : ℕ} {items : List Value} (h : ∀ v ∈ items, ∀ level, Reads (v.dump level) v) :
    Reads ((Value.list items).dump level) (.list items) := by
  intro r hr
  obtain ⟨r', hr', hsettle⟩ := hr.put (.list items)
  refine ⟨r', ?_, hsettle.trans hr'.symm⟩
  have hopen : r.feed (code '[') = some ⟨.first, .list [] :: r.stack, r.root⟩ := by
    rw [feed_start hr.mode (by decide) (by decide), hr.start_eq (by decide), if_pos rfl]
  cases items with
  | nil =>
    have hclose : Reader.feed ⟨.first, .list [] :: r.stack, r.root⟩ (code ']') = r.put (.list []) := rfl
    show run r [code '[', code ']'] = _
    rw [run_cons, hopen, Option.bind_some, run_cons, hclose, hr']
    rfl
  | cons v items =>
    obtain ⟨r₁, hrun, hfirst⟩ := @run_item .first r.stack r.root (dumpItems level items) v (level + 1) []
      (h v (List.mem_cons_self ..) _) (.inr rfl)
    rw [Value.dump, run_cons, hopen, Option.bind_some, hrun,
      run_dumpItems level (fun w hw => h w (List.mem_cons_of_mem _ hw) _) hfirst]
    exact hr'

/-- The key and the value that come next in a dictionary. -/
theorem run_member {level : ℕ} {items : List (Text × Value)} {k : Text} (hk : Whole k)
    (hnew : k ∉ items.map Prod.fst) (hv : Reads (v.dump level) v) (h : mode = .value ∨ mode = .first) : ∃ r',
      run ⟨mode, .key items :: stack, root⟩ (newline level ++ (quote k ++ (lit ": " ++ (v.dump level ++ t)))) =
        run r' t ∧ r'.settle = some ⟨.after, .key (items ++ [(k, v)]) :: stack, root⟩ := by
  have hcolon : run ⟨.colon, .value items k :: stack, root⟩ (lit ": ") =
      some ⟨.value, .value items k :: stack, root⟩ := rfl
  have hkey : Reader.endString ⟨mode, .key items :: stack, root⟩ k =
      some ⟨.colon, .value items k :: stack, root⟩ := rfl
  obtain ⟨r', hr', hsettle⟩ := hv _ (awaits_value (.inl rfl))
  refine ⟨r', ?_, hsettle.trans ?_⟩
  · rw [run_append, run_newline_of_value level h, Option.bind_some, run_append, run_quote h hk, hkey,
      Option.bind_some, run_append, hcolon, Option.bind_some, run_append, hr']
    rfl
  · show some (Reader.mk .after (.key (Py.setItem k v items) :: stack) root) = _
    rw [Py.setItem_of_notMem hnew]

/-- The other items of a dictionary. -/
theorem run_dumpMembers (level : ℕ) : ∀ {items acc : List (Text × Value)} {r : Reader},
    ((acc ++ items).map Prod.fst).Nodup → (∀ p ∈ items, Whole p.1) →
      (∀ p ∈ items, Reads (p.2.dump (level + 1)) p.2) → r.settle = some ⟨.after, .key acc :: stack, root⟩ →
        run r (dumpMembers level items) = Reader.put ⟨.after, stack, root⟩ (.dict (acc ++ items))
  | [], acc, r, _, _, _, hr => by
    have hclose : Reader.feed ⟨.after, .key acc :: stack, root⟩ rbrace =
        Reader.put ⟨.after, stack, root⟩ (.dict acc) := rfl
    have hnewline := @run_newline_of_after ⟨.after, .key acc :: stack, root⟩ level rfl
    rw [dumpMembers, List.append_nil]
    show run r (code '\n' :: (List.replicate (2 * level) (code ' ') ++ [rbrace])) = _
    rw [run_settle (.inr rfl) hr rfl]
    show run _ (newline level ++ [rbrace]) = _
    rw [run_append, hnewline, Option.bind_some, run_cons, hclose]
    exact Option.bind_fun_some _
  | (k, v) :: items, acc, r, hnodup, hkeys, h, hr => by
    have hcomma : Reader.feed ⟨.after, .key acc :: stack, root⟩ (code ',') =
        some ⟨.value, .key acc :: stack, root⟩ := rfl
    have hnew : k ∉ acc.map Prod.fst := by
      rw [List.map_append, List.map_cons] at hnodup
      exact fun hmem => (List.nodup_append.mp hnodup).2.2 k hmem k (List.mem_cons_self ..) rfl
    obtain ⟨r', hrun, hsettle⟩ := @run_member .value stack root (dumpMembers level items) v (level + 1) acc k
      (hkeys (k, v) (List.mem_cons_self ..)) hnew (h (k, v) (List.mem_cons_self ..)) (.inl rfl)
    have hsplit : acc ++ (k, v) :: items = acc ++ [(k, v)] ++ items := by rw [List.append_assoc]; rfl
    rw [dumpMembers, run_settle (.inl rfl) hr rfl, run_cons, hcomma, Option.bind_some, hrun, hsplit]
    exact run_dumpMembers level (hsplit ▸ hnodup) (fun p hp => hkeys p (List.mem_cons_of_mem _ hp))
      (fun p hp => h p (List.mem_cons_of_mem _ hp)) hsettle

theorem reads_dict {level : ℕ} {items : List (Text × Value)} (hnodup : (items.map Prod.fst).Nodup)
    (hkeys : ∀ p ∈ items, Whole p.1) (h : ∀ p ∈ items, ∀ level, Reads (p.2.dump level) p.2) :
    Reads ((Value.dict items).dump level) (.dict items) := by
  intro r hr
  obtain ⟨r', hr', hsettle⟩ := hr.put (.dict items)
  refine ⟨r', ?_, hsettle.trans hr'.symm⟩
  have hopen : r.feed lbrace = some ⟨.first, .key [] :: r.stack, r.root⟩ := by
    rw [feed_start hr.mode (by decide) (by decide), hr.start_eq (by decide), if_neg (by decide), if_pos rfl]
  cases items with
  | nil =>
    have hclose : Reader.feed ⟨.first, .key [] :: r.stack, r.root⟩ rbrace = r.put (.dict []) := rfl
    show run r [lbrace, rbrace] = _
    rw [run_cons, hopen, Option.bind_some, run_cons, hclose, hr']
    rfl
  | cons p items =>
    obtain ⟨k, v⟩ := p
    obtain ⟨r₁, hrun, hfirst⟩ := @run_member .first r.stack r.root (dumpMembers level items) v (level + 1) [] k
      (hkeys (k, v) (List.mem_cons_self ..)) List.not_mem_nil (h (k, v) (List.mem_cons_self ..) _) (.inr rfl)
    rw [Value.dump, run_cons, hopen, Option.bind_some, hrun]
    exact (run_dumpMembers level hnodup (fun p hp => hkeys p (List.mem_cons_of_mem _ hp))
      (fun p hp => h p (List.mem_cons_of_mem _ hp) _) hfirst).trans hr'

end Reading

/-! ### The round trip -/

theorem Value.Wf.reads {v : Value} (h : v.Wf) : ∀ level, Reads (v.dump level) v := by
  induction h with
  | null => exact fun _ => reads_constant (p := (lit "null", .null)) (List.mem_cons_self ..)
  | bool b =>
    intro _
    cases b with
    | true => exact reads_constant (p := (lit "true", .bool true)) (by simp [constants])
    | false => exact reads_constant (p := (lit "false", .bool false)) (by simp [constants])
  | int n => exact fun _ => reads_int n
  | float h => exact fun _ => reads_float h
  | str h => exact fun _ => reads_str h
  | list _ ih => exact fun level => reads_list ih
  | dict hnodup hkeys _ ih => exact fun level => reads_dict hnodup hkeys ih

/-- **What is written is read back.** -/
theorem read_dump {v : Value} (h : v.Wf) : read (v.dump 0) = some v := by
  obtain ⟨r', hrun, hsettle⟩ := h.reads 0 ⟨.value, [], none⟩ ⟨.inl rfl, fun _ _ h => by cases h⟩
  rw [read, hrun, Option.bind_some, Reader.result, hsettle]
  rfl

/-! ### What is written is ASCII -/

def Ascii (s : Text) : Prop := ∀ c ∈ s, c.val < 0x7F

theorem ascii_append {s t : Text} : Ascii (s ++ t) ↔ Ascii s ∧ Ascii t := List.forall_mem_append

theorem ascii_cons {c : Code} {s : Text} : Ascii (c :: s) ↔ c.val < 0x7F ∧ Ascii s := List.forall_mem_cons

theorem ascii_nil : Ascii [] := fun _ hc => absurd hc List.not_mem_nil

theorem ascii_lit {s : String} (h : s.toList.all fun c => c.toNat < 0x7F) : Ascii (lit s) := by
  intro c hc
  obtain ⟨d, hd, rfl⟩ := List.mem_map.mp hc
  exact of_decide_eq_true (List.all_eq_true.mp h d hd)

theorem Ascii.decoded {s : Text} (h : Ascii s) : Decoded s := by
  intro c hc
  have hlt := h c hc
  simp only [isHigh, isLow, Bool.and_eq_true, decide_eq_true_eq]
  omega

theorem hexDigit_ascii : ∀ k < 16, (hexDigit k).val < 0x7F := by decide

theorem unitText_ascii {n : ℕ} (hn : n < 0x10000) : Ascii (unitText n) := by
  intro c hc
  simp only [unitText, List.mem_cons, List.not_mem_nil, or_false] at hc
  rcases hc with rfl | rfl | rfl | rfl | rfl | rfl
  · decide
  · decide
  all_goals exact hexDigit_ascii _ (by omega)

theorem escapeCode_ascii (c : Code) : Ascii (escapeCode c) := by
  have hlt := c.isLt
  unfold escapeCode
  split
  · next hplain => exact List.forall_mem_singleton.mpr (by omega)
  split
  · next hsmall =>
    cases hshort : shortEscapes.lookup c with
    | none => exact unitText_ascii hsmall
    | some d =>
      obtain ⟨l, l', heq, -⟩ := List.lookup_eq_some_iff.mp hshort
      have hmem : (c, d) ∈ shortEscapes := by rw [heq]; simp
      have hletters : ∀ p ∈ shortEscapes, p.2.val < 0x7F := by
        intro p hp
        simp only [shortEscapes, List.mem_cons, List.not_mem_nil, or_false] at hp
        rcases hp with rfl | rfl | rfl | rfl | rfl | rfl | rfl <;> decide
      exact ascii_cons.mpr ⟨by decide, ascii_cons.mpr ⟨hletters (c, d) hmem, ascii_nil⟩⟩
  · exact ascii_append.mpr ⟨unitText_ascii (by omega), unitText_ascii (by omega)⟩

theorem quote_ascii (s : Text) : Ascii (quote s) := by
  have hquotation : quotation.val < 0x7F := by decide
  refine ascii_cons.mpr ⟨hquotation, ascii_append.mpr ⟨fun c hc => ?_, List.forall_mem_singleton.mpr hquotation⟩⟩
  obtain ⟨d, -, hc⟩ := List.mem_flatMap.mp hc
  exact escapeCode_ascii d c hc

/-- A code point of a number. -/
theorem next_ascii {part part' : Part} {c : Code} (h : part.next c = some part') : c.val < 0x7F := by
  by_contra hge
  have hne : ∀ d : Code, d.val < 0x7F → c ≠ d := by
    rintro d hd rfl
    exact hge hd
  have hdigit : isDigit c = false := by
    simp only [isDigit, Bool.and_eq_false_iff, decide_eq_false_iff_not]
    omega
  have hcodes : c ≠ code '-' ∧ c ≠ code '0' ∧ c ≠ code '.' ∧ c ≠ code 'e' ∧ c ≠ code 'E' ∧ c ≠ code '+' :=
    ⟨hne _ (by decide), hne _ (by decide), hne _ (by decide), hne _ (by decide), hne _ (by decide),
      hne _ (by decide)⟩
  cases part <;> simp [Part.next, hdigit, hcodes] at h

theorem foldlM_next_ascii : ∀ {s : Text} {part part' : Part}, s.foldlM Part.next part = some part' → Ascii s
  | [], _, _, _ => fun _ hc => absurd hc List.not_mem_nil
  | c :: s, part, part', h => by
    obtain ⟨part₁, hnext, h⟩ := Option.bind_eq_some_iff.mp h
    exact ascii_cons.mpr ⟨next_ascii hnext, foldlM_next_ascii h⟩

theorem float_ascii {token : Text} (h : isFloat token) : Ascii token := by
  rw [isFloat, Bool.or_eq_true, List.contains_iff_mem] at h
  rcases h with h | h
  · simp only [List.mem_cons, List.not_mem_nil, or_false] at h
    rcases h with rfl | rfl | rfl <;> exact ascii_lit (by decide)
  · obtain ⟨part, hpart, -⟩ := (Option.any_eq_true ..).mp h
    exact foldlM_next_ascii hpart

theorem intText_ascii (n : ℤ) : Ascii (intText n) := by
  have hdecimal : Ascii (decimal n.natAbs) := foldlM_next_ascii (part_decimal (.inl rfl) n.natAbs)
  unfold intText
  split
  · exact ascii_cons.mpr ⟨by decide, hdecimal⟩
  · exact hdecimal

theorem newline_ascii (level : ℕ) : Ascii (newline level) :=
  ascii_cons.mpr ⟨by decide, fun c hc => by rw [List.eq_of_mem_replicate hc]; decide⟩

theorem dumpItems_ascii {level : ℕ} : ∀ {items : List Value}, (∀ v ∈ items, Ascii (v.dump (level + 1))) →
    Ascii (dumpItems level items)
  | [], _ => ascii_append.mpr ⟨newline_ascii level, List.forall_mem_singleton.mpr (by decide)⟩
  | v :: items, h => by
    rw [dumpItems]
    exact ascii_cons.mpr ⟨by decide, ascii_append.mpr ⟨newline_ascii _, ascii_append.mpr
      ⟨h v (List.mem_cons_self ..), dumpItems_ascii fun w hw => h w (List.mem_cons_of_mem _ hw)⟩⟩⟩

theorem dumpMembers_ascii {level : ℕ} : ∀ {items : List (Text × Value)},
    (∀ p ∈ items, Ascii (p.2.dump (level + 1))) → Ascii (dumpMembers level items)
  | [], _ => ascii_append.mpr ⟨newline_ascii level, List.forall_mem_singleton.mpr (by decide)⟩
  | (k, v) :: items, h => by
    rw [dumpMembers]
    exact ascii_cons.mpr ⟨by decide, ascii_append.mpr ⟨newline_ascii _, ascii_append.mpr ⟨quote_ascii k,
      ascii_append.mpr ⟨ascii_lit (by decide), ascii_append.mpr ⟨h (k, v) (List.mem_cons_self ..),
        dumpMembers_ascii fun p hp => h p (List.mem_cons_of_mem _ hp)⟩⟩⟩⟩⟩

/-- What is written can be encoded, whatever the strings. -/
theorem Value.Wf.dump_ascii {v : Value} (h : v.Wf) : ∀ level, Ascii (v.dump level) := by
  induction h with
  | null => exact fun _ => ascii_lit (by decide)
  | bool b => exact fun _ => ascii_lit (by cases b <;> decide)
  | int n => exact fun _ => intText_ascii n
  | float h => exact fun _ => float_ascii h
  | @str s h => exact fun _ => quote_ascii s
  | @list items h ih =>
    intro level
    cases items with
    | nil => exact ascii_lit (by decide)
    | cons v items =>
      rw [Value.dump]
      exact ascii_cons.mpr ⟨by decide, ascii_append.mpr ⟨newline_ascii _, ascii_append.mpr
        ⟨ih v (List.mem_cons_self ..) _, dumpItems_ascii fun w hw => ih w (List.mem_cons_of_mem _ hw) _⟩⟩⟩
  | @dict items hnodup hkeys h ih =>
    intro level
    cases items with
    | nil => exact ascii_cons.mpr ⟨by decide, ascii_cons.mpr ⟨by decide, ascii_nil⟩⟩
    | cons p items =>
      obtain ⟨k, v⟩ := p
      rw [Value.dump]
      exact ascii_cons.mpr ⟨by decide, ascii_append.mpr ⟨newline_ascii _, ascii_append.mpr ⟨quote_ascii k,
        ascii_append.mpr ⟨ascii_lit (by decide), ascii_append.mpr ⟨ih (k, v) (List.mem_cons_self ..) _,
          dumpMembers_ascii fun p hp => ih p (List.mem_cons_of_mem _ hp) _⟩⟩⟩⟩⟩

/-- **Reading and writing.**  The values that decoded documents have are those that are read back. -/
theorem wf_iff_read {v : Value} : v.Wf ↔ ∃ s, Decoded s ∧ read s = some v :=
  ⟨fun h => ⟨v.dump 0, (h.dump_ascii 0).decoded, read_dump h⟩, fun ⟨_, hs, h⟩ => wf_of_read hs h⟩

end Json
