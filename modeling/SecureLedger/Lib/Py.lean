import Mathlib.Data.List.DropRight
import Mathlib.Data.List.Lex
import Mathlib.Data.List.Nodup
import Mathlib.Order.Fin.Basic

/-!
# Lib.Py — the parts of Python's `str`, `dict` and `sorted` the models use

A `str` is a list of code points, surrogates included, ordered as Python orders it; the first item of
`s.strip().split()` is the text's first word (`IsFirstWord.firstWord_strip`).  A `dict` is a
list of its items in insertion order; `groupBy` fills one with `setdefault(k, []).append(a)`, and
`sortedItems` is `sorted(d.items())`, which compares values only where keys are equal.
-/

namespace Py

/-- A code point. -/
abbrev Code := Fin 0x110000

abbrev Text := List Code

theorem char_lt (c : Char) : c.toNat < 0x110000 := by
  have h : c.toNat.isValidChar := c.valid
  unfold Nat.isValidChar at h
  omega

def code (c : Char) : Code := ⟨c.toNat, char_lt c⟩

/-- A literal. -/
def lit (s : String) : Text := s.toList.map code

/-- `str.isspace` of one code point. -/
def isSpace (c : Code) : Bool :=
  let n := c.val
  (0x09 ≤ n && n ≤ 0x0D) || (0x1C ≤ n && n ≤ 0x20) || n = 0x85 || n = 0xA0 || n = 0x1680 ||
    (0x2000 ≤ n && n ≤ 0x200A) || n = 0x2028 || n = 0x2029 || n = 0x202F || n = 0x205F || n = 0x3000

/-- `s.strip()`. -/
def strip (s : Text) : Text := (s.dropWhile isSpace).rdropWhile isSpace

/-- `s.split()[0]`, of a text that is not all space. -/
def firstWord (s : Text) : Text := (s.dropWhile isSpace).takeWhile (!isSpace ·)

/-- `s.rstrip(chars)`. -/
def rstrip (chars s : Text) : Text := s.rdropWhile (· ∈ chars)

/-- `word` is the first word of `s`: white space before it, the end or white space behind it. -/
structure IsFirstWord (s word : Text) : Prop where
  parts : ∃ lead rest, s = lead ++ (word ++ rest) ∧ (∀ c ∈ lead, isSpace c) ∧ ∀ c ∈ rest.head?, isSpace c
  ne_nil : word ≠ []
  nonspace : ∀ c ∈ word, ¬ isSpace c

/-- Only what follows a word is stripped behind it. -/
theorem rdropWhile_word {word : Text} (hword : ∀ c ∈ word, ¬ isSpace c) (rest : Text) :
    (word ++ rest).rdropWhile isSpace = word ++ rest.rdropWhile isSpace := by
  induction rest using List.reverseRecOn with
  | nil =>
    rw [List.append_nil, List.rdropWhile_nil, List.append_nil]
    exact List.rdropWhile_eq_self_iff.mpr fun hne => hword _ (List.getLast_mem hne)
  | append_singleton rest c ih =>
    rw [← List.append_assoc]
    by_cases hc : isSpace c
    · rw [List.rdropWhile_concat_pos _ _ _ hc, List.rdropWhile_concat_pos _ _ _ hc, ih]
    · rw [List.rdropWhile_concat_neg _ _ _ hc, List.rdropWhile_concat_neg _ _ _ hc, List.append_assoc]

theorem head?_rdropWhile {s : Text} {c : Code} (h : c ∈ (s.rdropWhile isSpace).head?) : c ∈ s.head? := by
  obtain ⟨t, ht⟩ := List.rdropWhile_prefix isSpace (l := s)
  rw [← ht]
  exact List.mem_head?_append_of_mem_head? h

/-- The stripped text begins with the first word. -/
theorem IsFirstWord.strip_eq {s word : Text} (h : IsFirstWord s word) :
    ∃ rest, strip s = word ++ rest ∧ ∀ c ∈ rest.head?, isSpace c := by
  obtain ⟨lead, rest, rfl, hlead, hrest⟩ := h.parts
  refine ⟨rest.rdropWhile isSpace, ?_, fun c hc => hrest c (head?_rdropWhile hc)⟩
  obtain ⟨c, word', rfl⟩ := List.exists_cons_of_ne_nil h.ne_nil
  unfold strip
  rw [List.dropWhile_append_of_pos hlead, List.cons_append,
    List.dropWhile_cons_of_neg (h.nonspace c (List.mem_cons_self ..)), ← List.cons_append,
    rdropWhile_word h.nonspace]

/-- **The first word** is what `split` finds. -/
theorem IsFirstWord.firstWord_strip {s word : Text} (h : IsFirstWord s word) : firstWord (strip s) = word := by
  obtain ⟨rest, hstrip, hrest⟩ := h.strip_eq
  obtain ⟨c, word', rfl⟩ := List.exists_cons_of_ne_nil h.ne_nil
  have hword : ∀ d ∈ c :: word', (!isSpace d) = true := fun d hd => by simp [h.nonspace d hd]
  rw [hstrip, firstWord, List.cons_append, List.dropWhile_cons_of_neg (h.nonspace c (List.mem_cons_self ..)),
    ← List.cons_append, List.takeWhile_append_of_pos hword]
  have hstop : rest.takeWhile (!isSpace ·) = [] := by
    cases rest with
    | nil => rfl
    | cons d rest => simp [hrest d rfl]
  rw [hstop, List.append_nil]

theorem not_of_mem_head?_dropWhile {p : Code → Bool} {s : Text} {c : Code}
    (h : c ∈ (s.dropWhile p).head?) : p c = false := by
  have := List.head?_dropWhile_not p s
  rw [Option.mem_def.mp h] at this
  exact this

/-- A text that is not blank has one. -/
theorem exists_firstWord {s : Text} (h : strip s ≠ []) : ∃ word, IsFirstWord s word := by
  cases hs : s.dropWhile isSpace with
  | nil => exact absurd (by rw [strip, hs]; rfl) h
  | cons c t =>
    have hc : isSpace c = false := not_of_mem_head?_dropWhile (p := isSpace) (s := s) (by rw [hs]; rfl)
    refine ⟨(c :: t).takeWhile (!isSpace ·), ?_, ?_, ?_⟩
    · refine ⟨s.takeWhile isSpace, (c :: t).dropWhile (!isSpace ·), ?_, ?_, ?_⟩
      · rw [List.takeWhile_append_dropWhile, ← hs, List.takeWhile_append_dropWhile]
      · exact fun c hc => List.mem_takeWhile_imp hc
      · intro d hd
        simpa using not_of_mem_head?_dropWhile hd
    · rw [List.takeWhile_cons_of_pos (by simp [hc])]
      exact List.cons_ne_nil _ _
    · intro d hd
      simpa using List.mem_takeWhile_imp hd

/-- `sep.join(l)`. -/
def join (sep : Text) : List Text → Text
  | [] => []
  | s :: l => s ++ l.flatMap (sep ++ ·)

theorem join_append_right (sep : Text) {l : List Text} (hl : l ≠ []) (l' : List Text) :
    join sep (l ++ l') = join sep l ++ l'.flatMap (sep ++ ·) := by
  obtain ⟨s, l, rfl⟩ := List.exists_cons_of_ne_nil hl
  simp [join]

theorem join_append_left (sep : Text) {l' : List Text} (hl : l' ≠ []) (l : List Text) :
    join sep (l ++ l') = l.flatMap (· ++ sep) ++ join sep l' := by
  obtain ⟨s', l', rfl⟩ := List.exists_cons_of_ne_nil hl
  cases l with
  | nil => rfl
  | cons s l =>
    -- a separator after each of `l` is one before each of the rest
    have hshift : ∀ l : List Text, l.flatMap (sep ++ ·) ++ sep = sep ++ l.flatMap (· ++ sep) := by
      intro l
      induction l with
      | nil => simp
      | cons t l ih => simp only [List.flatMap_cons, List.append_assoc, ih]
    have := hshift l
    simp only [List.cons_append, join, List.flatMap_append, List.flatMap_cons, List.append_assoc]
    rw [← List.append_assoc _ sep, this, List.append_assoc]

/-- Consecutive lines stand in the joined text as they were joined alone. -/
theorem join_infix (sep : Text) {l l' : List Text} (hl : l ≠ []) (h : l <:+: l') :
    join sep l <:+: join sep l' := by
  obtain ⟨pre, post, rfl⟩ := h
  rw [join_append_right sep (by simp [hl]), join_append_left sep hl]
  exact ⟨_, _, rfl⟩

/-- A string or `None`. -/
abbrev Value := Option Text

/-- `x or y`. -/
def orElse (x : Value) (y : Text) : Text :=
  match x with
  | none => y
  | some s => if s.isEmpty then y else s

/-- `str(x)`. -/
def str : Value → Text
  | none => lit "None"
  | some s => s

/-- What a key of a JSON object has: nothing, `null` or a string. -/
inductive Field where
  | absent
  | null
  | str (s : Text)
  deriving DecidableEq, Repr

/-- `f.get(key, default)`. -/
def Field.get (f : Field) (default : Value) : Value :=
  match f with
  | absent => default
  | null => none
  | str s => some s

theorem Field.get_ne_none {f : Field} {s : Text} : f.get (some s) ≠ none ↔ f ≠ .null := by
  cases f <;> simp [Field.get]

@[simp] theorem orElse_nil_right (x : Value) : orElse x [] = x.getD [] := by
  cases x with
  | none => rfl
  | some s => cases s <;> rfl

/-- What is raised. -/
inductive Error where
  | attributeError
  | indexError
  | typeError
  | systemExit (message : Text)
  deriving DecidableEq, Repr

/-- `l[0]`. -/
def first {α : Type} : List α → Except Error α
  | [] => .error .indexError
  | a :: _ => .ok a

/-- `str.lower` and `str.upper`, which come with a version of the Unicode tables. -/
structure Unicode where
  lower : Text → Text
  upper : Text → Text

/-- The text of a random UUID: hexadecimal digits and dashes. -/
structure Uuid where
  text : Text
  hex : ∀ c ∈ text, c ∈ lit "0123456789abcdef-"

/-! ### Dictionaries -/

section Items

variable {K α : Type} [DecidableEq K]

/-- `d[k] = a`: the key keeps its place. -/
def setItem (k : K) (a : α) : List (K × α) → List (K × α)
  | [] => [(k, a)]
  | (k', b) :: d => if k' = k then (k, a) :: d else (k', b) :: setItem k a d

variable {k k' : K} {a : α} {d : List (K × α)} {e : K × α}

theorem mem_keys_setItem : k' ∈ (setItem k a d).map Prod.fst ↔ k' = k ∨ k' ∈ d.map Prod.fst := by
  induction d with
  | nil => simp [setItem]
  | cons e d ih =>
    unfold setItem
    by_cases he : e.1 = k
    · rw [if_pos he]
      simp [he]
    · rw [if_neg he]
      simp only [List.map_cons, List.mem_cons, ih]
      exact or_left_comm

theorem nodup_setItem (h : (d.map Prod.fst).Nodup) : ((setItem k a d).map Prod.fst).Nodup := by
  induction d with
  | nil => simp [setItem]
  | cons e d ih =>
    obtain ⟨hne, hd⟩ := List.nodup_cons.mp h
    unfold setItem
    by_cases he : e.1 = k
    · rw [if_pos he]
      exact List.nodup_cons.mpr ⟨he ▸ hne, hd⟩
    · rw [if_neg he]
      refine List.nodup_cons.mpr ⟨fun hmem => ?_, ih hd⟩
      exact (mem_keys_setItem.mp hmem).elim he hne

/-- An item of a dictionary is the one that was set, or was there. -/
theorem mem_of_mem_setItem (h : e ∈ setItem k a d) : e = (k, a) ∨ e ∈ d := by
  induction d with
  | nil => exact .inl (List.mem_singleton.mp h)
  | cons e' d ih =>
    unfold setItem at h
    split at h
    · exact (List.mem_cons.mp h).imp id (List.mem_cons_of_mem _)
    · rcases List.mem_cons.mp h with rfl | h
      · exact .inr (List.mem_cons_self ..)
      · exact (ih h).imp id (List.mem_cons_of_mem _)

/-- A new key comes last. -/
theorem setItem_of_notMem (h : k ∉ d.map Prod.fst) : setItem k a d = d ++ [(k, a)] := by
  induction d with
  | nil => rfl
  | cons e d ih =>
    rw [List.map_cons, List.mem_cons, not_or] at h
    rw [setItem, if_neg (Ne.symm h.1), ih h.2, List.cons_append]

theorem lookup_setItem [BEq K] [LawfulBEq K] :
    (setItem k a d).lookup k' = if k' = k then some a else d.lookup k' := by
  induction d with
  | nil => by_cases h : k' = k <;> simp [setItem, List.lookup_cons, h, beq_false_of_ne]
  | cons e d ih =>
    obtain ⟨k₁, b⟩ := e
    unfold setItem
    by_cases he : k₁ = k
    · subst he
      by_cases h : k' = k₁ <;> simp [List.lookup_cons, h, beq_false_of_ne]
    · rw [if_neg he, List.lookup_cons, ih, List.lookup_cons]
      by_cases h : k' = k₁
      · subst h
        simp [he]
      · simp [beq_false_of_ne h]

end Items

/-! ### Dictionaries of lists -/

section Group

variable {K α : Type} [DecidableEq K]

/-- `d.setdefault(k, []).append(a)`. -/
def appendTo (k : K) (a : α) : List (K × List α) → List (K × List α)
  | [] => [(k, [a])]
  | (k', l) :: d => if k' = k then (k', l ++ [a]) :: d else (k', l) :: appendTo k a d

/-- A dictionary filled from a list, each element under its key. -/
def groupBy (key : α → K) (l : List α) : List (K × List α) :=
  l.foldl (fun d a => appendTo (key a) a d) []

variable {k k' : K} {a : α} {d : List (K × List α)}

theorem mem_keys_appendTo : k' ∈ (appendTo k a d).map Prod.fst ↔ k' = k ∨ k' ∈ d.map Prod.fst := by
  induction d with
  | nil => simp [appendTo]
  | cons e d ih =>
    unfold appendTo
    by_cases he : e.1 = k
    · rw [if_pos he]
      simp only [List.map_cons, List.mem_cons, he]
      exact ⟨.inr, fun h => h.elim .inl id⟩
    · rw [if_neg he]
      simp only [List.map_cons, List.mem_cons, ih]
      exact or_left_comm

theorem nodup_appendTo (h : (d.map Prod.fst).Nodup) : ((appendTo k a d).map Prod.fst).Nodup := by
  induction d with
  | nil => simp [appendTo]
  | cons e d ih =>
    obtain ⟨hne, hd⟩ := List.nodup_cons.mp h
    unfold appendTo
    by_cases he : e.1 = k
    · rw [if_pos he]
      exact h
    · rw [if_neg he]
      refine List.nodup_cons.mpr ⟨fun hmem => ?_, ih hd⟩
      exact (mem_keys_appendTo.mp hmem).elim he hne

/-- The list under a key, empty if there is none. -/
def under (k : K) (d : List (K × List α)) : List α := (d.lookup k).getD []

theorem under_cons (e : K × List α) : under k (e :: d) = if e.1 = k then e.2 else under k d := by
  unfold under
  rw [List.lookup_cons]
  by_cases h : e.1 = k
  · simp [h]
  · simp [h, beq_false_of_ne (Ne.symm h)]

theorem under_appendTo : under k' (appendTo k a d) = under k' d ++ if k = k' then [a] else [] := by
  induction d with
  | nil =>
    rw [appendTo, under_cons]
    rfl
  | cons e d ih =>
    unfold appendTo
    by_cases he : e.1 = k
    · rw [if_pos he, under_cons, under_cons]
      by_cases hk : e.1 = k'
      · rw [if_pos hk, if_pos hk, if_pos (he ▸ hk)]
      · rw [if_neg hk, if_neg hk, if_neg (he ▸ hk), List.append_nil]
    · rw [if_neg he, under_cons, under_cons, ih]
      by_cases hk : e.1 = k'
      · rw [if_pos hk, if_pos hk, if_neg (fun h => he (hk.trans h.symm)), List.append_nil]
      · rw [if_neg hk, if_neg hk]

theorem under_of_mem (h : (d.map Prod.fst).Nodup) {l : List α} (he : (k, l) ∈ d) : under k d = l := by
  induction d with
  | nil => cases he
  | cons e d ih =>
    obtain ⟨hne, hd⟩ := List.nodup_cons.mp h
    rw [under_cons]
    rcases List.mem_cons.mp he with rfl | he
    · exact if_pos rfl
    · have hk : e.1 ≠ k := by
        rintro rfl
        exact hne (List.mem_map.mpr ⟨_, he, rfl⟩)
      rw [if_neg hk, ih hd he]

variable {key : α → K} {l : List α}

theorem groupBy_concat : groupBy key (l ++ [a]) = appendTo (key a) a (groupBy key l) := by
  simp [groupBy, List.foldl_append]

theorem groupBy_nodup (key : α → K) (l : List α) : ((groupBy key l).map Prod.fst).Nodup := by
  induction l using List.reverseRecOn with
  | nil => exact List.nodup_nil
  | append_singleton l a ih =>
    rw [groupBy_concat]
    exact nodup_appendTo ih

theorem mem_keys_groupBy : k ∈ (groupBy key l).map Prod.fst ↔ ∃ a ∈ l, key a = k := by
  induction l using List.reverseRecOn with
  | nil => simp [groupBy]
  | append_singleton l a ih =>
    rw [groupBy_concat, mem_keys_appendTo, ih]
    simp [or_and_right, exists_or, eq_comm, or_comm]

theorem under_groupBy : under k (groupBy key l) = l.filter (key · = k) := by
  induction l using List.reverseRecOn with
  | nil => rfl
  | append_singleton l a ih =>
    rw [groupBy_concat, under_appendTo, ih, List.filter_append, List.filter_singleton]
    by_cases h : key a = k <;> simp [h]

/-- **An entry holds the elements of its key**, in the order of the list. -/
theorem mem_groupBy {e : K × List α} : e ∈ groupBy key l ↔
    e.2 = l.filter (key · = e.1) ∧ ∃ a ∈ l, key a = e.1 := by
  obtain ⟨k, l'⟩ := e
  constructor
  · intro he
    exact ⟨by rw [← under_groupBy, under_of_mem (groupBy_nodup key l) he],
      mem_keys_groupBy.mp (List.mem_map_of_mem (f := Prod.fst) he)⟩
  · rintro ⟨hl, hk⟩
    obtain ⟨⟨k', l''⟩, he, hkk⟩ := List.mem_map.mp (mem_keys_groupBy.mpr hk)
    dsimp only at hkk hl
    subst hkk
    rw [hl, ← under_groupBy, under_of_mem (groupBy_nodup key l) he]
    exact he

end Group

/-! ### Sorting items -/

section Sorted

variable {K α : Type} [LinearOrder K]

/-- Put an item into a sorted list of items.  Items with equal keys would be compared by their
values, which raises. -/
def insertItem (e : K × α) : List (K × α) → Except Error (List (K × α))
  | [] => .ok [e]
  | e' :: d =>
    if e.1 = e'.1 then .error .typeError
    else if e.1 < e'.1 then .ok (e :: e' :: d)
    else (insertItem e d).map (e' :: ·)

/-- `sorted(d.items())`. -/
def sortedItems : List (K × α) → Except Error (List (K × α))
  | [] => .ok []
  | e :: d => (sortedItems d).bind (insertItem e)

theorem insertItem_ok {e : K × α} {d : List (K × α)} (he : e.1 ∉ d.map Prod.fst)
    (hd : d.Pairwise (·.1 < ·.1)) :
    ∃ s, insertItem e d = .ok s ∧ s.Perm (e :: d) ∧ s.Pairwise (·.1 < ·.1) := by
  induction d with
  | nil => exact ⟨[e], rfl, .refl _, List.pairwise_singleton _ _⟩
  | cons e' d ih =>
    obtain ⟨hlt, hd'⟩ := List.pairwise_cons.mp hd
    rw [List.map_cons, List.mem_cons, not_or] at he
    unfold insertItem
    rw [if_neg he.1]
    by_cases h : e.1 < e'.1
    · rw [if_pos h]
      refine ⟨_, rfl, .refl _, List.pairwise_cons.mpr ⟨fun b hb => ?_, hd⟩⟩
      rcases List.mem_cons.mp hb with rfl | hb
      · exact h
      · exact h.trans (hlt b hb)
    · rw [if_neg h]
      obtain ⟨s, hs, hperm, hsorted⟩ := ih he.2 hd'
      have hgt : e'.1 < e.1 := lt_of_le_of_ne (not_lt.mp h) (Ne.symm he.1)
      refine ⟨e' :: s, by rw [hs]; rfl, (hperm.cons e').trans (.swap _ _ _),
        List.pairwise_cons.mpr ⟨fun b hb => ?_, hsorted⟩⟩
      rcases List.mem_cons.mp (hperm.mem_iff.mp hb) with rfl | hb
      · exact hgt
      · exact hlt b hb

/-- **Distinct keys sort**, and no two values are compared. -/
theorem sortedItems_ok {d : List (K × α)} (hd : (d.map Prod.fst).Nodup) :
    ∃ s, sortedItems d = .ok s ∧ s.Perm d ∧ s.Pairwise (·.1 < ·.1) := by
  induction d with
  | nil => exact ⟨[], rfl, .refl _, .nil⟩
  | cons e d ih =>
    obtain ⟨he, hd'⟩ := List.nodup_cons.mp hd
    obtain ⟨s, hs, hperm, hsorted⟩ := ih hd'
    obtain ⟨s', hs', hperm', hsorted'⟩ :=
      insertItem_ok (fun hmem => he ((hperm.map Prod.fst).mem_iff.mp hmem)) hsorted
    exact ⟨s', by rw [sortedItems, hs]; exact hs', hperm'.trans (hperm.cons e), hsorted'⟩

end Sorted

end Py
