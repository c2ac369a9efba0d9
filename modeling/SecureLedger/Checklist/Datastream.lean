import SecureLedger.Checklist.Results
import SecureLedger.Lib.Regex
import Mathlib.Data.List.Sort
import Mathlib.Data.List.Dedup

/-!
# Checklist.Datastream — what the datastream says of each rule

`parse_datastream` reads the elements that `iterparse` ends before the document does, or its first error,
each as it stands then.  `reported_under` says which id a rule-result is reported under.
-/

namespace SecureLedger.Checklist

open Py Regex

/-! ### Elements -/

/-- An element, with the text before its first child and the text behind it. -/
inductive Tree where
  | node (tag : Text) (attrs : List (Text × Text)) (text : Value) (children : List Tree) (tail : Value)

namespace Tree

def tag : Tree → Text
  | .node tag _ _ _ _ => tag

/-- `el.get(name)`. -/
def get (name : String) : Tree → Option Text
  | .node _ attrs _ _ _ => attrs.lookup (lit name)

def text : Tree → Value
  | .node _ _ text _ _ => text

def tail : Tree → Value
  | .node _ _ _ _ tail => tail

mutual

/-- `el.iter()`. -/
def iter : Tree → List Tree
  | .node tag attrs text children tail => .node tag attrs text children tail :: iterAll children

def iterAll : List Tree → List Tree
  | [] => []
  | el :: els => el.iter ++ iterAll els

end

mutual

/-- `"".join(el.itertext())`. -/
def itertext : Tree → Text
  | .node _ _ text children _ => text.getD [] ++ itertextAll children

def itertextAll : List Tree → Text
  | [] => []
  | el :: els => el.itertext ++ (el.tail.getD [] ++ itertextAll els)

end

end Tree

/-! ### Ids -/

/-- `\d` and `\w`, which come with a version of the Unicode tables. -/
structure Classes where
  digit : Code → Bool
  word : Code → Bool
  word_of_digit : ∀ c, digit c → word c
  word_ascii : ∀ c : Code, c.val < 0x80 → word c = ((0x30 ≤ c.val && c.val ≤ 0x39) ||
    (0x41 ≤ c.val && c.val ≤ 0x5A) || c.val = 0x5F || (0x61 ≤ c.val && c.val ≤ 0x7A))

section Patterns

variable (R : Classes)

/-- `RHEL-09-\d{6}`. -/
def stigPattern : Pattern Code := .seq (.lits (lit "RHEL-09-")) (.times R.digit 6)

/-- `CCE-\d+-\d`. -/
def ccePattern : Pattern Code :=
  .seq (.lits (lit "CCE-")) (.seq (.plus R.digit) (.seq (.lits (lit "-")) (.one R.digit)))

/-- `\bV-\d{6}\b`. -/
def vidPattern : Pattern Code :=
  .seq (.boundary R.word) (.seq (.lits (lit "V-")) (.seq (.times R.digit 6) (.boundary R.word)))

/-- `\bSV-\d{6}r\d+_rule\b`. -/
def svidPattern : Pattern Code :=
  .seq (.boundary R.word) (.seq (.lits (lit "SV-")) (.seq (.times R.digit 6) (.seq (.lits (lit "r"))
    (.seq (.plus R.digit) (.seq (.lits (lit "_rule")) (.boundary R.word))))))

end Patterns

/-! ### `parse_datastream` -/

/-- `sorted(set(l))`. -/
def sortedSet (l : List Text) : List Text := l.dedup.insertionSort (· ≤ ·)

/-- What has been found in a rule. -/
structure Found where
  title : Text
  blob : List Text
  ccis : List Text

/-- One turn of the loop over the elements of a rule. -/
def Found.read (U : Unicode) (acc : Found) (d : Tree) : Found :=
  let ln := localname d.tag
  let text := d.text.getD []
  { title := if ln = lit "title" ∧ acc.title = [] then strip d.itertext else acc.title
    blob := if text = [] then acc.blob else acc.blob ++ [text]
    ccis :=
      if ln = lit "ident" ∧ (splitAfter (lit "cci") (U.lower ((d.get "system").getD []))).isSome ∧ text ≠ []
      then acc.ccis ++ [strip text] else acc.ccis }

/-- The entry of a rule. -/
def dsRule (R : Classes) (U : Unicode) (short : Text) (el : Tree) : DsRule :=
  let found := el.iter.foldl (Found.read U) ⟨[], [], []⟩
  let text := join (lit " ") found.blob
  { title := found.title
    stigId := ((stigPattern R).search none text).getD short
    cce := ((ccePattern R).search none text).getD []
    vid := ((vidPattern R).search none text).getD []
    svid := ((svidPattern R).search none text).getD []
    ccis := sortedSet found.ccis }

/-- One turn of the loop over the elements. -/
def readRule (R : Classes) (U : Unicode) (dsmeta : List (Text × DsRule)) (el : Tree) : List (Text × DsRule) :=
  if localname el.tag ≠ lit "Rule" then dsmeta
  else (splitAfter (lit "content_rule_") ((el.get "id").getD [])).elim dsmeta fun short =>
    setItem short (dsRule R U short el) dsmeta

/-- `parse_datastream`, from the elements that were ended. -/
def parseDatastream (R : Classes) (U : Unicode) (elements : List Tree) : List (Text × DsRule) :=
  elements.foldl (readRule R U) []

/-! ### The entry of a rule -/

/-- The texts of a rule, in the order of the document. -/
def Tree.texts (el : Tree) : List Text := (el.iter.map fun d => d.text.getD []).filter (· ≠ [])

/-- A rule with this short id. -/
def Tree.isRule (short : Text) (el : Tree) : Bool :=
  localname el.tag = lit "Rule" && splitAfter (lit "content_rule_") ((el.get "id").getD []) = some short

/-- The last rule with this short id. -/
def lastRule (elements : List Tree) (short : Text) : Option Tree := elements.reverse.find? (Tree.isRule short)

variable {R : Classes} {U : Unicode} {elements : List Tree} {short : Text}

theorem blob_foldl (ds : List Tree) (acc : Found) : (ds.foldl (Found.read U) acc).blob =
    acc.blob ++ (ds.map fun d => d.text.getD []).filter (· ≠ []) := by
  induction ds generalizing acc with
  | nil => simp
  | cons d ds ih =>
    rw [List.foldl_cons, ih]
    by_cases h : d.text.getD [] = [] <;> simp [Found.read, h]

theorem lookup_readRule {dsmeta : List (Text × DsRule)} {el : Tree} : (readRule R U dsmeta el).lookup short =
    if el.isRule short then some (dsRule R U short el) else dsmeta.lookup short := by
  unfold readRule Tree.isRule
  by_cases htag : localname el.tag = lit "Rule"
  · rw [if_neg (not_not.mpr htag), decide_eq_true htag, Bool.true_and]
    cases splitAfter (lit "content_rule_") ((el.get "id").getD []) with
    | none => simp
    | some short' =>
      rw [Option.elim_some, lookup_setItem]
      by_cases h : short = short'
      · subst h
        simp
      · simp [h, Ne.symm h]
  · rw [if_pos htag, decide_eq_false htag, Bool.false_and, if_neg Bool.false_ne_true]

/-- **The last rule with an id counts.** -/
theorem lookup_parseDatastream :
    (parseDatastream R U elements).lookup short = (lastRule elements short).map (dsRule R U short) := by
  unfold parseDatastream lastRule
  induction elements using List.reverseRecOn with
  | nil => rfl
  | append_singleton elements el ih =>
    rw [List.foldl_append, List.foldl_cons, List.foldl_nil, List.reverse_append, List.reverse_singleton,
      List.singleton_append, List.find?_cons, lookup_readRule, ih]
    by_cases h : el.isRule short <;> simp [h]

/-- An id is searched for in one text after the other. -/
theorem search_texts {P : Pattern Code} (hsep : P.Avoids (code ' ')) (hempty : P.search none [] = none)
    (texts : List Text) : P.search none (join (lit " ") texts) = texts.findSome? (P.search none) := by
  cases texts with
  | nil => exact hempty
  | cons s texts => exact search_join hsep s texts

theorem word_space (R : Classes) : R.word (code ' ') = false := R.word_ascii _ (by decide)

theorem digit_space (R : Classes) : R.digit (code ' ') = false := by
  by_contra h
  rw [Bool.not_eq_false] at h
  exact absurd (R.word_of_digit _ h) (by rw [word_space]; simp)

theorem stigPattern_avoids : (stigPattern R).Avoids (code ' ') :=
  ⟨avoids_lits (by decide), avoids_times (digit_space R) 6⟩

theorem vidPattern_avoids : (vidPattern R).Avoids (code ' ') :=
  ⟨word_space R, avoids_lits (by decide), avoids_times (digit_space R) 6, word_space R⟩

/-- The first of the ids in some texts that a pattern finds. -/
def firstId (P : Pattern Code) (texts : List Text) : Option Text := texts.findSome? (P.search none)

theorem dsRule_blob (el : Tree) : (el.iter.foldl (Found.read U) ⟨[], [], []⟩).blob = el.texts := by
  rw [blob_foldl]
  rfl

theorem dsRule_stigId (el : Tree) :
    (dsRule R U short el).stigId = (firstId (stigPattern R) el.texts).getD short := by
  unfold dsRule
  dsimp only
  rw [dsRule_blob, search_texts stigPattern_avoids rfl]
  rfl

theorem dsRule_vid (el : Tree) : (dsRule R U short el).vid = (firstId (vidPattern R) el.texts).getD [] := by
  unfold dsRule
  dsimp only
  rw [dsRule_blob, search_texts vidPattern_avoids rfl]
  rfl

/-! ### Where an id stands -/

/-- `id` is a STIG id that stands in a text after `pre`. -/
structure IsStigId (R : Classes) (t pre id : Text) : Prop where
  place : (pre ++ id) <+: t
  form : ∃ digits, id = lit "RHEL-09-" ++ digits ∧ digits.length = 6 ∧ ∀ c ∈ digits, R.digit c

/-- `id` is a V-ID that stands alone in a text, after `pre`. -/
structure IsVid (R : Classes) (t pre id : Text) : Prop where
  place : ∃ post, t = pre ++ (id ++ post) ∧ ¬ pre.getLast?.any R.word ∧ ¬ post.head?.any R.word
  form : ∃ digits, id = lit "V-" ++ digits ∧ digits.length = 6 ∧ ∀ c ∈ digits, R.digit c

/-- `id` is the first in the first of the texts that has one. -/
def IsFirst (Stands : Text → Text → Text → Prop) (texts : List Text) (id : Text) : Prop :=
  ∃ before t after pre, texts = before ++ t :: after ∧ (∀ s ∈ before, ∀ pre' id', ¬ Stands s pre' id') ∧
    Stands t pre id ∧ ∀ pre' id', Stands t pre' id' → pre.length ≤ pre'.length

/-- No id stands in the texts. -/
def NoneIn (Stands : Text → Text → Text → Prop) (texts : List Text) : Prop :=
  ∀ t ∈ texts, ∀ pre id, ¬ Stands t pre id

variable {P : Pattern Code} {Stands : Text → Text → Text → Prop} {texts : List Text} {id t pre post : Text}

theorem search_none (h : ∀ t pre m post, t = pre ++ (m ++ post) → (P.Occurs none pre m post ↔ Stands t pre m))
    (hplace : ∀ t pre m, Stands t pre m → ∃ post, t = pre ++ (m ++ post)) :
    P.search none t = none ↔ ∀ pre id, ¬ Stands t pre id := by
  rw [search_eq_none]
  constructor
  · intro hnone pre m hm
    obtain ⟨post, heq⟩ := hplace t pre m hm
    exact hnone pre m post heq ((h t pre m post heq).mpr hm)
  · exact fun hnone pre m post heq hm => hnone pre m ((h t pre m post heq).mp hm)

/-- What is found is the first. -/
theorem isFirst_of_found (h : ∀ t pre m post, t = pre ++ (m ++ post) → (P.Occurs none pre m post ↔ Stands t pre m))
    (hplace : ∀ t pre m, Stands t pre m → ∃ post, t = pre ++ (m ++ post)) (hid : firstId P texts = some id) :
    IsFirst Stands texts id := by
  obtain ⟨before, t, after, rfl, hfound, hbefore⟩ := List.findSome?_eq_some_iff.mp hid
  obtain ⟨pre, post, heq, hm, hfirst⟩ := search_eq_some hfound
  refine ⟨before, t, after, pre, rfl, fun s hs => (search_none h hplace).mp (hbefore s hs),
    (h t pre id post heq).mp hm, fun pre' m' hm' => ?_⟩
  obtain ⟨post', heq'⟩ := hplace t pre' m' hm'
  exact hfirst pre' m' post' heq' ((h t pre' m' post' heq').mpr hm')

theorem noneIn_of_notFound
    (h : ∀ t pre m post, t = pre ++ (m ++ post) → (P.Occurs none pre m post ↔ Stands t pre m))
    (hplace : ∀ t pre m, Stands t pre m → ∃ post, t = pre ++ (m ++ post)) (hid : firstId P texts = none) :
    NoneIn Stands texts := fun t ht => (search_none h hplace).mp (List.findSome?_eq_none_iff.mp hid t ht)

theorem lastOr_none (s : Text) : lastOr none s = s.getLast? := Option.or_none

theorem occurs_stigId (heq : t = pre ++ (id ++ post)) :
    (stigPattern R).Occurs none pre id post ↔ IsStigId R t pre id := by
  constructor
  · rintro ⟨word, digits, rfl, hword, hdigits⟩
    rw [matches_lits] at hword
    subst hword
    exact ⟨⟨post, by rw [heq, List.append_assoc]⟩, digits, rfl, matches_times.mp hdigits⟩
  · rintro ⟨-, digits, rfl, hdigits⟩
    exact ⟨lit "RHEL-09-", digits, rfl, matches_lits.mpr rfl, matches_times.mpr hdigits⟩

theorem stigId_place (t pre id : Text) (h : IsStigId R t pre id) : ∃ post, t = pre ++ (id ++ post) := by
  obtain ⟨post, heq⟩ := h.place
  exact ⟨post, by rw [← heq, List.append_assoc]⟩

theorem occurs_vid (heq : t = pre ++ (id ++ post)) :
    (vidPattern R).Occurs none pre id post ↔ IsVid R t pre id := by
  have hv : R.word (code 'V') = true := R.word_ascii _ (by decide)
  -- the boundaries, around a word character and six digits
  have hstart : ∀ rest : Text, atBoundary R.word (lastOr none pre) (lit "V-" ++ rest).head? ↔
      ¬ pre.getLast?.any R.word := by
    intro rest
    show atBoundary R.word (lastOr none pre) (some (code 'V')) ↔ _
    rw [lastOr_none, atBoundary, Option.any_some, hv]
    cases pre.getLast?.any R.word <;> simp
  have hend : ∀ digits : Text, digits.length = 6 → (∀ c ∈ digits, R.digit c) → ∀ before,
      atBoundary R.word (lastOr before digits) post.head? ↔ ¬ post.head?.any R.word := by
    intro digits hlen hall before
    rcases List.eq_nil_or_concat digits with rfl | ⟨init, d, rfl⟩
    · cases hlen
    · have hd : R.word d = true := R.word_of_digit d (hall d (by simp))
      rw [List.concat_eq_append, lastOr, List.getLast?_concat, Option.some_or, atBoundary, Option.any_some, hd]
      cases post.head?.any R.word <;> simp
  constructor
  · rintro ⟨-, id, rfl, ⟨rfl, hfirst⟩, word, rest, rfl, hword, digits, -, rfl, hdigits, rfl, hlast⟩
    rw [matches_lits] at hword
    subst hword
    obtain ⟨hlen, hall⟩ := matches_times.mp hdigits
    simp only [List.nil_append, List.append_nil, List.append_assoc] at heq hfirst hlast ⊢
    refine ⟨⟨post, by simpa using heq, ?_, ?_⟩, digits, rfl, hlen, hall⟩
    · exact (hstart digits).mp hfirst
    · exact (hend digits hlen hall _).mp hlast
  · rintro ⟨⟨post', heq', hfirst, hlast⟩, digits, rfl, hlen, hall⟩
    obtain rfl : post = post' := by
      have hsame := heq.symm.trans heq'
      exact List.append_cancel_left (List.append_cancel_left hsame)
    refine ⟨[], _, rfl, ⟨rfl, (hstart digits).mpr hfirst⟩, lit "V-", digits, rfl, matches_lits.mpr rfl, digits, [],
      (List.append_nil _).symm, matches_times.mpr ⟨hlen, hall⟩, rfl, ?_⟩
    exact (hend digits hlen hall _).mpr hlast

theorem vid_place (t pre id : Text) (h : IsVid R t pre id) : ∃ post, t = pre ++ (id ++ post) := by
  obtain ⟨post, heq, -⟩ := h.place
  exact ⟨post, heq⟩

/-! ### The CCIs of a rule -/

/-- An `ident` with a CCI. -/
def Tree.isCci (U : Unicode) (d : Tree) : Bool :=
  localname d.tag = lit "ident" && (splitAfter (lit "cci") (U.lower ((d.get "system").getD []))).isSome &&
    d.text.getD [] ≠ []

/-- The CCIs that a rule names, in the order of the document. -/
def Tree.ccis (U : Unicode) (el : Tree) : List Text :=
  (el.iter.filter (Tree.isCci U)).map fun d => strip (d.text.getD [])

theorem ccis_foldl (ds : List Tree) (acc : Found) : (ds.foldl (Found.read U) acc).ccis =
    acc.ccis ++ (ds.filter (Tree.isCci U)).map fun d => strip (d.text.getD []) := by
  induction ds generalizing acc with
  | nil => simp
  | cons d ds ih =>
    rw [List.foldl_cons, ih]
    by_cases h : d.isCci U
    · have hcci := h
      simp only [Tree.isCci, Bool.and_eq_true, decide_eq_true_eq, and_assoc] at hcci
      simp [Found.read, hcci, h]
    · have hcci := h
      simp only [Tree.isCci, Bool.and_eq_true, decide_eq_true_eq, and_assoc] at hcci
      rw [List.filter_cons_of_neg h]
      simp only [Found.read]
      rw [if_neg hcci]

theorem mem_sortedSet {l : List Text} {a : Text} : a ∈ sortedSet l ↔ a ∈ l := by
  rw [sortedSet, List.mem_insertionSort, List.mem_dedup]

theorem sortedSet_pairwise (l : List Text) : (sortedSet l).Pairwise (· < ·) := by
  have hsorted : (sortedSet l).Pairwise (· ≤ ·) := List.pairwise_insertionSort _ _
  have hnodup : (sortedSet l).Nodup :=
    (List.perm_insertionSort (· ≤ ·) l.dedup).nodup_iff.mpr (List.nodup_dedup l)
  exact (List.pairwise_and_iff.mpr ⟨hsorted, hnodup⟩).imp fun h => lt_of_le_of_ne h.1 h.2

theorem dsRule_ccis (el : Tree) : (dsRule R U short el).ccis = sortedSet (el.ccis U) := by
  unfold dsRule
  dsimp only
  rw [ccis_foldl, List.nil_append]
  rfl

/-! ### What a rule-result is reported under -/

/-- The ids that a rule-result with this short id may be reported under. -/
inductive ReportedUnder (R : Classes) (elements : List Tree) (short : Text) : Text → Prop
  | vid {el id} (h : lastRule elements short = some el) (hid : IsFirst (IsVid R) el.texts id) :
      ReportedUnder R elements short id
  | stigId {el id} (h : lastRule elements short = some el) (hvid : NoneIn (IsVid R) el.texts)
      (hid : IsFirst (IsStigId R) el.texts id) : ReportedUnder R elements short id
  | short (h : ∀ el, lastRule elements short = some el →
      NoneIn (IsVid R) el.texts ∧ NoneIn (IsStigId R) el.texts) : ReportedUnder R elements short short

theorem reportedUnder_control : ReportedUnder R elements short (control (parseDatastream R U elements) short) := by
  unfold control
  rw [lookup_parseDatastream]
  cases hrule : lastRule elements short with
  | none => exact .short fun el hel => by rw [hrule] at hel; cases hel
  | some el =>
    rw [Option.map_some, Option.map_some, Option.map_some, Option.getD_some, dsRule_vid, dsRule_stigId]
    cases hvid : firstId (vidPattern R) el.texts with
    | some id =>
      have hfirst := isFirst_of_found (fun t pre m post => occurs_vid) vid_place hvid
      -- what is found is not empty
      have hne : id ≠ [] := by
        obtain ⟨_, _, _, _, -, -, hstands, -⟩ := hfirst
        obtain ⟨digits, rfl, -⟩ := hstands.form
        exact List.cons_ne_nil _ _
      have hid : orElse (some id) ((firstId (stigPattern R) el.texts).getD short) = id := by
        simp [orElse, hne]
      rw [Option.getD_some, hid]
      exact .vid hrule hfirst
    | none =>
      have hnone := noneIn_of_notFound (fun t pre m post => occurs_vid) vid_place hvid
      show ReportedUnder R elements short ((firstId (stigPattern R) el.texts).getD short)
      cases hstig : firstId (stigPattern R) el.texts with
      | some id =>
        exact .stigId hrule hnone (isFirst_of_found (fun t pre m post => occurs_stigId) stigId_place hstig)
      | none =>
        refine .short fun el' hel' => ?_
        cases hrule.symm.trans hel'
        exact ⟨hnone, noneIn_of_notFound (fun t pre m post => occurs_stigId) stigId_place hstig⟩

theorem ruleOfElement_ccis {dsmeta : List (Text × DsRule)} {naRules : List Text} {el : Element} {r : Rule}
    (h : ruleOfElement U dsmeta naRules el = some r) :
    r.ccis = ((dsmeta.lookup el.short).map DsRule.ccis).getD [] := by
  unfold ruleOfElement at h
  split at h
  · cases h
  dsimp only at h
  split at h
  · cases h
  cases h
  rfl

/-- **From the datastream to the checklist.**  Each evaluated rule-result is reported, in its order, under the
V-ID that stands first, and alone, in the texts of the last rule of the datastream with its short id; failing
that, under the first STIG id in them; failing that, under the short id.  Ids are never put together from two
texts.  Its CCIs are those that the rule names, each once, ascending. -/
theorem reported_under (R : Classes) (U : Unicode) (datastream : List Tree) (naRules : List Text)
    (results : List Element) : List.Forall₂ (fun el r =>
      ReportedUnder R datastream el.short r.vulnNum ∧ r.ccis.Pairwise (· < ·) ∧
        ∀ cci, cci ∈ r.ccis ↔ ∃ rule, lastRule datastream el.short = some rule ∧ cci ∈ rule.ccis U)
    (evaluated U results) (parseOscap U (parseDatastream R U datastream) naRules results).rules := by
  refine forall₂_parseOscap.imp fun el r h => ?_
  obtain ⟨-, hid, -⟩ := ruleOfElement_spec h
  rw [hid, ruleOfElement_ccis h, lookup_parseDatastream]
  refine ⟨reportedUnder_control, ?_⟩
  cases lastRule datastream el.short with
  | none => exact ⟨.nil, by simp⟩
  | some rule =>
    rw [Option.map_some, Option.map_some, Option.getD_some, dsRule_ccis]
    refine ⟨sortedSet_pairwise _, fun cci => ?_⟩
    rw [mem_sortedSet]
    simp

end SecureLedger.Checklist

/-! ### On a sample -/

namespace SecureLedger.Checklist.Sample

open Py

def asciiWord (c : Code) : Bool := (0x30 ≤ c.val && c.val ≤ 0x39) || (0x41 ≤ c.val && c.val ≤ 0x5A) ||
  c.val = 0x5F || (0x61 ≤ c.val && c.val ≤ 0x7A)

/-- The ASCII digits and letters. -/
def classes : Classes where
  digit c := 0x30 ≤ c.val && c.val ≤ 0x39
  word := asciiWord
  word_of_digit c h := by rw [asciiWord, h, Bool.true_or, Bool.true_or, Bool.true_or]
  word_ascii _ _ := rfl

def leaf (tag text : String) : Tree := .node (lit tag) [] (some (lit text)) [] none

/-- A rule whose first V-ID is cut off and whose second belongs to an SV-ID. -/
def cutOff : Tree := .node (lit "Rule") [(lit "id", lit "xccdf_content_rule_a")] none
  [leaf "title" "Tokens", leaf "ref" "V-1234567 SV-257777r9_rule", leaf "ref" "V-12345",
    leaf "ref" "6 RHEL-09-123456"]
  none

example : control (parseDatastream classes ⟨id, id⟩ [cutOff]) (lit "a") = lit "RHEL-09-123456" := by decide +kernel

end SecureLedger.Checklist.Sample
