import SecureLedger.Checklist.Oscap
import SecureLedger.Lib.Lists

/-!
# Checklist.Results — what `parse_oscap` makes of each rule-result

An evaluated rule-result gives one rule, under the control its rule id is mapped to
(`ruleOfElement_spec`); a list of rules that do not apply changes a status and adds a note, and
nothing else (`ruleOfElement_listed`).
-/

namespace SecureLedger.Checklist

open Py

/-- The text of the last `result` child. -/
def Element.result (U : Unicode) (el : Element) : Text := (el.children.foldl (readChild U) ([], [])).1

/-- The short id of the rule an element refers to. -/
def Element.short (el : Element) : Text := shortId (el.idref.getD [])

/-- A `rule-result` of a rule that was selected and evaluated. -/
def Element.evaluated (U : Unicode) (el : Element) : Bool :=
  localname el.tag = lit "rule-result" && !List.contains [[], lit "notselected"] (el.result U)

/-- The evaluated rule-results of a document. -/
def evaluated (U : Unicode) (elements : List Element) : List Element :=
  elements.filter (Element.evaluated U)

/-- The control a rule is reported under: its V-ID, else its STIG id, else the short id itself. -/
def control (dsmeta : List (Text × DsRule)) (short : Text) : Text :=
  orElse ((dsmeta.lookup short).map DsRule.vid) (((dsmeta.lookup short).map DsRule.stigId).getD short)

/-- What the finding details say of a rule-result. -/
def Element.mention (U : Unicode) (el : Element) : Text :=
  lit "OpenSCAP result: " ++ el.result U ++ lit " (rule " ++ el.short

/-- The rule with the determination that it does not apply. -/
def Rule.determined (r : Rule) : Rule :=
  { r with
    status := .notApplicable
    findingDetails := r.findingDetails ++
      lit " | Not Applicable to a container base image (documented determination)." }

variable {U : Unicode} {dsmeta : List (Text × DsRule)} {naRules : List Text} {el : Element} {r : Rule}

theorem ruleOfElement_isSome : (ruleOfElement U dsmeta naRules el).isSome = el.evaluated U := by
  unfold ruleOfElement Element.evaluated Element.result
  by_cases htag : localname el.tag = lit "rule-result"
  · rw [if_neg (not_not.mpr htag), decide_eq_true htag]
    dsimp only
    cases [[], lit "notselected"].contains (el.children.foldl (readChild U) ([], [])).1 <;> rfl
  · rw [if_pos htag, decide_eq_false htag]
    rfl

/-- **What the rule of a rule-result has.** -/
theorem ruleOfElement_spec (h : ruleOfElement U dsmeta naRules el = some r) :
    el.evaluated U ∧ r.vulnNum = control dsmeta el.short ∧
      r.status = (if naRules.contains el.short then .notApplicable
        else (oscapStatus.lookup (el.result U)).getD .notReviewed) ∧
      el.mention U <+: r.findingDetails := by
  have hev : el.evaluated U := by
    rw [← @ruleOfElement_isSome U dsmeta naRules, h]
    rfl
  unfold ruleOfElement at h
  split at h
  · cases h
  dsimp only at h
  split at h
  · cases h
  cases h
  refine ⟨hev, rfl, rfl, ?_⟩
  show _ ++ _ ++ _ ++ _ <+: _ ++ _ ++ _ ++ _ ++ _ ++ _ ++ _
  exact ⟨_, by simp only [List.append_assoc]; rfl⟩

/-- **What a list changes.** -/
theorem ruleOfElement_listed : ruleOfElement U dsmeta naRules el =
    (ruleOfElement U dsmeta [] el).map fun r =>
      if naRules.contains el.short then r.determined else r := by
  unfold ruleOfElement Element.short
  by_cases htag : localname el.tag ≠ lit "rule-result"
  · rw [if_pos htag, if_pos htag]
    rfl
  rw [if_neg htag, if_neg htag]
  dsimp only
  by_cases hresult : [[], lit "notselected"].contains (el.children.foldl (readChild U) ([], [])).1
  · rw [if_pos hresult, if_pos hresult]
    rfl
  rw [if_neg hresult, if_neg hresult]
  cases naRules.contains (shortId (el.idref.getD [])) <;> simp [Rule.determined]

/-! ### The rules of a document -/

variable {elements : List Element}

/-- A rule for each evaluated rule-result, in the order of the document. -/
theorem forall₂_parseOscap : List.Forall₂ (fun el r => ruleOfElement U dsmeta naRules el = some r)
    (evaluated U elements) (parseOscap U dsmeta naRules elements).rules := by
  unfold evaluated parseOscap
  dsimp only
  induction elements with
  | nil => exact .nil
  | cons el elements ih =>
    have hev := @ruleOfElement_isSome U dsmeta naRules el
    cases hr : ruleOfElement U dsmeta naRules el with
    | none =>
      rw [hr] at hev
      rw [List.filterMap_cons_none hr, List.filter_cons_of_neg (by simp [← hev])]
      exact ih
    | some r =>
      rw [hr] at hev
      rw [List.filterMap_cons_some hr, List.filter_cons_of_pos hev.symm]
      exact .cons hr ih

theorem map_vulnNum_parseOscap : (parseOscap U dsmeta naRules elements).rules.map Rule.vulnNum =
    (evaluated U elements).map fun el => control dsmeta el.short :=
  (Lists.map_eq_map forall₂_parseOscap fun _ _ h => (ruleOfElement_spec h).2.1.symm).symm

/-- Every evaluated rule-result has its rule. -/
theorem exists_rule (h : el ∈ evaluated U elements) :
    ∃ r ∈ (parseOscap U dsmeta naRules elements).rules, ruleOfElement U dsmeta naRules el = some r :=
  Lists.exists_of_mem_left forall₂_parseOscap h

end SecureLedger.Checklist
