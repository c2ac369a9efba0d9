import SecureLedger.Checklist.Results
import SecureLedger.Checklist.Verdicts

/-!
# Checklist.OneVerdict — one entry for each control of an OpenSCAP result

`parse_scanner_json` gathers the findings of a control before it gives a verdict; `parse_oscap` gives
one for each rule-result.  So a control has one verdict exactly if it has one result
(`oneVerdict_iff`).
-/

namespace SecureLedger.Checklist

open Py

variable {U : Unicode} {dsmeta : List (Text × DsRule)} {naRules : List Text} {elements : List Element}

/-- The rules are one for each control, which tells of every result and is open if one of them calls
for it. -/
structure OneVerdict (U : Unicode) (dsmeta : List (Text × DsRule)) (naRules : List Text)
    (elements : List Element) (rules : List Rule) : Prop where
  once : (rules.map Rule.vulnNum).Nodup
  accounted : ∀ el ∈ evaluated U elements, ∃ r ∈ rules,
    r.vulnNum = control dsmeta el.short ∧ el.mention U <:+: r.findingDetails
  opened : ∀ el ∈ evaluated U elements, el.result U = lit "fail" → el.short ∉ naRules →
    ∀ r ∈ rules, r.vulnNum = control dsmeta el.short → r.status = .opened

/-- Each rule was evaluated once, and rules of one control are one rule. -/
structure OneResult (U : Unicode) (dsmeta : List (Text × DsRule)) (elements : List Element) : Prop where
  once : ((evaluated U elements).map Element.short).Nodup
  apart : ∀ el ∈ evaluated U elements, ∀ el' ∈ evaluated U elements,
    control dsmeta el.short = control dsmeta el'.short → el.short = el'.short

theorem oneResult_iff : OneResult U dsmeta elements ↔
    ((evaluated U elements).map fun el => control dsmeta el.short).Nodup := by
  have hcomp : (evaluated U elements).map (fun el => control dsmeta el.short) =
      ((evaluated U elements).map Element.short).map (control dsmeta) := by
    rw [List.map_map]
    rfl
  rw [hcomp]
  constructor
  · intro h
    refine h.once.map_on ?_
    intro short hshort short' hshort' heq
    obtain ⟨el, hel, rfl⟩ := List.mem_map.mp hshort
    obtain ⟨el', hel', rfl⟩ := List.mem_map.mp hshort'
    exact h.apart el hel el' hel' heq
  · intro h
    refine ⟨h.of_map, ?_⟩
    intro el hel el' hel' heq
    exact List.inj_on_of_nodup_map h (List.mem_map_of_mem hel) (List.mem_map_of_mem hel') heq

/-- A failure that is not listed is open in an entry of its control. -/
theorem exists_opened (dsmeta : List (Text × DsRule)) {el : Element} (hel : el ∈ evaluated U elements)
    (hfail : el.result U = lit "fail") (hna : el.short ∉ naRules) :
    ∃ r ∈ (parseOscap U dsmeta naRules elements).rules,
      r.vulnNum = control dsmeta el.short ∧ r.status = .opened := by
  obtain ⟨r, hr, hrule⟩ := exists_rule hel
  obtain ⟨-, hvid, hstatus, -⟩ := ruleOfElement_spec hrule
  refine ⟨r, hr, hvid, ?_⟩
  rw [hstatus, if_neg (by simpa using hna), hfail]
  decide

/-- Every result is told of in an entry of its control. -/
theorem exists_accounted {el : Element} (hel : el ∈ evaluated U elements) :
    ∃ r ∈ (parseOscap U dsmeta naRules elements).rules,
      r.vulnNum = control dsmeta el.short ∧ el.mention U <:+: r.findingDetails := by
  obtain ⟨r, hr, hrule⟩ := exists_rule hel
  obtain ⟨-, hvid, -, hmention⟩ := ruleOfElement_spec hrule
  exact ⟨r, hr, hvid, hmention.isInfix⟩

/-- **One verdict for each control** if, and only if, each has one result. -/
theorem oneVerdict_iff (U : Unicode) (dsmeta : List (Text × DsRule)) (naRules : List Text)
    (elements : List Element) :
    OneVerdict U dsmeta naRules elements (parseOscap U dsmeta naRules elements).rules ↔
      OneResult U dsmeta elements := by
  rw [oneResult_iff, ← @map_vulnNum_parseOscap U dsmeta naRules]
  constructor
  · intro h
    exact h.once
  · intro hnodup
    refine ⟨hnodup, fun el hel => exists_accounted hel, fun el hel hfail hna r hr hvid => ?_⟩
    -- the entry with the failure is the only one of the control
    obtain ⟨r', hr', hvid', hopen⟩ := exists_opened dsmeta hel hfail hna
    have heq : r = r' := List.inj_on_of_nodup_map hnodup hr hr' (hvid.trans hvid'.symm)
    rw [heq]
    exact hopen

end SecureLedger.Checklist

/-! ### On a sample -/

namespace SecureLedger.Checklist.Sample

open Py

def dsRule (stigId vid : String) : DsRule where
  title := []
  stigId := lit stigId
  cce := []
  vid := lit vid
  svid := []
  ccis := []

/-- Two rules of the guide for one STIG id. -/
def datastream : List (Text × DsRule) :=
  [(lit "accounts_umask_bashrc", dsRule "RHEL-09-412055" "V-258072"),
    (lit "accounts_umask_profile", dsRule "RHEL-09-412055" "V-258072")]

def ruleResult (rule result : String) : Element where
  tag := lit "\x7bhttp://checklists.nist.gov/xccdf/1.2\x7drule-result"
  idref := some (lit "xccdf_org.ssgproject.content_rule_" ++ lit rule)
  severity := some (lit "medium")
  children := [⟨lit "result", some (lit result), none⟩]

/-- One rule of the control fails, the other passes. -/
def contradicting : List Element :=
  [ruleResult "accounts_umask_bashrc" "fail", ruleResult "accounts_umask_profile" "pass"]

/-- The control is reported both open and not a finding. -/
theorem contradicting_twice :
    ((parseOscap ascii datastream [] contradicting).rules.map fun r => (r.vulnNum, r.status)) =
        [(lit "V-258072", .opened), (lit "V-258072", .notAFinding)] ∧
      ¬ OneVerdict ascii datastream [] contradicting
        (parseOscap ascii datastream [] contradicting).rules := by
  refine ⟨by decide +kernel, fun h => ?_⟩
  have : ((parseOscap ascii datastream [] contradicting).rules.map Rule.vulnNum).Nodup := h.once
  revert this
  decide +kernel

end SecureLedger.Checklist.Sample
