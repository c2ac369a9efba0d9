import SecureLedger.Checklist.NaRules
import SecureLedger.Checklist.OneVerdict

/-!
# Checklist.NotApplicable — what the list of rules that do not apply overrides

Two runs of `parse_oscap` on one document, with a list and without.  The list changes the rules of
every evaluated result it names, failed or not (`rule_of_listed`), so it only overrides failures
exactly if it only names rules that failed (`onlyFailures_iff`).
-/

namespace SecureLedger.Checklist

open Py

variable {U : Unicode} {dsmeta : List (Text × DsRule)} {lines : List Text} {elements : List Element}
  {el : Element} {r r₀ : Rule}

/-- What the rule `r` of a result should be with the list, if it is `r₀` without: marked if the result is a
failure of a listed rule, and the same otherwise. -/
structure Overrides (same : Rule → Rule → Prop) (U : Unicode) (lines : List Text) (el : Element)
    (r₀ r : Rule) : Prop where
  failed : el.result U = lit "fail" → Listed lines el.short → same r r₀.determined
  other : ¬ (el.result U = lit "fail" ∧ Listed lines el.short) → same r r₀

/-- The rules with the list are, one by one, those without, but for failures of listed rules. -/
structure OnlyFailures (same : Rule → Rule → Prop) (U : Unicode) (dsmeta : List (Text × DsRule))
    (lines : List Text) (elements : List Element) : Prop where
  length : (parseOscap U dsmeta (loadNaRules lines) elements).rules.length =
    (parseOscap U dsmeta [] elements).rules.length
  each : ∀ (i : ℕ) el r₀ r, (evaluated U elements)[i]? = some el →
    (parseOscap U dsmeta [] elements).rules[i]? = some r₀ →
    (parseOscap U dsmeta (loadNaRules lines) elements).rules[i]? = some r →
    Overrides same U lines el r₀ r

/-- Equal but for the finding details. -/
def SameButDetails (r r' : Rule) : Prop := { r with findingDetails := r'.findingDetails } = r'

theorem SameButDetails.refl (r : Rule) : SameButDetails r r := rfl

/-! ### The two runs -/

theorem length_parseOscap (naRules : List Text) :
    (parseOscap U dsmeta naRules elements).rules.length = (evaluated U elements).length :=
  forall₂_parseOscap.length_eq.symm

/-- The rule of a result stands at its place. -/
theorem rule_at {naRules : List Text} {i : ℕ} (hel : (evaluated U elements)[i]? = some el) :
    (parseOscap U dsmeta naRules elements).rules[i]? = some r ↔ ruleOfElement U dsmeta naRules el = some r := by
  obtain ⟨r', hr', hrule⟩ := Lists.exists_getElem? (@forall₂_parseOscap U dsmeta naRules elements) hel
  rw [hr', hrule]

/-- **What the list does** to a result, failed or not. -/
theorem rule_of_listed (hlisted : Listed lines el.short) (h₀ : ruleOfElement U dsmeta [] el = some r₀) :
    ruleOfElement U dsmeta (loadNaRules lines) el = some r₀.determined := by
  rw [ruleOfElement_listed, h₀, Option.map_some, if_pos]
  exact List.contains_iff_mem.mpr (mem_loadNaRules.mpr hlisted)

theorem rule_of_unlisted (hlisted : ¬ Listed lines el.short) (h₀ : ruleOfElement U dsmeta [] el = some r₀) :
    ruleOfElement U dsmeta (loadNaRules lines) el = some r₀ := by
  rw [ruleOfElement_listed, h₀, Option.map_some, if_neg]
  exact fun h => hlisted (mem_loadNaRules.mp (List.contains_iff_mem.mp h))

/-- Only failures are overridden if the mark makes no difference to the other results of listed rules. -/
theorem onlyFailures_iff_same {same : Rule → Rule → Prop} (hrefl : ∀ r, same r r) :
    OnlyFailures same U dsmeta lines elements ↔
      ∀ el ∈ evaluated U elements, Listed lines el.short → el.result U ≠ lit "fail" →
        ∀ r₀, ruleOfElement U dsmeta [] el = some r₀ → same r₀.determined r₀ := by
  constructor
  · intro h el hel hlisted hresult r₀ h₀
    obtain ⟨i, hi⟩ := List.mem_iff_getElem?.mp hel
    have hr := rule_of_listed hlisted h₀
    exact (h.each i el r₀ _ hi ((rule_at hi).mpr h₀) ((rule_at hi).mpr hr)).other fun hfail =>
      hresult hfail.1
  · intro h
    refine ⟨by rw [length_parseOscap, length_parseOscap], fun i el r₀ r hel h₀ hr => ?_⟩
    have h₀ := (rule_at hel).mp h₀
    have hr := (rule_at hel).mp hr
    by_cases hlisted : Listed lines el.short
    · rw [rule_of_listed hlisted h₀] at hr
      cases hr
      refine ⟨fun _ _ => hrefl _, fun hother => ?_⟩
      exact h el (List.mem_of_getElem? hel) hlisted (fun hfail => hother ⟨hfail, hlisted⟩) r₀ h₀
    · rw [rule_of_unlisted hlisted h₀] at hr
      cases hr
      exact ⟨fun _ hl => absurd hl hlisted, fun _ => hrefl _⟩

/-! ### When the rules are the same -/

theorem sameButDetails_determined : SameButDetails r.determined r ↔ r.status = .notApplicable := by
  constructor
  · intro h
    exact (congrArg Rule.status h).symm
  · intro h
    show { r with status := .notApplicable } = r
    rw [← h]

/-- The note is new. -/
theorem determined_ne : r.determined ≠ r := by
  intro h
  have hdetails : r.findingDetails ++ _ = r.findingDetails := congrArg Rule.findingDetails h
  exact absurd (List.append_right_eq_self.mp hdetails) (by decide)

theorem oscapStatus_notApplicable {result : Text} :
    (oscapStatus.lookup result).getD .notReviewed = .notApplicable ↔ result = lit "notapplicable" := by
  constructor
  · intro h
    cases hlookup : oscapStatus.lookup result with
    | none =>
      rw [hlookup] at h
      cases h
    | some status =>
      rw [hlookup] at h
      have hword : ∀ p ∈ oscapStatus, p.2 = .notApplicable → p.1 = lit "notapplicable" := by decide
      obtain ⟨l₁, l₂, hsplit, -⟩ := List.lookup_eq_some_iff.mp hlookup
      exact hword (result, status) (by rw [hsplit]; simp) h
  · rintro rfl
    decide

theorem onlyFailures_sameButDetails : OnlyFailures SameButDetails U dsmeta lines elements ↔
    ∀ el ∈ evaluated U elements, Listed lines el.short →
      el.result U = lit "fail" ∨ el.result U = lit "notapplicable" := by
  rw [onlyFailures_iff_same SameButDetails.refl]
  refine forall₂_congr fun el hel => forall_congr' fun _ => ?_
  obtain ⟨r, -, h₀⟩ := @exists_rule U dsmeta [] el elements hel
  obtain ⟨-, -, hstatus, -⟩ := ruleOfElement_spec h₀
  rw [h₀]
  simp only [Option.some.injEq, forall_eq']
  rw [sameButDetails_determined, hstatus, if_neg (by simp), oscapStatus_notApplicable, ← or_iff_not_imp_left]

theorem onlyFailures_eq : OnlyFailures Eq U dsmeta lines elements ↔
    ∀ el ∈ evaluated U elements, Listed lines el.short → el.result U = lit "fail" := by
  rw [onlyFailures_iff_same Eq.refl]
  refine forall₂_congr fun el hel => forall_congr' fun _ => ?_
  obtain ⟨r, -, h₀⟩ := @exists_rule U dsmeta [] el elements hel
  rw [h₀]
  simp only [Option.some.injEq, forall_eq']
  exact ⟨fun h => not_not.mp fun hfail => determined_ne (h hfail), fun h hfail => absurd h hfail⟩

/-- **Only failures are overridden** if, and only if, all results of listed rules are failures; a result
that says itself that the rule does not apply keeps its status, but not its details. -/
theorem onlyFailures_iff (U : Unicode) (dsmeta : List (Text × DsRule)) (lines : List Text)
    (elements : List Element) :
    (OnlyFailures SameButDetails U dsmeta lines elements ↔
      ∀ el ∈ evaluated U elements, Listed lines el.short →
        el.result U = lit "fail" ∨ el.result U = lit "notapplicable") ∧
    (OnlyFailures Eq U dsmeta lines elements ↔
      ∀ el ∈ evaluated U elements, Listed lines el.short → el.result U = lit "fail") := by
  constructor
  · exact onlyFailures_sameButDetails
  · exact onlyFailures_eq

end SecureLedger.Checklist

/-! ### On a sample -/

namespace SecureLedger.Checklist.Sample

open Py

/-- A comment, and a rule that passes, by its full id. -/
def passingListed : List Text :=
  [lit "# no interactive logins\n",
    lit "  xccdf_org.ssgproject.content_rule_accounts_umask_profile  # no shell\n"]

example : loadNaRules passingListed = [lit "accounts_umask_profile"] := by decide +kernel

/-- The pass is overridden. -/
theorem passingListed_overridden :
    ((parseOscap ascii datastream (loadNaRules passingListed) contradicting).rules.map Rule.status) =
        [.opened, .notApplicable] ∧
      ((parseOscap ascii datastream [] contradicting).rules.map Rule.status) =
        [.opened, .notAFinding] ∧
      ¬ OnlyFailures SameButDetails ascii datastream passingListed contradicting ∧
      ¬ OnlyFailures Eq ascii datastream passingListed contradicting := by
  have hel : ruleResult "accounts_umask_profile" "pass" ∈ evaluated ascii contradicting := by decide +kernel
  have hlisted : Listed passingListed (ruleResult "accounts_umask_profile" "pass").short :=
    mem_loadNaRules.mp (by decide +kernel)
  refine ⟨by decide +kernel, by decide +kernel, fun h => ?_, fun h => ?_⟩
  · rcases onlyFailures_sameButDetails.mp h _ hel hlisted with hresult | hresult
    · exact absurd hresult (by decide +kernel)
    · exact absurd hresult (by decide +kernel)
  · exact absurd (onlyFailures_eq.mp h _ hel hlisted) (by decide +kernel)

end SecureLedger.Checklist.Sample
