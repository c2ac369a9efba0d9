import SecureLedger.Checklist.Verdicts

/-!
# Checklist.Severities — the severity of a control and the order of its findings

The status of a control is aggregated over its findings; its severity is that of the first of them
(`mem_verdicts`).  The order does not show exactly if no control has findings of two categories
(`orderFree_iff`).
-/

namespace SecureLedger.Checklist

open Py

variable {U : Unicode} {key : StigKey} {findings : List Finding}

def Finding.category (U : Unicode) (f : Finding) : Category := sevToCat U (f.severity.get none)

def Category.weight : Category → ℕ
  | high => 2
  | medium => 1
  | low => 0

/-- `c` is the highest category among the findings. -/
structure Highest (U : Unicode) (fs : List Finding) (c : Category) : Prop where
  mem : ∃ f ∈ fs, f.category U = c
  le : ∀ f ∈ fs, (f.category U).weight ≤ c.weight

/-- Control, status and severity. -/
def Rule.verdict (r : Rule) : Text × Status × Category := (r.vulnNum, r.status, r.severity)

/-- The verdicts in the checklist of some findings. -/
def verdicts (U : Unicode) (key : StigKey) (findings : List Finding) :
    Except Error (List (Text × Status × Category)) :=
  (parseScannerJson U key findings).map fun ist => ist.rules.map Rule.verdict

/-- The verdicts are those of every order of the findings, with the highest category each control has. -/
structure OrderFree (U : Unicode) (key : StigKey) (findings : List Finding) : Prop where
  same : ∀ findings', findings.Perm findings' → verdicts U key findings' = verdicts U key findings
  highest : ∀ ist, parseScannerJson U key findings = .ok ist →
    ∀ r ∈ ist.rules, Highest U (ofControl findings r.vulnNum) r.severity

/-- The findings of one control are of one category. -/
def OneCategory (U : Unicode) (findings : List Finding) : Prop :=
  ∀ f ∈ findings, ∀ g ∈ findings, f.ctrl = g.ctrl → f.ctrl ≠ [] → f.category U = g.category U

/-! ### The verdicts of a list -/

/-- **Whence a verdict comes**: the status from all findings of the control, the severity from the first. -/
theorem mem_verdicts {rules : List Rule}
    (hrules : ∀ r, r ∈ rules ↔ ∃ vid f fs, vid ≠ [] ∧ ofControl findings vid = f :: fs ∧
      r = ruleFrom U key vid f (f :: fs)) (vid : Text) (s : Status) (c : Category) :
    (vid, s, c) ∈ rules.map Rule.verdict ↔ vid ≠ [] ∧ ∃ f fs, ofControl findings vid = f :: fs ∧
      Calls (f :: fs) s ∧ c = f.category U := by
  constructor
  · intro hmem
    obtain ⟨r, hr, he⟩ := List.mem_map.mp hmem
    obtain ⟨vid', f, fs, hne, hfs, rfl⟩ := (hrules r).mp hr
    cases he
    exact ⟨hne, f, fs, hfs, aggStatus_calls f fs, rfl⟩
  · rintro ⟨hne, f, fs, hfs, hcalls, rfl⟩
    rw [hcalls.unique (aggStatus_calls f fs)]
    exact List.mem_map.mpr ⟨_, (hrules _).mpr ⟨vid, f, fs, hne, hfs, rfl⟩, rfl⟩

/-- The parser with the verdicts it gives. -/
theorem verdicts_ok (U : Unicode) (key : StigKey) (hid : ∀ f ∈ findings, f.stigId ≠ .null) :
    ∃ vs, verdicts U key findings = .ok vs ∧ (vs.map Prod.fst).Pairwise (· < ·) ∧
    ∀ vid s c, (vid, s, c) ∈ vs ↔ vid ≠ [] ∧ ∃ f fs, ofControl findings vid = f :: fs ∧
      Calls (f :: fs) s ∧ c = f.category U := by
  obtain ⟨rules, hparse, hsorted, hrules⟩ := parseScannerJson_ok U key hid
  refine ⟨rules.map Rule.verdict, by rw [verdicts, hparse]; rfl, ?_, mem_verdicts hrules⟩
  rw [List.map_map]
  exact hsorted

/-! ### The order of the findings -/

/-- With a finding brought to the front, its category is reported. -/
theorem first_verdict (U : Unicode) (key : StigKey) (hid : ∀ f ∈ findings, f.stigId ≠ .null)
    {f : Finding} (hf : f ∈ findings) (hne : f.ctrl ≠ []) : ∃ vs, verdicts U key (f :: findings.erase f) = .ok vs ∧
      (∃ s, (f.ctrl, s, f.category U) ∈ vs) ∧ ∀ s c, (f.ctrl, s, c) ∈ vs → c = f.category U := by
  have hperm := List.perm_cons_erase hf
  obtain ⟨vs, hvs, -, hmem⟩ := verdicts_ok U key fun g hg => hid g (hperm.mem_iff.mpr hg)
  have hof : ofControl (f :: findings.erase f) f.ctrl = f :: ofControl (findings.erase f) f.ctrl :=
    List.filter_cons_of_pos (decide_eq_true rfl)
  refine ⟨vs, hvs, ⟨_, (hmem _ _ _).mpr ⟨hne, f, _, hof, aggStatus_calls _ _, rfl⟩⟩, fun s c h => ?_⟩
  obtain ⟨-, g, gs, hgs, -, hc⟩ := (hmem _ _ _).mp h
  rw [hof] at hgs
  obtain ⟨rfl, -⟩ := List.cons.inj hgs
  exact hc

theorem oneCategory_of_same (hid : ∀ f ∈ findings, f.stigId ≠ .null)
    (hsame : ∀ findings', findings.Perm findings' → verdicts U key findings' = verdicts U key findings) :
    OneCategory U findings := by
  intro f hf g hg hctrl hne
  obtain ⟨vs, hvs, ⟨s, hfirst⟩, -⟩ := first_verdict U key hid hf hne
  obtain ⟨vs', hvs', -, hall⟩ := first_verdict U key hid hg (hctrl ▸ hne)
  have heq : vs = vs' := by
    rw [hsame _ (List.perm_cons_erase hf), ← hsame _ (List.perm_cons_erase hg), hvs'] at hvs
    exact (Except.ok.inj hvs).symm
  rw [heq, hctrl] at hfirst
  exact hall s _ hfirst

/-- What a verdict comes from, in another order. -/
theorem verdict_perm (hone : OneCategory U findings) {findings' : List Finding}
    (hperm : findings.Perm findings') {vid : Text} (hne : vid ≠ []) {s : Status} {c : Category}
    (h : ∃ f fs, ofControl findings vid = f :: fs ∧ Calls (f :: fs) s ∧ c = f.category U) :
    ∃ f fs, ofControl findings' vid = f :: fs ∧ Calls (f :: fs) s ∧ c = f.category U := by
  obtain ⟨f, fs, hfs, hcalls, rfl⟩ := h
  have hof : (ofControl findings vid).Perm (ofControl findings' vid) := hperm.filter _
  have hf : f ∈ ofControl findings vid := hfs ▸ List.mem_cons_self ..
  obtain ⟨g, gs, hgs⟩ := List.exists_cons_of_ne_nil (List.ne_nil_of_mem (hof.mem_iff.mp hf))
  have hg : g ∈ ofControl findings vid := hof.mem_iff.mpr (hgs ▸ List.mem_cons_self ..)
  obtain ⟨hf, hfvid⟩ := mem_ofControl.mp hf
  obtain ⟨hg, hgvid⟩ := mem_ofControl.mp hg
  rw [hfs, hgs] at hof
  exact ⟨g, gs, hgs, hcalls.of_mem fun _ => hof.mem_iff,
    hone f hf g hg (hfvid.trans hgvid.symm) (hfvid ▸ hne)⟩

theorem same_of_oneCategory (hid : ∀ f ∈ findings, f.stigId ≠ .null) (hone : OneCategory U findings)
    {findings' : List Finding} (hperm : findings.Perm findings') :
    verdicts U key findings' = verdicts U key findings := by
  obtain ⟨vs, hvs, hsorted, hmem⟩ := verdicts_ok U key hid
  obtain ⟨vs', hvs', hsorted', hmem'⟩ := verdicts_ok U key fun f hf => hid f (hperm.mem_iff.mpr hf)
  have hone' : OneCategory U findings' := fun f hf g hg =>
    hone f (hperm.mem_iff.mpr hf) g (hperm.mem_iff.mpr hg)
  rw [hvs, hvs']
  refine congrArg Except.ok (Lists.eq_of_sorted Prod.fst hsorted' hsorted ?_)
  rintro ⟨vid, s, c⟩
  rw [hmem, hmem']
  refine and_congr_right fun hne => ⟨?_, ?_⟩
  · exact verdict_perm hone' hperm.symm hne
  · exact verdict_perm hone hperm hne

theorem highest_of_oneCategory (hone : OneCategory U findings) {ist : IStig}
    (hparse : parseScannerJson U key findings = .ok ist) {r : Rule} (hr : r ∈ ist.rules) :
    Highest U (ofControl findings r.vulnNum) r.severity := by
  obtain ⟨-, hrules⟩ := rules_of_ok hparse
  obtain ⟨vid, f, fs, hne, hfs, rfl⟩ := (hrules r).mp hr
  show Highest U (ofControl findings vid) (f.category U)
  have hf : f ∈ ofControl findings vid := hfs ▸ List.mem_cons_self ..
  refine ⟨⟨f, hf, rfl⟩, fun g hg => ?_⟩
  obtain ⟨hf, hfvid⟩ := mem_ofControl.mp hf
  obtain ⟨hg, hgvid⟩ := mem_ofControl.mp hg
  rw [hone g hg f hf (hgvid.trans hfvid.symm) (hgvid ▸ hne)]

/-- **The order of the findings does not show** if, and only if, the findings of each control are of one
category, or there is a finding that stops the parser in every order. -/
theorem orderFree_iff (U : Unicode) (key : StigKey) (findings : List Finding) :
    OrderFree U key findings ↔ (∃ f ∈ findings, f.stigId = .null) ∨ OneCategory U findings := by
  by_cases hnull : ∃ f ∈ findings, f.stigId = .null
  · refine iff_of_true ⟨?_, ?_⟩ (.inl hnull)
    · intro findings' hperm
      obtain ⟨f, hf, hn⟩ := hnull
      unfold verdicts
      rw [parseScannerJson_null ⟨f, hf, hn⟩, parseScannerJson_null ⟨f, hperm.mem_iff.mp hf, hn⟩]
    · intro ist hparse
      rw [parseScannerJson_null hnull] at hparse
      cases hparse
  · have hid : ∀ f ∈ findings, f.stigId ≠ .null := fun f hf hn => hnull ⟨f, hf, hn⟩
    constructor
    · intro h
      exact .inr (oneCategory_of_same hid h.same)
    · intro h
      have hone := h.resolve_left hnull
      exact ⟨fun _ hperm => same_of_oneCategory hid hone hperm,
        fun _ hparse _ hr => highest_of_oneCategory hone hparse hr⟩

end SecureLedger.Checklist

/-! ### On a sample -/

namespace SecureLedger.Checklist.Sample

open Py

/-- A finding of one control, with its severity. -/
def graded (severity : String) : Finding :=
  { finding "V-1" "fail" "no exp" with severity := .str (lit severity) }

/-- The less severe finding comes first. -/
def lowFirst : List Finding := [graded "low", graded "high"]

/-- The severity reported is low in this order and high in the other. -/
theorem lowFirst_downgraded : (verdicts ascii .api lowFirst).toOption = some [(lit "V-1", .opened, .low)] ∧
    (verdicts ascii .api lowFirst.reverse).toOption = some [(lit "V-1", .opened, .high)] ∧
    ¬ OrderFree ascii .api lowFirst := by
  have hlow : (verdicts ascii .api lowFirst).toOption = some [(lit "V-1", .opened, .low)] := by
    decide +kernel
  have hhigh : (verdicts ascii .api lowFirst.reverse).toOption = some [(lit "V-1", .opened, .high)] := by
    decide +kernel
  refine ⟨hlow, hhigh, fun h => ?_⟩
  rw [h.same _ (List.reverse_perm _).symm, hlow] at hhigh
  revert hhigh
  decide

end SecureLedger.Checklist.Sample
