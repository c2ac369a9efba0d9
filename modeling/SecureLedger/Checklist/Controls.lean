import SecureLedger.Checklist.Writers
import SecureLedger.Lib.Lists

/-!
# Checklist.Controls — one rule for each control of the findings

What `parse_scanner_json` returns, said of the list of findings: a rule for every control some
finding names, made from the findings of that control, in the order of the ids (`parseScannerJson_ok`).
-/

namespace SecureLedger.Checklist

open Py

/-- The control a finding is about; empty if it names none. -/
def Finding.ctrl (f : Finding) : Text := strip ((f.stigId.get (some [])).getD [])

/-- The findings of a control. -/
def ofControl (findings : List Finding) (vid : Text) : List Finding := findings.filter (·.ctrl = vid)

variable {U : Unicode} {key : StigKey} {findings : List Finding}

theorem Finding.vid_eq {f : Finding} (h : f.stigId ≠ .null) : f.vid = .ok f.ctrl := by
  unfold Finding.vid Finding.ctrl
  cases hf : f.stigId with
  | absent => rfl
  | null => exact absurd hf h
  | str s => rfl

theorem mem_ofControl {vid : Text} {f : Finding} :
    f ∈ ofControl findings vid ↔ f ∈ findings ∧ f.ctrl = vid := by
  unfold ofControl
  rw [List.mem_filter, decide_eq_true_eq]

/-- A null id stops the parser, wherever it stands. -/
theorem parseScannerJson_null (h : ∃ f ∈ findings, f.stigId = .null) :
    parseScannerJson U key findings = .error .attributeError := by
  have hloop : ∀ d, findings.foldlM collectFinding d = .error .attributeError := by
    obtain ⟨f, hf, hnull⟩ := h
    induction findings with
    | nil => cases hf
    | cons g l ih =>
      intro d
      rw [List.foldlM_cons]
      by_cases hg : g.stigId = .null
      · simp [collectFinding, Finding.vid, hg, Field.get, bind, Except.bind]
      · have hfl : f ∈ l := (List.mem_cons.mp hf).resolve_left fun he => hg (he ▸ hnull)
        cases hd : collectFinding d g with
        | ok d' => exact ih hfl d'
        | error e =>
          rw [collectFinding, Finding.vid_eq hg] at hd
          simp only [bind, Except.bind] at hd
          split_ifs at hd
  unfold parseScannerJson
  rw [hloop]
  rfl

theorem stigId_of_ok {ist : IStig} (h : parseScannerJson U key findings = .ok ist) :
    ∀ f ∈ findings, f.stigId ≠ .null := by
  intro f hf hnull
  rw [parseScannerJson_null ⟨f, hf, hnull⟩] at h
  cases h

/-- The loop groups the findings that name a control. -/
theorem foldlM_collectFinding (hid : ∀ f ∈ findings, f.stigId ≠ .null) :
    findings.foldlM collectFinding [] =
      .ok (groupBy Finding.ctrl (findings.filter (·.ctrl ≠ []))) := by
  induction findings using List.reverseRecOn with
  | nil => rfl
  | append_singleton l f ih =>
    rw [List.foldlM_append, ih fun f hf => hid f (List.mem_append_left _ hf)]
    have hvid := Finding.vid_eq (hid f (by simp))
    simp only [bind, Except.bind, List.foldlM_cons, List.foldlM_nil, collectFinding, hvid,
      List.isEmpty_iff]
    by_cases hf : f.ctrl = []
    · simp [hf, List.filter_append, pure, Except.pure]
    · simp [hf, List.filter_append, groupBy_concat, pure, Except.pure]

/-- A group is what there is of its control. -/
theorem mem_groups {vid : Text} {fs : List Finding} :
    (vid, fs) ∈ groupBy Finding.ctrl (findings.filter (·.ctrl ≠ [])) ↔
      vid ≠ [] ∧ fs = ofControl findings vid ∧ fs ≠ [] := by
  have hof : vid ≠ [] →
      findings.filter (fun f => f.ctrl = vid ∧ f.ctrl ≠ []) = ofControl findings vid := by
    intro hne
    apply List.filter_congr
    intro f _
    by_cases hf : f.ctrl = vid <;> simp [hf, hne]
  rw [mem_groupBy, List.filter_filter]
  constructor
  · rintro ⟨hfs, f, hf, hvid⟩
    obtain ⟨hf, hne⟩ := List.mem_filter.mp hf
    rw [decide_eq_true_eq, hvid] at hne
    have hfs : fs = ofControl findings vid := by
      rw [← hof hne]
      simpa using hfs
    have hmem : f ∈ fs := hfs ▸ mem_ofControl.mpr ⟨hf, hvid⟩
    exact ⟨hne, hfs, List.ne_nil_of_mem hmem⟩
  · rintro ⟨hne, rfl, hfs⟩
    obtain ⟨f, hf⟩ := List.exists_mem_of_ne_nil _ hfs
    obtain ⟨hf, hvid⟩ := mem_ofControl.mp hf
    refine ⟨by rw [← hof hne]; simp, f, List.mem_filter.mpr ⟨hf, ?_⟩, hvid⟩
    exact decide_eq_true (hvid ▸ hne)

/-- A group with a first finding gives a rule. -/
theorem ruleOf_eq_ok {item : Text × List Finding} {r : Rule} : ruleOf U key item = .ok r ↔
    ∃ f fs, item.2 = f :: fs ∧ r = ruleFrom U key item.1 f (f :: fs) := by
  obtain ⟨vid, fs⟩ := item
  cases fs with
  | nil =>
    constructor
    · intro h
      cases h
    · rintro ⟨f, fs, h, -⟩
      cases h
  | cons f fs =>
    constructor
    · intro h
      cases h
      exact ⟨f, fs, rfl, rfl⟩
    · rintro ⟨f', fs', h, rfl⟩
      cases h
      rfl

/-- **The rules**, in strictly ascending order of the id, each from the findings of its control. -/
theorem parseScannerJson_ok (U : Unicode) (key : StigKey) (hid : ∀ f ∈ findings, f.stigId ≠ .null) :
    ∃ rules, parseScannerJson U key findings = .ok ⟨stigMeta key, rules⟩ ∧
      (rules.map Rule.vulnNum).Pairwise (· < ·) ∧
      ∀ r, r ∈ rules ↔ ∃ vid f fs, vid ≠ [] ∧ ofControl findings vid = f :: fs ∧
        r = ruleFrom U key vid f (f :: fs) := by
  obtain ⟨items, hitems, hperm, hsorted⟩ :=
    sortedItems_ok (groupBy_nodup Finding.ctrl (findings.filter (·.ctrl ≠ [])))
  have hmem : ∀ vid fs, (vid, fs) ∈ items ↔ vid ≠ [] ∧ fs = ofControl findings vid ∧ fs ≠ [] := by
    intro vid fs
    rw [hperm.mem_iff, mem_groups]
  have hok : ∀ item ∈ items, ∃ r, ruleOf U key item = .ok r := by
    rintro ⟨vid, fs⟩ hitem
    obtain ⟨f, fs', rfl⟩ := List.exists_cons_of_ne_nil ((hmem vid fs).mp hitem).2.2
    exact ⟨_, rfl⟩
  obtain ⟨rules, hrules, hall⟩ := Lists.mapM_ok hok
  have hparse : parseScannerJson U key findings = .ok ⟨stigMeta key, rules⟩ := by
    unfold parseScannerJson
    rw [foldlM_collectFinding hid]
    simp only [bind, Except.bind, hitems, hrules]
  have hids : items.map Prod.fst = rules.map Rule.vulnNum := by
    apply Lists.map_eq_map hall
    intro item r h
    obtain ⟨f, fs, -, rfl⟩ := ruleOf_eq_ok.mp h
    rfl
  refine ⟨rules, hparse, by rw [← hids]; exact List.pairwise_map.mpr hsorted, fun r => ?_⟩
  constructor
  · intro hr
    obtain ⟨⟨vid, fs⟩, hitem, h⟩ := Lists.exists_of_mem_right hall hr
    obtain ⟨f, fs', rfl, rfl⟩ := ruleOf_eq_ok.mp h
    obtain ⟨hne, hfs, -⟩ := (hmem _ _).mp hitem
    exact ⟨vid, f, fs', hne, hfs.symm, rfl⟩
  · rintro ⟨vid, f, fs, hne, hfs, rfl⟩
    obtain ⟨r, hr, h⟩ := Lists.exists_of_mem_left hall
      ((hmem vid (f :: fs)).mpr ⟨hne, hfs.symm, List.cons_ne_nil _ _⟩)
    cases h
    exact hr

/-- The rules of an iSTIG that was returned. -/
theorem rules_of_ok {ist : IStig} (h : parseScannerJson U key findings = .ok ist) : ist.head = stigMeta key ∧
    ∀ r, r ∈ ist.rules ↔ ∃ vid f fs, vid ≠ [] ∧ ofControl findings vid = f :: fs ∧
      r = ruleFrom U key vid f (f :: fs) := by
  obtain ⟨rules, hok, -, hrules⟩ := parseScannerJson_ok U key (stigId_of_ok h)
  obtain rfl : (⟨stigMeta key, rules⟩ : IStig) = ist := Except.ok.inj (hok.symm.trans h)
  exact ⟨rfl, hrules⟩

end SecureLedger.Checklist
