import SecureLedger.Checklist.Verdicts
import SecureLedger.Checklist.Readback

/-!
# Checklist.Agreement — what the two files say of the same rules

The texts `write_ckl` escapes are those of `cklStig`, and `write_cklb` stores the rules as they are.
The two say the same unless a title or a fix is null: `str(None)` writes the word "None" into the
`.ckl`, where the `.cklb` has null (`writers_agree_iff`).
-/

namespace SecureLedger.Checklist

open Py

variable {U : Unicode} {inputs : Inputs} {istigs : List IStig} {findings : List Finding}

/-! ### The texts of the `.ckl` -/

/-- The texts of a VULN, before they are escaped. -/
structure CklRule where
  vulnNum : Text
  severity : Text
  ruleId : Text
  ruleVer : Text
  ruleTitle : Text
  checkContent : Text
  fixText : Text
  ccis : List Text
  status : Text
  findingDetails : Text
  comments : Text
  deriving DecidableEq, Repr

/-- The texts of an iSTIG, before they are escaped. -/
structure CklStig where
  version : Text
  stigid : Text
  title : Text
  release : Text
  rules : List CklRule
  deriving DecidableEq, Repr

def cklRule (r : Rule) : CklRule where
  vulnNum := r.vulnNum
  severity := r.severity.text
  ruleId := r.ruleId
  ruleVer := r.ruleVer
  ruleTitle := str r.ruleTitle
  checkContent := str r.checkContent
  fixText := str r.fixText
  ccis := r.ccis
  status := r.status.text
  findingDetails := r.findingDetails
  comments := orElse r.comments []

def cklStig (ist : IStig) : CklStig where
  version := ist.head.version
  stigid := ist.head.stigid
  title := ist.head.title
  release := ist.head.release
  rules := ist.rules.map cklRule

/-- The text of an element, escaped. -/
def dataLine (attr : String) (s : Text) : Text :=
  lit "<STIG_DATA><VULN_ATTRIBUTE>" ++ lit attr ++ lit "</VULN_ATTRIBUTE><ATTRIBUTE_DATA>" ++
    escape s ++ lit "</ATTRIBUTE_DATA></STIG_DATA>"

def infoLine (name : String) (s : Text) : Text :=
  lit "<SI_DATA><SID_NAME>" ++ lit name ++ lit "</SID_NAME><SID_DATA>" ++ escape s ++
    lit "</SID_DATA></SI_DATA>"

/-- The lines around the texts of a rule. -/
def ruleLines (title : Text) (c : CklRule) : List Text :=
  [lit "<VULN>",
    dataLine "Vuln_Num" c.vulnNum,
    dataLine "Severity" c.severity,
    dataLine "Group_Title" c.ruleTitle,
    dataLine "Rule_ID" c.ruleId,
    dataLine "Rule_Ver" c.ruleVer,
    dataLine "Rule_Title" c.ruleTitle,
    dataLine "Vuln_Discuss" c.checkContent,
    dataLine "Check_Content" c.checkContent,
    dataLine "Fix_Text" c.fixText,
    dataLine "STIGRef" title] ++
  c.ccis.map (dataLine "CCI_REF") ++
  [lit "<STATUS>" ++ c.status ++ lit "</STATUS>",
    lit "<FINDING_DETAILS>" ++ escape c.findingDetails ++ lit "</FINDING_DETAILS>",
    lit "<COMMENTS>" ++ escape c.comments ++ lit "</COMMENTS>",
    lit "<SEVERITY_OVERRIDE/><SEVERITY_JUSTIFICATION/>",
    lit "</VULN>"]

def stigLines (uuid : Uuid) (c : CklStig) : List Text :=
  [lit "<iSTIG>", lit "<STIG_INFO>",
    infoLine "version" c.version,
    infoLine "stigid" c.stigid,
    infoLine "title" c.title,
    infoLine "releaseinfo" c.release,
    infoLine "uuid" uuid.text,
    lit "</STIG_INFO>"] ++
  c.rules.flatMap (ruleLines c.title) ++ [lit "</iSTIG>"]

/-- The `.ckl` of these texts. -/
def cklOf (uuids : ℕ → Uuid) (stigs : List CklStig) (asset target : Text) : Text :=
  join (lit "\n") (headParts asset target ++
    stigs.zipIdx.flatMap (fun p => stigLines (uuids p.2) p.1) ++ [lit "</STIGS></CHECKLIST>"])

theorem stigData_texts (attr : String) (val : Value) : stigData attr val = dataLine attr (str val) := by
  unfold stigData dataLine
  rw [esc_some]

theorem si_texts (name : String) (data : Text) : si name data = infoLine name data := by
  unfold si infoLine
  rw [esc_some]

theorem vulnParts_texts (m : StigMeta) (r : Rule) : vulnParts m r = ruleLines m.title (cklRule r) := by
  have hstr : ∀ s : Text, str (some s) = s := fun _ => rfl
  simp only [vulnParts, ruleLines, cklRule, stigData_texts, hstr, esc_some]
  rfl

theorem istigParts_texts (uuid : Uuid) (ist : IStig) : istigParts uuid ist = stigLines uuid (cklStig ist) := by
  have hvulns : vulnParts ist.head = fun r => ruleLines ist.head.title (cklRule r) :=
    funext (vulnParts_texts ist.head)
  simp only [istigParts, stigLines, cklStig, si_texts, List.flatMap_map, hvulns]

/-- **The `.ckl` is made of these texts**, and of nothing else of the rules. -/
theorem writeCkl_texts (uuids : ℕ → Uuid) (istigs : List IStig) (asset target : Text) :
    writeCkl uuids istigs asset target = cklOf uuids (istigs.map cklStig) asset target := by
  simp only [writeCkl, cklOf, List.zipIdx_map, List.flatMap_map, istigParts_texts, Prod.map]
  rfl

/-! ### Agreement -/

/-- A VULN and an entry of `rules` say the same, null counting as the empty text. -/
structure RulesAgree (c : CklRule) (b : CklbRule) : Prop where
  vulnNum : c.vulnNum = b.groupId
  severity : c.severity = b.severity
  ruleId : c.ruleId = b.ruleId
  ruleVer : c.ruleVer = b.ruleVersion
  ruleTitle : c.ruleTitle = b.ruleTitle.getD []
  checkContent : c.checkContent = b.checkContent.getD []
  fixText : c.fixText = b.fixText.getD []
  findingDetails : c.findingDetails = b.findingDetails
  comments : c.comments = b.comments.getD []
  ccis : c.ccis = b.ccis
  /-- not by the default of the lookup -/
  status : cklToCklb.lookup c.status = some b.status

/-- An iSTIG and an entry of `stigs` say the same. -/
structure StigsAgree (c : CklStig) (b : CklbStig) : Prop where
  version : c.version = b.version
  stigid : c.stigid = b.stigId
  title : c.title = b.stigName
  release : c.release = b.releaseInfo
  size : c.rules.length = b.size
  rules : List.Forall₂ RulesAgree c.rules b.rules

/-- The texts the scanner may leave null are given. -/
def Rule.Given (r : Rule) : Prop := r.ruleTitle ≠ none ∧ r.checkContent ≠ none ∧ r.fixText ≠ none

theorem str_eq_iff (x : Value) : str x = x.getD [] ↔ x ≠ none := by
  cases x with
  | none => exact ⟨fun h => absurd h (by decide), fun h => absurd rfl h⟩
  | some s => exact ⟨fun _ => Option.some_ne_none s, fun _ => rfl⟩

theorem status_lookup (s : Status) : ∃ b, cklToCklb.lookup s.text = some b := by
  cases s <;> exact ⟨_, rfl⟩

theorem rulesAgree_iff (r : Rule) : RulesAgree (cklRule r) (cklbRule r) ↔ r.Given := by
  constructor
  · intro h
    exact ⟨(str_eq_iff _).mp h.ruleTitle, (str_eq_iff _).mp h.checkContent, (str_eq_iff _).mp h.fixText⟩
  · rintro ⟨htitle, hcheck, hfix⟩
    obtain ⟨b, hb⟩ := status_lookup r.status
    exact ⟨rfl, rfl, rfl, rfl, (str_eq_iff _).mpr htitle, (str_eq_iff _).mpr hcheck,
      (str_eq_iff _).mpr hfix, rfl, orElse_nil_right _, rfl, by simp [cklRule, cklbRule, hb]⟩

theorem stigsAgree_iff (uuid : Uuid) (ist : IStig) :
    StigsAgree (cklStig ist) (cklbStig uuid ist) ↔ ∀ r ∈ ist.rules, r.Given := by
  have hrules : List.Forall₂ RulesAgree (cklStig ist).rules (cklbStig uuid ist).rules ↔
      ∀ r ∈ ist.rules, r.Given := by
    show List.Forall₂ RulesAgree (ist.rules.map cklRule) (ist.rules.map cklbRule) ↔ _
    rw [List.forall₂_map_left_iff, List.forall₂_map_right_iff, List.forall₂_same]
    simp only [rulesAgree_iff]
  refine ⟨fun h => hrules.mp h.rules, fun h => ⟨rfl, rfl, rfl, rfl, ?_, hrules.mpr h⟩⟩
  show (ist.rules.map cklRule).length = (ist.rules.map cklbRule).length
  rw [List.length_map, List.length_map]

/-- **The files agree** on every rule if and only if its title and its fix are given. -/
theorem forall_stigsAgree_iff (uuids : ℕ → Uuid) (uuid : Uuid) (generated asset target : Text) :
    List.Forall₂ StigsAgree (istigs.map cklStig)
        (writeCklb uuids uuid generated istigs asset target).stigs ↔
      ∀ ist ∈ istigs, ∀ r ∈ ist.rules, r.Given := by
  have hfst : istigs.map cklStig = istigs.zipIdx.map fun p => cklStig p.1 := by
    conv_lhs => rw [← List.zipIdx_map_fst 0 istigs, List.map_map]
    rfl
  unfold writeCklb
  rw [hfst, List.forall₂_map_left_iff, List.forall₂_map_right_iff, List.forall₂_same]
  simp only [stigsAgree_iff]
  constructor
  · intro h ist hist
    obtain ⟨i, hi⟩ := List.getElem?_of_mem hist
    exact h (ist, i) (List.mem_zipIdx_iff_getElem?.mpr hi)
  · intro h p hp
    exact h p.1 (List.mem_of_getElem? (List.mem_zipIdx_iff_getElem?.mp hp))

/-! ### When the texts are given -/

/-- The first finding of each control has no null title and no null fix. -/
def FirstsGiven (findings : List Finding) : Prop :=
  ∀ f ∈ findings, f.ctrl ≠ [] → findings.find? (·.ctrl = f.ctrl) = some f → f.title ≠ .null ∧ f.fix ≠ .null

theorem ruleFrom_given {key : StigKey} {vid : Text} {f : Finding} {fs : List Finding} :
    (ruleFrom U key vid f fs).Given ↔ f.title ≠ .null ∧ f.fix ≠ .null := by
  simp only [Rule.Given, ruleFrom, Field.get_ne_none, and_self]

theorem scanner_given {key : StigKey} {ist : IStig} (h : parseScannerJson U key findings = .ok ist) :
    (∀ r ∈ ist.rules, r.Given) ↔ FirstsGiven findings := by
  obtain ⟨-, hmem⟩ := rules_of_ok h
  constructor
  · intro hgiven f hf hne hfirst
    rw [← List.head?_filter] at hfirst
    obtain ⟨fs, hof⟩ := List.head?_eq_some_iff.mp hfirst
    exact ruleFrom_given.mp (hgiven _ ((hmem _).mpr ⟨f.ctrl, f, fs, hne, hof, rfl⟩))
  · intro hfirsts r hr
    obtain ⟨vid, f, fs, hne, hof, rfl⟩ := (hmem r).mp hr
    have hfirst : f ∈ ofControl findings vid := hof ▸ List.mem_cons_self ..
    obtain ⟨hf, rfl⟩ := mem_ofControl.mp hfirst
    refine ruleFrom_given.mpr (hfirsts f hf hne ?_)
    rw [← List.head?_filter]
    exact List.head?_eq_some_iff.mpr ⟨fs, hof⟩

/-- OpenSCAP leaves nothing null. -/
theorem oscap_given {dsmeta : List (Text × DsRule)} {naRules : List Text} {elements : List Element} :
    ∀ r ∈ (parseOscap U dsmeta naRules elements).rules, r.Given := by
  intro r hr
  obtain ⟨el, -, hel⟩ := List.mem_filterMap.mp hr
  unfold ruleOfElement at hel
  split_ifs at hel
  dsimp only at hel
  split_ifs at hel
  all_goals
    obtain rfl := Option.some.inj hel
    exact ⟨Option.some_ne_none _, Option.some_ne_none _, Option.some_ne_none _⟩

/-- One scanner's file, or none. -/
theorem optional_given {key : StigKey} {o : Option (List Finding)} {l : List IStig}
    (h : o.toList.mapM (parseScannerJson U key) = .ok l) :
    (∀ ist ∈ l, ∀ r ∈ ist.rules, r.Given) ↔ ∀ findings, o = some findings → FirstsGiven findings := by
  have hall := Lists.mapM_eq_ok.mp h
  cases o with
  | none =>
    cases hall
    simp
  | some findings =>
    obtain ⟨ist, l', hist, hl', rfl⟩ := List.forall₂_cons_left_iff.mp hall
    cases hl'
    simpa using scanner_given hist

/-- The iSTIGs of a run: those of OpenSCAP, of the API scanner, of the ASD scanner. -/
theorem consolidate_ok (h : consolidate U inputs = .ok istigs) : ∃ oscap api asd,
    (∀ ist ∈ oscap, ∃ o, inputs.oscap = some o ∧ ist = parseOscap U o.dsmeta o.naRules o.elements) ∧
    inputs.api.toList.mapM (parseScannerJson U .api) = .ok api ∧
    inputs.asd.toList.mapM (parseScannerJson U .asd) = .ok asd ∧ istigs = oscap ++ api ++ asd := by
  have hnonempty : ∀ {l : List IStig} {e : Error},
      (if l.isEmpty then .error e else .ok l : Except Error (List IStig)) = .ok istigs → istigs = l := by
    intro l e h
    by_cases hl : l.isEmpty
    · simp [hl] at h
    · simpa [hl, eq_comm] using h
  obtain ⟨api, hapi, h⟩ := Lists.bind_eq_ok h
  obtain ⟨asd, hasd, h⟩ := Lists.bind_eq_ok h
  refine ⟨_, api, asd, fun ist hist => ?_, hapi, hasd, hnonempty h⟩
  cases ho : inputs.oscap with
  | none =>
    rw [ho] at hist
    cases hist
  | some o =>
    rw [ho] at hist
    dsimp only at hist
    split at hist
    · cases hist
    · exact ⟨o, rfl, List.mem_singleton.mp hist⟩

/-- **The two files agree** if and only if the first finding of each control, in both scanners' files,
has no null title and no null fix. -/
theorem writers_agree_iff (h : consolidate U inputs = .ok istigs) (uuids uuids' : ℕ → Uuid) (uuid : Uuid)
    (generated asset target : Text) :
    writeCkl uuids istigs asset target = cklOf uuids (istigs.map cklStig) asset target ∧
      (List.Forall₂ StigsAgree (istigs.map cklStig)
          (writeCklb uuids' uuid generated istigs asset target).stigs ↔
        ∀ findings, inputs.api = some findings ∨ inputs.asd = some findings → FirstsGiven findings) := by
  refine ⟨writeCkl_texts .., (forall_stigsAgree_iff uuids' uuid generated asset target).trans ?_⟩
  obtain ⟨oscap, api, asd, hoscap, hapi, hasd, rfl⟩ := consolidate_ok h
  have hgiven : ∀ ist ∈ oscap, ∀ r ∈ ist.rules, r.Given := by
    intro ist hist
    obtain ⟨o, -, rfl⟩ := hoscap ist hist
    exact oscap_given
  simp only [List.mem_append, or_imp, forall_and, optional_given hapi, optional_given hasd]
  exact and_congr_left fun _ => and_iff_right hgiven

end SecureLedger.Checklist

/-! ### On a sample -/

namespace SecureLedger.Checklist.Sample

open Py

/-- The findings of one scanner, and an OpenSCAP result with a failure. -/
def inputsOf (findings : List Finding) : Inputs where
  oscap := some {
    elements := [⟨lit "rule-result", some (lit "xccdf_content_rule_sshd"), some (lit "medium"),
      [⟨lit "result", some (lit "fail"), none⟩]⟩]
    dsmeta := []
    naRules := [] }
  api := some findings
  asd := none

theorem mixed_agree : ∃ istigs, consolidate ascii (inputsOf mixed) = .ok istigs ∧ istigs.length = 2 ∧
    List.Forall₂ StigsAgree (istigs.map cklStig)
      (writeCklb (fun _ => uuid) uuid [] istigs (lit "app") []).stigs := by
  obtain ⟨istigs, h⟩ : ∃ istigs, consolidate ascii (inputsOf mixed) = .ok istigs := ⟨_, rfl⟩
  have hlength : (consolidate ascii (inputsOf mixed)).toOption.map List.length = some 2 := by decide +kernel
  rw [h] at hlength
  refine ⟨istigs, h, by simpa [Except.toOption] using hlength,
    (writers_agree_iff h (fun _ => uuid) _ _ _ _ _).2.mpr ?_⟩
  rintro findings (hf | hf)
  · cases hf
    unfold FirstsGiven
    decide +kernel
  · cases hf

/-- A finding with a null title and a null fix. -/
def untitled : Finding := { finding "V-1" "fail" "no exp" with title := .null, fix := .null }

def untitledStigs : List IStig := [⟨stigMeta .api, [ruleFrom ascii .api (lit "V-1") untitled [untitled]]⟩]

/-- The one file has the word "None", the other has null. -/
theorem untitled_none : consolidate ascii ⟨none, some [untitled], none⟩ = .ok untitledStigs ∧
    (untitledStigs.map cklStig).map (fun c => c.rules.map fun c => (c.ruleTitle, c.fixText, c.comments)) =
      [[(lit "None", lit "None", [])]] ∧
    (writeCklb (fun _ => uuid) uuid [] untitledStigs (lit "app") []).stigs.map
      (fun b => b.rules.map fun b => (b.ruleTitle, b.fixText, b.comments)) = [[(none, none, none)]] ∧
    ¬ List.Forall₂ StigsAgree (untitledStigs.map cklStig)
      (writeCklb (fun _ => uuid) uuid [] untitledStigs (lit "app") []).stigs := by
  refine ⟨by decide +kernel, by decide +kernel, by decide +kernel, ?_⟩
  rw [forall_stigsAgree_iff]
  intro h
  exact (ruleFrom_given.mp (h _ (List.mem_singleton_self _) _ (List.mem_singleton_self _))).1 rfl

end SecureLedger.Checklist.Sample
