import SecureLedger.Checklist.Readback
import SecureLedger.Checklist.Verdicts
import Mathlib.Data.List.Find

/-!
# Checklist.Faithful — when the `.ckl` says what it was given

`write_ckl` escapes the three characters markup is made of and nothing else, so that the file is
readable and gives back the rules exactly if no text holds what XML excludes, and none of those given
back a carriage return (`ckl_faithful_iff`).
-/

namespace SecureLedger.Checklist

open Py Xml

variable {U : Unicode} {istigs : List IStig} {asset target : Text}

/-! ### Looking a rule up -/

theorem lit_inj {a b : String} : lit a = lit b ↔ a = b := by
  have hcode : Function.Injective code := by
    intro c d h
    exact Char.toNat_inj.mp (Fin.mk.inj h)
  rw [lit, lit, List.map_inj_right fun c d h => hcode h, String.toList_inj]

/-- The nodes inside the STIG_DATA of an attribute. -/
def dataContent (d : String × Value) : List Node :=
  [.elem (lit "VULN_ATTRIBUTE") (chars (lit d.1)), .elem (lit "ATTRIBUTE_DATA") (chars (str d.2))]

theorem childText_dataContent (d : String × Value) :
    childText "VULN_ATTRIBUTE" (dataContent d) = some (normalize false (lit d.1)) ∧
      childText "ATTRIBUTE_DATA" (dataContent d) = some (normalize false (str d.2)) := by
  have hne : lit "VULN_ATTRIBUTE" ≠ lit "ATTRIBUTE_DATA" := by decide
  simp [childText, dataContent, chars, hne]

theorem childrenOf_unlines (name : Text) (nodes : List (List Node)) :
    childrenOf name (unlinesNodes nodes) = nodes.flatMap (childrenOf name) := by
  unfold unlinesNodes newline
  rw [childrenOf_flatMap]
  simp only [childrenOf_append, childrenOf_char, childrenOf_nil, List.append_nil]

/-- The elements of a name in a VULN: a STIG_DATA for each attribute, then the rest. -/
theorem childrenOf_vuln (name : Text) (m : StigMeta) (r : Rule) : childrenOf name (vulnNodes m r) =
    ((vulnData m r).flatMap fun d => if lit "STIG_DATA" = name then [dataContent d] else []) ++
      childrenOf name [.elem (lit "STATUS") (chars r.status.text),
        .elem (lit "FINDING_DETAILS") (chars r.findingDetails),
        .elem (lit "COMMENTS") (chars (orElse r.comments [])),
        .elem (lit "SEVERITY_OVERRIDE") [], .elem (lit "SEVERITY_JUSTIFICATION") []] := by
  have hnewline : childrenOf name [newline] = [] := rfl
  unfold vulnNodes
  rw [childrenOf_append, childrenOf_append, childrenOf_unlines, childrenOf_unlines, hnewline,
    List.nil_append, List.flatMap_map]
  congr 1
  · apply List.flatMap_congr
    intro d _
    exact childrenOf_elem
  · simp only [List.flatMap_cons, List.flatMap_nil, List.append_nil, ← childrenOf_append]
    rfl

theorem childrenOf_data (m : StigMeta) (r : Rule) :
    childrenOf (lit "STIG_DATA") (vulnNodes m r) = (vulnData m r).map dataContent := by
  have hnames : lit "STATUS" ≠ lit "STIG_DATA" ∧ lit "FINDING_DETAILS" ≠ lit "STIG_DATA" ∧
      lit "COMMENTS" ≠ lit "STIG_DATA" ∧ lit "SEVERITY_OVERRIDE" ≠ lit "STIG_DATA" ∧
      lit "SEVERITY_JUSTIFICATION" ≠ lit "STIG_DATA" := by decide
  rw [childrenOf_vuln]
  simp only [childrenOf_elem, childrenOf_nil, hnames, if_true, if_false, List.append_nil]
  exact List.flatMap_pure_eq_map ..

/-- The value of an attribute is what the writer gave it first, up to line ends. -/
theorem vulnAttribute_eq {attr : String} (m : StigMeta) (r : Rule) :
    vulnAttribute attr (vulnNodes m r) =
      ((vulnData m r).find? (·.1 = attr)).map fun d => normalize false (str d.2) := by
  have hfind : (vulnData m r).find? ((fun data => decide (childText "VULN_ATTRIBUTE" data =
      some (lit attr))) ∘ dataContent) = (vulnData m r).find? (·.1 = attr) := by
    refine List.find?_congr fun d hd => decide_eq_decide.mpr ?_
    rw [(childText_dataContent d).1, (attr_plain (mem_vulnAttrs hd)).2.2, Option.some_inj, lit_inj]
  unfold vulnAttribute
  rw [childrenOf_data, List.find?_map, hfind]
  cases (vulnData m r).find? (·.1 = attr) with
  | none => rfl
  | some d => exact (childText_dataContent d).2

theorem childText_tail (m : StigMeta) (r : Rule) :
    childText "STATUS" (vulnNodes m r) = some (normalize false r.status.text) ∧
    childText "FINDING_DETAILS" (vulnNodes m r) = some (normalize false r.findingDetails) ∧
    childText "COMMENTS" (vulnNodes m r) = some (normalize false (orElse r.comments [])) := by
  have hdata : lit "STIG_DATA" ≠ lit "STATUS" ∧ lit "STIG_DATA" ≠ lit "FINDING_DETAILS" ∧
      lit "STIG_DATA" ≠ lit "COMMENTS" := by decide
  have hnames : lit "STATUS" ≠ lit "FINDING_DETAILS" ∧ lit "STATUS" ≠ lit "COMMENTS" ∧
      lit "FINDING_DETAILS" ≠ lit "COMMENTS" := by decide
  have hnil : (vulnData m r).flatMap (fun _ => ([] : List (List Node))) = [] :=
    List.flatMap_eq_nil_iff.mpr fun _ _ => rfl
  unfold childText
  simp only [childrenOf_vuln, hdata, hnames, if_false, hnil, List.nil_append, childrenOf_elem, if_true,
    List.head?_cons, Option.map_some, Xml.textOf_chars, chars, and_self]

/-! ### What is found of a rule -/

/-- Up to line ends, what is found is what was given. -/
theorem readVuln_eq (m : StigMeta) (r : Rule) : readVuln (vulnNodes m r) = {
    vulnNum := normalize false r.vulnNum
    severity := r.severity.text
    ruleId := normalize false r.ruleId
    ruleTitle := normalize false (str r.ruleTitle)
    status := r.status.text
    findingDetails := normalize false r.findingDetails
    comments := normalize false (orElse r.comments []) } := by
  obtain ⟨hstatus, hdetails, hcomments⟩ := childText_tail m r
  rw [(status_text r.status).2] at hstatus
  simp only [readVuln, vulnAttribute_eq, hstatus, hdetails, hcomments]
  have hseverity := (severity_text r.severity).2
  simp [vulnData, str, hseverity]

theorem vulnsOf_checklist (uuids : ℕ → Uuid) (istigs : List IStig) (asset target : Text) :
    vulnsOf (.elem (lit "CHECKLIST") (checklistNodes uuids istigs asset target)) =
      istigs.flatMap fun ist => ist.rules.map fun r => readVuln (vulnNodes ist.head r) := by
  have hnames : lit "ASSET" ≠ lit "STIGS" ∧ lit "STIG_INFO" ≠ lit "VULN" := by decide
  have hvulns : ∀ uuid (ist : IStig), childrenOf (lit "VULN") (istigNodes uuid ist) =
      ist.rules.map (vulnNodes ist.head) := by
    intro uuid ist
    simp only [istigNodes, newline, childrenOf_append, childrenOf_char, childrenOf_elem, childrenOf_nil,
      childrenOf_flatMap, hnames, if_false, if_true, List.nil_append]
    exact List.flatMap_pure_eq_map ..
  simp only [vulnsOf, checklistNodes, newline, childrenOf_append, childrenOf_char, childrenOf_elem,
    childrenOf_nil, childrenOf_flatMap, hnames, if_false, if_true, List.nil_append, List.flatMap_cons,
    List.flatMap_nil, List.append_nil, List.flatMap_assoc, hvulns, List.map_map]
  conv_rhs => rw [← List.zipIdx_map_fst 0 istigs, List.flatMap_map]
  rfl

/-! ### Rules of scanner findings -/

/-- An iSTIG of findings whose title and fix are strings where they are given. -/
def FromScanner (U : Unicode) (ist : IStig) : Prop :=
  ∃ key findings, (∀ f ∈ findings, f.title ≠ .null ∧ f.fix ≠ .null) ∧
    parseScannerJson U key findings = .ok ist

/-- Nothing that XML excludes, and no line end that is read as another one. -/
def Plain (s : Text) : Prop := XmlText s ∧ code '\r' ∉ s

/-- The texts of a rule the scanner has a say in are plain. -/
structure Rule.Clean (r : Rule) : Prop where
  vulnNum : Plain r.vulnNum
  ruleTitle : Plain (str r.ruleTitle)
  findingDetails : Plain r.findingDetails
  fixText : Plain (str r.fixText)

/-- How the texts of a scanner's rule depend on each other. -/
structure Rule.Scanned (r : Rule) : Prop where
  ruleId : r.ruleId = r.vulnNum ++ lit "r1_rule"
  ruleVer : r.ruleVer = r.vulnNum
  ruleTitle : r.ruleTitle ≠ none
  fixText : r.fixText ≠ none
  comments : r.comments = r.fixText
  checkContent : r.checkContent = r.fixText
  ccis : r.ccis = []

theorem scanned {ist : IStig} (h : FromScanner U ist) :
    (∃ key, ist.head = stigMeta key) ∧ ∀ r ∈ ist.rules, r.Scanned := by
  obtain ⟨key, findings, hnull, hparse⟩ := h
  obtain ⟨hhead, hmem⟩ := rules_of_ok hparse
  refine ⟨⟨key, hhead⟩, fun r hr => ?_⟩
  obtain ⟨vid, f, fs, -, hof, rfl⟩ := (hmem r).mp hr
  have hfirst : f ∈ ofControl findings vid := hof ▸ List.mem_cons_self ..
  obtain ⟨htitle, hfix⟩ := hnull f (mem_ofControl.mp hfirst).1
  exact ⟨rfl, rfl, Field.get_ne_none.mpr htitle, Field.get_ne_none.mpr hfix, rfl, rfl, rfl⟩

/-! ### Every text is in the file -/

theorem mem_join {sep p : Text} {c : Code} {l : List Text} (hp : p ∈ l) (hc : c ∈ p) : c ∈ join sep l := by
  have hinfix : join sep [p] <:+: join sep l := by
    obtain ⟨pre, post, rfl⟩ := List.append_of_mem hp
    exact join_infix sep (List.cons_ne_nil _ _) ⟨pre, post, by simp⟩
  exact hinfix.subset (by simpa [join] using hc)

theorem mem_stigData {attr : String} {val : Value} {c : Code} (hc : c ∈ Xml.escape (str val)) :
    c ∈ stigData attr val := by
  unfold stigData
  rw [esc_some, Checklist.escape]
  exact List.mem_append_left _ (List.mem_append_right _ hc)

theorem vulnParts_cons (m : StigMeta) (r : Rule) : vulnParts m r =
    lit "<VULN>" :: (vulnData m r).map (fun d => stigData d.1 d.2) ++
      [lit "<STATUS>" ++ r.status.text ++ lit "</STATUS>",
        lit "<FINDING_DETAILS>" ++ esc r.findingDetails ++ lit "</FINDING_DETAILS>",
        lit "<COMMENTS>" ++ esc r.comments ++ lit "</COMMENTS>",
        lit "<SEVERITY_OVERRIDE/><SEVERITY_JUSTIFICATION/>", lit "</VULN>"] := by
  simp [vulnParts, vulnData]

/-- Each text of a rule stands escaped in one of its lines. -/
theorem mem_vulnParts {m : StigMeta} {r : Rule} {s : Text} (hs : s ∈ r.texts m) :
    ∃ p ∈ vulnParts m r, ∀ c ∈ Xml.escape s, c ∈ p := by
  have hcases : (∃ d ∈ vulnData m r, s = str d.2) ∨ s = r.findingDetails ∨ s = orElse r.comments [] := by
    have hdata : (vulnData m r).map (fun d => str d.2) = [r.vulnNum, r.severity.text, str r.ruleTitle,
        r.ruleId, r.ruleVer, str r.ruleTitle, str r.checkContent, str r.checkContent, str r.fixText,
        m.title] ++ r.ccis := by
      simp [vulnData, str, Function.comp_def]
    rcases List.mem_append.mp hs with hs | hs
    · have hs : s ∈ (vulnData m r).map fun d => str d.2 := by
        rw [hdata]
        simp only [List.mem_append, List.mem_cons, List.not_mem_nil, or_false] at hs ⊢
        tauto
      obtain ⟨d, hd, rfl⟩ := List.mem_map.mp hs
      exact .inl ⟨d, hd, rfl⟩
    · simpa using Or.inr hs
  rw [vulnParts_cons]
  rcases hcases with ⟨d, hd, rfl⟩ | rfl | rfl
  · refine ⟨stigData d.1 d.2, ?_, fun c => mem_stigData⟩
    exact List.mem_append_left _ (List.mem_cons_of_mem _ (List.mem_map_of_mem hd))
  · refine ⟨lit "<FINDING_DETAILS>" ++ esc r.findingDetails ++ lit "</FINDING_DETAILS>", by simp,
      fun c hc => ?_⟩
    rw [← Checklist.escape, ← esc_some] at hc
    exact List.mem_append_left _ (List.mem_append_right _ hc)
  · refine ⟨lit "<COMMENTS>" ++ esc r.comments ++ lit "</COMMENTS>", by simp, fun c hc => ?_⟩
    exact List.mem_append_left _ (List.mem_append_right _ hc)

/-- A file that is read has texts of XML characters only. -/
theorem texts_of_read {uuids : ℕ → Uuid} {doc : Node}
    (h : Xml.read (writeCkl uuids istigs asset target) = some doc) :
    XmlText asset ∧ XmlText target ∧ ∀ ist ∈ istigs, ∀ r ∈ ist.rules, RuleText ist.head r := by
  have hall := isChar_of_read h
  have hpart : ∀ p ∈ headParts asset target ++ istigs.zipIdx.flatMap (fun p => istigParts (uuids p.2) p.1),
      XmlText p := fun p hp c hc => hall c (mem_join (List.mem_append_left _ hp) hc)
  have hescaped : ∀ {s p : Text}, XmlText p → (∀ c ∈ Xml.escape s, c ∈ p) → XmlText s :=
    fun hp hs => isChar_of_escape fun c hc => hp c (hs c hc)
  refine ⟨hescaped (hpart (lit "<HOST_NAME>" ++ esc (some asset) ++ lit "</HOST_NAME>") ?_) ?_,
    hescaped (hpart (lit "<HOST_FQDN>" ++ esc (some target) ++ lit "</HOST_FQDN>") ?_) ?_,
    fun ist hist r hr s hs => ?_⟩
  · exact List.mem_append_left _ (by simp [headParts])
  · intro c hc
    rw [← Checklist.escape, ← esc_some] at hc
    exact List.mem_append_left _ (List.mem_append_right _ hc)
  · exact List.mem_append_left _ (by simp [headParts])
  · intro c hc
    rw [← Checklist.escape, ← esc_some] at hc
    exact List.mem_append_left _ (List.mem_append_right _ hc)
  · obtain ⟨p, hp, hs⟩ := mem_vulnParts hs
    obtain ⟨i, hi⟩ := List.getElem?_of_mem hist
    refine hescaped (hpart p (List.mem_append_right _ ?_)) hs
    refine List.mem_flatMap.mpr ⟨(ist, i), List.mem_zipIdx_iff_getElem?.mpr hi, ?_⟩
    exact List.mem_append_left _ (List.mem_append_right _ (List.mem_flatMap.mpr ⟨r, hr, hp⟩))

/-! ### The file is faithful -/

/-- The file is a document, and every VULN in order holds what the rule does. -/
def Faithful (uuids : ℕ → Uuid) (istigs : List IStig) (asset target : Text) : Prop :=
  ∃ doc, Xml.read (writeCkl uuids istigs asset target) = some doc ∧
    vulnsOf doc = istigs.flatMap fun ist => ist.rules.map vulnOf

theorem readVuln_eq_iff {m : StigMeta} {r : Rule} (hr : r.Scanned) : readVuln (vulnNodes m r) = vulnOf r ↔
    code '\r' ∉ r.vulnNum ∧ code '\r' ∉ str r.ruleTitle ∧ code '\r' ∉ r.findingDetails ∧
      code '\r' ∉ str r.fixText := by
  obtain ⟨title, htitle⟩ := Option.ne_none_iff_exists'.mp hr.ruleTitle
  obtain ⟨fix, hfix⟩ := Option.ne_none_iff_exists'.mp hr.fixText
  have hid : code '\r' ∉ r.vulnNum → normalize false r.ruleId = r.ruleId := by
    intro h
    have hcr : code '\r' ∉ lit "r1_rule" := by decide
    rw [hr.ruleId]
    exact normalize_eq_self.mpr fun hmem => (List.mem_append.mp hmem).elim h hcr
  rw [readVuln_eq, ← normalize_eq_self, ← normalize_eq_self, ← normalize_eq_self, ← normalize_eq_self]
  rw [← normalize_eq_self] at hid
  unfold vulnOf
  rw [hr.comments, htitle, hfix, orElse_nil_right]
  simp only [Vuln.mk.injEq, Option.some_inj, str, Option.getD_some, true_and]
  constructor
  · rintro ⟨hnum, -, htitle, hdetails, hcomments⟩
    exact ⟨hnum, htitle, hdetails, hcomments⟩
  · rintro ⟨hnum, htitle, hdetails, hcomments⟩
    exact ⟨hnum, hid hnum, htitle, hdetails, hcomments⟩

theorem xmlText_append {s t : Text} (hs : XmlText s) (ht : XmlText t) : XmlText (s ++ t) :=
  fun c hc => (List.mem_append.mp hc).elim (hs c) (ht c)

theorem stigMeta_text (key : StigKey) : XmlText (stigMeta key).version ∧ XmlText (stigMeta key).stigid ∧
    XmlText (stigMeta key).title ∧ XmlText (stigMeta key).release := by
  have hall : ∀ s ∈ [(stigMeta key).version, (stigMeta key).stigid, (stigMeta key).title,
      (stigMeta key).release], s.all isChar := by cases key <;> decide +kernel
  exact ⟨List.all_eq_true.mp (hall _ (by simp)), List.all_eq_true.mp (hall _ (by simp)),
    List.all_eq_true.mp (hall _ (by simp)), List.all_eq_true.mp (hall _ (by simp))⟩

/-- A scanner's rule has no other texts than its own four and the fixed ones. -/
theorem ruleText_of_clean {key : StigKey} {r : Rule} (hr : r.Scanned) (hclean : r.Clean) :
    RuleText (stigMeta key) r := by
  have hid : XmlText r.ruleId := by
    have hlit : (lit "r1_rule").all isChar := by decide
    rw [hr.ruleId]
    exact xmlText_append hclean.vulnNum.1 (List.all_eq_true.mp hlit)
  have hcomments : XmlText (orElse r.comments []) := by
    obtain ⟨fix, hfix⟩ := Option.ne_none_iff_exists'.mp hr.fixText
    have := hclean.fixText.1
    rw [hr.comments, orElse_nil_right]
    rwa [hfix] at this ⊢
  intro s hs
  simp only [Rule.texts, hr.ccis, hr.ruleVer, hr.checkContent, List.append_nil, List.mem_append,
    List.mem_cons, List.not_mem_nil, or_false] at hs
  rcases hs with (rfl | rfl | rfl | rfl | rfl | rfl | rfl | rfl) | rfl | rfl
  · exact hclean.vulnNum.1
  · exact (severity_text r.severity).1
  · exact hclean.ruleTitle.1
  · exact hid
  · exact hclean.vulnNum.1
  · exact hclean.fixText.1
  · exact hclean.fixText.1
  · exact (stigMeta_text key).2.2.1
  · exact hclean.findingDetails.1
  · exact hcomments

/-- The rules of several iSTIGs agree if each does. -/
theorem flatMap_rules_inj {β : Type} {f g : IStig → Rule → β} :
    (istigs.flatMap fun ist => ist.rules.map (f ist)) = (istigs.flatMap fun ist => ist.rules.map (g ist)) ↔
      ∀ ist ∈ istigs, ∀ r ∈ ist.rules, f ist r = g ist r := by
  have hpairs : ∀ f : IStig → Rule → β, (istigs.flatMap fun ist => ist.rules.map (f ist)) =
      (istigs.flatMap fun ist => ist.rules.map (ist, ·)).map fun p => f p.1 p.2 := by
    intro f
    simp only [List.map_flatMap, List.map_map, Function.comp_def]
  rw [hpairs f, hpairs g, List.map_inj_left]
  constructor
  · intro h ist hist r hr
    exact h (ist, r) (List.mem_flatMap.mpr ⟨ist, hist, List.mem_map_of_mem hr⟩)
  · intro h p hp
    obtain ⟨ist, hist, hp⟩ := List.mem_flatMap.mp hp
    obtain ⟨r, hr, rfl⟩ := List.mem_map.mp hp
    exact h ist hist r hr

/-- **The file is faithful** if and only if every text in it holds what XML has a character for, and
the texts to be given back hold no carriage return. -/
theorem ckl_faithful_iff (uuids : ℕ → Uuid) (h : ∀ ist ∈ istigs, FromScanner U ist) :
    Faithful uuids istigs asset target ↔
      XmlText asset ∧ XmlText target ∧ ∀ ist ∈ istigs, ∀ r ∈ ist.rules, r.Clean := by
  have htext : (∀ ist ∈ istigs, ∀ r ∈ ist.rules, RuleText ist.head r) → ∀ ist ∈ istigs, IStigText ist := by
    intro hrules ist hist
    obtain ⟨⟨key, hkey⟩, -⟩ := scanned (h ist hist)
    obtain ⟨hversion, hstigid, htitle, hrelease⟩ := stigMeta_text key
    rw [← hkey] at hversion hstigid htitle hrelease
    exact ⟨hversion, hstigid, htitle, hrelease, hrules ist hist⟩
  -- what is found in a file that is read
  have hfound : XmlText asset → XmlText target → (∀ ist ∈ istigs, ∀ r ∈ ist.rules, RuleText ist.head r) →
      (Faithful uuids istigs asset target ↔
        ∀ ist ∈ istigs, ∀ r ∈ ist.rules, readVuln (vulnNodes ist.head r) = vulnOf r) := by
    intro hasset htarget hrules
    rw [← flatMap_rules_inj, ← vulnsOf_checklist uuids istigs asset target]
    unfold Faithful
    rw [read_writeCkl uuids hasset htarget (htext hrules)]
    simp only [Option.some_inj, exists_eq_left']
  constructor
  · intro hfaithful
    obtain ⟨doc, hread, -⟩ := id hfaithful
    obtain ⟨hasset, htarget, hrules⟩ := texts_of_read hread
    refine ⟨hasset, htarget, fun ist hist r hr => ?_⟩
    have hvuln := (hfound hasset htarget hrules).mp hfaithful ist hist r hr
    obtain ⟨hnum, htitle, hdetails, hfix⟩ := (readVuln_eq_iff ((scanned (h ist hist)).2 r hr)).mp hvuln
    have hr := hrules ist hist r hr
    exact ⟨⟨hr _ (by simp [Rule.texts]), hnum⟩, ⟨hr _ (by simp [Rule.texts]), htitle⟩,
      ⟨hr _ (by simp [Rule.texts]), hdetails⟩, ⟨hr _ (by simp [Rule.texts]), hfix⟩⟩
  · rintro ⟨hasset, htarget, hclean⟩
    have hrules : ∀ ist ∈ istigs, ∀ r ∈ ist.rules, RuleText ist.head r := by
      intro ist hist r hr
      obtain ⟨⟨key, hkey⟩, hscanned⟩ := scanned (h ist hist)
      rw [hkey]
      exact ruleText_of_clean (hscanned r hr) (hclean ist hist r hr)
    apply (hfound hasset htarget hrules).mpr
    intro ist hist r hr
    have hr' := hclean ist hist r hr
    exact (readVuln_eq_iff ((scanned (h ist hist)).2 r hr)).mpr
      ⟨hr'.vulnNum.2, hr'.ruleTitle.2, hr'.findingDetails.2, hr'.fixText.2⟩

end SecureLedger.Checklist

/-! ### On a sample -/

namespace SecureLedger.Checklist.Sample

open Py Xml

/-- The iSTIG of one finding with these details. -/
def detailed (details : String) : IStig :=
  let f := finding "V-1" "fail" details
  ⟨stigMeta .api, [ruleFrom ascii .api (lit "V-1") f [f]]⟩

theorem detailed_scanner {details : String}
    (h : parseScannerJson ascii .api [finding "V-1" "fail" details] = .ok (detailed details)) :
    FromScanner ascii (detailed details) := by
  refine ⟨.api, _, fun f hf => ?_, h⟩
  obtain rfl := List.mem_singleton.mp hf
  exact ⟨Py.Field.noConfusion, Py.Field.noConfusion⟩

/-- Markup and references in the evidence are given back as they were. -/
theorem markup_faithful :
    Faithful (fun _ => uuid) [detailed "<b>&lt; ]]> \t</b>"] (lit "R&D <1>") (lit "http://app/?a=1&b=2") := by
  have hchars : ∀ s ∈ [lit "R&D <1>", lit "http://app/?a=1&b=2"], s.all isChar := by decide
  refine (ckl_faithful_iff (U := ascii) _ ?_).mpr ⟨List.all_eq_true.mp (hchars _ (by simp)),
    List.all_eq_true.mp (hchars _ (by simp)), ?_⟩
  · intro ist hist
    obtain rfl := List.mem_singleton.mp hist
    exact detailed_scanner (by decide +kernel)
  · intro ist hist r hr
    obtain rfl := List.mem_singleton.mp hist
    obtain rfl := List.mem_singleton.mp hr
    have hplain : ∀ s : Text, s.all isChar && code '\r' ∉ s → Plain s := by
      intro s hs
      rw [Bool.and_eq_true, decide_eq_true_eq] at hs
      exact ⟨List.all_eq_true.mp hs.1, hs.2⟩
    exact ⟨hplain _ (by decide +kernel), hplain _ (by decide +kernel), hplain _ (by decide +kernel),
      hplain _ (by decide +kernel)⟩

/-- An escape sequence for a terminal in the evidence, and the file is not XML. -/
theorem escape_unread : FromScanner ascii (detailed "\x1b[31mdenied") ∧
    Xml.read (writeCkl (fun _ => uuid) [detailed "\x1b[31mdenied"] (lit "app") (lit "")) = none ∧
    ¬ Faithful (fun _ => uuid) [detailed "\x1b[31mdenied"] (lit "app") (lit "") := by
  have hread : Xml.read (writeCkl (fun _ => uuid) [detailed "\x1b[31mdenied"] (lit "app") (lit "")) = none := by
    by_contra hread
    obtain ⟨doc, hdoc⟩ := Option.ne_none_iff_exists'.mp hread
    obtain ⟨-, -, hrules⟩ := texts_of_read hdoc
    have hdetails := hrules _ (List.mem_singleton_self _) _ (List.mem_singleton_self _)
      (lit "[FAIL] /api/tasks: \x1b[31mdenied") (by decide +kernel)
    exact absurd (hdetails ⟨0x1b, by decide⟩ (by decide)) (by decide)
  refine ⟨detailed_scanner (by decide +kernel), hread, ?_⟩
  rintro ⟨doc, hdoc, -⟩
  rw [hread] at hdoc
  cases hdoc

end SecureLedger.Checklist.Sample
