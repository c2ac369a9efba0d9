import SecureLedger.Checklist.Writers
import Mathlib.Data.List.Forall2

/-!
# Checklist.Readback — reading the `.ckl` back

The lines `write_ckl` joins are the elements of a document: each text is escaped into one element, so
that the file is read as the tree `checklistNodes` if its texts are made of XML characters
(`read_writeCkl`).  `vulnsOf` is what a reader looks up in that tree.
-/

namespace SecureLedger.Checklist

open Py Xml

/-! ### What a reader finds -/

/-- The data of a VULN; `none` for what it does not have. -/
structure Vuln where
  vulnNum : Value
  severity : Value
  ruleId : Value
  ruleTitle : Value
  status : Value
  findingDetails : Value
  comments : Value
  deriving DecidableEq, Repr

/-- The text of the first child of a name. -/
def childText (name : String) (content : List Node) : Value :=
  (childrenOf (lit name) content).head?.map textOf

/-- The data of the first STIG_DATA with this attribute. -/
def vulnAttribute (attr : String) (vuln : List Node) : Value :=
  ((childrenOf (lit "STIG_DATA") vuln).find? fun data =>
    childText "VULN_ATTRIBUTE" data = some (lit attr)).bind (childText "ATTRIBUTE_DATA")

def readVuln (vuln : List Node) : Vuln where
  vulnNum := vulnAttribute "Vuln_Num" vuln
  severity := vulnAttribute "Severity" vuln
  ruleId := vulnAttribute "Rule_ID" vuln
  ruleTitle := vulnAttribute "Rule_Title" vuln
  status := childText "STATUS" vuln
  findingDetails := childText "FINDING_DETAILS" vuln
  comments := childText "COMMENTS" vuln

/-- The VULNs of a checklist, in order. -/
def vulnsOf : Node → List Vuln
  | .char _ => []
  | .elem _ content =>
    (childrenOf (lit "STIGS") content).flatMap fun stigs =>
      (childrenOf (lit "iSTIG") stigs).flatMap fun ist =>
        (childrenOf (lit "VULN") ist).map readVuln

/-- What is to be found of a rule. -/
def vulnOf (r : Rule) : Vuln where
  vulnNum := r.vulnNum
  severity := r.severity.text
  ruleId := r.ruleId
  ruleTitle := r.ruleTitle
  status := r.status.text
  findingDetails := r.findingDetails
  comments := r.comments

/-! ### The texts of the file -/

/-- The texts of a rule that go into the file. -/
def Rule.texts (m : StigMeta) (r : Rule) : List Text :=
  [r.vulnNum, r.severity.text, str r.ruleTitle, r.ruleId, r.ruleVer, str r.checkContent, str r.fixText,
    m.title] ++ r.ccis ++ [r.findingDetails, orElse r.comments []]

/-- A text of XML characters. -/
def XmlText (s : Text) : Prop := ∀ c ∈ s, isChar c

/-! ### Reading each piece -/

/-- The nodes of a text. -/
def chars (s : Text) : List Node := (normalize false s).map .char

def newline : Node := .char (code '\n')

/-- An element with escaped text. -/
def tag (name : String) (s : Text) : Text := openTag (lit name) ++ Xml.escape s ++ closeTag (lit name)

def leaf (name : String) : Text := emptyTag (lit name)

/-- Lines, each with its line break. -/
def unlines (parts : List Text) : Text := parts.flatMap (· ++ lit "\n")

def unlinesNodes (nodes : List (List Node)) : List Node := nodes.flatMap (· ++ [newline])

theorem adds_tag {name : String} {s : Text} (hname : isName (lit name)) (hs : XmlText s) :
    Adds (tag name s) [.elem (lit name) (chars s)] := .textElement hname hs

theorem adds_leaf {name : String} (hname : isName (lit name)) : Adds (leaf name) [.elem (lit name) []] :=
  .empty hname

theorem adds_unlines (parts : List Text) {nodes : List (List Node)} (h : List.Forall₂ Adds parts nodes) :
    Adds (unlines parts) (unlinesNodes nodes) := by
  induction h with
  | nil => exact .nil
  | cons h _ ih => exact (h.append .newline).append ih

def dataNode (attr : String) (s : Text) : Node :=
  .elem (lit "STIG_DATA") [.elem (lit "VULN_ATTRIBUTE") (chars (lit attr)),
    .elem (lit "ATTRIBUTE_DATA") (chars s)]

theorem adds_stigData {attr : String} {val : Value} (hattr : Xml.escape (lit attr) = lit attr)
    (hchars : XmlText (lit attr)) (hval : XmlText (str val)) :
    Adds (stigData attr val) [dataNode attr (str val)] := by
  have htext : stigData attr val = openTag (lit "STIG_DATA") ++
      (tag "VULN_ATTRIBUTE" (lit attr) ++ tag "ATTRIBUTE_DATA" (str val)) ++ closeTag (lit "STIG_DATA") := by
    unfold stigData tag
    rw [hattr, esc_some, Checklist.escape,
      show lit "<STIG_DATA><VULN_ATTRIBUTE>" = openTag (lit "STIG_DATA") ++ openTag (lit "VULN_ATTRIBUTE")
        by decide,
      show lit "</VULN_ATTRIBUTE><ATTRIBUTE_DATA>" = closeTag (lit "VULN_ATTRIBUTE") ++
        openTag (lit "ATTRIBUTE_DATA") by decide,
      show lit "</ATTRIBUTE_DATA></STIG_DATA>" = closeTag (lit "ATTRIBUTE_DATA") ++
        closeTag (lit "STIG_DATA") by decide]
    simp only [List.append_assoc]
  rw [htext]
  exact .element (by decide) ((adds_tag (by decide) hchars).append (adds_tag (by decide) hval))

def siNode (name : String) (data : Text) : Node :=
  .elem (lit "SI_DATA") [.elem (lit "SID_NAME") (chars (lit name)), .elem (lit "SID_DATA") (chars data)]

theorem adds_si {name : String} {data : Text} (hname : Xml.escape (lit name) = lit name)
    (hchars : XmlText (lit name)) (hdata : XmlText data) : Adds (si name data) [siNode name data] := by
  have htext : si name data = openTag (lit "SI_DATA") ++
      (tag "SID_NAME" (lit name) ++ tag "SID_DATA" data) ++ closeTag (lit "SI_DATA") := by
    unfold si tag
    rw [hname, esc_some, Checklist.escape,
      show lit "<SI_DATA><SID_NAME>" = openTag (lit "SI_DATA") ++ openTag (lit "SID_NAME") by decide,
      show lit "</SID_NAME><SID_DATA>" = closeTag (lit "SID_NAME") ++ openTag (lit "SID_DATA") by decide,
      show lit "</SID_DATA></SI_DATA>" = closeTag (lit "SID_DATA") ++ closeTag (lit "SI_DATA") by decide]
    simp only [List.append_assoc]
  rw [htext]
  exact .element (by decide) ((adds_tag (by decide) hchars).append (adds_tag (by decide) hdata))

/-! ### Reading a rule -/

/-- The attributes of a rule, as the writer gives them. -/
def vulnData (m : StigMeta) (r : Rule) : List (String × Value) :=
  [("Vuln_Num", some r.vulnNum), ("Severity", some r.severity.text), ("Group_Title", r.ruleTitle),
    ("Rule_ID", some r.ruleId), ("Rule_Ver", some r.ruleVer), ("Rule_Title", r.ruleTitle),
    ("Vuln_Discuss", r.checkContent), ("Check_Content", r.checkContent), ("Fix_Text", r.fixText),
    ("STIGRef", some m.title)] ++ r.ccis.map fun cci => ("CCI_REF", some cci)

/-- The lines after the attributes. -/
def vulnTail (r : Rule) : List Text :=
  [tag "STATUS" r.status.text, tag "FINDING_DETAILS" r.findingDetails,
    tag "COMMENTS" (orElse r.comments []), leaf "SEVERITY_OVERRIDE" ++ leaf "SEVERITY_JUSTIFICATION"]

/-- The nodes inside a VULN. -/
def vulnNodes (m : StigMeta) (r : Rule) : List Node :=
  [newline] ++ (unlinesNodes ((vulnData m r).map fun d => [dataNode d.1 (str d.2)]) ++ unlinesNodes [
    [.elem (lit "STATUS") (chars r.status.text)],
    [.elem (lit "FINDING_DETAILS") (chars r.findingDetails)],
    [.elem (lit "COMMENTS") (chars (orElse r.comments []))],
    [.elem (lit "SEVERITY_OVERRIDE") [], .elem (lit "SEVERITY_JUSTIFICATION") []]])

def vulnAttrs : List String :=
  ["Vuln_Num", "Severity", "Group_Title", "Rule_ID", "Rule_Ver", "Rule_Title", "Vuln_Discuss",
    "Check_Content", "Fix_Text", "STIGRef", "CCI_REF"]

theorem mem_vulnAttrs {m : StigMeta} {r : Rule} {d : String × Value} (hd : d ∈ vulnData m r) :
    d.1 ∈ vulnAttrs := by
  simp only [vulnData, List.mem_append, List.mem_map] at hd
  rcases hd with hd | ⟨cci, -, rfl⟩
  · exact List.mem_append_left ["CCI_REF"] (List.mem_map_of_mem (f := Prod.fst) hd)
  · simp [vulnAttrs]

/-- The names of the attributes need no escape, and are read as they are. -/
theorem attr_plain {attr : String} (h : attr ∈ vulnAttrs) :
    Xml.escape (lit attr) = lit attr ∧ XmlText (lit attr) ∧ normalize false (lit attr) = lit attr := by
  have hescape : ∀ attr ∈ vulnAttrs, Xml.escape (lit attr) = lit attr := by decide
  have hchars : ∀ attr ∈ vulnAttrs, (lit attr).all isChar := by decide
  have hcr : ∀ attr ∈ vulnAttrs, code '\r' ∉ lit attr := by decide
  exact ⟨hescape attr h, List.all_eq_true.mp (hchars attr h), normalize_eq_self.mpr (hcr attr h)⟩

theorem vulnParts_eq (m : StigMeta) (r : Rule) : unlines (vulnParts m r) =
    openTag (lit "VULN") ++ (lit "\n" ++ (unlines ((vulnData m r).map fun d => stigData d.1 d.2) ++
      unlines (vulnTail r))) ++ closeTag (lit "VULN") ++ lit "\n" := by
  have hstatus : Xml.escape r.status.text = r.status.text := by cases r.status <;> decide
  have hleaves : lit "<SEVERITY_OVERRIDE/><SEVERITY_JUSTIFICATION/>" =
      leaf "SEVERITY_OVERRIDE" ++ leaf "SEVERITY_JUSTIFICATION" := by decide
  unfold vulnTail tag
  rw [hstatus, ← hleaves,
    show openTag (lit "VULN") = lit "<VULN>" by decide,
    show closeTag (lit "VULN") = lit "</VULN>" by decide,
    show openTag (lit "STATUS") = lit "<STATUS>" by decide,
    show closeTag (lit "STATUS") = lit "</STATUS>" by decide,
    show openTag (lit "FINDING_DETAILS") = lit "<FINDING_DETAILS>" by decide,
    show closeTag (lit "FINDING_DETAILS") = lit "</FINDING_DETAILS>" by decide,
    show openTag (lit "COMMENTS") = lit "<COMMENTS>" by decide,
    show closeTag (lit "COMMENTS") = lit "</COMMENTS>" by decide]
  simp only [unlines, vulnParts, vulnData, esc, Checklist.escape, orElse_nil_right, List.flatMap_append,
    List.flatMap_cons, List.flatMap_nil, List.flatMap_map, List.map_append, List.map_cons, List.map_nil,
    List.map_map, List.append_assoc, List.append_nil, Option.getD_some, Function.comp_apply]

/-- Every text of a rule is one of XML characters. -/
def RuleText (m : StigMeta) (r : Rule) : Prop := ∀ s ∈ r.texts m, XmlText s

theorem severity_text (c : Category) : XmlText c.text ∧ normalize false c.text = c.text := by
  have hchars : c.text.all isChar := by cases c <;> decide
  have hcr : code '\r' ∉ c.text := by cases c <;> decide
  exact ⟨List.all_eq_true.mp hchars, normalize_eq_self.mpr hcr⟩

theorem status_text (s : Status) : XmlText s.text ∧ normalize false s.text = s.text := by
  have hchars : s.text.all isChar := by cases s <;> decide
  have hcr : code '\r' ∉ s.text := by cases s <;> decide
  exact ⟨List.all_eq_true.mp hchars, normalize_eq_self.mpr hcr⟩

theorem adds_vulnData {m : StigMeta} {r : Rule} (h : RuleText m r) :
    List.Forall₂ Adds ((vulnData m r).map fun d => stigData d.1 d.2)
      ((vulnData m r).map fun d => [dataNode d.1 (str d.2)]) := by
  rw [List.forall₂_map_left_iff, List.forall₂_map_right_iff]
  apply List.forall₂_same.mpr
  intro d hd
  obtain ⟨hescape, hchars, -⟩ := attr_plain (mem_vulnAttrs hd)
  have hval : str d.2 ∈ r.texts m := by
    simp only [vulnData, List.mem_append, List.mem_cons, List.not_mem_nil, or_false, List.mem_map] at hd
    simp only [Rule.texts, List.mem_append, List.mem_cons, List.not_mem_nil, or_false]
    rcases hd with (rfl | rfl | rfl | rfl | rfl | rfl | rfl | rfl | rfl | rfl) | ⟨cci, hcci, rfl⟩
    all_goals simp_all [str]
  exact adds_stigData hescape hchars (h _ hval)

/-- **A rule** is read as its nodes. -/
theorem adds_vuln {m : StigMeta} {r : Rule} (h : RuleText m r) :
    Adds (unlines (vulnParts m r)) [.elem (lit "VULN") (vulnNodes m r), newline] := by
  have hdetails : XmlText r.findingDetails := h _ (by simp [Rule.texts])
  have hcomments : XmlText (orElse r.comments []) := h _ (by simp [Rule.texts])
  have htail := adds_unlines (vulnTail r) <|
    .cons (adds_tag (by decide) (status_text r.status).1) <|
    .cons (adds_tag (by decide) hdetails) <|
    .cons (adds_tag (by decide) hcomments) <|
    .cons ((adds_leaf (by decide)).append (adds_leaf (by decide))) .nil
  rw [vulnParts_eq]
  exact (Adds.element (by decide) (Adds.newline.append ((adds_unlines _ (adds_vulnData h)).append
    htail))).append .newline

/-! ### Reading an iSTIG -/

structure IStigText (ist : IStig) : Prop where
  version : XmlText ist.head.version
  stigid : XmlText ist.head.stigid
  title : XmlText ist.head.title
  release : XmlText ist.head.release
  rules : ∀ r ∈ ist.rules, RuleText ist.head r

theorem uuid_text (uuid : Uuid) : XmlText uuid.text := by
  have hall : (lit "0123456789abcdef-").all isChar := by decide
  exact fun c hc => List.all_eq_true.mp hall c (uuid.hex c hc)

/-- The lines inside a STIG_INFO. -/
def infoParts (uuid : Uuid) (m : StigMeta) : List Text :=
  [si "version" m.version, si "stigid" m.stigid, si "title" m.title, si "releaseinfo" m.release,
    si "uuid" uuid.text]

def infoNodes (uuid : Uuid) (m : StigMeta) : List Node :=
  [newline] ++ unlinesNodes [[siNode "version" m.version], [siNode "stigid" m.stigid],
    [siNode "title" m.title], [siNode "releaseinfo" m.release], [siNode "uuid" uuid.text]]

/-- The nodes inside an iSTIG. -/
def istigNodes (uuid : Uuid) (ist : IStig) : List Node :=
  [newline] ++ ([.elem (lit "STIG_INFO") (infoNodes uuid ist.head), newline] ++
    ist.rules.flatMap fun r => [.elem (lit "VULN") (vulnNodes ist.head r), newline])

theorem istigParts_eq (uuid : Uuid) (ist : IStig) : unlines (istigParts uuid ist) =
    openTag (lit "iSTIG") ++ (lit "\n" ++ (openTag (lit "STIG_INFO") ++ (lit "\n" ++
      unlines (infoParts uuid ist.head)) ++ closeTag (lit "STIG_INFO") ++ lit "\n" ++
      ist.rules.flatMap fun r => unlines (vulnParts ist.head r))) ++ closeTag (lit "iSTIG") ++ lit "\n" := by
  rw [show openTag (lit "iSTIG") = lit "<iSTIG>" by decide,
    show closeTag (lit "iSTIG") = lit "</iSTIG>" by decide,
    show openTag (lit "STIG_INFO") = lit "<STIG_INFO>" by decide,
    show closeTag (lit "STIG_INFO") = lit "</STIG_INFO>" by decide]
  simp only [unlines, istigParts, infoParts, List.flatMap_append, List.flatMap_cons, List.flatMap_nil,
    List.flatMap_assoc, List.append_assoc, List.append_nil]

theorem adds_istig {uuid : Uuid} {ist : IStig} (h : IStigText ist) :
    Adds (unlines (istigParts uuid ist)) [.elem (lit "iSTIG") (istigNodes uuid ist), newline] := by
  have hescape : ∀ name ∈ ["version", "stigid", "title", "releaseinfo", "uuid"],
      Xml.escape (lit name) = lit name := by decide
  have hchars : ∀ name ∈ ["version", "stigid", "title", "releaseinfo", "uuid"],
      (lit name).all isChar := by decide
  have hsi : ∀ (name : String) {data : Text}, name ∈ ["version", "stigid", "title", "releaseinfo", "uuid"] →
      XmlText data → Adds (si name data) [siNode name data] := fun name _ hn hdata =>
    adds_si (hescape name hn) (List.all_eq_true.mp (hchars name hn)) hdata
  have hinfo := adds_unlines (infoParts uuid ist.head) <|
    .cons (hsi "version" (by simp) h.version) <|
    .cons (hsi "stigid" (by simp) h.stigid) <|
    .cons (hsi "title" (by simp) h.title) <|
    .cons (hsi "releaseinfo" (by simp) h.release) <|
    .cons (hsi "uuid" (by simp) (uuid_text uuid)) .nil
  have hhead := (Adds.element (by decide : Xml.isName (lit "STIG_INFO")) (Adds.newline.append hinfo)).append
    .newline
  have hrules := Adds.flatMap (l := ist.rules) fun r hr => adds_vuln (h.rules r hr)
  rw [istigParts_eq]
  exact (Adds.element (by decide) (Adds.newline.append (hhead.append hrules))).append .newline

/-! ### Reading the file -/

/-- The lines inside the ASSET. -/
def assetParts (asset target : Text) : List Text :=
  [tag "ROLE" (lit "None") ++ tag "ASSET_TYPE" (lit "Computing"),
    tag "HOST_NAME" asset,
    leaf "HOST_IP" ++ leaf "HOST_MAC",
    tag "HOST_FQDN" target,
    leaf "TARGET_COMMENT" ++ (leaf "TECH_AREA" ++ leaf "TARGET_KEY"),
    tag "WEB_OR_DATABASE" (lit "true"),
    tag "WEB_DB_SITE" target ++ leaf "WEB_DB_INSTANCE"]

def assetNodes (asset target : Text) : List Node :=
  [newline] ++ unlinesNodes [
    [.elem (lit "ROLE") (chars (lit "None")), .elem (lit "ASSET_TYPE") (chars (lit "Computing"))],
    [.elem (lit "HOST_NAME") (chars asset)],
    [.elem (lit "HOST_IP") [], .elem (lit "HOST_MAC") []],
    [.elem (lit "HOST_FQDN") (chars target)],
    [.elem (lit "TARGET_COMMENT") [], .elem (lit "TECH_AREA") [], .elem (lit "TARGET_KEY") []],
    [.elem (lit "WEB_OR_DATABASE") (chars (lit "true"))],
    [.elem (lit "WEB_DB_SITE") (chars target), .elem (lit "WEB_DB_INSTANCE") []]]

/-- The nodes inside the CHECKLIST. -/
def checklistNodes (uuids : ℕ → Uuid) (istigs : List IStig) (asset target : Text) : List Node :=
  [newline] ++ ([.elem (lit "ASSET") (assetNodes asset target), newline] ++
    [.elem (lit "STIGS") ([newline] ++ istigs.zipIdx.flatMap fun p =>
      [.elem (lit "iSTIG") (istigNodes (uuids p.2) p.1), newline])])

/-- What stands between the declaration and the root element. -/
def preamble : Text :=
  lit "\n" ++ (lit "<!--DISA STIG Viewer :: 3.x  (generated by build-checklist.py)-->" ++ lit "\n")

theorem leads_preamble : Leads preamble ([], none) ([], none) := fun _ => ⟨0, rfl⟩

theorem headParts_eq (asset target : Text) : unlines (headParts asset target) = decl ++ (preamble ++
    (openTag (lit "CHECKLIST") ++ (lit "\n" ++ (openTag (lit "ASSET") ++ (lit "\n" ++
      unlines (assetParts asset target)) ++ closeTag (lit "ASSET") ++ lit "\n" ++
      (openTag (lit "STIGS") ++ lit "\n"))))) := by
  have hsome : ∀ s : Text, esc (some s) = Xml.escape s := esc_some
  unfold headParts preamble
  rw [hsome, hsome,
    show lit "<CHECKLIST>" = openTag (lit "CHECKLIST") by decide,
    show lit "<ASSET>" = openTag (lit "ASSET") by decide,
    show lit "</ASSET>" = closeTag (lit "ASSET") by decide,
    show lit "<STIGS>" = openTag (lit "STIGS") by decide,
    show lit "<ROLE>None</ROLE><ASSET_TYPE>Computing</ASSET_TYPE>" =
      tag "ROLE" (lit "None") ++ tag "ASSET_TYPE" (lit "Computing") by decide,
    show lit "<HOST_IP/><HOST_MAC/>" = leaf "HOST_IP" ++ leaf "HOST_MAC" by decide,
    show lit "<TARGET_COMMENT/><TECH_AREA/><TARGET_KEY/>" =
      leaf "TARGET_COMMENT" ++ (leaf "TECH_AREA" ++ leaf "TARGET_KEY") by decide,
    show lit "<WEB_OR_DATABASE>true</WEB_OR_DATABASE>" = tag "WEB_OR_DATABASE" (lit "true") by decide,
    show lit "<HOST_NAME>" = openTag (lit "HOST_NAME") by decide,
    show lit "</HOST_NAME>" = closeTag (lit "HOST_NAME") by decide,
    show lit "<HOST_FQDN>" = openTag (lit "HOST_FQDN") by decide,
    show lit "</HOST_FQDN>" = closeTag (lit "HOST_FQDN") by decide,
    show lit "<WEB_DB_SITE>" = openTag (lit "WEB_DB_SITE") by decide,
    show lit "</WEB_DB_SITE><WEB_DB_INSTANCE/>" =
      closeTag (lit "WEB_DB_SITE") ++ leaf "WEB_DB_INSTANCE" by decide]
  simp only [unlines, assetParts, tag, decl, List.flatMap_cons, List.flatMap_nil, List.append_assoc,
    List.append_nil]

theorem adds_asset {asset target : Text} (hasset : XmlText asset) (htarget : XmlText target) :
    Adds (openTag (lit "ASSET") ++ (lit "\n" ++ unlines (assetParts asset target)) ++ closeTag (lit "ASSET"))
      [.elem (lit "ASSET") (assetNodes asset target)] := by
  have hlit : XmlText (lit "None") ∧ XmlText (lit "Computing") ∧ XmlText (lit "true") := by
    have hall : (lit "None").all isChar ∧ (lit "Computing").all isChar ∧ (lit "true").all isChar := by decide
    exact ⟨List.all_eq_true.mp hall.1, List.all_eq_true.mp hall.2.1, List.all_eq_true.mp hall.2.2⟩
  have hlines := adds_unlines (assetParts asset target) <|
    .cons ((adds_tag (by decide) hlit.1).append (adds_tag (by decide) hlit.2.1)) <|
    .cons (adds_tag (by decide) hasset) <|
    .cons ((adds_leaf (by decide)).append (adds_leaf (by decide))) <|
    .cons (adds_tag (by decide) htarget) <|
    .cons ((adds_leaf (by decide)).append ((adds_leaf (by decide)).append (adds_leaf (by decide)))) <|
    .cons (adds_tag (by decide) hlit.2.2) <|
    .cons ((adds_tag (by decide) htarget).append (adds_leaf (by decide))) .nil
  exact .element (by decide) (Adds.newline.append hlines)

/-- **The file is read** if its texts are made of XML characters. -/
theorem read_writeCkl (uuids : ℕ → Uuid) {istigs : List IStig} {asset target : Text}
    (hasset : XmlText asset) (htarget : XmlText target) (h : ∀ ist ∈ istigs, IStigText ist) :
    Xml.read (writeCkl uuids istigs asset target) =
      some (.elem (lit "CHECKLIST") (checklistNodes uuids istigs asset target)) := by
  have hlast : lit "</STIGS></CHECKLIST>" = closeTag (lit "STIGS") ++ closeTag (lit "CHECKLIST") := by decide
  have hadds : Adds (istigs.zipIdx.flatMap fun p => unlines (istigParts (uuids p.2) p.1))
      (istigs.zipIdx.flatMap fun p => [.elem (lit "iSTIG") (istigNodes (uuids p.2) p.1), newline]) := by
    refine .flatMap fun p hp => adds_istig (h p.1 ?_)
    exact List.mem_of_getElem? (List.mem_zipIdx_iff_getElem?.mp hp)
  have hstigs := Adds.element (by decide : Xml.isName (lit "STIGS")) (Adds.newline.append hadds)
  have hbody := Adds.newline.append (((adds_asset hasset htarget).append .newline).append hstigs)
  refine Eq.trans (congrArg Xml.read ?_)
    (read_document leads_preamble (by decide : Xml.isName (lit "CHECKLIST")) hbody)
  unfold writeCkl
  have hunlines : ∀ l : List Text, l.flatMap (· ++ lit "\n") = unlines l := fun _ => rfl
  rw [join_append_left _ (List.cons_ne_nil _ _), hunlines, hlast]
  have happend : ∀ l l' : List Text, unlines (l ++ l') = unlines l ++ unlines l' :=
    fun l l' => List.flatMap_append
  have hmap : ∀ l : List (IStig × ℕ), unlines (l.flatMap fun p => istigParts (uuids p.2) p.1) =
      l.flatMap fun p => unlines (istigParts (uuids p.2) p.1) := fun l => List.flatMap_assoc ..
  rw [happend, hmap, headParts_eq]
  simp only [join, List.flatMap_nil, List.append_assoc, List.append_nil]

end SecureLedger.Checklist
