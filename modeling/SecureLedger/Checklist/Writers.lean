import SecureLedger.Checklist.Oscap
import SecureLedger.Lib.Xml

/-!
# Checklist.Writers — the two files of a checklist

`write_ckl` concatenates the lines of an XML document; `write_cklb` fills the object that is dumped
as JSON.  The UUIDs and the time of writing come from outside.
-/

namespace SecureLedger.Checklist

open Py

/-! ### The `.ckl` -/

/-- `html.escape(s, quote=False)`. -/
def escape (s : Text) : Text := Xml.escape s

def esc (s : Value) : Text := escape (orElse s [])

theorem esc_some (s : Text) : esc (some s) = escape s := congrArg escape (orElse_nil_right _)

def si (name : String) (data : Text) : Text :=
  lit "<SI_DATA><SID_NAME>" ++ lit name ++ lit "</SID_NAME><SID_DATA>" ++ esc (some data) ++
    lit "</SID_DATA></SI_DATA>"

def stigData (attr : String) (val : Value) : Text :=
  lit "<STIG_DATA><VULN_ATTRIBUTE>" ++ lit attr ++ lit "</VULN_ATTRIBUTE><ATTRIBUTE_DATA>" ++
    esc (some (str val)) ++ lit "</ATTRIBUTE_DATA></STIG_DATA>"

/-- The lines of one rule. -/
def vulnParts (m : StigMeta) (r : Rule) : List Text :=
  [lit "<VULN>",
    stigData "Vuln_Num" r.vulnNum,
    stigData "Severity" r.severity.text,
    stigData "Group_Title" r.ruleTitle,
    stigData "Rule_ID" r.ruleId,
    stigData "Rule_Ver" r.ruleVer,
    stigData "Rule_Title" r.ruleTitle,
    stigData "Vuln_Discuss" r.checkContent,
    stigData "Check_Content" r.checkContent,
    stigData "Fix_Text" r.fixText,
    stigData "STIGRef" m.title] ++
  r.ccis.map (fun cci => stigData "CCI_REF" (some cci)) ++
  [lit "<STATUS>" ++ r.status.text ++ lit "</STATUS>",
    lit "<FINDING_DETAILS>" ++ esc r.findingDetails ++ lit "</FINDING_DETAILS>",
    lit "<COMMENTS>" ++ esc r.comments ++ lit "</COMMENTS>",
    lit "<SEVERITY_OVERRIDE/><SEVERITY_JUSTIFICATION/>",
    lit "</VULN>"]

/-- The lines of one iSTIG. -/
def istigParts (uuid : Uuid) (ist : IStig) : List Text :=
  [lit "<iSTIG>", lit "<STIG_INFO>",
    si "version" ist.head.version,
    si "stigid" ist.head.stigid,
    si "title" ist.head.title,
    si "releaseinfo" ist.head.release,
    si "uuid" uuid.text,
    lit "</STIG_INFO>"] ++
  ist.rules.flatMap (vulnParts ist.head) ++ [lit "</iSTIG>"]

/-- The lines up to the first iSTIG. -/
def headParts (asset target : Text) : List Text :=
  [lit "<?xml version=\"1.0\" encoding=\"UTF-8\"?>",
    lit "<!--DISA STIG Viewer :: 3.x  (generated by build-checklist.py)-->",
    lit "<CHECKLIST>",
    lit "<ASSET>",
    lit "<ROLE>None</ROLE><ASSET_TYPE>Computing</ASSET_TYPE>",
    lit "<HOST_NAME>" ++ esc (some asset) ++ lit "</HOST_NAME>",
    lit "<HOST_IP/><HOST_MAC/>",
    lit "<HOST_FQDN>" ++ esc (some target) ++ lit "</HOST_FQDN>",
    lit "<TARGET_COMMENT/><TECH_AREA/><TARGET_KEY/>",
    lit "<WEB_OR_DATABASE>true</WEB_OR_DATABASE>",
    lit "<WEB_DB_SITE>" ++ esc (some target) ++ lit "</WEB_DB_SITE><WEB_DB_INSTANCE/>",
    lit "</ASSET>",
    lit "<STIGS>"]

/-- The text of the `.ckl`; the `n`-th iSTIG gets the UUID `uuids n`. -/
def writeCkl (uuids : ℕ → Uuid) (istigs : List IStig) (asset target : Text) : Text :=
  join (lit "\n") (headParts asset target ++
    istigs.zipIdx.flatMap (fun p => istigParts (uuids p.2) p.1) ++ [lit "</STIGS></CHECKLIST>"])

/-! ### The `.cklb` -/

/-- `CKL_TO_CKLB`. -/
def cklToCklb : List (Text × Text) :=
  [(lit "NotAFinding", lit "not_a_finding"), (lit "Open", lit "open"),
    (lit "Not_Applicable", lit "not_applicable"), (lit "Not_Reviewed", lit "not_reviewed")]

/-- An entry of `rules`; its `overrides` are always empty. -/
structure CklbRule where
  groupId : Text
  groupIdSrc : Text
  ruleId : Text
  ruleIdSrc : Text
  ruleVersion : Text
  ruleTitle : Value
  groupTitle : Value
  severity : Text
  weight : Text
  checkContent : Value
  fixText : Value
  status : Text
  findingDetails : Text
  comments : Value
  ccis : List Text
  deriving DecidableEq, Repr

/-- An entry of `stigs`. -/
structure CklbStig where
  stigName : Text
  displayName : Text
  stigId : Text
  releaseInfo : Text
  version : Text
  uuid : Text
  referenceIdentifier : Text
  size : ℕ
  rules : List CklbRule
  deriving DecidableEq, Repr

/-- The texts of `target_data` that are not fixed. -/
structure CklbTarget where
  hostName : Text
  fqdn : Text
  webDbSite : Text
  deriving DecidableEq, Repr

/-- The object that is dumped; its other keys are fixed. -/
structure Cklb where
  title : Text
  id : Text
  targetData : CklbTarget
  stigs : List CklbStig
  generated : Text
  deriving DecidableEq, Repr

def cklbRule (r : Rule) : CklbRule where
  groupId := r.vulnNum
  groupIdSrc := r.vulnNum
  ruleId := r.ruleId
  ruleIdSrc := r.ruleId
  ruleVersion := r.ruleVer
  ruleTitle := r.ruleTitle
  groupTitle := r.ruleTitle
  severity := r.severity.text
  weight := lit "10.0"
  checkContent := r.checkContent
  fixText := r.fixText
  status := (cklToCklb.lookup r.status.text).getD (lit "not_reviewed")
  findingDetails := r.findingDetails
  comments := r.comments
  ccis := r.ccis

def cklbStig (uuid : Uuid) (ist : IStig) : CklbStig :=
  let rules := ist.rules.map cklbRule
  { stigName := ist.head.title
    displayName := ist.head.display
    stigId := ist.head.stigid
    releaseInfo := ist.head.release
    version := ist.head.version
    uuid := uuid.text
    referenceIdentifier := ist.head.stigid
    size := rules.length
    rules := rules }

/-- The `.cklb`, written at `generated`; the document has a UUID of its own. -/
def writeCklb (uuids : ℕ → Uuid) (uuid : Uuid) (generated : Text) (istigs : List IStig)
    (asset target : Text) : Cklb where
  title := asset ++ lit " — consolidated STIG checklist"
  id := uuid.text
  targetData := ⟨asset, target, target⟩
  stigs := istigs.zipIdx.map fun p => cklbStig (uuids p.2) p.1
  generated := generated

/-! ### `main` -/

/-- The OpenSCAP inputs of a run. -/
structure OscapInput where
  elements : List Element
  dsmeta : List (Text × DsRule)
  naRules : List Text

/-- The inputs of a run, those that were given. -/
structure Inputs where
  oscap : Option OscapInput
  api : Option (List Finding)
  asd : Option (List Finding)

/-- The iSTIGs handed to both writers; an OpenSCAP result without rules gives none. -/
def consolidate (U : Unicode) (inputs : Inputs) : Except Error (List IStig) := do
  let oscap := match inputs.oscap with
    | none => []
    | some o =>
      let ist := parseOscap U o.dsmeta o.naRules o.elements
      if ist.rules.isEmpty then [] else [ist]
  let api ← inputs.api.toList.mapM (parseScannerJson U .api)
  let asd ← inputs.asd.toList.mapM (parseScannerJson U .asd)
  let istigs := oscap ++ api ++ asd
  if istigs.isEmpty then .error (.systemExit (lit "no inputs provided")) else .ok istigs

end SecureLedger.Checklist
