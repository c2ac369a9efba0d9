import SecureLedger.Lib.Py

/-!
# Checklist.Scanner — from the findings of a scanner to the rules of one STIG

The findings are grouped by their stripped control id and the groups sorted by it; each gives one
rule.  A finding is an object of the scanner's JSON, with the keys the script reads.
-/

namespace SecureLedger.Checklist

open Py

/-! ### STIG identity -/

/-- STIG identity metadata. -/
structure StigMeta where
  stigid : Text
  title : Text
  version : Text
  release : Text
  display : Text
  deriving DecidableEq, Repr

/-- The keys of `STIG_META`. -/
inductive StigKey where
  | api
  | asd
  | rhel9
  deriving DecidableEq, Repr

def stigMeta : StigKey → StigMeta
  | .api => {
    stigid := lit "API_Security_Requirements_Guide"
    title := lit "DISA Application Programming Interface (API) Security Requirements Guide"
    version := lit "1"
    release := lit "Release: 0.1 (V1R0.1)"
    display := lit "API SRG V1R0.1" }
  | .asd => {
    stigid := lit "Application_Security_and_Development_STIG"
    title := lit "Application Security and Development Security Technical Implementation Guide"
    version := lit "6"
    release := lit "Release: 4 (V6R4)"
    display := lit "ASD STIG V6R4" }
  | .rhel9 => {
    stigid := lit "RHEL_9_STIG"
    title := lit "Red Hat Enterprise Linux 9 Security Technical Implementation Guide"
    version := lit "1"
    release := lit "Release: 1"
    display := lit "RHEL 9 STIG" }

/-! ### Rules -/

/-- A checklist status, in the words of the CKL. -/
inductive Status where
  | opened
  | notReviewed
  | notAFinding
  | notApplicable
  deriving DecidableEq, Repr

def Status.text : Status → Text
  | opened => lit "Open"
  | notReviewed => lit "Not_Reviewed"
  | notAFinding => lit "NotAFinding"
  | notApplicable => lit "Not_Applicable"

inductive Category where
  | high
  | medium
  | low
  deriving DecidableEq, Repr

def Category.text : Category → Text
  | high => lit "high"
  | medium => lit "medium"
  | low => lit "low"

/-- What both parsers emit and both writers read; a `Value` may be `None`. -/
structure Rule where
  vulnNum : Text
  ruleId : Text
  ruleVer : Text
  ruleTitle : Value
  severity : Category
  status : Status
  findingDetails : Text
  comments : Value
  checkContent : Value
  fixText : Value
  ccis : List Text
  deriving DecidableEq, Repr

structure IStig where
  head : StigMeta
  rules : List Rule
  deriving DecidableEq, Repr

/-! ### Status and severity -/

/-- `SCANNER_RANK`. -/
def scannerRank : List (Text × ℕ) :=
  [(lit "fail", 3), (lit "error", 2), (lit "skip", 2), (lit "manual", 2), (lit "pass", 1),
    (lit "not_applicable", 0)]

/-- `SCANNER_RANK.get(s, 2)`. -/
def rank (s : Value) : ℕ := (s.bind fun word => scannerRank.lookup word).getD 2

def sevToCat (U : Unicode) (sev : Value) : Category :=
  let s := U.lower (orElse sev [])
  if s ∈ [lit "critical", lit "high"] then .high
  else if s ∈ [lit "medium", lit "med"] then .medium
  else .low

/-- Aggregate scanner statuses for one control into a CKL status. -/
def aggStatus (statuses : List Value) : Status :=
  let ranks := statuses.map rank
  let top := ranks.max?.getD 2
  if top = 3 then .opened
  else if top = 2 then .notReviewed
  else if top = 1 then .notAFinding
  else .notApplicable

/-! ### `parse_scanner_json` -/

/-- A finding: what each key has. -/
structure Finding where
  stigId : Field
  title : Field
  severity : Field
  status : Field
  endpoint : Field
  details : Field
  evidence : Field
  fix : Field
  deriving DecidableEq, Repr

/-- `f.get("stig_id", "").strip()`. -/
def Finding.vid (f : Finding) : Except Error Text :=
  match f.stigId.get (some []) with
  | none => .error .attributeError
  | some s => .ok (strip s)

/-- `f.get("status", "manual")`. -/
def Finding.statusOr (f : Finding) : Value := f.status.get (some (lit "manual"))

/-- One line of the finding details. -/
def Finding.line (U : Unicode) (key : StigKey) (f : Finding) : Text :=
  let ep := orElse (f.endpoint.get none) (stigMeta key).display
  let st := U.upper (orElse (f.status.get none) [])
  let msg := orElse (f.details.get none) (orElse (f.evidence.get none) [])
  strip (rstrip (lit ": ") (lit "[" ++ st ++ lit "] " ++ ep ++ lit ": " ++ msg))

/-- One turn of the loop that groups the findings. -/
def collectFinding (byCtrl : List (Text × List Finding)) (f : Finding) :
    Except Error (List (Text × List Finding)) := do
  let vid ← f.vid
  if vid.isEmpty then .ok byCtrl else .ok (appendTo vid f byCtrl)

/-- The rule of the control `vid`, whose findings are `fs` with `f` as the first. -/
def ruleFrom (U : Unicode) (key : StigKey) (vid : Text) (f : Finding) (fs : List Finding) : Rule where
  vulnNum := vid
  ruleId := vid ++ lit "r1_rule"
  ruleVer := vid
  ruleTitle := f.title.get (some vid)
  severity := sevToCat U (f.severity.get none)
  status := aggStatus (fs.map Finding.statusOr)
  findingDetails := join (lit "\n") (fs.map (Finding.line U key))
  comments := f.fix.get (some [])
  checkContent := f.fix.get (some [])
  fixText := f.fix.get (some [])
  ccis := []

@[simp] theorem ruleFrom_vulnNum (U : Unicode) (key : StigKey) (vid : Text) (f : Finding)
    (fs : List Finding) : (ruleFrom U key vid f fs).vulnNum = vid := rfl

def ruleOf (U : Unicode) (key : StigKey) (item : Text × List Finding) : Except Error Rule := do
  let f ← first item.2
  .ok (ruleFrom U key item.1 f item.2)

/-- The iSTIG of the findings in a scanner's JSON file. -/
def parseScannerJson (U : Unicode) (key : StigKey) (findings : List Finding) : Except Error IStig := do
  let byCtrl ← findings.foldlM collectFinding []
  let items ← sortedItems byCtrl
  let rules ← items.mapM (ruleOf U key)
  .ok ⟨stigMeta key, rules⟩

end SecureLedger.Checklist
