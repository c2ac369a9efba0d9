import SecureLedger.Checklist.Writers
import SecureLedger.Checklist.Datastream
import SecureLedger.Lib.JsonDump

/-!
# Checklist.Files — from the files that are read to the `.cklb` that is written

`findingsOf` takes a scanner's document apart, and `Cklb.json` is the object that `write_cklb` dumps.
The script formats and dumps other values than strings too; that is left out, and a run that comes upon one
under a key that is read is `unsupported`, not stopped.
Text that was decoded has no surrogates, and a command line has no high ones: `Contents`, `OscapFiles` and
`Argument` carry that.
-/

namespace SecureLedger.Checklist

open Py

/-! ### The document of a scanner -/

/-- Why there are no files: the script stops, or a finding has something else than a string or `null` under a
key that is read, and what the script does then is left out. -/
inductive Halt where
  | stops
  | unsupported
  deriving DecidableEq, Repr

/-- What an object has under a key that is read as a string. -/
def fieldOf (d : List (Text × Json.Value)) (key : String) : Except Halt Field :=
  match d.lookup (lit key) with
  | none => .ok .absent
  | some .null => .ok .null
  | some (.str s) => .ok (.str s)
  | some _ => .error .unsupported

/-- Only an object has a `get`. -/
def Finding.ofJson : Json.Value → Except Halt Finding
  | .dict d => do
    let stigId ← fieldOf d "stig_id"
    let title ← fieldOf d "title"
    let severity ← fieldOf d "severity"
    let status ← fieldOf d "status"
    let endpoint ← fieldOf d "endpoint"
    let details ← fieldOf d "details"
    let evidence ← fieldOf d "evidence"
    let fix ← fieldOf d "fix"
    .ok ⟨stigId, title, severity, status, endpoint, details, evidence, fix⟩
  | _ => .error .stops

/-- What the loop over `data.get("findings", [])` goes through: the keys of an object and the characters of a
string too. -/
def findingItems : Json.Value → Except Halt (List Json.Value)
  | .dict d =>
    match d.lookup (lit "findings") with
    | none => .ok []
    | some (.list items) => .ok items
    | some (.dict e) => .ok (e.map fun p => .str p.1)
    | some (.str s) => .ok (s.map fun c => .str [c])
    | some _ => .error .stops
  | _ => .error .stops

def findingsOf (doc : Json.Value) : Except Halt (List Finding) := do
  let items ← findingItems doc
  items.mapM Finding.ofJson

/-- The findings in a scanner's file. -/
def loadFindings (text : Text) : Except Halt (List Finding) :=
  match Json.read text with
  | none => .error .stops
  | some doc => findingsOf doc

/-! ### The `.cklb` as JSON -/

/-- A string or `null`. -/
def jsonOf : Value → Json.Value
  | none => .null
  | some s => .str s

def object (items : List (String × Json.Value)) : Json.Value := .dict (items.map fun p => (lit p.1, p.2))

def CklbRule.json (r : CklbRule) : Json.Value := object [
  ("group_id", .str r.groupId),
  ("group_id_src", .str r.groupIdSrc),
  ("rule_id", .str r.ruleId),
  ("rule_id_src", .str r.ruleIdSrc),
  ("rule_version", .str r.ruleVersion),
  ("rule_title", jsonOf r.ruleTitle),
  ("group_title", jsonOf r.groupTitle),
  ("severity", .str r.severity),
  ("weight", .str r.weight),
  ("check_content", jsonOf r.checkContent),
  ("fix_text", jsonOf r.fixText),
  ("status", .str r.status),
  ("finding_details", .str r.findingDetails),
  ("comments", jsonOf r.comments),
  ("ccis", .list (r.ccis.map .str)),
  ("overrides", .dict [])]

def CklbStig.json (stig : CklbStig) : Json.Value := object [
  ("stig_name", .str stig.stigName),
  ("display_name", .str stig.displayName),
  ("stig_id", .str stig.stigId),
  ("release_info", .str stig.releaseInfo),
  ("version", .str stig.version),
  ("uuid", .str stig.uuid),
  ("reference_identifier", .str stig.referenceIdentifier),
  ("size", .int stig.size),
  ("rules", .list (stig.rules.map CklbRule.json))]

def CklbTarget.json (t : CklbTarget) : Json.Value := object [
  ("target_type", .str (lit "Computing")), ("host_name", .str t.hostName), ("ip_address", .str []),
  ("mac_address", .str []), ("fqdn", .str t.fqdn), ("comments", .str []),
  ("role", .str (lit "None")), ("is_web_database", .bool true), ("technology_area", .str []),
  ("web_db_site", .str t.webDbSite), ("web_db_instance", .str [])]

def Cklb.json (doc : Cklb) : Json.Value := object [
  ("title", .str doc.title),
  ("id", .str doc.id),
  ("active", .bool false),
  ("mode", .int 2),
  ("has_path", .bool false),
  ("target_data", doc.targetData.json),
  ("stigs", .list (doc.stigs.map CklbStig.json)),
  ("cklb_version", .str (lit "1.0")),
  ("generated", .str doc.generated)]

/-! ### From file to file -/

/-- The text of a file, decoded. -/
structure Contents where
  text : Text
  decoded : Json.Decoded text

/-- An argument; bytes that are not UTF-8 are low surrogates. -/
structure Argument where
  text : Text
  low : ∀ c ∈ text, ¬ Json.isHigh c

/-- A time of writing, in ISO format. -/
structure Stamp where
  text : Text
  format : ∀ c ∈ text, c ∈ lit "0123456789-T:.+"

/-- What is read of an element is decoded. -/
structure Element.Decoded (el : Element) : Prop where
  idref : ∀ s ∈ el.idref, Json.Decoded s
  children : ∀ ch ∈ el.children, ∀ s ∈ ch.text, Json.Decoded s

mutual

/-- The texts in and behind an element and its descendants are decoded. -/
def Tree.Decoded : Tree → Prop
  | .node _ _ text children tail =>
    Json.Decoded (text.getD []) ∧ Json.Decoded (tail.getD []) ∧ Tree.AllDecoded children

def Tree.AllDecoded : List Tree → Prop
  | [] => True
  | el :: els => el.Decoded ∧ Tree.AllDecoded els

end

/-- The files of an OpenSCAP scan: the elements of two documents, and the lines of a list. -/
structure OscapFiles where
  results : List Element
  datastream : List Tree
  naLines : List Text
  results_decoded : ∀ el ∈ results, el.Decoded
  datastream_decoded : ∀ el ∈ datastream, el.Decoded

/-- What a run reads. -/
structure Files where
  oscap : Option OscapFiles
  api : Option Contents
  asd : Option Contents

/-- What a scanner left, if it was given. -/
def Files.scanner (files : Files) : StigKey → Option Contents
  | .api => files.api
  | .asd => files.asd
  | .rhel9 => none

section Build

variable (R : Classes) (U : Unicode)

def OscapFiles.input (files : OscapFiles) : OscapInput :=
  ⟨files.results, parseDatastream R U files.datastream, loadNaRules files.naLines⟩

/-- One scanner's file, or none. -/
def loadScanner : Option Contents → Except Halt (Option (List Finding))
  | none => .ok none
  | some contents => do
    let findings ← loadFindings contents.text
    .ok (some findings)

def Files.inputs (files : Files) : Except Halt Inputs := do
  let api ← loadScanner files.api
  let asd ← loadScanner files.asd
  .ok ⟨files.oscap.map (OscapFiles.input R U), api, asd⟩

/-- `open(path, "w", encoding="utf-8").write(s)`: there are no bytes for a surrogate. -/
def encoded (s : Text) : Except Halt Text :=
  if s.all fun c => !Json.isHigh c && !Json.isLow c then .ok s else .error .stops

/-- The texts of the two files. -/
structure Output where
  ckl : Text
  cklb : Text
  deriving DecidableEq, Repr

/-- A run: the `.ckl` is written before the `.cklb`. -/
def main (uuids uuids' : ℕ → Uuid) (uuid : Uuid) (generated : Stamp) (files : Files) (asset target : Argument) :
    Except Halt Output := do
  let inputs ← files.inputs R U
  let istigs ← (consolidate U inputs).mapError fun _ => Halt.stops
  let ckl ← encoded (writeCkl uuids istigs asset.text target.text)
  let cklb ← encoded ((writeCklb uuids' uuid generated.text istigs asset.text target.text).json.dump 0)
  .ok ⟨ckl, cklb⟩

end Build

/-! ### What is reported -/

/-- What an importer finds in a `.cklb`: of each STIG, the controls with their status. -/
def reported (doc : Json.Value) : List (Option Text × List (Option Text × Option Text)) :=
  (doc.itemsOf "stigs").map fun stig => (stig.textOf "stig_id",
    (stig.itemsOf "rules").map fun rule => (rule.textOf "group_id", rule.textOf "status"))

end SecureLedger.Checklist
