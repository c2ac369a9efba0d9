import SecureLedger.Checklist.Scanner

/-!
# Checklist.Oscap — from OpenSCAP results to the rules of the RHEL 9 STIG

An XCCDF document is the list of its elements, in the order in which `iterparse` ends them, with the
attributes and the children the script reads.  The datastream is a dictionary from short rule ids to
what was found of them.
-/

namespace SecureLedger.Checklist

open Py

/-- `OSCAP_STATUS`. -/
def oscapStatus : List (Text × Status) :=
  [(lit "pass", .notAFinding), (lit "fixed", .notAFinding), (lit "fail", .opened),
    (lit "notapplicable", .notApplicable), (lit "notchecked", .notReviewed),
    (lit "notselected", .notReviewed), (lit "informational", .notReviewed),
    (lit "unknown", .notReviewed), (lit "error", .notReviewed)]

/-- A tag without its namespace, which a closing brace ends. -/
def localname (tag : Text) : Text := tag.rtakeWhile (·.val ≠ 0x7D)

/-- What follows the first `sub` in a text, if there is one. -/
def splitAfter (sub : Text) : Text → Option Text
  | [] => if sub.isEmpty then some [] else none
  | c :: s => if sub.isPrefixOf (c :: s) then some ((c :: s).drop sub.length) else splitAfter sub s

/-- `s.split("content_rule_", 1)[1] if "content_rule_" in s else s`. -/
def shortId (s : Text) : Text := (splitAfter (lit "content_rule_") s).getD s

/-- A child element. -/
structure Child where
  tag : Text
  text : Value
  system : Option Text
  deriving DecidableEq, Repr

/-- An element. -/
structure Element where
  tag : Text
  idref : Option Text
  severity : Option Text
  children : List Child
  deriving DecidableEq, Repr

/-- What the datastream says of a rule. -/
structure DsRule where
  title : Text
  stigId : Text
  cce : Text
  vid : Text
  svid : Text
  ccis : List Text
  deriving DecidableEq, Repr

/-- What a line of the not-applicable file adds to the set; `none` for blank lines and comments. -/
def naRule (line : Text) : Option Text :=
  let s := strip line
  if s.isEmpty || (lit "#").isPrefixOf s then none else some (shortId (firstWord s))

/-- The short ids of the rules listed as not applicable, from the lines that could be read. -/
def loadNaRules (lines : List Text) : List Text := lines.filterMap naRule

/-- One turn of the loop over the children: the result and the CCE so far. -/
def readChild (U : Unicode) (acc : Text × Text) (ch : Child) : Text × Text :=
  let ln := localname ch.tag
  if ln = lit "result" then (strip (orElse ch.text []), acc.2)
  else if ln = lit "ident" ∧ (splitAfter (lit "cce") (U.lower (ch.system.getD []))).isSome then
    (acc.1, strip (orElse ch.text []))
  else acc

/-- The rule of a `rule-result`; `none` for other elements and for rules that were not evaluated. -/
def ruleOfElement (U : Unicode) (dsmeta : List (Text × DsRule)) (naRules : List Text) (el : Element) :
    Option Rule :=
  if localname el.tag ≠ lit "rule-result" then none
  else
    let short := shortId (el.idref.getD [])
    let sev := el.severity.getD (lit "medium")
    let read := el.children.foldl (readChild U) ([], [])
    let result := read.1
    if [[], lit "notselected"].contains result then none
    else
      let m := dsmeta.lookup short
      let stigId := (m.map DsRule.stigId).getD short
      let vid := orElse (m.map DsRule.vid) stigId
      let svid := orElse (m.map DsRule.svid) (stigId ++ lit "r1_rule")
      let status := if naRules.contains short then .notApplicable
        else (oscapStatus.lookup result).getD .notReviewed
      let naNote := if naRules.contains short then
          lit " | Not Applicable to a container base image (documented determination)."
        else []
      let cce := orElse (some read.2) (orElse (m.map DsRule.cce) [])
      some {
        vulnNum := vid
        ruleId := svid
        ruleVer := stigId
        ruleTitle := some (orElse (m.map DsRule.title) short)
        severity := sevToCat U (some sev)
        status := status
        findingDetails := lit "OpenSCAP result: " ++ result ++ lit " (rule " ++ short ++
          (if cce.isEmpty then [] else lit ", " ++ cce) ++ lit ")" ++ naNote
        comments := some (lit "SSG rule " ++ short)
        checkContent := some (lit "Evaluated by OpenSCAP/SCAP Security Guide (rule " ++ short ++ lit ").")
        fixText := some []
        ccis := (m.map DsRule.ccis).getD [] }

/-- The iSTIG of an OpenSCAP result. -/
def parseOscap (U : Unicode) (dsmeta : List (Text × DsRule)) (naRules : List Text)
    (elements : List Element) : IStig :=
  ⟨stigMeta .rhel9, elements.filterMap (ruleOfElement U dsmeta naRules)⟩

end SecureLedger.Checklist
