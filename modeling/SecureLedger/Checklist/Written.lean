import SecureLedger.Checklist.RoundTrip

/-!
# Checklist.Written — what a run leaves

The `.ckl` is written first and has no bytes for a surrogate: a run leaves its files unless one stands in a
string that is reported (`run_leaves_files`).  What it leaves reports each control of the scanners once, with the
status its findings call for (`findings_reported`).
-/

namespace SecureLedger.Checklist

open Py
open Json (Whole Decoded decoded_lit decoded_append)

/-! ### What cannot be encoded -/

section Encoded

variable {R : Classes} {U : Unicode} {files : Files} {inputs : Inputs} {istigs : List IStig}

theorem encoded_eq_ok {s t : Text} : encoded s = .ok t ↔ t = s ∧ Decoded s := by
  have hall : (s.all fun c => !Json.isHigh c && !Json.isLow c) ↔ Decoded s := by
    simp [Json.Decoded]
  unfold encoded
  split
  · next h => simp [hall.mp h, eq_comm]
  · next h => simp [mt hall.mpr h]

theorem decoded_escape {s : Text} : Decoded (escape s) ↔ Decoded s := by
  have hcode : ∀ c, Decoded (Xml.escapeCode c) ↔ ¬ Json.isHigh c ∧ ¬ Json.isLow c := by
    intro c
    unfold Xml.escapeCode
    split
    · next h => subst h; exact iff_of_true (decoded_lit _) (by decide)
    split
    · next h => subst h; exact iff_of_true (decoded_lit _) (by decide)
    split
    · next h => subst h; exact iff_of_true (decoded_lit _) (by decide)
    · exact List.forall_mem_singleton
  exact decoded_flatMap.trans (forall_congr' fun c => imp_congr_right fun _ => hcode c)

theorem decoded_esc {v : Value} : Decoded (esc v) ↔ ∀ s ∈ v, Decoded s := by
  cases v with
  | none => exact iff_of_true Json.decoded_nil fun s hs => by cases hs
  | some s => simp [esc_some, decoded_escape]

theorem decoded_str {v : Value} : Decoded (str v) ↔ ∀ s ∈ v, Decoded s := by
  cases v with
  | none => exact iff_of_true (decoded_lit _) fun s hs => by cases hs
  | some s => simp [str]

theorem decoded_stigData {attr : String} {v : Value} : Decoded (stigData attr v) ↔ ∀ s ∈ v, Decoded s := by
  simp only [stigData, decoded_append, decoded_lit, decoded_esc, true_and, and_true]
  simp [decoded_str]

theorem decoded_si {name : String} {s : Text} : Decoded (si name s) ↔ Decoded s := by
  simp [si, decoded_append, decoded_lit, decoded_esc]

theorem decoded_vulnParts {m : StigMeta} (hm : Decoded m.title) {r : Rule} :
    (∀ s ∈ vulnParts m r, Decoded s) ↔ r.All Decoded := by
  have hseverity : Decoded r.severity.text := by cases r.severity <;> exact decoded_lit _
  have hstatus : Decoded r.status.text := by cases r.status <;> exact decoded_lit _
  simp only [vulnParts, List.forall_mem_append, List.forall_mem_cons, List.forall_mem_map, List.not_mem_nil,
    false_implies, implies_true, and_true, true_and, decoded_stigData, decoded_append, decoded_lit, decoded_esc,
    Option.mem_some, forall_eq', hseverity, hstatus, hm]
  constructor
  · rintro ⟨⟨⟨hvuln, htitle, hid, hver, -, hcheck, -, hfix⟩, hccis⟩, hdetails, hcomments⟩
    exact ⟨hvuln, hid, hver, htitle, hdetails, hcomments, hcheck, hfix, hccis⟩
  · intro h
    exact ⟨⟨⟨h.vulnNum, h.ruleTitle, h.ruleId, h.ruleVer, h.ruleTitle, h.checkContent, h.checkContent, h.fixText⟩,
      h.ccis⟩, h.findingDetails, h.comments⟩

/-- One surrogate is enough. -/
theorem decoded_writeCkl (uuids : ℕ → Uuid) (h : ∀ ist ∈ istigs, ∃ key, ist.head = stigMeta key)
    {asset target : Text} : Decoded (writeCkl uuids istigs asset target) ↔
      Decoded asset ∧ Decoded target ∧ ∀ ist ∈ istigs, ∀ r ∈ ist.rules, r.All Decoded := by
  have huuid : ∀ u : Uuid, Decoded u.text := fun u c hc => decoded_lit _ c (u.hex c hc)
  have histig : ∀ ist ∈ istigs, ∀ u, (∀ s ∈ istigParts u ist, Decoded s) ↔ ∀ r ∈ ist.rules, r.All Decoded := by
    intro ist hist u
    obtain ⟨key, hkey⟩ := h ist hist
    obtain ⟨hstigid, htitle, hversion, hrelease, -⟩ := stigMeta_decoded key
    rw [← hkey] at hstigid htitle hversion hrelease
    simp only [istigParts, List.forall_mem_append, List.forall_mem_cons, List.not_mem_nil, false_implies,
      implies_true, and_true, true_and, decoded_lit, decoded_si, hstigid, htitle, hversion, hrelease, huuid]
    simp only [List.mem_flatMap, forall_exists_index, and_imp]
    rw [forall_comm]
    refine forall_congr' fun r => forall_comm.trans (imp_congr_right fun _ => decoded_vulnParts htitle)
  have hzip : (∀ s ∈ istigs.zipIdx.flatMap fun p => istigParts (uuids p.2) p.1, Decoded s) ↔
      ∀ ist ∈ istigs, ∀ r ∈ ist.rules, r.All Decoded := by
    constructor
    · intro hall ist hist
      obtain ⟨i, hi⟩ := List.mem_iff_getElem?.mp hist
      refine (histig ist hist (uuids i)).mp fun s hs => hall s (List.mem_flatMap.mpr ⟨(ist, i), ?_, hs⟩)
      exact List.mem_zipIdx_iff_getElem?.mpr hi
    · intro hall s hs
      obtain ⟨p, hp, hs⟩ := List.mem_flatMap.mp hs
      have hist := List.mem_of_getElem? (List.mem_zipIdx_iff_getElem?.mp hp)
      exact (histig p.1 hist (uuids p.2)).mpr (hall p.1 hist) s hs
  rw [writeCkl, decoded_join (decoded_lit _), List.forall_mem_append, List.forall_mem_append, hzip]
  simp only [headParts, List.forall_mem_cons, List.not_mem_nil, false_implies, implies_true, and_true, true_and,
    decoded_append, decoded_lit, decoded_esc, Option.mem_some, forall_eq']
  tauto

theorem head_of_consolidate (h : consolidate U inputs = .ok istigs) :
    ∀ ist ∈ istigs, ∃ key, ist.head = stigMeta key := by
  obtain ⟨oscap, api, asd, hoscap, hapi, hasd, rfl⟩ := consolidate_ok h
  have hscanner : ∀ {o : Option (List Finding)} {key : StigKey} {l : List IStig},
      o.toList.mapM (parseScannerJson U key) = .ok l → ∀ ist ∈ l, ∃ key, ist.head = stigMeta key := by
    intro o key l hl ist hist
    obtain ⟨findings, -, hparse⟩ := Lists.exists_of_mem_right (Lists.mapM_eq_ok.mp hl) hist
    exact ⟨key, (rules_of_ok hparse).1⟩
  simp only [List.mem_append, or_imp, forall_and]
  refine ⟨⟨fun ist hist => ?_, hscanner hapi⟩, hscanner hasd⟩
  obtain ⟨o, -, rfl⟩ := hoscap ist hist
  exact ⟨.rhel9, rfl⟩

theorem mapError_eq_ok {ε ε' α : Type} {f : ε → ε'} {x : Except ε α} {a : α} :
    x.mapError f = .ok a ↔ x = .ok a := by
  cases x with
  | error e => exact iff_of_false (fun h => by cases h) fun h => by cases h
  | ok b => exact ⟨fun h => by cases h; rfl, fun h => by cases h; rfl⟩

variable {uuids uuids' : ℕ → Uuid} {uuid : Uuid} {generated : Stamp} {asset target : Argument} {out : Output}

/-- What a run has gone through that leaves its files. -/
theorem of_main (h : main R U uuids uuids' uuid generated files asset target = .ok out) :
    ∃ inputs istigs, files.inputs R U = .ok inputs ∧ consolidate U inputs = .ok istigs ∧
      (Decoded asset.text ∧ Decoded target.text ∧ ∀ ist ∈ istigs, ∀ r ∈ ist.rules, r.All Decoded) ∧
      out.ckl = writeCkl uuids istigs asset.text target.text ∧
      out.cklb = (writeCklb uuids' uuid generated.text istigs asset.text target.text).json.dump 0 := by
  obtain ⟨inputs, hinputs, h⟩ := Lists.bind_eq_ok h
  obtain ⟨istigs, histigs, h⟩ := Lists.bind_eq_ok h
  obtain ⟨ckl, hckl, h⟩ := Lists.bind_eq_ok h
  obtain ⟨cklb, hcklb, h⟩ := Lists.bind_eq_ok h
  cases h
  obtain ⟨rfl, hdecoded⟩ := encoded_eq_ok.mp hckl
  obtain ⟨rfl, -⟩ := encoded_eq_ok.mp hcklb
  have hconsolidate := mapError_eq_ok.mp histigs
  exact ⟨inputs, istigs, hinputs, hconsolidate,
    (decoded_writeCkl uuids (head_of_consolidate hconsolidate)).mp hdecoded, rfl, rfl⟩

theorem cklb_wf_of_decoded (hconsolidate : consolidate U inputs = .ok istigs)
    (hdecoded : ∀ ist ∈ istigs, ∀ r ∈ ist.rules, r.All Decoded) :
    (writeCklb uuids' uuid generated.text istigs asset.text target.text).json.Wf :=
  cklb_wf uuids' uuid generated (fun ist hist => ⟨head_of_consolidate hconsolidate ist hist, fun r hr =>
    (hdecoded ist hist r hr).imp fun _ => Decoded.whole⟩) asset target

/-! ### What is followed to its end -/

example : loadFindings (lit "\x7b\"findings\": \x7b\x7d\x7d") = .ok [] := by decide +kernel

example : loadFindings (lit "\x7b\"findings\": [\x7b\"title\": 5\x7d]\x7d") = .error .unsupported := by decide +kernel

example : loadFindings (lit "\x7b\"findings\": \"V-1\"\x7d") = .error .stops := by decide +kernel

end Encoded

/-! ### What is reported -/

section Reported

variable {R : Classes} {U : Unicode} {files : Files} {istigs : List IStig}

theorem member_object {items : List (String × Json.Value)} {key : String} :
    (object items).member? key = items.lookup key := by
  show (items.map fun p => (lit p.1, p.2)).lookup (lit key) = items.lookup key
  induction items with
  | nil => rfl
  | cons p items ih =>
    have hkey : (lit key == lit p.1) = (key == p.1) := by
      rw [Bool.eq_iff_iff, beq_iff_eq, beq_iff_eq, lit_inj]
    rw [List.map_cons, List.lookup_cons, List.lookup_cons, ih, hkey]

/-- The status of a rule, in the words of the `.cklb`. -/
def cklbStatus (s : Status) : Text := (cklToCklb.lookup s.text).getD (lit "not_reviewed")

/-- What an importer finds of a STIG. -/
def row (ist : IStig) : Option Text × List (Option Text × Option Text) :=
  (some ist.head.stigid, ist.rules.map fun r => (some r.vulnNum, some (cklbStatus r.status)))

theorem reported_cklb (uuids : ℕ → Uuid) (uuid : Uuid) (generated asset target : Text) :
    reported (writeCklb uuids uuid generated istigs asset target).json = istigs.map row := by
  have hrule : ∀ r, ((cklbRule r).json.textOf "group_id", (cklbRule r).json.textOf "status") =
      (some r.vulnNum, some (cklbStatus r.status)) := by
    intro r
    simp only [Json.Value.textOf, CklbRule.json, member_object]
    rfl
  have hstig : ∀ p : IStig × ℕ, ((cklbStig (uuids p.2) p.1).json.textOf "stig_id",
      ((cklbStig (uuids p.2) p.1).json.itemsOf "rules").map fun rule =>
        (rule.textOf "group_id", rule.textOf "status")) = row p.1 := by
    intro p
    have hrules : (cklbStig (uuids p.2) p.1).json.itemsOf "rules" = p.1.rules.map fun r => (cklbRule r).json := by
      simp only [Json.Value.itemsOf, CklbStig.json, member_object]
      exact List.map_map ..
    rw [hrules, List.map_map, row]
    refine Prod.ext ?_ (List.map_congr_left fun r _ => hrule r)
    simp only [Json.Value.textOf, CklbStig.json, member_object]
    rfl
  have hstigs : (writeCklb uuids uuid generated istigs asset target).json.itemsOf "stigs" =
      istigs.zipIdx.map fun p => (cklbStig (uuids p.2) p.1).json := by
    simp only [Json.Value.itemsOf, Cklb.json, member_object]
    exact List.map_map ..
  unfold reported
  rw [hstigs, List.map_map]
  conv_rhs => rw [← List.zipIdx_map_fst 0 istigs, List.map_map]
  exact List.map_congr_left fun p _ => hstig p

theorem stigid_inj {key key' : StigKey} : (stigMeta key).stigid = (stigMeta key').stigid ↔ key = key' := by
  cases key <;> cases key' <;> decide

/-- The entries of a STIG among those of some STIG. -/
theorem filter_rows {key key' : StigKey} {l : List IStig} (h : ∀ ist ∈ l, ist.head = stigMeta key') :
    (l.map row).filter (·.1 = some (stigMeta key).stigid) = if key' = key then l.map row else [] := by
  have hrow : ∀ p ∈ l.map row, p.1 = some (stigMeta key').stigid := by
    intro p hp
    obtain ⟨ist, hist, rfl⟩ := List.mem_map.mp hp
    exact congrArg (fun m => some m.stigid) (h ist hist)
  split
  · next heq =>
    subst heq
    exact List.filter_eq_self.mpr fun p hp => decide_eq_true (hrow p hp)
  · next hne =>
    refine List.filter_eq_nil_iff.mpr fun p hp hkey => hne (stigid_inj.mp ?_)
    exact Option.some_inj.mp ((hrow p hp).symm.trans (of_decide_eq_true hkey))

/-- The iSTIG of one scanner's file. -/
theorem scanner_istig {key : StigKey} {contents : Contents} {o : Option (List Finding)}
    (ho : loadScanner (some contents) = .ok o) {l : List IStig}
    (h : o.toList.mapM (parseScannerJson U key) = .ok l) : ∃ findings ist,
      loadFindings contents.text = .ok findings ∧ parseScannerJson U key findings = .ok ist ∧ l = [ist] := by
  obtain ⟨findings, hload, rfl⟩ := loadScanner_some.mp ho
  obtain ⟨ist, l', hparse, hnil, rfl⟩ := List.forall₂_cons_left_iff.mp (Lists.mapM_eq_ok.mp h)
  cases hnil
  exact ⟨findings, ist, hload, hparse, rfl⟩

theorem heads_of_mapM {key : StigKey} {o : Option (List Finding)} {l : List IStig}
    (h : o.toList.mapM (parseScannerJson U key) = .ok l) : ∀ ist ∈ l, ist.head = stigMeta key := by
  intro ist hist
  obtain ⟨findings, -, hparse⟩ := Lists.exists_of_mem_right (Lists.mapM_eq_ok.mp h) hist
  exact (rules_of_ok hparse).1

/-- **Every control of a scanner is reported once**, as its findings call for, and nothing else under its STIG:
from the text of the scanner's file to the text of the `.cklb`, for documents that have strings, `null` or
nothing under the keys that are read. -/
theorem findings_reported {uuids uuids' : ℕ → Uuid} {uuid : Uuid} {generated : Stamp} {asset target : Argument}
    {out : Output} (h : main R U uuids uuids' uuid generated files asset target = .ok out) {key : StigKey}
    {contents : Contents} (hcontents : files.scanner key = some contents) :
    ∃ findings doc, ∃ rules : List (Text × Status),
      loadFindings contents.text = .ok findings ∧ Json.read out.cklb = some doc ∧
      (reported doc).filter (·.1 = some (stigMeta key).stigid) = [(some (stigMeta key).stigid,
        rules.map fun p => (some p.1, some (cklbStatus p.2)))] ∧
      (rules.map Prod.fst).Pairwise (· < ·) ∧
      ∀ p, p ∈ rules ↔ p.1 ≠ [] ∧ (∃ f ∈ findings, f.ctrl = p.1) ∧ Calls (ofControl findings p.1) p.2 := by
  obtain ⟨inputs, istigs, hinputs, hconsolidate, hdecoded, -, hcklb⟩ := of_main h
  have hread := Json.read_dump
    (@cklb_wf_of_decoded U inputs istigs uuids' uuid generated asset target hconsolidate hdecoded.2.2)
  rw [← hcklb] at hread
  obtain ⟨-, hapiFile, hasdFile⟩ := inputs_eq_ok.mp hinputs
  obtain ⟨oscap, api, asd, hoscap, hapi, hasd, rfl⟩ := consolidate_ok hconsolidate
  have hrhel : ∀ ist ∈ oscap, ist.head = stigMeta .rhel9 := by
    intro ist hist
    obtain ⟨o, -, rfl⟩ := hoscap ist hist
    rfl
  have hone : ∃ findings ist, loadFindings contents.text = .ok findings ∧
      parseScannerJson U key findings = .ok ist ∧
      ((oscap ++ api ++ asd).map row).filter (·.1 = some (stigMeta key).stigid) = [row ist] := by
    rw [List.map_append, List.map_append, List.filter_append, List.filter_append, filter_rows hrhel,
      filter_rows (heads_of_mapM hapi), filter_rows (heads_of_mapM hasd)]
    cases key with
    | rhel9 => cases hcontents
    | api =>
      rw [show files.api = some contents from hcontents] at hapiFile
      obtain ⟨findings, ist, hload, hparse, rfl⟩ := scanner_istig hapiFile hapi
      exact ⟨findings, ist, hload, hparse, rfl⟩
    | asd =>
      rw [show files.asd = some contents from hcontents] at hasdFile
      obtain ⟨findings, ist, hload, hparse, rfl⟩ := scanner_istig hasdFile hasd
      exact ⟨findings, ist, hload, hparse, rfl⟩
  obtain ⟨findings, ist, hload, hparse, hrows⟩ := hone
  obtain ⟨rules, hok, hsorted, hrules⟩ := parseScannerJson_ok U key (stigId_of_ok hparse)
  obtain rfl : (⟨stigMeta key, rules⟩ : IStig) = ist := Except.ok.inj (hok.symm.trans hparse)
  refine ⟨findings, _, rules.map fun r => (r.vulnNum, r.status), hload, hread, ?_, ?_, fun p => ?_⟩
  · rw [reported_cklb, hrows, row, List.map_map]
    rfl
  · rw [List.map_map]
    exact hsorted
  · rw [mem_id_status hrules]
    refine and_congr_right fun _ => and_congr_left fun _ => ?_
    constructor
    · intro hne
      obtain ⟨f, hf⟩ := List.exists_mem_of_ne_nil _ hne
      exact ⟨f, mem_ofControl.mp hf⟩
    · rintro ⟨f, hf⟩
      exact List.ne_nil_of_mem (mem_ofControl.mpr hf)

end Reported
end SecureLedger.Checklist

/-! ### On a sample -/

namespace SecureLedger.Checklist.Sample

open Py
open Json (Whole Decoded decoded_lit)

theorem ascii_whole (s : Text) (h : Whole s) : Whole (ascii.upper s) := by
  refine (List.isChain_map _).mpr (h.imp fun a b hab hpair => ?_)
  split at hpair
  · exact absurd hpair.1 (Json.not_surrogate _).1
  split at hpair
  · exact absurd hpair.2 (Json.not_surrogate _).2
  · exact hab hpair

theorem ok_of_isOk {ε α : Type} {x : Except ε α} (h : x.isOk = true) : ∃ a, x = .ok a := by
  cases x with
  | error e => cases h
  | ok a => exact ⟨a, rfl⟩

def host : Argument := ⟨lit "ledger", fun c hc => (decoded_lit _ c hc).1⟩

def noon : Stamp := ⟨lit "2026-01-01T12:00:00+00:00", by simp [lit]⟩

def document (s : String) : Contents := ⟨lit s, decoded_lit s⟩

/-- A run on one document of the API scanner. -/
def scanned (contents : Contents) : Files := ⟨none, some contents, none⟩

/-- The first half of a surrogate pair, escaped alone. -/
def half : Contents := document "\x7b\"findings\": [\x7b\"stig_id\": \"V-1\", \"title\": \"\\ud83d\"\x7d]\x7d"

/-- The `.cklb` would be readable, but the `.ckl` stops the run. -/
theorem half_reads_back : ∃ inputs istigs, (scanned half).inputs classes ascii = .ok inputs ∧
    consolidate ascii inputs = .ok istigs ∧
    Json.read ((writeCklb (fun _ => uuid) uuid noon.text istigs host.text host.text).json.dump 0) =
      some (writeCklb (fun _ => uuid) uuid noon.text istigs host.text host.text).json ∧
    main classes ascii (fun _ => uuid) (fun _ => uuid) uuid noon (scanned half) host host = .error .stops := by
  have hok : ∃ istigs, (((scanned half).inputs classes ascii).bind fun inputs =>
      (consolidate ascii inputs).mapError fun _ => Halt.stops) = .ok istigs :=
    ok_of_isOk (by decide +kernel)
  obtain ⟨istigs, h⟩ := hok
  obtain ⟨inputs, hinputs, h⟩ := Lists.bind_eq_ok h
  have hconsolidate := mapError_eq_ok.mp h
  exact ⟨inputs, istigs, hinputs, hconsolidate, (cklb_reads_back ascii_whole hinputs hconsolidate _ uuid noon
    host host).2, by decide +kernel⟩

/-- A pass and a failure of the same control. -/
def twice : Contents := document <| "\x7b\"findings\": [\x7b\"stig_id\": \" V-2 \", \"status\": \"pass\", " ++
  "\"title\": \"\\ud83d\\ude00\"\x7d, \x7b\"stig_id\": \"V-2\", \"status\": \"fail\"\x7d]\x7d"

def reportedTwice : List Finding :=
  [⟨.str (lit " V-2 "), .str [code '😀'], .absent, .str (lit "pass"), .absent, .absent, .absent, .absent⟩,
    ⟨.str (lit "V-2"), .absent, .absent, .str (lit "fail"), .absent, .absent, .absent, .absent⟩]

theorem twice_reported : ∃ out doc, main classes ascii (fun _ => uuid) (fun _ => uuid) uuid noon (scanned twice)
    host host = .ok out ∧ Json.read out.cklb = some doc ∧ ∃ rules : List (Text × Status),
      (reported doc).filter (·.1 = some (stigMeta .api).stigid) = [(some (stigMeta .api).stigid,
        rules.map fun p => (some p.1, some (cklbStatus p.2)))] ∧ (lit "V-2", .opened) ∈ rules := by
  have hcontents : (scanned twice).scanner .api = some twice := rfl
  obtain ⟨out, hout⟩ : ∃ out, main classes ascii (fun _ => uuid) (fun _ => uuid) uuid noon (scanned twice) host
      host = .ok out :=
    ok_of_isOk (by decide +kernel)
  obtain ⟨findings, doc, rules, hload, hread, hrows, -, hrules⟩ :=
    findings_reported hout hcontents
  refine ⟨out, doc, hout, hread, rules, hrows, (hrules (lit "V-2", .opened)).mpr ?_⟩
  obtain rfl : reportedTwice = findings := Except.ok.inj ((by decide +kernel : loadFindings twice.text =
    .ok reportedTwice).symm.trans hload)
  exact ⟨by decide, ⟨_, List.mem_cons_self .., by decide +kernel⟩, aggStatus_calls ..⟩

end SecureLedger.Checklist.Sample
