import SecureLedger.Checklist.Written

/-!
# Checklist.Importers — two importers of one run

Of what one run leaves, an importer of the `.ckl` that can read it and an importer of the `.cklb` find the same
STIGs, with the same controls in the same order and the same statuses (`importers_agree`).  XML gives back the
line ends of an id as `\n`, JSON as they were.
-/

namespace SecureLedger.Checklist

open Py Xml

/-- The value of a name in a STIG_INFO. -/
def infoValue (name : String) (info : List Node) : Value :=
  ((childrenOf (lit "SI_DATA") info).find? fun data =>
    childText "SID_NAME" data = some (lit name)).bind (childText "SID_DATA")

/-- What an importer finds in a `.ckl`: of each STIG, the controls with their status. -/
def reportedCkl : Node → List (Option Text × List (Option Text × Option Text))
  | .char _ => []
  | .elem _ content =>
    (childrenOf (lit "STIGS") content).flatMap fun stigs =>
      (childrenOf (lit "iSTIG") stigs).map fun ist =>
        ((childrenOf (lit "STIG_INFO") ist).head?.bind (infoValue "stigid"),
          (childrenOf (lit "VULN") ist).map fun vuln => (vulnAttribute "Vuln_Num" vuln, childText "STATUS" vuln))

section Importers

variable {R : Classes} {U : Unicode} {files : Files} {istigs : List IStig}

theorem infoValue_stigid (uuid : Uuid) (m : StigMeta) :
    infoValue "stigid" (infoNodes uuid m) = some (normalize false m.stigid) := by
  have hnames : lit "SI_DATA" = lit "SI_DATA" ∧ lit "SID_NAME" ≠ lit "SID_DATA" := by decide
  have hplain : normalize false (lit "version") = lit "version" ∧ normalize false (lit "stigid") = lit "stigid" := by
    decide
  have hother : lit "version" ≠ lit "stigid" := by decide
  unfold infoValue infoNodes
  simp [childrenOf_unlines, siNode, childText, chars, newline, hplain, hother, hnames.2]

/-- What is found in the tree that the `.ckl` is read as. -/
theorem reportedCkl_checklist (uuids : ℕ → Uuid) (asset target : Text) :
    reportedCkl (.elem (lit "CHECKLIST") (checklistNodes uuids istigs asset target)) =
      istigs.map fun ist => (some (normalize false ist.head.stigid),
        ist.rules.map fun r => (some (normalize false r.vulnNum), some r.status.text)) := by
  have hnames : lit "ASSET" ≠ lit "STIGS" ∧ lit "STIG_INFO" ≠ lit "VULN" ∧ lit "VULN" ≠ lit "STIG_INFO" := by decide
  have hvuln : ∀ m r, (vulnAttribute "Vuln_Num" (vulnNodes m r), childText "STATUS" (vulnNodes m r)) =
      (some (normalize false r.vulnNum), some r.status.text) := by
    intro m r
    have hread := readVuln_eq m r
    exact Prod.ext (congrArg Vuln.vulnNum hread) (congrArg Vuln.status hread)
  have hvulns : ∀ uuid (ist : IStig), childrenOf (lit "VULN") (istigNodes uuid ist) =
      ist.rules.map (vulnNodes ist.head) := by
    intro uuid ist
    simp only [istigNodes, newline, childrenOf_append, childrenOf_char, childrenOf_elem, childrenOf_nil,
      childrenOf_flatMap, hnames, if_false, if_true, List.nil_append]
    exact List.flatMap_pure_eq_map ..
  have hinfo : ∀ uuid (ist : IStig), (childrenOf (lit "STIG_INFO") (istigNodes uuid ist)).head? =
      some (infoNodes uuid ist.head) := by
    intro uuid ist
    simp only [istigNodes, newline, childrenOf_char, childrenOf_elem, if_true, List.nil_append,
      List.cons_append, List.head?_cons]
  have hstig : ∀ uuid (ist : IStig), ((childrenOf (lit "STIG_INFO") (istigNodes uuid ist)).head?.bind
      (infoValue "stigid"), (childrenOf (lit "VULN") (istigNodes uuid ist)).map fun vuln =>
        (vulnAttribute "Vuln_Num" vuln, childText "STATUS" vuln)) = (some (normalize false ist.head.stigid),
          ist.rules.map fun r => (some (normalize false r.vulnNum), some r.status.text)) := by
    intro uuid ist
    rw [hinfo, hvulns, Option.bind_some, infoValue_stigid, List.map_map]
    exact congrArg _ (List.map_congr_left fun r _ => hvuln ist.head r)
  simp only [reportedCkl, checklistNodes, newline, childrenOf_append, childrenOf_char, childrenOf_elem,
    childrenOf_nil, childrenOf_flatMap, hnames, if_false, if_true, List.nil_append, List.flatMap_cons,
    List.flatMap_nil, List.append_nil, List.map_flatMap, List.map_cons, List.map_nil, hstig]
  conv_rhs => rw [← List.zipIdx_map_fst 0 istigs, List.map_map]
  exact List.flatMap_pure_eq_map ..

/-- The file of a run is read as the tree of its STIGs. -/
theorem read_ckl {uuids : ℕ → Uuid} {asset target : Text} (hheads : ∀ ist ∈ istigs, ∃ key, ist.head = stigMeta key)
    {root : Node} (h : Xml.read (writeCkl uuids istigs asset target) = some root) :
    root = .elem (lit "CHECKLIST") (checklistNodes uuids istigs asset target) := by
  obtain ⟨hasset, htarget, hrules⟩ := texts_of_read h
  have htext : ∀ ist ∈ istigs, IStigText ist := by
    intro ist hist
    obtain ⟨key, hkey⟩ := hheads ist hist
    obtain ⟨hversion, hstigid, htitle, hrelease⟩ := stigMeta_text key
    rw [← hkey] at hversion hstigid htitle hrelease
    exact ⟨hversion, hstigid, htitle, hrelease, hrules ist hist⟩
  exact Option.some_inj.mp (h.symm.trans (read_writeCkl uuids hasset htarget htext))

/-- **Both importers find the same**, wherever the `.ckl` can be read, for scanner documents with strings, `null`
or nothing under the keys that are read. -/
theorem importers_agree {uuids uuids' : ℕ → Uuid} {uuid : Uuid} {generated : Stamp} {asset target : Argument}
    {out : Output} (h : main R U uuids uuids' uuid generated files asset target = .ok out) {root : Node}
    (hroot : Xml.read out.ckl = some root) : ∃ doc, Json.read out.cklb = some doc ∧
      (reportedCkl root).map (fun stig => (stig.1, stig.2.map fun row =>
        (row.1, row.2.bind fun status => cklToCklb.lookup status))) =
      (reported doc).map fun stig => (stig.1, stig.2.map fun row => (row.1.map (normalize false), row.2)) := by
  obtain ⟨inputs, istigs, -, hconsolidate, hdecoded, hckl, hcklb⟩ := of_main h
  have hheads := head_of_consolidate hconsolidate
  have hread := Json.read_dump
    (@cklb_wf_of_decoded U inputs istigs uuids' uuid generated asset target hconsolidate hdecoded.2.2)
  rw [← hcklb] at hread
  rw [hckl] at hroot
  refine ⟨_, hread, ?_⟩
  rw [read_ckl hheads hroot, reportedCkl_checklist, reported_cklb, List.map_map, List.map_map]
  refine List.map_congr_left fun ist hist => ?_
  obtain ⟨key, hkey⟩ := hheads ist hist
  have hstigid : normalize false ist.head.stigid = ist.head.stigid := by
    rw [hkey]
    cases key <;> decide
  have hstatus : ∀ s : Status, cklToCklb.lookup s.text = some (cklbStatus s) := by
    intro s
    cases s <;> decide
  simp only [Function.comp_apply, row, List.map_map, hstigid]
  exact congrArg _ (List.map_congr_left fun r _ => Prod.ext rfl (hstatus r.status))

end Importers
end SecureLedger.Checklist

/-! ### On a sample -/

namespace SecureLedger.Checklist.Sample

open Py Xml

theorem twice_agree : ∃ out root doc, main classes ascii (fun _ => uuid) (fun _ => uuid) uuid noon (scanned twice)
    host host = .ok out ∧ Xml.read out.ckl = some root ∧ Json.read out.cklb = some doc ∧
    (reportedCkl root).map (fun stig => (stig.1, stig.2.map fun row =>
      (row.1, row.2.bind fun status => cklToCklb.lookup status))) =
    (reported doc).map fun stig => (stig.1, stig.2.map fun row => (row.1.map (normalize false), row.2)) := by
  obtain ⟨root, h⟩ : ∃ root, ((main classes ascii (fun _ => uuid) (fun _ => uuid) uuid noon (scanned twice) host
      host).toOption.bind fun out => Xml.read out.ckl) = some root :=
    Option.isSome_iff_exists.mp (by decide +kernel)
  obtain ⟨out, hout, hroot⟩ := Option.bind_eq_some_iff.mp h
  have hok : main classes ascii (fun _ => uuid) (fun _ => uuid) uuid noon (scanned twice) host host = .ok out := by
    cases hmain : main classes ascii (fun _ => uuid) (fun _ => uuid) uuid noon (scanned twice) host host with
    | error e => rw [hmain] at hout; cases hout
    | ok out' => rw [hmain] at hout; cases hout; rfl
  obtain ⟨doc, hread, hagree⟩ := importers_agree hok hroot
  exact ⟨out, root, doc, hok, hroot, hread, hagree⟩

end SecureLedger.Checklist.Sample
