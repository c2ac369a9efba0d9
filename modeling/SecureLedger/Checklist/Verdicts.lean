import SecureLedger.Checklist.Controls

/-!
# Checklist.Verdicts — the status of a control, from the findings to both files

A control is open exactly if one of its findings failed, whatever the others say (`Calls`), and a
control that is open is open in both files (`no_finding_lost`).
-/

namespace SecureLedger.Checklist

open Py

variable {U : Unicode} {key : StigKey} {findings : List Finding}

/-! ### The aggregate -/

/-- `s` is the status the findings of a control call for. -/
structure Calls (fs : List Finding) (s : Status) : Prop where
  opened : s = .opened ↔ ∃ f ∈ fs, f.status = .str (lit "fail")
  notReviewed : s ≠ .opened → (s = .notReviewed ↔
    ∃ f ∈ fs, f.status ≠ .str (lit "pass") ∧ f.status ≠ .str (lit "not_applicable"))
  notAFinding : s ≠ .opened → s ≠ .notReviewed →
    (s = .notAFinding ↔ ∃ f ∈ fs, f.status = .str (lit "pass"))

/-- The ranks, by what a finding has as its status. -/
theorem rank_statusOr (f : Finding) :
    (rank f.statusOr = 3 ∧ f.status = .str (lit "fail")) ∨
    (rank f.statusOr = 2 ∧ f.status ≠ .str (lit "fail") ∧ f.status ≠ .str (lit "pass") ∧
      f.status ≠ .str (lit "not_applicable")) ∨
    (rank f.statusOr = 1 ∧ f.status = .str (lit "pass")) ∨
    (rank f.statusOr = 0 ∧ f.status = .str (lit "not_applicable")) := by
  unfold Finding.statusOr
  cases f.status with
  | absent => exact .inr (.inl (by decide))
  | null => exact .inr (.inl (by decide))
  | str s =>
    simp only [Field.get, Field.str.injEq]
    by_cases hfail : s = lit "fail"
    · exact .inl ⟨by rw [hfail]; decide, hfail⟩
    by_cases hpass : s = lit "pass"
    · exact .inr (.inr (.inl ⟨by rw [hpass]; decide, hpass⟩))
    by_cases hna : s = lit "not_applicable"
    · exact .inr (.inr (.inr ⟨by rw [hna]; decide, hna⟩))
    refine .inr (.inl ⟨?_, by simpa using hfail, by simpa using hpass, by simpa using hna⟩)
    -- a known word of rank 2, or none
    simp only [rank, Option.bind_some, scannerRank, List.lookup_cons, List.lookup_nil]
    rw [beq_false_of_ne hfail, beq_false_of_ne hpass, beq_false_of_ne hna]
    dsimp only
    cases s == lit "error" <;> cases s == lit "skip" <;> cases s == lit "manual" <;> rfl

theorem rank_eq_three (f : Finding) : rank f.statusOr = 3 ↔ f.status = .str (lit "fail") := by
  rcases rank_statusOr f with ⟨h, hs⟩ | ⟨h, hs, -, -⟩ | ⟨h, hs⟩ | ⟨h, hs⟩
  · simp [h, hs]
  · simp [h, hs]
  · rw [h, hs]; decide
  · rw [h, hs]; decide

theorem rank_eq_one (f : Finding) : rank f.statusOr = 1 ↔ f.status = .str (lit "pass") := by
  rcases rank_statusOr f with ⟨h, hs⟩ | ⟨h, -, hs, -⟩ | ⟨h, hs⟩ | ⟨h, hs⟩
  · rw [h, hs]; decide
  · simp [h, hs]
  · simp [h, hs]
  · rw [h, hs]; decide

theorem rank_eq_zero (f : Finding) : rank f.statusOr = 0 ↔ f.status = .str (lit "not_applicable") := by
  rcases rank_statusOr f with ⟨h, hs⟩ | ⟨h, -, -, hs⟩ | ⟨h, hs⟩ | ⟨h, hs⟩
  · rw [h, hs]; decide
  · simp [h, hs]
  · rw [h, hs]; decide
  · simp [h, hs]

/-- The greatest rank of a control's findings. -/
theorem top_eq (f : Finding) (fs : List Finding) : ∃ g ∈ f :: fs,
    (((f :: fs).map Finding.statusOr).map rank).max?.getD 2 = rank g.statusOr ∧
      ∀ g' ∈ f :: fs, rank g'.statusOr ≤ rank g.statusOr := by
  have hsome := List.isSome_max?_of_ne_nil (l := ((f :: fs).map Finding.statusOr).map rank) (by simp)
  obtain ⟨m, hm⟩ := Option.isSome_iff_exists.mp hsome
  obtain ⟨hmem, hle⟩ := List.max?_eq_some_iff.mp hm
  rw [List.map_map] at hmem
  obtain ⟨g, hg, rfl⟩ := List.mem_map.mp hmem
  refine ⟨g, hg, by rw [hm]; rfl, fun g' hg' => hle _ ?_⟩
  rw [List.map_map]
  exact List.mem_map_of_mem (f := rank ∘ Finding.statusOr) hg'

/-- **The aggregate is the status called for.** -/
theorem aggStatus_calls (f : Finding) (fs : List Finding) :
    Calls (f :: fs) (aggStatus ((f :: fs).map Finding.statusOr)) := by
  obtain ⟨g, hg, htop, hle⟩ := top_eq f fs
  have hagg : aggStatus ((f :: fs).map Finding.statusOr) = if rank g.statusOr = 3 then .opened
      else if rank g.statusOr = 2 then .notReviewed
      else if rank g.statusOr = 1 then .notAFinding else .notApplicable := by
    unfold aggStatus
    dsimp only
    rw [htop]
  rw [hagg]
  have htop := rank_statusOr g
  refine ⟨?_, ?_, ?_⟩
  · split_ifs with h3 h2 h1
    · exact iff_of_true rfl ⟨g, hg, (rank_eq_three g).mp h3⟩
    all_goals
      refine iff_of_false (by simp) ?_
      rintro ⟨g', hg', hfail⟩
      have := hle g' hg'
      have := (rank_eq_three g').mpr hfail
      omega
  · split_ifs with h3 h2 h1
    · exact fun h => absurd rfl h
    · refine fun _ => iff_of_true rfl ⟨g, hg, fun h => ?_, fun h => ?_⟩
      · have := (rank_eq_one g).mpr h
        omega
      · have := (rank_eq_zero g).mpr h
        omega
    all_goals
      refine fun _ => iff_of_false (by simp) ?_
      rintro ⟨g', hg', hpass, hna⟩
      have := hle g' hg'
      have := mt (rank_eq_one g').mp hpass
      have := mt (rank_eq_zero g').mp hna
      omega
  · split_ifs with h3 h2 h1
    · exact fun h => absurd rfl h
    · exact fun _ h => absurd rfl h
    · exact fun _ _ => iff_of_true rfl ⟨g, hg, (rank_eq_one g).mp h1⟩
    · refine fun _ _ => iff_of_false (by simp) ?_
      rintro ⟨g', hg', hpass⟩
      have := hle g' hg'
      have := (rank_eq_one g').mpr hpass
      omega

theorem Calls.unique {fs : List Finding} {s s' : Status} (h : Calls fs s) (h' : Calls fs s') : s = s' := by
  have ho : s = .opened ↔ s' = .opened := by rw [h.opened, h'.opened]
  by_cases h1 : s = .opened
  · rw [h1, ho.mp h1]
  have h1' : s' ≠ .opened := mt ho.mpr h1
  have hn : s = .notReviewed ↔ s' = .notReviewed := by rw [h.notReviewed h1, h'.notReviewed h1']
  by_cases h2 : s = .notReviewed
  · rw [h2, hn.mp h2]
  have h2' : s' ≠ .notReviewed := mt hn.mpr h2
  have hp : s = .notAFinding ↔ s' = .notAFinding := by
    rw [h.notAFinding h1 h2, h'.notAFinding h1' h2']
  cases s <;> cases s' <;> simp_all

/-- Only which findings there are matters. -/
theorem Calls.of_mem {fs fs' : List Finding} {s : Status} (h : Calls fs s)
    (hmem : ∀ f, f ∈ fs ↔ f ∈ fs') : Calls fs' s := by
  have hex : ∀ {P : Finding → Prop}, (∃ f ∈ fs, P f) ↔ ∃ f ∈ fs', P f := fun {P} =>
    exists_congr fun f => and_congr_left' (hmem f)
  exact ⟨h.opened.trans hex, fun h1 => (h.notReviewed h1).trans hex,
    fun h1 h2 => (h.notAFinding h1 h2).trans hex⟩

/-! ### The order of the findings -/

theorem mem_id_status {rules : List Rule}
    (hrules : ∀ r, r ∈ rules ↔ ∃ vid f fs, vid ≠ [] ∧ ofControl findings vid = f :: fs ∧
      r = ruleFrom U key vid f (f :: fs)) (vid : Text) (s : Status) :
    (vid, s) ∈ rules.map (fun r => (r.vulnNum, r.status)) ↔
      vid ≠ [] ∧ ofControl findings vid ≠ [] ∧ Calls (ofControl findings vid) s := by
  constructor
  · intro hmem
    obtain ⟨r, hr, he⟩ := List.mem_map.mp hmem
    obtain ⟨vid', f, fs, hne, hfs, rfl⟩ := (hrules r).mp hr
    cases he
    rw [ruleFrom_vulnNum, hfs]
    exact ⟨hne, List.cons_ne_nil _ _, aggStatus_calls f fs⟩
  · rintro ⟨hne, hfs, hcalls⟩
    obtain ⟨f, fs, hfs⟩ := List.exists_cons_of_ne_nil hfs
    rw [hfs] at hcalls
    refine List.mem_map.mpr ⟨_, (hrules _).mpr ⟨vid, f, fs, hne, hfs, rfl⟩, ?_⟩
    exact congrArg (Prod.mk vid) ((aggStatus_calls f fs).unique hcalls)

/-! ### In the files -/

/-- The lines of a rule stand in the `.ckl`. -/
theorem vulnParts_infix (uuids : ℕ → Uuid) {istigs : List IStig} (asset target : Text) {ist : IStig}
    (hist : ist ∈ istigs) {r : Rule} (hr : r ∈ ist.rules) :
    join (lit "\n") (vulnParts ist.head r) <:+: writeCkl uuids istigs asset target := by
  obtain ⟨i, hi⟩ := List.mem_iff_getElem?.mp hist
  have hparts := Lists.infix_flatMap (f := fun p : IStig × ℕ => istigParts (uuids p.2) p.1)
    (List.mem_zipIdx_iff_getElem? (x := (ist, i)).mpr hi)
  have hrule : vulnParts ist.head r <:+: istigParts (uuids i) ist :=
    (Lists.infix_flatMap (f := vulnParts ist.head) hr).trans ⟨_, _, rfl⟩
  refine join_infix _ (by simp [vulnParts]) (hrule.trans (hparts.trans ?_))
  exact ⟨_, _, rfl⟩

/-- The lines of the rule stand in the `.ckl` with an open status, and the `.cklb` has an open entry for its
control. -/
structure WrittenOpen (ckl : Text) (cklb : Cklb) (m : StigMeta) (r : Rule) : Prop where
  lines : join (lit "\n") (vulnParts m r) <:+: ckl
  id : stigData "Vuln_Num" r.vulnNum ∈ vulnParts m r
  opened : lit "<STATUS>Open</STATUS>" ∈ vulnParts m r
  entry : ∃ stig ∈ cklb.stigs, ∃ e ∈ stig.rules, e.groupId = r.vulnNum ∧ e.status = lit "open"

theorem written_open {istigs : List IStig} {ist : IStig} (hist : ist ∈ istigs) {r : Rule}
    (hr : r ∈ ist.rules) (ho : r.status = .opened) (uuids uuids' : ℕ → Uuid) (uuid : Uuid)
    (generated asset target : Text) : WrittenOpen (writeCkl uuids istigs asset target)
      (writeCklb uuids' uuid generated istigs asset target) ist.head r where
  lines := vulnParts_infix uuids asset target hist hr
  id := by simp [vulnParts]
  opened := by
    have hline : lit "<STATUS>" ++ r.status.text ++ lit "</STATUS>" = lit "<STATUS>Open</STATUS>" := by
      rw [ho]
      decide
    rw [← hline]
    simp [vulnParts]
  entry := by
    obtain ⟨i, hi⟩ := List.mem_iff_getElem?.mp hist
    have hstig : cklbStig (uuids' i) ist ∈ (writeCklb uuids' uuid generated istigs asset target).stigs :=
      List.mem_map.mpr ⟨(ist, i), List.mem_zipIdx_iff_getElem?.mpr hi, rfl⟩
    refine ⟨_, hstig, cklbRule r, List.mem_map_of_mem hr, rfl, ?_⟩
    show (cklToCklb.lookup r.status.text).getD (lit "not_reviewed") = lit "open"
    rw [ho]
    decide

/-- **No finding is lost or softened.**  The rules of any findings are one for each control named,
ascending, with the lines of its findings in their order and the status they call for; the order of
the findings does not matter to the statuses; and a control with a failing finding is open in both
files, whatever else is written with it. -/
theorem no_finding_lost (U : Unicode) (key : StigKey) (hid : ∀ f ∈ findings, f.stigId ≠ .null) :
    ∃ rules, parseScannerJson U key findings = .ok ⟨stigMeta key, rules⟩ ∧
      (rules.map Rule.vulnNum).Pairwise (· < ·) ∧
      (∀ vid, vid ∈ rules.map Rule.vulnNum ↔ vid ≠ [] ∧ ∃ f ∈ findings, f.ctrl = vid) ∧
      (∀ r ∈ rules,
        r.findingDetails =
          join (lit "\n") ((ofControl findings r.vulnNum).map (Finding.line U key)) ∧
        Calls (ofControl findings r.vulnNum) r.status) ∧
      (∀ findings', findings.Perm findings' →
        ∃ rules', parseScannerJson U key findings' = .ok ⟨stigMeta key, rules'⟩ ∧
          rules'.map (fun r => (r.vulnNum, r.status)) = rules.map (fun r => (r.vulnNum, r.status))) ∧
      ∀ f ∈ findings, f.ctrl ≠ [] → f.status = .str (lit "fail") →
        ∃ r ∈ rules, r.vulnNum = f.ctrl ∧ r.status = .opened ∧
          ∀ istigs, ⟨stigMeta key, rules⟩ ∈ istigs → ∀ uuids uuids' uuid generated asset target,
            WrittenOpen (writeCkl uuids istigs asset target)
              (writeCklb uuids' uuid generated istigs asset target) (stigMeta key) r := by
  obtain ⟨rules, hparse, hsorted, hrules⟩ := parseScannerJson_ok U key hid
  have hids : ∀ vid, vid ∈ rules.map Rule.vulnNum ↔ vid ≠ [] ∧ ∃ f ∈ findings, f.ctrl = vid := by
    intro vid
    constructor
    · intro hmem
      obtain ⟨r, hr, rfl⟩ := List.mem_map.mp hmem
      obtain ⟨vid, f, fs, hne, hfs, rfl⟩ := (hrules r).mp hr
      have hf : f ∈ ofControl findings vid := hfs ▸ List.mem_cons_self ..
      obtain ⟨hf, hvid⟩ := mem_ofControl.mp hf
      exact ⟨hne, f, hf, hvid⟩
    · rintro ⟨hne, f, hf, hvid⟩
      have hmem : f ∈ ofControl findings vid := mem_ofControl.mpr ⟨hf, hvid⟩
      obtain ⟨g, fs, hfs⟩ := List.exists_cons_of_ne_nil (List.ne_nil_of_mem hmem)
      exact List.mem_map.mpr ⟨_, (hrules _).mpr ⟨vid, g, fs, hne, hfs, rfl⟩, rfl⟩
  have hcalls : ∀ r ∈ rules, Calls (ofControl findings r.vulnNum) r.status := by
    intro r hr
    obtain ⟨vid, f, fs, hne, hfs, rfl⟩ := (hrules r).mp hr
    rw [ruleFrom_vulnNum, hfs]
    exact aggStatus_calls f fs
  refine ⟨rules, hparse, hsorted, hids, fun r hr => ⟨?_, hcalls r hr⟩, fun findings' hperm => ?_,
    fun f hf hne hfail => ?_⟩
  · obtain ⟨vid, f, fs, hne, hfs, rfl⟩ := (hrules r).mp hr
    rw [ruleFrom_vulnNum, hfs]
    rfl
  · obtain ⟨rules', hparse', hsorted', hrules'⟩ := parseScannerJson_ok U key
      fun f hf => hid f (hperm.mem_iff.mpr hf)
    have hfst : ∀ l : List Rule, (l.map fun r => (r.vulnNum, r.status)).map Prod.fst =
        l.map Rule.vulnNum := fun l => List.map_map ..
    refine ⟨rules', hparse', Lists.eq_of_sorted Prod.fst (by rw [hfst]; exact hsorted')
      (by rw [hfst]; exact hsorted) ?_⟩
    rintro ⟨vid, s⟩
    have hof : (ofControl findings vid).Perm (ofControl findings' vid) := hperm.filter _
    have hnil : ofControl findings vid = [] ↔ ofControl findings' vid = [] := by
      rw [← List.length_eq_zero_iff, hof.length_eq, List.length_eq_zero_iff]
    rw [mem_id_status hrules', mem_id_status hrules, Ne, Ne, Ne, ← hnil]
    refine and_congr_right fun _ => and_congr_right fun _ => ?_
    exact ⟨fun h => h.of_mem fun f => hof.symm.mem_iff, fun h => h.of_mem fun f => hof.mem_iff⟩
  · obtain ⟨r, hr, hvid⟩ := List.mem_map.mp ((hids f.ctrl).mpr ⟨hne, f, hf, rfl⟩)
    have hopen : r.status = .opened := (hcalls r hr).opened.mpr
      ⟨f, mem_ofControl.mpr ⟨hf, hvid.symm⟩, hfail⟩
    exact ⟨r, hr, hvid, hopen, fun istigs hist uuids uuids' uuid generated asset target =>
      written_open hist hr hopen uuids uuids' uuid generated asset target⟩

end SecureLedger.Checklist

/-! ### On a sample -/

namespace SecureLedger.Checklist.Sample

open Py

/-- Case mapping of the ASCII letters. -/
def ascii : Unicode where
  lower s := s.map fun c => if 65 ≤ c.val ∧ c.val ≤ 90 then code (Char.ofNat (c.val + 32)) else c
  upper s := s.map fun c => if 97 ≤ c.val ∧ c.val ≤ 122 then code (Char.ofNat (c.val - 32)) else c

def finding (stigId status details : String) : Finding where
  stigId := .str (lit stigId)
  title := .str (lit "Tokens expire")
  severity := .str (lit "high")
  status := .str (lit status)
  endpoint := .str (lit "/api/tasks")
  details := .str (lit details)
  evidence := .absent
  fix := .str (lit "Set exp")

def uuid : Uuid := ⟨lit "0", by simp [lit]⟩

/-- A pass, then a failure of the same control, and a skipped one. -/
def mixed : List Finding :=
  [finding " V-2 " "pass" "ok", finding "V-1" "skipped" "", finding "V-2" "fail" "no exp", finding " " "fail" ""]

example : (parseScannerJson ascii .api mixed).toOption.map (fun ist => ist.rules.map fun r =>
    (r.vulnNum, r.status, r.findingDetails)) =
      some [(lit "V-1", .notReviewed, lit "[SKIPPED] /api/tasks"),
        (lit "V-2", .opened, lit "[PASS] /api/tasks: ok\n[FAIL] /api/tasks: no exp")] := by
  decide +kernel

/-- The failure is what is reported. -/
theorem mixed_open : ∃ rules, parseScannerJson ascii .api mixed = .ok ⟨stigMeta .api, rules⟩ ∧
    (rules.map Rule.vulnNum).Pairwise (· < ·) ∧
    ∃ r ∈ rules, r.vulnNum = lit "V-2" ∧ r.status = .opened := by
  obtain ⟨rules, hparse, hsorted, -, -, -, hopen⟩ :=
    no_finding_lost ascii .api (show ∀ f ∈ mixed, f.stigId ≠ .null by decide)
  obtain ⟨r, hr, hvid, ho, -⟩ := hopen (finding "V-2" "fail" "no exp") (by decide) (by decide) rfl
  exact ⟨rules, hparse, hsorted, r, hr, hvid, ho⟩

end SecureLedger.Checklist.Sample
