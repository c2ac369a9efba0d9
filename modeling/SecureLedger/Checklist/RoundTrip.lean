import SecureLedger.Checklist.Files
import SecureLedger.Checklist.Agreement
import SecureLedger.Checklist.NaRules
import SecureLedger.Checklist.Faithful

/-!
# Checklist.RoundTrip — the `.cklb` can always be read

No string of a checklist has a surrogate pair in two halves: the strings of a scanner's document have none
(`loadFindings_whole`), those of the OpenSCAP documents have no surrogates, and neither parser puts two
strings together without something between them.  So the `.cklb` is read as what was written
(`cklb_reads_back`).
-/

namespace SecureLedger.Checklist

open Py
open Json (Whole Decoded decoded_lit decoded_append whole_nil)

/-! ### Values -/

theorem orElse_whole {x : Value} {y : Text} (hx : ∀ s ∈ x, Whole s) (hy : Whole y) : Whole (orElse x y) := by
  cases x with
  | none => exact hy
  | some s =>
    unfold orElse
    dsimp only
    split
    · exact hy
    · exact hx s rfl

theorem orElse_decoded {x : Value} {y : Text} (hx : ∀ s ∈ x, Decoded s) (hy : Decoded y) :
    Decoded (orElse x y) := by
  cases x with
  | none => exact hy
  | some s =>
    unfold orElse
    dsimp only
    split
    · exact hy
    · exact hx s rfl

theorem getD_whole {x : Value} {y : Text} (hx : ∀ s ∈ x, Whole s) (hy : Whole y) : Whole (x.getD y) := by
  cases x with
  | none => exact hy
  | some s => exact hx s rfl

theorem getD_decoded {x : Value} {y : Text} (hx : ∀ s ∈ x, Decoded s) (hy : Decoded y) : Decoded (x.getD y) := by
  cases x with
  | none => exact hy
  | some s => exact hx s rfl

/-- What holds of every string of a rule. -/
structure Rule.All (P : Text → Prop) (r : Rule) : Prop where
  vulnNum : P r.vulnNum
  ruleId : P r.ruleId
  ruleVer : P r.ruleVer
  ruleTitle : ∀ s ∈ r.ruleTitle, P s
  findingDetails : P r.findingDetails
  comments : ∀ s ∈ r.comments, P s
  checkContent : ∀ s ∈ r.checkContent, P s
  fixText : ∀ s ∈ r.fixText, P s
  ccis : ∀ s ∈ r.ccis, P s

theorem Rule.All.imp {P Q : Text → Prop} {r : Rule} (h : r.All P) (hPQ : ∀ s, P s → Q s) : r.All Q :=
  ⟨hPQ _ h.vulnNum, hPQ _ h.ruleId, hPQ _ h.ruleVer, fun s hs => hPQ s (h.ruleTitle s hs), hPQ _ h.findingDetails,
    fun s hs => hPQ s (h.comments s hs), fun s hs => hPQ s (h.checkContent s hs),
    fun s hs => hPQ s (h.fixText s hs), fun s hs => hPQ s (h.ccis s hs)⟩

/-! ### The findings of a scanner -/

def Field.Whole : Field → Prop
  | .str s => Json.Whole s
  | _ => True

structure Finding.Whole (f : Finding) : Prop where
  stigId : Field.Whole f.stigId
  title : Field.Whole f.title
  status : Field.Whole f.status
  endpoint : Field.Whole f.endpoint
  details : Field.Whole f.details
  evidence : Field.Whole f.evidence
  fix : Field.Whole f.fix

theorem Field.Whole.get {f : Field} (h : Field.Whole f) {default : Value} (hdefault : ∀ s ∈ default, Json.Whole s) :
    ∀ s ∈ f.get default, Json.Whole s := by
  cases f with
  | absent => exact hdefault
  | null => exact fun s hs => by cases hs
  | str s => exact fun t ht => by cases ht; exact h

/-- What stands under a key of an object. -/
theorem wf_of_lookup {d : List (Text × Json.Value)} (h : (Json.Value.dict d).Wf) {key : Text} {v : Json.Value}
    (hv : d.lookup key = some v) : v.Wf := by
  obtain ⟨l, l', heq, -⟩ := List.lookup_eq_some_iff.mp hv
  cases h with
  | dict _ _ h => exact h (key, v) (by rw [heq]; simp)

theorem fieldOf_whole {d : List (Text × Json.Value)} (h : (Json.Value.dict d).Wf) {key : String} {f : Field}
    (hf : fieldOf d key = .ok f) : Field.Whole f := by
  unfold fieldOf at hf
  split at hf
  · cases hf; trivial
  · cases hf; trivial
  · next s hs =>
    cases hf
    cases wf_of_lookup h hs with
    | str hs => exact hs
  · cases hf

theorem ofJson_whole {v : Json.Value} (h : v.Wf) {f : Finding} (hf : Finding.ofJson v = .ok f) : f.Whole := by
  cases v with
  | dict d =>
    obtain ⟨stigId, h₁, hf⟩ := Lists.bind_eq_ok hf
    obtain ⟨title, h₂, hf⟩ := Lists.bind_eq_ok hf
    obtain ⟨severity, -, hf⟩ := Lists.bind_eq_ok hf
    obtain ⟨status, h₄, hf⟩ := Lists.bind_eq_ok hf
    obtain ⟨endpoint, h₅, hf⟩ := Lists.bind_eq_ok hf
    obtain ⟨details, h₆, hf⟩ := Lists.bind_eq_ok hf
    obtain ⟨evidence, h₇, hf⟩ := Lists.bind_eq_ok hf
    obtain ⟨fix, h₈, hf⟩ := Lists.bind_eq_ok hf
    cases hf
    exact ⟨fieldOf_whole h h₁, fieldOf_whole h h₂, fieldOf_whole h h₄, fieldOf_whole h h₅, fieldOf_whole h h₆,
      fieldOf_whole h h₇, fieldOf_whole h h₈⟩
  | _ => cases hf

/-- The objects that the loop goes through stand in a list of the document. -/
theorem wf_of_findingItems {doc : Json.Value} (h : doc.Wf) {items : List Json.Value}
    (hitems : findingItems doc = .ok items) {d : List (Text × Json.Value)} (hd : .dict d ∈ items) :
    (Json.Value.dict d).Wf := by
  unfold findingItems at hitems
  split at hitems
  · split at hitems
    · cases hitems
      cases hd
    · next hlist =>
      cases hitems
      cases wf_of_lookup h hlist with
      | list h => exact h _ hd
    · cases hitems
      obtain ⟨p, -, hp⟩ := List.mem_map.mp hd
      cases hp
    · cases hitems
      obtain ⟨c, -, hc⟩ := List.mem_map.mp hd
      cases hc
    · cases hitems
  · cases hitems

theorem loadFindings_eq_ok {text : Text} {findings : List Finding} : loadFindings text = .ok findings ↔
    ∃ doc items, Json.read text = some doc ∧ findingItems doc = .ok items ∧
      List.Forall₂ (fun v f => Finding.ofJson v = .ok f) items findings := by
  unfold loadFindings
  cases hread : Json.read text with
  | none => exact iff_of_false (fun h => by cases h) fun ⟨_, _, h, _⟩ => by cases h
  | some doc =>
    constructor
    · intro h
      obtain ⟨items, hitems, hmap⟩ := Lists.bind_eq_ok h
      exact ⟨doc, items, rfl, hitems, Lists.mapM_eq_ok.mp hmap⟩
    · rintro ⟨_, items, hdoc, hitems, hmap⟩
      cases hdoc
      show (findingItems doc >>= fun items => items.mapM Finding.ofJson) = .ok findings
      rw [hitems]
      exact Lists.mapM_eq_ok.mpr hmap

/-- **What a scanner's document says** has whole strings, however they were escaped. -/
theorem loadFindings_whole {text : Text} (htext : Decoded text) {findings : List Finding}
    (h : loadFindings text = .ok findings) : ∀ f ∈ findings, f.Whole := by
  obtain ⟨doc, items, hread, hitems, hmap⟩ := loadFindings_eq_ok.mp h
  have hwf := Json.wf_of_read htext hread
  intro f hf
  obtain ⟨v, hv, hof⟩ := Lists.exists_of_mem_right hmap hf
  cases v with
  | dict d => exact ofJson_whole (wf_of_findingItems hwf hitems hv) hof
  | _ => cases hof

section Scanner

variable {U : Unicode} {key : StigKey} {findings : List Finding}

theorem stigMeta_decoded (key : StigKey) : Decoded (stigMeta key).stigid ∧ Decoded (stigMeta key).title ∧
    Decoded (stigMeta key).version ∧ Decoded (stigMeta key).release ∧ Decoded (stigMeta key).display := by
  cases key <;> exact ⟨decoded_lit _, decoded_lit _, decoded_lit _, decoded_lit _, decoded_lit _⟩

/-- The parts of a line have something between them. -/
theorem line_whole (hU : ∀ s, Whole s → Whole (U.upper s)) {f : Finding} (h : f.Whole) : Whole (f.line U key) := by
  have hnone : ∀ s ∈ (none : Value), Whole s := fun s hs => by cases hs
  have hst : Whole (U.upper (orElse (f.status.get none) [])) :=
    hU _ (orElse_whole (h.status.get hnone) whole_nil)
  have hep : Whole (orElse (f.endpoint.get none) (stigMeta key).display) :=
    orElse_whole (h.endpoint.get hnone) (stigMeta_decoded key).2.2.2.2.whole
  have hmsg : Whole (orElse (f.details.get none) (orElse (f.evidence.get none) [])) :=
    orElse_whole (h.details.get hnone) (orElse_whole (h.evidence.get hnone) whole_nil)
  refine Whole.strip (Whole.rdropWhile ?_ _)
  simp only [List.append_assoc]
  exact (decoded_lit "[").append_whole (hst.append_between (decoded_lit "] ") (by decide)
    (hep.append_between (decoded_lit ": ") (by decide) hmsg))

theorem ctrl_whole {f : Finding} (h : f.Whole) : Whole f.ctrl :=
  Whole.strip (getD_whole (h.stigId.get fun s hs => by cases hs; exact whole_nil) whole_nil)

theorem ruleFrom_whole (hU : ∀ s, Whole s → Whole (U.upper s)) {vid : Text} (hvid : Whole vid) {f : Finding}
    {fs : List Finding} (h : ∀ g ∈ f :: fs, g.Whole) : (ruleFrom U key vid f (f :: fs)).All Whole := by
  have hf := h f (List.mem_cons_self ..)
  have hempty : ∀ s ∈ (some [] : Value), Whole s := fun s hs => by cases hs; exact whole_nil
  refine ⟨hvid, hvid.append_decoded (decoded_lit _), hvid, ?_, ?_, hf.fix.get hempty, hf.fix.get hempty,
    hf.fix.get hempty, fun s hs => absurd hs List.not_mem_nil⟩
  · exact hf.title.get fun s hs => by cases hs; exact hvid
  · show Whole (join (lit "\n") ((f :: fs).map (Finding.line U key)))
    refine Whole.join (decoded_lit "\n") (by decide) fun s hs => ?_
    obtain ⟨g, hg, rfl⟩ := List.mem_map.mp hs
    exact line_whole hU (h g hg)

theorem scanner_whole (hU : ∀ s, Whole s → Whole (U.upper s)) (h : ∀ f ∈ findings, f.Whole) {ist : IStig}
    (hist : parseScannerJson U key findings = .ok ist) : ∀ r ∈ ist.rules, r.All Whole := by
  obtain ⟨-, hrules⟩ := rules_of_ok hist
  intro r hr
  obtain ⟨vid, f, fs, -, hof, rfl⟩ := (hrules r).mp hr
  have hall : ∀ g ∈ f :: fs, g ∈ findings ∧ g.ctrl = vid := fun g hg => mem_ofControl.mp (hof ▸ hg)
  have hvid : Whole vid := by
    obtain ⟨hf, rfl⟩ := hall f (List.mem_cons_self ..)
    exact ctrl_whole (h f hf)
  exact ruleFrom_whole hU hvid fun g hg => h g (hall g hg).1

end Scanner

/-! ### The documents of OpenSCAP -/

section Oscap

variable {R : Classes} {U : Unicode} {short : Text}

/-- What the datastream says of a rule is decoded. -/
structure DsRule.Decoded (m : DsRule) : Prop where
  title : Json.Decoded m.title
  stigId : Json.Decoded m.stigId
  cce : Json.Decoded m.cce
  vid : Json.Decoded m.vid
  svid : Json.Decoded m.svid
  ccis : ∀ s ∈ m.ccis, Json.Decoded s

mutual

theorem iter_decoded : ∀ {el : Tree}, el.Decoded → ∀ d ∈ el.iter, d.Decoded
  | .node tag attrs text children tail, h, d, hd => by
    rw [Tree.iter] at hd
    rcases List.mem_cons.mp hd with rfl | hd
    · exact h
    · exact iterAll_decoded h.2.2 d hd

theorem iterAll_decoded : ∀ {els : List Tree}, Tree.AllDecoded els → ∀ d ∈ Tree.iterAll els, d.Decoded
  | [], _, d, hd => absurd hd List.not_mem_nil
  | el :: els, h, d, hd => by
    rw [Tree.iterAll] at hd
    rcases List.mem_append.mp hd with hd | hd
    · exact iter_decoded h.1 d hd
    · exact iterAll_decoded h.2 d hd

end

theorem Tree.Decoded.text {el : Tree} (h : el.Decoded) : Json.Decoded (el.text.getD []) := by
  cases el
  exact h.1

theorem Tree.Decoded.tail {el : Tree} (h : el.Decoded) : Json.Decoded (el.tail.getD []) := by
  cases el
  exact h.2.1

mutual

theorem itertext_decoded : ∀ {el : Tree}, el.Decoded → Decoded el.itertext
  | .node tag attrs text children tail, h => by
    rw [Tree.itertext]
    exact decoded_append.mpr ⟨h.1, itertextAll_decoded h.2.2⟩

theorem itertextAll_decoded : ∀ {els : List Tree}, Tree.AllDecoded els → Decoded (Tree.itertextAll els)
  | [], _ => Json.decoded_nil
  | el :: els, h => by
    rw [Tree.itertextAll]
    exact decoded_append.mpr ⟨itertext_decoded h.1, decoded_append.mpr ⟨h.1.tail, itertextAll_decoded h.2⟩⟩

end

theorem decoded_flatMap {α : Type} {f : α → Text} {l : List α} :
    Decoded (l.flatMap f) ↔ ∀ a ∈ l, Decoded (f a) := by
  simp only [Json.Decoded, List.mem_flatMap, forall_exists_index, and_imp]
  exact forall_comm.trans (forall_congr' fun a => forall_comm)

theorem decoded_join {sep : Text} (hsep : Decoded sep) {l : List Text} :
    Decoded (join sep l) ↔ ∀ s ∈ l, Decoded s := by
  cases l with
  | nil => exact iff_of_true Json.decoded_nil fun s hs => absurd hs List.not_mem_nil
  | cons s l =>
    rw [join, decoded_append, decoded_flatMap, List.forall_mem_cons]
    simp only [decoded_append, hsep, true_and]

/-- What is found in a decoded text is decoded. -/
theorem found_decoded {P : Regex.Pattern Code} {text default : Text} (h : Decoded text) (hdefault : Decoded default) :
    Decoded ((P.search none text).getD default) := by
  cases hfound : P.search none text with
  | none => exact hdefault
  | some m =>
    obtain ⟨pre, post, rfl, -⟩ := Regex.search_eq_some hfound
    exact (decoded_append.mp (decoded_append.mp h).2).1

theorem title_decoded {ds : List Tree} (h : ∀ d ∈ ds, d.Decoded) {acc : Found} (hacc : Decoded acc.title) :
    Decoded (ds.foldl (Found.read U) acc).title := by
  induction ds generalizing acc with
  | nil => exact hacc
  | cons d ds ih =>
    refine ih (fun e he => h e (List.mem_cons_of_mem _ he)) ?_
    unfold Found.read
    dsimp only
    split
    · exact (itertext_decoded (h d (List.mem_cons_self ..))).strip
    · exact hacc

theorem dsRule_decoded {el : Tree} (hel : el.Decoded) (hshort : Decoded short) : (dsRule R U short el).Decoded := by
  have hdecoded := iter_decoded hel
  have htexts : ∀ s ∈ el.texts, Decoded s := by
    intro s hs
    obtain ⟨d, hd, rfl⟩ := List.mem_map.mp (List.mem_filter.mp hs).1
    exact (hdecoded d hd).text
  have hblob : Decoded (join (lit " ") (el.iter.foldl (Found.read U) ⟨[], [], []⟩).blob) := by
    rw [dsRule_blob]
    exact (decoded_join (decoded_lit _)).mpr htexts
  refine ⟨title_decoded hdecoded Json.decoded_nil, found_decoded hblob hshort, found_decoded hblob Json.decoded_nil,
    found_decoded hblob Json.decoded_nil, found_decoded hblob Json.decoded_nil, fun s hs => ?_⟩
  rw [dsRule_ccis, mem_sortedSet] at hs
  obtain ⟨d, hd, rfl⟩ := List.mem_map.mp hs
  exact (hdecoded d (List.mem_filter.mp hd).1).text.strip

theorem lookup_decoded {elements : List Tree} (h : ∀ el ∈ elements, el.Decoded) (hshort : Decoded short) :
    ∀ m ∈ (parseDatastream R U elements).lookup short, m.Decoded := by
  intro m hm
  rw [lookup_parseDatastream] at hm
  obtain ⟨el, hel, rfl⟩ := Option.map_eq_some_iff.mp hm
  exact dsRule_decoded (h el (List.mem_reverse.mp (List.mem_of_find?_eq_some hel))) hshort

theorem shortId_decoded {s : Text} (h : Decoded s) : Decoded (shortId s) := by
  unfold shortId
  cases hsplit : splitAfter (lit "content_rule_") s with
  | none => exact h
  | some t =>
    obtain ⟨pre, rfl, -⟩ := splitAfter_eq_some.mp hsplit
    exact (decoded_append.mp h).2

/-- What is read of the children is decoded. -/
theorem readChild_decoded {children : List Child} (h : ∀ ch ∈ children, ∀ s ∈ ch.text, Decoded s)
    {acc : Text × Text} (hacc : Decoded acc.1 ∧ Decoded acc.2) :
    Decoded (children.foldl (readChild U) acc).1 ∧ Decoded (children.foldl (readChild U) acc).2 := by
  induction children generalizing acc with
  | nil => exact hacc
  | cons ch children ih =>
    refine ih (fun ch' h' => h ch' (List.mem_cons_of_mem _ h')) ?_
    have htext : Decoded (strip (orElse ch.text [])) :=
      (orElse_decoded (h ch (List.mem_cons_self ..)) Json.decoded_nil).strip
    unfold readChild
    dsimp only
    split
    · exact ⟨htext, hacc.2⟩
    split
    · exact ⟨hacc.1, htext⟩
    · exact hacc

theorem ruleOfElement_decoded {dsmeta : List (Text × DsRule)} {naRules : List Text} {el : Element} {r : Rule}
    (hel : el.Decoded) (hmeta : ∀ m ∈ dsmeta.lookup el.short, m.Decoded)
    (h : ruleOfElement U dsmeta naRules el = some r) : r.All Decoded := by
  have hshort : Decoded el.short := shortId_decoded (getD_decoded hel.idref Json.decoded_nil)
  have hread := @readChild_decoded U el.children hel.children ([], []) ⟨Json.decoded_nil, Json.decoded_nil⟩
  have hm : ∀ f : DsRule → Text, (∀ m : DsRule, m.Decoded → Decoded (f m)) →
      ∀ s ∈ (dsmeta.lookup el.short).map f, Decoded s := by
    intro f hf s hs
    obtain ⟨m, hm, rfl⟩ := Option.map_eq_some_iff.mp hs
    exact hf m (hmeta m hm)
  have hstig := getD_decoded (hm DsRule.stigId fun m h => h.stigId) hshort
  have hvid := orElse_decoded (hm DsRule.vid fun m h => h.vid) hstig
  have hsvid := orElse_decoded (hm DsRule.svid fun m h => h.svid) (decoded_append.mpr ⟨hstig, decoded_lit "r1_rule"⟩)
  have htitle := orElse_decoded (hm DsRule.title fun m h => h.title) hshort
  have hcce := orElse_decoded (x := some _) (fun s hs => by cases hs; exact hread.2)
    (orElse_decoded (hm DsRule.cce fun m h => h.cce) Json.decoded_nil)
  have hccis : ∀ s ∈ ((dsmeta.lookup el.short).map DsRule.ccis).getD [], Decoded s := by
    intro s hs
    cases hlookup : dsmeta.lookup el.short with
    | none => rw [hlookup] at hs; cases hs
    | some m => rw [hlookup] at hs; exact ((hmeta m hlookup).ccis s hs)
  unfold ruleOfElement at h
  split at h
  · cases h
  dsimp only at h
  split at h
  · cases h
  cases h
  refine ⟨hvid, hsvid, hstig, ?_, ?_, ?_, ?_, ?_, hccis⟩
  · exact fun s hs => by cases hs; exact htitle
  · simp only [decoded_append]
    refine ⟨⟨⟨⟨⟨⟨decoded_lit _, hread.1⟩, decoded_lit _⟩, hshort⟩, ?_⟩, decoded_lit _⟩, ?_⟩
    · split
      · exact Json.decoded_nil
      · exact decoded_append.mpr ⟨decoded_lit _, hcce⟩
    · split
      · exact decoded_lit _
      · exact Json.decoded_nil
  · exact fun s hs => by cases hs; exact decoded_append.mpr ⟨decoded_lit _, hshort⟩
  · intro s hs
    cases hs
    exact decoded_append.mpr ⟨decoded_append.mpr ⟨decoded_lit _, hshort⟩, decoded_lit _⟩
  · exact fun s hs => by cases hs; exact Json.decoded_nil

theorem oscap_decoded (files : OscapFiles) :
    ∀ r ∈ (parseOscap U (files.input R U).dsmeta (files.input R U).naRules (files.input R U).elements).rules,
      r.All Decoded := by
  intro r hr
  obtain ⟨el, hel, h⟩ := List.mem_filterMap.mp hr
  have hdecoded := files.results_decoded el hel
  exact ruleOfElement_decoded hdecoded (lookup_decoded files.datastream_decoded
    (shortId_decoded (getD_decoded hdecoded.idref Json.decoded_nil))) h

end Oscap

/-! ### The object that is dumped -/

section Dump

variable {U : Unicode} {istigs : List IStig}

theorem jsonOf_wf {x : Value} (h : ∀ s ∈ x, Whole s) : (jsonOf x).Wf := by
  cases x with
  | none => exact .null
  | some s => exact .str (h s rfl)

theorem object_wf {items : List (String × Json.Value)} (hnodup : (items.map Prod.fst).Nodup)
    (h : ∀ p ∈ items, p.2.Wf) : (object items).Wf := by
  refine .dict ?_ (fun q hq => ?_) fun q hq => ?_
  · rw [List.map_map, show Prod.fst ∘ _ = lit ∘ Prod.fst from rfl, ← List.map_map]
    exact hnodup.map fun _ _ heq => lit_inj.mp heq
  · obtain ⟨p, -, rfl⟩ := List.mem_map.mp hq
    exact (decoded_lit p.1).whole
  · obtain ⟨p, hp, rfl⟩ := List.mem_map.mp hq
    exact h p hp

theorem lit_wf (s : String) : (Json.Value.str (lit s)).Wf := .str (decoded_lit s).whole

theorem Stamp.decoded (t : Stamp) : Decoded t.text := fun c hc => decoded_lit _ c (t.format c hc)

theorem uuid_wf (uuid : Uuid) : (Json.Value.str uuid.text).Wf :=
  .str (Decoded.whole fun c hc => decoded_lit _ c (uuid.hex c hc))

theorem cklbRule_wf {r : Rule} (h : r.All Whole) : (cklbRule r).json.Wf := by
  have hstatus : (Json.Value.str (cklbRule r).status).Wf := by
    unfold cklbRule
    cases r.status <;> exact lit_wf _
  have hseverity : (Json.Value.str r.severity.text).Wf := by cases r.severity <;> exact lit_wf _
  have hccis : (Json.Value.list (r.ccis.map .str)).Wf := by
    refine .list fun v hv => ?_
    obtain ⟨s, hs, rfl⟩ := List.mem_map.mp hv
    exact .str (h.ccis s hs)
  have hoverrides : (Json.Value.dict []).Wf := .dict .nil (by simp) (by simp)
  refine object_wf (by simp) ?_
  simp only [List.forall_mem_cons, List.not_mem_nil, false_implies, implies_true, and_true]
  exact ⟨.str h.vulnNum, .str h.vulnNum, .str h.ruleId, .str h.ruleId, .str h.ruleVer, jsonOf_wf h.ruleTitle,
    jsonOf_wf h.ruleTitle, hseverity, lit_wf _, jsonOf_wf h.checkContent, jsonOf_wf h.fixText, hstatus,
    .str h.findingDetails, jsonOf_wf h.comments, hccis, hoverrides⟩

theorem cklbStig_wf {uuid : Uuid} {ist : IStig} {key : StigKey} (hhead : ist.head = stigMeta key)
    (h : ∀ r ∈ ist.rules, r.All Whole) : (cklbStig uuid ist).json.Wf := by
  obtain ⟨hstigid, htitle, hversion, hrelease, hdisplay⟩ := stigMeta_decoded key
  rw [← hhead] at hstigid htitle hversion hrelease hdisplay
  have hrules : (Json.Value.list ((ist.rules.map cklbRule).map CklbRule.json)).Wf := by
    refine .list fun v hv => ?_
    rw [List.map_map] at hv
    obtain ⟨r, hr, rfl⟩ := List.mem_map.mp hv
    exact cklbRule_wf (h r hr)
  refine object_wf (by simp) ?_
  simp only [List.forall_mem_cons, List.not_mem_nil, false_implies, implies_true, and_true]
  exact ⟨.str htitle.whole, .str hdisplay.whole, .str hstigid.whole, .str hrelease.whole, .str hversion.whole,
    uuid_wf uuid, .str hstigid.whole, .int _, hrules⟩

/-- One of the three STIGs, with something holding of every string of its rules. -/
structure IStig.All (P : Text → Prop) (ist : IStig) : Prop where
  head : ∃ key, ist.head = stigMeta key
  rules : ∀ r ∈ ist.rules, r.All P

theorem cklb_wf (uuids : ℕ → Uuid) (uuid : Uuid) (generated : Stamp)
    (h : ∀ ist ∈ istigs, ist.All Whole) (asset target : Argument) :
    (writeCklb uuids uuid generated.text istigs asset.text target.text).json.Wf := by
  have hwhole : ∀ a : Argument, Whole a.text := fun a => Json.whole_of_not_high a.low
  have htitle : Whole (asset.text ++ lit " — consolidated STIG checklist") :=
    (hwhole asset).append_decoded (decoded_lit _)
  have hempty : (Json.Value.str []).Wf := .str whole_nil
  have htarget : (CklbTarget.json ⟨asset.text, target.text, target.text⟩).Wf := by
    refine object_wf (by simp) ?_
    simp only [List.forall_mem_cons, List.not_mem_nil, false_implies, implies_true, and_true]
    exact ⟨lit_wf _, .str (hwhole asset), hempty, hempty, .str (hwhole target), hempty, lit_wf _, .bool _, hempty,
      .str (hwhole target), hempty⟩
  have hstigs : (Json.Value.list ((istigs.zipIdx.map fun p => cklbStig (uuids p.2) p.1).map CklbStig.json)).Wf := by
    refine .list fun v hv => ?_
    rw [List.map_map] at hv
    obtain ⟨p, hp, rfl⟩ := List.mem_map.mp hv
    have hist := h p.1 (List.mem_of_getElem? (List.mem_zipIdx_iff_getElem?.mp hp))
    obtain ⟨key, hhead⟩ := hist.head
    exact cklbStig_wf hhead hist.rules
  refine object_wf (by simp) ?_
  simp only [List.forall_mem_cons, List.not_mem_nil, false_implies, implies_true, and_true]
  exact ⟨.str htitle, uuid_wf uuid, .bool _, .int _, .bool _, htarget, hstigs, lit_wf _, .str generated.decoded.whole⟩

end Dump

/-! ### What is written -/

section Written

variable {R : Classes} {U : Unicode} {files : Files} {inputs : Inputs} {istigs : List IStig}

theorem inputs_eq_ok : files.inputs R U = .ok inputs ↔
    inputs.oscap = files.oscap.map (OscapFiles.input R U) ∧
    loadScanner files.api = .ok inputs.api ∧ loadScanner files.asd = .ok inputs.asd := by
  constructor
  · intro h
    obtain ⟨api, hapi, h⟩ := Lists.bind_eq_ok h
    obtain ⟨asd, hasd, h⟩ := Lists.bind_eq_ok h
    cases h
    exact ⟨rfl, hapi, hasd⟩
  · rintro ⟨hoscap, hapi, hasd⟩
    unfold Files.inputs
    rw [hapi, hasd, ← hoscap]
    rfl

theorem loadScanner_some {contents : Contents} {o : Option (List Finding)} :
    loadScanner (some contents) = .ok o ↔
      ∃ findings, loadFindings contents.text = .ok findings ∧ o = some findings := by
  constructor
  · intro h
    obtain ⟨findings, hload, h⟩ := Lists.bind_eq_ok h
    cases h
    exact ⟨findings, hload, rfl⟩
  · rintro ⟨findings, hload, rfl⟩
    exact Lists.bind_of_ok hload _

/-- One scanner's file, or none. -/
theorem scanner_istigs_whole (hU : ∀ s, Whole s → Whole (U.upper s)) {key : StigKey} {scanner : Option Contents}
    {o : Option (List Finding)} (ho : loadScanner scanner = .ok o) {l : List IStig}
    (h : o.toList.mapM (parseScannerJson U key) = .ok l) : ∀ ist ∈ l, ist.All Whole := by
  intro ist hist
  obtain ⟨findings, hfindings, hparse⟩ := Lists.exists_of_mem_right (Lists.mapM_eq_ok.mp h) hist
  rw [Option.mem_toList.mp hfindings] at ho
  cases scanner with
  | none => cases ho
  | some contents =>
    obtain ⟨_, hload, heq⟩ := loadScanner_some.mp ho
    cases heq
    exact ⟨⟨key, (rules_of_ok hparse).1⟩, scanner_whole hU (loadFindings_whole contents.decoded hload) hparse⟩

theorem istigs_whole (hU : ∀ s, Whole s → Whole (U.upper s)) (hinputs : files.inputs R U = .ok inputs)
    (h : consolidate U inputs = .ok istigs) : ∀ ist ∈ istigs, ist.All Whole := by
  obtain ⟨hfiles, hapiFile, hasdFile⟩ := inputs_eq_ok.mp hinputs
  obtain ⟨oscap, api, asd, hoscap, hapi, hasd, rfl⟩ := consolidate_ok h
  intro ist hist
  rcases List.mem_append.mp hist with hist | hist
  · rcases List.mem_append.mp hist with hist | hist
    · obtain ⟨o, ho, rfl⟩ := hoscap ist hist
      rw [hfiles] at ho
      obtain ⟨oscapFiles, -, rfl⟩ := Option.map_eq_some_iff.mp ho
      exact ⟨⟨.rhel9, rfl⟩, fun r hr => (oscap_decoded oscapFiles r hr).imp fun _ => Decoded.whole⟩
    · exact scanner_istigs_whole hU hapiFile hapi ist hist
  · exact scanner_istigs_whole hU hasdFile hasd ist hist

/-- **Whatever the strings of the files hold**, surrogates that were escaped alone among it, what `write_cklb`
dumps of them is ASCII and is read as the object that was dumped.  Of a scanner's document this speaks if the
loop over its findings comes upon objects only, with a string, `null` or nothing under the keys that are
read. -/
theorem cklb_reads_back (hU : ∀ s, Whole s → Whole (U.upper s)) (hinputs : files.inputs R U = .ok inputs)
    (h : consolidate U inputs = .ok istigs) (uuids : ℕ → Uuid) (uuid : Uuid) (generated : Stamp)
    (asset target : Argument) :
    Json.Ascii ((writeCklb uuids uuid generated.text istigs asset.text target.text).json.dump 0) ∧
      Json.read ((writeCklb uuids uuid generated.text istigs asset.text target.text).json.dump 0) =
        some (writeCklb uuids uuid generated.text istigs asset.text target.text).json := by
  have hwf := cklb_wf uuids uuid generated (istigs_whole hU hinputs h) asset target
  exact ⟨hwf.dump_ascii 0, Json.read_dump hwf⟩

end Written

end SecureLedger.Checklist
