import SecureLedger.Checklist.Oscap

/-!
# Checklist.NaRules — which rules a not-applicable file lists

The entry of a line is its first word, unless the line is a comment; it names a rule by its short
id, bare or with what stands before it in a full id.  The loader finds exactly these
(`mem_loadNaRules`).
-/

namespace SecureLedger.Checklist

open Py

/-- The short id an entry names: what follows its first `content_rule_`, or all of it. -/
inductive Names (entry short : Text) : Prop where
  | bare (habsent : ¬ lit "content_rule_" <:+: entry) (heq : entry = short)
  | marked (pre : Text) (heq : entry = pre ++ lit "content_rule_" ++ short)
      (hfirst : ∀ pre' rest, entry = pre' ++ lit "content_rule_" ++ rest → pre.length ≤ pre'.length)

/-- The rule is named by the first word of one of the lines, which is not a comment. -/
def Listed (lines : List Text) (short : Text) : Prop :=
  ∃ line ∈ lines, ∃ entry, IsFirstWord line entry ∧ ¬ lit "#" <+: entry ∧ Names entry short

/-! ### The short id -/

section Split

variable {sub s t : Text}

theorem splitAfter_eq_none : splitAfter sub s = none ↔ ¬ sub <:+: s := by
  induction s with
  | nil => cases sub <;> simp [splitAfter]
  | cons c s ih =>
    rw [splitAfter, List.infix_cons_iff]
    by_cases hpre : sub <+: c :: s
    · rw [if_pos (List.isPrefixOf_iff_prefix.mpr hpre)]
      simp [hpre]
    · rw [if_neg (mt List.isPrefixOf_iff_prefix.mp hpre), ih]
      simp [hpre]

theorem splitAfter_eq_some : splitAfter sub s = some t ↔
    ∃ pre, s = pre ++ sub ++ t ∧ ∀ pre' rest, s = pre' ++ sub ++ rest → pre.length ≤ pre'.length := by
  induction s with
  | nil =>
    cases sub with
    | nil => simp [splitAfter, eq_comm]
    | cons d sub => simp [splitAfter]
  | cons c s ih =>
    rw [splitAfter]
    by_cases hpre : sub <+: c :: s
    · rw [if_pos (List.isPrefixOf_iff_prefix.mpr hpre)]
      obtain ⟨u, hu⟩ := hpre
      rw [← hu, List.drop_left, Option.some.injEq]
      constructor
      · rintro rfl
        exact ⟨[], rfl, fun _ _ _ => Nat.zero_le _⟩
      · rintro ⟨pre, heq, hfirst⟩
        have hnil : pre = [] := List.length_eq_zero_iff.mp (Nat.le_zero.mp (hfirst [] u rfl))
        subst hnil
        exact List.append_cancel_left heq
    · rw [if_neg (mt List.isPrefixOf_iff_prefix.mp hpre), ih]
      constructor
      · rintro ⟨pre, rfl, hfirst⟩
        refine ⟨c :: pre, rfl, ?_⟩
        intro pre' rest heq
        cases pre' with
        | nil => exact absurd ⟨rest, heq.symm⟩ hpre
        | cons d pre' => exact Nat.succ_le_succ (hfirst pre' rest (List.cons.inj heq).2)
      · rintro ⟨pre, heq, hfirst⟩
        cases pre with
        | nil => exact absurd ⟨t, heq.symm⟩ hpre
        | cons d pre =>
          obtain ⟨rfl, hs⟩ := List.cons.inj heq
          refine ⟨pre, hs, fun pre' rest hs' => ?_⟩
          exact Nat.le_of_succ_le_succ (hfirst (c :: pre') rest (congrArg (c :: ·) hs'))

end Split

theorem names_iff {entry short : Text} : Names entry short ↔ shortId entry = short := by
  unfold shortId
  constructor
  · rintro (⟨habsent, rfl⟩ | ⟨pre, heq, hfirst⟩)
    · rw [splitAfter_eq_none.mpr habsent]
      rfl
    · rw [splitAfter_eq_some.mpr ⟨pre, heq, hfirst⟩]
      rfl
  · intro h
    cases hs : splitAfter (lit "content_rule_") entry with
    | none =>
      rw [hs] at h
      exact .bare (splitAfter_eq_none.mp hs) h
    | some t =>
      rw [hs] at h
      obtain ⟨pre, heq, hfirst⟩ := splitAfter_eq_some.mp hs
      exact .marked pre (h ▸ heq) hfirst

/-! ### The entry of a line -/

/-- A line is a comment if its first word is. -/
theorem comment_iff {line entry : Text} (h : IsFirstWord line entry) :
    lit "#" <+: strip line ↔ lit "#" <+: entry := by
  obtain ⟨rest, hstrip, -⟩ := h.strip_eq
  obtain ⟨c, word, rfl⟩ := List.exists_cons_of_ne_nil h.ne_nil
  rw [hstrip]
  simp [lit, List.cons_prefix_cons]

theorem naRule_of_firstWord {line entry : Text} (h : IsFirstWord line entry) :
    naRule line = if lit "#" <+: entry then none else some (shortId entry) := by
  have hne : strip line ≠ [] := by
    obtain ⟨rest, hstrip, -⟩ := h.strip_eq
    rw [hstrip]
    exact List.append_ne_nil_of_left_ne_nil h.ne_nil _
  unfold naRule
  dsimp only
  rw [h.firstWord_strip]
  refine if_congr ?_ rfl rfl
  rw [← comment_iff h]
  simp [hne]

theorem naRule_eq_some {line short : Text} : naRule line = some short ↔
    ∃ entry, IsFirstWord line entry ∧ ¬ lit "#" <+: entry ∧ Names entry short := by
  constructor
  · intro h
    by_cases hblank : strip line = []
    · simp [naRule, hblank] at h
    obtain ⟨entry, hentry⟩ := exists_firstWord hblank
    rw [naRule_of_firstWord hentry] at h
    split_ifs at h with hcomment
    exact ⟨entry, hentry, hcomment, names_iff.mpr (Option.some.inj h)⟩
  · rintro ⟨entry, hentry, hcomment, hnames⟩
    rw [naRule_of_firstWord hentry, if_neg hcomment, names_iff.mp hnames]

/-- **What the loader returns.** -/
theorem mem_loadNaRules {lines : List Text} {short : Text} :
    short ∈ loadNaRules lines ↔ Listed lines short := by
  unfold loadNaRules Listed
  rw [List.mem_filterMap]
  exact exists_congr fun line => and_congr_right fun _ => naRule_eq_some

end SecureLedger.Checklist
