import SecureLedger.Models
import SecureLedger.Lib.Utf8

/-!
# Validation — what the two validators accept

Their messages speak of characters, and `str::len` counts bytes: a text within the limit in
characters is refused if its UTF-8 encoding is longer (`validation_documented_iff`).  The two agree
with each other on every title and every description.
-/

namespace SecureLedger

/-- "title must not be empty", "title must be at most 200 characters". -/
def TitleDocumented (title : String) : Prop :=
  1 ≤ (Str.trim title).length ∧ (Str.trim title).length ≤ 200

/-- "description must be at most 2000 characters". -/
def DescriptionDocumented (description : String) : Prop := description.length ≤ 2000

/-- The checked title is one the messages allow, with no more bytes than they allow characters. -/
theorem titleOk_iff (title : String) :
    TitleOk title ↔ TitleDocumented title ∧ Str.len (Str.trim title) ≤ 200 := by
  have hpos := Utf8.size_pos_iff (Str.trim title)
  have hle := Utf8.length_le_size (Str.trim title)
  unfold TitleOk TitleDocumented Str.len
  omega

theorem descriptionOk_iff (description : String) :
    DescriptionOk description ↔ DescriptionDocumented description ∧ Str.len description ≤ 2000 := by
  have hle := Utf8.length_le_size description
  unfold DescriptionOk DescriptionDocumented Str.len
  omega

/-- **Validation is what the messages say** of a title and a description if and only if neither is within
its limit in characters and beyond it in bytes; and the two validators accept the same. -/
theorem validation_documented_iff (c : CreateTask) (u : UpdateTask) :
    ((c.validate = .ok () ↔ TitleDocumented c.title ∧ DescriptionDocumented c.description) ↔
      (TitleDocumented c.title → DescriptionDocumented c.description →
        Str.len (Str.trim c.title) ≤ 200 ∧ Str.len c.description ≤ 2000)) ∧
    ((u.validate = .ok () ↔
        (∀ t ∈ u.title, TitleDocumented t) ∧ ∀ d ∈ u.description, DescriptionDocumented d) ↔
      ((∀ t ∈ u.title, TitleDocumented t) → (∀ d ∈ u.description, DescriptionDocumented d) →
        (∀ t ∈ u.title, Str.len (Str.trim t) ≤ 200) ∧ ∀ d ∈ u.description, Str.len d ≤ 2000)) ∧
    ∀ status,
      (c.validate = .ok () ↔ UpdateTask.validate ⟨some c.title, none, status⟩ = .ok () ∧
        UpdateTask.validate ⟨none, some c.description, status⟩ = .ok ()) ∧
      (c.validate = .ok () ↔ UpdateTask.validate ⟨some c.title, some c.description, status⟩ = .ok ()) := by
  refine ⟨?_, ?_, fun status => ?_⟩
  · rw [CreateTask.validate_eq_ok, titleOk_iff, descriptionOk_iff, and_and_and_comm,
      and_iff_left_iff_imp, and_imp]
  · have htitles : (∀ t ∈ u.title, TitleOk t) ↔ (∀ t ∈ u.title, TitleDocumented t) ∧
        ∀ t ∈ u.title, Str.len (Str.trim t) ≤ 200 := by simp only [titleOk_iff, forall₂_and]
    have hdescriptions : (∀ d ∈ u.description, DescriptionOk d) ↔
        (∀ d ∈ u.description, DescriptionDocumented d) ∧ ∀ d ∈ u.description, Str.len d ≤ 2000 := by
      simp only [descriptionOk_iff, forall₂_and]
    rw [UpdateTask.validate_eq_ok, htitles, hdescriptions, and_and_and_comm, and_iff_left_iff_imp, and_imp]
  · simp [CreateTask.validate_eq_ok, UpdateTask.validate_eq_ok]

/-- So many letters of two bytes each. -/
def accented (n : ℕ) : String := String.ofList (List.replicate n 'é')

theorem trim_accented (n : ℕ) : Str.trim (accented n) = accented n := by
  have hletter : Str.isWhitespace 'é' = false := by decide
  simp [Str.trim, accented, List.rdropWhile, hletter]

theorem length_accented (n : ℕ) : (accented n).length = n := by
  rw [accented, String.length_ofList, List.length_replicate]

theorem len_accented (n : ℕ) : Str.len (accented n) = 2 * n := by
  rw [Str.len, accented, Utf8.size_replicate, mul_comm]
  rfl

/-- A title within the limit is refused. -/
theorem accented_refused : TitleDocumented (accented 101) ∧ DescriptionDocumented "" ∧
    CreateTask.validate ⟨accented 101, "", none⟩ = .error "title must be at most 200 characters" ∧
    UpdateTask.validate ⟨some (accented 101), none, none⟩ = .error "title must be at most 200 characters" ∧
    ¬ ∀ c : CreateTask, c.validate = .ok () ↔
      TitleDocumented c.title ∧ DescriptionDocumented c.description := by
  have htitle : TitleDocumented (accented 101) := by
    unfold TitleDocumented
    rw [trim_accented, length_accented]
    decide
  have hdescription : DescriptionDocumented "" := Nat.zero_le _
  have hcreate : CreateTask.validate ⟨accented 101, "", none⟩ =
      .error "title must be at most 200 characters" := by
    simp [CreateTask.validate, Str.isEmpty, trim_accented, len_accented]
  refine ⟨htitle, hdescription, hcreate, ?_, fun h => ?_⟩
  · simp [UpdateTask.validate, Str.isEmpty, trim_accented, len_accented, bind, Except.bind]
  · have haccepted := (h ⟨accented 101, "", none⟩).mpr ⟨htitle, hdescription⟩
    rw [hcreate] at haccepted
    cases haccepted

end SecureLedger
