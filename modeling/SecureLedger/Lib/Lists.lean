import Mathlib.Data.List.Forall2
import Mathlib.Data.List.Sort
import Mathlib.Algebra.BigOperators.Group.Finset.Piecewise

/-!
# Lib.Lists — lists related element by element
-/

namespace Lists

variable {α β γ ε : Type} {R : α → β → Prop} {l : List α} {l' : List β}

/-- Related lists agree on what related elements agree on. -/
theorem map_eq_map {f : α → γ} {g : β → γ} (h : List.Forall₂ R l l') (hR : ∀ a b, R a b → f a = g b) :
    l.map f = l'.map g := by
  rw [← List.forall₂_eq_eq_eq, List.forall₂_map_left_iff, List.forall₂_map_right_iff]
  exact h.imp hR

theorem exists_of_mem_left (h : List.Forall₂ R l l') {a : α} (ha : a ∈ l) : ∃ b ∈ l', R a b := by
  induction h with
  | nil => cases ha
  | @cons a' b' l l' hab _ ih =>
    rcases List.mem_cons.mp ha with rfl | ha
    · exact ⟨b', List.mem_cons_self .., hab⟩
    · obtain ⟨b, hb, hR⟩ := ih ha
      exact ⟨b, List.mem_cons_of_mem _ hb, hR⟩

theorem exists_of_mem_right (h : List.Forall₂ R l l') {b : β} (hb : b ∈ l') : ∃ a ∈ l, R a b :=
  exists_of_mem_left h.flip hb

/-- What stands at a place is related to what stands there. -/
theorem exists_getElem? (h : List.Forall₂ R l l') {i : ℕ} {a : α} (ha : l[i]? = some a) :
    ∃ b, l'[i]? = some b ∧ R a b := by
  induction h generalizing i with
  | nil => cases ha
  | @cons a' b' l l' hab _ ih =>
    cases i with
    | zero =>
      cases ha
      exact ⟨b', rfl, hab⟩
    | succ i => exact ih ha

/-- A step that raises nothing. -/
theorem bind_eq_ok {x : Except ε α} {f : α → Except ε β} {b : β} (h : x >>= f = .ok b) :
    ∃ a, x = .ok a ∧ f a = .ok b := by
  cases x with
  | error e => cases h
  | ok a => exact ⟨a, rfl, h⟩

theorem bind_of_ok {x : Except ε α} {a : α} (h : x = .ok a) (f : α → Except ε β) : x >>= f = f a := by
  rw [h]
  rfl

/-- A `mapM` that raises nothing. -/
theorem mapM_eq_ok {f : α → Except ε β} :
    l.mapM f = .ok l' ↔ List.Forall₂ (fun a b => f a = .ok b) l l' := by
  induction l generalizing l' with
  | nil => simp [pure, Except.pure, eq_comm]
  | cons a l ih =>
    rw [List.mapM_cons]
    cases ha : f a with
    | error e => simp [bind, Except.bind, List.forall₂_cons_left_iff, ha]
    | ok b =>
      cases hl : l.mapM f with
      | error e =>
        have hnone : ∀ l', ¬ List.Forall₂ (fun a b => f a = .ok b) l l' := by
          intro l' h
          rw [ih.mpr h] at hl
          cases hl
        simp [bind, Except.bind, List.forall₂_cons_left_iff, hnone]
      | ok bs =>
        have hbs : ∀ l', List.Forall₂ (fun a b => f a = .ok b) l l' ↔ l' = bs := by
          intro l'
          rw [← ih, hl, Except.ok.injEq, eq_comm]
        simp [bind, Except.bind, pure, Except.pure, List.forall₂_cons_left_iff, ha, hbs, eq_comm]

theorem mapM_ok {f : α → Except ε β} (h : ∀ a ∈ l, ∃ b, f a = .ok b) :
    ∃ bs, l.mapM f = .ok bs ∧ List.Forall₂ (fun a b => f a = .ok b) l bs := by
  induction l with
  | nil => exact ⟨[], rfl, .nil⟩
  | cons a l ih =>
    obtain ⟨b, hb⟩ := h a (List.mem_cons_self ..)
    obtain ⟨bs, -, hbs⟩ := ih fun a ha => h a (List.mem_cons_of_mem _ ha)
    exact ⟨b :: bs, mapM_eq_ok.mpr (.cons hb hbs), .cons hb hbs⟩

theorem infix_flatMap {f : α → List β} {a : α} (h : a ∈ l) : f a <:+: l.flatMap f := by
  obtain ⟨pre, post, rfl⟩ := List.append_of_mem h
  rw [List.flatMap_append, List.flatMap_cons]
  exact ⟨pre.flatMap f, post.flatMap f, List.append_assoc ..⟩

/-- Counted owner by owner. -/
theorem countP_eq_sum (owner : α → ℕ) (p : α → Bool) {n : ℕ} (h : ∀ a ∈ l, owner a < n) :
    l.countP p = ∑ i ∈ Finset.range n, (l.filter (owner · = i)).countP p := by
  induction l with
  | nil => simp
  | cons a l ih =>
    have hlt : owner a < n := h a (List.mem_cons_self ..)
    have hone : ∑ i ∈ Finset.range n, (if owner a = i then [a].countP p else 0) = [a].countP p := by
      rw [Finset.sum_ite_eq, if_pos (Finset.mem_range.mpr hlt)]
    rw [← List.singleton_append, List.countP_append, ih fun b hb => h b (List.mem_cons_of_mem _ hb), ← hone,
      ← Finset.sum_add_distrib]
    refine Finset.sum_congr rfl fun i _ => ?_
    by_cases hi : owner a = i <;> simp [hi, List.countP_cons, add_comm]

/-- Counted place by place. -/
theorem countP_eq_sum_getElem? (p : α → Bool) :
    l.countP p = ∑ i ∈ Finset.range l.length, if l[i]?.any p then 1 else 0 := by
  induction l with
  | nil => simp
  | cons a l ih =>
    rw [List.length_cons, Finset.sum_range_succ', List.countP_cons, ih]
    simp

/-- What the elements yield, owner by owner. -/
theorem flatMap_perm_filterMap {f : α → Option β} {owner : α → ℕ} {owners : List ℕ} (hnodup : owners.Nodup)
    (h : ∀ a ∈ l, (f a).isSome → owner a ∈ owners) :
    (owners.flatMap fun i => (l.filter (owner · = i)).filterMap f).Perm (l.filterMap f) := by
  induction l with
  | nil => simp
  | cons a l ih =>
    have ih := ih fun b hb => h b (List.mem_cons_of_mem _ hb)
    cases hf : f a with
    | none =>
      have hsame : (fun i => ((a :: l).filter (owner · = i)).filterMap f) =
          fun i => (l.filter (owner · = i)).filterMap f := by
        funext i
        by_cases hi : owner a = i <;> simp [hi, hf]
      rw [hsame, List.filterMap_cons_none hf]
      exact ih
    | some b =>
      obtain ⟨pre, post, hsplit⟩ := List.append_of_mem (h a (List.mem_cons_self ..) (by rw [hf]; rfl))
      rw [hsplit] at hnodup ih ⊢
      obtain ⟨-, hpost, hdisjoint⟩ := List.nodup_append.mp hnodup
      have hother : ∀ os : List ℕ, owner a ∉ os → (os.flatMap fun i => ((a :: l).filter (owner · = i)).filterMap f) =
          os.flatMap fun i => (l.filter (owner · = i)).filterMap f := by
        intro os hos
        refine List.flatMap_congr fun i hi => ?_
        have hne : owner a ≠ i := fun he => hos (he ▸ hi)
        simp [hne]
      rw [List.filterMap_cons_some hf]
      rw [List.flatMap_append, List.flatMap_cons] at ih ⊢
      rw [hother pre fun hmem => hdisjoint _ hmem _ (List.mem_cons_self ..) rfl,
        hother post (List.nodup_cons.mp hpost).1]
      have hown : ((a :: l).filter (owner · = owner a)).filterMap f =
          b :: (l.filter (owner · = owner a)).filterMap f := by simp [hf]
      rw [hown, List.cons_append]
      exact List.perm_middle.trans (ih.cons b)

/-- Lists sorted strictly by a key are equal if they have the same elements. -/
theorem eq_of_sorted {κ : Type} [LinearOrder κ] (key : α → κ) {l₁ l₂ : List α}
    (h₁ : (l₁.map key).Pairwise (· < ·)) (h₂ : (l₂.map key).Pairwise (· < ·))
    (h : ∀ a, a ∈ l₁ ↔ a ∈ l₂) : l₁ = l₂ := by
  have : Std.Irrefl fun a b : α => key a < key b := ⟨fun a => lt_irrefl _⟩
  have : Std.Antisymm fun a b : α => key a < key b := ⟨fun a b hab hba => absurd hab hba.asymm⟩
  exact List.Pairwise.eq_of_mem_iff (List.pairwise_map.mp h₁) (List.pairwise_map.mp h₂) h

end Lists
