import Mathlib.Data.List.Forall2

/-!
# Lib.Paging — reading a list page by page while it changes

The reader asks for at most `k` elements from an offset, which is how many it has received, and stops
at an empty page; `view n` is the list the `n`-th page is cut from.  Of a fixed list it receives
everything, in order (`collect_fixed`); of a list that only grows, by elements put in anywhere, it
misses nothing that was there at the start (`collect_covers`).
-/

namespace Paging

variable {α β : Type}

/-- The pages from the `n`-th on, at most `fuel` of them; `none` if none of them is empty. -/
def collect (view : ℕ → List α) (k : ℕ) : (fuel n : ℕ) → List α → Option (List α)
  | 0, _, _ => none
  | fuel + 1, n, got =>
    let page := ((view n).drop got.length).take k
    if page.isEmpty then some got else collect view k fuel (n + 1) (got ++ page)

variable {view : ℕ → List α} {k : ℕ}

theorem collect_fixed_aux {l : List β} {f : ℕ → β → α} (hview : ∀ n, view n = l.map (f n)) (hk : 0 < k) :
    ∀ (fuel n : ℕ) (got : List α) (before after : List β), l = before ++ after →
      List.Forall₂ (fun b a => ∃ m, a = f m b) before got → after.length < fuel →
      ∃ all, collect view k fuel n got = some all ∧ List.Forall₂ (fun b a => ∃ m, a = f m b) l all
  | 0, n, got, before, after, _, _, hfuel => absurd hfuel (Nat.not_lt_zero _)
  | fuel + 1, n, got, before, after, hl, hgot, hfuel => by
    have hpage : ((view n).drop got.length).take k = (after.take k).map (f n) := by
      rw [hview, hl, ← hgot.length_eq, List.map_append, List.drop_left' (List.length_map _), List.map_take]
    unfold collect
    dsimp only
    rw [hpage]
    cases after with
    | nil =>
      rw [List.append_nil] at hl
      exact ⟨got, by simp, hl ▸ hgot⟩
    | cons b after =>
      have hne : ¬ (((b :: after).take k).map (f n)).isEmpty := by
        simp only [List.isEmpty_iff, List.map_eq_nil_iff, List.take_eq_nil_iff, reduceCtorEq, or_false]
        omega
      rw [if_neg hne]
      refine collect_fixed_aux hview hk fuel (n + 1) _ (before ++ (b :: after).take k)
        ((b :: after).drop k) ?_ ?_ ?_
      · rw [List.append_assoc, List.take_append_drop, hl]
      · refine List.rel_append hgot ?_
        rw [List.forall₂_map_right_iff]
        exact List.forall₂_same.mpr fun b' _ => ⟨n, rfl⟩
      · simp only [List.length_drop, List.length_cons] at hfuel ⊢
        omega

/-- **A fixed list is received once, in order**, each element as the page it came on shows it. -/
theorem collect_fixed {l : List β} {f : ℕ → β → α} (hview : ∀ n, view n = l.map (f n)) (hk : 0 < k)
    {fuel : ℕ} (hfuel : l.length < fuel) : ∃ all, collect view k fuel 0 [] = some all ∧
      List.Forall₂ (fun b a => ∃ m, a = f m b) l all :=
  collect_fixed_aux hview hk fuel 0 [] [] l rfl .nil hfuel

/-- What was there at the start has been received or is still ahead. -/
theorem collect_covers_aux {key : α → β} (hgrows : ∀ n, ((view n).map key).Sublist ((view (n + 1)).map key))
    (hk : 0 < k) (start : List β) : ∀ (fuel n : ℕ) (got : List α) {all : List α},
      (∀ b ∈ start, b ∈ got.map key ∨ b ∈ ((view n).map key).drop got.length) →
      collect view k fuel n got = some all → ∀ b ∈ start, b ∈ all.map key
  | 0, n, got, all, _, h => by cases h
  | fuel + 1, n, got, all, hstart, h => by
    unfold collect at h
    dsimp only at h
    split at h
    · next hempty =>
      -- nothing is ahead
      have hnil : (view n).drop got.length = [] := by
        rw [List.isEmpty_iff, List.take_eq_nil_iff] at hempty
        exact hempty.resolve_left (by omega)
      cases h
      intro b hb
      rcases hstart b hb with hb | hb
      · exact hb
      · rw [← List.map_drop, hnil] at hb
        cases hb
    · refine collect_covers_aux hgrows hk start fuel (n + 1) _ (fun b hb => ?_) h
      rw [List.map_append, List.mem_append, List.length_append]
      rcases hstart b hb with hb | hb
      · exact .inl (.inl hb)
      · rw [← List.map_drop, ← List.take_append_drop k ((view n).drop got.length), List.map_append,
          List.mem_append] at hb
        rcases hb with hb | hb
        · exact .inl (.inr hb)
        · refine .inr (((hgrows n).drop _).subset ?_)
          rw [← List.map_drop, ← List.drop_drop]
          refine (List.Sublist.map key ?_).subset hb
          -- a page has at most `k` elements
          have hle : (((view n).drop got.length).take k).length ≤ k := List.length_take_le ..
          exact List.drop_sublist_drop_left _ hle

/-- **Nothing is skipped** of a list that only grows. -/
theorem collect_covers {key : α → β} (hgrows : ∀ n, ((view n).map key).Sublist ((view (n + 1)).map key))
    (hk : 0 < k) {fuel : ℕ} {all : List α} (h : collect view k fuel 0 [] = some all) :
    ∀ a ∈ view 0, key a ∈ all.map key := by
  intro a ha
  refine collect_covers_aux hgrows hk ((view 0).map key) fuel 0 [] (fun b hb => .inr hb) h _ ?_
  exact List.mem_map_of_mem ha

end Paging
