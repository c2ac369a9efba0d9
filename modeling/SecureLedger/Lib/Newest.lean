import Mathlib.Data.List.Sort
import Mathlib.Order.Defs.LinearOrder

/-!
# Lib.Newest — a list sorted by a key, greatest first, ties as they stand

What a stable `ORDER BY key DESC` makes of the rows: the result is sorted, it depends on the keys
alone (`newest_map`), and it goes along with taking a sublist (`newest_sublist`).
-/

namespace Newest

variable {α β κ : Type} [LinearOrder κ]

/-- The greatest key first; stable. -/
def newest (key : α → κ) (l : List α) : List α := l.insertionSort fun a b => key b ≤ key a

variable {key : α → κ}

theorem total_key (key : α → κ) : Std.Total fun a b => key b ≤ key a := ⟨fun a b => le_total (key b) (key a)⟩

theorem trans_key (key : α → κ) : IsTrans α fun a b => key b ≤ key a := ⟨fun _ _ _ hab hbc => hbc.trans hab⟩

theorem newest_perm (key : α → κ) (l : List α) : (newest key l).Perm l := List.perm_insertionSort _ l

@[simp] theorem mem_newest {l : List α} {a : α} : a ∈ newest key l ↔ a ∈ l := (newest_perm key l).mem_iff

theorem newest_pairwise (key : α → κ) (l : List α) : (newest key l).Pairwise fun a b => key b ≤ key a := by
  have := total_key key
  have := trans_key key
  exact List.pairwise_insertionSort _ l

/-- What is put in does not change the order of the rest. -/
theorem newest_sublist {l l' : List α} (h : l.Sublist l') : (newest key l).Sublist (newest key l') := by
  have := total_key key
  have := trans_key key
  induction h with
  | slnil => exact .refl _
  | @cons l l' a h ih => exact ih.trans (List.sublist_orderedInsert a _)
  | @cons_cons l l' a h ih => exact List.Sublist.orderedInsert_sublist a ih (newest_pairwise key l')

/-- Only the keys decide. -/
theorem newest_map (key : α → κ) (f : α → β) {key' : β → κ} (hkey : ∀ a, key' (f a) = key a) (l : List α) :
    (newest key l).map f = newest key' (l.map f) := by
  apply List.map_insertionSort
  intro a _ b _
  rw [hkey, hkey]

end Newest
