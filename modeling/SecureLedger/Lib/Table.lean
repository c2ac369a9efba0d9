import Mathlib.Data.List.Nodup
import Mathlib.Data.List.Sort

/-!
# Lib.Table — tables with a primary key

A `Table key` is a list of rows, oldest first, no two with the same key.  The statements on it are
`insert` (refused when the key is taken), `update` and `delete` of the row with a given key, and
the lookup `find?`; each has one lemma saying what the lookup gives afterwards.
-/

/-- Rows, oldest first, with distinct keys. -/
structure Table {R K : Type} (key : R → K) where
  rows : List R
  nodup : (rows.map key).Nodup

namespace Table

variable {R K : Type} {key : R → K}

@[ext] theorem ext {t u : Table key} (h : t.rows = u.rows) : t = u := by
  cases t; cases u; cases h; rfl

def empty : Table key := ⟨[], by simp⟩

@[simp] theorem empty_rows : (empty : Table key).rows = [] := rfl

variable [DecidableEq K] (t : Table key)

/-- The row with key `k`. -/
def find? (k : K) : Option R := t.rows.find? (key · = k)

/-- Append `r`; refused when its key is taken. -/
def insert (r : R) : Option (Table key) :=
  if h : key r ∈ t.rows.map key then none
  else some ⟨t.rows ++ [r], by
    rw [List.map_append, List.map_singleton, ← List.concat_eq_append]
    exact t.nodup.concat h⟩

/-- Rewrite the row with key `k` by `f`, which keeps keys. -/
def update (k : K) (f : R → R) (hf : ∀ r, key (f r) = key r) : Table key :=
  ⟨t.rows.map fun r => if key r = k then f r else r, by
    have : (key ∘ fun r => if key r = k then f r else r) = key := by
      funext r
      by_cases h : key r = k <;> simp [h, hf]
    rw [List.map_map, this]
    exact t.nodup⟩

/-- Remove the row with key `k`. -/
def delete (k : K) : Table key :=
  ⟨t.rows.filter (key · ≠ k), t.nodup.sublist (List.filter_sublist.map key)⟩

/-- How many rows have key `k`: what `update` and `delete` report. -/
def count (k : K) : ℕ := (t.rows.map key).count k

variable {t} {k k' : K} {r r' : R}

theorem find?_eq_some : t.find? k = some r ↔ r ∈ t.rows ∧ key r = k := by
  constructor
  · intro h
    exact ⟨List.mem_of_find?_eq_some h, by simpa using List.find?_some h⟩
  · rintro ⟨hr, rfl⟩
    cases h : t.find? (key r) with
    | none => simpa using List.find?_eq_none.mp h r hr
    | some r' =>
      have hr' := List.mem_of_find?_eq_some h
      have hk : key r' = key r := by simpa using List.find?_some h
      rw [List.inj_on_of_nodup_map t.nodup hr' hr hk]

theorem find?_eq_none : t.find? k = none ↔ ∀ r ∈ t.rows, key r ≠ k := by
  simp [find?]

theorem find?_key (h : t.find? k = some r) : key r = k := (find?_eq_some.mp h).2

theorem find?_of_mem (h : r ∈ t.rows) : t.find? (key r) = some r := find?_eq_some.mpr ⟨h, rfl⟩

omit [DecidableEq K] in
/-- One row per key. -/
theorem eq_of_key (hr : r ∈ t.rows) (hr' : r' ∈ t.rows) (h : key r = key r') : r = r' :=
  List.inj_on_of_nodup_map t.nodup hr hr' h

theorem insert_eq_none : t.insert r = none ↔ (t.find? (key r)).isSome := by
  unfold insert
  cases h : t.find? (key r) with
  | none =>
    have := find?_eq_none.mp h
    simpa using this
  | some r' =>
    obtain ⟨hr', hk⟩ := find?_eq_some.mp h
    simpa using ⟨r', hr', hk⟩

theorem insert_rows {u : Table key} (h : t.insert r = some u) : u.rows = t.rows ++ [r] := by
  unfold insert at h
  split at h
  · cases h
  · cases h; rfl

theorem insert_fresh (h : t.find? (key r) = none) : ∃ u, t.insert r = some u := by
  cases hu : t.insert r with
  | none => rw [insert_eq_none, h] at hu; cases hu
  | some u => exact ⟨u, rfl⟩

/-- An insert is refused exactly if there is a row with the key. -/
theorem insert_cases (t : Table key) (r : R) : (t.insert r = none ∧ t.find? (key r) ≠ none) ∨
    ∃ u, t.insert r = some u ∧ t.find? (key r) = none := by
  cases hf : t.find? (key r) with
  | none =>
    obtain ⟨u, hu⟩ := insert_fresh hf
    exact .inr ⟨u, hu, rfl⟩
  | some r' =>
    refine .inl ⟨insert_eq_none.mpr ?_, Option.some_ne_none r'⟩
    rw [hf]
    rfl

theorem find?_insert {u : Table key} (h : t.insert r = some u) :
    u.find? k = if key r = k then some r else t.find? k := by
  have hfree : t.find? (key r) = none := by
    rcases insert_cases t r with ⟨hn, -⟩ | ⟨u', -, hfree⟩
    · rw [hn] at h
      cases h
    · exact hfree
  unfold find? at hfree ⊢
  rw [insert_rows h, List.find?_append]
  by_cases hk : key r = k
  · subst hk; simp [hfree]
  · simp [hk]

theorem update_rows {f : R → R} (hf : ∀ r, key (f r) = key r) :
    (t.update k f hf).rows = t.rows.map fun r => if key r = k then f r else r := rfl

theorem delete_rows : (t.delete k).rows = t.rows.filter (key · ≠ k) := rfl

theorem find?_update {f : R → R} (hf : ∀ r, key (f r) = key r) :
    (t.update k f hf).find? k' = if k' = k then (t.find? k).map f else t.find? k' := by
  unfold find? update
  dsimp only
  induction t.rows with
  | nil => simp
  | cons a l ih =>
    have hkey : key (if key a = k then f a else a) = key a := by split <;> simp [hf]
    simp only [List.map_cons, List.find?_cons, hkey]
    by_cases hk' : k' = k
    · subst hk'
      by_cases ha : key a = k'
      · simp [ha]
      · simpa [ha] using ih
    · by_cases ha : key a = k'
      · have : key a ≠ k := fun h => hk' (ha.symm.trans h)
        simp [ha, hk']
      · simpa [ha, hk'] using ih

theorem find?_delete : (t.delete k).find? k' = if k' = k then none else t.find? k' := by
  by_cases hk : k' = k
  · subst hk
    rw [if_pos rfl, find?_eq_none]
    intro r hr
    simpa using (List.mem_filter.mp hr).2
  · rw [if_neg hk]
    unfold find? delete
    dsimp only
    induction t.rows with
    | nil => rfl
    | cons a l ih =>
      by_cases ha : key a = k'
      · have : key a ≠ k := fun h => hk (ha.symm.trans h)
        simp [ha, hk]
      · by_cases hak : key a = k
        · simpa [hak, Ne.symm hk] using ih
        · simpa [hak, ha] using ih

theorem mem_update {f : R → R} (hf : ∀ r, key (f r) = key r) :
    r ∈ (t.update k f hf).rows ↔ (r ∈ t.rows ∧ key r ≠ k) ∨ ∃ r' ∈ t.rows, key r' = k ∧ f r' = r := by
  unfold update
  dsimp only
  constructor
  · intro h
    obtain ⟨r', hr', rfl⟩ := List.mem_map.mp h
    by_cases hk : key r' = k
    · exact .inr ⟨r', hr', hk, by rw [if_pos hk]⟩
    · exact .inl (by rw [if_neg hk]; exact ⟨hr', hk⟩)
  · rintro (⟨hr, hk⟩ | ⟨r', hr', hk, rfl⟩)
    · exact List.mem_map.mpr ⟨r, hr, by rw [if_neg hk]⟩
    · exact List.mem_map.mpr ⟨r', hr', by rw [if_pos hk]⟩

/-- An update changes nothing exactly if it does not change its row. -/
theorem update_eq_self {f : R → R} (hf : ∀ r, key (f r) = key r) (h : t.find? k = some r) :
    t.update k f hf = t ↔ f r = r := by
  constructor
  · intro hu
    have : (t.update k f hf).find? k = some (f r) := by simp [find?_update hf, h]
    rw [hu, h] at this
    exact (Option.some.inj this).symm
  · intro hr
    obtain ⟨hmem, hk⟩ := find?_eq_some.mp h
    refine Table.ext ?_
    show t.rows.map (fun r => if key r = k then f r else r) = t.rows
    conv_rhs => rw [← List.map_id t.rows]
    refine List.map_congr_left fun r' hr' => ?_
    by_cases hk' : key r' = k
    · rw [if_pos hk', eq_of_key hr' hmem (hk'.trans hk.symm), hr, id]
    · rw [if_neg hk', id]

/-- What `f` keeps of a row, `update` keeps of the table. -/
theorem map_update {β : Type} {f : R → R} (hf : ∀ r, key (f r) = key r) {g : R → β}
    (hg : ∀ r, g (f r) = g r) : (t.update k f hf).rows.map g = t.rows.map g := by
  unfold update
  dsimp only
  rw [List.map_map]
  refine List.map_congr_left fun r _ => ?_
  by_cases h : key r = k <;> simp [h, hg]

theorem mem_delete : r ∈ (t.delete k).rows ↔ r ∈ t.rows ∧ key r ≠ k := by
  simp [delete]

/-- The key is primary: a count is at most one. -/
theorem count_eq : t.count k = if (t.find? k).isSome then 1 else 0 := by
  unfold count
  cases h : t.find? k with
  | none =>
    have hk := find?_eq_none.mp h
    exact List.count_eq_zero.mpr (by simpa using hk)
  | some r =>
    obtain ⟨hr, rfl⟩ := find?_eq_some.mp h
    exact List.count_eq_one_of_mem t.nodup (List.mem_map.mpr ⟨r, hr, rfl⟩)

end Table
