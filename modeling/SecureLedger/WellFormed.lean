import SecureLedger.Ledger
import SecureLedger.Sample

/-!
# WellFormed — every stored row decodes, and meets the limits of the validators

A body is validated before the row is read, trimmed later, and merged into a task read earlier, so
the invariant is about the rows in the table and the rows any call of the run has seen (`rows_ok`).
The order on times is a parameter `le`: the code compares none, and what is known of the stamps is
what is known of the clock.
-/

namespace SecureLedger

open Atomic

variable {Time : Type}

/-- The clock readings of a log. -/
def clock (log : List (DbEvent Time)) : List Time := log.map (·.input.now)

/-- A well-formed row, stamped with readings of `clock`. -/
structure RowOk (C : Chrono Time) (le : Time → Time → Prop) (clock : List Time) (r : TaskRow) : Prop where
  trimmed : Str.trim r.title = r.title
  nonempty : 0 < Str.len r.title
  title : Str.len r.title ≤ 200
  description : Str.len r.description ≤ 2000
  status : ∃ st : TaskStatus, r.status = st.asStr
  times : ∃ c ∈ clock, ∃ u ∈ clock,
    r.createdAt = C.toRfc3339 c ∧ r.updatedAt = C.toRfc3339 u ∧ le c u

section Rows

variable {C : Chrono Time} {le : Time → Time → Prop} {now : Time} {old : List Time} {r : TaskRow}

theorem RowOk.mono {new : List Time} (h : RowOk C le old r) : RowOk C le (old ++ new) r := by
  obtain ⟨h1, h2, h3, h4, h5, c, hc, u, hu, h6⟩ := h
  exact ⟨h1, h2, h3, h4, h5, c, List.mem_append_left _ hc, u, List.mem_append_left _ hu, h6⟩

/-- A validated creation inserts a well-formed row. -/
theorem rowOk_create {owner : String} {input : CreateTask} {x : Input Time} (hrefl : le x.now x.now)
    (hv : input.validate = .ok ()) :
    RowOk C le (old ++ [x.now]) (taskToRow C (Db.newTask owner input x)) := by
  obtain ⟨⟨hpos, hlen⟩, hdesc⟩ := CreateTask.validate_eq_ok.mp hv
  exact ⟨Str.trim_trim _, hpos, hlen, hdesc, ⟨_, rfl⟩, x.now, by simp, x.now, by simp, rfl, rfl, hrefl⟩

/-- A validated update of a well-formed row from a well-formed snapshot leaves a well-formed row. -/
theorem rowOk_update {input : UpdateTask} {n : Time} {r₀ : TaskRow} (hlast : ∀ c ∈ old, le c now)
    (hv : input.validate = .ok ()) (h₀ : RowOk C le old r₀) (h : RowOk C le old r) :
    RowOk C le (old ++ [now]) (setRow C (Db.mergeTask (rowToTask C n r₀) input now) r) := by
  obtain ⟨htitle, hdesc⟩ := UpdateTask.validate_eq_ok.mp hv
  obtain ⟨c, hc, u, hu, hcreated, -, -⟩ := h.times
  have htimes : ∃ c ∈ old ++ [now], ∃ u ∈ old ++ [now], r.createdAt = C.toRfc3339 c ∧
      C.toRfc3339 now = C.toRfc3339 u ∧ le c u :=
    ⟨c, List.mem_append_left _ hc, now, by simp, hcreated, rfl, hlast c hc⟩
  obtain ⟨title, description, status⟩ := input
  have hd : Str.len (description.getD r₀.description) ≤ 2000 := by
    cases description with
    | none => exact h₀.description
    | some d => exact hdesc d rfl
  cases title with
  | none => exact ⟨h₀.trimmed, h₀.nonempty, h₀.title, hd, ⟨_, rfl⟩, htimes⟩
  | some t =>
    obtain ⟨hpos, hlen⟩ := htitle t rfl
    exact ⟨Str.trim_trim t, hpos, hlen, hd, ⟨_, rfl⟩, htimes⟩

end Rows

variable {C : Crates Time} {state : AppState} {w : ServerWorld Time}

/-- **Every row is well formed**, in the table and in every table a call of the run has seen. -/
theorem rows_ok (le : Time → Time → Prop) (hrefl : ∀ t, le t t) (hw : Reach (server C state) Db.empty w)
    (hclock : (clock w.log).Pairwise le) :
    (∀ r ∈ w.db.task.rows, RowOk C.chrono le (clock w.log) r) ∧
      ∀ e ∈ w.log, ∀ r ∈ e.before.task.rows, RowOk C.chrono le (clock w.log) r := by
  refine Reach.log_inv hw (H := fun log => (clock log).Pairwise le)
    (I := fun (db : Db) log => (∀ r ∈ db.task.rows, RowOk C.chrono le (clock log) r) ∧
      ∀ e ∈ log, ∀ r ∈ e.before.task.rows, RowOk C.chrono le (clock log) r)
    (fun hl h => h.sublist (hl.sublist.map _)) (by simp [Db.empty]) ?_ hclock
  rintro w i a c k hw hi x hclock ⟨htable, hseen⟩
  have hconcat : clock (w.log ++ [⟨i, c, x, w.db⟩]) = clock w.log ++ [x.now] := by simp [clock]
  rw [hconcat] at hclock ⊢
  have hlast : ∀ c ∈ clock w.log, le c x.now := fun c hc =>
    (List.pairwise_append.mp hclock).2.2 c hc _ (by simp)
  constructor
  · have he := DbCall.exec_effect C.chrono x w.db c
    show ∀ r ∈ (c.exec C.chrono x w.db).2.task.rows, _
    generalize (c.exec C.chrono x w.db).2 = db' at he ⊢
    cases he with
    | none => exact fun r hr => (htable r hr).mono
    | create h ht =>
      obtain ⟨user, -, -, -, hv, -⟩ := next_createTask hw hi
      intro r hr
      rw [Table.insert_rows ht] at hr
      rcases List.mem_append.mp hr with hr | hr
      · exact (htable r hr).mono
      · rw [List.mem_singleton.mp hr]
        exact rowOk_create (hrefl _) hv
    | @update existing input h =>
      obtain ⟨user, id, j, y, d, -, -, hv, -, hown, hread⟩ := next_updateTask hw hi
      obtain ⟨hmem, -⟩ := World.mem_of_own hown (List.mem_singleton.mpr rfl)
      obtain ⟨-, hfound⟩ := DbCall.exec_getTask.mp hread
      obtain ⟨r₀, hr₀, rfl⟩ := Option.map_eq_some_iff.mp hfound.symm
      have h₀ := hseen _ hmem r₀ (Table.find?_eq_some.mp hr₀).1
      intro r hr
      rcases Db.mem_write.mp hr with ⟨hr, -⟩ | ⟨r', hr', -, rfl⟩
      · exact (htable r hr).mono
      · exact rowOk_update hlast hv h₀ (htable r' hr')
    | delete h => exact fun r hr => (htable r (Table.mem_delete.mp hr).1).mono
    | audit h ha => exact fun r hr => (htable r hr).mono
  · intro e he r hr
    rcases List.mem_append.mp he with he | he
    · exact (hseen e he r hr).mono
    · rw [List.mem_singleton] at he
      subst he
      exact (htable r hr).mono

/-- Every audit row is stamped with a reading of the clock. -/
theorem audit_times (hw : Reach (server C state) Db.empty w) :
    ∀ row ∈ w.db.auditEvent.rows, ∃ t ∈ clock w.log, row.timestamp = C.chrono.toRfc3339 t := by
  intro row hrow
  rw [audit_rows hw] at hrow
  obtain ⟨e, he, ho⟩ := List.mem_filterMap.mp hrow
  obtain ⟨_, _, _, _, _, -, -, rfl⟩ := auditOf_eq_some.mp ho
  exact ⟨e.input.now, List.mem_map_of_mem he, rfl⟩

/-- **Stored rows are well formed and the decode fallbacks are dead.**  Whatever fails and however
requests interleave, under a clock that does not go back: every task row meets the limits, was
created no later than it was updated and updated no later than any later reading, and its status and
stamps decode; so do the stamps of audit rows. -/
theorem stored_rows_well_formed [Preorder Time] (hchrono : C.chrono.Accepts)
    (hw : Reach (server C state) Db.empty w) (hclock : ClockMono w.log) :
    (∀ r ∈ w.db.task.rows,
      Str.trim r.title = r.title ∧ 0 < Str.len r.title ∧ Str.len r.title ≤ 200 ∧
      Str.len r.description ≤ 2000 ∧ (∃ st : TaskStatus, r.status = st.asStr) ∧
      (∃ c u, r.createdAt = C.chrono.toRfc3339 c ∧ r.updatedAt = C.chrono.toRfc3339 u ∧ c ≤ u ∧
        ∀ now, (∀ e ∈ w.log, e.input.now ≤ now) → u ≤ now) ∧
      (TaskStatus.fromStr r.status).isSome ∧ (C.chrono.parseFromRfc3339 r.createdAt).isSome ∧
      (C.chrono.parseFromRfc3339 r.updatedAt).isSome) ∧
    ∀ row ∈ w.db.auditEvent.rows, (C.chrono.parseFromRfc3339 row.timestamp).isSome := by
  refine ⟨fun r hr => ?_, fun row hrow => ?_⟩
  · obtain ⟨h1, h2, h3, h4, ⟨st, hst⟩, c, -, u, hu, hcreated, hupdated, hle⟩ :=
      (rows_ok (· ≤ ·) le_refl hw hclock).1 r hr
    obtain ⟨e, he, rfl⟩ := List.mem_map.mp hu
    refine ⟨h1, h2, h3, h4, ⟨st, hst⟩, ⟨c, _, hcreated, hupdated, hle, fun now h => h e he⟩, ?_, ?_, ?_⟩
    · rw [hst, TaskStatus.fromStr_asStr]
      rfl
    · exact hcreated ▸ hchrono c
    · exact hupdated ▸ hchrono _
  · obtain ⟨t, -, ht⟩ := audit_times hw row hrow
    exact ht ▸ hchrono t

end SecureLedger

/-! ### On the sample -/

namespace SecureLedger.Sample

open Atomic

/-- A creation, and two updates of which one fails at its audit insert. -/
def stored : ServerWorld Sec :=
  runOn [.arrive (withToken "tok.user" (.createTask (.ok ⟨" draft ", "", none⟩)) 10),
    .call 0 (good 11 "t1"), .call 0 (good 12 "e1"),
    .arrive (withToken "tok.user" (.updateTask (.ok "t1") (.ok ⟨some " final ", none, none⟩)) 20),
    .arrive (withToken "tok.admin" (.updateTask (.ok "t1") (.ok ⟨none, some "due", some .done⟩)) 21),
    .call 1 (good 22 ""), .call 2 (good 23 ""), .call 1 (good 24 ""), .call 2 (good 25 ""),
    .call 1 (bad 26 ""), .call 2 (good 27 "e3")]

/-- The row they leave. -/
def storedRow : TaskRow :=
  ⟨"t1", "draft", "due", "done", "user", "2024-01-01T00:00:11+00:00", "2024-01-01T00:00:25+00:00"⟩

theorem stored_times : ∃ c u, storedRow.createdAt = chrono.toRfc3339 c ∧
    storedRow.updatedAt = chrono.toRfc3339 u ∧ c ≤ u ∧
    ∀ now, (∀ e ∈ stored.log, e.input.now ≤ now) → u ≤ now :=
  ((stored_rows_well_formed (C := crates) chrono_roundTrips.accepts (runOn_reach _)
    (by decide +kernel)).1 storedRow (by decide +kernel)).2.2.2.2.2.1

end SecureLedger.Sample
