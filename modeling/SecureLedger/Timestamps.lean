import SecureLedger.Lib.Rfc3339
import SecureLedger.Lib.Utf8
import SecureLedger.AuditQuery

/-!
# Timestamps — rows sorted by the text of a stamp are sorted by its instant

`list_tasks` and `list_audit` order rows by the stored texts.  What the three writing calls store are
texts of instants (`Db.Stamped`), and these compare as the instants, though their fractions differ in
length (`text_order`).
-/

namespace SecureLedger

open Rfc3339 (DateTime)

variable {Time : Type} {C : Chrono Time} {db : Db} {x : Input Time}

/-- `to_rfc3339` prints the fraction with 0, 3, 6 or 9 digits. -/
def Chrono.PrintsRfc3339 (C : Chrono DateTime) : Prop := ∀ t, C.toRfc3339 t = t.text

theorem Chrono.PrintsRfc3339.sortsText {C : Chrono DateTime} (h : C.PrintsRfc3339) : C.SortsText := by
  intro t t' hlt
  rw [h, h]
  exact DateTime.text_lt_text.mpr hlt

/-! ### Stamped tables -/

/-- The stamps of the rows are texts of instants. -/
structure Db.Stamped (C : Chrono Time) (db : Db) : Prop where
  createdAt : ∀ r ∈ db.task.rows, ∃ t, r.createdAt = C.toRfc3339 t
  updatedAt : ∀ r ∈ db.task.rows, ∃ t, r.updatedAt = C.toRfc3339 t
  timestamp : ∀ r ∈ db.auditEvent.rows, ∃ t, r.timestamp = C.toRfc3339 t

theorem Db.Stamped.empty : Db.empty.Stamped C := ⟨by simp [Db.empty], by simp [Db.empty], by simp [Db.empty]⟩

/-- **Every call keeps the tables stamped.** -/
theorem Db.Stamped.exec (h : db.Stamped C) (c : DbCall Time) : (c.exec C x db).2.Stamped C := by
  have he := DbCall.exec_effect C x db c
  generalize (c.exec C x db).2 = db' at he ⊢
  cases he with
  | none => exact h
  | @create owner input t hx ht =>
    have hrows : ∀ r ∈ t.rows, r ∈ db.task.rows ∨ r = taskToRow C (Db.newTask owner input x) := by
      intro r hr
      rw [Table.insert_rows ht] at hr
      simpa using hr
    refine ⟨fun r hr => ?_, fun r hr => ?_, h.timestamp⟩
    · rcases hrows r hr with hr | rfl
      · exact h.createdAt r hr
      · exact ⟨x.now, rfl⟩
    · rcases hrows r hr with hr | rfl
      · exact h.updatedAt r hr
      · exact ⟨x.now, rfl⟩
  | @update existing input hx =>
    refine ⟨fun r hr => ?_, fun r hr => ?_, h.timestamp⟩
    · rcases Db.mem_write.mp hr with ⟨hr, -⟩ | ⟨r', hr', -, rfl⟩
      · exact h.createdAt r hr
      · exact h.createdAt r' hr'
    · rcases Db.mem_write.mp hr with ⟨hr, -⟩ | ⟨r', -, -, rfl⟩
      · exact h.updatedAt r hr
      · exact ⟨x.now, rfl⟩
  | delete hx =>
    exact ⟨fun r hr => h.createdAt r (Table.mem_delete.mp hr).1,
      fun r hr => h.updatedAt r (Table.mem_delete.mp hr).1, h.timestamp⟩
  | @audit actor action entityType entityId detail a hx ha =>
    refine ⟨h.createdAt, h.updatedAt, fun r hr => ?_⟩
    rw [Table.insert_rows ha] at hr
    rcases List.mem_append.mp hr with hr | hr
    · exact h.timestamp r hr
    · rw [List.mem_singleton.mp hr]
      exact ⟨x.now, rfl⟩

/-! ### The order of the lists -/

section Order

variable [LinearOrder Time]

theorem Chrono.SortsText.le (h : C.SortsText) {t t' : Time} (hle : C.toRfc3339 t ≤ C.toRfc3339 t') : t ≤ t' := by
  refine not_lt.mp fun hlt => ?_
  exact absurd hle (not_le.mpr (h t' t hlt))

/-- Rows in descending order of a stamp's text are so of the decoded stamp. -/
theorem decoded_pairwise {α : Type} {key : α → String} {rows : List α} (hround : C.RoundTrips)
    (htext : C.SortsText) (hstamped : ∀ r ∈ rows, ∃ t, key r = C.toRfc3339 t)
    (h : rows.Pairwise fun r r' => key r' ≤ key r) (now : Time) :
    rows.Pairwise fun r r' => parseTs C now (key r') ≤ parseTs C now (key r) := by
  refine h.imp_of_mem fun {r r'} hr hr' hle => ?_
  obtain ⟨t, ht⟩ := hstamped r hr
  obtain ⟨t', ht'⟩ := hstamped r' hr'
  simp only [parseTs, ht, ht', hround t, hround t', Option.getD_some]
  rw [ht, ht'] at hle
  exact htext.le hle

theorem limitOffset_sublist {α : Type} (limit offset : ℤ) (rows : List α) :
    (limitOffset limit offset rows).Sublist rows := by
  unfold limitOffset
  split
  · exact List.drop_sublist _ _
  · exact (List.take_sublist _ _).trans (List.drop_sublist _ _)

theorem listTasks_pairwise (hround : C.RoundTrips) (htext : C.SortsText) (hdb : db.Stamped C)
    {limit offset : ℤ} {tasks : List (Task Time)}
    (h : (DbCall.exec C (.listTasks limit offset) x db).1 = .ok tasks) :
    tasks.Pairwise fun task task' => task'.createdAt ≤ task.createdAt := by
  have hx := DbCall.fault_of_ok h
  simp only [DbCall.exec, Db.listTasks, Db.withConn, hx] at h
  obtain rfl := Except.ok.inj h
  have hsub := limitOffset_sublist limit offset (byCreatedAt db.task.rows)
  have hsorted := (Newest.newest_pairwise TaskRow.createdAt db.task.rows).sublist hsub
  exact List.pairwise_map.mpr (decoded_pairwise hround htext
    (fun r hr => hdb.createdAt r (Newest.mem_newest.mp (hsub.subset hr))) hsorted x.now)

theorem listAudit_pairwise (hround : C.RoundTrips) (htext : C.SortsText) (hdb : db.Stamped C)
    {actor action : Option String} {limit : ℤ} {events : List (AuditEvent Time)}
    (h : (DbCall.exec C (.listAudit actor action limit) x db).1 = .ok events) :
    events.Pairwise fun event event' => event'.timestamp ≤ event.timestamp := by
  obtain ⟨-, rfl⟩ := exec_listAudit.mp h
  have hsub := limitOffset_sublist limit 0 (Newest.newest AuditRow.timestamp
    (db.auditEvent.rows.filter (·.satisfies actor action)))
  have hsorted := (Newest.newest_pairwise AuditRow.timestamp
    (db.auditEvent.rows.filter (·.satisfies actor action))).sublist hsub
  refine List.pairwise_map.mpr (decoded_pairwise hround htext (fun r hr => ?_) hsorted x.now)
  exact hdb.timestamp r (List.mem_of_mem_filter (Newest.mem_newest.mp (hsub.subset hr)))

end Order

/-- **Text order is time order.**  Stored stamps compare, as strings and byte by byte, as their
instants do; every call leaves tables whose stamps are such texts; and over any such tables the two
lists are in non-increasing order of the decoded stamps. -/
theorem text_order {C : Chrono DateTime} (hprint : C.PrintsRfc3339) (hround : C.RoundTrips) :
    (∀ t t' : DateTime, (C.toRfc3339 t < C.toRfc3339 t' ↔ t < t') ∧
      (Utf8.bytes (C.toRfc3339 t) < Utf8.bytes (C.toRfc3339 t') ↔ t < t') ∧
      (C.toRfc3339 t = C.toRfc3339 t' ↔ t = t')) ∧
    Db.empty.Stamped C ∧ (∀ (db : Db) (c : DbCall DateTime) x, db.Stamped C → (c.exec C x db).2.Stamped C) ∧
    ∀ (db : Db) (x : Input DateTime), db.Stamped C →
      (∀ limit offset tasks, (DbCall.exec C (.listTasks limit offset) x db).1 = .ok tasks →
        tasks.Pairwise fun task task' => task'.createdAt ≤ task.createdAt) ∧
      ∀ actor action limit events, (DbCall.exec C (.listAudit actor action limit) x db).1 = .ok events →
        events.Pairwise fun event event' => event'.timestamp ≤ event.timestamp := by
  refine ⟨fun t t' => ?_, .empty, fun db c x h => h.exec c, fun db x hdb => ⟨?_, ?_⟩⟩
  · rw [Utf8.bytes_lt_bytes, hprint, hprint]
    exact ⟨DateTime.text_lt_text, DateTime.text_lt_text, DateTime.text_inj⟩
  · exact fun limit offset tasks h => listTasks_pairwise hround hprint.sortsText hdb h
  · exact fun actor action limit events h => listAudit_pairwise hround hprint.sortsText hdb h

end SecureLedger

/-! ### On a sample -/

namespace SecureLedger.Sample

open Rfc3339 (DateTime)

/-- `chrono` on the texts it prints; only these two functions are looked at. -/
def textChrono : Chrono DateTime where
  toRfc3339 := DateTime.text
  parseFromRfc3339 := DateTime.parse
  addSeconds t _ := t
  timestamp t := t.nanos / 1000000000 - 719528 * 86400

/-- 2023-12-31, 23:59:59 and so many nanoseconds. -/
def lastSecond (nano : Fin 1000000000) : DateTime :=
  ⟨2023, 12, 31, 23, 59, 59, nano, by decide, by decide, by decide, by decide, by decide, by decide,
    by decide, by decide, nano.isLt⟩

/-- Texts of four lengths, in the order of their instants. -/
example : [0, 7, 7000, 7001, 7000000, 70000000].map (fun n => (lastSecond n).text) =
    ["2023-12-31T23:59:59+00:00", "2023-12-31T23:59:59.000000007+00:00",
      "2023-12-31T23:59:59.000007+00:00", "2023-12-31T23:59:59.000007001+00:00",
      "2023-12-31T23:59:59.007+00:00", "2023-12-31T23:59:59.070+00:00"] := by decide +kernel

/-- Two events, the earlier with the longer text. -/
def lastEvents : Db :=
  ((DbCall.recordAudit "user" "create" "task" "t1" "").exec textChrono ⟨lastSecond 1, "e1", none⟩
    ((DbCall.recordAudit "user" "update" "task" "t1" "").exec textChrono ⟨lastSecond 2000000, "e2", none⟩
      Db.empty).2).2

theorem lastEvents_order : (DateTime.text (lastSecond 1) < DateTime.text (lastSecond 2000000)) ∧
    ∃ events, (DbCall.exec textChrono (.listAudit none none 50) ⟨lastSecond 3, "", none⟩ lastEvents).1 =
      .ok events ∧ events.map AuditEvent.id = ["e2", "e1"] ∧
      events.Pairwise fun event event' => event'.timestamp ≤ event.timestamp := by
  obtain ⟨horder, hempty, hexec, hlists⟩ :=
    text_order (C := textChrono) (fun _ => rfl) DateTime.parse_text
  have hstamped : lastEvents.Stamped textChrono := hexec _ _ _ (hexec _ _ _ hempty)
  obtain ⟨events, h, hids⟩ : ∃ events, (DbCall.exec textChrono (.listAudit none none 50)
      ⟨lastSecond 3, "", none⟩ lastEvents).1 = .ok events ∧ events.map AuditEvent.id = ["e2", "e1"] := by
    refine ⟨_, exec_listAudit.mpr ⟨rfl, rfl⟩, ?_⟩
    decide +kernel
  exact ⟨(horder _ _).1.mpr (by decide +kernel), events, h, hids, (hlists _ _ hstamped).2 _ _ _ _ h⟩

end SecureLedger.Sample
