import SecureLedger.Auth
import SecureLedger.Lib.Table

/-!
# Db — the two tables and the statements on them

Every column is TEXT, so rows hold strings and `rowToTask` decodes them.  A call of this module is
one atomic step on the tables; the clock, the fresh UUID and a possible failure of the pool or of
SQLite come with the call, as its `Input`.  A failing call returns `Err` and changes nothing.
-/

namespace SecureLedger

/-- A row of `task`. -/
structure TaskRow where
  id : String
  title : String
  description : String
  status : String
  owner : String
  createdAt : String
  updatedAt : String
  deriving DecidableEq, Repr

/-- A row of `audit_event`. -/
structure AuditRow where
  id : String
  actor : String
  action : String
  entityType : String
  entityId : String
  timestamp : String
  detail : String
  deriving DecidableEq, Repr

/-- The database; both tables have `id` as primary key, rows in rowid order. -/
structure Db where
  task : Table TaskRow.id
  auditEvent : Table AuditRow.id

/-- What `init_schema` leaves in a new database. -/
def Db.empty : Db := ⟨.empty, .empty⟩

@[ext] theorem Db.ext {d d' : Db} (ht : d.task = d'.task) (ha : d.auditEvent = d'.auditEvent) :
    d = d' := by
  cases d; cases d'; cases ht; cases ha; rfl

/-- What a call gets from outside: `Utc::now()`, `Uuid::new_v4()`, and whether it fails. -/
structure Input (Time : Type) where
  now : Time
  uuid : String
  fault : Option DbFault

variable {Time : Type} (C : Chrono Time)

/-! ### Decoding and encoding rows -/

/-- `parse_ts`; `now` is what the fallback `Utc::now()` would read. -/
def parseTs (now : Time) (s : String) : Time := (C.parseFromRfc3339 s).getD now

def rowToTask (now : Time) (row : TaskRow) : Task Time where
  id := row.id
  title := row.title
  description := row.description
  status := (TaskStatus.fromStr row.status).getD .todo
  owner := row.owner
  createdAt := parseTs C now row.createdAt
  updatedAt := parseTs C now row.updatedAt

@[simp] theorem rowToTask_id (now : Time) (row : TaskRow) : (rowToTask C now row).id = row.id := rfl

@[simp] theorem rowToTask_owner (now : Time) (row : TaskRow) :
    (rowToTask C now row).owner = row.owner := rfl

def rowToEvent (now : Time) (row : AuditRow) : AuditEvent Time where
  id := row.id
  actor := row.actor
  action := row.action
  entityType := row.entityType
  entityId := row.entityId
  timestamp := parseTs C now row.timestamp
  detail := row.detail

/-- The parameters of the INSERT in `create_task`. -/
def taskToRow (task : Task Time) : TaskRow where
  id := task.id
  title := task.title
  description := task.description
  status := task.status.asStr
  owner := task.owner
  createdAt := C.toRfc3339 task.createdAt
  updatedAt := C.toRfc3339 task.updatedAt

/-- `SET title = ?1, description = ?2, status = ?3, updated_at = ?4`. -/
def setRow (updated : Task Time) (row : TaskRow) : TaskRow :=
  { row with
    title := updated.title
    description := updated.description
    status := updated.status.asStr
    updatedAt := C.toRfc3339 updated.updatedAt }

@[simp] theorem setRow_id (updated : Task Time) (row : TaskRow) : (setRow C updated row).id = row.id :=
  rfl

/-- `LIMIT limit OFFSET offset`; a negative limit is no limit. -/
def limitOffset {α : Type} (limit offset : ℤ) (rows : List α) : List α :=
  if limit < 0 then rows.drop offset.toNat else (rows.drop offset.toNat).take limit.toNat

/-- `ORDER BY created_at DESC`, on the stored text, ties in rowid order. -/
def byCreatedAt (rows : List TaskRow) : List TaskRow :=
  rows.insertionSort fun a b => b.createdAt ≤ a.createdAt

/-- `ORDER BY timestamp DESC`, on the stored text, ties in rowid order. -/
def byTimestamp (rows : List AuditRow) : List AuditRow :=
  rows.insertionSort fun a b => b.timestamp ≤ a.timestamp

/-! ### The calls -/

namespace Db

/-- Run a statement on a connection from the pool; either may fail. -/
def withConn {α : Type} (x : Input Time) (db : Db) (body : Except AppError α × Db) :
    Except AppError α × Db :=
  match x.fault with
  | some f => (.error f.toAppError, db)
  | none => body

def ping (x : Input Time) (db : Db) : Except AppError Unit × Db := withConn x db (.ok (), db)

/-- List tasks with pagination. -/
def listTasks (limit offset : ℤ) (x : Input Time) (db : Db) : Except AppError (List (Task Time)) × Db :=
  withConn x db
    (.ok ((limitOffset limit offset (byCreatedAt db.task.rows)).map (rowToTask C x.now)), db)

/-- Fetch a single task by id. -/
def getTask (id : String) (x : Input Time) (db : Db) : Except AppError (Option (Task Time)) × Db :=
  withConn x db (.ok ((db.task.find? id).map (rowToTask C x.now)), db)

/-- The task `create_task` makes. -/
def newTask (owner : String) (input : CreateTask) (x : Input Time) : Task Time where
  id := x.uuid
  title := Str.trim input.title
  description := input.description
  status := input.status.getD .todo
  owner := owner
  createdAt := x.now
  updatedAt := x.now

/-- Create a task owned by `owner`. -/
def createTask (owner : String) (input : CreateTask) (x : Input Time) (db : Db) :
    Except AppError (Task Time) × Db :=
  let task := newTask owner input x
  withConn x db <|
    match db.task.insert (taskToRow C task) with
    | none => (.error (DbFault.sqlite "UNIQUE constraint failed: task.id").toAppError, db)
    | some t => (.ok task, { db with task := t })

/-- The merge `update_task` makes before it writes. -/
def mergeTask (existing : Task Time) (input : UpdateTask) (now : Time) : Task Time :=
  { existing with
    title := (input.title.map Str.trim).getD existing.title
    description := input.description.getD existing.description
    status := input.status.getD existing.status
    updatedAt := now }

@[simp] theorem mergeTask_id (existing : Task Time) (input : UpdateTask) (now : Time) :
    (mergeTask existing input now).id = existing.id := rfl

/-- `UPDATE task SET ... WHERE id = ?5`. -/
def write (updated : Task Time) (db : Db) : Db :=
  { db with task := db.task.update updated.id (setRow C updated) (setRow_id C updated) }

variable {C} in
theorem mem_write {updated : Task Time} {db : Db} {r : TaskRow} : r ∈ (db.write C updated).task.rows ↔
    (r ∈ db.task.rows ∧ r.id ≠ updated.id) ∨
      ∃ r' ∈ db.task.rows, r'.id = updated.id ∧ setRow C updated r' = r :=
  Table.mem_update (setRow_id C updated)

variable {C} in
theorem find?_write {updated : Task Time} {db : Db} {id : String} :
    (db.write C updated).task.find? id =
      if id = updated.id then (db.task.find? updated.id).map (setRow C updated) else db.task.find? id :=
  Table.find?_update (setRow_id C updated)

/-- Apply a partial update to an existing task and return the new state.  The number of rows the
UPDATE changed is not looked at. -/
def updateTask (existing : Task Time) (input : UpdateTask) (x : Input Time) (db : Db) :
    Except AppError (Task Time) × Db :=
  let updated := mergeTask existing input x.now
  withConn x db (.ok updated, db.write C updated)

/-- Delete a task by id.  Returns true if a row was removed. -/
def deleteTask (id : String) (x : Input Time) (db : Db) : Except AppError Bool × Db :=
  withConn x db (.ok (0 < db.task.count id), { db with task := db.task.delete id })

/-- The row `record_audit` inserts. -/
def auditRow (actor action entityType entityId detail : String) (x : Input Time) : AuditRow where
  id := x.uuid
  actor := actor
  action := action
  entityType := entityType
  entityId := entityId
  timestamp := C.toRfc3339 x.now
  detail := detail

/-- Insert an audit event. -/
def recordAudit (actor action entityType entityId detail : String) (x : Input Time) (db : Db) :
    Except AppError Unit × Db :=
  withConn x db <|
    match db.auditEvent.insert (auditRow C actor action entityType entityId detail x) with
    | none => (.error (DbFault.sqlite "UNIQUE constraint failed: audit_event.id").toAppError, db)
    | some a => (.ok (), { db with auditEvent := a })

end Db

/-! ### The audit query -/

/-- The columns `list_audit` can filter on. -/
inductive AuditColumn where
  | actor
  | action
  deriving DecidableEq, Repr

def AuditColumn.name : AuditColumn → String
  | actor => "actor"
  | action => "action"

def AuditColumn.get : AuditColumn → AuditRow → String
  | actor, row => row.actor
  | action, row => row.action

/-- The SELECT `list_audit` assembles: its conditions `column = ?n` and the `n` of `LIMIT ?n`. -/
structure AuditSelect where
  conds : List (AuditColumn × ℕ)
  limit : ℕ
  deriving DecidableEq, Repr

/-- The text handed to `prepare`. -/
def AuditSelect.sql (q : AuditSelect) : String :=
  q.conds.foldl (fun sql cond => sql ++ " AND " ++ cond.1.name ++ " = ?" ++ Nat.repr cond.2)
    ("SELECT id, actor, action, entity_type, entity_id, timestamp, detail " ++
      "FROM audit_event WHERE 1=1") ++ " ORDER BY timestamp DESC LIMIT ?" ++ Nat.repr q.limit

/-- What SQLite returns for the statement with these bound texts; a LIMIT that is not a number is
an error. -/
def AuditSelect.query (q : AuditSelect) (binds : List String) (rows : List AuditRow) :
    Except DbFault (List AuditRow) :=
  match (binds[q.limit - 1]?).bind Str.decimal with
  | none => .error (.sqlite "datatype mismatch")
  | some limit => .ok <| limitOffset limit 0 <| byTimestamp <|
      rows.filter fun row => q.conds.all fun cond => binds[cond.2 - 1]? = some (cond.1.get row)

/-- The statement and its bound texts, assembled filter by filter. -/
def auditSelect (actor action : Option String) (limit : ℤ) : AuditSelect × List String :=
  let conds : List (AuditColumn × ℕ) := []
  let binds : List String := []
  let (conds, binds) := match actor with
    | some a => (conds ++ [(AuditColumn.actor, binds.length + 1)], binds ++ [a])
    | none => (conds, binds)
  let (conds, binds) := match action with
    | some a => (conds ++ [(AuditColumn.action, binds.length + 1)], binds ++ [a])
    | none => (conds, binds)
  (⟨conds, binds.length + 1⟩, binds ++ [toString limit])

/-- Query audit events with optional filters. -/
def Db.listAudit (actor action : Option String) (limit : ℤ) (x : Input Time) (db : Db) :
    Except AppError (List (AuditEvent Time)) × Db :=
  let (select, binds) := auditSelect actor action limit
  withConn x db <|
    match select.query binds db.auditEvent.rows with
    | .error f => (.error f.toAppError, db)
    | .ok rows => (.ok (rows.map (rowToEvent C x.now)), db)

/-! ### Calls as data -/

/-- A call of this module with its arguments. -/
inductive DbCall (Time : Type) where
  | ping
  | listTasks (limit offset : ℤ)
  | getTask (id : String)
  | createTask (owner : String) (input : CreateTask)
  | updateTask (existing : Task Time) (input : UpdateTask)
  | deleteTask (id : String)
  | recordAudit (actor action entityType entityId detail : String)
  | listAudit (actor action : Option String) (limit : ℤ)
  deriving DecidableEq

/-- What a successful call returns. -/
abbrev DbCall.Ret : DbCall Time → Type
  | .ping => Unit
  | .listTasks .. => List (Task Time)
  | .getTask .. => Option (Task Time)
  | .createTask .. => Task Time
  | .updateTask .. => Task Time
  | .deleteTask .. => Bool
  | .recordAudit .. => Unit
  | .listAudit .. => List (AuditEvent Time)

abbrev DbCall.Reply (c : DbCall Time) : Type := Except AppError c.Ret

/-- Carry out a call. -/
def DbCall.exec : (c : DbCall Time) → Input Time → Db → c.Reply × Db
  | .ping, x, db => Db.ping x db
  | .listTasks limit offset, x, db => Db.listTasks C limit offset x db
  | .getTask id, x, db => Db.getTask C id x db
  | .createTask owner input, x, db => Db.createTask C owner input x db
  | .updateTask existing input, x, db => Db.updateTask C existing input x db
  | .deleteTask id, x, db => Db.deleteTask id x db
  | .recordAudit actor action entityType entityId detail, x, db =>
    Db.recordAudit C actor action entityType entityId detail x db
  | .listAudit actor action limit, x, db => Db.listAudit C actor action limit x db

/-! ### What each call does -/

namespace DbCall

variable {C} {x : Input Time} {db : Db}

theorem exec_fault {f : DbFault} (h : x.fault = some f) (c : DbCall Time) :
    c.exec C x db = (.error f.toAppError, db) := by
  cases c <;> simp [exec, Db.ping, Db.listTasks, Db.getTask, Db.createTask, Db.updateTask,
    Db.deleteTask, Db.recordAudit, Db.listAudit, Db.withConn, h]

/-- A call that returns did not fail. -/
theorem fault_of_ok {c : DbCall Time} {r : c.Ret} (h : (c.exec C x db).1 = .ok r) :
    x.fault = none := by
  cases hf : x.fault with
  | none => rfl
  | some f => rw [exec_fault hf] at h; cases h

/-- Everything a call can do to the tables. -/
inductive Effect (C : Chrono Time) (x : Input Time) (db : Db) : DbCall Time → Db → Prop
  | none (c : DbCall Time) : Effect C x db c db
  | create {owner : String} {input : CreateTask} {t : Table TaskRow.id} (h : x.fault = .none)
      (ht : db.task.insert (taskToRow C (Db.newTask owner input x)) = some t) :
      Effect C x db (.createTask owner input) { db with task := t }
  | update {existing : Task Time} {input : UpdateTask} (h : x.fault = .none) :
      Effect C x db (.updateTask existing input) (db.write C (Db.mergeTask existing input x.now))
  | delete {id : String} (h : x.fault = .none) :
      Effect C x db (.deleteTask id) { db with task := db.task.delete id }
  | audit {actor action entityType entityId detail : String} {a : Table AuditRow.id}
      (h : x.fault = .none)
      (ha : db.auditEvent.insert (Db.auditRow C actor action entityType entityId detail x) = some a) :
      Effect C x db (.recordAudit actor action entityType entityId detail) { db with auditEvent := a }

variable (C x db) in
theorem exec_effect (c : DbCall Time) : Effect C x db c (c.exec C x db).2 := by
  cases hf : x.fault with
  | some f => rw [exec_fault hf]; exact .none c
  | none =>
    cases c with
    | ping => simpa [exec, Db.ping, Db.withConn, hf] using Effect.none _
    | listTasks l o => simpa [exec, Db.listTasks, Db.withConn, hf] using Effect.none _
    | getTask id => simpa [exec, Db.getTask, Db.withConn, hf] using Effect.none _
    | createTask owner input =>
      simp only [exec, Db.createTask, Db.withConn, hf]
      split
      · exact .none _
      · next t ht => exact .create hf ht
    | updateTask existing input => simpa [exec, Db.updateTask, Db.withConn, hf] using Effect.update hf
    | deleteTask id => simpa [exec, Db.deleteTask, Db.withConn, hf] using Effect.delete hf
    | recordAudit a b c d e =>
      simp only [exec, Db.recordAudit, Db.withConn, hf]
      split
      · exact .none _
      · next t ht => exact .audit hf ht
    | listAudit a b l =>
      simp only [exec, Db.listAudit, Db.withConn, hf]
      split <;> exact .none _

/-- A call that fails changes nothing. -/
theorem exec_error {c : DbCall Time} {e : AppError} (h : (c.exec C x db).1 = .error e) :
    (c.exec C x db).2 = db := by
  cases hf : x.fault with
  | some f => rw [exec_fault hf]
  | none =>
    cases c with
    | createTask owner input =>
      simp only [exec, Db.createTask, Db.withConn, hf] at h ⊢
      split at h
      · rfl
      · cases h
    | recordAudit a b c d e =>
      simp only [exec, Db.recordAudit, Db.withConn, hf] at h ⊢
      split at h
      · rfl
      · cases h
    | updateTask existing input => simp [exec, Db.updateTask, Db.withConn, hf] at h
    | deleteTask id => simp [exec, Db.deleteTask, Db.withConn, hf] at h
    | listAudit a b l =>
      simp only [exec, Db.listAudit, Db.withConn, hf] at h ⊢
      split <;> rfl
    | ping => simp [exec, Db.ping, Db.withConn, hf]
    | listTasks l o => simp [exec, Db.listTasks, Db.withConn, hf]
    | getTask id => simp [exec, Db.getTask, Db.withConn, hf]

theorem exec_getTask {id : String} {found : Option (Task Time)} :
    (exec C (.getTask id) x db).1 = .ok found ↔
      x.fault = none ∧ found = (db.task.find? id).map (rowToTask C x.now) := by
  cases hf : x.fault <;> simp [exec, Db.getTask, Db.withConn, hf, eq_comm]

theorem exec_createTask {owner : String} {input : CreateTask} {task : Task Time} :
    (exec C (.createTask owner input) x db).1 = .ok task ↔ x.fault = none ∧
      db.task.find? x.uuid = none ∧ task = Db.newTask owner input x := by
  have hid : (taskToRow C (Db.newTask owner input x)).id = x.uuid := rfl
  cases hf : x.fault with
  | some f => simp [exec_fault hf]
  | none =>
    rcases Table.insert_cases db.task (taskToRow C (Db.newTask owner input x)) with ⟨ht, hn⟩ | ⟨t, ht, hn⟩ <;>
      rw [hid] at hn <;> simp [exec, Db.createTask, Db.withConn, hf, ht, hn, eq_comm]

theorem exec_updateTask {existing : Task Time} {input : UpdateTask} {updated : Task Time} :
    (exec C (.updateTask existing input) x db).1 = .ok updated ↔
      x.fault = none ∧ updated = Db.mergeTask existing input x.now := by
  cases hf : x.fault <;> simp [exec, Db.updateTask, Db.withConn, hf, eq_comm]

theorem exec_deleteTask {id : String} {removed : Bool} :
    (exec C (.deleteTask id) x db).1 = .ok removed ↔
      x.fault = none ∧ removed = (db.task.find? id).isSome := by
  have hcount : decide (0 < db.task.count id) = (db.task.find? id).isSome := by
    rw [Table.count_eq]
    cases db.task.find? id <;> simp
  cases hf : x.fault <;> simp [exec, Db.deleteTask, Db.withConn, hf, hcount, eq_comm]

theorem exec_recordAudit {actor action entityType entityId detail : String} :
    (exec C (.recordAudit actor action entityType entityId detail) x db).1 = .ok () ↔
      x.fault = none ∧ db.auditEvent.find? x.uuid = none := by
  have hid : (Db.auditRow C actor action entityType entityId detail x).id = x.uuid := rfl
  cases hf : x.fault with
  | some f => simp [exec_fault hf]
  | none =>
    rcases Table.insert_cases db.auditEvent (Db.auditRow C actor action entityType entityId detail x) with
      ⟨ht, hn⟩ | ⟨t, ht, hn⟩ <;> rw [hid] at hn <;> simp [exec, Db.recordAudit, Db.withConn, hf, ht, hn]

/-! ### The tables after a call that ran -/

theorem createTask_state {owner : String} {input : CreateTask} {task : Task Time}
    (h : (exec C (.createTask owner input) x db).1 = .ok task) : ∃ t,
      db.task.insert (taskToRow C task) = some t ∧
        (exec C (.createTask owner input) x db).2 = { db with task := t } := by
  obtain ⟨hx, hfree, rfl⟩ := exec_createTask.mp h
  obtain ⟨t, ht⟩ := Table.insert_fresh (r := taskToRow C (Db.newTask owner input x)) hfree
  exact ⟨t, ht, by simp [exec, Db.createTask, Db.withConn, hx, ht]⟩

/-- An update that runs sets the row, if there is one. -/
theorem updateTask_state {existing : Task Time} {input : UpdateTask} (hx : x.fault = none) :
    (exec C (.updateTask existing input) x db).2 =
      db.write C (Db.mergeTask existing input x.now) := by
  simp [exec, Db.updateTask, Db.withConn, hx]

theorem deleteTask_state {id : String} (hx : x.fault = none) :
    (exec C (.deleteTask id) x db).2 = { db with task := db.task.delete id } := by
  simp [exec, Db.deleteTask, Db.withConn, hx]

theorem recordAudit_state {actor action entityType entityId detail : String}
    (h : (exec C (.recordAudit actor action entityType entityId detail) x db).1 = .ok ()) : ∃ t,
      db.auditEvent.insert (Db.auditRow C actor action entityType entityId detail x) = some t ∧
        (exec C (.recordAudit actor action entityType entityId detail) x db).2 =
          { db with auditEvent := t } := by
  obtain ⟨hx, hfree⟩ := exec_recordAudit.mp h
  obtain ⟨t, ht⟩ :=
    Table.insert_fresh (r := Db.auditRow C actor action entityType entityId detail x) hfree
  exact ⟨t, ht, by simp [exec, Db.recordAudit, Db.withConn, hx, ht]⟩

end DbCall

end SecureLedger
