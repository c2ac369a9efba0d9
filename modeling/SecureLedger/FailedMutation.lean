import SecureLedger.LostUpdate
import SecureLedger.Solo

/-!
# FailedMutation — what a mutation answered with an error leaves behind

The write and its audit event are two statements with no transaction around them.  Of all the ways
a mutation can fail exactly one leaves a trace: the audit insert fails after the write took effect
(`no_trace_iff`).
-/

namespace SecureLedger

open Atomic

variable {Time : Type}

/-- The insert of an audit event fails on these inputs. -/
def AuditFails (x : Input Time) (db : Db) : Prop :=
  x.fault ≠ none ∨ db.auditEvent.find? x.uuid ≠ none

/-- An update at `now` changes the row: it supplies a new value, or stamps another time, or rewrites
a status that no request could have stored. -/
def Alters (C : Chrono Time) (input : UpdateTask) (now : Time) (r : TaskRow) : Prop :=
  (∃ f : TaskField, ∃ v ∈ f.supplied input, v ≠ f.ofRow r) ∨ C.toRfc3339 now ≠ r.updatedAt ∨
    (input.status = none ∧ TaskStatus.fromStr r.status = none)

/-- The request writes its row and then cannot insert the audit event. -/
def WritesUnaudited (C : Crates Time) (state : AppState) (a : Arrival Time) (xs : ℕ → Input Time)
    (db : Db) : Prop :=
  ∃ user, a.authUser C state = .ok user ∧
    match a.op with
    | .createTask (.ok input) => input.validate = .ok () ∧
        (xs 0).fault = none ∧ db.task.find? (xs 0).uuid = none ∧ AuditFails (xs 1) db
    | .updateTask (.ok id) (.ok input) => input.validate = .ok () ∧
        (xs 0).fault = none ∧ ∃ r ∈ db.task.find? id, MayModify user r.owner ∧
          (xs 1).fault = none ∧ AuditFails (xs 2) db ∧ Alters C.chrono input (xs 1).now r
    | .deleteTask (.ok id) => (xs 0).fault = none ∧ ∃ r ∈ db.task.find? id, MayModify user r.owner ∧
        (xs 1).fault = none ∧ AuditFails (xs 2) db
    | _ => False

variable {C : Crates Time} {state : AppState}

/-! ### When an update alters its row -/

/-- A stored text decodes and encodes to itself, a status if it is one of the three. -/
theorem TaskField.ofTask_rowToTask (f : TaskField) (now : Time) (r : TaskRow) :
    f.ofTask (rowToTask C.chrono now r) = f.ofRow r ↔
      (f = .status → TaskStatus.fromStr r.status ≠ none) := by
  cases f with
  | title => simp [ofTask, ofRow, rowToTask]
  | description => simp [ofTask, ofRow, rowToTask]
  | status =>
    cases h : TaskStatus.fromStr r.status with
    | some st => simp [ofTask, ofRow, rowToTask, TaskStatus.fromStr_eq_some.mp h]
    | none =>
      have : TaskStatus.todo.asStr ≠ r.status := by
        intro he
        rw [← he, TaskStatus.fromStr_asStr] at h
        cases h
      simp [ofTask, ofRow, rowToTask, h, this]

theorem setRow_eq_self_iff {input : UpdateTask} (now₀ : Time) {now : Time} {r : TaskRow} :
    setRow C.chrono (Db.mergeTask (rowToTask C.chrono now₀ r) input now) r = r ↔
      ¬ Alters C.chrono input now r := by
  have hrow : ∀ r' : TaskRow, r' = setRow C.chrono (Db.mergeTask (rowToTask C.chrono now₀ r) input now) r →
      (r' = r ↔ (∀ f : TaskField, f.ofRow r' = f.ofRow r) ∧ C.chrono.toRfc3339 now = r.updatedAt) := by
    rintro r' rfl
    constructor
    · intro h
      exact ⟨fun f => by rw [h], congrArg TaskRow.updatedAt h⟩
    · rintro ⟨hf, hu⟩
      have h1 := hf .title
      have h2 := hf .description
      have h3 := hf .status
      obtain ⟨id, title, description, status, owner, createdAt, updatedAt⟩ := r
      simp_all [TaskField.ofRow, setRow, Db.mergeTask, rowToTask]
  rw [hrow _ rfl]
  simp only [TaskField.ofRow_setRow]
  have hfield : ∀ f : TaskField, (f.supplied input).getD (f.ofTask (rowToTask C.chrono now₀ r)) =
      f.ofRow r ↔ (∀ v ∈ f.supplied input, v = f.ofRow r) ∧
        ¬ (f = .status ∧ f.supplied input = none ∧ TaskStatus.fromStr r.status = none) := by
    intro f
    cases hs : f.supplied input with
    | none => simp [TaskField.ofTask_rowToTask]
    | some v => simp
  rw [forall_congr' hfield]
  constructor
  · rintro ⟨hf, hu⟩ (⟨f, v, hv, hne⟩ | hne | ⟨hs, hn⟩)
    · exact hne ((hf f).1 v hv)
    · exact hne hu
    · exact (hf .status).2 ⟨rfl, by simp [TaskField.supplied, hs], hn⟩
  · intro h
    refine ⟨fun f => ⟨fun v hv => by_contra fun hne => h (.inl ⟨f, v, hv, hne⟩), ?_⟩,
      by_contra fun hne => h (.inr (.inl hne))⟩
    rintro ⟨rfl, hs, hn⟩
    exact h (.inr (.inr ⟨by simpa [TaskField.supplied] using hs, hn⟩))

theorem write_eq_self_iff {input : UpdateTask} {now₀ now : Time} {db : Db} {id : String} {r : TaskRow}
    (hr : db.task.find? id = some r) :
    db.write C.chrono (Db.mergeTask (rowToTask C.chrono now₀ r) input now) = db ↔
      ¬ Alters C.chrono input now r := by
  obtain rfl := Table.find?_key hr
  rw [← setRow_eq_self_iff now₀, ← Table.update_eq_self (setRow_id C.chrono _) hr]
  exact ⟨fun h => congrArg Db.task h, fun h => Db.ext h rfl⟩

/-! ### The handlers -/

/-- An error response means that the tables are as before. -/
def Traceless (out : Response Time × Db) (db : Db) : Prop := ¬ out.1.Success → out.2 = db

section Handlers

variable {xs : ℕ → Input Time} {db : Db}

theorem traceless_error (e : AppError) : Traceless ((e.intoResponse : Response Time), db) db :=
  fun _ => rfl

/-- Every mutation ends in an audit insert; up to there the tables are as the write left them. -/
theorem traceless_audit {actor action entityType entityId detail : String} {r : Response Time}
    (hr : r.Success) {db' : Db} (haudit : db'.auditEvent = db.auditEvent) :
    Traceless ((tryCall (.recordAudit actor action entityType entityId detail) fun _ => .ret r).eval
      (server C state) xs db') db ↔ (AuditFails (xs 0) db → db' = db) := by
  by_cases hf : AuditFails (xs 0) db
  · cases h : ((DbCall.recordAudit actor action entityType entityId detail).exec C.chrono
        (xs 0) db').1 with
    | ok u =>
      obtain ⟨hx, hfree⟩ := DbCall.exec_recordAudit.mp h
      rw [haudit] at hfree
      exact (hf.elim (fun hn => hn hx) (fun hn => hn hfree)).elim
    | error e =>
      rw [eval_tryCall_error h]
      simp [Traceless, e.not_success, hf]
  · have hx : (xs 0).fault = none := by_contra fun hn => hf (.inl hn)
    have hfree : db.auditEvent.find? (xs 0).uuid = none := by_contra fun hn => hf (.inr hn)
    rw [eval_tryCall_ok (DbCall.exec_recordAudit.mpr ⟨hx, haudit ▸ hfree⟩)]
    simp [Traceless, hr, hf]

theorem createTask_traceless {user : AuthUser} {input : CreateTask} :
    Traceless ((Handlers.createTask user input).eval (server C state) xs db) db ↔
      ¬ (input.validate = .ok () ∧ (xs 0).fault = none ∧ db.task.find? (xs 0).uuid = none ∧
        AuditFails (xs 1) db) := by
  unfold Handlers.createTask
  cases hv : input.validate with
  | error m => simp [orBadRequest, traceless_error]
  | ok _ =>
    simp only [orBadRequest, tryResult_ok, true_and]
    cases hw : ((DbCall.createTask user.username input).exec C.chrono (xs 0) db).1 with
    | error e =>
      rw [eval_tryCall_error hw, iff_true_left (traceless_error e)]
      rintro ⟨hx, hfree, -⟩
      rw [DbCall.exec_createTask.mpr ⟨hx, hfree, rfl⟩] at hw
      cases hw
    | ok task =>
      obtain ⟨hx, hfree, -⟩ := DbCall.exec_createTask.mp hw
      obtain ⟨t, ht, hdb⟩ := DbCall.createTask_state hw
      have hne : ({ db with task := t } : Db) ≠ db := by
        intro h
        have hlen := congrArg List.length (Table.insert_rows ht)
        rw [show t = db.task from congrArg Db.task h] at hlen
        simp at hlen
      rw [eval_tryCall_ok hw, hdb]
      refine (traceless_audit (r := ⟨201, .task task⟩) (by simp [Response.Success]) ?_).trans ?_
      · rfl
      · simp [hx, hfree, hne]

/-- The part `update_task` and `delete_task` share: read the task and check who may modify it. -/
theorem checked_traceless {id m : String} {user : AuthUser}
    {f : Task Time → DbProg Time (Response Time)} {P : TaskRow → Prop}
    (hf : ∀ r, db.task.find? id = some r → (xs 0).fault = none → MayModify user r.owner →
      (Traceless ((f (rowToTask C.chrono (xs 0).now r)).eval (server C state)
        (fun n => xs (n + 1)) db) db ↔ ¬ P r)) :
    Traceless ((tryCall (.getTask id) fun found =>
      tryResult (okOr found (.notFound "task not found")) fun existing =>
      if !user.isAdmin && existing.owner != user.username then
        .ret (AppError.forbidden m).intoResponse
      else f existing).eval (server C state) xs db) db ↔
    ¬ ((xs 0).fault = none ∧ ∃ r ∈ db.task.find? id, MayModify user r.owner ∧ P r) := by
  cases hr : ((DbCall.getTask id).exec C.chrono (xs 0) db).1 with
  | error e =>
    rw [eval_tryCall_error hr, iff_true_left (traceless_error e)]
    rintro ⟨hx, -⟩
    rw [DbCall.exec_getTask.mpr ⟨hx, rfl⟩] at hr
    cases hr
  | ok found =>
    obtain ⟨hx, rfl⟩ := DbCall.exec_getTask.mp hr
    rw [eval_tryCall_ok hr, exec_reads (c := .getTask id) trivial]
    cases hrow : db.task.find? id with
    | none => simp [okOr, traceless_error]
    | some r =>
      simp only [okOr, Option.map_some, tryResult_ok, Option.mem_def, Option.some.injEq,
        exists_eq_left', hx, true_and]
      rw [check_eq_ite]
      by_cases hm : MayModify user r.owner
      · simp only [rowToTask_owner, hm, if_true, true_and]
        exact hf r hrow hx hm
      · simp [hm, traceless_error]

theorem updateTask_traceless {user : AuthUser} {id : String} {input : UpdateTask} :
    Traceless ((Handlers.updateTask user id input).eval (server C state) xs db) db ↔
      ¬ (input.validate = .ok () ∧ (xs 0).fault = none ∧ ∃ r ∈ db.task.find? id,
        MayModify user r.owner ∧ (xs 1).fault = none ∧ AuditFails (xs 2) db ∧
          Alters C.chrono input (xs 1).now r) := by
  unfold Handlers.updateTask
  cases hv : input.validate with
  | error m => simp [orBadRequest, traceless_error]
  | ok _ =>
    simp only [orBadRequest, tryResult_ok, true_and]
    refine checked_traceless fun r hr hx hm => ?_
    cases hw : ((DbCall.updateTask (rowToTask C.chrono (xs 0).now r) input).exec C.chrono
        (xs 1) db).1 with
    | error e =>
      rw [eval_tryCall_error hw, iff_true_left (traceless_error e)]
      rintro ⟨hx, -⟩
      rw [DbCall.exec_updateTask.mpr ⟨hx, rfl⟩] at hw
      cases hw
    | ok updated =>
      obtain ⟨hx, -⟩ := DbCall.exec_updateTask.mp hw
      rw [eval_tryCall_ok hw, DbCall.updateTask_state hx]
      refine (traceless_audit (r := ⟨200, .task updated⟩) (by simp [Response.Success]) ?_).trans ?_
      · rfl
      · rw [write_eq_self_iff hr]
        simp [hx]

theorem deleteTask_traceless {user : AuthUser} {id : String} :
    Traceless ((Handlers.deleteTask user id).eval (server C state) xs db) db ↔
      ¬ ((xs 0).fault = none ∧ ∃ r ∈ db.task.find? id,
        MayModify user r.owner ∧ (xs 1).fault = none ∧ AuditFails (xs 2) db) := by
  unfold Handlers.deleteTask
  refine checked_traceless fun r hr hx hm => ?_
  cases hw : ((DbCall.deleteTask id).exec C.chrono (xs 1) db).1 with
  | error e =>
    rw [eval_tryCall_error hw, iff_true_left (traceless_error e)]
    rintro ⟨hx, -⟩
    rw [DbCall.exec_deleteTask.mpr ⟨hx, rfl⟩] at hw
    cases hw
  | ok removed =>
    obtain ⟨hx, -⟩ := DbCall.exec_deleteTask.mp hw
    have hne : ({ db with task := db.task.delete id } : Db) ≠ db := by
      intro h
      have : (db.task.delete id).find? id = some r := by rw [show db.task.delete id = db.task from
        congrArg Db.task h, hr]
      simp [Table.find?_delete] at this
    rw [eval_tryCall_ok hw, DbCall.deleteTask_state hx]
    refine (traceless_audit (r := ⟨204, .empty⟩) (by simp [Response.Success]) ?_).trans ?_
    · rfl
    · simp [hx, hne]

variable (C state xs db) in
/-- **An error response means no trace, exactly when** the request does not write its row and then
fail to insert its audit event. -/
theorem no_trace_iff (a : Arrival Time) : (¬ (serve C state a xs db).1.Success →
    (serve C state a xs db).2 = db) ↔ ¬ WritesUnaudited C state a xs db := by
  obtain ⟨headers, op, now⟩ := a
  show Traceless (serve C state ⟨headers, op, now⟩ xs db) db ↔ _
  by_cases hop : op.Mutates
  · unfold WritesUnaudited serve
    cases hu : Arrival.authUser C state ⟨headers, op, now⟩ with
    | error e =>
      have h : handle C state ⟨headers, op, now⟩ = .ret e.intoResponse := by
        cases op <;> simp_all [handle, Op.Mutates]
      simp [h, traceless_error]
    | ok user =>
      have hrej : ∀ r : Rejection, Traceless ((r.intoResponse : Response Time), db) db :=
        fun r _ => rfl
      simp only [Except.ok.injEq, exists_eq_left']
      cases op with
      | createTask body =>
        cases body with
        | error r => simp [handle, hu, withExtracted, hrej]
        | ok input => simpa [handle, hu, withExtracted] using createTask_traceless
      | updateTask id body =>
        cases id with
        | error r => simp [handle, hu, withExtracted, hrej]
        | ok id =>
          cases body with
          | error r => simp [handle, hu, withExtracted, hrej]
          | ok input => simpa only [handle, hu, withExtracted, tryResult_ok] using updateTask_traceless
      | deleteTask id =>
        cases id with
        | error r => simp [handle, hu, withExtracted, hrej]
        | ok id => simpa only [handle, hu, withExtracted, tryResult_ok] using deleteTask_traceless
      | _ => exact hop.elim
  · have h : (serve C state ⟨headers, op, now⟩ xs db).2 = db := (handle_onlyReads hop).eval
    refine iff_of_true (fun _ => h) ?_
    rintro ⟨user, -, hw⟩
    cases op <;> first | exact hw | exact hop trivial

end Handlers

end SecureLedger

/-! ### On the sample -/

namespace SecureLedger.Sample

open Atomic

/-- The second call of a creation, its audit insert, fails. -/
def auditDown : ℕ → Input Sec
  | 0 => good 11 "t1"
  | _ => bad 12 "e1"

def creation : Arrival Sec := withToken "tok.user" (.createTask (.ok ⟨"draft", "", none⟩)) 10

/-- The client is told 500, and the task is there, with nothing in the audit table. -/
theorem created_despite_error : (serve crates state creation auditDown Db.empty).1.status = 500 ∧
    (serve crates state creation auditDown Db.empty).2.task.rows.map TaskRow.id = ["t1"] ∧
    (serve crates state creation auditDown Db.empty).2.auditEvent.rows = [] := by decide +kernel

end SecureLedger.Sample
