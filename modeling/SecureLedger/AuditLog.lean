import SecureLedger.Ledger
import SecureLedger.Sample

/-!
# AuditLog — the audit table against the requests and the task table

A mutating request inserts its audit event last, so it has one exactly if it was answered with a
success.  What the events say of the task table holds whatever fails on the way: a `delete` event
means the id is gone, a `create` event that it was inserted.  If nothing fails, the two tables
reconcile whenever no request is in flight.
-/

namespace SecureLedger

open Atomic

variable {Time : Type} {C : Crates Time} {state : AppState} {w w' : ServerWorld Time}

/-- `row` is the audit event of the request `a`, answered with `r`. -/
def AuditsRequest (C : Crates Time) (state : AppState) (a : Arrival Time) (r : Response Time)
    (row : AuditRow) : Prop :=
  (∃ user, a.authUser C state = .ok user ∧ row.actor = user.username) ∧ row.entityType = "task" ∧
    match a.op with
    | .createTask _ => row.action = "create" ∧ ∃ task, r.body = .task task ∧ row.entityId = task.id
    | .updateTask id _ => row.action = "update" ∧ id = .ok row.entityId
    | .deleteTask id => row.action = "delete" ∧ id = .ok row.entityId
    | _ => False

/-- The audit table only grows, at its end. -/
theorem step_append_only (hs : Step (server C state) w w') :
    w.db.auditEvent.rows <+: w'.db.auditEvent.rows := by
  cases hs with
  | arrive a => exact List.prefix_rfl
  | @call i a c k hi x =>
    show w.db.auditEvent.rows <+: (c.exec C.chrono x w.db).2.auditEvent.rows
    rw [exec_auditEvent i]
    exact List.prefix_append _ _

/-- **One audit event for every mutation that succeeded, none for one that failed.** -/
theorem finished_audit {db : Db} (hw : Reach (server C state) db w) {i : ℕ} {a : Arrival Time}
    {r : Response Time} (hi : w.Has i ⟨a, .ret r⟩) (hop : a.op.Mutates) :
    (r.Success → ∃ row, (w.own i).filterMap (auditOf C.chrono) = [row] ∧
      AuditsRequest C state a r row) ∧
    (¬ r.Success → (w.own i).filterMap (auditOf C.chrono) = []) := by
  have hs := stage_of_reach hw hi
  dsimp only at hs
  generalize w.own i = es at hs ⊢
  -- an error has no event, the last point of a handler has one
  have hfailed : ∀ e : AppError, r = e.intoResponse → es.filterMap (auditOf C.chrono) = [] →
      (r.Success → ∃ row, es.filterMap (auditOf C.chrono) = [row] ∧ AuditsRequest C state a r row) ∧
      (¬ r.Success → es.filterMap (auditOf C.chrono) = []) := by
    rintro e rfl hes
    exact ⟨fun h => absurd h e.not_success, fun _ => hes⟩
  have hdone : ∀ row, r.Success → es.filterMap (auditOf C.chrono) = [row] →
      AuditsRequest C state a r row →
      (r.Success → ∃ row, es.filterMap (auditOf C.chrono) = [row] ∧ AuditsRequest C state a r row) ∧
      (¬ r.Success → es.filterMap (auditOf C.chrono) = []) :=
    fun row hr hes hrow => ⟨fun _ => ⟨row, hes, hrow⟩, fun h => absurd hr h⟩
  cases hs with
  | refused hr => exact ⟨fun h => absurd h hr, fun _ => rfl⟩
  | @create user input es p hopa hu h =>
    cases h with
    | invalid hv => exact hfailed _ rfl rfl
    | writeFailed hv hw => exact hfailed _ rfl (by simp)
    | auditFailed hv hw ha => exact hfailed _ rfl (by simp [auditOf_error ha])
    | @done j x d task l y d' hv hw ha =>
      refine hdone (Db.auditRow C.chrono user.username "create" "task" task.id ("title=" ++ task.title) y)
        (by simp [Response.Success]) (by simp [auditOf_ok ha]) ⟨⟨_, hu, rfl⟩, rfl, ?_⟩
      rw [hopa]
      exact ⟨rfl, _, rfl, rfl⟩
  | @update user id input es p hopa hu h =>
    cases h with
    | invalid hv => exact hfailed _ rfl rfl
    | readFailed hr => exact hfailed _ rfl (by simp)
    | notFound hr => exact hfailed _ rfl (by simp)
    | forbidden hr hm => exact hfailed _ rfl (by simp)
    | writeFailed hr hw => exact hfailed _ rfl (by simp)
    | auditFailed hr hw ha => exact hfailed _ rfl (by simp [auditOf_error ha])
    | @done j x d existing j' y d' updated l z d'' hr hw ha =>
      refine hdone (Db.auditRow C.chrono user.username "update" "task" updated.id
        ("status=" ++ updated.status.asStr) z) (by simp [Response.Success])
        (by simp [auditOf_ok ha]) ⟨⟨_, hu, rfl⟩, rfl, ?_⟩
      obtain ⟨-, hfound⟩ := DbCall.exec_getTask.mp hr
      obtain ⟨row, hrow, rfl⟩ := Option.map_eq_some_iff.mp hfound.symm
      obtain ⟨-, rfl⟩ := DbCall.exec_updateTask.mp hw
      rw [hopa]
      exact ⟨rfl, congrArg Except.ok (Table.find?_key hrow).symm⟩
  | @delete user id es p hopa hu h =>
    cases h with
    | readFailed hr => exact hfailed _ rfl (by simp)
    | notFound hr => exact hfailed _ rfl (by simp)
    | forbidden hr hm => exact hfailed _ rfl (by simp)
    | writeFailed hr hw => exact hfailed _ rfl (by simp)
    | auditFailed hr hw ha => exact hfailed _ rfl (by simp [auditOf_error ha])
    | @done j x d existing j' y d' removed l z d'' hr hw ha =>
      refine hdone (Db.auditRow C.chrono user.username "delete" "task" id "" z)
        (by simp [Response.Success]) (by simp [auditOf_ok ha]) ⟨⟨_, hu, rfl⟩, rfl, ?_⟩
      rw [hopa]
      exact ⟨rfl, rfl⟩
  | reading hn hes hp => exact absurd hop hn

/-! ### What the events say of the task table -/

/-- What an audit row was recorded after. -/
theorem audits_of_row (hw : Reach (server C state) Db.empty w) {row : AuditRow}
    (hrow : row ∈ w.db.auditEvent.rows) : ∃ op user es detail,
      Audits C.chrono op user es row.action row.entityId detail ∧ ∀ e ∈ es, e ∈ w.log := by
  obtain ⟨e, he, ho⟩ := event_of_row hw hrow
  obtain ⟨v, a, k, user, hv, hi, -, hsteps, -, -, -, haudits⟩ := audits_of_event hw he ho
  have hvw : Steps (server C state) v w := .head (.call hi _) hsteps
  exact ⟨_, _, _, _, haudits, fun e' he' => (Steps.log_mono hvw).subset (World.mem_of_own rfl he').1⟩

theorem inserted_of_create (hw : Reach (server C state) Db.empty w) {row : AuditRow}
    (hrow : row ∈ w.db.auditEvent.rows) (ha : row.action = "create") :
    Inserted C.chrono w.log row.entityId := by
  obtain ⟨op, user, es, detail, haudits, hlog⟩ := audits_of_row hw hrow
  obtain ⟨i, input, x, db, task, -, rfl, hok, hid⟩ := haudits.of_create ha
  exact ⟨_, hlog _ (List.mem_singleton.mpr rfl), _, _, task, rfl, hok, hid.symm⟩

theorem removed_of_delete (hw : Reach (server C state) Db.empty w) {row : AuditRow}
    (hrow : row ∈ w.db.auditEvent.rows) (ha : row.action = "delete") : Removed w.log row.entityId := by
  obtain ⟨op, user, es, detail, haudits, hlog⟩ := audits_of_row hw hrow
  obtain ⟨i, x, db, existing, j, y, db', removed, -, rfl, -, hok⟩ := haudits.of_delete ha
  exact ⟨_, hlog _ (List.mem_cons_of_mem _ (List.mem_singleton.mpr rfl)), rfl, DbCall.fault_of_ok hok⟩

/-! ### Reconciliation -/

/-- With fresh UUIDs an audit insert fails only if the database does. -/
theorem recordAudit_ok (hw : Reach (server C state) Db.empty w) (hfresh : FreshIds w.log)
    (hok : NoFaults w.log) {i actor action entityType entityId detail x d}
    (he : ⟨i, .recordAudit actor action entityType entityId detail, x, d⟩ ∈ w.log) :
    ((DbCall.recordAudit actor action entityType entityId detail).exec C.chrono x d).1 = .ok () := by
  obtain ⟨v, a, k, hv, hi, rfl, hvw⟩ := hw.event he
  have hf := FreshIds.earlier (Steps.log_mono hvw) hfresh
  refine DbCall.exec_recordAudit.mpr ⟨hok _ he, Table.find?_eq_none.mpr fun r hr hid => ?_⟩
  exact hf.last (u := x.uuid) rfl (hid ▸ (ids_used hv).2.1 r hr)

/-- A finished request none of whose calls failed succeeded if it made a write, and recorded it. -/
theorem recorded {a : Arrival Time} {r : Response Time} {es : List (DbEvent Time)}
    (hs : Stage C state a es (.ret r)) (hok : NoFaults es)
    (haudit : ∀ {i actor action entityType entityId detail x d},
      ⟨i, .recordAudit actor action entityType entityId detail, x, d⟩ ∈ es →
      ((DbCall.recordAudit actor action entityType entityId detail).exec C.chrono x d).1 = .ok ())
    {e : DbEvent Time} (he : e ∈ es) {action id : String} (hwrite : written C.chrono action e = some id) :
    r.Success ∧ ∃ e' ∈ es, ∃ row, auditOf C.chrono e' = some row ∧ row.action = action ∧
      row.entityId = id := by
  have h2 : ∀ {α : Type} {a b : α}, b ∈ [a, b] := by simp
  have h3 : ∀ {α : Type} {a b c : α}, c ∈ [a, b, c] := by simp
  cases hs with
  | refused hr => cases he
  | create hop hu h =>
    cases h with
    | invalid hv => cases he
    | writeFailed hv hw =>
      obtain rfl := List.mem_singleton.mp he
      have hw' : (Db.createTask C.chrono _ _ _ _).1 = _ := hw
      simp [written, hw'] at hwrite
    | auditFailed hv hw ha =>
      rw [haudit h2] at ha
      cases ha
    | done hv hw ha =>
      refine ⟨by simp [Response.Success], _, h2, _, auditOf_ok ha, ?_⟩
      rcases List.mem_pair.mp he with rfl | rfl
      · have hw' : (Db.createTask C.chrono _ _ _ _).1 = _ := hw
        simpa [written, hw', eq_comm, Db.auditRow] using hwrite
      · cases hwrite
  | update hop hu h =>
    cases h with
    | invalid hv => cases he
    | readFailed hr => obtain rfl := List.mem_singleton.mp he; cases hwrite
    | notFound hr => obtain rfl := List.mem_singleton.mp he; cases hwrite
    | forbidden hr hm => obtain rfl := List.mem_singleton.mp he; cases hwrite
    | writeFailed hr hw =>
      rw [DbCall.exec_updateTask.mpr ⟨hok _ h2, rfl⟩] at hw
      cases hw
    | auditFailed hr hw ha =>
      rw [haudit h3] at ha
      cases ha
    | done hr hw ha =>
      obtain ⟨-, rfl⟩ := DbCall.exec_updateTask.mp hw
      refine ⟨by simp [Response.Success], _, h3, _, auditOf_ok ha, ?_⟩
      simp only [List.mem_cons, List.not_mem_nil, or_false] at he
      rcases he with rfl | rfl | rfl
      · cases hwrite
      · simpa [written, eq_comm, Db.auditRow, Db.mergeTask] using hwrite
      · cases hwrite
  | delete hop hu h =>
    cases h with
    | readFailed hr => obtain rfl := List.mem_singleton.mp he; cases hwrite
    | notFound hr => obtain rfl := List.mem_singleton.mp he; cases hwrite
    | forbidden hr hm => obtain rfl := List.mem_singleton.mp he; cases hwrite
    | writeFailed hr hw =>
      rw [DbCall.exec_deleteTask.mpr ⟨hok _ h2, rfl⟩] at hw
      cases hw
    | auditFailed hr hw ha =>
      rw [haudit h3] at ha
      cases ha
    | done hr hw ha =>
      refine ⟨by simp [Response.Success], _, h3, _, auditOf_ok ha, ?_⟩
      simp only [List.mem_cons, List.not_mem_nil, or_false] at he
      rcases he with rfl | rfl | rfl
      · cases hwrite
      · simpa [written, eq_comm, Db.auditRow] using hwrite
      · cases hwrite
  | reading hop hes hp =>
    have hc := hes e he
    obtain ⟨i, c, x, d⟩ := e
    cases c <;> first | cases hwrite | exact hc.elim

/-- If nothing failed and no request is in flight, every write is recorded, and the request that
made it succeeded. -/
theorem recorded_of_quiescent (hw : Reach (server C state) Db.empty w) (hfresh : FreshIds w.log)
    (hok : NoFaults w.log) (hq : w.Quiescent) {e : DbEvent Time} (he : e ∈ w.log) {action id : String}
    (hwrite : written C.chrono action e = some id) :
    (∃ a r, w.Has e.tid ⟨a, .ret r⟩ ∧ r.Success) ∧
      ∃ row ∈ w.db.auditEvent.rows, row.action = action ∧ row.entityId = id := by
  have hlog : ∀ {e'}, e' ∈ w.own e.tid → e' ∈ w.log := fun h => (World.mem_own.mp h).1
  obtain ⟨⟨a, p⟩, hth⟩ : ∃ th, w.Has e.tid th := ⟨_, List.getElem?_eq_getElem (hw.tid_lt e he)⟩
  obtain ⟨r, rfl⟩ : ∃ r, p = .ret r := hq e.tid _ hth
  obtain ⟨hr, e', he', row, ho, hact, hid⟩ := recorded (stage_of_reach hw hth)
    (fun e h => hok e (hlog h)) (fun h => recordAudit_ok hw hfresh hok (hlog h))
    (World.mem_own.mpr ⟨he, rfl⟩) hwrite
  refine ⟨⟨a, r, hth, hr⟩, row, ?_, hact, hid⟩
  rw [audit_rows hw]
  exact List.mem_filterMap.mpr ⟨e', hlog he', ho⟩

/-- **The audit log is sound and reconciles.**  In every run from the empty schema, whatever fails:
it is append-only; a mutation has one event, of its own principal, action and task, if it succeeded,
and none if it failed; no id with a `delete` event is in the task table; every id with a `create`
event was inserted, and has one such event.  If nothing failed and no request is in flight, the ids
in the table are those with a `create` event and no `delete` event. -/
theorem audit_log (hw : Reach (server C state) Db.empty w) (hfresh : FreshIds w.log) :
    (∀ w', Step (server C state) w w' → w.db.auditEvent.rows <+: w'.db.auditEvent.rows) ∧
    (w.db.auditEvent.rows = w.log.filterMap (auditOf C.chrono) ∧
      ∀ i a r, w.Has i ⟨a, .ret r⟩ → a.op.Mutates →
        (r.Success → ∃ row, (w.own i).filterMap (auditOf C.chrono) = [row] ∧
          AuditsRequest C state a r row) ∧
        (¬ r.Success → (w.own i).filterMap (auditOf C.chrono) = [])) ∧
    (∀ row ∈ w.db.auditEvent.rows,
      (row.action = "delete" → ∀ r ∈ w.db.task.rows, r.id ≠ row.entityId) ∧
      (row.action = "create" → Inserted C.chrono w.log row.entityId)) ∧
    (eventIds w.db "create").Nodup ∧
    (NoFaults w.log → w.Quiescent → ∀ id, (∃ r ∈ w.db.task.rows, r.id = id) ↔
      (∃ row ∈ w.db.auditEvent.rows, row.action = "create" ∧ row.entityId = id) ∧
        ¬ ∃ row ∈ w.db.auditEvent.rows, row.action = "delete" ∧ row.entityId = id) := by
  refine ⟨fun w' hs => step_append_only hs, ⟨audit_rows hw, fun i a r => finished_audit hw⟩,
    fun row hrow => ⟨fun ha => ?_, inserted_of_create hw hrow⟩, eventIds_nodup hw _ (hfresh.created _),
    fun hok hq id => ?_⟩
  · exact Table.find?_eq_none.mp (removed_gone hw hfresh (removed_of_delete hw hrow ha)).2
  · have hpresent : (∃ r ∈ w.db.task.rows, r.id = id) ↔ w.db.task.find? id ≠ none := by
      simp [Table.find?_eq_none]
    rw [hpresent, present_iff hw hfresh]
    constructor
    · rintro ⟨⟨⟨i, c, x, d⟩, he, owner, input, task, rfl, hc, rfl⟩, hr⟩
      refine ⟨(recorded_of_quiescent hw hfresh hok hq he (written_createTask hc)).2, ?_⟩
      rintro ⟨row, hrow, ha, hid⟩
      exact hr (hid ▸ removed_of_delete hw hrow ha)
    · rintro ⟨⟨row, hrow, ha, rfl⟩, hnone⟩
      refine ⟨inserted_of_create hw hrow ha, ?_⟩
      rintro ⟨⟨i, c, x, d⟩, he, rfl, -⟩
      exact hnone (recorded_of_quiescent hw hfresh hok hq he rfl).2

end SecureLedger

/-! ### On the sample -/

namespace SecureLedger.Sample

open Atomic

/-- Two tasks are created; the first is updated and deleted at the same time. -/
def reconciled : ServerWorld Sec :=
  runOn [.arrive (withToken "tok.user" (.createTask (.ok ⟨"draft", "", none⟩)) 10),
    .arrive (withToken "tok.user" (.createTask (.ok ⟨"other", "", some .doing⟩)) 10),
    .call 0 (good 11 "t1"), .call 1 (good 12 "t2"), .call 0 (good 13 "e1"), .call 1 (good 14 "e2"),
    .arrive (withToken "tok.admin" (.updateTask (.ok "t1") (.ok ⟨none, none, some .done⟩)) 20),
    .arrive (withToken "tok.user" (.deleteTask (.ok "t1")) 21),
    .call 2 (good 22 ""), .call 3 (good 23 ""), .call 3 (good 24 ""), .call 2 (good 25 ""),
    .call 2 (good 26 "e3"), .call 3 (good 27 "e4")]

theorem reconciled_deleted : (∃ r ∈ reconciled.db.task.rows, r.id = "t1") ↔
    (∃ row ∈ reconciled.db.auditEvent.rows, row.action = "create" ∧ row.entityId = "t1") ∧
      ¬ ∃ row ∈ reconciled.db.auditEvent.rows, row.action = "delete" ∧ row.entityId = "t1" :=
  (audit_log (runOn_reach _) (by decide +kernel)).2.2.2.2 (by decide +kernel)
    (World.quiescent_of_responses (by decide +kernel)) "t1"

end SecureLedger.Sample
