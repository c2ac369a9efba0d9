import SecureLedger.AuditLog
import SecureLedger.LostUpdate
import SecureLedger.WellFormed

/-!
# UpdateReal — did a successful update happen?

`update_task` answers, and audits, the merge it made in memory; how many rows its UPDATE changed is
not looked at.  The answer is what the row became exactly if every UPDATE finds its row
(`updates_real_iff`): a row deleted between the read and the write makes both the answer and the
event describe a task that is not there.
-/

namespace SecureLedger

open Atomic

variable {Time : Type} {C : Crates Time} {state : AppState} {w : ServerWorld Time}

/-- What the clients and the audit table are told of updates is what happened. -/
structure UpdatesReal (C : Crates Time) (state : AppState) (w : ServerWorld Time) : Prop where
  /-- A successful update wrote one row, which then was the task in the response. -/
  response : ∀ {i a r id input}, w.Has i ⟨a, .ret r⟩ → a.op = .updateTask (.ok id) (.ok input) →
    r.status = 200 → ∃ e ∈ w.own i, ∃ existing task, e.call = .updateTask existing input ∧
      r.body = .task task ∧ e.before.task.count existing.id = 1 ∧
      (e.after (server C state)).task.find? task.id = some (taskToRow C.chrono task)
  /-- An `update` event is about a write that its request made while the row was there. -/
  event : ∀ e ∈ w.log, ∀ row, auditOf C.chrono e = some row → row.action = "update" →
    ∃ e' ∈ w.own e.tid, ∃ existing input, e'.call = .updateTask existing input ∧
      existing.id = row.entityId ∧ e'.before.task.find? row.entityId ≠ none

/-- Every UPDATE finds its row. -/
def UpdatesFind (log : List (DbEvent Time)) : Prop :=
  ∀ e ∈ log, ∀ u ∈ updateBy e, e.before.task.find? u.1.id ≠ none

instance (log : List (DbEvent Time)) : Decidable (UpdatesFind log) :=
  inferInstanceAs (Decidable (∀ e ∈ log, ∀ u ∈ updateBy e, e.before.task.find? u.1.id ≠ none))

/-- What an update that finds its row makes of it: the task it answers. -/
theorem written_row (hchrono : C.chrono.RoundTrips) (hw : Reach (server C state) Db.empty w)
    (hfresh : FreshIds w.log) {i : ℕ} {existing : Task Time} {input : UpdateTask} {x : Input Time}
    {d : Db} (he : ⟨i, .updateTask existing input, x, d⟩ ∈ w.log) {r : TaskRow}
    (hr : d.task.find? existing.id = some r) :
    setRow C.chrono (Db.mergeTask existing input x.now) r =
      taskToRow C.chrono (Db.mergeTask existing input x.now) := by
  obtain ⟨v, a, k, hv, hi, rfl, hsteps⟩ := hw.event he
  have hf : FreshIds v.log := FreshIds.earlier (Steps.log_mono (.head (.call hi x) hsteps)) hfresh
  obtain ⟨user, id, j, y, d', -, -, -, -, hown, hread⟩ := next_updateTask hv hi
  obtain ⟨hmem, -⟩ := World.mem_of_own hown (List.mem_singleton.mpr rfl)
  obtain ⟨r₀, hr₀, rfl, -, hsame⟩ := identity_of_read hv hf hmem hread
  obtain ⟨hrmem, hrid⟩ := Table.find?_eq_some.mp hr
  have hid₀ : r₀.id = id := Table.find?_key hr₀
  have hid : r.id = id := hrid.trans hid₀
  have hident := hsame r hrmem hid
  -- the creation time was printed from a reading, so it prints back
  obtain ⟨c, -, u, -, hcreated, -⟩ := ((rows_ok (fun _ _ => True) (fun _ => trivial) hv
    (List.pairwise_of_forall fun _ _ => trivial)).2 _ hmem r₀
      (Table.find?_eq_some.mp hr₀).1).times
  have howner : r.owner = r₀.owner := congrArg (·.2.1) hident
  have htime : r.createdAt = r₀.createdAt := congrArg (·.2.2) hident
  have hback : parseTs C.chrono y.now r₀.createdAt = c := by
    rw [parseTs, hcreated, hchrono c]
    rfl
  simp only [setRow, taskToRow, Db.mergeTask, rowToTask, TaskRow.mk.injEq, hback, true_and, and_true]
  exact ⟨hrid, howner, htime.trans hcreated⟩

/-- The calls of an update that succeeded, what it was answered, and what it recorded. -/
theorem update_done {db : Db} (hw : Reach (server C state) db w) {i : ℕ} {a : Arrival Time}
    {r : Response Time} {id : String} {input : UpdateTask} (hi : w.Has i ⟨a, .ret r⟩)
    (hop : a.op = .updateTask (.ok id) (.ok input)) (hr : r.Success) :
    ∃ e₁ e₃ j existing y d row, w.own i = [e₁, ⟨j, .updateTask existing input, y, d⟩, e₃] ∧
      updateBy e₁ = none ∧ updateBy e₃ = none ∧ y.fault = none ∧
      r = ⟨200, .task (Db.mergeTask existing input y.now)⟩ ∧
      auditOf C.chrono e₃ = some row ∧ row.action = "update" ∧ row.entityId = existing.id ∧
      row.detail = "status=" ++ (Db.mergeTask existing input y.now).status.asStr := by
  have hs := stage_of_reach hw hi
  dsimp only at hs
  generalize w.own i = es at hs ⊢
  cases hs with
  | refused hn => exact absurd hr hn
  | create hop' hu h => rw [hop] at hop'; cases hop'
  | update hop' hu h =>
    rw [hop] at hop'
    cases hop'
    cases h with
    | done hr hw ha =>
      obtain ⟨hy, rfl⟩ := DbCall.exec_updateTask.mp hw
      exact ⟨_, _, _, _, _, _, _, rfl, rfl, rfl, hy, rfl, auditOf_ok ha, rfl, rfl, rfl⟩
    | _ => exact absurd hr (AppError.not_success _)
  | delete hop' hu h => rw [hop] at hop'; cases hop'
  | reading hn => exact absurd (by rw [hop]; trivial) hn

/-- The request of an UPDATE is an update with its body. -/
theorem op_of_update {db : Db} (hw : Reach (server C state) db w) {e : DbEvent Time} (he : e ∈ w.log)
    {existing : Task Time} {input : UpdateTask} (hc : e.call = .updateTask existing input)
    {th : DbThread Time} (hi : w.Has e.tid th) : ∃ id, th.req.op = .updateTask (.ok id) (.ok input) := by
  obtain ⟨v, a, k, hv, hiv, -, hsteps⟩ := hw.event he
  obtain ⟨tid, c, x, d⟩ := e
  dsimp only at hc
  subst hc
  obtain ⟨user, id, -, -, -, hop, -⟩ := next_updateTask hv hiv
  obtain ⟨p, hp⟩ := Steps.thread (.head (.call hiv x) hsteps) hiv
  rw [hi.unique hp]
  exact ⟨id, hop⟩

/-- If nothing failed and no request is in flight, the request of an UPDATE made it second of three
calls, and recorded the status it wrote. -/
theorem update_recorded (hw : Reach (server C state) Db.empty w) (hfresh : FreshIds w.log)
    (hok : NoFaults w.log) (hq : w.Quiescent) {e : DbEvent Time} (he : e ∈ w.log)
    {existing : Task Time} {input : UpdateTask} (hc : e.call = .updateTask existing input) :
    ∃ a id e₁ e₃ row, w.Has e.tid ⟨a, .ret ⟨200, .task (Db.mergeTask existing input e.input.now)⟩⟩ ∧
      a.op = .updateTask (.ok id) (.ok input) ∧ w.own e.tid = [e₁, e, e₃] ∧
      updateBy e₁ = none ∧ updateBy e₃ = none ∧
      auditOf C.chrono e₃ = some row ∧ row.action = "update" ∧ row.entityId = existing.id ∧
      row.detail = "status=" ++ (Db.mergeTask existing input e.input.now).status.asStr := by
  have hwrite : written C.chrono "update" e = some existing.id := by
    obtain ⟨i, c, x, d⟩ := e
    subst hc
    rfl
  obtain ⟨⟨a, r, hi, hr⟩, -⟩ := recorded_of_quiescent hw hfresh hok hq he hwrite
  obtain ⟨id, hop⟩ := op_of_update hw he hc hi
  obtain ⟨e₁, e₃, j, existing', y, d, row, hown, hn₁, hn₃, -, rfl, ho, hact, hid, hdetail⟩ :=
    update_done hw hi hop hr
  -- the request makes one UPDATE
  have hsame : e = ⟨j, .updateTask existing' input, y, d⟩ := by
    have hmem : e ∈ w.own e.tid := World.mem_own.mpr ⟨he, rfl⟩
    rw [hown] at hmem
    have hby := updateBy_eq_some.mpr hc
    simp only [List.mem_cons, List.not_mem_nil, or_false] at hmem
    rcases hmem with h | h | h
    · rw [h, hn₁] at hby; cases hby
    · exact h
    · rw [h, hn₃] at hby; cases hby
  subst hsame
  cases hc
  exact ⟨a, id, e₁, e₃, row, hi, hop, hown, hn₁, hn₃, ho, hact, hid, hdetail⟩

/-- **Successful updates happened, exactly when every UPDATE finds its row**: they do in every run
that meets the condition, and a run that does not breaks it once its requests are answered. -/
theorem updates_real_iff (hchrono : C.chrono.RoundTrips) (hw : Reach (server C state) Db.empty w)
    (hfresh : FreshIds w.log) (hok : NoFaults w.log) :
    (UpdatesFind w.log → UpdatesReal C state w) ∧
      (w.Quiescent → UpdatesReal C state w → UpdatesFind w.log) := by
  constructor
  · intro hfind
    refine ⟨fun {i a r id input} hi hop hr => ?_, fun e he row ho hact => ?_⟩
    · have hsuccess : r.Success := by simp [Response.Success, hr]
      obtain ⟨e₁, e₃, j, existing, y, d, row, hown, -, -, hy, rfl, -⟩ := update_done hw hi hop hsuccess
      have hmem : ⟨j, .updateTask existing input, y, d⟩ ∈ w.own i := by simp [hown]
      have hlog := (World.mem_own.mp hmem).1
      obtain ⟨row, hrow⟩ := Option.ne_none_iff_exists'.mp (hfind _ hlog _ rfl)
      refine ⟨_, hmem, existing, _, rfl, rfl, ?_, ?_⟩
      · rw [Table.count_eq, hrow]
        rfl
      · show ((DbCall.updateTask existing input).exec C.chrono y d).2.task.find? existing.id = _
        rw [DbCall.updateTask_state hy, Db.find?_write, ← written_row hchrono hw hfresh hlog hrow]
        simp [Db.mergeTask, hrow]
    · obtain ⟨v, a, k, user, hv, hi, -, hsteps, -, -, -, haudits⟩ := audits_of_event hw he ho
      have hvw : Steps (server C state) v w := .head (.call hi _) hsteps
      obtain ⟨id, input, j, x, d, existing, j', y, d', updated, -, hown, -, hwrite, hid, -⟩ :=
        haudits.of_update hact
      obtain ⟨-, rfl⟩ := DbCall.exec_updateTask.mp hwrite
      obtain ⟨hmem, htid⟩ := World.mem_of_own hown (List.mem_cons_of_mem _ (List.mem_cons_self ..))
      have hlog := (Steps.log_mono hvw).subset hmem
      rw [hid]
      exact ⟨_, World.mem_own.mpr ⟨hlog, htid⟩, existing, input, rfl, rfl, hfind _ hlog _ rfl⟩
  · rintro hq hreal e he ⟨existing, input⟩ hu habsent
    have hc := updateBy_eq_some.mp hu
    obtain ⟨a, id, e₁, e₃, row, hi, hop, hown, hn₁, hn₃, -⟩ := update_recorded hw hfresh hok hq he hc
    obtain ⟨e', he', existing', task, hc', -, hcount, -⟩ := hreal.response hi hop rfl
    have hby := updateBy_eq_some.mpr hc'
    rw [hown] at he'
    simp only [List.mem_cons, List.not_mem_nil, or_false] at he'
    rcases he' with rfl | rfl | rfl
    · rw [hn₁] at hby; cases hby
    · rw [hc] at hc'
      cases hc'
      rw [Table.count_eq, habsent] at hcount
      cases hcount
    · rw [hn₃] at hby; cases hby

end SecureLedger

/-! ### On the sample -/

namespace SecureLedger.Sample

open Atomic

/-- An admin updates a task that its owner deletes between the admin's read and write. -/
def updatedAfterDelete : ServerWorld Sec :=
  created.run (server crates state)
    [.arrive (withToken "tok.admin" (.updateTask (.ok "t1") (.ok ⟨none, none, some .done⟩)) 20),
      .arrive (withToken "tok.user" (.deleteTask (.ok "t1")) 21),
      .call 1 (good 22 ""), .call 2 (good 23 ""), .call 2 (good 24 ""), .call 2 (good 25 "e2"),
      .call 1 (good 26 ""), .call 1 (good 27 "e3")]

/-- The update is answered 200 and recorded after the deletion; its UPDATE found no row. -/
theorem phantom_update : Steps (server crates state) created updatedAfterDelete ∧
    updatedAfterDelete.responses.map (·.map Response.status) = [some 201, some 200, some 204] ∧
    NoFaults updatedAfterDelete.log ∧ FreshIds updatedAfterDelete.log ∧
    updatedAfterDelete.db.auditEvent.rows.map (fun row => (row.action, row.entityId)) =
      [("create", "t1"), ("delete", "t1"), ("update", "t1")] ∧
    (updatedAfterDelete.log.filter fun e => (updateBy e).isSome).map
      (fun e => e.before.task.count "t1") = [0] :=
  ⟨created.run_steps _, by decide +kernel⟩

theorem inTurn_real : UpdatesReal crates state inTurn :=
  (updates_real_iff chrono_roundTrips ((runOn_reach _).trans (created.run_steps _))
    (by decide +kernel) (by decide +kernel)).1 (by decide +kernel)

end SecureLedger.Sample
