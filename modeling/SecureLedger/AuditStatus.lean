import SecureLedger.UpdateReal
import SecureLedger.Lib.Newest
import Mathlib.Data.String.Basic

/-!
# AuditStatus — does the audit trail tell the status of a task?

An update writes the row and inserts its event in two statements, each stamped for itself, and
nothing orders one request's pair against another's.  Once no request is in flight some event does
tell the row's status, but the latest one only if the row still had the status it reports when it
was inserted (`latest_status_iff`); `status_out_of_order` is a run where it had not.
-/

namespace SecureLedger

open Atomic

variable {Time : Type} {C : Crates Time} {state : AppState} {w : ServerWorld Time}

/-- The first `update` event of a task that `list_audit` returns. -/
def latestUpdate (db : Db) (id : String) : Option AuditRow :=
  (byTimestamp db.auditEvent.rows).find? fun row => row.action = "update" ∧ row.entityId = id

/-- It has the greatest timestamp. -/
theorem latestUpdate_spec {db : Db} {id : String} {row : AuditRow} (h : latestUpdate db id = some row) :
    row ∈ db.auditEvent.rows ∧ row.action = "update" ∧ row.entityId = id ∧
      ∀ row' ∈ db.auditEvent.rows, row'.action = "update" → row'.entityId = id →
        row'.timestamp ≤ row.timestamp := by
  unfold latestUpdate at h
  obtain ⟨hp, pre, post, hsplit, hpre⟩ := List.find?_eq_some_iff_append.mp h
  have hmem : ∀ row', row' ∈ byTimestamp db.auditEvent.rows ↔ row' ∈ db.auditEvent.rows :=
    fun row' => Newest.mem_newest
  have hsorted : (byTimestamp db.auditEvent.rows).Pairwise fun a b => b.timestamp ≤ a.timestamp :=
    Newest.newest_pairwise AuditRow.timestamp _
  rw [hsplit] at hsorted
  simp only [decide_eq_true_eq] at hp
  refine ⟨(hmem row).mp (by rw [hsplit]; simp), hp.1, hp.2, fun row' hrow' ha hid => ?_⟩
  rw [← hmem, hsplit] at hrow'
  rcases List.mem_append.mp hrow' with h' | h'
  · have := hpre row' h'
    simp [ha, hid] at this
  · rcases List.mem_cons.mp h' with rfl | h'
    · exact le_refl _
    · exact (List.pairwise_cons.mp (List.pairwise_append.mp hsorted).2.1).1 row' h'

/-- The id of an UPDATE was drawn before it. -/
theorem update_used (hw : Reach (server C state) Db.empty w) (hfresh : FreshIds w.log)
    {e : DbEvent Time} (he : e ∈ w.log) {existing : Task Time} {input : UpdateTask}
    (hc : e.call = .updateTask existing input) : existing.id ∈ usedIds w.log := by
  obtain ⟨v, a, k, hv, hi, -, hsteps⟩ := hw.event he
  obtain ⟨tid, c, x, d⟩ := e
  dsimp only at hc
  subst hc
  have hpre := Steps.log_mono (.head (.call hi x) hsteps)
  obtain ⟨user, id, j, y, d', -, -, -, -, hown, hread⟩ := next_updateTask hv hi
  obtain ⟨hmem, -⟩ := World.mem_of_own hown (List.mem_singleton.mpr rfl)
  obtain ⟨r₀, hr₀, rfl, hused, -⟩ := identity_of_read hv (hfresh.earlier hpre) hmem hread
  have hid : r₀.id = id := Table.find?_key hr₀
  rw [rowToTask_id, hid]
  exact (hpre.filterMap _).subset hused

/-- The status of a row that was updated is the one the last UPDATE wrote. -/
theorem status_of_updated (hw : Reach (server C state) Db.empty w) (hfresh : FreshIds w.log)
    (hok : NoFaults w.log) {r : TaskRow} (hr : r ∈ w.db.task.rows) {e : DbEvent Time} (he : e ∈ w.log)
    {u : Task Time × UpdateTask} (hu : updateOf r.id e = some u) :
    ∃ e ∈ w.log, ∃ existing input, updateOf r.id e = some (existing, input) ∧
      r.status = (Db.mergeTask existing input e.input.now).status.asStr := by
  suffices h : ∀ r ∈ w.db.task.rows, (∃ e ∈ w.log, ∃ u, updateOf r.id e = some u) →
      ∃ e ∈ w.log, ∃ existing input, updateOf r.id e = some (existing, input) ∧
        r.status = (Db.mergeTask existing input e.input.now).status.asStr from h r hr ⟨e, he, u, hu⟩
  refine Reach.log_inv hw (H := fun log => FreshIds log ∧ NoFaults log)
    (I := fun (db : Db) log => ∀ r ∈ db.task.rows, (∃ e ∈ log, ∃ u, updateOf r.id e = some u) →
      ∃ e ∈ log, ∃ existing input, updateOf r.id e = some (existing, input) ∧
        r.status = (Db.mergeTask existing input e.input.now).status.asStr)
    (fun hl h => ⟨h.1.earlier hl, h.2.earlier hl⟩) (by simp) ?_ ⟨hfresh, hok⟩
  rintro w i a c k hw hi x ⟨hf, hok⟩ ih r hr ⟨e, he, u, hu⟩
  cases hnew : updateOf r.id (⟨i, c, x, w.db⟩ : DbEvent Time) with
  | some u =>
    -- this call is the last UPDATE
    obtain ⟨existing, input⟩ := u
    obtain ⟨rfl, hid⟩ := updateOf_eq_some.mp hnew
    refine ⟨⟨i, .updateTask existing input, x, w.db⟩, by simp, existing, input, hnew, ?_⟩
    change r ∈ ((DbCall.updateTask existing input).exec C.chrono x w.db).2.task.rows at hr
    rw [DbCall.updateTask_state (hok ⟨i, .updateTask existing input, x, w.db⟩ (by simp))] at hr
    rcases Db.mem_write.mp hr with ⟨-, hne⟩ | ⟨r', -, -, h⟩
    · exact absurd hid.symm hne
    · exact (congrArg TaskRow.status h).symm
  | none =>
    have hlog : e ∈ w.log := by
      rcases List.mem_append.mp he with he | he
      · exact he
      · rw [List.mem_singleton.mp he, hnew] at hu
        cases hu
    have hold : r ∈ w.db.task.rows := by
      have heff := DbCall.exec_effect C.chrono x w.db c
      change r ∈ (c.exec C.chrono x w.db).2.task.rows at hr
      generalize (c.exec C.chrono x w.db).2 = db' at heff hr
      cases heff with
      | none => exact hr
      | create hx ht =>
        rw [Table.insert_rows ht] at hr
        rcases List.mem_append.mp hr with hr | hr
        · exact hr
        · have hused := update_used hw (hf.earlier (List.prefix_append _ _)) hlog
            (updateOf_eq_some.mp hu).1
          rw [(updateOf_eq_some.mp hu).2, List.mem_singleton.mp hr] at hused
          exact absurd hused (hf.last rfl)
      | @update existing input hx =>
        rcases Db.mem_write.mp hr with ⟨hr, -⟩ | ⟨r', -, hid, hset⟩
        · exact hr
        · have hsetid := congrArg TaskRow.id hset
          rw [setRow_id] at hsetid
          have hex : existing.id = r.id := hid.symm.trans hsetid
          rw [updateOf_eq_some.mpr ⟨rfl, hex⟩] at hnew
          cases hnew
      | delete hx => exact (Table.mem_delete.mp hr).1
      | audit hx ha => exact hr
    obtain ⟨e', he', hrest⟩ := ih r hold ⟨e, hlog, u, hu⟩
    exact ⟨e', List.mem_append_left _ he', hrest⟩

/-- If nothing failed and no request is in flight, an UPDATE has an event that is stamped later and
reports the status it wrote. -/
theorem event_of_update [LT Time] (hw : Reach (server C state) Db.empty w) (hfresh : FreshIds w.log)
    (hok : NoFaults w.log) (hclock : ClockStrict w.log) (hq : w.Quiescent) {e : DbEvent Time}
    (he : e ∈ w.log) {existing : Task Time} {input : UpdateTask}
    (hc : e.call = .updateTask existing input) : ∃ row ∈ w.db.auditEvent.rows, ∃ t,
      e.input.now < t ∧ row.timestamp = C.chrono.toRfc3339 t ∧ row.action = "update" ∧
      row.entityId = existing.id ∧
      row.detail = "status=" ++ (Db.mergeTask existing input e.input.now).status.asStr := by
  obtain ⟨-, -, e₁, e₃, row, -, -, hown, -, -, ho, hact, hid, hdetail⟩ :=
    update_recorded hw hfresh hok hq he hc
  have he₃ : e₃ ∈ w.log := (World.mem_own.mp (hown ▸ by simp : e₃ ∈ w.own e.tid)).1
  have hrow : row ∈ w.db.auditEvent.rows := by
    rw [audit_rows hw]
    exact List.mem_filterMap.mpr ⟨e₃, he₃, ho⟩
  -- the request made the insert after the UPDATE
  have hlater : e.input.now < e₃.input.now := by
    have hpair : ClockStrict (w.own e.tid) := hclock.sublist (List.filter_sublist.map _)
    rw [hown, show [e₁, e, e₃] = [e₁, e] ++ [e₃] from rfl] at hpair
    exact hpair.later (by simp) (by simp)
  obtain ⟨_, _, _, _, _, -, -, rfl⟩ := auditOf_eq_some.mp ho
  exact ⟨_, hrow, e₃.input.now, hlater, rfl, hact, hid, hdetail⟩

/-- A row that is there at the end was there ever since some call saw it. -/
theorem seen_since (hw : Reach (server C state) Db.empty w) (hfresh : FreshIds w.log)
    (hok : NoFaults w.log) {v : ServerWorld Time} (hv : Reach (server C state) Db.empty v)
    (hvw : Steps (server C state) v w) {r : TaskRow} (hr : r ∈ w.db.task.rows) {e : DbEvent Time}
    (he : e ∈ v.log) (hseen : e.before.task.find? r.id ≠ none) :
    (∃ r', v.db.task.find? r.id = some r') ∧ ∀ e' ∈ w.log, e'.call ≠ .deleteTask r.id := by
  have hpre := Steps.log_mono hvw
  have hf : FreshIds v.log := hfresh.earlier hpre
  have hgone : ¬ Removed w.log r.id := by
    intro h
    have hnone := (removed_gone hw hfresh h).2
    rw [Table.find?_of_mem hr] at hnone
    cases hnone
  have hins : Inserted C.chrono v.log r.id := inserted_of_seen hv hf he hseen
  constructor
  · exact Option.ne_none_iff_exists'.mp
      ((present_iff hv hf r.id).mpr ⟨hins, fun h => hgone (h.mono hpre)⟩)
  · exact fun e' he' hdel => hgone ⟨e', he', hdel, hok e' he'⟩

/-- **The latest event tells the status, exactly when** the row, as that event was inserted, still had
the status its request had written.  Some event of the task always does. -/
theorem latest_status_iff [LinearOrder Time] (hsort : C.chrono.SortsText)
    (hw : Reach (server C state) Db.empty w) (hfresh : FreshIds w.log) (hok : NoFaults w.log)
    (hclock : ClockStrict w.log) (hq : w.Quiescent) {r : TaskRow} (hr : r ∈ w.db.task.rows)
    {row : AuditRow} (hlast : latestUpdate w.db r.id = some row) :
    (∃ row' ∈ w.db.auditEvent.rows, row'.action = "update" ∧ row'.entityId = r.id ∧
      row'.detail = "status=" ++ r.status) ∧
    ∃ e ∈ w.log, ∃ u ∈ w.own e.tid, ∃ existing input r', auditOf C.chrono e = some row ∧
      u.call = .updateTask existing input ∧ existing.id = r.id ∧
      e.before.task.find? r.id = some r' ∧
      (row.detail = "status=" ++ r.status ↔
        r'.status = (Db.mergeTask existing input u.input.now).status.asStr) := by
  obtain ⟨hrow, hact, hid, hmax⟩ := latestUpdate_spec hlast
  obtain ⟨e, he, ho⟩ := event_of_row hw hrow
  obtain ⟨v, a, k, user, hv, hi, hdb, hsteps, -, -, -, haudits⟩ := audits_of_event hw he ho
  obtain ⟨id, input, j, x, d, existing, j', y, d', updated, -, hown, hread, hwrite, hent, hdetail⟩ :=
    haudits.of_update hact
  obtain ⟨-, rfl⟩ := DbCall.exec_updateTask.mp hwrite
  have hex : existing.id = r.id := hent.symm.trans hid
  have hvw : Steps (server C state) v w := .head (.call hi _) hsteps
  have hpre := Steps.log_mono hvw
  obtain ⟨hgetmem, -⟩ := World.mem_of_own hown (List.mem_cons_self ..)
  obtain ⟨hupdmem, htid⟩ := World.mem_of_own hown (List.mem_cons_of_mem _ (List.mem_cons_self ..))
  have hupdlog := hpre.subset hupdmem
  -- the row was there when the event was inserted
  have hseen : d.task.find? r.id ≠ none := by
    obtain ⟨-, hfound⟩ := DbCall.exec_getTask.mp hread
    obtain ⟨r₀, hr₀, rfl⟩ := Option.map_eq_some_iff.mp hfound.symm
    have hid₀ : r₀.id = id := Table.find?_key hr₀
    rw [← hex, rowToTask_id, hid₀, hr₀]
    simp
  obtain ⟨⟨r', hr'⟩, hkept⟩ := seen_since hw hfresh hok hv hvw hr hgetmem hseen
  obtain ⟨actor, action, entityType, entityId, detail, hcall, -, hrowdef⟩ := auditOf_eq_some.mp ho
  have hafter : (v.exec (server C state) e.tid a e.call k e.input).db.task.find? r.id = some r' :=
    exec_frame hr' (by rw [hcall]; simp) (by rw [hcall]; simp)
  -- a later UPDATE of the row would have a later event
  have hlater : ∀ e' ∈ w.since (v.exec (server C state) e.tid a e.call k e.input),
      e'.call ≠ .deleteTask r.id ∧
        ∀ existing input, e'.call = .updateTask existing input → existing.id ≠ r.id := by
    intro e' he'
    have hsplit := World.log_eq_since (Steps.log_mono hsteps)
    have he'log : e' ∈ w.log := hsplit ▸ List.mem_append_right _ he'
    refine ⟨hkept e' he'log, fun ex' in' hupd hid' => ?_⟩
    obtain ⟨row', hrow', t, ht, hstamp, hact', hent', -⟩ :=
      event_of_update hw hfresh hok hclock hq he'log hupd
    have hlog : e ∈ (v.exec (server C state) e.tid a e.call k e.input).log := by
      simp [World.exec, hdb]
    have hnow : e.input.now < e'.input.now := ClockStrict.later (hsplit ▸ hclock) hlog he'
    have hle : row'.timestamp ≤ row.timestamp := hmax row' hrow' hact' (hent'.trans hid')
    rw [hstamp, hrowdef] at hle
    exact absurd (hsort _ _ (hnow.trans ht)) (not_lt.mpr hle)
  have hsame : r' = r := by
    have hfinal := steps_frame hsteps hafter hlater
    rw [Table.find?_of_mem hr] at hfinal
    exact (Option.some.inj hfinal).symm
  refine ⟨?_, e, he, _, World.mem_own.mpr ⟨hupdlog, htid⟩, existing, input, r', ho, rfl, hex,
    hdb ▸ hr', ?_⟩
  · obtain ⟨e₀, he₀, existing₀, input₀, hu₀, hstatus⟩ :=
      status_of_updated hw hfresh hok hr hupdlog (updateOf_eq_some.mpr ⟨rfl, hex⟩)
    obtain ⟨hc₀, hid₀⟩ := updateOf_eq_some.mp hu₀
    obtain ⟨row₀, hrow₀, -, -, -, hact₀, hent₀, hdetail₀⟩ :=
      event_of_update hw hfresh hok hclock hq he₀ hc₀
    exact ⟨row₀, hrow₀, hact₀, hent₀.trans hid₀, by rw [hdetail₀, hstatus]⟩
  · rw [hdetail, hsame, String.append_right_inj]
    exact eq_comm

end SecureLedger

/-! ### On the sample -/

namespace SecureLedger.Sample

open Atomic

/-- The admin's UPDATE comes last, the owner's event does. -/
def outOfOrder : ServerWorld Sec :=
  created.run (server crates state)
    [.arrive (withToken "tok.user" (.updateTask (.ok "t1") (.ok ⟨none, none, some .done⟩)) 20),
      .arrive (withToken "tok.admin" (.updateTask (.ok "t1") (.ok ⟨none, none, some .doing⟩)) 21),
      .call 1 (good 22 ""), .call 2 (good 23 ""), .call 1 (good 24 ""), .call 2 (good 25 ""),
      .call 2 (good 26 "e2"), .call 1 (good 27 "e3")]

/-- The row says `doing`, the latest event `done`. -/
theorem status_out_of_order : Steps (server crates state) created outOfOrder ∧
    outOfOrder.responses.map (·.map Response.status) = [some 201, some 200, some 200] ∧
    NoFaults outOfOrder.log ∧ FreshIds outOfOrder.log ∧ ClockStrict outOfOrder.log ∧
    (outOfOrder.db.task.find? "t1").map TaskRow.status = some "doing" ∧
    (latestUpdate outOfOrder.db "t1").map AuditRow.detail = some "status=done" :=
  ⟨created.run_steps _, by decide +kernel⟩

theorem status_told : ∃ row ∈ outOfOrder.db.auditEvent.rows, row.action = "update" ∧
    row.entityId = "t1" ∧ row.detail = "status=" ++ "doing" := by
  have hr : ⟨"t1", "draft", "", "doing", "user", "2024-01-01T00:00:11+00:00",
      "2024-01-01T00:00:25+00:00"⟩ ∈ outOfOrder.db.task.rows := by decide +kernel
  have hlast : latestUpdate outOfOrder.db "t1" = some ⟨"e3", "user", "update", "task", "t1",
      "2024-01-01T00:00:27+00:00", "status=done"⟩ := by decide +kernel
  exact (latest_status_iff (C := crates) chrono_sortsText
    ((runOn_reach _).trans (created.run_steps _)) (by decide +kernel) (by decide +kernel)
    (by decide +kernel) (World.quiescent_of_responses (by decide +kernel)) hr hlast).1

end SecureLedger.Sample
