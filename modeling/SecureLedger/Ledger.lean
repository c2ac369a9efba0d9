import SecureLedger.Runs

/-!
# Ledger — the two tables as functions of the calls made

The audit table is the list of rows the logged calls inserted, in order (`audit_rows`), and every
row comes from a request that has just made the write it names (`audits_of_event`).  The ids in the
task table are those inserted and not removed since (`present_iff`).
-/

namespace SecureLedger

open Atomic

variable {Time : Type}

/-! ### The audit table -/

/-- The audit row a logged call inserted, if it did. -/
def auditOf (C : Chrono Time) (e : DbEvent Time) : Option AuditRow :=
  match e.call with
  | .recordAudit actor action entityType entityId detail =>
    match (Db.recordAudit C actor action entityType entityId detail e.input e.before).1 with
    | .ok _ => some (Db.auditRow C actor action entityType entityId detail e.input)
    | .error _ => none
  | _ => none

section AuditOf

variable {C : Chrono Time} {actor action entityType entityId detail : String} {i : ℕ} {x : Input Time}
  {db : Db}

theorem auditOf_ok
    (h : ((DbCall.recordAudit actor action entityType entityId detail).exec C x db).1 = .ok ()) :
    auditOf C ⟨i, .recordAudit actor action entityType entityId detail, x, db⟩ =
      some (Db.auditRow C actor action entityType entityId detail x) := by
  have h' : (Db.recordAudit C actor action entityType entityId detail x db).1 = _ := h
  simp [auditOf, h']

theorem auditOf_error {e : AppError}
    (h : ((DbCall.recordAudit actor action entityType entityId detail).exec C x db).1 = .error e) :
    auditOf C ⟨i, .recordAudit actor action entityType entityId detail, x, db⟩ = none := by
  have h' : (Db.recordAudit C actor action entityType entityId detail x db).1 = _ := h
  simp [auditOf, h']

@[simp] theorem auditOf_other {c : DbCall Time}
    (hc : ∀ actor action entityType entityId detail,
      c ≠ .recordAudit actor action entityType entityId detail) : auditOf C ⟨i, c, x, db⟩ = none := by
  cases c with
  | recordAudit => exact absurd rfl (hc _ _ _ _ _)
  | _ => rfl

theorem auditOf_eq_some {e : DbEvent Time} {row : AuditRow} : auditOf C e = some row ↔
    ∃ actor action entityType entityId detail,
      e.call = .recordAudit actor action entityType entityId detail ∧
      ((DbCall.recordAudit actor action entityType entityId detail).exec C e.input e.before).1 = .ok () ∧
      row = Db.auditRow C actor action entityType entityId detail e.input := by
  obtain ⟨i, c, x, db⟩ := e
  constructor
  · intro h
    cases c with
    | recordAudit actor action entityType entityId detail =>
      cases hr : ((DbCall.recordAudit actor action entityType entityId detail).exec C x db).1 with
      | ok u =>
        rw [auditOf_ok hr] at h
        exact ⟨_, _, _, _, _, rfl, hr, (Option.some.inj h).symm⟩
      | error e => rw [auditOf_error hr] at h; cases h
    | _ => cases h
  · rintro ⟨actor, action, entityType, entityId, detail, rfl, hr, rfl⟩
    exact auditOf_ok hr

end AuditOf

variable {C : Crates Time} {state : AppState} {w w' : ServerWorld Time}

/-- What a call does to the audit table. -/
theorem exec_auditEvent (i : ℕ) (c : DbCall Time) (x : Input Time) (db : Db) :
    (c.exec C.chrono x db).2.auditEvent.rows =
      db.auditEvent.rows ++ (auditOf C.chrono ⟨i, c, x, db⟩).toList := by
  cases c with
  | recordAudit actor action entityType entityId detail =>
    cases hr : ((DbCall.recordAudit actor action entityType entityId detail).exec C.chrono x db).1 with
    | ok u =>
      obtain ⟨t, ht, hdb⟩ := DbCall.recordAudit_state hr
      rw [auditOf_ok hr, hdb]
      exact Table.insert_rows ht
    | error e => rw [DbCall.exec_error hr, auditOf_error hr]; simp
  | createTask owner input =>
    have he := DbCall.exec_effect C.chrono x db (.createTask owner input)
    generalize ((DbCall.createTask owner input).exec C.chrono x db).2 = db' at he ⊢
    cases he <;> simp [auditOf]
  | updateTask existing input =>
    have he := DbCall.exec_effect C.chrono x db (.updateTask existing input)
    generalize ((DbCall.updateTask existing input).exec C.chrono x db).2 = db' at he ⊢
    cases he <;> simp [auditOf, Db.write]
  | deleteTask id =>
    have he := DbCall.exec_effect C.chrono x db (.deleteTask id)
    generalize ((DbCall.deleteTask id).exec C.chrono x db).2 = db' at he ⊢
    cases he <;> simp [auditOf]
  | _ =>
    rw [exec_reads]
    · simp [auditOf]
    · trivial

/-- **The audit table is what the calls inserted**, in order. -/
theorem audit_rows (hw : Reach (server C state) Db.empty w) :
    w.db.auditEvent.rows = w.log.filterMap (auditOf C.chrono) := by
  refine Reach.log_inv hw (H := fun _ => True)
    (I := fun db log => db.auditEvent.rows = log.filterMap (auditOf C.chrono))
    (fun _ _ => trivial) rfl ?_ trivial
  intro w i a c k _ _ x _ ih
  rw [List.filterMap_append, ← ih]
  show (c.exec C.chrono x w.db).2.auditEvent.rows = _
  rw [exec_auditEvent i]
  cases h : auditOf C.chrono ⟨i, c, x, w.db⟩ <;> simp [h]

/-- **Every audit row follows its write**: the request that inserted it had, when it did, just made
the write that the row names, as the principal that the row names. -/
theorem audits_of_event (hw : Reach (server C state) Db.empty w) {e : DbEvent Time} (he : e ∈ w.log)
    {row : AuditRow} (ho : auditOf C.chrono e = some row) : ∃ v a k user,
      Reach (server C state) Db.empty v ∧ v.Has e.tid ⟨a, .call e.call k⟩ ∧ v.db = e.before ∧
      Steps (server C state) (v.exec (server C state) e.tid a e.call k e.input) w ∧
      a.authUser C state = .ok user ∧ row.actor = user.username ∧ row.entityType = "task" ∧
      Audits C.chrono a.op user (v.own e.tid) row.action row.entityId row.detail := by
  obtain ⟨actor, action, entityType, entityId, detail, hc, -, rfl⟩ := auditOf_eq_some.mp ho
  obtain ⟨v, a, k, hv, hi, hdb, hsteps⟩ := hw.event he
  obtain ⟨tid, call, x, d⟩ := e
  dsimp only at hc
  subst hc
  obtain ⟨user, hu, rfl, rfl, ha⟩ := next_recordAudit hv hi
  exact ⟨v, a, k, user, hv, hi, hdb, hsteps, hu, rfl, rfl, ha⟩

theorem event_of_row (hw : Reach (server C state) Db.empty w) {row : AuditRow}
    (hrow : row ∈ w.db.auditEvent.rows) : ∃ e ∈ w.log, auditOf C.chrono e = some row := by
  rw [audit_rows hw] at hrow
  exact List.mem_filterMap.mp hrow

/-! ### Writes and their audit rows -/

/-- The id of the task a logged call wrote, if it is the write that `action` records. -/
def written (C : Chrono Time) (action : String) (e : DbEvent Time) : Option String :=
  match e.call with
  | .createTask owner input =>
    match (Db.createTask C owner input e.input e.before).1 with
    | .ok task => if action = "create" then some task.id else none
    | .error _ => none
  | .updateTask existing _ => if action = "update" then some existing.id else none
  | .deleteTask id => if action = "delete" then some id else none
  | _ => none

theorem written_createTask {C : Chrono Time} {i : ℕ} {owner : String} {input : CreateTask}
    {x : Input Time} {db : Db} {task : Task Time}
    (h : ((DbCall.createTask owner input).exec C x db).1 = .ok task) :
    written C "create" ⟨i, .createTask owner input, x, db⟩ = some task.id := by
  have h' : (Db.createTask C owner input x db).1 = _ := h
  simp [written, h']

/-- A create that is recorded drew the id it is recorded under. -/
theorem drawn_of_written {C : Chrono Time} {e : DbEvent Time} {id : String}
    (h : written C "create" e = some id) : e.call.drawn e.input = some id := by
  obtain ⟨i, c, x, db⟩ := e
  cases c with
  | createTask owner input =>
    cases hr : ((DbCall.createTask owner input).exec C x db).1 with
    | ok task =>
      obtain ⟨-, -, rfl⟩ := DbCall.exec_createTask.mp hr
      rw [written_createTask hr] at h
      exact h
    | error e =>
      have h' : (Db.createTask C owner input x db).1 = _ := hr
      simp [written, h'] at h
  | _ => simp [written] at h

/-- Before its audit insert a request has made the write it is about to record, and no audit
insert. -/
theorem Audits.written {C : Chrono Time} {op : Op} {user : AuthUser} {es : List (DbEvent Time)}
    {action entityId detail : String} (h : Audits C op user es action entityId detail) :
    (∃ e ∈ es, SecureLedger.written C action e = some entityId) ∧ ∀ e ∈ es, auditOf C e = none := by
  cases h with
  | create hop hw => exact ⟨⟨_, List.mem_singleton.mpr rfl, written_createTask hw⟩, by simp⟩
  | update hop hr hw =>
    obtain ⟨-, rfl⟩ := DbCall.exec_updateTask.mp hw
    exact ⟨⟨_, List.mem_cons_of_mem _ (List.mem_singleton.mpr rfl), rfl⟩, by simp⟩
  | delete hop hr hw =>
    exact ⟨⟨_, List.mem_cons_of_mem _ (List.mem_singleton.mpr rfl), rfl⟩, by simp⟩

/-- The ids with an event of `action`, in order. -/
def eventIds (db : Db) (action : String) : List String :=
  (db.auditEvent.rows.filter (·.action = action)).map AuditRow.entityId

/-- If a write is made once per id, the request that recorded it is the one that made it. -/
theorem recorder_of_write (hw : Reach (server C state) Db.empty w) {action id : String}
    (honce : (w.log.filterMap (written C.chrono action)).Nodup) {d : DbEvent Time} (hd : d ∈ w.log)
    (hwrite : written C.chrono action d = some id) {e : DbEvent Time} (he : e ∈ w.log)
    {row : AuditRow} (ho : auditOf C.chrono e = some row) (hact : row.action = action)
    (hid : row.entityId = id) : e.tid = d.tid := by
  obtain ⟨v, a, k, user, hv, hi, -, hsteps, -, -, -, haudits⟩ := audits_of_event hw he ho
  have hvw : Steps (server C state) v w := .head (.call hi _) hsteps
  obtain ⟨⟨d', hd', hwrite'⟩, -⟩ := haudits.written
  obtain ⟨hlog', htid'⟩ := World.mem_own.mp hd'
  rw [hact, hid] at hwrite'
  have hsame : d = d' := unique_of_nodup honce hd ((Steps.log_mono hvw).subset hlog') hwrite hwrite'
  rw [hsame, htid']

/-- **If a write is made once per id, it is recorded once per id.** -/
theorem eventIds_nodup (hw : Reach (server C state) Db.empty w) (action : String)
    (honce : (w.log.filterMap (written C.chrono action)).Nodup) : (eventIds w.db action).Nodup := by
  refine Reach.log_inv hw (H := fun log => (log.filterMap (written C.chrono action)).Nodup)
    (I := fun db _ => (eventIds db action).Nodup)
    (fun hl h => h.sublist (hl.sublist.filterMap _)) (by simp [eventIds, Db.empty]) ?_ honce
  intro w i a c k hw hi x hf ih
  have hf' : (w.log.filterMap (written C.chrono action)).Nodup :=
    hf.sublist ((List.prefix_append _ _).sublist.filterMap _)
  show (eventIds (c.exec C.chrono x w.db).2 action).Nodup
  unfold eventIds at ih ⊢
  rw [exec_auditEvent i]
  cases ho : auditOf C.chrono ⟨i, c, x, w.db⟩ with
  | none => simpa using ih
  | some row =>
    obtain ⟨actor, act, entityType, entityId, detail, hc, -, rfl⟩ := auditOf_eq_some.mp ho
    dsimp only at hc
    subst hc
    by_cases hact : act = action
    · subst hact
      obtain ⟨user, -, -, -, haudits⟩ := next_recordAudit hw hi
      obtain ⟨⟨d, hd, hwrite⟩, hnone⟩ := haudits.written
      have hlast : ([Db.auditRow C.chrono actor act entityType entityId detail x].filter
          (·.action = act)).map AuditRow.entityId = [entityId] := by
        simp [Db.auditRow]
      rw [Option.toList_some, List.filter_append, List.map_append, hlast, ← List.concat_eq_append]
      refine ih.concat fun hmem => ?_
      -- an earlier event for the id would be this request's own
      obtain ⟨row, hrow, hid⟩ := List.mem_map.mp hmem
      obtain ⟨hrow, hact'⟩ := List.mem_filter.mp hrow
      obtain ⟨e, he, ho'⟩ := event_of_row hw hrow
      obtain ⟨hdlog, hdtid⟩ := World.mem_own.mp hd
      have htid : e.tid = d.tid :=
        recorder_of_write hw hf' hdlog hwrite he ho' (of_decide_eq_true hact') hid
      rw [hnone e (World.mem_own.mpr ⟨he, htid.trans hdtid⟩)] at ho'
      cases ho'
    · simpa [List.filter_append, Db.auditRow, hact] using ih

/-- With fresh UUIDs an id is created once. -/
theorem FreshIds.created {log : List (DbEvent Time)} (h : FreshIds log) (C : Chrono Time) :
    (log.filterMap (SecureLedger.written C "create")).Nodup := by
  have hp := List.pairwise_filterMap.mp h
  exact List.pairwise_filterMap.mpr (hp.imp fun hab u hu v hv =>
    hab u (drawn_of_written hu) v (drawn_of_written hv))

/-! ### The task table -/

/-- Task `id` was inserted. -/
def Inserted (C : Chrono Time) (log : List (DbEvent Time)) (id : String) : Prop :=
  ∃ e ∈ log, ∃ owner input task, e.call = .createTask owner input ∧
    ((DbCall.createTask owner input).exec C e.input e.before).1 = .ok task ∧ task.id = id

/-- A DELETE of task `id` ran. -/
def Removed (log : List (DbEvent Time)) (id : String) : Prop :=
  ∃ e ∈ log, e.call = .deleteTask id ∧ e.input.fault = none

theorem Inserted.mono {C : Chrono Time} {l l' : List (DbEvent Time)} (h : l <+: l') {id : String}
    (hi : Inserted C l id) : Inserted C l' id := by
  obtain ⟨e, he, hrest⟩ := hi
  exact ⟨e, h.subset he, hrest⟩

theorem Removed.mono {l l' : List (DbEvent Time)} (h : l <+: l') {id : String} (hr : Removed l id) :
    Removed l' id := by
  obtain ⟨e, he, hrest⟩ := hr
  exact ⟨e, h.subset he, hrest⟩

/-- A row present after a call was present before it, or the call inserted it. -/
theorem present_before {i : ℕ} {c : DbCall Time} {x : Input Time} {db : Db} {id : String}
    (h : (c.exec C.chrono x db).2.task.find? id ≠ none) :
    db.task.find? id ≠ none ∨ Inserted C.chrono [⟨i, c, x, db⟩] id := by
  have he := DbCall.exec_effect C.chrono x db c
  generalize (c.exec C.chrono x db).2 = db' at he h
  cases he with
  | none => exact .inl h
  | @create owner input t hx ht =>
    rw [Table.find?_insert ht] at h
    split at h
    · next hid =>
      have hfree : db.task.find? x.uuid = none := by
        by_contra hne
        have := Table.insert_eq_none.mpr (Option.isSome_iff_ne_none.mpr hne :
          (db.task.find? (taskToRow C.chrono (Db.newTask owner input x)).id).isSome)
        rw [this] at ht
        cases ht
      exact .inr ⟨_, List.mem_singleton.mpr rfl, owner, input, _, rfl,
        DbCall.exec_createTask.mpr ⟨hx, hfree, rfl⟩, hid⟩
    · exact .inl h
  | @update existing input hx =>
    rw [Db.find?_write] at h
    split at h
    · next hid =>
      subst hid
      exact .inl fun hn => h (by rw [hn]; rfl)
    · exact .inl h
  | delete hx =>
    rw [Table.find?_delete] at h
    split at h
    · exact absurd rfl h
    · exact .inl h
  | audit hx ha => exact .inl h

/-- A row present before a call is present after it, unless the call removed it. -/
theorem present_after {i : ℕ} {c : DbCall Time} {x : Input Time} {db : Db} {id : String}
    (h : db.task.find? id ≠ none) (hkeep : ¬ Removed [⟨i, c, x, db⟩] id) :
    (c.exec C.chrono x db).2.task.find? id ≠ none := by
  have he := DbCall.exec_effect C.chrono x db c
  generalize (c.exec C.chrono x db).2 = db' at he ⊢
  cases he with
  | none => exact h
  | create hx ht =>
    rw [Table.find?_insert ht]
    split
    · simp
    · exact h
  | update hx =>
    rw [Db.find?_write]
    split
    · next hid => subst hid; simpa using h
    · exact h
  | @delete id' hx =>
    have hne : id ≠ id' := by
      rintro rfl
      exact hkeep ⟨_, List.mem_singleton.mpr rfl, rfl, hx⟩
    rw [Table.find?_delete, if_neg hne]
    exact h
  | audit hx ha => exact h

theorem removed_concat {log : List (DbEvent Time)} {e : DbEvent Time} {id : String} :
    Removed (log ++ [e]) id ↔ Removed log id ∨ Removed [e] id := by
  simp [Removed, or_and_right, exists_or]

theorem inserted_concat {C : Chrono Time} {log : List (DbEvent Time)} {e : DbEvent Time} {id : String} :
    Inserted C (log ++ [e]) id ↔ Inserted C log id ∨ Inserted C [e] id := by
  simp [Inserted, or_and_right, exists_or]

/-- An id that was removed had been drawn, and is out of the table for ever. -/
theorem removed_gone (hw : Reach (server C state) Db.empty w) (hfresh : FreshIds w.log) {id : String}
    (hr : Removed w.log id) : id ∈ usedIds w.log ∧ w.db.task.find? id = none := by
  suffices h : ∀ id, Removed w.log id → id ∈ usedIds w.log ∧ w.db.task.find? id = none from h id hr
  refine Reach.log_inv hw (H := FreshIds)
    (I := fun db log => ∀ id, Removed log id → id ∈ usedIds log ∧ db.task.find? id = none)
    FreshIds.earlier (by simp [Removed]) ?_ hfresh
  intro w i a c k hw hi x hf ih id hr
  have hsub : usedIds w.log ⊆ usedIds (w.log ++ [⟨i, c, x, w.db⟩]) := by
    rw [usedIds_concat]
    exact List.subset_append_left _ _
  rcases removed_concat.mp hr with hr | ⟨e, he, hc, hx⟩
  · obtain ⟨hused, hnone⟩ := ih id hr
    exact ⟨hsub hused, exec_gone (fun hu => hf.last hu hused) hnone⟩
  · obtain rfl := List.mem_singleton.mp he
    dsimp only at hc hx
    subst hc
    obtain ⟨user, existing, j, y, d, -, -, -, hown, hread⟩ := next_deleteTask hw hi
    obtain ⟨hmem, -⟩ := World.mem_of_own hown (List.mem_singleton.mpr rfl)
    obtain ⟨-, -, -, hused, -⟩ :=
      identity_of_read hw (hf.earlier (List.prefix_append _ _)) hmem hread
    refine ⟨hsub hused, ?_⟩
    show ((DbCall.deleteTask id).exec C.chrono x w.db).2.task.find? id = none
    rw [DbCall.deleteTask_state hx]
    simp [Table.find?_delete]

/-- **The task table holds what was inserted and not removed.** -/
theorem present_iff (hw : Reach (server C state) Db.empty w) (hfresh : FreshIds w.log) (id : String) :
    w.db.task.find? id ≠ none ↔ Inserted C.chrono w.log id ∧ ¬ Removed w.log id := by
  have hins : ∀ id, (w.db.task.find? id ≠ none → Inserted C.chrono w.log id) ∧
      (Inserted C.chrono w.log id → ¬ Removed w.log id → w.db.task.find? id ≠ none) := by
    refine Reach.log_inv hw (H := fun _ => True)
      (I := fun db log => ∀ id, (db.task.find? id ≠ none → Inserted C.chrono log id) ∧
        (Inserted C.chrono log id → ¬ Removed log id → db.task.find? id ≠ none))
      (fun _ _ => trivial) (fun id => ⟨fun h => absurd rfl h, by simp [Inserted]⟩) ?_ trivial
    intro w i a c k _ _ x _ ih id
    rw [inserted_concat, removed_concat]
    constructor
    · intro h
      rcases present_before (i := i) h with h | h
      · exact .inl ((ih id).1 h)
      · exact .inr h
    · rintro (hi | ⟨e, he, owner, input, task, hc, hok, rfl⟩) hr
      · exact present_after ((ih id).2 hi fun h => hr (.inl h)) fun h => hr (.inr h)
      · obtain rfl := List.mem_singleton.mp he
        dsimp only at hc hok
        subst hc
        obtain ⟨t, ht, hdb⟩ := DbCall.createTask_state hok
        show ((DbCall.createTask owner input).exec C.chrono x w.db).2.task.find? task.id ≠ none
        rw [hdb, Table.find?_insert ht]
        simp [taskToRow]
  constructor
  · exact fun h => ⟨(hins id).1 h, fun hr => h (removed_gone hw hfresh hr).2⟩
  · rintro ⟨hi, hr⟩
    exact (hins id).2 hi hr

/-- An id that some call found in the table was inserted. -/
theorem inserted_of_seen (hw : Reach (server C state) Db.empty w) (hfresh : FreshIds w.log)
    {e : DbEvent Time} (he : e ∈ w.log) {id : String} (h : e.before.task.find? id ≠ none) :
    Inserted C.chrono w.log id := by
  obtain ⟨v, a, k, hv, -, hdb, hsteps⟩ := hw.event he
  have hpre : v.log <+: w.log := (List.prefix_append _ _).trans (Steps.log_mono hsteps)
  exact ((present_iff hv (hfresh.earlier hpre) id).mp (hdb ▸ h)).1.mono hpre

end SecureLedger
