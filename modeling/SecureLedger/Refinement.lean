import SecureLedger.History
import SecureLedger.Sample
import SecureLedger.Solo

/-!
# Refinement — the handlers over the tables refine the history

The rows are the tasks of the history, encoded (`Represents`), and each handler, run alone without
database errors, does what `History.serve` says (`Realizes`).  By induction over the requests, so
does every sequence of requests (`refines_history`).
-/

namespace SecureLedger

open Atomic

variable {Time : Type} {C : Crates Time} {state : AppState}

/-- The rows are the tasks of the history. -/
def Represents (C : Chrono Time) (h : History Time) (db : Db) : Prop :=
  db.task.rows = h.tasks.map (taskToRow C)

@[simp] theorem taskToRow_id (C : Chrono Time) (task : Task Time) : (taskToRow C task).id = task.id := rfl

/-- What `create_task` and `update_task` store is read back as it was. -/
theorem rowToTask_taskToRow {C : Chrono Time} (hC : C.RoundTrips) (now : Time) (task : Task Time) :
    rowToTask C now (taskToRow C task) = task := by
  simp [rowToTask, taskToRow, parseTs, hC task.createdAt, hC task.updatedAt]

section Represents

variable {h : History Time} {db : Db}

theorem Represents.find? (hr : Represents C.chrono h db) (id : String) :
    db.task.find? id = (h.task id).map (taskToRow C.chrono) := by
  rw [Table.find?, hr, List.find?_map]
  rfl

/-- A task's row decodes to the task, at any time. -/
theorem Represents.read (hr : Represents C.chrono h db) (hC : C.chrono.RoundTrips) (id : String)
    (now : Time) : (db.task.find? id).map (rowToTask C.chrono now) = h.task id := by
  rw [hr.find?, Option.map_map]
  cases h.task id with
  | none => rfl
  | some task => exact congrArg some (rowToTask_taskToRow hC now task)

theorem Represents.nodup (hr : Represents C.chrono h db) : (h.tasks.map Task.id).Nodup := by
  have := db.task.nodup
  rw [hr, List.map_map] at this
  exact this

/-- A task of the history is the one its id names. -/
theorem Represents.task_of_mem (hr : Represents C.chrono h db) (hC : C.chrono.RoundTrips)
    {task : Task Time} (ht : task ∈ h.tasks) : h.task task.id = some task := by
  have hrow : taskToRow C.chrono task ∈ db.task.rows := hr ▸ List.mem_map_of_mem ht
  have hfound : db.task.find? task.id = some (taskToRow C.chrono task) := Table.find?_of_mem hrow
  rw [← hr.read hC task.id task.createdAt, hfound, Option.map_some, rowToTask_taskToRow hC]

theorem Represents.create (hr : Represents C.chrono h db) {owner : String} {input : CreateTask}
    {x : Input Time} (hfree : db.task.find? x.uuid = none) {t : Table TaskRow.id}
    (ht : db.task.insert (taskToRow C.chrono (Db.newTask owner input x)) = some t) {a} :
    Represents C.chrono (h ++ [.created x.uuid owner input x.now]) ⟨t, a⟩ := by
  have hnew : History.current x.uuid owner x.now [.created x.uuid owner input x.now] =
      Db.newTask owner input x := by
    obtain ⟨title, description, status⟩ := input
    cases status <;> simp [History.current, History.last, Change.id, Change.title,
      Change.description, Change.status, Change.time, Db.newTask]
  have hids : ∀ task ∈ h.tasks, task.id ≠ x.uuid := by
    rw [hr.find?, Option.map_eq_none_iff, History.task, List.find?_eq_none] at hfree
    simpa using hfree
  unfold Represents
  rw [Table.insert_rows ht, hr, History.tasks_concat_created hids, hnew, List.map_append]
  rfl

theorem Represents.update (hr : Represents C.chrono h db) {task : Task Time} {input : UpdateTask}
    {now : Time} (ht : h.task task.id = some task) :
    Represents C.chrono (h ++ [.updated task.id input now])
      (db.write C.chrono (Db.mergeTask task input now)) := by
  have hmem : task ∈ h.tasks := List.mem_of_find?_eq_some ht
  unfold Represents Db.write
  rw [Table.update_rows, hr, History.tasks_concat_updated, List.map_map, List.map_map]
  refine List.map_congr_left fun task' ht' => ?_
  by_cases hid : task'.id = task.id
  · obtain rfl := List.inj_on_of_nodup_map hr.nodup ht' hmem hid
    simp [Db.mergeTask, setRow, taskToRow]
  · simp [Db.mergeTask, hid]

theorem Represents.delete (hr : Represents C.chrono h db) (id : String) {a} :
    Represents C.chrono (h ++ [.deleted id]) ⟨db.task.delete id, a⟩ := by
  unfold Represents
  rw [Table.delete_rows, hr, History.tasks_concat_deleted, List.filter_map]
  rfl

theorem Represents.list (hr : Represents C.chrono h db) (hC : C.chrono.RoundTrips) (limit offset : ℤ)
    (now : Time) : (limitOffset limit offset (byCreatedAt db.task.rows)).map (rowToTask C.chrono now) =
      limitOffset limit offset (h.newest C.chrono) := by
  have hsort : byCreatedAt db.task.rows = (h.newest C.chrono).map (taskToRow C.chrono) := by
    rw [byCreatedAt, hr, History.newest]
    exact (List.map_insertionSort (fun a b : Task Time => C.chrono.toRfc3339 b.createdAt ≤
      C.chrono.toRfc3339 a.createdAt) (fun a b : TaskRow => b.createdAt ≤ a.createdAt) _ _
        fun _ _ _ _ => Iff.rfl).symm
  have hback : ((h.newest C.chrono).map (taskToRow C.chrono)).map (rowToTask C.chrono now) =
      h.newest C.chrono := by
    rw [List.map_map]
    exact (List.map_congr_left fun task _ => rowToTask_taskToRow hC now task).trans (List.map_id _)
  rw [hsort]
  conv_rhs => rw [← hback]
  unfold limitOffset
  split <;> simp

end Represents

/-! ### Each handler -/

/-- The response `out.1` and the tables `out.2` are as a verdict, and the history after it, say. -/
structure Realizes (C : Chrono Time) (v : Verdict × History Time) (db : Db)
    (out : Response Time × Db) : Prop where
  answers : v.1.Answers C v.2 out.1
  frame : ¬ v.1.Writes → out.2 = db
  represents : Represents C v.2 out.2

section Handlers

variable {h : History Time} {db : Db} {xs : ℕ → Input Time} {i : ℕ} {user : AuthUser}

/-- A mutation ends in an audit insert, which leaves the tasks as they are. -/
theorem eval_audit {actor action entityType entityId detail : String} {r : Response Time}
    (hn : NoErrors C state ((tryCall (.recordAudit actor action entityType entityId detail)
      fun _ => .ret r).calls (server C state) i xs db)) :
    ∃ a, (tryCall (.recordAudit actor action entityType entityId detail) fun _ => .ret r).eval
      (server C state) xs db = (r, ⟨db.task, a⟩) := by
  obtain ⟨_, hw, heval, -⟩ := solo_tryCall hn
  obtain ⟨t, -, hdb⟩ := DbCall.recordAudit_state hw
  exact ⟨t, by rw [heval, hdb, eval_ret]⟩

theorem realizes_get (hC : C.chrono.RoundTrips) (hr : Represents C.chrono h db) {id : String}
    (hn : NoErrors C state ((Handlers.getTask id).calls (server C state) i xs db)) :
    Realizes C.chrono (h.get id) db ((Handlers.getTask id).eval (server C state) xs db) := by
  obtain ⟨found, hread, heval, -⟩ := solo_tryCall hn
  obtain ⟨-, rfl⟩ := DbCall.exec_getTask.mp hread
  rw [Handlers.getTask, heval, exec_reads (c := .getTask id) trivial, hr.read hC, History.get]
  cases ht : h.task id with
  | none => exact ⟨rfl, fun _ => rfl, hr⟩
  | some task => exact ⟨⟨task, ht, rfl⟩, fun _ => rfl, hr⟩

/-- The clamped page of the handler is that of the history. -/
theorem limitOffset_page {α : Type} (p : Pagination) (rows : List α) :
    limitOffset (clampLimit p.limit) (clampOffset p.offset) rows =
      (rows.drop (History.pageOffset p.offset)).take (History.pageLimit p.limit) := by
  have hlimit : (clampLimit p.limit).toNat = History.pageLimit p.limit := by
    unfold clampLimit History.pageLimit
    cases p.limit with
    | none => rfl
    | some n =>
      dsimp only [Option.getD_some]
      split_ifs <;> omega
  have hoffset : (clampOffset p.offset).toNat = History.pageOffset p.offset := by
    unfold clampOffset History.pageOffset
    cases p.offset with
    | none => rfl
    | some n =>
      dsimp only [Option.getD_some]
      split_ifs <;> omega
  rw [limitOffset_clamp, hlimit, hoffset]

theorem realizes_list (hC : C.chrono.RoundTrips) (hr : Represents C.chrono h db) {p : Pagination}
    (hn : NoErrors C state ((Handlers.listTasks p).calls (server C state) i xs db)) :
    Realizes C.chrono (.listed (History.pageLimit p.limit) (History.pageOffset p.offset), h) db
      ((Handlers.listTasks p).eval (server C state) xs db) := by
  obtain ⟨tasks, hread, heval, -⟩ := solo_tryCall hn
  have hx : (xs 0).fault = none := DbCall.fault_of_ok hread
  rw [Handlers.listTasks, heval, exec_reads (c := .listTasks ..) trivial]
  refine ⟨?_, fun _ => rfl, hr⟩
  simp only [DbCall.exec, Db.listTasks, Db.withConn, hx, Except.ok.injEq] at hread
  rw [hr.list hC, limitOffset_page] at hread
  subst hread
  rfl

theorem realizes_create (hC : C.chrono.RoundTrips) (hr : Represents C.chrono h db) {input : CreateTask}
    (hn : NoErrors C state ((Handlers.createTask user input).calls (server C state) i xs db)) :
    Realizes C.chrono (h.create user input (xs 0).uuid (xs 0).now) db
      ((Handlers.createTask user input).eval (server C state) xs db) := by
  unfold Handlers.createTask at hn ⊢
  unfold History.create
  cases hv : input.validate with
  | error m => exact ⟨rfl, fun _ => rfl, hr⟩
  | ok _ =>
    simp only [hv, orBadRequest, tryResult_ok] at hn ⊢
    obtain ⟨task, hw, heval, hn⟩ := solo_tryCall hn
    obtain ⟨-, hfree, rfl⟩ := DbCall.exec_createTask.mp hw
    obtain ⟨t, ht, hdb⟩ := DbCall.createTask_state hw
    rw [hdb] at heval hn
    obtain ⟨a, haudit⟩ := eval_audit hn
    rw [heval, haudit]
    have hr' : Represents C.chrono _ ⟨t, a⟩ := hr.create hfree ht
    refine ⟨⟨_, ?_, rfl⟩, fun hw => (hw trivial).elim, hr'⟩
    have hfound : t.find? (xs 0).uuid = some _ := (Table.find?_insert ht).trans (if_pos rfl)
    rw [← hr'.read hC (xs 0).uuid (xs 0).now, hfound, Option.map_some, rowToTask_taskToRow hC]

/-- What `update_task` and `delete_task` share: they read the task and check who may modify it. -/
theorem realizes_checked (hC : C.chrono.RoundTrips) (hr : Represents C.chrono h db) {id m : String}
    {f : Task Time → DbProg Time (Response Time)} {v : Verdict × History Time}
    (hn : NoErrors C state ((tryCall (.getTask id) fun found =>
      tryResult (okOr found (.notFound "task not found")) fun existing =>
      if !user.isAdmin && existing.owner != user.username then
        .ret (AppError.forbidden m).intoResponse
      else f existing).calls (server C state) i xs db))
    (hf : ∀ task, h.task id = some task →
      NoErrors C state ((f task).calls (server C state) i (fun n => xs (n + 1)) db) →
      Realizes C.chrono v db ((f task).eval (server C state) (fun n => xs (n + 1)) db)) :
    Realizes C.chrono (match h.task id with
      | none => (.notFound, h)
      | some task => if MayModify user task.owner then v else (.forbidden, h)) db
      ((tryCall (.getTask id) fun found =>
        tryResult (okOr found (.notFound "task not found")) fun existing =>
        if !user.isAdmin && existing.owner != user.username then
          .ret (AppError.forbidden m).intoResponse
        else f existing).eval (server C state) xs db) := by
  obtain ⟨found, hread, heval, hn⟩ := solo_tryCall hn
  obtain ⟨-, rfl⟩ := DbCall.exec_getTask.mp hread
  rw [exec_reads (c := .getTask id) trivial, hr.read hC] at heval hn
  rw [heval]
  cases ht : h.task id with
  | none => exact ⟨rfl, fun _ => rfl, hr⟩
  | some task =>
    simp only [ht, okOr, tryResult_ok, check_eq_ite] at hn ⊢
    by_cases hm : MayModify user task.owner
    · simp only [hm, if_true] at hn ⊢
      exact hf task ht hn
    · simp only [hm, if_false]
      exact ⟨rfl, fun _ => rfl, hr⟩

theorem realizes_update (hC : C.chrono.RoundTrips) (hr : Represents C.chrono h db) {id : String}
    {input : UpdateTask}
    (hn : NoErrors C state ((Handlers.updateTask user id input).calls (server C state) i xs db)) :
    Realizes C.chrono (h.update user id input (xs 1).now) db
      ((Handlers.updateTask user id input).eval (server C state) xs db) := by
  unfold Handlers.updateTask at hn ⊢
  unfold History.update
  cases hv : input.validate with
  | error m => exact ⟨rfl, fun _ => rfl, hr⟩
  | ok _ =>
    simp only [hv, orBadRequest, tryResult_ok] at hn ⊢
    refine realizes_checked hC hr hn fun task ht hn => ?_
    obtain ⟨updated, hw, heval, hn⟩ := solo_tryCall hn
    obtain ⟨hx, rfl⟩ := DbCall.exec_updateTask.mp hw
    rw [DbCall.updateTask_state hx] at heval hn
    obtain ⟨a, haudit⟩ := eval_audit hn
    rw [heval, haudit]
    obtain rfl := History.task_id ht
    have hr' : Represents C.chrono _ ⟨(db.write C.chrono (Db.mergeTask task input (xs 1).now)).task, a⟩ :=
      hr.update ht
    refine ⟨⟨_, ?_, rfl⟩, fun hw => (hw trivial).elim, hr'⟩
    have hfound : (db.write C.chrono (Db.mergeTask task input (xs 1).now)).task.find? task.id =
        some (taskToRow C.chrono (Db.mergeTask task input (xs 1).now)) := by
      rw [Db.find?_write, Db.mergeTask_id, if_pos rfl, hr.find?, ht]
      rfl
    rw [← hr'.read hC task.id (xs 1).now, hfound, Option.map_some, rowToTask_taskToRow hC]

theorem realizes_delete (hC : C.chrono.RoundTrips) (hr : Represents C.chrono h db) {id : String}
    (hn : NoErrors C state ((Handlers.deleteTask user id).calls (server C state) i xs db)) :
    Realizes C.chrono (h.delete user id) db
      ((Handlers.deleteTask user id).eval (server C state) xs db) := by
  unfold Handlers.deleteTask at hn ⊢
  unfold History.delete
  refine realizes_checked hC hr hn fun task ht hn => ?_
  obtain ⟨removed, hw, heval, hn⟩ := solo_tryCall hn
  obtain ⟨hx, -⟩ := DbCall.exec_deleteTask.mp hw
  rw [DbCall.deleteTask_state hx] at heval hn
  obtain ⟨a, haudit⟩ := eval_audit hn
  rw [heval, haudit]
  have hr' : Represents C.chrono _ ⟨db.task.delete id, a⟩ := hr.delete id
  refine ⟨⟨?_, rfl⟩, fun hw => (hw trivial).elim, hr'⟩
  have hgone : (db.task.delete id).find? id = none := Table.find?_delete.trans (if_pos rfl)
  rw [← hr'.read hC id (xs 0).now, hgone, Option.map_none]

/-- **One request** does what the history says. -/
theorem realizes_serve (hC : C.chrono.RoundTrips) (hr : Represents C.chrono h db) (a : Arrival Time)
    (hn : NoErrors C state ((handle C state a).calls (server C state) i xs db)) :
    Realizes C.chrono (h.serve C state a xs) db (serve C state a xs db) := by
  have houtside : OnlyReads (handle C state a) →
      Realizes C.chrono (.outside, h) db (serve C state a xs db) := by
    intro hp
    have hdb : (serve C state a xs db).2 = db := hp.eval
    exact ⟨trivial, fun _ => hdb, by rw [Represents, hdb]; exact hr⟩
  have hrun : ∀ {p v}, handle C state a = p →
      (NoErrors C state (p.calls (server C state) i xs db) →
        Realizes C.chrono v db (p.eval (server C state) xs db)) →
      Realizes C.chrono v db (serve C state a xs db) := by
    rintro p v rfl hp
    exact hp hn
  obtain ⟨headers, op, now⟩ := a
  unfold History.serve
  cases hu : Arrival.authUser C state ⟨headers, op, now⟩ with
  | error e =>
    refine houtside ?_
    by_cases hop : op.Mutates
    · -- a mutation asks for the principal first
      have hret : handle C state ⟨headers, op, now⟩ = .ret e.intoResponse := by
        cases op <;> first | exact hop.elim | simp [handle, hu]
      rw [hret]
      exact .ret _
    · exact handle_onlyReads hop
  | ok user =>
    cases op with
    | login body => exact houtside (handle_onlyReads id)
    | listTasks query =>
      cases query with
      | error r => exact houtside (handle_onlyReads id)
      | ok p => exact hrun (by simp [handle, hu, withExtracted]) fun hn => realizes_list hC hr hn
    | getTask id =>
      cases id with
      | error r => exact houtside (handle_onlyReads fun hm => hm)
      | ok id => exact hrun (by simp [handle, hu, withExtracted]) fun hn => realizes_get hC hr hn
    | createTask body =>
      cases body with
      | error r => exact houtside (by simp [handle, hu, withExtracted, OnlyReads.ret])
      | ok input => exact hrun (by simp [handle, hu, withExtracted]) fun hn => realizes_create hC hr hn
    | updateTask id body =>
      cases id with
      | error r => exact houtside (by simp [handle, hu, withExtracted, OnlyReads.ret])
      | ok id =>
        cases body with
        | error r => exact houtside (by simp [handle, hu, withExtracted, OnlyReads.ret])
        | ok input => exact hrun (by simp [handle, hu, withExtracted]) fun hn => realizes_update hC hr hn
    | deleteTask id =>
      cases id with
      | error r => exact houtside (by simp [handle, hu, withExtracted, OnlyReads.ret])
      | ok id => exact hrun (by simp [handle, hu, withExtracted]) fun hn => realizes_delete hC hr hn
    | listAudit query => exact houtside (handle_onlyReads id)
    | healthz => exact houtside (handle_onlyReads id)
    | readyz => exact houtside (handle_onlyReads id)

end Handlers

/-! ### Every sequence of requests -/

theorem represents_serveAll (hC : C.chrono.RoundTrips) (ts : List (Arrival Time × (ℕ → Input Time)))
    (hn : NoErrors C state ((World.init Db.empty).serveAll (server C state) ts).log) :
    Represents C.chrono (History.serveAll [] C state ts)
      ((World.init Db.empty).serveAll (server C state) ts).db := by
  induction ts using List.reverseRecOn with
  | nil => rfl
  | append_singleton ts t ih =>
    rw [World.serveAll_concat] at hn ⊢
    rw [History.serveAll_concat]
    have hr := ih (hn.earlier (World.serve_steps _ _ _).log_mono)
    exact (realizes_serve hC hr t.1 hn.calls).represents

/-- **The handlers refine the history.**  After any requests served one after the other without
database errors, the next one is answered, and changes the tables, as the history says: `ts` is what
went before, `t` the request.  Every task of the history is the one its id names, so that an entry
of a list is what reading its id returns. -/
theorem refines_history (hC : C.chrono.RoundTrips) (ts : List (Arrival Time × (ℕ → Input Time)))
    (t : Arrival Time × (ℕ → Input Time))
    (hn : NoErrors C state ((World.init Db.empty).serveAll (server C state) (ts ++ [t])).log) :
    let before := (World.init Db.empty).serveAll (server C state) ts
    let v := (History.serveAll [] C state ts).serve C state t.1 t.2
    Realizes C.chrono v before.db (serve C state t.1 t.2 before.db) ∧
      ∀ task ∈ v.2.tasks, v.2.task task.id = some task := by
  rw [World.serveAll_concat] at hn
  have hr := represents_serveAll hC ts (hn.earlier (World.serve_steps _ _ _).log_mono)
  have hv := realizes_serve hC hr t.1 hn.calls
  exact ⟨hv, fun task ht => hv.represents.task_of_mem hC ht⟩

end SecureLedger

/-! ### On the sample -/

namespace SecureLedger.Sample

open Atomic

/-- Inputs for the calls of one request. -/
def inputs (l : List (Input Sec)) (n : ℕ) : Input Sec := l.getD n (good 0 "")

/-- A task is created by its owner and taken up by an admin. -/
def twoWrites : List (Arrival Sec × (ℕ → Input Sec)) :=
  [(withToken "tok.user" (.createTask (.ok ⟨"  plan ", "", none⟩)) 10, inputs [good 11 "t1", good 12 "e1"]),
    (withToken "tok.admin" (.updateTask (.ok "t1") (.ok ⟨none, none, some .doing⟩)) 20,
      inputs [good 21 "", good 22 "", good 23 "e2"])]

def reading : Arrival Sec × (ℕ → Input Sec) := (withToken "tok.user" (.getTask (.ok "t1")) 30, inputs [])

def readBefore : ServerWorld Sec := start.serveAll (server crates state) twoWrites

theorem reading_noErrors :
    NoErrors crates state (start.serveAll (server crates state) (twoWrites ++ [reading])).log := by
  decide +kernel

def readVerdict : Verdict × History Sec :=
  (History.serveAll [] crates state twoWrites).serve crates state reading.1 reading.2

/-- The owner reads the task as the two writes left it. -/
theorem reading_realized : readVerdict = (.found "t1",
      [.created "t1" "user" ⟨"  plan ", "", none⟩ 11, .updated "t1" ⟨none, none, some .doing⟩ 22]) ∧
    readVerdict.2.task "t1" = some ⟨"t1", "plan", "", .doing, "user", 11, 22⟩ ∧
    Realizes chrono readVerdict readBefore.db (serve crates state reading.1 reading.2 readBefore.db) :=
  ⟨by decide +kernel, by decide +kernel,
    (refines_history chrono_roundTrips twoWrites reading reading_noErrors).1⟩

end SecureLedger.Sample
