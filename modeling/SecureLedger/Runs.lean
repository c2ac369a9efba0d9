import SecureLedger.Stages
import Mathlib.Data.List.Pairwise

/-!
# Runs — assumptions on a run, and the rows along it

The log records what every call got from outside, so an assumption on the outside world is a
property of the log: fresh UUIDs (`FreshIds`), no failing call (`NoFaults`), a clock that does not
go back (`ClockMono`).  From fresh UUIDs alone: a row keeps its id, owner and creation time, an id
is never used twice, and a row is in the table exactly if it was created and not removed.
-/

namespace SecureLedger

open Atomic

variable {Time : Type}

abbrev DbThread (Time : Type) :=
  Thread (Arrival Time) (DbCall Time) (Response Time) (@DbCall.Reply Time)

/-! ### Assumptions -/

/-- The UUID a call draws; reads, updates and deletes draw none. -/
def DbCall.drawn (c : DbCall Time) (x : Input Time) : Option String :=
  match c with
  | .createTask .. | .recordAudit .. => some x.uuid
  | _ => none

/-- The UUIDs drawn so far. -/
def usedIds (log : List (DbEvent Time)) : List String := log.filterMap fun e => e.call.drawn e.input

/-- `Uuid::new_v4` never repeats. -/
def FreshIds (log : List (DbEvent Time)) : Prop := (usedIds log).Nodup

/-- No database call failed. -/
def NoFaults (log : List (DbEvent Time)) : Prop := ∀ e ∈ log, e.input.fault = none

/-- The clock does not go back from one call to the next. -/
def ClockMono [LE Time] (log : List (DbEvent Time)) : Prop := (log.map (·.input.now)).Pairwise (· ≤ ·)

/-- Every call reads a later time than the calls before it. -/
def ClockStrict [LT Time] (log : List (DbEvent Time)) : Prop :=
  (log.map (·.input.now)).Pairwise (· < ·)

instance (log : List (DbEvent Time)) : Decidable (FreshIds log) :=
  inferInstanceAs (Decidable (List.Nodup _))

instance (log : List (DbEvent Time)) : Decidable (NoFaults log) :=
  inferInstanceAs (Decidable (∀ e ∈ log, e.input.fault = none))

instance [LE Time] [DecidableLE Time] (log : List (DbEvent Time)) : Decidable (ClockMono log) :=
  inferInstanceAs (Decidable (List.Pairwise _ _))

instance [LT Time] [DecidableLT Time] (log : List (DbEvent Time)) : Decidable (ClockStrict log) :=
  inferInstanceAs (Decidable (List.Pairwise _ _))

theorem FreshIds.earlier {l l' : List (DbEvent Time)} (h : l <+: l') (hf : FreshIds l') : FreshIds l :=
  hf.sublist (h.sublist.filterMap _)

theorem NoFaults.earlier {l l' : List (DbEvent Time)} (h : l <+: l') (hf : NoFaults l') : NoFaults l :=
  fun e he => hf e (h.subset he)

@[simp] theorem usedIds_concat (log : List (DbEvent Time)) (e : DbEvent Time) :
    usedIds (log ++ [e]) = usedIds log ++ (e.call.drawn e.input).toList := by
  cases h : e.call.drawn e.input <;> simp [usedIds, h]

/-- The UUID of the next call is new. -/
theorem FreshIds.last {log : List (DbEvent Time)} {e : DbEvent Time} (h : FreshIds (log ++ [e]))
    {u : String} (hu : e.call.drawn e.input = some u) : u ∉ usedIds log := by
  unfold FreshIds at h
  rw [usedIds_concat, hu, List.nodup_append] at h
  exact fun hmem => h.2.2 _ hmem _ (by simp) rfl

/-- If no two calls of a log have the same `f`, a value of `f` names its call. -/
theorem unique_of_nodup {log : List (DbEvent Time)} {f : DbEvent Time → Option String}
    (h : (log.filterMap f).Nodup) {e e' : DbEvent Time} (he : e ∈ log) (he' : e' ∈ log) {u : String}
    (hu : f e = some u) (hu' : f e' = some u) : e = e' := by
  by_contra hne
  have hp := List.pairwise_filterMap.mp h
  have : Std.Symm fun a b => ∀ x, f a = some x → ∀ y, f b = some y → x ≠ y :=
    ⟨fun a b hab x hx y hy hxy => hab y hy x hx hxy.symm⟩
  exact hp.forall he he' hne u hu u hu' rfl

/-- Of two calls, the later one reads a later time. -/
theorem ClockStrict.later [LT Time] {l l' : List (DbEvent Time)} (h : ClockStrict (l ++ l'))
    {e e' : DbEvent Time} (he : e ∈ l) (he' : e' ∈ l') : e.input.now < e'.input.now := by
  unfold ClockStrict at h
  rw [List.map_append, List.pairwise_append] at h
  exact h.2.2 _ (List.mem_map_of_mem he) _ (List.mem_map_of_mem he')

/-! ### What a request does next -/

section Next

variable {C : Crates Time} {state : AppState} {db : Db} {w : ServerWorld Time} {i : ℕ}
  {a : Arrival Time}

/-- A request about to insert a task is an accepted creation with a valid body. -/
theorem next_createTask (hw : Reach (server C state) db w) {owner input k}
    (hi : w.Has i ⟨a, .call (.createTask owner input) k⟩) : ∃ user, a.op = .createTask (.ok input) ∧
      a.authUser C state = .ok user ∧ owner = user.username ∧ input.validate = .ok () ∧
      w.own i = [] := by
  have hs := stage_of_reach hw hi
  generalize w.own i = es at hs
  cases hs with
  | create hop hu h => cases h with | writing hv => exact ⟨_, hop, hu, rfl, hv, rfl⟩
  | update hop hu h => cases h
  | delete hop hu h => cases h
  | reading hop hes hp => exact (hp _ _ rfl).elim

/-- A request about to write a task back is an accepted update with a valid body; the task is what
it read under its id, and it passed the ownership check on it. -/
theorem next_updateTask (hw : Reach (server C state) db w) {existing input k}
    (hi : w.Has i ⟨a, .call (.updateTask existing input) k⟩) : ∃ user id j x d,
      a.op = .updateTask (.ok id) (.ok input) ∧ a.authUser C state = .ok user ∧
      input.validate = .ok () ∧ MayModify user existing.owner ∧ w.own i = [⟨j, .getTask id, x, d⟩] ∧
      ((DbCall.getTask id).exec C.chrono x d).1 = .ok (some existing) := by
  have hs := stage_of_reach hw hi
  generalize w.own i = es at hs
  cases hs with
  | create hop hu h => cases h
  | update hop hu h =>
    cases h with | writing hv hr hm => exact ⟨_, _, _, _, _, hop, hu, hv, hm, rfl, hr⟩
  | delete hop hu h => cases h
  | reading hop hes hp => exact (hp _ _ rfl).elim

/-- A request about to delete a task is an accepted deletion that read the task and passed the
ownership check on it. -/
theorem next_deleteTask (hw : Reach (server C state) db w) {id k}
    (hi : w.Has i ⟨a, .call (.deleteTask id) k⟩) : ∃ user existing j x d,
      a.op = .deleteTask (.ok id) ∧ a.authUser C state = .ok user ∧ MayModify user existing.owner ∧
      w.own i = [⟨j, .getTask id, x, d⟩] ∧
      ((DbCall.getTask id).exec C.chrono x d).1 = .ok (some existing) := by
  have hs := stage_of_reach hw hi
  generalize w.own i = es at hs
  cases hs with
  | create hop hu h => cases h
  | update hop hu h => cases h
  | delete hop hu h => cases h with | writing hr hm => exact ⟨_, _, _, _, _, hop, hu, hm, rfl, hr⟩
  | reading hop hes hp => exact (hp _ _ rfl).elim

/-- What precedes an audit insert: the request's own write, which returned. -/
inductive Audits (C : Chrono Time) (op : Op) (user : AuthUser) :
    List (DbEvent Time) → String → String → String → Prop
  | create {input i x db task} (hop : op = .createTask (.ok input))
      (hw : ((DbCall.createTask user.username input).exec C x db).1 = .ok task) :
      Audits C op user [⟨i, .createTask user.username input, x, db⟩] "create" task.id
        ("title=" ++ task.title)
  | update {id input i x db existing j y db' updated} (hop : op = .updateTask (.ok id) (.ok input))
      (hr : ((DbCall.getTask id).exec C x db).1 = .ok (some existing))
      (hw : ((DbCall.updateTask existing input).exec C y db').1 = .ok updated) :
      Audits C op user [⟨i, .getTask id, x, db⟩, ⟨j, .updateTask existing input, y, db'⟩] "update"
        updated.id ("status=" ++ updated.status.asStr)
  | delete {id i x db existing j y db' removed} (hop : op = .deleteTask (.ok id))
      (hr : ((DbCall.getTask id).exec C x db).1 = .ok (some existing))
      (hw : ((DbCall.deleteTask id).exec C y db').1 = .ok removed) :
      Audits C op user [⟨i, .getTask id, x, db⟩, ⟨j, .deleteTask id, y, db'⟩] "delete" id ""

section Audits

variable {op : Op} {user : AuthUser} {es : List (DbEvent Time)} {action entityId detail : String}

theorem Audits.of_create {C : Chrono Time} (h : Audits C op user es action entityId detail)
    (ha : action = "create") : ∃ i input x db task, op = .createTask (.ok input) ∧
      es = [⟨i, .createTask user.username input, x, db⟩] ∧
      ((DbCall.createTask user.username input).exec C x db).1 = .ok task ∧ entityId = task.id := by
  cases h with
  | create hop hw => exact ⟨_, _, _, _, _, hop, rfl, hw, rfl⟩
  | update => exact absurd ha (by decide)
  | delete => exact absurd ha (by decide)

theorem Audits.of_update {C : Chrono Time} (h : Audits C op user es action entityId detail)
    (ha : action = "update") : ∃ id input i x db existing j y db' updated,
      op = .updateTask (.ok id) (.ok input) ∧
      es = [⟨i, .getTask id, x, db⟩, ⟨j, .updateTask existing input, y, db'⟩] ∧
      ((DbCall.getTask id).exec C x db).1 = .ok (some existing) ∧
      ((DbCall.updateTask existing input).exec C y db').1 = .ok updated ∧
      entityId = updated.id ∧ detail = "status=" ++ updated.status.asStr := by
  cases h with
  | create => exact absurd ha (by decide)
  | update hop hr hw => exact ⟨_, _, _, _, _, _, _, _, _, _, hop, rfl, hr, hw, rfl, rfl⟩
  | delete => exact absurd ha (by decide)

theorem Audits.of_delete {C : Chrono Time} (h : Audits C op user es action entityId detail)
    (ha : action = "delete") : ∃ i x db existing j y db' removed, op = .deleteTask (.ok entityId) ∧
      es = [⟨i, .getTask entityId, x, db⟩, ⟨j, .deleteTask entityId, y, db'⟩] ∧
      ((DbCall.getTask entityId).exec C x db).1 = .ok (some existing) ∧
      ((DbCall.deleteTask entityId).exec C y db').1 = .ok removed := by
  cases h with
  | create => exact absurd ha (by decide)
  | update => exact absurd ha (by decide)
  | delete hop hr hw => exact ⟨_, _, _, _, _, _, _, _, hop, rfl, hr, hw⟩

end Audits

/-- A request about to insert an audit event has made its write, and the event names its principal,
its action and its task. -/
theorem next_recordAudit (hw : Reach (server C state) db w) {actor action entityType entityId detail k}
    (hi : w.Has i ⟨a, .call (.recordAudit actor action entityType entityId detail) k⟩) : ∃ user,
      a.authUser C state = .ok user ∧ actor = user.username ∧ entityType = "task" ∧
      Audits C.chrono a.op user (w.own i) action entityId detail := by
  have hs := stage_of_reach hw hi
  generalize w.own i = es at hs
  cases hs with
  | create hop hu h => cases h with | auditing hv hw => exact ⟨_, hu, rfl, rfl, .create hop hw⟩
  | update hop hu h => cases h with | auditing hr hw => exact ⟨_, hu, rfl, rfl, .update hop hr hw⟩
  | delete hop hu h => cases h with | auditing hr hw => exact ⟨_, hu, rfl, rfl, .delete hop hr hw⟩
  | reading hop hes hp => exact (hp _ _ rfl).elim

/-- A request about to make a call that writes carries an accepted token. -/
theorem next_write (hw : Reach (server C state) db w) {c : DbCall Time} {k}
    (hi : w.Has i ⟨a, .call c k⟩) (hc : ¬ c.Reads) : ∃ user, a.authUser C state = .ok user := by
  have hs := stage_of_reach hw hi
  generalize w.own i = es at hs
  cases hs with
  | create hop hu h => exact ⟨_, hu⟩
  | update hop hu h => exact ⟨_, hu⟩
  | delete hop hu h => exact ⟨_, hu⟩
  | reading hop hes hp => exact (hc (hp _ _ rfl)).elim

end Next

/-! ### Rows along a run -/

/-- The columns no statement sets after the INSERT. -/
def TaskRow.identity (r : TaskRow) : String × String × String := (r.id, r.owner, r.createdAt)

@[simp] theorem setRow_identity (C : Chrono Time) (t : Task Time) (r : TaskRow) :
    (setRow C t r).identity = r.identity := rfl

theorem Db.write_identity (C : Chrono Time) (t : Task Time) (db : Db) :
    (db.write C t).task.rows.map TaskRow.identity = db.task.rows.map TaskRow.identity :=
  Table.map_update (setRow_id C t) (setRow_identity C t)

/-- What a call does to the identities of the rows: they stay, in their places, except that some may
go and one, under the call's own UUID, may be appended. -/
theorem exec_identity (C : Chrono Time) (c : DbCall Time) (x : Input Time) (db : Db) :
    ((c.exec C x db).2.task.rows.map TaskRow.identity).Sublist (db.task.rows.map TaskRow.identity) ∨
      ∃ r, c.drawn x = some r.id ∧ (c.exec C x db).2.task.rows = db.task.rows ++ [r] := by
  have he := DbCall.exec_effect C x db c
  generalize (c.exec C x db).2 = db' at he ⊢
  cases he with
  | none => exact .inl (.refl _)
  | create h ht => exact .inr ⟨_, rfl, Table.insert_rows ht⟩
  | update h =>
    refine .inl ?_
    rw [Db.write_identity]
  | delete h => exact .inl (List.filter_sublist.map _)
  | audit h ha => exact .inl (.refl _)

/-- Every row after a call was there before, with the same identity, or has the UUID the call drew. -/
theorem exec_row {C : Chrono Time} {c : DbCall Time} {x : Input Time} {db : Db} {r' : TaskRow}
    (hr' : r' ∈ (c.exec C x db).2.task.rows) :
    (∃ r ∈ db.task.rows, r.identity = r'.identity) ∨ c.drawn x = some r'.id := by
  rcases exec_identity C c x db with h | ⟨r, hr, h⟩
  · obtain ⟨r, hr, he⟩ := List.mem_map.mp (h.subset (List.mem_map_of_mem hr'))
    exact .inl ⟨r, hr, he⟩
  · rw [h] at hr'
    rcases List.mem_append.mp hr' with hr' | hr'
    · exact .inl ⟨r', hr', rfl⟩
    · rw [List.mem_singleton] at hr'
      exact .inr (hr' ▸ hr)

theorem identity_id {r r' : TaskRow} (h : r.identity = r'.identity) : r.id = r'.id :=
  congrArg Prod.fst h

/-- An id that is in use and not in the table stays out of it. -/
theorem exec_gone {C : Chrono Time} {c : DbCall Time} {x : Input Time} {db : Db} {id : String}
    (hid : c.drawn x ≠ some id) (h : db.task.find? id = none) : (c.exec C x db).2.task.find? id = none := by
  rw [Table.find?_eq_none] at h ⊢
  intro r' hr' he
  rcases exec_row hr' with ⟨r, hr, hrr⟩ | hu
  · exact h r hr ((identity_id hrr).trans he)
  · exact hid (hu.trans (congrArg some he))

/-- A call that neither deletes nor updates a row leaves it as it is. -/
theorem exec_frame {C : Chrono Time} {c : DbCall Time} {x : Input Time} {db : Db} {id : String}
    {r : TaskRow} (h : db.task.find? id = some r) (hdelete : c ≠ .deleteTask id)
    (hupdate : ∀ existing input, c = .updateTask existing input → existing.id ≠ id) :
    (c.exec C x db).2.task.find? id = some r := by
  have he := DbCall.exec_effect C x db c
  generalize (c.exec C x db).2 = db' at he ⊢
  cases he with
  | none => exact h
  | create hx ht =>
    obtain ⟨hr, hid⟩ := Table.find?_eq_some.mp h
    refine Table.find?_eq_some.mpr ⟨?_, hid⟩
    rw [Table.insert_rows ht]
    exact List.mem_append_left _ hr
  | @update existing input hx =>
    have hne : id ≠ (Db.mergeTask existing input x.now).id :=
      fun he => hupdate existing input rfl he.symm
    exact (Db.find?_write.trans (if_neg hne)).trans h
  | @delete id' hx =>
    have hne : id ≠ id' := fun he => hdelete (he ▸ rfl)
    exact (Table.find?_delete.trans (if_neg hne)).trans h
  | audit hx ha => exact h

/-- A run that neither deletes nor updates a row leaves it as it is. -/
theorem steps_frame {C : Crates Time} {state : AppState} {v w : ServerWorld Time}
    (h : Steps (server C state) v w) {id : String} {r : TaskRow} (hr : v.db.task.find? id = some r)
    (hkeep : ∀ e ∈ w.since v, e.call ≠ .deleteTask id ∧
      ∀ existing input, e.call = .updateTask existing input → existing.id ≠ id) :
    w.db.task.find? id = some r := by
  refine Steps.log_inv h (H := fun l => ∀ e ∈ l, e.call ≠ .deleteTask id ∧
      ∀ existing input, e.call = .updateTask existing input → existing.id ≠ id)
    (I := fun db _ => db.task.find? id = some r) (fun hl hH e he => hH e (hl.subset he)) hr ?_ hkeep
  intro w i a c k _ _ x hH ih
  obtain ⟨hdelete, hupdate⟩ := hH ⟨i, c, x, w.db⟩ (by simp)
  exact exec_frame ih hdelete hupdate

section Rows

variable {C : Crates Time} {state : AppState} {w w' : ServerWorld Time}

/-- Every id in either table, now or when some call was made, was drawn by some call. -/
theorem ids_used (hw : Reach (server C state) Db.empty w) :
    (∀ r ∈ w.db.task.rows, r.id ∈ usedIds w.log) ∧
      (∀ r ∈ w.db.auditEvent.rows, r.id ∈ usedIds w.log) ∧
      ∀ e ∈ w.log, ∀ r ∈ e.before.task.rows, r.id ∈ usedIds w.log := by
  refine Reach.log_inv hw (H := fun _ => True) (I := fun (db : Db) log =>
    (∀ r ∈ db.task.rows, r.id ∈ usedIds log) ∧ (∀ r ∈ db.auditEvent.rows, r.id ∈ usedIds log) ∧
      ∀ e ∈ log, ∀ r ∈ e.before.task.rows, r.id ∈ usedIds log)
    (fun _ _ => trivial) (by simp [Db.empty]) ?_ trivial
  rintro w i a c k _ _ x _ ⟨htask, haudit, hbefore⟩
  simp only [usedIds_concat, List.mem_append, List.mem_singleton, Option.mem_toList]
  refine ⟨fun r' hr' => ?_, fun r' hr' => ?_, ?_⟩
  · rcases exec_row hr' with ⟨r, hr, hrr⟩ | hu
    · exact .inl (identity_id hrr ▸ htask r hr)
    · exact .inr hu
  · have he := DbCall.exec_effect C.chrono x w.db c
    change r' ∈ (c.exec C.chrono x w.db).2.auditEvent.rows at hr'
    generalize (c.exec C.chrono x w.db).2 = db' at he hr'
    cases he with
    | audit h ha =>
      rw [Table.insert_rows ha] at hr'
      rcases List.mem_append.mp hr' with hr' | hr'
      · exact .inl (haudit r' hr')
      · rw [List.mem_singleton] at hr'
        exact .inr (by rw [hr']; rfl)
    | _ => exact .inl (haudit r' hr')
  · rintro e (he | rfl) r hr
    · exact .inl (hbefore e he r hr)
    · exact .inl (htask r hr)

/-- **Identities are for ever.**  A row with the id of a row of an earlier world of the run is that
row: same owner, same creation time. -/
theorem identity_of_id (hw : Reach (server C state) Db.empty w) (h : Steps (server C state) w w')
    (hfresh : FreshIds w'.log) {r r' : TaskRow} (hr : r ∈ w.db.task.rows)
    (hr' : r' ∈ w'.db.task.rows) (hid : r'.id = r.id) : r'.identity = r.identity := by
  have key : ∀ r' ∈ w'.db.task.rows, (∃ r ∈ w.db.task.rows, r.identity = r'.identity) ∨
      r'.id ∉ usedIds w.log := by
    refine Steps.inv h (H := fun w => FreshIds w.log)
      (I := fun v => ∀ r' ∈ v.db.task.rows, (∃ r ∈ w.db.task.rows, r.identity = r'.identity) ∨
        r'.id ∉ usedIds w.log) (fun hs hf => hf.earlier hs.log_mono)
      (fun _ r' hr' => .inl ⟨r', hr', rfl⟩) ?_ hfresh
    intro v v' hv hs hf ih r' hr'
    cases hs with
    | arrive a => exact ih r' hr'
    | call hi x =>
      rcases exec_row hr' with ⟨r, hr, hrr⟩ | hu
      · rcases ih r hr with ⟨r₀, hr₀, h₀⟩ | hn
        · exact .inl ⟨r₀, hr₀, h₀.trans hrr⟩
        · exact .inr (identity_id hrr ▸ hn)
      · exact .inr fun hmem => hf.last hu ((hv.log_mono.filterMap _).subset hmem)
  rcases key r' hr' with ⟨r₀, hr₀, h₀⟩ | hn
  · rw [Table.eq_of_key hr hr₀ (hid.symm.trans (identity_id h₀).symm), h₀]
  · exact absurd ((ids_used hw).1 r hr) (hid ▸ hn)

/-- What was read of a task stays true of its row as far as the identity goes. -/
theorem identity_of_read (hw : Reach (server C state) Db.empty w) (hfresh : FreshIds w.log) {j id x d}
    {task : Task Time} (he : ⟨j, .getTask id, x, d⟩ ∈ w.log)
    (hr : ((DbCall.getTask id).exec C.chrono x d).1 = .ok (some task)) :
    ∃ r₀, d.task.find? id = some r₀ ∧ task = rowToTask C.chrono x.now r₀ ∧ id ∈ usedIds w.log ∧
      ∀ r ∈ w.db.task.rows, r.id = id → r.identity = r₀.identity := by
  obtain ⟨-, hfound⟩ := DbCall.exec_getTask.mp hr
  obtain ⟨r₀, hr₀, rfl⟩ := Option.map_eq_some_iff.mp hfound.symm
  obtain ⟨hmem, hid⟩ := Table.find?_eq_some.mp hr₀
  obtain ⟨w₀, a, k, hw₀, hi, hdb, hsteps⟩ := hw.event he
  refine ⟨r₀, hr₀, rfl, hid ▸ (ids_used hw).2.2 _ he r₀ hmem, fun r hr hrid => ?_⟩
  exact identity_of_id hw₀ (.head (.call hi x) hsteps) hfresh (hdb ▸ hmem) hr (hrid.trans hid.symm)

end Rows

end SecureLedger
