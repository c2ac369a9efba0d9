import SecureLedger.Handlers

/-!
# Stages — where a request stands after its own calls

`CreateStage`, `UpdateStage` and `DeleteStage` list the points a mutating handler can be at, with
the calls it has made to get there and the replies it got; `Stage` covers every request.  The main
result, `stage_of_reach`, is that in every interleaving every request is at such a point: all later
invariants take what a request has done, and may do next, from it.
-/

namespace SecureLedger

open Atomic

variable {Time : Type}

/-- The ownership check of `update_task` and `delete_task`, passed. -/
def MayModify (user : AuthUser) (owner : String) : Prop := user.role = .admin ∨ owner = user.username

instance (user : AuthUser) (owner : String) : Decidable (MayModify user owner) :=
  inferInstanceAs (Decidable (_ ∨ _))

theorem not_mayModify {user : AuthUser} {owner : String} :
    (!user.isAdmin && owner != user.username) = true ↔ ¬ MayModify user owner := by
  simp [AuthUser.isAdmin, MayModify]

/-- The check with its branches the other way round. -/
theorem check_eq_ite {α : Type} (user : AuthUser) (owner : String) (refuse go : α) :
    (if !user.isAdmin && owner != user.username then refuse else go) =
      if MayModify user owner then go else refuse := by
  by_cases hm : MayModify user owner
  · rw [if_pos hm, if_neg fun hn => not_mayModify.mp hn hm]
  · rw [if_neg hm, if_pos (not_mayModify.mpr hm)]

/-- Calls that only read. -/
def DbCall.Reads : DbCall Time → Prop
  | .createTask .. | .updateTask .. | .deleteTask .. | .recordAudit .. => False
  | _ => True

theorem exec_reads {C : Chrono Time} {c : DbCall Time} (hc : c.Reads) (x : Input Time) (db : Db) :
    (c.exec C x db).2 = db := by
  have he := DbCall.exec_effect C x db c
  generalize (c.exec C x db).2 = db' at he ⊢
  cases he with
  | none => rfl
  | _ => exact hc.elim

/-- Operations that create, update or delete a task. -/
def Op.Mutates : Op → Prop
  | .createTask _ | .updateTask .. | .deleteTask _ => True
  | _ => False

section Stages

variable (C : Chrono Time) (user : AuthUser)

/-- Points of `create_task`. -/
inductive CreateStage (input : CreateTask) :
    List (DbEvent Time) → DbProg Time (Response Time) → Prop
  | invalid {m : String} (hv : input.validate = .error m) :
      CreateStage input [] (.ret (AppError.badRequest m).intoResponse)
  | writing {k} (hv : input.validate = .ok ()) :
      CreateStage input [] (.call (.createTask user.username input) k)
  | writeFailed {i x db e} (hv : input.validate = .ok ())
      (hw : ((DbCall.createTask user.username input).exec C x db).1 = .error e) :
      CreateStage input [⟨i, .createTask user.username input, x, db⟩] (.ret e.intoResponse)
  | auditing {i x db task k} (hv : input.validate = .ok ())
      (hw : ((DbCall.createTask user.username input).exec C x db).1 = .ok task) :
      CreateStage input [⟨i, .createTask user.username input, x, db⟩]
        (.call (.recordAudit user.username "create" "task" task.id ("title=" ++ task.title)) k)
  | auditFailed {i x db task j y db' e} (hv : input.validate = .ok ())
      (hw : ((DbCall.createTask user.username input).exec C x db).1 = .ok task)
      (ha : ((DbCall.recordAudit user.username "create" "task" task.id
        ("title=" ++ task.title)).exec C y db').1 = .error e) :
      CreateStage input [⟨i, .createTask user.username input, x, db⟩,
        ⟨j, .recordAudit user.username "create" "task" task.id ("title=" ++ task.title), y, db'⟩]
        (.ret e.intoResponse)
  | done {i x db task j y db'} (hv : input.validate = .ok ())
      (hw : ((DbCall.createTask user.username input).exec C x db).1 = .ok task)
      (ha : ((DbCall.recordAudit user.username "create" "task" task.id
        ("title=" ++ task.title)).exec C y db').1 = .ok ()) :
      CreateStage input [⟨i, .createTask user.username input, x, db⟩,
        ⟨j, .recordAudit user.username "create" "task" task.id ("title=" ++ task.title), y, db'⟩]
        (.ret ⟨201, .task task⟩)

/-- Points of `update_task`. -/
inductive UpdateStage (id : String) (input : UpdateTask) :
    List (DbEvent Time) → DbProg Time (Response Time) → Prop
  | invalid {m : String} (hv : input.validate = .error m) :
      UpdateStage id input [] (.ret (AppError.badRequest m).intoResponse)
  | reading {k} (hv : input.validate = .ok ()) : UpdateStage id input [] (.call (.getTask id) k)
  | readFailed {i x db e} (hr : ((DbCall.getTask id).exec C x db).1 = .error e) :
      UpdateStage id input [⟨i, .getTask id, x, db⟩] (.ret e.intoResponse)
  | notFound {i x db} (hr : ((DbCall.getTask id).exec C x db).1 = .ok none) :
      UpdateStage id input [⟨i, .getTask id, x, db⟩]
        (.ret (AppError.notFound "task not found").intoResponse)
  | forbidden {i x db existing} (hr : ((DbCall.getTask id).exec C x db).1 = .ok (some existing))
      (hm : ¬ MayModify user existing.owner) :
      UpdateStage id input [⟨i, .getTask id, x, db⟩]
        (.ret (AppError.forbidden "you may only modify your own tasks").intoResponse)
  | writing {i x db existing k} (hv : input.validate = .ok ())
      (hr : ((DbCall.getTask id).exec C x db).1 = .ok (some existing))
      (hm : MayModify user existing.owner) :
      UpdateStage id input [⟨i, .getTask id, x, db⟩] (.call (.updateTask existing input) k)
  | writeFailed {i x db existing j y db' e}
      (hr : ((DbCall.getTask id).exec C x db).1 = .ok (some existing))
      (hw : ((DbCall.updateTask existing input).exec C y db').1 = .error e) :
      UpdateStage id input [⟨i, .getTask id, x, db⟩, ⟨j, .updateTask existing input, y, db'⟩]
        (.ret e.intoResponse)
  | auditing {i x db existing j y db' updated k}
      (hr : ((DbCall.getTask id).exec C x db).1 = .ok (some existing))
      (hw : ((DbCall.updateTask existing input).exec C y db').1 = .ok updated) :
      UpdateStage id input [⟨i, .getTask id, x, db⟩, ⟨j, .updateTask existing input, y, db'⟩]
        (.call (.recordAudit user.username "update" "task" updated.id
          ("status=" ++ updated.status.asStr)) k)
  | auditFailed {i x db existing j y db' updated l z db'' e}
      (hr : ((DbCall.getTask id).exec C x db).1 = .ok (some existing))
      (hw : ((DbCall.updateTask existing input).exec C y db').1 = .ok updated)
      (ha : ((DbCall.recordAudit user.username "update" "task" updated.id
        ("status=" ++ updated.status.asStr)).exec C z db'').1 = .error e) :
      UpdateStage id input [⟨i, .getTask id, x, db⟩, ⟨j, .updateTask existing input, y, db'⟩,
        ⟨l, .recordAudit user.username "update" "task" updated.id
          ("status=" ++ updated.status.asStr), z, db''⟩] (.ret e.intoResponse)
  | done {i x db existing j y db' updated l z db''}
      (hr : ((DbCall.getTask id).exec C x db).1 = .ok (some existing))
      (hw : ((DbCall.updateTask existing input).exec C y db').1 = .ok updated)
      (ha : ((DbCall.recordAudit user.username "update" "task" updated.id
        ("status=" ++ updated.status.asStr)).exec C z db'').1 = .ok ()) :
      UpdateStage id input [⟨i, .getTask id, x, db⟩, ⟨j, .updateTask existing input, y, db'⟩,
        ⟨l, .recordAudit user.username "update" "task" updated.id
          ("status=" ++ updated.status.asStr), z, db''⟩] (.ret ⟨200, .task updated⟩)

/-- Points of `delete_task`. -/
inductive DeleteStage (id : String) : List (DbEvent Time) → DbProg Time (Response Time) → Prop
  | reading {k} : DeleteStage id [] (.call (.getTask id) k)
  | readFailed {i x db e} (hr : ((DbCall.getTask id).exec C x db).1 = .error e) :
      DeleteStage id [⟨i, .getTask id, x, db⟩] (.ret e.intoResponse)
  | notFound {i x db} (hr : ((DbCall.getTask id).exec C x db).1 = .ok none) :
      DeleteStage id [⟨i, .getTask id, x, db⟩]
        (.ret (AppError.notFound "task not found").intoResponse)
  | forbidden {i x db existing} (hr : ((DbCall.getTask id).exec C x db).1 = .ok (some existing))
      (hm : ¬ MayModify user existing.owner) :
      DeleteStage id [⟨i, .getTask id, x, db⟩]
        (.ret (AppError.forbidden "you may only delete your own tasks").intoResponse)
  | writing {i x db existing k} (hr : ((DbCall.getTask id).exec C x db).1 = .ok (some existing))
      (hm : MayModify user existing.owner) :
      DeleteStage id [⟨i, .getTask id, x, db⟩] (.call (.deleteTask id) k)
  | writeFailed {i x db existing j y db' e}
      (hr : ((DbCall.getTask id).exec C x db).1 = .ok (some existing))
      (hw : ((DbCall.deleteTask id).exec C y db').1 = .error e) :
      DeleteStage id [⟨i, .getTask id, x, db⟩, ⟨j, .deleteTask id, y, db'⟩] (.ret e.intoResponse)
  | auditing {i x db existing j y db' removed k}
      (hr : ((DbCall.getTask id).exec C x db).1 = .ok (some existing))
      (hw : ((DbCall.deleteTask id).exec C y db').1 = .ok removed) :
      DeleteStage id [⟨i, .getTask id, x, db⟩, ⟨j, .deleteTask id, y, db'⟩]
        (.call (.recordAudit user.username "delete" "task" id "") k)
  | auditFailed {i x db existing j y db' removed l z db'' e}
      (hr : ((DbCall.getTask id).exec C x db).1 = .ok (some existing))
      (hw : ((DbCall.deleteTask id).exec C y db').1 = .ok removed)
      (ha : ((DbCall.recordAudit user.username "delete" "task" id "").exec C z db'').1 = .error e) :
      DeleteStage id [⟨i, .getTask id, x, db⟩, ⟨j, .deleteTask id, y, db'⟩,
        ⟨l, .recordAudit user.username "delete" "task" id "", z, db''⟩] (.ret e.intoResponse)
  | done {i x db existing j y db' removed l z db''}
      (hr : ((DbCall.getTask id).exec C x db).1 = .ok (some existing))
      (hw : ((DbCall.deleteTask id).exec C y db').1 = .ok removed)
      (ha : ((DbCall.recordAudit user.username "delete" "task" id "").exec C z db'').1 = .ok ()) :
      DeleteStage id [⟨i, .getTask id, x, db⟩, ⟨j, .deleteTask id, y, db'⟩,
        ⟨l, .recordAudit user.username "delete" "task" id "", z, db''⟩] (.ret ⟨204, .empty⟩)

end Stages

/-- Points of a request. -/
inductive Stage (C : Crates Time) (state : AppState) (a : Arrival Time) :
    List (DbEvent Time) → DbProg Time (Response Time) → Prop
  /-- An extractor refused it. -/
  | refused {r : Response Time} (hr : ¬ r.Success) : Stage C state a [] (.ret r)
  | create {user : AuthUser} {input : CreateTask} {es p} (hop : a.op = .createTask (.ok input))
      (hu : a.authUser C state = .ok user) (h : CreateStage C.chrono user input es p) :
      Stage C state a es p
  | update {user : AuthUser} {id : String} {input : UpdateTask} {es p}
      (hop : a.op = .updateTask (.ok id) (.ok input)) (hu : a.authUser C state = .ok user)
      (h : UpdateStage C.chrono user id input es p) : Stage C state a es p
  | delete {user : AuthUser} {id : String} {es p} (hop : a.op = .deleteTask (.ok id))
      (hu : a.authUser C state = .ok user) (h : DeleteStage C.chrono user id es p) :
      Stage C state a es p
  /-- It does not mutate: it has read, and may read more. -/
  | reading {es p} (hop : ¬ a.op.Mutates) (hes : ∀ e ∈ es, e.call.Reads)
      (hp : ∀ c k, p = .call c k → c.Reads) : Stage C state a es p

/-! ### Every request is at one of its points -/

section Follows

variable {C : Crates Time} {state : AppState} {user : AuthUser} {es : List (DbEvent Time)}
  {p : DbProg Time (Response Time)}

theorem follows_tryCall {c : DbCall Time} {f : c.Ret → DbProg Time (Response Time)}
    (h : Follows (server C state) (tryCall c f) es p) : (es = [] ∧ ∃ k, p = .call c k) ∨
      ∃ i x db es', es = ⟨i, c, x, db⟩ :: es' ∧
        ((∃ a, (c.exec C.chrono x db).1 = .ok a ∧ Follows (server C state) (f a) es' p) ∨
          ∃ e, (c.exec C.chrono x db).1 = .error e ∧ es' = [] ∧ p = .ret e.intoResponse) := by
  rcases follows_call.mp h with ⟨rfl, rfl⟩ | ⟨i, x, db, es', rfl, h'⟩
  · exact .inl ⟨rfl, _, rfl⟩
  · refine .inr ⟨i, x, db, es', rfl, ?_⟩
    cases hr : ((server C state).exec c x db).1 with
    | ok a => rw [hr] at h'; exact .inl ⟨a, hr, h'⟩
    | error e =>
      rw [hr] at h'
      obtain ⟨rfl, rfl⟩ := follows_ret.mp h'
      exact .inr ⟨e, hr, rfl, rfl⟩

/-- What the mutating handlers share: the write, and the audit of it. -/
theorem follows_written {c : DbCall Time} {actor action : String} {entityId detail : c.Ret → String}
    {resp : c.Ret → Response Time} {P : List (DbEvent Time) → DbProg Time (Response Time) → Prop}
    (h : Follows (server C state) (tryCall c fun a =>
      tryCall (.recordAudit actor action "task" (entityId a) (detail a)) fun _ => .ret (resp a)) es p)
    (hwriting : ∀ {k}, P [] (.call c k))
    (hwriteFailed : ∀ {i x db e}, (c.exec C.chrono x db).1 = .error e → P [⟨i, c, x, db⟩] (.ret e.intoResponse))
    (hauditing : ∀ {i x db a k}, (c.exec C.chrono x db).1 = .ok a →
      P [⟨i, c, x, db⟩] (.call (.recordAudit actor action "task" (entityId a) (detail a)) k))
    (hauditFailed : ∀ {i x db a j y db' e}, (c.exec C.chrono x db).1 = .ok a →
      ((DbCall.recordAudit actor action "task" (entityId a) (detail a)).exec C.chrono y db').1 = .error e →
      P [⟨i, c, x, db⟩, ⟨j, .recordAudit actor action "task" (entityId a) (detail a), y, db'⟩]
        (.ret e.intoResponse))
    (hdone : ∀ {i x db a j y db'}, (c.exec C.chrono x db).1 = .ok a →
      ((DbCall.recordAudit actor action "task" (entityId a) (detail a)).exec C.chrono y db').1 = .ok () →
      P [⟨i, c, x, db⟩, ⟨j, .recordAudit actor action "task" (entityId a) (detail a), y, db'⟩]
        (.ret (resp a))) :
    P es p := by
  rcases follows_tryCall h with ⟨rfl, k, rfl⟩ | ⟨i, x, db, es, rfl, ⟨a, hw, h⟩ | ⟨e, hw, rfl, rfl⟩⟩
  · exact hwriting
  · rcases follows_tryCall h with ⟨rfl, k, rfl⟩ | ⟨j, y, db', es, rfl, ⟨_, ha, h⟩ | ⟨e, ha, rfl, rfl⟩⟩
    · exact hauditing hw
    · obtain ⟨rfl, rfl⟩ := follows_ret.mp h
      exact hdone hw ha
    · exact hauditFailed hw ha
  · exact hwriteFailed hw

/-- What `update_task` and `delete_task` share: read the task and check who may modify it. -/
theorem follows_checked {id m : String} {f : Task Time → DbProg Time (Response Time)}
    {P : List (DbEvent Time) → DbProg Time (Response Time) → Prop}
    (h : Follows (server C state) (tryCall (.getTask id) fun found =>
      tryResult (okOr found (.notFound "task not found")) fun existing =>
      if !user.isAdmin && existing.owner != user.username then
        .ret (AppError.forbidden m).intoResponse
      else f existing) es p)
    (hreading : ∀ {k}, P [] (.call (.getTask id) k))
    (hreadFailed : ∀ {i x db e}, ((DbCall.getTask id).exec C.chrono x db).1 = .error e →
      P [⟨i, .getTask id, x, db⟩] (.ret e.intoResponse))
    (hnotFound : ∀ {i x db}, ((DbCall.getTask id).exec C.chrono x db).1 = .ok none →
      P [⟨i, .getTask id, x, db⟩] (.ret (AppError.notFound "task not found").intoResponse))
    (hforbidden : ∀ {i x db existing}, ((DbCall.getTask id).exec C.chrono x db).1 = .ok (some existing) →
      ¬ MayModify user existing.owner →
      P [⟨i, .getTask id, x, db⟩] (.ret (AppError.forbidden m).intoResponse))
    (hgo : ∀ {i x db existing es p}, ((DbCall.getTask id).exec C.chrono x db).1 = .ok (some existing) →
      MayModify user existing.owner → Follows (server C state) (f existing) es p →
      P (⟨i, .getTask id, x, db⟩ :: es) p) :
    P es p := by
  rcases follows_tryCall h with ⟨rfl, k, rfl⟩ |
    ⟨i, x, db, es, rfl, ⟨_ | existing, hr, h⟩ | ⟨e, hr, rfl, rfl⟩⟩
  · exact hreading
  · obtain ⟨rfl, rfl⟩ := follows_ret.mp h
    exact hnotFound hr
  · dsimp only [okOr, tryResult] at h
    rw [check_eq_ite] at h
    by_cases hm : MayModify user existing.owner
    · rw [if_pos hm] at h
      exact hgo hr hm h
    · rw [if_neg hm] at h
      obtain ⟨rfl, rfl⟩ := follows_ret.mp h
      exact hforbidden hr hm
  · exact hreadFailed hr

theorem createStage {input : CreateTask}
    (h : Follows (server C state) (Handlers.createTask user input) es p) :
    CreateStage C.chrono user input es p := by
  unfold Handlers.createTask at h
  cases hv : input.validate with
  | error m =>
    rw [hv] at h
    obtain ⟨rfl, rfl⟩ := follows_ret.mp h
    exact .invalid hv
  | ok _ =>
    rw [hv] at h
    exact follows_written h (.writing hv) (.writeFailed hv) (.auditing hv) (.auditFailed hv) (.done hv)

theorem updateStage {id : String} {input : UpdateTask}
    (h : Follows (server C state) (Handlers.updateTask user id input) es p) :
    UpdateStage C.chrono user id input es p := by
  unfold Handlers.updateTask at h
  cases hv : input.validate with
  | error m =>
    rw [hv] at h
    obtain ⟨rfl, rfl⟩ := follows_ret.mp h
    exact .invalid hv
  | ok _ =>
    rw [hv] at h
    refine follows_checked h (.reading hv) .readFailed .notFound .forbidden fun {i x db _ _ _} hr hm h => ?_
    exact follows_written (P := fun es p => UpdateStage C.chrono user id input (⟨i, .getTask id, x, db⟩ :: es) p) h
      (.writing hv hr hm) (.writeFailed hr) (.auditing hr) (.auditFailed hr) (.done hr)

theorem deleteStage {id : String} (h : Follows (server C state) (Handlers.deleteTask user id) es p) :
    DeleteStage C.chrono user id es p := by
  unfold Handlers.deleteTask at h
  refine follows_checked h .reading .readFailed .notFound .forbidden fun {i x db _ _ _} hr hm h => ?_
  exact follows_written (P := fun es p => DeleteStage C.chrono user id (⟨i, .getTask id, x, db⟩ :: es) p) h
    (.writing hr hm) (.writeFailed hr) (.auditing hr) (.auditFailed hr) (.done hr)

/-- Programs that only read. -/
inductive OnlyReads : DbProg Time (Response Time) → Prop
  | ret (r : Response Time) : OnlyReads (.ret r)
  | call {c : DbCall Time} {k} (hc : c.Reads) (hk : ∀ r, OnlyReads (k r)) : OnlyReads (.call c k)

theorem OnlyReads.tryCall {c : DbCall Time} {f : c.Ret → DbProg Time (Response Time)} (hc : c.Reads)
    (hf : ∀ a, OnlyReads (f a)) : OnlyReads (tryCall c f) := by
  refine .call hc fun r => ?_
  cases r with
  | ok a => exact hf a
  | error e => exact .ret _

theorem OnlyReads.tryResult {α : Type} {x : Except AppError α} {f : α → DbProg Time (Response Time)}
    (hf : ∀ a, OnlyReads (f a)) : OnlyReads (tryResult x f) := by
  cases x with
  | ok a => exact hf a
  | error e => exact .ret _

theorem OnlyReads.withExtracted {α : Type} {x : Extracted α} {f : α → DbProg Time (Response Time)}
    (hf : ∀ a, OnlyReads (f a)) : OnlyReads (withExtracted x f) := by
  cases x with
  | ok a => exact hf a
  | error e => exact .ret _

theorem OnlyReads.follows {q : DbProg Time (Response Time)} (hq : OnlyReads q)
    (h : Follows (server C state) q es p) : (∀ e ∈ es, e.call.Reads) ∧ OnlyReads p := by
  induction h with
  | nil p => exact ⟨by simp, hq⟩
  | cons _ ih =>
    cases hq with
    | call hc hk =>
      obtain ⟨hes, hp⟩ := ih (hk _)
      refine ⟨fun e he => ?_, hp⟩
      rcases List.mem_cons.mp he with rfl | he
      · exact hc
      · exact hes e he

theorem handle_onlyReads {a : Arrival Time} (hop : ¬ a.op.Mutates) : OnlyReads (handle C state a) := by
  obtain ⟨headers, op, now⟩ := a
  cases op with
  | login body =>
    refine .withExtracted fun req => .tryResult fun u => ?_
    split
    · exact .ret _
    · exact .tryResult fun token => .ret _
  | listTasks query =>
    exact .tryResult fun _ => .withExtracted fun p => .tryCall trivial fun _ => .ret _
  | getTask id =>
    exact .tryResult fun _ => .withExtracted fun id => .tryCall trivial fun _ =>
      .tryResult fun _ => .ret _
  | createTask body => exact absurd trivial hop
  | updateTask id body => exact absurd trivial hop
  | deleteTask id => exact absurd trivial hop
  | listAudit query =>
    exact .tryResult fun _ => .withExtracted fun p => .tryCall trivial fun _ => .ret _
  | healthz => exact .ret _
  | readyz =>
    refine .call trivial fun r => ?_
    cases r <;> exact .ret _

/-- What a program of `handle` has done and may do next, from the calls it has made. -/
theorem stage_of_follows {a : Arrival Time} (h : Follows (server C state) (handle C state a) es p) :
    Stage C state a es p := by
  have hrefused : ∀ {r : Response Time}, ¬ r.Success → Follows (server C state) (.ret r) es p →
      Stage C state a es p := by
    intro r hr h
    obtain ⟨rfl, rfl⟩ := follows_ret.mp h
    exact .refused hr
  by_cases hop : a.op.Mutates
  · have hu : ∀ {f}, Follows (server C state) (tryResult (a.authUser C state) f) es p →
        Stage C state a es p ∨ ∃ u, a.authUser C state = .ok u ∧ Follows (server C state) (f u) es p := by
      intro f h
      cases hau : a.authUser C state with
      | error e => rw [hau] at h; exact .inl (hrefused e.not_success h)
      | ok u => rw [hau] at h; exact .inr ⟨u, rfl, h⟩
    unfold handle at h
    split at h
    · next hopa => simp [hopa, Op.Mutates] at hop
    · next hopa => simp [hopa, Op.Mutates] at hop
    · next hopa => simp [hopa, Op.Mutates] at hop
    · next body hopa =>
      rcases hu h with h | ⟨u, hau, h⟩
      · exact h
      · cases body with
        | error r => exact hrefused r.not_success h
        | ok input => exact .create hopa hau (createStage h)
    · next id body hopa =>
      rcases hu h with h | ⟨u, hau, h⟩
      · exact h
      · cases id with
        | error r => exact hrefused r.not_success h
        | ok id =>
          cases body with
          | error r => exact hrefused r.not_success h
          | ok input => exact .update hopa hau (updateStage h)
    · next id hopa =>
      rcases hu h with h | ⟨u, hau, h⟩
      · exact h
      · cases id with
        | error r => exact hrefused r.not_success h
        | ok id => exact .delete hopa hau (deleteStage h)
    · next hopa => simp [hopa, Op.Mutates] at hop
    · next hopa => simp [hopa, Op.Mutates] at hop
    · next hopa => simp [hopa, Op.Mutates] at hop
  · obtain ⟨hes, hp⟩ := (handle_onlyReads hop).follows h
    refine .reading hop hes fun c k hc => ?_
    subst hc
    cases hp with
    | call hc _ => exact hc

/-- **In every interleaving, every request is at one of its points.** -/
theorem stage_of_reach {db : Db} {w : ServerWorld Time} (hw : Reach (server C state) db w) {i : ℕ}
    {th : Thread (Arrival Time) (DbCall Time) (Response Time) DbCall.Reply} (hi : w.Has i th) :
    Stage C state th.req (w.own i) th.prog :=
  stage_of_follows (hw.follows hi)

end Follows

end SecureLedger
