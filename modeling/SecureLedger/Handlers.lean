import SecureLedger.Db
import SecureLedger.Extract
import SecureLedger.Lib.Atomic

/-!
# Handlers — the request handlers as programs of atomic database calls

Each handler is the sequence of its `db` calls; `tryCall` and `tryResult` are the two uses of `?`,
with the error turned into its response.  `handle` puts the framework around a handler: the
extractors in parameter order, the first that refuses answering the request.
`server` is the resulting system of interleaved requests.
-/

namespace SecureLedger

open Atomic

/-! ### Query parameters -/

structure Pagination where
  limit : Option ℤ
  offset : Option ℤ

def clampLimit (limit : Option ℤ) : ℤ := max 1 (min (limit.getD 50) 500)

def clampOffset (offset : Option ℤ) : ℤ := max (offset.getD 0) 0

theorem limitOffset_clamp {α : Type} (limit : Option ℤ) (offset : ℤ) (rows : List α) :
    limitOffset (clampLimit limit) offset rows = (rows.drop offset.toNat).take (clampLimit limit).toNat := by
  refine if_neg ?_
  unfold clampLimit
  omega

structure AuditQuery where
  actor : Option String
  action : Option String
  limit : Option ℤ

/-! ### The `?` operator -/

/-- Programs of database calls. -/
abbrev DbProg (Time α : Type) := Prog (DbCall Time) DbCall.Reply α

variable {Time : Type}

/-- `x?` for a call of `db`: continue with its value, or answer its error. -/
def tryCall (c : DbCall Time) (f : c.Ret → DbProg Time (Response Time)) : DbProg Time (Response Time) :=
  .call c fun
    | .ok a => f a
    | .error e => .ret e.intoResponse

/-- `x?` for a plain result. -/
def tryResult {α : Type} (x : Except AppError α) (f : α → DbProg Time (Response Time)) :
    DbProg Time (Response Time) :=
  match x with
  | .ok a => f a
  | .error e => .ret e.intoResponse

/-- `Option::ok_or_else`. -/
def okOr {α : Type} (found : Option α) (e : AppError) : Except AppError α :=
  match found with
  | some a => .ok a
  | none => .error e

/-- `Result::map_err(AppError::BadRequest)`. -/
def orBadRequest {α : Type} : Except String α → Except AppError α
  | .ok a => .ok a
  | .error m => .error (.badRequest m)

namespace Handlers

/-! ### Auth -/

def login (C : Crates Time) (state : AppState) (now : Time) (req : LoginRequest) :
    DbProg Time (Response Time) :=
  tryResult (okOr (state.users.lookup req.username) (.unauthorized "invalid credentials")) fun user =>
  if !verifyPassword C req.password user.passwordHash then
    .ret (AppError.unauthorized "invalid credentials").intoResponse
  else
  tryResult (issueToken C state.jwtSecret user.username user.role now) fun token =>
  .ret ⟨200, .login ⟨token, "Bearer", tokenTtlSeconds, user.role.asStr⟩⟩

/-! ### Tasks -/

def listTasks (p : Pagination) : DbProg Time (Response Time) :=
  tryCall (.listTasks (clampLimit p.limit) (clampOffset p.offset)) fun tasks =>
  .ret ⟨200, .tasks tasks⟩

def getTask (id : String) : DbProg Time (Response Time) :=
  tryCall (.getTask id) fun found =>
  tryResult (okOr found (.notFound "task not found")) fun task =>
  .ret ⟨200, .task task⟩

def createTask (user : AuthUser) (input : CreateTask) : DbProg Time (Response Time) :=
  tryResult (orBadRequest input.validate) fun _ =>
  tryCall (.createTask user.username input) fun task =>
  tryCall (.recordAudit user.username "create" "task" task.id ("title=" ++ task.title)) fun _ =>
  .ret ⟨201, .task task⟩

def updateTask (user : AuthUser) (id : String) (input : UpdateTask) : DbProg Time (Response Time) :=
  tryResult (orBadRequest input.validate) fun _ =>
  tryCall (.getTask id) fun found =>
  tryResult (okOr found (.notFound "task not found")) fun existing =>
  if !user.isAdmin && existing.owner != user.username then
    .ret (AppError.forbidden "you may only modify your own tasks").intoResponse
  else
  tryCall (.updateTask existing input) fun updated =>
  tryCall (.recordAudit user.username "update" "task" updated.id
    ("status=" ++ updated.status.asStr)) fun _ =>
  .ret ⟨200, .task updated⟩

/-- The boolean `db::delete_task` returns is not looked at. -/
def deleteTask (user : AuthUser) (id : String) : DbProg Time (Response Time) :=
  tryCall (.getTask id) fun found =>
  tryResult (okOr found (.notFound "task not found")) fun existing =>
  if !user.isAdmin && existing.owner != user.username then
    .ret (AppError.forbidden "you may only delete your own tasks").intoResponse
  else
  tryCall (.deleteTask id) fun _ =>
  tryCall (.recordAudit user.username "delete" "task" id "") fun _ =>
  .ret ⟨204, .empty⟩

/-! ### Audit (admin only) -/

def listAudit (q : AuditQuery) : DbProg Time (Response Time) :=
  tryCall (.listAudit q.actor q.action (clampLimit q.limit)) fun events =>
  .ret ⟨200, .events events⟩

/-! ### Health -/

def healthz : DbProg Time (Response Time) := .ret ⟨200, .probe [("status", "ok")]⟩

def readyz : DbProg Time (Response Time) :=
  .call .ping fun
    | .ok _ => .ret ⟨200, .probe [("status", "ready")]⟩
    | .error _ => .ret ⟨503, .probe [("status", "not_ready"), ("reason", "database unavailable")]⟩

end Handlers

/-! ### Requests -/

/-- How `Path`, `Query` and `Json` refuse a request. -/
inductive Rejection where
  | badRequest
  | payloadTooLarge
  | unsupportedMediaType
  | unprocessableEntity
  | internal
  deriving DecidableEq, Repr

def Rejection.status : Rejection → ℕ
  | badRequest => 400
  | payloadTooLarge => 413
  | unsupportedMediaType => 415
  | unprocessableEntity => 422
  | internal => 500

def Rejection.intoResponse {Time : Type} (r : Rejection) : Response Time := ⟨r.status, .rejection⟩

theorem Rejection.not_success {Time : Type} (r : Rejection) :
    ¬ (r.intoResponse : Response Time).Success := by
  cases r <;> simp [Response.Success, intoResponse, status]

/-- What a framework extractor makes of its part of the request. -/
abbrev Extracted (α : Type) := Except Rejection α

/-- The routes, with what `Path`, `Query` and `Json` make of the request. -/
inductive Op where
  | login (body : Extracted LoginRequest)
  | listTasks (query : Extracted Pagination)
  | getTask (id : Extracted String)
  | createTask (body : Extracted CreateTask)
  | updateTask (id : Extracted String) (body : Extracted UpdateTask)
  | deleteTask (id : Extracted String)
  | listAudit (query : Extracted AuditQuery)
  | healthz
  | readyz

/-- A request, and the time at which its extractors run. -/
structure Arrival (Time : Type) where
  headers : HeaderMap
  op : Op
  now : Time

/-- Continue with an extracted value, or reject. -/
def withExtracted {α : Type} (x : Extracted α) (f : α → DbProg Time (Response Time)) :
    DbProg Time (Response Time) :=
  match x with
  | .ok a => f a
  | .error r => .ret r.intoResponse

variable (C : Crates Time) (state : AppState)

/-- The principal `AuthUser` finds in a request. -/
def Arrival.authUser (a : Arrival Time) : Except AppError AuthUser :=
  AuthUser.fromRequestParts C state a.headers a.now

/-- The program of a request. -/
def handle (a : Arrival Time) : DbProg Time (Response Time) :=
  match a.op with
  | .login body => withExtracted body fun req => Handlers.login C state a.now req
  | .listTasks query => tryResult (a.authUser C state) fun _ =>
      withExtracted query fun p => Handlers.listTasks p
  | .getTask id => tryResult (a.authUser C state) fun _ =>
      withExtracted id fun id => Handlers.getTask id
  | .createTask body => tryResult (a.authUser C state) fun user =>
      withExtracted body fun input => Handlers.createTask user input
  | .updateTask id body => tryResult (a.authUser C state) fun user =>
      withExtracted id fun id => withExtracted body fun input => Handlers.updateTask user id input
  | .deleteTask id => tryResult (a.authUser C state) fun user =>
      withExtracted id fun id => Handlers.deleteTask user id
  | .listAudit query => tryResult (AdminUser.fromRequestParts C state a.headers a.now) fun _ =>
      withExtracted query fun q => Handlers.listAudit q
  | .healthz => Handlers.healthz
  | .readyz => Handlers.readyz

/-- Requests over the database. -/
def server : System Db (Arrival Time) (DbCall Time) (Input Time) (Response Time) DbCall.Reply where
  start := handle C state
  exec := DbCall.exec C.chrono

abbrev ServerWorld (Time : Type) :=
  World Db (Arrival Time) (DbCall Time) (Input Time) (Response Time) (@DbCall.Reply Time)

abbrev DbEvent (Time : Type) := Event Db (DbCall Time) (Input Time)

end SecureLedger
