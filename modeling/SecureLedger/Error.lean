import SecureLedger.Models

/-!
# Error — `AppError`, its HTTP form, and the responses handlers give
-/

namespace SecureLedger

/-- Application-wide error type. -/
inductive AppError where
  | badRequest (m : String)
  | unauthorized (m : String)
  | forbidden (m : String)
  | notFound (m : String)
  | tooManyRequests
  | internal (m : String)
  deriving DecidableEq, Repr

structure ErrorBody where
  error : String
  message : String
  deriving DecidableEq, Repr

/-- Status, code and message. -/
def AppError.parts : AppError → ℕ × String × String
  | .badRequest m => (400, "bad_request", m)
  | .unauthorized m => (401, "unauthorized", m)
  | .forbidden m => (403, "forbidden", m)
  | .notFound m => (404, "not_found", m)
  | .tooManyRequests => (429, "too_many_requests", "rate limit exceeded")
  | .internal m => (500, "internal", m)

/-- A failure of the pool or of SQLite, with the library's own text. -/
inductive DbFault where
  | pool (e : String)
  | sqlite (e : String)
  deriving DecidableEq, Repr

/-- `From<r2d2::Error>` and `From<rusqlite::Error>`. -/
def DbFault.toAppError : DbFault → AppError
  | .pool e => .internal ("pool error: " ++ e)
  | .sqlite e => .internal ("database error: " ++ e)

/-- Response bodies.  `rejection` is the text of a framework extractor that refused the request. -/
inductive Payload (Time : Type) where
  | empty
  | rejection
  | error (body : ErrorBody)
  | login (body : LoginResponse)
  | task (body : Task Time)
  | tasks (body : List (Task Time))
  | events (body : List (AuditEvent Time))
  | probe (body : List (String × String))
  deriving DecidableEq

structure Response (Time : Type) where
  status : ℕ
  body : Payload Time
  deriving DecidableEq

variable {Time : Type}

def AppError.intoResponse (e : AppError) : Response Time :=
  ⟨e.parts.1, .error ⟨e.parts.2.1, e.parts.2.2⟩⟩

@[simp] theorem AppError.intoResponse_status (e : AppError) :
    (e.intoResponse : Response Time).status = e.parts.1 := rfl

/-- The response is a 2xx. -/
def Response.Success (r : Response Time) : Prop := 200 ≤ r.status ∧ r.status < 300

instance (r : Response Time) : Decidable r.Success := inferInstanceAs (Decidable (_ ∧ _))

/-- No error is reported as a success. -/
theorem AppError.not_success (e : AppError) : ¬ (e.intoResponse : Response Time).Success := by
  cases e <;> simp [Response.Success, parts]

end SecureLedger
