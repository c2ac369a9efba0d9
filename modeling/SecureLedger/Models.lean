import SecureLedger.Lib.Str

/-!
# Models — roles, tasks, request bodies and audit events

The instants a clock can return are a type parameter `Time` throughout.
-/

namespace SecureLedger

/-- A user role for RBAC. -/
inductive Role where
  | admin
  | user
  deriving DecidableEq, Repr

namespace Role

def asStr : Role → String
  | admin => "admin"
  | user => "user"

def fromStr (s : String) : Option Role :=
  if s = "admin" then some admin else if s = "user" then some user else none

@[simp] theorem fromStr_asStr (r : Role) : fromStr r.asStr = some r := by
  cases r <;> decide

end Role

/-- A seeded user. -/
structure User where
  username : String
  passwordHash : String
  role : Role
  deriving DecidableEq, Repr

inductive TaskStatus where
  | todo
  | doing
  | done
  deriving DecidableEq, Repr

namespace TaskStatus

def asStr : TaskStatus → String
  | todo => "todo"
  | doing => "doing"
  | done => "done"

def fromStr (s : String) : Option TaskStatus :=
  if s = "todo" then some todo
  else if s = "doing" then some doing
  else if s = "done" then some done
  else none

@[simp] theorem fromStr_asStr (s : TaskStatus) : fromStr s.asStr = some s := by
  cases s <;> decide

/-- Only the three stored words decode. -/
theorem fromStr_eq_some {s : String} {st : TaskStatus} : fromStr s = some st ↔ s = st.asStr := by
  constructor
  · intro h
    unfold fromStr at h
    split_ifs at h with h1 h2 h3 <;> cases h
    · exact h1
    · exact h2
    · exact h3
  · rintro rfl
    exact fromStr_asStr st

end TaskStatus

structure Task (Time : Type) where
  id : String
  title : String
  description : String
  status : TaskStatus
  owner : String
  createdAt : Time
  updatedAt : Time
  deriving DecidableEq, Repr

/-- Request body for creating a task; an absent description is the empty text. -/
structure CreateTask where
  title : String
  description : String
  status : Option TaskStatus
  deriving DecidableEq, Repr

/-- Request body for updating a task (partial update). -/
structure UpdateTask where
  title : Option String
  description : Option String
  status : Option TaskStatus
  deriving DecidableEq, Repr

def CreateTask.validate (self : CreateTask) : Except String Unit :=
  let title := Str.trim self.title
  if Str.isEmpty title then .error "title must not be empty"
  else if 200 < Str.len title then .error "title must be at most 200 characters"
  else if 2000 < Str.len self.description then
    .error "description must be at most 2000 characters"
  else .ok ()

def UpdateTask.validate (self : UpdateTask) : Except String Unit := do
  match self.title with
  | some title =>
    let t := Str.trim title
    if Str.isEmpty t then .error "title must not be empty"
    else if 200 < Str.len t then .error "title must be at most 200 characters"
    else .ok ()
  | none => .ok ()
  match self.description with
  | some desc =>
    if 2000 < Str.len desc then .error "description must be at most 2000 characters" else .ok ()
  | none => .ok ()

/-- What both validators ask of a title: not blank, at most 200 bytes once trimmed. -/
def TitleOk (title : String) : Prop := 0 < Str.len (Str.trim title) ∧ Str.len (Str.trim title) ≤ 200

/-- What both validators ask of a description. -/
def DescriptionOk (description : String) : Prop := Str.len description ≤ 2000

theorem CreateTask.validate_eq_ok {self : CreateTask} :
    self.validate = .ok () ↔ TitleOk self.title ∧ DescriptionOk self.description := by
  simp only [validate, TitleOk, DescriptionOk, Str.isEmpty, decide_eq_true_eq]
  split_ifs <;> simp <;> omega

theorem UpdateTask.validate_eq_ok {self : UpdateTask} :
    self.validate = .ok () ↔ (∀ t ∈ self.title, TitleOk t) ∧
      ∀ d ∈ self.description, DescriptionOk d := by
  obtain ⟨title, description, status⟩ := self
  have hdesc : (match description with
      | some desc => if 2000 < Str.len desc then
          Except.error "description must be at most 2000 characters" else .ok ()
      | none => .ok ()) = Except.ok () ↔ ∀ d ∈ description, DescriptionOk d := by
    cases description <;> simp [DescriptionOk]
  rw [← hdesc]
  cases title with
  | none => simp [validate, bind, Except.bind]
  | some t =>
    simp only [validate, Str.isEmpty, decide_eq_true_eq, Option.mem_def, Option.some.injEq,
      forall_eq', TitleOk]
    by_cases h0 : Str.len (Str.trim t) = 0
    · simp [h0, bind, Except.bind]
    · by_cases h1 : 200 < Str.len (Str.trim t)
      · simp only [h0, h1, if_true, if_false, bind, Except.bind, reduceCtorEq, false_iff]
        exact fun h => absurd h.1.2 (by omega)
      · simp only [h0, h1, if_false, bind, Except.bind]
        exact (and_iff_right ⟨by omega, by omega⟩).symm

/-- An append-only audit event. -/
structure AuditEvent (Time : Type) where
  id : String
  actor : String
  action : String
  entityType : String
  entityId : String
  timestamp : Time
  detail : String
  deriving DecidableEq, Repr

structure LoginRequest where
  username : String
  password : String

structure LoginResponse where
  token : String
  tokenType : String
  expiresIn : ℤ
  role : String
  deriving DecidableEq

end SecureLedger
