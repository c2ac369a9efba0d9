import SecureLedger.Auth

/-!
# Extract — the bearer token and the authenticated principals
-/

namespace SecureLedger

/-- Request headers in order, names in lower case, values as bytes. -/
abbrev HeaderMap := List (String × List UInt8)

/-- `HeaderMap::get`: the first value under a name. -/
def HeaderMap.get (headers : HeaderMap) (name : String) : Option (List UInt8) := headers.lookup name

/-- An authenticated principal derived from a validated Bearer JWT. -/
structure AuthUser where
  username : String
  role : Role
  claims : Claims
  deriving DecidableEq, Repr

def AuthUser.isAdmin (self : AuthUser) : Bool := self.role = .admin

def bearerToken (headers : HeaderMap) : Except AppError String :=
  match headers.get "authorization" with
  | none => .error (.unauthorized "missing Authorization header")
  | some header =>
    match Str.visibleAscii header with
    | none => .error (.unauthorized "invalid Authorization header")
    | some value =>
      match (Str.stripPrefix "Bearer " value).or (Str.stripPrefix "bearer " value) with
      | none => .error (.unauthorized "expected Bearer token")
      | some token => .ok (Str.trim token)

variable {Time : Type} (C : Crates Time) (state : AppState)

/-- `AuthUser::from_request_parts`, run at `now`. -/
def AuthUser.fromRequestParts (headers : HeaderMap) (now : Time) : Except AppError AuthUser := do
  let token ← bearerToken headers
  let claims ← decodeToken C state.jwtSecret token now
  match claims.getRole with
  | none => .error (.unauthorized "unknown role in token")
  | some role => .ok ⟨claims.sub, role, claims⟩

/-- `AdminUser::from_request_parts`. -/
def AdminUser.fromRequestParts (headers : HeaderMap) (now : Time) : Except AppError AuthUser := do
  let user ← AuthUser.fromRequestParts C state headers now
  if user.role ≠ .admin then .error (.forbidden "admin role required") else .ok user

variable {C state} {headers : HeaderMap} {now : Time} {user : AuthUser}

/-- An accepted principal is what an accepted token says. -/
theorem AuthUser.fromRequestParts_eq_ok : AuthUser.fromRequestParts C state headers now = .ok user ↔
    ∃ token, bearerToken headers = .ok token ∧
      decodeToken C state.jwtSecret token now = .ok user.claims ∧
      user.username = user.claims.sub ∧ user.claims.getRole = some user.role := by
  unfold AuthUser.fromRequestParts
  constructor
  · intro h
    cases ht : bearerToken headers with
    | error e => simp [ht, bind, Except.bind] at h
    | ok token =>
      cases hd : decodeToken C state.jwtSecret token now with
      | error e => simp [ht, hd, bind, Except.bind] at h
      | ok claims =>
        simp only [ht, hd, bind, Except.bind] at h
        split at h
        · cases h
        · next role hr => cases h; exact ⟨token, rfl, hd, rfl, hr⟩
  · rintro ⟨token, ht, hd, hname, hr⟩
    obtain ⟨username, role, claims⟩ := user
    simp only at hd hname hr
    simp [ht, hd, hr, hname, bind, Except.bind]

end SecureLedger
