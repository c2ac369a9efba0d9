import SecureLedger.Error

/-!
# Auth — passwords, seeded users and tokens

The crates that are not part of the repository enter as parameters: `Chrono`, `Jwt`, `Argon2`,
together `Crates`.  What a result relies on of them is a named property here and a hypothesis there.
-/

namespace SecureLedger

/-- JWT lifetime in seconds. -/
def tokenTtlSeconds : ℤ := 3600

/-- JWT claims. -/
structure Claims where
  sub : String
  role : String
  exp : ℤ
  iat : ℤ
  deriving DecidableEq, Repr

def Claims.getRole (self : Claims) : Option Role := Role.fromStr self.role

/-! ### The crates -/

/-- `chrono`: UTC instants, their RFC 3339 texts and their Unix seconds. -/
structure Chrono (Time : Type) where
  toRfc3339 : Time → String
  parseFromRfc3339 : String → Option Time
  addSeconds : Time → ℤ → Time
  timestamp : Time → ℤ

/-- `jsonwebtoken::Validation`, the fields that matter here. -/
structure Validation where
  validateExp : Bool
  validateNbf : Bool
  leeway : ℕ

/-- `Validation::default()`. -/
def Validation.default : Validation := ⟨true, false, 60⟩

/-- `jsonwebtoken`: `encode claims secret` and `decode token secret validation now`, `now` being
the Unix second at which the token is checked. -/
structure Jwt where
  encode : Claims → String → Except String String
  decode : String → String → Validation → ℤ → Except String Claims

/-- `argon2`: `hash salt plain`, whether a text is a PHC string, and `verify plain stored`. -/
structure Argon2 where
  hash : String → String → Except String String
  isPhc : String → Bool
  verify : String → String → Bool

structure Crates (Time : Type) where
  chrono : Chrono Time
  jwt : Jwt
  argon2 : Argon2

/-- `parse_from_rfc3339` accepts what `to_rfc3339` prints. -/
def Chrono.Accepts {Time : Type} (C : Chrono Time) : Prop :=
  ∀ t, (C.parseFromRfc3339 (C.toRfc3339 t)).isSome

/-- `parse_from_rfc3339` inverts `to_rfc3339`. -/
def Chrono.RoundTrips {Time : Type} (C : Chrono Time) : Prop :=
  ∀ t, C.parseFromRfc3339 (C.toRfc3339 t) = some t

/-- `to_rfc3339` texts sort as the instants they print. -/
def Chrono.SortsText {Time : Type} [LT Time] (C : Chrono Time) : Prop :=
  ∀ t t', t < t' → C.toRfc3339 t < C.toRfc3339 t'

/-- Claims go through a token unchanged. -/
def Jwt.RoundTrips (J : Jwt) : Prop :=
  ∀ claims secret token v now claims', J.encode claims secret = .ok token →
    J.decode token secret v now = .ok claims' → claims' = claims

/-- With `nbf` not validated, time can only turn a valid token into an expired one. -/
def Jwt.OnlyExpires (J : Jwt) : Prop :=
  ∀ token secret v now now' claims, v.validateNbf = false → now ≤ now' →
    J.decode token secret v now' = .ok claims → J.decode token secret v now = .ok claims

theorem Chrono.RoundTrips.accepts {Time : Type} {C : Chrono Time} (h : C.RoundTrips) : C.Accepts :=
  fun t => by rw [h t]; rfl

variable {Time : Type} (C : Crates Time)

/-! ### Passwords and users -/

def hashPassword (salt plain : String) : Except AppError String :=
  match C.argon2.hash salt plain with
  | .ok hash => .ok hash
  | .error e => .error (.internal ("hash error: " ++ e))

def verifyPassword (plain storedHash : String) : Bool :=
  if C.argon2.isPhc storedHash then C.argon2.verify plain storedHash else false

/-- The two default users, under their names; `none` is the panic at startup. -/
def seedUsers (adminSalt userSalt : String) : Option (List (String × User)) :=
  match hashPassword C adminSalt "admin123", hashPassword C userSalt "user123" with
  | .ok adminHash, .ok userHash =>
    some [("admin", ⟨"admin", adminHash, .admin⟩), ("user", ⟨"user", userHash, .user⟩)]
  | _, _ => none

/-- Shared application state: the signing secret and the seeded users. -/
structure AppState where
  jwtSecret : String
  users : List (String × User)

/-- A seeded user's record carries the name it is filed under. -/
theorem seedUsers_lookup {adminSalt userSalt : String} {users : List (String × User)}
    (h : seedUsers C adminSalt userSalt = some users) {name : String} {u : User}
    (hu : users.lookup name = some u) : u.username = name := by
  unfold seedUsers at h
  split at h
  · cases h
    simp only [List.lookup_cons, List.lookup_nil] at hu
    split at hu
    · next hn => cases hu; exact (beq_iff_eq.mp hn).symm
    · split at hu
      · next hn => cases hu; exact (beq_iff_eq.mp hn).symm
      · cases hu
  · cases h

/-! ### Tokens -/

def issueToken (secret username : String) (role : Role) (now : Time) : Except AppError String :=
  let exp := C.chrono.addSeconds now tokenTtlSeconds
  let claims : Claims := ⟨username, role.asStr, C.chrono.timestamp exp, C.chrono.timestamp now⟩
  match C.jwt.encode claims secret with
  | .ok token => .ok token
  | .error e => .error (.internal ("jwt encode error: " ++ e))

def decodeToken (secret token : String) (now : Time) : Except AppError Claims :=
  let validation := { Validation.default with validateExp := true }
  match C.jwt.decode token secret validation (C.chrono.timestamp now) with
  | .ok claims => .ok claims
  | .error _ => .error (.unauthorized "invalid or expired token")

variable {C}

theorem decodeToken_eq_ok {secret token : String} {now : Time} {claims : Claims} :
    decodeToken C secret token now = .ok claims ↔
      C.jwt.decode token secret { Validation.default with validateExp := true }
        (C.chrono.timestamp now) = .ok claims := by
  unfold decodeToken
  dsimp only
  split <;> simp_all

/-- What a token decodes to is what it was issued for. -/
theorem decodeToken_issueToken (hjwt : C.jwt.RoundTrips) {secret username token : String} {role : Role}
    {t t' : Time} {claims : Claims} (hi : issueToken C secret username role t = .ok token)
    (hd : decodeToken C secret token t' = .ok claims) :
    claims.sub = username ∧ claims.getRole = some role := by
  unfold issueToken at hi
  dsimp only at hi
  split at hi
  · next henc =>
    cases hi
    obtain rfl := hjwt _ _ _ _ _ _ henc (decodeToken_eq_ok.mp hd)
    exact ⟨rfl, Role.fromStr_asStr role⟩
  · cases hi

end SecureLedger
