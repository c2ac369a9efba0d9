import SecureLedger.Handlers
import SecureLedger.Lib.Keyed

/-!
# RateLimit — the keyed rate limiter and the middleware in front of every route

`governor` is a parameter: a limiter is made when its key turns up first, and a check of it is
answered from its own state and a clock reading.  `rateLimit` runs before the handler, and decodes
the token on its own account: `clientKey` has its own reading of the Authorization header.
-/

namespace SecureLedger

/-- `governor`'s direct limiter; `directWithClock n` is the one with `Quota::per_minute(n)`. -/
structure Governor (Instant : Type) where
  Limiter : Type
  directWithClock : ℕ → Instant → Limiter
  check : Limiter → Instant → Bool × Limiter

variable {Time Instant : Type}

/-- A keyed rate limiter: one limiter per client key. -/
structure RateLimiter (G : Governor Instant) where
  perMinute : ℕ
  pos : 0 < perMinute
  buckets : String → Option G.Limiter

namespace RateLimiter

variable {G : Governor Instant}

def new (G : Governor Instant) (perMinute : ℕ) : RateLimiter G :=
  ⟨max perMinute 1, Nat.lt_of_lt_of_le Nat.zero_lt_one (Nat.le_max_right _ _), fun _ => none⟩

/-- Returns true if the request for `key` is allowed.  `clock` is what the clock reads when a limiter
is made and when it is checked. -/
def check (self : RateLimiter G) (key : String) (clock : Instant × Instant) : Bool × RateLimiter G :=
  let limiter := (self.buckets key).getD (G.directWithClock self.perMinute clock.1)
  let (ok, limiter) := G.check limiter clock.2
  (ok, { self with buckets := Function.update self.buckets key (some limiter) })

end RateLimiter

/-! ### The middleware -/

/-- A request at the rate limiter: the time at which its token is decoded there, and the readings of
the limiter's clock. -/
structure Incoming (Time Instant : Type) where
  arrival : Arrival Time
  keyed : Time
  clock : Instant × Instant

section ClientKey

variable (C : Crates Time) (state : AppState) (headers : HeaderMap)

/-- The key of a request whose token decodes at `now`. -/
def subjectKey (now : Time) : Option String := do
  let header ← headers.get "authorization"
  let value ← Str.visibleAscii header
  let tok ← (Str.stripPrefix "Bearer " value).or (Str.stripPrefix "bearer " value)
  match decodeToken C state.jwtSecret (Str.trim tok) now with
  | .ok claims => some ("sub:" ++ claims.sub)
  | .error _ => none

/-- The key that the forwarding header `h` gives. -/
def addressKey (h : String) : Option String := do
  let val ← headers.get h
  let s ← Str.visibleAscii val
  let ip := Str.trim (Str.splitHead ',' s)
  if Str.isEmpty ip then none else some ("ip:" ++ ip)

/-- The key a request is charged to. -/
def clientKey (now : Time) : String :=
  match subjectKey C state headers now with
  | some key => key
  | none =>
    match ["x-forwarded-for", "x-real-ip"].findSome? (addressKey headers) with
    | some key => key
    | none => "ip:anonymous"

end ClientKey

variable {G : Governor Instant} (C : Crates Time) (state : AppState)

/-- The key a request is charged to. -/
def Incoming.key (r : Incoming Time Instant) : String := clientKey C state r.arrival.headers r.keyed

/-- The middleware's own response, or `none` if it hands the request on. -/
def rateLimit (limiter : RateLimiter G) (r : Incoming Time Instant) :
    Option (Response Time) × RateLimiter G :=
  let (allowed, limiter) := limiter.check (r.key C state) r.clock
  (if !allowed then some AppError.tooManyRequests.intoResponse else none, limiter)

/-- A stream of requests, each with what the middleware makes of it. -/
def rateLimitAll (limiter : RateLimiter G) :
    List (Incoming Time Instant) → List (Incoming Time Instant × Option (Response Time))
  | [] => []
  | r :: rs => (r, (rateLimit C state limiter r).1) ::
    rateLimitAll (rateLimit C state limiter r).2 rs

/-! ### As a family of machines -/

/-- A limiter at the readings of the clock. -/
def Governor.checks (G : Governor Instant) (perMinute : ℕ) : Machine (Instant × Instant) Bool where
  State := G.Limiter
  start clock := G.directWithClock perMinute clock.1
  step limiter clock := G.check limiter clock.2

/-- A limiter, made and checked at the readings its requests bring. -/
def Governor.machine (G : Governor Instant) (perMinute : ℕ) : Machine (Incoming Time Instant) Bool :=
  (G.checks perMinute).comap Incoming.clock

/-- The middleware runs one limiter per key. -/
theorem rateLimitAll_eq (limiter : RateLimiter G) (rs : List (Incoming Time Instant)) :
    rateLimitAll C state limiter rs =
      (Keyed.run (G.machine limiter.perMinute) (Incoming.key C state) limiter.buckets rs).map
        fun p => (p.1, if !p.2 then some AppError.tooManyRequests.intoResponse else none) := by
  induction rs generalizing limiter with
  | nil => rfl
  | cons r rs ih =>
    simp only [rateLimitAll, Keyed.run, List.map_cons, List.cons.injEq, Prod.mk.injEq, true_and]
    exact ⟨rfl, ih _⟩

end SecureLedger
