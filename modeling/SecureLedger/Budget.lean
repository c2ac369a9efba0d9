import SecureLedger.RateLimit
import SecureLedger.Sample

/-!
# Budget — whose budget a request spends

A request is charged to `sub:u` exactly if it bears a token of `u`: the middleware's reading of the
Authorization header and the extractor's agree (`subjectKey_eq_some`), and no forwarding header gives
such a key (`clientKey_eq_sub`).  As no key's limiter sees another key's requests, nobody else can
change what is admitted of `u` (`budget_isolated`).
-/

namespace SecureLedger

variable {Time Instant : Type} {C : Crates Time} {state : AppState} {headers : HeaderMap} {now : Time}

/-- The middleware finds the token the extractor would find. -/
theorem subjectKey_eq_some {key : String} : subjectKey C state headers now = some key ↔
    ∃ token claims, bearerToken headers = .ok token ∧
      decodeToken C state.jwtSecret token now = .ok claims ∧ "sub:" ++ claims.sub = key := by
  unfold subjectKey bearerToken
  cases headers.get "authorization" with
  | none => simp
  | some header =>
    cases hvalue : Str.visibleAscii header with
    | none => simp [hvalue]
    | some value =>
      cases htok : (Str.stripPrefix "Bearer " value).or (Str.stripPrefix "bearer " value) with
      | none => simp [hvalue, htok]
      | some tok =>
        cases hd : decodeToken C state.jwtSecret (Str.trim tok) now with
        | error e => simp [hvalue, htok, hd]
        | ok claims => simp [hvalue, htok, hd]

theorem addressKey_eq_some {h key : String} (hk : addressKey headers h = some key) :
    ∃ ip, key = "ip:" ++ ip := by
  unfold addressKey at hk
  simp only [Option.bind_eq_bind, Option.bind_eq_some_iff] at hk
  obtain ⟨val, -, s, -, hk⟩ := hk
  split at hk
  · cases hk
  · exact ⟨_, (Option.some.inj hk).symm⟩

/-- No address key is a subject key. -/
theorem ip_ne_sub (ip u : String) : "ip:" ++ ip ≠ "sub:" ++ u := by
  intro h
  have := congrArg String.toList h
  simp at this

/-- **Only a bearer of a token of `u` is charged to `u`.** -/
theorem clientKey_eq_sub {u : String} : clientKey C state headers now = "sub:" ++ u ↔
    ∃ token claims, bearerToken headers = .ok token ∧
      decodeToken C state.jwtSecret token now = .ok claims ∧ claims.sub = u := by
  have hinj : ∀ s : String, "sub:" ++ s = "sub:" ++ u ↔ s = u := fun s => String.append_right_inj _
  unfold clientKey
  cases hs : subjectKey C state headers now with
  | some key =>
    obtain ⟨token, claims, ht, hd, rfl⟩ := subjectKey_eq_some.mp hs
    simp [ht, hd, hinj]
  | none =>
    -- no token is accepted, and the other keys are addresses
    have hnone : ¬ ∃ token claims, bearerToken headers = .ok token ∧
        decodeToken C state.jwtSecret token now = .ok claims ∧ claims.sub = u := by
      rintro ⟨token, claims, ht, hd, -⟩
      rw [subjectKey_eq_some.mpr ⟨token, claims, ht, hd, rfl⟩] at hs
      cases hs
    refine iff_of_false ?_ hnone
    cases hk : ["x-forwarded-for", "x-real-ip"].findSome? (addressKey headers) with
    | some key =>
      obtain ⟨h, -, hk⟩ := List.exists_of_findSome?_eq_some hk
      obtain ⟨ip, rfl⟩ := addressKey_eq_some hk
      exact ip_ne_sub ip u
    | none => exact ip_ne_sub "anonymous" u

/-- A token the extractor accepts was accepted by the middleware, which ran before. -/
theorem key_of_authUser (hjwt : C.jwt.OnlyExpires) {r : Incoming Time Instant} {user : AuthUser}
    (hclock : C.chrono.timestamp r.keyed ≤ C.chrono.timestamp r.arrival.now)
    (hu : r.arrival.authUser C state = .ok user) : r.key C state = "sub:" ++ user.username := by
  obtain ⟨token, ht, hd, hname, -⟩ := AuthUser.fromRequestParts_eq_ok.mp hu
  have hd' : decodeToken C state.jwtSecret token r.keyed = .ok user.claims :=
    decodeToken_eq_ok.mpr (hjwt _ _ _ _ _ _ rfl hclock (decodeToken_eq_ok.mp hd))
  exact clientKey_eq_sub.mpr ⟨token, user.claims, ht, hd', hname.symm⟩

variable {G : Governor Instant}

/-- The requests of a stream that are charged to `u`. -/
def chargedTo (C : Crates Time) (state : AppState) (u : String) (rs : List (Incoming Time Instant)) :
    List (Incoming Time Instant) := rs.filter (·.key C state = "sub:" ++ u)

/-- What the middleware makes of each of them. -/
def decisionsFor (C : Crates Time) (state : AppState) (u : String) (limiter : RateLimiter G)
    (rs : List (Incoming Time Instant)) : List (Incoming Time Instant × Option (Response Time)) :=
  (rateLimitAll C state limiter rs).filter (·.1.key C state = "sub:" ++ u)

/-- The others' requests do not matter. -/
theorem decisionsFor_congr {u : String} {limiter : RateLimiter G} {rs rs' : List (Incoming Time Instant)}
    (h : chargedTo C state u rs = chargedTo C state u rs') :
    decisionsFor C state u limiter rs = decisionsFor C state u limiter rs' := by
  simp only [decisionsFor, rateLimitAll_eq, List.filter_map]
  exact congrArg _ (Keyed.run_isolated (M := G.machine limiter.perMinute) limiter.buckets h)

/-- **A user's budget is its own.**  A request the extractor accepts as `u` was charged to `sub:u`; a
request charged to `sub:u` bears a token of `u`; and two streams with the same requests charged to
`sub:u`, at the same times, get the same decisions on them, whatever else is in either. -/
theorem budget_isolated (hjwt : C.jwt.OnlyExpires) (u : String) :
    (∀ (r : Incoming Time Instant) (user : AuthUser),
      C.chrono.timestamp r.keyed ≤ C.chrono.timestamp r.arrival.now →
      r.arrival.authUser C state = .ok user → user.username = u → r.key C state = "sub:" ++ u) ∧
    (∀ r : Incoming Time Instant, r.key C state = "sub:" ++ u →
      ∃ token claims, bearerToken r.arrival.headers = .ok token ∧
        decodeToken C state.jwtSecret token r.keyed = .ok claims ∧ claims.sub = u) ∧
    ∀ (limiter : RateLimiter G) (rs rs' : List (Incoming Time Instant)),
      chargedTo C state u rs = chargedTo C state u rs' →
        decisionsFor C state u limiter rs = decisionsFor C state u limiter rs' := by
  refine ⟨?_, fun r hr => clientKey_eq_sub.mp hr, fun limiter rs rs' => decisionsFor_congr⟩
  rintro r user hclock hu rfl
  exact key_of_authUser hjwt hclock hu

end SecureLedger

/-! ### On the sample -/

namespace SecureLedger.Sample

/-- A limiter as `governor` makes it: the time at which the last admitted cell is used up, in ns.  After an idle
time it lets `n + 1` cells through at one instant, so it is no token bucket of `n`. -/
structure Gcra where
  perMinute : ℕ
  tat : Option ℕ

/-- A cell takes `60 s / n`, and `n` cells fit. -/
def Gcra.check (self : Gcra) (now : ℕ) : Bool × Gcra :=
  let t := 60000000000 / self.perMinute
  let tat := self.tat.getD (now + t)
  if now < tat - t * self.perMinute then (false, self) else (true, { self with tat := some (max tat now + t) })

def governor : Governor ℕ := ⟨Gcra, fun n _ => ⟨n, none⟩, Gcra.check⟩

def listing (s : ℕ) : Incoming Sec ℕ :=
  ⟨withToken "tok.user" (.listTasks (.ok ⟨none, none⟩)) 10, 9, (s, s)⟩

/-- A request without an accepted token, from an address of its own choice. -/
def anonymous (s : ℕ) : Incoming Sec ℕ :=
  ⟨⟨[("authorization", bytes "Bearer sub:user"), ("x-forwarded-for", bytes " sub:user, 10.0.0.1")],
    .healthz, 10⟩, 9, (s, s)⟩

theorem listing_key (s : ℕ) : (listing s).key crates state = "sub:user" := by
  show clientKey crates state (listing 0).arrival.headers 9 = "sub:user"
  decide +kernel

theorem anonymous_key (s : ℕ) : (anonymous s).key crates state = "ip:sub:user" := by
  show clientKey crates state (anonymous 0).arrival.headers 9 = "ip:sub:user"
  decide +kernel

/-- A quota of one, used up by the first of two requests. -/
example : (decisionsFor crates state "user" (RateLimiter.new governor 1) [listing 0, listing 5]).map
    (·.2.isSome) = [false, true] := by decide +kernel

/-- The user gets the same decisions with others' requests around. -/
theorem listing_isolated : (listing 0).key crates state = "sub:user" ∧
    (∃ token claims, bearerToken (listing 0).arrival.headers = .ok token ∧
      decodeToken crates state.jwtSecret token (listing 0).keyed = .ok claims ∧ claims.sub = "user") ∧
    decisionsFor crates state "user" (RateLimiter.new governor 1) [listing 0, listing 5] =
      decisionsFor crates state "user" (RateLimiter.new governor 1)
        [anonymous 0, listing 0, anonymous 1, anonymous 2, listing 5, anonymous 6] := by
  have hjwt : crates.jwt.OnlyExpires := jwt_onlyExpires
  obtain ⟨hkey, htoken, hstreams⟩ := @budget_isolated Sec ℕ crates state governor hjwt "user"
  refine ⟨hkey (listing 0) ⟨"user", .user, claimsOf "user" "user"⟩ (by decide) (by decide +kernel) rfl,
    htoken (listing 0) (listing_key 0), hstreams _ _ _ ?_⟩
  simp [chargedTo, listing_key, anonymous_key]

end SecureLedger.Sample
