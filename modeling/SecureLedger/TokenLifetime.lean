import SecureLedger.Authorization

/-!
# TokenLifetime — how long a token is accepted

A login answers with `expires_in`, and the token carries that expiry.  `decode_token` leaves the
leeway of `Validation::default()` in place, so that the token is still accepted in the minute after
it (`lifetime_kept_iff`).
-/

namespace SecureLedger

variable {Time : Type} {C : Crates Time} {nanos : Time → ℤ}

/-! ### The crates -/

/-- `nanos` counts nanoseconds since the epoch: timestamps are the whole seconds, and seconds are added
to it. -/
structure Chrono.Counts (C : Chrono Time) (nanos : Time → ℤ) : Prop where
  timestamp : ∀ t, C.timestamp t = nanos t / 1000000000
  addSeconds : ∀ t n, nanos (C.addSeconds t n) = nanos t + n * 1000000000

/-- A token made by `encode` verifies under its own secret only, carries its claims, and is refused if
and only if its expiry is more than the leeway in the past. -/
structure Jwt.Hs256 (J : Jwt) : Prop where
  roundTrips : J.RoundTrips
  secret : ∀ claims secret token, J.encode claims secret = .ok token →
    ∀ secret' v now claims', J.decode token secret' v now = .ok claims' → secret' = secret
  expires : ∀ claims secret token, J.encode claims secret = .ok token →
    ∀ v now, v.validateExp = true → v.validateNbf = false →
      ((∃ claims', J.decode token secret v now = .ok claims') ↔ ¬ claims.exp < now - v.leeway)

/-! ### Issuing and decoding -/

/-- The Unix second at which a token issued at `t` expires. -/
def expiry (nanos : Time → ℤ) (t : Time) : ℤ := nanos t / 1000000000 + tokenTtlSeconds

variable {secret username token : String} {role : Role} {t : Time}

/-- A token is made of the claims of its login. -/
theorem issueToken_eq_ok (hchrono : C.chrono.Counts nanos) :
    issueToken C secret username role t = .ok token ↔
      C.jwt.encode ⟨username, role.asStr, expiry nanos t, nanos t / 1000000000⟩ secret = .ok token := by
  have hexp : C.chrono.timestamp (C.chrono.addSeconds t tokenTtlSeconds) = expiry nanos t := by
    rw [hchrono.timestamp, hchrono.addSeconds]
    unfold expiry
    omega
  unfold issueToken
  dsimp only
  rw [hexp, hchrono.timestamp]
  split <;> simp_all

/-- **A token is accepted up to a minute after its expiry.** -/
theorem decode_issued_iff (hchrono : C.chrono.Counts nanos) (hjwt : C.jwt.Hs256)
    (hi : issueToken C secret username role t = .ok token) (t' : Time) :
    (∃ claims, decodeToken C secret token t' = .ok claims) ↔
      nanos t' < (expiry nanos t + 61) * 1000000000 := by
  have hexpires := hjwt.expires _ _ _ ((issueToken_eq_ok hchrono).mp hi)
    { Validation.default with validateExp := true } (C.chrono.timestamp t') rfl rfl
  simp only [decodeToken_eq_ok]
  rw [hexpires, hchrono.timestamp]
  simp only [Validation.default]
  omega

/-- The token is accepted exactly before its expiry, for the claims it was issued for and under its
secret only. -/
structure LifetimeKept (C : Crates Time) (nanos : Time → ℤ) (secret username : String) (role : Role)
    (t : Time) (token : String) (t' : Time) : Prop where
  accepted : (∃ claims, decodeToken C secret token t' = .ok claims) ↔
    nanos t' < expiry nanos t * 1000000000
  claims : ∀ claims, decodeToken C secret token t' = .ok claims →
    claims.sub = username ∧ claims.getRole = some role
  secret : ∀ secret' claims, decodeToken C secret' token t' = .ok claims → secret' = secret

/-- **The lifetime is the advertised one** if and only if the token is decoded before its expiry, or
more than a minute after it. -/
theorem lifetime_kept_iff (hchrono : C.chrono.Counts nanos) (hjwt : C.jwt.Hs256)
    (hi : issueToken C secret username role t = .ok token) (t' : Time) :
    LifetimeKept C nanos secret username role t token t' ↔
      nanos t' < expiry nanos t * 1000000000 ∨ (expiry nanos t + 61) * 1000000000 ≤ nanos t' := by
  have hdecode := decode_issued_iff hchrono hjwt hi t'
  constructor
  · intro h
    have haccepted := h.accepted
    rw [hdecode] at haccepted
    omega
  · intro h
    refine ⟨?_, fun claims hd => decodeToken_issueToken hjwt.roundTrips hi hd, fun secret' claims hd => ?_⟩
    · rw [hdecode]
      omega
    · exact hjwt.secret _ _ _ ((issueToken_eq_ok hchrono).mp hi) _ _ _ _ (decodeToken_eq_ok.mp hd)

/-- A login advertises the lifetime its token was issued with. -/
theorem login_advertises {state : AppState} {req : LoginRequest} {resp : LoginResponse}
    (hlogin : Handlers.login C state t req = .ret ⟨200, .login resp⟩) :
    resp.expiresIn = tokenTtlSeconds ∧ ∃ user, state.users.lookup req.username = some user ∧
      issueToken C state.jwtSecret user.username user.role t = .ok resp.token := by
  obtain ⟨user, hlookup, -, hissue, hresp⟩ := login_eq_ok.mp hlogin
  exact ⟨by rw [hresp], user, hlookup, hissue⟩

end SecureLedger

/-! ### On a sample -/

namespace SecureLedger.Sample

/-- Instants as nanoseconds since the epoch; the texts are not looked at. -/
def epochChrono : Chrono ℤ where
  toRfc3339 _ := ""
  parseFromRfc3339 _ := none
  addSeconds t n := t + n * 1000000000
  timestamp t := t / 1000000000

def epochCrates : Crates ℤ := ⟨epochChrono, jwt, argon2⟩

theorem epochChrono_counts : epochChrono.Counts id := ⟨fun _ => rfl, fun _ _ => rfl⟩

theorem jwt_hs256 : jwt.Hs256 := by
  have hencode : ∀ {claims key token}, jwt.encode claims key = .ok token →
      tokens.lookup token = some claims ∧ key = secret := by
    intro claims key token h
    unfold jwt at h
    dsimp only at h
    split at h
    · next p hp =>
      cases h
      have hclaims : p.2 = claims ∧ key = secret := by simpa using List.find?_some hp
      exact ⟨hclaims.1 ▸ lookup_tokens p (List.mem_of_find?_eq_some hp), hclaims.2⟩
    · cases h
  refine ⟨jwt_roundTrips, fun claims key token h key' v now claims' hd => ?_,
    fun claims key token h v now hv _ => ?_⟩
  · rw [(jwt_decode.mp hd).2.1, (hencode h).2]
  · obtain ⟨hlookup, rfl⟩ := hencode h
    constructor
    · rintro ⟨claims', hd⟩
      obtain ⟨hlookup', -, hexp⟩ := jwt_decode.mp hd
      rw [hlookup] at hlookup'
      obtain rfl := Option.some.inj hlookup'
      have := hexp hv
      omega
    · intro hexp
      exact ⟨claims, jwt_decode.mpr ⟨hlookup, rfl, fun _ => by omega⟩⟩

/-- Half a second after midnight of 2024-01-01. -/
def issuedAt : ℤ := 1704067200500000000

theorem issuedAt_token : issueToken epochCrates secret "user" .user issuedAt = .ok "tok.user" := by decide

/-- One nanosecond before the expiry. -/
theorem kept_before : LifetimeKept epochCrates id secret "user" .user issuedAt "tok.user"
    (1704070800 * 1000000000 - 1) :=
  (lifetime_kept_iff epochChrono_counts jwt_hs256 issuedAt_token _).mpr (.inl (by decide))

/-- A minute after its expiry the token is still accepted. -/
theorem accepted_late : (∃ claims, decodeToken epochCrates secret "tok.user"
      ((1704070800 + 60) * 1000000000) = .ok claims) ∧
    ¬ LifetimeKept epochCrates id secret "user" .user issuedAt "tok.user" ((1704070800 + 60) * 1000000000) := by
  have hlate := decode_issued_iff epochChrono_counts jwt_hs256 issuedAt_token ((1704070800 + 60) * 1000000000)
  have haccepted : ∃ claims, decodeToken epochCrates secret "tok.user"
      ((1704070800 + 60) * 1000000000) = .ok claims := hlate.mpr (by decide)
  refine ⟨haccepted, fun h => ?_⟩
  exact absurd (h.accepted.mp haccepted) (by decide)

end SecureLedger.Sample
