import SecureLedger.Service

/-!
# Config — the environment, and the limit that it sets

`Config.fromEnv` takes each setting from its variable or falls back on a default; a rate limit that is no `u32` is
none, and one of zero counts as one.  Whatever it is, in any run of the service a client that keeps below it is
never refused, and no client gets twice as much in a minute (`configured_limit`).
-/

namespace SecureLedger

open Atomic

variable {Time Instant Latency : Type}

/-- The variables that are set, to Unicode. -/
abbrev Env := String → Option String

structure Config where
  jwtSecret : String
  dbPath : String
  bindAddr : String
  rateLimitPerMin : ℕ
  deriving DecidableEq, Repr

def Config.fromEnv (env : Env) : Config where
  jwtSecret := (env "JWT_SECRET").getD "dev-insecure-change-me-secret-key"
  dbPath := (env "DB_PATH").getD "/app/data/secureledger.db"
  bindAddr := (env "BIND_ADDR").getD "0.0.0.0:8080"
  rateLimitPerMin := ((env "RATE_LIMIT_PER_MIN").bind (Str.parseUnsigned (2 ^ 32))).getD 100

/-- What `main` makes of the environment before it listens, the database apart. -/
def startUp (C : Crates Time) (G : Governor Instant) (env : Env) (adminSalt userSalt : String) :
    Option (AppState × RateLimiter G) := do
  let config := Config.fromEnv env
  let users ← seedUsers C adminSalt userSalt
  some (⟨config.jwtSecret, users⟩, RateLimiter.new G config.rateLimitPerMin)

/-- The limit that an environment sets: the numeral in the variable if it is one of a `u32`, but at least one, and
otherwise a hundred. -/
def Configured (env : Env) (n : ℕ) : Prop :=
  (∃ s v, env "RATE_LIMIT_PER_MIN" = some s ∧ Str.Numeral s v ∧ v < 2 ^ 32 ∧ n = max v 1) ∨
  ((∀ s v, env "RATE_LIMIT_PER_MIN" = some s → Str.Numeral s v → 2 ^ 32 ≤ v) ∧ n = 100)

theorem configured_iff {env : Env} {n : ℕ} : Configured env n ↔ n = max (Config.fromEnv env).rateLimitPerMin 1 := by
  have hparse : ∀ s v, Str.parseUnsigned (2 ^ 32) s = some v ↔ Str.Numeral s v ∧ v < 2 ^ 32 := fun s v =>
    Str.parseUnsigned_eq_some (by decide)
  have hvalue : ∀ v, (env "RATE_LIMIT_PER_MIN").bind (Str.parseUnsigned (2 ^ 32)) = some v ↔
      ∃ s, env "RATE_LIMIT_PER_MIN" = some s ∧ Str.Numeral s v ∧ v < 2 ^ 32 := fun v => by
    rw [Option.bind_eq_some_iff]
    exact exists_congr fun s => and_congr_right fun _ => hparse s v
  unfold Configured
  show _ ↔ n = max (((env "RATE_LIMIT_PER_MIN").bind (Str.parseUnsigned (2 ^ 32))).getD 100) 1
  cases hset : (env "RATE_LIMIT_PER_MIN").bind (Str.parseUnsigned (2 ^ 32)) with
  | none =>
    have hno : ∀ s v, env "RATE_LIMIT_PER_MIN" = some s → Str.Numeral s v → 2 ^ 32 ≤ v := by
      intro s v hs hv
      by_contra hlt
      have := (hvalue v).mpr ⟨s, hs, hv, not_le.mp hlt⟩
      rw [hset] at this
      cases this
    constructor
    · rintro (⟨s, v, hs, hv, hlt, -⟩ | ⟨-, rfl⟩)
      · exact absurd (hno s v hs hv) (not_le.mpr hlt)
      · rfl
    · exact fun h => .inr ⟨hno, h⟩
  | some v =>
    obtain ⟨s, hs, hv, hlt⟩ := (hvalue v).mp hset
    constructor
    · rintro (⟨s', v', hs', hv', hlt', rfl⟩ | ⟨hno, -⟩)
      · have := (hvalue v').mpr ⟨s', hs', hv', hlt'⟩
        rw [hset] at this
        cases this
        rfl
      · exact absurd (hno s v hs hv) (not_le.mpr hlt)
    · exact fun h => .inl ⟨s, v, hs, hv, hlt, h⟩

/-- A limit of zero counts as one. -/
theorem RateLimiter.new_max (G : Governor Instant) (n : ℕ) : RateLimiter.new G n = RateLimiter.new G (max n 1) := by
  simp [RateLimiter.new]

/-! ### At the limiter -/

section Limit

variable {C : Crates Time} {state : AppState} {G : Governor ℚ} {db : Db} {limiter : RateLimiter G}
  {metrics : Metrics Latency} {w : RouterWorld Time G Latency} {n : ℕ}

/-- How many requests with the key of `e` were let through in the minute before it. -/
def recentlyAllowed (e : CheckEvent G) (before : List (CheckEvent G)) : ℕ :=
  before.countP fun d => d.allowed && e.call.clock.2 - 60 < d.call.clock.2 && d.call.key = e.call.key

/-- A check is answered from those of its key before it. -/
theorem allowed_of_few (hG : G.IsTokenBucket) (hn : 1 ≤ n)
    (h : Reach (buildRouter Latency C state G) ((db, RateLimiter.new G n), metrics) w)
    (hclock : TokenBucket.Ordered ((limiterChecks w).map fun e => e.call.clock)) {l l' : List (CheckEvent G)}
    {e : CheckEvent G} (hsplit : limiterChecks w = l ++ e :: l') (hfew : recentlyAllowed e l < n) :
    e.allowed = true := by
  have hquota : (RateLimiter.new G n).perMinute = n := max_eq_left hn
  have hall := checkAll_limiterChecks h
  rw [checkAll_eq, hquota, hsplit, List.map_append, List.map_append, List.map_cons, List.map_cons] at hall
  have hrun := @Keyed.run_append (Check ℚ) Bool String _ ((G.checks n).comap Check.clock) Check.key (fun _ => none)
    (l.map Event.call) (e.call :: l'.map Event.call)
  obtain ⟨hbefore, hrest⟩ := List.append_inj (hrun.symm.trans hall) (by simp)
  have hat : ((G.checks n).feed (Keyed.after ((G.checks n).comap Check.clock) Check.key (fun _ => none)
      (l.map Event.call) e.call.key) e.call.clock).1 = e.allowed := congrArg Prod.snd (List.cons.inj hrest).1
  have hstate : (Keyed.after ((G.checks n).comap Check.clock) Check.key (fun _ => none) (l.map Event.call)
      e.call.key : Option (G.checks n).State) = (G.checks n).after none (clocksOf e.call.key (l.map Event.call)) :=
    (Keyed.after_apply (M := (G.checks n).comap Check.clock) (fun _ => none) (l.map Event.call) e.call.key).trans
      (Machine.after_comap (M := G.checks n) Check.clock none _)
  rw [hstate] at hat
  -- the clock at the checks of this key
  have hclocks : TokenBucket.Ordered (clocksOf e.call.key (l.map Event.call) ++ [e.call.clock]) := by
    refine hclock.sublist ?_
    rw [hsplit, List.map_append, List.map_cons]
    refine List.Sublist.append ?_ (List.singleton_sublist.mpr (List.mem_cons_self ..))
    have hsub : (clocksOf e.call.key (l.map Event.call)).Sublist ((l.map Event.call).map Check.clock) :=
      List.filter_sublist.map _
    rwa [List.map_map] at hsub
  have hfeed : e.allowed = decide (1 ≤ TokenBucket.cellsLeft n (n / 60 : ℚ)
      (clocksOf e.call.key (l.map Event.call)) e.call.clock) := hat.symm.trans (hG.feed_after hn hclocks)
  have hordered : TokenBucket.Ordered (clocksOf e.call.key (l.map Event.call)) :=
    hclocks.sublist (List.sublist_append_left _ _)
  rw [hfeed, decide_eq_true_eq]
  refine TokenBucket.one_le_cellsLeft_of_few (t := e.call.clock.2 - 60) (rate_pos hn).le hclocks ?_ ?_
  · have hminute : (n : ℚ) / 60 * 60 = n := div_mul_cancel₀ _ (by norm_num)
    rw [sub_sub_cancel, hminute]
  · refine lt_of_eq_of_lt ?_ hfew
    rw [← hG n hn _ hordered, TokenBucket.acceptedAfter, recentlyAllowed]
    have hcount := @Keyed.countP_comap (ℚ × ℚ) Bool String _ (G.checks n) (Check ℚ) Check.key Check.clock
      (fun p => p.2 && e.call.clock.2 - 60 < p.1.2) (fun _ => none) (l.map Event.call) e.call.key
    refine hcount.symm.trans ((congrArg (List.countP _) hbefore).trans ?_)
    rw [List.countP_map]
    rfl

/-- **The limit is as configured.**  In any run of a service started from an environment, no key is let through
twice the limit in a minute, and a request with whose key fewer than the limit were let through in the minute
before it is let through. -/
theorem configured_limit (hG : G.IsTokenBucket) {env : Env} {adminSalt userSalt : String}
    (hstart : startUp C G env adminSalt userSalt = some (state, limiter)) (hn : Configured env n)
    (h : Reach (buildRouter Latency C state G) ((db, limiter), metrics) w)
    (hclock : TokenBucket.Ordered ((limiterChecks w).map fun e => e.call.clock)) :
    (∀ key t, (limiterChecks w).countP (fun e => e.allowed && e.within t 60 && e.call.key = key) < 2 * n) ∧
    ∀ l e l', limiterChecks w = l ++ e :: l' → recentlyAllowed e l < n → e.allowed = true := by
  obtain ⟨users, -, hstate⟩ := Option.bind_eq_some_iff.mp hstart
  have hpos : 1 ≤ n := by
    rw [configured_iff.mp hn]
    exact Nat.le_max_right _ _
  have hlimiter : limiter = RateLimiter.new G n := by
    cases hstate
    rw [configured_iff.mp hn]
    exact RateLimiter.new_max G _
  subst hlimiter
  refine ⟨fun key t => ?_, fun l e l' hsplit hfew => allowed_of_few hG hpos h hclock hsplit hfew⟩
  have hordered : TokenBucket.Ordered (((limiterChecks w).map Event.call).map Check.clock) := by
    rwa [List.map_map]
  have hlt := TokenBucket.accepted_window_lt_of_none n t (rate_pos hpos) (by norm_num : (0 : ℚ) < 60)
    (clocksOf_ordered hordered key)
  rw [← allowed_eq hG hpos h hclock, div_mul_cancel₀ _ (by norm_num : (60 : ℚ) ≠ 0), ← Nat.cast_add,
    Nat.cast_lt] at hlt
  omega

end Limit

end SecureLedger

/-! ### On the sample -/

namespace SecureLedger.Sample

open Atomic

def environment : Env := fun name => [("JWT_SECRET", secret), ("RATE_LIMIT_PER_MIN", "+01")].lookup name

theorem environment_configured :
    startUp crates buckets environment "s1" "s2" = some (state, RateLimiter.new buckets 1) ∧
      Configured environment 1 := by
  have hnumeral : Str.Numeral "+01" 1 := ⟨['0', '1'], by decide, by simp, .inr (by decide), by decide⟩
  refine ⟨?_, .inl ⟨"+01", 1, by decide, hnumeral, by decide, rfl⟩⟩
  have hconfig : (Config.fromEnv environment).jwtSecret = secret ∧
      (Config.fromEnv environment).rateLimitPerMin = 1 := by
    decide
  unfold startUp
  dsimp only
  rw [users_seeded, hconfig.1, hconfig.2]
  rfl

/-- Under a limit of one the first creation is let through, and the second is not. -/
theorem metered_limit : (limiterChecks metered).map CheckEvent.allowed = [true, false] ∧
    (limiterChecks metered).countP (fun e => e.allowed && e.within 0 60 && e.call.key = "sub:user") < 2 * 1 := by
  obtain ⟨hstart, hlimit⟩ := environment_configured
  obtain ⟨hfewer, hbelow⟩ := configured_limit buckets_isTokenBucket hstart hlimit metered_reach
    ⟨by decide +kernel, by decide +kernel⟩
  obtain ⟨e, e', hchecks⟩ : ∃ e e', limiterChecks metered = [e, e'] := by
    have hlength : (limiterChecks metered).length = 2 := by decide +kernel
    exact List.length_eq_two.mp hlength
  have hfirst : e.allowed = true := hbelow [] e [e'] hchecks Nat.one_pos
  have hsecond : ((limiterChecks metered).map CheckEvent.allowed)[1]? = some false := by decide +kernel
  rw [hchecks] at hsecond ⊢
  refine ⟨?_, hchecks ▸ hfewer "sub:user" 0⟩
  rw [List.map_cons, List.map_singleton, hfirst]
  exact congrArg (fun b => [true, b]) (Option.some_inj.mp hsecond)

end SecureLedger.Sample
