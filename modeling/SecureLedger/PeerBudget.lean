import SecureLedger.PerMinute
import SecureLedger.Budget

/-!
# PeerBudget — what one client can get without a token

The peer's address is not read anywhere: without a token that is accepted, a request is charged to the
address that it names itself in a forwarding header.  A client that names two addresses has two budgets
(`peer_budget_iff`).
-/

namespace SecureLedger

variable {Time : Type} (C : Crates Time) (state : AppState)

/-- A request without a token that is accepted. -/
def Incoming.Unauthenticated {Instant : Type} (r : Incoming Time Instant) : Prop :=
  ∀ token claims, bearerToken r.arrival.headers = .ok token →
    decodeToken C state.jwtSecret token r.keyed ≠ .ok claims

/-- The address that the forwarding headers name, which is `anonymous` if they name none. -/
def namedAddress (headers : HeaderMap) : String :=
  (["x-forwarded-for", "x-real-ip"].findSome? (addressKey headers)).getD "ip:anonymous"

/-- How many requests are handed on. -/
def admitted {Instant : Type} (out : List (Incoming Time Instant × Option (Response Time))) : ℕ :=
  out.countP (·.2.isNone)

variable {C state} {G : Governor ℚ} {n : ℕ} {rs before : List (Incoming Time ℚ)} {x : ℚ}

/-- Without a token a request is charged to the address it names. -/
theorem key_of_unauthenticated {r : Incoming Time ℚ} (h : r.Unauthenticated C state) :
    r.key C state = namedAddress r.arrival.headers := by
  have hnone : subjectKey C state r.arrival.headers r.keyed = none := by
    by_contra hsome
    obtain ⟨key, hkey⟩ := Option.ne_none_iff_exists'.mp hsome
    obtain ⟨token, claims, htoken, hdecode, -⟩ := subjectKey_eq_some.mp hkey
    exact h token claims htoken hdecode
  rw [Incoming.key, clientKey, hnone, namedAddress]
  cases ["x-forwarded-for", "x-real-ip"].findSome? (addressKey r.arrival.headers) <;> rfl

theorem admitted_map (out : List (Incoming Time ℚ × Bool)) :
    admitted (out.map fun p => (p.1, if !p.2 then some AppError.tooManyRequests.intoResponse else none)) =
      out.countP (·.2) := by
  rw [admitted, List.countP_map]
  apply List.countP_congr
  intro p _
  cases hok : p.2 <;> simp [hok]

/-- Every limiter hands on what its bucket holds, at one instant. -/
theorem shares_of_burst (C : Crates Time) (state : AppState) (hG : G.IsTokenBucket) (hn : 1 ≤ n)
    (hx : ∀ r ∈ rs, r.clock = (x, x)) : Keyed.Shares (G.machine n) (Incoming.key C state) n (fun _ => none) rs := by
  intro k
  let l := (rs.filter (Incoming.key C state · = k)).map Incoming.clock
  have hl : ∀ c ∈ l, c = (x, x) := fun c hc => by
    obtain ⟨r, hr, rfl⟩ := List.mem_map.mp hc
    exact hx r (List.mem_filter.mp hr).1
  have hordered := TokenBucket.ordered_of_forall_eq hl
  have hburst := TokenBucket.burst_of_none n (rate_pos hn).le (fun c hc => by rw [hl c hc])
    fun c hc => by rw [hl c hc]
  rw [← hG n hn l hordered, ← Machine.run_comap, List.countP_map, List.length_map,
    ← List.countP_eq_length_filter] at hburst
  exact hburst

/-- The middleware hands on at most `n` of these requests, whatever it has been asked before. -/
def WithinBudget (C : Crates Time) (state : AppState) (G : Governor ℚ) (n : ℕ)
    (rs : List (Incoming Time ℚ)) : Prop :=
  ∀ before : List (Incoming Time ℚ), TokenBucket.Ordered ((before ++ rs).map Incoming.clock) →
    admitted ((rateLimitAll C state (RateLimiter.new G n) (before ++ rs)).drop before.length) ≤ n

/-- The requests go through the middleware one by one. -/
theorem rateLimitAll_requests (limiter : RateLimiter G) (rs : List (Incoming Time ℚ)) :
    (rateLimitAll C state limiter rs).map Prod.fst = rs := by
  induction rs generalizing limiter with
  | nil => rfl
  | cons r rs ih => rw [rateLimitAll, List.map_cons, ih]

/-- Requests charged to one key get no more than its bucket holds. -/
theorem withinBudget_of_key (hG : G.IsTokenBucket) (hn : 1 ≤ n) (hx : ∀ r ∈ rs, r.clock = (x, x)) {k : String}
    (hk : ∀ r ∈ rs, r.key C state = k) : WithinBudget C state G n rs := by
  intro before hordered
  have hquota : (RateLimiter.new G n).perMinute = n := max_eq_left hn
  let out := Keyed.run (G.machine n) (Incoming.key C state) (fun _ => none) (before ++ rs)
  let now (p : (ℚ × ℚ) × Bool) : Bool := p.2 && x ≤ p.1.2 && p.1.2 < x + 1 / (n / 60 : ℚ)
  let clocks := ((before ++ rs).filter (Incoming.key C state · = k)).map Incoming.clock
  have hclocks : TokenBucket.Ordered clocks := hordered.sublist (List.filter_sublist.map _)
  rw [rateLimitAll_eq, ← List.map_drop, admitted_map, hquota]
  calc (out.drop before.length).countP (·.2)
    _ ≤ (out.drop before.length).countP (fun p => now (p.1.clock, p.2) && p.1.key C state = k) := by
        apply List.countP_mono_left
        intro p hp hok
        have hmem := Keyed.fst_mem_of_mem_drop hp
        have hpos : 0 < n := hn
        simp [now, hok, hx p.1 hmem, hk p.1 hmem, hpos]
    _ ≤ out.countP (fun p => now (p.1.clock, p.2) && p.1.key C state = k) :=
        (List.drop_sublist _ _).countP_le
    _ = ((G.checks n).run none clocks).countP now :=
        Keyed.countP_comap (M := G.checks n) Incoming.clock now (fun _ => none) (before ++ rs) k
    _ = TokenBucket.accepted x (x + 1 / (n / 60 : ℚ))
        ((TokenBucket.machine n (n / 60 : ℚ)).run none clocks) := by
        rw [hG n hn clocks hclocks]
        rfl
    _ ≤ n := TokenBucket.accepted_instant_le n (rate_pos hn) hclocks x

theorem withinBudget_of_few (h : rs.length ≤ n) : WithinBudget C state G n rs := by
  intro before _
  refine (List.countP_le_length.trans_eq ?_).trans h
  rw [← List.length_map Prod.fst, List.map_drop, rateLimitAll_requests, List.drop_left]

/-- Without earlier requests every key has a full bucket. -/
theorem le_of_withinBudget (hG : G.IsTokenBucket) (hx : ∀ r ∈ rs, r.clock = (x, x))
    (h : WithinBudget C state G n rs) :
    (0 < n ∧ ∀ r ∈ rs, ∀ r' ∈ rs, r.key C state = r'.key C state) ∨ rs.length ≤ n := by
  have hordered : TokenBucket.Ordered (rs.map Incoming.clock) :=
    TokenBucket.ordered_of_forall_eq fun c hc => by
      obtain ⟨r, hr, rfl⟩ := List.mem_map.mp hc
      exact hx r hr
  have hshares := shares_of_burst C state hG (le_max_right n 1) hx
  have hle := h [] hordered
  rw [List.nil_append, List.length_nil, List.drop_zero, rateLimitAll_eq, admitted_map] at hle
  rcases Nat.eq_zero_or_pos n with rfl | hpos
  · cases rs with
    | nil => exact .inr le_rfl
    | cons r rs =>
      -- a quota of none lets a request through all the same
      have hone : 1 ≤ (r :: rs).countP (·.key C state = r.key C state) :=
        List.countP_pos_iff.mpr ⟨r, List.mem_cons_self .., decide_eq_true rfl⟩
      have hsome := (hshares.le (r.key C state)).trans hle
      omega
  · have hmax : max n 1 = n := max_eq_left hpos
    rw [hmax] at hshares
    have hquota : (RateLimiter.new G n).perMinute = n := hmax
    rw [hquota] at hle
    exact ((hshares.le_iff hpos).mp hle).imp_left fun hkeys => ⟨hpos, hkeys⟩

/-- **The budget of a client without a token.**  Of its requests at one instant at most `n` are handed on,
whatever came before, exactly if their forwarding headers name one address, or there are no more of them. -/
theorem peer_budget_iff (hG : G.IsTokenBucket) (hx : ∀ r ∈ rs, r.clock = (x, x))
    (hanon : ∀ r ∈ rs, r.Unauthenticated C state) : WithinBudget C state G n rs ↔
      (0 < n ∧ ∀ r ∈ rs, ∀ r' ∈ rs, namedAddress r.arrival.headers = namedAddress r'.arrival.headers) ∨
        rs.length ≤ n := by
  have hkey : ∀ r ∈ rs, r.key C state = namedAddress r.arrival.headers := fun r hr =>
    key_of_unauthenticated (hanon r hr)
  constructor
  · intro h
    refine (le_of_withinBudget hG hx h).imp_left fun hkeys => ⟨hkeys.1, fun r hr r' hr' => ?_⟩
    rw [← hkey r hr, ← hkey r' hr']
    exact hkeys.2 r hr r' hr'
  · rintro (hsame | hfew)
    · cases rs with
      | nil => exact withinBudget_of_few (Nat.zero_le n)
      | cons r rs =>
        apply withinBudget_of_key (k := namedAddress r.arrival.headers) hG hsame.1 hx
        intro r' hr'
        rw [hkey r' hr']
        exact hsame.2 r' hr' r (List.mem_cons_self ..)
    · exact withinBudget_of_few hfew

end SecureLedger

/-! ### On the sample -/

namespace SecureLedger.Sample

/-- A guess of the administrator's password, sent with an address of the client's choice. -/
def guess (address password : String) : Incoming Sec ℚ :=
  ⟨⟨[("x-forwarded-for", bytes address)], .login (.ok ⟨"admin", password⟩), 10⟩, 9, (0, 0)⟩

theorem guess_unauthenticated (address password : String) :
    (guess address password).Unauthenticated crates state := by
  intro token claims htoken
  have herror : bearerToken (guess address password).arrival.headers =
      .error (.unauthorized "missing Authorization header") := rfl
  rw [herror] at htoken
  cases htoken

/-- One address after the other: both guesses are handed on under a quota of one. -/
theorem guesses_admitted : buckets.IsTokenBucket ∧
    (guess "1.1.1.1" "admin").Unauthenticated crates state ∧
    (guess "2.2.2.2" "admin123").Unauthenticated crates state ∧
    admitted (rateLimitAll crates state (RateLimiter.new buckets 1)
      [guess "1.1.1.1" "admin", guess "2.2.2.2" "admin123"]) = 2 :=
  ⟨buckets_isTokenBucket, guess_unauthenticated _ _, guess_unauthenticated _ _, by decide +kernel⟩

/-- From one address one of them is. -/
theorem guesses_limited : WithinBudget crates state buckets 1
    [guess "1.1.1.1" "admin", guess "1.1.1.1, 2.2.2.2" "admin123"] := by
  have hanon : ∀ r ∈ [guess "1.1.1.1" "admin", guess "1.1.1.1, 2.2.2.2" "admin123"],
      r.Unauthenticated crates state := by
    simp [guess_unauthenticated]
  have hx : ∀ r ∈ [guess "1.1.1.1" "admin", guess "1.1.1.1, 2.2.2.2" "admin123"], r.clock = (0, 0) := by
    simp [guess]
  refine (peer_budget_iff buckets_isTokenBucket hx hanon).mpr (.inl ⟨by decide, ?_⟩)
  have hname : namedAddress (guess "1.1.1.1, 2.2.2.2" "admin123").arrival.headers =
      namedAddress (guess "1.1.1.1" "admin").arrival.headers := by decide +kernel
  simp [hname]

end SecureLedger.Sample
