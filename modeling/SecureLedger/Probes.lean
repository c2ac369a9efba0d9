import SecureLedger.PeerBudget

/-!
# Probes — liveness probes behind the rate limiter

The limiter stands in front of every route, `/healthz` included.  A probe without headers is charged to
the bucket that it shares with all requests which name neither a user nor an address
(`key_eq_anonymous`); it is answered as long as these have left a cell there (`probe_answered`).
-/

namespace SecureLedger

section Respond

variable {Time Instant : Type} {G : Governor Instant} (C : Crates Time) (state : AppState)

/-- What is made of a request: the middleware's own response, or the program of its handler. -/
def respond (limiter : RateLimiter G) (r : Incoming Time Instant) :
    DbProg Time (Response Time) × RateLimiter G :=
  let out := rateLimit C state limiter r
  (out.1.elim (handle C state r.arrival) .ret, out.2)

/-- The limiter after a stream of requests. -/
def limiterAfter (limiter : RateLimiter G) (rs : List (Incoming Time Instant)) : RateLimiter G :=
  rs.foldl (fun limiter r => (respond C state limiter r).2) limiter

/-- `GET /healthz` without an Authorization or forwarding header. -/
structure Incoming.IsProbe (r : Incoming Time Instant) : Prop where
  op : r.arrival.op = .healthz
  noAuthorization : r.arrival.headers.get "authorization" = none
  noForwarding : ∀ h ∈ ["x-forwarded-for", "x-real-ip"], r.arrival.headers.get h = none

/-- What `/healthz` answers. -/
def alive : Response Time := ⟨200, .probe [("status", "ok")]⟩

variable {C state} {r : Incoming Time Instant}

theorem handle_probe (hr : r.IsProbe) : handle C state r.arrival = .ret alive := by
  unfold handle
  rw [hr.op]
  rfl

/-- A request is handed on if the limiter of its key accepts it. -/
theorem respond_fst (limiter : RateLimiter G) : (respond C state limiter r).1 =
    if ((G.machine limiter.perMinute).feed (limiter.buckets (r.key C state)) r).1 then
      handle C state r.arrival
    else .ret AppError.tooManyRequests.intoResponse := by
  show Option.elim (if !(Machine.feed (G.machine limiter.perMinute) _ r).1 then _ else _) _ _ = _
  cases ((G.machine limiter.perMinute).feed (limiter.buckets (r.key C state)) r).1 <;> rfl

theorem limiterAfter_perMinute (limiter : RateLimiter G) (rs : List (Incoming Time Instant)) :
    (limiterAfter C state limiter rs).perMinute = limiter.perMinute := by
  induction rs generalizing limiter with
  | nil => rfl
  | cons r rs ih => exact ih _

/-- Each request has been through the limiter of its key. -/
theorem limiterAfter_buckets (limiter : RateLimiter G) (rs : List (Incoming Time Instant)) :
    (limiterAfter C state limiter rs).buckets =
      Keyed.after (G.machine limiter.perMinute) (Incoming.key C state) limiter.buckets rs := by
  induction rs generalizing limiter with
  | nil => rfl
  | cons r rs ih => exact ih _

end Respond

/-- Every probe is answered by the handler, whatever came before. -/
def NeverThrottled {Time : Type} (C : Crates Time) (state : AppState) (G : Governor ℚ) (n : ℕ) : Prop :=
  ∀ (before : List (Incoming Time ℚ)) (probe : Incoming Time ℚ), probe.IsProbe →
    TokenBucket.Ordered ((before ++ [probe]).map Incoming.clock) →
      (respond C state (limiterAfter C state (RateLimiter.new G n) before) probe).1 = .ret alive

variable {Time : Type} {C : Crates Time} {state : AppState} {G : Governor ℚ} {n : ℕ}
  {r probe : Incoming Time ℚ} {before : List (Incoming Time ℚ)}

/-! ### The shared bucket -/

/-- **Who shares the bucket**: requests without an accepted token that name no address, or this word. -/
theorem key_eq_anonymous : r.key C state = "ip:anonymous" ↔
    r.Unauthenticated C state ∧ namedAddress r.arrival.headers = "ip:anonymous" := by
  constructor
  · intro hkey
    have hanon : r.Unauthenticated C state := by
      intro token claims htoken hdecode
      have hsub := clientKey_eq_sub.mpr ⟨token, claims, htoken, hdecode, rfl⟩
      exact ip_ne_sub "anonymous" claims.sub (hkey.symm.trans hsub)
    exact ⟨hanon, (key_of_unauthenticated hanon).symm.trans hkey⟩
  · rintro ⟨hanon, hname⟩
    rw [key_of_unauthenticated hanon, hname]

theorem key_of_probe (hprobe : probe.IsProbe) : probe.key C state = "ip:anonymous" := by
  have haddress : ∀ h ∈ ["x-forwarded-for", "x-real-ip"], addressKey probe.arrival.headers h = none := by
    intro h hh
    unfold addressKey
    rw [hprobe.noForwarding h hh]
    rfl
  refine key_eq_anonymous.mpr ⟨fun token claims htoken => ?_, ?_⟩
  · unfold bearerToken at htoken
    rw [hprobe.noAuthorization] at htoken
    cases htoken
  · unfold namedAddress
    rw [List.findSome?_eq_none_iff.mpr haddress]
    rfl

/-- The requests of a stream that are charged to the shared bucket. -/
def sharing (C : Crates Time) (state : AppState) (rs : List (Incoming Time ℚ)) : List (Incoming Time ℚ) :=
  rs.filter (Incoming.key C state · = "ip:anonymous")

/-- The cells that a request finds in the shared bucket, under a limit of `n` per minute. -/
def sharedCells (C : Crates Time) (state : AppState) (n : ℕ) (before : List (Incoming Time ℚ))
    (r : Incoming Time ℚ) : ℚ :=
  TokenBucket.cellsLeft (max n 1) ((max n 1 : ℕ) / 60 : ℚ) ((sharing C state before).map Incoming.clock) r.clock

theorem sharing_ordered (hclock : TokenBucket.Ordered ((before ++ [probe]).map Incoming.clock)) :
    TokenBucket.Ordered ((sharing C state before).map Incoming.clock ++ [probe.clock]) := by
  apply hclock.sublist
  rw [List.map_append]
  exact (List.filter_sublist.map _).append_right _

/-! ### The answer to a probe -/

/-- What a probe finds in the bucket, after any requests. -/
theorem feed_probe (hG : G.IsTokenBucket) (hprobe : probe.IsProbe)
    (hclock : TokenBucket.Ordered ((before ++ [probe]).map Incoming.clock)) :
    ((G.machine (max n 1)).feed
      ((limiterAfter C state (RateLimiter.new G n) before).buckets (probe.key C state)) probe).1 =
      decide (1 ≤ sharedCells C state n before probe) := by
  have hpos : 0 < max n 1 := Nat.lt_of_lt_of_le Nat.zero_lt_one (Nat.le_max_right _ _)
  have hstate : (limiterAfter C state (RateLimiter.new G n) before).buckets (probe.key C state) =
      (G.checks (max n 1)).after none ((sharing C state before).map Incoming.clock) := by
    rw [limiterAfter_buckets, key_of_probe hprobe]
    exact (Keyed.after_apply (M := G.machine (max n 1)) (fun _ => none) before "ip:anonymous").trans
      (Machine.after_comap (M := G.checks (max n 1)) Incoming.clock none _)
  rw [hstate]
  exact hG.feed_after hpos (sharing_ordered hclock)

theorem respond_probe (hG : G.IsTokenBucket) (hprobe : probe.IsProbe)
    (hclock : TokenBucket.Ordered ((before ++ [probe]).map Incoming.clock)) :
    (respond C state (limiterAfter C state (RateLimiter.new G n) before) probe).1 =
      .ret (if 1 ≤ sharedCells C state n before probe then alive
        else AppError.tooManyRequests.intoResponse) := by
  have hquota : (limiterAfter C state (RateLimiter.new G n) before).perMinute = max n 1 := limiterAfter_perMinute _ _
  rw [respond_fst, hquota, feed_probe hG hprobe hclock, handle_probe hprobe]
  by_cases hcell : 1 ≤ sharedCells C state n before probe
  · rw [if_pos hcell, if_pos (decide_eq_true hcell)]
  · rw [if_neg hcell, if_neg (by simpa using hcell)]

/-- **The answer to a probe.**  After any requests a probe is answered by the handler if there is a cell in
the shared bucket, and refused otherwise.  There is one as long as fewer requests than the limit have shared
the bucket; the others do not matter to it. -/
theorem probe_answered (hG : G.IsTokenBucket) (n : ℕ) (hprobe : probe.IsProbe)
    (hclock : TokenBucket.Ordered ((before ++ [probe]).map Incoming.clock)) :
    (respond C state (limiterAfter C state (RateLimiter.new G n) before) probe).1 =
      .ret (if 1 ≤ sharedCells C state n before probe then alive
        else AppError.tooManyRequests.intoResponse) ∧
    ((sharing C state before).length < max n 1 → 1 ≤ sharedCells C state n before probe) ∧
    ∀ r, r ∈ sharing C state before ↔
      r ∈ before ∧ r.Unauthenticated C state ∧ namedAddress r.arrival.headers = "ip:anonymous" := by
  have hrate : (0 : ℚ) ≤ (max n 1 : ℕ) / 60 := (rate_pos (Nat.le_max_right n 1)).le
  refine ⟨respond_probe hG hprobe hclock, fun hfew => ?_, fun r => ?_⟩
  · apply TokenBucket.one_le_cellsLeft hrate (sharing_ordered hclock)
    rw [List.length_map]
    exact hfew
  · unfold sharing
    rw [List.mem_filter, decide_eq_true_eq, key_eq_anonymous]

/-- Under every limit, as many probes at once throttle the next one. -/
theorem throttled_after_probes (hG : G.IsTokenBucket) (n : ℕ) (hprobe : probe.IsProbe) {x : ℚ}
    (hx : probe.clock = (x, x)) :
    TokenBucket.Ordered ((List.replicate (max n 1) probe ++ [probe]).map Incoming.clock) ∧
    (respond C state (limiterAfter C state (RateLimiter.new G n) (List.replicate (max n 1) probe)) probe).1 =
      .ret AppError.tooManyRequests.intoResponse := by
  have hpos : 1 ≤ max n 1 := Nat.le_max_right _ _
  have hclock : TokenBucket.Ordered ((List.replicate (max n 1) probe ++ [probe]).map Incoming.clock) := by
    refine TokenBucket.ordered_of_forall_eq (x := x) fun c hc => ?_
    obtain ⟨r, hr, rfl⟩ := List.mem_map.mp hc
    rcases List.mem_append.mp hr with hr | hr
    · rw [List.eq_of_mem_replicate hr, hx]
    · rw [List.mem_singleton.mp hr, hx]
  have hsharing : sharing C state (List.replicate (max n 1) probe) = List.replicate (max n 1) probe :=
    List.filter_eq_self.mpr fun r hr => by
      rw [List.eq_of_mem_replicate hr]
      exact decide_eq_true (key_of_probe hprobe)
  have hcells : sharedCells C state n (List.replicate (max n 1) probe) probe = 0 := by
    unfold sharedCells
    rw [hsharing, List.map_replicate, hx]
    exact TokenBucket.cellsLeft_burst (rate_pos hpos).le hpos x
  refine ⟨hclock, ?_⟩
  rw [respond_probe hG hprobe hclock, hcells, if_neg (by norm_num)]

end SecureLedger

/-! ### On the sample -/

namespace SecureLedger.Sample

/-- A probe at `s` seconds. -/
def probe (s : ℚ) : Incoming Sec ℚ := ⟨⟨[], .healthz, 10⟩, 9, (s, s)⟩

theorem probe_isProbe (s : ℚ) : (probe s).IsProbe :=
  ⟨rfl, rfl, fun _ _ => rfl⟩

/-- Under a limit of one, the second of two probes is refused. -/
theorem second_probe_throttled : buckets.IsTokenBucket ∧ (probe 0).IsProbe ∧
    (respond crates state (limiterAfter crates state (RateLimiter.new buckets 1) [probe 0]) (probe 0)).1 =
      .ret AppError.tooManyRequests.intoResponse ∧
    ¬ NeverThrottled crates state buckets 1 := by
  obtain ⟨hclock, hanswer⟩ :=
    @throttled_after_probes Sec crates state buckets (probe 0) buckets_isTokenBucket 1 (probe_isProbe 0) 0 rfl
  refine ⟨buckets_isTokenBucket, probe_isProbe 0, hanswer, fun h => ?_⟩
  have halive := h _ (probe 0) (probe_isProbe 0) hclock
  rw [hanswer] at halive
  cases halive

/-- A probe after a request of somebody else is answered. -/
theorem probe_alive : (respond crates state
    (limiterAfter crates state (RateLimiter.new buckets 1) [guess "1.1.1.1" "admin"]) (probe 0)).1 =
      .ret alive := by
  have hclock : TokenBucket.Ordered (([guess "1.1.1.1" "admin"] ++ [probe 0]).map Incoming.clock) :=
    ⟨by decide +kernel, by decide +kernel⟩
  obtain ⟨hanswer, hfew, -⟩ := @probe_answered Sec crates state buckets (probe 0) [guess "1.1.1.1" "admin"]
    buckets_isTokenBucket 1 (probe_isProbe 0) hclock
  rw [if_pos (hfew (by decide +kernel))] at hanswer
  exact hanswer

end SecureLedger.Sample
