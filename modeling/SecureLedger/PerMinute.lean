import SecureLedger.RateLimit
import SecureLedger.Lib.TokenBucket
import Mathlib.Data.Rat.Cast.Order

/-!
# PerMinute — the accepted calls in 60 s

`governor`'s limiter is taken as a token bucket of `n` cells that regains one every `60 s / n`.  A key
that has used up its burst goes on at the rate of the quota, so the most it gets in a window of 60 s is
`2 n - 1` and not `n` (`per_minute_iff`).
-/

namespace SecureLedger

variable {Instant : Type}

/-- A call of `check`, and what the clock reads when its limiter is made and when it is checked. -/
structure Check (Instant : Type) where
  key : String
  clock : Instant × Instant

/-- Calls one after the other. -/
def RateLimiter.checkAll {G : Governor Instant} (self : RateLimiter G) :
    List (Check Instant) → List (Check Instant × Bool)
  | [] => []
  | c :: cs => (c, (self.check c.key c.clock).1) :: (self.check c.key c.clock).2.checkAll cs

theorem checkAll_eq {G : Governor Instant} (self : RateLimiter G) (cs : List (Check Instant)) :
    self.checkAll cs = Keyed.run ((G.checks self.perMinute).comap Check.clock) Check.key self.buckets cs := by
  induction cs generalizing self with
  | nil => rfl
  | cons c cs ih =>
    simp only [RateLimiter.checkAll, Keyed.run, List.cons.injEq]
    exact ⟨rfl, ih _⟩

theorem checkAll_calls {G : Governor Instant} (self : RateLimiter G) (cs : List (Check Instant)) :
    (self.checkAll cs).map Prod.fst = cs := by
  induction cs generalizing self with
  | nil => rfl
  | cons c cs ih => rw [RateLimiter.checkAll, List.map_cons, ih]

/-- A direct limiter with the quota of `n` per minute is a token bucket of capacity `n` that starts full
and regains a cell every `60 s / n`, as long as the clock, which reads seconds, does not go back.
This is `governor` up to two things: it rounds `60 s / n` down to whole nanoseconds, and a limiter that was
idle can let one cell more through at one instant. -/
def Governor.IsTokenBucket (G : Governor ℚ) : Prop :=
  ∀ n, 0 < n → ∀ l : List (ℚ × ℚ), TokenBucket.Ordered l →
    (G.checks n).run none l = (TokenBucket.machine n (n / 60 : ℚ)).run none l

/-- A check after others is accepted if they have left a cell. -/
theorem Governor.IsTokenBucket.feed_after {G : Governor ℚ} (hG : G.IsTokenBucket) {n : ℕ} (hn : 0 < n)
    {l : List (ℚ × ℚ)} {c : ℚ × ℚ} (hl : TokenBucket.Ordered (l ++ [c])) :
    ((G.checks n).feed ((G.checks n).after none l) c).1 =
      decide (1 ≤ TokenBucket.cellsLeft n (n / 60 : ℚ) l c) := by
  have hrun := hG n hn _ hl
  rw [Machine.run_concat, Machine.run_concat] at hrun
  have hlast := (List.append_inj' hrun rfl).2
  rw [← TokenBucket.feed_after]
  exact congrArg Prod.snd (List.cons.inj hlast).1

/-- The calls for `key` in the window of 60 s from `t` on. -/
def calls (key : String) (t : ℚ) (cs : List (Check ℚ)) : List (Check ℚ) :=
  cs.filter fun c => t ≤ c.clock.2 && c.clock.2 < t + 60 && c.key = key

/-- How many of them are accepted. -/
def acceptedCalls (key : String) (t : ℚ) (out : List (Check ℚ × Bool)) : ℕ :=
  out.countP fun p => p.2 && t ≤ p.1.clock.2 && p.1.clock.2 < t + 60 && p.1.key = key

/-- A limiter with the quota of `n` accepts at most `m` calls for a key in a window of 60 s. -/
def AtMost (G : Governor ℚ) (n m : ℕ) : Prop :=
  ∀ cs : List (Check ℚ), TokenBucket.Ordered (cs.map Check.clock) → ∀ key t,
    acceptedCalls key t ((RateLimiter.new G n).checkAll cs) ≤ m

variable {G : Governor ℚ} {n : ℕ} {key : String} {cs : List (Check ℚ)} {t : ℚ}

/-- The clock at the calls for `key`. -/
def clocksOf (key : String) (cs : List (Check ℚ)) : List (ℚ × ℚ) := (cs.filter (·.key = key)).map Check.clock

theorem clocksOf_ordered (h : TokenBucket.Ordered (cs.map Check.clock)) (key : String) :
    TokenBucket.Ordered (clocksOf key cs) :=
  h.sublist (List.filter_sublist.map _)

/-- The calls for a key are accepted as the bucket of the key accepts them. -/
theorem acceptedCalls_eq (hG : G.IsTokenBucket) (hn : 1 ≤ n) (hcs : TokenBucket.Ordered (cs.map Check.clock)) :
    acceptedCalls key t ((RateLimiter.new G n).checkAll cs) = TokenBucket.accepted t (t + 60)
      ((TokenBucket.machine n (n / 60 : ℚ)).run none (clocksOf key cs)) := by
  have hquota : (RateLimiter.new G n).perMinute = n := max_eq_left hn
  have hrun := hG n hn _ (clocksOf_ordered hcs key)
  rw [← hrun, checkAll_eq, hquota]
  exact Keyed.countP_comap Check.clock (fun p => p.2 && t ≤ p.1.2 && p.1.2 < t + 60) _ cs key

theorem rate_pos (hn : 1 ≤ n) : (0 : ℚ) < n / 60 := div_pos (Nat.cast_pos.mpr hn) (by norm_num)

/-- A full bucket and what is refilled in 60 s. -/
theorem atMost_two_mul (hG : G.IsTokenBucket) (hn : 1 ≤ n) : AtMost G n (2 * n - 1) := by
  intro cs hcs key t
  have hlt := TokenBucket.accepted_window_lt_of_none n t (rate_pos hn) (by norm_num : (0 : ℚ) < 60)
    (clocksOf_ordered hcs key)
  rw [div_mul_cancel₀ _ (by norm_num : (60 : ℚ) ≠ 0), ← acceptedCalls_eq hG hn hcs, ← Nat.cast_add,
    Nat.cast_lt] at hlt
  omega

/-- A key's calls in a burst and at each cell that is refilled within the 60 s. -/
theorem le_of_atMost (hG : G.IsTokenBucket) (hn : 1 ≤ n) {m : ℕ} (h : AtMost G n m) : 2 * n - 1 ≤ m := by
  have hrate := rate_pos hn
  let l := TokenBucket.busy n (n / 60 : ℚ) 0 (n - 1)
  let cs : List (Check ℚ) := l.map fun clock => ⟨"", clock⟩
  have hclocks : cs.map Check.clock = l := by
    rw [List.map_map]
    exact List.map_id l
  have hkey : clocksOf "" cs = l := by
    have hall : ∀ c ∈ cs, decide (c.key = "") = true := fun c hc => by
      obtain ⟨clock, -, rfl⟩ := List.mem_map.mp hc
      rfl
    rw [clocksOf, List.filter_eq_self.mpr hall, hclocks]
  have hordered : TokenBucket.Ordered (cs.map Check.clock) := hclocks ▸ TokenBucket.busy_ordered hrate _
  have hlast : ((n - 1 : ℕ) : ℚ) / (n / 60) < 60 := by
    rw [div_lt_iff₀ hrate, mul_div_cancel₀ _ (by norm_num : (60 : ℚ) ≠ 0), Nat.cast_lt]
    omega
  have hwindow : ∀ c ∈ l, (0 : ℚ) ≤ c.2 ∧ c.2 < 0 + 60 := fun c hc => by
    obtain ⟨-, hle, hlt⟩ := TokenBucket.mem_busy hrate hc
    exact ⟨hle, by linarith⟩
  have hm := h cs hordered "" 0
  rw [acceptedCalls_eq hG hn hordered, hkey, TokenBucket.accepted_of_forall hwindow,
    TokenBucket.burst_refills hrate hn] at hm
  omega

/-- Calls of a key within less than the time of one refill are within its burst. -/
theorem acceptedCalls_le_of_close (hG : G.IsTokenBucket) (hn : 1 ≤ n)
    (hcs : TokenBucket.Ordered (cs.map Check.clock)) {x : ℚ}
    (h : ∀ c ∈ calls key t cs, x ≤ c.clock.2 ∧ c.clock.2 < x + 60 / n) :
    acceptedCalls key t ((RateLimiter.new G n).checkAll cs) ≤ n := by
  have hrefill : (1 : ℚ) / (n / 60) = 60 / n := one_div_div _ _
  have hburst := TokenBucket.accepted_instant_le n (rate_pos hn) (clocksOf_ordered hcs key) x
  rw [acceptedCalls_eq hG hn hcs]
  refine (List.countP_mono_left fun p hp hok => ?_).trans hburst
  obtain ⟨c, hc, hclock⟩ := List.mem_map.mp (Machine.fst_mem_of_mem_run hp)
  obtain ⟨hmem, hkey⟩ := List.mem_filter.mp hc
  simp only [Bool.and_eq_true, decide_eq_true_eq] at hok hkey ⊢
  obtain ⟨⟨haccepted, hle⟩, hlt⟩ := hok
  have hcall : c ∈ calls key t cs := by
    refine List.mem_filter.mpr ⟨hmem, ?_⟩
    simp only [Bool.and_eq_true, decide_eq_true_eq]
    exact ⟨⟨hclock ▸ hle, hclock ▸ hlt⟩, hkey⟩
  obtain ⟨hxle, hxlt⟩ := h c hcall
  rw [hclock] at hxle hxlt
  rw [hrefill]
  exact ⟨⟨haccepted, hxle⟩, hxlt⟩

/-- No more calls are accepted than made. -/
theorem acceptedCalls_le_calls (limiter : RateLimiter G) :
    acceptedCalls key t (limiter.checkAll cs) ≤ (calls key t cs).length := by
  rw [calls, ← List.countP_eq_length_filter]
  conv_rhs => rw [← checkAll_calls limiter cs, List.countP_map]
  apply List.countP_mono_left
  intro p _ hok
  simp only [Function.comp_apply, Bool.and_eq_true] at hok ⊢
  exact ⟨⟨hok.1.1.2, hok.1.2⟩, hok.2⟩

/-- **The limit of the quota.**  The most a key gets in a window of 60 s is `2 n - 1` calls, so the
windows have no more than `n` for `n = 1` only.  A window has no more if the key is called at most `n`
times in it, or only within less than the `60 s / n` of one refill. -/
theorem per_minute_iff (hG : G.IsTokenBucket) (hn : 1 ≤ n) :
    (AtMost G n n ↔ n = 1) ∧ (∀ m, AtMost G n m ↔ 2 * n - 1 ≤ m) ∧
    ∀ cs : List (Check ℚ), TokenBucket.Ordered (cs.map Check.clock) → ∀ key t,
      ((calls key t cs).length ≤ n ∨ ∃ x, ∀ c ∈ calls key t cs, x ≤ c.clock.2 ∧ c.clock.2 < x + 60 / n) →
        acceptedCalls key t ((RateLimiter.new G n).checkAll cs) ≤ n := by
  have hmost : ∀ m, AtMost G n m ↔ 2 * n - 1 ≤ m := fun m =>
    ⟨le_of_atMost hG hn, fun hm cs hcs key t => (atMost_two_mul hG hn cs hcs key t).trans hm⟩
  refine ⟨?_, hmost, ?_⟩
  · rw [hmost]
    omega
  · rintro cs hcs key t (hfew | ⟨x, hclose⟩)
    · exact (acceptedCalls_le_calls _).trans hfew
    · exact acceptedCalls_le_of_close hG hn hcs hclose

end SecureLedger

/-! ### On the sample -/

namespace SecureLedger.Sample

/-- A governor whose limiters are token buckets of their quota. -/
def buckets : Governor ℚ where
  Limiter := ℕ × TokenBucket.Bucket ℚ
  directWithClock n now := (n, .full n now)
  check limiter now :=
    let out := limiter.2.take limiter.1 (limiter.1 / 60 : ℚ) now
    (out.1, (limiter.1, out.2))

theorem buckets_isTokenBucket : buckets.IsTokenBucket := by
  intro n _ l _
  have hmade : ∀ (l : List (ℚ × ℚ)) (b : TokenBucket.Bucket ℚ),
      (buckets.checks n).run (some (n, b)) l = (TokenBucket.machine n (n / 60 : ℚ)).run (some b) l := by
    intro l
    induction l with
    | nil => exact fun _ => rfl
    | cons c l ih =>
      intro b
      rw [Machine.run, TokenBucket.run_cons]
      exact congrArg (List.cons _) (ih _)
  cases l with
  | nil => rfl
  | cons c l =>
    rw [Machine.run, Machine.run]
    exact congrArg (List.cons _) (hmade l _)

/-- Two calls that use up a quota of two, and one after 30 s. -/
def thrice : List (Check ℚ) := [⟨"a", 0, 0⟩, ⟨"a", 0, 0⟩, ⟨"a", 30, 30⟩]

theorem thrice_ordered : TokenBucket.Ordered (thrice.map Check.clock) :=
  ⟨by decide +kernel, by decide +kernel⟩

/-- The third is accepted as well. -/
theorem third_accepted : buckets.IsTokenBucket ∧ TokenBucket.Ordered (thrice.map Check.clock) ∧
    acceptedCalls "a" 0 ((RateLimiter.new buckets 2).checkAll thrice) = 3 :=
  ⟨buckets_isTokenBucket, thrice_ordered, by decide +kernel⟩

/-- Three in 60 s is the most, and of three at once two are accepted. -/
theorem burst_accepted : AtMost buckets 2 3 ∧
    acceptedCalls "a" 0 ((RateLimiter.new buckets 2).checkAll (List.replicate 3 ⟨"a", 0, 0⟩)) ≤ 2 := by
  obtain ⟨-, hmost, hclose⟩ := per_minute_iff buckets_isTokenBucket (by decide : 1 ≤ 2)
  refine ⟨(hmost 3).mpr (by decide), hclose _ ⟨by decide +kernel, by decide +kernel⟩ "a" 0 (.inr ⟨0, ?_⟩)⟩
  decide +kernel

end SecureLedger.Sample
