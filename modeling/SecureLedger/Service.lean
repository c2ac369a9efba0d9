import SecureLedger.PerMinute
import SecureLedger.Budget
import SecureLedger.Ledger
import SecureLedger.Lib.Layer
import Mathlib.Algebra.Order.BigOperators.Group.Finset

/-!
# Service — the router with its middleware

`buildRouter` is the service as its clients see it: the handlers, the rate limiter around them and the
metrics around both, each with a store of its own.  Any number of requests are in flight, and their calls
on the three stores interleave in any order.
-/

namespace SecureLedger

open Atomic

variable {Time Instant Latency : Type}

/-! ### Routes -/

def Op.method : Op → String
  | .login _ | .createTask _ => "POST"
  | .updateTask _ _ => "PUT"
  | .deleteTask _ => "DELETE"
  | .listTasks _ | .getTask _ | .listAudit _ | .healthz | .readyz => "GET"

/-- The route template, as axum hands it to the middleware. -/
def Op.matchedPath : Op → String
  | .login _ => "/api/auth/login"
  | .listTasks _ | .createTask _ => "/api/tasks"
  | .getTask _ | .updateTask _ _ | .deleteTask _ => "/api/tasks/:id"
  | .listAudit _ => "/api/audit"
  | .healthz => "/healthz"
  | .readyz => "/readyz"

/-! ### Metrics -/

/-- The labels of `http_requests_total`. -/
structure Labels where
  method : String
  path : String
  status : String
  deriving DecidableEq

/-- What the recorder holds: a counter for each label set, and the latencies of each method and path.  This and
`MetricCall.exec` are the accumulation that `metrics` documents: an increment adds one, a record one sample. -/
structure Metrics (Latency : Type) where
  requestsTotal : Labels → ℕ
  requestDuration : String × String → List Latency

def Metrics.empty : Metrics Latency := ⟨fun _ => 0, fun _ => []⟩

inductive MetricCall where
  | increment (labels : Labels)
  | record (method path : String)
  deriving DecidableEq

def MetricCall.exec (c : MetricCall) (latency : Latency) (m : Metrics Latency) : Unit × Metrics Latency :=
  match c with
  | .increment labels =>
    ((), ⟨Function.update m.requestsTotal labels (m.requestsTotal labels + 1), m.requestDuration⟩)
  | .record method path =>
    ((), ⟨m.requestsTotal, Function.update m.requestDuration (method, path)
      (m.requestDuration (method, path) ++ [latency])⟩)

/-- The labels a request is counted under. -/
def labelsOf (r : Incoming Time Instant) (response : Response Time) : Labels :=
  ⟨r.arrival.op.method, r.arrival.op.matchedPath, toString response.status⟩

/-! ### The middleware -/

section Layers

variable (Latency) (C : Crates Time) (state : AppState) (G : Governor Instant)

/-- `rate_limit`. -/
def rateLimitLayer : Layer (RateLimiter G) (Arrival Time) (Incoming Time Instant) (Check Instant) Unit
    (Response Time) (fun _ => Bool) where
  inner r := r.arrival
  before r := .call ⟨r.key C state, r.clock⟩ fun allowed =>
    .ret (if !allowed then some AppError.tooManyRequests.intoResponse else none)
  after _ response := .ret response
  exec c _ limiter := limiter.check c.key c.clock

/-- `track_metrics`. -/
def trackMetrics : Layer (Metrics Latency) (Incoming Time Instant) (Incoming Time Instant) MetricCall Latency
    (Response Time) (fun _ => Unit) where
  inner r := r
  before _ := .ret none
  after r response :=
    .call (.increment (labelsOf r response)) fun _ =>
    .call (.record r.arrival.op.method r.arrival.op.matchedPath) fun _ =>
    .ret response
  exec := MetricCall.exec

/-- The handlers behind the rate limiter. -/
def limited : System (Db × RateLimiter G) (Incoming Time Instant) (DbCall Time ⊕ Check Instant)
    (Input Time × Unit) (Response Time) (Sum.elim DbCall.Reply fun _ => Bool) :=
  (rateLimitLayer C state G).around (server C state)

/-- `build_router`: the rate limiter is registered before the metrics, which are therefore outside. -/
def buildRouter : System ((Db × RateLimiter G) × Metrics Latency) (Incoming Time Instant)
    ((DbCall Time ⊕ Check Instant) ⊕ MetricCall) ((Input Time × Unit) × Latency) (Response Time)
    (Sum.elim (Sum.elim DbCall.Reply fun _ => Bool) fun _ => Unit) :=
  (trackMetrics Latency).around (limited C state G)

end Layers

abbrev LimitedWorld (Time : Type) {Instant : Type} (G : Governor Instant) :=
  World (Db × RateLimiter G) (Incoming Time Instant) (DbCall Time ⊕ Check Instant) (Input Time × Unit)
    (Response Time) (Sum.elim (@DbCall.Reply Time) fun _ => Bool)

abbrev RouterWorld (Time : Type) {Instant : Type} (G : Governor Instant) (Latency : Type) :=
  World ((Db × RateLimiter G) × Metrics Latency) (Incoming Time Instant)
    ((DbCall Time ⊕ Check Instant) ⊕ MetricCall) ((Input Time × Unit) × Latency) (Response Time)
    (Sum.elim (Sum.elim (@DbCall.Reply Time) fun _ => Bool) fun _ => Unit)

/-! ### A request at the rate limiter -/

section Limit

variable {C : Crates Time} {state : AppState} {G : Governor Instant} {r : Incoming Time Instant}

abbrev CheckEvent (G : Governor Instant) := Event (RateLimiter G) (Check Instant) Unit

abbrev LimitedEvent (Time : Type) {Instant : Type} (G : Governor Instant) :=
  Event (Db × RateLimiter G) (DbCall Time ⊕ Check Instant) (Input Time × Unit)

/-- What `check` answered. -/
def CheckEvent.allowed (e : CheckEvent G) : Bool := (e.before.check e.call.key e.call.clock).1

variable (C state G r) in
/-- The stages of a request, by its calls on the tables and on the limiter. -/
inductive LimitStage (es : List (LimitedEvent Time G)) :
    Prog (DbCall Time ⊕ Check Instant) (Sum.elim DbCall.Reply fun _ => Bool) (Response Time) → Prop
  | waiting {k} (hown : ownEvents es = []) (hin : insideEvents es = []) :
      LimitStage es (.call (.inr ⟨r.key C state, r.clock⟩) k)
  | refused {e : CheckEvent G} (hown : ownEvents es = [e]) (hcall : e.call = ⟨r.key C state, r.clock⟩)
      (hok : e.allowed = false) (hin : insideEvents es = []) :
      LimitStage es (.ret AppError.tooManyRequests.intoResponse)
  | admitted {e : CheckEvent G} {q} (hown : ownEvents es = [e]) (hcall : e.call = ⟨r.key C state, r.clock⟩)
      (hok : e.allowed = true) (hin : Follows (server C state) (handle C state r.arrival) (insideEvents es) q) :
      LimitStage es ((q.inside fun _ => Bool).bind .ret)

/-- What the check of a request leads to. -/
theorem follows_check {es : List (CheckEvent G)} {b : Prog (Check Instant) (fun _ => Bool) (Option (Response Time))}
    (h : Follows ((rateLimitLayer C state G).calls _) ((rateLimitLayer C state G).before r) es b) :
    (es = [] ∧ b = (rateLimitLayer C state G).before r) ∨
      ∃ e : CheckEvent G, es = [e] ∧ e.call = ⟨r.key C state, r.clock⟩ ∧
        b = .ret (if !e.allowed then some AppError.tooManyRequests.intoResponse else none) := by
  rcases follows_call.mp h with ⟨rfl, rfl⟩ | ⟨i, x, s, es', rfl, hrest⟩
  · exact .inl ⟨rfl, rfl⟩
  · obtain ⟨rfl, rfl⟩ := follows_ret.mp hrest
    exact .inr ⟨_, rfl, rfl, rfl⟩

theorem limitStage {es : List (LimitedEvent Time G)} {p}
    (h : (rateLimitLayer C state G).Stage (server C state) r es p) :
    LimitStage C state G r es p := by
  cases h with
  | deciding b hb hin =>
    rcases follows_check hb with ⟨hown, rfl⟩ | ⟨e, hown, hcall, rfl⟩
    · exact .waiting hown hin
    · cases hok : e.allowed with
      | false => exact .refused hown hcall hok hin
      | true => exact .admitted hown hcall hok (by rw [hin]; exact .nil _)
  | refused a hb hin =>
    rcases follows_check hb with ⟨-, hret⟩ | ⟨e, hown, hcall, hret⟩
    · cases hret
    · cases hok : e.allowed with
      | false =>
        rw [hok] at hret
        cases hret
        exact .refused hown hcall hok hin
      | true => rw [hok] at hret; cases hret
  | handed q hb hin =>
    rcases follows_check hb with ⟨-, hret⟩ | ⟨e, hown, hcall, hret⟩
    · cases hret
    · cases hok : e.allowed with
      | false => rw [hok] at hret; cases hret
      | true => exact .admitted hown hcall hok hin
  | leaving a es₁ es₂ b hown hb hin ha =>
    obtain ⟨rfl, rfl⟩ := follows_ret.mp ha
    rcases follows_check hb with ⟨-, hret⟩ | ⟨e, rfl, hcall, hret⟩
    · cases hret
    · cases hok : e.allowed with
      | false => rw [hok] at hret; cases hret
      | true => exact .admitted (by rw [hown]; rfl) hcall hok hin

end Limit

/-! ### A request at the metrics -/

section Track

variable {C : Crates Time} {state : AppState} {G : Governor Instant} {r : Incoming Time Instant}

abbrev RouterEvent (Time : Type) {Instant : Type} (G : Governor Instant) (Latency : Type) :=
  Event ((Db × RateLimiter G) × Metrics Latency) ((DbCall Time ⊕ Check Instant) ⊕ MetricCall)
    ((Input Time × Unit) × Latency)

abbrev MetricEvent (Latency : Type) := Event (Metrics Latency) MetricCall Latency

/-- The calls on the recorder that an answer leads to. -/
def metricCalls (r : Incoming Time Instant) (response : Response Time) : List MetricCall :=
  [.increment (labelsOf r response), .record r.arrival.op.method r.arrival.op.matchedPath]

variable (C state G r) in
/-- The stages of a request, by its calls behind the metrics and on them. -/
inductive MetricStage (es : List (RouterEvent Time G Latency)) :
    Prog ((DbCall Time ⊕ Check Instant) ⊕ MetricCall)
      (Sum.elim (Sum.elim DbCall.Reply fun _ => Bool) fun _ => Unit) (Response Time) → Prop
  | running {c k} (hown : ownEvents es = []) : MetricStage es (.call c k)
  | counted {response k} (hown : (ownEvents es).map Event.call = [.increment (labelsOf r response)])
      (hin : Follows (limited C state G) ((limited C state G).start r) (insideEvents es) (.ret response)) :
      MetricStage es (.call (.inr (.record r.arrival.op.method r.arrival.op.matchedPath)) k)
  | answered {response} (hown : (ownEvents es).map Event.call = metricCalls r response)
      (hin : Follows (limited C state G) ((limited C state G).start r) (insideEvents es) (.ret response)) :
      MetricStage es (.ret response)

theorem metricStage {es : List (RouterEvent Time G Latency)} {p}
    (h : (trackMetrics Latency).Stage (limited C state G) r es p) : MetricStage C state G r es p := by
  have hrunning : ∀ q : Prog (DbCall Time ⊕ Check Instant) (Sum.elim DbCall.Reply fun _ => Bool) (Response Time),
      ownEvents es = [] →
        MetricStage C state G r es ((q.inside fun _ => Unit).bind ((trackMetrics Latency).leave r)) := by
    intro q hown
    cases q <;> exact .running hown
  cases h with
  | deciding b hb hin =>
    obtain ⟨hown, rfl⟩ := follows_ret.mp hb
    exact hrunning _ hown
  | refused a hb hin =>
    obtain ⟨-, hret⟩ := follows_ret.mp hb
    cases hret
  | handed q hb hin =>
    obtain ⟨hown, -⟩ := follows_ret.mp hb
    exact hrunning q hown
  | leaving a es₁ es₂ b hown hb hin ha =>
    obtain ⟨rfl, -⟩ := follows_ret.mp hb
    rcases follows_call.mp ha with ⟨rfl, rfl⟩ | ⟨i, x, s, es₃, rfl, hrest⟩
    · exact .running hown
    · rcases follows_call.mp hrest with ⟨rfl, rfl⟩ | ⟨j, y, t, es₄, rfl, hlast⟩
      · exact .counted (by rw [hown]; rfl) hin
      · obtain ⟨rfl, rfl⟩ := follows_ret.mp hlast
        exact .answered (by rw [hown]; rfl) hin

/-- What the recorder's calls make of it. -/
theorem metrics_of_trace {m m' : Metrics Latency} {es : List (MetricEvent Latency)}
    (h : Trace MetricCall.exec m es m') :
    (∀ labels, m'.requestsTotal labels = m.requestsTotal labels + es.countP (·.call = .increment labels)) ∧
    ∀ method path, (m'.requestDuration (method, path)).length =
      (m.requestDuration (method, path)).length + es.countP (·.call = .record method path) := by
  induction es generalizing m with
  | nil => cases h; exact ⟨fun _ => rfl, fun _ _ => rfl⟩
  | cons e es ih =>
    obtain ⟨htotal, hduration⟩ := ih h.2
    obtain ⟨i, c, latency, s⟩ := e
    cases c with
    | increment labels' =>
      refine ⟨fun labels => ?_, fun method path => ?_⟩
      · rw [htotal, List.countP_cons]
        by_cases hl : labels' = labels
        · subst hl
          simp [MetricCall.exec]
          omega
        · have hne : labels ≠ labels' := fun h => hl h.symm
          simp [MetricCall.exec, hl, Function.update_of_ne hne]
      · rw [hduration, List.countP_cons]
        simp [MetricCall.exec]
    | record method' path' =>
      refine ⟨fun labels => ?_, fun method path => ?_⟩
      · rw [htotal, List.countP_cons]
        simp [MetricCall.exec]
      · rw [hduration, List.countP_cons]
        by_cases hk : (method', path') = (method, path)
        · cases hk
          simp [MetricCall.exec]
          omega
        · have hne : (method, path) ≠ (method', path') := fun h => hk h.symm
          have hne' : ¬ (method' = method ∧ path' = path) := fun h => hk (Prod.mk.injEq .. ▸ h)
          simp [MetricCall.exec, hne', Function.update_of_ne hne]

end Track

/-! ### Runs of the service -/

section Runs

variable {C : Crates Time} {state : AppState} {G : Governor Instant} {db : Db} {limiter : RateLimiter G}
  {metrics : Metrics Latency} {w : RouterWorld Time G Latency}

/-- The calls on the tables. -/
def tableCalls (w : RouterWorld Time G Latency) : List (DbEvent Time) := insideEvents (insideEvents w.log)

/-- The checks of the limiter. -/
def limiterChecks (w : RouterWorld Time G Latency) : List (CheckEvent G) := ownEvents (insideEvents w.log)

/-- Request `i` has been checked, once, with the answer `allowed`. -/
def Checked (w : RouterWorld Time G Latency) (i : ℕ) (allowed : Bool) : Prop :=
  ∃ e, (limiterChecks w).filter (·.tid = i) = [e] ∧ e.allowed = allowed

/-- The limiter answers the checks in their order. -/
theorem checkAll_of_trace {limiter limiter' : RateLimiter G} {es : List (CheckEvent G)}
    (h : Trace (rateLimitLayer C state G).exec limiter es limiter') :
    limiter.checkAll (es.map Event.call) = es.map fun e => (e.call, e.allowed) := by
  induction es generalizing limiter with
  | nil => rfl
  | cons e es ih =>
    obtain ⟨hbefore, hrest⟩ := h
    rw [List.map_cons, RateLimiter.checkAll, List.map_cons, CheckEvent.allowed, hbefore]
    exact congrArg _ (ih hrest)

/-- What a run of the service is behind the metrics. -/
theorem limited_of_router (h : Reach (buildRouter Latency C state G) ((db, limiter), metrics) w) :
    ∃ u, Reach (limited C state G) (db, limiter) u ∧ (trackMetrics Latency).Shadow (limited C state G) w u :=
  Layer.project h

/-- The answer that a request got is the one that came from behind the metrics. -/
theorem answered_inside {u : LimitedWorld Time G}
    (h : Reach (buildRouter Latency C state G) ((db, limiter), metrics) w)
    (hu : Reach (limited C state G) (db, limiter) u)
    (hmetrics : (trackMetrics Latency).Shadow (limited C state G) w u) {i : ℕ} {r : Incoming Time Instant}
    {response : Response Time} (hi : w.Has i ⟨r, .ret response⟩) : u.Has i ⟨r, .ret response⟩ := by
  have hstage : MetricStage C state G r (w.own i) (.ret response) := metricStage (Layer.stage h hi)
  generalize hp : Prog.ret response = p at hstage
  cases hstage with
  | running => cases hp
  | counted => cases hp
  | answered _ hin => cases hp; exact hmetrics.has hu hi hin

/-- The limiter decides as if the requests had been checked one after the other. -/
theorem checkAll_limiterChecks (h : Reach (buildRouter Latency C state G) ((db, limiter), metrics) w) :
    limiter.checkAll ((limiterChecks w).map Event.call) =
      (limiterChecks w).map fun e => (e.call, e.allowed) := by
  obtain ⟨u, hu, hmetrics⟩ := limited_of_router h
  have htrace := Layer.trace hu
  rw [hmetrics.log] at htrace
  exact checkAll_of_trace htrace

/-- The run of the handlers that a run of the service is. -/
theorem handled_of_router (h : Reach (buildRouter Latency C state G) ((db, limiter), metrics) w) :
    ∃ v : ServerWorld Time, Reach (server C state) db v ∧ v.db = w.db.1.1 ∧ v.log = tableCalls w ∧
      (∀ d ∈ v.log, Checked w d.tid true) ∧
      ∀ i th response, w.Has i th → th.answer = some response →
        (Checked w i true ∧ v.Has i ⟨th.req.arrival, .ret response⟩) ∨
        (Checked w i false ∧ v.own i = [] ∧ response = AppError.tooManyRequests.intoResponse) := by
  obtain ⟨u, hu, hmetrics⟩ := limited_of_router h
  obtain ⟨v, hv, hlimit⟩ := Layer.project hu
  have hchecks : ∀ i, ownEvents (u.own i) = (limiterChecks w).filter (·.tid = i) := by
    intro i
    rw [World.own, ownEvents_filter, hmetrics.log]
    rfl
  refine ⟨v, hv, by rw [hlimit.db, hmetrics.db], by rw [hlimit.log, hmetrics.log]; rfl, ?_, ?_⟩
  · intro d hd
    obtain ⟨th, hi⟩ : ∃ th, u.Has d.tid th :=
      ⟨_, List.getElem?_eq_getElem (hlimit.length ▸ hv.tid_lt d hd)⟩
    have hin : d ∈ insideEvents (u.own d.tid) := hlimit.own_eq d.tid ▸ World.mem_own.mpr ⟨hd, rfl⟩
    rw [Checked, ← hchecks]
    have hstage := limitStage (Layer.stage hu hi)
    generalize th.prog = p at hstage
    cases hstage with
    | waiting _ hnone => rw [hnone] at hin; cases hin
    | refused _ _ _ hnone => rw [hnone] at hin; cases hin
    | admitted hown _ hok _ => exact ⟨_, hown, hok⟩
  · rintro i ⟨r, p⟩ response hi hanswer
    obtain rfl : p = .ret response := Thread.answer_eq_some.mp hanswer
    have hu' := answered_inside h hu hmetrics hi
    rw [Checked, Checked, ← hchecks]
    have hstage : LimitStage C state G r (u.own i) (.ret response) := limitStage (Layer.stage hu hu')
    generalize hp : Prog.ret response = p at hstage
    cases hstage with
    | waiting => cases hp
    | refused hown _ hok hnone =>
      cases hp
      exact .inr ⟨⟨_, hown, hok⟩, by rw [hlimit.own_eq, hnone], rfl⟩
    | @admitted e q hown _ hok hin =>
      cases q with
      | ret a => cases hp; exact .inl ⟨⟨_, hown, hok⟩, hlimit.has hv hu' hin⟩
      | call c k => cases hp

/-- **The middleware is transparent.**  Any run of the service is a run of its handlers alone: the same calls
on the same tables, with the request behind each let through by the limiter before.  What is answered is the
handler's response, or 429 to a request that the limiter refused and that made no call on the tables.  The
limiter decides as if the requests had been checked one after the other. -/
theorem router_projects (h : Reach (buildRouter Latency C state G) ((db, limiter), metrics) w) :
    (∃ v : ServerWorld Time, Reach (server C state) db v ∧ v.db = w.db.1.1 ∧ v.log = tableCalls w ∧
      (∀ d ∈ v.log, Checked w d.tid true) ∧
      ∀ i th response, w.Has i th → th.answer = some response →
        (Checked w i true ∧ v.Has i ⟨th.req.arrival, .ret response⟩) ∨
        (Checked w i false ∧ v.own i = [] ∧ response = AppError.tooManyRequests.intoResponse)) ∧
    limiter.checkAll ((limiterChecks w).map Event.call) =
      (limiterChecks w).map fun e => (e.call, e.allowed) :=
  ⟨handled_of_router h, checkAll_limiterChecks h⟩

/-! ### The counts of a run -/

abbrev RouterThread (Time Instant : Type) :=
  Thread (Incoming Time Instant) ((DbCall Time ⊕ Check Instant) ⊕ MetricCall) (Response Time)
    (Sum.elim (Sum.elim (@DbCall.Reply Time) fun _ => Bool) fun _ => Unit)

/-- Answered with these labels. -/
def answeredWith (labels : Labels) (th : RouterThread Time Instant) : Bool :=
  th.answer.any fun response => labelsOf th.req response = labels

/-- Answered, on this route. -/
def answeredOn (method path : String) (th : RouterThread Time Instant) : Bool :=
  th.answer.isSome && th.req.arrival.op.method = method && th.req.arrival.op.matchedPath = path

/-- What a request has done at the recorder. -/
theorem recorder_calls (h : Reach (buildRouter Latency C state G) ((db, limiter), metrics) w) {i : ℕ}
    {th : RouterThread Time Instant} (hi : w.Has i th) :
    ((ownEvents (w.own i)).map Event.call = [] ∧ th.answer = none) ∨
    ∃ response, ((ownEvents (w.own i)).map Event.call = [.increment (labelsOf th.req response)] ∧
        th.answer = none) ∨
      ((ownEvents (w.own i)).map Event.call = metricCalls th.req response ∧ th.answer = some response) := by
  have hstage := metricStage (Layer.stage h hi)
  unfold Thread.answer
  generalize th.prog = p at hstage
  cases hstage with
  | running hown => exact .inl ⟨by rw [hown]; rfl, rfl⟩
  | counted hown => exact .inr ⟨_, .inl ⟨hown, rfl⟩⟩
  | answered hown => exact .inr ⟨_, .inr ⟨hown, rfl⟩⟩

theorem countP_call (es : List (MetricEvent Latency)) (c : MetricCall) :
    es.countP (·.call = c) = (es.map Event.call).count c := by
  rw [List.count, List.countP_map]
  exact List.countP_congr fun e _ => by simp

/-- The calls on the recorder, request by request. -/
theorem recorder_count (h : Reach (buildRouter Latency C state G) ((db, limiter), metrics) w) (c : MetricCall) :
    (ownEvents w.log).countP (·.call = c) =
      ∑ i ∈ Finset.range w.threads.length, ((ownEvents (w.own i)).map Event.call).count c := by
  rw [Layer.countP_own h]
  exact Finset.sum_congr rfl fun i _ => countP_call _ _

/-- What a request has done for the counts: a sample if it is answered, its labels counted then at the latest. -/
theorem recorder_counted (h : Reach (buildRouter Latency C state G) ((db, limiter), metrics) w) {i : ℕ}
    {th : RouterThread Time Instant} (hi : w.Has i th) :
    (∀ method path, ((ownEvents (w.own i)).map Event.call).count (.record method path) =
      if answeredOn method path th then 1 else 0) ∧
    ∀ labels, (if answeredWith labels th then 1 else 0) ≤
        ((ownEvents (w.own i)).map Event.call).count (.increment labels) ∧
      (th.answer.isSome → ((ownEvents (w.own i)).map Event.call).count (.increment labels) =
        if answeredWith labels th then 1 else 0) := by
  rcases recorder_calls h hi with ⟨hcalls, hanswer⟩ | ⟨response, ⟨hcalls, hanswer⟩ | ⟨hcalls, hanswer⟩⟩
  · simp [hcalls, answeredOn, answeredWith, hanswer]
  · simp [hcalls, answeredOn, answeredWith, hanswer]
  · simp [hcalls, metricCalls, answeredOn, answeredWith, hanswer, List.count_cons]

/-- **Every response is counted, once**, the refused ones too.  The histogram of a route has one sample for
each request answered on it; a counter is never behind the responses with its labels, and equal to their
number when no request is in flight. -/
theorem requests_counted (h : Reach (buildRouter Latency C state G) ((db, limiter), .empty) w) :
    (∀ method path, (w.db.2.requestDuration (method, path)).length =
      w.threads.countP (answeredOn method path)) ∧
    (∀ labels, w.threads.countP (answeredWith labels) ≤ w.db.2.requestsTotal labels) ∧
    (w.Quiescent → ∀ labels, w.db.2.requestsTotal labels = w.threads.countP (answeredWith labels)) := by
  obtain ⟨htotal, hduration⟩ := metrics_of_trace (Layer.trace h)
  have hthread : ∀ i ∈ Finset.range w.threads.length, ∃ th, w.threads[i]? = some th := fun i hi =>
    ⟨_, List.getElem?_eq_getElem (Finset.mem_range.mp hi)⟩
  refine ⟨fun method path => ?_, fun labels => ?_, fun hquiet labels => ?_⟩
  · rw [hduration, recorder_count h, Lists.countP_eq_sum_getElem?, Metrics.empty, List.length_nil, Nat.zero_add]
    refine Finset.sum_congr rfl fun i hi => ?_
    obtain ⟨th, hth⟩ := hthread i hi
    rw [hth, (recorder_counted h hth).1]
    rfl
  · rw [htotal, recorder_count h, Lists.countP_eq_sum_getElem?, Metrics.empty, Nat.zero_add]
    refine Finset.sum_le_sum fun i hi => ?_
    obtain ⟨th, hth⟩ := hthread i hi
    rw [hth]
    exact ((recorder_counted h hth).2 labels).1
  · rw [htotal, recorder_count h, Lists.countP_eq_sum_getElem?, Metrics.empty, Nat.zero_add]
    refine Finset.sum_congr rfl fun i hi => ?_
    obtain ⟨th, hth⟩ := hthread i hi
    obtain ⟨a, ha⟩ := hquiet i th hth
    have hanswered : th.answer.isSome := by rw [Thread.answer_eq_some.mpr ha]; rfl
    rw [hth]
    exact ((recorder_counted h hth).2 labels).2 hanswered

end Runs

/-! ### What a user can write -/

section Writes

/-- A call that reads inserts no audit row. -/
theorem auditOf_reads {C : Chrono Time} {e : DbEvent Time} (h : e.call.Reads) : auditOf C e = none := by
  obtain ⟨i, c, x, db⟩ := e
  cases c with
  | recordAudit => cases h
  | _ => rfl

/-- A request inserts one audit row at most. -/
theorem Stage.audits_le {C : Crates Time} {state : AppState} {a : Arrival Time} {es : List (DbEvent Time)} {p}
    (h : Stage C state a es p) : es.countP (fun e => (auditOf C.chrono e).isSome) ≤ 1 := by
  cases h with
  | refused => exact Nat.zero_le _
  | create _ _ h => cases h <;> simp [List.countP_cons] <;> split <;> omega
  | update _ _ h => cases h <;> simp [List.countP_cons] <;> split <;> omega
  | delete _ _ h => cases h <;> simp [List.countP_cons] <;> split <;> omega
  | reading _ hes =>
    rw [List.countP_eq_zero.mpr fun e he => by rw [auditOf_reads (hes e he)]; simp]
    exact Nat.zero_le _

variable {C : Crates Time} {state : AppState} {G : Governor ℚ} {db : Db} {n : ℕ} {metrics : Metrics Latency}
  {w : RouterWorld Time G Latency}

/-- A check for `key` in the `span` seconds from `t` on. -/
def CheckEvent.within {G : Governor ℚ} (t span : ℚ) (e : CheckEvent G) : Bool :=
  t ≤ e.call.clock.2 && e.call.clock.2 < t + span

/-- The audit rows with the actor `u` whose requests were checked in the `span` seconds from `t` on. -/
def auditedBy (C : Crates Time) (w : RouterWorld Time G Latency) (u : String) (t span : ℚ) : ℕ :=
  (tableCalls w).countP fun e => (auditOf C.chrono e).any (·.actor = u) &&
    (limiterChecks w).any fun c => c.tid = e.tid && c.within t span

/-- The limiter lets through what the bucket of the key does. -/
theorem allowed_eq (hG : G.IsTokenBucket) (hn : 1 ≤ n)
    (h : Reach (buildRouter Latency C state G) ((db, RateLimiter.new G n), metrics) w)
    (hclock : TokenBucket.Ordered ((limiterChecks w).map fun e => e.call.clock)) (key : String) (t span : ℚ) :
    (limiterChecks w).countP (fun e => e.allowed && e.within t span && e.call.key = key) =
      TokenBucket.accepted t (t + span) ((TokenBucket.machine n (n / 60 : ℚ)).run none
        (clocksOf key ((limiterChecks w).map Event.call))) := by
  have hquota : (RateLimiter.new G n).perMinute = n := max_eq_left hn
  have hall := checkAll_limiterChecks h
  have hordered : TokenBucket.Ordered (((limiterChecks w).map Event.call).map Check.clock) := by
    rwa [List.map_map]
  rw [checkAll_eq, hquota] at hall
  have hcount := @Keyed.countP_comap (ℚ × ℚ) Bool String _ (G.checks n) (Check ℚ) Check.key Check.clock
    (fun p => p.2 && t ≤ p.1.2 && p.1.2 < t + span) (fun _ => none) ((limiterChecks w).map Event.call) key
  rw [TokenBucket.accepted, ← hG n hn _ (clocksOf_ordered hordered key)]
  refine Eq.trans ?_ hcount
  show _ = List.countP _ (Keyed.run ((G.checks n).comap Check.clock) Check.key (RateLimiter.new G n).buckets _)
  rw [hall, List.countP_map]
  refine List.countP_congr fun e _ => ?_
  simp [CheckEvent.within, and_assoc]

/-- A request that inserted a row of `u` was let through at the expense of `u`. -/
theorem charged_of_audit (hjwt : C.jwt.OnlyExpires) {u : LimitedWorld Time G} {v : ServerWorld Time}
    {limiter : RateLimiter G} (hu : Reach (limited C state G) (Db.empty, limiter) u)
    (hv : Reach (server C state) Db.empty v) (hlimit : (rateLimitLayer C state G).Shadow (server C state) u v)
    {i : ℕ} {r : Incoming Time ℚ} {p} (hi : u.Has i ⟨r, p⟩)
    (hnow : C.chrono.timestamp r.keyed ≤ C.chrono.timestamp r.arrival.now) {e : DbEvent Time}
    (he : e ∈ v.own i) {row : AuditRow} (hrow : auditOf C.chrono e = some row) :
    ∃ c : CheckEvent G, ownEvents (u.own i) = [c] ∧ c.allowed = true ∧ c.call.key = "sub:" ++ row.actor := by
  obtain ⟨hlog, rfl⟩ := World.mem_own.mp he
  obtain ⟨v', a, k, user, hv', hi', -, hsteps, hauth, hactor, -⟩ := audits_of_event hv hlog hrow
  -- the principal is the one behind the limiter
  obtain ⟨q, hq, -⟩ := hlimit.stands hi
  obtain ⟨p', hp'⟩ := Steps.thread (.head (.call hi' e.input) hsteps) hi'
  have hsame : a = r.arrival := congrArg Thread.req (hp'.unique hq)
  subst hsame
  have hkey : r.key C state = "sub:" ++ row.actor := by
    rw [key_of_authUser hjwt hnow hauth, hactor]
  have hin : e ∈ insideEvents (u.own e.tid) := hlimit.own_eq e.tid ▸ he
  have hstage : LimitStage C state G r (u.own e.tid) p := limitStage (Layer.stage hu hi)
  cases hstage with
  | waiting _ hnone => rw [hnone] at hin; cases hin
  | refused _ _ _ hnone => rw [hnone] at hin; cases hin
  | @admitted c q hown hcall hok _ => exact ⟨c, hown, hok, by rw [hcall, hkey]⟩

/-- **The limit holds for what is written**, if a limiter is a token bucket of its quota, the quota is at least
one, the limiter's clock does not go back, and neither does the wall clock between the decoding of a token for
the limiter and that for the handler.  In any window of the limiter's clock, the audit rows of a user that come
from the requests checked in it are fewer than a full bucket and what the window refills, however the requests
interleave and whatever else they carry. -/
theorem audited_within_budget (hG : G.IsTokenBucket) (hn : 1 ≤ n) (hjwt : C.jwt.OnlyExpires)
    (h : Reach (buildRouter Latency C state G) ((Db.empty, RateLimiter.new G n), metrics) w)
    (hclock : TokenBucket.Ordered ((limiterChecks w).map fun e => e.call.clock))
    (hnow : ∀ i th, w.Has i th →
      C.chrono.timestamp th.req.keyed ≤ C.chrono.timestamp th.req.arrival.now)
    (user : String) (t span : ℚ) (hspan : 0 < span) :
    (auditedBy C w user t span : ℚ) < n + n / 60 * span := by
  have hordered : TokenBucket.Ordered (((limiterChecks w).map Event.call).map Check.clock) := by
    rwa [List.map_map]
  refine lt_of_le_of_lt (Nat.cast_le.mpr ?_) (TokenBucket.accepted_window_lt_of_none n t (rate_pos hn) hspan
    (clocksOf_ordered hordered ("sub:" ++ user)))
  rw [← allowed_eq hG hn h hclock]
  obtain ⟨u, hu, hmetrics⟩ := limited_of_router h
  obtain ⟨v, hv, hlimit⟩ := Layer.project hu
  have hlog : tableCalls w = v.log := by rw [hlimit.log, hmetrics.log]; rfl
  have hchecks : limiterChecks w = ownEvents u.log := by rw [hmetrics.log]; rfl
  rw [auditedBy, hlog, hv.countP_log, hchecks, Layer.countP_own hu, hlimit.length]
  refine Finset.sum_le_sum fun i hi => ?_
  rw [Finset.mem_range, hmetrics.length] at hi
  have hth : w.Has i w.threads[i] := List.getElem?_eq_getElem hi
  obtain ⟨q, hq, -⟩ := hmetrics.stands hth
  obtain ⟨q', hq', -⟩ := hlimit.stands hq
  rcases Nat.eq_zero_or_pos ((v.own i).countP fun e => (auditOf C.chrono e).any (·.actor = user) &&
    (ownEvents u.log).any fun c => c.tid = e.tid && CheckEvent.within t span c) with hzero | hpos
  · rw [hzero]
    exact Nat.zero_le _
  · -- it has written, once, and its one check is in the window
    obtain ⟨e, he, hok⟩ := List.countP_pos_iff.mp hpos
    rw [Bool.and_eq_true, Option.any_eq_true, List.any_eq_true] at hok
    obtain ⟨⟨row, hrow, hactor⟩, c', hc', hwithin⟩ := hok
    obtain ⟨c, hown, hallowed, hkey⟩ := charged_of_audit hjwt hu hv hlimit hq (hnow i _ hth) he hrow
    rw [Bool.and_eq_true, decide_eq_true_eq] at hwithin
    have hmem : c' ∈ ownEvents (u.own i) := by
      rw [World.own, ownEvents_filter]
      exact List.mem_filter.mpr ⟨hc', decide_eq_true (hwithin.1.trans (World.mem_own.mp he).2)⟩
    rw [hown, List.mem_singleton] at hmem
    subst hmem
    have hone : (v.own i).countP (fun e => (auditOf C.chrono e).isSome) ≤ 1 := (stage_of_reach hv hq').audits_le
    refine le_trans (List.countP_mono_left fun e _ h => ?_) (hone.trans ?_)
    · obtain ⟨row, hrow, -⟩ := (Option.any_eq_true ..).mp (Bool.and_eq_true_iff.mp h).1
      rw [hrow]
      rfl
    · rw [hown, List.countP_cons, if_pos]
      · omega
      · rw [hallowed, hwithin.2, hkey, of_decide_eq_true hactor]
        simp

end Writes

end SecureLedger

/-! ### On the sample -/

namespace SecureLedger.Sample

open Atomic

/-- Two creations by one user, at once. -/
def twice (title : String) : Incoming Sec ℚ :=
  ⟨withToken "tok.user" (.createTask (.ok ⟨title, "", none⟩)) 10, 9, (0, 0)⟩

def inputOf (now : Sec) (uuid : String) (latency : ℚ) : (Input Sec × Unit) × ℚ := ((good now uuid, ()), latency)

/-- Under a limit of one, the second is refused while the first is still to be recorded. -/
def metered : RouterWorld Sec buckets ℚ :=
  (World.init ((Db.empty, RateLimiter.new buckets 1), .empty)).run (buildRouter ℚ crates state buckets)
    [.arrive (twice "a"), .arrive (twice "b"),
      .call 0 (inputOf 0 "" 0), .call 1 (inputOf 0 "" 0), .call 0 (inputOf 11 "t1" 0),
      .call 1 (inputOf 0 "" 0), .call 1 (inputOf 0 "" 3), .call 0 (inputOf 12 "e1" 0),
      .call 0 (inputOf 0 "" 0), .call 0 (inputOf 0 "" 5)]

theorem metered_reach : Reach (buildRouter ℚ crates state buckets)
    ((Db.empty, RateLimiter.new buckets 1), .empty) metered := World.run_steps _ _

/-- Behind the middleware the second creation has made no call. -/
theorem metered_projects : ∃ v : ServerWorld Sec, Reach (server crates state) Db.empty v ∧
    v.db = metered.db.1.1 ∧ v.own 1 = [] ∧ metered.db.1.1.task.rows.length = 1 := by
  obtain ⟨⟨v, hv, hdb, -, -, hanswers⟩, -⟩ := router_projects metered_reach
  refine ⟨v, hv, hdb, ?_, by decide +kernel⟩
  have hrefused : metered.threads[1]?.bind Thread.answer = some AppError.tooManyRequests.intoResponse := by
    decide +kernel
  obtain ⟨th, hth, hanswer⟩ := Option.bind_eq_some_iff.mp hrefused
  rcases hanswers 1 th _ hth hanswer with ⟨⟨e, hown, hok⟩, -⟩ | ⟨-, hnone, -⟩
  · have hno : ((limiterChecks metered).filter (·.tid = 1)).map CheckEvent.allowed = [false] := by decide +kernel
    rw [hown, List.map_singleton, hok] at hno
    cases hno
  · exact hnone

/-- Both are counted, each under its status. -/
theorem metered_counted : metered.db.2.requestsTotal ⟨"POST", "/api/tasks", "429"⟩ = 1 ∧
    metered.db.2.requestsTotal ⟨"POST", "/api/tasks", "201"⟩ = 1 := by
  obtain ⟨-, -, htotal⟩ := requests_counted metered_reach
  have hquiet : metered.Quiescent := World.quiescent_of_responses (by decide +kernel)
  exact ⟨(htotal hquiet _).trans (by decide +kernel), (htotal hquiet _).trans (by decide +kernel)⟩

/-- In a minute a user has fewer than two rows under a limit of one. -/
theorem metered_budget : (auditedBy crates metered "user" 0 60 : ℚ) < (1 : ℕ) + (1 : ℕ) / 60 * 60 := by
  have hnow : ∀ th ∈ metered.threads,
      crates.chrono.timestamp th.req.keyed ≤ crates.chrono.timestamp th.req.arrival.now := by decide +kernel
  exact audited_within_budget buckets_isTokenBucket (le_refl 1) jwt_onlyExpires metered_reach
    ⟨by decide +kernel, by decide +kernel⟩ (fun i th hi => hnow th (List.mem_of_getElem? hi)) "user" 0 60
    (by norm_num)

end SecureLedger.Sample
