import SecureLedger.Service
import SecureLedger.TokenLifetime

/-!
# Sessions — nobody writes without a password

A client that only uses tokens which the service has answered it with is, in every interleaving, accepted as a
user that has logged in before, with that user's password and no longer ago than the token lasts
(`backed_by_login`).
-/

namespace SecureLedger

open Atomic

/-! ### Who answers with a token -/

section Login

variable {Time : Type} {C : Crates Time} {state : AppState}

/-- A response without a token in it. -/
def Response.NoToken (response : Response Time) : Prop := ∀ body, response.body ≠ .login body

theorem AppError.noToken (e : AppError) : (e.intoResponse : Response Time).NoToken := by
  intro body h
  cases h

theorem Rejection.noToken (r : Rejection) : (r.intoResponse : Response Time).NoToken := by
  intro body h
  cases h

theorem ends_tryCall {P : Response Time → Prop} (herror : ∀ e : AppError, P e.intoResponse) {c : DbCall Time}
    {f : c.Ret → DbProg Time (Response Time)} (hf : ∀ a, (f a).Ends P) : (tryCall c f).Ends P := by
  intro reply
  cases reply with
  | ok a => exact hf a
  | error e => exact herror e

theorem ends_tryResult {P : Response Time → Prop} (herror : ∀ e : AppError, P e.intoResponse) {α : Type}
    {x : Except AppError α} {f : α → DbProg Time (Response Time)} (hf : ∀ a, (f a).Ends P) :
    (tryResult x f).Ends P := by
  cases x with
  | ok a => exact hf a
  | error e => exact herror e

theorem ends_withExtracted {P : Response Time → Prop} (hreject : ∀ r : Rejection, P r.intoResponse) {α : Type}
    {x : Extracted α} {f : α → DbProg Time (Response Time)} (hf : ∀ a, (f a).Ends P) :
    (withExtracted x f).Ends P := by
  cases x with
  | ok a => exact hf a
  | error r => exact hreject r

theorem noToken_of_body {status : ℕ} {payload : Payload Time} (h : ∀ body, payload ≠ .login body) :
    (Prog.ret ⟨status, payload⟩ : DbProg Time (Response Time)).Ends Response.NoToken := h

/-- No route but `/login` answers with a token. -/
theorem handle_noToken {a : Arrival Time} (hop : ∀ body, a.op ≠ .login body) :
    (handle C state a).Ends Response.NoToken := by
  unfold handle
  cases hroute : a.op with
  | login body => exact absurd hroute (hop body)
  | listTasks query =>
    refine ends_tryResult AppError.noToken fun _ => ends_withExtracted Rejection.noToken fun p => ?_
    exact ends_tryCall AppError.noToken fun tasks => noToken_of_body fun _ h => by cases h
  | getTask id =>
    refine ends_tryResult AppError.noToken fun _ => ends_withExtracted Rejection.noToken fun id => ?_
    refine ends_tryCall AppError.noToken fun found => ends_tryResult AppError.noToken fun task => ?_
    exact noToken_of_body fun _ h => by cases h
  | createTask body =>
    refine ends_tryResult AppError.noToken fun user => ends_withExtracted Rejection.noToken fun input => ?_
    refine ends_tryResult AppError.noToken fun _ => ends_tryCall AppError.noToken fun task => ?_
    exact ends_tryCall AppError.noToken fun _ => noToken_of_body fun _ h => by cases h
  | updateTask id body =>
    refine ends_tryResult AppError.noToken fun user => ends_withExtracted Rejection.noToken fun id => ?_
    refine ends_withExtracted Rejection.noToken fun input => ends_tryResult AppError.noToken fun _ => ?_
    refine ends_tryCall AppError.noToken fun found => ends_tryResult AppError.noToken fun existing => ?_
    split
    · exact AppError.noToken _
    · refine ends_tryCall AppError.noToken fun updated => ends_tryCall AppError.noToken fun _ => ?_
      exact noToken_of_body fun _ h => by cases h
  | deleteTask id =>
    refine ends_tryResult AppError.noToken fun user => ends_withExtracted Rejection.noToken fun id => ?_
    refine ends_tryCall AppError.noToken fun found => ends_tryResult AppError.noToken fun existing => ?_
    split
    · exact AppError.noToken _
    · refine ends_tryCall AppError.noToken fun _ => ends_tryCall AppError.noToken fun _ => ?_
      exact noToken_of_body fun _ h => by cases h
  | listAudit query =>
    refine ends_tryResult AppError.noToken fun _ => ends_withExtracted Rejection.noToken fun q => ?_
    exact ends_tryCall AppError.noToken fun events => noToken_of_body fun _ h => by cases h
  | healthz => exact noToken_of_body fun _ h => by cases h
  | readyz =>
    intro reply
    cases reply <;> exact noToken_of_body fun _ h => by cases h

/-- A login makes no call. -/
theorem login_ret (now : Time) (req : LoginRequest) : ∃ response, Handlers.login C state now req = .ret response := by
  unfold Handlers.login
  cases state.users.lookup req.username with
  | none => exact ⟨_, rfl⟩
  | some user =>
    simp only [okOr, tryResult]
    split
    · exact ⟨_, rfl⟩
    · cases issueToken C state.jwtSecret user.username user.role now <;> exact ⟨_, rfl⟩

/-- **An answer with a token** is that of a login. -/
theorem login_of_answer {db : Db} {v : ServerWorld Time} (hv : Reach (server C state) db v) {j : ℕ}
    {a : Arrival Time} {body : LoginResponse} (hj : v.Has j ⟨a, .ret ⟨200, .login body⟩⟩) :
    ∃ req, a.op = .login (.ok req) ∧ Handlers.login C state a.now req = .ret ⟨200, .login body⟩ := by
  have hfollows : Follows (server C state) (handle C state a) (v.own j) (.ret ⟨200, .login body⟩) := hv.follows hj
  by_cases hop : ∃ x, a.op = .login x
  · obtain ⟨x, hx⟩ := hop
    unfold handle at hfollows
    rw [hx] at hfollows
    dsimp only at hfollows
    cases x with
    | error r =>
      obtain ⟨-, hret⟩ := follows_ret.mp hfollows
      exact absurd (congrArg Response.body (Prog.ret.inj hret)) (fun h => by cases h)
    | ok req =>
      refine ⟨req, hx, ?_⟩
      change Follows _ (Handlers.login C state a.now req) _ _ at hfollows
      obtain ⟨response, hresponse⟩ := login_ret a.now req
      rw [hresponse] at hfollows ⊢
      exact (follows_ret.mp hfollows).2.symm
  · exact absurd rfl ((handle_noToken fun x hx => hop ⟨x, hx⟩).follows hfollows body)

end Login

/-! ### Clients of the service -/

section Clients

variable {Time Instant Latency : Type} {G : Governor Instant}

/-- The service has answered a login with this token. -/
def Given (w : RouterWorld Time G Latency) (token : String) : Prop :=
  ∃ j th body, w.Has j th ∧ th.answer = some ⟨200, .login body⟩ ∧ body.token = token

/-- If the token of a request would be accepted, the service has given it out. -/
def BringsGiven (C : Crates Time) (state : AppState) (w : RouterWorld Time G Latency)
    (r : Incoming Time Instant) : Prop :=
  ∀ token claims, bearerToken r.arrival.headers = .ok token →
    decodeToken C state.jwtSecret token r.arrival.now = .ok claims → Given w token

/-- Before request `i`, which came at `now`, a login of `user` was answered, with the right password and no longer
ago than its token is accepted. -/
def LoggedIn (C : Crates Time) (state : AppState) (nanos : Time → ℤ) (w : RouterWorld Time G Latency) (i : ℕ)
    (now : Time) (user : AuthUser) : Prop :=
  ∃ j th req body record, j < i ∧ w.Has j th ∧ th.req.arrival.op = .login (.ok req) ∧ Checked w j true ∧
    th.answer = some ⟨200, .login body⟩ ∧ req.username = user.username ∧
    state.users.lookup user.username = some record ∧ record.role = user.role ∧
    verifyPassword C req.password record.passwordHash = true ∧
    nanos now < (expiry nanos th.req.arrival.now + 61) * 1000000000

variable {C : Crates Time} {state : AppState} {nanos : Time → ℤ} {limiter : RateLimiter G}
  {metrics : Metrics Latency} {w : RouterWorld Time G Latency}

/-- Whoever is accepted has logged in. -/
theorem loggedIn_of_accepted {adminSalt userSalt : String}
    (hseed : seedUsers C adminSalt userSalt = some state.users) (hchrono : C.chrono.Counts nanos)
    (hjwt : C.jwt.Hs256)
    (h : ReachWith (buildRouter Latency C state G) (BringsGiven C state) ((Db.empty, limiter), metrics) w) {i : ℕ}
    {th : RouterThread Time Instant} (hi : w.Has i th) {user : AuthUser}
    (huser : th.req.arrival.authUser C state = .ok user) :
    LoggedIn C state nanos w i th.req.arrival.now user := by
  obtain ⟨w₀, -, hsteps, rfl, hbrings⟩ := h.admitted hi
  obtain ⟨token, htoken, hdecode, hname, hrole⟩ := AuthUser.fromRequestParts_eq_ok.mp huser
  obtain ⟨j, ⟨r, p⟩, body, hj, hanswer, rfl⟩ := hbrings token _ htoken hdecode
  obtain rfl : p = .ret ⟨200, .login body⟩ := Thread.answer_eq_some.mp hanswer
  -- the answer still stands, and is the handler's
  have hj' := hsteps.answered hj
  obtain ⟨v, hv, -, -, -, hanswers⟩ := handled_of_router h.reach
  rcases hanswers j _ _ hj' rfl with ⟨hchecked, hin⟩ | ⟨-, -, hlimited⟩
  · obtain ⟨req, hop, hlogin⟩ := login_of_answer hv hin
    obtain ⟨record, hlookup, hverify, hissue, -⟩ := login_eq_ok.mp hlogin
    obtain ⟨hsub, hgetRole⟩ := decodeToken_issueToken hjwt.roundTrips hissue hdecode
    have husername : req.username = user.username := by
      rw [← seedUsers_lookup C hseed hlookup, ← hsub, ← hname]
    exact ⟨j, _, req, body, record, hj.lt, hj', hop, hchecked, hanswer, husername, husername ▸ hlookup,
      Option.some.inj (hgetRole.symm.trans hrole), hverify, (decode_issued_iff hchrono hjwt hissue _).mp ⟨_, hdecode⟩⟩
  · cases hlimited

/-- The request behind an audit row. -/
theorem request_of_row (h : Reach (buildRouter Latency C state G) ((Db.empty, limiter), metrics) w) {row : AuditRow}
    (hrow : row ∈ w.db.1.1.auditEvent.rows) : ∃ e ∈ tableCalls w, auditOf C.chrono e = some row ∧
      ∃ th user, w.Has e.tid th ∧ th.req.arrival.authUser C state = .ok user ∧ user.username = row.actor := by
  obtain ⟨u, hu, hmetrics⟩ := limited_of_router h
  obtain ⟨v, hv, hlimit⟩ := Layer.project hu
  have hdb : v.db = w.db.1.1 := by rw [hlimit.db, hmetrics.db]
  have hlog : v.log = tableCalls w := by rw [hlimit.log, hmetrics.log]; rfl
  obtain ⟨e, he, haudit⟩ := event_of_row hv (hdb ▸ hrow)
  obtain ⟨v', a, k, user, -, hi', -, hsteps, hauth, hactor, -⟩ := audits_of_event hv he haudit
  have hlt : e.tid < w.threads.length := hmetrics.length ▸ hlimit.length ▸ hv.tid_lt e he
  have hth : w.Has e.tid w.threads[e.tid] := List.getElem?_eq_getElem hlt
  obtain ⟨q, hq, -⟩ := hmetrics.stands hth
  obtain ⟨q', hq', -⟩ := hlimit.stands hq
  obtain ⟨p, hp⟩ := Steps.thread (.head (.call hi' e.input) hsteps) hi'
  have hsame : a = w.threads[e.tid].req.arrival := congrArg Thread.req (hp.unique hq')
  exact ⟨e, hlog ▸ he, haudit, _, user, hth, hsame ▸ hauth, hactor.symm⟩

/-- **Nobody is accepted, and nothing is written, without a password.**  In any run of the service whose clients
bring no other token that would be accepted than those they were answered with, each request that is accepted as
a user, and each audit row with that user as the actor, has an earlier login of that user behind it, with the
right password and within the lifetime of its token. -/
theorem backed_by_login {adminSalt userSalt : String}
    (hseed : seedUsers C adminSalt userSalt = some state.users) (hchrono : C.chrono.Counts nanos)
    (hjwt : C.jwt.Hs256)
    (h : ReachWith (buildRouter Latency C state G) (BringsGiven C state) ((Db.empty, limiter), metrics) w) :
    (∀ i th user, w.Has i th → th.req.arrival.authUser C state = .ok user →
      LoggedIn C state nanos w i th.req.arrival.now user) ∧
    ∀ row ∈ w.db.1.1.auditEvent.rows, ∃ e ∈ tableCalls w, auditOf C.chrono e = some row ∧
      ∃ th user, w.Has e.tid th ∧ th.req.arrival.authUser C state = .ok user ∧ user.username = row.actor ∧
        LoggedIn C state nanos w e.tid th.req.arrival.now user := by
  refine ⟨fun i th user hi huser => loggedIn_of_accepted hseed hchrono hjwt h hi huser, fun row hrow => ?_⟩
  obtain ⟨e, he, haudit, th, user, hi, huser, hactor⟩ := request_of_row h.reach hrow
  exact ⟨e, he, haudit, th, user, hi, huser, hactor, loggedIn_of_accepted hseed hchrono hjwt h hi huser⟩

end Clients

end SecureLedger

/-! ### On the sample -/

namespace SecureLedger.Sample

open Atomic

/-- A login half a second after midnight. -/
def signIn : Incoming ℤ ℚ := ⟨⟨[], .login (.ok ⟨"user", "user123"⟩), issuedAt⟩, issuedAt, (0, 0)⟩

/-- A creation with its token, ten seconds later. -/
def useToken : Incoming ℤ ℚ :=
  ⟨⟨[("authorization", bytes "Bearer tok.user")], .createTask (.ok ⟨"a", "", none⟩), issuedAt + 10000000000⟩,
    issuedAt, (10, 10)⟩

def plain (uuid : String) : (Input ℤ × Unit) × ℚ := ((⟨issuedAt + 10000000000, uuid, none⟩, ()), 0)

def atStart : RouterWorld ℤ buckets ℚ := World.init ((Db.empty, RateLimiter.new buckets 100), .empty)

def signedIn : RouterWorld ℤ buckets ℚ :=
  (atStart.arrive (buildRouter ℚ epochCrates state buckets) signIn).run (buildRouter ℚ epochCrates state buckets)
    ([(0, plain ""), (0, plain ""), (0, plain "")].map fun c => .call c.1 c.2)

def worked : RouterWorld ℤ buckets ℚ :=
  (signedIn.arrive (buildRouter ℚ epochCrates state buckets) useToken).run (buildRouter ℚ epochCrates state buckets)
    ([(1, plain ""), (1, plain "t1"), (1, plain "e1")].map fun c => .call c.1 c.2)

theorem worked_reach : ReachWith (buildRouter ℚ epochCrates state buckets) (BringsGiven epochCrates state)
    ((Db.empty, RateLimiter.new buckets 100), .empty) worked := by
  have hgiven : Given signedIn "tok.user" := by
    have hanswer : signedIn.threads[0]?.bind Thread.answer =
        some ⟨200, .login ⟨"tok.user", "Bearer", 3600, "user"⟩⟩ := by
      decide +kernel
    obtain ⟨th, hth, hanswer⟩ := Option.bind_eq_some_iff.mp hanswer
    exact ⟨0, th, _, hth, hanswer, rfl⟩
  have hfirst : BringsGiven epochCrates state atStart signIn := by
    intro token claims htoken
    cases htoken
  have hsecond : BringsGiven epochCrates state signedIn useToken := by
    intro token claims htoken
    have hbearer : bearerToken useToken.arrival.headers = .ok "tok.user" := by decide +kernel
    cases hbearer.symm.trans htoken
    exact fun _ => hgiven
  exact ((ReachWith.init.arrive hfirst).calls _ |>.arrive hsecond).calls _

/-- The row is backed by the login. -/
theorem worked_backed : ∃ row ∈ worked.db.1.1.auditEvent.rows, row.actor = "user" ∧
    ∃ e ∈ tableCalls worked, auditOf epochChrono e = some row ∧ ∃ th user, worked.Has e.tid th ∧
      user.username = "user" ∧ LoggedIn epochCrates state id worked e.tid th.req.arrival.now user := by
  obtain ⟨-, hrows⟩ := backed_by_login (show seedUsers epochCrates "s1" "s2" = some state.users by decide)
    epochChrono_counts jwt_hs256 worked_reach
  have hactors : worked.db.1.1.auditEvent.rows.map AuditRow.actor = ["user"] := by decide +kernel
  obtain ⟨row, hrow, hactor⟩ := List.mem_map.mp (hactors ▸ List.mem_singleton.mpr rfl : "user" ∈ _)
  obtain ⟨e, he, haudit, th, user, hi, -, hname, hlogged⟩ := hrows row hrow
  exact ⟨row, hrow, hactor, e, he, haudit, th, user, hi, hname.trans hactor, hlogged⟩

end SecureLedger.Sample
