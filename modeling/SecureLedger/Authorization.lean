import SecureLedger.Runs
import SecureLedger.Sample

/-!
# Authorization — who may change a row, in every interleaving

The ownership check runs on what an earlier statement read, and the write goes by id.  It is sound
because what it looks at cannot change: a row keeps its owner for ever and its id is never given to
another row (`identity_of_read`).  On the token side, what a request is accepted as is what some
login put into its token (`principal_seeded`).
-/

namespace SecureLedger

open Atomic

variable {Time : Type} {C : Crates Time} {state : AppState}

/-! ### Principals -/

variable (C state) in
/-- Some login is answered with `token`: the one place that calls `issue_token`. -/
def Issued (token : String) : Prop :=
  ∃ now req resp, Handlers.login C state now req = .ret ⟨200, .login resp⟩ ∧ resp.token = token

variable (C state) in
/-- No forged token passes `decode_token`: of those the requests of `w` bring, only issued ones do. -/
def Unforged (w : ServerWorld Time) : Prop :=
  ∀ i th token claims, w.Has i th → bearerToken th.req.headers = .ok token →
    decodeToken C state.jwtSecret token th.req.now = .ok claims → Issued C state token

/-- What a successful login has checked and what it answers. -/
theorem login_eq_ok {now : Time} {req : LoginRequest} {resp : LoginResponse} :
    Handlers.login C state now req = .ret ⟨200, .login resp⟩ ↔ ∃ user,
      state.users.lookup req.username = some user ∧
      verifyPassword C req.password user.passwordHash = true ∧
      issueToken C state.jwtSecret user.username user.role now = .ok resp.token ∧
      resp = ⟨resp.token, "Bearer", tokenTtlSeconds, user.role.asStr⟩ := by
  obtain ⟨token, tokenType, expiresIn, role⟩ := resp
  unfold Handlers.login
  cases hu : state.users.lookup req.username with
  | none => simp [okOr, tryResult, AppError.intoResponse]
  | some user =>
    by_cases hv : verifyPassword C req.password user.passwordHash
    · cases ht : issueToken C state.jwtSecret user.username user.role now with
      | error e => simp [okOr, tryResult, AppError.intoResponse, hv, ht]
      | ok t =>
        simp only [okOr, tryResult, hv, ht, Bool.not_true, Bool.false_eq_true, if_false,
          Prog.ret.injEq, Response.mk.injEq, Payload.login.injEq, LoginResponse.mk.injEq, true_and,
          Option.some.injEq, exists_eq_left', Except.ok.injEq]
        constructor
        · rintro ⟨rfl, rfl, rfl, rfl⟩
          exact ⟨rfl, rfl, rfl, rfl⟩
        · rintro ⟨rfl, rfl, rfl, rfl⟩
          exact ⟨rfl, rfl, rfl, rfl⟩
    · simp [okOr, tryResult, AppError.intoResponse, hv]

/-- **Every accepted principal is a seeded user with its role.** -/
theorem principal_seeded {adminSalt userSalt : String}
    (hseed : seedUsers C adminSalt userSalt = some state.users) (hjwt : C.jwt.RoundTrips)
    {w : ServerWorld Time} (hun : Unforged C state w) {i : ℕ} {th : DbThread Time} (hi : w.Has i th)
    {user : AuthUser} (hu : th.req.authUser C state = .ok user) :
    ∃ u, state.users.lookup user.username = some u ∧ u.username = user.username ∧ u.role = user.role := by
  obtain ⟨token, ht, hd, hname, hrole⟩ := AuthUser.fromRequestParts_eq_ok.mp hu
  obtain ⟨now, req, resp, hlogin, rfl⟩ := hun i th token _ hi ht hd
  obtain ⟨u, hlookup, -, hissue, -⟩ := login_eq_ok.mp hlogin
  obtain ⟨hsub, hr⟩ := decodeToken_issueToken hjwt hissue hd
  have hfiled : u.username = req.username := seedUsers_lookup C hseed hlookup
  have husername : u.username = user.username := hsub.symm.trans hname.symm
  refine ⟨u, ?_, husername, Option.some.inj (hr.symm.trans hrole)⟩
  rw [← husername, hfiled]
  exact hlookup

/-! ### Steps -/

section Steps

variable {w w' : ServerWorld Time}

/-- Every step that changes the tables is a call of a request with an accepted token. -/
theorem step_authenticated {db : Db} (hw : Reach (server C state) db w)
    (hs : Step (server C state) w w') (hne : w'.db ≠ w.db) : ∃ e th user, w'.log = w.log ++ [e] ∧
      w.Has e.tid th ∧ th.req.authUser C state = .ok user := by
  cases hs with
  | arrive a => exact absurd rfl hne
  | @call i a c k hi x =>
    have hc : ¬ c.Reads := fun hc => hne (exec_reads hc x w.db)
    obtain ⟨user, hu⟩ := next_write hw hi hc
    exact ⟨_, _, user, rfl, hi, hu⟩

/-- What a request read of a task is true of its row as far as the ownership check goes. -/
theorem snapshot_owner (hw : Reach (server C state) Db.empty w) (hfresh : FreshIds w.log) {i j id x d}
    {existing : Task Time} (hown : w.own i = [⟨j, .getTask id, x, d⟩])
    (hread : ((DbCall.getTask id).exec C.chrono x d).1 = .ok (some existing)) :
    existing.id = id ∧ ∀ r ∈ w.db.task.rows, r.id = id → r.owner = existing.owner := by
  obtain ⟨hmem, -⟩ := World.mem_of_own hown (List.mem_singleton.mpr rfl)
  obtain ⟨r₀, hr₀, rfl, -, hsame⟩ := identity_of_read hw hfresh hmem hread
  have hid₀ : r₀.id = id := Table.find?_key hr₀
  exact ⟨hid₀, fun r hr hid => congrArg (·.2.1) (hsame r hr hid)⟩

/-- **Only the owner or an admin changes or removes a row.** -/
theorem step_mayModify (hw : Reach (server C state) Db.empty w) (hs : Step (server C state) w w')
    (hfresh : FreshIds w'.log) {r : TaskRow} (hr : r ∈ w.db.task.rows) (hgone : r ∉ w'.db.task.rows) :
    ∃ e th user, w'.log = w.log ++ [e] ∧ w.Has e.tid th ∧ th.req.authUser C state = .ok user ∧
      MayModify user r.owner := by
  have hf : FreshIds w.log := hfresh.earlier hs.log_mono
  cases hs with
  | arrive a => exact absurd hr hgone
  | @call i a c k hi x =>
    have he := DbCall.exec_effect C.chrono x w.db c
    change r ∉ (c.exec C.chrono x w.db).2.task.rows at hgone
    generalize (c.exec C.chrono x w.db).2 = db' at he hgone
    cases he with
    | none => exact absurd hr hgone
    | create h ht =>
      rw [Table.insert_rows ht] at hgone
      exact absurd (List.mem_append_left _ hr) hgone
    | @update existing input h =>
      obtain ⟨user, id, j, y, d, -, hu, -, hmay, hown, hread⟩ := next_updateTask hw hi
      obtain ⟨hex, howner⟩ := snapshot_owner hw hf hown hread
      have hid : r.id = existing.id := by
        by_contra hne
        exact hgone (Db.mem_write.mpr (.inl ⟨hr, hne⟩))
      exact ⟨_, _, user, rfl, hi, hu, howner r hr (hid.trans hex) ▸ hmay⟩
    | @delete id h =>
      obtain ⟨user, existing, j, y, d, -, hu, hmay, hown, hread⟩ := next_deleteTask hw hi
      obtain ⟨-, howner⟩ := snapshot_owner hw hf hown hread
      have hid : r.id = id := by
        by_contra hne
        exact hgone (Table.mem_delete.mpr ⟨hr, hne⟩)
      exact ⟨_, _, user, rfl, hi, hu, howner r hr hid ▸ hmay⟩
    | audit h ha => exact absurd hr hgone

/-- **Authorization under any interleaving.**  Of a step of any run from the empty schema: a row that
it changes or removes is the owner's, or the stepping request an admin's; it changes the tables only
for a request with an accepted token; it keeps every row's id, owner and creation time, as every run
does from any earlier world on; and all principals accepted so far are seeded users. -/
theorem authorization {adminSalt userSalt : String}
    (hseed : seedUsers C adminSalt userSalt = some state.users) (hjwt : C.jwt.RoundTrips)
    (hw : Reach (server C state) Db.empty w) (hs : Step (server C state) w w')
    (hfresh : FreshIds w'.log) (hun : Unforged C state w') :
    (∀ r ∈ w.db.task.rows, r ∉ w'.db.task.rows → ∃ e th user, w'.log = w.log ++ [e] ∧
      w.Has e.tid th ∧ th.req.authUser C state = .ok user ∧
      (r.owner = user.username ∨ user.role = .admin)) ∧
    (w'.db ≠ w.db → ∃ e th user, w'.log = w.log ++ [e] ∧ w.Has e.tid th ∧
      th.req.authUser C state = .ok user) ∧
    ((w'.db.task.rows.map TaskRow.identity).Sublist (w.db.task.rows.map TaskRow.identity) ∨
      ∃ r, w'.db.task.rows = w.db.task.rows ++ [r]) ∧
    (∀ w₀, Reach (server C state) Db.empty w₀ → Steps (server C state) w₀ w' →
      ∀ r ∈ w₀.db.task.rows, ∀ r' ∈ w'.db.task.rows, r'.id = r.id →
        r'.owner = r.owner ∧ r'.createdAt = r.createdAt) ∧
    ∀ i th user, w'.Has i th → th.req.authUser C state = .ok user →
      ∃ u, state.users.lookup user.username = some u ∧ u.username = user.username ∧
        u.role = user.role := by
  refine ⟨fun r hr hgone => ?_, step_authenticated hw hs, ?_, fun w₀ hw₀ hsteps r hr r' hr' hid => ?_,
    fun i th user hi hu => principal_seeded hseed hjwt hun hi hu⟩
  · obtain ⟨e, th, user, hlog, he, hu, hmay⟩ := step_mayModify hw hs hfresh hr hgone
    exact ⟨e, th, user, hlog, he, hu, hmay.symm⟩
  · cases hs with
    | arrive a => exact .inl (.refl _)
    | call hi x =>
      rcases exec_identity C.chrono _ x w.db with h | ⟨r, -, h⟩
      · exact .inl h
      · exact .inr ⟨r, h⟩
  · have h := identity_of_id hw₀ hsteps hfresh hr hr' hid
    exact ⟨congrArg (·.2.1) h, congrArg (·.2.2) h⟩

end Steps

end SecureLedger

/-! ### On the sample -/

namespace SecureLedger.Sample

open Atomic

theorem issued {token : String} {claims : Claims} (h : tokens.lookup token = some claims) :
    Issued crates state token := by
  have hadmin : Issued crates state "tok.admin" :=
    ⟨0, ⟨"admin", "admin123"⟩, ⟨"tok.admin", "Bearer", 3600, "admin"⟩,
      login_eq_ok.mpr ⟨⟨"admin", "$argon2id$s1$admin123", .admin⟩, by decide⟩, rfl⟩
  have huser : Issued crates state "tok.user" :=
    ⟨0, ⟨"user", "user123"⟩, ⟨"tok.user", "Bearer", 3600, "user"⟩,
      login_eq_ok.mpr ⟨⟨"user", "$argon2id$s2$user123", .user⟩, by decide⟩, rfl⟩
  simp only [tokens, List.lookup_cons, List.lookup_nil] at h
  split at h
  · next heq => exact beq_iff_eq.mp heq ▸ hadmin
  · split at h
    · next heq => exact beq_iff_eq.mp heq ▸ huser
    · cases h

theorem unforged (w : ServerWorld Sec) : Unforged crates state w := by
  intro i th token claims _ _ hd
  exact issued (jwt_decode.mp (decodeToken_eq_ok.mp hd)).1

/-- A user has created a task, asked for its deletion, and passed the check. -/
def deleting : ServerWorld Sec :=
  runOn [.arrive (withToken "tok.user" (.createTask (.ok ⟨" a ", "d", none⟩)) 10),
    .call 0 (good 11 "t1"), .call 0 (good 12 "e1"),
    .arrive (withToken "tok.user" (.deleteTask (.ok "t1")) 13), .call 1 (good 14 "")]

theorem authorization_deleting : ∃ e th user,
    (deleting.sched (server crates state) (.call 1 (good 15 ""))).log = deleting.log ++ [e] ∧
      deleting.Has e.tid th ∧ th.req.authUser crates state = .ok user ∧
      ("user" = user.username ∨ user.role = .admin) :=
  (authorization users_seeded jwt_roundTrips (w := deleting) (runOn_reach _)
    (World.sched_step (by decide +kernel) (good 15 "")) (by decide +kernel) (unforged _)).1
    ⟨"t1", "a", "d", "todo", "user", "2024-01-01T00:00:11+00:00", "2024-01-01T00:00:11+00:00"⟩
    (by decide +kernel) (by decide +kernel)

end SecureLedger.Sample
