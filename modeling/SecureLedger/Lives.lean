import SecureLedger.Sessions
import SecureLedger.AuditLog
import SecureLedger.Lib.Restart

/-!
# Lives — the tables across crashes and restarts

The service opens the database that its last run left (`CREATE TABLE IF NOT EXISTS`), with users hashed anew,
another rate limiter and other metrics, and none of the requests that were in flight.  For the tables such a life
is one run of the handlers (`life_is_run`); if each run was let finish its requests before it ended, as the
shutdown does, the audit log reconciles over the whole life (`life_reconciled`).
-/

namespace SecureLedger

open Atomic

variable {Time Instant Latency : Type} {C : Crates Time} {state state' : AppState} {secret : String}
  {G : Governor Instant}

/-! ### What a restart can change -/

/-- The users matter to logins, which make no call. -/
theorem server_alike (hsecret : state.jwtSecret = state'.jwtSecret) : (server C state).Alike (server C state') := by
  refine ⟨rfl, fun a => ?_⟩
  show (handle C state a).SameCalls (handle C state' a)
  have huser : a.authUser C state = a.authUser C state' := by
    simp only [Arrival.authUser, AuthUser.fromRequestParts, hsecret]
  have hadmin : AdminUser.fromRequestParts C state a.headers a.now =
      AdminUser.fromRequestParts C state' a.headers a.now := by
    simp only [AdminUser.fromRequestParts, AuthUser.fromRequestParts, hsecret]
  unfold handle
  cases a.op with
  | login body =>
    cases body with
    | error r => exact .inl rfl
    | ok req =>
      obtain ⟨response, hresponse⟩ := @login_ret Time C state a.now req
      obtain ⟨response', hresponse'⟩ := @login_ret Time C state' a.now req
      exact .inr ⟨response, response', hresponse, hresponse'⟩
  | listAudit query =>
    dsimp only
    rw [hadmin]
    exact .inl rfl
  | _ =>
    dsimp only
    try rw [huser]
    exact .inl rfl

/-! ### Lives -/

/-- The tables after some runs of the service, and the worlds they ended in: by a crash wherever it may be, or
by a shutdown. -/
inductive Life (C : Crates Time) (secret : String) (G : Governor Instant) :
    Db → List (RouterWorld Time G Latency) → Prop
  | create : Life C secret G Db.empty []
  | restart {db : Db} {ws : List (RouterWorld Time G Latency)} (h : Life C secret G db ws) {state : AppState} {n : ℕ}
      {w : RouterWorld Time G Latency} (hsecret : state.jwtSecret = secret)
      (hw : Reach (buildRouter Latency C state G) ((db, RateLimiter.new G n), .empty) w) :
      Life C secret G w.db.1.1 (ws ++ [w])

/-- The calls on the tables, run after run. -/
def lifeCalls (ws : List (RouterWorld Time G Latency)) : List (DbEvent Time) := ws.flatMap tableCalls

/-- A call, whoever made it. -/
def anonymous (e : DbEvent Time) : DbEvent Time := ⟨0, e.call, e.input, e.before⟩

/-- The request behind a call on the tables. -/
theorem request_of_call {db : Db} {limiter : RateLimiter G} {metrics : Metrics Latency}
    {w : RouterWorld Time G Latency} (h : Reach (buildRouter Latency C state G) ((db, limiter), metrics) w)
    {e : DbEvent Time} (he : e ∈ tableCalls w) : ∃ th, w.Has e.tid th := by
  obtain ⟨e₁, he₁, hin₁⟩ := List.mem_filterMap.mp he
  obtain ⟨e₂, he₂, hin₂⟩ := List.mem_filterMap.mp he₁
  rw [Event.inside_tid hin₁, Event.inside_tid hin₂]
  exact ⟨_, List.getElem?_eq_getElem (h.tid_lt e₂ he₂)⟩

/-- A run of the handlers on the tables of a life: the calls are those of the life, and their requests were
answered if no run ended before its requests did. -/
structure LifeRun (C : Crates Time) (state : AppState) (db : Db) (ws : List (RouterWorld Time G Latency))
    (v : ServerWorld Time) : Prop where
  reach : Reach (server C state) Db.empty v
  db : v.db = db
  log : v.log.map anonymous = (lifeCalls ws).map anonymous
  answered : (∀ w ∈ ws, w.Quiescent) → ∀ e ∈ v.log, ∃ a r, v.Has e.tid ⟨a, .ret r⟩

theorem LifeRun.restart {db : Db} {ws : List (RouterWorld Time G Latency)} {v : ServerWorld Time}
    (hv : LifeRun C state db ws v) (hsecret : state'.jwtSecret = state.jwtSecret) {n : ℕ}
    {w : RouterWorld Time G Latency}
    (hw : Reach (buildRouter Latency C state' G) ((db, RateLimiter.new G n), .empty) w) :
    ∃ v', LifeRun C state w.db.1.1 (ws ++ [w]) v' := by
  obtain ⟨u, hu, hdb, hlog, -, hanswers⟩ := handled_of_router hw
  obtain ⟨u', hu', halike⟩ := (server_alike hsecret).reach hu
  refine ⟨v.behind u', ?_, halike.db.trans hdb, ?_, fun hquiet e he => ?_⟩
  · exact hv.reach.behind (by rwa [hv.db])
  · show (v.log ++ u'.log.map (Event.later v.threads.length)).map anonymous = _
    rw [List.map_append, hv.log, List.map_map, halike.log, hlog, lifeCalls, lifeCalls, List.flatMap_append,
      List.map_append, List.flatMap_singleton]
    rfl
  · rcases List.mem_append.mp he with he | he
    · obtain ⟨a, r, hi⟩ := hv.answered (fun w hw => hquiet w (List.mem_append_left _ hw)) e he
      exact ⟨a, r, (List.getElem?_append_left hi.lt).trans hi⟩
    · obtain ⟨d, hd, rfl⟩ := List.mem_map.mp he
      rw [halike.log] at hd
      obtain ⟨th, hi⟩ := request_of_call hw (hlog ▸ hd)
      obtain ⟨response, hth⟩ := hquiet w (List.mem_append_right _ (List.mem_singleton.mpr rfl)) _ _ hi
      rcases hanswers d.tid th response hi (Thread.answer_eq_some.mpr hth) with ⟨-, hin⟩ | ⟨-, hnone, -⟩
      · obtain ⟨p, hin', hp⟩ := halike.threads hin
        obtain ⟨r, rfl⟩ : ∃ r, p = .ret r := by
          rcases hp with rfl | ⟨-, b, -, rfl⟩
          · exact ⟨_, rfl⟩
          · exact ⟨b, rfl⟩
        exact ⟨_, r, World.has_behind.mpr hin'⟩
      · have hown : d ∈ u.own d.tid := World.mem_own.mpr ⟨hd, rfl⟩
        rw [hnone] at hown
        cases hown

theorem lifeRun_of_life {db : Db} {ws : List (RouterWorld Time G Latency)} (h : Life C secret G db ws)
    (hs : state.jwtSecret = secret) : ∃ v, LifeRun C state db ws v := by
  induction h with
  | create => exact ⟨World.init Db.empty, .refl, rfl, rfl, fun _ e he => by cases he⟩
  | restart _ hsecret hw ih =>
    obtain ⟨v, hv⟩ := ih
    exact hv.restart (hsecret.trans hs.symm) hw

/-- **A life is a run.**  What crashes and restarts leave in the tables, one run of the handlers leaves there with
the same calls: they add nothing to what an interleaving may do. -/
theorem life_is_run {db : Db} {ws : List (RouterWorld Time G Latency)} (h : Life C state.jwtSecret G db ws) :
    ∃ v, LifeRun C state db ws v := lifeRun_of_life h rfl

/-! ### The audit log over a life -/

/-- What a log says, whoever made its calls. -/
theorem filterMap_anonymous {α : Type} {f : DbEvent Time → Option α} (hf : ∀ e, f (anonymous e) = f e)
    {l l' : List (DbEvent Time)} (h : l.map anonymous = l'.map anonymous) : l.filterMap f = l'.filterMap f := by
  have hall : ∀ l : List (DbEvent Time), (l.map anonymous).filterMap f = l.filterMap f := by
    intro l
    rw [List.filterMap_map]
    exact List.filterMap_congr fun e _ => hf e
  rw [← hall, h, hall]

theorem noFaults_anonymous {l l' : List (DbEvent Time)} (h : l.map anonymous = l'.map anonymous)
    (hok : NoFaults l) : NoFaults l' := by
  intro e he
  have hmem : anonymous e ∈ l.map anonymous := h ▸ List.mem_map_of_mem he
  obtain ⟨d, hd, heq⟩ := List.mem_map.mp hmem
  exact (congrArg (·.input.fault) heq).symm.trans (hok d hd)

/-- A write of an answered request is recorded. -/
theorem recorded_of_answered {w : ServerWorld Time} (hw : Reach (server C state) Db.empty w)
    (hfresh : FreshIds w.log) (hok : NoFaults w.log) {e : DbEvent Time} (he : e ∈ w.log)
    (hanswered : ∃ a r, w.Has e.tid ⟨a, .ret r⟩) {action id : String}
    (hwrite : written C.chrono action e = some id) :
    ∃ row ∈ w.db.auditEvent.rows, row.action = action ∧ row.entityId = id := by
  obtain ⟨a, r, hi⟩ := hanswered
  have hlog : ∀ {d}, d ∈ w.own e.tid → d ∈ w.log := fun h => (World.mem_own.mp h).1
  obtain ⟨-, d, hd, row, haudit, haction, hid⟩ := recorded (stage_of_reach hw hi) (fun d h => hok d (hlog h))
    (fun h => recordAudit_ok hw hfresh hok (hlog h)) (World.mem_own.mpr ⟨he, rfl⟩) hwrite
  refine ⟨row, ?_, haction, hid⟩
  rw [audit_rows hw]
  exact List.mem_filterMap.mpr ⟨d, hlog hd, haudit⟩

/-- **The audit log reconciles over a life.**  Its rows are what all the runs have recorded, in order, whatever
crashed.  If no call failed and every run finished its requests before it ended, the ids in the table are those
with a `create` event and no `delete` event, in whichever run they were made. -/
theorem life_reconciled {db : Db} {ws : List (RouterWorld Time G Latency)} (h : Life C secret G db ws)
    (hfresh : FreshIds (lifeCalls ws)) :
    db.auditEvent.rows = (lifeCalls ws).filterMap (auditOf C.chrono) ∧
    (eventIds db "create").Nodup ∧
    (NoFaults (lifeCalls ws) → (∀ w ∈ ws, w.Quiescent) → ∀ id, (∃ r ∈ db.task.rows, r.id = id) ↔
      (∃ row ∈ db.auditEvent.rows, row.action = "create" ∧ row.entityId = id) ∧
        ¬ ∃ row ∈ db.auditEvent.rows, row.action = "delete" ∧ row.entityId = id) := by
  obtain ⟨v, hv⟩ := lifeRun_of_life h (show (⟨secret, []⟩ : AppState).jwtSecret = secret from rfl)
  obtain rfl := hv.db
  have hids : usedIds v.log = usedIds (lifeCalls ws) := filterMap_anonymous (fun _ => rfl) hv.log
  have hfreshRun : FreshIds v.log := by
    unfold FreshIds
    rw [hids]
    exact hfresh
  refine ⟨?_, eventIds_nodup hv.reach _ (hfreshRun.created _), fun hok hquiet id => ?_⟩
  · rw [audit_rows hv.reach]
    exact filterMap_anonymous (fun _ => rfl) hv.log
  · have hokRun : NoFaults v.log := noFaults_anonymous hv.log.symm hok
    have hrecorded : ∀ {e action id}, e ∈ v.log → written C.chrono action e = some id →
        ∃ row ∈ v.db.auditEvent.rows, row.action = action ∧ row.entityId = id := fun he hwrite =>
      recorded_of_answered hv.reach hfreshRun hokRun he (hv.answered hquiet _ he) hwrite
    have hpresent : (∃ r ∈ v.db.task.rows, r.id = id) ↔ v.db.task.find? id ≠ none := by
      simp [Table.find?_eq_none]
    rw [hpresent, present_iff hv.reach hfreshRun]
    constructor
    · rintro ⟨⟨⟨i, c, x, d⟩, he, owner, input, task, rfl, hc, rfl⟩, hremoved⟩
      refine ⟨hrecorded he (written_createTask hc), ?_⟩
      rintro ⟨row, hrow, haction, hid⟩
      exact hremoved (hid ▸ removed_of_delete hv.reach hrow haction)
    · rintro ⟨⟨row, hrow, haction, rfl⟩, hnone⟩
      refine ⟨inserted_of_create hv.reach hrow haction, ?_⟩
      rintro ⟨⟨i, c, x, d⟩, he, rfl, -⟩
      exact hnone (hrecorded he rfl)

end SecureLedger

/-! ### On the sample -/

namespace SecureLedger.Sample

open Atomic

/-- The users, hashed anew. -/
def restarted : AppState :=
  ⟨secret, [("admin", ⟨"admin", "$argon2id$s3$admin123", .admin⟩), ("user", ⟨"user", "$argon2id$s4$user123", .user⟩)]⟩

/-- A task is created. -/
def firstRun : RouterWorld Sec buckets ℚ :=
  (World.init ((Db.empty, RateLimiter.new buckets 5), .empty)).run (buildRouter ℚ crates state buckets)
    [.arrive (twice "a"), .call 0 (inputOf 0 "" 0), .call 0 (inputOf 11 "t1" 0), .call 0 (inputOf 12 "e1" 0),
      .call 0 (inputOf 0 "" 0), .call 0 (inputOf 0 "" 0)]

/-- After a restart it is deleted. -/
def secondRun (calls : List (World.Label (Incoming Sec ℚ) ((Input Sec × Unit) × ℚ))) : RouterWorld Sec buckets ℚ :=
  (World.init ((firstRun.db.1.1, RateLimiter.new buckets 7), .empty)).run (buildRouter ℚ crates restarted buckets)
    (.arrive ⟨withToken "tok.user" (.deleteTask (.ok "t1")) 20, 19, (0, 0)⟩ :: .call 0 (inputOf 0 "" 0) ::
      .call 0 (inputOf 21 "" 0) :: .call 0 (inputOf 22 "" 0) :: calls)

theorem twoRuns (calls : List (World.Label (Incoming Sec ℚ) ((Input Sec × Unit) × ℚ))) :
    Life crates secret buckets (secondRun calls).db.1.1 [firstRun, secondRun calls] := by
  have hfirst : Reach (buildRouter ℚ crates state buckets) ((Db.empty, RateLimiter.new buckets 5), .empty)
      firstRun := World.run_steps _ _
  have hsecond : Reach (buildRouter ℚ crates restarted buckets)
      ((firstRun.db.1.1, RateLimiter.new buckets 7), .empty) (secondRun calls) := World.run_steps _ _
  exact .restart (.restart .create (show state.jwtSecret = secret from rfl) hfirst)
    (show restarted.jwtSecret = secret from rfl) hsecond

/-- A crash before the deletion is recorded. -/
theorem cut_is_run : ∃ v, Reach (server crates state) Db.empty v ∧ v.db = (secondRun []).db.1.1 ∧
    v.db.task.rows = [] ∧ v.db.auditEvent.rows.map AuditRow.action = ["create"] := by
  obtain ⟨v, hv⟩ := @life_is_run Sec ℚ ℚ crates state buckets _ _ (twoRuns [])
  refine ⟨v, hv.reach, hv.db, ?_, ?_⟩ <;> rw [hv.db] <;> decide +kernel

def finished : RouterWorld Sec buckets ℚ :=
  secondRun [.call 0 (inputOf 23 "e2" 0), .call 0 (inputOf 0 "" 0), .call 0 (inputOf 0 "" 0)]

theorem finished_reconciled : (∃ r ∈ finished.db.1.1.task.rows, r.id = "t1") ↔
    (∃ row ∈ finished.db.1.1.auditEvent.rows, row.action = "create" ∧ row.entityId = "t1") ∧
      ¬ ∃ row ∈ finished.db.1.1.auditEvent.rows, row.action = "delete" ∧ row.entityId = "t1" := by
  have hquiet : ∀ w ∈ [firstRun, finished], w.Quiescent := by
    have hanswered : ∀ w ∈ [firstRun, finished], w.responses.all Option.isSome := by decide +kernel
    exact fun w hw => World.quiescent_of_responses (hanswered w hw)
  exact (life_reconciled (twoRuns _) (by decide +kernel)).2.2 (by decide +kernel) hquiet "t1"

end SecureLedger.Sample
