import SecureLedger.AuditLog

/-!
# Deletion — is a removal reported and audited once?

`delete_task` checks that the task exists in one statement, deletes it in another, and does not look
at whether that statement removed a row.  Deletions are reported and audited once exactly if every
DELETE finds its row (`deleted_once_iff`); two that check before either deletes are both reported.
-/

namespace SecureLedger

open Atomic

variable {Time : Type} {C : Crates Time} {state : AppState} {w : ServerWorld Time}

/-- What the clients and the audit table are told of removals, for one id at a time. -/
structure DeletedOnce (C : Crates Time) (state : AppState) (w : ServerWorld Time) : Prop where
  /-- Two deletions of an id that were answered with success are one request. -/
  response : ∀ {i j a a' r r' id}, w.Has i ⟨a, .ret r⟩ → w.Has j ⟨a', .ret r'⟩ →
    a.op = .deleteTask (.ok id) → a'.op = .deleteTask (.ok id) → r.status = 204 → r'.status = 204 →
    i = j
  /-- An id has one `delete` event. -/
  event : (eventIds w.db "delete").Nodup
  /-- The event names the principal of the request whose DELETE removed the row. -/
  actor : ∀ row ∈ w.db.auditEvent.rows, row.action = "delete" → ∃ e ∈ w.log, ∃ th user,
    e.call = .deleteTask row.entityId ∧ e.input.fault = none ∧
    e.before.task.find? row.entityId ≠ none ∧ w.Has e.tid th ∧
    th.req.authUser C state = .ok user ∧ row.actor = user.username
  /-- Every other deletion is told that the task is not there, or not the caller's. -/
  others : ∀ {i a r id user}, w.Has i ⟨a, .ret r⟩ → a.op = .deleteTask (.ok id) →
    a.authUser C state = .ok user → r.status = 204 ∨ r.status = 404 ∨ r.status = 403

/-- The id that a logged call is a DELETE of, if it is one. -/
def deleteOf (e : DbEvent Time) : Option String :=
  match e.call with
  | .deleteTask id => some id
  | _ => none

theorem deleteOf_eq_some {e : DbEvent Time} {id : String} :
    deleteOf e = some id ↔ e.call = .deleteTask id := by
  obtain ⟨i, c, x, db⟩ := e
  cases c <;> simp [deleteOf]

/-- Every DELETE finds its row. -/
def DeletesFind (log : List (DbEvent Time)) : Prop :=
  ∀ e ∈ log, ∀ id ∈ deleteOf e, e.before.task.find? id ≠ none

instance (log : List (DbEvent Time)) : Decidable (DeletesFind log) :=
  inferInstanceAs (Decidable (∀ e ∈ log, ∀ id ∈ deleteOf e, e.before.task.find? id ≠ none))

theorem DeletesFind.earlier {l l' : List (DbEvent Time)} (h : l <+: l') (hf : DeletesFind l') :
    DeletesFind l := fun e he => hf e (h.subset he)

theorem written_delete {e : DbEvent Time} {id : String} :
    written C.chrono "delete" e = some id ↔ e.call = .deleteTask id := by
  obtain ⟨i, c, x, db⟩ := e
  cases c with
  | createTask owner input =>
    simp only [written]
    split <;> simp
  | _ => simp [written]

/-- If every DELETE finds its row, no id is deleted twice. -/
theorem deletes_nodup (hw : Reach (server C state) Db.empty w) (hfresh : FreshIds w.log)
    (hok : NoFaults w.log) (hfind : DeletesFind w.log) :
    (w.log.filterMap (written C.chrono "delete")).Nodup := by
  refine Reach.log_inv hw (H := fun log => FreshIds log ∧ NoFaults log ∧ DeletesFind log)
    (I := fun _ log => (log.filterMap (written C.chrono "delete")).Nodup)
    (fun hl h => ⟨h.1.earlier hl, h.2.1.earlier hl, h.2.2.earlier hl⟩) (by simp) ?_ ⟨hfresh, hok, hfind⟩
  rintro w i a c k hw hi x ⟨hfresh, hok, hfind⟩ ih
  have hpre : w.log <+: w.log ++ [⟨i, c, x, w.db⟩] := List.prefix_append _ _
  rw [List.filterMap_append]
  cases hwrite : written C.chrono "delete" ⟨i, c, x, w.db⟩ with
  | none => simpa [hwrite] using ih
  | some id =>
    obtain rfl : c = .deleteTask id := written_delete.mp hwrite
    simp only [List.filterMap_cons, hwrite, List.filterMap_nil]
    rw [← List.concat_eq_append]
    refine ih.concat fun hmem => hfind ⟨i, .deleteTask id, x, w.db⟩ (by simp) id rfl ?_
    obtain ⟨e, he, hdel⟩ := List.mem_filterMap.mp hmem
    exact (removed_gone hw (hfresh.earlier hpre)
      ⟨e, he, written_delete.mp hdel, hok e (hpre.subset he)⟩).2

/-- A deletion that was answered with 204 has run its DELETE. -/
theorem deleted_of_success {db : Db} (hw : Reach (server C state) db w) {i : ℕ} {a : Arrival Time}
    {r : Response Time} {id : String} (hi : w.Has i ⟨a, .ret r⟩) (hop : a.op = .deleteTask (.ok id))
    (hr : r.status = 204) : ∃ e ∈ w.own i, e.call = .deleteTask id := by
  have hsuccess : r.Success := by simp [Response.Success, hr]
  have hs := stage_of_reach hw hi
  dsimp only at hs
  generalize w.own i = es at hs
  cases hs with
  | refused hn => exact absurd hsuccess hn
  | create hop' hu h => rw [hop] at hop'; cases hop'
  | update hop' hu h => rw [hop] at hop'; cases hop'
  | delete hop' hu h =>
    rw [hop] at hop'
    cases hop'
    cases h with
    | done hr hw ha => exact ⟨_, List.mem_cons_of_mem _ (List.mem_cons_self ..), rfl⟩
    | _ => exact absurd hsuccess (AppError.not_success _)
  | reading hn => exact absurd (by rw [hop]; trivial) hn

/-- What a deletion can be answered when nothing fails. -/
theorem deletion_status (hw : Reach (server C state) Db.empty w) (hfresh : FreshIds w.log)
    (hok : NoFaults w.log) {i : ℕ} {a : Arrival Time} {r : Response Time} {id : String} {user : AuthUser}
    (hi : w.Has i ⟨a, .ret r⟩) (hop : a.op = .deleteTask (.ok id))
    (hu : a.authUser C state = .ok user) : r.status = 204 ∨ r.status = 404 ∨ r.status = 403 := by
  have hf := hw.follows hi
  rw [show (server C state).start a = Handlers.deleteTask user id by
    simp [server, handle, hop, hu, tryResult, withExtracted]] at hf
  have hlog : ∀ e ∈ w.own i, e ∈ w.log := fun e he => (World.mem_own.mp he).1
  have hs := deleteStage hf
  generalize w.own i = es at hs hlog
  cases hs with
  | readFailed hr =>
    rw [DbCall.exec_getTask.mpr ⟨hok _ (hlog _ (List.mem_cons_self ..)), rfl⟩] at hr
    cases hr
  | notFound hr => exact .inr (.inl rfl)
  | forbidden hr hm => exact .inr (.inr rfl)
  | writeFailed hr hw' =>
    rw [DbCall.exec_deleteTask.mpr
      ⟨hok _ (hlog _ (List.mem_cons_of_mem _ (List.mem_cons_self ..))), rfl⟩] at hw'
    cases hw'
  | auditFailed hr hw' ha =>
    rw [recordAudit_ok hw hfresh hok (hlog _ (List.mem_cons_of_mem _
      (List.mem_cons_of_mem _ (List.mem_cons_self ..))))] at ha
    cases ha
  | done hr hw' ha => exact .inl rfl

/-- The request of a DELETE is a deletion of its id. -/
theorem op_of_delete {db : Db} (hw : Reach (server C state) db w) {e : DbEvent Time} (he : e ∈ w.log)
    {id : String} (hc : e.call = .deleteTask id) {th : DbThread Time} (hi : w.Has e.tid th) :
    th.req.op = .deleteTask (.ok id) ∧ ∃ user, th.req.authUser C state = .ok user := by
  obtain ⟨v, a, k, hv, hiv, -, hsteps⟩ := hw.event he
  obtain ⟨tid, c, x, d⟩ := e
  dsimp only at hc
  subst hc
  obtain ⟨user, -, -, -, -, hop, hu, -⟩ := next_deleteTask hv hiv
  obtain ⟨p, hp⟩ := Steps.thread (.head (.call hiv x) hsteps) hiv
  rw [hi.unique hp]
  exact ⟨hop, user, hu⟩

/-- A DELETE that finds no row comes after another request's DELETE of the id. -/
theorem removed_between (hw : Reach (server C state) Db.empty w) (hfresh : FreshIds w.log)
    {e : DbEvent Time} (he : e ∈ w.log) {id : String} (hc : e.call = .deleteTask id)
    (habsent : e.before.task.find? id = none) :
    ∃ e₀ ∈ w.log, e₀.call = .deleteTask id ∧ e₀.tid ≠ e.tid := by
  obtain ⟨v, a, k, hv, hi, hdb, hsteps⟩ := hw.event he
  obtain ⟨tid, c, x, d⟩ := e
  dsimp only at hc hdb habsent
  subst hc hdb
  obtain ⟨-, existing, j, y, d', -, -, -, hown, hread⟩ := next_deleteTask hv hi
  have hvw : Steps (server C state) v w := .head (.call hi x) hsteps
  have hf : FreshIds v.log := hfresh.earlier (Steps.log_mono hvw)
  -- the row was there when the request read it
  obtain ⟨hmem, -⟩ := World.mem_of_own hown (List.mem_singleton.mpr rfl)
  obtain ⟨r₀, hr₀, -⟩ := identity_of_read hv hf hmem hread
  have hins : Inserted C.chrono v.log id := inserted_of_seen hv hf hmem (by simp [hr₀])
  have hrem : Removed v.log id := by
    by_contra hn
    exact (present_iff hv hf id).mpr ⟨hins, hn⟩ habsent
  obtain ⟨e₀, he₀, hc₀, -⟩ := hrem
  refine ⟨e₀, (Steps.log_mono hvw).subset he₀, hc₀, fun htid => ?_⟩
  have hmem₀ : e₀ ∈ v.own tid := World.mem_own.mpr ⟨he₀, htid⟩
  rw [hown, List.mem_singleton] at hmem₀
  subst hmem₀
  cases hc₀

/-- **A removal is reported and audited once, exactly when every DELETE finds its row**: it is in
every run that meets the condition, and a run that does not breaks it once its requests are
answered. -/
theorem deleted_once_iff (hw : Reach (server C state) Db.empty w) (hfresh : FreshIds w.log)
    (hok : NoFaults w.log) : (DeletesFind w.log → DeletedOnce C state w) ∧
      (w.Quiescent → DeletedOnce C state w → DeletesFind w.log) := by
  constructor
  · intro hfind
    have hnodup := deletes_nodup hw hfresh hok hfind
    refine ⟨?_, eventIds_nodup hw _ hnodup, ?_, fun hi => deletion_status hw hfresh hok hi⟩
    · intro i j a a' r r' id hi hj hop hop' hr hr'
      obtain ⟨e, he, hc⟩ := deleted_of_success hw hi hop hr
      obtain ⟨e', he', hc'⟩ := deleted_of_success hw hj hop' hr'
      have hown := World.mem_own.mp he
      have hown' := World.mem_own.mp he'
      have hsame := unique_of_nodup hnodup hown.1 hown'.1 (written_delete.mpr hc)
        (written_delete.mpr hc')
      rw [← hown.2, hsame, hown'.2]
    · intro row hrow hact
      obtain ⟨e, he, ho⟩ := event_of_row hw hrow
      obtain ⟨v, a, k, user, hv, hi, -, hsteps, hu, hactor, -, haudits⟩ := audits_of_event hw he ho
      have hvw : Steps (server C state) v w := .head (.call hi _) hsteps
      obtain ⟨j, x, db, existing, j', y, db', removed, -, hown, -, hdel⟩ := haudits.of_delete hact
      obtain ⟨hmem, htid⟩ := World.mem_of_own hown (List.mem_cons_of_mem _ (List.mem_cons_self ..))
      have hlog := (Steps.log_mono hvw).subset hmem
      obtain ⟨p, hp⟩ := Steps.thread hvw hi
      exact ⟨_, hlog, _, user, rfl, hok _ hlog, hfind _ hlog _ rfl, htid ▸ hp, hu, hactor⟩
  · intro hq honce e he id hdel habsent
    have hc := deleteOf_eq_some.mp hdel
    -- the request saw the row, so another DELETE removed it before this one ran
    obtain ⟨e₀, he₀, hc₀, htid⟩ := removed_between hw hfresh he hc habsent
    obtain ⟨⟨a, r, hi, hr⟩, -⟩ :=
      recorded_of_quiescent hw hfresh hok hq he (written_delete.mpr hc)
    obtain ⟨⟨a₀, r₀, hi₀, hr₀⟩, -⟩ :=
      recorded_of_quiescent hw hfresh hok hq he₀ (written_delete.mpr hc₀)
    obtain ⟨hop, user, hu⟩ := op_of_delete hw he hc hi
    obtain ⟨hop₀, user₀, hu₀⟩ := op_of_delete hw he₀ hc₀ hi₀
    have hstatus : ∀ {r : Response Time}, r.Success →
        r.status = 204 ∨ r.status = 404 ∨ r.status = 403 → r.status = 204 := by
      intro r hr h
      unfold Response.Success at hr
      omega
    exact htid (honce.response hi₀ hi hop₀ hop (hstatus hr₀ (honce.others hi₀ hop₀ hu₀))
      (hstatus hr (honce.others hi hop hu)))

end SecureLedger

/-! ### On the sample -/

namespace SecureLedger.Sample

open Atomic

/-- The owner and an admin delete a task, each checking before the other's DELETE. -/
def deletedTwice : ServerWorld Sec :=
  runOn [.arrive (withToken "tok.user" (.createTask (.ok ⟨"draft", "", none⟩)) 10),
    .call 0 (good 11 "t1"), .call 0 (good 12 "e1"),
    .arrive (withToken "tok.user" (.deleteTask (.ok "t1")) 20),
    .arrive (withToken "tok.admin" (.deleteTask (.ok "t1")) 21),
    .call 1 (good 22 ""), .call 2 (good 23 ""), .call 1 (good 24 ""), .call 2 (good 25 ""),
    .call 1 (good 26 "e2"), .call 2 (good 27 "e3")]

/-- Both are told 204, and the one removal has two events, by two actors. -/
theorem removal_reported_twice :
    deletedTwice.responses.map (·.map Response.status) = [some 201, some 204, some 204] ∧
    NoFaults deletedTwice.log ∧ FreshIds deletedTwice.log ∧ deletedTwice.db.task.rows = [] ∧
    (deletedTwice.db.auditEvent.rows.filter (·.action = "delete")).map
      (fun row => (row.entityId, row.actor)) = [("t1", "user"), ("t1", "admin")] := by
  decide +kernel

/-- The admin checks after the owner's DELETE. -/
def deletedInTurn : ServerWorld Sec :=
  runOn [.arrive (withToken "tok.user" (.createTask (.ok ⟨"draft", "", none⟩)) 10),
    .call 0 (good 11 "t1"), .call 0 (good 12 "e1"),
    .arrive (withToken "tok.user" (.deleteTask (.ok "t1")) 20),
    .arrive (withToken "tok.admin" (.deleteTask (.ok "t1")) 21),
    .call 1 (good 22 ""), .call 1 (good 23 ""), .call 2 (good 24 ""), .call 1 (good 25 "e2")]

theorem deletedInTurn_once : DeletedOnce crates state deletedInTurn :=
  (deleted_once_iff (runOn_reach _) (by decide +kernel) (by decide +kernel)).1 (by decide +kernel)

end SecureLedger.Sample
