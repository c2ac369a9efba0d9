import SecureLedger.Refinement
import SecureLedger.Ledger
import SecureLedger.Lib.Serial
import SecureLedger.Lib.Lists

/-!
# Serializable — interleaved requests that do not disturb each other

A request commits with its last call on the task table; what it does after that is its audit insert.  If
every UPDATE meets the row that its request has read, and every DELETE meets a row, the requests have the
effect and the responses of some order of them, one after the other (`serializable`).
-/

namespace SecureLedger

open Atomic

variable {Time : Type}

/-! ### Calls on one table -/

/-- Calls that only look at the task table. -/
def DbCall.OnTasks : DbCall Time → Prop
  | .recordAudit .. | .listAudit .. => False
  | _ => True

/-- Calls that change a row that is there. -/
def DbCall.Modifies : DbCall Time → Prop
  | .updateTask .. | .deleteTask _ => True
  | _ => False

section Calls

variable {C : Chrono Time} {c : DbCall Time} {x : Input Time} {db db' : Db}

/-- A call on the tasks does not see the audit table. -/
theorem exec_congr (hc : c.OnTasks) (h : db'.task = db.task) :
    (c.exec C x db').1 = (c.exec C x db).1 ∧ (c.exec C x db').2.task = (c.exec C x db).2.task := by
  cases hf : x.fault with
  | some f => simp [DbCall.exec_fault hf, h]
  | none =>
    cases c with
    | recordAudit => exact hc.elim
    | listAudit => exact hc.elim
    | createTask owner input =>
      simp only [DbCall.exec, Db.createTask, Db.withConn, hf, h]
      cases db.task.insert (taskToRow C (Db.newTask owner input x)) <;> simp [h]
    | _ => simp [DbCall.exec, Db.ping, Db.listTasks, Db.getTask, Db.updateTask, Db.deleteTask, Db.write,
        Db.withConn, hf, h]

/-- A call that is no audit insert leaves the audit table. -/
theorem exec_audits (hc : ∀ actor action entityType entityId detail,
    c ≠ .recordAudit actor action entityType entityId detail) :
    (c.exec C x db).2.auditEvent = db.auditEvent := by
  have he := DbCall.exec_effect C x db c
  generalize (c.exec C x db).2 = db' at he ⊢
  cases he with
  | audit => exact absurd rfl (hc _ _ _ _ _)
  | _ => rfl

/-- Whether the audit query fails does not depend on the rows. -/
theorem listAudit_isOk {actor action : Option String} {limit : ℤ} :
    Except.isOk ((DbCall.listAudit actor action limit).exec C x db').1 =
      Except.isOk ((DbCall.listAudit actor action limit).exec C x db).1 := by
  cases hf : x.fault with
  | some f => simp only [DbCall.exec_fault hf]
  | none =>
    simp only [DbCall.exec, Db.listAudit, Db.withConn, hf, AuditSelect.query]
    cases ((auditSelect actor action limit).2[(auditSelect actor action limit).1.limit - 1]?).bind Str.decimal <;> rfl

theorem DbCall.OnTasks.ne_audit (hc : c.OnTasks) (actor action entityType entityId detail : String) :
    c ≠ .recordAudit actor action entityType entityId detail := by
  rintro rfl
  exact hc

theorem DbCall.Modifies.onTasks (hc : c.Modifies) : c.OnTasks := by
  cases c <;> first | exact hc.elim | trivial

end Calls

/-! ### Commit points -/

/-- Nothing is left but an audit insert. -/
inductive Settled : DbProg Time (Response Time) → Prop
  | ret (r : Response Time) : Settled (.ret r)
  | audit {actor action entityType entityId detail : String} {k} (hk : ∀ x, ∃ r, k x = .ret r) :
      Settled (.call (.recordAudit actor action entityType entityId detail) k)

theorem Settled.after {c : DbCall Time} {k} (h : Settled (.call c k)) (x : c.Reply) : Settled (k x) := by
  cases h with
  | audit hk =>
    obtain ⟨r, hr⟩ := hk x
    rw [hr]
    exact .ret r

theorem Settled.tryAudit (actor action entityType entityId detail : String) (r : Response Time) :
    Settled (tryCall (.recordAudit actor action entityType entityId detail) fun _ => .ret r) :=
  .audit fun x => by cases x <;> exact ⟨_, rfl⟩

theorem Settled.tryResult {α : Type} (x : Except AppError α) {f : α → DbProg Time (Response Time)}
    (hf : ∀ a, Settled (f a)) : Settled (tryResult x f) := by
  cases x with
  | ok a => exact hf a
  | error e => exact .ret _

/-- One call on the tasks, or the audit query, and at most an audit insert after it. -/
inductive Single (op : Op) : DbProg Time (Response Time) → Prop
  | mk {c k} (hc : c.OnTasks) (hk : ∀ x, Settled (k x)) : Single op (.call c k)
  | listAudit {actor action limit k query} (hop : op = .listAudit query) (hk : ∀ x, ∃ r, k x = .ret r) :
      Single op (.call (.listAudit actor action limit) k)

/-- The programs of requests: settled, a single call, or a read and a change of what was read. -/
inductive Shape (op : Op) : DbProg Time (Response Time) → Prop
  | settled {p} (h : Settled p) : Shape op p
  | single {p} (h : Single op p) : Shape op p
  | checked {id k} (hk : ∀ x, Settled (k x) ∨ ∃ c k', k x = .call c k' ∧ c.Modifies ∧ ∀ y, Settled (k' y)) :
      Shape op (.call (.getTask id) k)

theorem settled_tryCall {c : DbCall Time} {f : c.Ret → DbProg Time (Response Time)} (hf : ∀ a, Settled (f a)) :
    ∃ k, tryCall c f = .call c k ∧ ∀ x, Settled (k x) :=
  ⟨_, rfl, fun x => by cases x with
    | ok a => exact hf a
    | error e => exact .ret _⟩

theorem Shape.tryResult {op : Op} {α : Type} (x : Except AppError α) {f : α → DbProg Time (Response Time)}
    (hf : ∀ a, Shape op (f a)) : Shape op (tryResult x f) := by
  cases x with
  | ok a => exact hf a
  | error e => exact .settled (.ret _)

theorem Shape.withExtracted {op : Op} {α : Type} (x : Extracted α) {f : α → DbProg Time (Response Time)}
    (hf : ∀ a, Shape op (f a)) : Shape op (withExtracted x f) := by
  cases x with
  | ok a => exact hf a
  | error e => exact .settled (.ret _)

theorem Shape.tryCall {op : Op} {c : DbCall Time} {f : c.Ret → DbProg Time (Response Time)} (hc : c.OnTasks)
    (hf : ∀ a, Settled (f a)) : Shape op (tryCall c f) := by
  obtain ⟨k, hk, hsettled⟩ := settled_tryCall hf
  rw [hk]
  exact .single (.mk hc hsettled)

/-- What `update_task` and `delete_task` share. -/
theorem Shape.checkedCall {op : Op} {user : AuthUser} {id m : String} {f : Task Time → DbProg Time (Response Time)}
    (hf : ∀ task, ∃ c k', f task = .call c k' ∧ c.Modifies ∧ ∀ y, Settled (k' y)) :
    Shape op (SecureLedger.tryCall (.getTask id) fun found =>
      SecureLedger.tryResult (okOr found (.notFound "task not found")) fun existing =>
      if !user.isAdmin && existing.owner != user.username then .ret (AppError.forbidden m).intoResponse
      else f existing) := by
  refine .checked fun x => ?_
  rcases x with e | (_ | existing)
  · exact .inl (.ret _)
  · exact .inl (.ret _)
  · dsimp only [okOr, SecureLedger.tryResult]
    split
    · exact .inl (.ret _)
    · exact .inr (hf existing)

variable {C : Crates Time} {state : AppState}

theorem handle_shape (a : Arrival Time) : Shape a.op (handle C state a) := by
  obtain ⟨headers, op, now⟩ := a
  cases op with
  | login body =>
    refine .withExtracted body fun req => .tryResult _ fun u => ?_
    split
    · exact .settled (.ret _)
    · exact .tryResult _ fun token => .settled (.ret _)
  | listTasks query =>
    exact .tryResult _ fun _ => .withExtracted query fun p => .tryCall trivial fun _ => .ret _
  | getTask id =>
    exact .tryResult _ fun _ => .withExtracted id fun id => .tryCall trivial fun found =>
      .tryResult _ fun _ => .ret _
  | createTask body =>
    exact .tryResult _ fun user => .withExtracted body fun input => .tryResult _ fun _ =>
      .tryCall trivial fun task => .tryAudit ..
  | updateTask id body =>
    refine .tryResult _ fun user => .withExtracted id fun id => .withExtracted body fun input =>
      .tryResult _ fun _ => .checkedCall fun task => ?_
    obtain ⟨k, hk, hsettled⟩ := settled_tryCall (c := .updateTask task input) fun updated =>
      Settled.tryAudit user.username "update" "task" updated.id ("status=" ++ updated.status.asStr)
        ⟨200, .task updated⟩
    exact ⟨_, k, hk, trivial, hsettled⟩
  | deleteTask id =>
    refine .tryResult _ fun user => .withExtracted id fun id => .checkedCall fun task => ?_
    obtain ⟨k, hk, hsettled⟩ := settled_tryCall (c := .deleteTask id) fun _ =>
      @Settled.tryAudit Time user.username "delete" "task" id "" ⟨204, .empty⟩
    exact ⟨_, k, hk, trivial, hsettled⟩
  | listAudit query =>
    refine .tryResult _ fun _ => ?_
    cases query with
    | error r => exact .settled (.ret _)
    | ok q =>
      exact .single (.listAudit rfl fun x => by cases x <;> exact ⟨_, rfl⟩)
  | healthz => exact .settled (.ret _)
  | readyz => exact .single (.mk trivial fun x => by cases x <;> exact .ret _)

/-- A request that has not committed has made no call, or has read what it is about to change. -/
theorem unsettled {a : Arrival Time} {es : List (DbEvent Time)} {c : DbCall Time} {k}
    (h : Follows (server C state) (handle C state a) es (.call c k)) (hc : ¬ Settled (.call c k)) :
    (es = [] ∧ handle C state a = .call c k) ∨
    ∃ id k₀ i x db, es = [⟨i, .getTask id, x, db⟩] ∧ handle C state a = .call (.getTask id) k₀ ∧
      k₀ ((DbCall.getTask id).exec C.chrono x db).1 = .call c k ∧ c.Modifies ∧ ∀ y, Settled (k y) := by
  have hsettled : ∀ {p : DbProg Time (Response Time)} {es}, Follows (server C state) p es (.call c k) →
      ¬ Settled p := by
    intro p es h
    generalize hq : Prog.call c k = q at h
    induction h with
    | nil p => exact hq ▸ hc
    | cons _ ih => exact fun hp => ih hq (hp.after _)
  have hshape : Shape a.op (handle C state a) := handle_shape a
  generalize handle C state a = p at h hshape
  have hsingle : ∀ {p : DbProg Time (Response Time)} {es}, Follows (server C state) p es (.call c k) →
      (∃ c' k', p = .call c' k' ∧ ∀ x, Settled (k' x)) → es = [] ∧ p = .call c k := by
    rintro p es h ⟨c', k', rfl, hk'⟩
    rcases follows_call.mp h with ⟨rfl, hp⟩ | ⟨i, x, db, es', rfl, hrest⟩
    · exact ⟨rfl, hp.symm⟩
    · exact absurd (hk' _) (hsettled hrest)
  cases hshape with
  | settled hp => exact absurd hp (hsettled h)
  | single hp =>
    cases hp with
    | mk hc hk => exact .inl (hsingle h ⟨_, _, rfl, hk⟩)
    | listAudit hop hk =>
      refine .inl (hsingle h ⟨_, _, rfl, fun x => ?_⟩)
      obtain ⟨r, hr⟩ := hk x
      exact hr ▸ .ret r
  | @checked id k₀ hk =>
    rcases follows_call.mp h with ⟨rfl, hp⟩ | ⟨i, x, db, es', rfl, hrest⟩
    · exact .inl ⟨rfl, hp.symm⟩
    · rcases hk ((server C state).exec (.getTask id) x db).1 with hs | ⟨c', k', hk', hm, hs⟩
      · exact absurd hs (hsettled hrest)
      · obtain ⟨rfl, hcall⟩ := hsingle hrest ⟨c', k', hk', hs⟩
        rw [hcall] at hk'
        obtain ⟨rfl, hkk⟩ := Prog.call.inj hk'
        exact .inr ⟨id, k₀, i, x, db, rfl, rfl, hcall, hm, eq_of_heq hkk ▸ hs⟩

/-! ### Requests that do not disturb each other -/

/-- The task that an UPDATE is for. -/
def DbCall.updates : DbCall Time → Option String
  | .updateTask existing _ => some existing.id
  | _ => none

/-- The task that a DELETE is for. -/
def DbCall.deletes : DbCall Time → Option String
  | .deleteTask id => some id
  | _ => none

/-- An UPDATE meets the row that its request has read, and a DELETE meets a row. -/
def Undisturbed (log : List (DbEvent Time)) : Prop :=
  ∀ e ∈ log, (∀ id ∈ e.call.updates, ∀ e₀ ∈ log, e₀.tid = e.tid → e₀.call = .getTask id →
    e.before.task.find? id = e₀.before.task.find? id) ∧
    ∀ id ∈ e.call.deletes, e.before.task.find? id ≠ none

instance undisturbedDecidable [DecidableEq Time] (log : List (DbEvent Time)) : Decidable (Undisturbed log) :=
  inferInstanceAs (Decidable (∀ e ∈ log, _ ∧ _))

/-- A failing call. -/
def lost (now : Time) : Input Time := ⟨now, "", some (.pool "in flight")⟩

/-- The inputs that the calls of a request got; a call that it has not made yet fails. -/
def ownInputs (w : ServerWorld Time) (now : Time) (i : ℕ) : ℕ → Input Time := inputsOf (w.own i) (lost now)

/-- The audit rows of a request. -/
def ownAudits (C : Chrono Time) (w : ServerWorld Time) (i : ℕ) : List AuditRow :=
  (w.own i).filterMap (auditOf C)

/-- A call returned a value. -/
abbrev Returned (c : DbCall Time) (x : c.Reply) : Prop := Except.isOk x

variable (C state) in
/-- What the requests `order` of the run `w`, run one after the other, come to. -/
structure SerialRun (w : ServerWorld Time) (order : List ℕ) (V : ServerWorld Time) : Prop where
  audits : V.db.auditEvent.rows = order.flatMap (ownAudits C.chrono w)
  length : V.threads.length = order.length
  answers : ∀ {j i th response}, order[j]? = some i → w.Has i th → th.answer = some response →
    (∀ q, th.req.op ≠ .listAudit q) → V.Has j ⟨th.req, .ret response⟩
  noErrors : w.Quiescent → NoErrors C state V.log

section Commit

variable {v w V : ServerWorld Time} {i : ℕ} {a : Arrival Time} {now : Time} {order : List ℕ}

/-- Run alone with the inputs it got, `q` ends as in the run, where it stands at `p` after the calls `post`. -/
structure Finishes (C : Crates Time) (state : AppState) (now : Time) (q : DbProg Time (Response Time))
    (post : List (DbEvent Time)) (p : DbProg Time (Response Time)) (db : Db) (j : ℕ) : Prop where
  answer : ∀ {r}, p = .ret r →
    (q.eval (server C state) (inputsOf post (lost now)) db).1 = r ∧
    NoErrors C state (q.calls (server C state) j (inputsOf post (lost now)) db)
  task : (q.eval (server C state) (inputsOf post (lost now)) db).2.task = db.task
  audits : (q.eval (server C state) (inputsOf post (lost now)) db).2.auditEvent.rows =
    db.auditEvent.rows ++ post.filterMap (auditOf C.chrono)

/-- What is left of a settled request, run alone. -/
theorem settled_finishes {q p : DbProg Time (Response Time)} {post : List (DbEvent Time)} {db : Db}
    (hq : Settled q) (h : Follows (server C state) q post p) (hok : NoErrors C state post)
    (hfresh : ∀ row ∈ post.filterMap (auditOf C.chrono), db.auditEvent.find? row.id = none) (now : Time) (j : ℕ) :
    Finishes C state now q post p db j := by
  cases hq with
  | ret r =>
    obtain ⟨rfl, rfl⟩ := follows_ret.mp h
    refine ⟨fun hr => ?_, rfl, (List.append_nil _).symm⟩
    cases hr
    exact ⟨rfl, fun e he => absurd he List.not_mem_nil⟩
  | @audit actor action entityType entityId detail k hk =>
    rcases follows_call.mp h with ⟨rfl, rfl⟩ | ⟨l, x, d, es, rfl, hrest⟩
    · -- in flight: run alone, the insert fails
      have hfail : (server C state).exec (.recordAudit actor action entityType entityId detail) (lost now) db =
          (.error (DbFault.pool "in flight").toAppError, db) :=
        DbCall.exec_fault (C := C.chrono) (x := lost now) (f := .pool "in flight") rfl
          (.recordAudit actor action entityType entityId detail)
      obtain ⟨r, hr⟩ := hk (.error (DbFault.pool "in flight").toAppError)
      have heval : (Prog.call (.recordAudit actor action entityType entityId detail) k).eval (server C state)
          (inputsOf ([] : List (DbEvent Time)) (lost now)) db = (r, db) := by
        rw [Prog.eval, inputsOf_nil, hfail, hr]
        rfl
      exact ⟨fun hr => (by cases hr), by rw [heval], by rw [heval]; simp⟩
    · have hreply : Except.isOk ((DbCall.recordAudit actor action entityType entityId detail).exec C.chrono x d).1 :=
        hok _ (List.mem_cons_self ..)
      cases hmade : ((DbCall.recordAudit actor action entityType entityId detail).exec C.chrono x d).1 with
      | error e => rw [hmade] at hreply; cases hreply
      | ok _ =>
        obtain ⟨r, hr⟩ := hk (.ok ())
        have hsame : ((server C state).exec (.recordAudit actor action entityType entityId detail) x d).1 = .ok () :=
          hmade
        rw [hsame, hr] at hrest
        obtain ⟨rfl, rfl⟩ := follows_ret.mp hrest
        -- the row is new to the table here as well
        have hrow := @auditOf_ok _ _ _ _ _ _ _ l _ _ hmade
        have hnew : db.auditEvent.find? x.uuid = none :=
          hfresh (Db.auditRow C.chrono actor action entityType entityId detail x) (by simp [hrow])
        have halone : ((DbCall.recordAudit actor action entityType entityId detail).exec C.chrono x db).1 = .ok () :=
          DbCall.exec_recordAudit.mpr ⟨DbCall.fault_of_ok hmade, hnew⟩
        obtain ⟨t, ht, hdb⟩ := DbCall.recordAudit_state halone
        have halone' : ((server C state).exec (.recordAudit actor action entityType entityId detail) x db).1 = .ok () :=
          halone
        have hdb' : ((server C state).exec (.recordAudit actor action entityType entityId detail) x db).2 =
            ⟨db.task, t⟩ := hdb
        have heval : (Prog.call (.recordAudit actor action entityType entityId detail) k).eval (server C state)
            (inputsOf ([⟨l, .recordAudit actor action entityType entityId detail, x, d⟩] : List (DbEvent Time))
              (lost now)) db = (r, ⟨db.task, t⟩) := by
          rw [Prog.eval, inputsOf_zero, halone', hdb', hr]
          rfl
        refine ⟨fun hr' => ⟨?_, fun e he => ?_⟩, by rw [heval], ?_⟩
        · cases hr'
          rw [heval]
        · rw [Prog.calls, inputsOf_zero, halone', hr] at he
          obtain rfl := List.mem_singleton.mp he
          have hreply' : Except.isOk
              ((server C state).exec (.recordAudit actor action entityType entityId detail) x db).1 := by
            rw [halone']
            rfl
          exact hreply'
        · rw [heval]
          show t.rows = _
          rw [Table.insert_rows ht]
          simp [hrow]

/-- An audit insert draws the id of its row. -/
theorem drawn_of_auditOf {C : Chrono Time} {e : DbEvent Time} {row : AuditRow} (h : auditOf C e = some row) :
    e.call.drawn e.input = some row.id := by
  obtain ⟨actor, action, entityType, entityId, detail, hc, -, rfl⟩ := auditOf_eq_some.mp h
  obtain ⟨j, c, x, db⟩ := e
  dsimp only at hc
  subst hc
  rfl

/-- A row that a request inserts is new to the audit table of the others. -/
theorem SerialRun.fresh (hJ : SerialRun C state w order V) (hfresh : FreshIds w.log) (hi : i ∉ order)
    {row : AuditRow} (hrow : row ∈ ownAudits C.chrono w i) : V.db.auditEvent.find? row.id = none := by
  obtain ⟨e, he, ho⟩ := List.mem_filterMap.mp hrow
  obtain ⟨hlog, htid⟩ := World.mem_own.mp he
  refine Table.find?_eq_none.mpr fun row' hrow' hid => ?_
  rw [hJ.audits] at hrow'
  obtain ⟨j, hj, hrow'⟩ := List.mem_flatMap.mp hrow'
  obtain ⟨e', he', ho'⟩ := List.mem_filterMap.mp hrow'
  obtain ⟨hlog', htid'⟩ := World.mem_own.mp he'
  have hsame : e = e' :=
    unique_of_nodup hfresh hlog hlog' (drawn_of_auditOf ho) (hid ▸ drawn_of_auditOf ho')
  refine hi ?_
  rw [← htid, hsame, htid']
  exact hj

variable (now) in
/-- **A request run alone at its commit point.**  It retraces the calls that it has made until then, and ends
as in the run. -/
theorem SerialRun.commit (hJ : SerialRun C state w order V) (hfresh : FreshIds w.log)
    (hok : NoErrors C state w.log) (hi : i ∉ order) {p p' q : DbProg Time (Response Time)}
    (hth : w.Has i ⟨a, p⟩) {es post : List (DbEvent Time)} (hown : w.own i = es ++ post)
    (hes : es.filterMap (auditOf C.chrono) = []) {d : Db}
    (hretrace : Retraces (server C state) Returned (handle C state a) es V.db d q)
    (haudit : d.auditEvent = V.db.auditEvent) (hq : Settled q) (hpost : Follows (server C state) q post p')
    (hp : ∀ r, p = .ret r → ∃ r', p' = .ret r' ∧ ((∀ query, a.op ≠ .listAudit query) → r' = r)) :
    (V.serve (server C state) a (ownInputs w now i)).db.task = d.task ∧
      SerialRun C state w (order ++ [i]) (V.serve (server C state) a (ownInputs w now i)) := by
  have hsub : ∀ e ∈ post, e ∈ w.log := fun e he =>
    (World.mem_own.mp (hown ▸ List.mem_append_right es he : e ∈ w.own i)).1
  have hrows : ownAudits C.chrono w i = post.filterMap (auditOf C.chrono) := by
    rw [ownAudits, hown, List.filterMap_append, hes, List.nil_append]
  have hfinish := settled_finishes hq hpost (fun e he => hok e (hsub e he))
    (fun row hrow => by rw [haudit]; exact hJ.fresh hfresh hi (hrows ▸ hrow)) now V.threads.length
  have hinputs : ownInputs w now i = inputsOf (es ++ post) (lost now) := by rw [ownInputs, hown]
  have heval : (handle C state a).eval (server C state) (ownInputs w now i) V.db =
      q.eval (server C state) (inputsOf post (lost now)) d := by
    rw [hinputs]
    exact hretrace.eval
  have hdb : (V.serve (server C state) a (ownInputs w now i)).db =
      (q.eval (server C state) (inputsOf post (lost now)) d).2 := congrArg Prod.snd heval
  refine ⟨by rw [hdb, hfinish.task], ?_, ?_, ?_, ?_⟩
  · rw [hdb, hfinish.audits, haudit, hJ.audits, ← hrows, List.flatMap_append, List.flatMap_singleton]
  · simp [World.serve, hJ.length]
  · intro j i' th response hj hi' hanswer hop
    by_cases hlt : j < order.length
    · rw [List.getElem?_append_left hlt] at hj
      have hold := hJ.answers hj hi' hanswer hop
      exact (List.getElem?_append_left hold.lt).trans hold
    · have hlast : j = order.length := by
        have := (List.getElem?_eq_some_iff.mp hj).1
        simp only [List.length_append, List.length_singleton] at this
        omega
      subst hlast
      rw [List.getElem?_concat_length, Option.some.injEq] at hj
      subst hj
      obtain rfl := hth.unique hi'
      obtain ⟨r', rfl, hr'⟩ := hp response (Thread.answer_eq_some.mp hanswer)
      obtain ⟨hret, -⟩ := hfinish.answer rfl
      have hresponse : ((handle C state a).eval (server C state) (ownInputs w now i) V.db).1 = response := by
        rw [heval, hret, hr' hop]
      show (V.threads ++ [_])[order.length]? = _
      rw [← hJ.length, List.getElem?_concat_length]
      exact congrArg (fun r => some (⟨a, .ret r⟩ : DbThread Time)) hresponse
  · intro hquiet e he
    rcases List.mem_append.mp he with he | he
    · exact hJ.noErrors hquiet e he
    · obtain ⟨r, hr⟩ := hquiet i _ hth
      obtain ⟨r', rfl, -⟩ := hp r hr
      obtain ⟨-, hcalls⟩ := hfinish.answer rfl
      rw [hinputs] at he
      exact hretrace.calls V.threads.length hcalls e he

end Commit

/-! ### Every run -/

section Runs

variable {v w : ServerWorld Time} {now : Time}

/-- A request that needs no call on the tasks is answered at once. -/
theorem handle_ret_of_settled {a : Arrival Time} (h : Settled (handle C state a)) :
    ∃ r, handle C state a = .ret r := by
  have hstage : Stage C state a [] (handle C state a) := stage_of_follows (.nil (handle C state a))
  generalize handle C state a = p at h hstage
  cases h with
  | ret r => exact ⟨r, rfl⟩
  | audit hk =>
    cases hstage with
    | create _ _ h => cases h
    | update _ _ h => cases h
    | delete _ _ h => cases h
    | reading _ _ hp => exact (hp _ _ rfl).elim

/-- What `delete_task` does with the task it has read depends on its owner only. -/
theorem delete_congr {a : Arrival Time} {user : AuthUser} {id : String} {k}
    (hop : a.op = .deleteTask (.ok id)) (hu : a.authUser C state = .ok user)
    (h : handle C state a = .call (.getTask id) k) {task task' : Task Time} (howner : task.owner = task'.owner) :
    k (.ok (some task)) = k (.ok (some task')) := by
  have hhandle : handle C state a = Handlers.deleteTask user id := by
    unfold handle
    rw [hop, hu]
    rfl
  rw [hhandle] at h
  obtain ⟨-, hk⟩ := Prog.call.inj h
  rw [← eq_of_heq hk]
  simp only [okOr, tryResult_ok, howner]

section Step

variable {V : ServerWorld Time} {order : List ℕ} {i : ℕ} {a : Arrival Time} {c : DbCall Time} {x : Input Time}
  {k : c.Reply → DbProg Time (Response Time)}

/-- What a request does after a step of its own. -/
theorem after_step (hw : Reach (server C state) Db.empty w) (hv : Reach (server C state) Db.empty v)
    (hi : v.Has i ⟨a, .call c k⟩) (hvw : Steps (server C state) (v.exec (server C state) i a c k x) w) :
    ∃ p post, w.Has i ⟨a, p⟩ ∧ w.own i = (v.own i ++ [⟨i, c, x, v.db⟩]) ++ post ∧
      Follows (server C state) (k (c.exec C.chrono x v.db).1) post p := by
  obtain ⟨rest, hrest⟩ := Steps.log_mono hvw
  have hown : w.own i = (v.own i ++ [⟨i, c, x, v.db⟩]) ++ rest.filter (·.tid = i) := by
    rw [World.own, ← hrest]
    simp [World.own, World.exec]
  obtain ⟨p, hp⟩ := Steps.thread hvw ((World.has_exec hi).mpr (.inl ⟨rfl, rfl⟩))
  refine ⟨p, _, hp, hown, ?_⟩
  have hfollows := hw.follows hp
  rw [hown] at hfollows
  exact ((hv.follows hi).snoc i x v.db).rest hfollows

/-- The call of a log that a step adds. -/
theorem mem_of_step (hvw : Steps (server C state) (v.exec (server C state) i a c k x) w) :
    (⟨i, c, x, v.db⟩ : DbEvent Time) ∈ w.log :=
  (Steps.log_mono hvw).subset (by simp [World.exec])

/-- A request commits with a call on the tasks. -/
theorem commit_onTasks (hw : Reach (server C state) Db.empty w) (hfresh : FreshIds w.log)
    (hok : NoErrors C state w.log) (hv : Reach (server C state) Db.empty v) (hi : v.Has i ⟨a, .call c k⟩)
    (hvw : Steps (server C state) (v.exec (server C state) i a c k x) w)
    (hsettled : Settled (k (c.exec C.chrono x v.db).1)) (hc : c.OnTasks) (hn : i ∉ order)
    (hview : V.db.task = v.db.task) (hJ : SerialRun C state w order V)
    (hes : (v.own i).filterMap (auditOf C.chrono) = [])
    (hpre : Retraces (server C state) Returned (handle C state a) (v.own i) V.db V.db (.call c k)) :
    (V.serve (server C state) a (ownInputs w now i)).db.task = (c.exec C.chrono x v.db).2.task ∧
      SerialRun C state w (order ++ [i]) (V.serve (server C state) a (ownInputs w now i)) := by
  obtain ⟨p, post, hp, hown, hpost⟩ := after_step hw hv hi hvw
  obtain ⟨hreply, htask⟩ := exec_congr (C := C.chrono) (x := x) hc hview
  have hreturned : Returned c (c.exec C.chrono x V.db).1 := by
    rw [hreply]
    exact hok _ (mem_of_step hvw)
  have hlast : Retraces (server C state) Returned (.call c k) [⟨i, c, x, v.db⟩] V.db (c.exec C.chrono x V.db).2
      (k (c.exec C.chrono x V.db).1) := .cons hreturned (.nil _ _)
  have hnone : (v.own i ++ [(⟨i, c, x, v.db⟩ : DbEvent Time)]).filterMap (auditOf C.chrono) = [] := by
    rw [List.filterMap_append, hes, List.filterMap_cons, auditOf_other hc.ne_audit]
    rfl
  rw [← hreply] at hsettled hpost
  obtain ⟨hserve, hJ'⟩ := hJ.commit now hfresh hok hn hp hown hnone (hpre.append hlast)
    (exec_audits hc.ne_audit) hsettled hpost fun r hr => ⟨r, hr, fun _ => rfl⟩
  exact ⟨hserve.trans htask, hJ'⟩

/-- A request commits with its first call. -/
theorem commit_first (hw : Reach (server C state) Db.empty w) (hfresh : FreshIds w.log)
    (hok : NoErrors C state w.log) (hv : Reach (server C state) Db.empty v) (hi : v.Has i ⟨a, .call c k⟩)
    (hvw : Steps (server C state) (v.exec (server C state) i a c k x) w) (hns : ¬ Settled (.call c k))
    (hsettled : Settled (k (c.exec C.chrono x v.db).1)) (hn : i ∉ order) (hview : V.db.task = v.db.task)
    (hJ : SerialRun C state w order V) (hown : v.own i = []) (hhandle : handle C state a = .call c k) :
    (V.serve (server C state) a (ownInputs w now i)).db.task = (c.exec C.chrono x v.db).2.task ∧
      SerialRun C state w (order ++ [i]) (V.serve (server C state) a (ownInputs w now i)) := by
  have honTasks : c.OnTasks → (V.serve (server C state) a (ownInputs w now i)).db.task =
      (c.exec C.chrono x v.db).2.task ∧
      SerialRun C state w (order ++ [i]) (V.serve (server C state) a (ownInputs w now i)) := fun hc =>
    commit_onTasks hw hfresh hok hv hi hvw hsettled hc hn hview hJ (by rw [hown]; rfl)
      (by rw [hown, hhandle]; exact .nil _ _)
  have hshape : Shape a.op (handle C state a) := handle_shape a
  rw [hhandle] at hshape
  cases hshape with
  | settled h => exact absurd h hns
  | checked hk => exact honTasks trivial
  | single h =>
    cases h with
    | mk hc hk => exact honTasks hc
    | @listAudit actor action limit k query hop hk =>
      -- its answer may be another one
      obtain ⟨p, post, hp, hown', hpost⟩ := after_step hw hv hi hvw
      obtain ⟨r, hr⟩ := hk ((DbCall.listAudit actor action limit).exec C.chrono x v.db).1
      rw [hr] at hpost
      obtain ⟨rfl, rfl⟩ := follows_ret.mp hpost
      obtain ⟨r', hr'⟩ := hk ((DbCall.listAudit actor action limit).exec C.chrono x V.db).1
      have hreturned : Returned _ ((DbCall.listAudit actor action limit).exec C.chrono x V.db).1 := by
        rw [Returned, @listAudit_isOk Time C.chrono x v.db]
        exact hok _ (mem_of_step hvw)
      have hretrace : Retraces (server C state) Returned (handle C state a)
          (v.own i ++ [⟨i, .listAudit actor action limit, x, v.db⟩]) V.db
          ((DbCall.listAudit actor action limit).exec C.chrono x V.db).2 (.ret r') := by
        rw [hown, hhandle, ← hr']
        exact .cons hreturned (.nil _ _)
      obtain ⟨hserve, hJ'⟩ := hJ.commit now hfresh hok hn hp hown' (by rw [hown]; rfl) hretrace
        (exec_audits fun _ _ _ _ _ => by simp) (.ret r') (.nil _) fun _ _ =>
          ⟨r', rfl, fun hop' => absurd hop (hop' query)⟩
      refine ⟨hserve.trans ?_, hJ'⟩
      rw [exec_reads (c := .listAudit actor action limit) trivial,
        exec_reads (c := .listAudit actor action limit) trivial, hview]

/-- An audit insert does not change the tasks. -/
theorem settled_task (h : Settled (.call c k)) {db : Db} : (c.exec C.chrono x db).2.task = db.task := by
  have he := DbCall.exec_effect C.chrono x db c
  generalize (c.exec C.chrono x db).2 = db' at he ⊢
  cases he with
  | none => rfl
  | audit => rfl
  | create => cases h
  | update => cases h
  | delete => cases h

/-- A first call that does not commit reads. -/
theorem reads_of_unsettled (hhandle : handle C state a = .call c k) (hns : ¬ Settled (.call c k)) {y : c.Reply}
    (hk : ¬ Settled (k y)) : c.Reads := by
  have hshape : Shape a.op (handle C state a) := handle_shape a
  rw [hhandle] at hshape
  cases hshape with
  | settled h => exact absurd h hns
  | checked _ => trivial
  | single h =>
    cases h with
    | mk _ hsettled => exact absurd (hsettled y) hk
    | listAudit _ _ => trivial

theorem getTask_congr {id : String} {db db' : Db} (h : db'.task.find? id = db.task.find? id) :
    ((DbCall.getTask id).exec C.chrono x db').1 = ((DbCall.getTask id).exec C.chrono x db).1 := by
  simp only [DbCall.exec, Db.getTask, Db.withConn, h]
  cases x.fault <;> rfl

/-- A request that reads its task at its commit point goes on as it did. -/
theorem reads_again (hfresh : FreshIds w.log) (hok : NoErrors C state w.log) (hundisturbed : Undisturbed w.log)
    (hv : Reach (server C state) Db.empty v) (hi : v.Has i ⟨a, .call c k⟩)
    (hvw : Steps (server C state) (v.exec (server C state) i a c k x) w) (hview : V.db.task = v.db.task)
    {id : String} {k₀ : (DbCall.getTask id).Reply → DbProg Time (Response Time)} {j : ℕ} {y : Input Time} {d : Db}
    (hown : v.own i = [⟨j, .getTask id, y, d⟩]) (hhandle : handle C state a = .call (.getTask id) k₀)
    (hread : k₀ ((DbCall.getTask id).exec C.chrono y d).1 = .call c k) (hc : c.Modifies) :
    Returned (.getTask id) ((DbCall.getTask id).exec C.chrono y V.db).1 ∧
      k₀ ((DbCall.getTask id).exec C.chrono y V.db).1 = .call c k := by
  obtain ⟨hlog, htid⟩ := World.mem_of_own hown (List.mem_singleton.mpr rfl)
  have hpre : v.log <+: w.log := (List.prefix_append _ _).trans (Steps.log_mono hvw)
  have hreturned := hok _ (hpre.subset hlog)
  obtain ⟨hupdates, hdeletes⟩ := hundisturbed _ (mem_of_step hvw)
  cases c with
  | updateTask existing input =>
    obtain ⟨user, id', j', x', d', -, -, -, -, hown', hr⟩ := next_updateTask hv hi
    rw [hown] at hown'
    cases hown'
    obtain ⟨-, hfound⟩ := DbCall.exec_getTask.mp hr
    obtain ⟨row, hrow, rfl⟩ := Option.map_eq_some_iff.mp hfound.symm
    have hid : row.id = id := Table.find?_key hrow
    have hsame := hupdates id (congrArg some hid) _ (hpre.subset hlog) htid rfl
    have hcongr : ((DbCall.getTask id).exec C.chrono y V.db).1 = ((DbCall.getTask id).exec C.chrono y d).1 :=
      getTask_congr (by rw [hview]; exact hsame)
    rw [hcongr]
    exact ⟨hreturned, hread⟩
  | deleteTask id' =>
    obtain ⟨user, existing, j', x', d', hop, hu, -, hown', hr⟩ := next_deleteTask hv hi
    rw [hown] at hown'
    cases hown'
    obtain ⟨r₀, hr₀, rfl, -, hidentity⟩ := identity_of_read hv (hfresh.earlier hpre) hlog hr
    obtain ⟨row, hrow⟩ := Option.ne_none_iff_exists'.mp (hdeletes id rfl)
    obtain ⟨hmem, hid⟩ := Table.find?_eq_some.mp hrow
    have howner : row.owner = r₀.owner := congrArg (fun p => p.2.1) (hidentity row hmem hid)
    have hagain : ((DbCall.getTask id).exec C.chrono y V.db).1 = .ok (some (rowToTask C.chrono y.now row)) :=
      DbCall.exec_getTask.mpr ⟨DbCall.fault_of_ok hr, by rw [hview, hrow]; rfl⟩
    rw [hagain]
    refine ⟨rfl, ?_⟩
    have hsame : k₀ (.ok (some (rowToTask C.chrono y.now row))) =
        k₀ (.ok (some (rowToTask C.chrono y.now r₀))) := delete_congr hop hu hhandle howner
    rw [hsame, ← hr]
    exact hread
  | _ => exact hc.elim

end Step

theorem serializes (hw : Reach (server C state) Db.empty w) (hfresh : FreshIds w.log)
    (hok : NoErrors C state w.log) (hundisturbed : Undisturbed w.log) (now : Time) :
    Serializes (server C state) Db.task Db.empty w Settled (ownInputs w now) (SerialRun C state w) where
  init := ⟨rfl, rfl, fun hj => by simp at hj, fun _ e he => absurd he List.not_mem_nil⟩
  settled_ret := handle_ret_of_settled
  arrive := by
    intro v a hv hvw hsettled order V hn hview hJ
    obtain ⟨r, hr⟩ := handle_ret_of_settled hsettled
    obtain ⟨p, hp⟩ := Steps.thread hvw (World.has_arrive.mpr (.inr ⟨rfl, rfl⟩))
    have hfollows : Follows (server C state) (handle C state a) (w.own v.threads.length) p := hw.follows hp
    rw [hr] at hfollows
    obtain ⟨hnone, rfl⟩ := follows_ret.mp hfollows
    obtain ⟨htask, hJ'⟩ := hJ.commit now hfresh hok hn hp
      (show w.own _ = [] ++ [] from hnone) rfl
      (.nil (handle C state a) V.db) rfl hsettled (hr ▸ .nil _) fun r' hr' => ⟨r', hr', fun _ => rfl⟩
    exact ⟨htask.trans hview, hJ'⟩
  call := by
    intro v i a c k x hv hi hvw
    by_cases hs : Settled (.call c k)
    · -- an audit insert
      exact .inl ⟨.inl hs, settled_task hs, fun _ => hs.after _⟩
    · rcases unsettled (hv.follows hi) hs with ⟨hown, hhandle⟩ |
        ⟨id, k₀, j, y, d, hown, hhandle, hread, hmodifies, hk⟩
      · by_cases hsettled : Settled (k ((server C state).exec c x v.db).1)
        · exact .inr ⟨hs, hsettled, fun hn hview hJ =>
            commit_first hw hfresh hok hv hi hvw hs hsettled hn hview hJ hown hhandle⟩
        · have hreads : c.Reads := reads_of_unsettled hhandle hs hsettled
          have hsame : ((server C state).exec c x v.db).2 = v.db := exec_reads hreads x v.db
          exact .inl ⟨.inr hsettled, congrArg Db.task hsame, fun h => absurd h hs⟩
      · refine .inr ⟨hs, hk _, fun {order V} hn hview hJ => ?_⟩
        have hagain := reads_again hfresh hok hundisturbed hv hi hvw hview hown hhandle hread hmodifies
        refine commit_onTasks hw hfresh hok hv hi hvw (hk _) hmodifies.onTasks hn hview hJ (by rw [hown]; rfl) ?_
        rw [hown, hhandle, ← hagain.2]
        refine .cons hagain.1 ?_
        have hsame : ((server C state).exec (.getTask id) y V.db).2 = V.db :=
          exec_reads (c := .getTask id) trivial y V.db
        rw [hsame]
        exact .nil _ _

/-- A request that inserts an audit row has committed. -/
theorem settled_of_audit (hw : Reach (server C state) Db.empty w) {e : DbEvent Time} (he : e ∈ w.log)
    (hrow : (auditOf C.chrono e).isSome) : ∃ th, w.Has e.tid th ∧ Settled th.prog := by
  obtain ⟨row, ho⟩ := Option.isSome_iff_exists.mp hrow
  obtain ⟨actor, action, entityType, entityId, detail, hc, -, -⟩ := auditOf_eq_some.mp ho
  obtain ⟨v, a, k, hv, hi, -, hsteps⟩ := hw.event he
  obtain ⟨i, c, x, db⟩ := e
  dsimp only at hc
  subst hc
  have hsettled : Settled (.call (.recordAudit actor action entityType entityId detail) k) := by
    by_contra hns
    rcases unsettled (hv.follows hi) hns with ⟨-, hhandle⟩ | ⟨_, _, _, _, _, -, -, -, hm, -⟩
    · have hshape : Shape a.op (handle C state a) := handle_shape a
      rw [hhandle] at hshape
      cases hshape with
      | settled h => exact hns h
      | single h => cases h with | mk hc _ => exact hc
    · exact hm
  obtain ⟨p, post, hp, -, hpost⟩ := after_step hw hv hi hsteps
  refine ⟨_, hp, ?_⟩
  cases hsettled with
  | audit hk =>
    obtain ⟨r, hr⟩ := hk ((DbCall.recordAudit actor action entityType entityId detail).exec C.chrono x v.db).1
    rw [hr] at hpost
    obtain ⟨-, rfl⟩ := follows_ret.mp hpost
    exact .ret r

/-- **Serializability.**  If no call fails, every UPDATE meets the row that its request has read and every
DELETE a row, then the requests that have committed have, on the tables, the effect of some order of them,
one after the other, and got the responses that they get in that order; only the audit log, which is written
after the commit, may be in another order, and may have been read in another state.  Of two requests that
made calls and did not overlap the earlier one comes first. -/
theorem serializable (hw : Reach (server C state) Db.empty w) (hfresh : FreshIds w.log)
    (hok : NoErrors C state w.log) (hundisturbed : Undisturbed w.log) (now : Time) : ∃ order : List ℕ,
    order.Nodup ∧ (∀ i, i ∈ order ↔ ∃ th, w.Has i th ∧ Settled th.prog) ∧
    order.Pairwise (fun i j => ¬ w.Precedes j i) ∧
    ∃ V : ServerWorld Time,
      V = (World.init Db.empty).serveAll (server C state) (w.requests (ownInputs w now) order) ∧
      V.db.task = w.db.task ∧ V.db.auditEvent.rows.Perm w.db.auditEvent.rows ∧
      ∀ j i th response, order[j]? = some i → w.Has i th → th.answer = some response →
        (∀ q, th.req.op ≠ .listAudit q) → V.Has j ⟨th.req, .ret response⟩ := by
  obtain ⟨order, hnodup, hmem, hpairs, hview, hJ⟩ := (serializes hw hfresh hok hundisturbed now).serial hw
  refine ⟨order, hnodup, hmem, hpairs, _, rfl, hview, ?_, fun j i th response hj hi hanswer hop =>
    hJ.answers hj hi hanswer hop⟩
  rw [hJ.audits, audit_rows hw]
  exact @Lists.flatMap_perm_filterMap _ _ _ (auditOf C.chrono) Event.tid order hnodup fun e he hrow =>
    (hmem _).mpr (settled_of_audit hw he hrow)

/-- The history says nothing of the audit log. -/
theorem outside_answers {h : History Time} {a : Arrival Time} {xs : ℕ → Input Time} {q : Extracted AuditQuery}
    (hop : a.op = .listAudit q) {response : Response Time} :
    (h.serve C state a xs).1.Answers C.chrono (h.serve C state a xs).2 response := by
  unfold History.serve
  rw [hop]
  cases a.authUser C state <;> exact trivial

/-- **Interleaved requests refine the history** if they do not disturb each other: when all are answered, the
table holds the tasks of a history to which the requests were applied in some order, one that respects the
order of requests that made calls and did not overlap, and each response is what the history says at its place. -/
theorem interleaving_refines_history (hC : C.chrono.RoundTrips) (hw : Reach (server C state) Db.empty w)
    (hfresh : FreshIds w.log) (hok : NoErrors C state w.log) (hundisturbed : Undisturbed w.log)
    (hquiet : w.Quiescent) (now : Time) : ∃ order : List ℕ,
    order.Perm (List.range w.threads.length) ∧ order.Pairwise (fun i j => ¬ w.Precedes j i) ∧
    Represents C.chrono (History.serveAll [] C state (w.requests (ownInputs w now) order)) w.db ∧
    ∀ before i after th response, order = before ++ i :: after → w.Has i th → th.answer = some response →
      ∃ v : Verdict × History Time,
        v = (History.serveAll [] C state (w.requests (ownInputs w now) before)).serve C state th.req
          (ownInputs w now i) ∧ v.1.Answers C.chrono v.2 response := by
  obtain ⟨order, hnodup, hmem, hpairs, hview, hJ⟩ := (serializes hw hfresh hok hundisturbed now).serial hw
  have hall : ∀ i, i ∈ order ↔ i < w.threads.length := by
    intro i
    rw [hmem]
    constructor
    · rintro ⟨th, hth, -⟩
      exact hth.lt
    · intro hlt
      have hth : w.Has i w.threads[i] := List.getElem?_eq_getElem hlt
      obtain ⟨r, hr⟩ := hquiet i _ hth
      exact ⟨_, hth, hr ▸ .ret r⟩
  refine ⟨order, ?_, hpairs, ?_, ?_⟩
  · rw [List.perm_ext_iff_of_nodup hnodup List.nodup_range]
    intro i
    rw [hall, List.mem_range]
  · have hr := represents_serveAll hC _ (hJ.noErrors hquiet)
    rw [Represents, ← hview]
    exact hr
  · rintro before i after th response horder hi hanswer
    refine ⟨_, rfl, ?_⟩
    by_cases haudit : ∃ q, th.req.op = .listAudit q
    · obtain ⟨q, hq⟩ := haudit
      exact outside_answers hq
    have hop : ∀ q, th.req.op ≠ .listAudit q := not_exists.mp haudit
    have hhas : ∀ j ∈ before, ∃ th, w.Has j th := fun j hj =>
      ⟨_, List.getElem?_eq_getElem ((hall j).mp (horder ▸ List.mem_append_left _ hj))⟩
    have hplace : order[before.length]? = some i := by rw [horder]; simp
    have hgot := hJ.answers hplace hi hanswer hop
    have hsplit : w.requests (ownInputs w now) order =
        w.requests (ownInputs w now) before ++ (th.req, ownInputs w now i) :: w.requests (ownInputs w now) after := by
      rw [horder, ← List.singleton_append, ← List.append_assoc, World.requests_append, World.requests_concat hi,
        List.append_assoc]
      rfl
    have hserved := World.serveAll_has (server C state) Db.empty (w.requests (ownInputs w now) before)
      (w.requests (ownInputs w now) after) (th.req, ownInputs w now i)
    rw [World.requests_length hhas, ← hsplit] at hserved
    have hthread := hserved.unique hgot
    have hlog := hJ.noErrors hquiet
    rw [hsplit, ← List.singleton_append, ← List.append_assoc] at hlog
    have hn := hlog.earlier (World.serveAll_mono _ _ _ _)
    rw [World.serveAll_concat] at hn
    have hr := represents_serveAll hC _ (hn.earlier (World.serve_steps _ _ _).log_mono)
    have hanswers := (realizes_serve hC hr th.req hn.calls).answers
    have hresponse : (serve C state th.req (ownInputs w now i) ((World.init Db.empty).serveAll (server C state)
        (w.requests (ownInputs w now) before)).db).1 = response :=
      Prog.ret.inj (congrArg Thread.prog hthread)
    rw [hresponse] at hanswers
    exact hanswers

end Runs

end SecureLedger

/-! ### On the sample -/

namespace SecureLedger.Sample

open Atomic

/-- Two creations, then an update, a deletion and a listing, with their calls mingled. -/
def mingled : ServerWorld Sec :=
  runOn [.arrive (withToken "tok.user" (.createTask (.ok ⟨"a", "", none⟩)) 10),
    .arrive (withToken "tok.admin" (.createTask (.ok ⟨"b", "", none⟩)) 10),
    .call 1 (good 11 "t2"), .call 0 (good 12 "t1"), .call 0 (good 13 "e1"), .call 1 (good 14 "e2"),
    .arrive (withToken "tok.user" (.updateTask (.ok "t1") (.ok ⟨some "c", none, none⟩)) 20),
    .arrive (withToken "tok.admin" (.deleteTask (.ok "t2")) 20),
    .arrive (withToken "tok.admin" (.listTasks (.ok ⟨none, none⟩)) 20),
    .call 2 (good 21 ""), .call 3 (good 22 ""), .call 3 (good 23 ""), .call 4 (good 24 ""),
    .call 2 (good 25 ""), .call 2 (good 26 "e3"), .call 3 (good 27 "e4")]

/-- They have the effect of some order of them. -/
theorem mingled_serializable : ∃ order : List ℕ, order.Nodup ∧
    ((World.init Db.empty).serveAll (server crates state)
      (mingled.requests (ownInputs mingled 0) order)).db.task = mingled.db.task := by
  obtain ⟨order, hnodup, -, -, V, rfl, htask, -⟩ := @serializable Sec crates state mingled (runOn_reach _)
    (by decide +kernel) (by decide +kernel) (by decide +kernel) 0
  exact ⟨order, hnodup, htask⟩

/-- One task is left of the history that they make. -/
theorem mingled_history : ∃ order : List ℕ, order.Perm (List.range 5) ∧
    Represents chrono (History.serveAll [] crates state (mingled.requests (ownInputs mingled 0) order))
      mingled.db ∧ mingled.db.task.rows.map TaskRow.title = ["c"] := by
  obtain ⟨order, hperm, -, hrep, -⟩ := @interleaving_refines_history Sec crates state mingled
    chrono_roundTrips (runOn_reach _) (by decide +kernel) (by decide +kernel) (by decide +kernel)
    (World.quiescent_of_responses (by decide +kernel)) 0
  exact ⟨order, hperm, hrep, by decide +kernel⟩

end SecureLedger.Sample
