import SecureLedger.Lib.Newest
import SecureLedger.Sample
import SecureLedger.Solo
import Mathlib.Data.String.Basic

/-!
# AuditQuery — `list_audit` against its reference query

The statement and its bound texts are assembled filter by filter.  The text depends on which filters
there are and on nothing else, each filter is bound to its own placeholder, and what the statement
selects is filter, sort and take (`list_audit_reference`).
-/

namespace SecureLedger

open Atomic

variable {Time : Type} {actor action : Option String}

/-! ### The reference -/

/-- The actor and the action of the event equal the filters that are given. -/
def AuditRow.satisfies (row : AuditRow) (actor action : Option String) : Bool :=
  actor.all (· = row.actor) && action.all (· = row.action)

/-- The matching events, newest first, the first `n` of them. -/
def auditReference (actor action : Option String) (n : ℕ) (rows : List AuditRow) : List AuditRow :=
  (Newest.newest AuditRow.timestamp (rows.filter (·.satisfies actor action))).take n

/-- What is returned matches, and what matches and is left out is not newer. -/
theorem auditReference_spec (n : ℕ) (rows : List AuditRow) :
    (∀ row ∈ auditReference actor action n rows, row ∈ rows ∧ row.satisfies actor action) ∧
    ∀ row ∈ rows, row.satisfies actor action → row ∉ auditReference actor action n rows →
      ∀ row' ∈ auditReference actor action n rows, row.timestamp ≤ row'.timestamp := by
  have hmem : ∀ row, row ∈ Newest.newest AuditRow.timestamp (rows.filter (·.satisfies actor action)) ↔
      row ∈ rows ∧ row.satisfies actor action := by
    intro row
    rw [Newest.mem_newest, List.mem_filter]
  have hsorted := Newest.newest_pairwise AuditRow.timestamp
    (rows.filter (·.satisfies actor action))
  unfold auditReference
  constructor
  · intro row hrow
    exact (hmem row).mp (List.mem_of_mem_take hrow)
  · intro row hrow hmatch hout row' hrow'
    -- a row left out stands behind the rows taken
    have hsplit := (hmem row).mpr ⟨hrow, hmatch⟩
    rw [← List.take_append_drop n (Newest.newest _ _)] at hsplit hsorted
    rcases List.mem_append.mp hsplit with h | h
    · exact absurd h hout
    · exact (List.pairwise_append.mp hsorted).2.2 row' hrow' row h

/-! ### The statement -/

/-- The numbers of the placeholders in the text of a statement, from left to right. -/
def placeholders : List Char → List ℕ
  | [] => []
  | c :: l => if c = '?' then Nat.ofDigitChars 10 (l.takeWhile Char.isDigit) 0 :: placeholders l
    else placeholders l

/-- The values bound, in the order in which the placeholders count them. -/
theorem auditSelect_binds (limit : ℤ) :
    (auditSelect actor action limit).2 = actor.toList ++ action.toList ++ [toString limit] := by
  cases actor <;> cases action <;> rfl

/-- **The text depends on the presence of the filters only.** -/
theorem auditSelect_congr {actor' action' : Option String} (hactor : actor'.isSome = actor.isSome)
    (haction : action'.isSome = action.isSome) (limit limit' : ℤ) :
    (auditSelect actor' action' limit').1 = (auditSelect actor action limit).1 := by
  cases actor <;> cases actor' <;> cases hactor <;> cases action <;> cases action' <;> cases haction <;> rfl

/-- The placeholders are `?1` to `?k`, one for each value. -/
theorem auditSelect_placeholders (limit : ℤ) :
    placeholders (auditSelect actor action limit).1.sql.toList =
      List.range' 1 (auditSelect actor action limit).2.length := by
  rw [auditSelect_binds]
  cases actor with
  | none =>
    cases action with
    | none =>
      show placeholders (AuditSelect.sql ⟨[], 1⟩).toList = List.range' 1 1
      decide +kernel
    | some b =>
      show placeholders (AuditSelect.sql ⟨[(.action, 1)], 2⟩).toList = List.range' 1 2
      decide +kernel
  | some a =>
    cases action with
    | none =>
      show placeholders (AuditSelect.sql ⟨[(.actor, 1)], 2⟩).toList = List.range' 1 2
      decide +kernel
    | some b =>
      show placeholders (AuditSelect.sql ⟨[(.actor, 1), (.action, 2)], 3⟩).toList = List.range' 1 3
      decide +kernel

/-- Each condition compares its column with the value of its own filter. -/
theorem auditSelect_conds (actor action : Option String) (limit : ℤ) :
    (auditSelect actor action limit).1.conds.map (fun cond => (cond.1, (auditSelect actor action limit).2[cond.2 - 1]?)) =
      actor.toList.map (fun a => (AuditColumn.actor, some a)) ++
        action.toList.map fun a => (AuditColumn.action, some a) := by
  cases actor <;> cases action <;> rfl

theorem auditSelect_limit (limit : ℤ) :
    (auditSelect actor action limit).2[(auditSelect actor action limit).1.limit - 1]? =
      some (toString limit) := by
  cases actor <;> cases action <;> rfl

/-- The conditions of the statement are the filters. -/
theorem auditSelect_satisfies (limit : ℤ) (row : AuditRow) :
    ((auditSelect actor action limit).1.conds.all fun cond =>
      (auditSelect actor action limit).2[cond.2 - 1]? = some (cond.1.get row)) =
        row.satisfies actor action := by
  have hconds := congrArg (fun l : List (AuditColumn × Option String) =>
    l.all fun cond => cond.2 = some (cond.1.get row)) (auditSelect_conds actor action limit)
  simp only [List.all_map, List.all_append] at hconds
  refine Eq.trans hconds ?_
  unfold AuditRow.satisfies
  cases actor <;> cases action <;> simp [AuditColumn.get]

/-! ### What is selected -/

theorem auditSelect_query (actor action : Option String) (limit : ℤ) (rows : List AuditRow) :
    (auditSelect actor action limit).1.query (auditSelect actor action limit).2 rows =
      .ok (limitOffset limit 0
        (Newest.newest AuditRow.timestamp (rows.filter (·.satisfies actor action)))) := by
  unfold AuditSelect.query
  rw [auditSelect_limit, Option.bind_some, Str.decimal_toString]
  simp only [auditSelect_satisfies]
  rfl

theorem exec_listAudit {C : Chrono Time} {x : Input Time} {db : Db} {limit : ℤ}
    {events : List (AuditEvent Time)} : (DbCall.exec C (.listAudit actor action limit) x db).1 = .ok events ↔
      x.fault = none ∧ events = (limitOffset limit 0 (Newest.newest AuditRow.timestamp
        (db.auditEvent.rows.filter (·.satisfies actor action)))).map (rowToEvent C x.now) := by
  cases hx : x.fault with
  | some f => simp [DbCall.exec_fault hx]
  | none =>
    have hquery := auditSelect_query actor action limit db.auditEvent.rows
    simp only [DbCall.exec, Db.listAudit, Db.withConn, hx, true_and]
    rw [hquery]
    exact ⟨fun h => (Except.ok.inj h).symm, fun h => congrArg Except.ok h.symm⟩

variable {C : Crates Time} {state : AppState}

/-- **`list_audit` is its reference query.**  The text of the statement depends on which filters there
are; its placeholders are `?1` to `?k`, bound to the filters' values and the limit in this order, each
condition to the value of its own filter; and the answer to an admin's request is the reference. -/
theorem list_audit_reference (actor action : Option String) (limit : Option ℤ) :
    (∀ actor' action' limit', actor'.isSome = actor.isSome → action'.isSome = action.isSome →
      (auditSelect actor' action' (clampLimit limit')).1.sql =
        (auditSelect actor action (clampLimit limit)).1.sql) ∧
    placeholders (auditSelect actor action (clampLimit limit)).1.sql.toList =
      List.range' 1 (auditSelect actor action (clampLimit limit)).2.length ∧
    (auditSelect actor action (clampLimit limit)).2 =
      actor.toList ++ action.toList ++ [toString (clampLimit limit)] ∧
    (auditSelect actor action (clampLimit limit)).1.conds.map (fun cond =>
        (cond.1, (auditSelect actor action (clampLimit limit)).2[cond.2 - 1]?)) =
      actor.toList.map (fun a => (AuditColumn.actor, some a)) ++
        action.toList.map (fun a => (AuditColumn.action, some a)) ∧
    ∀ (db : Db) (xs : ℕ → Input Time), (xs 0).fault = none →
      (DbCall.exec C.chrono (.listAudit actor action (clampLimit limit)) (xs 0) db).1 =
        .ok ((auditReference actor action (clampLimit limit).toNat db.auditEvent.rows).map
          (rowToEvent C.chrono (xs 0).now)) ∧
      (∀ headers now admin, AdminUser.fromRequestParts C state headers now = .ok admin →
        (serve C state ⟨headers, .listAudit (.ok ⟨actor, action, limit⟩), now⟩ xs db).1 =
          ⟨200, .events ((auditReference actor action (clampLimit limit).toNat db.auditEvent.rows).map
            (rowToEvent C.chrono (xs 0).now))⟩) ∧
      (∀ row ∈ auditReference actor action (clampLimit limit).toNat db.auditEvent.rows,
        row ∈ db.auditEvent.rows ∧ row.satisfies actor action) ∧
      ∀ row ∈ db.auditEvent.rows, row.satisfies actor action →
        row ∉ auditReference actor action (clampLimit limit).toNat db.auditEvent.rows →
        ∀ row' ∈ auditReference actor action (clampLimit limit).toNat db.auditEvent.rows,
          row.timestamp ≤ row'.timestamp := by
  refine ⟨fun actor' action' limit' hactor haction => ?_, auditSelect_placeholders _, auditSelect_binds _,
    auditSelect_conds _ _ _, fun db xs hx => ?_⟩
  · rw [auditSelect_congr hactor haction]
  · have hexec : (DbCall.exec C.chrono (.listAudit actor action (clampLimit limit)) (xs 0) db).1 =
        .ok ((auditReference actor action (clampLimit limit).toNat db.auditEvent.rows).map
          (rowToEvent C.chrono (xs 0).now)) :=
      exec_listAudit.mpr ⟨hx, by rw [limitOffset_clamp]; rfl⟩
    refine ⟨hexec, fun headers now admin hadmin => ?_, auditReference_spec _ _⟩
    unfold serve
    simp only [handle, hadmin, tryResult_ok, withExtracted, Handlers.listAudit]
    rw [eval_tryCall_ok hexec, eval_ret]

end SecureLedger

/-! ### On the sample -/

namespace SecureLedger.Sample

open Atomic

/-- Three events, of which two are of the actor `?1' OR '1'='1`. -/
def quoted : Db where
  task := .empty
  auditEvent := ⟨[
    ⟨"e1", "?1' OR '1'='1", "create", "task", "t1", "2024-01-01T00:00:11+00:00", ""⟩,
    ⟨"e2", "admin", "create", "task", "t2", "2024-01-01T00:00:12+00:00", ""⟩,
    ⟨"e3", "?1' OR '1'='1", "create", "task", "t3", "2024-01-01T00:00:13+00:00", ""⟩], by decide⟩

/-- A value that looks like SQL is a value. -/
theorem quoted_listed : (serve crates state ⟨[("authorization", bytes "Bearer tok.admin")],
      .listAudit (.ok ⟨some "?1' OR '1'='1", some "create", some 1⟩), 20⟩ (fun _ => good 21 "") quoted).1 =
    ⟨200, .events [⟨"e3", "?1' OR '1'='1", "create", "task", "t3", 13, ""⟩]⟩ := by
  have hrows : (auditReference (some "?1' OR '1'='1") (some "create") (clampLimit (some 1)).toNat
      quoted.auditEvent.rows).map (rowToEvent chrono 21) =
        [⟨"e3", "?1' OR '1'='1", "create", "task", "t3", 13, ""⟩] := by decide +kernel
  rw [← hrows]
  have hserved := @list_audit_reference Sec crates state (some "?1' OR '1'='1") (some "create") (some 1)
  exact (hserved.2.2.2.2 quoted (fun _ => good 21 "") rfl).2.1 _ _
    ⟨"admin", .admin, claimsOf "admin" "admin"⟩ (by decide +kernel)

end SecureLedger.Sample
