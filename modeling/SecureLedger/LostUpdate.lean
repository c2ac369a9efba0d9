import SecureLedger.Runs
import SecureLedger.Sample

/-!
# LostUpdate — partial updates of one row, interleaved

`update_task` merges the body into a task that an earlier statement read and writes every column
back.  A column the body leaves out is therefore written too, with the value read.  The run keeps
the last supplied value of every field exactly if each such value is still the row's
(`updates_kept_iff`); `title_lost` is a run with two successful updates that does not.
-/

namespace SecureLedger

open Atomic

variable {Time : Type}

/-- The fields a partial update can supply. -/
inductive TaskField where
  | title
  | description
  | status
  deriving DecidableEq, Repr

namespace TaskField

def ofRow : TaskField → TaskRow → String
  | title, row => row.title
  | description, row => row.description
  | status, row => row.status

/-- The text `update_task` stores for a field of a task. -/
def ofTask : TaskField → Task Time → String
  | title, task => task.title
  | description, task => task.description
  | status, task => task.status.asStr

/-- The text a body supplies for a field. -/
def supplied : TaskField → UpdateTask → Option String
  | title, input => input.title.map Str.trim
  | description, input => input.description
  | status, input => input.status.map TaskStatus.asStr

theorem ofRow_setRow (C : Chrono Time) (f : TaskField) (existing : Task Time) (input : UpdateTask)
    (now : Time) (r : TaskRow) : f.ofRow (setRow C (Db.mergeTask existing input now) r) =
      (f.supplied input).getD (f.ofTask existing) := by
  obtain ⟨title, description, status⟩ := input
  cases f with
  | title => rfl
  | description => rfl
  | status => cases status <;> rfl

instance {p : TaskField → Prop} [DecidablePred p] : Decidable (∀ f, p f) :=
  decidable_of_iff (p .title ∧ p .description ∧ p .status)
    ⟨fun h f => by cases f <;> simp [h], fun h => ⟨h _, h _, h _⟩⟩

end TaskField

/-- The update that a logged call makes, if it is one: the task that was read, and the body. -/
def updateBy (e : DbEvent Time) : Option (Task Time × UpdateTask) :=
  match e.call with
  | .updateTask existing input => some (existing, input)
  | _ => none

/-- The same, if it is an update of task `id`. -/
def updateOf (id : String) (e : DbEvent Time) : Option (Task Time × UpdateTask) :=
  (updateBy e).filter fun u => u.1.id = id

theorem updateBy_eq_some {e : DbEvent Time} {existing : Task Time} {input : UpdateTask} :
    updateBy e = some (existing, input) ↔ e.call = .updateTask existing input := by
  obtain ⟨i, c, x, db⟩ := e
  cases c <;> simp [updateBy]

theorem updateOf_eq_some {id : String} {e : DbEvent Time} {existing : Task Time} {input : UpdateTask} :
    updateOf id e = some (existing, input) ↔
      e.call = .updateTask existing input ∧ existing.id = id := by
  rw [updateOf, Option.filter_eq_some_iff, updateBy_eq_some]
  simp

/-- What a logged call supplies for field `f` of task `id`. -/
def suppliedBy (f : TaskField) (id : String) (e : DbEvent Time) : Option String :=
  (updateOf id e).bind fun u => f.supplied u.2

/-- The last value supplied for field `f` of task `id`, or `original` if there is none. -/
def lastSupplied (f : TaskField) (id : String) (log : List (DbEvent Time)) (original : String) : String :=
  log.foldl (fun v e => (suppliedBy f id e).getD v) original

/-- An update of task `id` writes back the row's own value for every field its body leaves out: the
field has not changed since the request read it. -/
def ReadsCurrent (id : String) (e : DbEvent Time) : Prop :=
  ∀ u ∈ updateOf id e, ∀ r ∈ e.before.task.find? id, ∀ f : TaskField,
    f.supplied u.2 = none → f.ofTask u.1 = f.ofRow r

instance (id : String) (e : DbEvent Time) : Decidable (ReadsCurrent id e) :=
  inferInstanceAs (Decidable (∀ u ∈ updateOf id e, ∀ r ∈ e.before.task.find? id, ∀ f : TaskField,
    f.supplied u.2 = none → f.ofTask u.1 = f.ofRow r))

@[simp] theorem lastSupplied_concat (f : TaskField) (id : String) (log : List (DbEvent Time))
    (e : DbEvent Time) (original : String) : lastSupplied f id (log ++ [e]) original =
      (suppliedBy f id e).getD (lastSupplied f id log original) := by
  simp [lastSupplied]

variable {C : Crates Time} {state : AppState}

/-- Field by field, what a call other than a delete does to a row. -/
theorem exec_fields {id : String} {i : ℕ} {c : DbCall Time} {x : Input Time} {db : Db} {r : TaskRow}
    (hr : db.task.find? id = some r) (hx : x.fault = none) (hc : c ≠ .deleteTask id) :
    ∃ r', (c.exec C.chrono x db).2.task.find? id = some r' ∧
      (ReadsCurrent id ⟨i, c, x, db⟩ ↔
        ∀ f : TaskField, f.ofRow r' = (suppliedBy f id ⟨i, c, x, db⟩).getD (f.ofRow r)) := by
  cases hu : updateOf id (⟨i, c, x, db⟩ : DbEvent Time) with
  | some u =>
    obtain ⟨existing, input⟩ := u
    obtain ⟨rfl, rfl⟩ := updateOf_eq_some.mp hu
    refine ⟨setRow C.chrono (Db.mergeTask existing input x.now) r, ?_, ?_⟩
    · rw [DbCall.updateTask_state hx, Db.find?_write]
      simp [Db.mergeTask, hr]
    · simp only [TaskField.ofRow_setRow, suppliedBy, ReadsCurrent, hu, hr, Option.mem_def,
        Option.some.injEq, forall_eq', Option.bind_some]
      refine forall_congr' fun f => ?_
      cases f.supplied input <;> simp
  | none =>
    have hupdate : ∀ existing input, c = .updateTask existing input → existing.id ≠ id := by
      intro existing input hc hid
      rw [updateOf_eq_some.mpr ⟨hc, hid⟩] at hu
      cases hu
    refine ⟨r, exec_frame hr hc hupdate, ?_⟩
    simp [ReadsCurrent, suppliedBy, hu]

/-- **No update is lost, exactly when** every update of the row finds the fields it does not supply
as its request read them: then, and only then, each field of the row is at all times the last value
supplied for it, or the original. -/
theorem updates_kept_iff {w₀ w : ServerWorld Time} (h : Steps (server C state) w₀ w) {r₀ : TaskRow}
    (hr₀ : r₀ ∈ w₀.db.task.rows) (hok : NoFaults (w.since w₀))
    (hkeep : ∀ e ∈ w.since w₀, e.call ≠ .deleteTask r₀.id) :
    (∀ v, Steps (server C state) w₀ v → Steps (server C state) v w →
      ∃ r, v.db.task.find? r₀.id = some r ∧
        ∀ f : TaskField, f.ofRow r = lastSupplied f r₀.id (v.since w₀) (f.ofRow r₀)) ↔
    ∀ e ∈ w.since w₀, ReadsCurrent r₀.id e := by
  constructor
  · intro hkept e he
    obtain ⟨v, a, k, hv, hi, hdb, hvw⟩ := Steps.event h he
    have hstep : Step (server C state) v (v.exec (server C state) e.tid a e.call k e.input) :=
      .call hi e.input
    obtain ⟨r, hr, hrf⟩ := hkept v hv (.head hstep hvw)
    obtain ⟨r₁, hr₁, hrf₁⟩ := hkept _ (hv.tail hstep) hvw
    obtain ⟨r', hr', hiff⟩ := exec_fields (C := C) (i := e.tid) hr (hok e he) (hkeep e he)
    obtain rfl := Option.some.inj (hr₁.symm.trans hr')
    have hcur := hiff.mpr fun f => by
      rw [hrf₁, World.since_exec hv, lastSupplied_concat, hrf]
    rw [hdb] at hcur
    exact hcur
  · intro hcur v hv hvw
    have hpre := Steps.since_mono w₀ hvw
    refine Steps.log_inv hv
      (H := fun l => NoFaults l ∧ ∀ e ∈ l, e.call ≠ .deleteTask r₀.id ∧ ReadsCurrent r₀.id e)
      (I := fun db l => ∃ r, db.task.find? r₀.id = some r ∧
        ∀ f : TaskField, f.ofRow r = lastSupplied f r₀.id l (f.ofRow r₀))
      (fun hl hH => ⟨hH.1.earlier hl, fun e he => hH.2 e (hl.subset he)⟩)
      ⟨r₀, Table.find?_of_mem hr₀, fun f => rfl⟩ ?_
      ⟨hok.earlier hpre, fun e he => ⟨hkeep e (hpre.subset he), hcur e (hpre.subset he)⟩⟩
    rintro v i a c k hv hi x ⟨hx, hH⟩ ⟨r, hr, hrf⟩
    obtain ⟨hc, hcur⟩ := hH ⟨i, c, x, v.db⟩ (by simp)
    obtain ⟨r', hr', hiff⟩ := exec_fields (C := C) (i := i) hr (hx ⟨i, c, x, v.db⟩ (by simp)) hc
    refine ⟨r', hr', fun f => ?_⟩
    rw [lastSupplied_concat, ← hrf f]
    exact hiff.mp hcur f

end SecureLedger

/-! ### On the sample -/

namespace SecureLedger.Sample

open Atomic

/-- The task `t1`, with the title `draft`. -/
def created : ServerWorld Sec :=
  runOn [.arrive (withToken "tok.user" (.createTask (.ok ⟨"draft", "", none⟩)) 10),
    .call 0 (good 11 "t1"), .call 0 (good 12 "e1")]

/-- Its row. -/
def draft : TaskRow :=
  ⟨"t1", "draft", "", "todo", "user", "2024-01-01T00:00:11+00:00", "2024-01-01T00:00:11+00:00"⟩

/-- The owner retitles the task while an admin describes it; both read it before either writes. -/
def overwritten : ServerWorld Sec :=
  created.run (server crates state)
    [.arrive (withToken "tok.user" (.updateTask (.ok "t1") (.ok ⟨some "final", none, none⟩)) 20),
      .arrive (withToken "tok.admin" (.updateTask (.ok "t1") (.ok ⟨none, some "due", none⟩)) 21),
      .call 1 (good 22 ""), .call 2 (good 23 ""), .call 1 (good 24 ""), .call 2 (good 25 ""),
      .call 1 (good 26 "e2"), .call 2 (good 27 "e3")]

/-- Both updates succeed, and the title the owner supplied is gone. -/
theorem title_lost : Steps (server crates state) created overwritten ∧
    overwritten.responses.map (·.map Response.status) = [some 201, some 200, some 200] ∧
    NoFaults overwritten.log ∧ (∀ e ∈ overwritten.log, e.call ≠ .deleteTask "t1") ∧
    lastSupplied .title "t1" (overwritten.since created) "draft" = "final" ∧
    (overwritten.db.task.find? "t1").map TaskRow.title = some "draft" :=
  ⟨created.run_steps _, by decide +kernel⟩

/-- The owner retitles the task, then an admin describes it. -/
def inTurn : ServerWorld Sec :=
  created.run (server crates state)
    [.arrive (withToken "tok.user" (.updateTask (.ok "t1") (.ok ⟨some "final", none, none⟩)) 20),
      .arrive (withToken "tok.admin" (.updateTask (.ok "t1") (.ok ⟨none, some "due", none⟩)) 21),
      .call 1 (good 22 ""), .call 1 (good 23 ""), .call 2 (good 24 ""), .call 2 (good 25 ""),
      .call 1 (good 26 "e2"), .call 2 (good 27 "e3")]

theorem updates_kept_inTurn : ∃ r, inTurn.db.task.find? draft.id = some r ∧
    ∀ f : TaskField, f.ofRow r = lastSupplied f draft.id (inTurn.since created) (f.ofRow draft) := by
  have hdraft : draft ∈ created.db.task.rows := by decide +kernel
  exact (updates_kept_iff (created.run_steps _) hdraft (by decide +kernel)
    (by decide +kernel)).mpr (by decide +kernel) inTurn (created.run_steps _) .refl

end SecureLedger.Sample
