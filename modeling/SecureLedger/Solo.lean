import SecureLedger.Stages

/-!
# Solo — a request served with no other request in flight

`serve` runs a handler's calls one after the other, which is one of the interleavings
(`World.serve_steps`).  The rest are the evaluation rules for the handlers' building blocks.
-/

namespace SecureLedger

open Atomic

variable {Time : Type} (C : Crates Time) (state : AppState)

/-- The response to a request served alone and the tables it leaves; its `n`-th call gets `xs n`. -/
def serve (a : Arrival Time) (xs : ℕ → Input Time) (db : Db) : Response Time × Db :=
  (handle C state a).eval (server C state) xs db

variable {C state} {xs : ℕ → Input Time} {db : Db}

theorem eval_tryCall_ok {c : DbCall Time} {f : c.Ret → DbProg Time (Response Time)} {a : c.Ret}
    (h : (c.exec C.chrono (xs 0) db).1 = .ok a) : (tryCall c f).eval (server C state) xs db =
      (f a).eval (server C state) (fun n => xs (n + 1)) (c.exec C.chrono (xs 0) db).2 := by
  have hk : ((server C state).exec c (xs 0) db).1 = .ok a := h
  rw [tryCall, Prog.eval, hk]
  rfl

theorem eval_tryCall_error {c : DbCall Time} {f : c.Ret → DbProg Time (Response Time)} {e : AppError}
    (h : (c.exec C.chrono (xs 0) db).1 = .error e) :
    (tryCall c f).eval (server C state) xs db = (e.intoResponse, db) := by
  have hk : ((server C state).exec c (xs 0) db).1 = .error e := h
  have hdb : ((server C state).exec c (xs 0) db).2 = db := DbCall.exec_error h
  rw [tryCall, Prog.eval, hk, hdb]
  rfl

@[simp] theorem eval_ret (r : Response Time) :
    (Prog.ret r : DbProg Time (Response Time)).eval (server C state) xs db = (r, db) := rfl

@[simp] theorem tryResult_ok {α : Type} (a : α) (f : α → DbProg Time (Response Time)) :
    tryResult (.ok a) f = f a := rfl

@[simp] theorem tryResult_error {α : Type} (e : AppError) (f : α → DbProg Time (Response Time)) :
    tryResult (.error e) f = .ret e.intoResponse := rfl

/-- A request that only reads leaves the tables as they are. -/
theorem OnlyReads.eval {p : DbProg Time (Response Time)} (hp : OnlyReads p) :
    (p.eval (server C state) xs db).2 = db := by
  induction hp generalizing xs with
  | ret r => rfl
  | @call c k hc hk ih =>
    have h : (c.exec C.chrono (xs 0) db).2 = db := exec_reads hc (xs 0) db
    show (Prog.eval (server C state) (k (c.exec C.chrono (xs 0) db).1) (fun n => xs (n + 1))
      (c.exec C.chrono (xs 0) db).2).2 = db
    rw [h]
    exact ih _

/-! ### Runs without database errors -/

variable (C state) in
/-- Every call of the log returned a value: no failure of the pool or of SQLite, and no violated
constraint. -/
def NoErrors (log : List (DbEvent Time)) : Prop :=
  ∀ e ∈ log, Except.isOk (e.reply (server C state))

instance (log : List (DbEvent Time)) : Decidable (NoErrors C state log) :=
  inferInstanceAs (Decidable (∀ e ∈ log, Except.isOk (e.reply (server C state))))

theorem NoErrors.earlier {l l' : List (DbEvent Time)} (h : l <+: l') (hn : NoErrors C state l') :
    NoErrors C state l := fun e he => hn e (h.subset he)

theorem NoErrors.calls {w : ServerWorld Time} {a : Arrival Time}
    (h : NoErrors C state (w.serve (server C state) a xs).log) :
    NoErrors C state ((handle C state a).calls (server C state) w.threads.length xs w.db) :=
  fun e he => h e (List.mem_append_right _ he)

/-- Without errors, `?` goes on with the value. -/
theorem solo_tryCall {c : DbCall Time} {f : c.Ret → DbProg Time (Response Time)} {i : ℕ}
    (hn : NoErrors C state ((tryCall c f).calls (server C state) i xs db)) : ∃ a,
      (c.exec C.chrono (xs 0) db).1 = .ok a ∧ (tryCall c f).eval (server C state) xs db =
        (f a).eval (server C state) (fun n => xs (n + 1)) (c.exec C.chrono (xs 0) db).2 ∧
      NoErrors C state ((f a).calls (server C state) i (fun n => xs (n + 1))
        (c.exec C.chrono (xs 0) db).2) := by
  have hhead : Except.isOk (c.exec C.chrono (xs 0) db).1 := hn _ (List.mem_cons_self ..)
  have htail : NoErrors C state _ := fun e he => hn e (List.mem_cons_of_mem _ he)
  cases h : (c.exec C.chrono (xs 0) db).1 with
  | error e => rw [h] at hhead; cases hhead
  | ok a =>
    refine ⟨a, rfl, eval_tryCall_ok h, ?_⟩
    have hk : ((server C state).exec c (xs 0) db).1 = .ok a := h
    rw [hk] at htail
    exact htail

end SecureLedger
