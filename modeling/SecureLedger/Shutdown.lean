import SecureLedger.Service
import SecureLedger.Lib.Drain

/-!
# Shutdown — finishing the requests in flight

The shutdown lets no more requests in and waits for those that are there.  It waits for six turns of each at most,
the limiter's and the recorder's calls included (`router_within`); no request has to wait for another, and a failing
database makes none longer (`shutdown_ends`).
-/

namespace SecureLedger

open Atomic

variable {Time Instant Latency : Type} {C : Crates Time} {state : AppState} {G : Governor Instant}

/-! ### The length of a handler -/

section Within

variable {n : ℕ} {α : Type}

theorem tryCall_within {c : DbCall Time} {f : c.Ret → DbProg Time (Response Time)} (h : ∀ a, (f a).Within n) :
    (tryCall c f).Within (n + 1) := by
  intro reply
  cases reply with
  | ok a => exact h a
  | error e => exact Prog.within_ret _ n

theorem tryResult_within {x : Except AppError α} {f : α → DbProg Time (Response Time)} (h : ∀ a, (f a).Within n) :
    (tryResult x f).Within n := by
  cases x with
  | ok a => exact h a
  | error e => exact Prog.within_ret _ n

theorem withExtracted_within {x : Extracted α} {f : α → DbProg Time (Response Time)} (h : ∀ a, (f a).Within n) :
    (withExtracted x f).Within n := by
  cases x with
  | ok a => exact h a
  | error r => exact Prog.within_ret _ n

end Within

namespace Handlers

theorem login_within (now : Time) (req : LoginRequest) : (login C state now req).Within 0 := by
  refine tryResult_within fun user => ?_
  split
  · exact Prog.within_ret _ 0
  · exact tryResult_within fun token => Prog.within_ret _ 0

theorem createTask_within (user : AuthUser) (input : CreateTask) : (createTask user input : DbProg Time _).Within 2 :=
  tryResult_within fun _ => tryCall_within fun _ => tryCall_within fun _ => Prog.within_ret _ 0

theorem updateTask_within (user : AuthUser) (id : String) (input : UpdateTask) :
    (updateTask user id input : DbProg Time _).Within 3 := by
  refine tryResult_within fun _ => tryCall_within fun found => tryResult_within fun existing => ?_
  split
  · exact Prog.within_ret _ 2
  · exact tryCall_within fun _ => tryCall_within fun _ => Prog.within_ret _ 0

theorem deleteTask_within (user : AuthUser) (id : String) : (deleteTask user id : DbProg Time _).Within 3 := by
  refine tryCall_within fun found => tryResult_within fun existing => ?_
  split
  · exact Prog.within_ret _ 2
  · exact tryCall_within fun _ => tryCall_within fun _ => Prog.within_ret _ 0

end Handlers

/-- A request makes three calls on the tables at most. -/
theorem handle_within (a : Arrival Time) : (handle C state a).Within 3 := by
  have hone : 1 ≤ 3 := by omega
  unfold handle
  cases a.op with
  | login body => exact withExtracted_within fun req => (Handlers.login_within a.now req).mono (Nat.zero_le 3)
  | listTasks query =>
    exact tryResult_within fun _ => withExtracted_within fun p =>
      (tryCall_within (n := 0) fun _ => Prog.within_ret _ 0).mono hone
  | getTask id =>
    exact tryResult_within fun _ => withExtracted_within fun id =>
      (tryCall_within (n := 0) fun _ => tryResult_within fun _ => Prog.within_ret _ 0).mono hone
  | createTask body =>
    exact tryResult_within fun user => withExtracted_within fun input =>
      (Handlers.createTask_within user input).mono (by omega)
  | updateTask id body =>
    exact tryResult_within fun user => withExtracted_within fun id => withExtracted_within fun input =>
      Handlers.updateTask_within user id input
  | deleteTask id =>
    exact tryResult_within fun user => withExtracted_within fun id => Handlers.deleteTask_within user id
  | listAudit query =>
    exact tryResult_within fun _ => withExtracted_within fun q =>
      (tryCall_within (n := 0) fun _ => Prog.within_ret _ 0).mono hone
  | healthz => exact Prog.within_ret _ 3
  | readyz =>
    refine Prog.Within.mono (m := 1) (fun reply => ?_) hone
    cases reply <;> exact Prog.within_ret _ 0

/-- With the check before it, and the two calls of the recorder after it. -/
theorem router_within (r : Incoming Time Instant) : ((buildRouter Latency C state G).start r).Within 6 := by
  have hlimited : ∀ r, ((limited C state G).start r).Within 4 := by
    refine Layer.within (m := 1) (n := 3) (l := 0) (fun r allowed => Prog.within_ret _ 0) handle_within fun r a => ?_
    exact Prog.within_ret a 0
  refine Layer.within (m := 0) (n := 4) (l := 2) (fun r => Prog.within_ret none 0) hlimited (fun r a => ?_) r
  exact fun _ _ => Prog.within_ret a 0

/-! ### The shutdown -/

/-- **A shutdown ends.**  Once no more requests arrive, each is answered within six turns of its own, in whatever
order the turns come and whatever the calls find; the requests stay, and so do the answers given.  A turn is a
call, and a request has arrived when its head and body have been read: a client that does not send its body is
not waited for here. -/
theorem shutdown_ends {s : (Db × RateLimiter G) × Metrics Latency} {w : RouterWorld Time G Latency}
    (h : Reach (buildRouter Latency C state G) s w) (turns : List (ℕ × (Input Time × Unit) × Latency))
    (hturns : ∀ i < w.threads.length, 6 ≤ (w.own i).length + turns.countP (·.1 = i)) :
    (w.turns (buildRouter Latency C state G) turns).Quiescent ∧
    (w.turns (buildRouter Latency C state G) turns).threads.map Thread.req = w.threads.map Thread.req ∧
    (∀ i r a, w.Has i ⟨r, .ret a⟩ → (w.turns (buildRouter Latency C state G) turns).Has i ⟨r, .ret a⟩) ∧
    ∀ i, ((w.turns (buildRouter Latency C state G) turns).own i).length ≤ 6 := by
  have hreach : Reach (buildRouter Latency C state G) s (w.turns (buildRouter Latency C state G) turns) :=
    h.trans (World.run_steps _ _)
  refine ⟨h.drained router_within hturns, World.turns_requests _, fun i r a hi => ?_, fun i => ?_⟩
  · exact Steps.answered (World.run_steps _ _) hi
  · by_cases hi : i < (w.turns (buildRouter Latency C state G) turns).threads.length
    · obtain ⟨m, hm, -⟩ := hreach.within router_within (List.getElem?_eq_getElem hi)
      omega
    · have hnone : (w.turns (buildRouter Latency C state G) turns).own i = [] := by
        refine List.filter_eq_nil_iff.mpr fun e he heq => hi ?_
        rw [← of_decide_eq_true heq]
        exact hreach.tid_lt e he
      rw [hnone]
      exact Nat.zero_le 6

end SecureLedger

/-! ### On the sample -/

namespace SecureLedger.Sample

open Atomic

/-- Two creations in flight. -/
def shutDown : RouterWorld Sec buckets ℚ :=
  (World.init ((Db.empty, RateLimiter.new buckets 5), .empty)).run (buildRouter ℚ crates state buckets)
    [.arrive (twice "a"), .arrive (twice "b"), .call 1 (inputOf 0 "" 0)]

/-- Their turns one by one; the database fails the second. -/
def lastTurns : List (ℕ × (Input Sec × Unit) × ℚ) :=
  (List.range 6).flatMap fun n =>
    [(0, inputOf (secOfNat n) (if n = 1 then "t1" else "e1") 0), (1, ((bad 0 "", ()), 0))]

theorem shutDown_ends : (shutDown.turns (buildRouter ℚ crates state buckets) lastTurns).Quiescent ∧
    (shutDown.turns (buildRouter ℚ crates state buckets) lastTurns).responses.map (Option.map Response.status) =
      [some 201, some 500] := by
  have hreach : Reach (buildRouter ℚ crates state buckets) ((Db.empty, RateLimiter.new buckets 5), .empty) shutDown :=
    World.run_steps _ _
  exact ⟨(shutdown_ends hreach lastTurns (by decide +kernel)).1, by decide +kernel⟩

end SecureLedger.Sample
