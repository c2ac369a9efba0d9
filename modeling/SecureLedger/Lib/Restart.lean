import SecureLedger.Lib.Atomic

/-!
# Lib.Restart — crashes and restarts

A request that a crash cuts off makes no further call, and an interleaving may do without its calls anyway: runs
one after the other, each on the store that the last one left, are one run (`Reach.behind`).  That the system
answers some requests otherwise after a restart does not matter, if it answers them without a call
(`System.Alike`).
-/

namespace Atomic

variable {σ Req Call Input Resp : Type} {Reply : Call → Type} {S S' : System σ Req Call Input Resp Reply}
  {s : σ} {v w : World σ Req Call Input Resp Reply}

/-! ### One run behind another -/

/-- The call, made by a request that came `n` requests later. -/
def Event.later (n : ℕ) (e : Event σ Call Input) : Event σ Call Input := ⟨n + e.tid, e.call, e.input, e.before⟩

/-- The run to `w` behind the run to `v`, whose requests make no further call. -/
def World.behind (v w : World σ Req Call Input Resp Reply) : World σ Req Call Input Resp Reply :=
  ⟨w.db, v.threads ++ w.threads, v.log ++ w.log.map (Event.later v.threads.length)⟩

theorem World.behind_arrive (v w : World σ Req Call Input Resp Reply) (r : Req) :
    v.behind (w.arrive S r) = (v.behind w).arrive S r := by
  simp [behind, arrive]

theorem World.has_behind {i : ℕ} {th : Thread Req Call Resp Reply} :
    (v.behind w).Has (v.threads.length + i) th ↔ w.Has i th := by
  unfold World.Has World.behind
  rw [List.getElem?_append_right (Nat.le_add_right ..), Nat.add_sub_cancel_left]

theorem World.behind_exec (v w : World σ Req Call Input Resp Reply) (i : ℕ) (r : Req) (c : Call)
    (k : Reply c → Prog Call Reply Resp) (x : Input) :
    v.behind (w.exec S i r c k x) = (v.behind w).exec S (v.threads.length + i) r c k x := by
  simp [behind, exec, Event.later, List.set_append_right]

/-- **Two runs are one**, if the second goes on from the store of the first. -/
theorem Reach.behind (hv : Reach S s v) (hw : Reach S v.db w) : Reach S s (v.behind w) := by
  induction hw with
  | refl =>
    have hinit : v.behind (World.init v.db) = v := by simp [World.behind, World.init]
    rw [hinit]
    exact hv
  | tail _ hs ih =>
    cases hs with
    | arrive r =>
      rw [World.behind_arrive]
      exact ih.tail (.arrive _ r)
    | call hi x =>
      rw [World.behind_exec]
      exact ih.tail (.call (World.has_behind.mpr hi) x)

/-! ### Systems that make the same calls -/

/-- The same program, or two that make no call. -/
def Prog.SameCalls (p q : Prog Call Reply Resp) : Prop := p = q ∨ ∃ a b, p = .ret a ∧ q = .ret b

/-- Two systems that differ at most in what they answer without a call. -/
structure System.Alike (S S' : System σ Req Call Input Resp Reply) : Prop where
  exec : S.exec = S'.exec
  start : ∀ r, (S.start r).SameCalls (S'.start r)

/-- A run of each, the requests at the same places. -/
structure World.Alike (w w' : World σ Req Call Input Resp Reply) : Prop where
  db : w'.db = w.db
  log : w'.log = w.log
  length : w'.threads.length = w.threads.length
  threads : ∀ {i r p}, w.Has i ⟨r, p⟩ → ∃ p', w'.Has i ⟨r, p'⟩ ∧ p.SameCalls p'

/-- **A run of one is a run of the other**, but for those answers. -/
theorem System.Alike.reach (h : S.Alike S') (hw : Reach S s w) : ∃ w', Reach S' s w' ∧ w.Alike w' := by
  induction hw with
  | refl => exact ⟨World.init s, .refl, rfl, rfl, rfl, fun hi => by cases hi⟩
  | @tail w _ _ hs ih =>
    obtain ⟨w', hw', hdb, hlog, hlength, hthreads⟩ := ih
    cases hs with
    | arrive r =>
      refine ⟨w'.arrive S' r, hw'.tail (.arrive _ r), hdb, hlog, ?_, fun hi => ?_⟩
      · simp [World.arrive, hlength]
      · rcases World.has_arrive.mp hi with hi | ⟨rfl, hth⟩
        · obtain ⟨p', hi', hp⟩ := hthreads hi
          exact ⟨p', World.has_arrive.mpr (.inl hi'), hp⟩
        · cases hth
          exact ⟨S'.start r, World.has_arrive.mpr (.inr ⟨hlength.symm, rfl⟩), h.start r⟩
    | @call i r c k hi x =>
      obtain ⟨p', hi', hp⟩ := hthreads hi
      obtain rfl : Prog.call c k = p' := by
        rcases hp with hp | ⟨a, b, hp, -⟩
        · exact hp
        · cases hp
      refine ⟨w'.exec S' i r c k x, hw'.tail (.call hi' x), ?_, ?_, ?_, fun hj => ?_⟩
      · simp [World.exec, h.exec, hdb]
      · simp [World.exec, hlog, hdb]
      · simp [World.exec, hlength]
      · rcases (World.has_exec hi).mp hj with ⟨rfl, hth⟩ | ⟨hne, hj⟩
        · cases hth
          refine ⟨_, (World.has_exec hi').mpr (.inl ⟨rfl, rfl⟩), .inl ?_⟩
          rw [h.exec, hdb]
        · obtain ⟨q, hj', hq⟩ := hthreads hj
          exact ⟨q, (World.has_exec hi').mpr (.inr ⟨hne, hj'⟩), hq⟩

end Atomic
