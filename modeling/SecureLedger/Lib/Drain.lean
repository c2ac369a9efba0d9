import SecureLedger.Lib.Layer

/-!
# Lib.Drain — finishing what is in flight

`Prog.Within n` says that a program ends after `n` calls at most, whatever they are answered; a layer adds its
own calls to those of the system inside (`Layer.within`).  If the programs of a system are within `b`, then once
no more requests arrive `b` turns for each are enough, in any order (`Reach.drained`): none waits for another.
-/

namespace Atomic

variable {σ ρ Req Req' Call Own Input OwnInput Resp α β : Type} {Reply : Call → Type} {OwnReply : Own → Type}

/-! ### The length of a program -/

/-- At most `n` calls to the end, whatever they are answered. -/
def Prog.Within : Prog Call Reply α → ℕ → Prop
  | .ret _, _ => True
  | .call _ _, 0 => False
  | .call _ k, n + 1 => ∀ reply, (k reply).Within n

namespace Prog

@[simp] theorem within_ret (a : α) (n : ℕ) : (.ret a : Prog Call Reply α).Within n := trivial

theorem Within.mono {p : Prog Call Reply α} {m n : ℕ} (h : p.Within m) (hmn : m ≤ n) : p.Within n := by
  induction p generalizing m n with
  | ret a => trivial
  | call c k ih =>
    cases m with
    | zero => cases h
    | succ m =>
      obtain ⟨n, rfl⟩ := Nat.exists_eq_add_of_le' (Nat.one_le_of_lt (Nat.lt_of_lt_of_le m.succ_pos hmn))
      exact fun reply => ih reply (h reply) (Nat.le_of_succ_le_succ hmn)

theorem Within.bind {p : Prog Call Reply α} {f : α → Prog Call Reply β} {m n : ℕ} (h : p.Within m)
    (hf : ∀ a, (f a).Within n) : (p.bind f).Within (m + n) := by
  induction p generalizing m with
  | ret a => exact (hf a).mono (Nat.le_add_left n m)
  | call c k ih =>
    cases m with
    | zero => cases h
    | succ m =>
      rw [Nat.succ_add]
      exact fun reply => ih reply (h reply)

theorem Within.inside {p : Prog Call Reply α} {n : ℕ} (h : p.Within n) : (p.inside OwnReply).Within n := by
  induction p generalizing n with
  | ret a => trivial
  | call c k ih =>
    cases n with
    | zero => cases h
    | succ n => exact fun reply => ih reply (h reply)

theorem Within.own {p : Prog Own OwnReply α} {n : ℕ} (h : p.Within n) : (p.own Reply).Within n := by
  induction p generalizing n with
  | ret a => trivial
  | call o k ih =>
    cases n with
    | zero => cases h
    | succ n => exact fun reply => ih reply (h reply)

/-- A program that is over has no call left. -/
theorem Within.zero {p : Prog Call Reply α} (h : p.Within 0) : ∃ a, p = .ret a := by
  cases p with
  | ret a => exact ⟨a, rfl⟩
  | call c k => cases h

end Prog

variable {S : System σ Req Call Input Resp Reply}

/-- What has been called counts. -/
theorem Follows.within {p q : Prog Call Reply Resp} {es : List (Event σ Call Input)} (h : Follows S p es q) {n : ℕ}
    (hp : p.Within n) : ∃ m, n = es.length + m ∧ q.Within m := by
  induction h generalizing n with
  | nil p => exact ⟨n, (Nat.zero_add n).symm, hp⟩
  | cons _ ih =>
    cases n with
    | zero => cases hp
    | succ n =>
      obtain ⟨m, rfl, hq⟩ := ih (hp _)
      exact ⟨m, by rw [List.length_cons]; omega, hq⟩

/-- The layer's calls come on top. -/
theorem Layer.within {L : Layer ρ Req Req' Own OwnInput Resp OwnReply} {m n l : ℕ}
    (hbefore : ∀ r, (L.before r).Within m) (hinside : ∀ r, (S.start r).Within n)
    (hafter : ∀ r a, (L.after r a).Within l) (r : Req') : ((L.around S).start r).Within (m + (n + l)) := by
  refine (hbefore r).own.bind fun early => ?_
  cases early with
  | some a => exact Prog.within_ret a _
  | none => exact (hinside _).inside.bind fun a => (hafter r a).own

/-! ### Turns -/

variable {s : σ} {w : World σ Req Call Input Resp Reply}

/-- What is left of a request's calls. -/
theorem Reach.within (h : Reach S s w) {b : ℕ} (hb : ∀ r, (S.start r).Within b) {i : ℕ}
    {th : Thread Req Call Resp Reply} (hi : w.Has i th) : ∃ m, b = (w.own i).length + m ∧ th.prog.Within m :=
  (h.follows hi).within (hb th.req)

variable (S) in
/-- Calls only: request `i` goes on with the input `x`, turn after turn. -/
def World.turns (w : World σ Req Call Input Resp Reply) (cs : List (ℕ × Input)) : World σ Req Call Input Resp Reply :=
  w.run S (cs.map fun c => .call c.1 c.2)

theorem World.turns_cons (c : ℕ × Input) (cs : List (ℕ × Input)) :
    w.turns S (c :: cs) = (w.sched S (.call c.1 c.2)).turns S cs := rfl

/-- A turn of an answered request changes nothing, that of another is a call of its own. -/
theorem World.turn_cases {i : ℕ} (hi : i < w.threads.length) (x : Input) :
    (∃ r a, w.Has i ⟨r, .ret a⟩ ∧ w.sched S (.call i x) = w) ∨
      ∃ r c k, w.Has i ⟨r, .call c k⟩ ∧ w.sched S (.call i x) = w.exec S i r c k x := by
  obtain ⟨⟨r, p⟩, hth⟩ : ∃ th, w.threads[i]? = some th := ⟨_, List.getElem?_eq_getElem hi⟩
  cases p with
  | ret a => exact .inl ⟨r, a, hth, by simp only [World.sched, hth]⟩
  | call c k => exact .inr ⟨r, c, k, hth, by simp only [World.sched, hth]⟩

theorem World.sched_requests (i : ℕ) (x : Input) :
    (w.sched S (.call i x)).threads.map Thread.req = w.threads.map Thread.req := by
  unfold World.sched
  dsimp only
  split
  · next r c k hth =>
    obtain ⟨hlt, hget⟩ := List.getElem?_eq_some_iff.mp hth
    have hlt' : i < (w.threads.map Thread.req).length := by simpa using hlt
    have hreq : (w.threads.map Thread.req)[i] = r := by rw [List.getElem_map, hget]
    rw [World.exec, List.map_set, ← hreq]
    exact List.set_getElem_self _
  · rfl

/-- Turns bring no requests. -/
theorem World.turns_requests (cs : List (ℕ × Input)) :
    (w.turns S cs).threads.map Thread.req = w.threads.map Thread.req := by
  induction cs generalizing w with
  | nil => rfl
  | cons c cs ih => rw [World.turns_cons, ih, World.sched_requests]

theorem World.turns_length (cs : List (ℕ × Input)) : (w.turns S cs).threads.length = w.threads.length := by
  have h := congrArg List.length (World.turns_requests (S := S) (w := w) cs)
  simpa using h

/-- A request is answered, or has made a call at each of its turns. -/
theorem World.turns_own {i : ℕ} (hi : i < w.threads.length) (cs : List (ℕ × Input)) :
    (∃ r a, (w.turns S cs).Has i ⟨r, .ret a⟩) ∨
      ((w.turns S cs).own i).length = (w.own i).length + cs.countP (·.1 = i) := by
  induction cs generalizing w with
  | nil => exact .inr rfl
  | cons c cs ih =>
    have hlength : (w.sched S (.call c.1 c.2)).threads.length = w.threads.length :=
      World.turns_length [c]
    rw [World.turns_cons, List.countP_cons]
    rcases ih (hlength.symm ▸ hi) with hanswered | hown
    · exact .inl hanswered
    · by_cases hci : c.1 = i
      · subst hci
        rcases World.turn_cases (S := S) hi c.2 with ⟨r, a, hret, hsame⟩ | ⟨r, d, k, -, hexec⟩
        · rw [hsame]
          exact .inl ⟨r, a, Steps.answered (World.run_steps _ _) hret⟩
        · refine .inr (hown.trans ?_)
          rw [hexec, World.exec_own]
          simp
          omega
      · refine .inr (hown.trans ?_)
        have hsame : (w.sched S (.call c.1 c.2)).own i = w.own i := by
          unfold World.sched
          dsimp only
          split
          · rw [World.exec_own, if_neg hci, List.append_nil]
          · rfl
        rw [hsame]
        simp [hci]

/-- **Draining.**  Once no more requests arrive, turns enough for each answer them all, in whatever order. -/
theorem Reach.drained (h : Reach S s w) {b : ℕ} (hb : ∀ r, (S.start r).Within b) {cs : List (ℕ × Input)}
    (hcs : ∀ i < w.threads.length, b ≤ (w.own i).length + cs.countP (·.1 = i)) : (w.turns S cs).Quiescent := by
  have hreach : Reach S s (w.turns S cs) := h.trans (World.run_steps _ _)
  intro i th hi
  have hlt : i < w.threads.length := World.turns_length (S := S) (w := w) cs ▸ hi.lt
  rcases World.turns_own (S := S) hlt cs with ⟨r, a, hret⟩ | hown
  · obtain rfl := hi.unique hret
    exact ⟨a, rfl⟩
  · obtain ⟨m, hm, hwithin⟩ := hreach.within hb hi
    have := hcs i hlt
    obtain rfl : m = 0 := by omega
    exact hwithin.zero

end Atomic
