import Mathlib.Logic.Relation
import Mathlib.Data.List.Infix

/-!
# Lib.Atomic — programs of atomic calls and their interleavings

A program (`Prog`) is a tree of calls to a shared store, each call atomic.  A `System` starts one
program per arriving request and gives every call a meaning on the store; what the outside world
supplies to a call (a clock reading, a fresh name, a failure) is its `Input`.

* `Step`/`Reach`: any number of requests, their calls interleaved in any order.
* `World.log`: the calls made so far, in order, each with the store it ran on.
* `Follows`: where a program stands after its own calls; `Reach.follows` ties every request to its
  own part of the log.
* `Prog.eval`: one program run alone; `World.serve` and `World.serveAll`: whole requests run so, which
  is one of the interleavings (`World.serveAll_steps`).
-/

namespace Atomic

/-- A program: a result, or a call and what to do with its reply. -/
inductive Prog (Call : Type) (Reply : Call → Type) (α : Type) where
  | ret (a : α)
  | call (c : Call) (k : Reply c → Prog Call Reply α)

/-- What starts a request's program and what a call does to the store. -/
structure System (σ Req Call Input Resp : Type) (Reply : Call → Type) where
  start : Req → Prog Call Reply Resp
  exec : (c : Call) → Input → σ → Reply c × σ

/-- One call of the log: who made it, with what input, on which store. -/
structure Event (σ Call Input : Type) where
  tid : ℕ
  call : Call
  input : Input
  before : σ

structure Thread (Req Call Resp : Type) (Reply : Call → Type) where
  req : Req
  prog : Prog Call Reply Resp

/-- The answer to a request, `none` while it is in flight. -/
def Thread.answer {Req Call Resp : Type} {Reply : Call → Type} (th : Thread Req Call Resp Reply) : Option Resp :=
  match th.prog with
  | .ret a => some a
  | .call _ _ => none

theorem Thread.answer_eq_some {Req Call Resp : Type} {Reply : Call → Type} {th : Thread Req Call Resp Reply}
    {a : Resp} : th.answer = some a ↔ th.prog = .ret a := by
  unfold answer
  cases th.prog <;> simp

structure World (σ Req Call Input Resp : Type) (Reply : Call → Type) where
  db : σ
  threads : List (Thread Req Call Resp Reply)
  log : List (Event σ Call Input)

variable {σ Req Call Input Resp : Type} {Reply : Call → Type}

namespace World

/-- The store before any request. -/
def init (s : σ) : World σ Req Call Input Resp Reply := ⟨s, [], []⟩

/-- The calls of request `i`, in order. -/
def own (w : World σ Req Call Input Resp Reply) (i : ℕ) : List (Event σ Call Input) :=
  w.log.filter (·.tid = i)

/-- Request `i` is `th`. -/
def Has (w : World σ Req Call Input Resp Reply) (i : ℕ) (th : Thread Req Call Resp Reply) : Prop :=
  w.threads[i]? = some th

/-- The calls made since `w₀`. -/
def since (w w₀ : World σ Req Call Input Resp Reply) : List (Event σ Call Input) :=
  w.log.drop w₀.log.length

/-- The responses given, `none` for a request in flight. -/
def responses (w : World σ Req Call Input Resp Reply) : List (Option Resp) :=
  w.threads.map Thread.answer

/-- No request is in flight. -/
def Quiescent (w : World σ Req Call Input Resp Reply) : Prop :=
  ∀ i th, w.Has i th → ∃ a, th.prog = .ret a

theorem Has.lt {w : World σ Req Call Input Resp Reply} {i : ℕ} {th : Thread Req Call Resp Reply}
    (h : w.Has i th) : i < w.threads.length := (List.getElem?_eq_some_iff.mp h).1

theorem Has.unique {w : World σ Req Call Input Resp Reply} {i : ℕ} {th th' : Thread Req Call Resp Reply}
    (h : w.Has i th) (h' : w.Has i th') : th = th' := Option.some.inj (h.symm.trans h')

theorem quiescent_of_responses {w : World σ Req Call Input Resp Reply}
    (h : w.responses.all Option.isSome) : w.Quiescent := by
  intro i th hi
  have hth : th ∈ w.threads := List.mem_of_getElem? hi
  obtain ⟨a, ha⟩ := Option.isSome_iff_exists.mp (List.all_eq_true.mp h _ (List.mem_map_of_mem hth))
  exact ⟨a, Thread.answer_eq_some.mp ha⟩

theorem mem_own {w : World σ Req Call Input Resp Reply} {i : ℕ} {e : Event σ Call Input} :
    e ∈ w.own i ↔ e ∈ w.log ∧ e.tid = i := by
  simp [own]

theorem mem_of_own {w : World σ Req Call Input Resp Reply} {i : ℕ} {es : List (Event σ Call Input)}
    (hown : w.own i = es) {e : Event σ Call Input} (he : e ∈ es) : e ∈ w.log ∧ e.tid = i :=
  mem_own.mp (hown ▸ he)

@[simp] theorem since_self (w : World σ Req Call Input Resp Reply) : w.since w = [] := by
  simp [since]

theorem log_eq_since {w₀ w : World σ Req Call Input Resp Reply} (h : w₀.log <+: w.log) :
    w.log = w₀.log ++ w.since w₀ := (List.prefix_iff_eq_append.mp h).symm

end World

variable (S : System σ Req Call Input Resp Reply)

namespace Event

/-- The reply the call got. -/
def reply (e : Event σ Call Input) : Reply e.call := (S.exec e.call e.input e.before).1

/-- The store the call left. -/
def after (e : Event σ Call Input) : σ := (S.exec e.call e.input e.before).2

end Event

namespace World

variable (w : World σ Req Call Input Resp Reply)

/-- A request arrives. -/
def arrive (r : Req) : World σ Req Call Input Resp Reply :=
  { w with threads := w.threads ++ [⟨r, S.start r⟩] }

/-- Request `i`, at the call `c`, makes it. -/
def exec (i : ℕ) (r : Req) (c : Call) (k : Reply c → Prog Call Reply Resp) (x : Input) :
    World σ Req Call Input Resp Reply where
  db := (S.exec c x w.db).2
  threads := w.threads.set i ⟨r, k (S.exec c x w.db).1⟩
  log := w.log ++ [⟨i, c, x, w.db⟩]

variable {w}

variable {S} in
theorem has_arrive {r : Req} {i : ℕ} {th : Thread Req Call Resp Reply} : (w.arrive S r).Has i th ↔
    w.Has i th ∨ (i = w.threads.length ∧ th = ⟨r, S.start r⟩) := by
  rcases Nat.lt_trichotomy i w.threads.length with hlt | rfl | hgt
  · have hne : i ≠ w.threads.length := by omega
    simp [Has, arrive, List.getElem?_append_left hlt, hne]
  · simp [Has, arrive, eq_comm]
  · have hne : i ≠ w.threads.length := by omega
    have hnone : w.threads[i]? = none := List.getElem?_eq_none (by omega)
    have hnone' : (w.threads ++ [⟨r, S.start r⟩])[i]? = none :=
      List.getElem?_eq_none (by simp; omega)
    simp [Has, arrive, hne, hnone, hnone']

variable {S} in
theorem has_exec {i : ℕ} {th₀ : Thread Req Call Resp Reply} (hi : w.Has i th₀) {r : Req} {c : Call}
    {k : Reply c → Prog Call Reply Resp} {x : Input} {j : ℕ} {th : Thread Req Call Resp Reply} :
    (w.exec S i r c k x).Has j th ↔
      (j = i ∧ th = ⟨r, k (S.exec c x w.db).1⟩) ∨ (j ≠ i ∧ w.Has j th) := by
  by_cases hji : j = i
  · subst hji
    simp [Has, exec, List.getElem?_set_self hi.lt, eq_comm]
  · have hij : i ≠ j := fun h => hji h.symm
    simp [Has, exec, List.getElem?_set_ne hij, hji]

/-- A scheduling decision. -/
inductive Label (Req Input : Type) where
  | arrive (r : Req)
  | call (i : ℕ) (x : Input)

variable (w)

/-- Carry out a decision; a call of a request that is absent or finished does nothing. -/
def sched : Label Req Input → World σ Req Call Input Resp Reply
  | .arrive r => w.arrive S r
  | .call i x =>
    match w.threads[i]? with
    | some ⟨r, .call c k⟩ => w.exec S i r c k x
    | _ => w

/-- Request `i` has a call to make. -/
def inFlight (i : ℕ) : Bool :=
  match w.threads[i]? with
  | some ⟨_, .call _ _⟩ => true
  | _ => false

/-- Carry out a list of decisions. -/
def run (ls : List (Label Req Input)) : World σ Req Call Input Resp Reply :=
  ls.foldl (fun w l => w.sched S l) w

end World

/-- One step of the interleaving. -/
inductive Step : World σ Req Call Input Resp Reply → World σ Req Call Input Resp Reply → Prop
  | arrive (w : World σ Req Call Input Resp Reply) (r : Req) : Step w (w.arrive S r)
  | call {w : World σ Req Call Input Resp Reply} {i : ℕ} {r : Req} {c : Call}
      {k : Reply c → Prog Call Reply Resp} (hi : w.Has i ⟨r, .call c k⟩) (x : Input) :
      Step w (w.exec S i r c k x)

/-- Any number of steps. -/
abbrev Steps : World σ Req Call Input Resp Reply → World σ Req Call Input Resp Reply → Prop :=
  Relation.ReflTransGen (Step S)

/-- The worlds an interleaving reaches from the store `s` and no requests. -/
abbrev Reach (s : σ) (w : World σ Req Call Input Resp Reply) : Prop := Steps S (World.init s) w

variable {S}

/-! ### Runs of a schedule are interleavings -/

theorem World.sched_steps (w : World σ Req Call Input Resp Reply) (l : World.Label Req Input) :
    Steps S w (w.sched S l) := by
  unfold World.sched
  split
  · exact .single (.arrive w _)
  · split
    · next hi => exact .single (.call hi _)
    · exact .refl

theorem World.sched_step {w : World σ Req Call Input Resp Reply} {i : ℕ} (h : w.inFlight i) (x : Input) :
    Step S w (w.sched S (.call i x)) := by
  unfold World.inFlight at h
  split at h
  · next hi =>
    simp only [World.sched, hi]
    exact .call hi x
  · cases h

theorem World.run_steps (w : World σ Req Call Input Resp Reply) (ls : List (World.Label Req Input)) :
    Steps S w (w.run S ls) := by
  induction ls generalizing w with
  | nil => exact .refl
  | cons l ls ih => exact (w.sched_steps l).trans (ih _)

/-! ### What a step keeps -/

theorem Step.log_mono {w w' : World σ Req Call Input Resp Reply} (h : Step S w w') :
    w.log <+: w'.log := by
  cases h with
  | arrive r => exact List.prefix_rfl
  | call hi x => exact List.prefix_append _ _

theorem Steps.log_mono {w w' : World σ Req Call Input Resp Reply} (h : Steps S w w') :
    w.log <+: w'.log := by
  induction h with
  | refl => exact List.prefix_rfl
  | tail _ hs ih => exact ih.trans hs.log_mono

/-- A request keeps its place and what it asked for. -/
theorem Step.thread {w w' : World σ Req Call Input Resp Reply} (h : Step S w w') {i : ℕ}
    {th : Thread Req Call Resp Reply} (hi : w.Has i th) : ∃ p, w'.Has i ⟨th.req, p⟩ := by
  cases h with
  | arrive r => exact ⟨th.prog, World.has_arrive.mpr (.inl hi)⟩
  | @call j r c k hj x =>
    by_cases hij : i = j
    · subst hij
      obtain rfl := hi.unique hj
      exact ⟨_, (World.has_exec hj).mpr (.inl ⟨rfl, rfl⟩)⟩
    · exact ⟨th.prog, (World.has_exec hj).mpr (.inr ⟨hij, hi⟩)⟩

theorem Steps.thread {w w' : World σ Req Call Input Resp Reply} (h : Steps S w w') {i : ℕ}
    {th : Thread Req Call Resp Reply} (hi : w.Has i th) : ∃ p, w'.Has i ⟨th.req, p⟩ := by
  induction h with
  | refl => exact ⟨th.prog, hi⟩
  | tail _ hs ih =>
    obtain ⟨p, hp⟩ := ih
    obtain ⟨p', hp'⟩ := hs.thread hp
    exact ⟨p', hp'⟩

/-! ### Induction over runs -/

/-- **Invariant rule.**  `I` holds in every reached world of which `H` holds, when `H` is inherited
by earlier worlds and every step keeps `I`. -/
theorem Steps.inv {w₀ w : World σ Req Call Input Resp Reply} (h : Steps S w₀ w)
    {H I : World σ Req Call Input Resp Reply → Prop} (hH : ∀ {w w'}, Step S w w' → H w' → H w)
    (h0 : H w₀ → I w₀)
    (hstep : ∀ {w w'}, Steps S w₀ w → Step S w w' → H w' → I w → I w') : H w → I w := by
  induction h with
  | refl => exact h0
  | tail hw hs ih => exact fun hw' => hstep hw hs hw' (ih (hH hs hw'))

theorem World.since_exec {w₀ w : World σ Req Call Input Resp Reply} (h : Steps S w₀ w) (i : ℕ) (r : Req)
    (c : Call) (k : Reply c → Prog Call Reply Resp) (x : Input) :
    (w.exec S i r c k x).since w₀ = w.since w₀ ++ [⟨i, c, x, w.db⟩] :=
  List.drop_append_of_le_length (Steps.log_mono h).length_le

theorem Steps.since_mono (w₀ : World σ Req Call Input Resp Reply)
    {v w : World σ Req Call Input Resp Reply} (h : Steps S v w) :
    v.since w₀ <+: w.since w₀ := List.IsPrefix.drop (Steps.log_mono h) _

/-- The invariant rule for facts about the store and the log alone: only calls matter. -/
theorem Steps.log_inv {w₀ w : World σ Req Call Input Resp Reply} (h : Steps S w₀ w)
    {H : List (Event σ Call Input) → Prop} {I : σ → List (Event σ Call Input) → Prop}
    (hH : ∀ {l l'}, l <+: l' → H l' → H l) (h0 : I w₀.db [])
    (hstep : ∀ {w : World σ Req Call Input Resp Reply} {i r c k}, Steps S w₀ w →
      w.Has i ⟨r, .call c k⟩ → ∀ x, H (w.since w₀ ++ [⟨i, c, x, w.db⟩]) → I w.db (w.since w₀) →
      I (S.exec c x w.db).2 (w.since w₀ ++ [⟨i, c, x, w.db⟩])) : H (w.since w₀) → I w.db (w.since w₀) := by
  refine Steps.inv h (H := fun w => H (w.since w₀)) (I := fun w => I w.db (w.since w₀))
    (fun hs => hH (Steps.since_mono w₀ (.single hs))) (fun _ => by simpa using h0) ?_
  intro w w' hw hs hH' hI
  cases hs with
  | arrive r => exact hI
  | call hi x =>
    rw [World.since_exec hw] at hH' ⊢
    exact hstep hw hi x hH' hI

/-- The same for a run from no requests. -/
theorem Reach.log_inv {s : σ} {w : World σ Req Call Input Resp Reply} (h : Reach S s w)
    {H : List (Event σ Call Input) → Prop} {I : σ → List (Event σ Call Input) → Prop}
    (hH : ∀ {l l'}, l <+: l' → H l' → H l) (h0 : I s [])
    (hstep : ∀ {w : World σ Req Call Input Resp Reply} {i r c k}, Reach S s w →
      w.Has i ⟨r, .call c k⟩ → ∀ x, H (w.log ++ [⟨i, c, x, w.db⟩]) → I w.db w.log →
      I (S.exec c x w.db).2 (w.log ++ [⟨i, c, x, w.db⟩])) : H w.log → I w.db w.log :=
  Steps.log_inv h hH h0 hstep

theorem Reach.tid_lt {s : σ} {w : World σ Req Call Input Resp Reply} (h : Reach S s w) :
    ∀ e ∈ w.log, e.tid < w.threads.length := by
  induction h with
  | refl => simp [World.init]
  | tail _ hs ih =>
    cases hs with
    | arrive r =>
      intro e he
      have := ih e he
      simp [World.arrive]
      omega
    | call hi x =>
      intro e he
      simp only [World.exec, List.mem_append, List.mem_singleton, List.length_set] at he ⊢
      rcases he with he | rfl
      · exact ih e he
      · exact hi.lt

/-- **Every logged call was made** from a world of the run, by the request it names. -/
theorem Steps.event {w₀ w : World σ Req Call Input Resp Reply} (h : Steps S w₀ w)
    {e : Event σ Call Input} (he : e ∈ w.since w₀) : ∃ v r k, Steps S w₀ v ∧
      v.Has e.tid ⟨r, .call e.call k⟩ ∧ v.db = e.before ∧
      Steps S (v.exec S e.tid r e.call k e.input) w := by
  induction h with
  | refl => simp at he
  | tail hw hs ih =>
    cases hs with
    | arrive r =>
      obtain ⟨v, r₀, k₀, h1, h2, h3, h4⟩ := ih he
      exact ⟨v, r₀, k₀, h1, h2, h3, h4.tail (.arrive _ r)⟩
    | call hi x =>
      rw [World.since_exec hw, List.mem_append, List.mem_singleton] at he
      rcases he with he | rfl
      · obtain ⟨v, r₀, k₀, h1, h2, h3, h4⟩ := ih he
        exact ⟨v, r₀, k₀, h1, h2, h3, h4.tail (.call hi x)⟩
      · exact ⟨_, _, _, hw, hi, rfl, .refl⟩

theorem Reach.event {s : σ} {w : World σ Req Call Input Resp Reply} (h : Reach S s w)
    {e : Event σ Call Input} (he : e ∈ w.log) : ∃ v r k, Reach S s v ∧
      v.Has e.tid ⟨r, .call e.call k⟩ ∧ v.db = e.before ∧
      Steps S (v.exec S e.tid r e.call k e.input) w := Steps.event h he

/-! ### Where a program stands -/

variable (S) in
/-- `Follows S p es q`: the program `p`, having made the calls `es`, stands at `q`. -/
inductive Follows : Prog Call Reply Resp → List (Event σ Call Input) → Prog Call Reply Resp → Prop
  | nil (p : Prog Call Reply Resp) : Follows p [] p
  | cons {c : Call} {k : Reply c → Prog Call Reply Resp} {i : ℕ} {x : Input} {s : σ}
      {es : List (Event σ Call Input)} {q : Prog Call Reply Resp}
      (h : Follows (k (S.exec c x s).1) es q) : Follows (.call c k) (⟨i, c, x, s⟩ :: es) q

theorem Follows.snoc {p : Prog Call Reply Resp} {es : List (Event σ Call Input)} {c : Call}
    {k : Reply c → Prog Call Reply Resp} (h : Follows S p es (.call c k)) (i : ℕ) (x : Input) (s : σ) :
    Follows S p (es ++ [⟨i, c, x, s⟩]) (k (S.exec c x s).1) := by
  generalize hq : Prog.call c k = q at h
  induction h with
  | nil p => subst hq; exact .cons (.nil _)
  | cons _ ih => exact .cons (ih hq)

@[simp] theorem follows_ret {a : Resp} {es : List (Event σ Call Input)} {q : Prog Call Reply Resp} :
    Follows S (.ret a) es q ↔ es = [] ∧ q = .ret a := by
  constructor
  · rintro h; cases h; exact ⟨rfl, rfl⟩
  · rintro ⟨rfl, rfl⟩; exact .nil _

theorem follows_call {c : Call} {k : Reply c → Prog Call Reply Resp} {es : List (Event σ Call Input)}
    {q : Prog Call Reply Resp} : Follows S (.call c k) es q ↔ (es = [] ∧ q = .call c k) ∨
      ∃ i x s es', es = ⟨i, c, x, s⟩ :: es' ∧ Follows S (k (S.exec c x s).1) es' q := by
  constructor
  · intro h
    cases h with
    | nil => exact .inl ⟨rfl, rfl⟩
    | cons h => exact .inr ⟨_, _, _, _, rfl, h⟩
  · rintro (⟨rfl, rfl⟩ | ⟨i, x, s, es', rfl, h⟩)
    · exact .nil _
    · exact .cons h

/-- The calls made and their replies determine where a program stands. -/
theorem Follows.unique {p q q' : Prog Call Reply Resp} {es : List (Event σ Call Input)}
    (h : Follows S p es q) (h' : Follows S p es q') : q = q' := by
  induction h with
  | nil p => cases h'; rfl
  | cons _ ih =>
    cases h' with
    | cons h' => exact ih h'

/-- What follows the first calls. -/
theorem Follows.rest {p q r : Prog Call Reply Resp} {es es' : List (Event σ Call Input)}
    (h : Follows S p es r) (h' : Follows S p (es ++ es') q) : Follows S r es' q := by
  induction h with
  | nil p => exact h'
  | cons _ ih =>
    cases h' with
    | cons h' => exact ih h'

theorem Follows.eq_of_nil {p q : Prog Call Reply Resp} (h : Follows S p [] q) : q = p := by
  cases h
  rfl

@[simp] theorem World.arrive_own (w : World σ Req Call Input Resp Reply) (r : Req) (i : ℕ) :
    (w.arrive S r).own i = w.own i := rfl

theorem World.exec_own (w : World σ Req Call Input Resp Reply) (i j : ℕ) (r : Req) (c : Call)
    (k : Reply c → Prog Call Reply Resp) (x : Input) : (w.exec S i r c k x).own j =
      w.own j ++ if i = j then [⟨i, c, x, w.db⟩] else [] := by
  by_cases hij : i = j <;> simp [World.own, World.exec, List.filter_append, hij]

/-- **Every request stands where its own calls left it.** -/
theorem Reach.follows {s : σ} {w : World σ Req Call Input Resp Reply} (h : Reach S s w) {i : ℕ}
    {th : Thread Req Call Resp Reply} (hi : w.Has i th) :
    Follows S (S.start th.req) (w.own i) th.prog := by
  induction h generalizing th with
  | refl => simp [World.init, World.Has] at hi
  | @tail w w' hw hs ih =>
    cases hs with
    | arrive r =>
      rw [World.arrive_own]
      rcases World.has_arrive.mp hi with hi | ⟨rfl, rfl⟩
      · exact ih hi
      · -- the new request has made no call
        have hown : w.own w.threads.length = [] := by
          refine List.filter_eq_nil_iff.mpr fun e he => ?_
          have := Reach.tid_lt hw e he
          simp only [decide_eq_true_eq]
          omega
        rw [hown]
        exact .nil _
    | @call j r c k hj x =>
      rw [World.exec_own]
      rcases (World.has_exec hj).mp hi with ⟨rfl, rfl⟩ | ⟨hij, hi⟩
      · simpa using (ih hj).snoc i x w.db
      · rw [if_neg fun h => hij h.symm, List.append_nil]
        exact ih hi

/-! ### One program alone -/

variable (S) in
/-- The program run alone from `s`; its `n`-th call gets the input `xs n`. -/
def Prog.eval : Prog Call Reply Resp → (ℕ → Input) → σ → Resp × σ
  | .ret a, _, s => (a, s)
  | .call c k, xs, s => Prog.eval (k (S.exec c (xs 0) s).1) (fun n => xs (n + 1)) (S.exec c (xs 0) s).2

variable (S) in
/-- The calls of that run, made in the name of request `i`. -/
def Prog.calls (i : ℕ) : Prog Call Reply Resp → (ℕ → Input) → σ → List (Event σ Call Input)
  | .ret _, _, _ => []
  | .call c k, xs, s => ⟨i, c, xs 0, s⟩ ::
    Prog.calls i (k (S.exec c (xs 0) s).1) (fun n => xs (n + 1)) (S.exec c (xs 0) s).2

/-- **Running alone is an interleaving**: from any world, a request can run to its end with no other
step between. -/
theorem solo_steps (p : Prog Call Reply Resp) (xs : ℕ → Input) {w : World σ Req Call Input Resp Reply}
    {i : ℕ} {r : Req} (hi : w.Has i ⟨r, p⟩) : Steps S w ⟨(p.eval S xs w.db).2,
      w.threads.set i ⟨r, .ret (p.eval S xs w.db).1⟩, w.log ++ p.calls S i xs w.db⟩ := by
  induction p generalizing w xs with
  | ret a =>
    obtain ⟨hlt, hget⟩ := List.getElem?_eq_some_iff.mp hi
    rw [Prog.eval, Prog.calls, ← hget, List.set_getElem_self, List.append_nil]
  | call c k ih =>
    have hrest := ih (S.exec c (xs 0) w.db).1 (fun n => xs (n + 1)) (w := w.exec S i r c k (xs 0))
      ((World.has_exec hi).mpr (.inl ⟨rfl, rfl⟩))
    refine .head (.call hi (xs 0)) ?_
    simpa [World.exec, Prog.eval, Prog.calls] using hrest

variable (S) in
/-- Request `r` arrives and is served with no other step between. -/
def World.serve (w : World σ Req Call Input Resp Reply) (r : Req) (xs : ℕ → Input) :
    World σ Req Call Input Resp Reply where
  db := ((S.start r).eval S xs w.db).2
  threads := w.threads ++ [⟨r, .ret ((S.start r).eval S xs w.db).1⟩]
  log := w.log ++ (S.start r).calls S w.threads.length xs w.db

theorem World.serve_steps (w : World σ Req Call Input Resp Reply) (r : Req) (xs : ℕ → Input) :
    Steps S w (w.serve S r xs) := by
  have hi : (w.arrive S r).Has w.threads.length ⟨r, S.start r⟩ := World.has_arrive.mpr (.inr ⟨rfl, rfl⟩)
  refine .head (.arrive w r) ?_
  simpa [World.arrive, World.serve] using solo_steps (S.start r) xs hi

variable (S) in
/-- Requests served one after the other, each with the inputs of its calls. -/
def World.serveAll (w : World σ Req Call Input Resp Reply) (ts : List (Req × (ℕ → Input))) :
    World σ Req Call Input Resp Reply :=
  ts.foldl (fun w t => w.serve S t.1 t.2) w

@[simp] theorem World.serveAll_concat (w : World σ Req Call Input Resp Reply)
    (ts : List (Req × (ℕ → Input))) (t : Req × (ℕ → Input)) :
    w.serveAll S (ts ++ [t]) = (w.serveAll S ts).serve S t.1 t.2 := by
  simp [World.serveAll]

/-! ### What a program can answer -/

/-- `P` holds of whatever the program ends with. -/
def Prog.Ends (P : Resp → Prop) : Prog Call Reply Resp → Prop
  | .ret a => P a
  | .call _ k => ∀ reply, Prog.Ends P (k reply)

theorem Prog.Ends.follows {P : Resp → Prop} {p q : Prog Call Reply Resp} {es : List (Event σ Call Input)}
    (hp : p.Ends P) (h : Follows S p es q) : q.Ends P := by
  induction h with
  | nil p => exact hp
  | cons _ ih => exact ih (hp _)

/-! ### Clients that use what they were answered -/

variable (S) in
/-- A run in which a request arrives only when `admits` lets it. -/
inductive ReachWith (admits : World σ Req Call Input Resp Reply → Req → Prop) (s : σ) :
    World σ Req Call Input Resp Reply → Prop
  | init : ReachWith admits s (World.init s)
  | arrive {w : World σ Req Call Input Resp Reply} (h : ReachWith admits s w) {r : Req} (hr : admits w r) :
      ReachWith admits s (w.arrive S r)
  | call {w : World σ Req Call Input Resp Reply} (h : ReachWith admits s w) {i : ℕ} {r : Req} {c : Call}
      {k : Reply c → Prog Call Reply Resp} (hi : w.Has i ⟨r, .call c k⟩) (x : Input) :
      ReachWith admits s (w.exec S i r c k x)

section Admits

variable {admits : World σ Req Call Input Resp Reply → Req → Prop} {s : σ}
  {w : World σ Req Call Input Resp Reply}

theorem ReachWith.reach (h : ReachWith S admits s w) : Reach S s w := by
  induction h with
  | init => exact .refl
  | arrive _ _ ih => exact ih.tail (.arrive _ _)
  | call _ hi x ih => exact ih.tail (.call hi x)

/-- Calls alone need no admission. -/
theorem ReachWith.calls (h : ReachWith S admits s w) (cs : List (ℕ × Input)) :
    ReachWith S admits s (w.run S (cs.map fun c => .call c.1 c.2)) := by
  induction cs generalizing w with
  | nil => exact h
  | cons c cs ih =>
    refine ih (w := w.sched S (.call c.1 c.2)) ?_
    unfold World.sched
    dsimp only
    split
    · next hi => exact h.call hi _
    · exact h

/-- Every request was admitted when it arrived. -/
theorem ReachWith.admitted (h : ReachWith S admits s w) {i : ℕ} {th : Thread Req Call Resp Reply}
    (hi : w.Has i th) : ∃ v, Reach S s v ∧ Steps S v w ∧ v.threads.length = i ∧ admits v th.req := by
  induction h generalizing th with
  | init => cases hi
  | @arrive w hw r hr ih =>
    rcases World.has_arrive.mp hi with hi | ⟨rfl, rfl⟩
    · obtain ⟨v, hv, hsteps, hlength, hadmits⟩ := ih hi
      exact ⟨v, hv, hsteps.tail (.arrive _ _), hlength, hadmits⟩
    · exact ⟨w, hw.reach, .single (.arrive _ _), rfl, hr⟩
  | @call w hw j r c k hj x ih =>
    obtain ⟨th', hi', hreq⟩ : ∃ th', w.Has i th' ∧ th'.req = th.req := by
      rcases (World.has_exec hj).mp hi with ⟨rfl, rfl⟩ | ⟨-, hi⟩
      · exact ⟨_, hj, rfl⟩
      · exact ⟨th, hi, rfl⟩
    obtain ⟨v, hv, hsteps, hlength, hadmits⟩ := ih hi'
    exact ⟨v, hv, hsteps.tail (.call hj x), hlength, hreq ▸ hadmits⟩

end Admits

/-- An answer stands. -/
theorem Steps.answered {w w' : World σ Req Call Input Resp Reply} (h : Steps S w w') {i : ℕ} {r : Req} {a : Resp}
    (hi : w.Has i ⟨r, .ret a⟩) : w'.Has i ⟨r, .ret a⟩ := by
  induction h with
  | refl => exact hi
  | tail _ hs ih =>
    cases hs with
    | arrive r' => exact World.has_arrive.mpr (.inl ih)
    | call hj x =>
      refine (World.has_exec hj).mpr (.inr ⟨?_, ih⟩)
      rintro rfl
      cases ih.unique hj

end Atomic
