import SecureLedger.Lib.Atomic
import Mathlib.Data.List.Nodup
import Mathlib.Data.List.Pairwise

/-!
# Lib.Serial — interleavings that are as good as one request after the other

`Serializes.serial`: if every request has a commit point, at which its whole program run alone has on the
`view` of the store the effect that the one call has, and if nothing else changes the view, then the run has
the view of a run of the same requests one after the other, in the order of their commit points.  That order
respects the order of requests that do not overlap (`Precedes`).  `Retraces` says what a program does that
is run alone with the inputs it got in a run.
-/

namespace Atomic

variable {σ Req Call Input Resp τ : Type} {Reply : Call → Type}

/-! ### Retracing calls -/

section Retraces

variable (S : System σ Req Call Input Resp Reply) (P : (c : Call) → Reply c → Prop)

/-- `Retraces S P p es s s' q`: run alone from `s`, the program `p` comes with the inputs of the calls `es` to
`q` and to the store `s'`, by replies with the property `P`. -/
inductive Retraces : Prog Call Reply Resp → List (Event σ Call Input) → σ → σ → Prog Call Reply Resp → Prop
  | nil (p : Prog Call Reply Resp) (s : σ) : Retraces p [] s s p
  | cons {c : Call} {k : Reply c → Prog Call Reply Resp} {e : Event σ Call Input} {es : List (Event σ Call Input)}
      {s s' : σ} {q : Prog Call Reply Resp} (hP : P c (S.exec c e.input s).1)
      (h : Retraces (k (S.exec c e.input s).1) es (S.exec c e.input s).2 s' q) : Retraces (.call c k) (e :: es) s s' q

/-- The inputs of the calls `es`, and `x` from then on. -/
def inputsOf (es : List (Event σ Call Input)) (x : Input) (n : ℕ) : Input := (es[n]?.map Event.input).getD x

variable {S P} {p q r : Prog Call Reply Resp} {es es' : List (Event σ Call Input)} {s s' s'' : σ} {x : Input}

@[simp] theorem inputsOf_nil (x : Input) (n : ℕ) : inputsOf ([] : List (Event σ Call Input)) x n = x := rfl

@[simp] theorem inputsOf_zero (e : Event σ Call Input) (es : List (Event σ Call Input)) (x : Input) :
    inputsOf (e :: es) x 0 = e.input := rfl

theorem inputsOf_succ (e : Event σ Call Input) (es : List (Event σ Call Input)) (x : Input) :
    (fun n => inputsOf (e :: es) x (n + 1)) = inputsOf es x := rfl

theorem Retraces.append (h : Retraces S P p es s s' q) (h' : Retraces S P q es' s' s'' r) :
    Retraces S P p (es ++ es') s s'' r := by
  induction h with
  | nil => exact h'
  | cons hP _ ih => exact .cons hP (ih h')

/-- Run alone, a program does what it retraces. -/
theorem Retraces.eval (h : Retraces S P p es s s' q) :
    p.eval S (inputsOf (es ++ es') x) s = q.eval S (inputsOf es' x) s' := by
  induction h with
  | nil p s => rfl
  | cons _ _ ih => rw [List.cons_append, Prog.eval, inputsOf_zero, inputsOf_succ, ih]

theorem Retraces.calls (h : Retraces S P p es s s' q) (i : ℕ)
    (hq : ∀ e ∈ q.calls S i (inputsOf es' x) s', P e.call (e.reply S)) :
    ∀ e ∈ p.calls S i (inputsOf (es ++ es') x) s, P e.call (e.reply S) := by
  induction h with
  | nil p s => exact hq
  | cons hP _ ih =>
    rw [List.cons_append, Prog.calls, inputsOf_zero, inputsOf_succ]
    intro e he
    rcases List.mem_cons.mp he with rfl | he
    · exact hP
    · exact ih hq e he

end Retraces

/-! ### The order of the requests -/

namespace World

variable (w : World σ Req Call Input Resp Reply)

/-- Requests of a run, each with inputs of its own. -/
def requests (inputs : ℕ → ℕ → Input) (order : List ℕ) : List (Req × (ℕ → Input)) :=
  order.filterMap fun i => w.threads[i]?.map fun th => (th.req, inputs i)

/-- All calls of request `i` come before all calls of request `j`.  Both make calls: of a request that makes none
this says nothing. -/
def Precedes (i j : ℕ) : Prop :=
  ∃ l l', w.log = l ++ l' ∧ (∃ e ∈ l, e.tid = i) ∧ (∀ e ∈ l', e.tid ≠ i) ∧
    (∀ e ∈ l, e.tid ≠ j) ∧ ∃ e ∈ l', e.tid = j

variable {w}

theorem requests_concat {inputs : ℕ → ℕ → Input} {order : List ℕ} {i : ℕ} {th : Thread Req Call Resp Reply}
    (hi : w.Has i th) : w.requests inputs (order ++ [i]) = w.requests inputs order ++ [(th.req, inputs i)] := by
  unfold Has at hi
  simp [requests, hi]

theorem requests_append {inputs : ℕ → ℕ → Input} {order order' : List ℕ} :
    w.requests inputs (order ++ order') = w.requests inputs order ++ w.requests inputs order' :=
  List.filterMap_append

theorem requests_length {inputs : ℕ → ℕ → Input} {order : List ℕ} (h : ∀ i ∈ order, ∃ th, w.Has i th) :
    (w.requests inputs order).length = order.length := by
  induction order with
  | nil => rfl
  | cons i order ih =>
    obtain ⟨th, hth⟩ := h i (List.mem_cons_self ..)
    unfold Has at hth
    have ih := ih fun j hj => h j (List.mem_cons_of_mem _ hj)
    unfold requests at ih ⊢
    rw [List.filterMap_cons, hth, Option.map_some, List.length_cons, List.length_cons, ih]

/-- Serving more requests adds to the log. -/
theorem serveAll_mono (S : System σ Req Call Input Resp Reply) (V : World σ Req Call Input Resp Reply)
    (ts ts' : List (Req × (ℕ → Input))) : (V.serveAll S ts).log <+: (V.serveAll S (ts ++ ts')).log := by
  induction ts' using List.reverseRecOn with
  | nil => rw [List.append_nil]
  | append_singleton ts' t ih =>
    rw [← List.append_assoc, World.serveAll_concat]
    exact ih.trans (World.serve_steps _ _ _).log_mono

/-- What a request that is served after others is answered. -/
theorem serveAll_has (S : System σ Req Call Input Resp Reply) (s : σ) (ts ts' : List (Req × (ℕ → Input)))
    (t : Req × (ℕ → Input)) : ((World.init s).serveAll S (ts ++ t :: ts')).Has ts.length
      ⟨t.1, .ret ((S.start t.1).eval S t.2 ((World.init s).serveAll S ts).db).1⟩ := by
  have hlength : ∀ ts : List (Req × (ℕ → Input)), ((World.init s).serveAll S ts).threads.length = ts.length := by
    intro ts
    induction ts using List.reverseRecOn with
    | nil => rfl
    | append_singleton ts t ih => simp [World.serve, ih]
  induction ts' using List.reverseRecOn with
  | nil =>
    rw [World.serveAll_concat]
    show (_ ++ [_])[ts.length]? = _
    rw [← hlength ts, List.getElem?_concat_length]
  | append_singleton ts' t' ih =>
    rw [← List.cons_append, ← List.append_assoc, World.serveAll_concat]
    exact (List.getElem?_append_left ih.lt).trans ih

end World

/-! ### Commit points -/

/-- Every request commits at one step at most, its program being `settled` from then on: run alone there, it
does to the `view` what the step does.  Other steps leave the view as it is.  `J` is what the requests run
alone keep. -/
structure Serializes (S : System σ Req Call Input Resp Reply) (view : σ → τ) (s : σ)
    (w : World σ Req Call Input Resp Reply) (settled : Prog Call Reply Resp → Prop) (inputs : ℕ → ℕ → Input)
    (J : List ℕ → World σ Req Call Input Resp Reply → Prop) : Prop where
  init : J [] (World.init s)
  settled_ret : ∀ {r}, settled (S.start r) → ∃ a, S.start r = .ret a
  arrive : ∀ {v : World σ Req Call Input Resp Reply} {r}, Reach S s v → Steps S (v.arrive S r) w →
    settled (S.start r) → ∀ {order} {V : World σ Req Call Input Resp Reply}, v.threads.length ∉ order →
      view V.db = view v.db → J order V →
      view (V.serve S r (inputs v.threads.length)).db = view v.db ∧
        J (order ++ [v.threads.length]) (V.serve S r (inputs v.threads.length))
  call : ∀ {v : World σ Req Call Input Resp Reply} {i r c k} {x : Input}, Reach S s v → v.Has i ⟨r, .call c k⟩ →
    Steps S (v.exec S i r c k x) w →
    ((settled (.call c k) ∨ ¬ settled (k (S.exec c x v.db).1)) ∧ view (S.exec c x v.db).2 = view v.db ∧
      (settled (.call c k) → settled (k (S.exec c x v.db).1))) ∨
    (¬ settled (.call c k) ∧ settled (k (S.exec c x v.db).1) ∧
      ∀ {order} {V : World σ Req Call Input Resp Reply}, i ∉ order → view V.db = view v.db → J order V →
        view (V.serve S r (inputs i)).db = view (S.exec c x v.db).2 ∧
          J (order ++ [i]) (V.serve S r (inputs i)))

namespace Serializes

variable {S : System σ Req Call Input Resp Reply} {view : σ → τ} {s : σ} {v w : World σ Req Call Input Resp Reply}
  {settled : Prog Call Reply Resp → Prop} {inputs : ℕ → ℕ → Input}
  {J : List ℕ → World σ Req Call Input Resp Reply → Prop}

/-- A request that has settled has made a call, or makes none. -/
theorem called_of_settled (h : Serializes S view s w settled inputs J) (hv : Reach S s v) (hvw : Steps S v w)
    {j : ℕ} {th : Thread Req Call Resp Reply} (hj : v.Has j th) (hsettled : settled th.prog)
    {e : Event σ Call Input} (he : e ∈ w.log) (htid : e.tid = j) : ∃ e' ∈ v.log, e'.tid = j := by
  have hfollows := hv.follows hj
  rcases hown : v.own j with _ | ⟨e', es⟩
  · -- it has settled at its arrival
    rw [hown] at hfollows
    rw [hfollows.eq_of_nil] at hsettled
    obtain ⟨a, ha⟩ := h.settled_ret hsettled
    obtain ⟨q, hq⟩ := Steps.thread hvw hj
    have hlater := Reach.follows (Relation.ReflTransGen.trans hv hvw) hq
    rw [ha] at hlater
    have hnone : e ∈ w.own j := World.mem_own.mpr ⟨he, htid⟩
    rw [(follows_ret.mp hlater).1] at hnone
    cases hnone
  · exact ⟨e', World.mem_of_own hown (List.mem_cons_self ..)⟩

/-- A request that makes a call now does not precede one that has made a call before. -/
theorem not_precedes {e₀ : Event σ Call Input} (hpre : v.log ++ [e₀] <+: w.log) {j : ℕ}
    (hj : ∃ e ∈ v.log, e.tid = j) : ¬ w.Precedes e₀.tid j := by
  rintro ⟨l, l', hlog, -, hl', hl, -⟩
  obtain ⟨e, he, htid⟩ := hj
  obtain ⟨rest, hrest⟩ := hpre
  rcases List.append_eq_append_iff.mp (hrest.trans hlog) with ⟨m, rfl, -⟩ | ⟨m, hm, rfl⟩
  · exact hl e (by simp [he]) htid
  · -- the cut is before the call that is made now
    rcases List.eq_nil_or_concat m with rfl | ⟨m', e', rfl⟩
    · rw [List.append_nil] at hm
      exact hl e (hm ▸ List.mem_append_left _ he) htid
    · rw [List.concat_eq_append, ← List.append_assoc] at hm
      obtain ⟨-, he'⟩ := List.append_inj' hm rfl
      refine hl' e₀ ?_ rfl
      rw [← List.singleton_inj.mp he']
      simp

/-! ### The serial order -/

/-- Who has settled after an arrival. -/
theorem settled_arrive {r : Req} (i : ℕ) : (∃ th, (v.arrive S r).Has i th ∧ settled th.prog) ↔
    (∃ th, v.Has i th ∧ settled th.prog) ∨ (i = v.threads.length ∧ settled (S.start r)) := by
  simp only [World.has_arrive]
  constructor
  · rintro ⟨th, hth | ⟨hi, rfl⟩, hsettled⟩
    · exact .inl ⟨th, hth, hsettled⟩
    · exact .inr ⟨hi, hsettled⟩
  · rintro (⟨th, hth, hsettled⟩ | ⟨hi, hsettled⟩)
    · exact ⟨th, .inl hth, hsettled⟩
    · exact ⟨_, .inr ⟨hi, rfl⟩, hsettled⟩

/-- Who has settled after a call. -/
theorem settled_exec {i : ℕ} {r : Req} {c : Call} {k : Reply c → Prog Call Reply Resp} (hi : v.Has i ⟨r, .call c k⟩)
    (x : Input) (j : ℕ) : (∃ th, (v.exec S i r c k x).Has j th ∧ settled th.prog) ↔
      (j ≠ i ∧ ∃ th, v.Has j th ∧ settled th.prog) ∨ (j = i ∧ settled (k (S.exec c x v.db).1)) := by
  simp only [World.has_exec hi]
  constructor
  · rintro ⟨th, ⟨hj, rfl⟩ | ⟨hj, hth⟩, hsettled⟩
    · exact .inr ⟨hj, hsettled⟩
    · exact .inl ⟨hj, th, hth, hsettled⟩
  · rintro (⟨hj, th, hth, hsettled⟩ | ⟨hj, hsettled⟩)
    · exact ⟨th, .inr ⟨hj, hth⟩, hsettled⟩
    · exact ⟨_, .inl ⟨hj, rfl⟩, hsettled⟩

variable (S view s w settled inputs J) in
/-- The requests that have settled in `v`, in an order in which they can be served one after the other. -/
structure Order (v : World σ Req Call Input Resp Reply) (order : List ℕ) : Prop where
  nodup : order.Nodup
  mem : ∀ i, i ∈ order ↔ ∃ th, v.Has i th ∧ settled th.prog
  pairs : order.Pairwise fun i j => ¬ w.Precedes j i
  served : view ((World.init s).serveAll S (w.requests inputs order)).db = view v.db
  keeps : J order ((World.init s).serveAll S (w.requests inputs order))

variable {v' : World σ Req Call Input Resp Reply} {order : List ℕ}

/-- No request settles. -/
theorem Order.same (ho : Order S view s w settled inputs J v order) (hview : view v'.db = view v.db)
    (hmem : ∀ i, (∃ th, v'.Has i th ∧ settled th.prog) ↔ ∃ th, v.Has i th ∧ settled th.prog) :
    Order S view s w settled inputs J v' order :=
  ⟨ho.nodup, fun i => (ho.mem i).trans (hmem i).symm, ho.pairs, ho.served.trans hview.symm, ho.keeps⟩

/-- One more request settles. -/
theorem Order.concat (ho : Order S view s w settled inputs J v order) {i : ℕ} {r : Req} {q : Prog Call Reply Resp}
    (hfresh : i ∉ order) (hq : w.Has i ⟨r, q⟩)
    (hmem : ∀ j, (∃ th, v'.Has j th ∧ settled th.prog) ↔ (∃ th, v.Has j th ∧ settled th.prog) ∨ j = i)
    (hlast : ∀ j ∈ order, ¬ w.Precedes i j)
    (hserve : ∀ {V : World σ Req Call Input Resp Reply}, view V.db = view v.db → J order V →
      view (V.serve S r (inputs i)).db = view v'.db ∧ J (order ++ [i]) (V.serve S r (inputs i))) :
    Order S view s w settled inputs J v' (order ++ [i]) := by
  have hlater : (World.init s).serveAll S (w.requests inputs (order ++ [i])) =
      ((World.init s).serveAll S (w.requests inputs order)).serve S r (inputs i) := by
    rw [World.requests_concat hq, World.serveAll_concat]
  obtain ⟨hview, hJ⟩ := hserve ho.served ho.keeps
  rw [← hlater] at hview hJ
  refine ⟨?_, fun j => ?_, ?_, hview, hJ⟩
  · exact List.nodup_append.mpr ⟨ho.nodup, List.nodup_singleton i, fun a ha b hb heq =>
      hfresh (List.mem_singleton.mp hb ▸ heq ▸ ha)⟩
  · rw [List.mem_append, List.mem_singleton, ho.mem, hmem]
  · refine List.pairwise_append.mpr ⟨ho.pairs, List.pairwise_singleton .., fun j hj i' hi' => ?_⟩
    exact List.mem_singleton.mp hi' ▸ hlast j hj

theorem order_arrive (h : Serializes S view s w settled inputs J) (ho : Order S view s w settled inputs J v order)
    (hv : Reach S s v) {r : Req} (hvw : Steps S (v.arrive S r) w) :
    ∃ order, Order S view s w settled inputs J (v.arrive S r) order := by
  by_cases hsettled : settled (S.start r)
  · have hfresh : v.threads.length ∉ order := by
      intro hin
      obtain ⟨th, hth, -⟩ := (ho.mem _).mp hin
      exact lt_irrefl _ hth.lt
    obtain ⟨q, hq⟩ := Steps.thread hvw (World.has_arrive.mpr (.inr ⟨rfl, rfl⟩))
    refine ⟨_, ho.concat hfresh hq (fun j => ?_) ?_ fun hview hJ => h.arrive hv hvw hsettled hfresh hview hJ⟩
    · rw [settled_arrive]
      simp only [hsettled, and_true]
    · -- the new request makes no call
      rintro j - ⟨l, l', hlog, ⟨e, he, htid⟩, -⟩
      obtain ⟨a, ha⟩ := h.settled_ret hsettled
      have hnone := Reach.follows (Relation.ReflTransGen.trans hv (.head (.arrive v r) hvw)) hq
      rw [ha] at hnone
      have hown : e ∈ w.own v.threads.length := World.mem_own.mpr ⟨hlog ▸ List.mem_append_left _ he, htid⟩
      rw [(follows_ret.mp hnone).1] at hown
      cases hown
  · refine ⟨order, ho.same rfl fun i => ?_⟩
    rw [settled_arrive]
    simp only [hsettled, and_false, or_false]

theorem order_call (h : Serializes S view s w settled inputs J) (ho : Order S view s w settled inputs J v order)
    (hv : Reach S s v) {i : ℕ} {r : Req} {c : Call} {k : Reply c → Prog Call Reply Resp} {x : Input}
    (hi : v.Has i ⟨r, .call c k⟩) (hvw : Steps S (v.exec S i r c k x) w) :
    ∃ order, Order S view s w settled inputs J (v.exec S i r c k x) order := by
  have hbefore : (∃ th, v.Has i th ∧ settled th.prog) ↔ settled (.call c k) := by
    constructor
    · rintro ⟨th, hth, hsettled⟩
      obtain rfl := hth.unique hi
      exact hsettled
    · exact fun hsettled => ⟨_, hi, hsettled⟩
  rcases h.call hv hi hvw with ⟨hquiet, hsame, hafter⟩ | ⟨hnot, hsettled, hcommit⟩
  · refine ⟨order, ho.same hsame fun j => ?_⟩
    rw [settled_exec hi]
    by_cases hj : j = i
    · subst hj
      simp only [ne_eq, not_true_eq_false, false_and, true_and, false_or, hbefore]
      exact ⟨fun hk => hquiet.resolve_right fun hno => hno hk, hafter⟩
    · simp only [ne_eq, hj, not_false_eq_true, true_and, false_and, or_false]
  · have hfresh : i ∉ order := fun hmem => hnot (hbefore.mp ((ho.mem i).mp hmem))
    obtain ⟨q, hq⟩ := Steps.thread (.head (.call hi x) hvw) hi
    refine ⟨_, ho.concat hfresh hq (fun j => ?_) (fun j hj => ?_) fun hview hJ => hcommit hfresh hview hJ⟩
    · rw [settled_exec hi]
      by_cases hj : j = i
      · simp only [hj, hsettled, and_self, or_true]
      · simp only [ne_eq, hj, not_false_eq_true, true_and, false_and, or_false]
    · rintro ⟨l, l', hlog, hfirst, hl', hl, e, he, htid⟩
      obtain ⟨th, hth, hsettled'⟩ := (ho.mem j).mp hj
      have hcalled := h.called_of_settled hv (.head (.call hi x) hvw) hth hsettled'
        (hlog ▸ List.mem_append_right _ he) htid
      have hpre : v.log ++ [⟨i, c, x, v.db⟩] <+: w.log := Steps.log_mono hvw
      exact not_precedes hpre hcalled ⟨l, l', hlog, hfirst, hl', hl, e, he, htid⟩

/-- **Serial order.** -/
theorem serial (h : Serializes S view s w settled inputs J) (hw : Reach S s w) : ∃ order : List ℕ,
    order.Nodup ∧ (∀ i, i ∈ order ↔ ∃ th, w.Has i th ∧ settled th.prog) ∧
    order.Pairwise (fun i j => ¬ w.Precedes j i) ∧
    view ((World.init s).serveAll S (w.requests inputs order)).db = view w.db ∧
    J order ((World.init s).serveAll S (w.requests inputs order)) := by
  have horder : ∃ order, Order S view s w settled inputs J w order := by
    refine Steps.inv hw (H := fun v => Steps S v w) (I := fun v => ∃ order, Order S view s w settled inputs J v order)
      (fun hs hvw => .head hs hvw) ?_ ?_ .refl
    · exact fun _ => ⟨[], .nil, by simp [World.Has, World.init], .nil, rfl, h.init⟩
    · rintro v v' hv hs hvw ⟨order, ho⟩
      cases hs with
      | arrive r => exact h.order_arrive ho hv hvw
      | call hi x => exact h.order_call ho hv hi hvw
  obtain ⟨order, ho⟩ := horder
  exact ⟨order, ho.nodup, ho.mem, ho.pairs, ho.served, ho.keeps⟩

end Serializes

end Atomic
