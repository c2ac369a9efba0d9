import SecureLedger.Lib.Atomic
import SecureLedger.Lib.Lists

/-!
# Lib.Layer — a layer around a system of requests

A `Layer` sees each request before the system inside it does: it makes calls of its own (`before`),
answers the request itself or hands it on, and makes further calls when the answer comes back (`after`).
`Layer.around` is the system of both, over the two stores side by side.

* `Layer.project`: a run of both is a run of the system inside, with the same requests, in which those
  that were not handed on never get a call.
* `Layer.follows_start`: the calls of one request are those of `before`, then those of the system
  inside, then those of `after`; `Layer.stage` says the same of a request in a run.
* `Layer.trace`: the layer's store is what its own calls make of it, in their order.
-/

namespace Atomic

/-! ### Programs in a sum of calls -/

namespace Prog

variable {Call Own : Type} {Reply : Call → Type} {OwnReply : Own → Type} {α β : Type}

/-- Go on with the result. -/
def bind : Prog Call Reply α → (α → Prog Call Reply β) → Prog Call Reply β
  | .ret a, f => f a
  | .call c k, f => .call c fun x => (k x).bind f

/-- The program with its calls on the left of the sum. -/
def inside (OwnReply : Own → Type) : Prog Call Reply α → Prog (Call ⊕ Own) (Sum.elim Reply OwnReply) α
  | .ret a => .ret a
  | .call c k => .call (.inl c) fun x => (k x).inside OwnReply

/-- The program with its calls on the right of the sum. -/
def own (Reply : Call → Type) : Prog Own OwnReply α → Prog (Call ⊕ Own) (Sum.elim Reply OwnReply) α
  | .ret a => .ret a
  | .call o k => .call (.inr o) fun x => (k x).own Reply

@[simp] theorem bind_ret (p : Prog Call Reply α) : p.bind .ret = p := by
  induction p with
  | ret a => rfl
  | call c k ih => simp only [bind, ih]

end Prog

variable {σ ρ Req Req' Call Own Input OwnInput Resp : Type} {Reply : Call → Type} {OwnReply : Own → Type}

/-- What a layer does around the requests it hands on. -/
structure Layer (ρ Req Req' Own OwnInput Resp : Type) (OwnReply : Own → Type) where
  inner : Req' → Req
  /-- The layer's own answer, `none` if the request is handed on. -/
  before : Req' → Prog Own OwnReply (Option Resp)
  after : Req' → Resp → Prog Own OwnReply Resp
  exec : (o : Own) → OwnInput → ρ → OwnReply o × ρ

namespace Layer

variable (L : Layer ρ Req Req' Own OwnInput Resp OwnReply) (S : System σ Req Call Input Resp Reply)

/-- What is left to do when the system inside has answered. -/
def leave (r : Req') (a : Resp) : Prog (Call ⊕ Own) (Sum.elim Reply OwnReply) Resp := (L.after r a).own Reply

/-- What is left to do when the layer has decided. -/
def next (r : Req') (early : Option Resp) : Prog (Call ⊕ Own) (Sum.elim Reply OwnReply) Resp :=
  early.elim (((S.start (L.inner r)).inside OwnReply).bind (L.leave r)) .ret

/-- The system with the layer around it. -/
def around : System (σ × ρ) Req' (Call ⊕ Own) (Input × OwnInput) Resp (Sum.elim Reply OwnReply) where
  start r := ((L.before r).own Reply).bind (L.next S r)
  exec
    | .inl c, x, s => ((S.exec c x.1 s.1).1, ((S.exec c x.1 s.1).2, s.2))
    | .inr o, x, s => ((L.exec o x.2 s.2).1, (s.1, (L.exec o x.2 s.2).2))

/-- The layer's calls by themselves, in programs with any result. -/
def calls (α : Type) : System ρ (Prog Own OwnReply α) Own OwnInput α OwnReply := ⟨id, L.exec⟩

end Layer

/-! ### The two parts of a log -/

/-- The call of the system inside that an event is. -/
def Event.inside (e : Event (σ × ρ) (Call ⊕ Own) (Input × OwnInput)) : Option (Event σ Call Input) :=
  e.call.elim (fun c => some ⟨e.tid, c, e.input.1, e.before.1⟩) fun _ => none

/-- The call of the layer that an event is. -/
def Event.own (e : Event (σ × ρ) (Call ⊕ Own) (Input × OwnInput)) : Option (Event ρ Own OwnInput) :=
  e.call.elim (fun _ => none) fun o => some ⟨e.tid, o, e.input.2, e.before.2⟩

/-- The calls of the system inside. -/
def insideEvents (es : List (Event (σ × ρ) (Call ⊕ Own) (Input × OwnInput))) : List (Event σ Call Input) :=
  es.filterMap Event.inside

/-- The calls of the layer. -/
def ownEvents (es : List (Event (σ × ρ) (Call ⊕ Own) (Input × OwnInput))) : List (Event ρ Own OwnInput) :=
  es.filterMap Event.own

section Events

variable {es es' : List (Event (σ × ρ) (Call ⊕ Own) (Input × OwnInput))} {i : ℕ} {x : Input × OwnInput} {s : σ × ρ}

@[simp] theorem insideEvents_nil :
    insideEvents ([] : List (Event (σ × ρ) (Call ⊕ Own) (Input × OwnInput))) = [] := rfl

@[simp] theorem ownEvents_nil :
    ownEvents ([] : List (Event (σ × ρ) (Call ⊕ Own) (Input × OwnInput))) = [] := rfl

@[simp] theorem insideEvents_append : insideEvents (es ++ es') = insideEvents es ++ insideEvents es' :=
  List.filterMap_append

@[simp] theorem ownEvents_append : ownEvents (es ++ es') = ownEvents es ++ ownEvents es' :=
  List.filterMap_append

@[simp] theorem insideEvents_inl {c : Call} : insideEvents (⟨i, .inl c, x, s⟩ :: es) =
    ⟨i, c, x.1, s.1⟩ :: insideEvents es := rfl

@[simp] theorem insideEvents_inr {o : Own} : insideEvents (⟨i, .inr o, x, s⟩ :: es) = insideEvents es := rfl

@[simp] theorem ownEvents_inl {c : Call} : ownEvents (⟨i, .inl c, x, s⟩ :: es) = ownEvents es := rfl

@[simp] theorem ownEvents_inr {o : Own} : ownEvents (⟨i, .inr o, x, s⟩ :: es) =
    ⟨i, o, x.2, s.2⟩ :: ownEvents es := rfl

theorem Event.inside_tid {e : Event (σ × ρ) (Call ⊕ Own) (Input × OwnInput)} {e' : Event σ Call Input}
    (h : e.inside = some e') : e'.tid = e.tid := by
  obtain ⟨j, c | o, x, s⟩ := e
  · cases h; rfl
  · cases h

theorem Event.own_tid {e : Event (σ × ρ) (Call ⊕ Own) (Input × OwnInput)} {e' : Event ρ Own OwnInput}
    (h : e.own = some e') : e'.tid = e.tid := by
  obtain ⟨j, c | o, x, s⟩ := e
  · cases h
  · cases h; rfl

/-- The inside calls of one request. -/
theorem insideEvents_filter (es : List (Event (σ × ρ) (Call ⊕ Own) (Input × OwnInput))) (i : ℕ) :
    insideEvents (es.filter (·.tid = i)) = (insideEvents es).filter (·.tid = i) := by
  induction es with
  | nil => rfl
  | cons e es ih =>
    obtain ⟨j, c | o, x, s⟩ := e <;> by_cases hj : j = i <;> simp [hj, ih]

/-- The layer's calls for one request. -/
theorem ownEvents_filter (es : List (Event (σ × ρ) (Call ⊕ Own) (Input × OwnInput))) (i : ℕ) :
    ownEvents (es.filter (·.tid = i)) = (ownEvents es).filter (·.tid = i) := by
  induction es with
  | nil => rfl
  | cons e es ih =>
    obtain ⟨j, c | o, x, s⟩ := e <;> by_cases hj : j = i <;> simp [hj, ih]

end Events

namespace Layer

variable {L : Layer ρ Req Req' Own OwnInput Resp OwnReply} {S : System σ Req Call Input Resp Reply}

@[simp] theorem around_exec_inl (c : Call) (x : Input × OwnInput) (s : σ × ρ) :
    (L.around S).exec (.inl c) x s = ((S.exec c x.1 s.1).1, ((S.exec c x.1 s.1).2, s.2)) := rfl

@[simp] theorem around_exec_inr (o : Own) (x : Input × OwnInput) (s : σ × ρ) :
    (L.around S).exec (.inr o) x s = ((L.exec o x.2 s.2).1, (s.1, (L.exec o x.2 s.2).2)) := rfl

/-! ### Where a request stands -/

variable (L S) in
/-- `Stands r p q`: the request `r`, being at `p`, is at `q` in the system inside. -/
inductive Stands (r : Req') : Prog (Call ⊕ Own) (Sum.elim Reply OwnReply) Resp → Prog Call Reply Resp → Prop
  | before (b : Prog Own OwnReply (Option Resp)) :
      Stands r ((b.own Reply).bind (L.next S r)) (S.start (L.inner r))
  | inside (q : Prog Call Reply Resp) : Stands r ((q.inside OwnReply).bind (L.leave r)) q
  | after (b : Prog Own OwnReply Resp) (a : Resp) : Stands r (b.own Reply) (.ret a)

theorem own_ne_inl {b : Prog Own OwnReply Resp} {c : Call}
    {k : Reply c → Prog (Call ⊕ Own) (Sum.elim Reply OwnReply) Resp} :
    b.own Reply ≠ .call (.inl c) k := by
  intro h
  cases b <;> cases h

/-- A request is before the layer's decision, at a call inside, behind it, or answered. -/
theorem Stands.position {r : Req'} {p : Prog (Call ⊕ Own) (Sum.elim Reply OwnReply) Resp}
    {q : Prog Call Reply Resp} (h : L.Stands S r p q) : (∃ (b : Prog Own OwnReply (Option Resp)) (o : Own)
      (kb : OwnReply o → Prog Own OwnReply (Option Resp)), b = .call o kb ∧
        p = (b.own Reply).bind (L.next S r) ∧ q = S.start (L.inner r)) ∨
    (p = (q.inside OwnReply).bind (L.leave r) ∧ ∃ c k, q = .call c k) ∨
    (∃ a b, q = .ret a ∧ p = Prog.own Reply b) ∨ ∃ a, p = .ret a := by
  have hinside : ∀ q : Prog Call Reply Resp, (∃ c k, q = .call c k) ∨
      ∃ a b, q = .ret a ∧ (q.inside OwnReply).bind (L.leave r) = Prog.own Reply b := by
    intro q
    cases q with
    | ret a => exact .inr ⟨a, L.after r a, rfl, rfl⟩
    | call c k => exact .inl ⟨c, k, rfl⟩
  cases h with
  | before b =>
    rcases b with (_ | a) | ⟨o, kb⟩
    · rcases hinside (S.start (L.inner r)) with hcall | hret
      · exact .inr (.inl ⟨rfl, hcall⟩)
      · exact .inr (.inr (.inl hret))
    · exact .inr (.inr (.inr ⟨a, rfl⟩))
    · exact .inl ⟨_, o, kb, rfl, rfl, rfl⟩
  | inside q =>
    rcases hinside q with hcall | hret
    · exact .inr (.inl ⟨rfl, hcall⟩)
    · exact .inr (.inr (.inl hret))
  | after b a => exact .inr (.inr (.inl ⟨a, b, rfl, rfl⟩))

/-- A call of the system inside is its next call there as well. -/
theorem Stands.inl {r : Req'} {c : Call} {k : Reply c → Prog (Call ⊕ Own) (Sum.elim Reply OwnReply) Resp}
    {q : Prog Call Reply Resp} (h : L.Stands S r (.call (.inl c) k) q) :
    ∃ k', q = .call c k' ∧ ∀ x, L.Stands S r (k x) (k' x) := by
  rcases h.position with ⟨b, o, kb, rfl, hp, -⟩ | ⟨hp, c', k', rfl⟩ | ⟨a, b, rfl, hp⟩ | ⟨a, hp⟩
  · cases hp
  · cases hp
    exact ⟨k', rfl, fun x => .inside (k' x)⟩
  · exact (own_ne_inl hp.symm).elim
  · cases hp

/-- A call of the layer is none of the system inside. -/
theorem Stands.inr {r : Req'} {o : Own} {k : OwnReply o → Prog (Call ⊕ Own) (Sum.elim Reply OwnReply) Resp}
    {q : Prog Call Reply Resp} (h : L.Stands S r (.call (.inr o) k) q) (x : OwnReply o) :
    L.Stands S r (k x) q := by
  rcases h.position with ⟨b, o', kb, rfl, hp, rfl⟩ | ⟨hp, c', k', rfl⟩ | ⟨a, b, rfl, hp⟩ | ⟨a, hp⟩
  · cases hp
    exact .before (kb x)
  · cases hp
  · cases b with
    | ret a' => cases hp
    | call o' kb => cases hp; exact .after (kb x) a
  · cases hp

/-! ### Runs of both are runs of the system inside -/

variable (L) in
/-- `v` is what the world `w` is for the system inside. -/
structure Shadow (S : System σ Req Call Input Resp Reply)
    (w : World (σ × ρ) Req' (Call ⊕ Own) (Input × OwnInput) Resp (Sum.elim Reply OwnReply))
    (v : World σ Req Call Input Resp Reply) : Prop where
  db : v.db = w.db.1
  log : v.log = insideEvents w.log
  length : v.threads.length = w.threads.length
  stands : ∀ {i th}, w.Has i th → ∃ q, v.Has i ⟨L.inner th.req, q⟩ ∧ L.Stands S th.req th.prog q

variable {w w' : World (σ × ρ) Req' (Call ⊕ Own) (Input × OwnInput) Resp (Sum.elim Reply OwnReply)}
  {v : World σ Req Call Input Resp Reply}

/-- What an arrival does inside. -/
theorem Shadow.arrive (h : L.Shadow S w v) (r : Req') :
    L.Shadow S (w.arrive (L.around S) r) (v.arrive S (L.inner r)) where
  db := h.db
  log := h.log
  length := by simp [World.arrive, h.length]
  stands := by
    intro i th hi
    rcases World.has_arrive.mp hi with hi | ⟨rfl, rfl⟩
    · obtain ⟨q, hq, hstands⟩ := h.stands hi
      exact ⟨q, World.has_arrive.mpr (.inl hq), hstands⟩
    · exact ⟨_, World.has_arrive.mpr (.inr ⟨h.length.symm, rfl⟩), .before (L.before r)⟩

/-- A call of the layer does nothing inside. -/
theorem Shadow.own (h : L.Shadow S w v) {i : ℕ} {r : Req'} {o : Own}
    {k : OwnReply o → Prog (Call ⊕ Own) (Sum.elim Reply OwnReply) Resp}
    (hi : w.Has i ⟨r, .call (.inr o) k⟩) (x : Input × OwnInput) :
    L.Shadow S (w.exec (L.around S) i r (.inr o) k x) v where
  db := h.db
  log := by simp [World.exec, h.log]
  length := by simp [World.exec, h.length]
  stands := by
    intro j th hj
    rcases (World.has_exec hi).mp hj with ⟨rfl, rfl⟩ | ⟨-, hj⟩
    · obtain ⟨q, hq, hstands⟩ := h.stands hi
      exact ⟨q, hq, hstands.inr _⟩
    · exact h.stands hj

/-- A call of the system inside is a step there. -/
theorem Shadow.inner (h : L.Shadow S w v) {i : ℕ} {r : Req'} {c : Call}
    {k : Reply c → Prog (Call ⊕ Own) (Sum.elim Reply OwnReply) Resp}
    (hi : w.Has i ⟨r, .call (.inl c) k⟩) (x : Input × OwnInput) : ∃ k', v.Has i ⟨L.inner r, .call c k'⟩ ∧
      L.Shadow S (w.exec (L.around S) i r (.inl c) k x) (v.exec S i (L.inner r) c k' x.1) := by
  obtain ⟨q, hq, hstands⟩ := h.stands hi
  obtain ⟨k', rfl, hk⟩ := hstands.inl
  refine ⟨k', hq, ?_, ?_, ?_, ?_⟩
  · simp [World.exec, h.db]
  · simp [World.exec, h.log, h.db]
  · simp [World.exec, h.length]
  · intro j th hj
    rcases (World.has_exec hi).mp hj with ⟨rfl, rfl⟩ | ⟨hne, hj⟩
    · refine ⟨_, (World.has_exec hq).mpr (.inl ⟨rfl, rfl⟩), ?_⟩
      rw [around_exec_inl, h.db]
      exact hk _
    · obtain ⟨q', hq', hstands'⟩ := h.stands hj
      exact ⟨q', (World.has_exec hq).mpr (.inr ⟨hne, hq'⟩), hstands'⟩

/-- **Projection.**  A run of both is a run of the system inside, with the same requests under the same
numbers, the same calls in the same order and the same store. -/
theorem project {s : σ} {t : ρ} (h : Reach (L.around S) (s, t) w) : ∃ v, Reach S s v ∧ L.Shadow S w v := by
  induction h with
  | refl => exact ⟨World.init s, .refl, rfl, rfl, rfl, fun hi => by simp [World.init, World.Has] at hi⟩
  | tail _ hs ih =>
    obtain ⟨v, hv, hshadow⟩ := ih
    cases hs with
    | arrive r => exact ⟨_, hv.tail (.arrive v _), hshadow.arrive r⟩
    | @call i r c k hi x =>
      rcases c with c | o
      · obtain ⟨k', hi', hshadow'⟩ := hshadow.inner hi x
        exact ⟨_, hv.tail (.call hi' x.1), hshadow'⟩
      · exact ⟨v, hv, hshadow.own hi x⟩

theorem Shadow.own_eq (h : L.Shadow S w v) (i : ℕ) : v.own i = insideEvents (w.own i) := by
  rw [World.own, h.log, World.own, insideEvents_filter]

/-- A request is, in the system inside, where its inside calls have led it. -/
theorem Shadow.has (h : L.Shadow S w v) {s : σ} (hv : Reach S s v) {i : ℕ}
    {th : Thread Req' (Call ⊕ Own) Resp (Sum.elim Reply OwnReply)} (hi : w.Has i th) {q : Prog Call Reply Resp}
    (hq : Follows S (S.start (L.inner th.req)) (insideEvents (w.own i)) q) : v.Has i ⟨L.inner th.req, q⟩ := by
  obtain ⟨q', hq', -⟩ := h.stands hi
  have hfollows := hv.follows hq'
  rw [h.own_eq] at hfollows
  rwa [hq.unique hfollows]

/-! ### The calls of one request -/

variable {α : Type}

/-- A program whose calls are made in another system, with `part` the events that are its own: its calls come first,
and what follows them is what they lead to. -/
theorem follows_part {τ Q Q' C C' I I' E β : Type} {R : C → Type} {R' : C' → Type} {T : System τ Q C' I' β R'}
    {V : System σ Q' C I α R} {embed : Prog C R α → Prog C' R' α} {f : α → Prog C' R' β}
    {part : List (Event τ C' I') → List (Event σ C I)} {other : List (Event τ C' I') → List E}
    (hret : ∀ a, embed (.ret a) = .ret a) (hnil : part [] = [] ∧ other [] = [])
    (hcall : ∀ {c k es q}, Follows T ((embed (.call c k)).bind f) es q →
      (es = [] ∧ q = (embed (.call c k)).bind f) ∨
        ∃ e es' y, es = e :: es' ∧ Follows T ((embed (k y)).bind f) es' q ∧ ∀ l, other (e :: l) = other l ∧
          ∀ p', Follows V (k y) (part l) p' → Follows V (.call c k) (part (e :: l)) p')
    {p : Prog C R α} {es : List (Event τ C' I')} {q : Prog C' R' β} (h : Follows T ((embed p).bind f) es q) :
    (∃ p', Follows V p (part es) p' ∧ other es = [] ∧ q = (embed p').bind f) ∨
      ∃ a es₁ es₂, es = es₁ ++ es₂ ∧ Follows V p (part es₁) (.ret a) ∧ other es₁ = [] ∧ Follows T (f a) es₂ q := by
  induction p generalizing es with
  | ret a =>
    rw [hret] at h
    exact .inr ⟨a, [], es, rfl, hnil.1 ▸ .nil _, hnil.2, h⟩
  | call c k ih =>
    rcases hcall h with ⟨rfl, rfl⟩ | ⟨e, es', y, rfl, hrest, hpart⟩
    · exact .inl ⟨_, hnil.1 ▸ .nil _, hnil.2, rfl⟩
    · rcases ih _ hrest with ⟨p', hp', hother, hq⟩ | ⟨a, es₁, es₂, rfl, hp, hother, hq⟩
      · exact .inl ⟨p', (hpart es').2 p' hp', (hpart es').1.trans hother, hq⟩
      · exact .inr ⟨a, e :: es₁, es₂, rfl, (hpart es₁).2 _ hp, (hpart es₁).1.trans hother, hq⟩

/-- The layer's calls. -/
theorem follows_own {p : Prog Own OwnReply α}
    {f : α → Prog (Call ⊕ Own) (Sum.elim Reply OwnReply) Resp}
    {es : List (Event (σ × ρ) (Call ⊕ Own) (Input × OwnInput))}
    {q : Prog (Call ⊕ Own) (Sum.elim Reply OwnReply) Resp}
    (h : Follows (L.around S) ((p.own Reply).bind f) es q) :
    (∃ p', Follows (L.calls α) p (ownEvents es) p' ∧ insideEvents es = [] ∧ q = (p'.own Reply).bind f) ∨
      ∃ a es₁ es₂, es = es₁ ++ es₂ ∧ Follows (L.calls α) p (ownEvents es₁) (.ret a) ∧
        insideEvents es₁ = [] ∧ Follows (L.around S) (f a) es₂ q := by
  refine follows_part (fun a => rfl) ⟨rfl, rfl⟩ (fun {o k es q} h => ?_) h
  rcases follows_call.mp h with ⟨rfl, rfl⟩ | ⟨i, x, s, es', rfl, hrest⟩
  · exact .inl ⟨rfl, rfl⟩
  · exact .inr ⟨⟨i, .inr o, x, s⟩, es', _, rfl, hrest, fun l => ⟨rfl, fun p' hp' => .cons hp'⟩⟩

/-- The calls of the system inside. -/
theorem follows_inside {p : Prog Call Reply Resp}
    {f : Resp → Prog (Call ⊕ Own) (Sum.elim Reply OwnReply) Resp}
    {es : List (Event (σ × ρ) (Call ⊕ Own) (Input × OwnInput))}
    {q : Prog (Call ⊕ Own) (Sum.elim Reply OwnReply) Resp}
    (h : Follows (L.around S) ((p.inside OwnReply).bind f) es q) :
    (∃ p', Follows S p (insideEvents es) p' ∧ ownEvents es = [] ∧ q = (p'.inside OwnReply).bind f) ∨
      ∃ a es₁ es₂, es = es₁ ++ es₂ ∧ Follows S p (insideEvents es₁) (.ret a) ∧
        ownEvents es₁ = [] ∧ Follows (L.around S) (f a) es₂ q := by
  refine follows_part (fun a => rfl) ⟨rfl, rfl⟩ (fun {c k es q} h => ?_) h
  rcases follows_call.mp h with ⟨rfl, rfl⟩ | ⟨i, x, s, es', rfl, hrest⟩
  · exact .inl ⟨rfl, rfl⟩
  · exact .inr ⟨⟨i, .inl c, x, s⟩, es', _, rfl, hrest, fun l => ⟨rfl, fun p' hp' => .cons hp'⟩⟩

/-- The calls that are left when the system inside has answered. -/
theorem follows_leave {r : Req'} {a : Resp} {es : List (Event (σ × ρ) (Call ⊕ Own) (Input × OwnInput))}
    {q : Prog (Call ⊕ Own) (Sum.elim Reply OwnReply) Resp} (h : Follows (L.around S) (L.leave r a) es q) :
    ∃ p', Follows (L.calls Resp) (L.after r a) (ownEvents es) p' ∧ insideEvents es = [] ∧
      q = p'.own Reply := by
  have h' : Follows (L.around S) (((L.after r a).own Reply).bind .ret) es q := by
    rw [Prog.bind_ret]
    exact h
  rcases follows_own h' with ⟨p', hp', hin, hq⟩ | ⟨b, es₁, es₂, rfl, hp, hin, hq⟩
  · exact ⟨p', hp', hin, by rw [hq, Prog.bind_ret]⟩
  · obtain ⟨rfl, rfl⟩ := follows_ret.mp hq
    exact ⟨.ret b, by rwa [List.append_nil], by rwa [List.append_nil], rfl⟩

variable (L S) in
/-- The stages of a request `r` of the layered system, by the calls it has made and where it stands. -/
inductive Stage (r : Req') (es : List (Event (σ × ρ) (Call ⊕ Own) (Input × OwnInput))) :
    Prog (Call ⊕ Own) (Sum.elim Reply OwnReply) Resp → Prop
  /-- The layer has not decided yet. -/
  | deciding (b : Prog Own OwnReply (Option Resp)) (hb : Follows (L.calls _) (L.before r) (ownEvents es) b)
      (hin : insideEvents es = []) : Stage r es ((b.own Reply).bind (L.next S r))
  /-- The layer has answered. -/
  | refused (a : Resp) (hb : Follows (L.calls _) (L.before r) (ownEvents es) (.ret (some a)))
      (hin : insideEvents es = []) : Stage r es (.ret a)
  /-- Handed on. -/
  | handed (q : Prog Call Reply Resp) (hb : Follows (L.calls _) (L.before r) (ownEvents es) (.ret none))
      (hin : Follows S (S.start (L.inner r)) (insideEvents es) q) :
      Stage r es ((q.inside OwnReply).bind (L.leave r))
  /-- The system inside has answered. -/
  | leaving (a : Resp) (es₁ es₂ : List (Event ρ Own OwnInput)) (b : Prog Own OwnReply Resp)
      (hown : ownEvents es = es₁ ++ es₂) (hb : Follows (L.calls _) (L.before r) es₁ (.ret none))
      (hin : Follows S (S.start (L.inner r)) (insideEvents es) (.ret a))
      (ha : Follows (L.calls _) (L.after r a) es₂ b) : Stage r es (b.own Reply)

/-- **The calls of one request**: those of `before`, those inside, those of `after`. -/
theorem follows_start {r : Req'} {es : List (Event (σ × ρ) (Call ⊕ Own) (Input × OwnInput))}
    {p : Prog (Call ⊕ Own) (Sum.elim Reply OwnReply) Resp}
    (h : Follows (L.around S) ((L.around S).start r) es p) : L.Stage S r es p := by
  rcases follows_own h with ⟨b, hb, hin, rfl⟩ | ⟨early, es₁, es₂, rfl, hb, hin, h₂⟩
  · exact .deciding b hb hin
  · rcases early with _ | a
    · rcases follows_inside h₂ with ⟨q, hq, hown, rfl⟩ | ⟨a, es₃, es₄, rfl, hq, hown, h₄⟩
      · exact .handed q (by simpa [hown] using hb) (by simpa [hin] using hq)
      · obtain ⟨b, hafter, hin', rfl⟩ := follows_leave h₄
        refine .leaving a (ownEvents es₁) (ownEvents es₄) b ?_ hb ?_ hafter
        · simp [hown]
        · simpa [hin, hin'] using hq
    · obtain ⟨rfl, rfl⟩ := follows_ret.mp h₂
      exact .refused a (by simpa using hb) (by simpa using hin)

/-- Every request of a run is in one of the stages. -/
theorem stage {s : σ} {t : ρ} (h : Reach (L.around S) (s, t) w) {i : ℕ}
    {th : Thread Req' (Call ⊕ Own) Resp (Sum.elim Reply OwnReply)} (hi : w.Has i th) :
    L.Stage S th.req (w.own i) th.prog := follows_start (h.follows hi)

end Layer

/-! ### The store, call by call -/

/-- `Trace exec s es s'`: the calls `es` lead from the store `s` to `s'`. -/
def Trace (exec : (c : Call) → Input → σ → Reply c × σ) : σ → List (Event σ Call Input) → σ → Prop
  | s, [], s' => s' = s
  | s, e :: es, s' => e.before = s ∧ Trace exec (exec e.call e.input s).2 es s'

theorem Trace.snoc {exec : (c : Call) → Input → σ → Reply c × σ} {s s' : σ} {es : List (Event σ Call Input)}
    (h : Trace exec s es s') (i : ℕ) (c : Call) (x : Input) :
    Trace exec s (es ++ [⟨i, c, x, s'⟩]) (exec c x s').2 := by
  induction es generalizing s with
  | nil => cases h; exact ⟨rfl, rfl⟩
  | cons e es ih => exact ⟨h.1, ih h.2⟩

/-- **The layer's store** is what its own calls make of it. -/
theorem Layer.trace {L : Layer ρ Req Req' Own OwnInput Resp OwnReply} {S : System σ Req Call Input Resp Reply}
    {w : World (σ × ρ) Req' (Call ⊕ Own) (Input × OwnInput) Resp (Sum.elim Reply OwnReply)} {s : σ} {t : ρ}
    (h : Reach (L.around S) (s, t) w) : Trace L.exec t (ownEvents w.log) w.db.2 := by
  refine Reach.log_inv h (H := fun _ => True) (I := fun db log => Trace L.exec t (ownEvents log) db.2)
    (fun _ _ => trivial) rfl ?_ trivial
  intro w i r c k _ _ x _ ih
  rcases c with c | o
  · simpa using ih
  · simpa using ih.snoc i o x.2

/-! ### Counting by request -/

/-- The calls of a run are those of its requests. -/
theorem Reach.countP_log {S : System σ Req Call Input Resp Reply} {v : World σ Req Call Input Resp Reply} {s : σ}
    (h : Reach S s v) (p : Event σ Call Input → Bool) :
    v.log.countP p = ∑ i ∈ Finset.range v.threads.length, (v.own i).countP p :=
  Lists.countP_eq_sum Event.tid p h.tid_lt

/-- The layer's calls of a run are those for its requests. -/
theorem Layer.countP_own {L : Layer ρ Req Req' Own OwnInput Resp OwnReply} {S : System σ Req Call Input Resp Reply}
    {w : World (σ × ρ) Req' (Call ⊕ Own) (Input × OwnInput) Resp (Sum.elim Reply OwnReply)} {s : σ} {t : ρ}
    (h : Reach (L.around S) (s, t) w) (p : Event ρ Own OwnInput → Bool) :
    (ownEvents w.log).countP p = ∑ i ∈ Finset.range w.threads.length, (ownEvents (w.own i)).countP p := by
  have hlt : ∀ e ∈ ownEvents w.log, e.tid < w.threads.length := by
    intro e he
    obtain ⟨e₀, he₀, hown⟩ := List.mem_filterMap.mp he
    rw [Event.own_tid hown]
    exact h.tid_lt e₀ he₀
  rw [Lists.countP_eq_sum Event.tid p hlt]
  exact Finset.sum_congr rfl fun i _ => by rw [World.own, ownEvents_filter]

end Atomic
