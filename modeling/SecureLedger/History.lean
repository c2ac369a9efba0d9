import SecureLedger.Stages

/-!
# History — what the task service is for, without tables

The abstract state is the list of changes that took effect, oldest first.  A task has the owner and
the time of its creation, and for every other field the last value that its creation or one of its
updates supplied (`History.current`); the tasks there are, are those created and not deleted since
(`History.tasks`).  `History.serve` says which requests take effect and how the others are refused.
-/

namespace SecureLedger

variable {Time : Type}

/-- A change that took effect. -/
inductive Change (Time : Type) where
  | created (id owner : String) (input : CreateTask) (now : Time)
  | updated (id : String) (input : UpdateTask) (now : Time)
  | deleted (id : String)
  deriving DecidableEq

namespace Change

/-- The task a change is about. -/
def id : Change Time → String
  | created id .. => id
  | updated id .. => id
  | deleted id => id

/-! The values a change supplies. -/

def title : Change Time → Option String
  | created _ _ input _ => some input.title
  | updated _ input _ => input.title
  | deleted _ => none

def description : Change Time → Option String
  | created _ _ input _ => some input.description
  | updated _ input _ => input.description
  | deleted _ => none

def status : Change Time → Option TaskStatus
  | created _ _ input _ => input.status
  | updated _ input _ => input.status
  | deleted _ => none

def time : Change Time → Option Time
  | created _ _ _ now => some now
  | updated _ _ now => some now
  | deleted _ => none

end Change

/-- Changes, oldest first. -/
abbrev History (Time : Type) := List (Change Time)

namespace History

/-- The last value that the changes of task `id` supply. -/
def last {α : Type} (f : Change Time → Option α) (id : String) (h : History Time) (default : α) : α :=
  ((h.filter (·.id = id)).filterMap f).getLast?.getD default

/-- Task `id`, created by `owner` at `now`, after the changes `h` since its creation. -/
def current (id owner : String) (now : Time) (h : History Time) : Task Time where
  id := id
  title := Str.trim (last Change.title id h "")
  description := last Change.description id h ""
  status := last Change.status id h .todo
  owner := owner
  createdAt := now
  updatedAt := last Change.time id h now

def deletedIds (h : History Time) : List String :=
  h.filterMap fun
    | .deleted id => some id
    | _ => none

/-- The tasks created and not deleted since, in creation order. -/
def tasks : History Time → List (Task Time)
  | [] => []
  | .created id owner input now :: h =>
    if id ∈ deletedIds h then tasks h
    else current id owner now (.created id owner input now :: h) :: tasks h
  | .updated .. :: h => tasks h
  | .deleted _ :: h => tasks h

def task (h : History Time) (id : String) : Option (Task Time) := h.tasks.find? (·.id = id)

/-- The tasks as `ORDER BY created_at DESC` lists them. -/
def newest (C : Chrono Time) (h : History Time) : List (Task Time) :=
  h.tasks.insertionSort fun a b => C.toRfc3339 b.createdAt ≤ C.toRfc3339 a.createdAt

end History

/-! ### Requests -/

/-- What becomes of a request.  `outside` is everything that is not an accepted request on tasks:
other routes, and requests an extractor refuses. -/
inductive Verdict where
  | invalid
  | notFound
  | forbidden
  | created (id : String)
  | found (id : String)
  | updated (id : String)
  | deleted (id : String)
  | listed (limit offset : ℕ)
  | outside
  deriving DecidableEq, Repr

/-- The request takes effect. -/
def Verdict.Writes : Verdict → Prop
  | created _ | updated _ | deleted _ => True
  | _ => False

/-- The response to a request with this verdict, `h` being the history after it. -/
def Verdict.Answers (C : Chrono Time) (h : History Time) (r : Response Time) : Verdict → Prop
  | invalid => r.status = 400
  | notFound => r.status = 404
  | forbidden => r.status = 403
  | created id => ∃ task, h.task id = some task ∧ r = ⟨201, .task task⟩
  | found id => ∃ task, h.task id = some task ∧ r = ⟨200, .task task⟩
  | updated id => ∃ task, h.task id = some task ∧ r = ⟨200, .task task⟩
  | deleted id => h.task id = none ∧ r = ⟨204, .empty⟩
  | listed limit offset => r = ⟨200, .tasks (((h.newest C).drop offset).take limit)⟩
  | outside => True

namespace History

variable (h : History Time) (user : AuthUser)

def get (id : String) : Verdict × History Time :=
  match h.task id with
  | none => (.notFound, h)
  | some _ => (.found id, h)

/-- The new task gets the id `id`, at `now`. -/
def create (input : CreateTask) (id : String) (now : Time) : Verdict × History Time :=
  match input.validate with
  | .error _ => (.invalid, h)
  | .ok _ => (.created id, h ++ [.created id user.username input now])

def update (id : String) (input : UpdateTask) (now : Time) : Verdict × History Time :=
  match input.validate with
  | .error _ => (.invalid, h)
  | .ok _ =>
    match h.task id with
    | none => (.notFound, h)
    | some task =>
      if MayModify user task.owner then (.updated id, h ++ [.updated id input now])
      else (.forbidden, h)

def delete (id : String) : Verdict × History Time :=
  match h.task id with
  | none => (.notFound, h)
  | some task =>
    if MayModify user task.owner then (.deleted id, h ++ [.deleted id]) else (.forbidden, h)

/-- How many tasks a page has: what the request says, between 1 and 500, and 50 if it says nothing. -/
def pageLimit : Option ℤ → ℕ
  | none => 50
  | some n => if n < 1 then 1 else if 500 < n then 500 else n.toNat

/-- How many tasks a page leaves out: what the request says, and none if it says nothing or less. -/
def pageOffset : Option ℤ → ℕ
  | none => 0
  | some n => if n < 0 then 0 else n.toNat

variable (C : Crates Time) (state : AppState)

/-- What becomes of a request, and the history after it.  The INSERT of a creation is its first
call, the UPDATE of an update its second. -/
def serve (a : Arrival Time) (xs : ℕ → Input Time) : Verdict × History Time :=
  match a.authUser C state, a.op with
  | .ok _, .getTask (.ok id) => h.get id
  | .ok _, .listTasks (.ok p) => (.listed (pageLimit p.limit) (pageOffset p.offset), h)
  | .ok user, .createTask (.ok input) => h.create user input (xs 0).uuid (xs 0).now
  | .ok user, .updateTask (.ok id) (.ok input) => h.update user id input (xs 1).now
  | .ok user, .deleteTask (.ok id) => h.delete user id
  | _, _ => (.outside, h)

/-- The history after requests served one after the other. -/
def serveAll (ts : List (Arrival Time × (ℕ → Input Time))) : History Time :=
  ts.foldl (fun h t => (h.serve C state t.1 t.2).2) h

@[simp] theorem serveAll_concat (ts : List (Arrival Time × (ℕ → Input Time)))
    (t : Arrival Time × (ℕ → Input Time)) :
    h.serveAll C state (ts ++ [t]) = ((h.serveAll C state ts).serve C state t.1 t.2).2 := by
  simp [serveAll]

end History

/-! ### One more change -/

namespace History

variable {h : History Time} {id : String}

theorem task_id {task : Task Time} (ht : h.task id = some task) : task.id = id := by
  unfold History.task at ht
  simpa using List.find?_some ht

theorem last_concat {α : Type} (f : Change Time → Option α) (h : History Time) (c : Change Time)
    (default : α) : last f id (h ++ [c]) default =
      if c.id = id then (f c).getD (last f id h default) else last f id h default := by
  by_cases hc : c.id = id
  · cases hf : f c <;> simp [last, hc, hf]
  · simp [last, hc]

@[simp] theorem current_id {owner : String} {now : Time} : (current id owner now h).id = id := rfl

/-- A change of another task. -/
theorem current_concat_ne {owner : String} {now : Time} {c : Change Time} (hc : c.id ≠ id) :
    current id owner now (h ++ [c]) = current id owner now h := by
  simp [current, last_concat, hc]

/-- What an update supplies replaces what was there. -/
theorem current_concat_updated {owner : String} {now t : Time} {input : UpdateTask} :
    current id owner now (h ++ [.updated id input t]) =
      Db.mergeTask (current id owner now h) input t := by
  obtain ⟨title, description, status⟩ := input
  simp only [current, last_concat, Change.id, Change.title, Change.description, Change.status,
    Change.time, if_true, Db.mergeTask, Option.getD_some, Task.mk.injEq, true_and, and_true]
  cases title <;> rfl

@[simp] theorem deletedIds_concat_created {id' owner : String} {input : CreateTask} {now : Time} :
    deletedIds (h ++ [.created id' owner input now]) = deletedIds h := by
  simp [deletedIds]

@[simp] theorem deletedIds_concat_updated {id' : String} {input : UpdateTask} {now : Time} :
    deletedIds (h ++ [.updated id' input now]) = deletedIds h := by
  simp [deletedIds]

@[simp] theorem deletedIds_concat_deleted {id' : String} :
    deletedIds (h ++ [.deleted id']) = deletedIds h ++ [id'] := by
  simp [deletedIds]

/-- A creation under a free id appends its task. -/
theorem tasks_concat_created {owner : String} {input : CreateTask} {now : Time}
    (hfree : ∀ task ∈ h.tasks, task.id ≠ id) : tasks (h ++ [.created id owner input now]) =
      h.tasks ++ [current id owner now [.created id owner input now]] := by
  induction h with
  | nil => simp [tasks, deletedIds]
  | cons c h ih =>
    cases c with
    | created id' owner' input' now' =>
      by_cases hdel : id' ∈ deletedIds h
      · simp only [tasks, hdel, if_true] at hfree
        simpa [tasks, hdel] using ih hfree
      · simp only [tasks, hdel, if_false, List.mem_cons, forall_eq_or_imp] at hfree
        -- the head is alive, so its id is not the new one
        have hne : (Change.created id owner input now).id ≠ id' := fun he => hfree.1 he.symm
        have hcur : current id' owner' now' (.created id' owner' input' now' ::
            (h ++ [.created id owner input now])) = _ := current_concat_ne (h := _ :: h) hne
        simp only [List.cons_append, tasks, deletedIds_concat_created, hdel, if_false, ih hfree.2, hcur]
    | updated id' input' now' => exact ih hfree
    | deleted id' => exact ih hfree

/-- An update revises its task. -/
theorem tasks_concat_updated {input : UpdateTask} {t : Time} : tasks (h ++ [.updated id input t]) =
    h.tasks.map fun task => if task.id = id then Db.mergeTask task input t else task := by
  induction h with
  | nil => rfl
  | cons c h ih =>
    cases c with
    | created id' owner' input' now' =>
      by_cases hdel : id' ∈ deletedIds h
      · simpa [tasks, hdel] using ih
      · simp only [List.cons_append, tasks, deletedIds_concat_updated, hdel, if_false, ih,
          List.map_cons, List.cons.injEq, and_true]
        rw [← List.cons_append]
        by_cases hid : id' = id
        · subst hid
          rw [current_concat_updated, current_id, if_pos rfl]
        · rw [current_concat_ne fun he => hid he.symm, current_id, if_neg hid]
    | updated id' input' now' => exact ih
    | deleted id' => exact ih

/-- A deletion removes its task. -/
theorem tasks_concat_deleted : tasks (h ++ [.deleted id]) = h.tasks.filter (·.id ≠ id) := by
  induction h with
  | nil => rfl
  | cons c h ih =>
    cases c with
    | created id' owner' input' now' =>
      by_cases hdel : id' ∈ deletedIds h
      · simpa [tasks, hdel] using ih
      · by_cases hid : id' = id
        · subst hid
          simp [tasks, hdel, ih]
        · simp only [List.cons_append, tasks, deletedIds_concat_deleted, List.mem_append, hdel,
            List.mem_singleton, hid, or_self, if_false, ih]
          rw [← List.cons_append, current_concat_ne fun he => hid he.symm,
            List.filter_cons_of_pos (by simp [hid])]
    | updated id' input' now' => exact ih
    | deleted id' => exact ih

/-- There is no task `id` exactly if every creation of it was followed by its deletion. -/
theorem task_eq_none : h.task id = none ↔ ∀ pre owner input now post,
    h = pre ++ .created id owner input now :: post → id ∈ deletedIds post := by
  unfold task
  rw [List.find?_eq_none]
  induction h with
  | nil => simp [tasks]
  | cons c h ih =>
    have hsplit : (∀ pre owner input now post, c :: h = pre ++ .created id owner input now :: post →
        id ∈ deletedIds post) ↔ (∀ owner input now, c = .created id owner input now →
          id ∈ deletedIds h) ∧ ∀ pre owner input now post,
            h = pre ++ .created id owner input now :: post → id ∈ deletedIds post := by
      constructor
      · intro hall
        refine ⟨fun owner input now hc => hall [] owner input now h (by rw [hc]; rfl), ?_⟩
        intro pre owner input now post hh
        exact hall (c :: pre) owner input now post (by rw [hh]; rfl)
      · rintro ⟨hhead, htail⟩ pre owner input now post hh
        cases pre with
        | nil =>
          obtain ⟨hc, rfl⟩ := List.cons_eq_cons.mp hh
          exact hhead _ _ _ hc
        | cons c' pre => exact htail pre owner input now post (List.cons_eq_cons.mp hh).2
    rw [hsplit, ← ih]
    cases c with
    | created id' owner' input' now' =>
      by_cases hdel : id' ∈ deletedIds h
      · simp only [tasks, hdel, if_true]
        refine ⟨fun hall => ⟨?_, hall⟩, And.right⟩
        rintro _ _ _ ⟨⟩
        exact hdel
      · simp only [tasks, hdel, if_false, List.mem_cons, forall_eq_or_imp]
        refine and_congr_left' ?_
        constructor
        · rintro hne _ _ _ ⟨⟩
          simp at hne
        · intro hall hid
          obtain rfl : id' = id := of_decide_eq_true hid
          exact hdel (hall _ _ _ rfl)
    | updated id' input' now' => simp [tasks]
    | deleted id' => simp [tasks]

end History

end SecureLedger
