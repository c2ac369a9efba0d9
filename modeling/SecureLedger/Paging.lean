import SecureLedger.Lib.Lists
import SecureLedger.Lib.Newest
import SecureLedger.Lib.Paging
import SecureLedger.Deletion
import SecureLedger.Solo
import SecureLedger.Timestamps
import SecureLedger.WellFormed

/-!
# Paging — a client that reads all tasks page by page
-/

namespace SecureLedger

open Atomic

variable {Time : Type} (C : Crates Time) (state : AppState)

/-- What a page finds: its request and the inputs of its calls, and the world that answers it. -/
structure Visit (Time : Type) where
  headers : HeaderMap
  now : Time
  inputs : ℕ → Input Time
  world : ServerWorld Time

/-- The answer to `GET /api/tasks` with this limit and offset. -/
def Visit.page (v : Visit Time) (limit : Option ℤ) (offset : ℕ) : Response Time :=
  (serve C state ⟨v.headers, .listTasks (.ok ⟨limit, some offset⟩), v.now⟩ v.inputs v.world.db).1

/-- The request is accepted, and its call does not fail. -/
def Visit.Answers (v : Visit Time) : Prop :=
  (∃ user, AuthUser.fromRequestParts C state v.headers v.now = .ok user) ∧ (v.inputs 0).fault = none

/-- The client: it asks for the rows from the number it has received on, and stops at the first empty
page.  `none` if there was none among `fuel` pages, or one was refused. -/
def fetchAll (limit : Option ℤ) (visits : ℕ → Visit Time) :
    (fuel n : ℕ) → List (Task Time) → Option (List (Task Time))
  | 0, _, _ => none
  | fuel + 1, n, got =>
    match ((visits n).page C state limit got.length).body with
    | .tasks page => if page.isEmpty then some got else fetchAll limit visits fuel (n + 1) (got ++ page)
    | _ => none

/-- The tasks in the order of the list. -/
def Visit.listed (v : Visit Time) : List (Task Time) :=
  (Newest.newest TaskRow.createdAt v.world.db.task.rows).map (rowToTask C.chrono (v.inputs 0).now)

/-- How many rows a page asks for. -/
def pageSize (limit : Option ℤ) : ℕ := (clampLimit limit).toNat

theorem pageSize_pos (limit : Option ℤ) : 0 < pageSize limit := by
  unfold pageSize clampLimit
  omega

variable {C state} {limit : Option ℤ} {visits : ℕ → Visit Time}

/-- A page that is answered shows its part of the list, and one that is not is no list. -/
theorem page_body (v : Visit Time) (offset : ℕ) :
    (v.Answers C state → (v.page C state limit offset).body =
      .tasks (((v.listed C).drop offset).take (pageSize limit))) ∧
    ∀ page, (v.page C state limit offset).body = .tasks page →
      page = ((v.listed C).drop offset).take (pageSize limit) := by
  have hcut : ∀ rows : List TaskRow, (limitOffset (clampLimit limit) (clampOffset (some offset))
      (byCreatedAt rows)).map (rowToTask C.chrono (v.inputs 0).now) =
        (((Newest.newest TaskRow.createdAt rows).map (rowToTask C.chrono (v.inputs 0).now)).drop
          offset).take (pageSize limit) := by
    intro rows
    have hoffset : (clampOffset (some (offset : ℤ))).toNat = offset := by simp [clampOffset]
    rw [limitOffset_clamp, hoffset, List.map_take, List.map_drop]
    rfl
  unfold Visit.page serve Visit.Answers
  simp only [handle, Arrival.authUser]
  cases hu : AuthUser.fromRequestParts C state v.headers v.now with
  | error e => simp [AppError.intoResponse]
  | ok user =>
    simp only [tryResult_ok, withExtracted, Handlers.listTasks]
    cases hf : (v.inputs 0).fault with
    | some f =>
      rw [eval_tryCall_error (e := f.toAppError) (by rw [DbCall.exec_fault hf])]
      simp [AppError.intoResponse]
    | none =>
      rw [eval_tryCall_ok (a := _) (by simp only [DbCall.exec, Db.listTasks, Db.withConn, hf]; rfl),
        eval_ret, hcut]
      exact ⟨fun _ => rfl, fun page h => (Payload.tasks.inj h).symm⟩

/-- The client reads the list by pages. -/
theorem fetchAll_eq_some : ∀ (fuel n : ℕ) (got : List (Task Time)) {all : List (Task Time)},
    fetchAll C state limit visits fuel n got = some all →
      Paging.collect (fun n => (visits n).listed C) (pageSize limit) fuel n got = some all
  | 0, n, got, all, h => by cases h
  | fuel + 1, n, got, all, h => by
    unfold fetchAll at h
    split at h
    · next page hpage =>
      obtain rfl := (page_body (visits n) got.length).2 page hpage
      unfold Paging.collect
      dsimp only
      split at h
      · next hempty => rw [if_pos hempty]; exact h
      · next hempty => rw [if_neg hempty]; exact fetchAll_eq_some fuel (n + 1) _ h
    · cases h

theorem fetchAll_eq (ha : ∀ n, (visits n).Answers C state) : ∀ (fuel n : ℕ) (got : List (Task Time)),
    fetchAll C state limit visits fuel n got =
      Paging.collect (fun n => (visits n).listed C) (pageSize limit) fuel n got
  | 0, n, got => rfl
  | fuel + 1, n, got => by
    unfold fetchAll Paging.collect
    rw [(page_body (visits n) got.length).1 (ha n)]
    dsimp only
    rw [fetchAll_eq ha fuel (n + 1)]

/-! ### The list along a run -/

/-- A call that is not a DELETE keeps the identities of the rows, in their order. -/
theorem exec_identity_grows {C : Chrono Time} {c : DbCall Time} {x : Input Time} {db : Db}
    (hc : ∀ id, c ≠ .deleteTask id) :
    (db.task.rows.map TaskRow.identity).Sublist ((c.exec C x db).2.task.rows.map TaskRow.identity) := by
  have he := DbCall.exec_effect C x db c
  generalize (c.exec C x db).2 = db' at he ⊢
  cases he with
  | none => exact .refl _
  | create h ht =>
    rw [Table.insert_rows ht, List.map_append]
    exact List.sublist_append_left _ _
  | update h => rw [Db.write_identity]
  | delete h => exact absurd rfl (hc _)
  | audit h ha => exact .refl _

theorem steps_identity_grows {w w' : ServerWorld Time} (h : Steps (server C state) w w')
    (hkept : ∀ e ∈ w'.since w, ∀ id, e.call ≠ .deleteTask id) :
    (w.db.task.rows.map TaskRow.identity).Sublist (w'.db.task.rows.map TaskRow.identity) := by
  refine Steps.log_inv h (H := fun log => ∀ e ∈ log, ∀ id, e.call ≠ .deleteTask id)
    (I := fun (db : Db) _ => (w.db.task.rows.map TaskRow.identity).Sublist
      (db.task.rows.map TaskRow.identity)) (fun hl h e he => h e (hl.subset he)) (.refl _) ?_ hkept
  intro v i a c k _ _ x hlog ih
  exact ih.trans (exec_identity_grows (hlog ⟨i, c, x, v.db⟩ (by simp)))

/-- The ids of the list, from the identities of the rows alone. -/
theorem listed_ids (v : Visit Time) : (v.listed C).map Task.id =
    (Newest.newest (fun r : String × String × String => r.2.2)
      (v.world.db.task.rows.map TaskRow.identity)).map Prod.fst := by
  have hrow : TaskRow.id = fun r : TaskRow => r.identity.1 := rfl
  rw [← Newest.newest_map TaskRow.createdAt TaskRow.identity fun _ => rfl]
  simp only [Visit.listed, List.map_map]
  rfl

/-- A task with the stamp of its row. -/
theorem toRfc3339_createdAt (hC : C.chrono.RoundTrips) {w : ServerWorld Time}
    (hw : Reach (server C state) Db.empty w) {r : TaskRow} (hr : r ∈ w.db.task.rows) (now : Time) :
    C.chrono.toRfc3339 (rowToTask C.chrono now r).createdAt = r.createdAt := by
  have hclock : (clock w.log).Pairwise fun _ _ => True := List.pairwise_of_forall fun _ _ => trivial
  obtain ⟨c, -, u, -, hcreated, -, -⟩ :=
    ((rows_ok (fun _ _ => True) (fun _ => trivial) hw hclock).1 r hr).times
  simp [rowToTask, parseTs, hcreated, hC c]

/-- **Paging skips nothing.**  If the table does not change and every page is answered, the client
stops, after at most one page more than there are rows, with every task once, newest first.  And
whatever requests other than a DELETE run between its pages, if it stops it has received every task
that was there at the first. -/
theorem paging_skips_nothing [LinearOrder Time] (limit : Option ℤ) {visits : ℕ → Visit Time}
    (hw : Reach (server C state) Db.empty (visits 0).world)
    (hsteps : ∀ n, Steps (server C state) (visits n).world (visits (n + 1)).world) :
    ((∀ n, (visits n).world.db.task = (visits 0).world.db.task) → (∀ n, (visits n).Answers C state) →
      ∀ fuel, (visits 0).world.db.task.rows.length < fuel →
        ∃ all, fetchAll C state limit visits fuel 0 [] = some all ∧ (all.map Task.id).Nodup ∧
          (∃ rows : List TaskRow, rows.Perm (visits 0).world.db.task.rows ∧
            rows.Pairwise (fun r r' => r'.createdAt ≤ r.createdAt) ∧
            List.Forall₂ (fun r task => ∃ now, task = rowToTask C.chrono now r) rows all) ∧
          (C.chrono.RoundTrips → C.chrono.SortsText →
            all.Pairwise fun task task' => task'.createdAt ≤ task.createdAt)) ∧
    ((∀ n, ∀ e ∈ (visits (n + 1)).world.since (visits n).world, ∀ id, e.call ≠ .deleteTask id) →
      ∀ fuel all, fetchAll C state limit visits fuel 0 [] = some all →
        ∀ r ∈ (visits 0).world.db.task.rows, ∃ task ∈ all, task.id = r.id) := by
  constructor
  · intro hsame ha fuel hfuel
    have hview : ∀ n, (visits n).listed C =
        (Newest.newest TaskRow.createdAt (visits 0).world.db.task.rows).map
          (rowToTask C.chrono ((visits n).inputs 0).now) := by
      intro n
      rw [Visit.listed, hsame n]
    have hperm := Newest.newest_perm TaskRow.createdAt (visits 0).world.db.task.rows
    obtain ⟨all, hall, hrows⟩ := Paging.collect_fixed hview (pageSize_pos limit)
      (by rw [hperm.length_eq]; exact hfuel)
    have hdecoded : List.Forall₂ (fun r task => ∃ now, task = rowToTask C.chrono now r)
        (Newest.newest TaskRow.createdAt (visits 0).world.db.task.rows) all :=
      hrows.imp fun r task h => h.imp' _ fun n h => h
    have hsorted := Newest.newest_pairwise TaskRow.createdAt (visits 0).world.db.task.rows
    refine ⟨all, (fetchAll_eq ha fuel 0 []).trans hall, ?_, ⟨_, hperm, hsorted, hdecoded⟩, ?_⟩
    · have hids : (Newest.newest TaskRow.createdAt (visits 0).world.db.task.rows).map TaskRow.id =
          all.map Task.id := by
        refine Lists.map_eq_map hdecoded ?_
        rintro r task ⟨now, rfl⟩
        rfl
      rw [← hids, (hperm.map _).nodup_iff]
      exact (visits 0).world.db.task.nodup
    · intro hC htext
      have hstamps : (Newest.newest TaskRow.createdAt (visits 0).world.db.task.rows).map
          TaskRow.createdAt = all.map fun task => C.chrono.toRfc3339 task.createdAt := by
        have hmem := (List.forall₂_and_left _ _).mpr ⟨fun r hr => Newest.mem_newest.mp hr, hdecoded⟩
        refine Lists.map_eq_map hmem ?_
        rintro r task ⟨hr, now, rfl⟩
        exact (toRfc3339_createdAt hC hw hr now).symm
      have htexts : ((Newest.newest TaskRow.createdAt (visits 0).world.db.task.rows).map
          TaskRow.createdAt).Pairwise (· ≥ ·) := List.pairwise_map.mpr hsorted
      rw [hstamps, List.pairwise_map] at htexts
      exact htexts.imp fun hle => htext.le hle
  · intro hkept fuel all hall r hr
    have hgrows : ∀ n, (((visits n).listed C).map Task.id).Sublist
        (((visits (n + 1)).listed C).map Task.id) := by
      intro n
      rw [listed_ids, listed_ids]
      exact (Newest.newest_sublist (steps_identity_grows (hsteps n) (hkept n))).map _
    have hlisted : rowToTask C.chrono ((visits 0).inputs 0).now r ∈ (visits 0).listed C :=
      List.mem_map_of_mem (Newest.mem_newest.mpr hr)
    exact List.mem_map.mp (Paging.collect_covers hgrows (pageSize_pos limit)
      (fetchAll_eq_some fuel 0 [] hall) _ hlisted)

end SecureLedger

/-! ### On the sample -/

namespace SecureLedger.Sample

open Atomic

/-- Two tasks in the table. -/
def twoTasks : ServerWorld Sec :=
  runOn [.arrive (withToken "tok.user" (.createTask (.ok ⟨"draft", "", none⟩)) 10),
    .call 0 (good 11 "t1"), .call 0 (good 12 "e1"),
    .arrive (withToken "tok.user" (.createTask (.ok ⟨"other", "", none⟩)) 13),
    .call 1 (good 14 "t2"), .call 1 (good 15 "e2")]

/-- A third is created, and the first is updated. -/
def thirdTask : ServerWorld Sec :=
  twoTasks.run (server crates state) [
    .arrive (withToken "tok.admin" (.createTask (.ok ⟨"late", "", none⟩)) 20),
    .arrive (withToken "tok.user" (.updateTask (.ok "t1") (.ok ⟨none, none, some .done⟩)) 20),
    .call 3 (good 21 ""), .call 2 (good 22 "t3"), .call 3 (good 23 ""), .call 2 (good 24 "e3")]

def visit (w : ServerWorld Sec) : Visit Sec :=
  ⟨[("authorization", bytes "Bearer tok.user")], 30, fun _ => good 31 "", w⟩

/-- The table changes after the first page. -/
def overtaken : ℕ → Visit Sec
  | 0 => visit twoTasks
  | _ + 1 => visit thirdTask

/-- With pages of one row the second task comes twice, and the first is not missed. -/
theorem overtaken_received : ∃ all, fetchAll crates state (some 0) overtaken 4 0 [] = some all ∧
    all.map Task.id = ["t2", "t2", "t1"] ∧
    ∀ r ∈ twoTasks.db.task.rows, ∃ task ∈ all, task.id = r.id := by
  have hsteps : ∀ n, Steps (server crates state) (overtaken n).world (overtaken (n + 1)).world := by
    intro n
    cases n with
    | zero => exact twoTasks.run_steps _
    | succ n => exact .refl
  have hkept : ∀ n, ∀ e ∈ (overtaken (n + 1)).world.since (overtaken n).world,
      ∀ id, e.call ≠ .deleteTask id := by
    intro n e he id hc
    cases n with
    | zero =>
      have hnone : ∀ e ∈ (thirdTask).since twoTasks, deleteOf e = none := by decide +kernel
      have := hnone e he
      rw [deleteOf_eq_some.mpr hc] at this
      cases this
    | succ n =>
      rw [show (overtaken (n + 2)).world = (overtaken (n + 1)).world from rfl, World.since_self] at he
      cases he
  obtain ⟨all, hall, hids⟩ : ∃ all, fetchAll crates state (some 0) overtaken 4 0 [] = some all ∧
      all.map Task.id = ["t2", "t2", "t1"] := by
    rw [← Option.map_eq_some_iff]
    decide +kernel
  exact ⟨all, hall, hids,
    (paging_skips_nothing (some 0) (runOn_reach _) hsteps).2 hkept 4 all hall⟩

end SecureLedger.Sample
