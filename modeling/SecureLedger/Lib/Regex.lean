import Mathlib.Data.List.Basic
import Mathlib.Data.List.Infix

/-!
# Lib.Regex — searching with backtracking

Patterns of character classes, greedy repetition and word boundaries, with the search of a backtracking
matcher: the first place where the pattern matches, and there the match that it tries first.

* `mem_matches`: the matcher finds what the pattern means;
* `search_eq_some`, `search_eq_none`: the search finds a leftmost occurrence if there is one;
* `search_join`: with a separator that no class contains, searching joined texts is searching one after
  the other.
-/

namespace Regex

variable {α : Type}

inductive Pattern (α : Type) where
  | empty
  | one (p : α → Bool)
  /-- greedy: as many as possible first -/
  | plus (p : α → Bool)
  /-- between a word character and none -/
  | boundary (word : α → Bool)
  | seq (P Q : Pattern α)

/-- The characters of a list, in their order. -/
def Pattern.lits [DecidableEq α] (s : List α) : Pattern α := s.foldr (fun a P => .seq (.one (· = a)) P) .empty

/-- So many times. -/
def Pattern.times (p : α → Bool) : ℕ → Pattern α
  | 0 => .empty
  | n + 1 => .seq (.one p) (times p n)

def atBoundary (word : α → Bool) (before after : Option α) : Bool := before.any word != after.any word

/-- The character before what follows `s`. -/
def lastOr (before : Option α) (s : List α) : Option α := s.getLast?.or before

/-! ### What a pattern means -/

/-- `s`, between `before` and `after`, matches the pattern. -/
def Pattern.Matches : Pattern α → Option α → List α → Option α → Prop
  | .empty, _, s, _ => s = []
  | .one p, _, s, _ => ∃ a, s = [a] ∧ p a
  | .plus p, _, s, _ => s ≠ [] ∧ ∀ a ∈ s, p a
  | .boundary word, before, s, after => s = [] ∧ atBoundary word before after
  | .seq P Q, before, s, after => ∃ t u, s = t ++ u ∧ P.Matches before t (u.head?.or after) ∧
      Q.Matches (lastOr before t) u after

/-- `m` matches in `pre ++ m ++ post`. -/
def Pattern.Occurs (P : Pattern α) (before : Option α) (pre m post : List α) : Prop :=
  P.Matches (lastOr before pre) m post.head?

/-! ### The matcher -/

/-- The beginnings with a property, the longest first, each with what follows. -/
def runs (p : α → Bool) : List α → List (List α × List α)
  | [] => []
  | a :: s => if p a then ((runs p s).map fun m => (a :: m.1, m.2)) ++ [([a], s)] else []

/-- The matches at the beginning of a text, in the order in which they are tried. -/
def Pattern.matches : Pattern α → Option α → List α → List (List α × List α)
  | .empty, _, s => [([], s)]
  | .one p, _, s => (s.take 1).filterMap fun a => if p a then some ([a], s.tail) else none
  | .plus p, _, s => runs p s
  | .boundary word, before, s => if atBoundary word before s.head? then [([], s)] else []
  | .seq P Q, before, s => (P.matches before s).flatMap fun m =>
      (Q.matches (lastOr before m.1) m.2).map fun n => (m.1 ++ n.1, n.2)

/-- The match that is found at the beginning of a text. -/
def Pattern.match? (P : Pattern α) (before : Option α) (s : List α) : Option (List α) :=
  (P.matches before s).head?.map Prod.fst

/-- `re.search`. -/
def Pattern.search (P : Pattern α) : Option α → List α → Option (List α)
  | before, [] => P.match? before []
  | before, a :: s => (P.match? before (a :: s)).or (P.search (some a) s)

/-! ### The matcher finds what the pattern means -/

variable {P Q : Pattern α} {p word : α → Bool} {before after : Option α} {s t u m rest : List α} {a sep : α}

theorem mem_runs : (m, rest) ∈ runs p s ↔ s = m ++ rest ∧ m ≠ [] ∧ ∀ a ∈ m, p a := by
  induction s generalizing m with
  | nil =>
    constructor
    · intro h
      cases h
    · rintro ⟨h, hne, -⟩
      exact absurd (List.append_eq_nil_iff.mp h.symm).1 hne
  | cons a s ih =>
    unfold runs
    by_cases ha : p a
    · rw [if_pos ha, List.mem_append, List.mem_map, List.mem_singleton]
      constructor
      · rintro (⟨⟨m', rest'⟩, hmem, heq⟩ | heq)
        · cases heq
          obtain ⟨rfl, -, hall⟩ := ih.mp hmem
          exact ⟨rfl, List.cons_ne_nil _ _, List.forall_mem_cons.mpr ⟨ha, hall⟩⟩
        · cases heq
          exact ⟨rfl, List.cons_ne_nil _ _, List.forall_mem_singleton.mpr ha⟩
      · rintro ⟨heq, hne, hall⟩
        cases m with
        | nil => exact absurd rfl hne
        | cons b m =>
          obtain ⟨rfl, rfl⟩ := List.cons_eq_cons.mp heq
          cases m with
          | nil => exact .inr rfl
          | cons c m =>
            exact .inl ⟨(c :: m, rest), ih.mpr ⟨rfl, List.cons_ne_nil _ _, (List.forall_mem_cons.mp hall).2⟩, rfl⟩
    · rw [if_neg ha]
      refine iff_of_false List.not_mem_nil ?_
      rintro ⟨heq, hne, hall⟩
      cases m with
      | nil => exact hne rfl
      | cons b m =>
        obtain ⟨rfl, -⟩ := List.cons_eq_cons.mp heq
        exact ha (hall _ (List.mem_cons_self ..))

/-- **The matcher is sound and complete.** -/
theorem mem_matches : (m, rest) ∈ P.matches before s ↔ s = m ++ rest ∧ P.Matches before m rest.head? := by
  induction P generalizing before s m rest with
  | empty =>
    simp only [Pattern.matches, Pattern.Matches, List.mem_singleton, Prod.mk.injEq]
    constructor
    · rintro ⟨rfl, rfl⟩
      exact ⟨rfl, rfl⟩
    · rintro ⟨rfl, rfl⟩
      exact ⟨rfl, rfl⟩
  | one p =>
    cases s with
    | nil =>
      refine iff_of_false (by simp [Pattern.matches]) ?_
      rintro ⟨h, a, rfl, -⟩
      cases h
    | cons b s =>
      simp only [Pattern.matches, List.take_succ_cons, List.take_zero, List.tail_cons, Pattern.Matches]
      constructor
      · intro h
        by_cases hb : p b
        · simp only [List.filterMap_cons, hb, if_true, List.filterMap_nil, List.mem_singleton] at h
          cases h
          exact ⟨rfl, b, rfl, hb⟩
        · simp [hb] at h
      · rintro ⟨heq, a, rfl, ha⟩
        obtain ⟨rfl, rfl⟩ := List.cons_eq_cons.mp heq
        simp [ha]
  | plus p => exact mem_runs
  | boundary word =>
    simp only [Pattern.matches, Pattern.Matches]
    constructor
    · intro h
      by_cases hb : atBoundary word before s.head?
      · rw [if_pos hb, List.mem_singleton] at h
        cases h
        exact ⟨rfl, rfl, hb⟩
      · rw [if_neg hb] at h
        cases h
    · rintro ⟨rfl, rfl, hb⟩
      rw [List.nil_append, if_pos hb]
      exact List.mem_singleton.mpr rfl
  | seq P Q ihP ihQ =>
    simp only [Pattern.matches, List.mem_flatMap, List.mem_map, Pattern.Matches, Prod.exists]
    constructor
    · rintro ⟨t, r, hfirst, u, r', hsecond, heq⟩
      cases heq
      obtain ⟨rfl, hP⟩ := ihP.mp hfirst
      obtain ⟨rfl, hQ⟩ := ihQ.mp hsecond
      rw [List.head?_append] at hP
      exact ⟨by rw [List.append_assoc], t, u, rfl, hP, hQ⟩
    · rintro ⟨rfl, t, u, rfl, hP, hQ⟩
      rw [← List.head?_append] at hP
      exact ⟨t, u ++ rest, ihP.mpr ⟨List.append_assoc .., hP⟩, u, rest, ihQ.mpr ⟨rfl, hQ⟩, rfl⟩

/-- A match is found where there is one. -/
theorem match?_eq_none : P.match? before s = none ↔ ∀ m rest, s = m ++ rest → ¬ P.Matches before m rest.head? := by
  unfold Pattern.match?
  rw [Option.map_eq_none_iff, List.head?_eq_none_iff, List.eq_nil_iff_forall_not_mem, Prod.forall]
  simp only [mem_matches, not_and]

theorem match?_eq_some (h : P.match? before s = some m) : ∃ rest, s = m ++ rest ∧ P.Matches before m rest.head? := by
  obtain ⟨⟨m', rest⟩, hhead, rfl⟩ := Option.map_eq_some_iff.mp h
  exact ⟨rest, mem_matches.mp (List.mem_of_mem_head? hhead)⟩

/-! ### The search -/

theorem lastOr_cons : lastOr before (a :: s) = lastOr (some a) s := by
  unfold lastOr
  cases s with
  | nil => rfl
  | cons b s =>
    rw [List.getLast?_cons_cons, List.getLast?_eq_some_getLast (List.cons_ne_nil _ _)]
    rfl

/-- **What is found occurs**, and nothing occurs before it. -/
theorem search_eq_some (h : P.search before s = some m) : ∃ pre post, s = pre ++ (m ++ post) ∧
    P.Occurs before pre m post ∧
      ∀ pre' m' post', s = pre' ++ (m' ++ post') → P.Occurs before pre' m' post' → pre.length ≤ pre'.length := by
  induction s generalizing before with
  | nil =>
    obtain ⟨rest, heq, hm⟩ := match?_eq_some h
    exact ⟨[], rest, heq, hm, fun _ _ _ _ _ => Nat.zero_le _⟩
  | cons a s ih =>
    rw [Pattern.search, Option.or_eq_some_iff] at h
    rcases h with h | ⟨hnone, h⟩
    · obtain ⟨rest, heq, hm⟩ := match?_eq_some h
      exact ⟨[], rest, heq, hm, fun _ _ _ _ _ => Nat.zero_le _⟩
    · obtain ⟨pre, post, rfl, hm, hfirst⟩ := ih h
      refine ⟨a :: pre, post, rfl, ?_, fun pre' m' post' heq hm' => ?_⟩
      · rw [Pattern.Occurs, lastOr_cons]
        exact hm
      · cases pre' with
        | nil => exact absurd hm' (match?_eq_none.mp hnone m' post' heq)
        | cons b pre' =>
          obtain ⟨rfl, hrest⟩ := List.cons_eq_cons.mp heq
          rw [Pattern.Occurs, lastOr_cons] at hm'
          exact Nat.succ_le_succ (hfirst pre' m' post' hrest hm')

theorem search_eq_none : P.search before s = none ↔
    ∀ pre m post, s = pre ++ (m ++ post) → ¬ P.Occurs before pre m post := by
  induction s generalizing before with
  | nil =>
    rw [Pattern.search, match?_eq_none]
    constructor
    · intro h pre m post heq
      obtain ⟨rfl, hrest⟩ := List.append_eq_nil_iff.mp heq.symm
      exact h m post hrest.symm
    · exact fun h m rest heq => h [] m rest heq
  | cons a s ih =>
    rw [Pattern.search, Option.or_eq_none_iff, match?_eq_none, ih]
    constructor
    · rintro ⟨hfirst, hrest⟩ pre m post heq
      cases pre with
      | nil => exact hfirst m post heq
      | cons b pre =>
        obtain ⟨rfl, hsplit⟩ := List.cons_eq_cons.mp heq
        rw [Pattern.Occurs, lastOr_cons]
        exact hrest pre m post hsplit
    · intro h
      refine ⟨fun m rest heq => h [] m rest heq, fun pre m post heq hm => ?_⟩
      refine h (a :: pre) m post (congrArg (a :: ·) heq) ?_
      rw [Pattern.Occurs, lastOr_cons]
      exact hm

/-! ### Joined texts -/

/-- No class of the pattern contains the character. -/
def Pattern.Avoids (sep : α) : Pattern α → Prop
  | .empty => True
  | .one p | .plus p | .boundary p => p sep = false
  | .seq P Q => P.Avoids sep ∧ Q.Avoids sep


/-- After a separator is as at the beginning. -/
theorem matches_after (h : P.Avoids sep) : P.matches (some sep) s = P.matches none s := by
  induction P generalizing s with
  | empty => rfl
  | one p => rfl
  | plus p => rfl
  | boundary word =>
    have hsep : word sep = false := h
    simp [Pattern.matches, atBoundary, hsep]
  | seq P Q ihP ihQ =>
    simp only [Pattern.matches]
    rw [ihP h.1]
    congr 1
    funext m
    unfold lastOr
    cases m.1.getLast? with
    | none => simp only [Option.none_or, ihQ h.2]
    | some a => rfl

theorem runs_before (h : p sep = false) :
    runs p (s ++ sep :: rest) = (runs p s).map fun m => (m.1, m.2 ++ sep :: rest) := by
  induction s with
  | nil => simp [runs, h]
  | cons a s ih =>
    rw [List.cons_append, runs, runs, ih]
    by_cases ha : p a
    · rw [if_pos ha, if_pos ha, List.map_append, List.map_map, List.map_map]
      rfl
    · rw [if_neg ha, if_neg ha]
      rfl

/-- Before a separator is as at the end. -/
theorem matches_before (h : P.Avoids sep) : P.matches before (s ++ sep :: rest) =
    (P.matches before s).map fun m => (m.1, m.2 ++ sep :: rest) := by
  induction P generalizing before s with
  | empty => rfl
  | one p =>
    have hsep : p sep = false := h
    cases s with
    | nil => simp [Pattern.matches, hsep]
    | cons a s => by_cases ha : p a <;> simp [Pattern.matches, ha]
  | plus p => exact runs_before h
  | boundary word =>
    have hsep : word sep = false := h
    cases s with
    | nil => by_cases hb : before.any word <;> simp [Pattern.matches, atBoundary, hsep, hb]
    | cons a s => by_cases hb : atBoundary word before (some a) <;> simp [Pattern.matches, hb]
  | seq P Q ihP ihQ =>
    simp only [Pattern.matches]
    rw [ihP h.1, List.flatMap_map, List.map_flatMap]
    congr 1
    funext m
    rw [ihQ h.2, List.map_map, List.map_map]
    rfl

theorem match?_before (h : P.Avoids sep) : P.match? before (s ++ sep :: rest) = P.match? before s := by
  unfold Pattern.match?
  rw [matches_before h, List.head?_map, Option.map_map]
  rfl

theorem search_append (h : P.Avoids sep) :
    P.search before (s ++ sep :: rest) = (P.search before s).or (P.search none rest) := by
  have hafter : P.search (some sep) rest = P.search none rest := by
    cases rest <;> simp only [Pattern.search, Pattern.match?, matches_after h]
  induction s generalizing before with
  | nil =>
    have hmatch : P.match? before (sep :: rest) = P.match? before [] := match?_before (s := []) h
    rw [List.nil_append, Pattern.search, Pattern.search, hmatch, hafter]
  | cons a s ih =>
    have hmatch : P.match? before (a :: (s ++ sep :: rest)) = P.match? before (a :: s) :=
      match?_before (s := a :: s) h
    rw [List.cons_append, Pattern.search, Pattern.search, hmatch, ih, Option.or_assoc]

/-- **Texts with a separator between** are searched one after the other. -/
theorem search_join (h : P.Avoids sep) : ∀ (s : List α) (texts : List (List α)),
    P.search none (s ++ texts.flatMap (sep :: ·)) = (s :: texts).findSome? (P.search none)
  | s, [] => by
    rw [List.flatMap_nil, List.append_nil, List.findSome?_cons]
    cases P.search none s <;> rfl
  | s, t :: texts => by
    rw [List.flatMap_cons, List.cons_append, search_append h, search_join h t texts]
    cases hs : P.search none s <;> simp [List.findSome?_cons, hs]

/-! ### Fixed parts -/

theorem matches_lits [DecidableEq α] : (Pattern.lits s).Matches before m after ↔ m = s := by
  induction s generalizing before m with
  | nil => exact Iff.rfl
  | cons b s ih =>
    constructor
    · rintro ⟨t, u, rfl, ⟨c, rfl, hc⟩, hu⟩
      rw [ih.mp hu, of_decide_eq_true hc]
      rfl
    · rintro rfl
      exact ⟨[b], s, rfl, ⟨b, rfl, decide_eq_true rfl⟩, ih.mpr rfl⟩

theorem matches_times {n : ℕ} : (Pattern.times p n).Matches before m after ↔ m.length = n ∧ ∀ a ∈ m, p a := by
  induction n generalizing before m with
  | zero =>
    constructor
    · rintro rfl
      exact ⟨rfl, fun a ha => absurd ha List.not_mem_nil⟩
    · exact fun h => List.length_eq_zero_iff.mp h.1
  | succ n ih =>
    constructor
    · rintro ⟨t, u, rfl, ⟨a, rfl, ha⟩, hu⟩
      obtain ⟨hlen, hall⟩ := ih.mp hu
      exact ⟨by simp [hlen], List.forall_mem_cons.mpr ⟨ha, hall⟩⟩
    · rintro ⟨hlen, hall⟩
      cases m with
      | nil => cases hlen
      | cons a m =>
        obtain ⟨ha, hrest⟩ := List.forall_mem_cons.mp hall
        exact ⟨[a], m, rfl, ⟨a, rfl, ha⟩, ih.mpr ⟨Nat.succ.inj hlen, hrest⟩⟩

theorem avoids_lits [DecidableEq α] (h : sep ∉ s) : (Pattern.lits s).Avoids sep := by
  induction s with
  | nil => trivial
  | cons b s ih =>
    rw [List.mem_cons, not_or] at h
    exact ⟨decide_eq_false h.1, ih h.2⟩

theorem avoids_times (h : p sep = false) : ∀ n, (Pattern.times p n).Avoids sep
  | 0 => trivial
  | n + 1 => ⟨h, avoids_times h n⟩

end Regex
