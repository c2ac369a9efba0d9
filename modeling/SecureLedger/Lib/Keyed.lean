import Mathlib.Logic.Function.Basic
import Mathlib.Order.MinMax
import Mathlib.Tactic.Common

/-!
# Lib.Keyed — a family of machines, one for each key

A `Machine` takes inputs one at a time and is made when its first input comes.  `Keyed.run` keeps a
map from keys to machines, filled as keys turn up, and hands each input to the machine of its key.
The inputs of one key are answered as if they had been alone (`run_filter`): nothing crosses keys.  If
each machine accepts up to a number of inputs, all of them together accept no more only for inputs of one
key, or no more inputs (`Shares.le_iff`).
-/

/-- A machine: its state at the first input, and what an input does. -/
structure Machine (ι ο : Type) where
  State : Type
  start : ι → State
  step : State → ι → ο × State

namespace Machine

variable {ι ο : Type} (M : Machine ι ο)

/-- One input, `none` being a machine that is still to be made. -/
def feed (s : Option M.State) (x : ι) : ο × M.State := M.step (s.getD (M.start x)) x

/-- Inputs one after the other, each with its output. -/
def run : Option M.State → List ι → List (ι × ο)
  | _, [] => []
  | s, x :: l => (x, (M.feed s x).1) :: run (some (M.feed s x).2) l

/-- The state after some inputs. -/
def after : Option M.State → List ι → Option M.State
  | s, [] => s
  | s, x :: l => after (some (M.feed s x).2) l

variable {M}

theorem run_append (s : Option M.State) (l l' : List ι) :
    M.run s (l ++ l') = M.run s l ++ M.run (M.after s l) l' := by
  induction l generalizing s with
  | nil => rfl
  | cons x l ih => simp only [List.cons_append, run, after, ih]

theorem after_append (s : Option M.State) (l l' : List ι) : M.after s (l ++ l') = M.after (M.after s l) l' := by
  induction l generalizing s with
  | nil => rfl
  | cons x l ih => simp only [List.cons_append, after, ih]

@[simp] theorem run_inputs (s : Option M.State) (l : List ι) : (M.run s l).map Prod.fst = l := by
  induction l generalizing s with
  | nil => rfl
  | cons x l ih => simp only [run, List.map_cons, ih]

theorem fst_mem_of_mem_run {s : Option M.State} {l : List ι} {p : ι × ο} (h : p ∈ M.run s l) : p.1 ∈ l := by
  rw [← run_inputs s l]
  exact List.mem_map_of_mem h

@[simp] theorem length_run (s : Option M.State) (l : List ι) : (M.run s l).length = l.length := by
  rw [← List.length_map Prod.fst, run_inputs]

/-- The machine that looks at a part of its inputs only. -/
def comap {ι' : Type} (f : ι' → ι) (M : Machine ι ο) : Machine ι' ο where
  State := M.State
  start x := M.start (f x)
  step s x := M.step s (f x)

theorem run_comap {ι' : Type} (f : ι' → ι) (s : Option M.State) (l : List ι') :
    ((M.comap f).run s l).map (fun p => (f p.1, p.2)) = M.run s (l.map f) := by
  induction l generalizing s with
  | nil => rfl
  | cons x l ih =>
    simp only [run, List.map_cons, List.cons.injEq]
    exact ⟨rfl, ih _⟩

theorem after_comap {ι' : Type} (f : ι' → ι) (s : Option M.State) (l : List ι') :
    (M.comap f).after s l = M.after s (l.map f) := by
  induction l generalizing s with
  | nil => rfl
  | cons x l ih => exact ih _

/-- The output for an input after others. -/
theorem run_concat (s : Option M.State) (l : List ι) (x : ι) :
    M.run s (l ++ [x]) = M.run s l ++ [(x, (M.feed (M.after s l) x).1)] := by
  rw [run_append]
  rfl

end Machine

namespace Keyed

variable {ι ο K : Type} [DecidableEq K] (M : Machine ι ο) (key : ι → K)

/-- Hand an input to the machine of its key. -/
def feed (m : K → Option M.State) (x : ι) : ο × (K → Option M.State) :=
  let out := M.feed (m (key x)) x
  (out.1, Function.update m (key x) (some out.2))

def run : (K → Option M.State) → List ι → List (ι × ο)
  | _, [] => []
  | m, x :: l => (x, (feed M key m x).1) :: run (feed M key m x).2 l

variable {M key}

theorem feed_self (m : K → Option M.State) (x : ι) :
    (feed M key m x).2 (key x) = some (M.feed (m (key x)) x).2 := Function.update_self ..

/-- The machines of the other keys stay as they are. -/
theorem feed_ne (m : K → Option M.State) {x : ι} {k : K} (h : key x ≠ k) : (feed M key m x).2 k = m k :=
  Function.update_of_ne h.symm _ _

/-- **Each key is alone**: its inputs get the outputs its machine gives them by themselves. -/
theorem run_filter (m : K → Option M.State) (l : List ι) (k : K) :
    (run M key m l).filter (key ·.1 = k) = M.run (m k) (l.filter (key · = k)) := by
  induction l generalizing m with
  | nil => rfl
  | cons x l ih =>
    by_cases h : key x = k
    · subst h
      simp only [run, List.filter_cons, decide_true, if_true, ih, feed_self, Machine.run]
      rfl
    · simp only [run, List.filter_cons, h, decide_false, ih, feed_ne m h]
      rfl

/-- The machines after some inputs. -/
def after (M : Machine ι ο) (key : ι → K) : (K → Option M.State) → List ι → K → Option M.State
  | m, [] => m
  | m, x :: l => after M key (feed M key m x).2 l

/-- A key's machine has seen the inputs of its key. -/
theorem after_apply (m : K → Option M.State) (l : List ι) (k : K) :
    after M key m l k = M.after (m k) (l.filter (key · = k)) := by
  induction l generalizing m with
  | nil => rfl
  | cons x l ih =>
    by_cases h : key x = k
    · subst h
      simp only [after, List.filter_cons, decide_true, if_true, ih, feed_self, Machine.after]
    · simp only [after, List.filter_cons, h, decide_false, ih, feed_ne m h]
      rfl

theorem run_append (m : K → Option M.State) (l l' : List ι) :
    run M key m (l ++ l') = run M key m l ++ run M key (after M key m l) l' := by
  induction l generalizing m with
  | nil => rfl
  | cons x l ih => simp only [List.cons_append, run, after, ih]

/-- The count over one key's inputs is its machine's. -/
theorem countP_comap {ι' : Type} {key : ι' → K} (f : ι' → ι) (p : ι × ο → Bool) (m : K → Option M.State)
    (l : List ι') (k : K) :
    (run (M.comap f) key m l).countP (fun q => p (f q.1, q.2) && key q.1 = k) =
      (M.run (m k) ((l.filter (key · = k)).map f)).countP p := by
  have halone := @run_filter ι' ο K _ (M.comap f) key m l k
  rw [← Machine.run_comap, List.countP_map]
  show _ = ((M.comap f).run (m k) (l.filter (key · = k))).countP _
  rw [← halone, List.countP_filter]
  rfl

/-- Streams with the same inputs for a key have the same outputs for it. -/
theorem run_isolated (m : K → Option M.State) {l l' : List ι} {k : K}
    (h : l.filter (key · = k) = l'.filter (key · = k)) :
    (run M key m l).filter (key ·.1 = k) = (run M key m l').filter (key ·.1 = k) := by
  rw [run_filter, run_filter, h]

@[simp] theorem run_inputs (M : Machine ι ο) (key : ι → K) (m : K → Option M.State) (l : List ι) :
    (run M key m l).map Prod.fst = l := by
  induction l generalizing m with
  | nil => rfl
  | cons x l ih => simp only [run, List.map_cons, ih]

theorem fst_mem_of_mem_run {m : K → Option M.State} {l : List ι} {p : ι × ο} (h : p ∈ run M key m l) :
    p.1 ∈ l := by
  rw [← run_inputs M key m l]
  exact List.mem_map_of_mem h

/-- The outputs after the first ones are those of the later inputs. -/
theorem fst_mem_of_mem_drop {m : K → Option M.State} {l l' : List ι} {p : ι × ο}
    (h : p ∈ (run M key m (l ++ l')).drop l.length) : p.1 ∈ l' := by
  have hinputs : ((run M key m (l ++ l')).drop l.length).map Prod.fst = l' := by
    rw [List.map_drop, run_inputs, List.drop_left]
  rw [← hinputs]
  exact List.mem_map_of_mem h

@[simp] theorem length_run (M : Machine ι ο) (key : ι → K) (m : K → Option M.State) (l : List ι) :
    (run M key m l).length = l.length := by
  rw [← List.length_map Prod.fst, run_inputs]

end Keyed

namespace Keyed

/-! ### The shares of the keys -/

variable {ι K : Type} [DecidableEq K] {M : Machine ι Bool} {key : ι → K} {m : K → Option M.State}
  {l : List ι} {cap : ℕ}

theorem countP_filter_key (k : K) : (run M key m l).countP (fun p => p.2 && key p.1 = k) =
    (M.run (m k) (l.filter (key · = k))).countP (·.2) := by
  rw [← run_filter, List.countP_filter]

/-- Each machine accepts `cap` of its inputs, or all if they are fewer. -/
def Shares (M : Machine ι Bool) (key : ι → K) (cap : ℕ) (m : K → Option M.State) (l : List ι) : Prop :=
  ∀ k, (M.run (m k) (l.filter (key · = k))).countP (·.2) = min cap (l.countP (key · = k))

theorem Shares.le (h : Shares M key cap m l) (k : K) :
    min cap (l.countP (key · = k)) ≤ (run M key m l).countP (·.2) := by
  rw [← h k, ← countP_filter_key]
  apply List.countP_mono_left
  intro p _ hp
  exact (Bool.and_eq_true_iff.mp hp).1

/-- Two keys have a share each. -/
theorem Shares.add_le (h : Shares M key cap m l) {k k' : K} (hne : k ≠ k') :
    min cap (l.countP (key · = k)) + min cap (l.countP (key · = k')) ≤ (run M key m l).countP (·.2) := by
  rw [← h k, ← h k', ← countP_filter_key, ← countP_filter_key]
  generalize run M key m l = out
  induction out with
  | nil => exact le_rfl
  | cons p out ih =>
    simp only [List.countP_cons, Bool.and_eq_true, decide_eq_true_eq]
    by_cases hok : p.2 = true
    · simp only [hok, true_and, if_true]
      by_cases hk : key p.1 = k
      · subst hk
        rw [if_pos rfl, if_neg hne]
        omega
      · rw [if_neg hk]
        split <;> omega
    · simpa [hok] using ih

/-- If no key has more inputs than its share, all are accepted. -/
theorem Shares.all (h : Shares M key cap m l) (hfew : ∀ k, l.countP (key · = k) ≤ cap) :
    (run M key m l).countP (·.2) = l.length := by
  rw [← length_run M key m l]
  apply List.countP_eq_length.mpr
  intro p hp
  have hall := h (key p.1)
  have hlen : l.countP (key · = key p.1) = (M.run (m (key p.1)) (l.filter (key · = key p.1))).length := by
    rw [Machine.length_run, List.countP_eq_length_filter]
  rw [min_eq_right (hfew _), hlen] at hall
  refine List.countP_eq_length.mp hall p ?_
  rw [← run_filter]
  exact List.mem_filter.mpr ⟨hp, decide_eq_true rfl⟩

/-- **Within one share**: the machines together accept no more than one of them would, if all inputs have
one key or there are no more of them. -/
theorem Shares.le_iff (h : Shares M key cap m l) (hcap : 1 ≤ cap) :
    (run M key m l).countP (·.2) ≤ cap ↔ (∀ x ∈ l, ∀ y ∈ l, key x = key y) ∨ l.length ≤ cap := by
  refine ⟨fun hle => ?_, ?_⟩
  · by_contra hnot
    obtain ⟨hkeys, hmany⟩ := not_or.mp hnot
    push Not at hkeys
    obtain ⟨x, hx, y, hy, hne⟩ := hkeys
    have hpos : ∀ z ∈ l, 1 ≤ l.countP (key · = key z) := fun z hz =>
      List.countP_pos_iff.mpr ⟨z, hz, decide_eq_true rfl⟩
    by_cases hfew : ∀ k, l.countP (key · = k) ≤ cap
    · rw [h.all hfew] at hle
      exact hmany hle
    · -- a key with a full share, and one input at least of another key
      obtain ⟨k, hk⟩ := not_forall.mp hfew
      obtain ⟨z, hz, hother⟩ : ∃ z ∈ l, k ≠ key z := by
        by_cases hkx : k = key x
        · exact ⟨y, hy, hkx ▸ hne⟩
        · exact ⟨x, hx, hkx⟩
      have := h.add_le hother
      have := hpos z hz
      omega
  · rintro (hkeys | hfew)
    · cases l with
      | nil => exact Nat.zero_le _
      | cons x l =>
        -- they are all of the first one's key
        have hone : (run M key m (x :: l)).countP (·.2) ≤
            (run M key m (x :: l)).countP (fun p => p.2 && key p.1 = key x) :=
          List.countP_mono_left fun p hp hok => by
            rw [hok, hkeys p.1 (fst_mem_of_mem_run hp) x (List.mem_cons_self ..), decide_eq_true rfl]
            rfl
        rw [countP_filter_key, h] at hone
        exact hone.trans (Nat.min_le_left ..)
    · exact (List.countP_le_length.trans_eq (length_run M key m l)).trans hfew

end Keyed
