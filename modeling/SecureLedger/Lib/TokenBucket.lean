import SecureLedger.Lib.Keyed
import Mathlib.Algebra.Order.Field.Basic
import Mathlib.Tactic.Linarith
import Mathlib.Tactic.Ring

/-!
# Lib.TokenBucket — what a token bucket lets through

A bucket of some capacity starts full and is refilled at a constant rate; a request takes a cell, if
there is one.  Over a window it lets through less than its capacity and what is refilled in the window
together (`accepted_window_lt`), at one instant no more than its capacity (`accepted_instant_le`).  A
request finds a cell after fewer requests than the capacity (`one_le_cellsLeft`), or when fewer were let
through while the bucket could be refilled (`one_le_cellsLeft_of_few`); a burst of the capacity
leaves none (`cellsLeft_burst`), and each cell that is refilled lets one more through (`burst_refills`).
-/

namespace TokenBucket

variable {K : Type} [Field K] [LinearOrder K]

/-- The cells in the bucket, as of the time `since`. -/
structure Bucket (K : Type) where
  level : K
  since : K

namespace Bucket

/-- A full bucket. -/
def full (capacity : ℕ) (now : K) : Bucket K := ⟨capacity, now⟩

/-- The cells in the bucket at `now`. -/
def refill (capacity : ℕ) (rate : K) (b : Bucket K) (now : K) : K :=
  min capacity (b.level + rate * (now - b.since))

/-- Take a cell, if there is one. -/
def take (capacity : ℕ) (rate : K) (b : Bucket K) (now : K) : Bool × Bucket K :=
  let level := b.refill capacity rate now
  if 1 ≤ level then (true, ⟨level - 1, now⟩) else (false, ⟨level, now⟩)

end Bucket

/-- A bucket at the readings of a clock: one when it is made, one at each request. -/
def machine (capacity : ℕ) (rate : K) : Machine (K × K) Bool where
  State := Bucket K
  start c := .full capacity c.1
  step b c := b.take capacity rate c.2

/-- Readings of a clock that does not go back. -/
structure Ordered (l : List (K × K)) : Prop where
  made : ∀ c ∈ l, c.1 ≤ c.2
  sorted : l.Pairwise fun c c' => c.2 ≤ c'.2

/-- How many of the requests from `t` on and before `e` were let through. -/
def accepted (t e : K) (out : List ((K × K) × Bool)) : ℕ :=
  out.countP fun p => p.2 && t ≤ p.1.2 && p.1.2 < e

/-- How many of the requests after `t` were let through. -/
def acceptedAfter (t : K) (out : List ((K × K) × Bool)) : ℕ := out.countP fun p => p.2 && t < p.1.2

variable {capacity : ℕ} {rate : K} {b : Bucket K} {l : List (K × K)} {t e w : K}

/-- What a request does: the bucket is refilled, and one cell is taken if the request is let through. -/
theorem Bucket.take_cases (b : Bucket K) (now : K) :
    (1 ≤ b.refill capacity rate now ∧
      b.take capacity rate now = (true, ⟨b.refill capacity rate now - 1, now⟩)) ∨
    (b.refill capacity rate now < 1 ∧
      b.take capacity rate now = (false, ⟨b.refill capacity rate now, now⟩)) := by
  by_cases h : 1 ≤ b.refill capacity rate now
  · exact .inl ⟨h, if_pos h⟩
  · exact .inr ⟨not_le.mp h, if_neg h⟩

theorem Bucket.refill_le (b : Bucket K) (now : K) :
    b.refill capacity rate now ≤ b.level + rate * (now - b.since) := min_le_right _ _

theorem run_cons (c : K × K) (l : List (K × K)) : (machine capacity rate).run (some b) (c :: l) =
    (c, (b.take capacity rate c.2).1) :: (machine capacity rate).run (some (b.take capacity rate c.2).2) l :=
  rfl

omit [Field K] in
theorem accepted_cons (c : K × K) (ok : Bool) (out : List ((K × K) × Bool)) :
    accepted t e ((c, ok) :: out) = accepted t e out + if ok && t ≤ c.2 && c.2 < e then 1 else 0 :=
  List.countP_cons

/-- Nothing is let through before the first request. -/
theorem accepted_eq_zero {s : Option (machine capacity rate).State} (h : ∀ c ∈ l, e ≤ c.2) :
    accepted t e ((machine capacity rate).run s l) = 0 := by
  apply List.countP_eq_zero.mpr
  intro p hp
  have hmem := Machine.fst_mem_of_mem_run hp
  simp [not_lt.mpr (h p.1 hmem)]

omit [Field K] in
theorem Ordered.sublist {l' : List (K × K)} (hl : Ordered l) (h : l'.Sublist l) : Ordered l' :=
  ⟨fun c hc => hl.made c (h.mem hc), hl.sorted.sublist h⟩

/-- Requests that all fall into the window. -/
theorem accepted_of_forall {s : Option (machine capacity rate).State} (h : ∀ c ∈ l, t ≤ c.2 ∧ c.2 < e) :
    accepted t e ((machine capacity rate).run s l) = ((machine capacity rate).run s l).countP (·.2) := by
  apply List.countP_congr
  intro p hp
  have hmem := Machine.fst_mem_of_mem_run hp
  simp [(h p.1 hmem).1, (h p.1 hmem).2]

/-- The cells are between none and the capacity. -/
structure Bucket.Valid (capacity : ℕ) (b : Bucket K) : Prop where
  nonneg : 0 ≤ b.level
  le_capacity : b.level ≤ capacity

variable [IsStrictOrderedRing K]

theorem Bucket.full_valid (now : K) : (Bucket.full capacity now).Valid capacity :=
  ⟨Nat.cast_nonneg _, le_refl _⟩

theorem Bucket.refill_nonneg (hb : b.Valid capacity) (hrate : 0 ≤ rate) {now : K} (hnow : b.since ≤ now) :
    0 ≤ b.refill capacity rate now :=
  le_min (Nat.cast_nonneg _) (add_nonneg hb.nonneg (mul_nonneg hrate (sub_nonneg.mpr hnow)))

theorem Bucket.take_valid (hb : b.Valid capacity) (hrate : 0 ≤ rate) {now : K} (hnow : b.since ≤ now) :
    (b.take capacity rate now).2.Valid capacity ∧ (b.take capacity rate now).2.since = now := by
  have hnonneg := Bucket.refill_nonneg hb hrate hnow
  have hle : b.refill capacity rate now ≤ capacity := min_le_left _ _
  rcases @Bucket.take_cases K _ _ capacity rate b now with ⟨h, ht⟩ | ⟨h, ht⟩
  · rw [ht]
    exact ⟨⟨sub_nonneg.mpr h, (sub_le_self _ zero_le_one).trans hle⟩, rfl⟩
  · rw [ht]
    exact ⟨⟨hnonneg, hle⟩, rfl⟩

/-- After a request the bucket is ready for the later ones. -/
theorem Bucket.take_next {c : K × K} (hb : b.Valid capacity) (hrate : 0 ≤ rate)
    (hl : (c :: l).Pairwise fun c c' => c.2 ≤ c'.2) (hsince : ∀ d ∈ c :: l, b.since ≤ d.2) :
    (b.take capacity rate c.2).2.Valid capacity ∧ (b.take capacity rate c.2).2.since = c.2 ∧
      ∀ d ∈ l, (b.take capacity rate c.2).2.since ≤ d.2 := by
  obtain ⟨hvalid, hat⟩ := Bucket.take_valid hb hrate (hsince c (List.mem_cons_self ..))
  refine ⟨hvalid, hat, fun d hd => ?_⟩
  rw [hat]
  exact (List.pairwise_cons.mp hl).1 d hd

/-- Up to `e`, less is let through than is there and is refilled, if anything is. -/
theorem accepted_before (hb : b.Valid capacity) (hrate : 0 < rate)
    (hl : l.Pairwise fun c c' => c.2 ≤ c'.2) (hsince : ∀ c ∈ l, b.since ≤ c.2) (ht : ∀ c ∈ l, t ≤ c.2) :
    accepted t e ((machine capacity rate).run (some b) l) = 0 ∨
      (accepted t e ((machine capacity rate).run (some b) l) : K) < b.level + rate * (e - b.since) := by
  induction l generalizing b with
  | nil => exact .inl rfl
  | cons c l ih =>
    obtain ⟨hlater, hsorted⟩ := List.pairwise_cons.mp hl
    have htc := ht c (List.mem_cons_self ..)
    by_cases hce : c.2 < e
    · obtain ⟨hvalid, hat, hnext⟩ := Bucket.take_next hb hrate.le hl hsince
      have ih := ih hvalid hsorted hnext fun d hd => ht d (List.mem_cons_of_mem _ hd)
      rw [hat] at ih
      have hrefill := @Bucket.refill_le K _ _ capacity rate b c.2
      have hmore : rate * (c.2 - b.since) + rate * (e - c.2) = rate * (e - b.since) := by ring
      have hleft : 0 < rate * (e - c.2) := mul_pos hrate (sub_pos.mpr hce)
      rw [run_cons, accepted_cons]
      rcases @Bucket.take_cases K _ _ capacity rate b c.2 with ⟨hcell, htake⟩ | ⟨hnone, htake⟩
      · rw [htake] at ih ⊢
        simp only [htc, hce, decide_true, Bool.and_self, if_true, Nat.cast_add, Nat.cast_one]
        rcases ih with ih | ih
        · rw [ih, Nat.cast_zero]
          exact .inr (by linarith)
        · exact .inr (by linarith)
      · rw [htake] at ih ⊢
        simp only [Bool.false_and, Bool.false_eq_true, if_false, add_zero]
        exact ih.imp_right fun ih => by linarith
    · refine .inl (accepted_eq_zero fun d hd => ?_)
      rcases List.mem_cons.mp hd with rfl | hd
      · exact not_lt.mp hce
      · exact (not_lt.mp hce).trans (hlater d hd)

/-- **A window** lets through less than a full bucket and what is refilled in it. -/
theorem accepted_window_lt (hb : b.Valid capacity) (hrate : 0 < rate) (hw : 0 < w)
    (hl : l.Pairwise fun c c' => c.2 ≤ c'.2) (hsince : ∀ c ∈ l, b.since ≤ c.2) :
    (accepted t (t + w) ((machine capacity rate).run (some b) l) : K) < capacity + rate * w := by
  have hpos : (0 : K) < capacity + rate * w := add_pos_of_nonneg_of_pos (Nat.cast_nonneg _) (mul_pos hrate hw)
  induction l generalizing b with
  | nil => simpa [machine, Machine.run, accepted] using hpos
  | cons c l ih =>
    obtain ⟨hlater, hsorted⟩ := List.pairwise_cons.mp hl
    obtain ⟨hvalid, hat, hnext⟩ := Bucket.take_next hb hrate.le hl hsince
    rw [run_cons, accepted_cons]
    by_cases htc : t ≤ c.2
    · by_cases hce : c.2 < t + w
      · -- the first request of the window
        have hfirst := accepted_before (e := t + w) hvalid hrate hsorted hnext
          fun d hd => htc.trans (hlater d hd)
        rw [hat] at hfirst
        have hcap : b.refill capacity rate c.2 ≤ capacity := min_le_left _ _
        have hshort : rate * (t + w - c.2) ≤ rate * w := mul_le_mul_of_nonneg_left (by linarith) hrate.le
        have hwindow := mul_pos hrate hw
        rcases @Bucket.take_cases K _ _ capacity rate b c.2 with ⟨hcell, htake⟩ | ⟨hnone, htake⟩
        · rw [htake] at hfirst ⊢
          simp only [htc, hce, decide_true, Bool.and_self, if_true, Nat.cast_add, Nat.cast_one]
          rcases hfirst with h | h
          · rw [h, Nat.cast_zero]
            linarith
          · linarith
        · rw [htake] at hfirst ⊢
          simp only [Bool.false_and, Bool.false_eq_true, if_false, add_zero]
          rcases hfirst with h | h
          · rw [h, Nat.cast_zero]
            exact hpos
          · linarith
      · simp only [hce, decide_false, Bool.and_false, Bool.false_eq_true, if_false, add_zero]
        exact ih hvalid hsorted hnext
    · simp only [htc, decide_false, Bool.and_false, Bool.false_and, Bool.false_eq_true, if_false, add_zero]
      exact ih hvalid hsorted hnext

/-- From the first request on. -/
theorem accepted_window_lt_of_none (capacity : ℕ) (t : K) (hrate : 0 < rate) (hw : 0 < w) (hl : Ordered l) :
    (accepted t (t + w) ((machine capacity rate).run none l) : K) < capacity + rate * w := by
  cases l with
  | nil =>
    have hpos := add_pos_of_nonneg_of_pos (Nat.cast_nonneg (α := K) capacity) (mul_pos hrate hw)
    simpa [machine, Machine.run, accepted] using hpos
  | cons c l =>
    have hc := hl.made c (List.mem_cons_self ..)
    apply accepted_window_lt (Bucket.full_valid c.1) hrate hw hl.sorted
    intro d hd
    rcases List.mem_cons.mp hd with rfl | hd
    · exact hc
    · exact hc.trans ((List.pairwise_cons.mp hl.sorted).1 d hd)

/-- At one instant no more is let through than fits. -/
theorem accepted_instant_le (capacity : ℕ) (hrate : 0 < rate) (hl : Ordered l) (x : K) :
    accepted x (x + 1 / rate) ((machine capacity rate).run none l) ≤ capacity := by
  have hlt := accepted_window_lt_of_none capacity x hrate (one_div_pos.mpr hrate) hl
  rw [mul_one_div_cancel hrate.ne', ← Nat.cast_succ, Nat.cast_lt] at hlt
  omega

/-! ### What is left -/

/-- The cells that a request finds after others. -/
def cellsLeft (capacity : ℕ) (rate : K) (l : List (K × K)) (c : K × K) : K :=
  (((machine capacity rate).after none l).getD (.full capacity c.1)).refill capacity rate c.2

omit [IsStrictOrderedRing K] in
theorem feed_after (l : List (K × K)) (c : K × K) :
    ((machine capacity rate).feed ((machine capacity rate).after none l) c).1 =
      decide (1 ≤ cellsLeft capacity rate l c) := by
  rcases @Bucket.take_cases K _ _ capacity rate (((machine capacity rate).after none l).getD
    (.full capacity c.1)) c.2 with ⟨h, htake⟩ | ⟨h, htake⟩
  · exact (congrArg Prod.fst htake).trans (decide_eq_true h).symm
  · exact (congrArg Prod.fst htake).trans (decide_eq_false (not_le.mpr h)).symm

theorem Bucket.le_refill (hb : b.Valid capacity) (hrate : 0 ≤ rate) {now : K} (hnow : b.since ≤ now) :
    b.level ≤ b.refill capacity rate now :=
  le_min hb.le_capacity (le_add_of_nonneg_right (mul_nonneg hrate (sub_nonneg.mpr hnow)))

/-- Each request takes one cell at most. -/
theorem exists_after (hb : b.Valid capacity) (hrate : 0 ≤ rate) (hl : l.Pairwise fun c c' => c.2 ≤ c'.2)
    (hsince : ∀ c ∈ l, b.since ≤ c.2) (ht : ∀ c ∈ l, c.2 ≤ t) (hbt : b.since ≤ t) :
    ∃ b', (machine capacity rate).after (some b) l = some b' ∧ b'.Valid capacity ∧ b'.since ≤ t ∧
      b.level - l.length ≤ b'.level := by
  induction l generalizing b with
  | nil => exact ⟨b, rfl, hb, hbt, by simp⟩
  | cons c l ih =>
    have hc := hsince c (List.mem_cons_self ..)
    obtain ⟨hvalid, hat, hnext⟩ := Bucket.take_next hb hrate hl hsince
    obtain ⟨b', hafter, hb', hbt', hlevel⟩ := ih hvalid hl.of_cons hnext
      (fun d hd => ht d (List.mem_cons_of_mem _ hd)) (by rw [hat]; exact ht c (List.mem_cons_self ..))
    refine ⟨b', hafter, hb', hbt', ?_⟩
    have hrefill := Bucket.le_refill hb hrate hc
    rw [List.length_cons, Nat.cast_succ]
    rcases @Bucket.take_cases K _ _ capacity rate b c.2 with ⟨-, htake⟩ | ⟨-, htake⟩
    · rw [htake] at hlevel
      dsimp only at hlevel
      linarith
    · rw [htake] at hlevel
      dsimp only at hlevel
      linarith

/-- **A cell is left** after fewer requests than there is room for. -/
theorem one_le_cellsLeft (hrate : 0 ≤ rate) {c : K × K} (hl : Ordered (l ++ [c])) (hfew : l.length < capacity) :
    1 ≤ cellsLeft capacity rate l c := by
  have hroom : (1 : K) ≤ capacity - l.length := by
    rw [le_sub_iff_add_le, ← Nat.cast_one, ← Nat.cast_add, Nat.cast_le]
    omega
  have hmade := hl.made c (by simp)
  unfold cellsLeft
  cases l with
  | nil =>
    refine hroom.trans (le_trans ?_ (Bucket.le_refill (Bucket.full_valid c.1) hrate hmade))
    exact sub_le_self _ (Nat.cast_nonneg _)
  | cons d l =>
    obtain ⟨hsorted, -, hlast⟩ := List.pairwise_append.mp hl.sorted
    have hd : d.1 ≤ d.2 := hl.made d (by simp)
    have hdc : ∀ e ∈ d :: l, e.2 ≤ c.2 := fun e he => hlast e he c (by simp)
    have hsince : ∀ e ∈ d :: l, (Bucket.full capacity d.1).since ≤ e.2 := by
      intro e he
      rcases List.mem_cons.mp he with rfl | he
      · exact hd
      · exact hd.trans ((List.pairwise_cons.mp hsorted).1 e he)
    obtain ⟨b', hafter, hb', hbt, hlevel⟩ := exists_after (Bucket.full_valid d.1) hrate hsorted hsince hdc
      (hd.trans (hdc d (by simp)))
    show 1 ≤ (((machine capacity rate).after (some (Bucket.full capacity d.1)) (d :: l)).getD _).refill
      capacity rate c.2
    rw [hafter]
    exact hroom.trans (hlevel.trans (Bucket.le_refill hb' hrate hbt))

/-- Whatever a bucket holds, it is full when as much as it has room for is refilled. -/
theorem Bucket.refill_eq_capacity (hb : b.Valid capacity) (hrate : 0 ≤ rate) {now : K} (hsince : b.since ≤ t)
    (hfull : capacity ≤ rate * (now - t)) : b.refill capacity rate now = capacity := by
  have hlonger : rate * (now - t) ≤ rate * (now - b.since) := mul_le_mul_of_nonneg_left (by linarith) hrate
  exact min_eq_left (by linarith [hb.nonneg])

/-- A request takes a cell, if it is let through, and what is refilled later is refilled all the same. -/
theorem Bucket.refill_take (b : Bucket K) (hrate : 0 ≤ rate) {s now : K} (hnow : s ≤ now) :
    b.refill capacity rate now - (if (b.take capacity rate s).1 then 1 else 0) ≤
      (b.take capacity rate s).2.refill capacity rate now := by
  have hle : b.refill capacity rate now ≤ capacity := min_le_left _ _
  have hmore : 0 ≤ rate * (now - s) := mul_nonneg hrate (sub_nonneg.mpr hnow)
  have hlater : b.refill capacity rate now ≤ b.refill capacity rate s + rate * (now - s) := by
    have hsum : b.level + rate * (now - b.since) = b.level + rate * (s - b.since) + rate * (now - s) := by ring
    rw [Bucket.refill, Bucket.refill, hsum, min_add]
    exact min_le_min_right _ (by linarith)
  rcases @Bucket.take_cases K _ _ capacity rate b s with ⟨-, htake⟩ | ⟨-, htake⟩
  · rw [htake]
    refine le_min ?_ ?_
    · simp only [if_true]
      linarith
    · simp only [if_true]
      linarith
  · rw [htake]
    refine le_min ?_ ?_
    · simp only [Bool.false_eq_true, if_false]
      linarith
    · simp only [Bool.false_eq_true, if_false]
      linarith

/-- Requests that are `capacity` refills old do not matter. -/
theorem refill_after (hb : b.Valid capacity) (hrate : 0 ≤ rate) (hl : l.Pairwise fun c c' => c.2 ≤ c'.2)
    (hsince : ∀ c ∈ l, b.since ≤ c.2) {now : K} (hnow : ∀ c ∈ l, c.2 ≤ now)
    (hfull : capacity ≤ rate * (now - t)) :
    ∃ b', (machine capacity rate).after (some b) l = some b' ∧
      b.refill capacity rate now - acceptedAfter t ((machine capacity rate).run (some b) l) ≤
        b'.refill capacity rate now := by
  induction l generalizing b with
  | nil => exact ⟨b, rfl, by simp [Machine.run, acceptedAfter]⟩
  | cons c l ih =>
    obtain ⟨hvalid, hat, hnext⟩ := Bucket.take_next hb hrate hl hsince
    obtain ⟨b', hafter, hle⟩ := ih hvalid hl.of_cons hnext fun d hd => hnow d (List.mem_cons_of_mem _ hd)
    refine ⟨b', hafter, le_trans ?_ hle⟩
    rw [run_cons, acceptedAfter, List.countP_cons, Nat.cast_add, ← acceptedAfter]
    by_cases ht : t < c.2
    · have htake := @Bucket.refill_take K _ _ capacity rate _ b hrate c.2 now (hnow c (List.mem_cons_self ..))
      simp only [ht, decide_true, Bool.and_true, Nat.cast_ite, Nat.cast_one, Nat.cast_zero]
      linarith
    · have hold := Bucket.refill_eq_capacity hvalid hrate (hat.trans_le (not_lt.mp ht)) hfull
      have hmost : b.refill capacity rate now ≤ capacity := min_le_left _ _
      rw [hold]
      simp only [ht, decide_false, Bool.and_false, Bool.false_eq_true, if_false, Nat.cast_zero]
      linarith

/-- **A cell is left** when fewer requests than the capacity were let through in the time that refills the
bucket. -/
theorem one_le_cellsLeft_of_few (hrate : 0 ≤ rate) {c : K × K} (hl : Ordered (l ++ [c]))
    (hfull : capacity ≤ rate * (c.2 - t))
    (hfew : acceptedAfter t ((machine capacity rate).run none l) < capacity) : 1 ≤ cellsLeft capacity rate l c := by
  have hroom : (1 : K) ≤ capacity - acceptedAfter t ((machine capacity rate).run none l) := by
    rw [le_sub_iff_add_le, ← Nat.cast_one, ← Nat.cast_add, Nat.cast_le]
    omega
  have hfirst : ∀ {d : K × K}, d.1 ≤ c.2 → (Bucket.full capacity d.1).refill capacity rate c.2 = capacity := fun hd =>
    min_eq_left (le_add_of_nonneg_right (mul_nonneg hrate (sub_nonneg.mpr hd)))
  refine hroom.trans ?_
  unfold cellsLeft
  cases l with
  | nil =>
    show _ ≤ (Bucket.full capacity c.1).refill capacity rate c.2
    rw [hfirst (hl.made c (by simp))]
    exact sub_le_self _ (Nat.cast_nonneg _)
  | cons d l =>
    obtain ⟨hsorted, -, hlast⟩ := List.pairwise_append.mp hl.sorted
    have hd : d.1 ≤ d.2 := hl.made d (by simp)
    have hdc : ∀ e ∈ d :: l, e.2 ≤ c.2 := fun e he => hlast e he c (by simp)
    have hsince : ∀ e ∈ d :: l, (Bucket.full capacity d.1).since ≤ e.2 := by
      intro e he
      rcases List.mem_cons.mp he with rfl | he
      · exact hd
      · exact hd.trans ((List.pairwise_cons.mp hsorted).1 e he)
    obtain ⟨b', hafter, hle⟩ := refill_after (Bucket.full_valid d.1) hrate hsorted hsince hdc hfull
    rw [hfirst (hd.trans (hdc d (by simp)))] at hle
    show _ ≤ (((machine capacity rate).after (some (Bucket.full capacity d.1)) (d :: l)).getD _).refill
      capacity rate c.2
    rw [hafter]
    exact hle

/-! ### Bursts -/

variable {x : K} {j : ℕ}

theorem take_burst (hj : j ≤ capacity) : (⟨j, x⟩ : Bucket K).take capacity rate x =
    (decide (1 ≤ j), ⟨(j - 1 : ℕ), x⟩) := by
  have hrefill : (⟨j, x⟩ : Bucket K).refill capacity rate x = j := by
    unfold Bucket.refill
    rw [sub_self, mul_zero, add_zero, min_eq_right (Nat.cast_le.mpr hj)]
  unfold Bucket.take
  dsimp only
  rw [hrefill]
  by_cases h : 1 ≤ j
  · rw [if_pos (Nat.one_le_cast.mpr h), Nat.cast_sub h, Nat.cast_one, decide_eq_true h]
  · have hcell : ¬ (1 : K) ≤ (j : K) := fun hcell => h (Nat.one_le_cast.mp hcell)
    rw [if_neg hcell, decide_eq_false h, show j - 1 = j by omega]

/-- Of requests at one instant as many are let through as there are cells. -/
theorem burst (rate : K) (hl : ∀ c ∈ l, c.2 = x) (hj : j ≤ capacity) :
    ((machine capacity rate).run (some ⟨j, x⟩) l).countP (·.2) = min j l.length ∧
      (machine capacity rate).after (some ⟨j, x⟩) l = some ⟨(j - l.length : ℕ), x⟩ := by
  induction l generalizing j with
  | nil => exact ⟨(Nat.min_zero j).symm, rfl⟩
  | cons c l ih =>
    have hstep : (machine capacity rate).feed (some ⟨j, x⟩) c = (decide (1 ≤ j), ⟨(j - 1 : ℕ), x⟩) := by
      show (⟨j, x⟩ : Bucket K).take capacity rate c.2 = _
      rw [hl c (List.mem_cons_self ..), take_burst hj]
      rfl
    obtain ⟨hcount, hafter⟩ := ih (j := j - 1) (fun d hd => hl d (List.mem_cons_of_mem _ hd)) (by omega)
    rw [Machine.run, Machine.after, hstep, List.countP_cons, hcount, hafter, List.length_cons]
    refine ⟨?_, by rw [show j - 1 - l.length = j - (l.length + 1) by omega]⟩
    simp only [decide_eq_true_eq]
    split <;> omega

/-- A new bucket is full at its first request. -/
theorem run_none (capacity : ℕ) {c : K × K} (hrate : 0 ≤ rate) (hc : c.1 ≤ c.2) (l : List (K × K)) :
    (machine capacity rate).run none (c :: l) = (machine capacity rate).run (some ⟨capacity, c.2⟩) (c :: l) ∧
      (machine capacity rate).after none (c :: l) =
        (machine capacity rate).after (some ⟨capacity, c.2⟩) (c :: l) := by
  have hstep : (machine capacity rate).feed none c = (machine capacity rate).feed (some ⟨capacity, c.2⟩) c := by
    show (Bucket.full capacity c.1).take capacity rate c.2 = (⟨capacity, c.2⟩ : Bucket K).take capacity rate c.2
    have hfull : (Bucket.full capacity c.1).refill capacity rate c.2 = capacity :=
      min_eq_left (le_add_of_nonneg_right (mul_nonneg hrate (sub_nonneg.mpr hc)))
    have hnow : (⟨capacity, c.2⟩ : Bucket K).refill capacity rate c.2 = capacity :=
      min_eq_left (le_add_of_nonneg_right (mul_nonneg hrate (sub_nonneg.mpr le_rfl)))
    unfold Bucket.take
    dsimp only
    rw [hfull, hnow]
  rw [Machine.run, Machine.run, Machine.after, Machine.after, hstep]
  exact ⟨rfl, rfl⟩

omit [Field K] [IsStrictOrderedRing K] in
theorem ordered_of_forall_eq (h : ∀ c ∈ l, c = (x, x)) : Ordered l :=
  ⟨fun c hc => by rw [h c hc], List.pairwise_of_forall_mem_list fun c hc d hd => by rw [h c hc, h d hd]⟩

theorem burst_of_none (capacity : ℕ) (hrate : 0 ≤ rate) (hmade : ∀ c ∈ l, c.1 ≤ x) (hl : ∀ c ∈ l, c.2 = x) :
    ((machine capacity rate).run none l).countP (·.2) = min capacity l.length := by
  cases l with
  | nil => exact (Nat.min_zero _).symm
  | cons c l =>
    have hc := hl c (List.mem_cons_self ..)
    have hmade := hmade c (List.mem_cons_self ..)
    rw [(run_none capacity hrate (hmade.trans hc.ge) l).1, hc, (burst rate hl le_rfl).1]

/-- A burst leaves nothing. -/
theorem cellsLeft_burst (hrate : 0 ≤ rate) (hcapacity : 1 ≤ capacity) (x : K) :
    cellsLeft capacity rate (List.replicate capacity (x, x)) (x, x) = 0 := by
  obtain ⟨n, rfl⟩ := Nat.exists_eq_add_of_le' hcapacity
  have hall : ∀ c ∈ List.replicate (n + 1) (x, x), c.2 = x := fun c hc => by rw [List.eq_of_mem_replicate hc]
  obtain ⟨-, hafter⟩ := burst rate hall (le_refl (n + 1))
  rw [List.length_replicate, Nat.sub_self] at hafter
  obtain ⟨-, hstate⟩ := run_none (n + 1) (c := (x, x)) hrate le_rfl (List.replicate n (x, x))
  rw [← List.replicate_succ, hafter] at hstate
  unfold cellsLeft
  rw [hstate]
  show (⟨(0 : ℕ), x⟩ : Bucket K).refill (n + 1) rate x = 0
  simp only [Bucket.refill, Nat.cast_zero, sub_self, mul_zero, add_zero]
  exact min_eq_right (Nat.cast_nonneg _)

/-- Requests one refilled cell apart, from `x` on. -/
def apart (rate x : K) (k : ℕ) : List (K × K) :=
  (List.range k).map fun i => (x + (i + 1 : ℕ) / rate, x + (i + 1 : ℕ) / rate)

omit [LinearOrder K] [IsStrictOrderedRing K] in
theorem apart_succ (rate x : K) (k : ℕ) :
    apart rate x (k + 1) = apart rate x k ++ [(x + (k + 1 : ℕ) / rate, x + (k + 1 : ℕ) / rate)] := by
  rw [apart, List.range_succ, List.map_append]
  rfl

theorem mem_apart (hrate : 0 < rate) {k : ℕ} {c : K × K} (hc : c ∈ apart rate x k) :
    c.1 = c.2 ∧ x ≤ c.2 ∧ c.2 ≤ x + k / rate := by
  obtain ⟨i, hi, rfl⟩ := List.mem_map.mp hc
  have hi : i + 1 ≤ k := List.mem_range.mp hi
  have hle : ((i + 1 : ℕ) : K) / rate ≤ k / rate := div_le_div_of_nonneg_right (Nat.cast_le.mpr hi) hrate.le
  exact ⟨rfl, le_add_of_nonneg_right (div_nonneg (Nat.cast_nonneg _) hrate.le), add_le_add_right hle x⟩

theorem take_refilled (hcapacity : 1 ≤ capacity) {now : K} (hnow : rate * (now - x) = 1) :
    (⟨0, x⟩ : Bucket K).take capacity rate now = (true, ⟨0, now⟩) := by
  have hcell : (⟨0, x⟩ : Bucket K).refill capacity rate now = 1 := by
    unfold Bucket.refill
    rw [zero_add, hnow]
    exact min_eq_right (Nat.one_le_cast.mpr hcapacity)
  rcases @Bucket.take_cases K _ _ capacity rate ⟨0, x⟩ now with ⟨-, htake⟩ | ⟨hnone, -⟩
  · rw [htake, hcell, sub_self]
  · exact absurd hcell.ge (not_le.mpr hnone)

/-- An empty bucket lets each of these through. -/
theorem refills (hrate : 0 < rate) (hcapacity : 1 ≤ capacity) (k : ℕ) :
    ((machine capacity rate).run (some ⟨0, x⟩) (apart rate x k)).countP (·.2) = k ∧
      (machine capacity rate).after (some ⟨0, x⟩) (apart rate x k) = some ⟨0, x + k / rate⟩ := by
  induction k with
  | zero => exact ⟨rfl, by rw [Nat.cast_zero, zero_div, add_zero]; rfl⟩
  | succ k ih =>
    have hstep : rate * (x + (k + 1 : ℕ) / rate - (x + k / rate)) = 1 := by
      rw [Nat.cast_succ, add_div, ← add_assoc, add_sub_cancel_left, mul_one_div_cancel hrate.ne']
    have htake := take_refilled hcapacity hstep
    rw [apart_succ, Machine.run_append, List.countP_append, Machine.after_append, ih.1, ih.2, run_cons, htake]
    refine ⟨rfl, ?_⟩
    show some ((⟨0, x + k / rate⟩ : Bucket K).take capacity rate (x + (k + 1 : ℕ) / rate)).2 = _
    rw [htake]
    rfl

/-- A burst at `x`, and a request for each cell refilled then. -/
def busy (capacity : ℕ) (rate x : K) (k : ℕ) : List (K × K) := List.replicate capacity (x, x) ++ apart rate x k

theorem mem_busy (hrate : 0 < rate) {k : ℕ} {c : K × K} (hc : c ∈ busy capacity rate x k) :
    c.1 = c.2 ∧ x ≤ c.2 ∧ c.2 ≤ x + k / rate := by
  rcases List.mem_append.mp hc with hc | hc
  · rw [List.eq_of_mem_replicate hc]
    exact ⟨rfl, le_rfl, le_add_of_nonneg_right (div_nonneg (Nat.cast_nonneg _) hrate.le)⟩
  · exact mem_apart hrate hc

theorem busy_ordered (hrate : 0 < rate) (k : ℕ) : Ordered (busy capacity rate x k) := by
  refine ⟨fun c hc => (mem_busy hrate hc).1.le, List.pairwise_append.mpr ⟨?_, ?_, ?_⟩⟩
  · exact List.pairwise_replicate.mpr (.inr le_rfl)
  · refine List.pairwise_map.mpr (List.pairwise_lt_range.imp fun hlt => ?_)
    exact add_le_add_right (div_le_div_of_nonneg_right (Nat.cast_le.mpr (Nat.succ_le_succ hlt.le)) hrate.le) x
  · intro c hc c' hc'
    rw [List.eq_of_mem_replicate hc]
    exact (mem_apart hrate hc').2.1

/-- **A burst and refills**: after a full bucket is used up at once, each refilled cell lets one more
through. -/
theorem burst_refills (hrate : 0 < rate) (hcapacity : 1 ≤ capacity) (x : K) (k : ℕ) :
    ((machine capacity rate).run none (busy capacity rate x k)).countP (·.2) = capacity + k := by
  obtain ⟨n, rfl⟩ := Nat.exists_eq_add_of_le' hcapacity
  have hall : ∀ c ∈ List.replicate (n + 1) (x, x), c.2 = x := fun c hc => by rw [List.eq_of_mem_replicate hc]
  obtain ⟨hcount, hafter⟩ := burst rate hall (le_refl (n + 1))
  rw [List.length_replicate] at hcount hafter
  obtain ⟨hrun, hstate⟩ := run_none (n + 1) (c := (x, x)) hrate.le le_rfl (List.replicate n (x, x))
  rw [← List.replicate_succ] at hrun hstate
  rw [busy, Machine.run_append, List.countP_append, hrun, hcount, hstate, hafter, Nat.sub_self, Nat.cast_zero,
    Nat.min_self, (refills hrate hcapacity k).1]

end TokenBucket
