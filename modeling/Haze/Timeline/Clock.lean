import Mathlib.Algebra.Order.Floor.Semiring
import Mathlib.Algebra.Order.Field.Basic
import Mathlib.Algebra.BigOperators.Intervals
import Mathlib.Tactic.Linarith

/-
  A clock that changes its rate.

  A timeline is cut into segments where the rate changes, and the clock counts the whole
  units of each segment. Rounding down at every cut loses up to a unit a segment, but the
  reading still grows with the target (`reading_mono`): up to the first cut where two targets
  part they share their segments, and there the nearer one has a part of a segment of which
  the other has all. What it loses is less than a unit a segment (`exactReading_lt`) against the
  rate added up over the timeline (`sum_rateAt`).
-/

namespace Timeline

variable {K : Type}

/-! ## Segments -/

/-- The lengths and rates of the segments from `last` to the target. A change is where it
is and the rate from there on; one behind the target is not reached. -/
def segments (rate : K) (last target : Nat) : List (Nat × K) → List (Nat × K)
  | [] => [(target - last, rate)]
  | change :: changes =>
    if target < change.1 then [(target - last, rate)]
    else (change.1 - last, rate) :: segments change.2 change.1 target changes

theorem segments_near {rate : K} {last target : Nat} {change : Nat × K} {changes : List (Nat × K)}
    (hnear : target < change.1) :
    segments rate last target (change :: changes) = [(target - last, rate)] :=
  if_pos hnear

theorem segments_far {rate : K} {last target : Nat} {change : Nat × K} {changes : List (Nat × K)}
    (hfar : ¬target < change.1) :
    segments rate last target (change :: changes) =
      (change.1 - last, rate) :: segments change.2 change.1 target changes :=
  if_neg hfar

/-- A bound on the segments to a target is one on the segments to every nearer target. -/
theorem segments_lt {changes : List (Nat × K)} {rate : K} {last target target' bound : Nat}
    (hle : target ≤ target') (hbound : ∀ s ∈ segments rate last target' changes, s.1 < bound) :
    ∀ s ∈ segments rate last target changes, s.1 < bound := by
  induction changes generalizing rate last with
  | nil =>
      rw [segments, List.forall_mem_singleton] at hbound ⊢
      exact (Nat.sub_le_sub_right hle last).trans_lt hbound
  | cons change changes ih =>
      by_cases hfar : target' < change.1
      · rw [segments_near hfar, List.forall_mem_singleton] at hbound
        rw [segments_near (hle.trans_lt hfar), List.forall_mem_singleton]
        exact (Nat.sub_le_sub_right hle last).trans_lt hbound
      · rw [segments_far hfar, List.forall_mem_cons] at hbound
        by_cases hnear : target < change.1
        · rw [segments_near hnear, List.forall_mem_singleton]
          exact (Nat.sub_le_sub_right hnear.le last).trans_lt hbound.1
        · rw [segments_far hnear, List.forall_mem_cons]
          exact ⟨hbound.1, ih hbound.2⟩

/-- The rates of the segments are the first one and those of the changes. -/
theorem segments_rates {p : K → Prop} {changes : List (Nat × K)} {rate : K} {last target : Nat}
    (hrate : p rate) (hchanges : ∀ c ∈ changes, p c.2) :
    ∀ s ∈ segments rate last target changes, p s.2 := by
  induction changes generalizing rate last with
  | nil =>
      rw [segments, List.forall_mem_singleton]
      exact hrate
  | cons change changes ih =>
      rw [List.forall_mem_cons] at hchanges
      by_cases hnear : target < change.1
      · rw [segments_near hnear, List.forall_mem_singleton]
        exact hrate
      · rw [segments_far hnear, List.forall_mem_cons]
        exact ⟨hrate, ih hchanges.1 hchanges.2⟩

/-! ## Rates -/

/-- The rate at a position: that of the last change at it or before. -/
def rateAt (rate : K) (changes : List (Nat × K)) (i : Nat) : K :=
  ((changes.filter (·.1 ≤ i)).getLast?).elim rate Prod.snd

/-- Before every change the rate is the first one. -/
theorem rateAt_of_lt {rate : K} {changes : List (Nat × K)} {i : Nat}
    (hlt : ∀ c ∈ changes, i < c.1) : rateAt rate changes i = rate := by
  have hnone : changes.filter (·.1 ≤ i) = [] := by
    rw [List.filter_eq_nil_iff]
    intro c hc
    simpa using hlt c hc
  unfold rateAt
  rw [hnone]
  rfl

/-- A change that was passed replaces the rate. -/
theorem rateAt_cons_of_le {rate : K} {change : Nat × K} {changes : List (Nat × K)} {i : Nat}
    (hle : change.1 ≤ i) :
    rateAt rate (change :: changes) i = rateAt change.2 changes i := by
  unfold rateAt
  rw [List.filter_cons_of_pos (by simpa using hle), List.getLast?_cons]
  cases (changes.filter (·.1 ≤ i)).getLast? <;> rfl

theorem length_segments {changes : List (Nat × K)} {rate : K} {last target : Nat}
    (hsorted : changes.Pairwise (·.1 ≤ ·.1)) :
    (segments rate last target changes).length = changes.countP (·.1 ≤ target) + 1 := by
  induction changes generalizing rate last with
  | nil => rfl
  | cons change changes ih =>
      rw [List.pairwise_cons] at hsorted
      by_cases hnear : target < change.1
      · have hnone : changes.countP (·.1 ≤ target) = 0 := by
          rw [List.countP_eq_zero]
          intro c hc
          simpa using hnear.trans_le (hsorted.1 c hc)
        rw [segments_near hnear, List.countP_cons_of_neg (by simpa using hnear), hnone]
        rfl
      · rw [segments_far hnear, List.length_cons, ih hsorted.2,
          List.countP_cons_of_pos (by simpa using hnear)]

variable [Field K]

/-- The segments without rounding. -/
def exactReading (segs : List (Nat × K)) : K := (segs.map fun s => (s.1 : K) * s.2).sum

theorem exactReading_cons (s : Nat × K) (segs : List (Nat × K)) :
    exactReading (s :: segs) = s.1 * s.2 + exactReading segs := by
  unfold exactReading
  rw [List.map_cons, List.sum_cons]

/-- Between two positions in front of every change. -/
theorem sum_rateAt_of_le {changes : List (Nat × K)} {rate : K} {last target : Nat}
    (hchanges : ∀ c ∈ changes, target ≤ c.1) :
    ∑ i ∈ Finset.Ico last target, rateAt rate changes i = ((target - last : Nat) : K) * rate := by
  have hrate : ∀ i ∈ Finset.Ico last target, rateAt rate changes i = rate := by
    intro i hi
    apply rateAt_of_lt
    intro c hc
    exact (Finset.mem_Ico.mp hi).2.trans_le (hchanges c hc)
  rw [Finset.sum_congr rfl hrate, Finset.sum_const, Nat.card_Ico, nsmul_eq_mul]

/-- The segments without rounding are the rate added up over the timeline. -/
theorem sum_rateAt {changes : List (Nat × K)} {rate : K} {last target : Nat}
    (hle : last ≤ target) (hlast : ∀ c ∈ changes, last ≤ c.1)
    (hsorted : changes.Pairwise (·.1 ≤ ·.1)) :
    ∑ i ∈ Finset.Ico last target, rateAt rate changes i =
      exactReading (segments rate last target changes) := by
  induction changes generalizing rate last with
  | nil =>
      rw [sum_rateAt_of_le (List.forall_mem_nil _), segments]
      simp [exactReading]
  | cons change changes ih =>
      rw [List.forall_mem_cons] at hlast
      rw [List.pairwise_cons] at hsorted
      by_cases hnear : target < change.1
      · have hchanges : ∀ c ∈ change :: changes, target ≤ c.1 := by
          rw [List.forall_mem_cons]
          exact ⟨hnear.le, fun c hc => hnear.le.trans (hsorted.1 c hc)⟩
        rw [sum_rateAt_of_le hchanges, segments_near hnear]
        simp [exactReading]
      · -- the sum is cut at the change
        have hfar : change.1 ≤ target := Nat.not_lt.mp hnear
        have hchanges : ∀ c ∈ change :: changes, change.1 ≤ c.1 := by
          rw [List.forall_mem_cons]
          exact ⟨le_rfl, hsorted.1⟩
        have hrest : ∑ i ∈ Finset.Ico change.1 target, rateAt rate (change :: changes) i =
            ∑ i ∈ Finset.Ico change.1 target, rateAt change.2 changes i :=
          Finset.sum_congr rfl fun i hi => rateAt_cons_of_le (Finset.mem_Ico.mp hi).1
        rw [segments_far hnear, exactReading_cons, ← Finset.sum_Ico_consecutive _ hlast.1 hfar,
          sum_rateAt_of_le hchanges, hrest, ih hfar hsorted.1 hsorted.2]

/-! ## Reading -/

variable [LinearOrder K] [FloorSemiring K]

/-- The whole units of each segment. -/
def reading (segs : List (Nat × K)) : Nat := (segs.map fun s => ⌊(s.1 : K) * s.2⌋₊).sum

theorem reading_cons (s : Nat × K) (segs : List (Nat × K)) :
    reading (s :: segs) = ⌊(s.1 : K) * s.2⌋₊ + reading segs := by
  unfold reading
  rw [List.map_cons, List.sum_cons]

theorem reading_singleton (s : Nat × K) : reading [s] = ⌊(s.1 : K) * s.2⌋₊ := by
  rw [reading_cons]
  rfl

variable [IsStrictOrderedRing K]

theorem floor_mul_mono {rate : K} (hrate : 0 ≤ rate) {n n' : Nat} (hle : n ≤ n') :
    ⌊n * rate⌋₊ ≤ ⌊n' * rate⌋₊ := by
  apply Nat.floor_le_floor
  exact mul_le_mul_of_nonneg_right (Nat.cast_le.mpr hle) hrate

theorem reading_mono {changes : List (Nat × K)} {rate : K} {last target target' : Nat}
    (hrate : 0 ≤ rate) (hchanges : ∀ c ∈ changes, 0 ≤ c.2) (hle : target ≤ target') :
    reading (segments rate last target changes) ≤ reading (segments rate last target' changes) := by
  induction changes generalizing rate last with
  | nil =>
      rw [segments, segments, reading_singleton, reading_singleton]
      exact floor_mul_mono hrate (Nat.sub_le_sub_right hle last)
  | cons change changes ih =>
      rw [List.forall_mem_cons] at hchanges
      have hrest : reading (segments change.2 change.1 target changes) ≤
          reading (segments change.2 change.1 target' changes) := ih hchanges.1 hchanges.2
      by_cases hfar : target' < change.1
      · rw [segments_near hfar, segments_near (hle.trans_lt hfar), reading_singleton,
          reading_singleton]
        exact floor_mul_mono hrate (Nat.sub_le_sub_right hle last)
      · by_cases hnear : target < change.1
        · -- a part of the segment against all of it
          rw [segments_near hnear, segments_far hfar, reading_singleton, reading_cons]
          exact (floor_mul_mono hrate (Nat.sub_le_sub_right hnear.le last)).trans
            (Nat.le_add_right _ _)
        · rw [segments_far hnear, segments_far hfar, reading_cons, reading_cons]
          exact Nat.add_le_add_left hrest _

/-! ## The error -/

theorem reading_le_exactReading {segs : List (Nat × K)} (hrates : ∀ s ∈ segs, 0 ≤ s.2) :
    (reading segs : K) ≤ exactReading segs := by
  induction segs with
  | nil => simp [reading, exactReading]
  | cons s segs ih =>
      rw [List.forall_mem_cons] at hrates
      have hfloor := Nat.floor_le (mul_nonneg (Nat.cast_nonneg s.1) hrates.1)
      have hrest := ih hrates.2
      rw [reading_cons, exactReading_cons, Nat.cast_add]
      linarith

/-- Every segment loses less than a unit. -/
theorem exactReading_lt (segs : List (Nat × K)) (s : Nat × K) :
    exactReading (s :: segs) < reading (s :: segs) + (s :: segs).length := by
  induction segs generalizing s with
  | nil =>
      have hfloor := Nat.lt_floor_add_one ((s.1 : K) * s.2)
      simpa [exactReading, reading_singleton] using hfloor
  | cons t segs ih =>
      have hfloor := Nat.lt_floor_add_one ((s.1 : K) * s.2)
      have hrest := ih t
      rw [reading_cons, exactReading_cons, Nat.cast_add, List.length_cons, Nat.cast_succ]
      linarith

end Timeline
