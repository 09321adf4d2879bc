import Haze.Timeline.Clock
import Mathlib

/-
  `TempoMapToFrame`: the frame at which a bar and a tick are played.

  The loop goes over the changes of tempo up to the target and adds the frames of each
  segment, in unsigned arithmetic of 64 bits. The products with the frames of a tick are
  taken as rational numbers. Where no number reaches 2^64 the loop reads the clock of the
  map (`tempoMapToFrame_eq`), so a later target is never at an earlier frame
  (`tempoMapToFrame_mono`), and the frame is less than one frame for each segment below the
  position without rounding (`tempoMapToFrame_error`). The rounding of the `double` products
  themselves is not followed.
-/

open Timeline

namespace Haze

/-! ## The loop -/

/-- `TICKS_PER_BEAT`. -/
def ticksPerBeat : Nat := 960

structure TempoPoint where
  bar : UInt32
  tick : UInt32
  bpm : ℚ

abbrev TempoMap := List TempoPoint

/-- The cast of a `double` to `uint64_t`, which is undefined for a number that does not
fit. -/
def castUInt64 (x : ℚ) : Option UInt64 :=
  if -1 < x ∧ x < 2 ^ 64 then some (.ofNat x.floor.toNat) else none

def framesPerTick (bpm : ℚ) (sampleRate : UInt32) : ℚ :=
  (60 * sampleRate.toNat) / (bpm * ticksPerBeat)

/-- The locals of the loop. -/
structure TempoState where
  frame : UInt64
  lastBar : UInt64
  lastTick : UInt64
  currentBpm : ℚ

namespace TempoState

def deltaTicks (s : TempoState) (bar tick beatsPerBar : UInt32) : UInt64 :=
  (bar.toUInt64 - s.lastBar) * beatsPerBar.toUInt64 * .ofNat ticksPerBeat + tick.toUInt64 -
    s.lastTick

/-- The frame after the segment up to a bar and a tick. A tempo of 0 has no frames per
tick. -/
def frameAt (s : TempoState) (bar tick sampleRate beatsPerBar : UInt32) : Option UInt64 :=
  if s.currentBpm = 0 then none
  else
    (castUInt64
      ((s.deltaTicks bar tick beatsPerBar).toNat * framesPerTick s.currentBpm sampleRate)).map
      (s.frame + ·)

end TempoState

/-- The locals behind a point. -/
def TempoPoint.reached (p : TempoPoint) (frame : UInt64) : TempoState where
  frame := frame
  lastBar := p.bar.toUInt64
  lastTick := p.tick.toUInt64
  currentBpm := p.bpm

/-- The loop over the points, up to the first one behind the target. -/
def tempoLoop (targetBar targetTick sampleRate beatsPerBar : UInt32) (s : TempoState) :
    List TempoPoint → Option TempoState
  | [] => some s
  | p :: points =>
    if targetBar < p.bar ∨ (p.bar = targetBar ∧ targetTick < p.tick) then some s
    else
      (s.frameAt p.bar p.tick sampleRate beatsPerBar).bind fun frame =>
        tempoLoop targetBar targetTick sampleRate beatsPerBar (p.reached frame) points

/-- `none` where the C function has no defined result: the first point of an empty map, or
a cast of a number that does not fit. -/
def tempoMapToFrame (map : TempoMap) (targetBar targetTick sampleRate beatsPerBar : UInt32) :
    Option UInt64 :=
  map.head?.bind fun first =>
    (tempoLoop targetBar targetTick sampleRate beatsPerBar
      { frame := 0, lastBar := 0, lastTick := 0, currentBpm := first.bpm } map).bind fun s =>
        s.frameAt targetBar targetTick sampleRate beatsPerBar

/-! ## Positions -/

/-- The number of a tick, counted from the start. -/
def tickNumber (beatsPerBar bar tick : UInt32) : Nat :=
  bar.toNat * (beatsPerBar.toNat * ticksPerBeat) + tick.toNat

/-- The order of a bar and a tick. -/
def Before (bar tick bar' tick' : UInt32) : Prop := bar < bar' ∨ (bar = bar' ∧ tick < tick')

instance (bar tick bar' tick' : UInt32) : Decidable (Before bar tick bar' tick') :=
  inferInstanceAs (Decidable (_ ∨ _))

theorem tickNumber_lt_iff {beatsPerBar bar tick bar' tick' : UInt32}
    (htick : tick.toNat < beatsPerBar.toNat * ticksPerBeat)
    (htick' : tick'.toNat < beatsPerBar.toNat * ticksPerBeat) :
    tickNumber beatsPerBar bar tick < tickNumber beatsPerBar bar' tick' ↔
      Before bar tick bar' tick' := by
  unfold tickNumber Before
  rw [UInt32.lt_iff_toNat_lt, UInt32.lt_iff_toNat_lt, ← UInt32.toNat_inj]
  generalize beatsPerBar.toNat * ticksPerBeat = perBar at htick htick' ⊢
  rcases Nat.lt_trichotomy bar.toNat bar'.toNat with hbar | hbar | hbar
  · have hbars : (bar.toNat + 1) * perBar ≤ bar'.toNat * perBar := Nat.mul_le_mul_right _ hbar
    rw [Nat.succ_mul] at hbars
    omega
  · rw [hbar]
    omega
  · have hbars : (bar'.toNat + 1) * perBar ≤ bar.toNat * perBar := Nat.mul_le_mul_right _ hbar
    rw [Nat.succ_mul] at hbars
    omega

/-- The unsigned difference of two positions is the number of ticks between them. -/
theorem deltaTicks_eq {s : TempoState} {lastBar lastTick bar tick beatsPerBar : UInt32}
    (hbar : s.lastBar = lastBar.toUInt64) (htick : s.lastTick = lastTick.toUInt64)
    (hle : tickNumber beatsPerBar lastBar lastTick ≤ tickNumber beatsPerBar bar tick) :
    s.deltaTicks bar tick beatsPerBar =
      .ofNat (tickNumber beatsPerBar bar tick - tickNumber beatsPerBar lastBar lastTick) := by
  have hnumber : ∀ b t : UInt32, UInt64.ofNat (tickNumber beatsPerBar b t) =
      b.toUInt64 * (beatsPerBar.toUInt64 * .ofNat ticksPerBeat) + t.toUInt64 := by
    intro b t
    unfold tickNumber
    rw [UInt64.ofNat_add, UInt64.ofNat_mul, UInt64.ofNat_mul, UInt64.ofNat_uInt32ToNat,
      UInt64.ofNat_uInt32ToNat, UInt64.ofNat_uInt32ToNat]
  unfold TempoState.deltaTicks
  rw [UInt64.ofNat_sub hle, hnumber, hnumber, hbar, htick]
  grind

theorem framesPerTick_nonneg {bpm : ℚ} (hbpm : 0 < bpm) (sampleRate : UInt32) :
    0 ≤ framesPerTick bpm sampleRate := by
  unfold framesPerTick
  positivity

theorem castUInt64_eq {x : ℚ} (hx : 0 ≤ x) (hfits : ⌊x⌋₊ < 2 ^ 64) :
    castUInt64 x = some (.ofNat ⌊x⌋₊) := by
  have hlt : x < 2 ^ 64 := by
    have h := (Nat.floor_lt hx).mp hfits
    exact_mod_cast h
  unfold castUInt64
  rw [if_pos ⟨by linarith, hlt⟩]
  rfl

/-- One segment: its ticks and the frames of them fit, so nothing wraps. -/
theorem frameAt_eq {s : TempoState} {bar tick sampleRate beatsPerBar : UInt32} {n : Nat}
    (hbpm : 0 < s.currentBpm) (hdelta : s.deltaTicks bar tick beatsPerBar = .ofNat n)
    (hn : n < 2 ^ 64) (hfits : ⌊(n : ℚ) * framesPerTick s.currentBpm sampleRate⌋₊ < 2 ^ 64) :
    s.frameAt bar tick sampleRate beatsPerBar =
      some (s.frame + .ofNat ⌊(n : ℚ) * framesPerTick s.currentBpm sampleRate⌋₊) := by
  have hnonneg : 0 ≤ (n : ℚ) * framesPerTick s.currentBpm sampleRate :=
    mul_nonneg (Nat.cast_nonneg n) (framesPerTick_nonneg hbpm sampleRate)
  unfold TempoState.frameAt
  rw [if_neg hbpm.ne', hdelta, UInt64.toNat_ofNat_of_lt' hn, castUInt64_eq hnonneg hfits]
  rfl

/-! ## The clock of a map -/

/-- The points are in order, and their ticks and tempos are in range. -/
structure TempoMap.WellFormed (map : TempoMap) (beatsPerBar : UInt32) : Prop where
  increasing : map.Pairwise fun p q => Before p.bar p.tick q.bar q.tick
  ticks : ∀ p ∈ map, p.tick.toNat < beatsPerBar.toNat * ticksPerBeat
  positive : ∀ p ∈ map, 0 < p.bpm

/-- A point as a change of the frames per tick. -/
def TempoPoint.change (sampleRate beatsPerBar : UInt32) (p : TempoPoint) : Nat × ℚ :=
  (tickNumber beatsPerBar p.bar p.tick, framesPerTick p.bpm sampleRate)

/-- The segments on the way to a target: their ticks, and the frames of a tick. -/
def TempoMap.segments (map : TempoMap) (targetBar targetTick sampleRate beatsPerBar : UInt32) :
    List (Nat × ℚ) :=
  map.head?.elim [] fun first =>
    Timeline.segments (framesPerTick first.bpm sampleRate) 0
      (tickNumber beatsPerBar targetBar targetTick) (map.map (·.change sampleRate beatsPerBar))

/-- A state at a bar and a tick, with the points ahead of it. -/
structure TempoState.At (s : TempoState) (beatsPerBar lastBar lastTick : UInt32)
    (points : TempoMap) : Prop where
  bar : s.lastBar = lastBar.toUInt64
  tick : s.lastTick = lastTick.toUInt64
  positive : 0 < s.currentBpm
  ahead : ∀ p ∈ points,
    tickNumber beatsPerBar lastBar lastTick ≤ tickNumber beatsPerBar p.bar p.tick

theorem at_reached {p : TempoPoint} {points : TempoMap} {beatsPerBar : UInt32}
    (hmap : TempoMap.WellFormed (p :: points) beatsPerBar) (frame : UInt64) :
    (p.reached frame).At beatsPerBar p.bar p.tick points where
  bar := rfl
  tick := rfl
  positive := hmap.positive p List.mem_cons_self
  ahead q hq := by
    have hp := hmap.ticks p List.mem_cons_self
    have hq' := hmap.ticks q (List.mem_cons_of_mem p hq)
    exact ((tickNumber_lt_iff hp hq').mpr ((List.pairwise_cons.mp hmap.increasing).1 q hq)).le

theorem TempoMap.WellFormed.tail {p : TempoPoint} {points : TempoMap} {beatsPerBar : UInt32}
    (hmap : TempoMap.WellFormed (p :: points) beatsPerBar) :
    TempoMap.WellFormed points beatsPerBar where
  increasing := (List.pairwise_cons.mp hmap.increasing).2
  ticks q hq := hmap.ticks q (List.mem_cons_of_mem p hq)
  positive q hq := hmap.positive q (List.mem_cons_of_mem p hq)

/-- The loop stops at the points behind the target. -/
theorem stops_iff {p : TempoPoint} {targetBar targetTick beatsPerBar : UInt32}
    (htarget : targetTick.toNat < beatsPerBar.toNat * ticksPerBeat)
    (hp : p.tick.toNat < beatsPerBar.toNat * ticksPerBeat) :
    targetBar < p.bar ∨ (p.bar = targetBar ∧ targetTick < p.tick) ↔
      tickNumber beatsPerBar targetBar targetTick < tickNumber beatsPerBar p.bar p.tick := by
  rw [tickNumber_lt_iff htarget hp, Before, eq_comm]

/-- The last segment, to the target itself. -/
theorem frameAt_target {points : TempoMap} {targetBar targetTick sampleRate beatsPerBar : UInt32}
    {s : TempoState} {lastBar lastTick : UInt32} (hat : s.At beatsPerBar lastBar lastTick points)
    (hle : tickNumber beatsPerBar lastBar lastTick ≤ tickNumber beatsPerBar targetBar targetTick)
    {segs : List (Nat × ℚ)}
    (hsegs : segs = [(tickNumber beatsPerBar targetBar targetTick -
      tickNumber beatsPerBar lastBar lastTick, framesPerTick s.currentBpm sampleRate)])
    (hlengths : ∀ seg ∈ segs, seg.1 < 2 ^ 64) (hframes : reading segs < 2 ^ 64) :
    s.frameAt targetBar targetTick sampleRate beatsPerBar =
      some (s.frame + .ofNat (reading segs)) := by
  subst hsegs
  rw [List.forall_mem_singleton] at hlengths
  rw [reading_singleton] at hframes ⊢
  exact frameAt_eq hat.positive (deltaTicks_eq hat.bar hat.tick hle) hlengths hframes

/-- From a state at a bar and a tick the loop adds up the segments that are left. -/
theorem tempoLoop_eq {points : TempoMap} {targetBar targetTick sampleRate beatsPerBar : UInt32}
    {s : TempoState} {lastBar lastTick : UInt32} (hat : s.At beatsPerBar lastBar lastTick points)
    (hmap : points.WellFormed beatsPerBar)
    (htarget : targetTick.toNat < beatsPerBar.toNat * ticksPerBeat)
    (hle : tickNumber beatsPerBar lastBar lastTick ≤ tickNumber beatsPerBar targetBar targetTick)
    {segs : List (Nat × ℚ)}
    (hsegs : segs = segments (framesPerTick s.currentBpm sampleRate)
      (tickNumber beatsPerBar lastBar lastTick) (tickNumber beatsPerBar targetBar targetTick)
      (points.map (·.change sampleRate beatsPerBar)))
    (hlengths : ∀ seg ∈ segs, seg.1 < 2 ^ 64) (hframes : reading segs < 2 ^ 64) :
    ((tempoLoop targetBar targetTick sampleRate beatsPerBar s points).bind fun s =>
      s.frameAt targetBar targetTick sampleRate beatsPerBar) =
        some (s.frame + .ofNat (reading segs)) := by
  induction points generalizing s lastBar lastTick segs with
  | nil => exact frameAt_target hat hle hsegs hlengths hframes
  | cons p points ih =>
      have hstops : targetBar < p.bar ∨ (p.bar = targetBar ∧ targetTick < p.tick) ↔
          tickNumber beatsPerBar targetBar targetTick < (p.change sampleRate beatsPerBar).1 :=
        stops_iff htarget (hmap.ticks p List.mem_cons_self)
      rw [List.map_cons] at hsegs
      rw [tempoLoop]
      by_cases hnear :
          tickNumber beatsPerBar targetBar targetTick < (p.change sampleRate beatsPerBar).1
      · -- the target is in front of the point
        rw [segments_near hnear] at hsegs
        rw [if_pos (hstops.mpr hnear)]
        exact frameAt_target hat hle hsegs hlengths hframes
      · rw [segments_far hnear] at hsegs
        subst hsegs
        rw [List.forall_mem_cons] at hlengths
        rw [reading_cons] at hframes ⊢
        have hpoint := frameAt_eq hat.positive
          (deltaTicks_eq hat.bar hat.tick (hat.ahead p List.mem_cons_self)) hlengths.1
          ((Nat.le_add_right _ _).trans_lt hframes)
        have hrest := fun frame => ih (at_reached hmap frame) hmap.tail (Nat.not_lt.mp hnear) rfl
          hlengths.2 ((Nat.le_add_left _ _).trans_lt hframes)
        rw [if_neg (mt hstops.mp hnear), hpoint, Option.bind_some, hrest, UInt64.ofNat_add,
          ← UInt64.add_assoc]
        rfl

/-! ## Targets -/

/-- Where no number of ticks and no frame reaches 2^64, the frame is the reading of the
clock. -/
theorem tempoMapToFrame_eq {map : TempoMap} {bar tick sampleRate beatsPerBar : UInt32}
    (hne : map ≠ []) (hmap : map.WellFormed beatsPerBar)
    (htick : tick.toNat < beatsPerBar.toNat * ticksPerBeat)
    (hlengths : ∀ seg ∈ map.segments bar tick sampleRate beatsPerBar, seg.1 < 2 ^ 64)
    (hframes : reading (map.segments bar tick sampleRate beatsPerBar) < 2 ^ 64) :
    tempoMapToFrame map bar tick sampleRate beatsPerBar =
      some (.ofNat (reading (map.segments bar tick sampleRate beatsPerBar))) := by
  obtain ⟨first, points, rfl⟩ := List.exists_cons_of_ne_nil hne
  have hstart : tickNumber beatsPerBar 0 0 = 0 := by simp [tickNumber]
  have hat : TempoState.At { frame := 0, lastBar := 0, lastTick := 0, currentBpm := first.bpm }
      beatsPerBar 0 0 (first :: points) :=
    ⟨rfl, rfl, hmap.positive first List.mem_cons_self, fun p _ => hstart ▸ Nat.zero_le _⟩
  have hsum := tempoLoop_eq hat hmap htick (hstart ▸ Nat.zero_le _) (by rw [hstart]; rfl) hlengths
    hframes
  rw [UInt64.zero_add] at hsum
  exact hsum

/-- In a map whose points are in order, with ticks and tempos in range, a later target is
not at an earlier frame, if on the way to it no segment has 2^64 ticks and its frame does
not reach 2^64. -/
theorem tempoMapToFrame_mono {map : TempoMap}
    {bar tick bar' tick' sampleRate beatsPerBar : UInt32} (hne : map ≠ [])
    (hmap : map.WellFormed beatsPerBar)
    (htick : tick.toNat < beatsPerBar.toNat * ticksPerBeat)
    (htick' : tick'.toNat < beatsPerBar.toNat * ticksPerBeat)
    (hle : Before bar tick bar' tick' ∨ (bar = bar' ∧ tick = tick'))
    (hlengths : ∀ seg ∈ map.segments bar' tick' sampleRate beatsPerBar, seg.1 < 2 ^ 64)
    (hframes : reading (map.segments bar' tick' sampleRate beatsPerBar) < 2 ^ 64) :
    ∃ frame frame', tempoMapToFrame map bar tick sampleRate beatsPerBar = some frame ∧
      tempoMapToFrame map bar' tick' sampleRate beatsPerBar = some frame' ∧ frame ≤ frame' := by
  have hnumber : tickNumber beatsPerBar bar tick ≤ tickNumber beatsPerBar bar' tick' := by
    obtain hbefore | ⟨rfl, rfl⟩ := hle
    · exact ((tickNumber_lt_iff htick htick').mpr hbefore).le
    · exact le_rfl
  obtain ⟨first, points, rfl⟩ := List.exists_cons_of_ne_nil hne
  have hrates : ∀ c ∈ (first :: points).map (·.change sampleRate beatsPerBar), 0 ≤ c.2 := by
    intro c hc
    obtain ⟨p, hp, rfl⟩ := List.mem_map.mp hc
    exact framesPerTick_nonneg (hmap.positive p hp) sampleRate
  have hreading : reading (TempoMap.segments (first :: points) bar tick sampleRate beatsPerBar) ≤
      reading (TempoMap.segments (first :: points) bar' tick' sampleRate beatsPerBar) :=
    reading_mono (framesPerTick_nonneg (hmap.positive first List.mem_cons_self) sampleRate) hrates
      hnumber
  have hframe := tempoMapToFrame_eq hne hmap htick (segments_lt hnumber hlengths)
    (hreading.trans_lt hframes)
  refine ⟨_, _, hframe, tempoMapToFrame_eq hne hmap htick' hlengths hframes, ?_⟩
  rw [UInt64.le_iff_toNat_le, UInt64.toNat_ofNat_of_lt' (hreading.trans_lt hframes),
    UInt64.toNat_ofNat_of_lt' hframes]
  exact hreading

/-- A song at 120 that goes on at 140 from its fifth bar. -/
theorem tempoMapToFrame_mono_song :
    ∃ frame frame',
      tempoMapToFrame [⟨0, 0, 120⟩, ⟨4, 0, 140⟩] 3 100 48000 4 = some frame ∧
      tempoMapToFrame [⟨0, 0, 120⟩, ⟨4, 0, 140⟩] 5 100 48000 4 = some frame' ∧ frame ≤ frame' := by
  apply tempoMapToFrame_mono
  · simp
  · exact ⟨by decide, by decide, by simp⟩
  · decide
  · decide
  · exact .inl (by decide)
  · decide +kernel
  · decide +kernel

/-- Frames and ticks wrap around, and a later target is at an earlier frame: two segments of
fewer than 2^64 frames have more together, and so do the ticks of a bar and those in it. -/
theorem tempoMapToFrame_wraps :
    (let points : TempoMap := [⟨0, 0, 1 / 2 ^ 20⟩, ⟨100, 0, 1 / 2 ^ 20⟩];
      points.WellFormed 1 ∧ 200 * 1 * ticksPerBeat < 2 ^ 64 ∧ Before 100 0 200 0 ∧
        tempoMapToFrame points 100 0 (2 ^ 31) 1 = some 13510798882111488000 ∧
        tempoMapToFrame points 200 0 (2 ^ 31) 1 = some 8574853690513424384) ∧
    let points : TempoMap := [⟨0, 0, 1⟩];
    points.WellFormed 5000000 ∧ 3843071682 * 5000000 * ticksPerBeat < 2 ^ 64 ∧
      200000000 < 5000000 * ticksPerBeat ∧ Before 3843071682 0 3843071682 200000000 ∧
      tempoMapToFrame points 3843071682 0 1 5000000 = some 1152921504600000000 ∧
      tempoMapToFrame points 3843071682 200000000 1 5000000 = some 5653024 := by
  refine ⟨⟨?_, by decide, by decide, by decide +kernel, by decide +kernel⟩, ?_, by decide,
    by decide, by decide, by decide +kernel, by decide +kernel⟩
  · exact ⟨by decide, by decide, by simp⟩
  · exact ⟨by decide, by decide, by simp⟩

/-! ## The error -/

namespace TempoMap

/-- The tempo at a tick: that of the last point at it or before, and in front of every point
that of the first. -/
def bpmAt (map : TempoMap) (first : TempoPoint) (beatsPerBar : UInt32) (i : Nat) : ℚ :=
  ((map.filter fun p => tickNumber beatsPerBar p.bar p.tick ≤ i).getLast?).elim first.bpm (·.bpm)

/-- The frames up to a target without rounding: those of each tick, added up. -/
def exactFrames (map : TempoMap) (bar tick sampleRate beatsPerBar : UInt32) : ℚ :=
  map.head?.elim 0 fun first =>
    ∑ i ∈ Finset.range (tickNumber beatsPerBar bar tick),
      framesPerTick (map.bpmAt first beatsPerBar i) sampleRate

/-- The points at a target or before it. -/
def reachedPoints (map : TempoMap) (bar tick beatsPerBar : UInt32) : Nat :=
  map.countP fun p => tickNumber beatsPerBar p.bar p.tick ≤ tickNumber beatsPerBar bar tick

theorem WellFormed.sorted {map : TempoMap} {beatsPerBar : UInt32}
    (hmap : map.WellFormed beatsPerBar) (sampleRate : UInt32) :
    (map.map (·.change sampleRate beatsPerBar)).Pairwise (·.1 ≤ ·.1) := by
  rw [List.pairwise_map]
  refine hmap.increasing.imp_of_mem ?_
  intro p q hp hq hbefore
  exact ((tickNumber_lt_iff (hmap.ticks p hp) (hmap.ticks q hq)).mpr hbefore).le

theorem rateAt_change (map : TempoMap) (first : TempoPoint) (sampleRate beatsPerBar : UInt32)
    (i : Nat) :
    rateAt (framesPerTick first.bpm sampleRate) (map.map (·.change sampleRate beatsPerBar)) i =
      framesPerTick (map.bpmAt first beatsPerBar i) sampleRate := by
  have hfilter : (map.map (·.change sampleRate beatsPerBar)).filter (·.1 ≤ i) =
      (map.filter fun p => tickNumber beatsPerBar p.bar p.tick ≤ i).map
        (·.change sampleRate beatsPerBar) := List.filter_map
  unfold rateAt bpmAt
  rw [hfilter, List.getLast?_map]
  cases (map.filter fun p => tickNumber beatsPerBar p.bar p.tick ≤ i).getLast? <;> rfl

/-- The frames without rounding are the segments without rounding. -/
theorem exactFrames_eq {map : TempoMap} {bar tick sampleRate beatsPerBar : UInt32}
    (hmap : map.WellFormed beatsPerBar) :
    map.exactFrames bar tick sampleRate beatsPerBar =
      exactReading (map.segments bar tick sampleRate beatsPerBar) := by
  cases map with
  | nil => rfl
  | cons first points =>
      show ∑ i ∈ Finset.range (tickNumber beatsPerBar bar tick), framesPerTick _ sampleRate =
        exactReading (Timeline.segments _ 0 _ _)
      rw [← sum_rateAt (Nat.zero_le _) (fun _ _ => Nat.zero_le _) (hmap.sorted sampleRate),
        Finset.range_eq_Ico]
      exact Finset.sum_congr rfl fun i _ => (rateAt_change _ first sampleRate beatsPerBar i).symm

/-- No tick of a segment has a negative number of frames. -/
theorem WellFormed.rates {map : TempoMap} {beatsPerBar : UInt32}
    (hmap : map.WellFormed beatsPerBar) (bar tick sampleRate : UInt32) :
    ∀ seg ∈ map.segments bar tick sampleRate beatsPerBar, 0 ≤ seg.2 := by
  cases map with
  | nil => exact List.forall_mem_nil _
  | cons first points =>
      have hfirst := framesPerTick_nonneg (hmap.positive first List.mem_cons_self) sampleRate
      apply segments_rates hfirst
      rw [List.forall_mem_map]
      exact fun p hp => framesPerTick_nonneg (hmap.positive p hp) sampleRate

/-- There is one segment more than points on the way. -/
theorem WellFormed.exactReading_lt {map : TempoMap} {beatsPerBar : UInt32} (hne : map ≠ [])
    (hmap : map.WellFormed beatsPerBar) (bar tick sampleRate : UInt32) :
    exactReading (map.segments bar tick sampleRate beatsPerBar) <
      reading (map.segments bar tick sampleRate beatsPerBar) +
        (map.reachedPoints bar tick beatsPerBar + 1 : Nat) := by
  obtain ⟨first, points, rfl⟩ := List.exists_cons_of_ne_nil hne
  have hlength : (TempoMap.segments (first :: points) bar tick sampleRate beatsPerBar).length =
      TempoMap.reachedPoints (first :: points) bar tick beatsPerBar + 1 := by
    show (Timeline.segments _ 0 _ _).length = _
    rw [length_segments (hmap.sorted sampleRate), List.countP_map]
    rfl
  rw [← hlength]
  obtain ⟨seg, segs, hsegs⟩ := List.exists_cons_of_length_eq_add_one hlength
  rw [hsegs]
  exact Timeline.exactReading_lt segs seg

end TempoMap

/-- The frame is at most the exact position, and less than a frame for each point up to the
target and one more before it, if on the way to it no segment has 2^64 ticks and its frame
does not reach 2^64. -/
theorem tempoMapToFrame_error {map : TempoMap} {bar tick sampleRate beatsPerBar : UInt32}
    (hne : map ≠ []) (hmap : map.WellFormed beatsPerBar)
    (htick : tick.toNat < beatsPerBar.toNat * ticksPerBeat)
    (hlengths : ∀ seg ∈ map.segments bar tick sampleRate beatsPerBar, seg.1 < 2 ^ 64)
    (hframes : reading (map.segments bar tick sampleRate beatsPerBar) < 2 ^ 64) :
    ∃ frame, tempoMapToFrame map bar tick sampleRate beatsPerBar = some frame ∧
      0 ≤ map.exactFrames bar tick sampleRate beatsPerBar - frame.toNat ∧
      map.exactFrames bar tick sampleRate beatsPerBar - frame.toNat <
        map.reachedPoints bar tick beatsPerBar + 1 := by
  have hle := reading_le_exactReading (hmap.rates bar tick sampleRate)
  have hlt := hmap.exactReading_lt hne bar tick sampleRate
  refine ⟨_, tempoMapToFrame_eq hne hmap htick hlengths hframes, ?_⟩
  rw [UInt64.toNat_ofNat_of_lt' hframes, TempoMap.exactFrames_eq hmap]
  push_cast at hlt
  exact ⟨by linarith, by linarith⟩

/-- The fifth bar of a song whose tempo changed there. -/
theorem tempoMapToFrame_error_song :
    ∃ frame, tempoMapToFrame [⟨0, 0, 120⟩, ⟨4, 0, 140⟩] 5 100 48000 4 = some frame ∧
      0 ≤ TempoMap.exactFrames [⟨0, 0, 120⟩, ⟨4, 0, 140⟩] 5 100 48000 4 - frame.toNat ∧
      TempoMap.exactFrames [⟨0, 0, 120⟩, ⟨4, 0, 140⟩] 5 100 48000 4 - frame.toNat <
        TempoMap.reachedPoints [⟨0, 0, 120⟩, ⟨4, 0, 140⟩] 5 100 4 + 1 := by
  apply tempoMapToFrame_error
  · simp
  · exact ⟨by decide, by decide, by simp⟩
  · decide
  · decide +kernel
  · decide +kernel

/-- Two segments of fewer than 2^64 frames have more together: the frame is 2^64 off. -/
theorem tempoMapToFrame_error_wraps :
    let points : TempoMap := [⟨0, 0, 1 / 2 ^ 20⟩, ⟨100, 0, 1 / 2 ^ 20⟩]
    points.WellFormed 1 ∧
      (∀ seg ∈ points.segments 200 0 (2 ^ 31) 1, seg.1 < 2 ^ 64 ∧ seg.1 * seg.2 < 2 ^ 64) ∧
      tempoMapToFrame points 200 0 (2 ^ 31) 1 = some 8574853690513424384 ∧
      points.exactFrames 200 0 (2 ^ 31) 1 - 8574853690513424384 = 2 ^ 64 ∧
      points.reachedPoints 200 0 1 = 2 := by
  have hmap : TempoMap.WellFormed [⟨0, 0, 1 / 2 ^ 20⟩, ⟨100, 0, 1 / 2 ^ 20⟩] 1 :=
    ⟨by decide, by decide, by simp⟩
  refine ⟨hmap, by decide +kernel, by decide +kernel, ?_, by decide +kernel⟩
  rw [TempoMap.exactFrames_eq hmap]
  decide +kernel

end Haze
