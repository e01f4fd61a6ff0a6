import Mathlib.Order.Bounds.Basic
import LighterIngestor.HourGrid

namespace LighterIngestor

/-- At least two hours inside the range of chrono. -/
def WithinMargin (t : DateTime) : Prop := minSecs + 7200 ≤ t.secs ∧ t.secs ≤ maxSecs - 7200

instance (t : DateTime) : Decidable (WithinMargin t) := inferInstanceAs (Decidable (_ ∧ _))

/-- The whole hours that a poll still has to ask for. -/
def Due (newestStored : Option DateTime) (backfillStart : DateTime) : Set DateTime :=
  { hour | WholeHour hour ∧
    match newestStored with
    | some time => time < hour
    | none => backfillStart ≤ hour }

theorem floorHour_le (t : DateTime) : floorHour t ≤ t := by
  rw [DateTime.le_iff, floorHour_secs, floorHour_nanos]
  omega

theorem WholeHour.le_floorHour {hour now : DateTime} (h : WholeHour hour) :
    hour ≤ floorHour now ↔ hour ≤ now := by
  constructor
  · intro hle
    exact hle.trans (floorHour_le now)
  · intro hle
    have hsecs := DateTime.secs_le hle
    obtain ⟨hgrid, hnanos⟩ := h
    rw [DateTime.le_iff, floorHour_secs, floorHour_nanos]
    omega

theorem addSeconds_isSome {t : DateTime} {n : ℤ} (hpos : 0 ≤ n) (hmax : t.secs + n ≤ maxSecs) :
    ∃ u, t.addSeconds n = some u := by
  have hvalid : ValidInstant (t.secs + n) (t.nanos % 1000000000) :=
    ⟨by have := t.valid.1; omega, hmax, .inl (Nat.mod_lt _ (by decide))⟩
  exact ⟨⟨_, _, hvalid⟩, DateTime.addSeconds_eq_some.mpr ⟨rfl, rfl⟩⟩

theorem ceilHour_isSome {t : DateTime} (hmax : t.secs + 3600 ≤ maxSecs) :
    ∃ u, ceilHour t = some u := by
  unfold ceilHour
  split_ifs with hfloor
  · exact ⟨_, rfl⟩
  · apply addSeconds_isSome (by decide)
    rw [floorHour_secs]
    omega

theorem nextRequestStart_due {newestStored : Option DateTime} {backfillStart start : DateTime}
    (h : nextRequestStart newestStored backfillStart = some start) :
    start ∈ Due newestStored backfillStart := by
  cases newestStored with
  | some time =>
    obtain ⟨u, -, hceil⟩ := Option.bind_eq_some_iff.mp h
    exact ⟨ceilHour_wholeHour hceil, nextRequestStart_gt h⟩
  | none => exact ⟨ceilHour_wholeHour h, le_ceilHour h⟩

theorem nextRequestStart_isLeast {newestStored : Option DateTime} {backfillStart start : DateTime}
    (hwhole : ∀ time ∈ newestStored, time.nanos = 0)
    (h : nextRequestStart newestStored backfillStart = some start) :
    IsLeast (Due newestStored backfillStart) start := by
  refine ⟨nextRequestStart_due h, ?_⟩
  rintro hour ⟨hgrid, hlater⟩
  cases newestStored with
  | some time => exact nextRequestStart_least h (hwhole time rfl) hgrid hlater
  | none => exact ceilHour_least h hgrid hlater

/-- No addition panics inside the margin. -/
theorem nextRequestStart_isSome {newestStored : Option DateTime} {backfillStart : DateTime}
    (hnewest : ∀ time ∈ newestStored, WithinMargin time) (hbackfill : WithinMargin backfillStart) :
    ∃ start, nextRequestStart newestStored backfillStart = some start := by
  cases newestStored with
  | some time =>
    have hmax := (hnewest time rfl).2
    obtain ⟨u, hu⟩ := addSeconds_isSome (t := time) (n := 1) (by decide) (by omega)
    obtain ⟨start, hstart⟩ := ceilHour_isSome (t := u) (by
      rw [(DateTime.addSeconds_eq_some.mp hu).1]
      omega)
    exact ⟨start, Option.bind_eq_some_iff.mpr ⟨u, hu, hstart⟩⟩
  | none =>
    have hmax := hbackfill.2
    exact ceilHour_isSome (by omega)

theorem hourClosed_iff {newestStored : Option DateTime} {backfillStart start now : DateTime}
    (h : IsLeast (Due newestStored backfillStart) start) :
    hourClosed start now ↔ ∃ hour ∈ Due newestStored backfillStart, hour ≤ now := by
  rw [hourClosed, decide_eq_true_iff, h.1.1.le_floorHour]
  constructor
  · intro hle
    exact ⟨start, h.1, hle⟩
  · rintro ⟨hour, hdue, hle⟩
    exact (h.2 hdue).trans hle

theorem due_antitone {n m : DateTime} (h : n ≤ m) (b : DateTime) : Due (some m) b ⊆ Due (some n) b :=
  fun _ hdue => ⟨hdue.1, h.trans_lt hdue.2⟩

theorem due_backfill_antitone {b c : DateTime} (h : b ≤ c) : Due none c ⊆ Due none b :=
  fun _ hdue => ⟨hdue.1, h.trans hdue.2⟩

/-- `next_request_start` and `hour_closed` on the hour grid, for every instant in range. -/
theorem hour_grid_characterization (n b now : DateTime) (hwhole : n.nanos = 0) (hn : WithinMargin n)
    (hb : WithinMargin b) :
    (∃ start, (∀ b', nextRequestStart (some n) b' = some start) ∧
      IsLeast { hour | WholeHour hour ∧ n < hour } start ∧
      (∀ m, m.nanos = 0 → WithinMargin m → n ≤ m →
        ∃ later, nextRequestStart (some m) b = some later ∧ start ≤ later) ∧
      (hourClosed start now ↔ ∃ hour, WholeHour hour ∧ n < hour ∧ hour ≤ now)) ∧
    (∃ start, nextRequestStart none b = some start ∧
      IsLeast { hour | WholeHour hour ∧ b ≤ hour } start ∧
      (∀ c, WithinMargin c → b ≤ c → ∃ later, nextRequestStart none c = some later ∧ start ≤ later) ∧
      (hourClosed start now ↔ ∃ hour, WholeHour hour ∧ b ≤ hour ∧ hour ≤ now)) := by
  constructor
  · have hnewest : ∀ time ∈ some n, WithinMargin time := by simpa using hn
    obtain ⟨start, hstart⟩ := nextRequestStart_isSome hnewest hb
    have hleast := nextRequestStart_isLeast (by simpa using hwhole) hstart
    refine ⟨start, fun _ => hstart, hleast, ?_, ?_⟩
    · intro m hmwhole hm hle
      have hnewest' : ∀ time ∈ some m, WithinMargin time := by simpa using hm
      obtain ⟨later, hlater⟩ := nextRequestStart_isSome hnewest' hb
      have hleast' := nextRequestStart_isLeast (by simpa using hmwhole) hlater
      exact ⟨later, hlater, hleast.2 (due_antitone hle b hleast'.1)⟩
    · rw [hourClosed_iff hleast]
      simp only [Due, Set.mem_ofPred_eq, and_assoc]
  · have hnone : ∀ time ∈ (none : Option DateTime), WithinMargin time := by simp
    obtain ⟨start, hstart⟩ := nextRequestStart_isSome hnone hb
    have hleast := nextRequestStart_isLeast (by simp) hstart
    refine ⟨start, hstart, hleast, ?_, ?_⟩
    · intro c hc hle
      obtain ⟨later, hlater⟩ := nextRequestStart_isSome hnone hc
      have hleast' := nextRequestStart_isLeast (by simp) hlater
      exact ⟨later, hlater, hleast.2 (due_backfill_antitone hle hleast'.1)⟩
    · rw [hourClosed_iff hleast]
      simp only [Due, Set.mem_ofPred_eq, and_assoc]

def beforeEpoch : DateTime := ⟨-1, 500000000, by decide⟩

theorem hour_grid_before_epoch :
    (∃ start, (∀ b', nextRequestStart (some ⟨-3600, 0, by decide⟩) b' = some start) ∧ start.secs = 0) ∧
      ∃ start, nextRequestStart none beforeEpoch = some start ∧
        IsLeast { hour | WholeHour hour ∧ beforeEpoch ≤ hour } start ∧ start.secs = 0 := by
  obtain ⟨⟨start, hstart, -⟩, ⟨first, hfirst, hleast, -⟩⟩ :=
    hour_grid_characterization ⟨-3600, 0, by decide⟩ beforeEpoch beforeEpoch rfl (by decide) (by decide)
  have hstart' := hstart beforeEpoch
  refine ⟨⟨start, hstart, ?_⟩, first, hfirst, hleast, ?_⟩
  · exact congrArg DateTime.secs (Option.some.inj hstart').symm
  · exact congrArg DateTime.secs (Option.some.inj hfirst).symm

end LighterIngestor
