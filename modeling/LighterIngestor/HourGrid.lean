import LighterIngestor.DateTime

namespace LighterIngestor

def WholeHour (t : DateTime) : Prop := t.secs % 3600 = 0 ∧ t.nanos = 0

instance (t : DateTime) : Decidable (WholeHour t) := inferInstanceAs (Decidable (_ ∧ _))

/-- `floor_hour`. The range of `DateTime` begins on the hour, so its `expect` always holds. -/
def floorHour (time : DateTime) : DateTime where
  secs := time.timestamp - time.timestamp % 3600
  nanos := 0
  valid := by
    obtain ⟨hmin, hmax, -⟩ := time.valid
    simp only [ValidInstant, DateTime.timestamp, minSecs, maxSecs] at *
    omega

/-- `ceil_hour`; `none` where the addition panics. -/
def ceilHour (time : DateTime) : Option DateTime :=
  if floorHour time = time then some (floorHour time) else (floorHour time).addSeconds 3600

/-- `next_request_start`; `none` where an addition panics. -/
def nextRequestStart (newestStored : Option DateTime) (backfillStart : DateTime) : Option DateTime :=
  match newestStored with
  | some time => (time.addSeconds 1).bind ceilHour
  | none => ceilHour backfillStart

def hourClosed (start now : DateTime) : Bool := start ≤ floorHour now

theorem floorHour_secs (t : DateTime) : (floorHour t).secs = t.secs - t.secs % 3600 := rfl

theorem floorHour_nanos (t : DateTime) : (floorHour t).nanos = 0 := rfl

theorem floorHour_eq_self_iff {t : DateTime} : floorHour t = t ↔ WholeHour t := by
  rw [DateTime.ext_iff, WholeHour, floorHour_secs, floorHour_nanos]
  omega

theorem ceilHour_wholeHour {t u : DateTime} (h : ceilHour t = some u) : WholeHour u := by
  unfold ceilHour at h
  split_ifs at h with hfloor
  · cases h
    rw [hfloor]
    exact floorHour_eq_self_iff.mp hfloor
  · obtain ⟨hsecs, hnanos⟩ := DateTime.addSeconds_eq_some.mp h
    rw [WholeHour, hsecs, hnanos, floorHour_secs, floorHour_nanos]
    omega

theorem le_ceilHour {t u : DateTime} (h : ceilHour t = some u) : t ≤ u := by
  unfold ceilHour at h
  split_ifs at h with hfloor
  · cases h
    rw [hfloor]
  · obtain ⟨hsecs, -⟩ := DateTime.addSeconds_eq_some.mp h
    rw [DateTime.le_iff, hsecs, floorHour_secs]
    omega

theorem ceilHour_least {t u v : DateTime} (h : ceilHour t = some u) (hv : WholeHour v) (htv : t ≤ v) :
    u ≤ v := by
  unfold ceilHour at h
  split_ifs at h with hfloor
  · cases h
    rwa [hfloor]
  · obtain ⟨hsecs, hnanos⟩ := DateTime.addSeconds_eq_some.mp h
    rw [floorHour_eq_self_iff] at hfloor
    rw [DateTime.le_iff] at htv ⊢
    obtain ⟨hvsecs, hvnanos⟩ := hv
    rw [WholeHour] at hfloor
    rw [floorHour_secs] at hsecs
    rw [floorHour_nanos] at hnanos
    omega

theorem addSecond_lt {t u : DateTime} (h : t.addSeconds 1 = some u) : t < u := by
  obtain ⟨hsecs, -⟩ := DateTime.addSeconds_eq_some.mp h
  rw [DateTime.lt_iff]
  omega

theorem nextRequestStart_gt {time start backfillStart : DateTime}
    (h : nextRequestStart (some time) backfillStart = some start) : time < start := by
  obtain ⟨u, hu, hceil⟩ := Option.bind_eq_some_iff.mp h
  exact (addSecond_lt hu).trans_le (le_ceilHour hceil)

/-- No whole hour after the newest stored one is left out by the next request. -/
theorem nextRequestStart_least {time start backfillStart t : DateTime}
    (h : nextRequestStart (some time) backfillStart = some start) (htime : time.nanos = 0)
    (ht : WholeHour t) (hlt : time < t) : start ≤ t := by
  obtain ⟨u, hu, hceil⟩ := Option.bind_eq_some_iff.mp h
  refine ceilHour_least hceil ht ?_
  obtain ⟨hsecs, hnanos⟩ := DateTime.addSeconds_eq_some.mp hu
  rw [DateTime.lt_iff] at hlt
  rw [DateTime.le_iff]
  have := ht.2
  omega

end LighterIngestor
