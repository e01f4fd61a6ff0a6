import LighterIngestor.DateTime

namespace LighterIngestor

/-- The first second of PostgreSQL's `timestamptz`, in 4713 BC. -/
def pgMinSecs : ℤ := -210866803200

/-- The first second after its range, which ends with the year 294276. -/
def pgEndSecs : ℤ := 9224318016000

def Timestamptz (t : DateTime) : Prop := pgMinSecs ≤ t.secs ∧ t.secs < pgEndSecs

instance (t : DateTime) : Decidable (Timestamptz t) := inferInstanceAs (Decidable (_ ∧ _))

/-- chrono ends long before PostgreSQL does, but also begins before it. -/
theorem timestamptz_iff (t : DateTime) : Timestamptz t ↔ pgMinSecs ≤ t.secs := by
  obtain ⟨-, hmax, -⟩ := t.valid
  simp only [Timestamptz, pgMinSecs, pgEndSecs, maxSecs] at *
  omega

theorem fromTimestampMillis_timestamptz {millis : ℤ} {t : DateTime}
    (h : DateTime.fromTimestampMillis millis = some t) : Timestamptz t ↔ pgMinSecs * 1000 ≤ millis := by
  obtain ⟨hsecs, -⟩ := DateTime.fromTimestamp_eq_some.mp h
  rw [timestamptz_iff, hsecs, pgMinSecs]
  omega

theorem fromTimestampMicros_timestamptz {micros : ℤ} {t : DateTime}
    (h : DateTime.fromTimestampMicros micros = some t) : Timestamptz t ↔ pgMinSecs * 1000000 ≤ micros := by
  obtain ⟨hsecs, -⟩ := DateTime.fromTimestamp_eq_some.mp h
  rw [timestamptz_iff, hsecs, pgMinSecs]
  omega

end LighterIngestor
