import Mathlib.Data.Prod.Lex
import Mathlib.Order.Basic
import Mathlib.Data.Int.Order.Basic

namespace LighterIngestor

/-- `DateTime::<Utc>::MIN_UTC`, the first second of the year -262143. -/
def minSecs : ℤ := -8334601228800

/-- `DateTime::<Utc>::MAX_UTC`, the last second of the year 262142. -/
def maxSecs : ℤ := 8210266876799

/-- A fraction from one second up marks a leap second, which only a second 59 can carry. -/
def ValidInstant (secs : ℤ) (nanos : ℕ) : Prop :=
  minSecs ≤ secs ∧ secs ≤ maxSecs ∧
    (nanos < 1000000000 ∨ (nanos < 2000000000 ∧ secs % 60 = 59))

instance (secs : ℤ) (nanos : ℕ) : Decidable (ValidInstant secs nanos) :=
  inferInstanceAs (Decidable (_ ∧ _ ∧ _))

/-- chrono's `DateTime<Utc>`. -/
@[ext]
structure DateTime where
  secs : ℤ
  nanos : ℕ
  valid : ValidInstant secs nanos
  deriving DecidableEq

namespace DateTime

def key (t : DateTime) : ℤ ×ₗ ℕ := toLex (t.secs, t.nanos)

theorem key_injective : Function.Injective key := by
  intro a b h
  have hp : (a.secs, a.nanos) = (b.secs, b.nanos) := toLex.injective h
  exact DateTime.ext (Prod.mk.inj hp).1 (Prod.mk.inj hp).2

instance : LinearOrder DateTime := LinearOrder.lift' key key_injective

theorem le_iff {a b : DateTime} :
    a ≤ b ↔ a.secs < b.secs ∨ (a.secs = b.secs ∧ a.nanos ≤ b.nanos) :=
  Prod.Lex.toLex_le_toLex

theorem lt_iff {a b : DateTime} :
    a < b ↔ a.secs < b.secs ∨ (a.secs = b.secs ∧ a.nanos < b.nanos) :=
  Prod.Lex.toLex_lt_toLex

theorem secs_le {a b : DateTime} (h : a ≤ b) : a.secs ≤ b.secs := by
  rcases le_iff.mp h with h | h <;> omega

def timestamp (t : DateTime) : ℤ := t.secs

def fromTimestamp (secs : ℤ) (nanos : ℕ) : Option DateTime :=
  if h : ValidInstant secs nanos then some ⟨secs, nanos, h⟩ else none

theorem fromTimestamp_eq_some {secs : ℤ} {nanos : ℕ} {t : DateTime} :
    fromTimestamp secs nanos = some t ↔ t.secs = secs ∧ t.nanos = nanos := by
  unfold fromTimestamp
  split_ifs with h
  · rw [Option.some.injEq, DateTime.ext_iff]
    exact and_congr eq_comm eq_comm
  · constructor
    · intro ht
      cases ht
    · rintro ⟨rfl, rfl⟩
      exact absurd t.valid h

def fromTimestampMicros (micros : ℤ) : Option DateTime :=
  fromTimestamp (micros / 1000000) ((micros % 1000000).toNat * 1000)

def fromTimestampMillis (millis : ℤ) : Option DateTime :=
  fromTimestamp (millis / 1000) ((millis % 1000).toNat * 1000000)

theorem fromTimestampMicros_le {a b : ℤ} {t u : DateTime} (ha : fromTimestampMicros a = some t)
    (hb : fromTimestampMicros b = some u) : t ≤ u ↔ a ≤ b := by
  obtain ⟨hs, hn⟩ := fromTimestamp_eq_some.mp ha
  obtain ⟨hs', hn'⟩ := fromTimestamp_eq_some.mp hb
  rw [le_iff]
  omega

theorem fromTimestampMillis_inj {a b : ℤ} {t : DateTime}
    (ha : fromTimestampMillis a = some t) (hb : fromTimestampMillis b = some t) : a = b := by
  obtain ⟨hs, hn⟩ := fromTimestamp_eq_some.mp ha
  obtain ⟨hs', hn'⟩ := fromTimestamp_eq_some.mp hb
  omega

/-- `self + Duration::seconds(n)` for `n > 0`; `none` where chrono panics. A leap
second is left before the seconds are added. -/
def addSeconds (t : DateTime) (n : ℤ) : Option DateTime :=
  fromTimestamp (t.secs + n) (t.nanos % 1000000000)

theorem addSeconds_eq_some {t u : DateTime} {n : ℤ} :
    t.addSeconds n = some u ↔ u.secs = t.secs + n ∧ u.nanos = t.nanos % 1000000000 :=
  fromTimestamp_eq_some

end DateTime

end LighterIngestor
