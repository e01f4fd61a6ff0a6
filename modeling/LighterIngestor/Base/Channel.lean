import Mathlib.Data.List.Basic

/-!
The sending end of a channel whose receiver may go away.
-/

/-- What has been sent, and how many messages the receiver takes before it is gone; with
`none` it stays. -/
structure Channel (α : Type*) where
  sent : List α
  lifetime : Option ℕ

namespace Channel

variable {α : Type*}

def start (lifetime : Option ℕ) : Channel α := ⟨[], lifetime⟩

def send (c : Channel α) (x : α) : Option (Channel α) :=
  if ∀ n ∈ c.lifetime, c.sent.length < n then some { c with sent := c.sent ++ [x] } else none

theorem send_some {c d : Channel α} {x : α} (h : c.send x = some d) : d.sent = c.sent ++ [x] := by
  unfold send at h
  split_ifs at h
  cases h
  rfl

def Room (c : Channel α) (k : ℕ) : Prop := ∀ n ∈ c.lifetime, 0 < k → c.sent.length + k ≤ n

theorem Room.mono {c d : Channel α} {j k : ℕ} (h : c.Room k) (hlifetime : d.lifetime = c.lifetime)
    (hsent : d.sent.length ≤ c.sent.length) (hjk : j ≤ k) : d.Room j := by
  intro n hn hj
  have := h n (hlifetime ▸ hn) (by omega)
  omega

structure Grew (c d : Channel α) : Prop where
  lifetime : d.lifetime = c.lifetime
  sent : c.sent.length ≤ d.sent.length

theorem Grew.refl (c : Channel α) : Grew c c := ⟨rfl, Nat.le_refl _⟩

theorem Grew.trans {c d e : Channel α} (hcd : Grew c d) (hde : Grew d e) : Grew c e :=
  ⟨hde.lifetime.trans hcd.lifetime, Nat.le_trans hcd.sent hde.sent⟩

theorem send_eq_some {c d : Channel α} {x : α} :
    c.send x = some d ↔ c.Room 1 ∧ d = { c with sent := c.sent ++ [x] } := by
  have hroom : (∀ n ∈ c.lifetime, c.sent.length < n) ↔ c.Room 1 := by
    refine forall₂_congr fun n _ => ?_
    omega
  unfold send
  split_ifs with h
  · rw [Option.some.injEq, and_iff_right (hroom.mp h), eq_comm]
  · simp [mt hroom.mpr h]

theorem send_grew {c d : Channel α} {x : α} (h : c.send x = some d) : Grew c d := by
  obtain ⟨-, rfl⟩ := send_eq_some.mp h
  exact ⟨rfl, by simp⟩

end Channel
