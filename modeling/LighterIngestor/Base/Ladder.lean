import Mathlib.Data.List.Forall2
import Mathlib.Data.List.Nodup
import Mathlib.Algebra.Group.Defs

/-!
Quantities standing at keys, changed one key at a time: a change to zero takes
the key away, any other change sets its quantity.
-/

@[ext]
structure Ladder (K Q : Type*) [Zero Q] where
  size : K → Option Q
  nonzero : ∀ k, size k ≠ some 0

namespace Ladder

variable {K Q : Type*} [DecidableEq K] [Zero Q] [DecidableEq Q]

def change (l : Ladder K Q) (c : K × Q) : Ladder K Q where
  size k := if k = c.1 then (if c.2 = 0 then none else some c.2) else l.size k
  nonzero k := by
    split_ifs with hk hq
    · simp
    · simpa using hq
    · exact l.nonzero k

def act (l : Ladder K Q) (changes : List (K × Q)) : Ladder K Q := changes.foldl change l

/-- A listing of the ladder, each key once. -/
structure ListedBy (l : Ladder K Q) (entries : List (K × Q)) : Prop where
  nodup : (entries.map Prod.fst).Nodup
  mem_iff : ∀ k q, (k, q) ∈ entries ↔ l.size k = some q

omit [DecidableEq K] [DecidableEq Q] in
theorem ListedBy.ne_zero {l : Ladder K Q} {entries : List (K × Q)} (h : l.ListedBy entries)
    {e : K × Q} (he : e ∈ entries) : e.2 ≠ 0 := by
  intro hzero
  exact l.nonzero e.1 ((h.mem_iff e.1 0).mp (hzero ▸ he))

omit [DecidableEq K] [DecidableEq Q] in
theorem ListedBy.reverse {l : Ladder K Q} {entries : List (K × Q)} (h : l.ListedBy entries) :
    l.ListedBy entries.reverse where
  nodup := by
    rw [List.map_reverse]
    exact List.nodup_reverse.mpr h.nodup
  mem_iff k q := by rw [List.mem_reverse, h.mem_iff]

def single (k : K) {q : Q} (hq : q ≠ 0) : Ladder K Q where
  size j := if j = k then some q else none
  nonzero j := by
    split_ifs
    · simpa using hq
    · simp

omit [DecidableEq Q] in
theorem single_listedBy (k : K) {q : Q} (hq : q ≠ 0) : (single k hq).ListedBy [(k, q)] where
  nodup := by simp
  mem_iff j p := by simp [single, eq_comm]

/-- A value folded through the changes as the ladder is at one key ends at what is there. -/
theorem foldl_eq_act {α β : Type*} {f : Option α → β → Option α} {view : α → Option Q} {k : K}
    (step : β → K × Q → Prop)
    (hstep : ∀ held b c, step b c → (f held b).bind view =
      if k = c.1 then (if c.2 = 0 then none else some c.2) else held.bind view)
    {l : Ladder K Q} {held : Option α} (hheld : held.bind view = l.size k)
    {bs : List β} {changes : List (K × Q)} (hbs : List.Forall₂ step bs changes) :
    (bs.foldl f held).bind view = (l.act changes).size k := by
  induction hbs generalizing l held with
  | nil => exact hheld
  | @cons b c bs changes hbc hrest ih =>
    refine ih (l := l.change c) ?_
    rw [hstep held b c hbc, hheld]
    rfl

end Ladder
