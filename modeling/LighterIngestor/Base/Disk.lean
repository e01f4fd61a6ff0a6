import Mathlib.Logic.Function.Basic
import Mathlib.Data.Nat.Notation

/-!
A disk as its programs see it: names that are bound to files, which are
numbered in the order of their creation. No two names are links to one file.
-/

structure Disk (N C : Type*) where
  entry : N → Option ℕ
  contents : ℕ → C
  next : ℕ
  bound : ∀ name file, entry name = some file → file < next
  separate : ∀ a b file, entry a = some file → entry b = some file → a = b

namespace Disk

variable {N C : Type*} (d : Disk N C)

def blank (c : C) : Disk N C where
  entry _ := none
  contents _ := c
  next := 0
  bound _ _ h := nomatch h
  separate _ _ _ h := nomatch h

def put (file : ℕ) (c : C) : Disk N C := { d with contents := Function.update d.contents file c }

theorem put_self (file : ℕ) (c : C) : (d.put file c).contents file = c := Function.update_self ..

theorem put_ne {file other : ℕ} (c : C) (h : other ≠ file) : (d.put file c).contents other = d.contents other :=
  Function.update_of_ne h ..

variable [DecidableEq N]

/-- A new file under a name that is not bound, or is bound to another one so far. -/
def create (name : N) (c : C) : Disk N C where
  entry := Function.update d.entry name (some d.next)
  contents := Function.update d.contents d.next c
  next := d.next + 1
  bound := by
    intro other file h
    by_cases hname : other = name
    · rw [hname, Function.update_self] at h
      cases h
      exact Nat.lt_succ_self _
    · rw [Function.update_of_ne hname] at h
      exact Nat.lt_succ_of_lt (d.bound other file h)
  separate := by
    intro a b file ha hb
    by_cases haname : a = name
    · by_cases hbname : b = name
      · rw [haname, hbname]
      · rw [haname, Function.update_self] at ha
        rw [Function.update_of_ne hbname] at hb
        cases ha
        exact absurd (d.bound b _ hb) (Nat.lt_irrefl _)
    · rw [Function.update_of_ne haname] at ha
      by_cases hbname : b = name
      · rw [hbname, Function.update_self] at hb
        cases hb
        exact absurd (d.bound a _ ha) (Nat.lt_irrefl _)
      · rw [Function.update_of_ne hbname] at hb
        exact d.separate a b file ha hb

theorem create_entry_self (name : N) (c : C) : (d.create name c).entry name = some d.next :=
  Function.update_self ..

theorem create_entry_ne {name other : N} (c : C) (h : other ≠ name) :
    (d.create name c).entry other = d.entry other := Function.update_of_ne h ..

theorem create_contents_self (name : N) (c : C) : (d.create name c).contents d.next = c :=
  Function.update_self ..

theorem create_contents_ne (name : N) {file : ℕ} (c : C) (h : file ≠ d.next) :
    (d.create name c).contents file = d.contents file := Function.update_of_ne h ..

end Disk
