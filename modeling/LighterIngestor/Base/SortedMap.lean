import Mathlib.Data.List.Sort
import Mathlib.Order.Defs.LinearOrder

/-!
Finite maps as lists of entries in strictly increasing order of a rank of
their keys. Keys of one rank are one key: an insertion keeps the key that is
already there and replaces its value, as `std::collections::BTreeMap` does.
-/

structure SortedMap {K α : Type*} [LinearOrder α] (rank : K → α) (V : Type*) where
  entries : List (K × V)
  sorted : entries.Pairwise (fun a b => rank a.1 < rank b.1)

namespace SortedMap

variable {K α V : Type*} [LinearOrder α] {rank : K → α}

theorem ext {a b : SortedMap rank V} (h : a.entries = b.entries) : a = b := by
  cases a
  cases b
  cases h
  rfl

def insertEntry (rank : K → α) (k : K) (v : V) : List (K × V) → List (K × V)
  | [] => [(k, v)]
  | e :: rest =>
    if rank k < rank e.1 then (k, v) :: e :: rest
    else if rank e.1 < rank k then e :: insertEntry rank k v rest
    else (e.1, v) :: rest

theorem mem_insertEntry {k : K} {v : V} {l : List (K × V)} {e : K × V}
    (h : e ∈ insertEntry rank k v l) : e ∈ l ∨ (rank e.1 = rank k ∧ e.2 = v) := by
  induction l with
  | nil => exact Or.inr (by simp_all [insertEntry])
  | cons d rest ih =>
    simp only [insertEntry] at h
    split_ifs at h with hlt hgt
    · rcases List.mem_cons.mp h with rfl | h
      · exact Or.inr ⟨rfl, rfl⟩
      · exact Or.inl h
    · rcases List.mem_cons.mp h with rfl | h
      · exact Or.inl (by simp)
      · exact (ih h).imp_left (List.mem_cons_of_mem _)
    · rcases List.mem_cons.mp h with rfl | h
      · exact Or.inr ⟨le_antisymm (not_lt.mp hlt) (not_lt.mp hgt), rfl⟩
      · exact Or.inl (List.mem_cons_of_mem _ h)

theorem insertEntry_sorted (k : K) (v : V) (l : List (K × V))
    (h : l.Pairwise (fun a b => rank a.1 < rank b.1)) :
    (insertEntry rank k v l).Pairwise (fun a b => rank a.1 < rank b.1) := by
  induction l with
  | nil => simp [insertEntry]
  | cons d rest ih =>
    obtain ⟨hd, hrest⟩ := List.pairwise_cons.mp h
    simp only [insertEntry]
    split_ifs with hlt hgt
    · refine List.pairwise_cons.mpr ⟨?_, h⟩
      intro e he
      rcases List.mem_cons.mp he with rfl | he
      · exact hlt
      · exact hlt.trans (hd e he)
    · refine List.pairwise_cons.mpr ⟨?_, ih hrest⟩
      intro e he
      rcases mem_insertEntry he with he | ⟨he, -⟩
      · exact hd e he
      · rw [he]; exact hgt
    · exact List.pairwise_cons.mpr ⟨hd, hrest⟩

def empty : SortedMap rank V := ⟨[], List.Pairwise.nil⟩

def insert (m : SortedMap rank V) (k : K) (v : V) : SortedMap rank V :=
  ⟨insertEntry rank k v m.entries, insertEntry_sorted k v m.entries m.sorted⟩

def remove (m : SortedMap rank V) (k : K) : SortedMap rank V :=
  ⟨m.entries.filter (fun e => rank e.1 ≠ rank k), m.sorted.filter _⟩

def values (m : SortedMap rank V) : List V := m.entries.map Prod.snd

/-- The entries with each key read as its rank: all that an ordered map can observe of its keys. -/
def ranked (m : SortedMap rank V) : List (α × V) := m.entries.map (fun e => (rank e.1, e.2))

def lookup (m : SortedMap rank V) (r : α) : Option V :=
  (m.entries.find? (fun e => rank e.1 = r)).map Prod.snd

theorem ranked_values (m : SortedMap rank V) : m.ranked.map Prod.snd = m.values := by
  simp [ranked, values]

theorem ranked_sorted (m : SortedMap rank V) : m.ranked.Pairwise (fun a b => a.1 < b.1) :=
  List.pairwise_map.mpr m.sorted

theorem ranked_nodup (m : SortedMap rank V) : (m.ranked.map Prod.fst).Nodup :=
  List.pairwise_map.mpr (m.ranked_sorted.imp ne_of_lt)

theorem mem_ranked_unique {l : List (α × V)} (h : l.Pairwise (fun a b => a.1 < b.1))
    {r : α} {v w : V} (hv : (r, v) ∈ l) (hw : (r, w) ∈ l) : v = w := by
  induction l with
  | nil => simp at hv
  | cons d rest ih =>
    obtain ⟨hd, hrest⟩ := List.pairwise_cons.mp h
    rcases List.mem_cons.mp hv with rfl | hv'
    · rcases List.mem_cons.mp hw with hw | hw
      · exact (Prod.mk.inj hw).2.symm
      · exact absurd (hd _ hw) (lt_irrefl _)
    · rcases List.mem_cons.mp hw with rfl | hw'
      · exact absurd (hd _ hv') (lt_irrefl _)
      · exact ih hrest hv' hw'

theorem lookup_eq_some_iff (m : SortedMap rank V) (r : α) (v : V) :
    m.lookup r = some v ↔ (r, v) ∈ m.ranked := by
  constructor
  · intro h
    obtain ⟨e, he, rfl⟩ := Option.map_eq_some_iff.mp h
    have hr : rank e.1 = r := by simpa using List.find?_some he
    exact List.mem_map.mpr ⟨e, List.mem_of_find?_eq_some he, by rw [hr]⟩
  · intro h
    obtain ⟨e, he, hev⟩ := List.mem_map.mp h
    have hr : rank e.1 = r := (Prod.mk.inj hev).1
    cases hf : m.entries.find? (fun e => rank e.1 = r) with
    | none => exact absurd hr (by simpa using List.find?_eq_none.mp hf e he)
    | some d =>
      have hd : rank d.1 = r := by simpa using List.find?_some hf
      have hmem : (r, d.2) ∈ m.ranked :=
        List.mem_map.mpr ⟨d, List.mem_of_find?_eq_some hf, by rw [hd]⟩
      rw [lookup, hf, Option.map_some, mem_ranked_unique m.ranked_sorted h hmem]

theorem mem_ranked_insertEntry (k : K) (v : V) (l : List (K × V))
    (h : l.Pairwise (fun a b => rank a.1 < rank b.1)) (r : α) (w : V) :
    (r, w) ∈ (insertEntry rank k v l).map (fun e => (rank e.1, e.2)) ↔
      (r = rank k ∧ w = v) ∨ (r ≠ rank k ∧ (r, w) ∈ l.map (fun e => (rank e.1, e.2))) := by
  induction l with
  | nil => simp [insertEntry]
  | cons d rest ih =>
    obtain ⟨hd, hrest⟩ := List.pairwise_cons.mp h
    have hne : ∀ s, (∀ e ∈ rest, s < rank e.1) →
        (s, w) ∉ rest.map (fun e => (rank e.1, e.2)) := by
      intro s hs hmem
      obtain ⟨e, he, heq⟩ := List.mem_map.mp hmem
      exact absurd (hs e he) (by rw [(Prod.mk.inj heq).1]; exact lt_irrefl _)
    simp only [insertEntry]
    split_ifs with hlt hgt
    · have hk := hne (rank k) (fun e he => hlt.trans (hd e he))
      simp only [List.map_cons, List.mem_cons, Prod.mk.injEq]
      constructor
      · rintro (⟨rfl, rfl⟩ | ⟨rfl, rfl⟩ | hmem)
        · exact Or.inl ⟨rfl, rfl⟩
        · exact Or.inr ⟨ne_of_gt hlt, Or.inl ⟨rfl, rfl⟩⟩
        · refine Or.inr ⟨?_, Or.inr hmem⟩
          rintro rfl
          exact hk hmem
      · rintro (hkv | ⟨-, hmem⟩)
        · exact Or.inl hkv
        · exact Or.inr hmem
    · simp only [List.map_cons, List.mem_cons, Prod.mk.injEq, ih hrest]
      constructor
      · rintro (⟨rfl, rfl⟩ | hkv | ⟨hr, hmem⟩)
        · exact Or.inr ⟨ne_of_lt hgt, Or.inl ⟨rfl, rfl⟩⟩
        · exact Or.inl hkv
        · exact Or.inr ⟨hr, Or.inr hmem⟩
      · rintro (hkv | ⟨hr, hdv | hmem⟩)
        · exact Or.inr (Or.inl hkv)
        · exact Or.inl hdv
        · exact Or.inr (Or.inr ⟨hr, hmem⟩)
    · have hk : rank d.1 = rank k := le_antisymm (not_lt.mp hlt) (not_lt.mp hgt)
      have hd' := hne (rank d.1) hd
      simp only [List.map_cons, List.mem_cons, Prod.mk.injEq, hk]
      constructor
      · rintro (hkv | hmem)
        · exact Or.inl hkv
        · refine Or.inr ⟨?_, Or.inr hmem⟩
          rintro rfl
          exact hd' (hk ▸ hmem)
      · rintro (hkv | ⟨hr, ⟨hrk, -⟩ | hmem⟩)
        · exact Or.inl hkv
        · exact absurd hrk hr
        · exact Or.inr hmem

theorem lookup_insert (m : SortedMap rank V) (k : K) (v : V) (r : α) :
    (m.insert k v).lookup r = if r = rank k then some v else m.lookup r := by
  apply Option.ext
  intro w
  have hi := (lookup_eq_some_iff (m.insert k v) r w).trans
    (mem_ranked_insertEntry k v m.entries m.sorted r w)
  have hm : m.lookup r = some w ↔ (r, w) ∈ m.entries.map (fun e => (rank e.1, e.2)) :=
    lookup_eq_some_iff m r w
  split_ifs with hr
  · rw [hi]
    simp [hr, eq_comm]
  · rw [hi, hm]
    simp [hr]

theorem lookup_remove (m : SortedMap rank V) (k : K) (r : α) :
    (m.remove k).lookup r = if r = rank k then none else m.lookup r := by
  apply Option.ext
  intro w
  have hm : (r, w) ∈ (m.remove k).ranked ↔ r ≠ rank k ∧ (r, w) ∈ m.ranked := by
    simp only [ranked, remove, List.mem_map, List.mem_filter, decide_eq_true_eq]
    constructor
    · rintro ⟨e, ⟨he, hek⟩, heq⟩
      exact ⟨(Prod.mk.inj heq).1 ▸ hek, e, he, heq⟩
    · rintro ⟨hr, e, he, heq⟩
      exact ⟨e, ⟨he, by rw [(Prod.mk.inj heq).1]; exact hr⟩, heq⟩
  rw [lookup_eq_some_iff, hm, ← lookup_eq_some_iff]
  split_ifs with hr <;> simp [hr]

theorem ranked_ext {a b : SortedMap rank V} (h : ∀ r, a.lookup r = b.lookup r) :
    a.ranked = b.ranked := by
  have hirr : Std.Irrefl (fun a b : α × V => a.1 < b.1) := ⟨fun a => lt_irrefl a.1⟩
  have hanti : Std.Antisymm (fun a b : α × V => a.1 < b.1) :=
    ⟨fun a b hab hba => absurd (hab.trans hba) (lt_irrefl _)⟩
  apply a.ranked_sorted.eq_of_mem_iff b.ranked_sorted
  rintro ⟨r, v⟩
  rw [← lookup_eq_some_iff, ← lookup_eq_some_iff, h]

theorem lookup_ranked {a b : SortedMap rank V} (h : a.ranked = b.ranked) (r : α) :
    a.lookup r = b.lookup r := by
  apply Option.ext
  intro v
  rw [lookup_eq_some_iff, lookup_eq_some_iff, h]

theorem values_ranked {a b : SortedMap rank V} (h : a.ranked = b.ranked) : a.values = b.values := by
  rw [← ranked_values, ← ranked_values, h]

theorem insert_ranked {a b : SortedMap rank V} (h : a.ranked = b.ranked) {j k : K}
    (hk : rank j = rank k) (v : V) : (a.insert j v).ranked = (b.insert k v).ranked := by
  apply ranked_ext
  intro r
  rw [lookup_insert, lookup_insert, hk, lookup_ranked h]

theorem remove_ranked {a b : SortedMap rank V} (h : a.ranked = b.ranked) {j k : K}
    (hk : rank j = rank k) : (a.remove j).ranked = (b.remove k).ranked := by
  apply ranked_ext
  intro r
  rw [lookup_remove, lookup_remove, hk, lookup_ranked h]

end SortedMap
