import LighterIngestor.Base.Loops
import LighterIngestor.PriceBook

namespace LighterIngestor

variable [NumberTypes]

/-- A level a book can hold at the price `r`. -/
def StandsAt (r : ℚ) (level : PriceLevel) : Prop :=
  ∃ q : Quote level, value q.price = r ∧ value q.size ≠ 0

theorem StandsAt.unique {r s : ℚ} {level : PriceLevel} (hr : StandsAt r level)
    (hs : StandsAt s level) : r = s := by
  obtain ⟨q, rfl, -⟩ := hr
  obtain ⟨p, rfl, -⟩ := hs
  rw [Except.ok.inj (q.price_eq.symm.trans p.price_eq)]

theorem Side.standsAt (side : Side) {r : ℚ} {level : PriceLevel}
    (h : (r, level) ∈ side.levels.ranked) : StandsAt r level := by
  obtain ⟨e, he, heq⟩ := List.mem_map.mp h
  obtain ⟨rfl, rfl⟩ := Prod.mk.inj heq
  exact side.quoted e he

theorem Side.mem_values (side : Side) {level : PriceLevel} :
    level ∈ side.levels.values ↔ ∃ r, (r, level) ∈ side.levels.ranked := by
  rw [← SortedMap.ranked_values, List.mem_map]
  constructor
  · rintro ⟨⟨r, l⟩, h, rfl⟩
    exact ⟨r, h⟩
  · rintro ⟨r, h⟩
    exact ⟨(r, level), h, rfl⟩

/-- What one level of a message makes of the level held at the price `r`. -/
def mention (r : ℚ) (held : Option PriceLevel) (level : PriceLevel) : Option PriceLevel :=
  match parse level with
  | .error _ => held
  | .ok quote =>
    if r = value quote.price then (if value quote.size = 0 then none else some level) else held

theorem mention_quote {level : PriceLevel} (q : Quote level) (r : ℚ) (held : Option PriceLevel) :
    mention r held level =
      if r = value q.price then (if value q.size = 0 then none else some level) else held := by
  rw [mention, parse_quote q]

theorem mention_standsAt {level : PriceLevel} {p : ℚ} (h : StandsAt p level) (r : ℚ)
    (held : Option PriceLevel) : mention r held level = if r = p then some level else held := by
  obtain ⟨q, rfl, hs⟩ := h
  rw [mention_quote q, if_neg hs]

theorem snapshotLevel_ok {side next : Side} {level : PriceLevel} :
    snapshotLevel side level = .ok next ↔
      ∃ (q : Quote level) (h : value q.size ≠ 0), next = side.insert q h := by
  unfold snapshotLevel
  constructor
  · intro h
    split at h
    · cases h
    · rename_i q hq
      split_ifs at h with hz
      exact ⟨q, hz, (Except.ok.inj h).symm⟩
  · rintro ⟨q, hz, rfl⟩
    rw [parse_quote q]
    exact dif_neg hz

theorem snapshotLevel_applyLevel {side next : Side} {level : PriceLevel}
    (h : snapshotLevel side level = .ok next) : applyLevel side level = .ok next := by
  obtain ⟨q, hz, rfl⟩ := snapshotLevel_ok.mp h
  unfold applyLevel
  rw [parse_quote q]
  exact dif_neg hz

theorem applyLevel_lookup {side next : Side} {level : PriceLevel}
    (h : applyLevel side level = .ok next) (r : ℚ) :
    next.levels.lookup r = mention r (side.levels.lookup r) level := by
  unfold applyLevel at h
  split at h
  · cases h
  · rename_i q hq
    rw [mention_quote q]
    split_ifs at h with hz
    · cases h
      rw [if_pos hz]
      exact SortedMap.lookup_remove _ _ _
    · cases h
      rw [if_neg hz]
      exact SortedMap.lookup_insert _ _ _ _

theorem applyLevels_lookup {side next : Side} {levels : List PriceLevel}
    (h : levels.foldlM applyLevel side = .ok next) (r : ℚ) :
    next.levels.lookup r = levels.foldl (mention r) (side.levels.lookup r) := by
  induction levels generalizing side with
  | nil => cases h; rfl
  | cons level rest ih =>
    obtain ⟨mid, hmid, hrest⟩ := Loops.foldlM_cons_ok.mp h
    rw [ih hrest, applyLevel_lookup hmid, List.foldl_cons]

theorem snapshotLevels_applyLevels {side next : Side} {levels : List PriceLevel}
    (h : levels.foldlM snapshotLevel side = .ok next) : levels.foldlM applyLevel side = .ok next := by
  obtain ⟨t, ht, rfl⟩ := Loops.foldlM_simulates (g := applyLevel) (r := Eq)
    (fun s t x s' hst _ hs => ⟨s', hst ▸ snapshotLevel_applyLevel hs, rfl⟩) rfl h
  exact ht

theorem sideFromSnapshot_lookup {side : Side} {levels : List PriceLevel}
    (h : sideFromSnapshot levels = .ok side) (r : ℚ) :
    side.levels.lookup r = levels.foldl (mention r) none :=
  applyLevels_lookup (snapshotLevels_applyLevels h) r

/-- The last level of a list that stands at a price is the one that stays there. -/
theorem foldl_mention {levels : List PriceLevel} (h : ∀ l ∈ levels, ∃ p, StandsAt p l)
    (r : ℚ) (held : Option PriceLevel) :
    (∃ l ∈ levels, StandsAt r l ∧ levels.foldl (mention r) held = some l) ∨
      ((∀ l ∈ levels, ¬ StandsAt r l) ∧ levels.foldl (mention r) held = held) := by
  induction levels generalizing held with
  | nil => exact Or.inr (by simp)
  | cons level rest ih =>
    obtain ⟨p, hp⟩ := h level (by simp)
    rw [List.foldl_cons, mention_standsAt hp]
    rcases ih (fun l hl => h l (List.mem_cons_of_mem _ hl)) (if r = p then some level else held)
      with ⟨l, hl, hr, heq⟩ | ⟨hno, heq⟩
    · exact Or.inl ⟨l, List.mem_cons_of_mem _ hl, hr, heq⟩
    · rw [heq]
      by_cases hrp : r = p
      · exact Or.inl ⟨level, by simp, hrp ▸ hp, if_pos hrp⟩
      · refine Or.inr ⟨?_, if_neg hrp⟩
        intro l hl
        rcases List.mem_cons.mp hl with rfl | hl
        · exact fun hr => hrp (hr.unique hp)
        · exact hno l hl

theorem sideFromSnapshot_total {levels : List PriceLevel} (h : ∀ l ∈ levels, ∃ p, StandsAt p l) :
    ∃ side, sideFromSnapshot levels = .ok side := by
  apply Loops.foldlM_total
  intro side level hl
  obtain ⟨p, q, -, hz⟩ := h level hl
  exact ⟨side.insert q hz, snapshotLevel_ok.mpr ⟨q, hz, rfl⟩⟩

/-- Two sides that only differ in how their keys are spelled. -/
def Side.Same (a b : Side) : Prop := a.levels.ranked = b.levels.ranked

theorem Side.same_of_lookup {a b : Side} (h : ∀ r, a.levels.lookup r = b.levels.lookup r) :
    a.Same b := SortedMap.ranked_ext h

theorem sideFromSnapshot_listing (side : Side) {levels : List PriceLevel}
    (h : levels.Perm side.levels.values) :
    ∃ next, sideFromSnapshot levels = .ok next ∧ side.Same next := by
  have hstands : ∀ l ∈ levels, ∃ r, (r, l) ∈ side.levels.ranked :=
    fun l hl => side.mem_values.mp (h.mem_iff.mp hl)
  have hall : ∀ l ∈ levels, ∃ p, StandsAt p l := fun l hl => (hstands l hl).imp fun _ => side.standsAt
  obtain ⟨next, hnext⟩ := sideFromSnapshot_total hall
  refine ⟨next, hnext, Side.same_of_lookup fun r => ?_⟩
  rw [sideFromSnapshot_lookup hnext]
  rcases foldl_mention hall r none with ⟨l, hl, hr, heq⟩ | ⟨hno, heq⟩
  · obtain ⟨p, hp⟩ := hstands l hl
    obtain rfl := (side.standsAt hp).unique hr
    rw [heq]
    exact (SortedMap.lookup_eq_some_iff _ _ _).mpr hp
  · rw [heq]
    cases hlook : side.levels.lookup r with
    | none => rfl
    | some l =>
      have hmem := (SortedMap.lookup_eq_some_iff _ _ _).mp hlook
      exact absurd (side.standsAt hmem) (hno l (h.mem_iff.mpr (side.mem_values.mpr ⟨r, hmem⟩)))

theorem applyLevel_same {a b : Side} (h : a.Same b) (level : PriceLevel) :
    (∃ e, applyLevel a level = .error e ∧ applyLevel b level = .error e) ∨
      ∃ a' b', applyLevel a level = .ok a' ∧ applyLevel b level = .ok b' ∧ a'.Same b' := by
  unfold applyLevel
  split
  · rename_i e he
    exact Or.inl ⟨e, rfl, rfl⟩
  · rename_i q hq
    split_ifs with hz
    · exact Or.inr ⟨_, _, rfl, rfl, SortedMap.remove_ranked h rfl⟩
    · exact Or.inr ⟨_, _, rfl, rfl, SortedMap.insert_ranked h rfl level⟩

theorem applySide_same {a b : Side} (h : a.Same b) (levels : List PriceLevel) :
    (applySide a levels).2 = (applySide b levels).2 ∧
      (applySide a levels).1.Same (applySide b levels).1 := by
  induction levels generalizing a b with
  | nil => exact ⟨rfl, h⟩
  | cons level rest ih =>
    rcases applyLevel_same h level with ⟨e, ha, hb⟩ | ⟨a', b', ha, hb, hab⟩
    · simp only [applySide, ha, hb]
      exact ⟨trivial, h⟩
    · simp only [applySide, ha, hb]
      exact ih hab

def Book.Same (a b : Book) : Prop := a.bidSide.Same b.bidSide ∧ a.askSide.Same b.askSide

theorem Book.Same.refl (a : Book) : a.Same a := ⟨rfl, rfl⟩

theorem Book.Same.bids {a b : Book} (h : a.Same b) : a.bids = b.bids := by
  rw [Book.bids, Book.bids, SortedMap.values_ranked h.1]

theorem Book.Same.asks {a b : Book} (h : a.Same b) : a.asks = b.asks :=
  SortedMap.values_ranked h.2

theorem applyDelta_same {a b : Book} (h : a.Same b) (bids asks : List PriceLevel) :
    (a.applyDelta bids asks).2 = (b.applyDelta bids asks).2 ∧
      (a.applyDelta bids asks).1.Same (b.applyDelta bids asks).1 := by
  obtain ⟨hbr, hbs⟩ := applySide_same h.1 bids
  obtain ⟨har, has⟩ := applySide_same h.2 asks
  unfold Book.applyDelta
  rcases hA : applySide a.bidSide bids with ⟨A, e | u⟩ <;>
    rcases hB : applySide b.bidSide bids with ⟨B, e' | u'⟩ <;>
    simp only [hA, hB, reduceCtorEq, Except.error.injEq] at hbr hbs
  · exact ⟨by rw [hbr], hbs, h.2⟩
  · exact ⟨har, hbs, has⟩

theorem fromSnapshot_listing (book : Book) :
    ∃ next, Book.fromSnapshot book.bids book.asks = .ok next ∧ book.Same next := by
  obtain ⟨b, hb, hbs⟩ := sideFromSnapshot_listing book.bidSide (List.reverse_perm _)
  obtain ⟨a, ha, has⟩ := sideFromSnapshot_listing book.askSide (List.Perm.refl _)
  exact ⟨⟨b, a⟩, fromSnapshot_ok.mpr ⟨hb, ha⟩, hbs, has⟩

end LighterIngestor
