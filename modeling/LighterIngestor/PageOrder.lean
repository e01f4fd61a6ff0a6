import LighterIngestor.Base.Growing
import LighterIngestor.FundingPage
import LighterIngestor.WsMessages

namespace LighterIngestor

def DateTime.SecondsAfter (t later : DateTime) (n : ℤ) : Prop :=
  t.secs + n < later.secs ∨ (t.secs + n = later.secs ∧ t.nanos ≤ later.nanos)

section

variable [NumberTypes]

/-- A page in the window of its request, any two of whose rows are in order. -/
structure WellOrdered (start now : DateTime) (rows : List SettledFunding) : Prop where
  within : ∀ row ∈ rows, start ≤ row.time ∧ row.time ≤ now
  ordered : ∀ i j (hi : i < rows.length) (hj : j < rows.length), i < j → rows[i].time < rows[j].time

theorem validatePage_wellOrdered {start now : DateTime} {rows : List SettledFunding} :
    validatePage start now rows = .ok () ↔ WellOrdered start now rows := by
  rw [validatePage_ok, List.pairwise_map, List.pairwise_iff_getElem]
  constructor
  · rintro ⟨hwithin, hordered⟩
    exact ⟨hwithin, hordered⟩
  · intro h
    exact ⟨h.within, h.ordered⟩

namespace WellOrdered

variable {start now : DateTime} {rows : List SettledFunding}

theorem growing (h : WellOrdered start now rows) : (rows.map SettledFunding.time).Pairwise (· < ·) := by
  rw [List.pairwise_map, List.pairwise_iff_getElem]
  exact h.ordered

theorem nodup (h : WellOrdered start now rows) : (rows.map SettledFunding.time).Nodup := h.growing.nodup

theorem le_last (h : WellOrdered start now rows) {last row : SettledFunding} (hlast : last ∈ rows.getLast?)
    (hrow : row ∈ rows) : row.time ≤ last.time := by
  have hmax : (rows.map SettledFunding.time).max? = some last.time := by
    rw [Growing.max?_eq_getLast? h.growing, List.getLast?_map, show rows.getLast? = some last from hlast]
    rfl
  exact (List.max?_eq_some_iff.mp hmax).2 _ (List.mem_map_of_mem hrow)

theorem secs_growing (h : WellOrdered start now rows) (hwhole : ∀ row ∈ rows, row.time.nanos = 0) :
    (rows.map fun row => row.time.secs).Pairwise (· < ·) := by
  have hgrowing := h.growing
  rw [List.pairwise_map] at hgrowing ⊢
  apply hgrowing.imp_of_mem
  intro a b ha hb hab
  rw [DateTime.lt_iff, hwhole a ha, hwhole b hb] at hab
  omega

theorem span_secs (h : WellOrdered start now rows) (hwhole : ∀ row ∈ rows, row.time.nanos = 0)
    {last : SettledFunding} (hlast : last ∈ rows.getLast?) {first : ℤ}
    (hfirst : ∀ row ∈ rows, first ≤ row.time.secs) : first + (rows.length - 1) ≤ last.time.secs := by
  have hsecs : last.time.secs ∈ (rows.map fun row => row.time.secs).getLast? := by
    rw [List.getLast?_map, show rows.getLast? = some last from hlast]
    rfl
  have hspan := Growing.le_getLast (h.secs_growing hwhole) (List.forall_mem_map.mpr hfirst) hsecs
  rw [List.length_map] at hspan
  exact hspan

theorem span (h : WellOrdered start now rows) (hwhole : ∀ row ∈ rows, row.time.nanos = 0)
    {last : SettledFunding} (hlast : last ∈ rows.getLast?) :
    start.SecondsAfter last.time (rows.length - 1) := by
  have hstart : ∀ row ∈ rows, start.secs < row.time.secs ∨ (start.secs = row.time.secs ∧ start.nanos = 0) := by
    intro row hrow
    have hle := (h.within row hrow).1
    rw [DateTime.le_iff, hwhole row hrow] at hle
    omega
  by_cases hnanos : start.nanos = 0
  · have hspan : start.secs + (rows.length - 1) ≤ last.time.secs := by
      apply h.span_secs hwhole hlast
      intro row hrow
      have hle := hstart row hrow
      omega
    rw [DateTime.SecondsAfter, hnanos]
    omega
  -- no row lies in the second of a start that is inside it
  · have hspan : start.secs + 1 + (rows.length - 1) ≤ last.time.secs := by
      apply h.span_secs hwhole hlast
      intro row hrow
      have hle := hstart row hrow
      omega
    exact Or.inl (by omega)

end WellOrdered

/-- `validate_page` accepts the pages that are in order, not only from neighbour to neighbour,
and with that what `poll_market` takes from an accepted page: no time comes twice, the last
row is the latest, and a page of whole seconds reaches a second further with every row. -/
theorem page_accepted_iff_ordered (start now : DateTime) (rows : List SettledFunding) :
    (validatePage start now rows = .ok () ↔ WellOrdered start now rows) ∧
      (validatePage start now rows = .ok () →
        (rows.map SettledFunding.time).Nodup ∧
          ∀ last ∈ rows.getLast?, (∀ row ∈ rows, row.time ≤ last.time) ∧
            ((∀ row ∈ rows, row.time.nanos = 0) → start.SecondsAfter last.time (rows.length - 1))) := by
  refine ⟨validatePage_wellOrdered, fun haccepted => ?_⟩
  have h := validatePage_wellOrdered.mp haccepted
  refine ⟨h.nodup, fun last hlast => ⟨fun row hrow => h.le_last hlast hrow, fun hwhole => ?_⟩⟩
  exact h.span hwhole hlast

end

def pageStart : DateTime := ⟨999, 500000000, by decide⟩

def pageNow : DateTime := ⟨2000, 0, by decide⟩

def orderedPage : List (@SettledFunding wholeNumbers) :=
  [@SettledFunding.mk wholeNumbers ⟨1000, 0, by decide⟩ (4 : ℕ) "long",
    @SettledFunding.mk wholeNumbers ⟨1001, 0, by decide⟩ (5 : ℕ) "short"]

theorem ordered_page_accepted : letI := wholeNumbers;
    validatePage pageStart pageNow orderedPage = .ok () ∧
      ∃ last ∈ orderedPage.getLast?, pageStart.SecondsAfter last.time 1 := by
  let := wholeNumbers
  have haccepted : validatePage pageStart pageNow orderedPage = .ok () := rfl
  obtain ⟨-, hlast⟩ := (@page_accepted_iff_ordered wholeNumbers pageStart pageNow orderedPage).2 haccepted
  exact ⟨haccepted, _, rfl, (hlast _ rfl).2 (by decide)⟩

end LighterIngestor
