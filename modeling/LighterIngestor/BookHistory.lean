import Mathlib.Data.List.Induction
import LighterIngestor.BookLevels
import LighterIngestor.WsMessages

namespace LighterIngestor

structure Delta where
  bids : List PriceLevel
  asks : List PriceLevel

section

variable [NumberTypes]

def Book.acceptDelta (book : Book) (delta : Delta) : Except BookError Book :=
  match book.applyDelta delta.bids delta.asks with
  | (next, .ok ()) => .ok next
  | (_, .error e) => .error e

/-- Calls of `apply_delta` one after the other, with what each returns. -/
def Book.applyDeltas (book : Book) : List Delta → Book × List (Except BookError Unit)
  | [] => (book, [])
  | delta :: rest =>
    let (next, result) := book.applyDelta delta.bids delta.asks
    let (last, results) := next.applyDeltas rest
    (last, result :: results)

/-- The last level of a list at its price, with a size. -/
def LastMention (mentioned : List PriceLevel) (level : PriceLevel) : Prop :=
  ∃ before after, mentioned = before ++ level :: after ∧
    ∃ q : Quote level, value q.size ≠ 0 ∧
      ∀ later ∈ after, ∀ p : Quote later, value p.price ≠ value q.price

/-- The last mentions of the prices of a side, in an order of the prices. -/
structure Listing (order : ℚ → ℚ → Prop) (mentioned levels : List PriceLevel) : Prop where
  ordered : levels.Pairwise fun a b =>
    ∀ (p : Quote a) (q : Quote b), order (value p.price) (value q.price)
  member : ∀ level, level ∈ levels ↔ LastMention mentioned level

theorem Quote.value_price {level : PriceLevel} (p q : Quote level) : value p.price = value q.price := by
  rw [Except.ok.inj (p.price_eq.symm.trans q.price_eq)]

theorem mention_at {r : ℚ} {held : Option PriceLevel} {level kept : PriceLevel} :
    mention r held level = some kept ↔
      (kept = level ∧ StandsAt r level) ∨ ((∀ q : Quote level, value q.price ≠ r) ∧ held = some kept) := by
  unfold mention
  split
  · rename_i e he
    have hno : ∀ q : Quote level, False := fun q => absurd (he.symm.trans (parse_quote q)) (by simp)
    constructor
    · intro h
      exact Or.inr ⟨fun q => (hno q).elim, h⟩
    · rintro (⟨-, q, -⟩ | ⟨-, h⟩)
      · exact (hno q).elim
      · exact h
  · rename_i q hq
    split_ifs with hr hz
    · constructor
      · intro h
        cases h
      · rintro (⟨-, p, hp, hsize⟩ | ⟨hno, -⟩)
        · rw [Except.ok.inj (p.size_eq.symm.trans q.size_eq)] at hsize
          exact absurd hz hsize
        · exact absurd hr.symm (hno q)
    · rw [Option.some.injEq]
      constructor
      · rintro rfl
        exact Or.inl ⟨rfl, q, hr.symm, hz⟩
      · rintro (⟨rfl, -⟩ | ⟨hno, -⟩)
        · rfl
        · exact absurd hr.symm (hno q)
    · constructor
      · intro h
        exact Or.inr ⟨fun p hp => hr (hp.symm.trans (p.value_price q)), h⟩
      · rintro (⟨-, p, hp, -⟩ | ⟨-, h⟩)
        · exact absurd (hp.symm.trans (p.value_price q)) hr
        · exact h

theorem foldl_mention_last {mentioned : List PriceLevel} {r : ℚ} {level : PriceLevel} :
    mentioned.foldl (mention r) none = some level ↔
      StandsAt r level ∧ ∃ before after, mentioned = before ++ level :: after ∧
        ∀ later ∈ after, ∀ p : Quote later, value p.price ≠ r := by
  induction mentioned using List.reverseRecOn with
  | nil => simp
  | append_singleton front last ih =>
    rw [List.foldl_append, List.foldl_cons, List.foldl_nil, mention_at, ih]
    constructor
    · rintro (⟨rfl, hstands⟩ | ⟨hno, hstands, before, after, rfl, hafter⟩)
      · exact ⟨hstands, front, [], rfl, by simp⟩
      · refine ⟨hstands, before, after ++ [last], by simp, ?_⟩
        intro later hlater
        rcases List.mem_append.mp hlater with hlater | hlater
        · exact hafter later hlater
        · rw [List.mem_singleton.mp hlater]
          exact hno
    · rintro ⟨hstands, before, after, hcut, hafter⟩
      rcases List.eq_nil_or_concat after with rfl | ⟨rest, x, rfl⟩
      · obtain ⟨-, hlast⟩ := List.append_inj' hcut rfl
        exact Or.inl ⟨(List.cons.inj hlast).1.symm, (List.cons.inj hlast).1 ▸ hstands⟩
      · rw [List.concat_eq_append] at hcut hafter
        rw [← List.cons_append, ← List.append_assoc] at hcut
        obtain ⟨hfront, hlast⟩ := List.append_inj' hcut rfl
        obtain rfl := (List.cons.inj hlast).1
        refine Or.inr ⟨hafter last (by simp), hstands, before, rest, hfront, ?_⟩
        exact fun later hlater => hafter later (List.mem_append_left _ hlater)

theorem lastMention_iff {mentioned : List PriceLevel} {level : PriceLevel} :
    LastMention mentioned level ↔ ∃ r, mentioned.foldl (mention r) none = some level := by
  constructor
  · rintro ⟨before, after, hcut, q, hsize, hafter⟩
    exact ⟨value q.price, foldl_mention_last.mpr ⟨⟨q, rfl, hsize⟩, before, after, hcut, hafter⟩⟩
  · rintro ⟨r, h⟩
    obtain ⟨⟨q, rfl, hsize⟩, before, after, hcut, hafter⟩ := foldl_mention_last.mp h
    exact ⟨before, after, hcut, q, hsize, hafter⟩

theorem acceptDelta_ok {book next : Book} {delta : Delta} :
    book.acceptDelta delta = .ok next ↔
      delta.bids.foldlM applyLevel book.bidSide = .ok next.bidSide ∧
        delta.asks.foldlM applyLevel book.askSide = .ok next.askSide := by
  rw [← applySide_ok, ← applySide_ok, ← applyDelta_ok, Book.acceptDelta]
  rcases book.applyDelta delta.bids delta.asks with ⟨b, e | u⟩ <;> simp

theorem acceptDeltas_ok {book last : Book} {deltas : List Delta}
    (h : deltas.foldlM Book.acceptDelta book = .ok last) :
    (deltas.flatMap Delta.bids).foldlM applyLevel book.bidSide = .ok last.bidSide ∧
      (deltas.flatMap Delta.asks).foldlM applyLevel book.askSide = .ok last.askSide := by
  induction deltas generalizing book with
  | nil =>
    cases h
    exact ⟨rfl, rfl⟩
  | cons delta rest ih =>
    obtain ⟨mid, hmid, hrest⟩ := Loops.foldlM_cons_ok.mp h
    obtain ⟨hbid, hask⟩ := acceptDelta_ok.mp hmid
    obtain ⟨hbids, hasks⟩ := ih hrest
    exact ⟨Loops.foldlM_append_ok.mpr ⟨_, hbid, hbids⟩, Loops.foldlM_append_ok.mpr ⟨_, hask, hasks⟩⟩

theorem history_lookup {bids asks : List PriceLevel} {deltas : List Delta} {first last : Book}
    (hsnapshot : Book.fromSnapshot bids asks = .ok first)
    (hdeltas : deltas.foldlM Book.acceptDelta first = .ok last) (r : ℚ) :
    last.bidSide.levels.lookup r = (bids ++ deltas.flatMap Delta.bids).foldl (mention r) none ∧
      last.askSide.levels.lookup r = (asks ++ deltas.flatMap Delta.asks).foldl (mention r) none := by
  obtain ⟨hbid, hask⟩ := fromSnapshot_ok.mp hsnapshot
  obtain ⟨hbids, hasks⟩ := acceptDeltas_ok hdeltas
  constructor
  · exact applyLevels_lookup (Loops.foldlM_append_ok.mpr ⟨_, snapshotLevels_applyLevels hbid, hbids⟩) r
  · exact applyLevels_lookup (Loops.foldlM_append_ok.mpr ⟨_, snapshotLevels_applyLevels hask, hasks⟩) r

theorem Side.values_ascending (side : Side) :
    side.levels.values.Pairwise fun a b =>
      ∀ (p : Quote a) (q : Quote b), value p.price < value q.price := by
  rw [← SortedMap.ranked_values, List.pairwise_map]
  refine List.Pairwise.imp_of_mem ?_ side.levels.ranked_sorted
  rintro ⟨r, a⟩ ⟨s, b⟩ ha hb hlt p q
  obtain ⟨p', rfl, -⟩ := side.standsAt ha
  obtain ⟨q', rfl, -⟩ := side.standsAt hb
  rw [p.value_price p', q.value_price q']
  exact hlt

theorem Side.listing (side : Side) {mentioned : List PriceLevel}
    (h : ∀ r, side.levels.lookup r = mentioned.foldl (mention r) none) :
    Listing (fun r s => r < s) mentioned side.levels.values := by
  refine ⟨side.values_ascending, fun level => ?_⟩
  rw [side.mem_values, lastMention_iff]
  refine exists_congr fun r => ?_
  rw [← h, SortedMap.lookup_eq_some_iff]

theorem Listing.reverse {order : ℚ → ℚ → Prop} {mentioned levels : List PriceLevel}
    (h : Listing order mentioned levels) : Listing (fun r s => order s r) mentioned levels.reverse := by
  refine ⟨?_, fun level => List.mem_reverse.trans (h.member level)⟩
  rw [List.pairwise_reverse]
  exact h.ordered.imp fun hab p q => hab q p

/-- The last writer of a price wins, by its value, over a snapshot and all deltas after it,
and each side is made of the levels of its own side only. -/
theorem last_mention_wins {bids asks : List PriceLevel} {deltas : List Delta} {first last : Book}
    (hsnapshot : Book.fromSnapshot bids asks = .ok first)
    (hdeltas : deltas.foldlM Book.acceptDelta first = .ok last) :
    Listing (fun r s => s < r) (bids ++ deltas.flatMap Delta.bids) last.bids ∧
      Listing (fun r s => r < s) (asks ++ deltas.flatMap Delta.asks) last.asks ∧
      ∀ (bids' asks' : List PriceLevel) (deltas' : List Delta) (first' last' : Book),
        Book.fromSnapshot bids' asks' = .ok first' → deltas'.foldlM Book.acceptDelta first' = .ok last' →
          (bids' ++ deltas'.flatMap Delta.bids = bids ++ deltas.flatMap Delta.bids →
              last'.bids = last.bids) ∧
            (asks' ++ deltas'.flatMap Delta.asks = asks ++ deltas.flatMap Delta.asks →
              last'.asks = last.asks) := by
  have hlookup := history_lookup hsnapshot hdeltas
  refine ⟨(last.bidSide.listing fun r => (hlookup r).1).reverse,
    last.askSide.listing fun r => (hlookup r).2, ?_⟩
  intro bids' asks' deltas' first' last' hsnapshot' hdeltas'
  have hlookup' := history_lookup hsnapshot' hdeltas'
  constructor
  · intro hsame
    have hside : last'.bidSide.Same last.bidSide := Side.same_of_lookup fun r => by
      rw [(hlookup r).1, (hlookup' r).1, hsame]
    rw [Book.bids, Book.bids, SortedMap.values_ranked hside]
  · intro hsame
    have hside : last'.askSide.Same last.askSide := Side.same_of_lookup fun r => by
      rw [(hlookup r).2, (hlookup' r).2, hsame]
    exact SortedMap.values_ranked hside

end

def sampleDeltas : List Delta := [⟨[⟨"07", "0"⟩], []⟩, ⟨[⟨"006", "5"⟩], [⟨"8", "2"⟩]⟩]

theorem sample_last_mention : letI := wholeNumbers;
    ∃ first last : Book, Book.fromSnapshot [⟨"7", "1"⟩, ⟨"6", "2"⟩] [] = .ok first ∧
      sampleDeltas.foldlM Book.acceptDelta first = .ok last ∧ last.bids = [⟨"006", "5"⟩] ∧
      Listing (fun r s => s < r) [⟨"7", "1"⟩, ⟨"6", "2"⟩, ⟨"07", "0"⟩, ⟨"006", "5"⟩] last.bids := by
  let := wholeNumbers
  have hruns : ∃ first last : Book, Book.fromSnapshot [⟨"7", "1"⟩, ⟨"6", "2"⟩] [] = .ok first ∧
      sampleDeltas.foldlM Book.acceptDelta first = .ok last ∧ last.bids = [⟨"006", "5"⟩] :=
    ⟨_, _, rfl, rfl, rfl⟩
  obtain ⟨first, last, hsnapshot, hdeltas, hbids⟩ := hruns
  exact ⟨first, last, hsnapshot, hdeltas, hbids, (@last_mention_wins wholeNumbers _ _ _ _ _ hsnapshot hdeltas).1⟩

section

variable [NumberTypes]

theorem Book.Same.applyDeltas {a b : Book} (h : a.Same b) (deltas : List Delta) :
    (a.applyDeltas deltas).2 = (b.applyDeltas deltas).2 ∧
      (a.applyDeltas deltas).1.Same (b.applyDeltas deltas).1 := by
  induction deltas generalizing a b with
  | nil => exact ⟨rfl, h⟩
  | cons delta rest ih =>
    obtain ⟨hresult, hnext⟩ := applyDelta_same h delta.bids delta.asks
    obtain ⟨hresults, hlast⟩ := ih hnext
    simp only [Book.applyDeltas]
    exact ⟨by rw [hresult, hresults], hlast⟩

/-- A book survives its own snapshot, also where deltas have failed on the way to it. -/
theorem book_survives_snapshot (start : Book) (deltas : List Delta) :
    ∃ rebuilt,
      Book.fromSnapshot (start.applyDeltas deltas).1.bids (start.applyDeltas deltas).1.asks = .ok rebuilt ∧
      rebuilt.bids = (start.applyDeltas deltas).1.bids ∧
      rebuilt.asks = (start.applyDeltas deltas).1.asks ∧
      ∀ further,
        (rebuilt.applyDeltas further).2 = ((start.applyDeltas deltas).1.applyDeltas further).2 ∧
        (rebuilt.applyDeltas further).1.bids = ((start.applyDeltas deltas).1.applyDeltas further).1.bids ∧
        (rebuilt.applyDeltas further).1.asks =
          ((start.applyDeltas deltas).1.applyDeltas further).1.asks := by
  obtain ⟨rebuilt, hrebuilt, hsame⟩ := fromSnapshot_listing (start.applyDeltas deltas).1
  refine ⟨rebuilt, hrebuilt, hsame.bids.symm, hsame.asks.symm, fun further => ?_⟩
  obtain ⟨hresults, hlast⟩ := hsame.applyDeltas further
  exact ⟨hresults.symm, hlast.bids.symm, hlast.asks.symm⟩

end

end LighterIngestor
