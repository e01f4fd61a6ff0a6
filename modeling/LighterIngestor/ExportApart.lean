import LighterIngestor.ExportQuery
import LighterIngestor.Replay

namespace LighterIngestor

section

variable [NumberTypes]

/-- What an export reads, with the check on `symbols.market_type`. -/
structure Database where
  symbols : SymbolTable
  typesKnown : ∀ row ∈ symbols.rows, row.marketType ∈ marketTypes
  trades : Hypertable TradeRow.time TradeRow.symbol symbols
  messages : Hypertable OrderbookMessageRow.time OrderbookMessageRow.symbol symbols

def tradeQueryRow (selected : SymbolRow × TradeRow) : TradeQueryRow where
  time := selected.2.time
  name := selected.1.name
  lighterTradeId := selected.2.lighterTradeId
  price := selected.2.price
  size := selected.2.size
  isMakerAsk := selected.2.isMakerAsk
  tradeType := selected.2.tradeType

def orderbookQueryRow (selected : SymbolRow × OrderbookMessageRow) : OrderbookQueryRow (List PriceLevel) where
  time := selected.2.time
  name := selected.1.name
  messageType := selected.2.messageType
  sequence := selected.2.sequence
  bids := selected.2.bids
  asks := selected.2.asks

/-- A reader's step over the rows of the file. -/
def replayExported (book : Book) (row : OrderbookQueryRow (List PriceLevel)) : Except BookError Book :=
  if row.messageType = "snapshot" then Book.fromSnapshot row.bids row.asks
  else
    match book.applyDelta row.bids row.asks with
    | (_, .error e) => .error e
    | (next, .ok ()) => .ok next

end

section

variable {α ρ : Type} {time : α → DateTime} {symbol : α → ℤ} {symbols : SymbolTable}

/-- Rows of a file with one value in the symbol column belong to one market, and the rows with
the value of a market are exactly its own in the window, in `(time, id)` order. -/
structure KeepsApart (table : Hypertable time symbol symbols) (hours : Option ℕ) (now : DateTime)
    (toRow : SymbolRow × α → ρ) (name : ρ → String) (selection : List (ℕ × (SymbolRow × α))) : Prop where
  apart : ∀ a ∈ selection, ∀ b ∈ selection, name (toRow a.2) = name (toRow b.2) → a.2.1.id = b.2.1.id
  grouped : ∀ a ∈ selection,
    (selection.map fun entry => toRow entry.2).filter (fun row => name row = a.2.1.name) =
      (table.marketRows a.2.1 hours now).map fun entry => toRow (a.2.1, entry.2)

/-- No name of the list is that of a perp and of a spot market which both have rows in the window. -/
def NoTwins (table : Hypertable time symbol symbols) (names : List String) (hours : Option ℕ)
    (now : DateTime) : Prop :=
  ∀ perp ∈ symbols.rows, ∀ spot ∈ symbols.rows, perp.marketType = "perp" → spot.marketType = "spot" →
    perp.name = spot.name → NameSelected names perp →
      table.marketRows perp hours now = [] ∨ table.marketRows spot hours now = []

theorem query_names_apart {table : Hypertable time symbol symbols} {names : List String}
    {hours : Option ℕ} {now : DateTime} (htypes : ∀ row ∈ symbols.rows, row.marketType ∈ marketTypes)
    (htwins : NoTwins table names hours now) {a b : ℕ × (SymbolRow × α)}
    (ha : a ∈ table.query names hours now) (hb : b ∈ table.query names hours now)
    (hname : a.2.1.name = b.2.1.name) : a.2.1 = b.2.1 := by
  have hmem : ∀ entry ∈ table.query names hours now, entry.2.1 ∈ symbols.rows ∧
      NameSelected names entry.2.1 ∧ table.marketRows entry.2.1 hours now ≠ [] := by
    intro entry hentry
    obtain ⟨hjoined, hselected, -⟩ := Hypertable.mem_query.mp hentry
    have hrow := (Hypertable.mem_joined.mp hjoined).2.1
    exact ⟨hrow, hselected, List.ne_nil_of_mem ((Hypertable.query_marketRows hrow hselected _ _).mp hentry)⟩
  obtain ⟨harow, haname, harows⟩ := hmem a ha
  obtain ⟨hbrow, hbname, hbrows⟩ := hmem b hb
  by_cases htype : a.2.1.marketType = b.2.1.marketType
  · exact List.inj_on_of_nodup_map symbols.typeNameUnique harow hbrow (Prod.ext htype hname)
  · have hatype := htypes _ harow
    have hbtype := htypes _ hbrow
    simp only [marketTypes, List.mem_cons, List.not_mem_nil, or_false] at hatype hbtype
    rcases hatype with hatype | hatype <;> rcases hbtype with hbtype | hbtype
    · exact absurd (hatype.trans hbtype.symm) htype
    · exact ((htwins _ harow _ hbrow hatype hbtype hname haname).elim harows hbrows).elim
    · exact ((htwins _ hbrow _ harow hbtype hatype hname.symm hbname).elim hbrows harows).elim
    · exact absurd (hatype.trans hbtype.symm) htype

theorem KeepsApart.noTwins {table : Hypertable time symbol symbols} {names : List String} {hours : Option ℕ}
    {now : DateTime} {toRow : SymbolRow × α → ρ} {name : ρ → String}
    (hrow : ∀ selected, name (toRow selected) = selected.1.name)
    (h : KeepsApart table hours now toRow name (table.query names hours now)) : NoTwins table names hours now := by
  intro perp hperp spot hspot hperpType hspotType hname hselected
  by_contra hboth
  rw [not_or] at hboth
  obtain ⟨⟨id, x⟩, hx⟩ := List.exists_mem_of_ne_nil _ hboth.1
  obtain ⟨⟨id', y⟩, hy⟩ := List.exists_mem_of_ne_nil _ hboth.2
  have hspotSelected : NameSelected names spot := by rwa [NameSelected, ← hname]
  have ha := (Hypertable.query_marketRows hperp hselected id x).mpr hx
  have hb := (Hypertable.query_marketRows hspot hspotSelected id' y).mpr hy
  have hid : perp.id = spot.id := h.apart _ ha _ hb (by rw [hrow, hrow, hname])
  have hsame : perp = spot := List.inj_on_of_nodup_map symbols.idUnique hperp hspot hid
  rw [hsame, hspotType] at hperpType
  exact absurd hperpType (by decide)

theorem NoTwins.filter_name {table : Hypertable time symbol symbols} {names : List String} {hours : Option ℕ}
    {now : DateTime} (htwins : NoTwins table names hours now)
    (htypes : ∀ row ∈ symbols.rows, row.marketType ∈ marketTypes) {a : ℕ × (SymbolRow × α)}
    (ha : a ∈ table.query names hours now) :
    (table.query names hours now).filter (fun entry => entry.2.1.name = a.2.1.name) =
      (table.query names hours now).filter (fun entry => entry.2.1 = a.2.1) := by
  refine List.filter_congr fun b hb => decide_eq_decide.mpr ?_
  constructor
  · intro hname
    exact query_names_apart htypes htwins hb ha hname
  · intro heq
    rw [heq]

theorem NoTwins.keepsApart {table : Hypertable time symbol symbols} {names : List String} {hours : Option ℕ}
    {now : DateTime} (htwins : NoTwins table names hours now)
    (htypes : ∀ row ∈ symbols.rows, row.marketType ∈ marketTypes) {toRow : SymbolRow × α → ρ}
    {name : ρ → String} (hrow : ∀ selected, name (toRow selected) = selected.1.name) :
    KeepsApart table hours now toRow name (table.query names hours now) where
  apart := by
    intro a ha b hb hname
    rw [hrow, hrow] at hname
    rw [query_names_apart htypes htwins ha hb hname]
  grouped := by
    intro a ha
    obtain ⟨hjoined, hselected, -⟩ := Hypertable.mem_query.mp ha
    have hmarket := (Hypertable.mem_joined.mp hjoined).2.1
    rw [List.filter_map]
    simp only [Function.comp_def, hrow]
    rw [htwins.filter_name htypes ha, Hypertable.query_market hmarket hselected, List.map_map]
    rfl

theorem keepsApart_iff (table : Hypertable time symbol symbols) (names : List String) (hours : Option ℕ)
    (now : DateTime) (htypes : ∀ row ∈ symbols.rows, row.marketType ∈ marketTypes)
    {toRow : SymbolRow × α → ρ} {name : ρ → String} (hrow : ∀ selected, name (toRow selected) = selected.1.name) :
    KeepsApart table hours now toRow name (table.query names hours now) ↔ NoTwins table names hours now :=
  ⟨fun h => h.noTwins hrow, fun htwins => htwins.keepsApart htypes hrow⟩

end

section

variable [NumberTypes]

/-- A reader who takes the rows of a name replays the book of the market, which is what the
market's own rows of the window replay to. -/
def ReplaysApart {symbols : SymbolTable}
    (table : Hypertable OrderbookMessageRow.time OrderbookMessageRow.symbol symbols) (hours : Option ℕ)
    (now : DateTime) (selection : List (ℕ × (SymbolRow × OrderbookMessageRow))) : Prop :=
  ∀ a ∈ selection, ∀ book,
    ((selection.map fun entry => orderbookQueryRow entry.2).filter
        (fun row => row.name = a.2.1.name)).foldlM replayExported book =
      ((table.marketRows a.2.1 hours now).map Prod.snd).foldlM replayRow book

theorem KeepsApart.replays {symbols : SymbolTable}
    {table : Hypertable OrderbookMessageRow.time OrderbookMessageRow.symbol symbols} {hours : Option ℕ}
    {now : DateTime} {selection : List (ℕ × (SymbolRow × OrderbookMessageRow))}
    (h : KeepsApart table hours now orderbookQueryRow OrderbookQueryRow.name selection) :
    ReplaysApart table hours now selection := by
  intro a ha book
  rw [h.grouped a ha, List.foldlM_map, List.foldlM_map]
  rfl

/-- The files of an export keep their markets apart, and can be replayed market by market,
exactly when no perp and spot market of one name both have rows in them. -/
theorem export_keeps_markets_apart (db : Database) (names : List String) (hours : Option ℕ) (now : DateTime) :
    (∀ selection, db.trades.exportSelection names hours now = .ok selection →
      (KeepsApart db.trades hours now tradeQueryRow TradeQueryRow.name selection ↔
        NoTwins db.trades names hours now)) ∧
    ∀ selection, db.messages.exportSelection names hours now = .ok selection →
      (KeepsApart db.messages hours now orderbookQueryRow OrderbookQueryRow.name selection ∧
          ReplaysApart db.messages hours now selection ↔
        NoTwins db.messages names hours now) := by
  constructor
  · intro selection hselection
    rw [Hypertable.exportSelection_ok hselection]
    exact keepsApart_iff db.trades names hours now db.typesKnown fun _ => rfl
  · intro selection hselection
    have happart : KeepsApart db.messages hours now orderbookQueryRow OrderbookQueryRow.name
        (db.messages.query names hours now) ↔ NoTwins db.messages names hours now :=
      keepsApart_iff db.messages names hours now db.typesKnown fun _ => rfl
    rw [Hypertable.exportSelection_ok hselection, ← happart]
    exact ⟨fun h => h.1, fun h => ⟨h, h.replays⟩⟩

end

def twinSymbols : SymbolTable where
  rows := [⟨1, "BTC", 1, "perp"⟩, ⟨2, "BTC", 2048, "spot"⟩]
  nextId := 3
  idUnique := by decide
  marketUnique := by decide
  typeNameUnique := by decide
  idDrawn := by decide

def perpSnapshot : OrderbookMessageRow :=
  ⟨⟨1790015233, 0, by decide⟩, 1, "snapshot", some 10, [⟨"7", "1"⟩], [⟨"9", "1"⟩], none⟩

def spotSnapshot : OrderbookMessageRow :=
  ⟨⟨1790015234, 0, by decide⟩, 2, "snapshot", some 30, [⟨"6", "5"⟩], [⟨"8", "5"⟩], none⟩

def twinDatabase [NumberTypes] : Database where
  symbols := twinSymbols
  typesKnown := by decide
  trades := ⟨[], List.nodup_nil, fun _ hrow => absurd hrow List.not_mem_nil⟩
  messages := ⟨[(1, perpSnapshot), (2, spotSnapshot)], by decide, by decide⟩

theorem twins_not_apart : letI := wholeNumbers;
    ∃ selection, twinDatabase.messages.exportSelection [] none ⟨0, 0, by decide⟩ = .ok selection ∧
      ¬ (KeepsApart twinDatabase.messages none ⟨0, 0, by decide⟩ orderbookQueryRow OrderbookQueryRow.name
          selection ∧ ReplaysApart twinDatabase.messages none ⟨0, 0, by decide⟩ selection) := by
  let := wholeNumbers
  have hselection : twinDatabase.messages.exportSelection [] none ⟨0, 0, by decide⟩ = .ok _ := rfl
  refine ⟨_, hselection, ?_⟩
  rw [(@export_keeps_markets_apart wholeNumbers twinDatabase [] none _).2 _ hselection]
  intro htwins
  rcases htwins ⟨1, "BTC", 1, "perp"⟩ (by decide) ⟨2, "BTC", 2048, "spot"⟩ (by decide) rfl rfl rfl
      (Or.inl rfl) with hnone | hnone
  · exact List.ne_nil_of_mem (Hypertable.mem_marketRows.mpr ⟨List.mem_cons_self, rfl, by simp [InWindow]⟩) hnone
  · exact @List.ne_nil_of_mem _ (2, spotSnapshot) _ (Hypertable.mem_marketRows.mpr
      ⟨by decide, rfl, by simp [InWindow]⟩) hnone

theorem export_mixes_twins : letI := wholeNumbers;
    ¬ ∀ (db : Database) (names : List String) (hours : Option ℕ) (now : DateTime)
        (messages : List (ℕ × (SymbolRow × OrderbookMessageRow))),
      db.messages.exportSelection names hours now = .ok messages →
        ∀ a ∈ messages, ∀ b ∈ messages,
          (orderbookQueryRow a.2).name = (orderbookQueryRow b.2).name → a.2.1.id = b.2.1.id := by
  let := wholeNumbers
  intro hall
  have happart := hall twinDatabase [] none ⟨0, 0, by decide⟩ _ rfl
  have hmem : ∀ entry ∈ [(1, (⟨1, "BTC", 1, "perp"⟩ : SymbolRow), perpSnapshot),
      (2, (⟨2, "BTC", 2048, "spot"⟩ : SymbolRow), spotSnapshot)],
        entry ∈ twinDatabase.messages.query [] none ⟨0, 0, by decide⟩ := by
    intro entry hentry
    rw [Hypertable.mem_query, Hypertable.mem_joined]
    simp only [List.mem_cons, List.not_mem_nil, or_false] at hentry
    rcases hentry with rfl | rfl
    · exact ⟨⟨by decide, by decide, rfl⟩, Or.inl rfl, by simp [InWindow]⟩
    · exact ⟨⟨by decide, by decide, rfl⟩, Or.inl rfl, by simp [InWindow]⟩
  exact absurd (happart _ (hmem _ List.mem_cons_self) _ (hmem _ (List.mem_cons_of_mem _ List.mem_cons_self)) rfl)
    (by decide)

end LighterIngestor
