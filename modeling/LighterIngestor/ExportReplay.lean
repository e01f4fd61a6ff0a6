import LighterIngestor.ExportApart
import LighterIngestor.ExportReading
import LighterIngestor.ServiceStorage

namespace LighterIngestor

section

variable {symbols : SymbolTable} {messages : List OrderbookMessageRow}
  {table : Hypertable OrderbookMessageRow.time OrderbookMessageRow.symbol symbols}

/-- A market's rows from the start of the window on. -/
def inWindow (row : SymbolRow) (hours : Option ℕ) (now : DateTime) (messages : List OrderbookMessageRow) :
    List OrderbookMessageRow :=
  (ofSymbol row.id messages).filter fun stored => InWindow now hours stored.time

theorem InWindow.later {now : DateTime} {hours : Option ℕ} {t u : DateTime} (h : InWindow now hours t)
    (htu : t ≤ u) : InWindow now hours u := by
  intro n hn
  have hfrom := h n hn
  rw [DateTime.le_iff] at htu
  omega

theorem marketRows_eq (hentries : table.entries.map Prod.snd = messages)
    (hids : (table.entries.map Prod.fst).Pairwise (· < ·)) {row : SymbolRow}
    (hordered : InOrder row.id messages) (hours : Option ℕ) (now : DateTime) :
    (table.marketRows row hours now).map Prod.snd = inWindow row hours now messages := by
  have hsnd : (table.entries.filter (fun entry : ℕ × OrderbookMessageRow =>
      entry.2.symbol = (row.id : ℤ) ∧ InWindow now hours entry.2.time)).map Prod.snd =
        inWindow row hours now messages := by
    rw [inWindow, ofSymbol, List.filter_filter, ← hentries, List.filter_map]
    simp only [Function.comp_def, Bool.decide_and, Bool.and_comm]
  rw [Hypertable.marketRows, (TimedLog.mergeSort_eq_self_iff OrderbookMessageRow.time _).mpr, hsnd]
  · rw [hsnd]
    exact hordered.pairwise.filter _
  · exact hids.sublist (List.filter_sublist.map _)

theorem inWindow_suffix {row : SymbolRow} (hordered : InOrder row.id messages) (hours : Option ℕ)
    (now : DateTime) : inWindow row hours now messages <:+ ofSymbol row.id messages := by
  apply TimedLog.filter_suffix OrderbookMessageRow.time hordered.pairwise
  · intro a b hab ha
    exact decide_eq_true ((of_decide_eq_true ha).later hab)

theorem query_named {names : List String} {hours : Option ℕ} {now : DateTime}
    (hentries : table.entries.map Prod.snd = messages) {row : SymbolRow}
    (halone : ∀ other ∈ symbols.rows, other.name = row.name → other ≠ row → ofSymbol other.id messages = []) :
    (table.query names hours now).filter (fun entry => entry.2.1.name = row.name) =
      (table.query names hours now).filter (fun entry => entry.2.1 = row) := by
  refine List.filter_congr fun entry hentry => decide_eq_decide.mpr ⟨fun hname => ?_, fun heq => by rw [heq]⟩
  obtain ⟨hjoined, -, -⟩ := Hypertable.mem_query.mp hentry
  obtain ⟨hstored, hrow, hid⟩ := Hypertable.mem_joined.mp hjoined
  by_contra hother
  have hmem : entry.2.2 ∈ ofSymbol entry.2.1.id messages := by
    rw [ofSymbol, List.mem_filter, ← hentries]
    exact ⟨List.mem_map_of_mem hstored, decide_eq_true hid.symm⟩
  rw [halone entry.2.1 hrow hname hother] at hmem
  cases hmem

end

section

variable [NumberTypes]

/-- The book of a file that a reader starts at one of its snapshots. -/
def rebuild (anchor : OrderbookQueryRow (List PriceLevel)) (later : List (OrderbookQueryRow (List PriceLevel))) :
    Except BookError Book :=
  match Book.fromSnapshot anchor.bids anchor.asks with
  | .error e => .error e
  | .ok book => later.foldlM replayExported book

theorem rebuild_exported (row : SymbolRow) (anchor : OrderbookMessageRow) (later : List OrderbookMessageRow) :
    rebuild (orderbookQueryRow (row, anchor)) (later.map fun stored => orderbookQueryRow (row, stored)) =
      replay anchor later := by
  simp only [rebuild, replay, orderbookQueryRow, List.foldlM_map]
  rfl

theorem Track.exact {symbol : ℤ} {held last : Option MarketBook} {events : List MarketEvent}
    {rows : List (Bool × OrderbookMessageRow)} (h : Track symbol held events last rows)
    (hheld : ∀ market ∈ held, market.sourceTime.Exact) : ∀ row ∈ rows, row.2.time.Exact := by
  induction h with
  | nil => exact fun row hrow => nomatch hrow
  | @message held last message next events rows haccepts hrest ih =>
    have hnext : next.sourceTime.Exact := ⟨_, haccepts.time⟩
    exact List.forall_mem_cons.mpr ⟨hnext, ih (by simpa using hnext)⟩
  | @tick market last events rows hrest ih =>
    exact List.forall_mem_cons.mpr ⟨hheld market rfl, ih hheld⟩
  | silent hrest ih => exact ih hheld

theorem Stored.exact {db : Tables} {lives : List Life} (h : Stored db lives) :
    ∀ row ∈ db.messages, row.time.Exact := by
  intro row hrow
  obtain ⟨segments, hsegments, heq⟩ := made_marked (h.tracks row.symbol)
  have hmem : row ∈ ofSymbol row.symbol db.messages := List.mem_filter.mpr ⟨hrow, decide_eq_true rfl⟩
  rw [heq] at hmem
  obtain ⟨marked, hmarked, rfl⟩ := List.mem_map.mp hmem
  obtain ⟨track, htrack, hin⟩ := List.mem_flatten.mp hmarked
  obtain ⟨events, last, h⟩ := hsegments track htrack
  exact h.exact (by simp) marked hin

theorem Service.run_exact {events : List ServiceEvent} {σ : Service}
    (hrun : Service.initial.run events = some σ) : ∀ row ∈ σ.db.messages, row.time.Exact := by
  obtain ⟨-, hheld, -⟩ := Service.run_inserted hrun
  obtain ⟨lives, h, -⟩ := Service.run_inv hrun
  exact fun row hrow => h.stored.exact row (hheld.remains.sublist.subset hrow)

def exportedRows (row : SymbolRow) (hours : Option ℕ) (now : DateTime) (messages : List OrderbookMessageRow) :
    List (OrderbookQueryRow (List PriceLevel)) :=
  (inWindow row hours now messages).map fun stored => orderbookQueryRow (row, stored)

/-- A reader of the name of a market gets its rows of the window as they lie in the table. -/
theorem exported_rows {db : Tables} (hexact : ∀ row ∈ db.messages, row.time.Exact)
    {table : Hypertable OrderbookMessageRow.time OrderbookMessageRow.symbol db.symbols}
    (hentries : table.entries.map Prod.snd = db.messages)
    (hids : (table.entries.map Prod.fst).Pairwise (· < ·)) {names : List String} (hours : Option ℕ)
    (now : DateTime) {row : SymbolRow} (hrow : row ∈ db.symbols.rows) (hname : NameSelected names row)
    (halone : ∀ other ∈ db.symbols.rows, other.name = row.name → other ≠ row →
      ofSymbol other.id db.messages = []) (hordered : InOrder row.id db.messages) :
    ∃ batch file, exportOrderbooks (fun levels => .ok (levelsText levels))
        ((table.query names hours now).map fun entry => orderbookQueryRow entry.2) (.start none) =
          .ok (batch, file) ∧
      readExport row.name file.sent = some (exportedRows row hours now db.messages) := by
  have hexact' : ∀ exported ∈ (table.query names hours now).map fun entry => orderbookQueryRow entry.2,
      exported.time.Exact := by
    intro exported hexported
    obtain ⟨entry, hentry, rfl⟩ := List.mem_map.mp hexported
    obtain ⟨hjoined, -, -⟩ := Hypertable.mem_query.mp hentry
    have hstored := (Hypertable.mem_joined.mp hjoined).1
    exact hexact entry.2.2 (hentries ▸ List.mem_map_of_mem hstored)
  obtain ⟨batch, file, hexport, hread⟩ := export_read_back hexact'
  refine ⟨batch, file, hexport, ?_⟩
  rw [hread row.name, List.filter_map]
  change some (((table.query names hours now).filter fun entry => entry.2.1.name = row.name).map _) = _
  rw [query_named hentries halone, Hypertable.query_market hrow hname, List.map_map, exportedRows,
    ← marketRows_eq hentries hids hordered hours now, List.map_map]
  rfl

/-- From the messages of the server to a file and back: a reader of the name of a market gets
its rows of the window as they were stored, and from any snapshot of them on the book that
the connection holds, once nothing of the market is in flight any more. What a retention job has
dropped before is not missed, if the times of the market did not run backwards. -/
theorem export_rebuilds_book {events : List ServiceEvent} {σ : Service}
    (hrun : Service.initial.run events = some σ)
    {table : Hypertable OrderbookMessageRow.time OrderbookMessageRow.symbol σ.db.symbols}
    (hentries : table.entries.map Prod.snd = σ.db.messages)
    (hids : (table.entries.map Prod.fst).Pairwise (· < ·)) {names : List String} {hours : Option ℕ}
    {now : DateTime} (hknown : ∀ name ∈ names, ∃ row ∈ σ.db.symbols.rows, row.name = name)
    (hrange : ∀ n ∈ hours, pgMinSecs ≤ now.secs - 3600 * n) {row : SymbolRow}
    (hrow : row ∈ σ.db.symbols.rows) (hname : NameSelected names row)
    (halone : ∀ other ∈ σ.db.symbols.rows, other.name = row.name → other ≠ row →
      ofSymbol other.id σ.db.messages = [])
    (hordered : ((ofSymbol row.id σ.db.messages).map OrderbookMessageRow.time).IsChain (· ≤ ·)) :
    ∃ selection batch file, table.exportSelection names hours now = .ok selection ∧
      exportOrderbooks (fun levels => .ok (levelsText levels))
        (selection.map fun entry => orderbookQueryRow entry.2) (.start none) = .ok (batch, file) ∧
      readExport row.name file.sent = some (exportedRows row hours now σ.db.messages) ∧
      ((∀ time, .retain time ∈ events → InOrder row.id (Service.inserted events)) →
        ∀ before anchor later, exportedRows row hours now σ.db.messages = before ++ anchor :: later →
          anchor.messageType = "snapshot" →
          (∃ book, rebuild anchor later = .ok book) ∧
            ∀ p ∈ σ.process, ∀ s, p.link = .up s → ∀ m, p.config.symbolCache.map.lookup m = some (row.id : ℤ) →
              ∀ market, s.markets.lookup m = some market → ofSymbol row.id (orderbookRows p.inFlight) = [] →
                ∃ book, rebuild anchor later = .ok book ∧ market.book.Same book) := by
  obtain ⟨lives, h, -⟩ := Service.run_inv hrun
  obtain ⟨batch, file, hexport, hread⟩ :=
    exported_rows (Service.run_exact hrun) hentries hids hours now hrow hname halone hordered
  refine ⟨_, batch, file, Hypertable.exportSelection_known hknown hrange, hexport, hread, ?_⟩
  intro hinserted before anchor later hrows hanchor
  obtain ⟨storedBefore, rest, hwindow, -, hrest⟩ := List.map_eq_append_iff.mp hrows
  obtain ⟨storedAnchor, storedLater, rfl, rfl, rfl⟩ := List.map_eq_cons_iff.mp hrest
  -- the window, then the table, each a last part of what the one before holds
  obtain ⟨older, hsplit⟩ := (inWindow_suffix hordered hours now).trans (Service.run_suffix hrun hinserted)
  rw [hwindow, ← List.append_assoc] at hsplit
  rw [rebuild_exported]
  constructor
  · exact h.stored.replayable hsplit.symm hanchor
  · intro p hp s hup m hm market hheld hdrained
    obtain ⟨book, hbook, hsame⟩ := h.replays hp hup hm hheld hsplit.symm hanchor
    rw [hdrained, List.append_nil] at hbook
    exact ⟨book, hbook, hsame⟩

end

theorem exists_hypertable {symbols : SymbolTable} {messages : List OrderbookMessageRow}
    (h : ∀ row ∈ messages, References symbols row.symbol) :
    ∃ table : Hypertable OrderbookMessageRow.time OrderbookMessageRow.symbol symbols,
      table.entries.map Prod.snd = messages ∧ (table.entries.map Prod.fst).Pairwise (· < ·) := by
  have hlength : (List.range messages.length).length = messages.length := List.length_range
  have hfst : ((List.range messages.length).zip messages).map Prod.fst = List.range messages.length :=
    List.map_fst_zip (le_of_eq hlength)
  have hsnd : ((List.range messages.length).zip messages).map Prod.snd = messages :=
    List.map_snd_zip (le_of_eq hlength.symm)
  refine ⟨⟨(List.range messages.length).zip messages, ?_, ?_⟩, hsnd, ?_⟩
  · apply List.Nodup.of_map Prod.snd
    rw [List.map_map]
    change (((List.range messages.length).zip messages).map Prod.fst).Nodup
    rw [hfst]
    exact List.nodup_range
  · exact fun entry hentry => h entry.2 (List.of_mem_zip hentry).2
  · dsimp only
    rw [hfst]
    exact List.pairwise_lt_range

def ether : SymbolRow := ⟨1, "ETH", 7, "perp"⟩

def sampleNow : DateTime := ⟨1790400000, 0, by decide⟩

/-- A retention job drops the first of two snapshots, and nothing is in flight. -/
def sampleTrimmed [NumberTypes] : List ServiceEvent :=
  [.start sampleListing [7] 0, .connect none, .turn (.orderbook sampleSnapshot), .enqueue, .receive allDone,
    .turn (.orderbook laterSnapshot), .enqueue, .receive allDone, .turn (.orderbook laterDelta), .enqueue,
    .receive allDone, .tick allDone, .retain sampleCleaning]

theorem sampleTrimmed_drained : letI := wholeNumbers;
    ∃ σ p s market, Service.initial.run sampleTrimmed = some σ ∧ σ.process = some p ∧ p.link = .up s ∧
      p.config.symbolCache.map.lookup 7 = some (ether.id : ℤ) ∧ s.markets.lookup 7 = some market ∧
      ofSymbol ether.id (orderbookRows p.inFlight) = [] ∧
      market.book.bids = [⟨"217", "1"⟩, ⟨"216", "46"⟩] ∧ market.book.asks = [⟨"220", "2"⟩] ∧
      (∀ row ∈ σ.db.messages, References σ.db.symbols row.symbol) ∧ ether ∈ σ.db.symbols.rows ∧
      (∀ name ∈ ["ETH"], ∃ row ∈ σ.db.symbols.rows, row.name = name) ∧
      (∀ other ∈ σ.db.symbols.rows, other.name = ether.name → other ≠ ether →
        ofSymbol other.id σ.db.messages = []) ∧
      InOrder ether.id σ.db.messages ∧
      ∃ anchor later, exportedRows ether (some 24) sampleNow σ.db.messages = anchor :: later ∧
        anchor.messageType = "snapshot" ∧ later.length = 1 := by
  let := wholeNumbers
  exact ⟨_, _, _, _, rfl, rfl, rfl, rfl, rfl, rfl, rfl, rfl, by decide, by decide, by decide, by decide,
    by decide, _, _, rfl, rfl, rfl⟩

theorem sample_export_rebuilds : letI := wholeNumbers;
    ∃ σ batch file rows anchor later book, Service.initial.run sampleTrimmed = some σ ∧
      exportOrderbooks (fun levels => .ok (levelsText levels)) rows (.start none) = .ok (batch, file) ∧
      readExport "ETH" file.sent = some (exportedRows ether (some 24) sampleNow σ.db.messages) ∧
      exportedRows ether (some 24) sampleNow σ.db.messages = anchor :: later ∧ later.length = 1 ∧
      rebuild anchor later = .ok book ∧ book.bids = [⟨"217", "1"⟩, ⟨"216", "46"⟩] ∧
      book.asks = [⟨"220", "2"⟩] := by
  let := wholeNumbers
  obtain ⟨σ, p, s, market, hrun, hp, hup, hm, hheld, hdrained, hbids, hasks, hreferences, hether, hknown, halone,
    hordered, anchor, later, hrows, hanchor, hlength⟩ := sampleTrimmed_drained
  obtain ⟨table, hentries, hids⟩ := exists_hypertable hreferences
  obtain ⟨selection, batch, file, -, hexport, hread, hbooks⟩ := @export_rebuilds_book wholeNumbers _ _ hrun
    table hentries hids ["ETH"] (some 24) sampleNow hknown (by decide) ether hether (Or.inr (by decide)) halone
    hordered
  have hinserted : InOrder 1 (Service.inserted sampleTrimmed) := by decide +kernel
  obtain ⟨-, hlive⟩ := hbooks (fun _ _ => hinserted) [] anchor later hrows hanchor
  obtain ⟨book, hbook, hsame⟩ := hlive p hp s hup 7 hm market hheld hdrained
  exact ⟨σ, batch, file, _, anchor, later, book, hrun, hexport, hread, hrows, hlength, hbook,
    hsame.bids.symm.trans hbids, hsame.asks.symm.trans hasks⟩

end LighterIngestor
