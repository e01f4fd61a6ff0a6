import LighterIngestor.StoredTracks
import Mathlib.Data.List.Chain

namespace LighterIngestor

open Segments

/-- A delta row extends the row of its symbol that is stored directly before it. -/
def Continues (previous row : OrderbookMessageRow) : Prop :=
  row.messageType = "delta" → ∃ nonce, row.beginNonce = some nonce ∧ previous.sequence = some nonce

structure Unbroken (rows : List OrderbookMessageRow) : Prop where
  first : ∀ row ∈ rows.head?, row.messageType = "snapshot"
  kinds : ∀ row ∈ rows, row.messageType = "delta" ∨ (row.messageType = "snapshot" ∧ row.beginNonce = none)
  chain : rows.IsChain Continues

theorem Unbroken.append {a b : List OrderbookMessageRow} (ha : Unbroken a) (hb : Unbroken b) :
    Unbroken (a ++ b) where
  first := by
    intro row hrow
    rw [List.head?_append] at hrow
    cases hhead : a.head? with
    | none =>
      rw [hhead, Option.none_or] at hrow
      exact hb.first row hrow
    | some first =>
      rw [hhead, Option.some_or] at hrow
      cases hrow
      exact ha.first _ hhead
  kinds row hrow := (List.mem_append.mp hrow).elim (ha.kinds row) (hb.kinds row)
  chain := by
    refine List.isChain_append.mpr ⟨ha.chain, hb.chain, fun previous _ row hrow hdelta => ?_⟩
    exact absurd ((hb.first row hrow).symm.trans hdelta) snapshot_ne_delta

theorem Unbroken.suffix {rows last : List OrderbookMessageRow} (h : Unbroken rows) (hlast : last <:+ rows) :
    last.IsChain Continues := by
  obtain ⟨older, rfl⟩ := hlast
  exact (List.isChain_append.mp h.chain).2.1

theorem NonceChain.unbroken {marked : List (Bool × OrderbookMessageRow)} (h : NonceChain marked) :
    Unbroken (marked.map Prod.snd) where
  first := by
    intro row hrow
    rw [List.head?_map] at hrow
    obtain ⟨entry, hentry, rfl⟩ := Option.map_eq_some_iff.mp hrow
    exact (h.first entry hentry).2
  kinds := by
    intro row hrow
    obtain ⟨entry, hentry, rfl⟩ := List.mem_map.mp hrow
    exact h.kinds entry hentry
  chain := by
    rw [List.isChain_map]
    exact h.chain.imp fun _ _ hfollows => hfollows.delta

section

variable [NumberTypes]

theorem made_unbroken {symbol : ℤ} {rows : List OrderbookMessageRow} (h : Made (TrackRows symbol) rows) :
    Unbroken rows := by
  refine h.rule ⟨by simp, by simp, .nil⟩ ?_
  rintro s rest ⟨track, held, marked, htrack, rfl⟩ hrest
  exact (htrack.nonceChain rfl).unbroken.append hrest

theorem Stored.replayable {db : Tables} {lives : List Life} (h : Stored db lives) {symbol : ℤ}
    {before later : List OrderbookMessageRow} {anchor : OrderbookMessageRow}
    (hrows : ofSymbol symbol db.messages = before ++ anchor :: later)
    (hanchor : anchor.messageType = "snapshot") : ∃ book, replay anchor later = .ok book := by
  obtain ⟨segments, hsegments, heq⟩ := made_marked (h.tracks symbol)
  rw [hrows, ← List.append_nil segments.flatten] at heq
  obtain ⟨book, hbook, -⟩ := tracks_replay_from hsegments (.nil none) heq.symm hanchor
  exact ⟨book, hbook⟩

/-- Whatever happened to the processes that wrote them, the rows of a symbol are unbroken as they
were inserted, and a reader can start at any of its snapshots. A retention job leaves the last of
them, if the times of the symbol do not run backwards, so that this holds of the table as well. -/
theorem stored_rows_unbroken {events : List ServiceEvent} {σ : Service}
    (hrun : Service.initial.run events = some σ) (symbol : ℤ) :
    Unbroken (ofSymbol symbol (Service.inserted events)) ∧
      (∀ before anchor later, ofSymbol symbol (Service.inserted events) = before ++ anchor :: later →
        anchor.messageType = "snapshot" → ∃ book, replay anchor later = .ok book) ∧
      ((∀ now, .retain now ∉ events) → Unbroken (ofSymbol symbol σ.db.messages)) ∧
      ((∀ now, .retain now ∈ events → InOrder symbol (Service.inserted events)) →
        ofSymbol symbol σ.db.messages <:+ ofSymbol symbol (Service.inserted events) ∧
          (ofSymbol symbol σ.db.messages).IsChain Continues ∧
          ∀ before anchor later, ofSymbol symbol σ.db.messages = before ++ anchor :: later →
            anchor.messageType = "snapshot" → ∃ book, replay anchor later = .ok book) := by
  obtain ⟨-, hheld, -⟩ := Service.run_inserted hrun
  obtain ⟨lives, h, -⟩ := Service.run_inv hrun
  have hunbroken : Unbroken (ofSymbol symbol (Service.inserted events)) := made_unbroken (h.stored.tracks symbol)
  refine ⟨hunbroken, fun _ _ _ => h.stored.replayable, fun hkeeps => ?_, fun hordered => ?_⟩
  · rw [hheld.all_held hkeeps]
    exact hunbroken
  · have hlast := Service.run_suffix hrun hordered
    refine ⟨hlast, hunbroken.suffix hlast, fun before anchor later hrows => ?_⟩
    obtain ⟨older, holder⟩ := hlast
    rw [hrows, ← List.append_assoc] at holder
    exact h.stored.replayable holder.symm

/-- Read from any snapshot on, what is stored and what is in flight is the book that is held. -/
theorem Service.Inv.replays {σ : Service} {lives : List Life} (h : σ.Inv lives) {p : Process}
    (hp : σ.process = some p) {s : Session} (hup : p.link = .up s) {m symbol : ℤ}
    (hm : p.config.symbolCache.map.lookup m = some symbol) {market : MarketBook}
    (hheld : s.markets.lookup m = some market) {before later : List OrderbookMessageRow}
    {anchor : OrderbookMessageRow} (hrows : ofSymbol symbol σ.db.messages = before ++ anchor :: later)
    (hanchor : anchor.messageType = "snapshot") :
    ∃ book, replay anchor (later ++ ofSymbol symbol (orderbookRows p.inFlight)) = .ok book ∧
      market.book.Same book := by
  obtain ⟨hinv, earlier, life, rfl, hlives⟩ := h.serving p hp
  have haccounts := (hlives.accounts hinv).1
  have hlink := hlives.reached.link
  rw [hup] at hlink haccounts
  obtain ⟨connections, current, hconnections, hcurrent⟩ : ∃ connections current,
      life.connections = connections ++ [current] ∧
        runWsIngestion p.config (collect p.config (.start none) connections) current = (s, .ok ()) := by
    generalize life.connections = all at hlink
    cases hlink with
    | up hcurrent => exact ⟨_, _, rfl, hcurrent⟩
  obtain ⟨hsent, track, held, htrack, -, hend⟩ := connection_tracks hm hcurrent
  obtain ⟨rfl, rfl⟩ := hend rfl
  -- the lives before this one, then its earlier connections, then the present one
  have hbefore : Made (TrackRows symbol) (ofSymbol symbol (earlier.flatMap Life.messages)) := by
    have hall := h.stored.tracks symbol
    rw [h.stored.messages, List.flatMap_append, ofSymbol_append] at hall
    exact hall.of_prefix TrackRows.of_prefix (List.prefix_append _ _)
  obtain ⟨segments, hsegments, heq⟩ := made_marked (hbefore.append (collect_made hm connections))
  have hstored : ofSymbol symbol σ.db.messages ++ ofSymbol symbol (orderbookRows p.inFlight) =
      (segments.flatten ++ rowsOf symbol (connectionLog p.config
        (collect p.config (.start none) connections) current)).map Prod.snd := by
    rw [h.stored.messages, List.flatMap_append, List.flatMap_singleton, ofSymbol_append, List.append_assoc,
      ← ofSymbol_append symbol life.messages, haccounts, Link.tx, ← symbolRows_eq, hsent,
      symbolRows_append, List.map_append, ← heq, rowsOf_snd, ← symbolRows_eq, List.append_assoc]
  rw [hrows, List.append_assoc, List.cons_append] at hstored
  obtain ⟨book, hbook, hlast⟩ := tracks_replay_from hsegments htrack hstored.symm hanchor
  exact ⟨book, hbook, hlast market hheld⟩

/-- The rows in flight complete the stored ones to the book that the connection holds. -/
theorem service_replays {events : List ServiceEvent} {σ : Service}
    (hrun : Service.initial.run events = some σ) {p : Process} (hp : σ.process = some p) {s : Session}
    (hup : p.link = .up s) {m symbol : ℤ} (hm : p.config.symbolCache.map.lookup m = some symbol)
    (hordered : ∀ now, .retain now ∈ events → InOrder symbol (Service.inserted events))
    {market : MarketBook} (hheld : s.markets.lookup m = some market)
    {before later : List OrderbookMessageRow} {anchor : OrderbookMessageRow}
    (hrows : ofSymbol symbol σ.db.messages = before ++ anchor :: later)
    (hanchor : anchor.messageType = "snapshot") :
    ∃ book, replay anchor (later ++ ofSymbol symbol (orderbookRows p.inFlight)) = .ok book ∧
      book.bids = market.book.bids ∧ book.asks = market.book.asks := by
  obtain ⟨lives, h, -⟩ := Service.run_inv hrun
  obtain ⟨older, holder⟩ := Service.run_suffix hrun hordered
  rw [hrows, ← List.append_assoc] at holder
  obtain ⟨book, hbook, hsame⟩ := h.replays hp hup hm hheld holder.symm hanchor
  exact ⟨book, hbook, hsame.bids.symm, hsame.asks.symm⟩

end

def sampleListing : OrderBooksResponse := ⟨200, [⟨"ETH", 7, "perp"⟩]⟩

def allDone : FlushOutcome := ⟨true, true, true⟩

/-- A process stores a snapshot and is killed with a delta in its channel; the next one stores
a snapshot and has a delta in flight. -/
def sampleRestart [NumberTypes] : List ServiceEvent :=
  [.start sampleListing [7] 0, .connect none, .turn (.orderbook sampleSnapshot), .enqueue,
    .receive allDone, .tick allDone, .turn (.orderbook sampleDelta), .enqueue, .stop,
    .start sampleListing [7] 0, .connect none, .turn (.orderbook sampleSnapshot), .enqueue,
    .receive allDone, .tick allDone, .turn (.orderbook sampleDelta), .enqueue]

def sampleDrained [NumberTypes] : List ServiceEvent := sampleRestart ++ [.receive allDone, .tick allDone]

def laterSnapshot : OrderBookWsMessage :=
  .subscribed "order_book:7" 1790380000000000 ⟨3, 40, 0, [⟨"220", "2"⟩], [⟨"217", "1"⟩]⟩

def laterDelta : OrderBookWsMessage :=
  .update "order_book:7" 1790380000200000 ⟨4, 45, 40, [], [⟨"216", "46"⟩]⟩

def lastDelta : OrderBookWsMessage :=
  .update "order_book:7" 1790380000400000 ⟨5, 47, 45, [⟨"220", "0"⟩, ⟨"219", "5"⟩], []⟩

def sampleCleaning : DateTime := ⟨1790380800, 0, by decide⟩

/-- Some days later a third process stores a snapshot and a delta, a retention job drops the rows
of the first two, and another delta is in flight. -/
def sampleRetention [NumberTypes] : List ServiceEvent :=
  sampleDrained ++ [.stop, .start sampleListing [7] 0, .connect none, .turn (.orderbook laterSnapshot),
    .enqueue, .receive allDone, .turn (.orderbook laterDelta), .enqueue, .receive allDone, .tick allDone,
    .retain sampleCleaning, .turn (.orderbook lastDelta), .enqueue]

theorem sample_rows_unbroken : letI := wholeNumbers;
    ∃ σ σ', Service.initial.run sampleDrained = some σ ∧ Service.initial.run sampleRetention = some σ' ∧
      (ofSymbol 1 σ.db.messages).map OrderbookMessageRow.messageType = ["snapshot", "snapshot", "delta"] ∧
      Unbroken (ofSymbol 1 σ.db.messages) ∧
      (ofSymbol 1 σ'.db.messages).map OrderbookMessageRow.messageType = ["snapshot", "delta"] ∧
      (ofSymbol 1 σ'.db.messages).IsChain Continues := by
  let := wholeNumbers
  obtain ⟨-, -, hdrained, -⟩ := @stored_rows_unbroken wholeNumbers sampleDrained _ rfl 1
  obtain ⟨-, -, -, hretained⟩ := @stored_rows_unbroken wholeNumbers sampleRetention _ rfl 1
  have hordered : InOrder 1 (Service.inserted sampleRetention) := by decide
  refine ⟨_, _, rfl, rfl, rfl, hdrained fun now hnow => ?_, rfl, (hretained fun _ _ => hordered).2.1⟩
  simp [sampleDrained, sampleRestart] at hnow

theorem sample_replays_in_flight : letI := wholeNumbers;
    ∃ σ p anchor later book, Service.initial.run sampleRetention = some σ ∧ σ.process = some p ∧
      ofSymbol 1 σ.db.messages = anchor :: later ∧ later.length = 1 ∧
      replay anchor (later ++ ofSymbol 1 (orderbookRows p.inFlight)) = .ok book ∧
      book.bids = [⟨"217", "1"⟩, ⟨"216", "46"⟩] ∧ book.asks = [⟨"219", "5"⟩] := by
  let := wholeNumbers
  have hordered : InOrder 1 (Service.inserted sampleRetention) := by decide
  obtain ⟨book, hbook, hbids, hasks⟩ := @service_replays wholeNumbers sampleRetention _ rfl _ rfl _ rfl 7 1 rfl
    (fun _ _ => hordered) _ rfl [] _ _ rfl rfl
  exact ⟨_, _, _, _, book, rfl, rfl, rfl, rfl, hbook, hbids, hasks⟩

end LighterIngestor
