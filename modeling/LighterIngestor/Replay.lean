import LighterIngestor.MarketRuns

namespace LighterIngestor

section

variable [NumberTypes]

/-- A reader's step: a snapshot row replaces the book, a delta row is applied to it. -/
def replayRow (book : Book) (row : OrderbookMessageRow) : Except BookError Book :=
  if row.messageType = "snapshot" then Book.fromSnapshot row.bids row.asks
  else
    match book.applyDelta row.bids row.asks with
    | (_, .error e) => .error e
    | (next, .ok ()) => .ok next

def replay (anchor : OrderbookMessageRow) (later : List OrderbookMessageRow) :
    Except BookError Book :=
  match Book.fromSnapshot anchor.bids anchor.asks with
  | .error e => .error e
  | .ok book => later.foldlM replayRow book

theorem replayRow_message {held : Option MarketBook} {message : OrderBookWsMessage}
    {next : MarketBook} (haccepts : Accepts held message next) (symbol : ℤ) {book : Book}
    (hsame : ∀ market ∈ held, market.book.Same book) :
    ∃ book', replayRow book (messageRow symbol message next.sourceTime) = .ok book' ∧
      next.book.Same book' := by
  cases haccepts with
  | snapshot htime hbook => exact ⟨_, (if_pos rfl).trans hbook, .refl _⟩
  | @delta market channel micros levels time book' hnonce htime hlate hbook =>
    obtain ⟨hresult, hstate⟩ := applyDelta_same (hsame market rfl) levels.bids levels.asks
    rw [hbook] at hresult hstate
    refine ⟨(book.applyDelta levels.bids levels.asks).1, ?_, hstate⟩
    simp only [replayRow, messageRow, OrderBookWsMessage.orderBook]
    rcases hr : book.applyDelta levels.bids levels.asks with ⟨b, r⟩
    rw [hr] at hresult
    obtain rfl : Except.ok () = r := hresult
    rfl

theorem replayRow_tick (symbol : ℤ) (market : MarketBook) (book : Book) :
    ∃ book', replayRow book (bookSnapshotRow symbol market) = .ok book' ∧
      market.book.Same book' := by
  obtain ⟨next, hnext, hsame⟩ := fromSnapshot_listing market.book
  exact ⟨next, (if_pos rfl).trans hnext, hsame⟩

/-- A reader whose book agrees with what is held stays in agreement over a track. With
nothing held any book will do, since the first row is then a snapshot. -/
theorem Track.replays {symbol : ℤ} {held last : Option MarketBook} {events : List MarketEvent}
    {rows : List (Bool × OrderbookMessageRow)} (h : Track symbol held events last rows) (book : Book)
    (hsame : ∀ market ∈ held, market.book.Same book) :
    ∃ book', (rows.map Prod.snd).foldlM replayRow book = .ok book' ∧
      ∀ market ∈ last, market.book.Same book' := by
  induction h generalizing book with
  | nil held => exact ⟨book, rfl, hsame⟩
  | message haccepts hrest ih =>
    obtain ⟨mid, hmid, hagree⟩ := replayRow_message haccepts symbol hsame
    obtain ⟨book', hbook', hlast⟩ := ih mid (by simpa using hagree)
    exact ⟨book', Loops.foldlM_cons_ok.mpr ⟨mid, hmid, hbook'⟩, hlast⟩
  | @tick market last events rows hrest ih =>
    obtain ⟨mid, hmid, hagree⟩ := replayRow_tick symbol market book
    obtain ⟨book', hbook', hlast⟩ := ih mid (by simpa using hagree)
    exact ⟨book', Loops.foldlM_cons_ok.mpr ⟨mid, hmid, hbook'⟩, hlast⟩
  | silent hrest ih => exact ih book (by simp)

theorem replay_eq (anchor : OrderbookMessageRow) (later : List OrderbookMessageRow)
    (hanchor : anchor.messageType = "snapshot") :
    replay anchor later = (anchor :: later).foldlM replayRow .default := by
  rw [List.foldlM_cons, replayRow, if_pos hanchor, replay]
  cases Book.fromSnapshot anchor.bids anchor.asks <;> rfl

theorem Track.replays_from {symbol : ℤ} {held last : Option MarketBook} {events : List MarketEvent}
    {rows : List (Bool × OrderbookMessageRow)} (h : Track symbol held events last rows)
    {before later : List OrderbookMessageRow} {anchor : OrderbookMessageRow}
    (hrows : rows.map Prod.snd = before ++ anchor :: later)
    (hanchor : anchor.messageType = "snapshot") :
    ∃ book, replay anchor later = .ok book ∧ ∀ market ∈ last, market.book.Same book := by
  induction h generalizing before with
  | nil => simp at hrows
  | @message held last message next events rows haccepts hrest ih =>
    cases before with
    | nil =>
      obtain ⟨rfl, rfl⟩ := List.cons.inj hrows
      cases haccepts with
      | snapshot htime hbook =>
        obtain ⟨book, hfold, hlast⟩ := hrest.replays _ (by simpa using Book.Same.refl _)
        refine ⟨book, ?_, hlast⟩
        rw [replay_eq _ _ rfl]
        exact Loops.foldlM_cons_ok.mpr ⟨_, (if_pos rfl).trans hbook, hfold⟩
      | delta => exact absurd hanchor (by simp [messageRow])
    | cons row before => exact ih (List.cons.inj hrows).2
  | @tick market last events rows hrest ih =>
    cases before with
    | nil =>
      obtain ⟨rfl, rfl⟩ := List.cons.inj hrows
      obtain ⟨mid, hmid, hagree⟩ := replayRow_tick symbol market .default
      obtain ⟨book, hfold, hlast⟩ := hrest.replays mid (by simpa using hagree)
      refine ⟨book, ?_, hlast⟩
      rw [replay_eq _ _ rfl]
      exact Loops.foldlM_cons_ok.mpr ⟨mid, hmid, hfold⟩
    | cons row before => exact ih (List.cons.inj hrows).2
  | silent hrest ih => exact ih hrows

theorem Track.silent_rows {symbol : ℤ} {held last : Option MarketBook} {events : List MarketEvent}
    {rows : List (Bool × OrderbookMessageRow)} (h : Track symbol held events last rows)
    (hquiet : messagesOf events = []) {market : MarketBook} (hheld : held = some market) :
    ∀ row ∈ rows, row = (true, bookSnapshotRow symbol market) := by
  induction h with
  | nil => simp
  | message => simp [messagesOf] at hquiet
  | tick hrest ih =>
    cases hheld
    intro row hrow
    rcases List.mem_cons.mp hrow with rfl | hrow
    · rfl
    · exact ih hquiet rfl row hrow
  | silent => cases hheld

theorem tick_rows {config : Config} {m symbol : ℤ}
    (hm : config.symbolCache.map.lookup m = some symbol) (s : Session) {market : MarketBook}
    (hheld : s.markets.lookup m = some market) (order : IterationOrder) :
    ∀ row ∈ symbolRows symbol ((step config s (.snapshotTick order)).1.tx.sent.drop s.tx.sent.length),
      row = bookSnapshotRow symbol market := by
  obtain ⟨new, hsent, events, held, htrack, hok, hfail⟩ :=
    step_tracks hm (Prod.mk.eta (p := step config s (.snapshotTick order))).symm
  rw [hsent, List.drop_left]
  have hquiet : messagesOf events = [] := by
    by_cases hr : (step config s (.snapshotTick order)).2 = .ok ()
    · rw [(hok hr).1]
      rfl
    · exact hfail hr
  intro row hrow
  exact (Prod.mk.inj (htrack.silent_rows hquiet hheld _ (List.mem_map.mpr ⟨row, hrow, rfl⟩))).2

/-- Past connections and the current one, read on from any book. -/
theorem tracks_replay {symbol : ℤ} {segments : List (List (Bool × OrderbookMessageRow))}
    (h : ∀ rows ∈ segments, ∃ track held, Track symbol none track held rows)
    {last : Option MarketBook} {events : List MarketEvent}
    {rows : List (Bool × OrderbookMessageRow)} (hcurrent : Track symbol none events last rows)
    (book : Book) :
    ∃ book', ((segments.flatten ++ rows).map Prod.snd).foldlM replayRow book = .ok book' ∧
      ∀ market ∈ last, market.book.Same book' := by
  induction segments generalizing book with
  | nil => exact hcurrent.replays book (by simp)
  | cons first segments ih =>
    obtain ⟨track, held, htrack⟩ := h first (by simp)
    obtain ⟨mid, hmid, -⟩ := htrack.replays book (by simp)
    obtain ⟨book', hbook', hlast⟩ :=
      ih (fun rows hrows => h rows (List.mem_cons_of_mem _ hrows)) mid
    refine ⟨book', ?_, hlast⟩
    rw [List.flatten_cons, List.append_assoc, List.map_append]
    exact Loops.foldlM_append_ok.mpr ⟨mid, hmid, hbook'⟩

theorem tracks_replay_from {symbol : ℤ} {segments : List (List (Bool × OrderbookMessageRow))}
    (h : ∀ rows ∈ segments, ∃ track held, Track symbol none track held rows)
    {last : Option MarketBook} {events : List MarketEvent}
    {rows : List (Bool × OrderbookMessageRow)} (hcurrent : Track symbol none events last rows)
    {before later : List OrderbookMessageRow} {anchor : OrderbookMessageRow}
    (hrows : (segments.flatten ++ rows).map Prod.snd = before ++ anchor :: later)
    (hanchor : anchor.messageType = "snapshot") :
    ∃ book, replay anchor later = .ok book ∧ ∀ market ∈ last, market.book.Same book := by
  induction segments generalizing before with
  | nil => exact hcurrent.replays_from hrows hanchor
  | cons first segments ih =>
    have hrest : ∀ rows ∈ segments, ∃ track held, Track symbol none track held rows :=
      fun rows hrows => h rows (List.mem_cons_of_mem _ hrows)
    rw [List.flatten_cons, List.append_assoc, List.map_append] at hrows
    rcases List.append_eq_append_iff.mp hrows with ⟨after, rfl, hafter⟩ | ⟨after, hfirst, hafter⟩
    · exact ih hrest hafter
    · cases after with
      | nil =>
        have hnone : (segments.flatten ++ rows).map Prod.snd = [] ++ anchor :: later := hafter.symm
        exact ih hrest hnone
      | cons row after =>
        -- the anchor lies in the first of the connections
        obtain ⟨rfl, rfl⟩ := List.cons.inj hafter
        obtain ⟨track, held, htrack⟩ := h first (by simp)
        obtain ⟨mid, hmid, -⟩ := htrack.replays_from hfirst hanchor
        obtain ⟨book, hbook, hlast⟩ := tracks_replay hrest hcurrent mid
        refine ⟨book, ?_, hlast⟩
        rw [replay_eq _ _ hanchor] at hmid ⊢
        exact Loops.foldlM_append_ok.mpr ⟨mid, hmid, hbook⟩

theorem replay_rebuilds (config : Config) {m symbol : ℤ}
    (hm : config.symbolCache.map.lookup m = some symbol) (lifetime : Option ℕ)
    (earlier : List Connection) (current : Connection) {s : Session}
    (hrun : runWsIngestion config (collect config (.start lifetime) earlier) current = (s, .ok ()))
    {market : MarketBook} (hheld : s.markets.lookup m = some market)
    {before later : List OrderbookMessageRow} {anchor : OrderbookMessageRow}
    (hrows : symbolRows symbol s.tx.sent = before ++ anchor :: later)
    (hanchor : anchor.messageType = "snapshot") :
    ∃ book, replay anchor later = .ok book ∧
      book.bids = market.book.bids ∧ book.asks = market.book.asks ∧
      ∀ order, ∀ row ∈ symbolRows symbol
          ((step config s (.snapshotTick order)).1.tx.sent.drop s.tx.sent.length),
        row.bids = book.bids ∧ row.asks = book.asks := by
  obtain ⟨segments, hsegments, hearlier⟩ := collect_tracks hm (.start lifetime) earlier
  obtain ⟨hsent, track, held, htrack, -, hend⟩ := connection_tracks hm hrun
  obtain ⟨rfl, rfl⟩ := hend rfl
  rw [hsent, symbolRows_append, hearlier, ← rowsOf_snd] at hrows
  obtain ⟨book, hbook, hlast⟩ := tracks_replay_from hsegments htrack
    (by rw [List.map_append, ← hrows]; rfl) hanchor
  have hsame : market.book.Same book := hlast market hheld
  refine ⟨book, hbook, hsame.bids.symm, hsame.asks.symm, fun order row hrow => ?_⟩
  rw [tick_rows hm s hheld order row hrow]
  exact ⟨hsame.bids, hsame.asks⟩

end

theorem sample_rebuilds : letI := wholeNumbers;
    ∃ anchor later book,
      symbolRows 3 (runWsIngestion sampleConfig (collect sampleConfig (.start none) [sampleConnection])
        sampleConnection).1.tx.sent = anchor :: later ∧ later.length = 7 ∧
      replay anchor later = .ok book ∧
      book.bids = [⟨"217", "1"⟩, ⟨"216", "46"⟩] ∧ book.asks = [] := by
  let := wholeNumbers
  obtain ⟨book, hbook, hbids, hasks, -⟩ := @replay_rebuilds wholeNumbers sampleConfig 7 3 rfl none
    [sampleConnection] sampleConnection _ rfl _ rfl [] _ _ rfl rfl
  exact ⟨_, _, book, rfl, rfl, hbook, hbids, hasks⟩

end LighterIngestor
