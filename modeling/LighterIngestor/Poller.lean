import LighterIngestor.FundingTable

namespace LighterIngestor

/-- The query of `fetch_page`. -/
structure FundingRequest where
  marketId : ℤ
  resolution : String
  startTimestamp : ℤ
  endTimestamp : ℤ
  countBack : ℕ
  deriving DecidableEq

def fundingRequest (market : PerpMarket) (start finish : DateTime) : FundingRequest where
  marketId := market.lighterMarketId
  resolution := fundingResolution
  startTimestamp := start.timestamp
  endTimestamp := finish.timestamp
  countBack := 0

/-- The `info!` line of a stored page. -/
structure StoredLine where
  market : String
  fetched : ℕ
  inserted : ℕ
  deriving DecidableEq

variable [NumberTypes]

/-- Where the poller stands in `poll_market`; `exited` after an error or a panic. -/
inductive PollState where
  | idle
  | looping (market : PerpMarket) (start : DateTime)
  | fetching (market : PerpMarket) (start : DateTime)
  | requested (market : PerpMarket) (start : DateTime) (request : FundingRequest)
  | fetched (market : PerpMarket) (start : DateTime) (rows : List SettledFunding)
  | validated (market : PerpMarket) (start now : DateTime) (rows : List SettledFunding)
  | inserted (market : PerpMarket) (lastTime : DateTime) (fetched inserted : ℕ)
  | exited (error : Option FundingError)

/-- The process with its clock, its configuration and the table, which outlives it. -/
structure Poller where
  clock : DateTime
  backfillStart : DateTime
  table : FundingTable
  state : PollState
  lines : List StoredLine

/-- The steps of `poll_market`, the passing of time, and the ends and starts of the
process. A `fail` is an error of the network, the database or the pool. -/
inductive PollEvent where
  | advance (now : DateTime)
  | restart (backfillStart : DateTime)
  | fail
  | poll (market : PerpMarket)
  | checkHour
  | request
  | response (body : Except String FundingsResponse)
  | validate
  | insert
  | next

/-- The loop of `poll_market` from a start, which is missing where its computation panics. -/
def loopFrom (market : PerpMarket) : Option DateTime → PollState
  | some start => .looping market start
  | none => .exited none

def afterFetch (market : PerpMarket) (start : DateTime) :
    Except FundingError (List SettledFunding) → PollState
  | .ok rows => .fetched market start rows
  | .error e => .exited (some e)

def afterValidate (market : PerpMarket) (start now : DateTime) (rows : List SettledFunding) :
    Except FundingError Unit → PollState
  | .ok () => .validated market start now rows
  | .error e => .exited (some e)

namespace Poller

def start (clock backfillStart : DateTime) : Poller :=
  { clock, backfillStart, table := UniqueTable.empty, state := .idle, lines := [] }

/-- The insert of a page; an empty page ends the poll. -/
def insertPage (poller : Poller) (market : PerpMarket) (rows : List SettledFunding) : Poller :=
  match rows.getLast? with
  | none => { poller with state := .idle }
  | some last =>
    let result := insertFundingRates (fundingRows market rows) poller.table
    { poller with table := result.1, state := .inserted market last.time rows.length result.2 }

/-- One step; `none` where the poller is not at it, or time would run backwards. -/
def step (poller : Poller) (event : PollEvent) : Option Poller :=
  match event with
  | .advance now => if poller.clock ≤ now then some { poller with clock := now } else none
  | .restart backfillStart => some { poller with backfillStart, state := .idle }
  | .fail => some { poller with state := .exited none }
  | .poll market =>
    match poller.state with
    | .idle =>
      let newest := newestFundingTime market.symbolId poller.table
      some { poller with state := loopFrom market (nextRequestStart newest poller.backfillStart) }
    | _ => none
  | .checkHour =>
    match poller.state with
    | .looping market start =>
      some { poller with state := if hourClosed start poller.clock then .fetching market start else .idle }
    | _ => none
  | .request =>
    match poller.state with
    | .fetching market start =>
      some { poller with state := .requested market start (fundingRequest market start poller.clock) }
    | _ => none
  | .response body =>
    match poller.state with
    | .requested market start _ =>
      some { poller with state := afterFetch market start (parseFundingsResponse body) }
    | _ => none
  | .validate =>
    match poller.state with
    | .fetched market start rows =>
      let checked := validatePage start poller.clock rows
      some { poller with state := afterValidate market start poller.clock rows checked }
    | _ => none
  | .insert =>
    match poller.state with
    | .validated market _ _ rows => some (poller.insertPage market rows)
    | _ => none
  | .next =>
    match poller.state with
    | .inserted market lastTime fetched inserted =>
      some { poller with
        lines := poller.lines ++ [{ market := market.name, fetched, inserted }]
        state :=
          if fetched < maxFundingsPerCall then .idle
          else loopFrom market (nextRequestStart (some lastTime) poller.backfillStart) }
    | _ => none

def run (poller : Poller) (events : List PollEvent) : Option Poller := events.foldlM step poller

inductive Does (p : Poller) : PollEvent → Poller → Prop
  | advance {now} (hnow : p.clock ≤ now) : Does p (.advance now) { p with clock := now }
  | restart (backfillStart) : Does p (.restart backfillStart) { p with backfillStart, state := .idle }
  | fail : Does p .fail { p with state := .exited none }
  | poll (market) : Does p (.poll market)
      { p with state :=
          loopFrom market (nextRequestStart (newestFundingTime market.symbolId p.table) p.backfillStart) }
  | checkHour {market start} (hstate : p.state = .looping market start) : Does p .checkHour
      { p with state := if hourClosed start p.clock then .fetching market start else .idle }
  | request {market start} (hstate : p.state = .fetching market start) : Does p .request
      { p with state := .requested market start (fundingRequest market start p.clock) }
  | response {market start request body} (hstate : p.state = .requested market start request) :
      Does p (.response body) { p with state := afterFetch market start (parseFundingsResponse body) }
  | validate {market start rows} (hstate : p.state = .fetched market start rows) : Does p .validate
      { p with state := afterValidate market start p.clock rows (validatePage start p.clock rows) }
  | insert {market start now rows} (hstate : p.state = .validated market start now rows) :
      Does p .insert (p.insertPage market rows)
  | next {market lastTime fetched inserted} (hstate : p.state = .inserted market lastTime fetched inserted) :
      Does p .next
        { p with
          lines := p.lines ++ [{ market := market.name, fetched, inserted }]
          state :=
            if fetched < maxFundingsPerCall then .idle
            else loopFrom market (nextRequestStart (some lastTime) p.backfillStart) }

theorem step_does {p p' : Poller} {event : PollEvent} (h : p.step event = some p') : p.Does event p' := by
  cases event with
  | advance now =>
    simp only [step] at h
    split_ifs at h with hnow
    cases h
    exact .advance hnow
  | restart backfillStart =>
    cases h
    exact .restart backfillStart
  | fail =>
    cases h
    exact .fail
  | poll market =>
    simp only [step] at h
    split at h <;> cases h
    exact .poll market
  | checkHour =>
    simp only [step] at h
    split at h <;> cases h
    exact .checkHour ‹_›
  | request =>
    simp only [step] at h
    split at h <;> cases h
    exact .request ‹_›
  | response body =>
    simp only [step] at h
    split at h <;> cases h
    exact .response ‹_›
  | validate =>
    simp only [step] at h
    split at h <;> cases h
    exact .validate ‹_›
  | insert =>
    simp only [step] at h
    split at h <;> cases h
    exact .insert ‹_›
  | next =>
    simp only [step] at h
    split at h <;> cases h
    exact .next ‹_›

theorem run_keeps (inv : Poller → Prop) (hstep : ∀ p event p', inv p → p.step event = some p' → inv p')
    {p p' : Poller} {events : List PollEvent} (hp : inv p) (h : p.run events = some p') : inv p' := by
  induction events generalizing p with
  | nil =>
    cases h
    exact hp
  | cons event rest ih =>
    obtain ⟨q, hq, hrest⟩ := Option.bind_eq_some_iff.mp h
    exact ih (hstep p event q hp hq) hrest

end Poller

end LighterIngestor
