import LighterIngestor.FundingCoverage
import LighterIngestor.FundingRounds

namespace LighterIngestor

def PerpMarket.Listed (market : PerpMarket) (table : SymbolTable) : Prop :=
  ∃ row ∈ table.rows, (row.id : ℤ) = market.symbolId ∧ row.lighterMarketId = market.lighterMarketId

theorem PerpMarket.Listed.extends {market : PerpMarket} {table next : SymbolTable} (h : market.Listed table)
    (hext : table.Extends next) : market.Listed next := by
  obtain ⟨old, hold, hid, hmarket⟩ := h
  obtain ⟨row, hrow, hmarket', hid'⟩ := hext old hold
  exact ⟨row, hrow, by rw [hid', hid], hmarket'.trans hmarket⟩

theorem PerpMarket.Listed.marketId {market : PerpMarket} {table : SymbolTable} (h : market.Listed table)
    {row : SymbolRow} (hrow : row ∈ table.rows) (hsymbol : market.symbolId = row.id) :
    row.lighterMarketId = market.lighterMarketId := by
  obtain ⟨listed, hlisted, hid, hmarket⟩ := h
  have hids : row.id = listed.id := by exact_mod_cast (hid.trans hsymbol).symm
  rw [List.inj_on_of_nodup_map table.idUnique hrow hlisted hids]
  exact hmarket

theorem listed_of_loadPerpMarkets {table : SymbolTable} {market : PerpMarket}
    (h : market ∈ loadPerpMarkets table) : market.Listed table := by
  obtain ⟨row, hrow, -, rfl⟩ := mem_loadPerpMarkets.mp h
  exact ⟨row, hrow, rfl, rfl⟩

section

variable [NumberTypes]

/-- What the endpoint has between the two ends of a request. -/
def FundingRequest.listing (request : FundingRequest) (settled : List SettledFunding) :
    List SettledFunding :=
  settled.filter fun funding =>
    request.startTimestamp ≤ funding.time.timestamp ∧ funding.time.timestamp ≤ request.endTimestamp

theorem FundingRequest.listing_times (request : FundingRequest) (settled : List SettledFunding) :
    (request.listing settled).map SettledFunding.time =
      request.window (settled.map SettledFunding.time) := by
  rw [listing, window, List.filter_map]
  rfl

/-- The response, if it can be read, lists what was asked for up to the cap of the endpoint. -/
def FundingRequest.AnsweredBy (request : FundingRequest) (settled : List SettledFunding)
    (body : Except String FundingsResponse) : Prop :=
  ∀ rows, parseFundingsResponse body = .ok rows → rows = (request.listing settled).take maxFundingsPerCall

theorem FundingRequest.AnsweredBy.answers {request : FundingRequest} {settled : List SettledFunding}
    {body : Except String FundingsResponse} (h : request.AnsweredBy settled body) :
    Answers (settled.map SettledFunding.time) request body := by
  intro rows hrows
  rw [h rows hrows, List.map_take, FundingRequest.listing_times]
  exact List.take_prefix _ _

def PollState.market : PollState → Option PerpMarket
  | .idle => none
  | .looping market _ => some market
  | .fetching market _ => some market
  | .requested market _ _ => some market
  | .fetched market _ _ => some market
  | .validated market _ _ _ => some market
  | .inserted market _ _ _ => some market
  | .exited _ => none

theorem loopFrom_market {market called : PerpMarket} {found : Option DateTime}
    (h : (loopFrom market found).market = some called) : called = market := by
  cases found with
  | none => cases h
  | some start => exact (Option.some.inj h).symm

theorem Poller.AppendOnly.between {p : Poller} (h : p.AppendOnly) (backfillStart : DateTime)
    {state : PollState} (hstate : state.market = none) :
    AppendOnly { p with backfillStart, state } := by
  refine ⟨h.growing, h.whole, h.lines, ?_⟩
  cases state <;> first | exact trivial | cases hstate

theorem Collection.Covered.between {symbol : ℤ} {c : Collection} (h : c.Covered symbol)
    (backfillStart : DateTime) {state : PollState} (hstate : state.market = none) :
    Covered symbol { c with poller := { c.poller with backfillStart, state } } := by
  refine ⟨h.sound.between backfillStart hstate, h.growing, h.whole, h.stored, ?_⟩
  cases state <;> first | exact trivial | cases hstate

def FundingEvent.beginsRound : FundingEvent → Bool
  | .start _ _ _ => true
  | .sleep => true
  | _ => false

/-- The loop beside the settlements of every market so far, the start of every symbol's series,
and the clock and the settlements as they were when the present round began. -/
structure FundingWorld where
  loop : FundingLoop
  settled : ℤ → List SettledFunding
  origin : ℤ → Option DateTime
  roundStart : DateTime
  known : ℤ → List SettledFunding

namespace FundingWorld

def initial (symbols : SymbolTable) (clock backfillStart : DateTime) : FundingWorld :=
  ⟨.initial symbols clock backfillStart, fun _ => [], fun _ => none, clock, fun _ => []⟩

/-- Every request is answered from the settlements of the market that it names. -/
def Served (w : FundingWorld) (event : FundingEvent) : Prop :=
  ∀ market start request body, w.loop.poller.state = .requested market start request →
    event = .poll (.response body) → request.AnsweredBy (w.settled request.marketId) body

def next (w : FundingWorld) (event : FundingEvent) (loop : FundingLoop) : FundingWorld :=
  { w with
    loop
    origin := fun symbol =>
      if timesOf symbol w.loop.poller.table = [] ∧ timesOf symbol loop.poller.table ≠ [] then
        ceilHour w.loop.poller.backfillStart
      else w.origin symbol
    roundStart := if event.beginsRound then w.loop.poller.clock else w.roundStart
    known := if event.beginsRound then w.settled else w.known }

/-- The markets settle on whole hours, each later than before, while the loop goes its way. -/
inductive Step (w : FundingWorld) : FundingWorld → Prop
  | settle {marketId : ℤ} {funding : SettledFunding} (hgrid : WholeHour funding.time)
      (hlater : ∀ earlier ∈ w.settled marketId, earlier.time < funding.time) :
      Step w { w with settled := Function.update w.settled marketId (w.settled marketId ++ [funding]) }
  | loop {event : FundingEvent} {l : FundingLoop} (hserved : w.Served event)
      (hstep : w.loop.step event = some l) : Step w (w.next event l)

inductive Reachable : FundingWorld → Prop
  | initial (symbols : SymbolTable) (clock backfillStart : DateTime) :
      Reachable (initial symbols clock backfillStart)
  | step {w w' : FundingWorld} (h : Reachable w) (hstep : w.Step w') : Reachable w'

def collection (w : FundingWorld) (row : SymbolRow) : Collection :=
  ⟨w.loop.poller, (w.settled row.lighterMarketId).map SettledFunding.time, w.origin row.id⟩

/-- What a call carries along is from the market that the call is for. -/
def Belongs (settled : ℤ → List SettledFunding) : PollState → Prop
  | .requested market _ request => request.marketId = market.lighterMarketId
  | .fetched market _ rows => rows ⊆ settled market.lighterMarketId
  | .validated market _ _ rows => rows ⊆ settled market.lighterMarketId
  | _ => True

/-- The stored row is a settlement of the market that its symbol stands for. -/
def Genuine (symbols : SymbolTable) (settled : ℤ → List SettledFunding) (row : FundingRateRow) : Prop :=
  ∃ symbol ∈ symbols.rows, (symbol.id : ℤ) = row.symbol ∧
    ⟨row.time, row.rate, row.direction⟩ ∈ settled symbol.lighterMarketId

structure Inv (w : FundingWorld) : Prop where
  sound : w.loop.poller.AppendOnly
  growing : ∀ marketId, ((w.settled marketId).map SettledFunding.time).Pairwise (· < ·)
  whole : ∀ marketId, ∀ funding ∈ w.settled marketId, WholeHour funding.time
  covered : ∀ row ∈ w.loop.symbols.rows, (w.collection row).Covered row.id
  unopened : ∀ symbol, timesOf symbol w.loop.poller.table = [] → w.origin symbol = none
  listed : ∀ market ∈ w.loop.markets, market.Listed w.loop.symbols
  rest : w.loop.rest ⊆ w.loop.markets
  calling : ∀ market ∈ w.loop.poller.state.market, market.Listed w.loop.symbols
  belongs : Belongs w.settled w.loop.poller.state
  genuine : ∀ row ∈ w.loop.poller.table.rows, Genuine w.loop.symbols w.settled row

theorem initial_inv (symbols : SymbolTable) (clock backfillStart : DateTime) :
    (initial symbols clock backfillStart).Inv where
  sound := (Poller.start_appendOnly clock backfillStart).between backfillStart rfl
  growing _ := List.Pairwise.nil
  whole _ _ hfunding := nomatch hfunding
  covered _ _ :=
    Collection.Covered.between (c := .start clock backfillStart)
      (Collection.Reachable.covered (.start clock backfillStart)) backfillStart rfl
  unopened _ _ := rfl
  listed _ hmarket := nomatch hmarket
  rest := List.Subset.refl _
  calling _ hmarket := nomatch hmarket
  belongs := trivial
  genuine _ hrow := nomatch hrow

theorem Belongs.grow {settled settled' : ℤ → List SettledFunding} {state : PollState}
    (h : Belongs settled state) (hgrow : ∀ marketId, settled marketId ⊆ settled' marketId) :
    Belongs settled' state := by
  cases state with
  | fetched market start rows => exact List.Subset.trans h (hgrow _)
  | validated market start now rows => exact List.Subset.trans h (hgrow _)
  | _ => exact h

theorem Genuine.grow {symbols symbols' : SymbolTable} {settled settled' : ℤ → List SettledFunding}
    {row : FundingRateRow} (h : Genuine symbols settled row) (hext : symbols.Extends symbols')
    (hgrow : ∀ marketId, settled marketId ⊆ settled' marketId) : Genuine symbols' settled' row := by
  obtain ⟨old, hold, hid, hfunding⟩ := h
  obtain ⟨symbol, hsymbol, hmarket, hid'⟩ := hext old hold
  exact ⟨symbol, hsymbol, by rw [hid', hid], by rw [hmarket]; exact hgrow _ hfunding⟩

theorem settle_grows (settled : ℤ → List SettledFunding) (marketId : ℤ) (funding : SettledFunding) (m : ℤ) :
    settled m ⊆ Function.update settled marketId (settled marketId ++ [funding]) m := by
  by_cases hm : m = marketId
  · subst hm
    rw [Function.update_self]
    exact List.subset_append_left _ _
  · rw [Function.update_of_ne hm]
    exact List.Subset.refl _

theorem Inv.settle {w : FundingWorld} (h : w.Inv) {marketId : ℤ} {funding : SettledFunding}
    (hgrid : WholeHour funding.time)
    (hlater : ∀ earlier ∈ w.settled marketId, earlier.time < funding.time) :
    Inv { w with settled := Function.update w.settled marketId (w.settled marketId ++ [funding]) } := by
  have hgrow := settle_grows w.settled marketId funding
  have htimes : ∀ t ∈ (w.settled marketId).map SettledFunding.time, t < funding.time := by
    intro t ht
    obtain ⟨earlier, hearlier, rfl⟩ := List.mem_map.mp ht
    exact hlater earlier hearlier
  refine ⟨h.sound, ?_, ?_, ?_, h.unopened, h.listed, h.rest, h.calling, h.belongs.grow hgrow,
    fun row hrow => (h.genuine row hrow).grow (.refl _) hgrow⟩
  · intro m
    by_cases hm : m = marketId
    · subst hm
      dsimp only
      rw [Function.update_self, List.map_append, List.pairwise_append]
      exact ⟨h.growing m, List.pairwise_singleton _ _, by simpa using htimes⟩
    · dsimp only
      rw [Function.update_of_ne hm]
      exact h.growing m
  · intro m earlier hmem
    dsimp only at hmem
    by_cases hm : m = marketId
    · subst hm
      rw [Function.update_self] at hmem
      rcases List.mem_append.mp hmem with hmem | hmem
      · exact h.whole m earlier hmem
      · exact List.mem_singleton.mp hmem ▸ hgrid
    · rw [Function.update_of_ne hm] at hmem
      exact h.whole m earlier hmem
  · intro row hrow
    have hcovered := h.covered row hrow
    by_cases hm : row.lighterMarketId = marketId
    · subst hm
      have hsettled := hcovered.settle hgrid htimes
      dsimp only [collection] at hsettled ⊢
      rw [Function.update_self, List.map_append]
      exact hsettled
    · dsimp only [collection] at hcovered ⊢
      rw [Function.update_of_ne hm]
      exact hcovered

theorem loopFrom_belongs (settled : ℤ → List SettledFunding) (market : PerpMarket)
    (found : Option DateTime) : Belongs settled (loopFrom market found) := by
  cases found <;> exact trivial

theorem Inv.honest {w : FundingWorld} (h : w.Inv) {event : PollEvent} (hserved : w.Served (.poll event))
    {row : SymbolRow} (hrow : row ∈ w.loop.symbols.rows) : (w.collection row).Honest row.id event := by
  intro market start request body hat hevent hsymbol
  change w.loop.poller.state = _ at hat
  have hbelongs := h.belongs
  have hcalling := h.calling market
  rw [hat] at hbelongs hcalling
  have hanswer := hserved market start request body hat (by rw [hevent])
  change request.marketId = _ at hbelongs
  rw [hbelongs, ← (hcalling rfl).marketId hrow hsymbol] at hanswer
  exact hanswer.answers

theorem Inv.belongs_polled {w : FundingWorld} (h : w.Inv) {event : PollEvent} {p : Poller}
    (hserved : w.Served (.poll event)) (hstep : w.loop.poller.step event = some p) :
    Belongs w.settled p.state := by
  have hbelongs := h.belongs
  cases Poller.step_does hstep with
  | advance hnow => exact hbelongs
  | restart backfillStart => exact trivial
  | fail => exact trivial
  | poll market => exact loopFrom_belongs _ _ _
  | checkHour hat =>
    dsimp only
    split_ifs <;> exact trivial
  | request hat => exact rfl
  | response hat =>
    rename_i market start request body
    rw [hat] at hbelongs
    change request.marketId = _ at hbelongs
    cases hparse : parseFundingsResponse body with
    | error e => exact trivial
    | ok rows =>
      change rows ⊆ _
      rw [hserved market start request body hat rfl rows hparse, hbelongs]
      exact List.Subset.trans (List.take_subset _ _) (List.filter_subset_self _)
  | validate hat =>
    rename_i market start rows
    rw [hat] at hbelongs
    cases hvalid : validatePage start w.loop.poller.clock rows with
    | error e => exact trivial
    | ok checked => exact hbelongs
  | insert hat =>
    unfold Poller.insertPage
    split <;> exact trivial
  | next hat =>
    dsimp only
    split_ifs
    · exact trivial
    · exact loopFrom_belongs _ _ _

theorem Inv.genuine_polled {w : FundingWorld} (h : w.Inv) {event : PollEvent} {p : Poller}
    (hstep : w.loop.poller.step event = some p) :
    ∀ row ∈ p.table.rows, Genuine w.loop.symbols w.settled row := by
  rcases Poller.step_table hstep with htable | ⟨market, start, now, rows, hat, rfl⟩
  · rw [htable]
    exact h.genuine
  · have hbelongs := h.belongs
    have hcalling := h.calling market
    rw [hat] at hbelongs hcalling
    obtain ⟨symbol, hsymbol, hid, hmarket⟩ := hcalling rfl
    intro row hrow
    rw [(h.sound.insert hat).1] at hrow
    rcases List.mem_append.mp hrow with hrow | hrow
    · exact h.genuine row hrow
    · obtain ⟨funding, hfunding, rfl⟩ := List.mem_map.mp hrow
      exact ⟨symbol, hsymbol, hid, hmarket ▸ hbelongs hfunding⟩

theorem Inv.polled {w : FundingWorld} (h : w.Inv) {event : PollEvent} {p : Poller}
    (hserved : w.Served (.poll event)) (hstep : w.loop.poller.step event = some p)
    (hcalling : ∀ market ∈ p.state.market, market.Listed w.loop.symbols) {rest : List PerpMarket}
    (hrest : rest ⊆ w.loop.rest) (round : FundingEvent) :
    (w.next round { w.loop with poller := p, rest }).Inv where
  sound := h.sound.step hstep
  growing := h.growing
  whole := h.whole
  covered row hrow := (h.covered row hrow).poller (h.honest hserved hrow) hstep
  unopened := by
    intro symbol hnone
    have hbefore : timesOf symbol w.loop.poller.table = [] := by
      rcases Poller.step_table hstep with htable | ⟨market, start, now, rows, hat, rfl⟩
      · exact htable ▸ hnone
      · have happend := timesOf_append symbol (h.sound.insert hat).1
        exact (List.append_eq_nil_iff.mp (happend.symm.trans hnone)).1
    exact (if_neg fun hboth => hboth.2 hnone).trans (h.unopened symbol hbefore)
  listed := h.listed
  rest := List.Subset.trans hrest h.rest
  calling := hcalling
  belongs := h.belongs_polled hserved hstep
  genuine := h.genuine_polled hstep

theorem Inv.whole_times {w : FundingWorld} (h : w.Inv) (marketId : ℤ) :
    ∀ t ∈ (w.settled marketId).map SettledFunding.time, WholeHour t := by
  intro t ht
  obtain ⟨funding, hfunding, rfl⟩ := List.mem_map.mp ht
  exact h.whole marketId funding hfunding

theorem Inv.stored_extended {w : FundingWorld} (h : w.Inv) {symbols : SymbolTable}
    (hext : w.loop.symbols.Extends symbols) {row : SymbolRow} (hrow : row ∈ symbols.rows) :
    Collection.Segment ((w.settled row.lighterMarketId).map SettledFunding.time)
      (timesOf row.id w.loop.poller.table) (w.origin row.id) := by
  by_cases hknown : ∃ old ∈ w.loop.symbols.rows, row.id = old.id
  · obtain ⟨old, hold, hid⟩ := hknown
    have hstored := (h.covered old hold).stored
    dsimp only [collection] at hstored
    rwa [← hid, ← (hext.id_eq_iff hold hrow).mp hid] at hstored
  · have hnone : timesOf row.id w.loop.poller.table = [] := by
      rw [List.eq_nil_iff_forall_not_mem]
      intro t ht
      obtain ⟨stored, hstored, hkey⟩ := List.mem_map.mp (mem_timesOf.mp ht)
      obtain ⟨symbol, hsymbol, hid, -⟩ := h.genuine stored hstored
      refine hknown ⟨symbol, hsymbol, ?_⟩
      exact_mod_cast ((hid.trans (Prod.mk.inj hkey).1)).symm
    rw [hnone, h.unopened row.id hnone]
    rfl

theorem Inv.restarted {w : FundingWorld} (h : w.Inv) {symbols : SymbolTable}
    (hext : w.loop.symbols.Extends symbols) {markets rest : List PerpMarket}
    (hlisted : ∀ market ∈ markets, market.Listed symbols) (hrest : rest ⊆ markets)
    (backfillStart : DateTime) {state : PollState} (hstate : state.market = none) (round : FundingEvent) :
    (w.next round ⟨symbols, { w.loop.poller with backfillStart, state }, markets, rest⟩).Inv where
  sound := h.sound.between backfillStart hstate
  growing := h.growing
  whole := h.whole
  covered row hrow := by
    have horigin : (w.next round ⟨symbols, { w.loop.poller with backfillStart, state }, markets, rest⟩).origin
        row.id = w.origin row.id := if_neg fun hboth => hboth.2 hboth.1
    refine ⟨h.sound.between backfillStart hstate, h.growing _, h.whole_times _, ?_, ?_⟩
    · dsimp only [collection]
      rw [horigin]
      exact h.stored_extended hext hrow
    · cases state <;> first | exact trivial | cases hstate
  unopened symbol hnone := (if_neg fun hboth => hboth.2 hnone).trans (h.unopened symbol hnone)
  listed := hlisted
  rest := hrest
  calling market hmarket := by
    cases hstate.symm.trans hmarket
  belongs := by
    cases state <;> first | exact trivial | cases hstate
  genuine row hrow := (h.genuine row hrow).grow hext fun _ => List.Subset.refl _

theorem calling_kept {p p' : Poller} {event : PollEvent} (hevent : event.ofCall || event.isAdvance)
    (hstep : p.step event = some p') : ∀ market ∈ p'.state.market, market ∈ p.state.market := by
  intro called hcalled
  rw [Option.mem_def] at hcalled ⊢
  cases Poller.step_does hstep with
  | advance hnow => exact hcalled
  | restart backfillStart => cases hevent
  | poll market => cases hevent
  | fail => cases hcalled
  | checkHour hat =>
    rw [hat]
    dsimp only at hcalled
    split_ifs at hcalled
    · exact hcalled
    · cases hcalled
  | request hat =>
    rw [hat]
    exact hcalled
  | response hat =>
    rename_i body
    rw [hat]
    cases hparse : parseFundingsResponse body with
    | error e =>
      rw [hparse] at hcalled
      cases hcalled
    | ok rows =>
      rw [hparse] at hcalled
      exact hcalled
  | validate hat =>
    rename_i start rows
    rw [hat]
    cases hvalid : validatePage start p.clock rows with
    | error e =>
      rw [hvalid] at hcalled
      cases hcalled
    | ok checked =>
      rw [hvalid] at hcalled
      exact hcalled
  | insert hat =>
    rw [hat]
    unfold Poller.insertPage at hcalled
    split at hcalled
    · cases hcalled
    · exact hcalled
  | next hat =>
    rw [hat]
    dsimp only at hcalled
    split_ifs at hcalled
    · cases hcalled
    · rw [loopFrom_market hcalled]
      rfl

theorem Inv.looped {w : FundingWorld} (h : w.Inv) {event : FundingEvent} {l : FundingLoop}
    (hserved : w.Served event) (hstep : w.loop.step event = some l) : (w.next event l).Inv := by
  cases FundingLoop.step_does hstep with
  | failed resp backfillStart drawn =>
    have hskip : w.loop.symbols.Extends (w.loop.symbols.skip drawn) := fun old hold => ⟨old, hold, rfl, rfl⟩
    exact h.restarted hskip (fun market hmarket => (h.listed market hmarket).extends hskip) h.rest
      w.loop.poller.backfillStart rfl _
  | started hsync =>
    apply h.restarted (syncSymbols_extends hsync) (fun _ => listed_of_loadPerpMarkets)
      (List.Subset.refl _)
    split_ifs <;> rfl
  | call hrest hcall =>
    rename_i market rest poller
    have hserved : w.Served (.poll (.poll market)) := by
      intro _ _ _ _ _ hevent
      cases hevent
    refine h.polled hserved hcall ?_ (hrest ▸ List.subset_cons_self _ _) _
    intro called hcalled
    cases Poller.step_does hcall with
    | poll =>
      rw [loopFrom_market hcalled]
      exact h.listed market (h.rest (hrest ▸ List.mem_cons_self))
  | poll hevent hpoll =>
    exact h.polled hserved hpoll
      (fun market hmarket => h.calling market (calling_kept hevent hpoll market hmarket))
      (List.Subset.refl _) _
  | sleep hover =>
    have hbetween : w.loop.poller.state.market = none := by
      rw [hover.1]
      rfl
    exact h.restarted (.refl _) h.listed (List.Subset.refl _) w.loop.poller.backfillStart hbetween .sleep

theorem Inv.step {w w' : FundingWorld} (h : w.Inv) (hstep : w.Step w') : w'.Inv := by
  cases hstep with
  | settle hgrid hlater => exact h.settle hgrid hlater
  | loop hserved hstep => exact h.looped hserved hstep

theorem Reachable.inv {w : FundingWorld} (h : Reachable w) : w.Inv := by
  induction h with
  | initial symbols clock backfillStart => exact initial_inv symbols clock backfillStart
  | step _ hstep ih => exact ih.step hstep

end FundingWorld

end

end LighterIngestor
