import LighterIngestor.FundingWorld

namespace LighterIngestor

theorem due_after {newestStored : Option DateTime} {backfillStart b start t : DateTime}
    (hstart : start ∈ Due newestStored backfillStart) (hle : start ≤ t) :
    Due (some t) b ⊆ Due newestStored backfillStart := by
  rintro hour ⟨hgrid, hlater⟩
  refine ⟨hgrid, ?_⟩
  obtain ⟨-, hfrom⟩ := hstart
  cases newestStored with
  | some time => exact (hfrom.trans_le hle).trans hlater
  | none => exact (hfrom.trans hle).trans (le_of_lt hlater)

section

variable [NumberTypes]

namespace Poller

/-- The times of the market that have to be stored are not due any more. -/
def CaughtUp (p : Poller) (goal : Set DateTime) (symbol : ℤ) : Prop :=
  ∀ t ∈ goal, t ∉ Due (newestFundingTime symbol p.table) p.backfillStart

/-- How far the present call has come with them, market by market. -/
def Catching (p : Poller) (goal : ℤ → Set DateTime) : PollState → Prop
  | .requested market _ request => ∀ t ∈ goal market.lighterMarketId, t.timestamp ≤ request.endTimestamp
  | .fetched market start rows =>
    rows.length < maxFundingsPerCall →
      ∀ t ∈ goal market.lighterMarketId, start ≤ t → t ∈ rows.map SettledFunding.time
  | .validated market start _ rows =>
    rows.length < maxFundingsPerCall →
      ∀ t ∈ goal market.lighterMarketId, start ≤ t → t ∈ rows.map SettledFunding.time
  | .inserted market _ fetched _ =>
    fetched < maxFundingsPerCall → p.CaughtUp (goal market.lighterMarketId) market.symbolId
  | _ => True

theorem AppendOnly.start_isLeast {p : Poller} (h : p.AppendOnly) {market : PerpMarket} {start : DateTime}
    (hstart : p.Starts market start) :
    IsLeast (Due (newestFundingTime market.symbolId p.table) p.backfillStart) start :=
  nextRequestStart_isLeast (fun time htime => h.whole _ time (newestFundingTime_some.mp htime).1) hstart

theorem CaughtUp.of_start {p : Poller} (h : p.AppendOnly) {market : PerpMarket} {start : DateTime}
    (hstart : p.Starts market start) {goal : Set DateTime} (hbefore : ∀ t ∈ goal, t < start) :
    p.CaughtUp goal market.symbolId := by
  intro t ht hdue
  exact absurd ((h.start_isLeast hstart).2 hdue) (not_le.mpr (hbefore t ht))

theorem AppendOnly.insert_newest {p : Poller} (h : p.AppendOnly) {market : PerpMarket} {start now : DateTime}
    {rows : List SettledFunding} (hat : p.state = .validated market start now rows) {last : SettledFunding}
    (hlast : rows.getLast? = some last) :
    newestFundingTime market.symbolId (p.insertPage market rows).table = some last.time := by
  have hstate := h.insertPage_state hat
  have hinserted : (p.insertPage market rows).state = .inserted market last.time rows.length
      (insertFundingRates (fundingRows market rows) p.table).2 := by
    rw [Poller.insertPage, hlast]
  rw [hinserted] at hstate
  exact hstate.1

theorem insertPage_nil (p : Poller) (market : PerpMarket) : p.insertPage market [] = { p with state := .idle } :=
  rfl

theorem insertPage_backfillStart (p : Poller) (market : PerpMarket) (rows : List SettledFunding) :
    (p.insertPage market rows).backfillStart = p.backfillStart := by
  unfold insertPage
  split <;> rfl

theorem AppendOnly.insert_due {p : Poller} (h : p.AppendOnly) {market : PerpMarket} {start now : DateTime}
    {rows : List SettledFunding} (hat : p.state = .validated market start now rows) (symbol : ℤ) :
    Due (newestFundingTime symbol (p.insertPage market rows).table) (p.insertPage market rows).backfillStart ⊆
      Due (newestFundingTime symbol p.table) p.backfillStart := by
  rw [insertPage_backfillStart]
  by_cases hsymbol : market.symbolId = symbol
  · subst hsymbol
    cases hlast : rows.getLast? with
    | none =>
      rw [List.getLast?_eq_none_iff.mp hlast, insertPage_nil]
    | some last =>
      obtain ⟨hstart, -, -, hvalid⟩ := h.in_state hat
      have hfrom := ((validatePage_ok.mp hvalid).1 last (List.mem_of_getLast? hlast)).1
      rw [h.insert_newest hat hlast]
      exact due_after (h.start_isLeast hstart).1 hfrom
  · have htimes := timesOf_append symbol (h.insert hat).1
    rw [if_neg hsymbol, List.append_nil] at htimes
    rw [newestFundingTime, newestFundingTime, htimes]

theorem step_backfillStart {p p' : Poller} {event : PollEvent} (hevent : event.ofCall || event.isAdvance)
    (hstep : p.step event = some p') : p'.backfillStart = p.backfillStart := by
  cases step_does hstep with
  | restart backfillStart => cases hevent
  | insert hat => exact insertPage_backfillStart _ _ _
  | _ => rfl

theorem CaughtUp.step {p p' : Poller} (h : p.AppendOnly) {event : PollEvent}
    (hevent : event.ofCall || event.isAdvance) (hstep : p.step event = some p') {goal : Set DateTime}
    {symbol : ℤ} (hcaught : p.CaughtUp goal symbol) : p'.CaughtUp goal symbol := by
  intro t ht hdue
  refine hcaught t ht ?_
  rcases step_table hstep with htable | ⟨market, start, now, rows, hat, rfl⟩
  · rwa [htable, step_backfillStart hevent hstep] at hdue
  · exact h.insert_due hat symbol hdue

theorem CaughtUp.insert {p : Poller} (h : p.AppendOnly) {market : PerpMarket} {start now : DateTime}
    {rows : List SettledFunding} (hat : p.state = .validated market start now rows) {goal : Set DateTime}
    (hrows : ∀ t ∈ goal, start ≤ t → t ∈ rows.map SettledFunding.time) :
    (p.insertPage market rows).CaughtUp goal market.symbolId := by
  obtain ⟨hstart, -, -, hvalid⟩ := h.in_state hat
  cases hlast : rows.getLast? with
  | none =>
    rw [List.getLast?_eq_none_iff.mp hlast] at hrows ⊢
    refine CaughtUp.of_start (p := p) h hstart fun t ht => ?_
    exact lt_of_not_ge fun hle => List.not_mem_nil (hrows t ht hle)
  | some last =>
    intro t ht hdue
    rw [h.insert_newest hat hlast] at hdue
    have hfrom := ((validatePage_ok.mp hvalid).1 last (List.mem_of_getLast? hlast)).1
    have hlisted := hrows t ht (hfrom.trans (le_of_lt hdue.2))
    have hstored : t ∈ timesOf market.symbolId (p.insertPage market rows).table := by
      rw [timesOf_append _ (h.insert hat).1, if_pos rfl]
      exact List.mem_append_right _ hlisted
    exact absurd ((newestFundingTime_some.mp (h.insert_newest hat hlast)).2 t hstored) (not_le.mpr hdue.2)

theorem loopFrom_catching (p : Poller) (goal : ℤ → Set DateTime) (market : PerpMarket)
    (found : Option DateTime) : p.Catching goal (loopFrom market found) := by
  cases found <;> exact trivial

theorem Catching.later {p : Poller} {goal : ℤ → Set DateTime} {state : PollState}
    (h : p.Catching goal state) (now : DateTime) : Catching { p with clock := now } goal state := by
  cases state <;> exact h

theorem Catching.insert {p : Poller} {goal : ℤ → Set DateTime} {market : PerpMarket}
    {rows : List SettledFunding}
    (h : rows.length < maxFundingsPerCall →
      (p.insertPage market rows).CaughtUp (goal market.lighterMarketId) market.symbolId) :
    (p.insertPage market rows).Catching goal (p.insertPage market rows).state := by
  cases hlast : rows.getLast? with
  | none =>
    rw [List.getLast?_eq_none_iff.mp hlast]
    exact trivial
  | some last =>
    have hinserted : (p.insertPage market rows).state = .inserted market last.time rows.length
        (insertFundingRates (fundingRows market rows) p.table).2 := by
      rw [insertPage, hlast]
    rw [hinserted]
    exact h

theorem poll_idle {p p' : Poller} {market : PerpMarket} (h : p.step (.poll market) = some p') :
    p.state = .idle := by
  simp only [step] at h
  split at h
  · assumption
  · cases h

theorem step_clock {p p' : Poller} {event : PollEvent} (h : p.step event = some p') : p.clock ≤ p'.clock := by
  cases step_does h with
  | advance hnow => exact hnow
  | insert hat =>
    unfold insertPage
    split <;> exact le_refl p.clock
  | _ => exact le_refl p.clock

end Poller

def PollState.Exited (state : PollState) : Prop := ∃ error, state = .exited error

theorem PollState.Exited.step {p p' : Poller} {event : PollEvent} (h : p.state.Exited)
    (hevent : event.ofCall || event.isAdvance) (hstep : p.step event = some p') : p'.state.Exited := by
  obtain ⟨error, hstate⟩ := h
  cases Poller.step_does hstep with
  | advance hnow => exact ⟨error, hstate⟩
  | restart backfillStart => cases hevent
  | poll market => cases hevent
  | fail => exact ⟨none, rfl⟩
  | checkHour hat => cases hstate.symm.trans hat
  | request hat => cases hstate.symm.trans hat
  | response hat => cases hstate.symm.trans hat
  | validate hat => cases hstate.symm.trans hat
  | insert hat => cases hstate.symm.trans hat
  | next hat => cases hstate.symm.trans hat

namespace FundingWorld

/-- What had settled when the round began, and was not later than the clock. -/
def goal (w : FundingWorld) (marketId : ℤ) : Set DateTime :=
  { t | t ∈ (w.known marketId).map SettledFunding.time ∧ t ≤ w.roundStart }

/-- A market of the round waits for its call, is in it, or has caught up. -/
def Progress (w : FundingWorld) (market : PerpMarket) : Prop :=
  market ∈ w.loop.rest ∨ w.loop.poller.state.market = some market ∨
    w.loop.poller.CaughtUp (w.goal market.lighterMarketId) market.symbolId

structure Round (w : FundingWorld) : Prop where
  clock : w.roundStart ≤ w.loop.poller.clock
  known : ∀ marketId, w.known marketId ⊆ w.settled marketId
  catching : w.loop.poller.Catching w.goal w.loop.poller.state
  markets : w.loop.poller.state.Exited ∨
    w.loop.markets = loadPerpMarkets w.loop.symbols ∧ ∀ market ∈ w.loop.markets, w.Progress market

theorem initial_round (symbols : SymbolTable) (clock backfillStart : DateTime) :
    (initial symbols clock backfillStart).Round where
  clock := le_refl clock
  known _ := List.Subset.refl _
  catching := trivial
  markets := .inl ⟨none, rfl⟩

theorem Round.settle {w : FundingWorld} (h : w.Round) (marketId : ℤ) (funding : SettledFunding) :
    Round { w with settled := Function.update w.settled marketId (w.settled marketId ++ [funding]) } where
  clock := h.clock
  known m := List.Subset.trans (h.known m) (settle_grows w.settled marketId funding m)
  catching := h.catching
  markets := h.markets

theorem Round.goal_settled {w : FundingWorld} (h : w.Round) (hinv : w.Inv) {marketId : ℤ} {t : DateTime}
    (ht : t ∈ w.goal marketId) :
    t ∈ (w.settled marketId).map SettledFunding.time ∧ WholeHour t ∧ t ≤ w.loop.poller.clock := by
  have hsettled := List.map_subset SettledFunding.time (h.known marketId) ht.1
  exact ⟨hsettled, hinv.whole_times marketId t hsettled, ht.2.trans h.clock⟩

/-- A response that is no full page lists everything from the start on that had settled. -/
theorem Round.response {w : FundingWorld} (h : w.Round) (hinv : w.Inv) {market : PerpMarket}
    {start : DateTime} {request : FundingRequest} {body : Except String FundingsResponse}
    (hat : w.loop.poller.state = .requested market start request)
    (hserved : request.AnsweredBy (w.settled request.marketId) body) {rows : List SettledFunding}
    (hrows : parseFundingsResponse body = .ok rows) (hshort : rows.length < maxFundingsPerCall) :
    ∀ t ∈ w.goal market.lighterMarketId, start ≤ t → t ∈ rows.map SettledFunding.time := by
  have hcatching := h.catching
  have hbelongs := hinv.belongs
  have hcalling := hinv.calling market
  rw [hat] at hcatching hbelongs hcalling
  obtain ⟨row, hrow, -, -⟩ := hcalling rfl
  have hpage := (hinv.covered row hrow).page
  change Collection.PageSound _ _ w.loop.poller.state at hpage
  rw [hat] at hpage
  change request.marketId = _ at hbelongs
  change request.startTimestamp = _ at hpage
  have hall : rows = request.listing (w.settled market.lighterMarketId) := by
    have hlist := hserved rows hrows
    rw [hbelongs] at hlist
    rw [hlist, List.take_of_length_le]
    rw [hlist, List.length_take] at hshort
    omega
  intro t ht hfrom
  rw [hall, FundingRequest.listing_times, FundingRequest.window, List.mem_filter, hpage]
  have hbegin : start.timestamp ≤ t.timestamp := DateTime.secs_le hfrom
  exact ⟨(h.goal_settled hinv ht).1, decide_eq_true ⟨hbegin, hcatching t ht⟩⟩

theorem Round.catching_polled {w : FundingWorld} (h : w.Round) (hinv : w.Inv) {event : PollEvent} {p : Poller}
    (hserved : w.Served (.poll event)) (hevent : event.ofCall || event.isAdvance)
    (hstep : w.loop.poller.step event = some p) : p.Catching w.goal p.state := by
  have hcatching := h.catching
  cases Poller.step_does hstep with
  | advance hnow => exact hcatching.later _
  | restart backfillStart => cases hevent
  | poll market => cases hevent
  | fail => exact trivial
  | checkHour hat =>
    dsimp only
    split_ifs <;> exact trivial
  | request hat =>
    intro t ht
    exact DateTime.secs_le (h.goal_settled hinv ht).2.2
  | response hat =>
    rename_i market start request body
    cases hparse : parseFundingsResponse body with
    | error e => exact trivial
    | ok rows => exact h.response hinv hat (hserved market start request body hat rfl) hparse
  | validate hat =>
    rename_i market start rows
    rw [hat] at hcatching
    cases hvalid : validatePage start w.loop.poller.clock rows with
    | error e => exact trivial
    | ok checked => exact hcatching
  | insert hat =>
    rename_i market start now rows
    rw [hat] at hcatching
    exact Poller.Catching.insert fun hshort => Poller.CaughtUp.insert hinv.sound hat (hcatching hshort)
  | next hat =>
    dsimp only
    split_ifs
    · exact trivial
    · exact Poller.loopFrom_catching _ _ _ _

/-- A call ends with its market caught up, unless the process ends with it. -/
theorem Round.call_polled {w : FundingWorld} (h : w.Round) (hinv : w.Inv) {event : PollEvent} {p : Poller}
    (hevent : event.ofCall || event.isAdvance) (hstep : w.loop.poller.step event = some p)
    {market : PerpMarket} (hcall : w.loop.poller.state.market = some market) :
    p.state.Exited ∨ p.state.market = some market ∨
      p.CaughtUp (w.goal market.lighterMarketId) market.symbolId := by
  have hcatching := h.catching
  cases Poller.step_does hstep with
  | advance hnow => exact .inr (.inl hcall)
  | restart backfillStart => cases hevent
  | poll market => cases hevent
  | fail => exact .inl ⟨none, rfl⟩
  | checkHour hat =>
    rename_i start
    have hstart := hinv.sound.in_state hat
    rw [hat] at hcall
    cases hcall
    by_cases hclosed : hourClosed start w.loop.poller.clock
    · simp only [hclosed, if_true]
      exact .inr (.inl rfl)
    -- the first hour that is due is still open, and what is to be stored has been closed
    · refine .inr (.inr (Poller.CaughtUp.of_start (p := w.loop.poller) hinv.sound hstart fun t ht => ?_))
      obtain ⟨-, hgrid, hnow⟩ := h.goal_settled hinv ht
      refine (hgrid.le_floorHour.mpr hnow).trans_lt (lt_of_not_ge fun hle => hclosed ?_)
      exact decide_eq_true hle
  | request hat =>
    rw [hat] at hcall
    exact .inr (.inl hcall)
  | response hat =>
    rename_i body
    rw [hat] at hcall
    cases hparse : parseFundingsResponse body with
    | error e => exact .inl ⟨_, rfl⟩
    | ok rows => exact .inr (.inl hcall)
  | validate hat =>
    rename_i start rows
    rw [hat] at hcall
    cases hvalid : validatePage start w.loop.poller.clock rows with
    | error e => exact .inl ⟨_, rfl⟩
    | ok checked => exact .inr (.inl hcall)
  | insert hat =>
    rename_i start now rows
    rw [hat] at hcall hcatching
    cases hcall
    cases hlast : rows.getLast? with
    -- an empty page ends the call: the endpoint had nothing to list from its start on
    | none =>
      rw [List.getLast?_eq_none_iff.mp hlast] at hat hcatching ⊢
      exact .inr (.inr (Poller.CaughtUp.insert hinv.sound hat (hcatching (Nat.succ_pos 749))))
    | some last =>
      unfold Poller.insertPage
      rw [hlast]
      exact .inr (.inl rfl)
  | next hat =>
    rename_i lastTime fetched inserted
    rw [hat] at hcall hcatching
    cases hcall
    by_cases hshort : fetched < maxFundingsPerCall
    -- a page that is not full was the last one
    · exact .inr (.inr (hcatching hshort))
    · simp only [hshort, if_false]
      cases nextRequestStart (some lastTime) w.loop.poller.backfillStart with
      | none => exact .inl ⟨_, rfl⟩
      | some start => exact .inr (.inl rfl)

theorem Round.polled {w : FundingWorld} (h : w.Round) (hinv : w.Inv) {event : PollEvent} {p : Poller}
    (hserved : w.Served (.poll event)) (hevent : event.ofCall || event.isAdvance)
    (hstep : w.loop.poller.step event = some p) :
    (w.next (.poll event) { w.loop with poller := p }).Round where
  clock := h.clock.trans (Poller.step_clock hstep)
  known := h.known
  catching := h.catching_polled hinv hserved hevent hstep
  markets := by
    rcases h.markets with hexited | ⟨hmarkets, hprogress⟩
    · exact .inl (hexited.step hevent hstep)
    · by_cases hexited : p.state.Exited
      · exact .inl hexited
      · refine .inr ⟨hmarkets, fun market hmarket => ?_⟩
        rcases hprogress market hmarket with hrest | hcall | hcaught
        · exact .inl hrest
        · exact .inr ((h.call_polled hinv hevent hstep hcall).resolve_left hexited)
        · exact .inr (.inr (hcaught.step hinv.sound hevent hstep))

theorem Round.called {w : FundingWorld} (h : w.Round) {market : PerpMarket} {rest : List PerpMarket}
    (hrest : w.loop.rest = market :: rest) {p : Poller} (hstep : w.loop.poller.step (.poll market) = some p) :
    (w.next .call { w.loop with poller := p, rest }).Round where
  clock := h.clock.trans (Poller.step_clock hstep)
  known := h.known
  catching := by
    cases Poller.step_does hstep with
    | poll => exact Poller.loopFrom_catching _ _ _ _
  markets := by
    have hidle := Poller.poll_idle hstep
    rcases h.markets with ⟨error, hexited⟩ | ⟨hmarkets, hprogress⟩
    · cases hexited.symm.trans hidle
    · cases Poller.step_does hstep with
      | poll =>
        generalize nextRequestStart (newestFundingTime market.symbolId w.loop.poller.table)
          w.loop.poller.backfillStart = found
        cases found with
        | none => exact .inl ⟨none, rfl⟩
        | some start =>
          refine .inr ⟨hmarkets, fun other hother => ?_⟩
          rcases hprogress other hother with hwaiting | hcall | hcaught
          · rw [hrest] at hwaiting
            rcases List.mem_cons.mp hwaiting with rfl | hwaiting
            · exact .inr (.inl rfl)
            · exact .inl hwaiting
          · rw [hidle] at hcall
            cases hcall
          · exact .inr (.inr hcaught)

theorem Round.looped {w : FundingWorld} (h : w.Round) (hinv : w.Inv) {event : FundingEvent} {l : FundingLoop}
    (hserved : w.Served event) (hstep : w.loop.step event = some l) : (w.next event l).Round := by
  cases FundingLoop.step_does hstep with
  | failed resp backfillStart drawn =>
    exact ⟨le_refl _, fun _ => List.Subset.refl _, trivial, .inl ⟨none, rfl⟩⟩
  | started hsync =>
    rename_i symbols
    by_cases hnone : loadPerpMarkets symbols = []
    · rw [if_pos hnone]
      exact ⟨le_refl _, fun _ => List.Subset.refl _, trivial, .inl ⟨none, rfl⟩⟩
    · rw [if_neg hnone]
      exact ⟨le_refl _, fun _ => List.Subset.refl _, trivial, .inr ⟨rfl, fun market hmarket => .inl hmarket⟩⟩
  | call hrest hcall => exact h.called hrest hcall
  | poll hevent hpoll => exact h.polled hinv hserved hevent hpoll
  | sleep hover =>
    refine ⟨le_refl _, fun _ => List.Subset.refl _, ?_, ?_⟩
    · change Poller.Catching _ _ w.loop.poller.state
      rw [hover.1]
      exact trivial
    · rcases h.markets with ⟨error, hexited⟩ | ⟨hmarkets, -⟩
      · cases hexited.symm.trans hover.1
      · exact .inr ⟨hmarkets, fun market hmarket => .inl hmarket⟩

theorem Reachable.round {w : FundingWorld} (h : Reachable w) : w.Round := by
  induction h with
  | initial symbols clock backfillStart => exact initial_round symbols clock backfillStart
  | step hreach hstep ih =>
    cases hstep with
    | settle hgrid hlater => exact ih.settle _ _
    | loop hserved hstep => exact ih.looped hreach.inv hserved hstep

theorem Reachable.silent {w : FundingWorld} (h : Reachable w) (event : FundingEvent)
    (hsilent : ∀ body, event ≠ .poll (.response body)) {l : FundingLoop} (hstep : w.loop.step event = some l) :
    Reachable (w.next event l) :=
  h.step (.loop (fun _ _ _ body _ hevent => absurd hevent (hsilent body)) hstep)

theorem Reachable.answered {w : FundingWorld} (h : Reachable w) (body : Except String FundingsResponse)
    (hbody : ∀ market start request, w.loop.poller.state = .requested market start request →
      request.AnsweredBy (w.settled request.marketId) body) {l : FundingLoop}
    (hstep : w.loop.step (.poll (.response body)) = some l) :
    Reachable (w.next (.poll (.response body)) l) := by
  refine h.step (.loop (fun market start request other hstate hevent => ?_) hstep)
  cases hevent
  exact hbody market start request hstate

theorem RoundOver.caughtUp {w : FundingWorld} (h : w.Round) (hover : w.loop.RoundOver) {row : SymbolRow}
    (hrow : row ∈ w.loop.symbols.rows) (hperp : row.marketType = "perp") :
    w.loop.poller.CaughtUp (w.goal row.lighterMarketId) row.id := by
  rcases h.markets with ⟨error, hexited⟩ | ⟨hmarkets, hprogress⟩
  · cases hexited.symm.trans hover.1
  · have hmarket : (⟨row.id, row.name, row.lighterMarketId⟩ : PerpMarket) ∈ w.loop.markets := by
      rw [hmarkets]
      exact mem_loadPerpMarkets.mpr ⟨row, hrow, hperp, rfl⟩
    rcases hprogress _ hmarket with hrest | hcall | hcaught
    · rw [hover.2] at hrest
      cases hrest
    · rw [hover.1] at hcall
      cases hcall
    · exact hcaught

end FundingWorld

def fundingsOf (symbol : ℤ) (table : FundingTable) : List SettledFunding :=
  (table.rows.filter (fun row => row.symbol = symbol)).map fun row => ⟨row.time, row.rate, row.direction⟩

theorem fundingsOf_times (symbol : ℤ) (table : FundingTable) :
    (fundingsOf symbol table).map SettledFunding.time = timesOf symbol table := by
  rw [fundingsOf, List.map_map]
  rfl

namespace FundingWorld

theorem Inv.fundingsOf_subset {w : FundingWorld} (h : w.Inv) {row : SymbolRow}
    (hrow : row ∈ w.loop.symbols.rows) :
    fundingsOf row.id w.loop.poller.table ⊆ w.settled row.lighterMarketId := by
  intro funding hfunding
  obtain ⟨stored, hstored, rfl⟩ := List.mem_map.mp hfunding
  obtain ⟨hmem, hsymbol⟩ := List.mem_filter.mp hstored
  obtain ⟨symbol, hlisted, hid, hsettled⟩ := h.genuine stored hmem
  have hids : row.id = symbol.id := by exact_mod_cast (hid.trans (of_decide_eq_true hsymbol)).symm
  rwa [List.inj_on_of_nodup_map w.loop.symbols.idUnique hrow hlisted hids]

/-- What is stored for a symbol begins with the first row of its series and leaves nothing out. -/
theorem Inv.fundingsOf_prefix {w : FundingWorld} (h : w.Inv) {row : SymbolRow}
    (hrow : row ∈ w.loop.symbols.rows) {origin : DateTime} (horigin : w.origin row.id = some origin) :
    fundingsOf row.id w.loop.poller.table <+:
      (w.settled row.lighterMarketId).filter (fun funding => origin ≤ funding.time) := by
  have hstored := (h.covered row hrow).stored
  dsimp only [collection] at hstored
  rw [horigin] at hstored
  have htimes : ((w.settled row.lighterMarketId).filter (fun funding => origin ≤ funding.time)).map
      SettledFunding.time =
        ((w.settled row.lighterMarketId).map SettledFunding.time).filter (fun t => origin ≤ t) := by
    rw [List.filter_map]
    rfl
  apply Growing.prefix_of_map_prefix (f := SettledFunding.time)
  · rw [htimes]
    exact (h.growing _).filter _
  · intro funding hfunding
    have hmem : funding.time ∈ timesOf row.id w.loop.poller.table :=
      fundingsOf_times row.id w.loop.poller.table ▸ List.mem_map_of_mem hfunding
    exact List.mem_filter.mpr ⟨h.fundingsOf_subset hrow hfunding, (List.mem_filter.mp (hstored.2.subset hmem)).2⟩
  · rw [fundingsOf_times, htimes]
    exact hstored.2

theorem Round.stored {w : FundingWorld} (h : w.Round) (hinv : w.Inv) (hover : w.loop.RoundOver)
    {row : SymbolRow} (hrow : row ∈ w.loop.symbols.rows) (hperp : row.marketType = "perp") {t : DateTime}
    (ht : t ∈ w.goal row.lighterMarketId) {origin : DateTime} (horigin : w.origin row.id = some origin)
    (hfrom : origin ≤ t) : t ∈ timesOf row.id w.loop.poller.table := by
  have hstored := (hinv.covered row hrow).stored
  dsimp only [collection] at hstored
  rw [horigin] at hstored
  obtain ⟨hne, rest, hrest⟩ := hstored
  obtain ⟨newest, hnewest⟩ := Option.ne_none_iff_exists'.mp (mt newestFundingTime_none.mp hne)
  obtain ⟨hsettled, hgrid, -⟩ := h.goal_settled hinv ht
  have hmem : t ∈ timesOf row.id w.loop.poller.table ++ rest :=
    hrest ▸ List.mem_filter.mpr ⟨hsettled, decide_eq_true hfrom⟩
  rcases List.mem_append.mp hmem with hmem | hlater
  · exact hmem
  · have hsorted : (timesOf row.id w.loop.poller.table ++ rest).Pairwise (· < ·) :=
      hrest ▸ (hinv.growing _).filter _
    have hlt := (List.pairwise_append.mp hsorted).2.2 newest (newestFundingTime_some.mp hnewest).1 t hlater
    have hcaught := RoundOver.caughtUp h hover hrow hperp
    rw [Poller.CaughtUp, hnewest] at hcaught
    exact absurd ⟨hgrid, hlt⟩ (hcaught t ht)

theorem Round.before_backfill {w : FundingWorld} (h : w.Round) (hinv : w.Inv) (hover : w.loop.RoundOver)
    {row : SymbolRow} (hrow : row ∈ w.loop.symbols.rows) (hperp : row.marketType = "perp") {t : DateTime}
    (ht : t ∈ w.goal row.lighterMarketId) (hnone : timesOf row.id w.loop.poller.table = []) :
    t < w.loop.poller.backfillStart := by
  have hcaught := RoundOver.caughtUp h hover hrow hperp
  rw [Poller.CaughtUp, newestFundingTime_none.mpr hnone] at hcaught
  exact lt_of_not_ge fun hle => hcaught t ht ⟨(h.goal_settled hinv ht).2.1, hle⟩

end FundingWorld

/-- Through any failures, restarts and renamed markets the table holds of each symbol what its
market has settled from the first row on, without a gap, and a round that is over has
stored all of it that had settled when the round began. -/
theorem funding_rounds_catch_up {w : FundingWorld} (h : FundingWorld.Reachable w) :
    (∀ stored ∈ w.loop.poller.table.rows, ∃ row ∈ w.loop.symbols.rows, (row.id : ℤ) = stored.symbol) ∧
      ∀ row ∈ w.loop.symbols.rows,
        match w.origin row.id with
        | none =>
          fundingsOf row.id w.loop.poller.table = [] ∧
            (w.loop.RoundOver → row.marketType = "perp" →
              ∀ t ∈ w.goal row.lighterMarketId, t < w.loop.poller.backfillStart)
        | some origin =>
          fundingsOf row.id w.loop.poller.table <+:
              (w.settled row.lighterMarketId).filter (fun funding => origin ≤ funding.time) ∧
            (w.loop.RoundOver → row.marketType = "perp" →
              ∀ t ∈ w.goal row.lighterMarketId, origin ≤ t → t ∈ timesOf row.id w.loop.poller.table) := by
  have hinv := h.inv
  have hround := h.round
  constructor
  · intro stored hstored
    obtain ⟨row, hrow, hid, -⟩ := hinv.genuine stored hstored
    exact ⟨row, hrow, hid⟩
  · intro row hrow
    cases horigin : w.origin row.id with
    | none =>
      have hstored := (hinv.covered row hrow).stored
      dsimp only [FundingWorld.collection] at hstored
      rw [horigin] at hstored
      change timesOf row.id w.loop.poller.table = [] at hstored
      refine ⟨?_, fun hover hperp t ht => hround.before_backfill hinv hover hrow hperp ht hstored⟩
      rw [← List.map_eq_nil_iff (f := SettledFunding.time), fundingsOf_times, hstored]
    | some origin =>
      exact ⟨hinv.fundingsOf_prefix hrow horigin, fun hover hperp t ht hfrom =>
        hround.stored hinv hover hrow hperp ht horigin hfrom⟩

end

def etherMarkets : SymbolTable where
  rows := [⟨3, "ETH", 7, "perp"⟩, ⟨4, "ETH/USDC", 2048, "spot"⟩]
  nextId := 5
  idUnique := by decide
  marketUnique := by decide
  typeNameUnique := by decide
  idDrawn := by decide

def settledHour : letI := wholeNumbers; SettledFunding :=
  let := wholeNumbers
  ⟨sampleHour, (4 : ℕ), "long"⟩

theorem sample_catch_up : letI := wholeNumbers;
    ∃ w : FundingWorld, w.loop.RoundOver ∧ w.origin 3 = some sampleHour ∧
      sampleHour ∈ timesOf 3 w.loop.poller.table ∧ fundingsOf 3 w.loop.poller.table <+:
        (w.settled 7).filter (fun funding => sampleHour ≤ funding.time) := by
  let := wholeNumbers
  have hinit : FundingWorld.Reachable _ := .initial etherMarkets sampleClock sampleHour
  have hgrid : WholeHour settledHour.time := by decide
  have hfirst : ∀ earlier ∈ (FundingWorld.initial etherMarkets sampleClock sampleHour).settled 7,
      earlier.time < settledHour.time := by
    intro earlier hearlier
    cases hearlier
  have hhour := hinit.step (.settle hgrid hfirst)
  have hstart := hhour.silent (.start ⟨200, [⟨"ETH", 7, "perp"⟩]⟩ sampleHour 0) (by simp) rfl
  have hcall := hstart.silent .call (by simp) rfl
  have hcheck := hcall.silent (.poll .checkHour) (by simp) rfl
  have hrequest := hcheck.silent (.poll .request) (by simp) rfl
  have hresponse := hrequest.answered (.ok samplePage) (by
    intro market start request hstate rows hrows
    cases hstate
    cases hrows
    rfl) rfl
  have hvalid := hresponse.silent (.poll .validate) (by simp) rfl
  have hinsert := hvalid.silent (.poll .insert) (by simp) rfl
  have hnext := hinsert.silent (.poll .next) (by simp) rfl
  obtain ⟨hbegins, hstored⟩ :=
    (@funding_rounds_catch_up wholeNumbers _ hnext).2 ⟨3, "ETH", 7, "perp"⟩ List.mem_cons_self
  refine ⟨_, ⟨?_, ?_⟩, ?_, ?_, hbegins⟩
  · rfl
  · rfl
  · rfl
  · exact hstored ⟨rfl, rfl⟩ rfl sampleHour ⟨List.mem_cons_self, by decide⟩ (le_refl _)

end LighterIngestor
