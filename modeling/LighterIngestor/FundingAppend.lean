import LighterIngestor.HourGrid
import LighterIngestor.Poller
import LighterIngestor.WsMessages

namespace LighterIngestor

section

variable [NumberTypes]

namespace Poller

/-- The start of the loop is computed from the table as it is. -/
def Starts (p : Poller) (market : PerpMarket) (start : DateTime) : Prop :=
  nextRequestStart (newestFundingTime market.symbolId p.table) p.backfillStart = some start

def StateSound (p : Poller) : PollState → Prop
  | .idle => True
  | .looping market start => p.Starts market start
  | .fetching market start => p.Starts market start
  | .requested market start _ => p.Starts market start
  | .fetched market start rows => p.Starts market start ∧ ∀ row ∈ rows, row.time.nanos = 0
  | .validated market start now rows =>
    p.Starts market start ∧ (∀ row ∈ rows, row.time.nanos = 0) ∧ now ≤ p.clock ∧
      validatePage start now rows = .ok ()
  | .inserted market lastTime fetched inserted =>
    newestFundingTime market.symbolId p.table = some lastTime ∧ inserted = fetched
  | .exited _ => True

structure AppendOnly (p : Poller) : Prop where
  growing : ∀ symbol, (timesOf symbol p.table).Pairwise (· < ·)
  whole : ∀ symbol, ∀ t ∈ timesOf symbol p.table, t.nanos = 0
  lines : ∀ line ∈ p.lines, line.inserted = line.fetched
  state : p.StateSound p.state

theorem Starts.stored_lt {p : Poller} {market : PerpMarket} {start t : DateTime}
    (h : p.Starts market start) (ht : t ∈ timesOf market.symbolId p.table) : t < start := by
  rw [Starts] at h
  cases hnewest : newestFundingTime market.symbolId p.table with
  | none =>
    rw [newestFundingTime_none.mp hnewest] at ht
    cases ht
  | some newest =>
    rw [hnewest] at h
    exact ((newestFundingTime_some.mp hnewest).2 t ht).trans_lt (nextRequestStart_gt h)

theorem loopFrom_sound {p : Poller} {market : PerpMarket} :
    p.StateSound
      (loopFrom market (nextRequestStart (newestFundingTime market.symbolId p.table) p.backfillStart)) := by
  cases hstart : nextRequestStart (newestFundingTime market.symbolId p.table) p.backfillStart with
  | none => exact trivial
  | some start => exact hstart

theorem StateSound.later {p p' : Poller} {state : PollState} (h : p.StateSound state)
    (htable : p'.table = p.table) (hbackfill : p'.backfillStart = p.backfillStart)
    (hclock : p.clock ≤ p'.clock) : p'.StateSound state := by
  have hstarts : ∀ market start, p.Starts market start → p'.Starts market start := by
    intro market start hstart
    rwa [Starts, htable, hbackfill]
  cases state with
  | idle => exact trivial
  | looping market start => exact hstarts market start h
  | fetching market start => exact hstarts market start h
  | requested market start request => exact hstarts market start h
  | fetched market start rows => exact ⟨hstarts market start h.1, h.2⟩
  | validated market start now rows =>
    obtain ⟨hstart, hwhole, hnow, hvalid⟩ := h
    exact ⟨hstarts market start hstart, hwhole, hnow.trans hclock, hvalid⟩
  | inserted market lastTime fetched inserted =>
    rw [StateSound, htable]
    exact h
  | exited error => exact trivial

theorem AppendOnly.in_state {p : Poller} (h : p.AppendOnly) {state : PollState} (hstate : p.state = state) :
    p.StateSound state := hstate ▸ h.state

theorem AppendOnly.insert {p : Poller} (h : p.AppendOnly) {market : PerpMarket} {start now : DateTime}
    {rows : List SettledFunding} (hstate : p.state = .validated market start now rows) :
    (p.insertPage market rows).table.rows = p.table.rows ++ fundingRows market rows ∧
      (insertFundingRates (fundingRows market rows) p.table).2 = rows.length := by
  obtain ⟨hstart, -, -, hvalid⟩ := h.in_state hstate
  obtain ⟨hrange, hincreasing⟩ := validatePage_ok.mp hvalid
  have hnew : ∀ row ∈ rows, row.time ∉ timesOf market.symbolId p.table := by
    intro row hrow hstored
    exact absurd (hrange row hrow).1 (not_le.mpr (hstart.stored_lt hstored))
  obtain ⟨hinsert, hcount⟩ :=
    insertFundingRates_fresh (hincreasing.imp fun hlt => ne_of_lt hlt) hnew
  refine ⟨?_, hcount⟩
  unfold insertPage
  cases hlast : rows.getLast? with
  | none =>
    rw [List.getLast?_eq_none_iff.mp hlast]
    exact (List.append_nil _).symm
  | some last => exact hinsert

theorem AppendOnly.insertPage_growing {p : Poller} (h : p.AppendOnly) {market : PerpMarket}
    {start now : DateTime} {rows : List SettledFunding} (hstate : p.state = .validated market start now rows)
    (symbol : ℤ) : (timesOf symbol (p.insertPage market rows).table).Pairwise (· < ·) := by
  obtain ⟨hstart, -, -, hvalid⟩ := h.in_state hstate
  obtain ⟨hrange, hincreasing⟩ := validatePage_ok.mp hvalid
  rw [timesOf_append _ (h.insert hstate).1, List.pairwise_append]
  split_ifs with hsymbol
  · refine ⟨h.growing symbol, hincreasing, ?_⟩
    intro t ht u hu
    obtain ⟨row, hrow, rfl⟩ := List.mem_map.mp hu
    exact (hstart.stored_lt (hsymbol ▸ ht)).trans_le (hrange row hrow).1
  · exact ⟨h.growing symbol, List.Pairwise.nil, by simp⟩

theorem AppendOnly.insertPage_whole {p : Poller} (h : p.AppendOnly) {market : PerpMarket}
    {start now : DateTime} {rows : List SettledFunding} (hstate : p.state = .validated market start now rows)
    (symbol : ℤ) : ∀ t ∈ timesOf symbol (p.insertPage market rows).table, t.nanos = 0 := by
  have hsound := h.in_state hstate
  intro t ht
  rw [timesOf_append _ (h.insert hstate).1] at ht
  rcases List.mem_append.mp ht with ht | ht
  · exact h.whole symbol t ht
  · split_ifs at ht
    · obtain ⟨row, hrow, rfl⟩ := List.mem_map.mp ht
      exact hsound.2.1 row hrow
    · cases ht

theorem AppendOnly.insertPage_state {p : Poller} (h : p.AppendOnly) {market : PerpMarket}
    {start now : DateTime} {rows : List SettledFunding} (hstate : p.state = .validated market start now rows) :
    (p.insertPage market rows).StateSound (p.insertPage market rows).state := by
  cases hlast : rows.getLast? with
  | none =>
    rw [insertPage, hlast]
    exact trivial
  | some last =>
    obtain ⟨hinsert, hcount⟩ := h.insert hstate
    have hnewest : newestFundingTime market.symbolId (p.insertPage market rows).table = some last.time := by
      rw [newestFundingTime, Growing.max?_eq_getLast? (h.insertPage_growing hstate market.symbolId),
        timesOf_append _ hinsert, if_pos rfl, List.getLast?_append, List.getLast?_map, hlast]
      rfl
    have hstate' : (p.insertPage market rows).state = .inserted market last.time rows.length
        (insertFundingRates (fundingRows market rows) p.table).2 := by
      rw [insertPage, hlast]
    rw [hstate']
    exact ⟨hnewest, hcount⟩

theorem insertPage_lines (p : Poller) (market : PerpMarket) (rows : List SettledFunding) :
    (p.insertPage market rows).lines = p.lines := by
  unfold insertPage
  split <;> rfl

theorem AppendOnly.insertPage {p : Poller} (h : p.AppendOnly) {market : PerpMarket} {start now : DateTime}
    {rows : List SettledFunding} (hstate : p.state = .validated market start now rows) :
    (p.insertPage market rows).AppendOnly where
  growing := h.insertPage_growing hstate
  whole := h.insertPage_whole hstate
  lines := by
    rw [insertPage_lines]
    exact h.lines
  state := h.insertPage_state hstate

theorem AppendOnly.step {p p' : Poller} {event : PollEvent} (h : p.AppendOnly)
    (hstep : p.step event = some p') : p'.AppendOnly := by
  cases step_does hstep with
  | advance hnow => exact ⟨h.growing, h.whole, h.lines, h.state.later rfl rfl hnow⟩
  | restart backfillStart => exact ⟨h.growing, h.whole, h.lines, trivial⟩
  | fail => exact ⟨h.growing, h.whole, h.lines, trivial⟩
  | poll market => exact ⟨h.growing, h.whole, h.lines, loopFrom_sound (p := { p with state := _ })⟩
  | checkHour hat =>
    refine ⟨h.growing, h.whole, h.lines, ?_⟩
    dsimp only
    split_ifs
    · exact h.in_state hat
    · exact trivial
  | request hat =>
    exact ⟨h.growing, h.whole, h.lines, h.in_state hat⟩
  | response hat =>
    rename_i market start request body
    refine ⟨h.growing, h.whole, h.lines, ?_⟩
    cases hparse : parseFundingsResponse body with
    | error e => exact trivial
    | ok rows => exact ⟨h.in_state hat, parse_whole_seconds hparse⟩
  | validate hat =>
    rename_i market start rows
    obtain ⟨hstart, hwhole⟩ := h.in_state hat
    refine ⟨h.growing, h.whole, h.lines, ?_⟩
    cases hvalid : validatePage start p.clock rows with
    | error e => exact trivial
    | ok checked => exact ⟨hstart, hwhole, le_refl p.clock, hvalid⟩
  | insert hat => exact h.insertPage hat
  | next hat =>
    rename_i market lastTime fetched inserted
    obtain ⟨hnewest, hcount⟩ := h.in_state hat
    refine ⟨h.growing, h.whole, ?_, ?_⟩
    · intro line hline
      rcases List.mem_append.mp hline with hline | hline
      · exact h.lines line hline
      · rw [List.mem_singleton.mp hline]
        exact hcount
    · dsimp only
      split_ifs
      · exact trivial
      · rw [← hnewest]
        exact loopFrom_sound (p := { p with lines := _, state := _ })

theorem start_appendOnly (clock backfillStart : DateTime) : (start clock backfillStart).AppendOnly where
  growing _ := List.Pairwise.nil
  whole _ _ ht := nomatch ht
  lines _ hline := nomatch hline
  state := trivial

theorem run_appendOnly {clock backfillStart : DateTime} {events : List PollEvent} {p : Poller}
    (h : (start clock backfillStart).run events = some p) : p.AppendOnly :=
  run_keeps AppendOnly (fun _ _ _ => AppendOnly.step) (start_appendOnly clock backfillStart) h

/-- The page in hand is what one of the responses holds. -/
def Fetched (events : List PollEvent) : PollState → Prop
  | .fetched _ _ rows | .validated _ _ _ rows =>
    ∃ body, .response body ∈ events ∧ parseFundingsResponse body = .ok rows
  | _ => True

theorem loopFrom_fetched (events : List PollEvent) (market : PerpMarket) (start : Option DateTime) :
    Fetched events (loopFrom market start) := by
  cases start with
  | none => exact trivial
  | some start => exact trivial

theorem step_fetched {p p' : Poller} {event : PollEvent} {events : List PollEvent}
    (h : Fetched events p.state) (hevent : event ∈ events) (hstep : p.step event = some p') :
    Fetched events p'.state := by
  cases step_does hstep with
  | advance hnow => exact h
  | restart backfillStart => exact trivial
  | fail => exact trivial
  | poll market => exact loopFrom_fetched events market _
  | checkHour hat =>
    dsimp only
    split_ifs <;> exact trivial
  | request hat => exact trivial
  | response hat =>
    rename_i market start request body
    cases hparse : parseFundingsResponse body with
    | error e => exact trivial
    | ok rows => exact ⟨body, hevent, hparse⟩
  | validate hat =>
    rename_i market start rows
    rw [hat] at h
    cases hvalid : validatePage start p.clock rows with
    | error e => exact trivial
    | ok checked => exact h
  | insert hat =>
    unfold Poller.insertPage
    split <;> exact trivial
  | next hat =>
    dsimp only
    split_ifs
    · exact trivial
    · exact loopFrom_fetched events _ _

theorem run_fetched {p p' : Poller} {events all : List PollEvent} (h : Fetched all p.state)
    (hall : events ⊆ all) (hrun : p.run events = some p') : Fetched all p'.state := by
  induction events generalizing p with
  | nil =>
    cases hrun
    exact h
  | cons event rest ih =>
    obtain ⟨q, hq, hrest⟩ := Option.bind_eq_some_iff.mp hrun
    obtain ⟨hevent, hmore⟩ := List.cons_subset.mp hall
    exact ih (step_fetched h hevent hq) hmore hrest

theorem step_table {p p' : Poller} {event : PollEvent} (h : p.step event = some p') :
    p'.table = p.table ∨
      ∃ market start now rows,
        p.state = .validated market start now rows ∧ p' = p.insertPage market rows := by
  cases step_does h with
  | insert hat => exact Or.inr ⟨_, _, _, _, hat, rfl⟩
  | _ => exact Or.inl rfl

end Poller

/-- The funding table only grows in time, whatever the server answers: in every run it changes
only where a page is inserted, which is all that a response held, whole seconds after everything
its symbol has, between the start it was requested from and the clock it was validated at. Every
row of it is stored. -/
theorem funding_append_only {clock backfillStart : DateTime} {events : List PollEvent} {p : Poller}
    (h : (Poller.start clock backfillStart).run events = some p) :
    (∀ symbol, (timesOf symbol p.table).Pairwise (· < ·) ∧
        ∀ t ∈ timesOf symbol p.table, t.nanos = 0) ∧
      (∀ line ∈ p.lines, line.inserted = line.fetched) ∧
      (∀ event p', p.step event = some p' → event ≠ .insert → p'.table = p.table) ∧
      ∀ p', p.step .insert = some p' → ∃ market start now rows,
        p.state = .validated market start now rows ∧ now ≤ p.clock ∧
          (∃ body, .response body ∈ events ∧ parseFundingsResponse body = .ok rows) ∧
          p'.table.rows = p.table.rows ++ fundingRows market rows ∧
          (insertFundingRates (fundingRows market rows) p.table).2 = rows.length ∧
          (rows.map SettledFunding.time).Pairwise (· < ·) ∧
          ∀ row ∈ rows, row.time.nanos = 0 ∧ start ≤ row.time ∧ row.time ≤ now ∧
            ∀ t ∈ timesOf market.symbolId p.table, t < row.time := by
  have hp := Poller.run_appendOnly h
  refine ⟨fun symbol => ⟨hp.growing symbol, hp.whole symbol⟩, hp.lines, ?_, ?_⟩
  · intro event p' hstep hevent
    cases Poller.step_does hstep with
    | insert => exact absurd rfl hevent
    | _ => rfl
  · intro p' hstep
    cases Poller.step_does hstep with
    | @insert market start now rows hat =>
      obtain ⟨hinsert, hcount⟩ := hp.insert hat
      obtain ⟨hstart, hwhole, hnow, hvalid⟩ := hp.in_state hat
      obtain ⟨hrange, hincreasing⟩ := validatePage_ok.mp hvalid
      have hfetched : Poller.Fetched events p.state :=
        Poller.run_fetched (p := Poller.start clock backfillStart) trivial (List.Subset.refl events) h
      rw [hat] at hfetched
      refine ⟨market, start, now, rows, hat, hnow, hfetched, hinsert, hcount, hincreasing, ?_⟩
      intro row hrow
      obtain ⟨hfrom, hto⟩ := hrange row hrow
      exact ⟨hwhole row hrow, hfrom, hto, fun t ht => (hstart.stored_lt ht).trans_le hfrom⟩

end

def sampleMarket : PerpMarket := ⟨3, "ETH", 7⟩

def sampleHour : DateTime := ⟨1790416800, 0, by decide⟩

def sampleClock : DateTime := ⟨1790420523, 0, by decide⟩

def sampleFundings : FundingsResponse :=
  ⟨200, "1h", [⟨1790416800, "4", "long"⟩, ⟨1790420400, "12", "short"⟩]⟩

def samplePoll : List PollEvent :=
  [.poll sampleMarket, .checkHour, .request, .response (.ok sampleFundings), .validate, .insert, .next]

theorem sample_append_only : letI := wholeNumbers;
    ∃ p p', (Poller.start sampleHour sampleHour).run (.advance sampleClock :: samplePoll.take 5) = some p ∧
      p.step .insert = some p' ∧ p.table.rows = [] ∧
      (p'.table.rows.map fun row => (row.symbol, row.time.secs, row.direction)) =
        [(3, 1790416800, "long"), (3, 1790420400, "short")] ∧
      ∃ market rows, p'.table.rows = p.table.rows ++ fundingRows market rows ∧
        (insertFundingRates (fundingRows market rows) p.table).2 = rows.length ∧ rows.length = 2 := by
  let := wholeNumbers
  have hrun : (Poller.start sampleHour sampleHour).run (.advance sampleClock :: samplePoll.take 5) = some _ :=
    rfl
  obtain ⟨-, -, -, hinsert⟩ := @funding_append_only wholeNumbers _ _ _ _ hrun
  obtain ⟨market, start, now, rows, hat, -, -, hrows, hcount, -, -⟩ := hinsert _ rfl
  cases hat
  exact ⟨_, _, hrun, rfl, rfl, rfl, _, _, hrows, hcount, rfl⟩

end LighterIngestor
