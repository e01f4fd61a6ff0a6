import LighterIngestor.RequestWindow

namespace LighterIngestor

theorem next_hour_le {lastTime start backfillStart : DateTime}
    (h : nextRequestStart (some lastTime) backfillStart = some start) :
    WholeHour start ∧ (floorHour lastTime).secs + 3600 ≤ start.secs := by
  have hlt := nextRequestStart_gt h
  have hgrid := (nextRequestStart_due h).1
  refine ⟨hgrid, ?_⟩
  obtain ⟨hsecs, hnanos⟩ := hgrid
  rw [DateTime.lt_iff] at hlt
  rw [floorHour_secs]
  omega

section

variable [NumberTypes]

def PollState.running : PollState → Bool
  | .idle => false
  | .exited _ => false
  | _ => true

/-- The events of a call of `poll_market`, after the read of the newest settlement. -/
def PollEvent.ofCall : PollEvent → Bool
  | .advance _ => false
  | .restart _ => false
  | .poll _ => false
  | _ => true

def PollEvent.isRequest : PollEvent → Bool
  | .request => true
  | _ => false

abbrev Reading := DateTime × PollEvent

def requestsIn (readings : List Reading) : ℕ := readings.countP (fun reading => reading.2.isRequest)

namespace Poller

/-- One step of a call with what the clock reads at it; `none` once the call is over. -/
def callStep (p : Poller) (reading : Reading) : Option Poller :=
  if p.state.running && reading.2.ofCall then { p with clock := reading.1 }.step reading.2 else none

def call (p : Poller) (readings : List Reading) : Option Poller := readings.foldlM callStep p

/-- Where a call stands after so many requests and steps. -/
def Place (first T : DateTime) (requests steps : ℕ) : PollState → Prop
  | .looping _ start =>
    WholeHour start ∧ first.secs + 3600 * requests ≤ start.secs ∧ steps = 6 * requests
  | .fetching _ start =>
    WholeHour start ∧ first.secs + 3600 * requests ≤ start.secs ∧ steps = 6 * requests + 1 ∧
      start ≤ floorHour T
  | .requested _ start _ =>
    WholeHour start ∧ first.secs + 3600 * requests ≤ start.secs + 3600 ∧ steps + 4 = 6 * requests
  | .fetched _ start _ =>
    WholeHour start ∧ first.secs + 3600 * requests ≤ start.secs + 3600 ∧ steps + 3 = 6 * requests
  | .validated _ start _ rows =>
    WholeHour start ∧ first.secs + 3600 * requests ≤ start.secs + 3600 ∧ steps + 2 = 6 * requests ∧
      ∀ row ∈ rows, start ≤ row.time
  | .inserted _ lastTime _ _ =>
    first.secs + 3600 * requests ≤ (floorHour lastTime).secs + 3600 ∧ steps + 1 = 6 * requests
  | _ => steps ≤ 6 * requests + 2

/-- Every request but the first is an hour further on the grid than the one before. -/
structure Paged (first T : DateTime) (requests steps : ℕ) (state : PollState) : Prop where
  reach : requests ≠ 0 → first.secs + 3600 * requests ≤ (floorHour T).secs + 3600
  place : Place first T requests steps state

theorem Paged.at_loop {first T : DateTime} {requests steps : ℕ} {market : PerpMarket}
    {found : Option DateTime}
    (hreach : requests ≠ 0 → first.secs + 3600 * requests ≤ (floorHour T).secs + 3600)
    (hsteps : steps = 6 * requests) (hfound : ∀ start ∈ found, WholeHour start ∧
      first.secs + 3600 * requests ≤ start.secs) :
    Paged first T requests steps (loopFrom market found) := by
  cases found with
  | none => exact ⟨hreach, by simp only [loopFrom, Place]; omega⟩
  | some start => exact ⟨hreach, (hfound start rfl).1, (hfound start rfl).2, hsteps⟩

theorem Place.running_steps {first T : DateTime} {requests steps : ℕ} {state : PollState}
    (h : Place first T requests steps state) (hrunning : state.running) : steps ≤ 6 * requests + 1 := by
  cases state with
  | idle => cases hrunning
  | exited error => cases hrunning
  | looping market start =>
    have := h.2.2
    omega
  | fetching market start =>
    have := h.2.2.1
    omega
  | requested market start request =>
    have := h.2.2
    omega
  | fetched market start rows =>
    have := h.2.2
    omega
  | validated market start now rows =>
    have := h.2.2.1
    omega
  | inserted market lastTime fetched inserted =>
    have := h.2
    omega

theorem Place.steps_le {first T : DateTime} {requests steps : ℕ} {state : PollState}
    (h : Place first T requests steps state) : steps ≤ 6 * requests + 2 := by
  cases hrunning : state.running with
  | true => exact (h.running_steps hrunning).trans (Nat.le_succ _)
  | false => cases state <;> first | exact h | cases hrunning

theorem callStep_some {p p' : Poller} {reading : Reading} (h : p.callStep reading = some p') :
    p.state.running ∧ reading.2.ofCall ∧ { p with clock := reading.1 }.step reading.2 = some p' := by
  unfold callStep at h
  split_ifs at h with hboth
  rw [Bool.and_eq_true] at hboth
  exact ⟨hboth.1, hboth.2, h⟩

theorem callStep_enabled {p : Poller} (hrunning : p.state.running) (now : DateTime) :
    ∃ event q, event ≠ .fail ∧ p.callStep (now, event) = some q := by
  obtain ⟨clock, backfillStart, table, state, lines⟩ := p
  cases state with
  | idle => cases hrunning
  | exited error => cases hrunning
  | looping market start => exact ⟨.checkHour, _, nofun, rfl⟩
  | fetching market start => exact ⟨.request, _, nofun, rfl⟩
  | requested market start request => exact ⟨.response (.error ""), _, nofun, rfl⟩
  | fetched market start rows => exact ⟨.validate, _, nofun, rfl⟩
  | validated market start now rows => exact ⟨.insert, _, nofun, rfl⟩
  | inserted market lastTime fetched inserted => exact ⟨.next, _, nofun, rfl⟩

theorem Place.checkHour {first T start now : DateTime} {requests steps : ℕ} {market : PerpMarket}
    (h : Place first T requests steps (.looping market start)) (hclock : now ≤ T) :
    Place first T requests (steps + 1) (if hourClosed start now then .fetching market start else .idle) := by
  obtain ⟨hgrid, hfrom, hsteps⟩ := h
  split_ifs with hclosed
  · have hle : start ≤ floorHour T := by
      rw [hgrid.le_floorHour]
      exact (hgrid.le_floorHour.mp (of_decide_eq_true hclosed)).trans hclock
    exact ⟨hgrid, hfrom, congrArg Nat.succ hsteps, hle⟩
  · change steps + 1 ≤ 6 * requests + 2
    omega

theorem Place.request {first T start : DateTime} {requests steps : ℕ} {market : PerpMarket}
    (h : Place first T requests steps (.fetching market start)) (request : FundingRequest) :
    Paged first T (requests + 1) (steps + 1) (.requested market start request) := by
  obtain ⟨hgrid, hfrom, hsteps, hle⟩ := h
  have hsecs := DateTime.secs_le hle
  refine ⟨fun _ => ?_, hgrid, ?_, ?_⟩
  · rw [Nat.cast_succ]
    omega
  · rw [Nat.cast_succ]
    omega
  · omega

theorem Place.response {first T start : DateTime} {requests steps : ℕ} {market : PerpMarket}
    {request : FundingRequest} (h : Place first T requests steps (.requested market start request))
    (parsed : Except FundingError (List SettledFunding)) :
    Place first T requests (steps + 1) (afterFetch market start parsed) := by
  obtain ⟨hgrid, hfrom, hsteps⟩ := h
  cases parsed with
  | error e =>
    change steps + 1 ≤ 6 * requests + 2
    omega
  | ok rows => exact ⟨hgrid, hfrom, by omega⟩

theorem Place.validate {first T start : DateTime} {requests steps : ℕ} {market : PerpMarket}
    {rows : List SettledFunding} (h : Place first T requests steps (.fetched market start rows))
    (now : DateTime) :
    Place first T requests (steps + 1) (afterValidate market start now rows (validatePage start now rows)) := by
  obtain ⟨hgrid, hfrom, hsteps⟩ := h
  cases hvalid : validatePage start now rows with
  | error e =>
    change steps + 1 ≤ 6 * requests + 2
    omega
  | ok checked =>
    have hrows : ∀ row ∈ rows, start ≤ row.time := fun row hrow => ((validatePage_ok.mp hvalid).1 row hrow).1
    exact ⟨hgrid, hfrom, by omega, hrows⟩

theorem Place.insert {first T start now : DateTime} {requests steps : ℕ} {market : PerpMarket}
    {rows : List SettledFunding} (h : Place first T requests steps (.validated market start now rows))
    (p : Poller) : Place first T requests (steps + 1) (p.insertPage market rows).state := by
  obtain ⟨hgrid, hfrom, hsteps, hrows⟩ := h
  unfold insertPage
  cases hlast : rows.getLast? with
  | none =>
    change steps + 1 ≤ 6 * requests + 2
    omega
  | some last =>
    have hfloor := DateTime.secs_le (hgrid.le_floorHour.mpr (hrows last (List.mem_of_getLast? hlast)))
    exact ⟨by omega, by omega⟩

theorem Paged.next {first T lastTime : DateTime} {requests steps fetched inserted : ℕ} {market : PerpMarket}
    (h : Paged first T requests steps (.inserted market lastTime fetched inserted)) (backfillStart : DateTime) :
    Paged first T requests (steps + 1)
      (if fetched < maxFundingsPerCall then .idle
        else loopFrom market (nextRequestStart (some lastTime) backfillStart)) := by
  obtain ⟨hreach, hfrom, hsteps⟩ := h
  split_ifs
  · have hover : steps + 1 ≤ 6 * requests + 2 := by omega
    exact ⟨hreach, hover⟩
  · apply Paged.at_loop hreach hsteps
    intro start hstart
    obtain ⟨hgrid, hlater⟩ := next_hour_le hstart
    exact ⟨hgrid, by omega⟩

theorem Paged.step {first T : DateTime} {requests steps : ℕ} {p p' : Poller} {reading : Reading}
    (h : Paged first T requests steps p.state) (hclock : reading.1 ≤ T)
    (hstep : p.callStep reading = some p') :
    Paged first T (requests + requestsIn [reading]) (steps + 1) p'.state := by
  obtain ⟨now, event⟩ := reading
  obtain ⟨hrunning, hcall, hdoes⟩ := callStep_some hstep
  have hpaged : Paged first T requests steps ({ p with clock := now } : Poller).state := h
  have hover : steps + 1 ≤ 6 * requests + 2 := Nat.succ_le_succ (h.place.running_steps hrunning)
  cases step_does hdoes with
  | advance hnow => cases hcall
  | restart backfillStart => cases hcall
  | poll market => cases hcall
  | fail => exact ⟨h.reach, hover⟩
  | checkHour hat =>
    rw [hat] at hpaged
    exact ⟨h.reach, hpaged.place.checkHour hclock⟩
  | request hat =>
    rw [hat] at hpaged
    exact hpaged.place.request _
  | response hat =>
    rw [hat] at hpaged
    exact ⟨h.reach, hpaged.place.response _⟩
  | validate hat =>
    rw [hat] at hpaged
    exact ⟨h.reach, hpaged.place.validate _⟩
  | insert hat =>
    rw [hat] at hpaged
    exact ⟨h.reach, hpaged.place.insert _⟩
  | next hat =>
    rw [hat] at hpaged
    exact hpaged.next _

theorem Paged.call {first T : DateTime} {readings : List Reading} (hclock : ∀ reading ∈ readings, reading.1 ≤ T)
    {requests steps : ℕ} {p r : Poller} (h : Paged first T requests steps p.state)
    (hrun : p.call readings = some r) :
    Paged first T (requests + requestsIn readings) (steps + readings.length) r.state := by
  induction readings generalizing requests steps p with
  | nil =>
    cases hrun
    exact h
  | cons reading rest ih =>
    obtain ⟨q, hq, hrest⟩ := Option.bind_eq_some_iff.mp hrun
    obtain ⟨hnow, hlater⟩ := List.forall_mem_cons.mp hclock
    have hpaged := ih hlater (h.step hnow hq) hrest
    have hcount : requestsIn (reading :: rest) = requestsIn [reading] + requestsIn rest := by
      unfold requestsIn
      rw [← List.countP_append, List.singleton_append]
    rw [hcount, List.length_cons, ← Nat.add_assoc, Nat.add_comm rest.length, ← Nat.add_assoc]
    exact hpaged

/-- Between two visits of the head of the loop the start moves on by an hour or more. -/
theorem Paged.loop_advance {first T : DateTime} {requests steps : ℕ} {a b : Poller} {readings : List Reading}
    (hpaged : Paged first T requests steps a.state) (hclock : ∀ reading ∈ readings, reading.1 ≤ T)
    (hrun : a.call readings = some b) (hmoved : readings ≠ []) {market market' : PerpMarket}
    {start later : DateTime} (ha : a.state = .looping market start)
    (hb : b.state = .looping market' later) : start.secs + 3600 ≤ later.secs := by
  have hplace := hpaged.place
  rw [ha] at hplace
  have hfresh : Paged start T 0 0 a.state := by
    rw [ha]
    exact ⟨fun h => absurd rfl h, hplace.1, by omega, rfl⟩
  have hend := (hfresh.call hclock hrun).place
  rw [hb] at hend
  obtain ⟨-, hfrom, hsteps⟩ := hend
  have hpos := List.length_pos_iff.mpr hmoved
  omega

end Poller

/-- A call of `poll_market` ends, whatever the answers are: every further page starts an hour
later or more, and no request goes beyond the last hour that its clock can close. -/
theorem paging_terminates {p q r : Poller} {market : PerpMarket} {first T : DateTime}
    {readings : List Reading} (hpoll : p.step (.poll market) = some q)
    (hfirst : q.state = .looping market first) (hclock : ∀ reading ∈ readings, reading.1 ≤ T)
    (hrun : q.call readings = some r) :
    (requestsIn readings : ℤ) ≤
        (if first ≤ floorHour T then ((floorHour T).secs - first.secs) / 3600 + 1 else 0) ∧
      readings.length ≤ 6 * requestsIn readings + 2 ∧
      (r.state.running → ∀ now, ∃ event s, event ≠ .fail ∧ r.callStep (now, event) = some s) ∧
      ∀ before page after a b market start market' later,
        readings = before ++ (page ++ after) → page ≠ [] →
          q.call before = some a → a.state = .looping market start →
            a.call page = some b → b.state = .looping market' later →
              start.secs + 3600 ≤ later.secs := by
  have hgrid : WholeHour first := by
    cases Poller.step_does hpoll with
    | poll market => exact (nextRequestStart_due (loopFrom_eq hfirst).2).1
  have hpaged : Poller.Paged first T 0 0 q.state := by
    rw [hfirst]
    exact ⟨fun h => absurd rfl h, hgrid, by omega, rfl⟩
  have hend := hpaged.call hclock hrun
  rw [Nat.zero_add, Nat.zero_add] at hend
  refine ⟨?_, hend.place.steps_le, Poller.callStep_enabled, ?_⟩
  · by_cases hnone : requestsIn readings = 0
    · rw [hnone]
      split_ifs with hle
      · have hsecs := DateTime.secs_le hle
        omega
      · rfl
    · have hreach := hend.reach hnone
      have hle : first ≤ floorHour T := by
        rw [DateTime.le_iff, hgrid.2]
        omega
      rw [if_pos hle]
      omega
  · rintro before page after a b _ start _ later rfl hmoved hbefore ha hpage hb
    have hcut : ∀ reading ∈ page, reading.1 ≤ T := fun reading hreading =>
      hclock reading (List.mem_append_right _ (List.mem_append_left _ hreading))
    have ha' := hpaged.call (fun reading hreading => hclock reading (List.mem_append_left _ hreading)) hbefore
    exact ha'.loop_advance hcut hpage hmoved ha hb

end

def samplePolled : List Reading :=
  [(sampleClock, .checkHour), (sampleClock, .request), (sampleClock, .response (.ok sampleFundings)),
    (sampleClock, .validate), (sampleClock, .insert), (sampleClock, .next)]

theorem sample_paging : letI := wholeNumbers;
    ∃ p q, (Poller.start sampleHour sampleHour).step (.poll sampleMarket) = some p ∧
      p.call samplePolled = some q ∧
      (requestsIn samplePolled : ℤ) ≤
        if sampleHour ≤ floorHour sampleClock
          then ((floorHour sampleClock).secs - sampleHour.secs) / 3600 + 1 else 0 := by
  let := wholeNumbers
  have hpoll : (Poller.start sampleHour sampleHour).step (.poll sampleMarket) =
      some { Poller.start sampleHour sampleHour with state := .looping sampleMarket sampleHour } := rfl
  have hrun : Poller.call { Poller.start sampleHour sampleHour with state := .looping sampleMarket sampleHour }
      samplePolled = some _ := rfl
  exact ⟨_, _, hpoll, hrun, (@paging_terminates wholeNumbers _ _ _ _ _ sampleClock _ hpoll rfl (by decide) hrun).1⟩

end LighterIngestor
