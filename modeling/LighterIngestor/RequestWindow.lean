import LighterIngestor.DueHours
import LighterIngestor.FundingAppend

namespace LighterIngestor

section

variable [NumberTypes]

theorem loopFrom_eq {market market' : PerpMarket} {found : Option DateTime} {start : DateTime}
    (h : loopFrom market found = .looping market' start) : market' = market ∧ found = some start := by
  cases found with
  | none => cases h
  | some found =>
    cases h
    exact ⟨rfl, rfl⟩

namespace Poller

/-- What holds of the start between its computation and the answer to its request. -/
def Aligned (clock : DateTime) : PollState → Prop
  | .looping _ start => WholeHour start
  | .fetching _ start => WholeHour start ∧ start ≤ floorHour clock
  | .requested _ _ request =>
    request.startTimestamp % 3600 = 0 ∧
      request.startTimestamp ≤ request.endTimestamp - request.endTimestamp % 3600
  | _ => True

theorem loopFrom_aligned (clock : DateTime) (market : PerpMarket) (newestStored : Option DateTime)
    (backfillStart : DateTime) :
    Aligned clock (loopFrom market (nextRequestStart newestStored backfillStart)) := by
  cases h : nextRequestStart newestStored backfillStart with
  | none => exact trivial
  | some start => exact (nextRequestStart_due h).1

theorem Aligned.later {clock now : DateTime} {state : PollState} (h : Aligned clock state)
    (hle : clock ≤ now) : Aligned now state := by
  cases state with
  | fetching market start => exact ⟨h.1, h.1.le_floorHour.mpr ((h.1.le_floorHour.mp h.2).trans hle)⟩
  | _ => exact h

theorem Aligned.step {p p' : Poller} {event : PollEvent} (h : Aligned p.clock p.state)
    (hstep : p.step event = some p') : Aligned p'.clock p'.state := by
  cases step_does hstep with
  | advance hnow => exact h.later hnow
  | restart backfillStart => exact trivial
  | fail => exact trivial
  | poll market => exact loopFrom_aligned _ _ _ _
  | checkHour hat =>
    rw [hat] at h
    dsimp only
    split_ifs with hclosed
    · exact ⟨h, of_decide_eq_true hclosed⟩
    · exact trivial
  | request hat =>
    rw [hat] at h
    obtain ⟨⟨hgrid, -⟩, hle⟩ := h
    have hsecs := DateTime.secs_le hle
    rw [floorHour_secs] at hsecs
    exact ⟨hgrid, hsecs⟩
  | response hat =>
    rename_i body
    cases hparse : parseFundingsResponse body <;> exact trivial
  | validate hat =>
    rename_i start rows
    cases hvalid : validatePage start p.clock rows <;> exact trivial
  | insert hat =>
    unfold insertPage
    split <;> exact trivial
  | next hat =>
    dsimp only
    split_ifs
    · exact trivial
    · exact loopFrom_aligned _ _ _ _

theorem run_first_request {p : Poller} (hidle : p.state = .idle) {market : PerpMarket}
    {start now later : DateTime} (hstart : p.Starts market start) (hnow : p.clock ≤ now)
    (hlater : now ≤ later) (hclosed : hourClosed start now) :
    p.run [.poll market, .advance now, .checkHour, .advance later, .request] =
      some { p with
        clock := later
        state := .requested market start (fundingRequest market start later) } := by
  unfold Starts at hstart
  simp [run, step, hidle, hstart, loopFrom, hnow, hclosed, hlater]

end Poller

/-- The endpoint rounds the start of a window up and its end down to the hour: no request is
sent for which that leaves an end before the start, and the first one is sent as soon as an
hour to ask for has closed. -/
theorem requests_stay_in_window {p : Poller} (hidle : p.state = .idle) :
    (∀ events p', p.run events = some p' → ∀ market start request,
      p'.state = .requested market start request →
        request.startTimestamp % 3600 = 0 ∧
          request.startTimestamp ≤ request.endTimestamp - request.endTimestamp % 3600) ∧
    (∀ market newestStored, newestFundingTime market.symbolId p.table = newestStored →
      (∀ time ∈ newestStored, time.nanos = 0 ∧ WithinMargin time) → WithinMargin p.backfillStart →
        ∀ now later, p.clock ≤ now → now ≤ later →
          (∃ hour ∈ Due newestStored p.backfillStart, hour ≤ now) →
            ∃ p' start, p.run [.poll market, .advance now, .checkHour, .advance later, .request] = some p' ∧
              p'.state = .requested market start (fundingRequest market start later)) := by
  constructor
  · intro events p' hrun market start request hat
    have haligned : Poller.Aligned p'.clock p'.state := by
      apply Poller.run_keeps (fun p => Poller.Aligned p.clock p.state)
        (fun _ _ _ h hstep => h.step hstep) _ hrun
      rw [hidle]
      exact trivial
    rw [hat] at haligned
    exact haligned
  · rintro market _ rfl hwhole hbackfill now later hnow hlater hdue
    obtain ⟨start, hstart⟩ := nextRequestStart_isSome (fun time htime => (hwhole time htime).2) hbackfill
    have hleast := nextRequestStart_isLeast (fun time htime => (hwhole time htime).1) hstart
    have hclosed := (hourClosed_iff hleast).mpr hdue
    exact ⟨_, start, Poller.run_first_request hidle hstart hnow hlater hclosed, rfl⟩

end

theorem sample_request_in_window : letI := wholeNumbers;
    (∃ p request, (Poller.start sampleHour sampleHour).run
        [.advance sampleClock, .poll sampleMarket, .checkHour, .request] = some p ∧
      p.state = .requested sampleMarket sampleHour request ∧ request.endTimestamp = 1790420523 ∧
      request.startTimestamp ≤ request.endTimestamp - request.endTimestamp % 3600) ∧
    ∃ p start, (Poller.start sampleHour sampleHour).run
        [.poll sampleMarket, .advance sampleClock, .checkHour, .advance sampleClock, .request] = some p ∧
      p.state = .requested sampleMarket start (fundingRequest sampleMarket start sampleClock) := by
  let := wholeNumbers
  have hidle : (Poller.start sampleHour sampleHour).state = .idle := rfl
  have hrun : (Poller.start sampleHour sampleHour).run
      [.advance sampleClock, .poll sampleMarket, .checkHour, .request] = some _ := rfl
  obtain ⟨hsafe, hlive⟩ := @requests_stay_in_window wholeNumbers _ hidle
  constructor
  · exact ⟨_, _, hrun, rfl, rfl, (hsafe _ _ hrun _ _ _ rfl).2⟩
  · exact hlive sampleMarket none rfl (fun time htime => nomatch htime) (by decide) sampleClock sampleClock
      (by decide) (by decide) ⟨sampleHour, ⟨by decide, le_refl _⟩, by decide⟩

end LighterIngestor
