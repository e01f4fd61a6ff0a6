import LighterIngestor.HourGrid
import LighterIngestor.Poller

namespace LighterIngestor

def FundingRequest.window (request : FundingRequest) (settled : List DateTime) : List DateTime :=
  settled.filter fun t => request.startTimestamp ≤ t.timestamp ∧ t.timestamp ≤ request.endTimestamp

/-- On the grid, the settlements asked for are the first of those from the start on. -/
theorem FundingRequest.window_prefix {settled : List DateTime} (hgrowing : settled.Pairwise (· < ·))
    (hwhole : ∀ t ∈ settled, WholeHour t) {start : DateTime} (hstart : WholeHour start)
    {request : FundingRequest} (hrequest : request.startTimestamp = start.timestamp) :
    request.window settled <+: settled.filter (fun t => start ≤ t) := by
  have hwindow : request.window settled =
      (settled.filter (fun t => start ≤ t)).filter (fun t => t.timestamp ≤ request.endTimestamp) := by
    rw [List.filter_filter]
    refine List.filter_congr fun t ht => ?_
    have hfrom : start ≤ t ↔ request.startTimestamp ≤ t.timestamp := by
      have hnanos := (hwhole t ht).2
      have hnanos' := hstart.2
      rw [DateTime.le_iff, hrequest, DateTime.timestamp, DateTime.timestamp]
      omega
    simp only [hfrom, Bool.decide_and, Bool.and_comm]
  rw [hwindow]
  refine Growing.filter_prefix (hgrowing.filter _) ?_
  intro t u htu hu
  simp only [decide_eq_true_eq] at hu ⊢
  exact (DateTime.secs_le htu.le).trans hu

variable [NumberTypes]

/-- What the response lists, if it can be read, is a prefix of what was asked for. -/
def Answers (settled : List DateTime) (request : FundingRequest) (body : Except String FundingsResponse) :
    Prop :=
  ∀ rows, parseFundingsResponse body = .ok rows → rows.map SettledFunding.time <+: request.window settled

/-- The poller beside the settlements of one symbol so far, and the start of its series:
the whole hour of the backfill start that its first row was stored under. -/
structure Collection where
  poller : Poller
  settled : List DateTime
  origin : Option DateTime

namespace Collection

def start (clock backfillStart : DateTime) : Collection :=
  { poller := .start clock backfillStart, settled := [], origin := none }

/-- Requests for the symbol are answered from its settlements; other markets answer as they like. -/
def Honest (symbol : ℤ) (c : Collection) (event : PollEvent) : Prop :=
  ∀ market start request body, c.poller.state = .requested market start request → event = .response body →
    market.symbolId = symbol → Answers c.settled request body

def next (symbol : ℤ) (c : Collection) (poller : Poller) : Collection :=
  { c with
    poller
    origin :=
      if timesOf symbol c.poller.table = [] ∧ timesOf symbol poller.table ≠ [] then
        ceilHour c.poller.backfillStart
      else c.origin }

/-- A market settles on whole hours, each time later than before, while the poller goes its way. -/
inductive Step (symbol : ℤ) (c : Collection) : Collection → Prop
  | settle {t : DateTime} (hgrid : WholeHour t) (hlater : ∀ u ∈ c.settled, u < t) :
      Step symbol c { c with settled := c.settled ++ [t] }
  | poller {event : PollEvent} {p : Poller} (hhonest : c.Honest symbol event)
      (hstep : c.poller.step event = some p) : Step symbol c (c.next symbol p)

inductive Reachable (symbol : ℤ) : Collection → Prop
  | start (clock backfillStart : DateTime) : Reachable symbol (start clock backfillStart)
  | step {c c' : Collection} (h : Reachable symbol c) (hstep : Step symbol c c') : Reachable symbol c'

end Collection

end LighterIngestor
