import LighterIngestor.HourGrid
import LighterIngestor.PriceBook

namespace LighterIngestor

def fundingResolution : String := "1h"

def maxFundingsPerCall : ℕ := 750

structure Funding where
  timestamp : ℤ
  rate : String
  direction : String
  deriving DecidableEq

structure FundingsResponse where
  code : ℤ
  resolution : String
  fundings : List Funding
  deriving DecidableEq

/-- The errors of a poll; the arguments are what their texts show. -/
inductive FundingError where
  | parsing (cause : String)
  | code (code : ℤ)
  | resolution (resolution : String)
  | outOfRange (timestamp : ℤ)
  | rate (rate : String) (time : DateTime) (cause : String)
  | emptyDirection (time : DateTime)
  | beforeStart (time start : DateTime)
  | notIncreasing (time previous : DateTime)
  | afterNow (time now : DateTime)
  deriving DecidableEq

variable [NumberTypes]

structure SettledFunding where
  time : DateTime
  rate : BigDecimal
  direction : String

/-- The closure of `parse_fundings_response`. -/
def settledFunding (funding : Funding) : Except FundingError SettledFunding :=
  match DateTime.fromTimestamp funding.timestamp 0 with
  | none => .error (.outOfRange funding.timestamp)
  | some time =>
    match NumberTypes.fromStr funding.rate with
    | .error e => .error (.rate funding.rate time e)
    | .ok rate =>
      if funding.direction.isEmpty then .error (.emptyDirection time)
      else .ok { time, rate, direction := funding.direction }

/-- `collect` into a `Result`: the first error wins. -/
def collectFundings : List Funding → Except FundingError (List SettledFunding)
  | [] => .ok []
  | funding :: rest =>
    match settledFunding funding with
    | .error e => .error e
    | .ok row =>
      match collectFundings rest with
      | .error e => .error e
      | .ok rows => .ok (row :: rows)

/-- `parse_fundings_response` on what serde makes of the body. -/
def parseFundingsResponse (body : Except String FundingsResponse) :
    Except FundingError (List SettledFunding) :=
  match body with
  | .error e => .error (.parsing e)
  | .ok resp =>
    if resp.code ≠ 200 then .error (.code resp.code)
    else if resp.resolution ≠ fundingResolution then .error (.resolution resp.resolution)
    else collectFundings resp.fundings

/-- The loop of `validate_page`. -/
def validateRows (start now : DateTime) : Option DateTime → List SettledFunding → Except FundingError Unit
  | _, [] => .ok ()
  | previous, row :: rest =>
    if row.time < start then .error (.beforeStart row.time start)
    else
      match previous.filter (fun previous => row.time ≤ previous) with
      | some previous => .error (.notIncreasing row.time previous)
      | none =>
        if now < row.time then .error (.afterNow row.time now)
        else validateRows start now (some row.time) rest

def validatePage (start now : DateTime) (rows : List SettledFunding) : Except FundingError Unit :=
  validateRows start now none rows

theorem settledFunding_time {funding : Funding} {row : SettledFunding}
    (h : settledFunding funding = .ok row) : row.time.secs = funding.timestamp ∧ row.time.nanos = 0 := by
  unfold settledFunding at h
  split at h
  · cases h
  · rename_i time htime
    split at h
    · cases h
    · split_ifs at h
      cases h
      exact DateTime.fromTimestamp_eq_some.mp htime

theorem parse_whole_seconds {body : Except String FundingsResponse} {rows : List SettledFunding}
    (h : parseFundingsResponse body = .ok rows) : ∀ row ∈ rows, row.time.nanos = 0 := by
  have hcollect : ∀ (fundings : List Funding) (rows : List SettledFunding),
      collectFundings fundings = .ok rows → ∀ row ∈ rows, row.time.nanos = 0 := by
    intro fundings
    induction fundings with
    | nil =>
      rintro rows h
      cases h
      simp
    | cons funding rest ih =>
      intro rows h
      rw [collectFundings] at h
      split at h
      · cases h
      · rename_i row hrow
        split at h
        · cases h
        · rename_i more hmore
          cases h
          exact List.forall_mem_cons.mpr ⟨(settledFunding_time hrow).2, ih more hmore⟩
  unfold parseFundingsResponse at h
  split at h
  · cases h
  · split_ifs at h
    exact hcollect _ _ h

theorem validateRows_ok {start now : DateTime} {previous : Option DateTime} {rows : List SettledFunding} :
    validateRows start now previous rows = .ok () ↔
      (∀ row ∈ rows, start ≤ row.time ∧ row.time ≤ now) ∧
        (previous.toList ++ rows.map SettledFunding.time).IsChain (· < ·) := by
  induction rows generalizing previous with
  | nil => cases previous <;> simp [validateRows]
  | cons row rest ih =>
    rw [validateRows]
    by_cases hstart : row.time < start
    · simp [hstart]
    · rw [if_neg hstart]
      cases previous with
      | none =>
        by_cases hnow : now < row.time
        · simp [hnow]
        · simp [hnow, ih, not_lt.mp hstart, not_lt.mp hnow]
      | some previous =>
        by_cases hincreasing : row.time ≤ previous
        · simp [Option.filter, hincreasing, List.isChain_cons_cons]
        · by_cases hnow : now < row.time
          · simp [Option.filter, hincreasing, hnow]
          · simp [Option.filter, hincreasing, hnow, ih, not_lt.mp hstart, not_lt.mp hnow,
              List.isChain_cons_cons, not_le.mp hincreasing]

/-- An accepted page lies between the start and the clock, in strictly increasing order. -/
theorem validatePage_ok {start now : DateTime} {rows : List SettledFunding} :
    validatePage start now rows = .ok () ↔
      (∀ row ∈ rows, start ≤ row.time ∧ row.time ≤ now) ∧
        (rows.map SettledFunding.time).Pairwise (· < ·) := by
  rw [validatePage, validateRows_ok, List.isChain_iff_pairwise]
  rfl

end LighterIngestor
