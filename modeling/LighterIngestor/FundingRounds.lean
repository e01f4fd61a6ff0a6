import Mathlib.Data.List.Sort
import LighterIngestor.Paging
import LighterIngestor.SymbolHistory

namespace LighterIngestor

def loadPerpMarkets (table : SymbolTable) : List PerpMarket :=
  ((table.rows.filter (fun row => row.marketType = "perp")).insertionSort
    (fun a b => a.lighterMarketId ≤ b.lighterMarketId)).map
    fun row => { symbolId := row.id, name := row.name, lighterMarketId := row.lighterMarketId }

theorem mem_loadPerpMarkets {table : SymbolTable} {market : PerpMarket} :
    market ∈ loadPerpMarkets table ↔
      ∃ row ∈ table.rows, row.marketType = "perp" ∧ ⟨row.id, row.name, row.lighterMarketId⟩ = market := by
  simp [loadPerpMarkets, and_assoc]

variable [NumberTypes]

/-- What `run_funding_poller` is about: the table of its markets, the call of `poll_market` it is
in, and what this round still has to poll. No process runs where the poller has exited. -/
structure FundingLoop where
  symbols : SymbolTable
  poller : Poller
  markets : List PerpMarket
  rest : List PerpMarket

/-- The startup of a process, the calls of a round with the steps of each, and the wait after
it. `drawn` is how many ids a sync has drawn that was rolled back. -/
inductive FundingEvent where
  | start (resp : OrderBooksResponse) (backfillStart : DateTime) (drawn : ℕ)
  | call
  | poll (event : PollEvent)
  | sleep

def PollEvent.isAdvance : PollEvent → Bool
  | .advance _ => true
  | _ => false

namespace FundingLoop

def initial (symbols : SymbolTable) (clock backfillStart : DateTime) : FundingLoop :=
  ⟨symbols, { Poller.start clock backfillStart with state := .exited none }, [], []⟩

/-- `main` as far as funding goes: a failed sync ends the process, and so does an empty list. -/
def start (l : FundingLoop) (resp : OrderBooksResponse) (backfillStart : DateTime) (drawn : ℕ) :
    FundingLoop :=
  match syncSymbols resp l.symbols with
  | .error _ => { l with symbols := l.symbols.skip drawn, poller := { l.poller with state := .exited none } }
  | .ok symbols =>
    { symbols
      markets := loadPerpMarkets symbols
      rest := loadPerpMarkets symbols
      poller :=
        { l.poller with
          backfillStart
          state := if loadPerpMarkets symbols = [] then .exited none else .idle } }

def step (l : FundingLoop) : FundingEvent → Option FundingLoop
  | .start resp backfillStart drawn => some (l.start resp backfillStart drawn)
  | .call =>
    match l.rest with
    | [] => none
    | market :: rest => (l.poller.step (.poll market)).map fun poller => { l with poller, rest }
  | .poll event =>
    if event.ofCall || event.isAdvance then (l.poller.step event).map fun poller => { l with poller }
    else none
  | .sleep =>
    match l.poller.state, l.rest with
    | .idle, [] => some { l with rest := l.markets }
    | _, _ => none

def RoundOver (l : FundingLoop) : Prop := l.poller.state = .idle ∧ l.rest = []

inductive Does (l : FundingLoop) : FundingEvent → FundingLoop → Prop
  | failed (resp backfillStart drawn) : Does l (.start resp backfillStart drawn)
      { l with symbols := l.symbols.skip drawn, poller := { l.poller with state := .exited none } }
  | started {resp backfillStart drawn symbols} (hsync : syncSymbols resp l.symbols = .ok symbols) :
      Does l (.start resp backfillStart drawn)
        { symbols
          markets := loadPerpMarkets symbols
          rest := loadPerpMarkets symbols
          poller :=
            { l.poller with
              backfillStart
              state := if loadPerpMarkets symbols = [] then .exited none else .idle } }
  | call {market rest poller} (hrest : l.rest = market :: rest)
      (hstep : l.poller.step (.poll market) = some poller) : Does l .call { l with poller, rest }
  | poll {event poller} (hevent : event.ofCall || event.isAdvance)
      (hstep : l.poller.step event = some poller) : Does l (.poll event) { l with poller }
  | sleep (hover : l.RoundOver) : Does l .sleep { l with rest := l.markets }

theorem step_does {l l' : FundingLoop} {event : FundingEvent} (h : l.step event = some l') :
    l.Does event l' := by
  cases event with
  | start resp backfillStart drawn =>
    cases h
    unfold start
    split
    · exact .failed resp backfillStart drawn
    · exact .started ‹_›
  | call =>
    simp only [step] at h
    split at h
    · cases h
    · rename_i hrest
      obtain ⟨poller, hstep, rfl⟩ := Option.map_eq_some_iff.mp h
      exact .call hrest hstep
  | poll event =>
    simp only [step] at h
    split_ifs at h with hevent
    obtain ⟨poller, hstep, rfl⟩ := Option.map_eq_some_iff.mp h
    exact .poll hevent hstep
  | sleep =>
    simp only [step] at h
    split at h <;> cases h
    exact .sleep ⟨‹_›, ‹_›⟩

end FundingLoop

end LighterIngestor
