import LighterIngestor.Base.Segments
import LighterIngestor.NonceChain
import LighterIngestor.Replay
import LighterIngestor.Retention

namespace LighterIngestor

open Segments

variable [NumberTypes]

/-- The rows that one connection has stored of a symbol, up to any point. -/
def TrackRows (symbol : ℤ) (rows : List OrderbookMessageRow) : Prop :=
  ∃ track held marked, Track symbol none track held marked ∧ rows = marked.map Prod.snd

theorem Track.of_prefix {symbol : ℤ} {held last : Option MarketBook} {events : List MarketEvent}
    {rows first : List (Bool × OrderbookMessageRow)} (h : Track symbol held events last rows)
    (hfirst : first <+: rows) : ∃ events' last', Track symbol held events' last' first := by
  induction h generalizing first with
  | nil held =>
    rw [List.prefix_nil.mp hfirst]
    exact ⟨[], held, .nil held⟩
  | @message held last message next events rows haccepts hrest ih =>
    rcases List.prefix_cons_iff.mp hfirst with rfl | ⟨rest, rfl, hrest'⟩
    · exact ⟨[], held, .nil held⟩
    · obtain ⟨events', last', htrack⟩ := ih hrest'
      exact ⟨_, last', .message haccepts htrack⟩
  | @tick market last events rows hrest ih =>
    rcases List.prefix_cons_iff.mp hfirst with rfl | ⟨rest, rfl, hrest'⟩
    · exact ⟨[], _, .nil _⟩
    · obtain ⟨events', last', htrack⟩ := ih hrest'
      exact ⟨_, last', .tick htrack⟩
  | silent hrest ih => exact ih hfirst

theorem TrackRows.of_prefix {symbol : ℤ} (rows first : List OrderbookMessageRow)
    (h : TrackRows symbol rows) (hfirst : first <+: rows) : TrackRows symbol first := by
  obtain ⟨track, held, marked, htrack, rfl⟩ := h
  obtain ⟨cut, hcut, rfl⟩ := List.prefix_map_iff.mp hfirst
  obtain ⟨track', held', htrack'⟩ := htrack.of_prefix hcut
  exact ⟨track', held', cut, htrack', rfl⟩

theorem symbolRows_eq (symbol : ℤ) (sent : List WriteMsg) :
    symbolRows symbol sent = ofSymbol symbol (orderbookRows sent) := by
  rw [symbolRows, orderbookRows, ofSymbol, List.filter_filterMap]
  congr 1
  funext message
  cases message with
  | trade row => rfl
  | orderbook row =>
    simp only [Option.filter_some, decide_eq_true_eq]

theorem made_marked {symbol : ℤ} {rows : List OrderbookMessageRow} (h : Made (TrackRows symbol) rows) :
    ∃ segments : List (List (Bool × OrderbookMessageRow)),
      (∀ marked ∈ segments, ∃ track held, Track symbol none track held marked) ∧
        rows = segments.flatten.map Prod.snd := by
  refine h.rule (q := fun rows => ∃ segments : List (List (Bool × OrderbookMessageRow)),
    (∀ marked ∈ segments, ∃ track held, Track symbol none track held marked) ∧
      rows = segments.flatten.map Prod.snd) ⟨[], by simp, rfl⟩ ?_
  rintro s rest ⟨track, held, marked, htrack, rfl⟩ ⟨segments, hsegments, rfl⟩
  refine ⟨marked :: segments, ?_, by simp⟩
  intro other hother
  rcases List.mem_cons.mp hother with rfl | hother
  · exact ⟨track, held, htrack⟩
  · exact hsegments other hother

theorem made_of_marked {symbol : ℤ} {segments : List (List (Bool × OrderbookMessageRow))}
    (h : ∀ marked ∈ segments, ∃ track held, Track symbol none track held marked) :
    Made (TrackRows symbol) (segments.flatten.map Prod.snd) := by
  refine ⟨segments.map (List.map Prod.snd), ?_, List.map_flatten⟩
  intro rows hrows
  obtain ⟨marked, hmarked, rfl⟩ := List.mem_map.mp hrows
  obtain ⟨track, held, htrack⟩ := h marked hmarked
  exact ⟨track, held, marked, htrack, rfl⟩

theorem collect_made {config : Config} {m symbol : ℤ}
    (hm : config.symbolCache.map.lookup m = some symbol) (connections : List Connection) :
    Made (TrackRows symbol)
      (ofSymbol symbol (orderbookRows (collect config (.start none) connections).sent)) := by
  obtain ⟨segments, hsegments, hrows⟩ := collect_tracks hm (.start none) connections
  rw [← symbolRows_eq, hrows]
  exact made_of_marked hsegments

theorem Life.unknown_symbol (life : Life) {symbol : ℤ}
    (hnone : ∀ m, life.config.symbolCache.map.lookup m ≠ some symbol) : ofSymbol symbol life.messages = [] := by
  rw [ofSymbol, List.filter_eq_nil_iff]
  intro row hrow
  obtain ⟨new, hsent, hnew⟩ := collect_emits life.config (.start none) life.connections
  have hmem := life.messagesSent.subset hrow
  rw [hsent] at hmem
  obtain ⟨message, hmessage, hmessagerow⟩ := List.mem_filterMap.mp hmem
  obtain ⟨m, hm⟩ := hnew message (by simpa [Channel.start] using hmessage)
  cases message with
  | trade => cases hmessagerow
  | orderbook stored =>
    cases hmessagerow
    intro heq
    exact hnone m (hm.trans (congrArg some (of_decide_eq_true heq)))

/-- The stored rows of a symbol are tracks of its market, whichever processes wrote them and
wherever these were cut off. -/
theorem Stored.tracks {db : Tables} {lives : List Life} (h : Stored db lives) (symbol : ℤ) :
    Made (TrackRows symbol) (ofSymbol symbol db.messages) := by
  rw [h.messages, ofSymbol, List.filter_flatMap]
  refine Made.flatMap fun life _ => ?_
  by_cases hknown : ∃ m, life.config.symbolCache.map.lookup m = some symbol
  · obtain ⟨m, hm⟩ := hknown
    have hmade := collect_made hm life.connections
    exact Made.of_prefix TrackRows.of_prefix hmade (life.messagesSent.filter _)
  · rw [not_exists] at hknown
    have hnone : life.messages.filter (fun row => row.symbol = symbol) = [] :=
      life.unknown_symbol hknown
    rw [hnone]
    exact .nil

end LighterIngestor
