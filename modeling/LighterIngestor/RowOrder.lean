import LighterIngestor.Base.TimedLog
import LighterIngestor.MarketRuns

namespace LighterIngestor

/-- Sorting the rows of a symbol by `(time, id)` gives the order in which they were written,
whatever increasing ids they got, and their times never decrease. -/
def ReplayOrdered (rows : List OrderbookMessageRow) : Prop :=
  rows.Pairwise (fun a b => a.time ≤ b.time) ∧
    ∀ ids : List ℕ, ids.Pairwise (· < ·) → ids.length = rows.length →
      (ids.zip rows).mergeSort (TimedLog.readOrder OrderbookMessageRow.time) = ids.zip rows

theorem replayOrdered_iff (rows : List OrderbookMessageRow) :
    ReplayOrdered rows ↔ (rows.map OrderbookMessageRow.time).IsChain (· ≤ ·) := by
  rw [List.isChain_iff_pairwise, List.pairwise_map]
  refine ⟨fun h => h.1, fun h => ⟨h, fun ids hids hlength => ?_⟩⟩
  apply (TimedLog.mergeSort_eq_self_iff _ _).mpr
  · rwa [List.map_snd_zip (le_of_eq hlength.symm)]
  · rwa [List.map_fst_zip (le_of_eq hlength)]

def OrderBookWsMessage.isSubscribed : OrderBookWsMessage → Bool
  | .subscribed .. => true
  | .update .. => false

/-- A snapshot message must not carry a source time before that of its predecessor. -/
def SnapshotFollows (previous next : OrderBookWsMessage) : Prop :=
  next.isSubscribed = true → previous.lastUpdatedAt ≤ next.lastUpdatedAt

theorem isChain_optional {α : Type} {r : α → α → Prop} {previous : Option α} {x : α} {xs : List α} :
    (previous.toList ++ x :: xs).IsChain r ↔ (∀ p ∈ previous, r p x) ∧ (x :: xs).IsChain r := by
  cases previous with
  | none => simp
  | some p => simp [List.isChain_cons_cons]

section

variable [NumberTypes]

/-- The last message of a market so far, if any, and the source time it stands for. -/
inductive Stamped : Option OrderBookWsMessage → Option DateTime → Prop where
  | none : Stamped none none
  | some {message : OrderBookWsMessage} {time : DateTime}
      (h : DateTime.fromTimestampMicros message.lastUpdatedAt = some time) :
      Stamped (some message) (some time)

/-- Only a snapshot message can break the order of the times: a delta is compared with the
book it continues and a tick repeats the time of its book. `moreTimes` and `moreMessages`
are what the connections after this one add. -/
theorem Track.times_iff {symbol : ℤ} {held last : Option MarketBook} {events : List MarketEvent}
    {rows : List (Bool × OrderbookMessageRow)} (h : Track symbol held events last rows)
    {moreTimes : List DateTime} {moreMessages : List OrderBookWsMessage}
    (hmore : ∀ previous time, Stamped previous time →
      ((time.toList ++ moreTimes).IsChain (· ≤ ·) ↔
        (previous.toList ++ moreMessages).IsChain SnapshotFollows))
    {previous : Option OrderBookWsMessage} {time : Option DateTime} (hstamped : Stamped previous time)
    (hheld : ∀ market ∈ held, time = some market.sourceTime) :
    (time.toList ++ (rows.map (fun row => row.2.time) ++ moreTimes)).IsChain (· ≤ ·) ↔
      (previous.toList ++ (messagesOf events ++ moreMessages)).IsChain SnapshotFollows := by
  induction h generalizing previous time with
  | nil => exact hmore previous time hstamped
  | @message held last message next events rows haccepts hrest ih =>
    have htail := ih (.some haccepts.time) (by simp)
    have hhead : (∀ p ∈ time, p ≤ next.sourceTime) ↔
        ∀ p ∈ previous, SnapshotFollows p message := by
      cases haccepts with
      | snapshot htime hbook =>
        cases hstamped with
        | none => simp
        | some hprevious =>
          simp only [Option.mem_some_iff, forall_eq', SnapshotFollows,
            OrderBookWsMessage.isSubscribed, true_implies]
          exact DateTime.fromTimestampMicros_le hprevious htime
      | @delta market channel micros levels time' book hnonce htime hlate hbook =>
        rw [hheld market rfl]
        simp only [Option.mem_some_iff, forall_eq', SnapshotFollows,
          OrderBookWsMessage.isSubscribed, Bool.false_eq_true, false_implies, implies_true]
        exact iff_true_intro hlate
    rw [List.map_cons, List.cons_append, messagesOf_message, List.cons_append, isChain_optional,
      isChain_optional]
    exact and_congr hhead htail
  | @tick market last events rows hrest ih =>
    obtain rfl := hheld market rfl
    have htail := ih hstamped (by simp)
    rw [messagesOf_tick, List.map_cons, List.cons_append]
    exact List.isChain_cons_cons.trans ((and_iff_right (le_refl _)).trans htail)
  | silent hrest ih => exact ih hstamped (by simp)

/-- The messages of a market that the connections handle without an error, in order. -/
def acceptedMessages (config : Config) (m : ℤ) :
    Channel WriteMsg → List Connection → List OrderBookWsMessage
  | _, [] => []
  | tx, connection :: rest =>
    messagesOf ((connectionEvents config tx connection).filterMap (Event.project m)) ++
      acceptedMessages config m (runWsIngestion config tx connection).1.tx rest

theorem collect_times_iff {config : Config} {m symbol : ℤ}
    (hm : config.symbolCache.map.lookup m = some symbol) (tx : Channel WriteMsg)
    (connections : List Connection) :
    ∃ rows, symbolRows symbol (collect config tx connections).sent = symbolRows symbol tx.sent ++ rows ∧
      ∀ previous time, Stamped previous time →
        ((time.toList ++ rows.map OrderbookMessageRow.time).IsChain (· ≤ ·) ↔
          (previous.toList ++ acceptedMessages config m tx connections).IsChain SnapshotFollows) := by
  induction connections generalizing tx with
  | nil =>
    refine ⟨[], by simp [collect], fun previous time h => ?_⟩
    cases h <;> simp [acceptedMessages]
  | cons connection rest ih =>
    rcases hrun : runWsIngestion config tx connection with ⟨s, result⟩
    obtain ⟨hsent, track, held, htrack, hmessages, -⟩ := connection_tracks hm hrun
    obtain ⟨more, hrows, hmore⟩ := ih s.tx
    have hcollect : collect config tx (connection :: rest) = collect config s.tx rest := by
      simp only [collect, List.foldl_cons, hrun]
    refine ⟨(rowsOf symbol (connectionLog config tx connection)).map Prod.snd ++ more, ?_, ?_⟩
    · rw [hcollect, hrows, hsent, symbolRows_append, ← rowsOf_snd, List.append_assoc]
    · intro previous time hstamped
      rw [acceptedMessages, hrun, ← hmessages, List.map_append, List.map_map]
      exact htrack.times_iff hmore hstamped (by simp)

/-- The stored order is the order of application exactly when no snapshot message goes back
behind the message handled for its market before it, on this or an earlier connection. -/
theorem replay_order_iff (config : Config) {m symbol : ℤ}
    (hm : config.symbolCache.map.lookup m = some symbol) (lifetime : Option ℕ)
    (connections : List Connection) :
    ReplayOrdered (symbolRows symbol (collect config (.start lifetime) connections).sent) ↔
      (acceptedMessages config m (.start lifetime) connections).IsChain SnapshotFollows := by
  obtain ⟨rows, hrows, hiff⟩ := collect_times_iff hm (.start lifetime) connections
  rw [hrows, replayOrdered_iff]
  exact hiff none none .none

/-- Two connections; the snapshot of the second is a microsecond older than that of the first. -/
def reconnectToOlder : List Connection :=
  [⟨none, [.orderbook (.subscribed "order_book:7" 1790015233367788 ⟨1, 10, 0, [], []⟩)]⟩,
    ⟨none, [.orderbook (.subscribed "order_book:7" 1790015233367787 ⟨2, 11, 0, [], []⟩)]⟩]

end

theorem reconnect_breaks_order : letI := wholeNumbers;
    ¬ ReplayOrdered (symbolRows 3 (collect sampleConfig (.start none) reconnectToOlder).sent) := by
  intro h
  exact absurd h.1 (by decide)

theorem reconnect_keeps_order : letI := wholeNumbers;
    ReplayOrdered
      (symbolRows 3 (collect sampleConfig (.start none) reconnectToOlder.reverse).sent) := by
  apply (@replay_order_iff wholeNumbers sampleConfig 7 3 rfl none _).mpr
  exact List.isChain_cons_cons.mpr ⟨by intro _; decide, .singleton _⟩

end LighterIngestor
