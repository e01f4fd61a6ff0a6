import LighterIngestor.MarketProjection

namespace LighterIngestor

variable [NumberTypes]

theorem project_cons (m : ℤ) (event : Event) (rest : List Event) :
    (event :: rest).filterMap (Event.project m) =
      (event.project m).toList ++ rest.filterMap (Event.project m) := by
  rw [List.filterMap_cons]
  cases event.project m <;> rfl

/-- Every run of the loop is, for each of its markets, a track of that market. -/
theorem run_tracks {config : Config} {m symbol : ℤ}
    (hm : config.symbolCache.map.lookup m = some symbol) {s s' : Session} {events : List Event}
    {result : Except WsError Unit} (h : runEvents config s events = (s', result)) :
    s'.tx.sent = s.tx.sent ++ (emissions config s events).map Prod.snd ∧
      ∃ track held, Track symbol (s.markets.lookup m) track held
          (rowsOf symbol (emissions config s events)) ∧
        messagesOf track = messagesOf ((processed config s events).filterMap (Event.project m)) ∧
        (result = .ok () →
          track = events.filterMap (Event.project m) ∧ held = s'.markets.lookup m) := by
  induction events generalizing s with
  | nil =>
    cases h
    exact ⟨by simp [emissions], [], _, .nil _, rfl, fun _ => ⟨rfl, rfl⟩⟩
  | cons event rest ih =>
    rcases hstep : step config s event with ⟨mid, r⟩
    obtain ⟨new, hsent, first, held, htrack, hok, hfail⟩ := step_tracks hm hstep
    have hdrop : mid.tx.sent.drop s.tx.sent.length = new := by rw [hsent, List.drop_left]
    cases r with
    | error e =>
      have hlog : emissions config s (event :: rest) = new.map (event.isTick, ·) := by
        simp only [emissions, hstep, hdrop, List.append_nil]
      rw [runEvents, hstep] at h
      cases h
      refine ⟨?_, first, held, ?_, ?_, by simp⟩
      · rw [hsent, hlog, List.map_map]
        simp [Function.comp_def]
      · rw [hlog, rowsOf_mark]
        exact htrack
      · rw [hfail (by simp), processed, hstep]
        rfl
    | ok u =>
      have hlog : emissions config s (event :: rest) =
          new.map (event.isTick, ·) ++ emissions config mid rest := by
        simp only [emissions, hstep, hdrop]
      rw [runEvents, hstep] at h
      obtain ⟨hsent', track, last, hrest, hmessages, hend⟩ := ih h
      obtain ⟨rfl, rfl⟩ := hok rfl
      refine ⟨?_, (event.project m).toList ++ track, last, ?_, ?_, fun hr => ?_⟩
      · rw [hsent', hsent, hlog, List.map_append, List.map_map, List.append_assoc]
        simp [Function.comp_def]
      · rw [hlog, rowsOf_append, rowsOf_mark]
        exact htrack.append hrest
      · rw [processed, hstep, messagesOf_append, hmessages, project_cons, messagesOf_append]
      · obtain ⟨rfl, rfl⟩ := hend hr
        exact ⟨(project_cons m event rest).symm, rfl⟩

/-- The messages a connection sends to the writer, those of a snapshot tick marked. -/
def connectionLog (config : Config) (tx : Channel WriteMsg) (connection : Connection) :
    List (Bool × WriteMsg) :=
  match sendClients ⟨∅, tx, .start connection.writeLifetime⟩ (subscriptions config) with
  | (_, .error _) => []
  | (s, .ok ()) => emissions config s connection.events

/-- The events a connection handles without an error. -/
def connectionEvents (config : Config) (tx : Channel WriteMsg) (connection : Connection) :
    List Event :=
  match sendClients ⟨∅, tx, .start connection.writeLifetime⟩ (subscriptions config) with
  | (_, .error _) => []
  | (s, .ok ()) => processed config s connection.events

/-- The subscriptions come before any message, so that the loop starts without a book. -/
theorem subscribed_cases (config : Config) (tx : Channel WriteMsg) (connection : Connection) :
    (∃ start e, sendClients ⟨∅, tx, .start connection.writeLifetime⟩ (subscriptions config) =
        (start, .error e) ∧ start.tx = tx) ∨
      ∃ start, sendClients ⟨∅, tx, .start connection.writeLifetime⟩ (subscriptions config) =
        (start, .ok ()) ∧ start.markets = ∅ ∧ start.tx = tx := by
  have hframe := sendClients_frame ⟨∅, tx, .start connection.writeLifetime⟩ (subscriptions config)
  rcases hsub : sendClients ⟨∅, tx, .start connection.writeLifetime⟩ (subscriptions config)
    with ⟨start, e | u⟩
  · rw [hsub] at hframe
    exact Or.inl ⟨start, e, rfl, hframe.2⟩
  · rw [hsub] at hframe
    exact Or.inr ⟨start, rfl, hframe.1, hframe.2⟩

theorem connection_tracks {config : Config} {m symbol : ℤ}
    (hm : config.symbolCache.map.lookup m = some symbol) {tx : Channel WriteMsg} {s : Session}
    {connection : Connection} {result : Except WsError Unit}
    (h : runWsIngestion config tx connection = (s, result)) :
    s.tx.sent = tx.sent ++ (connectionLog config tx connection).map Prod.snd ∧
      ∃ track held, Track symbol none track held (rowsOf symbol (connectionLog config tx connection)) ∧
        messagesOf track =
          messagesOf ((connectionEvents config tx connection).filterMap (Event.project m)) ∧
        (result = .ok () →
          track = connection.events.filterMap (Event.project m) ∧ held = s.markets.lookup m) := by
  unfold runWsIngestion at h
  unfold connectionLog connectionEvents
  rcases subscribed_cases config tx connection with ⟨start, e, hsub, htx⟩ | ⟨start, hsub, hmarkets, htx⟩
  · rw [hsub] at h ⊢
    cases h
    exact ⟨by simp [htx], [], none, .nil none, rfl, by simp⟩
  · rw [hsub] at h ⊢
    have hrun := run_tracks hm h
    rw [hmarkets, htx] at hrun
    exact hrun

/-- The rows of a symbol over any number of connections: one track after another. -/
theorem collect_tracks {config : Config} {m symbol : ℤ}
    (hm : config.symbolCache.map.lookup m = some symbol) (tx : Channel WriteMsg)
    (connections : List Connection) :
    ∃ segments : List (List (Bool × OrderbookMessageRow)),
      (∀ rows ∈ segments, ∃ track held, Track symbol none track held rows) ∧
        symbolRows symbol (collect config tx connections).sent =
          symbolRows symbol tx.sent ++ segments.flatten.map Prod.snd := by
  induction connections generalizing tx with
  | nil => exact ⟨[], by simp, by simp [collect]⟩
  | cons connection rest ih =>
    rcases hrun : runWsIngestion config tx connection with ⟨s, result⟩
    obtain ⟨hsent, track, held, htrack, -, -⟩ := connection_tracks hm hrun
    obtain ⟨segments, hsegments, hrows⟩ := ih s.tx
    refine ⟨rowsOf symbol (connectionLog config tx connection) :: segments, ?_, ?_⟩
    · intro rows hmem
      rcases List.mem_cons.mp hmem with rfl | hmem
      · exact ⟨track, held, htrack⟩
      · exact hsegments rows hmem
    · have hcollect : collect config tx (connection :: rest) = collect config s.tx rest := by
        simp only [collect, List.foldl_cons, hrun]
      rw [hcollect, hrows, hsent, symbolRows_append, ← rowsOf_snd, List.flatten_cons,
        List.map_append, List.append_assoc]

end LighterIngestor
