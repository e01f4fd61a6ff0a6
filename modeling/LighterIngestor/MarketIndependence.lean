import LighterIngestor.MarketAlone

namespace LighterIngestor

section

variable [NumberTypes]

/-- Connections over slices of the markets that share the writer's channel. -/
structure Shards (ι : Type) where
  markets : ι → Markets
  write : ι → Channel ClientMessage
  tx : Channel WriteMsg

namespace Shards

variable {ι : Type} [DecidableEq ι]

def session (shards : Shards ι) (i : ι) : Session := ⟨shards.markets i, shards.tx, shards.write i⟩

def turn (configs : ι → Config) (shards : Shards ι) (i : ι) (event : Event) :
    Shards ι × Except WsError Unit :=
  let (s, result) := step (configs i) (shards.session i) event
  (⟨Function.update shards.markets i s.markets, Function.update shards.write i s.write, s.tx⟩, result)

def run (configs : ι → Config) : Shards ι → List (ι × Event) → Shards ι × Except WsError Unit
  | shards, [] => (shards, .ok ())
  | shards, (i, event) :: rest =>
    match shards.turn configs i event with
    | (shards, .error e) => (shards, .error e)
    | (shards, .ok ()) => run configs shards rest

/-- What the connection `i` sees of an interleaving. -/
def eventsOf (i : ι) (turns : List (ι × Event)) : List Event :=
  turns.filterMap fun turn => if turn.1 = i then some turn.2 else none

end Shards

theorem eventsOf_own {ι : Type} [DecidableEq ι] (i : ι) (event : Event) (rest : List (ι × Event)) :
    Shards.eventsOf i ((i, event) :: rest) = event :: Shards.eventsOf i rest := by
  simp [Shards.eventsOf]

theorem eventsOf_other {ι : Type} [DecidableEq ι] {i j : ι} (h : j ≠ i) (event : Event)
    (rest : List (ι × Event)) : Shards.eventsOf i ((j, event) :: rest) = Shards.eventsOf i rest := by
  simp [Shards.eventsOf, h]

/-- The messages of the market `m` all arrive on the connection `i`. -/
def OwnedBy {ι : Type} (m : ℤ) (i : ι) (turns : List (ι × Event)) : Prop :=
  ∀ turn ∈ turns, ∀ message, turn.2.project m = some (.message message) → turn.1 = i

theorem project_foreign {ι : Type} {m : ℤ} {i j : ι} {event : Event} {turns : List (ι × Event)}
    (h : OwnedBy m i ((j, event) :: turns)) (hj : j ≠ i) : messagesOf (event.project m).toList = [] := by
  cases hproject : event.project m with
  | none => rfl
  | some own =>
    cases own with
    | message message => exact absurd (h (j, event) (by simp) message hproject) hj
    | tick => rfl

theorem Track.idle {symbol : ℤ} {held last : Option MarketBook} {events : List MarketEvent}
    {rows : List (Bool × OrderbookMessageRow)} (h : Track symbol held events last rows)
    (hheld : held = none) (hquiet : messagesOf events = []) : last = none ∧ rows = [] := by
  induction h with
  | nil => exact ⟨hheld, rfl⟩
  | message => simp at hquiet
  | tick => cases hheld
  | silent hrest ih => exact ih rfl hquiet

theorem Shards.turn_ok {ι : Type} [DecidableEq ι] {configs : ι → Config} {shards next : Shards ι} {j : ι}
    {event : Event} (h : shards.turn configs j event = (next, .ok ())) :
    ∃ s, step (configs j) (shards.session j) event = (s, .ok ()) ∧ next.markets j = s.markets ∧
      (∀ k ≠ j, next.markets k = shards.markets k) ∧ next.tx = s.tx := by
  unfold Shards.turn at h
  rcases hstep : step (configs j) (shards.session j) event with ⟨s, r⟩
  rw [hstep] at h
  cases h
  exact ⟨s, rfl, Function.update_self .., fun k hk => Function.update_of_ne hk _ _, rfl⟩

theorem Shards.run_cons_ok {ι : Type} [DecidableEq ι] {configs : ι → Config} {shards last : Shards ι}
    {j : ι} {event : Event} {rest : List (ι × Event)} 
    (h : shards.run configs ((j, event) :: rest) = (last, .ok ())) :
    ∃ next, shards.turn configs j event = (next, .ok ()) ∧ next.run configs rest = (last, .ok ()) := by
  rw [Shards.run] at h
  split at h
  · cases h
  · rename_i next hnext
    exact ⟨next, hnext, h⟩

theorem shards_track {ι : Type} [DecidableEq ι] {symbolCache : SymbolCache} {m symbol : ℤ}
    (hm : symbolCache.map.lookup m = some symbol) {marketIds : ι → List ℤ} {i : ι}
    {shards shards' : Shards ι} {turns : List (ι × Event)}
    (h : shards.run (fun j => ⟨marketIds j, symbolCache⟩) turns = (shards', .ok ()))
    (howned : OwnedBy m i turns) (hothers : ∀ j ≠ i, (shards.markets j).lookup m = none) :
    (∃ rows, Track symbol ((shards.markets i).lookup m)
        ((Shards.eventsOf i turns).filterMap (Event.project m)) ((shards'.markets i).lookup m) rows ∧
      symbolRows symbol shards'.tx.sent = symbolRows symbol shards.tx.sent ++ rows.map Prod.snd) ∧
      ∀ j ≠ i, (shards'.markets j).lookup m = none := by
  induction turns generalizing shards with
  | nil =>
    cases h
    exact ⟨⟨[], .nil _, by simp⟩, hothers⟩
  | cons turn rest ih =>
    obtain ⟨j, event⟩ := turn
    have hrest : OwnedBy m i rest := fun turn hturn => howned turn (List.mem_cons_of_mem _ hturn)
    obtain ⟨next, hturn, hrun⟩ := Shards.run_cons_ok h
    obtain ⟨s, hstep, hown, hframe, htx⟩ := Shards.turn_ok hturn
    obtain ⟨new, hsent, events, held, htrack, hok, -⟩ := step_tracks hm hstep
    obtain ⟨rfl, rfl⟩ := hok rfl
    rw [← hown] at htrack
    have hnew : symbolRows symbol next.tx.sent =
        symbolRows symbol shards.tx.sent ++ symbolRows symbol new := by
      rw [htx, hsent, symbolRows_append]
      rfl
    by_cases hj : j = i
    · subst hj
      obtain ⟨⟨rows, hrows, hmore⟩, hlast⟩ := ih hrun hrest fun k hk => by
        rw [hframe k hk, hothers k hk]
      refine ⟨⟨_, eventsOf_own j event rest ▸ project_cons m event _ ▸ htrack.append hrows, ?_⟩, hlast⟩
      · rw [hmore, hnew, List.map_append, List.map_map, List.append_assoc]
        simp [Function.comp_def]
    · obtain ⟨hnone, hquiet⟩ := htrack.idle (hothers j hj) (project_foreign howned hj)
      obtain ⟨⟨rows, hrows, hmore⟩, hlast⟩ := ih hrun hrest fun k hk => by
        by_cases hkj : k = j
        · rw [hkj, hnone]
        · rw [hframe k hkj, hothers k hk]
      refine ⟨⟨rows, ?_, ?_⟩, hlast⟩
      · rw [eventsOf_other hj, ← hframe i (Ne.symm hj)]
        exact hrows
      · rw [hmore, hnew, List.map_eq_nil_iff.mp hquiet, List.append_nil]

theorem shards_unknown {ι : Type} [DecidableEq ι] {symbolCache : SymbolCache} {m : ℤ}
    (hm : m ∉ symbolCache.map) {marketIds : ι → List ℤ} {shards shards' : Shards ι}
    {turns : List (ι × Event)}
    (h : shards.run (fun j => ⟨marketIds j, symbolCache⟩) turns = (shards', .ok ())) (k : ι) :
    (shards'.markets k).lookup m = (shards.markets k).lookup m := by
  induction turns generalizing shards with
  | nil =>
    cases h
    rfl
  | cons turn rest ih =>
    obtain ⟨j, event⟩ := turn
    obtain ⟨next, hturn, hrun⟩ := Shards.run_cons_ok h
    obtain ⟨s, hstep, hown, hframe, -⟩ := Shards.turn_ok hturn
    have hheld : (step ⟨marketIds j, symbolCache⟩ (shards.session j) event).1.markets.lookup m = _ :=
      step_unknown hm (shards.session j) event
    rw [hstep] at hheld
    rw [ih hrun]
    by_cases hkj : k = j
    · rw [hkj, hown]
      exact hheld
    · rw [hframe k hkj]

/-- Two sessions that agree on the market `m`: on its book and on the rows of its symbol. -/
structure SameMarket (symbolCache : SymbolCache) (m : ℤ) (s t : Session) : Prop where
  book : s.markets.lookup m = t.markets.lookup m
  rows : ∀ symbol, symbolCache.map.lookup m = some symbol →
    symbolRows symbol s.tx.sent = symbolRows symbol t.tx.sent

def Session.fresh (tx : Channel WriteMsg) (write : Channel ClientMessage) : Session := ⟨∅, tx, write⟩

theorem runs_agree {config : Config} {m : ℤ} {start start' s t : Session} {events other : List Event}
    (hmarkets : start.markets.lookup m = start'.markets.lookup m) (htx : start.tx = start'.tx)
    (hs : runEvents config start events = (s, .ok ()))
    (ht : runEvents config start' other = (t, .ok ()))
    (hevents : other.filterMap (Event.project m) = events.filterMap (Event.project m)) :
    SameMarket config.symbolCache m s t := by
  cases hm : config.symbolCache.map.lookup m with
  | none =>
    have hunknown := AList.lookup_eq_none.mp hm
    refine ⟨?_, fun symbol hsymbol => absurd (hm.symm.trans hsymbol) (by simp)⟩
    rw [run_unknown hunknown hs, run_unknown hunknown ht, hmarkets]
  | some symbol =>
    obtain ⟨hsents, track, held, htrack, -, hend⟩ := run_tracks hm hs
    obtain ⟨hsentt, track', held', htrack', -, hend'⟩ := run_tracks hm ht
    obtain ⟨rfl, rfl⟩ := hend rfl
    obtain ⟨rfl, rfl⟩ := hend' rfl
    rw [hevents, ← hmarkets] at htrack'
    obtain ⟨hbook, hrows⟩ := htrack.unique htrack'
    refine ⟨hbook, fun symbol' hsymbol => ?_⟩
    obtain rfl := Option.some.inj (hm.symm.trans hsymbol)
    rw [hsents, hsentt, symbolRows_append, symbolRows_append, ← rowsOf_snd, ← rowsOf_snd, hrows, htx]

theorem markets_do_not_interfere (config : Config) (m : ℤ) (tx : Channel WriteMsg)
    {write : Channel ClientMessage} {events : List Event} {s : Session}
    (hrun : runEvents config (.fresh tx write) events = (s, .ok ())) :
    (∃ alone, runEvents config (.fresh tx write) (ownEvents m events) = (alone, .ok ()) ∧
      SameMarket config.symbolCache m s alone) ∧
    (∀ write' other t, runEvents config (.fresh tx write') other = (t, .ok ()) →
      other.filterMap (Event.project m) = events.filterMap (Event.project m) →
      SameMarket config.symbolCache m s t) ∧
    (∀ (ι : Type) [DecidableEq ι] (marketIds : ι → List ℤ) (writes : ι → Channel ClientMessage)
      (turns : List (ι × Event)) (shards : Shards ι) (i : ι),
      Shards.run (fun j => ⟨marketIds j, config.symbolCache⟩) ⟨fun _ => ∅, writes, tx⟩ turns =
        (shards, .ok ()) →
      OwnedBy m i turns →
      (Shards.eventsOf i turns).filterMap (Event.project m) = events.filterMap (Event.project m) →
      SameMarket config.symbolCache m s (shards.session i) ∧
        ∀ j ≠ i, (shards.markets j).lookup m = none) := by
  refine ⟨?_, fun write' other t ht hevents => ?_, ?_⟩
  · have hempty : Alone m (.fresh tx write) (.fresh tx write) :=
      ⟨rfl, fun k hk => absurd hk (AList.notMem_empty k), rfl, le_rfl⟩
    obtain ⟨alone, halone, -⟩ := hempty.run hrun
    exact ⟨alone, halone, runs_agree rfl rfl hrun halone (ownEvents_project m events)⟩
  · exact runs_agree (by rfl) (by rfl) hrun ht hevents
  · intro ι _ marketIds writes turns shards i hshards howned hevents
    cases hm : config.symbolCache.map.lookup m with
    | none =>
      have hunknown := AList.lookup_eq_none.mp hm
      have hnone := shards_unknown hunknown hshards
      refine ⟨⟨(run_unknown hunknown hrun).trans (hnone i).symm, fun symbol hsymbol => ?_⟩,
        fun j _ => hnone j⟩
      exact absurd (hm.symm.trans hsymbol) (by simp)
    | some symbol =>
      obtain ⟨⟨rows, hrows, hsent⟩, hothers⟩ := shards_track hm hshards howned fun _ _ => rfl
      obtain ⟨hsents, track, held, htrack, -, hend⟩ := run_tracks hm hrun
      obtain ⟨rfl, rfl⟩ := hend rfl
      rw [hevents] at hrows
      obtain ⟨hbook, hsame⟩ := htrack.unique hrows
      refine ⟨⟨hbook, fun symbol' hsymbol => ?_⟩, hothers⟩
      obtain rfl := Option.some.inj (hm.symm.trans hsymbol)
      rw [hsents, symbolRows_append, ← rowsOf_snd, hsame]
      exact hsent.symm

def sampleFrame (channel : String) : Event :=
  .orderbook (.subscribed channel 1790015233367788 ⟨1, 10, 0, [⟨"218", "2"⟩], []⟩)

end

theorem sample_independence : letI := wholeNumbers;
    let start : Session := .fresh (.start none) (.start none)
    SameMarket sampleConfig.symbolCache 7
      (runEvents sampleConfig start [sampleFrame "order_book:8", sampleFrame "order_book:7", sampleTick]).1
      (runEvents sampleConfig start [sampleFrame "order_book:7", sampleFrame "order_book:8", sampleTick]).1 := by
  refine (@markets_do_not_interfere wholeNumbers sampleConfig 7 (.start none) (.start none) _ _ rfl).2.1
    (.start none) _ _ rfl ?_
  decide

end LighterIngestor
