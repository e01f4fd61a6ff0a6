import LighterIngestor.Lives

namespace LighterIngestor

variable [NumberTypes]

theorem Process.Inv.isAccounted {p : Process} (h : p.Inv) : p.writer.Accounted :=
  h.writer.isAccounted h.running

/-- What the loop has sent and the tables do not hold yet. -/
def Process.inFlight (p : Process) : List WriteMsg := p.writer.batch ++ p.writer.queue ++ p.outbox

/-- The life that a writer has recorded, whether it still runs or not. -/
def Life.ofWriter (config : Config) (connections : List Connection) (w : Writer) (hwithin : w.Within)
    (hsent : w.sent <+: (collect config (.start none) connections).sent) : Life where
  config := config
  connections := connections
  messages := writtenBooks w.log
  trades := writtenTrades w.log
  messagesSent := hwithin.books.trans (((List.prefix_append _ _).trans hsent).filterMap _)
  tradesSent := hwithin.trades.trans (((List.prefix_append _ _).trans hsent).filterMap _)

theorem Process.Inv.sent_prefix {p : Process} (h : p.Inv) : p.writer.sent <+: p.link.tx.sent :=
  ⟨p.outbox, h.handed⟩

theorem Process.Lives.emitted {p : Process} {db : Tables} {life : Life} (h : p.Lives db life) :
    life.emitted = p.link.tx := by
  rw [Life.emitted, h.config]
  exact h.reached.link.tx

theorem Process.Lives.accounts {p : Process} {db : Tables} {life : Life} (h : p.Lives db life)
    (hinv : p.Inv) : life.messages ++ orderbookRows p.inFlight = orderbookRows p.link.tx.sent ∧
      life.trades ++ tradeRows p.inFlight = tradeRows p.link.tx.sent := by
  obtain ⟨htrades, hbooks⟩ := hinv.isAccounted
  constructor
  · rw [h.messages, ← hinv.handed, inFlight, Writer.sent, orderbookRows_append, orderbookRows_append,
      orderbookRows_append, orderbookRows_append, ← hbooks]
    simp only [List.append_assoc]
  · rw [h.trades, ← hinv.handed, inFlight, Writer.sent, tradeRows_append, tradeRows_append,
      tradeRows_append, tradeRows_append, ← htrades]
    simp only [List.append_assoc]

theorem Process.Inv.inFlight_last {p : Process} (h : p.Inv) : p.inFlight <:+ p.link.tx.sent := by
  refine ⟨p.writer.flushes.flatMap Flushed.batch, ?_⟩
  rw [← h.handed, Writer.sent, h.writer.received, inFlight]
  simp only [List.append_assoc]

theorem Process.Lives.misses {p : Process} {db : Tables} {life : Life} (h : p.Lives db life)
    (hinv : p.Inv) : life.Misses p.writer.batch p.writer.queue p.outbox := by
  obtain ⟨hmessages, htrades⟩ := h.accounts hinv
  refine ⟨?_, ?_, ⟨_, List.suffix_refl _, ?_⟩, le_of_lt hinv.writer.small, hinv.room, ?_⟩
  · rw [h.emitted]
    exact hinv.inFlight_last
  · rw [h.emitted]
    exact hmessages
  · rw [h.emitted]
    exact htrades
  · rw [h.config]
    exact h.reached.outbox

theorem Service.Inv.running {db : Tables} {earlier : List Life} {life : Life} {p : Process}
    (hstored : Stored db (earlier ++ [life]))
    (hearlier : ∀ life ∈ earlier, ∃ batch queue outbox, life.Misses batch queue outbox)
    (hinv : p.Inv) (hlives : p.Lives db life) : Service.Inv ⟨db, some p⟩ (earlier ++ [life]) where
  stored := hstored
  misses other hother := by
    rcases List.mem_append.mp hother with hother | hother
    · exact hearlier other hother
    · rw [List.mem_singleton.mp hother]
      exact ⟨_, _, _, hlives.misses hinv⟩
  serving := by
    rintro q ⟨⟩
    exact ⟨hinv, earlier, life, rfl, hlives⟩

theorem Process.Lives.next {p : Process} {db db' : Tables} {earlier : List Life} {life : Life}
    (h : p.Lives db life) (hstored : Stored db (earlier ++ [life])) {w : Writer}
    {log : List (Statement × Bool)} (hlog : w.log = p.writer.log ++ log) (hdb : db.executeAll log = some db')
    (connections : List Connection) (hwithin : w.Within)
    (hsent : w.sent <+: (collect p.config (.start none) connections).sent) :
    Stored db' (earlier ++ [.ofWriter p.config connections w hwithin hsent]) := by
  refine hstored.grow hdb h.config.symm ?_ ?_
  · rw [h.messages, ← writtenBooks_append, ← hlog]
    rfl
  · rw [h.trades, ← writtenTrades_append, ← hlog]
    rfl

theorem Service.Inv.keep {σ : Service} {lives : List Life} (h : σ.Inv lives) {p p' : Process}
    (hp : σ.process = some p) (hinv : p'.Inv) (hconfig : p'.config = p.config)
    (hlog : p'.writer.log = p.writer.log) {f : List Connection → List Connection}
    (hreaches : ∀ connections, p.Reached connections → p'.Reached (f connections)) :
    ∃ earlier life life', lives = earlier ++ [life] ∧
      life'.toProcessLog = ⟨life.config, f life.connections⟩ ∧
      Service.Inv { σ with process := some p' } (earlier ++ [life']) := by
  obtain ⟨-, earlier, life, rfl, hlives⟩ := h.serving p hp
  have hreached := hreaches _ hlives.reached
  have hsent : p'.writer.sent <+: (collect p.config (.start none) (f life.connections)).sent := by
    rw [← hconfig, hreached.link.tx]
    exact hinv.sent_prefix
  have hsame : p'.writer.log = p.writer.log ++ [] := by rw [hlog, List.append_nil]
  have hstored := hlives.next h.stored hsame rfl _ hinv.isAccounted.within hsent
  refine ⟨earlier, life, _, rfl, ?_, .running hstored (fun life hlife => h.misses life (by simp [hlife])) hinv ?_⟩
  · rw [hlives.config]
    rfl
  · exact ⟨hconfig.symm, hreached, rfl, rfl, hconfig ▸ hlives.cache, hconfig ▸ hlives.marketIds⟩

/-- A connection that has handled no event yet has sent nothing. -/
theorem lastTurn_connect (config : Config) (connections : List Connection) (writeLifetime : Option ℕ) :
    lastTurn config (connections ++ [⟨writeLifetime, []⟩]) = [] := by
  rw [lastTurn, List.modifyLast_concat]
  exact List.drop_length

theorem Process.Inv.connect {p p' : Process} (h : p.Inv) {writeLifetime : Option ℕ}
    (hconnect : p.connect writeLifetime = some p') :
    p'.Inv ∧ p'.config = p.config ∧ p'.writer = p.writer ∧
      ∀ connections, p.Reached connections → p'.Reached (connections ++ [⟨writeLifetime, []⟩]) := by
  unfold Process.connect at hconnect
  split at hconnect
  · rename_i tx hlink hempty
    have hhanded := h.handed
    rw [hlink] at hhanded
    have hframe := sendClients_frame ⟨∅, tx, .start writeLifetime⟩ (subscriptions p.config)
    split at hconnect
    · rename_i s e hsub
      cases hconnect
      rw [hsub] at hframe
      obtain ⟨-, rfl⟩ : _ ∧ s.tx = tx := hframe
      refine ⟨⟨h.writer, h.running, h.opened, hhanded, h.room⟩, rfl, rfl, fun connections hreached => ?_⟩
      have hend : collect p.config (.start none) (connections ++ [⟨writeLifetime, []⟩]) = s.tx := by
        rw [collect_concat, hreached.link.tx, hlink, runWsIngestion]
        dsimp only [Link.tx]
        rw [hsub]
      exact ⟨hend ▸ .down _, [], hempty.trans (lastTurn_connect _ _ _).symm⟩
    · rename_i s hsub
      cases hconnect
      rw [hsub] at hframe
      obtain ⟨-, rfl⟩ : _ ∧ s.tx = tx := hframe
      refine ⟨⟨h.writer, h.running, h.opened, hhanded, h.room⟩, rfl, rfl, fun connections hreached => ?_⟩
      refine ⟨.up ?_, [], hempty.trans (lastTurn_connect _ _ _).symm⟩
      rw [hreached.link.tx, hlink]
      unfold runWsIngestion
      dsimp only [Link.tx]
      rw [hsub]
      rfl
  · cases hconnect

theorem lastTurn_turn {config : Config} {earlier : List Connection} {current : Connection} {s : Session}
    (hrun : runWsIngestion config (collect config (.start none) earlier) current = (s, .ok ()))
    (event : Event) : lastTurn config (earlier ++ [current.turn event]) =
      (step config s event).1.tx.sent.drop s.tx.sent.length := by
  have hback : (current.turn event).withoutLast = current := by
    rw [Connection.withoutLast, Connection.turn, List.dropLast_concat]
  rw [lastTurn, List.modifyLast_concat, hback, collect_concat, collect_concat, runWsIngestion_append hrun, hrun]

theorem Process.Inv.turn {p p' : Process} (h : p.Inv) {event : Event} (hturn : p.turn event = some p') :
    p'.Inv ∧ p'.config = p.config ∧ p'.writer = p.writer ∧
      ∀ connections, p.Reached connections → p'.Reached (connections.modifyLast (.turn event)) := by
  unfold Process.turn at hturn
  split at hturn
  · rename_i s hlink hempty
    have hhanded := h.handed
    rw [hlink, hempty, List.append_nil] at hhanded
    have hsent : ∀ next : Session, (step p.config s event).1 = next →
        p.writer.sent ++ next.tx.sent.drop s.tx.sent.length = next.tx.sent := by
      rintro next rfl
      obtain ⟨new, hnew, -⟩ := step_emits p.config s event
      rw [hnew, List.drop_left, hhanded]
      rfl
    have hreached : ∀ connections, p.Reached connections → ∃ earlier current,
        connections.modifyLast (.turn event) = earlier ++ [Connection.turn event current] ∧
          runWsIngestion p.config (collect p.config (.start none) earlier) current = (s, .ok ()) ∧
          (step p.config s event).1.tx.sent.drop s.tx.sent.length =
            lastTurn p.config (earlier ++ [Connection.turn event current]) := by
      intro connections hreached
      have hconnections := hreached.link
      rw [hlink] at hconnections
      cases hconnections with
      | up hrun => exact ⟨_, _, List.modifyLast_concat _ _ _, hrun, (lastTurn_turn hrun event).symm⟩
    split at hturn
    · rename_i next e hstep
      cases hturn
      refine ⟨⟨h.writer, h.running, h.opened, hsent next (by rw [hstep]), h.room⟩, rfl, rfl, ?_⟩
      intro connections hconnections
      obtain ⟨earlier, current, hlast, hrun, hturned⟩ := hreached connections hconnections
      have hend : collect p.config (.start none) (earlier ++ [current.turn event]) = next.tx := by
        rw [collect_concat, runWsIngestion_append hrun, hstep]
      rw [hstep] at hturned
      rw [hlast]
      exact ⟨hend ▸ .down _, [], hturned⟩
    · rename_i next hstep
      cases hturn
      refine ⟨⟨h.writer, h.running, h.opened, hsent next (by rw [hstep]), h.room⟩, rfl, rfl, ?_⟩
      intro connections hconnections
      obtain ⟨earlier, current, hlast, hrun, hturned⟩ := hreached connections hconnections
      rw [hstep] at hturned
      rw [hlast]
      exact ⟨.up ((runWsIngestion_append hrun event).trans hstep), [], hturned⟩
  · cases hturn

theorem Process.Inv.enqueue {p p' : Process} (h : p.Inv) (henqueue : p.enqueue = some p') :
    p'.Inv ∧ p'.config = p.config ∧ p'.writer.log = p.writer.log ∧
      ∀ connections, p.Reached connections → p'.Reached connections := by
  unfold Process.enqueue at henqueue
  split at henqueue
  · cases henqueue
  · rename_i message rest houtbox
    split_ifs at henqueue with hroom
    obtain ⟨writer, hsend, rfl⟩ := Option.map_eq_some_iff.mp henqueue
    have hinv := Writer.step_inv h.writer hsend
    cases Writer.step_does hsend
    refine ⟨⟨hinv, h.running, h.opened, ?_, ?_⟩, rfl, rfl, fun connections hreached => ⟨hreached.link, ?_⟩⟩
    · have hhanded := h.handed
      rw [houtbox] at hhanded
      rw [← hhanded]
      simp [Writer.sent]
    · change (p.writer.queue ++ [message]).length ≤ writeChannelCapacity
      rw [List.length_append]
      exact hroom
    · have hsuffix := hreached.outbox
      rw [houtbox] at hsuffix
      exact (List.suffix_cons _ _).trans hsuffix

theorem Process.Lives.ended {p : Process} {db : Tables} {life : Life} (h : p.Lives db life) (hinv : p.Inv)
    {w : Writer} (hw : w.Inv) (hwithin : w.Within) (hexited : w.status = .exited) (hbatch : w.batch = [])
    (hsent : w.sent = p.writer.sent) (hqueue : w.queue.length ≤ writeChannelCapacity)
    (hsome : w.sent <+: (collect p.config (.start none) life.connections).sent) :
    ∃ batch queue outbox,
      (Life.ofWriter p.config life.connections w hwithin hsome).Misses batch queue outbox := by
  obtain ⟨batch, hsize, hlast, hmessages, missing, hmissing, htrades⟩ := hw.missing hwithin hexited hbatch
  have hemitted : (Life.ofWriter p.config life.connections w hwithin hsome).emitted = p.link.tx :=
    h.reached.link.tx
  have hall : p.link.tx.sent = w.received ++ w.queue ++ p.outbox := by
    rw [← hinv.handed, ← hsent, Writer.sent]
  refine ⟨batch, w.queue, p.outbox, ?_, ?_, ⟨missing ++ tradeRows (w.queue ++ p.outbox), ?_, ?_⟩,
    hsize, hqueue, h.reached.outbox⟩
  · obtain ⟨before, hreceived⟩ := hlast
    refine ⟨before, ?_⟩
    rw [hemitted, hall, ← hreceived]
    simp only [List.append_assoc]
  · change writtenBooks w.log ++ _ = _
    rw [hemitted, hall, List.append_assoc, List.append_assoc, orderbookRows_append,
      orderbookRows_append w.received, ← List.append_assoc, hmessages]
  · obtain ⟨stored, hbatchrows⟩ := hmissing
    refine ⟨stored, ?_⟩
    rw [List.append_assoc, tradeRows_append batch, ← hbatchrows, List.append_assoc]
  · change writtenTrades w.log ++ _ = _
    rw [hemitted, hall, List.append_assoc, tradeRows_append w.received, ← List.append_assoc, htrades]

/-- A turn of the writer stores a bit more of the life, and may end it. -/
theorem Service.write_inv {σ σ' : Service} {lives : List Life} (h : σ.Inv lives) {p : Process}
    (hp : σ.process = some p) {event : WriterEvent} (hevent : ∀ message, event ≠ .send message)
    (hclose : event ≠ .close) (hwrite : σ.write p event = some σ') :
    ∃ lives', σ'.Inv lives' ∧ lives'.map Life.toProcessLog = lives.map Life.toProcessLog := by
  obtain ⟨hinv, earlier, life, rfl, hlives⟩ := h.serving p hp
  have hearlier : ∀ life ∈ earlier, ∃ batch queue outbox, life.Misses batch queue outbox :=
    fun life hlife => h.misses life (by simp [hlife])
  unfold write at hwrite
  split at hwrite
  · cases hwrite
  · rename_i writer hstep
    split at hwrite
    · cases hwrite
    · rename_i db hdb
      cases hwrite
      have hdoes := Writer.step_does hstep
      have hwriter := Writer.step_inv hinv.writer hstep
      have hwithin := hdoes.within hinv.writer hinv.running
      obtain ⟨log, hlog⟩ := hdoes.log
      rw [← hlog, List.drop_left] at hdb
      obtain ⟨hsent, hqueue⟩ := hdoes.drains hevent
      have hsome : writer.sent <+: (collect p.config (.start none) life.connections).sent := by
        rw [hlives.reached.link.tx, hsent]
        exact hinv.sent_prefix
      have hstored := hlives.next h.stored hlog.symm hdb life.connections hwithin hsome
      have hroom := hqueue.trans hinv.room
      have hlogs : (earlier ++ [Life.ofWriter p.config life.connections writer hwithin hsome]).map
          Life.toProcessLog = (earlier ++ [life]).map Life.toProcessLog := by
        have hlast : (Life.ofWriter p.config life.connections writer hwithin hsome).toProcessLog =
            life.toProcessLog := congrArg (ProcessLog.mk · life.connections) hlives.config.symm
        rw [List.map_append, List.map_append, List.map_singleton, List.map_singleton, hlast]
      refine ⟨_, ?_, hlogs⟩
      split_ifs with hrunning
      · have hsymbols := (Tables.executeAll_some hdb).1
        refine .running hstored hearlier ⟨hwriter, hrunning, (hdoes.closed hclose).trans hinv.opened,
          ?_, hroom⟩ ⟨rfl, ⟨hlives.reached.link, hlives.reached.outbox⟩, rfl, rfl, ?_, ?_⟩
        · rw [hsent]
          exact hinv.handed
        · rw [hsymbols]
          exact hlives.cache
        · rw [hsymbols]
          exact hlives.marketIds
      · obtain ⟨hexited, hbatch⟩ := hdoes.exits hinv.running hinv.opened hrunning
        refine ⟨hstored, fun other hother => ?_, by simp⟩
        rcases List.mem_append.mp hother with hother | hother
        · exact hearlier other hother
        · rw [List.mem_singleton.mp hother]
          exact hlives.ended hinv hwriter hwithin hexited hbatch hsent hroom hsome

theorem Service.start_inv {σ σ' : Service} {lives : List Life} (h : σ.Inv lives)
    (hnone : σ.process = none) {resp : OrderBooksResponse} {marketIds : List ℤ} {drawn : ℕ}
    (hstart : σ.start resp marketIds drawn = some σ') : ∃ lives', σ'.Inv lives' ∧
      lives'.map Life.toProcessLog =
        σ'.record (lives.map Life.toProcessLog) (.start resp marketIds drawn) := by
  unfold start at hstart
  split at hstart
  · cases hstart
    refine ⟨lives, ⟨h.stored.extends fun old hold => ⟨old, hold, rfl, rfl⟩, h.misses, ?_⟩, ?_⟩
    · simp [hnone]
    · simp [record, hnone]
  · rename_i symbols hsync
    split_ifs at hstart with hids
    cases hstart
    have hstored := h.stored.extends (syncSymbols_extends hsync)
    have hwithin : Writer.start.Within := ⟨List.nil_prefix, List.nil_prefix⟩
    have hinv : (Process.start marketIds (loadSymbolCache symbols)).Inv :=
      ⟨Writer.start_inv, rfl, rfl, rfl, Nat.zero_le _⟩
    let life : Life :=
      .ofWriter ⟨marketIds, loadSymbolCache symbols⟩ [] .start hwithin List.nil_prefix
    have hlives : (Process.start marketIds (loadSymbolCache symbols)).Lives { σ.db with symbols } life :=
      ⟨rfl, ⟨.down [], List.nil_suffix⟩, rfl, rfl, rfl, hids⟩
    refine ⟨lives ++ [life], .running ⟨?_, ?_, ?_⟩ h.misses hinv hlives, by simp [record]; rfl⟩
    · rw [List.flatMap_append]
      exact hstored.messages.trans (List.append_nil _).symm
    · rw [List.flatMap_append]
      exact hstored.trades.trans (congrArg _ (List.append_nil _).symm)
    · intro life hlife
      rcases List.mem_append.mp hlife with hlife | hlife
      · exact hstored.symbols life hlife
      · rw [List.mem_singleton.mp hlife]
        exact fun _ _ hlookup => hlookup

theorem Service.step_inv {σ σ' : Service} {lives : List Life} {event : ServiceEvent} (h : σ.Inv lives)
    (hkeeps : ∀ now, event ≠ .retain now) (hstep : σ.step event = some σ') : ∃ lives', σ'.Inv lives' ∧
      lives'.map Life.toProcessLog = σ'.record (lives.map Life.toProcessLog) event := by
  obtain ⟨db, process⟩ := σ
  cases process with
  | none =>
    cases event with
    | start resp marketIds drawn => exact start_inv h rfl hstep
    | retain now => exact absurd rfl (hkeeps now)
    | _ => cases hstep
  | some p =>
    obtain ⟨hinv, -⟩ := h.serving p rfl
    cases event with
    | start resp marketIds drawn => cases hstep
    | connect writeLifetime =>
      obtain ⟨p', hconnect, rfl⟩ := Option.map_eq_some_iff.mp hstep
      obtain ⟨hinv', hconfig, hwriter, hreaches⟩ := hinv.connect hconnect
      obtain ⟨earlier, life, life', rfl, hlog, hnext⟩ := h.keep rfl hinv' hconfig (by rw [hwriter]) hreaches
      refine ⟨_, hnext, ?_⟩
      rw [List.map_append, List.map_append, List.map_singleton, List.map_singleton, record,
        List.modifyLast_concat, hlog]
      rfl
    | turn event =>
      obtain ⟨p', hturn, rfl⟩ := Option.map_eq_some_iff.mp hstep
      obtain ⟨hinv', hconfig, hwriter, hreaches⟩ := hinv.turn hturn
      obtain ⟨earlier, life, life', rfl, hlog, hnext⟩ := h.keep rfl hinv' hconfig (by rw [hwriter]) hreaches
      refine ⟨_, hnext, ?_⟩
      rw [List.map_append, List.map_append, List.map_singleton, List.map_singleton, record,
        List.modifyLast_concat, hlog]
      rfl
    | enqueue =>
      obtain ⟨p', henqueue, rfl⟩ := Option.map_eq_some_iff.mp hstep
      obtain ⟨hinv', hconfig, hwriter, hreaches⟩ := hinv.enqueue henqueue
      obtain ⟨earlier, life, life', rfl, hlog, hnext⟩ := h.keep rfl hinv' hconfig hwriter hreaches
      exact ⟨_, hnext, by rw [List.map_append, List.map_append, List.map_singleton, hlog]; rfl⟩
    | receive outcome => exact write_inv h rfl (by simp) (by simp) hstep
    | tick outcome => exact write_inv h rfl (by simp) (by simp) hstep
    | stop =>
      cases hstep
      exact ⟨lives, ⟨h.stored, h.misses, by simp⟩, rfl⟩
    | retain now => exact absurd rfl (hkeeps now)

theorem Service.initial_inv : Service.initial.Inv [] :=
  ⟨⟨rfl, rfl, by simp⟩, by simp, by simp [initial]⟩

theorem Service.run_lives {events : List ServiceEvent} {σ σ' : Service} {lives : List Life}
    (h : σ.Inv lives) (hkeeps : ∀ now, .retain now ∉ events) (hrun : σ.run events = some σ') :
    ∃ lives', σ'.Inv lives' ∧
      lives'.map Life.toProcessLog = σ.history (lives.map Life.toProcessLog) events := by
  induction events generalizing σ lives with
  | nil =>
    cases hrun
    exact ⟨lives, h, rfl⟩
  | cons event rest ih =>
    rw [run, List.foldlM_cons, Option.bind_eq_bind, Option.bind_eq_some_iff] at hrun
    obtain ⟨mid, hstep, hrest⟩ := hrun
    obtain ⟨lives', h', hrecord⟩ := step_inv h (fun now heq => hkeeps now (by simp [heq])) hstep
    obtain ⟨last, hlast, hhistory⟩ := ih h' (fun now hnow => hkeeps now (List.mem_cons_of_mem _ hnow)) hrest
    refine ⟨last, hlast, ?_⟩
    rw [hhistory, hrecord, history, hstep]

end LighterIngestor
