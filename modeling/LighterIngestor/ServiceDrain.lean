import LighterIngestor.ServiceSymbols

namespace LighterIngestor

section

variable [NumberTypes]

/-- A row that no constraint of its table keeps out. -/
def Storable (symbols : SymbolTable) : WriteMsg → Prop
  | .trade row => StorableTrade symbols row
  | .orderbook row => StorableMessage symbols row

def Statement.Storable (symbols : SymbolTable) : Statement → Prop
  | .insertTrades rows => ∀ row ∈ rows, StorableTrade symbols row
  | .insertOrderbookMessages rows => ∀ row ∈ rows, StorableMessage symbols row

theorem Tables.execute_total {db : Tables} {statement : Statement}
    (h : statement.Storable db.symbols) : ∃ next, db.execute statement = some next := by
  cases statement with
  | insertTrades rows => exact ⟨_, if_pos h⟩
  | insertOrderbookMessages rows => exact ⟨_, if_pos h⟩

theorem Tables.executeAll_total {db : Tables} {log : List (Statement × Bool)}
    (h : ∀ entry ∈ log, entry.1.Storable db.symbols) : ∃ next, db.executeAll log = some next := by
  induction log generalizing db with
  | nil => exact ⟨db, rfl⟩
  | cons entry rest ih =>
    obtain ⟨hentry, hrest⟩ := List.forall_mem_cons.mp h
    obtain ⟨statement, ok⟩ := entry
    cases ok with
    | false => exact ih hrest
    | true =>
      obtain ⟨mid, hmid⟩ := execute_total hentry
      rw [← (execute_some hmid).1] at hrest
      obtain ⟨next, hnext⟩ := ih hrest
      exact ⟨next, by simp only [executeAll, hmid, hnext]⟩

theorem runInserts_allDone {symbols : SymbolTable} {batch : List WriteMsg}
    (h : ∀ message ∈ batch, Storable symbols message) :
    (runInserts (tradeRows batch) (orderbookRows batch) allDone).2 = true ∧
      ∀ entry ∈ (runInserts (tradeRows batch) (orderbookRows batch) allDone).1, entry.1.Storable symbols := by
  have htrades : (Statement.insertTrades (tradeRows batch)).Storable symbols := by
    intro row hrow
    obtain ⟨message, hmessage, heq⟩ := List.mem_filterMap.mp hrow
    cases message with
    | orderbook => cases heq
    | trade other =>
      cases heq
      exact h _ hmessage
  have hbooks : (Statement.insertOrderbookMessages (orderbookRows batch)).Storable symbols := by
    intro row hrow
    obtain ⟨message, hmessage, heq⟩ := List.mem_filterMap.mp hrow
    cases message with
    | trade => cases heq
    | orderbook other =>
      cases heq
      exact h _ hmessage
  unfold runInserts
  cases hempty : (tradeRows batch).isEmpty <;> cases hempty' : (orderbookRows batch).isEmpty <;>
    simp [allDone, htrades, hbooks]

theorem Writer.flush_allDone {symbols : SymbolTable} {w : Writer}
    (h : ∀ message ∈ w.batch, Storable symbols message) :
    (w.flush allDone).status = w.status ∧ (w.flush allDone).batch = [] ∧
      ∃ log, (w.flush allDone).log = w.log ++ log ∧ ∀ entry ∈ log, entry.1.Storable symbols := by
  obtain ⟨hok, hlog⟩ := runInserts_allDone h
  unfold flush
  split_ifs with hempty
  · exact ⟨rfl, List.isEmpty_iff.mp hempty, [], by simp, by simp⟩
  · refine ⟨?_, rfl, _, ?_, hlog⟩
    · simp [hok]
    · simp [log]

/-- The pipe from the loop to the tables has moved on, and no row has left it but for its table. -/
structure Pipes (σ σ' : Service) (p p' : Process) : Prop where
  config : p'.config = p.config
  link : p'.link = p.link
  inFlight : p'.inFlight ⊆ p.inFlight
  messages : σ'.db.messages ++ orderbookRows p'.inFlight = σ.db.messages ++ orderbookRows p.inFlight
  trades : σ'.db.trades.insert (tradeRows p'.inFlight) = σ.db.trades.insert (tradeRows p.inFlight)
  symbols : σ'.db.symbols = σ.db.symbols

theorem Pipes.refl (σ : Service) (p : Process) : Pipes σ σ p p := ⟨rfl, rfl, fun _ h => h, rfl, rfl, rfl⟩

theorem Pipes.trans {σ τ υ : Service} {p q r : Process} (h : Pipes σ τ p q) (h' : Pipes τ υ q r) :
    Pipes σ υ p r :=
  ⟨h'.config.trans h.config, h'.link.trans h.link, fun _ hmessage => h.inFlight (h'.inFlight hmessage),
    h'.messages.trans h.messages, h'.trades.trans h.trades, h'.symbols.trans h.symbols⟩

theorem Process.Inv.pipes {σ σ' : Service} {p : Process} {w : Writer} (h : p.Inv)
    (hw : w.Accounted) {log : List (Statement × Bool)} (hlog : w.log = p.writer.log ++ log)
    (hdb : σ.db.executeAll log = some σ'.db) {outbox : List WriteMsg}
    (hsent : w.sent ++ outbox = p.writer.sent ++ p.outbox)
    (hsubset : (⟨p.config, p.link, outbox, w⟩ : Process).inFlight ⊆ p.inFlight) :
    Pipes σ σ' p ⟨p.config, p.link, outbox, w⟩ := by
  obtain ⟨hsymbols, hmessages, htrades⟩ := Tables.executeAll_some hdb
  have hacc := h.isAccounted
  have hbooks : writtenBooks log ++ orderbookRows (⟨p.config, p.link, outbox, w⟩ : Process).inFlight =
      orderbookRows p.inFlight := by
    have heq := congrArg orderbookRows hsent
    simp only [Writer.sent, orderbookRows_append, ← hw.books, ← hacc.books, hlog, writtenBooks_append,
      List.append_assoc, List.append_cancel_left_eq] at heq
    simpa only [Process.inFlight, orderbookRows_append, List.append_assoc] using heq
  have hrows : writtenTrades log ++ tradeRows (⟨p.config, p.link, outbox, w⟩ : Process).inFlight =
      tradeRows p.inFlight := by
    have heq := congrArg tradeRows hsent
    simp only [Writer.sent, tradeRows_append, ← hw.trades, ← hacc.trades, hlog, writtenTrades_append,
      List.append_assoc, List.append_cancel_left_eq] at heq
    simpa only [Process.inFlight, tradeRows_append, List.append_assoc] using heq
  refine ⟨rfl, rfl, hsubset, ?_, ?_, hsymbols⟩
  · rw [hmessages, List.append_assoc, hbooks]
  · rw [htrades, ← UniqueTable.insert_append, hrows]

def Process.distance (p : Process) : ℕ :=
  3 * p.outbox.length + 2 * p.writer.queue.length + p.writer.batch.length

theorem Process.Inv.enqueue_total {σ : Service} {p : Process} (hp : σ.process = some p) (h : p.Inv)
    {message : WriteMsg} {rest : List WriteMsg} (houtbox : p.outbox = message :: rest)
    (hroom : p.writer.queue.length < writeChannelCapacity) :
    ∃ σ' p', σ.step .enqueue = some σ' ∧ σ'.process = some p' ∧ Pipes σ σ' p p' ∧
      p'.distance < p.distance := by
  let w : Writer := { p.writer with queue := p.writer.queue ++ [message] }
  have hsend : p.writer.step (.send message) = some w := by
    simp [Writer.step, h.opened, h.running, w]
  let σ' : Service := { σ with process := some ⟨p.config, p.link, rest, w⟩ }
  have hstep : σ.step .enqueue = some σ' := by
    simp [Service.step, hp, Process.enqueue, houtbox, hroom, hsend, σ']
  have hacc : w.Accounted := ⟨h.isAccounted.trades, h.isAccounted.books⟩
  have hlog : w.log = p.writer.log ++ [] := (List.append_nil _).symm
  have hdb : σ.db.executeAll [] = some σ'.db := rfl
  refine ⟨σ', _, hstep, rfl, h.pipes hacc hlog hdb ?_ ?_, ?_⟩
  · simp [Writer.sent, houtbox, w]
  · simp [Process.inFlight, houtbox, w]
  · simp only [Process.distance, houtbox, List.length_cons, List.length_append, List.length_nil, w]
    omega

theorem Process.Inv.write_total {σ : Service} {p : Process} (h : p.Inv) {event : WriterEvent} {w : Writer}
    (hstep : p.writer.step event = some w) (hsend : ∀ message, event ≠ .send message)
    (hrunning : w.status = .running) {log : List (Statement × Bool)} (hlog : w.log = p.writer.log ++ log)
    (hstorable : ∀ entry ∈ log, entry.1.Storable σ.db.symbols) (hbatch : w.batch ⊆ p.writer.batch ++ p.writer.queue)
    (hqueue : w.queue ⊆ p.writer.queue) :
    ∃ σ' p', σ.write p event = some σ' ∧ σ'.process = some p' ∧ p'.writer = w ∧ p'.outbox = p.outbox ∧
      Pipes σ σ' p p' := by
  obtain ⟨db, hdb⟩ := Tables.executeAll_total hstorable
  have hwrite : σ.write p event = some ⟨db, some { p with writer := w }⟩ := by
    simp only [Service.write, hstep, hlog, List.drop_left, hdb, hrunning, if_true]
  have hacc := (Writer.step_inv h.writer hstep).isAccounted hrunning
  refine ⟨_, _, hwrite, rfl, rfl, rfl, h.pipes hacc hlog hdb ?_ ?_⟩
  · rw [((Writer.step_does hstep).drains hsend).1]
  · intro message hmessage
    have hold := @hbatch message
    have hsame := @hqueue message
    simp only [Process.inFlight, List.mem_append] at hmessage hold hsame ⊢
    tauto

theorem Process.Inv.receive_total {σ : Service} {p : Process} (hp : σ.process = some p) (h : p.Inv)
    {message : WriteMsg} {rest : List WriteMsg} (hqueue : p.writer.queue = message :: rest)
    (hstorable : ∀ message ∈ p.inFlight, Storable σ.db.symbols message) :
    ∃ σ' p', σ.step (.receive allDone) = some σ' ∧ σ'.process = some p' ∧ Pipes σ σ' p p' ∧
      p'.distance < p.distance := by
  have hstep : p.writer.step (.recv allDone) = some (p.writer.accept message rest allDone) := by
    simp [Writer.step, h.running, hqueue]
  have hpush : ∀ other ∈ (p.writer.push message rest).batch, Storable σ.db.symbols other := by
    intro other hother
    apply hstorable
    simp only [Writer.push, Process.inFlight, hqueue, List.mem_append, List.mem_cons,
      List.not_mem_nil, or_false] at hother ⊢
    tauto
  obtain ⟨hstatus, hempty, log, hlog, hgood⟩ := Writer.flush_allDone hpush
  obtain ⟨hrunning, hrest, hbatch, log', hlog', hgood'⟩ :
      (p.writer.accept message rest allDone).status = .running ∧
        (p.writer.accept message rest allDone).queue = rest ∧
        ((p.writer.accept message rest allDone).batch = [] ∨
          (p.writer.accept message rest allDone).batch = p.writer.batch ++ [message]) ∧
        ∃ log, (p.writer.accept message rest allDone).log = p.writer.log ++ log ∧
          ∀ entry ∈ log, entry.1.Storable σ.db.symbols := by
    unfold Writer.accept
    split_ifs
    · exact ⟨hstatus.trans h.running, ((p.writer.push message rest).flush_channel allDone).2.1,
        Or.inl hempty, log, hlog, hgood⟩
    · exact ⟨h.running, rfl, Or.inr rfl, [], (List.append_nil _).symm, by simp⟩
  obtain ⟨σ', p', hwrite, hp', hw, houtbox, hpipes⟩ := h.write_total hstep (by simp) hrunning hlog' hgood'
    (by rcases hbatch with hb | hb <;> rw [hb] <;> simp [hqueue]) (by rw [hrest, hqueue]; simp)
  refine ⟨σ', p', by simpa [Service.step, hp] using hwrite, hp', hpipes, ?_⟩
  simp only [Process.distance, hw, houtbox, hrest, hqueue, List.length_cons]
  rcases hbatch with hb | hb <;> rw [hb]
  · rw [List.length_nil]
    omega
  · rw [List.length_append, List.length_singleton]
    omega

theorem Process.Inv.tick_total {σ : Service} {p : Process} (hp : σ.process = some p) (h : p.Inv)
    (hbatch : p.writer.batch ≠ []) (hstorable : ∀ message ∈ p.inFlight, Storable σ.db.symbols message) :
    ∃ σ' p', σ.step (.tick allDone) = some σ' ∧ σ'.process = some p' ∧ Pipes σ σ' p p' ∧
      p'.distance < p.distance := by
  have hstep : p.writer.step (.tick allDone) = some (p.writer.flush allDone) := by
    simp [Writer.step, h.running]
  obtain ⟨hstatus, hempty, log, hlog, hgood⟩ :=
    Writer.flush_allDone (w := p.writer) fun message hmessage =>
      hstorable message (by simp [Process.inFlight, hmessage])
  have hqueue := (p.writer.flush_channel allDone).2.1
  obtain ⟨σ', p', hwrite, hp', hw, houtbox, hpipes⟩ := h.write_total hstep (by simp)
    (hstatus.trans h.running) hlog hgood (by rw [hempty]; simp) (by rw [hqueue]; simp)
  refine ⟨σ', p', by simpa [Service.step, hp] using hwrite, hp', hpipes, ?_⟩
  have hpos := List.length_pos_iff.mpr hbatch
  simp only [Process.distance, hw, houtbox, hqueue, hempty, List.length_nil]
  omega

/-- While rows are in flight, one of the three steps of the pipe can be taken. -/
theorem Process.Inv.advance {σ : Service} {p : Process} (hp : σ.process = some p) (h : p.Inv)
    (hne : p.inFlight ≠ []) (hstorable : ∀ message ∈ p.inFlight, Storable σ.db.symbols message) :
    ∃ event σ' p', (event = .enqueue ∨ event = .receive allDone ∨ event = .tick allDone) ∧
      σ.step event = some σ' ∧ σ'.process = some p' ∧ Pipes σ σ' p p' ∧ p'.distance < p.distance := by
  cases hqueue : p.writer.queue with
  | cons message rest =>
    obtain ⟨σ', p', hstep⟩ := h.receive_total hp hqueue hstorable
    exact ⟨_, σ', p', Or.inr (Or.inl rfl), hstep⟩
  | nil =>
    cases houtbox : p.outbox with
    | cons message rest =>
      obtain ⟨σ', p', hstep⟩ := h.enqueue_total hp houtbox (by simp [hqueue, writeChannelCapacity])
      exact ⟨_, σ', p', Or.inl rfl, hstep⟩
    | nil =>
      have hbatch : p.writer.batch ≠ [] := by
        intro hnil
        simp [inFlight, hqueue, houtbox, hnil] at hne
      obtain ⟨σ', p', hstep⟩ := h.tick_total hp hbatch hstorable
      exact ⟨_, σ', p', Or.inr (Or.inr rfl), hstep⟩

theorem Service.Inv.drain {σ : Service} {rows : List OrderbookMessageRow} {lives : List Life}
    (h : (σ.withMessages rows).Inv lives) {p : Process} (hp : σ.process = some p)
    (hstorable : ∀ message ∈ p.inFlight, Storable σ.db.symbols message) :
    ∃ events σ' p', σ.run events = some σ' ∧
      (∀ event ∈ events, event = .enqueue ∨ event = .receive allDone ∨ event = .tick allDone) ∧
      σ'.process = some p' ∧ Pipes σ σ' p p' ∧ p'.inFlight = [] := by
  induction hd : p.distance using Nat.strong_induction_on generalizing σ rows lives p with
  | _ d ih =>
    by_cases hempty : p.inFlight = []
    · exact ⟨[], σ, p, rfl, by simp, hp, .refl σ p, hempty⟩
    · obtain ⟨event, mid, q, hevent, hstep, hq, hpipes, hless⟩ :=
        (h.serving p hp).1.advance hp hempty hstorable
      have hkeeps : ∀ now, event ≠ .retain now := by
        rcases hevent with rfl | rfl | rfl <;> simp
      obtain ⟨new, -, hframe⟩ := Service.step_frame hkeeps hstep
      obtain ⟨lives', hmid, -⟩ := Service.step_inv h hkeeps (hframe rows)
      have hstorable' : ∀ message ∈ q.inFlight, Storable mid.db.symbols message := by
        intro message hmessage
        rw [hpipes.symbols]
        exact hstorable message (hpipes.inFlight hmessage)
      obtain ⟨events, σ', p', hrun, hevents, hp', hrest, hnone⟩ :=
        ih q.distance (hd ▸ hless) hmid hq hstorable' rfl
      refine ⟨event :: events, σ', p', ?_, ?_, hp', hpipes.trans hrest, hnone⟩
      · rw [Service.run, List.foldlM_cons, hstep]
        exact hrun
      · intro other hother
        rcases List.mem_cons.mp hother with rfl | hother
        · exact hevent
        · exact hevents other hother

theorem Life.messageType {life : Life} {row : OrderbookMessageRow}
    (hrow : .orderbook row ∈ life.emitted.sent) : row.messageType ∈ messageTypes := by
  obtain ⟨new, hsent, hnew⟩ := collect_emits life.config (.start none) life.connections
  have hknown := hrow
  rw [emitted, hsent] at hknown
  obtain ⟨m, hm⟩ := hnew _ (by simpa [Channel.start] using hknown)
  have hmem : row ∈ ofSymbol row.symbol (orderbookRows life.emitted.sent) := by
    simpa [ofSymbol, orderbookRows] using ⟨_, hrow, rfl⟩
  rcases (made_unbroken (collect_made hm life.connections)).kinds row hmem with htype | ⟨htype, -⟩ <;>
    simp [htype, messageTypes]

/-- The constraints that only the server's data can break. -/
def WriteMsg.Fits : WriteMsg → Prop
  | trade row => row.tradeType ∈ tradeTypes ∧ Timestamptz row.time
  | orderbook row => Timestamptz row.time

theorem Service.Inv.storable {σ : Service} {lives : List Life} (h : σ.Inv lives) {p : Process}
    (hp : σ.process = some p) {message : WriteMsg} (hmessage : message ∈ p.inFlight)
    (hfits : message.Fits) : Storable σ.db.symbols message := by
  obtain ⟨hinv, earlier, life, rfl, hlives⟩ := h.serving p hp
  have hsent : message ∈ life.emitted.sent := hlives.emitted ▸ hinv.inFlight_subset hmessage
  have hreferences := (h.stored.knows (by simp) hsent).references
  cases message with
  | trade row => exact ⟨hreferences, hfits.1, hfits.2⟩
  | orderbook row => exact ⟨hreferences, Life.messageType hsent, hfits⟩

/-- The bounded channel never blocks for good: from every state of a running process the rows
in flight can all be brought to their tables, with nothing new read and nothing changed on
the way, unless the server has sent what a constraint keeps out. -/
theorem service_drains {events : List ServiceEvent} {σ : Service}
    (hrun : Service.initial.run events = some σ) {p : Process} (hp : σ.process = some p)
    (hfits : ∀ message ∈ p.inFlight, message.Fits) :
    ∃ more σ' p', σ.run more = some σ' ∧
      (∀ event ∈ more, event = .enqueue ∨ event = .receive allDone ∨ event = .tick allDone) ∧
      σ'.process = some p' ∧ p'.config = p.config ∧ p'.link = p.link ∧ p'.inFlight = [] ∧
      σ'.db.symbols = σ.db.symbols ∧ σ'.db.messages = σ.db.messages ++ orderbookRows p.inFlight ∧
      σ'.db.trades = σ.db.trades.insert (tradeRows p.inFlight) := by
  obtain ⟨lives, h, -⟩ := Service.run_inv hrun
  obtain ⟨more, σ', p', hmore, hevents, hp', hpipes, hnone⟩ :=
    h.drain hp fun message hmessage => h.storable hp hmessage (hfits message hmessage)
  refine ⟨more, σ', p', hmore, hevents, hp', hpipes.config, hpipes.link, hnone, hpipes.symbols, ?_, ?_⟩
  · rw [← hpipes.messages, hnone]
    exact (List.append_nil _).symm
  · rw [← hpipes.trades, hnone]
    rfl

end

theorem sample_drains : letI := wholeNumbers;
    ∃ σ p more σ', Service.initial.run sampleRestart = some σ ∧ σ.process = some p ∧
      p.inFlight.length = 1 ∧ σ.run more = some σ' ∧ σ'.db.messages.length = 3 := by
  let := wholeNumbers
  obtain ⟨more, σ', p', hmore, -, -, -, -, -, -, hmessages, -⟩ :=
    @service_drains wholeNumbers sampleRestart _ rfl _ rfl (by
      intro message hmessage
      obtain rfl := List.mem_singleton.mp hmessage
      exact ⟨by decide, by decide⟩)
  exact ⟨_, _, more, σ', rfl, rfl, rfl, hmore, by rw [hmessages]; rfl⟩

end LighterIngestor
