import LighterIngestor.LosslessWriter

namespace LighterIngestor

variable [NumberTypes]

/-- What has been written is the start of what was received, also where a flush failed halfway. -/
structure Writer.Within (w : Writer) : Prop where
  trades : writtenTrades w.log <+: tradeRows w.received
  books : writtenBooks w.log <+: orderbookRows w.received

theorem runInserts_written (trades : List TradeRow) (books : List OrderbookMessageRow)
    (outcome : FlushOutcome) :
    writtenTrades (runInserts trades books outcome).1 <+: trades ∧
      writtenBooks (runInserts trades books outcome).1 <+: books := by
  obtain ⟨connection, okTrades, okBooks⟩ := outcome
  cases connection <;> cases trades <;> cases books <;> cases okTrades <;> cases okBooks <;>
    simp [runInserts, writtenTrades, writtenBooks]

theorem Writer.flush_written (w : Writer) (outcome : FlushOutcome) :
    (w.flush outcome).received = w.received ∧ ∃ new, (w.flush outcome).log = w.log ++ new ∧
      writtenTrades new <+: tradeRows w.batch ∧ writtenBooks new <+: orderbookRows w.batch := by
  unfold flush
  split_ifs
  · exact ⟨rfl, [], (List.append_nil _).symm, List.nil_prefix, List.nil_prefix⟩
  · obtain ⟨htrades, hbooks⟩ :=
      runInserts_written (tradeRows w.batch) (orderbookRows w.batch) outcome
    exact ⟨rfl, _, by simp [log], htrades, hbooks⟩

/-- The batch of a writer is what it has received and not written. -/
structure Writer.Accounted (w : Writer) : Prop where
  trades : writtenTrades w.log ++ tradeRows w.batch = tradeRows w.received
  books : writtenBooks w.log ++ orderbookRows w.batch = orderbookRows w.received

theorem Writer.Accounted.within {w : Writer} (h : w.Accounted) : w.Within :=
  ⟨⟨_, h.trades⟩, ⟨_, h.books⟩⟩

theorem Writer.Accounted.push {w : Writer} (h : w.Accounted) (message : WriteMsg) (rest : List WriteMsg) :
    (w.push message rest).Accounted := by
  refine ⟨?_, ?_⟩
  · change writtenTrades w.log ++ tradeRows (w.batch ++ [message]) = tradeRows (w.received ++ [message])
    rw [tradeRows_append, tradeRows_append, ← List.append_assoc, h.trades]
  · change writtenBooks w.log ++ orderbookRows (w.batch ++ [message]) =
      orderbookRows (w.received ++ [message])
    rw [orderbookRows_append, orderbookRows_append, ← List.append_assoc, h.books]

theorem Writer.Accounted.flush {w : Writer} (h : w.Accounted) (outcome : FlushOutcome) :
    (w.flush outcome).Within := by
  obtain ⟨hreceived, new, hlog, htrades, hbooks⟩ := w.flush_written outcome
  refine ⟨?_, ?_⟩
  · rw [hlog, hreceived, writtenTrades_append, ← h.trades]
    exact (List.prefix_append_right_inj _).mpr htrades
  · rw [hlog, hreceived, writtenBooks_append, ← h.books]
    exact (List.prefix_append_right_inj _).mpr hbooks

theorem Writer.Inv.isAccounted {w : Writer} (h : w.Inv) (hrunning : w.status = .running) : w.Accounted := by
  obtain ⟨hbooks, htrades⟩ := h.accounted (by simp [hrunning])
  exact ⟨htrades, hbooks⟩

theorem Writer.accept_within {w : Writer} (h : w.Accounted) (message : WriteMsg) (rest : List WriteMsg)
    (outcome : FlushOutcome) : (w.accept message rest outcome).Within := by
  unfold accept
  split_ifs
  · exact (h.push message rest).flush outcome
  · exact (h.push message rest).within

theorem Writer.finish_within {w : Writer} (h : w.Accounted) (outcome : FlushOutcome) :
    (w.finish outcome).Within := by
  unfold finish
  dsimp only
  split_ifs
  · exact h.flush outcome
  · exact ⟨(h.flush outcome).trades, (h.flush outcome).books⟩

theorem Writer.Does.within {w w' : Writer} {event : WriterEvent} (hdoes : w.Does event w') (h : w.Inv)
    (hrunning : w.status = .running) : w'.Within := by
  have hacc := h.isAccounted hrunning
  cases hdoes with
  | send message => exact ⟨hacc.within.trades, hacc.within.books⟩
  | close => exact ⟨hacc.within.trades, hacc.within.books⟩
  | accept outcome => exact accept_within hacc _ _ outcome
  | finish outcome => exact finish_within hacc outcome
  | tick outcome => exact hacc.flush outcome

theorem Writer.flush_log (w : Writer) (outcome : FlushOutcome) : w.log <+: (w.flush outcome).log := by
  obtain ⟨-, new, hlog, -⟩ := w.flush_written outcome
  exact ⟨new, hlog.symm⟩

theorem Writer.Does.log {w w' : Writer} {event : WriterEvent} (hdoes : w.Does event w') :
    w.log <+: w'.log := by
  cases hdoes with
  | send message => exact List.prefix_refl _
  | close => exact List.prefix_refl _
  | @accept message rest outcome =>
    unfold Writer.accept
    split_ifs
    · exact (w.push message rest).flush_log outcome
    · exact List.prefix_refl _
  | finish outcome =>
    unfold Writer.finish
    dsimp only
    split_ifs
    · exact w.flush_log outcome
    · exact w.flush_log outcome
  | tick outcome => exact w.flush_log outcome

theorem Writer.Does.drains {w w' : Writer} {event : WriterEvent} (hdoes : w.Does event w')
    (hsend : ∀ message, event ≠ .send message) : w'.sent = w.sent ∧ w'.queue.length ≤ w.queue.length := by
  cases event with
  | send message => exact absurd rfl (hsend message)
  | close => exact ⟨hdoes.sent.trans (List.append_nil _), by simp [(hdoes.keeps (by simp)).2, sentMessages]⟩
  | recv outcome => exact ⟨hdoes.sent.trans (List.append_nil _), by simp [hdoes.takes.2]⟩
  | tick outcome => exact ⟨hdoes.sent.trans (List.append_nil _), by simp [(hdoes.keeps (by simp)).2, sentMessages]⟩

theorem Writer.Does.closed {w w' : Writer} {event : WriterEvent} (hdoes : w.Does event w')
    (hclose : event ≠ .close) : w'.closed = w.closed := by
  cases hdoes with
  | send message => rfl
  | close => exact absurd rfl hclose
  | accept outcome => exact (w.accept_channel _ _ outcome).2.2
  | finish outcome => exact (w.finish_channel outcome).2.2
  | tick outcome => exact (w.flush_channel outcome).2.2

theorem Writer.flush_exits {w : Writer} (hrunning : w.status = .running) {outcome : FlushOutcome}
    (hstopped : (w.flush outcome).status ≠ .running) :
    (w.flush outcome).status = .exited ∧ (w.flush outcome).batch = [] := by
  rcases w.flush_cases outcome with ⟨-, heq⟩ | ⟨f, -, -, heq⟩
  · rw [heq] at hstopped
    exact absurd hrunning hstopped
  · rw [heq] at hstopped ⊢
    refine ⟨?_, rfl⟩
    cases hok : f.ok with
    | true => simp [hok, hrunning] at hstopped
    | false => rfl

theorem Writer.Does.exits {w w' : Writer} {event : WriterEvent} (hdoes : w.Does event w')
    (hrunning : w.status = .running) (hopened : w.closed = false) (hstopped : w'.status ≠ .running) :
    w'.status = .exited ∧ w'.batch = [] := by
  cases hdoes with
  | send message => exact absurd hrunning hstopped
  | close => exact absurd hrunning hstopped
  | @accept message rest outcome =>
    unfold Writer.accept at hstopped ⊢
    split_ifs at hstopped ⊢
    · exact flush_exits (w := w.push message rest) hrunning hstopped
    · exact absurd hrunning hstopped
  | finish outcome _ _ hclosed => exact absurd (hopened.symm.trans hclosed) (by simp)
  | tick outcome => exact flush_exits hrunning hstopped

/-- What an exited writer has received and not written is the batch whose flush failed, of
which trades may have been written. -/
theorem Writer.Inv.missing {w : Writer} (h : w.Inv) (hwithin : w.Within) (hexited : w.status = .exited)
    (hbatch : w.batch = []) : ∃ batch : List WriteMsg, batch.length ≤ batchCapacity ∧
      batch <:+ w.received ∧ writtenBooks w.log ++ orderbookRows batch = orderbookRows w.received ∧
      ∃ missing, missing <:+ tradeRows batch ∧ writtenTrades w.log ++ missing = tradeRows w.received := by
  obtain ⟨before, failing, hflushes, hbefore, hfailing⟩ := h.history.exited hexited
  have hsound : ∀ f ∈ before ++ [failing], f.Sound := hflushes ▸ h.history.sound
  obtain ⟨htrades, hbooks⟩ := written_flushes (fun f hf => hsound f (by simp [hf])) hbefore
  have hlog : w.log = before.flatMap Flushed.statements ++ failing.statements := by
    rw [log, hflushes, List.flatMap_append, List.flatMap_singleton]
  have hreceived : w.received = before.flatMap Flushed.batch ++ failing.batch := by
    rw [h.received, hbatch, List.append_nil, hflushes, List.flatMap_append, List.flatMap_singleton]
  refine ⟨failing.batch, (hsound failing (by simp)).size, ⟨_, hreceived.symm⟩, ?_, ?_⟩
  · rw [hlog, hreceived, writtenBooks_append, ((hsound failing (by simp)).failed hfailing).2,
      List.append_nil, hbooks, orderbookRows_append]
  · have hcut := hwithin.trades
    rw [hlog, hreceived, writtenTrades_append, tradeRows_append, htrades, List.prefix_append_right_inj] at hcut
    obtain ⟨missing, hmissing⟩ := hcut
    refine ⟨missing, ⟨_, hmissing⟩, ?_⟩
    rw [hlog, hreceived, writtenTrades_append, tradeRows_append, htrades, List.append_assoc, hmissing]

end LighterIngestor
