import LighterIngestor.WriterRuns

namespace LighterIngestor

section

variable [NumberTypes]

theorem written_flushes {flushes : List Flushed} (hsound : ∀ f ∈ flushes, f.Sound)
    (hok : ∀ f ∈ flushes, f.ok = true) :
    writtenTrades (flushes.flatMap Flushed.statements) = tradeRows (flushes.flatMap Flushed.batch) ∧
      writtenBooks (flushes.flatMap Flushed.statements) =
        orderbookRows (flushes.flatMap Flushed.batch) := by
  induction flushes with
  | nil => exact ⟨rfl, rfl⟩
  | cons f rest ih =>
    obtain ⟨hf, hrest⟩ := List.forall_mem_cons.mp hsound
    obtain ⟨hfok, hrestok⟩ := List.forall_mem_cons.mp hok
    obtain ⟨-, htrades, hbooks⟩ := hf.done hfok
    obtain ⟨ihtrades, ihbooks⟩ := ih hrest hrestok
    simp only [List.flatMap_cons, writtenTrades_append, writtenBooks_append, tradeRows_append,
      orderbookRows_append, htrades, hbooks, ihtrades, ihbooks, and_self]

theorem statements_succeed {flushes : List Flushed} (hsound : ∀ f ∈ flushes, f.Sound)
    (hok : ∀ f ∈ flushes, f.ok = true) :
    ∀ entry ∈ flushes.flatMap Flushed.statements, entry.2 = true := by
  intro entry hentry
  obtain ⟨f, hf, hmem⟩ := List.mem_flatMap.mp hentry
  exact ((hsound f hf).done (hok f hf)).1 entry hmem

theorem FlushHistory.failsLast {flushes : List Flushed} {status : WriterStatus}
    (h : FlushHistory flushes status) : FailsLast (flushes.flatMap Flushed.statements) := by
  by_cases hstatus : status = .exited
  · obtain ⟨before, failing, rfl, hbefore, hfailing⟩ := h.exited hstatus
    rw [List.flatMap_append, List.flatMap_singleton]
    refine failsLast_append (statements_succeed (fun f hf => h.sound f (by simp [hf])) hbefore) ?_
    exact ((h.sound failing (by simp)).failed hfailing).1
  · rw [← List.append_nil (flushes.flatMap _)]
    exact failsLast_append (statements_succeed h.sound (h.running hstatus)) trivial

theorem Writer.Inv.accounted {w : Writer} (h : w.Inv) (hstatus : w.status ≠ .exited) :
    writtenBooks w.log ++ orderbookRows w.batch = orderbookRows w.received ∧
      writtenTrades w.log ++ tradeRows w.batch = tradeRows w.received := by
  obtain ⟨htrades, hbooks⟩ := written_flushes h.history.sound (h.history.running hstatus)
  rw [h.received, orderbookRows_append, tradeRows_append, Writer.log, htrades, hbooks]
  exact ⟨rfl, rfl⟩

theorem Writer.stopped_step {w w' : Writer} {event : WriterEvent} (hstatus : w.status ≠ .running)
    (hstep : w.step event = some w') : w'.log = w.log ∧ w'.status = w.status := by
  cases event with
  | close =>
    cases hstep
    exact ⟨rfl, rfl⟩
  | send message => simp [step, hstatus] at hstep
  | recv outcome => simp [step, hstatus] at hstep
  | tick outcome => simp [step, hstatus] at hstep

theorem Writer.stopped_run {w w' : Writer} {events : List WriterEvent} (hstatus : w.status ≠ .running)
    (hrun : w.run events = some w') : w'.log = w.log := by
  induction events generalizing w with
  | nil =>
    cases hrun
    rfl
  | cons event rest ih =>
    rw [run, List.foldlM_cons, Option.bind_eq_bind, Option.bind_eq_some_iff] at hrun
    obtain ⟨mid, hstep, hrest⟩ := hrun
    obtain ⟨hlog, hsame⟩ := stopped_step hstatus hstep
    rw [ih (hsame ▸ hstatus) hrest, hlog]

theorem Writer.Does.takes {w w' : Writer} {outcome : FlushOutcome} (hdoes : w.Does (.recv outcome) w') :
    w'.received = w.received ++ w.queue.head?.toList ∧ w'.queue = w.queue.tail := by
  cases hdoes with
  | accept outcome hrunning hqueue =>
    obtain ⟨hreceived, hrest, -⟩ := w.accept_channel _ _ outcome
    rw [hqueue]
    exact ⟨hreceived, hrest⟩
  | finish outcome hrunning hqueue hclosed =>
    obtain ⟨hreceived, hrest, -⟩ := w.finish_channel outcome
    rw [hreceived, hrest, hqueue]
    exact ⟨(List.append_nil _).symm, rfl⟩

theorem Writer.Does.keeps {w w' : Writer} {event : WriterEvent} (hdoes : w.Does event w')
    (hevent : ∀ outcome, event ≠ .recv outcome) :
    w'.received = w.received ∧ w'.queue = w.queue ++ sentMessages [event] := by
  cases hdoes with
  | send message => exact ⟨rfl, rfl⟩
  | close => exact ⟨rfl, (List.append_nil _).symm⟩
  | accept outcome => exact absurd rfl (hevent outcome)
  | finish outcome => exact absurd rfl (hevent outcome)
  | tick outcome =>
    obtain ⟨hreceived, hrest, -⟩ := w.flush_channel outcome
    exact ⟨hreceived, hrest.trans (List.append_nil _).symm⟩

theorem Writer.Does.sent {w w' : Writer} {event : WriterEvent} (hdoes : w.Does event w') :
    w'.sent = w.sent ++ sentMessages [event] := by
  by_cases hrecv : ∃ outcome, event = .recv outcome
  · obtain ⟨outcome, rfl⟩ := hrecv
    obtain ⟨hreceived, hqueue⟩ := hdoes.takes
    rw [Writer.sent, hreceived, hqueue, Writer.sent]
    cases w.queue <;> simp [sentMessages]
  · obtain ⟨hreceived, hqueue⟩ := hdoes.keeps (not_exists.mp hrecv)
    rw [Writer.sent, hreceived, hqueue, ← List.append_assoc, Writer.sent]

theorem Writer.run_sent {w w' : Writer} {events : List WriterEvent} (hrun : w.run events = some w') :
    w'.sent = w.sent ++ sentMessages events := by
  induction events generalizing w with
  | nil =>
    cases hrun
    exact (List.append_nil _).symm
  | cons event rest ih =>
    rw [run, List.foldlM_cons, Option.bind_eq_bind, Option.bind_eq_some_iff] at hrun
    obtain ⟨mid, hstep, hrest⟩ := hrun
    rw [ih hrest, (step_does hstep).sent, List.append_assoc, sentMessages, sentMessages,
      ← List.filterMap_append]
    rfl

/-- A run of the writer loses, repeats and reorders nothing, whenever it flushes. -/
theorem writer_lossless {events : List WriterEvent} {w : Writer}
    (hrun : Writer.start.run events = some w) :
    w.received ++ w.queue = sentMessages events ∧
    (∀ outcome w', w.step (.recv outcome) = some w' →
      w'.received = w.received ++ w.queue.head?.toList ∧ w'.queue = w.queue.tail) ∧
    (∀ event w', (∀ outcome, event ≠ .recv outcome) → w.step event = some w' →
      w'.received = w.received ∧ w'.queue = w.queue ++ sentMessages [event]) ∧
    (w.status ≠ .exited →
      writtenBooks w.log ++ orderbookRows w.batch = orderbookRows w.received ∧
      writtenTrades w.log ++ tradeRows w.batch = tradeRows w.received) ∧
    w.batch.length ≤ batchCapacity ∧ (∀ f ∈ w.flushes, f.batch.length ≤ batchCapacity) ∧
    (∀ entry ∈ w.log, 0 < entry.1.rowCount ∧ entry.1.rowCount ≤ batchCapacity) ∧
    (∀ entry ∈ w.log, entry.2 = false → w.status = .exited) ∧ FailsLast w.log ∧
    (w.status = .exited →
      (∃ before failing, w.flushes = before ++ [failing] ∧ (∀ f ∈ before, f.ok = true) ∧
        failing.ok = false ∧ writtenBooks w.log = orderbookRows (before.flatMap Flushed.batch) ∧
        w.received = before.flatMap Flushed.batch ++ failing.batch ++ w.batch) ∧
      ∀ more w', w.run more = some w' → w'.log = w.log) ∧
    (w.status = .returned → w.closed = true ∧ writtenBooks w.log = orderbookRows (sentMessages events) ∧
      writtenTrades w.log = tradeRows (sentMessages events)) := by
  have h := Writer.run_inv Writer.start_inv hrun
  refine ⟨Writer.run_sent hrun, ?_, ?_, h.accounted, le_of_lt h.small,
    fun f hf => (h.history.sound f hf).size, ?_, ?_, h.history.failsLast, fun hexited => ⟨?_, ?_⟩, ?_⟩
  · exact fun outcome w' hstep => (Writer.step_does hstep).takes
  · exact fun event w' hevent hstep => (Writer.step_does hstep).keeps hevent
  · intro entry hentry
    obtain ⟨f, hf, hmem⟩ := List.mem_flatMap.mp hentry
    obtain ⟨hpos, hle⟩ := (h.history.sound f hf).rows entry hmem
    exact ⟨hpos, hle.trans (h.history.sound f hf).size⟩
  · intro entry hentry hfalse
    by_contra hstatus
    have htrue := statements_succeed h.history.sound (h.history.running hstatus) entry hentry
    exact absurd (htrue.symm.trans hfalse) (by simp)
  · obtain ⟨before, failing, hflushes, hbefore, hfailing⟩ := h.history.exited hexited
    have hsound : ∀ f ∈ before ++ [failing], f.Sound := hflushes ▸ h.history.sound
    refine ⟨before, failing, hflushes, hbefore, hfailing, ?_, ?_⟩
    · rw [Writer.log, hflushes, List.flatMap_append, writtenBooks_append, List.flatMap_singleton,
        ((hsound failing (by simp)).failed hfailing).2, List.append_nil]
      exact (written_flushes (fun f hf => hsound f (by simp [hf])) hbefore).2
    · rw [h.received, hflushes, List.flatMap_append, List.flatMap_singleton]
  · exact fun more w' hmore => Writer.stopped_run (by simp [hexited]) hmore
  · intro hreturned
    obtain ⟨hclosed, hqueue, hbatch⟩ := h.returned hreturned
    obtain ⟨hbooks, htrades⟩ := h.accounted (by simp [hreturned])
    rw [hbatch] at hbooks htrades
    have hsent : w.received ++ w.queue = sentMessages events := Writer.run_sent hrun
    rw [← hsent, hqueue, List.append_nil]
    exact ⟨hclosed, by simpa [orderbookRows] using hbooks, by simpa [tradeRows] using htrades⟩

end

def sampleRow : OrderbookMessageRow :=
  ⟨⟨1790015233, 367788000, by decide⟩, 3, "snapshot", some 10, [⟨"217", "1"⟩], [⟨"218", "2"⟩], none⟩

def sampleWriterEvents [NumberTypes] : List WriterEvent :=
  [.send (.orderbook sampleRow), .recv ⟨true, true, true⟩, .tick ⟨true, true, true⟩,
    .send (.orderbook sampleRow), .close, .recv ⟨true, true, true⟩, .recv ⟨true, true, true⟩]

theorem sample_lossless : letI := wholeNumbers;
    ∃ w, Writer.start.run sampleWriterEvents = some w ∧ w.status = .returned ∧
      sentMessages sampleWriterEvents = [.orderbook sampleRow, .orderbook sampleRow] ∧
      writtenBooks w.log = [sampleRow, sampleRow] := by
  let := wholeNumbers
  obtain ⟨-, -, -, -, -, -, -, -, -, -, hreturned⟩ := @writer_lossless _ sampleWriterEvents _ rfl
  exact ⟨_, rfl, rfl, rfl, (hreturned rfl).2.1⟩

end LighterIngestor
