import LighterIngestor.Writer
import Mathlib.Data.List.Basic

namespace LighterIngestor

theorem batchCapacity_pos : 0 < batchCapacity := by decide

variable [NumberTypes]

theorem tradeRows_append (a b : List WriteMsg) : tradeRows (a ++ b) = tradeRows a ++ tradeRows b :=
  List.filterMap_append

theorem orderbookRows_append (a b : List WriteMsg) :
    orderbookRows (a ++ b) = orderbookRows a ++ orderbookRows b := List.filterMap_append

theorem writtenTrades_append (a b : List (Statement × Bool)) :
    writtenTrades (a ++ b) = writtenTrades a ++ writtenTrades b := List.flatMap_append

theorem writtenBooks_append (a b : List (Statement × Bool)) :
    writtenBooks (a ++ b) = writtenBooks a ++ writtenBooks b := List.flatMap_append

/-- A statement that fails has none after it. -/
def FailsLast : List (Statement × Bool) → Prop
  | [] => True
  | entry :: rest => (entry.2 = false → rest = []) ∧ FailsLast rest

theorem failsLast_append {good log : List (Statement × Bool)} (hgood : ∀ entry ∈ good, entry.2 = true)
    (h : FailsLast log) : FailsLast (good ++ log) := by
  induction good with
  | nil => exact h
  | cons entry rest ih =>
    obtain ⟨hentry, hrest⟩ := List.forall_mem_cons.mp hgood
    exact ⟨fun hfalse => absurd (hentry.symm.trans hfalse) (by simp), ih hrest⟩

structure Flushed.Sound (f : Flushed) : Prop where
  size : f.batch.length ≤ batchCapacity
  rows : ∀ entry ∈ f.statements, 0 < entry.1.rowCount ∧ entry.1.rowCount ≤ f.batch.length
  done : f.ok = true → (∀ entry ∈ f.statements, entry.2 = true) ∧
    writtenTrades f.statements = tradeRows f.batch ∧ writtenBooks f.statements = orderbookRows f.batch
  failed : f.ok = false → FailsLast f.statements ∧ writtenBooks f.statements = []

/-- The statements that a flush has run when it comes to the order-book rows. -/
structure TradesDone (batch : List WriteMsg) (first : List (Statement × Bool)) : Prop where
  good : ∀ entry ∈ first, entry.2 = true
  rows : ∀ entry ∈ first, 0 < entry.1.rowCount ∧ entry.1.rowCount ≤ batch.length
  trades : writtenTrades first = tradeRows batch
  books : writtenBooks first = []

theorem trades_done {batch : List WriteMsg} (ok : Bool) (hok : tradeRows batch = [] ∨ ok = true) :
    TradesDone batch
      (if (tradeRows batch).isEmpty then [] else [(.insertTrades (tradeRows batch), ok)]) := by
  have hlength : (tradeRows batch).length ≤ batch.length := List.length_filterMap_le _ _
  cases htrades : tradeRows batch with
  | nil =>
    exact ⟨fun _ h => absurd h List.not_mem_nil, fun _ h => absurd h List.not_mem_nil, htrades.symm, rfl⟩
  | cons row rest =>
    obtain rfl : ok = true := hok.resolve_left (by simp [htrades])
    rw [htrades] at hlength
    refine ⟨?_, ?_, (List.append_nil _).trans htrades.symm, rfl⟩
    · intro entry hentry
      exact List.mem_singleton.mp hentry ▸ rfl
    · intro entry hentry
      obtain rfl := List.mem_singleton.mp hentry
      exact ⟨Nat.succ_pos _, hlength⟩

theorem trades_failed {batch : List WriteMsg} (h : batch.length ≤ batchCapacity)
    (hne : tradeRows batch ≠ []) :
    Flushed.Sound ⟨batch, [(.insertTrades (tradeRows batch), false)], false⟩ := by
  refine ⟨h, ?_, fun hok => absurd hok (by simp), fun _ => ⟨⟨fun _ => rfl, trivial⟩, rfl⟩⟩
  intro entry hentry
  obtain rfl := List.mem_singleton.mp hentry
  exact ⟨List.length_pos_iff.mpr hne, List.length_filterMap_le _ _⟩

theorem TradesDone.without_books {batch : List WriteMsg} {first : List (Statement × Bool)}
    (hfirst : TradesDone batch first) (h : batch.length ≤ batchCapacity) (hempty : orderbookRows batch = []) :
    Flushed.Sound ⟨batch, first, true⟩ where
  size := h
  rows := hfirst.rows
  done _ := ⟨hfirst.good, hfirst.trades, hfirst.books.trans hempty.symm⟩
  failed hok := absurd hok (by simp)

theorem TradesDone.with_books {batch : List WriteMsg} {first : List (Statement × Bool)}
    (hfirst : TradesDone batch first) (h : batch.length ≤ batchCapacity) (hne : orderbookRows batch ≠ [])
    (ok : Bool) :
    Flushed.Sound ⟨batch, first ++ [(.insertOrderbookMessages (orderbookRows batch), ok)], ok⟩ where
  size := h
  rows := by
    intro entry hentry
    rcases List.mem_append.mp hentry with hentry | hentry
    · exact hfirst.rows entry hentry
    · obtain rfl := List.mem_singleton.mp hentry
      exact ⟨List.length_pos_iff.mpr hne, List.length_filterMap_le _ _⟩
  done := by
    rintro rfl
    rw [writtenTrades_append, writtenBooks_append, hfirst.trades, hfirst.books]
    refine ⟨?_, List.append_nil _, List.append_nil _⟩
    intro entry hentry
    rcases List.mem_append.mp hentry with hentry | hentry
    · exact hfirst.good entry hentry
    · exact List.mem_singleton.mp hentry ▸ rfl
  failed := by
    rintro rfl
    rw [writtenBooks_append, hfirst.books]
    exact ⟨failsLast_append hfirst.good ⟨fun _ => rfl, trivial⟩, rfl⟩

theorem runInserts_sound {batch : List WriteMsg} (h : batch.length ≤ batchCapacity)
    (outcome : FlushOutcome) : Flushed.Sound
      ⟨batch, (runInserts (tradeRows batch) (orderbookRows batch) outcome).1,
        (runInserts (tradeRows batch) (orderbookRows batch) outcome).2⟩ := by
  unfold runInserts
  dsimp only
  by_cases hconnection : outcome.connection = true
  · rw [if_neg (not_not.mpr hconnection)]
    by_cases hfailed : ¬(tradeRows batch).isEmpty = true ∧ ¬outcome.trades = true
    · rw [if_pos hfailed, if_neg hfailed.1, Bool.eq_false_iff.mpr hfailed.2]
      exact trades_failed h (fun hempty => hfailed.1 (List.isEmpty_iff.mpr hempty))
    · rw [if_neg hfailed]
      have hdone : TradesDone batch _ := trades_done outcome.trades (by
        rw [← List.isEmpty_iff]
        exact or_iff_not_imp_left.mpr fun hne => not_not.mp fun hok => hfailed ⟨hne, hok⟩)
      by_cases hempty : (orderbookRows batch).isEmpty = true
      · rw [if_pos hempty]
        exact hdone.without_books h (List.isEmpty_iff.mp hempty)
      · rw [if_neg hempty]
        exact hdone.with_books h (fun hnil => hempty (List.isEmpty_iff.mpr hnil)) outcome.orderbook
  · rw [if_pos hconnection]
    exact ⟨h, by simp, by simp, fun _ => ⟨trivial, rfl⟩⟩

/-- Flushes of which none failed, or only the last one. -/
structure FlushHistory (flushes : List Flushed) (status : WriterStatus) : Prop where
  sound : ∀ f ∈ flushes, f.Sound
  running : status ≠ .exited → ∀ f ∈ flushes, f.ok = true
  exited : status = .exited → ∃ before failing, flushes = before ++ [failing] ∧
    (∀ f ∈ before, f.ok = true) ∧ failing.ok = false

/-- What holds of the writer between two turns of its loop. -/
structure Writer.Inv (w : Writer) : Prop where
  received : w.received = w.flushes.flatMap Flushed.batch ++ w.batch
  small : w.batch.length < batchCapacity
  history : FlushHistory w.flushes w.status
  returned : w.status = .returned → w.closed = true ∧ w.queue = [] ∧ w.batch = []

theorem Writer.start_inv : Writer.start.Inv where
  received := rfl
  small := batchCapacity_pos
  history := ⟨by simp [start], by simp [start], by simp [start]⟩
  returned := by simp [start]

theorem Writer.flush_cases (w : Writer) (outcome : FlushOutcome) :
    (w.batch = [] ∧ w.flush outcome = w) ∨
      ∃ f : Flushed, f.batch = w.batch ∧ (w.batch.length ≤ batchCapacity → f.Sound) ∧
        w.flush outcome = { w with
          batch := [], flushes := w.flushes ++ [f], status := if f.ok then w.status else .exited } := by
  unfold flush
  cases hbatch : w.batch with
  | nil => exact Or.inl ⟨rfl, rfl⟩
  | cons message rest => exact Or.inr ⟨_, rfl, fun h => runInserts_sound h outcome, rfl⟩

theorem FlushHistory.flush {flushes : List Flushed} {f : Flushed}
    (h : FlushHistory flushes .running) (hf : f.Sound) :
    FlushHistory (flushes ++ [f]) (if f.ok then .running else .exited) where
  sound := by
    intro g hg
    rcases List.mem_append.mp hg with hg | hg
    · exact h.sound g hg
    · exact List.mem_singleton.mp hg ▸ hf
  running := by
    intro hstatus g hg
    have hok : f.ok = true := by
      by_contra hne
      exact hstatus (if_neg hne)
    rcases List.mem_append.mp hg with hg | hg
    · exact h.running (by simp) g hg
    · exact List.mem_singleton.mp hg ▸ hok
  exited := by
    intro hstatus
    have hok : f.ok = false := by
      by_contra hne
      rw [if_pos (by simpa using hne)] at hstatus
      cases hstatus
    exact ⟨flushes, f, rfl, h.running (by simp), hok⟩

/-- A flush keeps the invariant but for the bound on the batch, which it only needs to be met. -/
theorem Writer.flush_inv {w : Writer} (hstatus : w.status = .running)
    (hreceived : w.received = w.flushes.flatMap Flushed.batch ++ w.batch)
    (hsmall : w.batch.length ≤ batchCapacity) (hhistory : FlushHistory w.flushes w.status)
    (outcome : FlushOutcome) : (w.flush outcome).Inv ∧ (w.flush outcome).batch = [] := by
  rcases w.flush_cases outcome with ⟨hempty, heq⟩ | ⟨f, hbatch, hsound, heq⟩
  · rw [heq]
    refine ⟨⟨hreceived, ?_, hhistory, ?_⟩, hempty⟩
    · rw [hempty]
      exact batchCapacity_pos
    · simp [hstatus]
  · rw [heq]
    rw [hstatus] at hhistory
    refine ⟨⟨?_, batchCapacity_pos, ?_, ?_⟩, rfl⟩
    · simp [hreceived, hbatch]
    · rw [hstatus]
      exact hhistory.flush (hsound hsmall)
    · rw [hstatus]
      intro h
      split_ifs at h

theorem Writer.accept_inv {w : Writer} (h : w.Inv) (hstatus : w.status = .running)
    (message : WriteMsg) (rest : List WriteMsg) (outcome : FlushOutcome) :
    (w.accept message rest outcome).Inv := by
  have hreceived : w.received ++ [message] =
      w.flushes.flatMap Flushed.batch ++ (w.batch ++ [message]) := by
    rw [h.received, List.append_assoc]
  have hlength : (w.batch ++ [message]).length ≤ batchCapacity := by
    rw [List.length_append]
    exact h.small
  unfold accept
  split_ifs with hfull
  · exact (flush_inv (w := w.push message rest) hstatus hreceived hlength h.history outcome).1
  · exact ⟨hreceived, not_le.mp hfull, h.history, fun hr => absurd (hstatus.symm.trans hr) (by simp)⟩

theorem Writer.flush_channel (w : Writer) (outcome : FlushOutcome) :
    (w.flush outcome).received = w.received ∧ (w.flush outcome).queue = w.queue ∧
      (w.flush outcome).closed = w.closed := by
  rcases w.flush_cases outcome with ⟨-, heq⟩ | ⟨f, -, -, heq⟩ <;> rw [heq] <;> exact ⟨rfl, rfl, rfl⟩

theorem Writer.accept_channel (w : Writer) (message : WriteMsg) (rest : List WriteMsg)
    (outcome : FlushOutcome) : (w.accept message rest outcome).received = w.received ++ [message] ∧
      (w.accept message rest outcome).queue = rest ∧
      (w.accept message rest outcome).closed = w.closed := by
  unfold accept
  split_ifs
  · exact (w.push message rest).flush_channel outcome
  · exact ⟨rfl, rfl, rfl⟩

theorem Writer.finish_channel (w : Writer) (outcome : FlushOutcome) :
    (w.finish outcome).received = w.received ∧ (w.finish outcome).queue = w.queue ∧
      (w.finish outcome).closed = w.closed := by
  unfold finish
  dsimp only
  split_ifs <;> exact w.flush_channel outcome

theorem Writer.finish_inv {w : Writer} (h : w.Inv) (hstatus : w.status = .running)
    (hqueue : w.queue = []) (hclosed : w.closed = true) (outcome : FlushOutcome) :
    (w.finish outcome).Inv := by
  obtain ⟨hinv, hempty⟩ := flush_inv hstatus h.received (le_of_lt h.small) h.history outcome
  obtain ⟨-, hqueue', hclosed'⟩ := w.flush_channel outcome
  simp only [finish]
  split_ifs with hexited
  · exact hinv
  · refine ⟨hinv.received, hinv.small, ?_, fun _ => ?_⟩
    · exact ⟨hinv.history.sound, fun _ => hinv.history.running hexited, by simp⟩
    · exact ⟨hclosed'.trans hclosed, hqueue'.trans hqueue, hempty⟩

/-- All that an event can do. -/
inductive Writer.Does (w : Writer) : WriterEvent → Writer → Prop where
  | send (message : WriteMsg) (hopen : w.closed = false) (hrunning : w.status = .running) :
      Does w (.send message) { w with queue := w.queue ++ [message] }
  | close : Does w .close { w with closed := true }
  | accept {message : WriteMsg} {rest : List WriteMsg} (outcome : FlushOutcome)
      (hrunning : w.status = .running) (hqueue : w.queue = message :: rest) :
      Does w (.recv outcome) (w.accept message rest outcome)
  | finish (outcome : FlushOutcome) (hrunning : w.status = .running) (hqueue : w.queue = [])
      (hclosed : w.closed = true) : Does w (.recv outcome) (w.finish outcome)
  | tick (outcome : FlushOutcome) (hrunning : w.status = .running) :
      Does w (.tick outcome) (w.flush outcome)

theorem Writer.step_does {w w' : Writer} {event : WriterEvent} (hstep : w.step event = some w') :
    w.Does event w' := by
  cases event with
  | send message =>
    simp only [step] at hstep
    split_ifs at hstep with hblocked
    cases hstep
    rw [not_or, not_not, Bool.not_eq_true] at hblocked
    exact .send message hblocked.1 hblocked.2
  | close =>
    cases hstep
    exact .close
  | tick outcome =>
    simp only [step] at hstep
    split_ifs at hstep with hrunning
    cases hstep
    exact .tick outcome (not_not.mp hrunning)
  | recv outcome =>
    by_cases hrunning : w.status = .running
    · simp only [step, hrunning, ne_eq, not_true_eq_false, if_false] at hstep
      split at hstep
      · rename_i message rest hqueue
        cases hstep
        exact .accept outcome hrunning hqueue
      · rename_i hqueue
        split_ifs at hstep with hclosed
        cases hstep
        exact .finish outcome hrunning hqueue hclosed
    · simp [step, hrunning] at hstep

theorem Writer.step_inv {w w' : Writer} {event : WriterEvent} (h : w.Inv)
    (hstep : w.step event = some w') : w'.Inv := by
  cases step_does hstep with
  | send message hopen hrunning => exact ⟨h.received, h.small, h.history, by simp [hrunning]⟩
  | close => exact ⟨h.received, h.small, h.history, fun hr => ⟨rfl, (h.returned hr).2⟩⟩
  | accept outcome hrunning hqueue => exact accept_inv h hrunning _ _ outcome
  | finish outcome hrunning hqueue hclosed => exact finish_inv h hrunning hqueue hclosed outcome
  | tick outcome hrunning =>
    exact (flush_inv hrunning h.received (le_of_lt h.small) h.history outcome).1

theorem Writer.run_inv {w w' : Writer} {events : List WriterEvent} (h : w.Inv)
    (hrun : w.run events = some w') : w'.Inv := by
  induction events generalizing w with
  | nil =>
    cases hrun
    exact h
  | cons event rest ih =>
    rw [run, List.foldlM_cons, Option.bind_eq_bind, Option.bind_eq_some_iff] at hrun
    obtain ⟨mid, hstep, hrest⟩ := hrun
    exact ih (step_inv h hstep) hrest

end LighterIngestor
