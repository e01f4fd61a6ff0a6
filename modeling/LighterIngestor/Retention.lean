import LighterIngestor.Base.TimedLog
import LighterIngestor.ServiceRuns
import Mathlib.Data.List.Chain

namespace LighterIngestor

def ofSymbol (symbol : ℤ) (rows : List OrderbookMessageRow) : List OrderbookMessageRow :=
  rows.filter (fun row => row.symbol = symbol)

theorem ofSymbol_append (symbol : ℤ) (a b : List OrderbookMessageRow) :
    ofSymbol symbol (a ++ b) = ofSymbol symbol a ++ ofSymbol symbol b := List.filter_append ..

/-- The times of a symbol's rows do not run backwards. -/
def InOrder (symbol : ℤ) (rows : List OrderbookMessageRow) : Prop :=
  ((ofSymbol symbol rows).map OrderbookMessageRow.time).IsChain (· ≤ ·)

instance (symbol : ℤ) (rows : List OrderbookMessageRow) : Decidable (InOrder symbol rows) :=
  inferInstanceAs (Decidable (List.IsChain _ _))

theorem InOrder.pairwise {symbol : ℤ} {rows : List OrderbookMessageRow} (h : InOrder symbol rows) :
    (ofSymbol symbol rows).Pairwise fun a b => a.time ≤ b.time :=
  List.pairwise_map.mp (List.isChain_iff_pairwise.mp h)

theorem InOrder.of_append {symbol : ℤ} {a b : List OrderbookMessageRow} (h : InOrder symbol (a ++ b)) :
    InOrder symbol a := by
  rw [InOrder, ofSymbol_append, List.map_append] at h
  exact (List.isChain_append.mp h).1

theorem Expired.older {now t u : DateTime} (h : Expired now u) (htu : t ≤ u) : Expired now t := by
  have hsecs := DateTime.secs_le htu
  unfold Expired chunkEnd chunkInterval at *
  omega

variable [NumberTypes]

def ServiceEvent.retains : ServiceEvent → Bool
  | .retain _ => true
  | _ => false

/-- A run without its retention jobs. -/
def unretained (events : List ServiceEvent) : List ServiceEvent := events.filter fun event => !event.retains

namespace Service

/-- The order-book rows that a run has inserted: what the table would hold if none were ever dropped. -/
def inserted (events : List ServiceEvent) : List OrderbookMessageRow :=
  match initial.run (unretained events) with
  | some σ => σ.db.messages
  | none => []

def withMessages (σ : Service) (messages : List OrderbookMessageRow) : Service :=
  { σ with db := { σ.db with messages } }

end Service

/-- Some retention job of the run was allowed to drop the row. -/
def Outdated (events : List ServiceEvent) (row : OrderbookMessageRow) : Prop :=
  ∃ now, .retain now ∈ events ∧ Expired now row.time

/-- What the retention jobs of a run have left of the rows. Where the times of a symbol do not run
backwards, they have left its last ones. -/
structure Retained (events : List ServiceEvent) (rows held : List OrderbookMessageRow) : Prop where
  remains : TimedLog.Remains (Outdated events) rows held
  suffix : ∀ symbol, InOrder symbol rows → ofSymbol symbol held <:+ ofSymbol symbol rows

theorem Retained.append {events : List ServiceEvent} {rows held : List OrderbookMessageRow}
    (h : Retained events rows held) (new : List OrderbookMessageRow) :
    Retained events (rows ++ new) (held ++ new) where
  remains := h.remains.append new
  suffix symbol hordered := by
    obtain ⟨older, holder⟩ := h.suffix symbol hordered.of_append
    rw [ofSymbol_append, ofSymbol_append]
    exact ⟨older, by rw [← List.append_assoc, holder]⟩

theorem Retained.retain {events : List ServiceEvent} {rows held : List OrderbookMessageRow}
    (h : Retained events rows held) {now : DateTime} (hnow : .retain now ∈ events) :
    Retained events rows (held.filter fun row => ¬ Expired now row.time) where
  remains := h.remains.filter fun row hrow => ⟨now, hnow, by simpa using hrow⟩
  suffix symbol hordered := by
    rw [ofSymbol, List.filter_comm]
    refine TimedLog.trim_suffix OrderbookMessageRow.time hordered.pairwise (h.suffix symbol hordered) ?_
    intro a b hab ha
    rw [decide_eq_true_eq] at ha ⊢
    exact fun hb => ha (hb.older hab)

theorem Retained.all_held {events : List ServiceEvent} {rows held : List OrderbookMessageRow}
    (h : Retained events rows held) (hkeeps : ∀ now, .retain now ∉ events) : held = rows :=
  h.remains.eq_of_none fun _ ⟨now, hnow, _⟩ => hkeeps now hnow

theorem Tables.execute_frame {db db' : Tables} {statement : Statement} (h : db.execute statement = some db')
    (messages : List OrderbookMessageRow) : ({ db with messages } : Tables).execute statement =
      some { db' with messages := messages ++ writtenBooks [(statement, true)] } := by
  cases statement with
  | insertTrades rows =>
    simp only [execute] at h ⊢
    split_ifs at h ⊢
    cases h
    simp [writtenBooks]
  | insertOrderbookMessages rows =>
    simp only [execute] at h ⊢
    split_ifs at h ⊢
    cases h
    simp [writtenBooks]

theorem Tables.executeAll_frame {db db' : Tables} {log : List (Statement × Bool)}
    (h : db.executeAll log = some db') (messages : List OrderbookMessageRow) :
    ({ db with messages } : Tables).executeAll log =
      some { db' with messages := messages ++ writtenBooks log } := by
  induction log generalizing db messages with
  | nil =>
    cases h
    simp [executeAll, writtenBooks]
  | cons entry rest ih =>
    obtain ⟨statement, ok⟩ := entry
    cases ok with
    | false => cases statement <;> exact ih h messages
    | true =>
      simp only [executeAll] at h ⊢
      split at h
      · cases h
      · rename_i mid hmid
        rw [execute_frame hmid messages]
        dsimp only
        rw [ih h, List.append_assoc, ← writtenBooks_append]
        rfl

namespace Service

theorem write_frame {σ σ' : Service} {p : Process} {event : WriterEvent} (h : σ.write p event = some σ') :
    ∃ new, σ'.db.messages = σ.db.messages ++ new ∧
      ∀ messages, (σ.withMessages messages).write p event = some (σ'.withMessages (messages ++ new)) := by
  unfold write at h ⊢
  split at h
  · cases h
  · rename_i writer hstep
    split at h
    · cases h
    · rename_i db hdb
      cases h
      refine ⟨_, (Tables.executeAll_some hdb).2.1, fun messages => ?_⟩
      have hframe := Tables.executeAll_frame hdb messages
      simp only [withMessages, hframe]

theorem start_frame {σ σ' : Service} {resp : OrderBooksResponse} {marketIds : List ℤ} {drawn : ℕ}
    (h : σ.start resp marketIds drawn = some σ') : σ'.db.messages = σ.db.messages ∧
      ∀ messages, (σ.withMessages messages).start resp marketIds drawn = some (σ'.withMessages messages) := by
  unfold start at h ⊢
  dsimp only [withMessages]
  split at h
  · cases h
    exact ⟨rfl, fun messages => rfl⟩
  · split_ifs at h ⊢ with hids
    cases h
    exact ⟨rfl, fun messages => rfl⟩

/-- No step but a retention job reads or removes a stored row. -/
theorem step_frame {σ σ' : Service} {event : ServiceEvent} (hkeeps : ∀ now, event ≠ .retain now)
    (hstep : σ.step event = some σ') : ∃ new, σ'.db.messages = σ.db.messages ++ new ∧
      ∀ messages, (σ.withMessages messages).step event = some (σ'.withMessages (messages ++ new)) := by
  obtain ⟨db, process⟩ := σ
  cases process with
  | none =>
    cases event with
    | start resp marketIds drawn =>
      obtain ⟨hsame, hframe⟩ := start_frame hstep
      exact ⟨[], by rw [hsame, List.append_nil], fun messages => by rw [List.append_nil]; exact hframe messages⟩
    | retain now => exact absurd rfl (hkeeps now)
    | _ => cases hstep
  | some p =>
    have hmap : ∀ {next : Option Process},
        next.map (fun p => (⟨db, some p⟩ : Service)) = some σ' →
          ∃ new, σ'.db.messages = db.messages ++ new ∧ ∀ messages,
            next.map (fun p => (⟨{ db with messages }, some p⟩ : Service)) =
              some (σ'.withMessages (messages ++ new)) := by
      intro next hnext
      obtain ⟨q, rfl, rfl⟩ := Option.map_eq_some_iff.mp hnext
      exact ⟨[], (List.append_nil _).symm, fun messages => by rw [List.append_nil]; rfl⟩
    cases event with
    | start resp marketIds drawn => cases hstep
    | connect writeLifetime => exact hmap hstep
    | turn event => exact hmap hstep
    | enqueue => exact hmap hstep
    | receive outcome => exact write_frame hstep
    | tick outcome => exact write_frame hstep
    | stop =>
      cases hstep
      exact ⟨[], (List.append_nil _).symm, fun messages => by rw [List.append_nil]; rfl⟩
    | retain now => exact absurd rfl (hkeeps now)

theorem step_retain (σ : Service) (now : DateTime) :
    σ.step (.retain now) = some { σ with db := σ.db.retain now } := by
  unfold step
  cases σ.process <;> rfl

end Service

theorem unretained_cons {event : ServiceEvent} (hkeeps : ∀ now, event ≠ .retain now) (rest : List ServiceEvent) :
    unretained (event :: rest) = event :: unretained rest := by
  cases event with
  | retain now => exact absurd rfl (hkeeps now)
  | _ => rfl

theorem unretained_keeps (events : List ServiceEvent) : ∀ now, .retain now ∉ unretained events := by
  intro now hnow
  have hretains : (!ServiceEvent.retains (.retain now)) = true := (List.mem_filter.mp hnow).2
  cases hretains

namespace Service

/-- But for the rows that are dropped, a run is what it would be without its retention jobs. -/
theorem run_frame {events all : List ServiceEvent} {σ σ' : Service} {rows : List OrderbookMessageRow}
    (hall : events ⊆ all) (h : Retained all rows σ.db.messages) (hrun : σ.run events = some σ') :
    ∃ rows', (σ.withMessages rows).run (unretained events) = some (σ'.withMessages rows') ∧
      Retained all rows' σ'.db.messages ∧
      ∀ logs, (σ.withMessages rows).history logs (unretained events) = σ.history logs events := by
  induction events generalizing σ rows with
  | nil =>
    cases hrun
    exact ⟨rows, rfl, h, fun logs => rfl⟩
  | cons event rest ih =>
    obtain ⟨hevent, hrest⟩ := List.cons_subset.mp hall
    rw [run, List.foldlM_cons, Option.bind_eq_bind, Option.bind_eq_some_iff] at hrun
    obtain ⟨mid, hstep, hrun⟩ := hrun
    by_cases hretain : ∃ now, event = .retain now
    · obtain ⟨now, rfl⟩ := hretain
      rw [step_retain] at hstep
      cases hstep
      obtain ⟨rows', hrun', hheld, hhistory⟩ := ih hrest (h.retain hevent) hrun
      refine ⟨rows', hrun', hheld, fun logs => ?_⟩
      rw [history, step_retain]
      exact hhistory logs
    · have hkeeps := not_exists.mp hretain
      obtain ⟨new, hnew, hframe⟩ := step_frame hkeeps hstep
      obtain ⟨rows', hrun', hheld, hhistory⟩ := ih hrest (hnew ▸ h.append new) hrun
      refine ⟨rows', ?_, hheld, fun logs => ?_⟩
      · rw [unretained_cons hkeeps, run, List.foldlM_cons, hframe]
        exact hrun'
      · rw [unretained_cons hkeeps, history, hframe, history, hstep]
        exact hhistory _

theorem run_inserted {events : List ServiceEvent} {σ : Service} (hrun : initial.run events = some σ) :
    initial.run (unretained events) = some (σ.withMessages (inserted events)) ∧
      Retained events (inserted events) σ.db.messages ∧
      initial.history [] (unretained events) = initial.history [] events := by
  have hstart : Retained events [] initial.db.messages := ⟨.nil, fun _ _ => List.suffix_rfl⟩
  obtain ⟨rows, hrows, hheld, hhistory⟩ := run_frame (List.Subset.refl events) hstart hrun
  have hinserted : inserted events = rows := by
    have hrows' : initial.run (unretained events) = some (σ.withMessages rows) := hrows
    rw [inserted, hrows']
    rfl
  rw [hinserted]
  exact ⟨hrows, hheld, hhistory []⟩

/-- Every run of the service, over any number of processes, is a sequence of lives, which have
inserted what has been inserted. -/
theorem run_inv {events : List ServiceEvent} {σ : Service} (hrun : initial.run events = some σ) :
    ∃ lives, (σ.withMessages (inserted events)).Inv lives ∧
      lives.map Life.toProcessLog = initial.history [] events := by
  obtain ⟨hrun', -, hhistory⟩ := run_inserted hrun
  obtain ⟨lives, hlives, hlogs⟩ := run_lives initial_inv (unretained_keeps events) hrun'
  exact ⟨lives, hlives, hlogs.trans hhistory⟩

/-- What the table holds of a symbol is the last part of what was inserted. -/
theorem run_suffix {events : List ServiceEvent} {σ : Service} (hrun : initial.run events = some σ)
    {symbol : ℤ} (hordered : ∀ now, .retain now ∈ events → InOrder symbol (inserted events)) :
    ofSymbol symbol σ.db.messages <:+ ofSymbol symbol (inserted events) := by
  obtain ⟨-, hheld, -⟩ := run_inserted hrun
  by_cases hretain : ∃ now, .retain now ∈ events
  · obtain ⟨now, hnow⟩ := hretain
    exact hheld.suffix symbol (hordered now hnow)
  · exact ⟨[], by rw [hheld.all_held (not_exists.mp hretain), List.nil_append]⟩

end Service

end LighterIngestor
