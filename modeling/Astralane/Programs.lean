import Astralane.Bounds
import Astralane.Reindexing
import Astralane.Summary
import Astralane.Transition

/-!
# The programs on one database

The four programs that write to the database file, any number of runs of each,
as one transition system. An action is one SQLite transaction or one query of
some run; between two of them any other run may move, so what a run has read may
be out of date by the time it writes. A run that crashes is one that does not
move again.

The writer of `main` writes one block at a time. `backfill_order` reads the slots
and then updates slot by slot, `build_contention_summary` reads the slots and for
each of them the transactions and then the locks before it stores its report, and
`build_candles` reads its rows in one query and stores its candles afterwards.
A run that no other disturbs is the function of its program (`run_backfill`,
`run_summary`, `run_candles`).
-/

namespace Astralane

variable (json : StringListJson) (ints : IntListJson)

/-! ## The queries of a summary run -/

/-- The first query of `load_block_transactions`. -/
def loadTransactions (ord : IterOrder TransactionsRow) (db : Db) (slot : Int) :
    List Transaction :=
  (sortByKey TransactionsRow.txIndex (ord.arrange (db.transactionsOf slot))).map
    (·.transaction json)

/-- The second query, and the loop that joins the two. -/
def loadLocks (ord : IterOrder (String × AccountLock)) (db : Db) (slot : Int)
    (transactions : List Transaction) : List Transaction :=
  attachLocks (locksBySig (ord.arrange (db.locksOf slot))) transactions

/-- The rest of the loop body of `build_range_report_limited`. -/
def ReportState.addSlot (s : ReportState) (slot : Int) (transactions : List Transaction) :
    ReportState :=
  let schedule := scheduleBlock transactions
  let block :=
    { slot
      scheduleDepth := schedule.steps.length
      stepWidths := schedule.steps.map List.length }
  schedule.conflicts.foldl reportEvent { s with blocks := s.blocks ++ [block] }

/-- What follows the loop: the two listings. -/
def ReportState.finish (accounts programs : IterOrder (String × Nat × Nat)) (s : ReportState) :
    RangeReport where
  blocks := s.blocks
  accounts := sortByKey (fun a => OrderDual.toDual (a.writeConflicts + a.readConflicts))
    ((accounts.arrange s.accountCounts.rows).map .ofEntry)
  programs := sortByKey (fun p => OrderDual.toDual (p.writeConflicts + p.readConflicts))
    ((programs.arrange s.programCounts.rows).map .ofEntry)

/-! ## States and steps -/

/-- A run of `build_contention_summary`, before the queries of the next slot or
between those of `slot`. -/
inductive SummaryStage where
  | scanning (todo : List Int) (report : ReportState)
  | loading (todo : List Int) (report : ReportState) (slot : Int)
      (transactions : List Transaction)

/-- The database, and what the runs in progress have still to do: the slots of a
backfill, the stage of a summary, the candles to be stored. `stored` records the
report that was stored last. -/
structure SystemState where
  db : Db
  backfills : List (List Int)
  summaries : List SummaryStage
  builds : List (List Candle)
  stored : Option RangeReport

def SystemState.init : SystemState where
  db := Db.empty
  backfills := []
  summaries := []
  builds := []
  stored := none

inductive SystemAction where
  | write (block : ParsedBlock)
  | backfillStart
  | backfillBlock (i : Nat) (answer : BlockFetchOutcome)
  | summaryStart
  | summaryTransactions (i : Nat) (ord : IterOrder TransactionsRow)
  | summaryLocks (i : Nat) (ord : IterOrder (String × AccountLock))
  | summaryStore (i : Nat) (accounts programs : IterOrder (String × Nat × Nat))
  | candlesBuild (ord : BuildOrder)
  | candlesStore (i : Nat)

def backfillStep (i : Nat) (answer : BlockFetchOutcome) (s : SystemState) :
    Option SystemState :=
  match s.backfills[i]? with
  | some (slot :: todo) =>
      some
        { s with
          db := backfillBlock (fun _ => answer) s.db slot
          backfills := s.backfills.set i todo }
  | _ => none

def transactionsStep (i : Nat) (ord : IterOrder TransactionsRow) (s : SystemState) :
    Option SystemState :=
  match s.summaries[i]? with
  | some (.scanning (slot :: todo) report) =>
      let stage := .loading todo report slot (loadTransactions json ord s.db slot)
      some { s with summaries := s.summaries.set i stage }
  | _ => none

def locksStep (i : Nat) (ord : IterOrder (String × AccountLock)) (s : SystemState) :
    Option SystemState :=
  match s.summaries[i]? with
  | some (.loading todo report slot transactions) =>
      let stage := .scanning todo (report.addSlot slot (loadLocks ord s.db slot transactions))
      some { s with summaries := s.summaries.set i stage }
  | _ => none

def summaryStoreStep (i : Nat) (accounts programs : IterOrder (String × Nat × Nat))
    (s : SystemState) : Option SystemState :=
  match s.summaries[i]? with
  | some (.scanning [] report) =>
      let summaries := s.summaries.eraseIdx i
      match storeRangeReport ints s.db (report.finish accounts programs) with
      | (.ok _, db) => some { s with db, summaries, stored := report.finish accounts programs }
      | (.error _, db) => some { s with db, summaries }
  | _ => none

/-- A panic ends the run before it has written anything. -/
def candlesBuildStep (ord : BuildOrder) (s : SystemState) : Option SystemState :=
  match builtCandles ord s.db with
  | .ok candles => some { s with builds := s.builds ++ [candles] }
  | .error _ => none

def candlesStoreStep (i : Nat) (s : SystemState) : Option SystemState :=
  match s.builds[i]? with
  | some candles =>
      some { s with db := storeCandles s.db candles, builds := s.builds.eraseIdx i }
  | none => none

def systemStep : SystemAction → SystemState → Option SystemState
  | .write block, s => some { s with db := runBlocking json s.db [block] }
  | .backfillStart, s => some { s with backfills := s.backfills ++ [backfillSlots s.db] }
  | .backfillBlock i answer, s => backfillStep i answer s
  | .summaryStart, s =>
      let stage := .scanning (reportSlots s.db none) ⟨[], .empty, .empty⟩
      some { s with summaries := s.summaries ++ [stage] }
  | .summaryTransactions i ord, s => transactionsStep json i ord s
  | .summaryLocks i ord, s => locksStep i ord s
  | .summaryStore i accounts programs, s => summaryStoreStep ints i accounts programs s
  | .candlesBuild ord, s => candlesBuildStep ord s
  | .candlesStore i, s => candlesStoreStep i s

abbrev SystemReachable (s : SystemState) : Prop :=
  Transition.Reachable (systemStep json ints) .init s

/-! ## What a step can do -/

inductive SystemMove (s : SystemState) : SystemState → Prop where
  | write (block : ParsedBlock) : SystemMove s { s with db := s.db.ingest json [block] }
  | backfillStart : SystemMove s { s with backfills := s.backfills ++ [backfillSlots s.db] }
  | backfillBlock {i : Nat} {slot : Int} {todo : List Int} (answer : BlockFetchOutcome)
      (hrun : s.backfills[i]? = some (slot :: todo)) :
      SystemMove s
        { s with
          db := backfillBlock (fun _ => answer) s.db slot
          backfills := s.backfills.set i todo }
  | summaryStart :
      SystemMove s
        { s with
          summaries := s.summaries ++ [.scanning (reportSlots s.db none) ⟨[], .empty, .empty⟩] }
  | summaryTransactions {i : Nat} {slot : Int} {todo : List Int} {report : ReportState}
      (ord : IterOrder TransactionsRow)
      (hrun : s.summaries[i]? = some (.scanning (slot :: todo) report)) :
      SystemMove s
        { s with
          summaries := s.summaries.set i
            (.loading todo report slot (loadTransactions json ord s.db slot)) }
  | summaryLocks {i : Nat} {slot : Int} {todo : List Int} {report : ReportState}
      {transactions : List Transaction} (ord : IterOrder (String × AccountLock))
      (hrun : s.summaries[i]? = some (.loading todo report slot transactions)) :
      SystemMove s
        { s with
          summaries := s.summaries.set i
            (.scanning todo (report.addSlot slot (loadLocks ord s.db slot transactions))) }
  | summaryStore {i : Nat} {report : ReportState}
      (accounts programs : IterOrder (String × Nat × Nat))
      (hrun : s.summaries[i]? = some (.scanning [] report))
      (hstorable : (report.finish accounts programs).Storable s.db) :
      SystemMove s
        { s with
          db := (report.finish accounts programs).install ints s.db hstorable
          summaries := s.summaries.eraseIdx i
          stored := report.finish accounts programs }
  | summaryFail {i : Nat} {report : ReportState}
      (accounts programs : IterOrder (String × Nat × Nat))
      (hrun : s.summaries[i]? = some (.scanning [] report))
      (hnot : ¬(report.finish accounts programs).Storable s.db) :
      SystemMove s { s with summaries := s.summaries.eraseIdx i }
  | candlesBuild {ord : BuildOrder} {candles : List Candle}
      (hbuilt : builtCandles ord s.db = .ok candles) :
      SystemMove s { s with builds := s.builds ++ [candles] }
  | candlesStore {i : Nat} {candles : List Candle} (hrun : s.builds[i]? = some candles) :
      SystemMove s { s with db := storeCandles s.db candles, builds := s.builds.eraseIdx i }

section Moves

variable {json ints} {s s' : SystemState} {i : Nat}

theorem backfillStep_move {answer : BlockFetchOutcome} (h : backfillStep i answer s = some s') :
    SystemMove json ints s s' := by
  unfold backfillStep at h
  split at h
  · rename_i slot todo hrun
    obtain rfl := Option.some.inj h
    exact .backfillBlock answer hrun
  · nomatch h

theorem transactionsStep_move {ord : IterOrder TransactionsRow}
    (h : transactionsStep json i ord s = some s') : SystemMove json ints s s' := by
  unfold transactionsStep at h
  split at h
  · rename_i slot todo report hrun
    obtain rfl := Option.some.inj h
    exact .summaryTransactions ord hrun
  · nomatch h

theorem locksStep_move {ord : IterOrder (String × AccountLock)}
    (h : locksStep i ord s = some s') : SystemMove json ints s s' := by
  unfold locksStep at h
  split at h
  · rename_i todo report slot transactions hrun
    obtain rfl := Option.some.inj h
    exact .summaryLocks ord hrun
  · nomatch h

theorem summaryStoreStep_move {accounts programs : IterOrder (String × Nat × Nat)}
    (h : summaryStoreStep ints i accounts programs s = some s') : SystemMove json ints s s' := by
  unfold summaryStoreStep at h
  split at h
  · rename_i report hrun
    rcases storeRangeReport_cases ints s.db (report.finish accounts programs) with
      ⟨hstorable, hstore⟩ | ⟨hnot, e, hstore⟩
    · rw [hstore] at h
      obtain rfl := Option.some.inj h
      exact .summaryStore accounts programs hrun hstorable
    · rw [hstore] at h
      obtain rfl := Option.some.inj h
      exact .summaryFail accounts programs hrun hnot
  · nomatch h

theorem candlesBuildStep_move {ord : BuildOrder} (h : candlesBuildStep ord s = some s') :
    SystemMove json ints s s' := by
  unfold candlesBuildStep at h
  split at h
  · rename_i candles hbuilt
    obtain rfl := Option.some.inj h
    exact .candlesBuild hbuilt
  · nomatch h

theorem candlesStoreStep_move (h : candlesStoreStep i s = some s') :
    SystemMove json ints s s' := by
  unfold candlesStoreStep at h
  split at h
  · rename_i candles hrun
    obtain rfl := Option.some.inj h
    exact .candlesStore hrun
  · nomatch h

theorem systemStep_move {a : SystemAction} (h : systemStep json ints a s = some s') :
    SystemMove json ints s s' := by
  cases a with
  | write block =>
      obtain rfl := Option.some.inj h
      rw [runBlocking_eq]
      exact .write block
  | backfillStart =>
      obtain rfl := Option.some.inj h
      exact .backfillStart
  | backfillBlock i answer => exact backfillStep_move h
  | summaryStart =>
      obtain rfl := Option.some.inj h
      exact .summaryStart
  | summaryTransactions i ord => exact transactionsStep_move h
  | summaryLocks i ord => exact locksStep_move h
  | summaryStore i accounts programs => exact summaryStoreStep_move h
  | candlesBuild ord => exact candlesBuildStep_move h
  | candlesStore i => exact candlesStoreStep_move h

/-- To show an invariant, show it of the empty database and of every move. -/
theorem SystemReachable.invariant {P : SystemState → Prop} (h : SystemReachable json ints s)
    (hstart : P .init) (hmove : ∀ {s s'}, P s → SystemMove json ints s s' → P s') : P s :=
  Transition.Reachable.invariant h hstart fun hs hstep => hmove hs (systemStep_move hstep)

end Moves

/-! ## Undisturbed runs -/

theorem reportSlot_eq (ord : ReportOrder) (db : Db) (s : ReportState) (slot : Int) :
    reportSlot json ord db s slot
      = s.addSlot slot (loadLocks (ord.load slot).locks db slot
          (loadTransactions json (ord.load slot).transactions db slot)) := rfl

theorem buildRangeReport_eq (ord : ReportOrder) (db : Db) :
    buildRangeReport json ord db
      = ((reportSlots db none).foldl (reportSlot json ord db) ⟨[], .empty, .empty⟩).finish
          ord.accounts ord.programs := rfl

section Undisturbed

variable (s : SystemState)

/-- The slots of a backfill, one after the other. -/
def backfillActions (answer : UInt64 → BlockFetchOutcome) (i : Nat) (slots : List Int) :
    List SystemAction :=
  slots.map fun slot => .backfillBlock i (answer (asU64 slot))

theorem run_backfillActions (answer : UInt64 → BlockFetchOutcome) (slots : List Int) (db : Db) :
    Transition.runActions (systemStep json ints)
        (backfillActions answer s.backfills.length slots)
        { s with db, backfills := s.backfills ++ [slots] }
      = some
        { s with
          db := slots.foldl (backfillBlock answer) db
          backfills := s.backfills ++ [[]] } := by
  induction slots generalizing db with
  | nil => rfl
  | cons slot slots ih =>
      have hstep : systemStep json ints
          (.backfillBlock s.backfills.length (answer (asU64 slot)))
          { s with db, backfills := s.backfills ++ [slot :: slots] }
          = some
            { s with
              db := backfillBlock answer db slot
              backfills := s.backfills ++ [slots] } := by
        simp [systemStep, backfillStep, backfillBlock]
      rw [backfillActions, List.map_cons, Transition.runActions, hstep]
      exact ih (backfillBlock answer db slot)

theorem run_backfill (answer : UInt64 → BlockFetchOutcome) :
    Transition.runActions (systemStep json ints)
        (.backfillStart :: backfillActions answer s.backfills.length (backfillSlots s.db)) s
      = some
        { s with
          db := backfillOrder answer s.db
          backfills := s.backfills ++ [[]] } :=
  run_backfillActions json ints s answer (backfillSlots s.db) s.db

/-- The two queries of each slot, one slot after the other. -/
def summaryActions (ord : ReportOrder) (i : Nat) (slots : List Int) : List SystemAction :=
  slots.flatMap fun slot =>
    [.summaryTransactions i (ord.load slot).transactions, .summaryLocks i (ord.load slot).locks]

theorem run_summaryActions (ord : ReportOrder) (slots : List Int) (report : ReportState) :
    Transition.runActions (systemStep json ints)
        (summaryActions ord s.summaries.length slots)
        { s with summaries := s.summaries ++ [.scanning slots report] }
      = some
        { s with
          summaries := s.summaries
            ++ [.scanning [] (slots.foldl (reportSlot json ord s.db) report)] } := by
  induction slots generalizing report with
  | nil => rfl
  | cons slot slots ih =>
      have htransactions : systemStep json ints
          (.summaryTransactions s.summaries.length (ord.load slot).transactions)
          { s with summaries := s.summaries ++ [.scanning (slot :: slots) report] }
          = some
            { s with
              summaries := s.summaries ++ [.loading slots report slot
                (loadTransactions json (ord.load slot).transactions s.db slot)] } := by
        simp [systemStep, transactionsStep]
      have hlocks : ∀ transactions, systemStep json ints
          (.summaryLocks s.summaries.length (ord.load slot).locks)
          { s with summaries := s.summaries ++ [.loading slots report slot transactions] }
          = some
            { s with
              summaries := s.summaries ++ [.scanning slots (report.addSlot slot
                (loadLocks (ord.load slot).locks s.db slot transactions))] } := by
        intro transactions
        simp [systemStep, locksStep]
      rw [summaryActions, List.flatMap_cons, List.cons_append, List.cons_append,
        List.nil_append, Transition.runActions, htransactions, Option.bind_some,
        Transition.runActions, hlocks, Option.bind_some, ← reportSlot_eq]
      exact ih (reportSlot json ord s.db report slot)

/-- Everything of a summary run up to its store, and then the report it stores. -/
theorem run_summary (ord : ReportOrder) :
    ∃ report : ReportState,
      Transition.runActions (systemStep json ints)
          (.summaryStart :: summaryActions ord s.summaries.length (reportSlots s.db none)) s
        = some { s with summaries := s.summaries ++ [.scanning [] report] }
      ∧ report.finish ord.accounts ord.programs = buildRangeReport json ord s.db :=
  ⟨_, run_summaryActions json ints s ord (reportSlots s.db none) ⟨[], .empty, .empty⟩,
    (buildRangeReport_eq json ord s.db).symm⟩

theorem run_candles (ord : BuildOrder) {db' : Db} {total : Nat}
    (h : buildAndStoreCandles ord s.db = .ok (db', total)) :
    Transition.runActions (systemStep json ints)
        [.candlesBuild ord, .candlesStore s.builds.length] s
      = some { s with db := db' } := by
  rw [buildAndStoreCandles_eq] at h
  cases hbuilt : builtCandles ord s.db with
  | error e =>
      rw [hbuilt] at h
      nomatch h
  | ok candles =>
      rw [hbuilt] at h
      obtain ⟨rfl, -⟩ := Prod.mk.inj (Except.ok.inj h)
      have hbuild : systemStep json ints (.candlesBuild ord) s
          = some { s with builds := s.builds ++ [candles] } := by
        rw [systemStep, candlesBuildStep, hbuilt]
      have hlast : (s.builds ++ [candles]).eraseIdx s.builds.length = s.builds := by
        rw [List.eraseIdx_append_of_length_le (Nat.le_refl _), Nat.sub_self]
        exact List.append_nil s.builds
      rw [Transition.runActions, hbuild, Option.bind_some]
      simp [Transition.runActions, systemStep, candlesStoreStep, hlast]

end Undisturbed

end Astralane
