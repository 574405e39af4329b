import Astralane.Programs

/-!
# The database over its lifetime

What holds in every database that the programs come to, in whatever order their
transactions and queries fall: rows are added and never lost (`rows_kept`), every
reference is met (`references_hold`), the summary is that of one finished run
(`summary_of_one_run`), and every candle goes back to a stored trade
(`candles_traceable`).

What a run has read stays true as far as it matters later, since it only relies
on rows that are never taken back (`Db.Grows`). That carries the stages of the
runs in progress through the moves of all others.
-/

namespace Astralane

variable {json : StringListJson} {ints : IntListJson} {s s' : SystemState}

/-! ## Nothing is lost -/

/-- Every row of `db` is in `db'`, a transaction perhaps under another index and
a candle perhaps with other values. -/
structure Db.Grows (db db' : Db) : Prop where
  blocks : ∀ r ∈ db.blocks.rows, r ∈ db'.blocks.rows
  transactions : ∀ r ∈ db.transactions.rows, ∃ txIndex,
    { r with txIndex } ∈ db'.transactions.rows
  accountLocks : ∀ r ∈ db.accountLocks.rows, r ∈ db'.accountLocks.rows
  tokenBalances : ∀ r ∈ db.tokenBalances.rows, r ∈ db'.tokenBalances.rows
  ohlcvCandles : ∀ k ∈ db.ohlcvCandles.rows.map OhlcvCandlesRow.key,
    k ∈ db'.ohlcvCandles.rows.map OhlcvCandlesRow.key

namespace Db.Grows

theorem refl (db : Db) : db.Grows db where
  blocks _ h := h
  transactions r h := ⟨r.txIndex, h⟩
  accountLocks _ h := h
  tokenBalances _ h := h
  ohlcvCandles _ h := h

theorem trans {a b c : Db} (hab : a.Grows b) (hbc : b.Grows c) : a.Grows c where
  blocks r h := hbc.blocks r (hab.blocks r h)
  transactions r h := by
    obtain ⟨i, hi⟩ := hab.transactions r h
    obtain ⟨j, hj⟩ := hbc.transactions _ hi
    exact ⟨j, hj⟩
  accountLocks r h := hbc.accountLocks r (hab.accountLocks r h)
  tokenBalances r h := hbc.tokenBalances r (hab.tokenBalances r h)
  ohlcvCandles k h := hbc.ohlcvCandles k (hab.ohlcvCandles k h)

theorem ingest (json : StringListJson) (db : Db) (bs : List ParsedBlock) :
    db.Grows (db.ingest json bs) where
  blocks _ h := Keyed.mem_insertAll_of_mem h
  transactions r h := ⟨r.txIndex, Keyed.mem_insertAll_of_mem h⟩
  accountLocks _ h := Keyed.mem_insertAll_of_mem h
  tokenBalances _ h := Keyed.mem_insertAll_of_mem h
  ohlcvCandles _ h := h

theorem mapTransactions {db : Db} {f : TransactionsRow → TransactionsRow}
    (hf : ∀ r, (f r).signature = r.signature) (hindex : ∀ r, ∃ i, f r = { r with txIndex := i }) :
    db.Grows (db.mapTransactions f hf) where
  blocks _ h := h
  transactions r h := by
    obtain ⟨i, hi⟩ := hindex r
    exact ⟨i, hi ▸ List.mem_map_of_mem h⟩
  accountLocks _ h := h
  tokenBalances _ h := h
  ohlcvCandles _ h := h

theorem install (db : Db) (report : RangeReport) (h : report.Storable db) :
    db.Grows (report.install ints db h) where
  blocks _ h := h
  transactions r h := ⟨r.txIndex, h⟩
  accountLocks _ h := h
  tokenBalances _ h := h
  ohlcvCandles _ h := h

theorem storeCandles (db : Db) (candles : List Candle) : db.Grows (storeCandles db candles) where
  blocks _ h := h
  transactions r h := ⟨r.txIndex, h⟩
  accountLocks _ h := h
  tokenBalances _ h := h
  ohlcvCandles _ h := Keyed.mem_keys_replaceAll_of_mem (Or.inl h)

end Db.Grows

theorem backfillBlock_grows (answer : UInt64 → BlockFetchOutcome) (db : Db) (slot : Int) :
    db.Grows (backfillBlock answer db slot) := by
  rw [backfillBlock_eq]
  exact .mapTransactions _ (answered_index slot answer)

/-- What a move does to the database; a query does nothing. -/
theorem SystemMove.grows (hmove : SystemMove json ints s s') : s.db.Grows s'.db := by
  cases hmove with
  | write block => exact .ingest json s.db [block]
  | backfillBlock answer => exact backfillBlock_grows (fun _ => answer) s.db _
  | summaryStore accounts programs hrun hstorable => exact .install s.db _ hstorable
  | candlesStore => exact .storeCandles s.db _
  | _ => exact .refl s.db

theorem Db.Grows.of_reachable (h : Transition.Reachable (systemStep json ints) s s') :
    s.db.Grows s'.db :=
  h.invariant (P := fun t => s.db.Grows t.db) (.refl s.db) fun hgrows hstep =>
    hgrows.trans (systemStep_move hstep).grows

/-- Whatever the programs do from any state on, every row stays: blocks, locks
and balances as they are, transactions but for their index, candles under their
key. -/
theorem rows_kept (s s' : SystemState) (h : Transition.Reachable (systemStep json ints) s s') :
    s.db.Grows s'.db :=
  .of_reachable h

/-- A block with one swap. -/
def swapBlock : ParsedBlock :=
  ⟨1, some "h1", some 1000, false,
    [⟨"s0", 0, true, 5000, ["P"], [⟨"A", true⟩],
      [⟨0, "TOKEN", "0", "100000000", 6⟩, ⟨1, wsolMint, "2000000000", "1000000000", 9⟩]⟩]⟩

/-- A summary, a backfill and a candle build that each begin before `parsedBlock`
is written and end after it. -/
def overlappingRun : List SystemAction :=
  [.write swapBlock, .summaryStart, .candlesBuild .stored, .backfillStart,
   .summaryTransactions 0 .stored, .write parsedBlock, .summaryLocks 0 .stored,
   .backfillBlock 0 (signaturesAnswer 1), .candlesStore 0, .summaryStore 0 .stored .stored]

theorem overlappingRun_isSome :
    (Transition.runActions (systemStep .escapeFree .unsigned) overlappingRun .init).isSome := by
  decide +kernel

def overlappedState : SystemState :=
  (Transition.runActions (systemStep .escapeFree .unsigned) overlappingRun .init).get
    overlappingRun_isSome

theorem overlappedState_reachable : SystemReachable .escapeFree .unsigned overlappedState :=
  Transition.Reachable.run .start (Option.some_get overlappingRun_isSome).symm

/-- From a database with a swap and an old candle for it: the candle is replaced. -/
theorem rows_kept_swap :
    ∃ s', Transition.runActions (systemStep .escapeFree .unsigned)
        [.candlesBuild .stored, .write parsedBlock, .candlesStore 0]
        { SystemState.init with db := withCandle (swapDb "100000000") } = some s'
      ∧ (withCandle (swapDb "100000000")).Grows s'.db := by
  have hgoes : (Transition.runActions (systemStep .escapeFree .unsigned)
      [.candlesBuild .stored, .write parsedBlock, .candlesStore 0]
      { SystemState.init with db := withCandle (swapDb "100000000") }).isSome := by
    decide +kernel
  obtain ⟨s', hs'⟩ := Option.isSome_iff_exists.mp hgoes
  exact ⟨s', hs', rows_kept { SystemState.init with db := withCandle (swapDb "100000000") } s'
    (Transition.Reachable.run .start hs')⟩

/-! ## References -/

/-- The foreign keys of the schema, and the 0/1 of `skipped`. -/
structure Db.References (db : Db) : Prop where
  transactions : ∀ r ∈ db.transactions.rows, ∃ b ∈ db.blocks.rows, b.slot = r.slot
  accountLocks : ∀ r ∈ db.accountLocks.rows, ∃ t ∈ db.transactions.rows,
    t.signature = r.signature
  tokenBalances : ∀ r ∈ db.tokenBalances.rows, ∃ t ∈ db.transactions.rows,
    t.signature = r.signature
  contentionBlocks : ∀ r ∈ db.contentionBlocks.rows, ∃ b ∈ db.blocks.rows, b.slot = r.slot
  skipped : ∀ b ∈ db.blocks.rows, b.skipped = 0 ∨ b.skipped = 1

theorem references_empty : Db.empty.References :=
  ⟨nofun, nofun, nofun, nofun, nofun⟩

theorem exists_of_insertAll {ρ κ : Type} {key : ρ → κ} [DecidableEq κ] (t : Keyed key)
    {rs : List ρ} {r : ρ} (hr : r ∈ rs) : ∃ r' ∈ (t.insertAll rs).rows, key r' = key r := by
  obtain ⟨r', hr'⟩ := Option.ne_none_iff_exists'.mp (Keyed.find?_insertAll_mem t hr)
  exact ⟨r', Keyed.find?_eq_some.mp hr'⟩

/-- A transaction is kept under its signature and slot. -/
theorem Db.Grows.exists_transaction {db db' : Db} (h : db.Grows db') {t : TransactionsRow}
    (ht : t ∈ db.transactions.rows) :
    ∃ t' ∈ db'.transactions.rows, t'.signature = t.signature ∧ t'.slot = t.slot := by
  obtain ⟨i, hi⟩ := h.transactions t ht
  exact ⟨_, hi, rfl, rfl⟩

theorem References.ingest {db : Db} (h : db.References) (b : ParsedBlock) :
    (db.ingest json [b]).References := by
  have hgrows := Db.Grows.ingest json db [b]
  have hchild : ∀ {signature : String}, (∃ t ∈ b.transactions, t.signature = signature) →
      ∃ t ∈ (db.ingest json [b]).transactions.rows, t.signature = signature := by
    rintro signature ⟨t, ht, rfl⟩
    exact exists_of_insertAll db.transactions (r := t.transactionsRow json (asI64 b.slot))
      (List.mem_flatMap.mpr ⟨b, List.mem_singleton_self b, List.mem_map_of_mem ht⟩)
  constructor
  · intro r hr
    rcases Keyed.mem_insertAll hr with hr | ⟨-, hr⟩
    · obtain ⟨b', hb', hslot⟩ := h.transactions r hr
      exact ⟨b', hgrows.blocks b' hb', hslot⟩
    · rw [List.flatMap_singleton] at hr
      obtain ⟨t, -, rfl⟩ := (mem_transactionsRows json).mp hr
      exact exists_of_insertAll db.blocks (List.mem_singleton_self b.blocksRow)
  · intro r hr
    rcases Keyed.mem_insertAll hr with hr | ⟨-, hr⟩
    · obtain ⟨t, ht, hsig⟩ := h.accountLocks r hr
      obtain ⟨t', ht', hsig', -⟩ := hgrows.exists_transaction ht
      exact ⟨t', ht', hsig'.trans hsig⟩
    · rw [List.flatMap_singleton] at hr
      exact hchild (signature_of_accountLocksRows hr)
  · intro r hr
    rcases Keyed.mem_insertAll hr with hr | ⟨-, hr⟩
    · obtain ⟨t, ht, hsig⟩ := h.tokenBalances r hr
      obtain ⟨t', ht', hsig', -⟩ := hgrows.exists_transaction ht
      exact ⟨t', ht', hsig'.trans hsig⟩
    · rw [List.flatMap_singleton] at hr
      exact hchild (signature_of_tokenBalancesRows hr)
  · intro r hr
    obtain ⟨b', hb', hslot⟩ := h.contentionBlocks r hr
    exact ⟨b', hgrows.blocks b' hb', hslot⟩
  · intro r hr
    rcases Keyed.mem_insertAll hr with hr | ⟨-, hr⟩
    · exact h.skipped r hr
    · obtain rfl := List.mem_singleton.mp hr
      show boolToInt b.skipped = 0 ∨ boolToInt b.skipped = 1
      cases b.skipped with
      | false => exact Or.inl rfl
      | true => exact Or.inr rfl

theorem References.mapTransactions {db : Db} (h : db.References)
    {f : TransactionsRow → TransactionsRow} (hf : ∀ r, (f r).signature = r.signature)
    (hindex : ∀ r, ∃ i, f r = { r with txIndex := i }) :
    (db.mapTransactions f hf).References := by
  have hsame : ∀ {signature : String}, (∃ t ∈ db.transactions.rows, t.signature = signature) →
      ∃ t ∈ (db.mapTransactions f hf).transactions.rows, t.signature = signature := by
    rintro signature ⟨t, ht, rfl⟩
    exact ⟨f t, List.mem_map_of_mem ht, hf t⟩
  constructor
  · intro r hr
    obtain ⟨t, ht, rfl⟩ := List.mem_map.mp hr
    obtain ⟨i, hi⟩ := hindex t
    rw [hi]
    exact h.transactions t ht
  · exact fun r hr => hsame (h.accountLocks r hr)
  · exact fun r hr => hsame (h.tokenBalances r hr)
  · exact h.contentionBlocks
  · exact h.skipped

theorem References.move (h : s.db.References) (hmove : SystemMove json ints s s') :
    s'.db.References := by
  cases hmove with
  | write block => exact References.ingest h block
  | backfillBlock answer =>
      simp only [backfillBlock_eq]
      exact References.mapTransactions h _ (answered_index _ _)
  | summaryStore accounts programs hrun hstorable =>
      refine ⟨h.transactions, h.accountLocks, h.tokenBalances, fun r hr => ?_, h.skipped⟩
      obtain ⟨b, hb, rfl⟩ := List.mem_map.mp hr
      exact hstorable.recorded b hb
  | candlesStore =>
      exact ⟨h.transactions, h.accountLocks, h.tokenBalances, h.contentionBlocks, h.skipped⟩
  | _ => exact h

/-- In every state, whatever runs are interleaved, each foreign key of the schema
is met: no insert is let through without its parent, and no parent is deleted or
given another key. -/
theorem references_hold (s : SystemState) (hreach : SystemReachable json ints s) :
    s.db.References :=
  hreach.invariant references_empty fun h hmove => References.move h hmove

theorem references_hold_overlapped : overlappedState.db.References :=
  references_hold overlappedState overlappedState_reachable

/-! ## The summary is that of one run -/

namespace SummaryStage

def report : SummaryStage → ReportState
  | .scanning _ report => report
  | .loading _ report _ _ => report

/-- The slots of the run, those done first. -/
def slots : SummaryStage → List Int
  | .scanning todo report => report.blocks.map (·.slot) ++ todo
  | .loading todo report slot _ => report.blocks.map (·.slot) ++ slot :: todo

end SummaryStage

/-- An entry that a schedule can have made: as many widths as steps, none empty. -/
structure BlockReport.Scheduled (b : BlockReport) : Prop where
  depth : b.scheduleDepth = b.stepWidths.length
  widths : 0 ∉ b.stepWidths

/-- Ascending slots of stored blocks that are not skipped. -/
structure Db.Reportable (db : Db) (slots : List Int) : Prop where
  ascending : slots.Pairwise (· < ·)
  recorded : ∀ slot ∈ slots, ∃ b ∈ db.blocks.rows, b.slot = slot ∧ b.skipped = 0

theorem Db.Reportable.grows {db db' : Db} {slots : List Int} (h : db.Reportable slots)
    (hgrows : db.Grows db') : db'.Reportable slots where
  ascending := h.ascending
  recorded slot hslot := by
    obtain ⟨b, hb, hrest⟩ := h.recorded slot hslot
    exact ⟨b, hgrows.blocks b hb, hrest⟩

theorem reportable_reportSlots (db : Db) : db.Reportable (reportSlots db none) where
  ascending := reportSlots_ascending db
  recorded _ hslot := mem_reportSlots.mp hslot

structure SummaryStage.Sound (stage : SummaryStage) (db : Db) : Prop where
  slots : db.Reportable stage.slots
  entries : ∀ b ∈ stage.report.blocks, b.Scheduled

theorem ReportState.addSlot_blocks (report : ReportState) (slot : Int)
    (transactions : List Transaction) :
    ∃ b : BlockReport, b.slot = slot ∧ b.Scheduled
      ∧ (report.addSlot slot transactions).blocks = report.blocks ++ [b] := by
  refine ⟨⟨slot, (scheduleBlock transactions).steps.length,
    (scheduleBlock transactions).steps.map List.length⟩, rfl, ⟨?_, ?_⟩, ?_⟩
  · exact (List.length_map List.length).symm
  · intro hzero
    obtain ⟨step, hstep, hlen⟩ := List.mem_map.mp hzero
    exact steps_ne_nil _ step hstep (List.eq_nil_of_length_eq_zero hlen)
  · rw [ReportState.addSlot, reportEvent_foldl]

/-- A scan goes through its slots one by one, and never leaves them. -/
theorem SummaryStage.Sound.next {db : Db} {todo : List Int} {report : ReportState} {slot : Int}
    {transactions : List Transaction} (h : (loading todo report slot transactions).Sound db)
    (loaded : List Transaction) : (scanning todo (report.addSlot slot loaded)).Sound db := by
  obtain ⟨b, rfl, hb, hblocks⟩ := report.addSlot_blocks slot loaded
  constructor
  · have hslots : (scanning todo (report.addSlot b.slot loaded)).slots
        = (loading todo report b.slot transactions).slots := by
      simp only [SummaryStage.slots, hblocks, List.map_append, List.map_cons, List.map_nil,
        List.append_assoc, List.singleton_append]
    exact hslots ▸ h.slots
  · intro c hc
    change c ∈ (report.addSlot b.slot loaded).blocks at hc
    rw [hblocks] at hc
    rcases List.mem_append.mp hc with hc | hc
    · exact h.entries c hc
    · obtain rfl := List.mem_singleton.mp hc
      exact hb

/-- The tables hold `report`, whose slots are of stored blocks not skipped. -/
structure SummaryIs (ints : IntListJson) (report : RangeReport) (db : Db) : Prop where
  blocks : db.contentionBlocks.rows = report.blocks.map (·.row ints)
  accounts : db.contentionAccounts.rows = report.accounts.map (·.row)
  programs : db.contentionPrograms.rows = report.programs.map (·.row)
  slots : db.Reportable (report.blocks.map (·.slot))
  entries : ∀ b ∈ report.blocks, b.Scheduled

/-- The report that the tables hold, an empty one as long as none was stored. -/
def SystemState.summary (s : SystemState) : RangeReport :=
  s.stored.getD ⟨[], [], []⟩

structure SummaryInv (ints : IntListJson) (s : SystemState) : Prop where
  table : SummaryIs ints s.summary s.db
  stages : ∀ stage ∈ s.summaries, stage.Sound s.db

theorem nodup_listing {ρ : Type} (name : ρ → String) (ofEntry : String × Nat × Nat → ρ)
    (hname : ∀ e, name (ofEntry e) = e.1) (ord : IterOrder (String × Nat × Nat))
    (m : EntryMap String (Nat × Nat)) {listing : List ρ}
    (hperm : listing.Perm ((ord.arrange m.rows).map ofEntry)) : (listing.map name).Nodup := by
  have hnames : (m.rows.map ofEntry).map name = m.rows.map Prod.fst := by
    rw [List.map_map]
    exact List.map_congr_left fun e _ => hname e
  rw [((hperm.trans ((ord.perm m.rows).map ofEntry)).map name).nodup_iff, hnames]
  exact m.nodup

/-- Once its scan is through, the report of a run can be stored, whatever has
been written since it read its slots. -/
theorem SummaryStage.Sound.storable {db : Db} {report : ReportState}
    (h : (scanning [] report).Sound db) (accounts programs : IterOrder (String × Nat × Nat)) :
    (report.finish accounts programs).Storable db := by
  have hslots : (scanning [] report).slots = report.blocks.map (·.slot) := List.append_nil _
  have hreportable := hslots ▸ h.slots
  constructor
  · exact hreportable.ascending.imp ne_of_lt
  · intro b hb
    obtain ⟨r, hr, hslot, -⟩ := hreportable.recorded b.slot (List.mem_map_of_mem hb)
    exact ⟨r, hr, hslot⟩
  · exact nodup_listing AccountConflictCount.accountPubkey .ofEntry (fun _ => rfl) accounts
      report.accountCounts (sortByKey_perm _ _)
  · exact nodup_listing ProgramConflictCount.programId .ofEntry (fun _ => rfl) programs
      report.programCounts (sortByKey_perm _ _)

theorem SummaryIs.grows {report : RangeReport} {db db' : Db} (h : SummaryIs ints report db)
    (hgrows : db.Grows db') (hblocks : db'.contentionBlocks = db.contentionBlocks)
    (haccounts : db'.contentionAccounts = db.contentionAccounts)
    (hprograms : db'.contentionPrograms = db.contentionPrograms) : SummaryIs ints report db' where
  blocks := hblocks ▸ h.blocks
  accounts := haccounts ▸ h.accounts
  programs := hprograms ▸ h.programs
  slots := h.slots.grows hgrows
  entries := h.entries

theorem SummaryStage.Sound.grows {stage : SummaryStage} {db db' : Db} (h : stage.Sound db)
    (hgrows : db.Grows db') : stage.Sound db' :=
  ⟨h.slots.grows hgrows, h.entries⟩

theorem SummaryInv.move (h : SummaryInv ints s) (hmove : SystemMove json ints s s') :
    SummaryInv ints s' := by
  have hgrows := hmove.grows
  have hold : ∀ stage ∈ s.summaries, stage.Sound s'.db :=
    fun stage hstage => (h.stages stage hstage).grows hgrows
  cases hmove with
  | write block => exact ⟨h.table.grows hgrows rfl rfl rfl, hold⟩
  | backfillBlock answer =>
      refine ⟨h.table.grows hgrows ?_ ?_ ?_, hold⟩
      · rw [backfillBlock_eq]
        rfl
      · rw [backfillBlock_eq]
        rfl
      · rw [backfillBlock_eq]
        rfl
  | summaryStart =>
      refine ⟨h.table, fun stage hstage => ?_⟩
      rcases List.mem_append.mp hstage with hstage | hstage
      · exact h.stages stage hstage
      · obtain rfl := List.mem_singleton.mp hstage
        exact ⟨reportable_reportSlots s.db, nofun⟩
  | summaryTransactions ord hrun =>
      refine ⟨h.table, fun stage hstage => ?_⟩
      rcases List.mem_or_eq_of_mem_set hstage with hstage | rfl
      · exact h.stages stage hstage
      · have hsound := h.stages _ (List.mem_of_getElem? hrun)
        exact ⟨hsound.slots, hsound.entries⟩
  | summaryLocks ord hrun =>
      refine ⟨h.table, fun stage hstage => ?_⟩
      rcases List.mem_or_eq_of_mem_set hstage with hstage | rfl
      · exact h.stages stage hstage
      · exact (h.stages _ (List.mem_of_getElem? hrun)).next _
  | summaryStore accounts programs hrun hstorable =>
      have hsound := h.stages _ (List.mem_of_getElem? hrun)
      refine ⟨⟨rfl, rfl, rfl, ?_, hsound.entries⟩, fun stage hstage => ?_⟩
      · have hslots := (hsound.grows hgrows).slots
        rwa [SummaryStage.slots, List.append_nil] at hslots
      · exact hold stage (List.mem_of_mem_eraseIdx hstage)
  | summaryFail accounts programs hrun hnot =>
      have hsound := h.stages _ (List.mem_of_getElem? hrun)
      exact absurd (hsound.storable accounts programs) hnot
  | candlesStore => exact ⟨h.table.grows hgrows rfl rfl rfl, hold⟩
  | _ => exact ⟨h.table, h.stages⟩

theorem summaryInv_of_reachable (hreach : SystemReachable json ints s) : SummaryInv ints s :=
  hreach.invariant ⟨⟨rfl, rfl, rfl, ⟨.nil, nofun⟩, nofun⟩, nofun⟩ fun h hmove => h.move hmove

/-- A table that holds a report serves it. -/
theorem SummaryIs.storedIn {report : RangeReport} {db : Db} (h : SummaryIs ints report db)
    (hbounded : report.Bounded) : report.StoredIn ints db := by
  have hstorable : report.Storable db := by
    constructor
    · exact h.slots.ascending.imp ne_of_lt
    · intro b hb
      obtain ⟨r, hr, hslot, -⟩ := h.slots.recorded b.slot (List.mem_map_of_mem hb)
      exact ⟨r, hr, hslot⟩
    · have hkeys := db.contentionAccounts.nodup
      rw [h.accounts] at hkeys
      exact nodup_of_rows report.accounts (·.row) ContentionAccountsRow.accountPubkey hkeys
    · have hkeys := db.contentionPrograms.nodup
      rw [h.programs] at hkeys
      exact nodup_of_rows report.programs (·.row) ContentionProgramsRow.programId hkeys
  have hinstalled := install_storedIn ints hbounded hstorable
  exact ⟨h.blocks.trans hinstalled.blocks, h.accounts.trans hinstalled.accounts,
    h.programs.trans hinstalled.programs⟩

/-- In every state the summary is that of the run that stored last: its slots
ascend, each has a block that is not skipped, and each entry is that of a schedule.
No run that is through fails to store its own, and a request is answered from it. -/
theorem summary_of_one_run (s : SystemState) (hreach : SystemReachable json ints s) :
    SummaryIs ints s.summary s.db
      ∧ (∀ (i : Nat) (report : ReportState) accounts programs,
          s.summaries[i]? = some (.scanning [] report) →
          (storeRangeReport ints s.db (report.finish accounts programs)).1 = .ok ())
      ∧ (s.summary.Bounded → (∀ b ∈ s.summary.blocks, ints.RoundTrips b.stepWidths) →
          ∀ ord q, (getContention ints ord s.db q).Answers s.summary q) := by
  have hinv := summaryInv_of_reachable hreach
  refine ⟨hinv.table, fun i report accounts programs hrun => ?_, fun hbounded hround ord q => ?_⟩
  · have hstorable := (hinv.stages _ (List.mem_of_getElem? hrun)).storable accounts programs
    rcases storeRangeReport_cases ints s.db (report.finish accounts programs) with
      ⟨_, hstore⟩ | ⟨hnot, -⟩
    · rw [hstore]
    · exact absurd hstorable hnot
  · exact getContention_answers ints (hinv.table.storedIn hbounded) hround ord q

/-- The summary is of the one slot there was when the run began. -/
theorem summary_of_one_run_overlapped :
    overlappedState.summary.blocks = [⟨1, 1, [1]⟩]
      ∧ overlappedState.db.blocks.rows.length = 2
      ∧ SummaryIs .unsigned overlappedState.summary overlappedState.db :=
  ⟨by decide +kernel, by decide +kernel,
    (summary_of_one_run overlappedState overlappedState_reachable).1⟩

/-! ## Candles -/

theorem Db.Traded.grows {db db' : Db} (hgrows : db.Grows db') {mint : String} {time : Int}
    (h : db.Traded mint time) : db'.Traded mint time := by
  obtain ⟨tb, htb, hmint, t, ht, hsig, b, hb, hslot, hrest⟩ := h
  obtain ⟨t', ht', hsig', hslot'⟩ := hgrows.exists_transaction ht
  exact ⟨tb, hgrows.tokenBalances tb htb, hmint, t', ht', hsig'.trans hsig, b,
    hgrows.blocks b hb, hslot.trans hslot'.symm, hrest⟩

theorem CandlesSound.grows {db db' : Db} (hgrows : db.Grows db')
    {rows : List OhlcvCandlesRow} (h : CandlesSound db rows) : CandlesSound db' rows where
  wellFormed := h.wellFormed
  not_wsol := h.not_wsol
  backed r hr := by
    obtain ⟨time, htraded, hrest⟩ := h.backed r hr
    exact ⟨time, htraded.grows hgrows, hrest⟩

structure CandlesInv (s : SystemState) : Prop where
  table : CandlesSound s.db s.db.ohlcvCandles.rows
  builds : ∀ candles ∈ s.builds, CandlesSound s.db (candles.map Candle.row)

theorem CandlesInv.move (h : CandlesInv s) (hmove : SystemMove json ints s s') :
    CandlesInv s' := by
  have hgrows := hmove.grows
  have htable := h.table.grows hgrows
  have hbuilds : ∀ candles ∈ s.builds, CandlesSound s'.db (candles.map Candle.row) :=
    fun candles hcandles => (h.builds candles hcandles).grows hgrows
  cases hmove with
  | backfillBlock answer =>
      refine ⟨?_, hbuilds⟩
      rw [backfillBlock_eq] at htable ⊢
      exact htable
  | candlesBuild hbuilt =>
      refine ⟨htable, fun candles hcandles => ?_⟩
      rcases List.mem_append.mp hcandles with hcandles | hcandles
      · exact hbuilds candles hcandles
      · obtain rfl := List.mem_singleton.mp hcandles
        exact candlesSound_of_build hbuilt
  | candlesStore hrun =>
      refine ⟨?_, fun candles hcandles => hbuilds candles (List.mem_of_mem_eraseIdx hcandles)⟩
      exact htable.replaceAll (hbuilds _ (List.mem_of_getElem? hrun))
  | _ => exact ⟨htable, hbuilds⟩

theorem candlesInv_of_reachable (hreach : SystemReachable json ints s) : CandlesInv s :=
  hreach.invariant ⟨⟨nofun, nofun, nofun⟩, nofun⟩ fun h hmove => h.move hmove

/-- In every state each candle is well formed, with prices above zero and below
`f64::MAX` and a volume above zero, is not of WSOL itself, and goes back to a stored
balance of its mint in a block that is not skipped, whose time has a candle in either
interval. -/
theorem candles_traceable (s : SystemState) (hreach : SystemReachable json ints s) :
    CandlesSound s.db s.db.ohlcvCandles.rows :=
  (candlesInv_of_reachable hreach).table

theorem candles_traceable_overlapped :
    overlappedState.db.ohlcvCandles.rows.length = 2
      ∧ CandlesSound overlappedState.db overlappedState.db.ohlcvCandles.rows :=
  ⟨by decide +kernel, candles_traceable overlappedState overlappedState_reachable⟩

end Astralane
