import Astralane.ChainTrades
import Astralane.Interruption
import Astralane.Reindexing

/-!
# From the node to the API

All programs in a row, and the one statement about them that names no table:
runs of the ingestion, stopped anywhere and started again, fill the database;
backfills check the order of its transactions; a summary and the candles are
built; and the API answers. What it answers is what the chain has, computed from
its parsed blocks directly (`served_of_chain`).

Each program is a stage with its own correctness result. The composition needs
that the later ones read nothing the others write: the backfill finds the indices
the parser gave (`backfillSteps_ingest`), and the candles are built beside the
summary (`buildAndStoreCandles_install`).
-/

namespace Astralane

variable {json : StringListJson} {ints : IntListJson} {bs ws : List ParsedBlock}

/-! ## The stages -/

/-- Signatures-only responses that have the stored transactions at the places they
were parsed from. -/
def ListsPlaces (answer : UInt64 → BlockFetchOutcome) (bs : List ParsedBlock) : Prop :=
  ∀ b ∈ bs, ∀ signatures, responseSignatures (answer b.slot) = some signatures →
    signatures.Nodup
      ∧ ∀ t ∈ b.transactions, ∃ i : Nat, t.txIndex = i ∧ signatures[i]? = some t.signature

/-- After an ingestion such responses change nothing. -/
theorem backfillSteps_ingest {answer : UInt64 → BlockFetchOutcome}
    (hplaces : ListsPlaces answer bs) (hws : ∀ b, b ∈ ws ↔ b ∈ bs)
    {steps : List (Int × BlockFetchOutcome)} (htrue : TrueTo answer steps) :
    backfillSteps (Db.empty.ingest json ws) steps = Db.empty.ingest json ws := by
  rw [backfillSteps_eq, mapTransactions_eq_self]
  intro r hr
  rw [foldl_steps htrue]
  split
  · rcases Keyed.mem_insertAll hr with hr | ⟨-, hr⟩
    · cases hr
    · obtain ⟨b, hb, hr⟩ := List.mem_flatMap.mp hr
      obtain ⟨t, ht, rfl⟩ := (mem_transactionsRows json).mp hr
      unfold TransactionsRow.answered
      split
      · rename_i signatures hresponse
        have hslot : asU64 (t.transactionsRow json (asI64 b.slot)).slot = b.slot :=
          asU64_asI64 b.slot
        rw [hslot] at hresponse
        obtain ⟨hnd, hall⟩ := hplaces b ((hws b).mp hb) signatures hresponse
        obtain ⟨i, hi, hplace⟩ := hall t ht
        have hrow : (t.transactionsRow json (asI64 b.slot)).txIndex = i := hi
        rw [backfilled_of_listed hnd rfl hplace, ← hrow]
      · rfl
  · rfl

/-- The summary is out of the way of the candles. -/
theorem buildAndStoreCandles_install {db db' : Db} {report : RangeReport}
    (hstorable : report.Storable db) {ord : BuildOrder} {total : Nat}
    (h : buildAndStoreCandles ord db = .ok (db', total)) :
    buildAndStoreCandles ord (report.install ints db hstorable)
      = .ok
          ({ report.install ints db hstorable with ohlcvCandles := db'.ohlcvCandles }, total) := by
  obtain ⟨trades, oneMin, fiveMin, htrades, hone, hfive, htable, htotal⟩ :=
    buildAndStoreCandles_eq_ok h
  have hsame : extractTrades ord.trades (report.install ints db hstorable) = .ok trades := htrades
  rw [buildAndStoreCandles, hsame, Except.ok_bind, hone, Except.ok_bind, hfive, htable, htotal,
    List.length_append]
  rfl

/-! ## All of them -/

/-- The blocks of a range as the parser reads them off the chain. -/
def parsedRange (chain : UInt64 → BlockFetchOutcome) (startSlot endSlot : UInt64) :
    List ParsedBlock :=
  (slotRange startSlot endSlot).filterMap fun slot => parseOutcome slot (chain slot)

/-- What the chain and the columns guarantee of the blocks of a range. -/
structure ChainData (json : StringListJson) (ints : IntListJson) (bs : List ParsedBlock) :
    Prop where
  blocks : ChainBlocks bs
  programs : ∀ b ∈ bs, ∀ t ∈ b.transactions, json.RoundTrips t.programIds
  amounts : ∀ b ∈ bs, ∀ t ∈ b.transactions, t.TokenAmounts
  fits : ContentionFits ints bs

/-- What the API says about the blocks `bs`: to every query about contention, and in
every chart. -/
structure ServedOf (ints : IntListJson) (bs : List ParsedBlock) (db : Db) : Prop where
  contention : ∀ ord q, ContentionOf bs q (getContention ints ord db q)
  charts : ∃ trades, TradesOf (chainRows bs) trades
    ∧ ∀ mint interval, ∃ rows, getOhlcv db mint interval.text = .ok rows
      ∧ ChartOf trades mint interval rows

/-- The runs of a range against nodes that are honest about `chain`, stopped anywhere
and with any failures, until every slot was got; backfills likewise; a summary; the
candles. What is served then is what the chain has. -/
theorem served_of_chain (chain answer : UInt64 → BlockFetchOutcome) (startSlot endSlot : UInt64)
    (hdata : ChainData json ints (parsedRange chain startSlot endSlot))
    (runs : List (IngestRun chain))
    (hwithin : ∀ run ∈ runs, startSlot ≤ run.cfg.startSlot ∧ run.cfg.endSlot ≤ endSlot)
    (hgot : ∀ slot ∈ slotRange startSlot endSlot, ∃ run ∈ runs, run.Got slot)
    (hplaces : ListsPlaces answer (parsedRange chain startSlot endSlot))
    (steps : List (Int × BlockFetchOutcome)) (htrue : TrueTo answer steps)
    (ord : ReportOrder) (bord : BuildOrder) :
    ∃ summarised db total,
      storeRangeReport ints (backfillSteps (databaseAfter json runs) steps)
          (buildRangeReport json ord (backfillSteps (databaseAfter json runs) steps))
        = (.ok (), summarised)
      ∧ buildAndStoreCandles bord summarised = .ok (db, total)
      ∧ ServedOf ints (parsedRange chain startSlot endSlot) db := by
  generalize hbs : parsedRange chain startSlot endSlot = bs at hdata hplaces ⊢
  have hparsed : ∀ b ∈ bs, ∃ o, parseOutcome b.slot o = some b := by
    intro b hb
    rw [← hbs, parsedRange] at hb
    obtain ⟨slot, -, hparse⟩ := List.mem_filterMap.mp hb
    exact ⟨chain slot, parseOutcome_slot hparse ▸ hparse⟩
  have hws : ∀ b, b ∈ runs.flatMap (·.state.written) ↔ b ∈ bs := by
    intro b
    rw [List.mem_flatMap, ← hbs, parsedRange, List.mem_filterMap]
    exact mem_written_iff hwithin hgot
  -- the backfills leave the rows of the runs as they are
  rw [databaseAfter_eq, backfillSteps_ingest hplaces hws htrue]
  obtain ⟨hstorable, hstore, hcontention⟩ :=
    contention_of_ingest hdata.blocks hparsed hdata.programs hdata.fits hws ord
  have hbacked : BackedBy bs Keyed.empty := by
    intro r hr
    cases hr
  obtain ⟨trades, t, total, htrades, htable, hbuild⟩ :=
    buildAndStoreCandles_ingestedWith hdata.blocks hparsed hdata.amounts json hws hbacked bord
  have hrows : ∀ rows ∈ chainRows bs, TransactionRows rows :=
    fun _ => transactionRows_of_mem hdata.amounts
  refine ⟨_, _, total, hstore, buildAndStoreCandles_install hstorable hbuild, hcontention, trades,
    htrades, ?_⟩
  exact CandleTable.chart htable (htrades.chain_ascending hdata.blocks hparsed)
    (htrades.prices hrows)

/-- A block and a skipped slot, as the parser reads them off `oneBlockChain`. -/
def oneBlockRange : List ParsedBlock :=
  [parsedBlock, ⟨6, none, none, true, []⟩]

theorem oneBlockRange_data : ChainData .escapeFree .unsigned oneBlockRange where
  blocks := ⟨⟨by decide, by decide⟩, by decide, by decide⟩
  programs := by
    unfold StringListJson.RoundTrips
    decide
  amounts := by
    intro b hb t ht
    rcases List.mem_cons.mp hb with rfl | hb
    · rcases List.mem_cons.mp ht with rfl | ht
      · exact ⟨by simp, by simp, by simp, by simp⟩
      · obtain rfl := List.mem_singleton.mp ht
        exact tokenAmounts_of_swap rfl
    · obtain rfl := List.mem_singleton.mp hb
      cases ht
  fits :=
    { depth := by decide
      widths := by
        unfold IntListJson.RoundTrips
        decide +kernel
      events := by
        have hone : (chainEvents oneBlockRange).length = 1 := by decide
        omega
      occurrences := by
        have hone : ((chainEvents oneBlockRange).map fun e => e.programIds.length).sum = 1 := by
          decide
        omega }

/-- The element between the two stored transactions was unusable to the parser. -/
def fullSignatures (_ : UInt64) : BlockFetchOutcome :=
  .fetched (.obj [("signatures", .arr [.str "s1", .str "s0", .str "s2"])])

theorem fullSignatures_places : ListsPlaces fullSignatures oneBlockRange := by
  intro b hb signatures hresponse
  obtain rfl := Option.some.inj hresponse
  refine ⟨by decide, ?_⟩
  rcases List.mem_cons.mp hb with rfl | hb
  · intro t ht
    rcases List.mem_cons.mp ht with rfl | ht
    · exact ⟨0, rfl, rfl⟩
    · obtain rfl := List.mem_singleton.mp ht
      exact ⟨2, rfl, rfl⟩
  · obtain rfl := List.mem_singleton.mp hb
    intro t ht
    cases ht

/-- The tables after the two runs, a backfill that got nothing and one that did. -/
def resumedDb : Db :=
  backfillSteps (databaseAfter .escapeFree [crashedRun, resumedRun])
    [(5, .failed "timeout"), (5, fullSignatures 5)]

/-- The swap in slot 5 leaves a candle of each interval. -/
theorem served_of_chain_resumed :
    (buildAndStoreCandles .stored (storeRangeReport .unsigned resumedDb
        (buildRangeReport .escapeFree .stored resumedDb)).2).map Prod.snd = .ok 2
      ∧ ∃ summarised db total,
          storeRangeReport .unsigned resumedDb (buildRangeReport .escapeFree .stored resumedDb)
            = (.ok (), summarised)
          ∧ buildAndStoreCandles .stored summarised = .ok (db, total)
          ∧ ServedOf .unsigned (parsedRange oneBlockChain 5 6) db := by
  have hrange : parsedRange oneBlockChain 5 6 = oneBlockRange := by decide +kernel
  refine ⟨by decide +kernel, served_of_chain oneBlockChain fullSignatures 5 6
    (hrange ▸ oneBlockRange_data) [crashedRun, resumedRun] resumedRuns_within resumedRuns_got
    (hrange ▸ fullSignatures_places) [(5, .failed "timeout"), (5, fullSignatures 5)]
    (fun step hstep => ?_) .stored .stored⟩
  rcases List.mem_cons.mp hstep with rfl | hstep
  · exact Or.inl rfl
  · obtain rfl := List.mem_singleton.mp hstep
    exact Or.inr rfl

end Astralane
