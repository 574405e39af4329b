import Mathlib.Data.List.Infix
import Astralane.RangeReport
import Astralane.Trades

/-!
# Which ingested transactions the analyses see

`build_range_report` and `extract_trades` pick transactions by their block row:
`skipped = 0`, and for the latter a block time. The block row and the
transaction rows are inserted or ignored separately, so a block delivered again
can add transactions under the row of an earlier delivery of the slot.

`WriteMeets` is the condition on a write under which that does no harm, and a
run keeps every fetched transaction visible exactly when each of its writes
meets it (`runBlocking_visible_iff`).
-/

namespace Astralane

variable (json : StringListJson)

/-! ## What the two analyses read -/

/-- The rows of the slot pass the `WHERE` of `extract_trades`. -/
def Db.ReadByTrades (db : Db) (slot : Int) : Prop :=
  ∃ b ∈ db.blocks.rows, b.slot = slot ∧ b.skipped = 0 ∧ b.blockTime.isSome

/-- A stored balance is joined into the rows of `extract_trades` when its block
passes the `WHERE`. -/
theorem mem_balanceRows_iff {db : Db} {tb : TokenBalancesRow} {t : TransactionsRow}
    (htb : tb ∈ db.tokenBalances.rows) (ht : t ∈ db.transactions.rows)
    (hsig : tb.signature = t.signature) :
    (∃ row ∈ db.balanceRows, row.1 = tb.accountIndex ∧ row.2.signature = tb.signature)
      ↔ db.ReadByTrades t.slot := by
  simp only [Db.balanceRows, List.mem_flatMap, List.mem_filterMap, List.mem_filter,
    Bool.and_eq_true, decide_eq_true_eq, Option.map_eq_some_iff]
  constructor
  · rintro ⟨_, ⟨tb', -, t', ⟨ht', htsig⟩, b, ⟨hb, hslot, hskip⟩, time, htime, rfl⟩, -, hsig'⟩
    have hsame : t' = t := db.transactions.eq_of_key_eq ht' ht (htsig.trans (hsig'.trans hsig))
    rw [← hsame]
    exact ⟨b, hb, hslot, hskip, by rw [htime]; rfl⟩
  · rintro ⟨b, hb, hslot, hskip, htime⟩
    obtain ⟨time, htime⟩ := Option.isSome_iff_exists.mp htime
    exact ⟨_, ⟨tb, htb, t, ⟨ht, hsig.symm⟩, b, ⟨hb, hslot, hskip⟩, time, htime, rfl⟩, rfl, rfl⟩

/-- `r` is scheduled by `build_range_report`. -/
def Db.SeenByReport (db : Db) (r : TransactionsRow) : Prop :=
  r.slot ∈ reportSlots db none
    ∧ ∀ ord, ∃ txn ∈ loadBlockTransactions json ord db r.slot, txn.signature = r.signature

/-- The block of `r` is read by `extract_trades`, and all balances of `r` with it. -/
def Db.SeenByTrades (db : Db) (r : TransactionsRow) : Prop :=
  db.ReadByTrades r.slot
    ∧ ∀ tb ∈ db.tokenBalances.rows, tb.signature = r.signature →
        ∃ row ∈ db.balanceRows, row.1 = tb.accountIndex ∧ row.2.signature = tb.signature

theorem seenByReport_iff {db : Db} {r : TransactionsRow} (hr : r ∈ db.transactions.rows) :
    db.SeenByReport json r ↔ ∃ b ∈ db.blocks.rows, b.slot = r.slot ∧ b.skipped = 0 := by
  rw [Db.SeenByReport, mem_reportSlots, and_iff_left]
  intro ord
  rw [loadBlockTransactions_eq]
  refine ⟨loadedTransaction json ord db r.slot r, List.mem_map_of_mem ?_, rfl⟩
  rw [mem_sortByKey, (ord.transactions.perm _).mem_iff]
  exact List.mem_filter.mpr ⟨hr, by simp⟩

theorem seenByTrades_iff {db : Db} {r : TransactionsRow} (hr : r ∈ db.transactions.rows) :
    db.SeenByTrades r ↔ db.ReadByTrades r.slot := by
  rw [Db.SeenByTrades, and_iff_left_iff_imp]
  exact fun hread tb htb hsig => (mem_balanceRows_iff htb hr hsig).mpr hread

/-! ## The property and the condition -/

/-- `r` is the stored row of a transaction of `b`. -/
def StoredUnder (db : Db) (b : ParsedBlock) (r : TransactionsRow) : Prop :=
  r ∈ db.transactions.rows ∧ r.slot = asI64 b.slot
    ∧ ∃ t ∈ b.transactions, t.signature = r.signature

/-- After the blocks `ws` were written: no skipped slot has transactions, and
what was ingested of a fetched block is seen. -/
structure Visible (ws : List ParsedBlock) (db : Db) : Prop where
  skipped_empty : ∀ r ∈ db.blocks.rows, r.skipped = 1 → db.transactionsOf r.slot = []
  reported : ∀ b ∈ ws, b.skipped = false → ∀ r, StoredUnder db b r → db.SeenByReport json r
  traded : ∀ b ∈ ws, b.skipped = false → b.blockTime.isSome → ∀ r, StoredUnder db b r →
    db.SeenByTrades r

/-- The slot of `b` is not already recorded as skipped, unless `b` adds no
transaction; and it is not recorded without a block time when `b` carries one,
unless no transaction of `b` belongs to the slot. -/
structure WriteMeets (db : Db) (b : ParsedBlock) : Prop where
  not_skipped : ∀ r ∈ db.blocks.rows, r.slot = asI64 b.slot → r.skipped = 1 →
    ∀ t ∈ b.transactions, (db.transactions.find? t.signature).isSome
  not_timeless : b.blockTime.isSome → ∀ r ∈ db.blocks.rows, r.slot = asI64 b.slot →
    r.blockTime = none → ∀ t ∈ b.transactions,
      ∃ s, db.transactions.find? t.signature = some s ∧ s.slot ≠ asI64 b.slot

/-! ## One write -/

section Write

variable {json} {db : Db} {b : ParsedBlock}

theorem blocks_of_write {r : BlocksRow} (h : r ∈ (db.ingest json [b]).blocks.rows) :
    r ∈ db.blocks.rows ∨ r = b.blocksRow ∧ ∀ s ∈ db.blocks.rows, s.slot ≠ asI64 b.slot := by
  rcases Keyed.mem_insertAll h with h | ⟨hfree, h⟩
  · exact Or.inl h
  · obtain rfl := List.mem_singleton.mp h
    exact Or.inr ⟨rfl, Keyed.find?_eq_none.mp hfree⟩

theorem transactions_of_write {r : TransactionsRow}
    (h : r ∈ (db.ingest json [b]).transactions.rows) :
    r ∈ db.transactions.rows
      ∨ db.transactions.find? r.signature = none ∧ r.slot = asI64 b.slot
        ∧ ∃ t ∈ b.transactions, t.signature = r.signature := by
  rcases Keyed.mem_insertAll h with h | ⟨hfree, h⟩
  · exact Or.inl h
  · obtain ⟨_, hb, hr⟩ := List.mem_flatMap.mp h
    obtain rfl := List.mem_singleton.mp hb
    obtain ⟨t, ht, rfl⟩ := (mem_transactionsRows json).mp hr
    exact Or.inr ⟨hfree, rfl, t, ht, rfl⟩

theorem mem_blocks_write {r : BlocksRow} (h : r ∈ db.blocks.rows) :
    r ∈ (db.ingest json [b]).blocks.rows :=
  Keyed.mem_insertAll_of_mem h

theorem mem_transactions_write {r : TransactionsRow} (h : r ∈ db.transactions.rows) :
    r ∈ (db.ingest json [b]).transactions.rows :=
  Keyed.mem_insertAll_of_mem h

theorem block_recorded (db : Db) (b : ParsedBlock) :
    ∃ r ∈ (db.ingest json [b]).blocks.rows, r.slot = asI64 b.slot := by
  have hsome := Keyed.find?_insertAll_mem db.blocks (List.mem_singleton_self b.blocksRow)
  obtain ⟨r, hr⟩ := Option.ne_none_iff_exists'.mp hsome
  obtain ⟨hmem, hslot⟩ := Keyed.find?_eq_some.mp hr
  exact ⟨r, hmem, hslot⟩

theorem transaction_recorded (db : Db) {t : ParsedTransaction} (ht : t ∈ b.transactions) :
    ∃ r ∈ (db.ingest json [b]).transactions.rows, r.signature = t.signature := by
  have hrow : t.transactionsRow json (asI64 b.slot) ∈ [b].flatMap (·.transactionsRows json) :=
    List.mem_flatMap.mpr ⟨b, List.mem_singleton_self b,
      (mem_transactionsRows json).mpr ⟨t, ht, rfl⟩⟩
  have hsome := Keyed.find?_insertAll_mem db.transactions hrow
  obtain ⟨r, hr⟩ := Option.ne_none_iff_exists'.mp hsome
  obtain ⟨hmem, hsig⟩ := Keyed.find?_eq_some.mp hr
  exact ⟨r, hmem, hsig⟩

end Write

/-- What every run keeps, whatever it writes: foreign keys hold, the flag is a
Boolean, and a written transaction has a row under its signature. -/
structure Recorded (ws : List ParsedBlock) (db : Db) : Prop where
  parent : ∀ r ∈ db.transactions.rows, ∃ b ∈ db.blocks.rows, b.slot = r.slot
  flag : ∀ r ∈ db.blocks.rows, r.skipped = 0 ∨ r.skipped = 1
  stored : ∀ b ∈ ws, ∀ t ∈ b.transactions, (db.transactions.find? t.signature).isSome

variable {json}

theorem Recorded.write {ws : List ParsedBlock} {db : Db} (h : Recorded ws db) (b : ParsedBlock) :
    Recorded (ws ++ [b]) (db.ingest json [b]) where
  parent := by
    intro r hr
    rcases transactions_of_write hr with hr | ⟨-, hslot, -⟩
    · obtain ⟨s, hs, hslot⟩ := h.parent r hr
      exact ⟨s, mem_blocks_write hs, hslot⟩
    · rw [hslot]
      exact block_recorded db b
  flag := by
    intro r hr
    rcases blocks_of_write hr with hr | ⟨rfl, -⟩
    · exact h.flag r hr
    · cases hb : b.skipped <;> simp [ParsedBlock.blocksRow, boolToInt, hb]
  stored := by
    intro c hc t ht
    rcases List.mem_append.mp hc with hc | hc
    · obtain ⟨r, hr⟩ := Option.isSome_iff_exists.mp (h.stored c hc t ht)
      rw [Db.ingest, Keyed.find?_insertAll_of_present hr]
      rfl
    · obtain rfl := List.mem_singleton.mp hc
      obtain ⟨r, hr, hsig⟩ := transaction_recorded db ht
      rw [← hsig, Keyed.mem_rows_iff.mp hr]
      rfl

/-- A block row stays what it is, and is the one row of its slot. -/
theorem block_row_unique {db : Db} {b : ParsedBlock} {r s : BlocksRow} (hr : r ∈ db.blocks.rows)
    (hs : s ∈ (db.ingest json [b]).blocks.rows) (hslot : s.slot = r.slot) : s = r :=
  Keyed.eq_of_key_eq _ hs (mem_blocks_write hr) hslot

theorem transactionsOf_eq_nil {db : Db} {slot : Int} :
    db.transactionsOf slot = [] ↔ ∀ r ∈ db.transactions.rows, r.slot ≠ slot := by
  simp [Db.transactionsOf, List.filter_eq_nil_iff]

/-- While no skipped slot has transactions, every stored transaction is
scheduled: its block row exists and is not a skipped one. -/
theorem Recorded.not_skipped {ws : List ParsedBlock} {db : Db} (h : Recorded ws db)
    (hempty : ∀ r ∈ db.blocks.rows, r.skipped = 1 → db.transactionsOf r.slot = [])
    {r : TransactionsRow} (hr : r ∈ db.transactions.rows) :
    ∃ s ∈ db.blocks.rows, s.slot = r.slot ∧ s.skipped = 0 := by
  obtain ⟨s, hs, hslot⟩ := h.parent r hr
  refine ⟨s, hs, hslot, ?_⟩
  rcases h.flag s hs with hzero | hone
  · exact hzero
  · exact absurd hslot.symm (transactionsOf_eq_nil.mp (hempty s hs hone) r hr)

section Step

variable {ws : List ParsedBlock} {db : Db} {b : ParsedBlock}

theorem skipped_empty_write (hemit : ∃ o, parseOutcome b.slot o = some b) (hrec : Recorded ws db)
    (hempty : ∀ r ∈ db.blocks.rows, r.skipped = 1 → db.transactionsOf r.slot = [])
    (hmeets : WriteMeets db b) :
    ∀ r ∈ (db.ingest json [b]).blocks.rows, r.skipped = 1 →
      (db.ingest json [b]).transactionsOf r.slot = [] := by
  intro r hr hskip
  refine transactionsOf_eq_nil.mpr fun x hx hslot => ?_
  rcases blocks_of_write hr with hr | ⟨rfl, hfree⟩
  · rcases transactions_of_write hx with hx | ⟨hnew, hxb, t, ht, hsig⟩
    · exact transactionsOf_eq_nil.mp (hempty r hr hskip) x hx hslot
    · have hstored := hmeets.not_skipped r hr (hslot.symm.trans hxb) hskip t ht
      rw [hsig, hnew] at hstored
      nomatch hstored
  · rcases transactions_of_write hx with hx | ⟨-, -, t, ht, -⟩
    · obtain ⟨s, hs, hs'⟩ := hrec.parent x hx
      exact hfree s hs (hs'.trans hslot)
    · obtain ⟨o, ho⟩ := hemit
      have hb : b.skipped = true := by
        cases hb : b.skipped with
        | true => rfl
        | false => simp [ParsedBlock.blocksRow, boolToInt, hb] at hskip
      rw [parseOutcome_skipped ho hb] at ht
      nomatch ht

/-- A transaction stored under a written block before or after the next write
is the same row. -/
theorem storedUnder_of_write (hrec : Recorded ws db) {c : ParsedBlock} (hc : c ∈ ws)
    {r : TransactionsRow} (h : StoredUnder (db.ingest json [b]) c r) : StoredUnder db c r := by
  obtain ⟨hr, hslot, t, ht, hsig⟩ := h
  refine ⟨?_, hslot, t, ht, hsig⟩
  rcases transactions_of_write hr with hr | ⟨hnew, -⟩
  · exact hr
  · have hstored := hrec.stored c hc t ht
    rw [hsig, hnew] at hstored
    nomatch hstored

/-- A write that meets the condition keeps everything visible. -/
theorem Visible.write (hemit : ∃ o, parseOutcome b.slot o = some b) (hrec : Recorded ws db)
    (hvis : Visible json ws db) (hmeets : WriteMeets db b) :
    Visible json (ws ++ [b]) (db.ingest json [b]) := by
  have hempty : ∀ r ∈ (db.ingest json [b]).blocks.rows, r.skipped = 1 →
      (db.ingest json [b]).transactionsOf r.slot = [] :=
    skipped_empty_write hemit hrec hvis.skipped_empty hmeets
  refine ⟨hempty, fun c _ _ r hr => ?_, fun c hc hskip htime r hr => ?_⟩
  · exact (seenByReport_iff json hr.1).mpr ((hrec.write b).not_skipped hempty hr.1)
  · refine (seenByTrades_iff hr.1).mpr ?_
    rcases List.mem_append.mp hc with hc | hc
    · have hold := storedUnder_of_write hrec hc hr
      obtain ⟨⟨s, hs, hread⟩, -⟩ := hvis.traded c hc hskip htime r hold
      exact ⟨s, mem_blocks_write hs, hread⟩
    · obtain rfl := List.mem_singleton.mp hc
      obtain ⟨s, hs, hslot, hzero⟩ := (hrec.write c).not_skipped hempty hr.1
      refine ⟨s, hs, hslot, hzero, ?_⟩
      rcases blocks_of_write hs with hs | ⟨rfl, -⟩
      · -- an older row: were it without a time, `r` would not be stored under the slot
        by_contra hnone
        obtain ⟨hmem, hrslot, t, ht, hsig⟩ := hr
        obtain ⟨x, hx, hxslot⟩ := hmeets.not_timeless htime s hs (hslot.trans hrslot)
          (by simpa using hnone) t ht
        obtain ⟨hx, hxsig⟩ := Keyed.find?_eq_some.mp hx
        have hsame : x = r :=
          Keyed.eq_of_key_eq _ (mem_transactions_write hx) hmem (hxsig.trans hsig)
        exact hxslot (hsame ▸ hrslot)
      · exact htime

/-- A write after which everything is visible met the condition. -/
theorem writeMeets_of_visible (hemit : ∃ o, parseOutcome b.slot o = some b)
    (hvis : Visible json (ws ++ [b]) (db.ingest json [b])) : WriteMeets db b where
  not_skipped := by
    intro r hr hslot hskip t ht
    obtain ⟨x, hx, hsig⟩ : ∃ x ∈ (db.ingest json [b]).transactions.rows, _ :=
      transaction_recorded db ht
    have hne := transactionsOf_eq_nil.mp (hvis.skipped_empty r (mem_blocks_write hr) hskip) x hx
    rcases transactions_of_write hx with hx | ⟨-, hxb, -⟩
    · rw [← hsig, Keyed.mem_rows_iff.mp hx]
      rfl
    · exact absurd (hxb.trans hslot.symm) hne
  not_timeless := by
    intro htime r hr hslot hnone t ht
    obtain ⟨x, hx, hsig⟩ : ∃ x ∈ (db.ingest json [b]).transactions.rows, _ :=
      transaction_recorded db ht
    have hfetched : b.skipped = false := by
      obtain ⟨o, ho⟩ := hemit
      by_contra hb
      rw [parseOutcome_skipped ho (by simpa using hb)] at htime
      nomatch htime
    have hne : x.slot ≠ asI64 b.slot := by
      intro hxb
      obtain ⟨⟨s, hs, hsslot, -, hstime⟩, -⟩ := hvis.traded b (by simp) hfetched htime x
        ⟨hx, hxb, t, ht, hsig.symm⟩
      rw [block_row_unique hr hs (hsslot.trans (hxb.trans hslot.symm)), hnone] at hstime
      nomatch hstime
    rcases transactions_of_write hx with hx | ⟨-, hxb, -⟩
    · exact ⟨x, by rw [← hsig, Keyed.mem_rows_iff.mp hx], hne⟩
    · exact absurd hxb hne

end Step

/-! ## Runs -/

theorem recorded_run (ws : List ParsedBlock) : Recorded ws (runBlocking json Db.empty ws) := by
  induction ws using List.reverseRecOn with
  | nil => exact ⟨by simp [runBlocking, Db.empty], by simp [runBlocking, Db.empty], by simp⟩
  | append_singleton ws b ih =>
      rw [runBlocking_append, runBlocking_eq json _ [b]]
      exact ih.write b

/-- Every state of a run from the empty database shows all that was fetched if
and only if every write of it meets the condition. -/
theorem runBlocking_visible_iff (ws : List ParsedBlock)
    (hemit : ∀ b ∈ ws, ∃ o, parseOutcome b.slot o = some b) :
    (∀ pre, pre <+: ws → Visible json pre (runBlocking json Db.empty pre))
      ↔ ∀ pre b, pre ++ [b] <+: ws → WriteMeets (runBlocking json Db.empty pre) b := by
  have hwrite : ∀ pre b, runBlocking json Db.empty (pre ++ [b])
      = (runBlocking json Db.empty pre).ingest json [b] := by
    intro pre b
    rw [runBlocking_append, runBlocking_eq json _ [b]]
  constructor
  · intro hvis pre b hpre
    have hb : ∃ o, parseOutcome b.slot o = some b := hemit b (hpre.subset (by simp))
    have hafter := hvis (pre ++ [b]) hpre
    rw [hwrite] at hafter
    exact writeMeets_of_visible hb hafter
  · intro hmeets pre
    induction pre using List.reverseRecOn with
    | nil =>
        exact fun _ => ⟨by simp [runBlocking, Db.empty], by simp, by simp⟩
    | append_singleton pre b ih =>
        intro hpre
        have hb : ∃ o, parseOutcome b.slot o = some b := hemit b (hpre.subset (by simp))
        rw [hwrite]
        exact Visible.write hb (recorded_run pre) (ih ((List.prefix_append pre [b]).trans hpre))
          (hmeets pre b hpre)

/-- The slot of `parsedBlock`, delivered as skipped. -/
def skippedFirst : ParsedBlock :=
  ⟨5, none, none, true, []⟩

theorem runBlocking_visible_iff_raw :
    (∀ pre, pre <+: [parsedBlock, skippedFirst] →
        Visible .escapeFree pre (runBlocking .escapeFree Db.empty pre))
      ↔ ∀ pre b, pre ++ [b] <+: [parsedBlock, skippedFirst] →
        WriteMeets (runBlocking .escapeFree Db.empty pre) b :=
  runBlocking_visible_iff [parsedBlock, skippedFirst] (by
    intro b hb
    obtain rfl | hb := List.mem_cons.mp hb
    · exact ⟨.fetched rawBlock, by decide⟩
    · obtain rfl := List.mem_singleton.mp hb
      exact ⟨.skipped, rfl⟩)

/-- A slot answered as skipped and fetched later: its two transactions are
stored, its row still says skipped, and neither analysis reads them. -/
theorem skipped_then_fetched_hidden :
    (∀ b ∈ [skippedFirst, parsedBlock], ∃ o, parseOutcome b.slot o = some b)
      ∧ (∃ r ∈ (runBlocking .escapeFree Db.empty [skippedFirst, parsedBlock]).blocks.rows,
          r.slot = 5 ∧ r.skipped = 1)
      ∧ ((runBlocking .escapeFree Db.empty [skippedFirst, parsedBlock]).transactionsOf 5).length = 2
      ∧ reportSlots (runBlocking .escapeFree Db.empty [skippedFirst, parsedBlock]) none = []
      ∧ ¬(runBlocking .escapeFree Db.empty [skippedFirst, parsedBlock]).ReadByTrades 5 := by
  refine ⟨fun b hb => ?_, by decide, by decide, by decide, ?_⟩
  · obtain rfl | hb := List.mem_cons.mp hb
    · exact ⟨.skipped, rfl⟩
    · obtain rfl := List.mem_singleton.mp hb
      exact ⟨.fetched rawBlock, by decide⟩
  · unfold Db.ReadByTrades
    decide

end Astralane
