import Astralane.RangeReport

/-!
# The stored summary

`store_range_report` replaces the three summary tables by a report, in one
transaction of three deletes and as many inserts as the report has entries;
`get_contention` reads them back, and ranks the entries by an `ORDER BY` of its
own.

Any insert may fail, by its primary key or by its foreign key. The report is
`Storable` when none does, and every report built from the same database is.
-/

namespace Astralane

variable (ints : IntListJson)

/-! ## `store_range_report` -/

/-- Rust's `as i64` on a `usize` or `u64` count. -/
def countAsI64 (n : Nat) : Int := asI64 (UInt64.ofNat n)

def BlockReport.row (b : BlockReport) : ContentionBlocksRow where
  slot := b.slot
  scheduleDepth := countAsI64 b.scheduleDepth
  stepWidths := ints.toText b.stepWidths

def AccountConflictCount.row (a : AccountConflictCount) : ContentionAccountsRow where
  accountPubkey := a.accountPubkey
  writeConflicts := countAsI64 a.writeConflicts
  readConflicts := countAsI64 a.readConflicts

def ProgramConflictCount.row (p : ProgramConflictCount) : ContentionProgramsRow where
  programId := p.programId
  writeConflicts := countAsI64 p.writeConflicts
  readConflicts := countAsI64 p.readConflicts

namespace Db

/-- `contention_blocks.slot` references `blocks`; the other two tables have no
foreign key. -/
def insertContentionBlock (r : ContentionBlocksRow) (db : Db) : Except SqlError Db := do
  let t ← insertRef db.contentionBlocks r (db.blocks.find? r.slot).isSome
  .ok { db with contentionBlocks := t }

def insertContentionAccount (r : ContentionAccountsRow) (db : Db) : Except SqlError Db := do
  let t ← insertRef db.contentionAccounts r true
  .ok { db with contentionAccounts := t }

def insertContentionProgram (r : ContentionProgramsRow) (db : Db) : Except SqlError Db := do
  let t ← insertRef db.contentionPrograms r true
  .ok { db with contentionPrograms := t }

end Db

/-- What `store_range_report` executes between `transaction` and `commit`. -/
def rangeReportStatements (report : RangeReport) : Statements SqlError Db Unit := do
  .execute fun db => .ok { db with contentionBlocks := .empty }
  .execute fun db => .ok { db with contentionAccounts := .empty }
  .execute fun db => .ok { db with contentionPrograms := .empty }
  forM report.blocks fun b => .execute (Db.insertContentionBlock (b.row ints))
  forM report.accounts fun a => .execute (Db.insertContentionAccount a.row)
  forM report.programs fun p => .execute (Db.insertContentionProgram p.row)

def storeRangeReport (db : Db) (report : RangeReport) : Except SqlError Unit × Db :=
  Statements.transaction (rangeReportStatements ints report) db

/-! ## `get_contention` -/

structure BlockDepth where
  slot : Int
  scheduleDepth : Int
  stepWidths : List Int
deriving DecidableEq, Repr

structure ConflictRow where
  key : String
  writeConflicts : Int
  readConflicts : Int
deriving DecidableEq, Repr

structure ContentionResponse where
  blockCount : Int
  blocks : List BlockDepth
  topAccounts : List ConflictRow
  topPrograms : List ConflictRow
deriving DecidableEq, Repr

structure ContentionQuery where
  fromSlot : Option Int
  toSlot : Option Int

/-- The defaults are `i64::MIN` and `i64::MAX`. -/
def ContentionQuery.includes (q : ContentionQuery) (slot : Int) : Prop :=
  q.fromSlot.getD (-2 ^ 63) ≤ slot ∧ slot ≤ q.toSlot.getD (2 ^ 63 - 1)

instance (q : ContentionQuery) (slot : Int) : Decidable (q.includes slot) :=
  inferInstanceAs (Decidable (_ ∧ _))

/-- The orders SQLite chooses among rows of equal total. -/
structure ContentionOrder where
  accounts : IterOrder ContentionAccountsRow
  programs : IterOrder ContentionProgramsRow

def ContentionOrder.stored : ContentionOrder where
  accounts := .stored
  programs := .stored

/-- An unreadable text becomes the empty list, by `unwrap_or_default`. -/
def ContentionBlocksRow.blockDepth (r : ContentionBlocksRow) : BlockDepth where
  slot := r.slot
  scheduleDepth := r.scheduleDepth
  stepWidths := (ints.fromText r.stepWidths).getD []

def ContentionAccountsRow.conflictRow (r : ContentionAccountsRow) : ConflictRow where
  key := r.accountPubkey
  writeConflicts := r.writeConflicts
  readConflicts := r.readConflicts

def ContentionProgramsRow.conflictRow (r : ContentionProgramsRow) : ConflictRow where
  key := r.programId
  writeConflicts := r.writeConflicts
  readConflicts := r.readConflicts

/-- A `Vec` has at most `isize::MAX` elements, so its length as an `i64` is
exact. So is the sum of two columns while it fits an `i64`; SQLite adds larger
ones as reals. -/
def getContention (ord : ContentionOrder) (db : Db) (q : ContentionQuery) : ContentionResponse :=
  let blocks := (sortByKey ContentionBlocksRow.slot
    (db.contentionBlocks.rows.filter fun r => q.includes r.slot)).map (·.blockDepth ints)
  { blockCount := blocks.length
    blocks
    topAccounts := ((sortByKey (fun r => OrderDual.toDual (r.writeConflicts + r.readConflicts))
      (ord.accounts.arrange db.contentionAccounts.rows)).take 20).map (·.conflictRow)
    topPrograms := ((sortByKey (fun r => OrderDual.toDual (r.writeConflicts + r.readConflicts))
      (ord.programs.arrange db.contentionPrograms.rows)).take 20).map (·.conflictRow) }

/-! ## When the inserts go through -/

structure RangeReport.Storable (report : RangeReport) (db : Db) : Prop where
  slots : (report.blocks.map (·.slot)).Nodup
  recorded : ∀ b ∈ report.blocks, ∃ r ∈ db.blocks.rows, r.slot = b.slot
  accounts : (report.accounts.map (·.accountPubkey)).Nodup
  programs : (report.programs.map (·.programId)).Nodup

/-- `db` with the report in place of its summary. -/
def RangeReport.install (report : RangeReport) (db : Db) (h : report.Storable db) : Db :=
  { db with
    contentionBlocks := ⟨report.blocks.map (·.row ints), by rw [List.map_map]; exact h.slots⟩
    contentionAccounts := ⟨report.accounts.map (·.row), by rw [List.map_map]; exact h.accounts⟩
    contentionPrograms := ⟨report.programs.map (·.row), by rw [List.map_map]; exact h.programs⟩ }

section Inserts

variable (db : Db) {db' : Db}

theorem succeeds_insertBlocks {t : Keyed ContentionBlocksRow.slot} {l : List BlockReport} :
    Statements.Succeeds (forM l fun b => .execute (Db.insertContentionBlock (b.row ints)))
        { db with contentionBlocks := t } db'
      ↔ (∀ b ∈ l, (db.blocks.find? b.slot).isSome = true)
          ∧ ∃ h, db' = { db with contentionBlocks := ⟨t.rows ++ l.map (·.row ints), h⟩ } :=
  succeeds_insertEach (fun t => { db with contentionBlocks := t }) _
    (fun r => (db.blocks.find? r.slot).isSome) (fun _ _ => rfl) _

theorem succeeds_insertAccounts {t : Keyed ContentionAccountsRow.accountPubkey}
    {l : List AccountConflictCount} :
    Statements.Succeeds (forM l fun a => .execute (Db.insertContentionAccount a.row))
        { db with contentionAccounts := t } db'
      ↔ ∃ h, db' = { db with contentionAccounts := ⟨t.rows ++ l.map (·.row), h⟩ } :=
  (succeeds_insertEach (fun t => { db with contentionAccounts := t }) _ (fun _ => true)
    (fun _ _ => rfl) _).trans (and_iff_right fun _ _ => rfl)

theorem succeeds_insertPrograms {t : Keyed ContentionProgramsRow.programId}
    {l : List ProgramConflictCount} :
    Statements.Succeeds (forM l fun p => .execute (Db.insertContentionProgram p.row))
        { db with contentionPrograms := t } db'
      ↔ ∃ h, db' = { db with contentionPrograms := ⟨t.rows ++ l.map (·.row), h⟩ } :=
  (succeeds_insertEach (fun t => { db with contentionPrograms := t }) _ (fun _ => true)
    (fun _ _ => rfl) _).trans (and_iff_right fun _ _ => rfl)

end Inserts

theorem find?_blocks_isSome {db : Db} {slot : Int} :
    (db.blocks.find? slot).isSome = true ↔ ∃ r ∈ db.blocks.rows, r.slot = slot := by
  rw [Option.isSome_iff_exists]
  exact exists_congr fun r => Keyed.find?_eq_some

theorem nodup_of_rows {α ρ κ : Type} (l : List α) (row : α → ρ) (key : ρ → κ)
    (h : ((l.map row).map key).Nodup) : (l.map fun a => key (row a)).Nodup := by
  rw [List.map_map] at h
  exact h

/-- From the cleared tables on, the inserts go through one table after the other. -/
theorem rangeReportStatements_succeeds {report : RangeReport} {db db' : Db} :
    (rangeReportStatements ints report).Succeeds db db'
      ↔ ∃ h : report.Storable db, db' = report.install ints db h := by
  let cleared : Db := { db with
    contentionBlocks := .empty
    contentionAccounts := .empty
    contentionPrograms := .empty }
  let withBlocks h : Db := { cleared with
    contentionBlocks := ⟨[] ++ report.blocks.map (·.row ints), h⟩ }
  let withAccounts h h' : Db := { withBlocks h with
    contentionAccounts := ⟨[] ++ report.accounts.map (·.row), h'⟩ }
  unfold rangeReportStatements
  simp only [Statements.succeeds_bind, Statements.succeeds_execute, Except.ok.injEq,
    exists_eq_left']
  constructor
  · rintro ⟨_, hblocks, _, haccounts, hprograms⟩
    obtain ⟨hrecorded, hslots, rfl⟩ := (succeeds_insertBlocks ints cleared).mp hblocks
    obtain ⟨hkeys, rfl⟩ := (succeeds_insertAccounts (withBlocks hslots)).mp haccounts
    obtain ⟨hids, rfl⟩ := (succeeds_insertPrograms (withAccounts hslots hkeys)).mp hprograms
    have hstorable : report.Storable db :=
      { slots := nodup_of_rows report.blocks (·.row ints) ContentionBlocksRow.slot hslots
        recorded := fun b hb => find?_blocks_isSome.mp (hrecorded b hb)
        accounts := nodup_of_rows report.accounts (·.row) ContentionAccountsRow.accountPubkey hkeys
        programs := nodup_of_rows report.programs (·.row) ContentionProgramsRow.programId hids }
    exact ⟨hstorable, rfl⟩
  · rintro ⟨hstorable, rfl⟩
    have hslots := (report.install ints db hstorable).contentionBlocks.nodup
    have hkeys := (report.install ints db hstorable).contentionAccounts.nodup
    have hids := (report.install ints db hstorable).contentionPrograms.nodup
    have hrecorded : ∀ b ∈ report.blocks, (db.blocks.find? b.slot).isSome = true :=
      fun b hb => find?_blocks_isSome.mpr (hstorable.recorded b hb)
    exact ⟨withBlocks hslots, (succeeds_insertBlocks ints cleared).mpr ⟨hrecorded, hslots, rfl⟩,
      withAccounts hslots hkeys, (succeeds_insertAccounts (withBlocks hslots)).mpr ⟨hkeys, rfl⟩,
      (succeeds_insertPrograms (withAccounts hslots hkeys)).mpr ⟨hids, rfl⟩⟩

/-- Whatever the limit and the query orders, a report is storable in the
database it was built from. -/
theorem buildRangeReportLimited_storable (json : StringListJson) (ord : ReportOrder) (db : Db)
    (limit : Option Nat) : (buildRangeReportLimited json ord db limit).Storable db := by
  have hsublist : (reportSlots db limit).Sublist (reportSlots db none) := by
    cases limit with
    | none => exact List.Sublist.refl _
    | some n => exact List.take_sublist _ _
  have hascending := (reportSlots_ascending db).sublist hsublist
  rw [buildRangeReportLimited_eq]
  constructor
  · rw [List.map_map]
    exact (List.map_id' (reportSlots db limit)).symm ▸ hascending.imp ne_of_lt
  · intro b hb
    obtain ⟨slot, hslot, rfl⟩ := List.mem_map.mp hb
    obtain ⟨r, hr, hrslot, -⟩ := mem_reportSlots.mp (hsublist.subset hslot)
    exact ⟨r, hr, hrslot⟩
  · exact (countListing_tally ConflictEvent.accountPubkey ConflictEvent.isWritable
      (rangeEvents json ord.load db (reportSlots db limit)) _ _ _ AccountConflictCount.ofEntry
      (fun _ => rfl) (fun _ => rfl) ord.accounts).once
  · exact (countListing_tally Prod.fst Prod.snd
      (programOccurrences (rangeEvents json ord.load db (reportSlots db limit)))
      _ _ _ ProgramConflictCount.ofEntry (fun _ => rfl) (fun _ => rfl) ord.programs).once

/-! ## What is stored and what is served -/

/-- Every count fits the `i64` it is stored as, and so does every total. -/
structure RangeReport.Bounded (report : RangeReport) : Prop where
  depth : ∀ b ∈ report.blocks, b.scheduleDepth < 2 ^ 63
  accounts : ∀ a ∈ report.accounts, a.writeConflicts + a.readConflicts < 2 ^ 63
  programs : ∀ p ∈ report.programs, p.writeConflicts + p.readConflicts < 2 ^ 63

theorem countAsI64_of_lt {n : Nat} (h : n < 2 ^ 63) : countAsI64 n = n := by
  show (UInt64.ofNat n).toBitVec.toInt = n
  rw [UInt64.toBitVec_ofNat', BitVec.toInt_eq_toNat_of_lt]
  all_goals
    rw [BitVec.toNat_ofNat]
    omega

/-- The three summary tables hold the report, entry by entry. -/
structure RangeReport.StoredIn (report : RangeReport) (db : Db) : Prop where
  blocks : db.contentionBlocks.rows
    = report.blocks.map fun b => ⟨b.slot, b.scheduleDepth, ints.toText b.stepWidths⟩
  accounts : db.contentionAccounts.rows
    = report.accounts.map fun a => ⟨a.accountPubkey, a.writeConflicts, a.readConflicts⟩
  programs : db.contentionPrograms.rows
    = report.programs.map fun p => ⟨p.programId, p.writeConflicts, p.readConflicts⟩

def BlockReport.served (b : BlockReport) : BlockDepth where
  slot := b.slot
  scheduleDepth := b.scheduleDepth
  stepWidths := b.stepWidths.map fun n : Nat => (n : Int)

def AccountConflictCount.served (a : AccountConflictCount) : ConflictRow where
  key := a.accountPubkey
  writeConflicts := a.writeConflicts
  readConflicts := a.readConflicts

def ProgramConflictCount.served (p : ProgramConflictCount) : ConflictRow where
  key := p.programId
  writeConflicts := p.writeConflicts
  readConflicts := p.readConflicts

def ConflictRow.total (r : ConflictRow) : Int := r.writeConflicts + r.readConflicts

/-- The response to `q` once `report` is stored. -/
structure ContentionResponse.Answers (response : ContentionResponse) (report : RangeReport)
    (q : ContentionQuery) : Prop where
  blocks : response.blocks.Perm ((report.blocks.filter fun b => q.includes b.slot).map (·.served))
  ascending : response.blocks.Pairwise fun b c => b.slot < c.slot
  blockCount : response.blockCount = response.blocks.length
  accounts : IsLargest ConflictRow.total 20 (report.accounts.map (·.served)) response.topAccounts
  accounts_nodup : (response.topAccounts.map (·.key)).Nodup
  programs : IsLargest ConflictRow.total 20 (report.programs.map (·.served)) response.topPrograms
  programs_nodup : (response.topPrograms.map (·.key)).Nodup

theorem install_storedIn {report : RangeReport} (hbounded : report.Bounded) {db : Db}
    (h : report.Storable db) : report.StoredIn ints (report.install ints db h) := by
  constructor
  · refine List.map_congr_left fun b hb => ?_
    rw [BlockReport.row, countAsI64_of_lt (hbounded.depth b hb)]
  · refine List.map_congr_left fun a ha => ?_
    have hsum := hbounded.accounts a ha
    rw [AccountConflictCount.row, countAsI64_of_lt (by omega), countAsI64_of_lt (by omega)]
  · refine List.map_congr_left fun p hp => ?_
    have hsum := hbounded.programs p hp
    rw [ProgramConflictCount.row, countAsI64_of_lt (by omega), countAsI64_of_lt (by omega)]

section Served

variable {report : RangeReport} {db : Db} (hstored : report.StoredIn ints db)
include hstored

theorem getContention_blocks (hints : ∀ b ∈ report.blocks, ints.RoundTrips b.stepWidths)
    (ord : ContentionOrder) (q : ContentionQuery) :
    (getContention ints ord db q).blocks.Perm
      ((report.blocks.filter fun b => q.includes b.slot).map (·.served)) := by
  have hserved : (db.contentionBlocks.rows.filter fun r => q.includes r.slot).map
      (·.blockDepth ints) = (report.blocks.filter fun b => q.includes b.slot).map (·.served) := by
    rw [hstored.blocks, List.filter_map, List.map_map]
    refine List.map_congr_left fun b hb => ?_
    have hround := hints b (List.mem_filter.mp hb).1
    show BlockDepth.mk b.slot b.scheduleDepth ((ints.fromText (ints.toText b.stepWidths)).getD [])
      = b.served
    rw [hround]
    rfl
  rw [← hserved]
  exact (sortByKey_perm _ _).map _

theorem getContention_answers (hints : ∀ b ∈ report.blocks, ints.RoundTrips b.stepWidths)
    (ord : ContentionOrder) (q : ContentionQuery) :
    (getContention ints ord db q).Answers report q := by
  have haccounts :
      db.contentionAccounts.rows.map (·.conflictRow) = report.accounts.map (·.served) := by
    rw [hstored.accounts, List.map_map]
    rfl
  have hprograms :
      db.contentionPrograms.rows.map (·.conflictRow) = report.programs.map (·.served) := by
    rw [hstored.programs, List.map_map]
    rfl
  have htopAccounts := isLargest_take (fun r => r.writeConflicts + r.readConflicts) 20
    (ord.accounts.perm db.contentionAccounts.rows)
  have htopPrograms := isLargest_take (fun r => r.writeConflicts + r.readConflicts) 20
    (ord.programs.perm db.contentionPrograms.rows)
  constructor
  · exact getContention_blocks ints hstored hints ord q
  · refine List.pairwise_map.mpr (sortByKey_strict ?_)
    exact (List.filter_sublist.map _).nodup db.contentionBlocks.nodup
  · rfl
  · rw [← haccounts]
    exact htopAccounts.map _ fun _ => rfl
  · have hkeys := htopAccounts.nodup_map db.contentionAccounts.nodup
    show ((List.map _ _).map _).Nodup
    rw [List.map_map]
    exact hkeys
  · rw [← hprograms]
    exact htopPrograms.map _ fun _ => rfl
  · have hkeys := htopPrograms.nodup_map db.contentionPrograms.nodup
    show ((List.map _ _).map _).Nodup
    rw [List.map_map]
    exact hkeys

end Served

/-- The outcome of the call: the report is stored, or an error is returned and
nothing has changed. -/
theorem storeRangeReport_cases (db : Db) (report : RangeReport) :
    (∃ h : report.Storable db,
        storeRangeReport ints db report = (.ok (), report.install ints db h))
      ∨ ¬report.Storable db ∧ ∃ e, storeRangeReport ints db report = (.error e, db) := by
  rcases Statements.transaction_cases (rangeReportStatements ints report) db with
    ⟨db', hsucceeds, houtcome⟩ | ⟨hfails, e, houtcome⟩
  · obtain ⟨hstorable, rfl⟩ := (rangeReportStatements_succeeds ints).mp hsucceeds
    exact Or.inl ⟨hstorable, houtcome⟩
  · refine Or.inr ⟨fun hstorable => hfails ?_, e, houtcome⟩
    exact ⟨_, (rangeReportStatements_succeeds ints).mpr ⟨hstorable, rfl⟩⟩

/-- Storing a report replaces all three tables by it or changes nothing, and it
does the former exactly for storable reports, all built ones among them. What
is served then is what was stored. -/
theorem storeRangeReport_atomic (db : Db) (report : RangeReport) (hbounded : report.Bounded)
    (hints : ∀ b ∈ report.blocks, ints.RoundTrips b.stepWidths) :
    ((storeRangeReport ints db report).1 = .ok () ↔ report.Storable db)
      ∧ ((storeRangeReport ints db report).1 = .ok () →
          report.StoredIn ints (storeRangeReport ints db report).2
            ∧ ∀ ord q, (getContention ints ord (storeRangeReport ints db report).2 q).Answers
                report q)
      ∧ (∀ e, (storeRangeReport ints db report).1 = .error e →
          (storeRangeReport ints db report).2 = db)
      ∧ ∀ json ord, (buildRangeReport json ord db).Storable db := by
  have hbuilt : ∀ json ord, (buildRangeReport json ord db).Storable db :=
    fun json ord => buildRangeReportLimited_storable json ord db none
  rcases storeRangeReport_cases ints db report with ⟨hstorable, hstore⟩ | ⟨hnot, e, hstore⟩
  · rw [hstore]
    have hstored := install_storedIn ints hbounded hstorable
    exact ⟨iff_of_true rfl hstorable,
      fun _ => ⟨hstored, fun ord q => getContention_answers ints hstored hints ord q⟩,
      nofun, hbuilt⟩
  · rw [hstore]
    exact ⟨iff_of_false nofun hnot, nofun, fun _ _ => rfl, hbuilt⟩

/-- What the database held before, and what it is asked to hold. -/
def contendedReport : RangeReport where
  blocks := [⟨6, 1, [1]⟩, ⟨5, 2, [1, 12]⟩]
  accounts := [⟨"A", 3, 1⟩, ⟨"B", 0, 5⟩]
  programs := [⟨"P", 2, 2⟩]

theorem contendedReport_storable : contendedReport.Storable contendedDb where
  slots := by decide
  recorded := by decide
  accounts := by decide
  programs := by decide

theorem contendedReport_bounded : contendedReport.Bounded where
  depth := by simp [contendedReport]
  accounts := by simp [contendedReport]
  programs := by simp [contendedReport]

theorem storeRangeReport_atomic_contended :
    (storeRangeReport .unsigned contendedDb contendedReport).1 = .ok ()
      ∧ (getContention .unsigned .stored
          (storeRangeReport .unsigned contendedDb contendedReport).2 ⟨none, some 5⟩).Answers
        contendedReport ⟨none, some 5⟩ := by
  have hround : ∀ b ∈ contendedReport.blocks,
      IntListJson.unsigned.RoundTrips b.stepWidths := by
    unfold IntListJson.RoundTrips
    decide +kernel
  obtain ⟨hiff, hserved, -⟩ :=
    storeRangeReport_atomic .unsigned contendedDb contendedReport contendedReport_bounded hround
  have hok := hiff.mpr contendedReport_storable
  exact ⟨hok, (hserved hok).2 .stored _⟩

end Astralane
