import Astralane.Load
import Astralane.ScheduleSpec
import Astralane.Tally

/-!
# The range report

`build_range_report_limited`: every non-skipped slot is loaded and scheduled,
its conflict events are counted per account and per program, and the counts are
listed by total, descending.

Three orders in it are unspecified: that of the lock rows, on which the order
of the events depends, and those of the two hash maps. The steps do not depend
on the order of a transaction's locks, and the events only up to their order
(`scheduleRun_sameLocks`), so the counts are those of the events of the stored
transactions, with the locks in any order (`rangeEvents_perm`).
-/

namespace Astralane

open FirstFit

variable (json : StringListJson)

/-! ## `build_range_report_limited` -/

structure BlockReport where
  slot : Int
  scheduleDepth : Nat
  stepWidths : List Nat
deriving DecidableEq, Repr

structure AccountConflictCount where
  accountPubkey : String
  writeConflicts : Nat
  readConflicts : Nat
deriving DecidableEq, Repr

structure ProgramConflictCount where
  programId : String
  writeConflicts : Nat
  readConflicts : Nat
deriving DecidableEq, Repr

structure RangeReport where
  blocks : List BlockReport
  accounts : List AccountConflictCount
  programs : List ProgramConflictCount
deriving DecidableEq, Repr

/-- The unspecified orders of one run: those of the queries, slot by slot, and
those of the two hash maps. -/
structure ReportOrder where
  load : Int → LoadOrder
  accounts : IterOrder (String × Nat × Nat)
  programs : IterOrder (String × Nat × Nat)

def ReportOrder.stored : ReportOrder where
  load _ := .stored
  accounts := .stored
  programs := .stored

/-- `SELECT slot FROM blocks WHERE skipped = 0 ORDER BY slot`, cut at `limit`. -/
def reportSlots (db : Db) (limit : Option Nat) : List Int :=
  let rows := sortByKey BlocksRow.slot (db.blocks.rows.filter fun b => b.skipped = 0)
  let slots := rows.map (·.slot)
  match limit with
  | some n => slots.take n
  | none => slots

/-- `blocks`, `account_counts` and `program_counts` during the loop. -/
structure ReportState where
  blocks : List BlockReport
  accountCounts : EntryMap String (Nat × Nat)
  programCounts : EntryMap String (Nat × Nat)

/-- The body of the loop over the events of a schedule. -/
def reportEvent (s : ReportState) (event : ConflictEvent) : ReportState :=
  { s with
    accountCounts := s.accountCounts.entry event.accountPubkey (0, 0) (countOne event.isWritable)
    programCounts := event.programIds.foldl
      (fun m program => m.entry program (0, 0) (countOne event.isWritable)) s.programCounts }

/-- The body of the loop over the slots. -/
def reportSlot (ord : ReportOrder) (db : Db) (s : ReportState) (slot : Int) : ReportState :=
  let transactions := loadBlockTransactions json (ord.load slot) db slot
  let schedule := scheduleBlock transactions
  let block :=
    { slot
      scheduleDepth := schedule.steps.length
      stepWidths := schedule.steps.map List.length }
  schedule.conflicts.foldl reportEvent { s with blocks := s.blocks ++ [block] }

def AccountConflictCount.ofEntry (e : String × Nat × Nat) : AccountConflictCount where
  accountPubkey := e.1
  writeConflicts := e.2.1
  readConflicts := e.2.2

def ProgramConflictCount.ofEntry (e : String × Nat × Nat) : ProgramConflictCount where
  programId := e.1
  writeConflicts := e.2.1
  readConflicts := e.2.2

def buildRangeReportLimited (ord : ReportOrder) (db : Db) (limit : Option Nat) : RangeReport :=
  let s := (reportSlots db limit).foldl (reportSlot json ord db) ⟨[], .empty, .empty⟩
  { blocks := s.blocks
    accounts := sortByKey (fun a => OrderDual.toDual (a.writeConflicts + a.readConflicts))
      ((ord.accounts.arrange s.accountCounts.rows).map .ofEntry)
    programs := sortByKey (fun p => OrderDual.toDual (p.writeConflicts + p.readConflicts))
      ((ord.programs.arrange s.programCounts.rows).map .ofEntry) }

def buildRangeReport (ord : ReportOrder) (db : Db) : RangeReport :=
  buildRangeReportLimited json ord db none

/-! ## The loop -/

def slotSchedule (ord : LoadOrder) (db : Db) (slot : Int) : Schedule :=
  scheduleBlock (loadBlockTransactions json ord db slot)

/-- The conflict events of a list of slots, under given query orders. -/
def rangeEvents (load : Int → LoadOrder) (db : Db) (slots : List Int) : List ConflictEvent :=
  slots.flatMap fun slot => (slotSchedule json (load slot) db slot).conflicts

/-- The pairs of an event and an occurrence among its programs, as the program
and the flag of the event. -/
def programOccurrences (events : List ConflictEvent) : List (String × Bool) :=
  events.flatMap fun e => e.programIds.map fun p => (p, e.isWritable)

theorem reportEvent_foldl (events : List ConflictEvent) (s : ReportState) :
    events.foldl reportEvent s =
      { s with
        accountCounts := Keyed.tally (·.accountPubkey) (·.isWritable) s.accountCounts events
        programCounts := Keyed.tally (·.1) (·.2) s.programCounts (programOccurrences events) } := by
  induction events generalizing s with
  | nil => rfl
  | cons e events ih =>
      have hprograms : e.programIds.foldl
          (fun m program => m.entry program (0, 0) (countOne e.isWritable)) s.programCounts
          = Keyed.tally (·.1) (·.2) s.programCounts
              (e.programIds.map fun p => (p, e.isWritable)) := by
        rw [Keyed.tally, List.foldl_map]
      rw [List.foldl_cons, ih]
      simp only [reportEvent, hprograms, programOccurrences, List.flatMap_cons,
        Keyed.tally_append, Keyed.tally_cons]

def blockReport (ord : LoadOrder) (db : Db) (slot : Int) : BlockReport where
  slot := slot
  scheduleDepth := (slotSchedule json ord db slot).steps.length
  stepWidths := (slotSchedule json ord db slot).steps.map List.length

theorem reportSlot_foldl (ord : ReportOrder) (db : Db) (slots : List Int) (s : ReportState) :
    slots.foldl (reportSlot json ord db) s =
      { blocks := s.blocks ++ slots.map fun slot => blockReport json (ord.load slot) db slot
        accountCounts := Keyed.tally (·.accountPubkey) (·.isWritable) s.accountCounts
          (rangeEvents json ord.load db slots)
        programCounts := Keyed.tally (·.1) (·.2) s.programCounts
          (programOccurrences (rangeEvents json ord.load db slots)) } := by
  induction slots generalizing s with
  | nil => simp [rangeEvents, programOccurrences]
  | cons slot slots ih =>
      have hevents : rangeEvents json ord.load db (slot :: slots)
          = (slotSchedule json (ord.load slot) db slot).conflicts
              ++ rangeEvents json ord.load db slots := by
        rw [rangeEvents, List.flatMap_cons]
        rfl
      rw [List.foldl_cons, ih, reportSlot, reportEvent_foldl, hevents]
      simp only [programOccurrences, List.flatMap_append, Keyed.tally_append, List.map_cons,
        List.append_assoc, List.singleton_append]
      rfl

/-- The report, without its loops: the tallies of the events of its slots. -/
theorem buildRangeReportLimited_eq (ord : ReportOrder) (db : Db) (limit : Option Nat) :
    buildRangeReportLimited json ord db limit =
      { blocks := (reportSlots db limit).map fun slot => blockReport json (ord.load slot) db slot
        accounts := sortByKey (fun a => OrderDual.toDual (a.writeConflicts + a.readConflicts))
          ((ord.accounts.arrange (Keyed.tally (·.accountPubkey) (·.isWritable) .empty
            (rangeEvents json ord.load db (reportSlots db limit))).rows).map .ofEntry)
        programs := sortByKey (fun p => OrderDual.toDual (p.writeConflicts + p.readConflicts))
          ((ord.programs.arrange (Keyed.tally (·.1) (·.2) .empty
            (programOccurrences (rangeEvents json ord.load db (reportSlots db limit)))).rows).map
              .ofEntry) } := by
  rw [buildRangeReportLimited, reportSlot_foldl, List.nil_append]

/-! ## Independence of the order of the locks -/

/-- The same transaction up to the order of its locks. -/
structure SameLocks (t t' : Transaction) : Prop where
  signature : t.signature = t'.signature
  programIds : t.programIds = t'.programIds
  locks : t.locks.Perm t'.locks

theorem StepState.add_sameLocks (s : StepState) {t t' : Transaction} (h : SameLocks t t') :
    s.add t.signature t.locks = s.add t'.signature t'.locks := by
  have htouched : (t.locks.map (·.accountPubkey)).toFinset
      = (t'.locks.map (·.accountPubkey)).toFinset :=
    List.toFinset_eq_of_perm _ _ (h.locks.map _)
  have hwritten : ((t.locks.filter (·.isWritable)).map (·.accountPubkey)).toFinset
      = ((t'.locks.filter (·.isWritable)).map (·.accountPubkey)).toFinset :=
    List.toFinset_eq_of_perm _ _ ((h.locks.filter _).map _)
  simp only [StepState.add, StepState.foldl_addLock, htouched, hwritten, h.signature]

theorem conflictEvents_sameLocks {t t' : Transaction} (h : SameLocks t t') (s : StepState) :
    ((s.conflictingLocks t.locks).map (ConflictEvent.of t)).Perm
      ((s.conflictingLocks t'.locks).map (ConflictEvent.of t')) := by
  have hof : ConflictEvent.of t = ConflictEvent.of t' := by
    funext l
    simp only [ConflictEvent.of, h.programIds]
  rw [hof]
  exact (h.locks.filter _).map _

theorem scanSteps_sameLocks {t t' : Transaction} (h : SameLocks t t') (steps : List StepState)
    (i : Nat) :
    (scanSteps t i steps).1 = (scanSteps t' i steps).1
      ∧ (scanSteps t i steps).2.Perm (scanSteps t' i steps).2 := by
  induction steps generalizing i with
  | nil => exact ⟨rfl, List.Perm.refl _⟩
  | cons s steps ih =>
      have hempty : (s.conflictingLocks t.locks).isEmpty = (s.conflictingLocks t'.locks).isEmpty :=
        (h.locks.filter s.rejects).isEmpty_eq
      obtain ⟨hplaced, hevents⟩ := ih (i + 1)
      simp only [scanSteps, hempty]
      split
      · exact ⟨rfl, List.Perm.refl _⟩
      · exact ⟨hplaced, (conflictEvents_sameLocks h s).append hevents⟩

/-- The steps do not depend on the order of the locks, and the events do so
only in their order. -/
theorem scheduleRun_sameLocks {ts ts' : List Transaction} (h : List.Forall₂ SameLocks ts ts')
    (acc acc' : List StepState × List ConflictEvent) (hsteps : acc.1 = acc'.1)
    (hevents : acc.2.Perm acc'.2) :
    (ts.foldl scheduleTxn acc).1 = (ts'.foldl scheduleTxn acc').1
      ∧ (ts.foldl scheduleTxn acc).2.Perm (ts'.foldl scheduleTxn acc').2 := by
  induction h generalizing acc acc' with
  | nil => exact ⟨hsteps, hevents⟩
  | cons ht _ ih =>
      rename_i t t' _ _
      obtain ⟨hplaced, hrejections⟩ := scanSteps_sameLocks ht acc.1 0
      rw [List.foldl_cons, List.foldl_cons]
      refine ih _ _ ?_ ?_
      · simp only [scheduleTxn, ← hsteps, ← hplaced]
        split
        · simp only [StepState.add_sameLocks _ ht]
        · simp only [StepState.add_sameLocks _ ht]
      · simp only [scheduleTxn, ← hsteps, ← hplaced]
        split
        · exact hevents.append hrejections
        · exact hevents.append hrejections

theorem scheduleBlock_sameLocks {ts ts' : List Transaction} (h : List.Forall₂ SameLocks ts ts') :
    (scheduleBlock ts).steps = (scheduleBlock ts').steps
      ∧ (scheduleBlock ts).conflicts.Perm (scheduleBlock ts').conflicts := by
  obtain ⟨hsteps, hevents⟩ := scheduleRun_sameLocks h ([], []) ([], []) rfl (List.Perm.refl _)
  exact ⟨congrArg (List.map StepState.signatures) hsteps, hevents⟩

/-- The schema documents `-1` as unknown, so `tx_index` is not a key of a slot;
where it is one, `ORDER BY tx_index` determines the order. -/
def Db.IndexedSlots (db : Db) : Prop :=
  ∀ slot, ((db.transactionsOf slot).map (·.txIndex)).Nodup

/-- Under distinct indices the rows of a slot leave only the order of the locks open. -/
theorem loadBlockTransactions_sameLocks (ord : LoadOrder) {db : Db} (hidx : db.IndexedSlots)
    {slot : Int} {txs : List Transaction} (h : BlockTransactions json db slot txs) :
    List.Forall₂ SameLocks (loadBlockTransactions json ord db slot) txs := by
  obtain ⟨rows, hperm, hrows⟩ := h.rows
  have hindices : rows.map (·.txIndex) = txs.map (·.txIndex) := by
    rw [← List.forall₂_eq_eq_eq, List.forall₂_map_left_iff, List.forall₂_map_right_iff]
    exact hrows.imp fun _ _ ht => ht.txIndex.symm
  have hstrict : rows.Pairwise fun r r' => r.txIndex < r'.txIndex := by
    have hascending : (rows.map (·.txIndex)).Pairwise (· ≤ ·) :=
      hindices ▸ List.pairwise_map.mpr h.ascending
    have hnodup : (rows.map (·.txIndex)).Nodup := (hperm.map _).nodup_iff.mpr (hidx slot)
    exact List.pairwise_map.mp (hascending.imp₂ (fun _ _ => lt_of_le_of_ne) hnodup)
  have hsorted : sortByKey TransactionsRow.txIndex
      (ord.transactions.arrange (db.transactionsOf slot)) = rows :=
    sortByKey_eq_of_strict ((ord.transactions.perm _).trans hperm.symm) hstrict
  have hstored : ∀ r ∈ rows, r ∈ db.transactions.rows ∧ r.slot = slot := by
    intro r hr
    obtain ⟨hmem, hslot⟩ := List.mem_filter.mp (hperm.mem_iff.mp hr)
    exact ⟨hmem, of_decide_eq_true hslot⟩
  rw [loadBlockTransactions_eq, hsorted, List.forall₂_map_left_iff]
  refine ((List.forall₂_and_left rows txs).mpr ⟨hstored, hrows⟩).imp fun r t hrow => ?_
  obtain ⟨⟨hmem, hslot⟩, ht⟩ := hrow
  exact ⟨ht.signature.symm, ht.programIds.symm,
    (loadedTransaction_locks json ord db hmem hslot).trans ht.locks.symm⟩

/-- The conflict events of the slots whose transactions are `txs`. -/
def slotEvents (txs : Int → List Transaction) (slots : List Int) : List ConflictEvent :=
  slots.flatMap fun slot => (scheduleBlock (txs slot)).conflicts

section Transactions

variable {db : Db} (hidx : db.IndexedSlots) {txs : Int → List Transaction}
include hidx

theorem slotSchedule_steps (ord : LoadOrder) {slot : Int}
    (h : BlockTransactions json db slot (txs slot)) :
    (slotSchedule json ord db slot).steps = (scheduleBlock (txs slot)).steps :=
  (scheduleBlock_sameLocks (loadBlockTransactions_sameLocks json ord hidx h)).1

/-- A run sees the events of the transactions, up to their order. -/
theorem rangeEvents_perm (load : Int → LoadOrder) {slots : List Int}
    (h : ∀ slot ∈ slots, BlockTransactions json db slot (txs slot)) :
    (rangeEvents json load db slots).Perm (slotEvents txs slots) :=
  List.Perm.flatMap_left _ fun slot hslot =>
    (scheduleBlock_sameLocks
      (loadBlockTransactions_sameLocks json (load slot) hidx (h slot hslot))).2

end Transactions

/-! ## The report is the exact count -/

theorem mem_reportSlots {db : Db} {slot : Int} :
    slot ∈ reportSlots db none ↔ ∃ b ∈ db.blocks.rows, b.slot = slot ∧ b.skipped = 0 := by
  simp only [reportSlots, List.mem_map, mem_sortByKey, List.mem_filter, decide_eq_true_eq]
  exact ⟨fun ⟨b, ⟨hb, hskip⟩, hslot⟩ => ⟨b, hb, hslot, hskip⟩,
    fun ⟨b, hb, hslot, hskip⟩ => ⟨b, ⟨hb, hskip⟩, hslot⟩⟩

/-- Ascending, and each once: `slot` is the key of the table. -/
theorem reportSlots_ascending (db : Db) : (reportSlots db none).Pairwise (· < ·) :=
  List.pairwise_map.mpr
    (sortByKey_strict ((List.filter_sublist.map _).nodup db.blocks.nodup))

theorem reportSlots_limit (db : Db) (n : Nat) :
    reportSlots db (some n) = (reportSlots db none).take n := rfl

theorem blockReport_depth (ord : LoadOrder) (db : Db) (slot : Int) :
    (blockReport json ord db slot).scheduleDepth
      = (blockReport json ord db slot).stepWidths.length := by
  simp [blockReport]

theorem blockReport_widths (ord : LoadOrder) (db : Db) (slot : Int) :
    0 ∉ (blockReport json ord db slot).stepWidths := by
  intro hzero
  obtain ⟨step, hstep, hlen⟩ := List.mem_map.mp hzero
  exact steps_ne_nil _ step hstep (List.eq_nil_of_length_eq_zero hlen)

theorem blockReport_sum (ord : LoadOrder) (db : Db) (slot : Int) :
    (blockReport json ord db slot).stepWidths.sum = (db.transactionsOf slot).length := by
  have hwidths : (blockReport json ord db slot).stepWidths
      = (pack Conflicts (loadBlockTransactions json ord db slot)).map List.length := by
    simp only [blockReport, slotSchedule, scheduleBlock_steps, List.map_map]
    exact List.map_congr_left fun ms _ => by simp
  rw [hwidths, sum_length_pack, loadBlockTransactions_eq, List.length_map,
    (sortByKey_perm _ _).length_eq, (ord.transactions.perm _).length_eq]

/-- The numbers of writable and of other events on an account. -/
def eventCounts (events : List ConflictEvent) (account : String) : Nat × Nat :=
  (events.countP fun e => decide (e.accountPubkey = account) && e.isWritable,
    events.countP fun e => decide (e.accountPubkey = account) && !e.isWritable)

/-- The numbers of pairs of an event and an occurrence of the program in it,
for the writable and for the other events. -/
def occurrenceCounts (events : List ConflictEvent) (program : String) : Nat × Nat :=
  (((events.filter (·.isWritable)).map fun e => e.programIds.count program).sum,
    ((events.filter (!·.isWritable)).map fun e => e.programIds.count program).sum)

theorem occurrenceCounts_eq (events : List ConflictEvent) (program : String) :
    occurrenceCounts events program
      = Keyed.counts (·.1) (·.2) (programOccurrences events) program := by
  induction events with
  | nil => rfl
  | cons e events ih =>
      have hcons : programOccurrences (e :: events)
          = (e.programIds.map fun p => (p, e.isWritable)) ++ programOccurrences events :=
        List.flatMap_cons
      rw [hcons, Keyed.counts_append, ← ih]
      cases hw : e.isWritable <;>
        simp [occurrenceCounts, Keyed.counts, hw, List.countP_map, Function.comp_def, List.count,
          beq_eq_decide]

theorem mem_programOccurrences {events : List ConflictEvent} {program : String} :
    program ∈ (programOccurrences events).map (·.1) ↔ ∃ e ∈ events, program ∈ e.programIds := by
  simp only [programOccurrences, List.mem_map, List.mem_flatMap]
  constructor
  · rintro ⟨_, ⟨e, he, p, hp, rfl⟩, rfl⟩
    exact ⟨e, he, hp⟩
  · rintro ⟨e, he, hp⟩
    exact ⟨(program, e.isWritable), ⟨e, he, program, hp, rfl⟩, rfl⟩

/-- `rows` lists each key that occurs once, with its counts, by total descending. -/
structure CountListing {ρ : Type} (name : ρ → String) (write read : ρ → Nat)
    (occurs : String → Prop) (counts : String → Nat × Nat) (total : Nat) (rows : List ρ) :
    Prop where
  once : (rows.map name).Nodup
  listed : ∀ k, k ∈ rows.map name ↔ occurs k
  counted : ∀ r ∈ rows, (write r, read r) = counts (name r)
  total_eq : (rows.map fun r => write r + read r).sum = total
  descending : rows.Pairwise fun a b => write b + read b ≤ write a + read a

/-- Both listings of the report are made the same way: a tally, an unspecified
order, a stable sort. -/
theorem countListing_tally {α ρ : Type} (key : α → String) (flag : α → Bool) (l : List α)
    (name : ρ → String) (write read : ρ → Nat) (ofEntry : String × Nat × Nat → ρ)
    (hname : ∀ e, name (ofEntry e) = e.1)
    (hcounts : ∀ e, (write (ofEntry e), read (ofEntry e)) = e.2)
    (ord : IterOrder (String × Nat × Nat)) :
    CountListing name write read (· ∈ l.map key) (Keyed.counts key flag l) l.length
      (sortByKey (fun r => OrderDual.toDual (write r + read r))
        ((ord.arrange (Keyed.tally key flag .empty l).rows).map ofEntry)) := by
  have hperm := (sortByKey_perm (fun r => OrderDual.toDual (write r + read r))
    ((ord.arrange (Keyed.tally key flag .empty l).rows).map ofEntry)).trans
      ((ord.perm (Keyed.tally key flag .empty l).rows).map ofEntry)
  have hnames : ((Keyed.tally key flag .empty l).rows.map ofEntry).map name
      = (Keyed.tally key flag .empty l).rows.map (·.1) := by
    rw [List.map_map]
    exact List.map_congr_left fun e _ => hname e
  constructor
  · rw [(hperm.map name).nodup_iff, hnames]
    exact (Keyed.tally key flag .empty l).nodup
  · intro k
    rw [(hperm.map name).mem_iff, hnames, List.mem_map]
    constructor
    · rintro ⟨⟨k, c⟩, he, rfl⟩
      exact (Keyed.mem_tally.mp he).1
    · exact fun hk => ⟨(k, Keyed.counts key flag l k), Keyed.mem_tally.mpr ⟨hk, rfl⟩, rfl⟩
  · intro r hr
    obtain ⟨⟨k, c⟩, he, rfl⟩ := List.mem_map.mp (hperm.mem_iff.mp hr)
    rw [hcounts, hname]
    exact (Keyed.mem_tally.mp he).2
  · rw [(hperm.map _).sum_eq, List.map_map, ← @Keyed.sum_tally α String _ key flag l]
    refine congrArg List.sum (List.map_congr_left fun e _ => ?_)
    have hwrite := congrArg Prod.fst (hcounts e)
    have hread := congrArg Prod.snd (hcounts e)
    exact congrArg₂ (· + ·) hwrite hread
  · exact (sortByKey_sorted (fun r => OrderDual.toDual (write r + read r)) _).imp
      OrderDual.toDual_le_toDual.mp

/-- What a report says about a name: its counts, and none for an absent name. -/
def lookupCounts {ρ : Type} (name : ρ → String) (write read : ρ → Nat) (rows : List ρ)
    (k : String) : Nat × Nat :=
  ((rows.find? fun r => name r = k).map fun r => (write r, read r)).getD (0, 0)

theorem CountListing.lookupCounts_eq {ρ : Type} {name : ρ → String} {write read : ρ → Nat}
    {occurs : String → Prop} {counts : String → Nat × Nat} {total : Nat} {rows : List ρ}
    (h : CountListing name write read occurs counts total rows)
    (hzero : ∀ k, ¬occurs k → counts k = (0, 0)) (k : String) :
    lookupCounts name write read rows k = counts k := by
  rw [lookupCounts]
  cases hfind : rows.find? fun r => name r = k with
  | none =>
      have habsent : ¬occurs k := by
        rw [← h.listed, List.mem_map]
        rintro ⟨r, hr, hname⟩
        simpa [hname] using List.find?_eq_none.mp hfind r hr
      rw [hzero k habsent]
      rfl
  | some r =>
      have hname : name r = k := by simpa using List.find?_some hfind
      rw [← hname, ← h.counted r (List.mem_of_find?_eq_some hfind)]
      rfl

/-- The report of `slots` whose conflict events are, in some order, `events`. -/
structure RangeReport.Exact (report : RangeReport) (db : Db) (slots : List Int)
    (events : List ConflictEvent) : Prop where
  slots_eq : report.blocks.map (·.slot) = slots
  depth_eq : ∀ b ∈ report.blocks, b.scheduleDepth = b.stepWidths.length
  widths_pos : ∀ b ∈ report.blocks, 0 ∉ b.stepWidths
  widths_sum : ∀ b ∈ report.blocks, b.stepWidths.sum = (db.transactionsOf b.slot).length
  accounts : CountListing AccountConflictCount.accountPubkey AccountConflictCount.writeConflicts
    AccountConflictCount.readConflicts (fun a => ∃ e ∈ events, e.accountPubkey = a)
    (eventCounts events) events.length report.accounts
  programs : CountListing ProgramConflictCount.programId ProgramConflictCount.writeConflicts
    ProgramConflictCount.readConflicts (fun p => ∃ e ∈ events, p ∈ e.programIds)
    (occurrenceCounts events) (events.map fun e => e.programIds.length).sum report.programs

theorem CountListing.congr {ρ : Type} {name : ρ → String} {write read : ρ → Nat}
    {occurs occurs' : String → Prop} {counts counts' : String → Nat × Nat} {total total' : Nat}
    {rows : List ρ} (h : CountListing name write read occurs counts total rows)
    (hoccurs : ∀ k, occurs k ↔ occurs' k) (hcounts : ∀ k, counts k = counts' k)
    (htotal : total = total') : CountListing name write read occurs' counts' total' rows where
  once := h.once
  listed k := (h.listed k).trans (hoccurs k)
  counted r hr := (h.counted r hr).trans (hcounts (name r))
  total_eq := h.total_eq.trans htotal
  descending := h.descending

theorem programOccurrences_perm {events events' : List ConflictEvent}
    (h : events.Perm events') : (programOccurrences events).Perm (programOccurrences events') :=
  h.flatMap_right _

theorem length_programOccurrences (events : List ConflictEvent) :
    (programOccurrences events).length = (events.map fun e => e.programIds.length).sum := by
  simp [programOccurrences, List.length_flatMap]

/-- Every report is exact for the events of its slots, in whatever order. -/
theorem reportOf_exact (ord : ReportOrder) (db : Db) (limit : Option Nat)
    {events : List ConflictEvent}
    (hevents : (rangeEvents json ord.load db (reportSlots db limit)).Perm events) :
    (buildRangeReportLimited json ord db limit).Exact db (reportSlots db limit) events := by
  have hoccurrences := programOccurrences_perm hevents
  rw [buildRangeReportLimited_eq]
  constructor
  · rw [List.map_map]
    exact List.map_id' _
  · intro b hb
    obtain ⟨slot, -, rfl⟩ := List.mem_map.mp hb
    exact blockReport_depth json _ db slot
  · intro b hb
    obtain ⟨slot, -, rfl⟩ := List.mem_map.mp hb
    exact blockReport_widths json _ db slot
  · intro b hb
    obtain ⟨slot, -, rfl⟩ := List.mem_map.mp hb
    exact blockReport_sum json _ db slot
  · refine (countListing_tally ConflictEvent.accountPubkey ConflictEvent.isWritable
      (rangeEvents json ord.load db (reportSlots db limit)) _ _ _ AccountConflictCount.ofEntry
      (fun _ => rfl) (fun _ => rfl) ord.accounts).congr ?_ ?_ hevents.length_eq
    · intro k
      rw [(hevents.map _).mem_iff, List.mem_map]
    · exact fun k => Keyed.counts_perm hevents k
  · refine (countListing_tally Prod.fst Prod.snd
      (programOccurrences (rangeEvents json ord.load db (reportSlots db limit)))
      _ _ _ ProgramConflictCount.ofEntry (fun _ => rfl) (fun _ => rfl) ord.programs).congr ?_ ?_ ?_
    · intro k
      rw [(hoccurrences.map _).mem_iff, mem_programOccurrences]
    · intro k
      rw [Keyed.counts_perm hoccurrences, occurrenceCounts_eq]
    · rw [hoccurrences.length_eq, length_programOccurrences]

def RangeReport.accountCounts (report : RangeReport) (account : String) : Nat × Nat :=
  lookupCounts AccountConflictCount.accountPubkey AccountConflictCount.writeConflicts
    AccountConflictCount.readConflicts report.accounts account

def RangeReport.programCounts (report : RangeReport) (program : String) : Nat × Nat :=
  lookupCounts ProgramConflictCount.programId ProgramConflictCount.writeConflicts
    ProgramConflictCount.readConflicts report.programs program

theorem eventCounts_append (events events' : List ConflictEvent) (account : String) :
    eventCounts (events ++ events') account
      = eventCounts events account + eventCounts events' account :=
  Keyed.counts_append events events' account

theorem occurrenceCounts_append (events events' : List ConflictEvent) (program : String) :
    occurrenceCounts (events ++ events') program
      = occurrenceCounts events program + occurrenceCounts events' program := by
  simp [occurrenceCounts, List.filter_append]

section Lookup

variable {report : RangeReport} {db : Db} {slots : List Int} {events : List ConflictEvent}

theorem RangeReport.Exact.accountCounts_eq (h : report.Exact db slots events) (account : String) :
    report.accountCounts account = eventCounts events account := by
  refine h.accounts.lookupCounts_eq (fun k hk => ?_) account
  have hnone : ∀ e ∈ events, e.accountPubkey ≠ k := fun e he hek => hk ⟨e, he, hek⟩
  refine Prod.ext (List.countP_eq_zero.mpr ?_) (List.countP_eq_zero.mpr ?_)
  · exact fun e he => by simp [hnone e he]
  · exact fun e he => by simp [hnone e he]

theorem RangeReport.Exact.programCounts_eq (h : report.Exact db slots events) (program : String) :
    report.programCounts program = occurrenceCounts events program := by
  refine h.programs.lookupCounts_eq (fun k hk => ?_) program
  have hnone : ∀ e ∈ events, e.programIds.count k = 0 := fun e he =>
    List.count_eq_zero.mpr fun hmem => hk ⟨e, he, hmem⟩
  refine Prod.ext (List.sum_eq_zero ?_) (List.sum_eq_zero ?_)
  · intro n hn
    obtain ⟨e, he, rfl⟩ := List.mem_map.mp hn
    exact hnone e (List.mem_filter.mp he).1
  · intro n hn
    obtain ⟨e, he, rfl⟩ := List.mem_map.mp hn
    exact hnone e (List.mem_filter.mp he).1

end Lookup

theorem slotEvents_limit_succ (txs : Int → List Transaction) (db : Db) (n : Nat) :
    slotEvents txs (reportSlots db (some (n + 1)))
      = slotEvents txs (reportSlots db (some n))
          ++ slotEvents txs (reportSlots db none)[n]?.toList := by
  rw [reportSlots_limit, reportSlots_limit, List.take_add_one, slotEvents, List.flatMap_append]
  rfl

theorem mem_reportSlots_of_limit {db : Db} {limit : Option Nat} {slot : Int}
    (h : slot ∈ reportSlots db limit) : slot ∈ reportSlots db none := by
  cases limit with
  | none => exact h
  | some n => exact List.mem_of_mem_take (reportSlots_limit db n ▸ h)

/-- Whatever orders SQLite and the hash maps choose, the report covers the first
`limit` non-skipped slots, its entries are the schedules of their transactions, and
it counts exactly the conflict events of these; one more slot adds exactly its own.
The transactions are those of the rows, with the programs and locks stored for them;
every database has them (`blockTransactions_load`). -/
theorem buildRangeReportLimited_exact {db : Db} (hidx : db.IndexedSlots)
    (txs : Int → List Transaction)
    (htxs : ∀ b ∈ db.blocks.rows, b.skipped = 0 → BlockTransactions json db b.slot (txs b.slot)) :
    (reportSlots db none).Pairwise (· < ·)
      ∧ (∀ slot, slot ∈ reportSlots db none
          ↔ ∃ b ∈ db.blocks.rows, b.slot = slot ∧ b.skipped = 0)
      ∧ (∀ n, reportSlots db (some n) = (reportSlots db none).take n)
      ∧ (∀ ord limit, (buildRangeReportLimited json ord db limit).Exact db (reportSlots db limit)
            (slotEvents txs (reportSlots db limit))
          ∧ ∀ b ∈ (buildRangeReportLimited json ord db limit).blocks,
            b.stepWidths = (scheduleBlock (txs b.slot)).steps.map List.length)
      ∧ ∀ ord ord' n, ∀ name,
          (buildRangeReportLimited json ord db (some (n + 1))).accountCounts name
              = (buildRangeReportLimited json ord' db (some n)).accountCounts name
                + eventCounts (slotEvents txs (reportSlots db none)[n]?.toList) name
          ∧ (buildRangeReportLimited json ord db (some (n + 1))).programCounts name
              = (buildRangeReportLimited json ord' db (some n)).programCounts name
                + occurrenceCounts (slotEvents txs (reportSlots db none)[n]?.toList) name := by
  have hblock : ∀ limit, ∀ slot ∈ reportSlots db limit,
      BlockTransactions json db slot (txs slot) := by
    intro limit slot hslot
    obtain ⟨b, hb, rfl, hskip⟩ := mem_reportSlots.mp (mem_reportSlots_of_limit hslot)
    exact htxs b hb hskip
  have hexact : ∀ ord limit, (buildRangeReportLimited json ord db limit).Exact db
      (reportSlots db limit) (slotEvents txs (reportSlots db limit)) := fun ord limit =>
    reportOf_exact json ord db limit (rangeEvents_perm json hidx ord.load (hblock limit))
  refine ⟨reportSlots_ascending db, fun slot => mem_reportSlots, fun n => rfl,
    fun ord limit => ⟨hexact ord limit, fun b hb => ?_⟩, fun ord ord' n name => ?_⟩
  · rw [buildRangeReportLimited_eq] at hb
    obtain ⟨slot, hslot, rfl⟩ := List.mem_map.mp hb
    exact congrArg _ (slotSchedule_steps json hidx (ord.load slot) (hblock limit slot hslot))
  · have hlarge := hexact ord (some (n + 1))
    have hsmall := hexact ord' (some n)
    rw [slotEvents_limit_succ] at hlarge
    constructor
    · rw [hlarge.accountCounts_eq, hsmall.accountCounts_eq, eventCounts_append]
    · rw [hlarge.programCounts_eq, hsmall.programCounts_eq, occurrenceCounts_append]

/-- Two slots; in one of them a read waits for a write. -/
def contendedDb : Db :=
  runBlocking .escapeFree Db.empty
    [parsedBlock, skippedSlot,
     ⟨6, some "h6", none, false, [⟨"s3", 1, true, 5000, ["P"], [⟨"A", true⟩], []⟩]⟩]

example : buildRangeReportLimited .escapeFree .stored contendedDb none =
    ⟨[⟨5, 2, [1, 1]⟩, ⟨6, 1, [1]⟩], [⟨"A", 0, 1⟩], [⟨"P", 0, 1⟩]⟩ := by decide

/-- The transactions of its slots, with the locks in another order than they are
stored in. -/
def contendedTransactions (slot : Int) : List Transaction :=
  if slot = 5 then
    [⟨"s1", 0, ["P", "Q"], [⟨"B", false⟩, ⟨"A", true⟩]⟩, ⟨"s2", 2, ["P"], [⟨"A", false⟩]⟩]
  else [⟨"s3", 1, ["P"], [⟨"A", true⟩]⟩]

theorem contendedTransactions_rows : ∀ b ∈ contendedDb.blocks.rows, b.skipped = 0 →
    BlockTransactions .escapeFree contendedDb b.slot (contendedTransactions b.slot) := by
  intro b hb hskip
  have hblocks : contendedDb.blocks.rows
      = [⟨5, some "h5", some 1000, 0⟩, ⟨7, none, none, 1⟩, ⟨6, some "h6", none, 0⟩] := by decide
  rw [hblocks] at hb
  rcases List.mem_cons.mp hb with rfl | hb
  · refine ⟨⟨_, List.Perm.refl _, ?_⟩, by decide⟩
    exact .cons ⟨rfl, rfl, by decide, by decide⟩
      (.cons ⟨rfl, rfl, by decide, by decide⟩ .nil)
  · rcases List.mem_cons.mp hb with rfl | hb
    · cases hskip
    · obtain rfl := List.mem_singleton.mp hb
      exact ⟨⟨_, List.Perm.refl _, .cons ⟨rfl, rfl, by decide, by decide⟩ .nil⟩, by decide⟩

theorem buildRangeReportLimited_exact_contended :
    (buildRangeReportLimited .escapeFree .stored contendedDb (some 1)).accounts = [⟨"A", 0, 1⟩]
      ∧ (buildRangeReportLimited .escapeFree .stored contendedDb (some 1)).Exact contendedDb
          (reportSlots contendedDb (some 1))
          (slotEvents contendedTransactions (reportSlots contendedDb (some 1))) := by
  have hidx : contendedDb.IndexedSlots := fun slot =>
    (List.filter_sublist.map _).nodup
      (show (contendedDb.transactions.rows.map (·.txIndex)).Nodup by decide)
  have hexact := buildRangeReportLimited_exact .escapeFree hidx contendedTransactions
    contendedTransactions_rows
  exact ⟨by decide, (hexact.2.2.2.1 .stored (some 1)).1⟩

end Astralane
