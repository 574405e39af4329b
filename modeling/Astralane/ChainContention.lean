import Mathlib.Algebra.Order.BigOperators.Group.List
import Astralane.Summary

/-!
# Contention, from the chain to the API

The path of a range of blocks through the database, with no database left in the
statement: written in any order and number, loaded back slot by slot, scheduled,
counted, stored and served. What `/api/contention` then answers is the schedule of
each block as it was parsed, and the accounts and programs with the most conflicts
in these schedules (`contention_of_chain`).
-/

namespace Astralane

variable {json : StringListJson} {ints : IntListJson} {bs ws : List ParsedBlock}

/-! ## The chain's own schedules -/

/-- A parsed transaction as `schedule_block` takes it. -/
def ParsedTransaction.scheduled (t : ParsedTransaction) : Transaction where
  signature := t.signature
  txIndex := t.txIndex
  programIds := t.programIds
  locks := t.accountLocks

def ParsedBlock.schedule (b : ParsedBlock) : Schedule :=
  scheduleBlock (b.transactions.map (·.scheduled))

def ParsedBlock.blockDepth (b : ParsedBlock) : BlockDepth where
  slot := asI64 b.slot
  scheduleDepth := b.schedule.steps.length
  stepWidths := b.schedule.steps.map fun step => (step.length : Int)

/-- The blocks that were produced at all. -/
def produced (bs : List ParsedBlock) : List ParsedBlock :=
  bs.filter fun b => !b.skipped

def chainEvents (bs : List ParsedBlock) : List ConflictEvent :=
  (produced bs).flatMap fun b => b.schedule.conflicts

/-! ## What the database makes of it -/

section Ingested

variable (h : ChainBlocks bs) (hparsed : ∀ b ∈ bs, ∃ o, parseOutcome b.slot o = some b)
  (hws : ∀ b, b ∈ ws ↔ b ∈ bs)
include h hws

theorem mem_ingest_blocks {r : BlocksRow} :
    r ∈ (Db.empty.ingest json ws).blocks.rows ↔ ∃ b ∈ bs, b.blocksRow = r := by
  have hmem : ∀ {r}, r ∈ ws.map (·.blocksRow) ↔ ∃ b ∈ bs, b.blocksRow = r := by
    intro r
    rw [List.mem_map]
    exact exists_congr fun b => and_congr_left' (hws b)
  refine (Keyed.mem_insertAll_of_consistent fun r hr s hs hkey => ?_).trans hmem
  obtain ⟨b, hb, rfl⟩ := hmem.mp hr
  obtain ⟨c, hc, rfl⟩ := hmem.mp hs
  rw [h.eq_of_slot hb hc (asI64_inj.mp hkey)]

/-- The slots of a report are those of the blocks produced. -/
theorem reportSlots_ingest :
    (reportSlots (Db.empty.ingest json ws) none).Perm
      ((produced bs).map fun b => asI64 b.slot) := by
  have hnodup : ((produced bs).map fun b => asI64 b.slot).Nodup := by
    have hslots : ((produced bs).map (·.slot)).Nodup := (List.filter_sublist.map _).nodup h.slots
    have hpair := List.pairwise_map.mp hslots
    exact List.pairwise_map.mpr (hpair.imp fun hne heq => hne (asI64_inj.mp heq))
  refine (List.perm_ext_iff_of_nodup ((reportSlots_ascending _).imp ne_of_lt) hnodup).mpr
    fun slot => ?_
  rw [mem_reportSlots, List.mem_map]
  constructor
  · rintro ⟨r, hr, rfl, hskip⟩
    obtain ⟨b, hb, rfl⟩ := (mem_ingest_blocks h hws).mp hr
    refine ⟨b, List.mem_filter.mpr ⟨hb, ?_⟩, rfl⟩
    cases hbs : b.skipped with
    | false => rfl
    | true =>
        rw [ParsedBlock.blocksRow, hbs] at hskip
        nomatch hskip
  · rintro ⟨b, hb, rfl⟩
    obtain ⟨hb, hbs⟩ := List.mem_filter.mp hb
    refine ⟨b.blocksRow, (mem_ingest_blocks h hws).mpr ⟨b, hb, rfl⟩, rfl, ?_⟩
    rw [Bool.not_eq_eq_eq_not, Bool.not_true] at hbs
    rw [ParsedBlock.blocksRow, hbs]
    rfl

include hparsed

theorem sortedRows_ingest (ord : IterOrder TransactionsRow) {b : ParsedBlock} (hb : b ∈ bs) :
    sortByKey TransactionsRow.txIndex (ord.arrange
      ((Db.empty.ingest json ws).transactionsOf (asI64 b.slot))) = b.transactionsRows json := by
  obtain ⟨o, ho⟩ := hparsed b hb
  refine sortByKey_eq_of_strict ((ord.perm _).trans
    (transactionsOf_ingest h (fun b => (hws b).mp) ((hws b).mpr hb))) ?_
  exact List.pairwise_map.mpr (parseOutcome_sorted ho)

/-- A block is loaded as it was parsed, but for the order of the locks. -/
theorem loaded_sameLocks (hjson : ∀ b ∈ bs, ∀ t ∈ b.transactions, json.RoundTrips t.programIds)
    (ord : LoadOrder) {b : ParsedBlock} (hb : b ∈ bs) :
    List.Forall₂ SameLocks
      (loadBlockTransactions json ord (Db.empty.ingest json ws) (asI64 b.slot))
      (b.transactions.map (·.scheduled)) := by
  have hsub : ∀ c ∈ ws, c ∈ bs := fun c => (hws c).mp
  rw [loadBlockTransactions_eq, sortedRows_ingest h hparsed hws ord.transactions hb,
    ParsedBlock.transactionsRows, List.map_map, List.forall₂_map_left_iff,
    List.forall₂_map_right_iff, List.forall₂_same]
  intro t ht
  have hrow : t.transactionsRow json (asI64 b.slot)
      ∈ (Db.empty.ingest json ws).transactions.rows :=
    (mem_ingest_transactions h hsub).mpr ⟨b, (hws b).mpr hb, t, ht, rfl⟩
  constructor
  · rfl
  · show (json.fromText (json.toText t.programIds)).getD [] = t.programIds
    rw [hjson b hb t ht, Option.getD_some]
  · exact (loadedTransaction_locks json ord _ hrow rfl).trans
      (locksUnder_ingest h hsub ((hws b).mpr hb) ht)

variable (hjson : ∀ b ∈ bs, ∀ t ∈ b.transactions, json.RoundTrips t.programIds)
include hjson

theorem slotSchedule_ingest (ord : LoadOrder) {b : ParsedBlock} (hb : b ∈ bs) :
    (slotSchedule json ord (Db.empty.ingest json ws) (asI64 b.slot)).steps = b.schedule.steps
      ∧ (slotSchedule json ord (Db.empty.ingest json ws) (asI64 b.slot)).conflicts.Perm
          b.schedule.conflicts :=
  scheduleBlock_sameLocks (loaded_sameLocks h hparsed hws hjson ord hb)

theorem rangeEvents_ingest (load : Int → LoadOrder) :
    (rangeEvents json load (Db.empty.ingest json ws)
      (reportSlots (Db.empty.ingest json ws) none)).Perm (chainEvents bs) := by
  refine ((reportSlots_ingest h hws).flatMap_right _).trans ?_
  rw [List.flatMap_map]
  refine List.Perm.flatMap_left _ fun b hb => ?_
  exact (slotSchedule_ingest h hparsed hws hjson (load (asI64 b.slot)) (List.mem_filter.mp hb).1).2

theorem reportBlocks_ingest (ord : ReportOrder) :
    ((buildRangeReport json ord (Db.empty.ingest json ws)).blocks.map (·.served)).Perm
      ((produced bs).map (·.blockDepth)) := by
  rw [buildRangeReport, buildRangeReportLimited_eq]
  refine (((reportSlots_ingest h hws).map _).map _).trans (List.Perm.of_eq ?_)
  rw [List.map_map, List.map_map]
  refine List.map_congr_left fun b hb => ?_
  have hsteps := (slotSchedule_ingest h hparsed hws hjson (ord.load (asI64 b.slot))
    (List.mem_filter.mp hb).1).1
  simp only [Function.comp_apply, BlockReport.served, blockReport, hsteps, List.map_map]
  rfl

end Ingested

/-! ## The answer -/

/-- The `n` names with the greatest totals, each with its counts. -/
structure TopCounts (occurs : String → Prop) (counts : String → Nat × Nat)
    (top : List ConflictRow) : Prop where
  once : (top.map (·.key)).Nodup
  counted : ∀ r ∈ top, occurs r.key ∧ r.writeConflicts = (counts r.key).1
    ∧ r.readConflicts = (counts r.key).2
  descending : top.Pairwise fun r r' => r'.total ≤ r.total
  at_most : top.length ≤ 20
  largest : ∀ k, occurs k → k ∉ top.map (·.key) →
    top.length = 20 ∧ ∀ r ∈ top, ((counts k).1 + (counts k).2 : Int) ≤ r.total

theorem CountListing.topCounts {ρ : Type} {name : ρ → String} {write read : ρ → Nat}
    {occurs : String → Prop} {counts : String → Nat × Nat} {total : Nat} {rows : List ρ}
    (h : CountListing name write read occurs counts total rows) {served : ρ → ConflictRow}
    (hserved : ∀ r, served r = ⟨name r, write r, read r⟩) {top : List ConflictRow}
    (htop : IsLargest ConflictRow.total 20 (rows.map served) top)
    (hnodup : (top.map (·.key)).Nodup) : TopCounts occurs counts top := by
  obtain ⟨rest, hperm, hlargest⟩ := htop.largest
  have hlen := htop.length_eq
  have hsplit := hperm.length_eq
  rw [List.length_append] at hsplit
  refine ⟨hnodup, fun r hr => ?_, htop.descending, by omega, fun k hk hnot => ?_⟩
  · obtain ⟨row, hrow, rfl⟩ := List.mem_map.mp (hperm.mem_iff.mp (List.mem_append_left rest hr))
    rw [hserved, ← h.counted row hrow]
    exact ⟨(h.listed _).mp (List.mem_map_of_mem hrow), rfl, rfl⟩
  · obtain ⟨row, hrow, rfl⟩ := List.mem_map.mp ((h.listed k).mpr hk)
    have hkey : (served row).key = name row := by rw [hserved]
    have hrest : served row ∈ rest := by
      rcases List.mem_append.mp (hperm.mem_iff.mpr (List.mem_map_of_mem hrow)) with hin | hin
      · exact absurd (hkey ▸ List.mem_map_of_mem hin) hnot
      · exact hin
    have hpos := List.length_pos_of_mem hrest
    refine ⟨by omega, fun r hr => ?_⟩
    have hle := hlargest r hr (served row) hrest
    rw [hserved row] at hle
    rw [← h.counted row hrow]
    exact hle

/-- The answer to `q` about the blocks `bs`. -/
structure ContentionOf (bs : List ParsedBlock) (q : ContentionQuery)
    (response : ContentionResponse) : Prop where
  blocks : response.blocks.Perm
    (((produced bs).filter fun b => q.includes (asI64 b.slot)).map (·.blockDepth))
  ascending : response.blocks.Pairwise fun b c => b.slot < c.slot
  blockCount : response.blockCount = response.blocks.length
  accounts : TopCounts (fun a => ∃ e ∈ chainEvents bs, e.accountPubkey = a)
    (eventCounts (chainEvents bs)) response.topAccounts
  programs : TopCounts (fun p => ∃ e ∈ chainEvents bs, p ∈ e.programIds)
    (occurrenceCounts (chainEvents bs)) response.topPrograms

/-- Depths, widths and counts that fit the columns they are stored in. -/
structure ContentionFits (ints : IntListJson) (bs : List ParsedBlock) : Prop where
  depth : ∀ b ∈ bs, b.schedule.steps.length < 2 ^ 63
  widths : ∀ b ∈ bs, ints.RoundTrips (b.schedule.steps.map List.length)
  events : (chainEvents bs).length < 2 ^ 63
  occurrences : ((chainEvents bs).map fun e => e.programIds.length).sum < 2 ^ 63

theorem CountListing.le_total {ρ : Type} {name : ρ → String} {write read : ρ → Nat}
    {occurs : String → Prop} {counts : String → Nat × Nat} {total : Nat} {rows : List ρ}
    (h : CountListing name write read occurs counts total rows) {r : ρ} (hr : r ∈ rows) :
    write r + read r ≤ total := by
  have hmem : write r + read r ∈ rows.map fun r => write r + read r := List.mem_map_of_mem hr
  exact h.total_eq ▸ List.le_sum_of_mem hmem

/-! ## A report of the chain -/

section Report

variable {report : RangeReport}
  (hblocks : (report.blocks.map (·.served)).Perm ((produced bs).map (·.blockDepth)))
include hblocks

/-- An entry of the report is the depth of a block of the chain. -/
theorem exists_block_of_entry {e : BlockReport} (he : e ∈ report.blocks) :
    ∃ b ∈ bs, e.served = b.blockDepth := by
  obtain ⟨b, hb, heq⟩ := List.mem_map.mp (hblocks.mem_iff.mp (List.mem_map_of_mem he))
  exact ⟨b, (List.mem_filter.mp hb).1, heq.symm⟩

theorem roundTrips_of_fits (hfits : ContentionFits ints bs) :
    ∀ e ∈ report.blocks, ints.RoundTrips e.stepWidths := by
  intro e he
  obtain ⟨b, hb, heq⟩ := exists_block_of_entry hblocks he
  have hwidths : e.stepWidths.map (fun n : Nat => (n : Int))
      = (b.schedule.steps.map List.length).map fun n : Nat => (n : Int) := by
    rw [List.map_map]
    exact congrArg BlockDepth.stepWidths heq
  rw [List.map_injective_iff.mpr Int.ofNat_injective hwidths]
  exact hfits.widths b hb

variable {db : Db} {slots : List Int} (hexact : report.Exact db slots (chainEvents bs))
include hexact

theorem bounded_of_fits (hfits : ContentionFits ints bs) : report.Bounded := by
  constructor
  · intro e he
    obtain ⟨b, hb, heq⟩ := exists_block_of_entry hblocks he
    have hdepth : (e.scheduleDepth : Int) = b.schedule.steps.length :=
      congrArg BlockDepth.scheduleDepth heq
    exact Int.ofNat_inj.mp hdepth ▸ hfits.depth b hb
  · exact fun a ha => Nat.lt_of_le_of_lt (hexact.accounts.le_total ha) hfits.events
  · exact fun p hp => Nat.lt_of_le_of_lt (hexact.programs.le_total hp) hfits.occurrences

/-- An answer from the report is one about the chain. -/
theorem contentionOf_of_answers {response : ContentionResponse} {q : ContentionQuery}
    (hanswers : response.Answers report q) : ContentionOf bs q response := by
  refine ⟨hanswers.blocks.trans ?_, hanswers.ascending, hanswers.blockCount,
    hexact.accounts.topCounts (fun _ => rfl) hanswers.accounts hanswers.accounts_nodup,
    hexact.programs.topCounts (fun _ => rfl) hanswers.programs hanswers.programs_nodup⟩
  have hfiltered := hblocks.filter fun b => q.includes b.slot
  rw [List.filter_map, List.filter_map] at hfiltered
  exact hfiltered

end Report

/-- A report of the ingested blocks is stored, and what is served then is that of
the schedules of the blocks themselves. -/
theorem contention_of_ingest (h : ChainBlocks bs)
    (hparsed : ∀ b ∈ bs, ∃ o, parseOutcome b.slot o = some b)
    (hjson : ∀ b ∈ bs, ∀ t ∈ b.transactions, json.RoundTrips t.programIds)
    (hfits : ContentionFits ints bs) (hws : ∀ b, b ∈ ws ↔ b ∈ bs) (ord : ReportOrder) :
    ∃ hstorable : (buildRangeReport json ord (Db.empty.ingest json ws)).Storable
          (Db.empty.ingest json ws),
      storeRangeReport ints (Db.empty.ingest json ws)
          (buildRangeReport json ord (Db.empty.ingest json ws))
        = (.ok (), (buildRangeReport json ord (Db.empty.ingest json ws)).install ints
            (Db.empty.ingest json ws) hstorable)
      ∧ ∀ cord q, ContentionOf bs q (getContention ints cord
          ((buildRangeReport json ord (Db.empty.ingest json ws)).install ints
            (Db.empty.ingest json ws) hstorable) q) := by
  have hblocks := reportBlocks_ingest h hparsed hws hjson ord
  have hexact := reportOf_exact json ord (Db.empty.ingest json ws) none
    (rangeEvents_ingest h hparsed hws hjson ord.load)
  have hbounded := bounded_of_fits hblocks hexact hfits
  have hround := roundTrips_of_fits hblocks hfits
  rcases storeRangeReport_cases ints (Db.empty.ingest json ws)
      (buildRangeReport json ord (Db.empty.ingest json ws)) with ⟨hstorable, hstore⟩ | ⟨hnot, -⟩
  · refine ⟨hstorable, hstore, fun cord q => contentionOf_of_answers hblocks hexact ?_⟩
    exact getContention_answers ints (install_storedIn ints hbounded hstorable) hround cord q
  · exact absurd (buildRangeReportLimited_storable json ord (Db.empty.ingest json ws) none) hnot

/-- Whatever order the blocks were written in, and how often, and whatever orders
SQLite and the hash maps choose: the summary is stored, and the answer to every query
is that of the schedules of the blocks themselves. -/
theorem contention_of_chain (h : ChainBlocks bs)
    (hparsed : ∀ b ∈ bs, ∃ o, parseOutcome b.slot o = some b)
    (hjson : ∀ b ∈ bs, ∀ t ∈ b.transactions, json.RoundTrips t.programIds)
    (hfits : ContentionFits ints bs) (hws : ∀ b, b ∈ ws ↔ b ∈ bs) (ord : ReportOrder)
    (cord : ContentionOrder) (q : ContentionQuery) :
    ∃ db, storeRangeReport ints (runBlocking json Db.empty ws)
          (buildRangeReport json ord (runBlocking json Db.empty ws)) = (.ok (), db)
      ∧ ContentionOf bs q (getContention ints cord db q) := by
  rw [runBlocking_eq]
  obtain ⟨hstorable, hstore, hserved⟩ := contention_of_ingest h hparsed hjson hfits hws ord
  exact ⟨_, hstore, hserved cord q⟩

theorem rawChain_blocks : ChainBlocks [skippedSlot, parsedBlock] :=
  ⟨⟨by decide, by decide⟩, by decide, by decide⟩

theorem rawChain_parsed :
    ∀ b ∈ [skippedSlot, parsedBlock], ∃ o, parseOutcome b.slot o = some b := by
  intro b hb
  rcases List.mem_cons.mp hb with rfl | hb
  · exact ⟨.skipped, rfl⟩
  · obtain rfl := List.mem_singleton.mp hb
    exact ⟨.fetched rawBlock, rfl⟩

theorem rawChain_fits : ContentionFits .unsigned [skippedSlot, parsedBlock] where
  depth := by decide
  widths := by
    unfold IntListJson.RoundTrips
    decide +kernel
  events := by
    have hone : (chainEvents [skippedSlot, parsedBlock]).length = 1 := by decide
    omega
  occurrences := by
    have hone : ((chainEvents [skippedSlot, parsedBlock]).map
        fun e => e.programIds.length).sum = 1 := by decide
    omega

/-- The block is written twice, around the skipped slot. -/
theorem contention_of_chain_raw :
    ∃ db, storeRangeReport .unsigned
          (runBlocking .escapeFree Db.empty [parsedBlock, skippedSlot, parsedBlock])
          (buildRangeReport .escapeFree .stored
            (runBlocking .escapeFree Db.empty [parsedBlock, skippedSlot, parsedBlock]))
        = (.ok (), db)
      ∧ ContentionOf [skippedSlot, parsedBlock] ⟨none, some 5⟩
          (getContention .unsigned .stored db ⟨none, some 5⟩) := by
  refine contention_of_chain rawChain_blocks rawChain_parsed ?_ rawChain_fits ?_ .stored .stored
    ⟨none, some 5⟩
  · unfold StringListJson.RoundTrips
    decide
  · intro b
    simp only [List.mem_cons, List.not_mem_nil, or_false]
    tauto

end Astralane
