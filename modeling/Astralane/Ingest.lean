import Mathlib.Data.List.Pairwise
import Astralane.Writer

/-!
# Ingestion as a set of blocks

What a run of the writer leaves in the four ingested tables, seen as sets of
rows. Under distinct slots and one block per signature every primary key
belongs to one block, so only the set of blocks written matters: the order in
which the concurrent fetches complete, an earlier run that got through some of
the blocks, and blocks written twice leave no trace.

Without any such assumption, on a database with any contents, writing blocks a
second time changes nothing (`reingestion_absorbed`).
-/

namespace Astralane

variable (json : StringListJson)

/-- Distinct slots, and no signature in two blocks. A signature may be repeated
within a block. -/
structure DisjointBlocks (bs : List ParsedBlock) : Prop where
  slots : (bs.map (·.slot)).Nodup
  signatures : bs.Pairwise fun b c =>
    ∀ t ∈ b.transactions, ∀ u ∈ c.transactions, t.signature ≠ u.signature

namespace DisjointBlocks

variable {bs : List ParsedBlock}

theorem eq_of_slot (h : DisjointBlocks bs) {b c : ParsedBlock} (hb : b ∈ bs) (hc : c ∈ bs)
    (hslot : b.slot = c.slot) : b = c :=
  List.inj_on_of_nodup_map h.slots hb hc hslot

theorem eq_of_signature (h : DisjointBlocks bs) {b c : ParsedBlock} (hb : b ∈ bs) (hc : c ∈ bs)
    {t u : ParsedTransaction} (ht : t ∈ b.transactions) (hu : u ∈ c.transactions)
    (hsig : t.signature = u.signature) : b = c := by
  by_contra hne
  have hsymm : Std.Symm fun b c : ParsedBlock =>
      ∀ t ∈ b.transactions, ∀ u ∈ c.transactions, t.signature ≠ u.signature :=
    ⟨fun _ _ h u hu t ht heq => h t ht u hu heq.symm⟩
  exact h.signatures.forall hb hc hne t ht u hu hsig

end DisjointBlocks

/-! ## Where a row comes from -/

theorem mem_transactionsRows {b : ParsedBlock} {r : TransactionsRow} :
    r ∈ b.transactionsRows json
      ↔ ∃ t ∈ b.transactions, t.transactionsRow json (asI64 b.slot) = r := by
  simp [ParsedBlock.transactionsRows]

theorem signature_of_accountLocksRows {b : ParsedBlock} {r : AccountLocksRow}
    (h : r ∈ b.accountLocksRows) : ∃ t ∈ b.transactions, t.signature = r.signature := by
  obtain ⟨t, ht, hr⟩ := List.mem_flatMap.mp h
  obtain ⟨l, -, rfl⟩ := List.mem_map.mp hr
  exact ⟨t, ht, rfl⟩

theorem signature_of_tokenBalancesRows {b : ParsedBlock} {r : TokenBalancesRow}
    (h : r ∈ b.tokenBalancesRows) : ∃ t ∈ b.transactions, t.signature = r.signature := by
  obtain ⟨t, ht, hr⟩ := List.mem_flatMap.mp h
  obtain ⟨l, -, rfl⟩ := List.mem_map.mp hr
  exact ⟨t, ht, rfl⟩

/-! ## Order, repetitions and crashes -/

/-- The same sets of rows in the four ingested tables. -/
structure Db.SameRows (db db' : Db) : Prop where
  blocks : db.blocks.rows.Perm db'.blocks.rows
  transactions : db.transactions.rows.Perm db'.transactions.rows
  accountLocks : db.accountLocks.rows.Perm db'.accountLocks.rows
  tokenBalances : db.tokenBalances.rows.Perm db'.tokenBalances.rows

/-- Two runs over the same set of blocks, in any orders and with any
repetitions, store the same rows: each primary key has one owning block. -/
theorem ingest_sameRows {ws vs : List ParsedBlock} (h : DisjointBlocks vs)
    (hmem : ∀ b, b ∈ ws ↔ b ∈ vs) :
    (Db.empty.ingest json ws).SameRows (Db.empty.ingest json vs) where
  blocks := Keyed.perm_of_find? fun k => by
    have hrows : ∀ us : List ParsedBlock,
        us.map (·.blocksRow) = us.flatMap fun b => [b.blocksRow] :=
      fun us => List.map_eq_flatMap
    simp only [Db.ingest, hrows]
    refine Keyed.find?_insertAll_flatMap_congr hmem (fun b hb c hc r hr s hs hkey => ?_) k
    obtain rfl := List.mem_singleton.mp hr
    obtain rfl := List.mem_singleton.mp hs
    exact h.eq_of_slot hb hc (asI64_inj.mp hkey)
  transactions := Keyed.perm_of_find? fun k => by
    refine Keyed.find?_insertAll_flatMap_congr hmem (fun b hb c hc r hr s hs hkey => ?_) k
    obtain ⟨t, ht, rfl⟩ := (mem_transactionsRows json).mp hr
    obtain ⟨u, hu, rfl⟩ := (mem_transactionsRows json).mp hs
    exact h.eq_of_signature hb hc ht hu hkey
  accountLocks := Keyed.perm_of_find? fun k => by
    refine Keyed.find?_insertAll_flatMap_congr hmem (fun b hb c hc r hr s hs hkey => ?_) k
    obtain ⟨t, ht, hrt⟩ := signature_of_accountLocksRows hr
    obtain ⟨u, hu, hsu⟩ := signature_of_accountLocksRows hs
    exact h.eq_of_signature hb hc ht hu (hrt.trans ((congrArg Prod.fst hkey).trans hsu.symm))
  tokenBalances := Keyed.perm_of_find? fun k => by
    refine Keyed.find?_insertAll_flatMap_congr hmem (fun b hb c hc r hr s hs hkey => ?_) k
    obtain ⟨t, ht, hrt⟩ := signature_of_tokenBalancesRows hr
    obtain ⟨u, hu, hsu⟩ := signature_of_tokenBalancesRows hs
    exact h.eq_of_signature hb hc ht hu (hrt.trans ((congrArg Prod.fst hkey).trans hsu.symm))

def slotOrder (bs : List ParsedBlock) : List ParsedBlock :=
  bs.insertionSort fun b c => b.slot ≤ c.slot

/-- A complete run, delivered in any order and after earlier runs that
committed some of the blocks, leaves the rows of one uninterrupted run in slot
order on an empty database. -/
theorem ingestion_order_free (bs : List ParsedBlock) (h : DisjointBlocks bs)
    (earlier order : List ParsedBlock) (hearlier : ∀ b ∈ earlier, b ∈ bs)
    (horder : order.Perm bs) :
    (runBlocking json (runBlocking json Db.empty earlier) order).SameRows
      (runBlocking json Db.empty (slotOrder bs)) := by
  have hsorted : (slotOrder bs).Perm bs := List.perm_insertionSort _ bs
  have hdisj : DisjointBlocks (slotOrder bs) := by
    constructor
    · exact (hsorted.map _).nodup_iff.mpr h.slots
    · refine (hsorted.pairwise_iff ?_).mpr h.signatures
      exact fun hbc u hu t ht heq => hbc t ht u hu heq.symm
  rw [← runBlocking_append, runBlocking_eq, runBlocking_eq]
  refine ingest_sameRows json hdisj fun b => ?_
  rw [List.mem_append, horder.mem_iff, hsorted.mem_iff]
  exact ⟨fun hb => hb.elim (hearlier b) id, Or.inr⟩

/-! ## Writing again

On any database, whatever it holds already: `write_block` always succeeds, adds
rows only under free keys, and so has nothing to add the second time. -/

/-- Every row of the ingested tables of `db` is still there in `db'`, and the
other tables are the same. -/
structure Db.Extends (db db' : Db) : Prop where
  blocks : ∀ r ∈ db.blocks.rows, r ∈ db'.blocks.rows
  transactions : ∀ r ∈ db.transactions.rows, r ∈ db'.transactions.rows
  accountLocks : ∀ r ∈ db.accountLocks.rows, r ∈ db'.accountLocks.rows
  tokenBalances : ∀ r ∈ db.tokenBalances.rows, r ∈ db'.tokenBalances.rows
  ohlcvCandles : db'.ohlcvCandles = db.ohlcvCandles
  contentionBlocks : db'.contentionBlocks = db.contentionBlocks
  contentionAccounts : db'.contentionAccounts = db.contentionAccounts
  contentionPrograms : db'.contentionPrograms = db.contentionPrograms

theorem extends_ingest (db : Db) (bs : List ParsedBlock) : db.Extends (db.ingest json bs) where
  blocks _ hr := Keyed.mem_insertAll_of_mem hr
  transactions _ hr := Keyed.mem_insertAll_of_mem hr
  accountLocks _ hr := Keyed.mem_insertAll_of_mem hr
  tokenBalances _ hr := Keyed.mem_insertAll_of_mem hr
  ohlcvCandles := rfl
  contentionBlocks := rfl
  contentionAccounts := rfl
  contentionPrograms := rfl

theorem ingest_absorbed (db : Db) {bs cs : List ParsedBlock} (hcs : ∀ c ∈ cs, c ∈ bs) :
    (db.ingest json bs).ingest json cs = db.ingest json bs := by
  have hrows : ∀ {ρ : Type} (R : ParsedBlock → List ρ), ∀ r ∈ cs.flatMap R, r ∈ bs.flatMap R := by
    intro ρ R r hr
    obtain ⟨c, hc, hr⟩ := List.mem_flatMap.mp hr
    exact List.mem_flatMap.mpr ⟨c, hcs c hc, hr⟩
  have hblocks : ∀ r ∈ cs.map (·.blocksRow), r ∈ bs.map (·.blocksRow) := by
    intro r hr
    obtain ⟨c, hc, rfl⟩ := List.mem_map.mp hr
    exact List.mem_map_of_mem (hcs c hc)
  simp only [Db.ingest, Keyed.insertAll_absorbed _ hblocks, Keyed.insertAll_absorbed _ (hrows _)]

theorem writeBlocks_eq (db : Db) (bs : List ParsedBlock) :
    bs.foldlM (writeBlock json) db = Except.ok (db.ingest json bs) := by
  induction bs generalizing db with
  | nil => rfl
  | cons b bs ih =>
      rw [List.foldlM_cons, writeBlock_eq, Except.ok_bind, ih]
      exact congrArg Except.ok (Db.ingest_append json db [b] bs).symm

/-- On every database every call succeeds and keeps the rows there were, and
writing blocks again, in any order and number, leaves the database as it was. -/
theorem reingestion_absorbed (db : Db) (bs cs : List ParsedBlock) (hcs : ∀ c ∈ cs, c ∈ bs) :
    (∃ db', bs.foldlM (writeBlock json) db = Except.ok db'
        ∧ cs.foldlM (writeBlock json) db' = Except.ok db')
      ∧ ∀ (before : Db) (b : ParsedBlock), ∃ after,
          writeBlock json before b = Except.ok after ∧ before.Extends after := by
  refine ⟨⟨db.ingest json bs, writeBlocks_eq json db bs, ?_⟩, fun before b => ?_⟩
  · rw [writeBlocks_eq, ingest_absorbed json db hcs]
  · exact ⟨before.ingest json [b], writeBlock_eq json before b, extends_ingest json before [b]⟩

/-- A skipped slot, and two fetched blocks of which one repeats a signature. -/
def skippedSlot : ParsedBlock := ⟨7, none, none, true, []⟩

def repeatingBlock : ParsedBlock :=
  ⟨5, some "h5", some 1000, false,
    [⟨"s1", 0, true, 5000, ["P"], [⟨"A", true⟩], [⟨1, "M", "10", "0", 6⟩]⟩,
     ⟨"s1", 1, false, 5000, ["Q"], [⟨"A", false⟩, ⟨"B", false⟩], []⟩]⟩

def laterBlock : ParsedBlock :=
  ⟨6, some "h6", none, false, [⟨"s2", 0, true, 5000, ["P"], [⟨"B", true⟩], []⟩]⟩

theorem ingestion_order_free_three :
    (runBlocking .escapeFree (runBlocking .escapeFree Db.empty [laterBlock])
        [skippedSlot, laterBlock, repeatingBlock]).SameRows
      (runBlocking .escapeFree Db.empty
        (slotOrder [repeatingBlock, skippedSlot, laterBlock])) :=
  ingestion_order_free .escapeFree [repeatingBlock, skippedSlot, laterBlock]
    ⟨by decide, by decide⟩ [laterBlock] [skippedSlot, laterBlock, repeatingBlock]
    (by decide) (by decide)

/-- The database holds `s1` under another slot; the block repeating it is written
three times over. -/
theorem reingestion_absorbed_clashing :
    ∃ db', [repeatingBlock, skippedSlot].foldlM (writeBlock .escapeFree)
          (Db.empty.ingest .escapeFree
            [⟨4, some "h4", none, false, [⟨"s1", 7, true, 1, [], [], []⟩]⟩]) = Except.ok db'
      ∧ [repeatingBlock, skippedSlot, repeatingBlock].foldlM (writeBlock .escapeFree) db'
          = Except.ok db' :=
  (reingestion_absorbed .escapeFree _ [repeatingBlock, skippedSlot]
    [repeatingBlock, skippedSlot, repeatingBlock] (by decide)).1

end Astralane
