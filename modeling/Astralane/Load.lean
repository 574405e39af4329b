import Mathlib.Data.List.Forall2
import Astralane.Ingest
import Astralane.StableSort

/-!
# Loading a block back

`load_block_transactions`: the rows of a slot under `ORDER BY tx_index`, and
the locks of the whole slot from a join without any order, put back together by
signature in a hash map whose entries are removed as they are used.

`loadBlockTransactions_eq` is its specification on a database whose signatures
are unique, as the primary key has it: one `Transaction` per row, each with the
arranged locks of its own signature. Everything after it reasons about rows.
-/

namespace Astralane

variable (json : StringListJson)

/-! ## `load_block_transactions` -/

/-- Where SQLite is free to choose: the order among rows of one `tx_index`, and
the order of the joined lock rows. -/
structure LoadOrder where
  transactions : IterOrder TransactionsRow
  locks : IterOrder (String × AccountLock)

def LoadOrder.stored : LoadOrder where
  transactions := .stored
  locks := .stored

def AccountLocksRow.lock (r : AccountLocksRow) : AccountLock where
  accountPubkey := r.accountPubkey
  isWritable := decide (r.isWritable ≠ 0)

/-- The first query, as far as it is determined: the rows without their order. -/
def Db.transactionsOf (db : Db) (slot : Int) : List TransactionsRow :=
  db.transactions.rows.filter fun t => t.slot = slot

/-- The second query: the locks joined with their transaction, by slot. -/
def Db.locksOf (db : Db) (slot : Int) : List (String × AccountLock) :=
  db.accountLocks.rows.flatMap fun l =>
    (db.transactions.rows.filter fun t => t.signature = l.signature && t.slot = slot).map
      fun _ => (l.signature, l.lock)

def TransactionsRow.transaction (r : TransactionsRow) : Transaction where
  signature := r.signature
  txIndex := r.txIndex
  programIds := (json.fromText r.programIds).getD []
  locks := []

/-- `locks_by_sig`, filled row by row. -/
def locksBySig (rows : List (String × AccountLock)) : EntryMap String (List AccountLock) :=
  rows.foldl (fun m row => m.entry row.1 [] (· ++ [row.2])) .empty

/-- The last loop: every transaction takes the entry of its signature out of
the map. -/
def attachLocks : EntryMap String (List AccountLock) → List Transaction → List Transaction
  | _, [] => []
  | locksBySig, txn :: rest =>
      match locksBySig.get? txn.signature with
      | some locks => { txn with locks } :: attachLocks (locksBySig.erase txn.signature) rest
      | none => txn :: attachLocks locksBySig rest

def loadBlockTransactions (ord : LoadOrder) (db : Db) (slot : Int) : List Transaction :=
  let transactions :=
    (sortByKey TransactionsRow.txIndex (ord.transactions.arrange (db.transactionsOf slot))).map
      (·.transaction json)
  attachLocks (locksBySig (ord.locks.arrange (db.locksOf slot))) transactions

/-! ## The reassembly -/

theorem get?_locksBySig (rows : List (String × AccountLock)) (signature : String) :
    ((locksBySig rows).get? signature).getD []
      = (rows.filter (·.1 = signature)).map (·.2) := by
  have happend : ∀ (l : List (String × AccountLock)) (init : List AccountLock),
      l.foldl (fun v row => v ++ [row.2]) init = init ++ l.map (·.2) := by
    intro l
    induction l with
    | nil => simp
    | cons row l ih => simp [ih]
  rw [locksBySig, Keyed.get?_foldl_entry Prod.fst]
  split
  · rename_i hnil
    rw [hnil]
    rfl
  · rw [happend]
    simp

/-- Removing an entry once used loses nothing while signatures are distinct. -/
theorem attachLocks_eq (m : EntryMap String (List AccountLock)) (ts : List Transaction)
    (hsig : (ts.map (·.signature)).Nodup) (hbare : ∀ t ∈ ts, t.locks = []) :
    attachLocks m ts = ts.map fun t => { t with locks := (m.get? t.signature).getD [] } := by
  induction ts generalizing m with
  | nil => rfl
  | cons t ts ih =>
      obtain ⟨ht, hsig'⟩ := List.nodup_cons.mp hsig
      have hbare' : ∀ u ∈ ts, u.locks = [] := fun u hu => hbare u (List.mem_cons_of_mem _ hu)
      rw [attachLocks, List.map_cons]
      cases hget : m.get? t.signature with
      | none =>
          have hown : ({ t with locks := [] } : Transaction) = t := by
            rw [← hbare t List.mem_cons_self]
          rw [Option.getD_none, hown]
          exact congrArg (t :: ·) (ih m hsig' hbare')
      | some locks =>
          refine congrArg ({ t with locks } :: ·) ((ih _ hsig' hbare').trans ?_)
          refine List.map_congr_left fun u hu => ?_
          have hne : t.signature ≠ u.signature :=
            fun heq => ht (List.mem_map.mpr ⟨u, hu, heq.symm⟩)
          rw [Keyed.get?_erase, if_neg hne]

/-- What the loader makes of one transaction row. -/
def loadedTransaction (ord : LoadOrder) (db : Db) (slot : Int) (r : TransactionsRow) :
    Transaction :=
  { r.transaction json with
    locks := ((ord.locks.arrange (db.locksOf slot)).filter (·.1 = r.signature)).map (·.2) }

theorem loadBlockTransactions_eq (ord : LoadOrder) (db : Db) (slot : Int) :
    loadBlockTransactions json ord db slot
      = (sortByKey TransactionsRow.txIndex (ord.transactions.arrange (db.transactionsOf slot))).map
          (loadedTransaction json ord db slot) := by
  have hperm : (sortByKey TransactionsRow.txIndex
      (ord.transactions.arrange (db.transactionsOf slot))).Perm (db.transactionsOf slot) :=
    (sortByKey_perm _ _).trans (ord.transactions.perm _)
  have hnodup : ((db.transactionsOf slot).map (·.signature)).Nodup :=
    (List.filter_sublist.map _).nodup db.transactions.nodup
  rw [loadBlockTransactions, attachLocks_eq]
  · rw [List.map_map]
    refine List.map_congr_left fun r _ => ?_
    simp only [Function.comp_apply, loadedTransaction, TransactionsRow.transaction,
      get?_locksBySig]
  · rw [List.map_map]
    exact (hperm.map _).nodup_iff.mpr hnodup
  · intro t ht
    obtain ⟨r, -, rfl⟩ := List.mem_map.mp ht
    rfl

/-- The lock rows stored under a signature. -/
def Db.locksUnder (db : Db) (signature : String) : List AccountLocksRow :=
  db.accountLocks.rows.filter fun l => l.signature = signature

/-- A row's locks are those stored under its signature: the join neither
repeats nor drops any, and the locks of other transactions stay out. -/
theorem loadedTransaction_locks (ord : LoadOrder) (db : Db) {slot : Int} {r : TransactionsRow}
    (hr : r ∈ db.transactions.rows) (hslot : r.slot = slot) :
    (loadedTransaction json ord db slot r).locks.Perm
      ((db.locksUnder r.signature).map (·.lock)) := by
  have hjoin : ∀ l : AccountLocksRow, l.signature = r.signature →
      (db.transactions.rows.filter fun t => t.signature = l.signature && t.slot = slot) = [r] := by
    intro l hl
    rw [Keyed.filter_rows_key, hl, Keyed.find?_eq_some.mpr ⟨hr, rfl⟩]
    simp [Option.filter, hslot]
  have hrows : ((db.locksOf slot).filter (·.1 = r.signature)).map (·.2)
      = (db.locksUnder r.signature).map (·.lock) := by
    rw [Db.locksOf, Db.locksUnder]
    induction db.accountLocks.rows with
    | nil => rfl
    | cons l ls ih =>
        rw [List.flatMap_cons, List.filter_append, List.map_append, ih, List.filter_cons]
        by_cases hl : l.signature = r.signature
        · rw [hjoin l hl]
          simp [hl]
        · simp [hl]
  rw [loadedTransaction, ← hrows]
  exact ((ord.locks.perm _).filter _).map _

/-! ## The transactions of a slot -/

/-- The transaction of a row: its programs decoded, and the locks stored under its
signature, in some order. -/
structure TransactionOf (db : Db) (r : TransactionsRow) (t : Transaction) : Prop where
  signature : t.signature = r.signature
  txIndex : t.txIndex = r.txIndex
  programIds : t.programIds = (json.fromText r.programIds).getD []
  locks : t.locks.Perm ((db.locksUnder r.signature).map (·.lock))

/-- One transaction for each row of the slot, by `tx_index`. -/
structure BlockTransactions (db : Db) (slot : Int) (txs : List Transaction) : Prop where
  rows : ∃ rows : List TransactionsRow,
    rows.Perm (db.transactions.rows.filter fun r => r.slot = slot)
      ∧ List.Forall₂ (TransactionOf json db) rows txs
  ascending : txs.Pairwise fun t u => t.txIndex ≤ u.txIndex

/-- On every database the loader returns such a list. -/
theorem blockTransactions_load (ord : LoadOrder) (db : Db) (slot : Int) :
    BlockTransactions json db slot (loadBlockTransactions json ord db slot) := by
  rw [loadBlockTransactions_eq]
  constructor
  · refine ⟨sortByKey TransactionsRow.txIndex (ord.transactions.arrange (db.transactionsOf slot)),
      (sortByKey_perm _ _).trans (ord.transactions.perm _), ?_⟩
    rw [List.forall₂_map_right_iff, List.forall₂_same]
    intro r hr
    have hstored := (ord.transactions.perm _).mem_iff.mp (mem_sortByKey.mp hr)
    obtain ⟨hmem, hslot⟩ := List.mem_filter.mp hstored
    exact ⟨rfl, rfl, rfl, loadedTransaction_locks json ord db hmem (of_decide_eq_true hslot)⟩
  · exact List.pairwise_map.mpr (sortByKey_sorted TransactionsRow.txIndex _)

/-! ## What was ingested is what is loaded -/

/-- What the chain guarantees of the blocks of a run: distinct slots, globally
distinct signatures, and distinct account keys within a transaction. -/
structure ChainBlocks (bs : List ParsedBlock) : Prop extends DisjointBlocks bs where
  within : ∀ b ∈ bs, (b.transactions.map (·.signature)).Nodup
  accounts : ∀ b ∈ bs, ∀ t ∈ b.transactions, (t.accountLocks.map (·.accountPubkey)).Nodup

variable {json} {bs ws : List ParsedBlock}

theorem ChainBlocks.eq_of_txn_signature (h : ChainBlocks bs) {b c : ParsedBlock} (hb : b ∈ bs)
    (hc : c ∈ bs) {t u : ParsedTransaction} (ht : t ∈ b.transactions) (hu : u ∈ c.transactions)
    (hsig : t.signature = u.signature) : b = c ∧ t = u := by
  obtain rfl := h.eq_of_signature hb hc ht hu hsig
  exact ⟨rfl, List.inj_on_of_nodup_map (h.within b hb) ht hu hsig⟩

/-- No transaction row is lost to an older one. -/
theorem mem_ingest_transactions (h : ChainBlocks bs) (hws : ∀ b ∈ ws, b ∈ bs)
    {r : TransactionsRow} :
    r ∈ (Db.empty.ingest json ws).transactions.rows
      ↔ ∃ b ∈ ws, ∃ t ∈ b.transactions, t.transactionsRow json (asI64 b.slot) = r := by
  have hmem : ∀ {r}, r ∈ ws.flatMap (·.transactionsRows json)
      ↔ ∃ b ∈ ws, ∃ t ∈ b.transactions, t.transactionsRow json (asI64 b.slot) = r := by
    intro r
    simp only [List.mem_flatMap, mem_transactionsRows]
  refine (Keyed.mem_insertAll_of_consistent fun r hr s hs hkey => ?_).trans hmem
  obtain ⟨b, hb, t, ht, rfl⟩ := hmem.mp hr
  obtain ⟨c, hc, u, hu, rfl⟩ := hmem.mp hs
  obtain ⟨rfl, rfl⟩ := h.eq_of_txn_signature (hws b hb) (hws c hc) ht hu hkey
  rfl

theorem mem_ingest_accountLocks (h : ChainBlocks bs) (hws : ∀ b ∈ ws, b ∈ bs)
    {r : AccountLocksRow} :
    r ∈ (Db.empty.ingest json ws).accountLocks.rows
      ↔ ∃ b ∈ ws, ∃ t ∈ b.transactions, ∃ l ∈ t.accountLocks,
          l.accountLocksRow t.signature = r := by
  have hmem : ∀ {r}, r ∈ ws.flatMap (·.accountLocksRows)
      ↔ ∃ b ∈ ws, ∃ t ∈ b.transactions, ∃ l ∈ t.accountLocks,
          l.accountLocksRow t.signature = r := by
    intro r
    simp only [ParsedBlock.accountLocksRows, List.mem_flatMap, List.mem_map]
  refine (Keyed.mem_insertAll_of_consistent fun r hr s hs hkey => ?_).trans hmem
  obtain ⟨b, hb, t, ht, l, hl, rfl⟩ := hmem.mp hr
  obtain ⟨c, hc, u, hu, m, hm, rfl⟩ := hmem.mp hs
  obtain ⟨rfl, rfl⟩ :=
    h.eq_of_txn_signature (hws b hb) (hws c hc) ht hu (congrArg Prod.fst hkey)
  obtain rfl := List.inj_on_of_nodup_map (h.accounts b (hws b hb) t ht) hl hm
    (congrArg Prod.snd hkey)
  rfl

/-- The rows of a slot are those of its block. -/
theorem transactionsOf_ingest (h : ChainBlocks bs) (hws : ∀ b ∈ ws, b ∈ bs) {b : ParsedBlock}
    (hb : b ∈ ws) :
    ((Db.empty.ingest json ws).transactionsOf (asI64 b.slot)).Perm (b.transactionsRows json) := by
  have hnodup : (b.transactionsRows json).Nodup := by
    have hkeys : (b.transactionsRows json).map (·.signature)
        = b.transactions.map (·.signature) := by
      rw [ParsedBlock.transactionsRows, List.map_map]
      rfl
    exact List.Nodup.of_map _ (hkeys ▸ h.within b (hws b hb))
  refine (List.perm_ext_iff_of_nodup ((Keyed.rows_nodup _).filter _) hnodup).mpr fun r => ?_
  rw [List.mem_filter, mem_ingest_transactions h hws, decide_eq_true_eq, mem_transactionsRows]
  constructor
  · rintro ⟨⟨c, hc, t, ht, rfl⟩, hslot⟩
    obtain rfl := h.eq_of_slot (hws c hc) (hws b hb) (asI64_inj.mp hslot)
    exact ⟨t, ht, rfl⟩
  · rintro ⟨t, ht, rfl⟩
    exact ⟨⟨b, hb, t, ht, rfl⟩, rfl⟩

theorem lock_accountLocksRow (signature : String) (l : AccountLock) :
    (l.accountLocksRow signature).lock = l :=
  congrArg (AccountLock.mk l.accountPubkey) (boolToInt_ne_zero l.isWritable)

/-- The locks stored under a signature are those its transaction was parsed with. -/
theorem locksUnder_ingest (h : ChainBlocks bs) (hws : ∀ b ∈ ws, b ∈ bs) {b : ParsedBlock}
    (hb : b ∈ ws) {t : ParsedTransaction} (ht : t ∈ b.transactions) :
    (((Db.empty.ingest json ws).locksUnder t.signature).map (·.lock)).Perm t.accountLocks := by
  have hnodup : (t.accountLocks.map (·.accountLocksRow t.signature)).Nodup := by
    refine List.Nodup.of_map (·.accountPubkey) ?_
    rw [List.map_map]
    exact h.accounts b (hws b hb) t ht
  have hperm : ((Db.empty.ingest json ws).locksUnder t.signature).Perm
      (t.accountLocks.map (·.accountLocksRow t.signature)) := by
    refine (List.perm_ext_iff_of_nodup ((Keyed.rows_nodup _).filter _) hnodup).mpr fun r => ?_
    rw [List.mem_filter, mem_ingest_accountLocks h hws, decide_eq_true_eq, List.mem_map]
    constructor
    · rintro ⟨⟨c, hc, u, hu, l, hl, rfl⟩, hsig⟩
      obtain ⟨rfl, rfl⟩ := h.eq_of_txn_signature (hws c hc) (hws b hb) hu ht hsig
      exact ⟨l, hl, rfl⟩
    · rintro ⟨l, hl, rfl⟩
      exact ⟨⟨b, hb, t, ht, l, hl, rfl⟩, rfl⟩
  refine (hperm.map _).trans (List.Perm.of_eq ?_)
  rw [List.map_map]
  exact List.map_id'' (lock_accountLocksRow t.signature) t.accountLocks

/-- A loaded transaction agrees with a parsed one, up to the order of the locks. -/
structure LoadedFrom (txn : Transaction) (t : ParsedTransaction) : Prop where
  signature : txn.signature = t.signature
  txIndex : txn.txIndex = t.txIndex
  programIds : txn.programIds = t.programIds
  locks : txn.locks.Perm t.accountLocks

theorem parseOutcome_sorted {slot : UInt64} {o : BlockFetchOutcome} {b : ParsedBlock}
    (h : parseOutcome slot o = some b) :
    b.transactions.Pairwise fun t u => t.txIndex < u.txIndex := by
  cases o with
  | skipped =>
      obtain rfl := Option.some.inj h
      exact List.Pairwise.nil
  | fetched v => exact parseBlock_sorted h
  | failed msg => nomatch h

/-- The loader returns the transactions of every block written, in the order of
the block and with their own programs and locks, whatever else was written and
whatever order SQLite answers in. -/
theorem loadBlockTransactions_ingested (ord : LoadOrder) (h : ChainBlocks bs)
    (hparsed : ∀ b ∈ bs, ∃ o, parseOutcome b.slot o = some b)
    (hjson : ∀ b ∈ bs, ∀ t ∈ b.transactions, json.RoundTrips t.programIds)
    (hws : ∀ b ∈ ws, b ∈ bs) (b : ParsedBlock) (hb : b ∈ ws) :
    List.Forall₂ LoadedFrom
      (loadBlockTransactions json ord (runBlocking json Db.empty ws) (asI64 b.slot))
      b.transactions := by
  have hsorted : sortByKey TransactionsRow.txIndex (ord.transactions.arrange
      ((Db.empty.ingest json ws).transactionsOf (asI64 b.slot))) = b.transactionsRows json := by
    obtain ⟨o, ho⟩ := hparsed b (hws b hb)
    refine sortByKey_eq_of_strict
      ((ord.transactions.perm _).trans (transactionsOf_ingest h hws hb)) ?_
    exact List.pairwise_map.mpr (parseOutcome_sorted ho)
  rw [runBlocking_eq, loadBlockTransactions_eq, hsorted, ParsedBlock.transactionsRows,
    List.map_map, List.forall₂_map_left_iff, List.forall₂_same]
  intro t ht
  refine ⟨rfl, rfl, ?_, ?_⟩
  · rw [Function.comp_apply, loadedTransaction, TransactionsRow.transaction,
      ParsedTransaction.transactionsRow, hjson b (hws b hb) t ht, Option.getD_some]
  · have hrow : t.transactionsRow json (asI64 b.slot)
        ∈ (Db.empty.ingest json ws).transactions.rows :=
      (mem_ingest_transactions h hws).mpr ⟨b, hb, t, ht, rfl⟩
    exact (loadedTransaction_locks json ord _ hrow rfl).trans (locksUnder_ingest h hws hb ht)

theorem loadBlockTransactions_ingested_raw :
    List.Forall₂ LoadedFrom
      (loadBlockTransactions .escapeFree .stored
        (runBlocking .escapeFree Db.empty [parsedBlock, skippedSlot, parsedBlock]) 5)
      parsedBlock.transactions :=
  loadBlockTransactions_ingested .stored
    (show ChainBlocks [skippedSlot, parsedBlock] from
      ⟨⟨by decide, by decide⟩, by decide, by decide⟩)
    (by
      intro b hb
      obtain rfl | hb := List.mem_cons.mp hb
      · exact ⟨.skipped, rfl⟩
      · obtain rfl := List.mem_singleton.mp hb
        exact ⟨.fetched rawBlock, by decide⟩)
    (by
      unfold StringListJson.RoundTrips
      decide)
    (by decide) parsedBlock (by decide)

end Astralane
