import Mathlib.Data.List.Flatten
import Astralane.Db
import Astralane.Parser

/-!
# The block writer

`writer.rs`: one SQLite transaction per block, every row written with
`INSERT OR IGNORE`, children right after their parent. A failing statement
aborts the block and leaves the database as it was.

`writeBlock_eq` is the one fact the rest builds on: the interleaved loop never
fails and comes to one `insertAll` per table (`Db.ingest`), since the parent of
a child row exists whenever the child is inserted, be it older and clashing.
-/

namespace Astralane

variable (json : StringListJson)

/-! ## `write_block` -/

def ParsedBlock.blocksRow (b : ParsedBlock) : BlocksRow where
  slot := asI64 b.slot
  blockhash := b.blockhash
  blockTime := b.blockTime
  skipped := boolToInt b.skipped

def ParsedTransaction.transactionsRow (slot : Int) (t : ParsedTransaction) : TransactionsRow where
  signature := t.signature
  slot := slot
  txIndex := t.txIndex
  success := boolToInt t.success
  fee := t.fee
  programIds := json.toText t.programIds

def AccountLock.accountLocksRow (signature : String) (l : AccountLock) : AccountLocksRow where
  signature := signature
  accountPubkey := l.accountPubkey
  isWritable := boolToInt l.isWritable

def TokenBalanceRow.tokenBalancesRow (signature : String) (r : TokenBalanceRow) :
    TokenBalancesRow where
  signature := signature
  accountIndex := r.accountIndex
  mint := r.mint
  preAmount := r.preAmount
  postAmount := r.postAmount
  decimals := r.decimals

/-- The body of the loop over a block's transactions. -/
def writeTransaction (slot : Int) (db : Db) (txn : ParsedTransaction) : Except SqlError Db := do
  let db ← db.insertTransaction (txn.transactionsRow json slot)
  let db ← txn.accountLocks.foldlM
    (fun db lock => db.insertAccountLock (lock.accountLocksRow txn.signature)) db
  txn.tokenBalances.foldlM
    (fun db bal => db.insertTokenBalance (bal.tokenBalancesRow txn.signature)) db

def writeBlock (db : Db) (block : ParsedBlock) : Except SqlError Db :=
  block.transactions.foldlM (writeTransaction json (asI64 block.slot))
    (db.insertBlock block.blocksRow)

/-- The writer's loop over the blocks it receives: a failed write is reported
and the block dropped, its SQLite transaction rolled back. -/
def runBlocking (db : Db) (blocks : List ParsedBlock) : Db :=
  blocks.foldl
    (fun db block =>
      match writeBlock json db block with
      | .ok db' => db'
      | .error _ => db) db

/-! ## The rows of a block, table by table -/

namespace ParsedBlock

def transactionsRows (b : ParsedBlock) : List TransactionsRow :=
  b.transactions.map (·.transactionsRow json (asI64 b.slot))

def accountLocksRows (b : ParsedBlock) : List AccountLocksRow :=
  b.transactions.flatMap fun t => t.accountLocks.map (·.accountLocksRow t.signature)

def tokenBalancesRows (b : ParsedBlock) : List TokenBalancesRow :=
  b.transactions.flatMap fun t => t.tokenBalances.map (·.tokenBalancesRow t.signature)

end ParsedBlock

/-- What writing `bs` comes to: the rows of all blocks, in order, into each of
the four tables. -/
def Db.ingest (db : Db) (bs : List ParsedBlock) : Db :=
  { db with
    blocks := db.blocks.insertAll (bs.map (·.blocksRow))
    transactions := db.transactions.insertAll (bs.flatMap (·.transactionsRows json))
    accountLocks := db.accountLocks.insertAll (bs.flatMap (·.accountLocksRows))
    tokenBalances := db.tokenBalances.insertAll (bs.flatMap (·.tokenBalancesRows)) }

theorem Db.ingest_append (db : Db) (bs cs : List ParsedBlock) :
    db.ingest json (bs ++ cs) = (db.ingest json bs).ingest json cs := by
  simp only [Db.ingest, List.map_append, List.flatMap_append, Keyed.insertAll_append]

/-! ## The loops never fail -/

/-- A loop of inserts into one table, each of which succeeds whatever the table holds. -/
theorem foldlM_insertOrIgnore {α ρ κ σ ε : Type} [DecidableEq κ] {key : ρ → κ}
    (put : Keyed key → σ) (row : α → ρ) {step : σ → α → Except ε σ}
    (hstep : ∀ t a, step (put t) a = Except.ok (put (t.insertOrIgnore (row a)))) (l : List α)
    (t : Keyed key) : l.foldlM step (put t) = Except.ok (put (t.insertAll (l.map row))) := by
  induction l generalizing t with
  | nil => rfl
  | cons a l ih =>
      rw [List.foldlM_cons, hstep, Except.ok_bind]
      exact ih _

theorem insertAccountLocks_eq (signature : String) (locks : List AccountLock) (db : Db)
    (hparent : (db.transactions.find? signature).isSome) :
    locks.foldlM (fun db lock => db.insertAccountLock (lock.accountLocksRow signature)) db
      = Except.ok { db with
          accountLocks :=
            db.accountLocks.insertAll (locks.map (·.accountLocksRow signature)) } := by
  refine foldlM_insertOrIgnore (fun t => { db with accountLocks := t }) _ (fun t l => ?_) locks _
  rw [Db.insertAccountLock, show (l.accountLocksRow signature).signature = signature from rfl,
    hparent, insertOrIgnoreRef_of_parent]
  rfl

theorem insertTokenBalances_eq (signature : String) (bals : List TokenBalanceRow) (db : Db)
    (hparent : (db.transactions.find? signature).isSome) :
    bals.foldlM (fun db bal => db.insertTokenBalance (bal.tokenBalancesRow signature)) db
      = Except.ok { db with
          tokenBalances :=
            db.tokenBalances.insertAll (bals.map (·.tokenBalancesRow signature)) } := by
  refine foldlM_insertOrIgnore (fun t => { db with tokenBalances := t }) _ (fun t r => ?_) bals _
  rw [Db.insertTokenBalance, show (r.tokenBalancesRow signature).signature = signature from rfl,
    hparent, insertOrIgnoreRef_of_parent]
  rfl

/-- One transaction: its row, then its locks and balances, whose parent is now
there, either this row or the older one it was ignored for. -/
theorem writeTransaction_eq (slot : Int) (db : Db) (t : ParsedTransaction)
    (hparent : (db.blocks.find? slot).isSome) :
    writeTransaction json slot db t = Except.ok { db with
      transactions := db.transactions.insertOrIgnore (t.transactionsRow json slot)
      accountLocks :=
        db.accountLocks.insertAll (t.accountLocks.map (·.accountLocksRow t.signature))
      tokenBalances :=
        db.tokenBalances.insertAll (t.tokenBalances.map (·.tokenBalancesRow t.signature)) } := by
  have htxn : db.insertTransaction (t.transactionsRow json slot) = Except.ok
      { db with transactions := db.transactions.insertOrIgnore (t.transactionsRow json slot) } := by
    rw [Db.insertTransaction, show (t.transactionsRow json slot).slot = slot from rfl, hparent,
      insertOrIgnoreRef_of_parent]
    rfl
  have hsig : ((db.transactions.insertOrIgnore (t.transactionsRow json slot)).find?
      t.signature).isSome := by
    rw [Option.isSome_iff_ne_none]
    exact Keyed.find?_insertAll_mem db.transactions
      (List.mem_singleton_self (t.transactionsRow json slot))
  rw [writeTransaction, htxn, Except.ok_bind, insertAccountLocks_eq _ _ _ (by exact hsig),
    Except.ok_bind, insertTokenBalances_eq _ _ _ (by exact hsig)]

theorem writeTransactions_eq (slot : Int) (ts : List ParsedTransaction) (db : Db)
    (hparent : (db.blocks.find? slot).isSome) :
    ts.foldlM (writeTransaction json slot) db = Except.ok { db with
      transactions := db.transactions.insertAll (ts.map (·.transactionsRow json slot))
      accountLocks := db.accountLocks.insertAll
        (ts.flatMap fun t => t.accountLocks.map (·.accountLocksRow t.signature))
      tokenBalances := db.tokenBalances.insertAll
        (ts.flatMap fun t => t.tokenBalances.map (·.tokenBalancesRow t.signature)) } := by
  induction ts generalizing db with
  | nil => rfl
  | cons t ts ih =>
      rw [List.foldlM_cons, writeTransaction_eq json slot db t hparent, Except.ok_bind]
      refine (ih _ (by exact hparent)).trans ?_
      simp only [List.map_cons, List.flatMap_cons, Keyed.insertAll_cons, Keyed.insertAll_append]

/-- `write_block` succeeds on every block and every database, and amounts to
one insert sequence per table. -/
theorem writeBlock_eq (db : Db) (b : ParsedBlock) :
    writeBlock json db b = Except.ok (db.ingest json [b]) := by
  have hparent : ((db.insertBlock b.blocksRow).blocks.find? (asI64 b.slot)).isSome := by
    rw [Option.isSome_iff_ne_none]
    exact Keyed.find?_insertAll_mem db.blocks (List.mem_singleton_self b.blocksRow)
  rw [writeBlock, writeTransactions_eq json _ _ _ hparent]
  simp only [Db.ingest, Db.insertBlock, List.map_cons, List.map_nil, Keyed.insertAll_cons,
    Keyed.insertAll_nil, List.flatMap_cons, List.flatMap_nil, List.append_nil]
  rfl

theorem runBlocking_eq (db : Db) (bs : List ParsedBlock) :
    runBlocking json db bs = db.ingest json bs := by
  induction bs generalizing db with
  | nil => rfl
  | cons b bs ih =>
      rw [runBlocking, List.foldl_cons, writeBlock_eq]
      exact (ih _).trans (Db.ingest_append json db [b] bs).symm

theorem runBlocking_append (db : Db) (bs cs : List ParsedBlock) :
    runBlocking json db (bs ++ cs) = runBlocking json (runBlocking json db bs) cs := by
  rw [runBlocking, List.foldl_append]
  rfl

end Astralane
