import Mathlib.Data.List.Dedup
import Mathlib.Data.List.Sort
import Mathlib.Data.String.Basic
import Astralane.Contention
import Astralane.Json
import Astralane.Keyed

/-!
# The block parser

`parser.rs`: from the raw block JSON of one slot to a `ParsedBlock`. A missing
or ill-typed piece aborts the block, drops one transaction or drops one entry,
depending on the closure its `?` stands in; each closure is a definition of its
own here, returning `none` where the source's `?` leaves it.

The sorted collections of the source are sorted lists: a `BTreeSet` is a
duplicate-free sorted list, a `BTreeMap` keeps the last value of a key.
-/

namespace Astralane

/-- What the fetcher hands over for a slot. -/
inductive BlockFetchOutcome where
  | skipped
  | fetched (block : Json)
  | failed (msg : String)

structure TokenBalanceRow where
  accountIndex : Int
  mint : String
  preAmount : String
  postAmount : String
  decimals : Int
deriving DecidableEq, Repr

structure ParsedTransaction where
  signature : String
  txIndex : Int
  success : Bool
  fee : Int
  programIds : List String
  accountLocks : List AccountLock
  tokenBalances : List TokenBalanceRow
deriving DecidableEq, Repr

structure ParsedBlock where
  slot : UInt64
  blockhash : Option String
  blockTime : Option Int
  skipped : Bool
  transactions : List ParsedTransaction
deriving DecidableEq, Repr

/-- The contents of a `BTreeSet` built from `l`, in its iteration order. -/
def btreeSet {α : Type*} [LinearOrder α] (l : List α) : List α :=
  l.dedup.insertionSort (· ≤ ·)

theorem mem_btreeSet {α : Type*} [LinearOrder α] {l : List α} {a : α} : a ∈ btreeSet l ↔ a ∈ l := by
  rw [btreeSet, (List.perm_insertionSort _ _).mem_iff, List.mem_dedup]

theorem btreeSet_strict {α : Type*} [LinearOrder α] (l : List α) :
    (btreeSet l).Pairwise (· < ·) := by
  have htotal : Std.Total fun a b : α => a ≤ b := ⟨le_total⟩
  have htrans : IsTrans α fun a b => a ≤ b := ⟨fun _ _ _ => le_trans⟩
  have hnd : (btreeSet l).Nodup := (List.perm_insertionSort _ _).nodup_iff.mpr l.nodup_dedup
  exact (List.pairwise_insertionSort _ l.dedup).imp₂ (fun _ _ => lt_of_le_of_ne) hnd

/-! ## Token balances -/

structure BalanceEntry where
  mint : String
  amount : String
  decimals : Int
deriving DecidableEq, Repr

def parseBalance (entry : Json) : Option (Int × BalanceEntry) := do
  let accountIndex ← (← entry.get? "accountIndex").asI64?
  let mint ← (← entry.get? "mint").asStr?
  let tokenAmount ← entry.get? "uiTokenAmount"
  let amount ← (← tokenAmount.get? "amount").asStr?
  let decimals ← (← tokenAmount.get? "decimals").asI64?
  some (accountIndex, { mint, amount, decimals })

/-- An absent or non-array `balances` yields the empty map. -/
def collectBalances (balances : Option Json) : EntryMap Int BalanceEntry :=
  Keyed.empty.replaceAll (((balances.bind Json.asArray?).getD []).filterMap parseBalance)

/-- The row of account index `idx`: the post entry decides mint and decimals,
and a missing side counts as the amount `"0"`. -/
def balanceRow (pre post : EntryMap Int BalanceEntry) (idx : Int) : Option TokenBalanceRow := do
  let preEntry := pre.get? idx
  let postEntry := post.get? idx
  let reference ← postEntry.or preEntry
  some
    { accountIndex := idx
      mint := reference.mint
      preAmount := (preEntry.map (·.amount)).getD "0"
      postAmount := (postEntry.map (·.amount)).getD "0"
      decimals := reference.decimals }

def parseTokenBalances (txMeta : Json) : List TokenBalanceRow :=
  let pre := collectBalances (txMeta.get? "preTokenBalances")
  let post := collectBalances (txMeta.get? "postTokenBalances")
  let indices := btreeSet (pre.rows.map (·.1) ++ post.rows.map (·.1))
  indices.filterMap (balanceRow pre post)

/-! ## Transactions and blocks -/

def parseProgramId (ix : Json) : Option String := do
  (← ix.get? "programId").asStr?

def parseLock (key : Json) : Option AccountLock := do
  some
    { accountPubkey := ← (← key.get? "pubkey").asStr?
      isWritable := ← (← key.get? "writable").asBool? }

def parseTransaction (txIndex : Int) (tx : Json) : Option ParsedTransaction := do
  let txMeta ← tx.get? "meta"
  let message ← (← tx.get? "transaction").get? "message"
  let signature ← (← (← (← tx.get? "transaction").get? "signatures").at? 0).asStr?
  let success := (← txMeta.get? "err").isNull
  let fee ← (← txMeta.get? "fee").asI64?
  let programIds := btreeSet ((← (← message.get? "instructions").asArray?).filterMap parseProgramId)
  let accountLocks := (← (← message.get? "accountKeys").asArray?).filterMap parseLock
  let tokenBalances := parseTokenBalances txMeta
  some { signature, txIndex, success, fee, programIds, accountLocks, tokenBalances }

def parseTransactions (txs : List Json) : List ParsedTransaction :=
  txs.zipIdx.filterMap fun (tx, i) => parseTransaction i tx

def parseBlock (slot : UInt64) (block : Json) : Option ParsedBlock := do
  let blockhash ← (← block.get? "blockhash").asStr?
  let blockTime := (block.get? "blockTime").bind Json.asI64?
  let transactions := parseTransactions (← (← block.get? "transactions").asArray?)
  some { slot, blockhash := some blockhash, blockTime, skipped := false, transactions }

/-- The body of the parser's loop: what it sends on for one received pair, if
anything. A failed fetch and an unexpected block shape are skipped. -/
def parseOutcome (slot : UInt64) : BlockFetchOutcome → Option ParsedBlock
  | .skipped =>
      some { slot, blockhash := none, blockTime := none, skipped := true, transactions := [] }
  | .failed _ => none
  | .fetched block => parseBlock slot block

/-! ## What the parser can emit

One inversion lemma per function; the `?`s of the source become the
equations of its existential. -/

theorem parseTransaction_eq_some {i : Int} {tx : Json} {t : ParsedTransaction} :
    parseTransaction i tx = some t ↔
      ∃ txMeta txn message signature err fee instructions accountKeys,
        tx.get? "meta" = some txMeta
          ∧ tx.get? "transaction" = some txn
          ∧ txn.get? "message" = some message
          ∧ ((txn.get? "signatures").bind (·.at? 0)).bind Json.asStr? = some signature
          ∧ txMeta.get? "err" = some err
          ∧ (txMeta.get? "fee").bind Json.asI64? = some fee
          ∧ (message.get? "instructions").bind Json.asArray? = some instructions
          ∧ (message.get? "accountKeys").bind Json.asArray? = some accountKeys
          ∧ t =
            { signature, txIndex := i, success := err.isNull, fee
              programIds := btreeSet (instructions.filterMap parseProgramId)
              accountLocks := accountKeys.filterMap parseLock
              tokenBalances := parseTokenBalances txMeta } := by
  constructor
  · intro h
    obtain ⟨txMeta, hmeta, h⟩ := Option.bind_eq_some_iff.mp h
    obtain ⟨txn, htxn, h⟩ := Option.bind_eq_some_iff.mp h
    obtain ⟨message, hmessage, h⟩ := Option.bind_eq_some_iff.mp h
    obtain ⟨txn', htxn', h⟩ := Option.bind_eq_some_iff.mp h
    obtain rfl := Option.some.inj (htxn.symm.trans htxn')
    obtain ⟨sigs, hsigs, h⟩ := Option.bind_eq_some_iff.mp h
    obtain ⟨sig, hsig, h⟩ := Option.bind_eq_some_iff.mp h
    obtain ⟨signature, hsignature, h⟩ := Option.bind_eq_some_iff.mp h
    obtain ⟨err, herr, h⟩ := Option.bind_eq_some_iff.mp h
    obtain ⟨feeJ, hfeeJ, h⟩ := Option.bind_eq_some_iff.mp h
    obtain ⟨fee, hfee, h⟩ := Option.bind_eq_some_iff.mp h
    obtain ⟨ixsJ, hixsJ, h⟩ := Option.bind_eq_some_iff.mp h
    obtain ⟨ixs, hixs, h⟩ := Option.bind_eq_some_iff.mp h
    obtain ⟨keysJ, hkeysJ, h⟩ := Option.bind_eq_some_iff.mp h
    obtain ⟨keys, hkeys, h⟩ := Option.bind_eq_some_iff.mp h
    obtain rfl := Option.some.inj h
    refine ⟨txMeta, txn, message, signature, err, fee, ixs, keys, hmeta, htxn, hmessage, ?_, herr,
      ?_, ?_, ?_, rfl⟩
    · rw [hsigs, Option.bind_some, hsig, Option.bind_some, hsignature]
    · rw [hfeeJ, Option.bind_some, hfee]
    · rw [hixsJ, Option.bind_some, hixs]
    · rw [hkeysJ, Option.bind_some, hkeys]
  · rintro ⟨txMeta, txn, message, signature, err, fee, ixs, keys, hmeta, htxn, hmessage,
      hsignature, herr, hfee, hixs, hkeys, rfl⟩
    obtain ⟨sig, hsig, hsignature⟩ := Option.bind_eq_some_iff.mp hsignature
    obtain ⟨sigs, hsigs, hsig⟩ := Option.bind_eq_some_iff.mp hsig
    obtain ⟨feeJ, hfeeJ, hfee⟩ := Option.bind_eq_some_iff.mp hfee
    obtain ⟨ixsJ, hixsJ, hixs⟩ := Option.bind_eq_some_iff.mp hixs
    obtain ⟨keysJ, hkeysJ, hkeys⟩ := Option.bind_eq_some_iff.mp hkeys
    simp only [parseTransaction, Option.bind_eq_bind, Option.bind_some, hmeta, htxn, hmessage,
      hsigs, hsig, hsignature, herr, hfeeJ, hfee, hixsJ, hixs, hkeysJ, hkeys]

theorem parseBlock_eq_some {slot : UInt64} {v : Json} {b : ParsedBlock} :
    parseBlock slot v = some b ↔
      ∃ blockhash txs,
        (v.get? "blockhash").bind Json.asStr? = some blockhash
          ∧ (v.get? "transactions").bind Json.asArray? = some txs
          ∧ b =
            { slot, blockhash := some blockhash
              blockTime := (v.get? "blockTime").bind Json.asI64?
              skipped := false, transactions := parseTransactions txs } := by
  simp only [parseBlock, Option.bind_eq_bind, Option.bind_eq_some_iff, Option.some.injEq]
  constructor
  · rintro ⟨hashJ, hhashJ, hash, hhash, txsJ, htxsJ, txs, htxs, rfl⟩
    exact ⟨hash, txs, ⟨hashJ, hhashJ, hhash⟩, ⟨txsJ, htxsJ, htxs⟩, rfl⟩
  · rintro ⟨hash, txs, ⟨hashJ, hhashJ, hhash⟩, ⟨txsJ, htxsJ, htxs⟩, rfl⟩
    exact ⟨hashJ, hhashJ, hash, hhash, txsJ, htxsJ, txs, htxs, rfl⟩

theorem parseTransaction_txIndex {i : Int} {v : Json} {t : ParsedTransaction}
    (h : parseTransaction i v = some t) : t.txIndex = i := by
  obtain ⟨_, _, _, _, _, _, _, _, -, -, -, -, -, -, -, -, rfl⟩ := parseTransaction_eq_some.mp h
  rfl

theorem parseOutcome_slot {slot : UInt64} {o : BlockFetchOutcome} {b : ParsedBlock}
    (h : parseOutcome slot o = some b) : b.slot = slot := by
  cases o with
  | skipped =>
      obtain rfl := Option.some.inj h
      rfl
  | fetched v =>
      obtain ⟨_, _, -, -, rfl⟩ := parseBlock_eq_some.mp h
      rfl
  | failed msg => nomatch h

/-- A block marked skipped is the skipped block of its slot. -/
theorem parseOutcome_skipped {slot : UInt64} {o : BlockFetchOutcome} {b : ParsedBlock}
    (h : parseOutcome slot o = some b) (hs : b.skipped = true) :
    b = { slot, blockhash := none, blockTime := none, skipped := true, transactions := [] } := by
  cases o with
  | skipped => exact (Option.some.inj h).symm
  | fetched v =>
      obtain ⟨_, _, -, -, rfl⟩ := parseBlock_eq_some.mp h
      nomatch hs
  | failed msg => nomatch h

theorem balanceRow_accountIndex {pre post : EntryMap Int BalanceEntry} {idx : Int}
    {row : TokenBalanceRow} (h : balanceRow pre post idx = some row) : row.accountIndex = idx := by
  obtain ⟨reference, -, hrow⟩ := Option.bind_eq_some_iff.mp h
  cases hrow
  rfl

theorem parseTokenBalances_ascending (txMeta : Json) :
    (parseTokenBalances txMeta).Pairwise fun a b => a.accountIndex < b.accountIndex := by
  unfold parseTokenBalances
  rw [List.pairwise_filterMap]
  refine (btreeSet_strict _).imp fun {i j} hij a ha b hb => ?_
  rw [balanceRow_accountIndex ha, balanceRow_accountIndex hb]
  exact hij

/-- Positions are taken before unusable elements are dropped, so they increase
strictly along the parsed transactions. -/
theorem parseTransactions_sorted (txs : List Json) :
    (parseTransactions txs).Pairwise fun t u => t.txIndex < u.txIndex := by
  rw [parseTransactions, List.pairwise_filterMap]
  have hidx : txs.zipIdx.Pairwise fun a b => a.2 < b.2 := by
    have h : (txs.zipIdx.map Prod.snd).Pairwise (· < ·) := by
      rw [List.zipIdx_map_snd]
      exact List.pairwise_lt_range'
    exact List.pairwise_map.mp h
  refine hidx.imp fun {a b} hab t ht u hu => ?_
  rw [parseTransaction_txIndex ht, parseTransaction_txIndex hu]
  exact Int.ofNat_lt.mpr hab

theorem parseBlock_sorted {slot : UInt64} {v : Json} {b : ParsedBlock}
    (h : parseBlock slot v = some b) :
    b.transactions.Pairwise fun t u => t.txIndex < u.txIndex := by
  obtain ⟨_, txs, -, -, rfl⟩ := parseBlock_eq_some.mp h
  exact parseTransactions_sorted txs

/-- The balances of the accounts that hold something before, or after. -/
def rawTokenBalances (amount : TokenBalanceRow → String) (balances : List TokenBalanceRow) : Json :=
  .arr ((balances.filter fun bal => amount bal ≠ "0").map fun bal => .obj
    [("accountIndex", .num (.int bal.accountIndex)), ("mint", .str bal.mint),
     ("uiTokenAmount", .obj
      [("amount", .str (amount bal)), ("decimals", .num (.int bal.decimals))])])

def rawTransaction (signature : String) (programIds : List String) (locks : List AccountLock)
    (balances : List TokenBalanceRow) : Json :=
  .obj
    [("meta", .obj
      [("err", .null), ("fee", .num (.int 5000)),
       ("preTokenBalances", rawTokenBalances (·.preAmount) balances),
       ("postTokenBalances", rawTokenBalances (·.postAmount) balances)]),
     ("transaction", .obj
      [("signatures", .arr [.str signature]),
       ("message", .obj
        [("instructions", .arr (programIds.map fun p => .obj [("programId", .str p)])),
         ("accountKeys", .arr (locks.map fun l =>
          .obj [("pubkey", .str l.accountPubkey), ("writable", .bool l.isWritable)]))])])]

/-- A token account is created, and 1 SOL paid for what it holds. -/
def swapBalances : List TokenBalanceRow :=
  [⟨0, "TOKEN", "0", "100000001", 6⟩,
   ⟨1, "So11111111111111111111111111111111111111112", "2000000000", "1000000000", 9⟩]

/-- A raw block of two usable transactions around an unusable one, and what the
parser makes of it. -/
def rawBlock : Json :=
  .obj
    [("blockhash", .str "h5"), ("blockTime", .num (.int 1000)),
     ("transactions", .arr
      [rawTransaction "s1" ["Q", "P", "Q"] [⟨"A", true⟩, ⟨"B", false⟩] [], .null,
       rawTransaction "s2" ["P"] [⟨"A", false⟩] swapBalances])]

def parsedBlock : ParsedBlock :=
  ⟨5, some "h5", some 1000, false,
    [⟨"s1", 0, true, 5000, ["P", "Q"], [⟨"A", true⟩, ⟨"B", false⟩], []⟩,
     ⟨"s2", 2, true, 5000, ["P"], [⟨"A", false⟩], swapBalances⟩]⟩

example : parseBlock 5 rawBlock = some parsedBlock := by decide

end Astralane
