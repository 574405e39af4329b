import Astralane.Parser
import Astralane.Selection

/-!
# The grammar of blocks

What `parse_block` accepts and what it makes of it, as relations on JSON values
that mention neither an accessor nor a `?`. A value lacks the shape of a block,
an element that of a transaction, an entry that of a lock, an instruction or a
balance: each costs exactly what it is part of, and nothing beside it.
-/

namespace Astralane

/-! ## Entries of a transaction -/

structure LockShape (key : Json) (lock : AccountLock) : Prop where
  pubkey : key.get? "pubkey" = some (.str lock.accountPubkey)
  writable : key.get? "writable" = some (.bool lock.isWritable)

/-- A usable entry of a balance array, for the account at `idx`. -/
structure BalanceShape (entry : Json) (idx : Int) : Prop where
  accountIndex : ∃ v, entry.get? "accountIndex" = some v ∧ v.IsI64 idx
  mint : ∃ mint, entry.get? "mint" = some (.str mint)
  tokenAmount : ∃ tokenAmount amount v decimals, entry.get? "uiTokenAmount" = some tokenAmount
    ∧ tokenAmount.get? "amount" = some (.str amount)
    ∧ tokenAmount.get? "decimals" = some v ∧ v.IsI64 decimals

theorem parseLock_eq_some {key : Json} {lock : AccountLock} :
    parseLock key = some lock ↔ LockShape key lock := by
  have hbind : parseLock key = some lock ↔
      ∃ pubkey, (key.get? "pubkey").bind Json.asStr? = some pubkey
        ∧ ∃ writable, (key.get? "writable").bind Json.asBool? = some writable
          ∧ ⟨pubkey, writable⟩ = lock := by
    simp only [parseLock, Option.bind_eq_bind, Option.bind_eq_some_iff, Option.some.injEq]
    constructor
    · rintro ⟨p, hp, s, hs, w, hw, b, hb, rfl⟩
      exact ⟨s, ⟨p, hp, hs⟩, b, ⟨w, hw, hb⟩, rfl⟩
    · rintro ⟨s, ⟨p, hp, hs⟩, b, ⟨w, hw, hb⟩, rfl⟩
      exact ⟨p, hp, s, hs, w, hw, b, hb, rfl⟩
  rw [hbind]
  simp only [Json.bind_asStr?_eq_some, Json.bind_asBool?_eq_some]
  constructor
  · rintro ⟨pubkey, hpubkey, writable, hwritable, rfl⟩
    exact ⟨hpubkey, hwritable⟩
  · rintro ⟨hpubkey, hwritable⟩
    exact ⟨_, hpubkey, _, hwritable, rfl⟩

theorem parseProgramId_eq_some {ix : Json} {programId : String} :
    parseProgramId ix = some programId ↔ ix.get? "programId" = some (.str programId) :=
  Json.bind_asStr?_eq_some

theorem parseBalance_iff {entry : Json} {idx : Int} :
    (∃ e, parseBalance entry = some (idx, e)) ↔ BalanceShape entry idx := by
  simp only [parseBalance, Option.bind_eq_bind, Option.bind_eq_some_iff, Option.some.injEq,
    Prod.mk.injEq, Json.asI64?_eq_some, Json.asStr?_eq_some]
  constructor
  · rintro ⟨_, i, hi, _, hidx, m, hm, mint, rfl, ui, hui, a, ha, amount, rfl, d, hd, decimals,
      hdecimals, rfl, -⟩
    exact ⟨⟨i, hi, hidx⟩, ⟨mint, hm⟩, ui, amount, d, decimals, hui, ha, hd, hdecimals⟩
  · rintro ⟨⟨i, hi, hidx⟩, ⟨mint, hm⟩, ui, amount, d, decimals, hui, ha, hd, hdecimals⟩
    exact ⟨_, i, hi, idx, hidx, _, hm, mint, rfl, ui, hui, _, ha, amount, rfl, d, hd, decimals,
      hdecimals, rfl, rfl⟩

/-- An account index that has a usable entry in the array under `name`. -/
def BalanceListed (txMeta : Json) (name : String) (idx : Int) : Prop :=
  ∃ entries, txMeta.get? name = some (.arr entries) ∧ ∃ entry ∈ entries, BalanceShape entry idx

theorem mem_collectBalances {txMeta : Json} {name : String} {idx : Int} :
    idx ∈ (collectBalances (txMeta.get? name)).rows.map (·.1)
      ↔ BalanceListed txMeta name idx := by
  have hkeys : idx ∈ (collectBalances (txMeta.get? name)).rows.map (·.1) ↔
      ∃ entry ∈ ((txMeta.get? name).bind Json.asArray?).getD [], BalanceShape entry idx := by
    rw [collectBalances, Keyed.mem_keys_replaceAll, List.mem_map]
    constructor
    · rintro ⟨⟨_, e⟩, he, rfl⟩
      obtain ⟨entry, hentry, hparse⟩ := List.mem_filterMap.mp he
      exact ⟨entry, hentry, parseBalance_iff.mp ⟨e, hparse⟩⟩
    · rintro ⟨entry, hentry, hshape⟩
      obtain ⟨e, hparse⟩ := parseBalance_iff.mpr hshape
      exact ⟨(idx, e), List.mem_filterMap.mpr ⟨entry, hentry, hparse⟩, rfl⟩
  rw [hkeys, BalanceListed]
  cases harray : (txMeta.get? name).bind Json.asArray? with
  | none =>
      constructor
      · rintro ⟨entry, hentry, -⟩
        cases hentry
      · rintro ⟨entries, hentries, -⟩
        rw [Json.bind_asArray?_eq_some.mpr hentries] at harray
        cases harray
  | some entries =>
      rw [Json.bind_asArray?_eq_some] at harray
      rw [harray]
      constructor
      · exact fun hentry => ⟨entries, rfl, hentry⟩
      · rintro ⟨entries', hentries, hentry⟩
        cases hentries
        exact hentry

theorem exists_balanceRow {pre post : EntryMap Int BalanceEntry} {idx : Int}
    (h : idx ∈ pre.rows.map (·.1) ∨ idx ∈ post.rows.map (·.1)) :
    ∃ row, balanceRow pre post idx = some row := by
  have hsome : ((post.get? idx).or (pre.get? idx)).isSome = true := by
    rw [Option.isSome_or, Bool.or_eq_true, Keyed.get?, Keyed.get?, Option.isSome_map,
      Option.isSome_map, Option.isSome_iff_exists, Option.isSome_iff_exists]
    exact h.symm.imp Keyed.mem_keys_iff.mp Keyed.mem_keys_iff.mp
  obtain ⟨reference, href⟩ := Option.isSome_iff_exists.mp hsome
  exact ⟨_, Option.bind_eq_some_iff.mpr ⟨reference, href, rfl⟩⟩

/-- The rows are of the account indices with a usable entry in either array. -/
theorem mem_parseTokenBalances {txMeta : Json} {idx : Int} :
    idx ∈ (parseTokenBalances txMeta).map (·.accountIndex)
      ↔ BalanceListed txMeta "preTokenBalances" idx
        ∨ BalanceListed txMeta "postTokenBalances" idx := by
  rw [← mem_collectBalances, ← mem_collectBalances, List.mem_map]
  constructor
  · rintro ⟨row, hrow, rfl⟩
    obtain ⟨i, hi, hparse⟩ := List.mem_filterMap.mp hrow
    rw [balanceRow_accountIndex hparse]
    exact List.mem_append.mp (mem_btreeSet.mp hi)
  · intro h
    obtain ⟨row, hrow⟩ := exists_balanceRow h
    refine ⟨row, List.mem_filterMap.mpr ⟨idx, ?_, hrow⟩, balanceRow_accountIndex hrow⟩
    exact mem_btreeSet.mpr (List.mem_append.mpr h)

/-! ## Transactions -/

/-- The shape of a transaction, with what is read from it. -/
structure TransactionShape (tx txMeta err : Json) (fee : Int) (signature : String)
    (instructions accountKeys : List Json) : Prop where
  txMeta_eq : tx.get? "meta" = some txMeta
  err_eq : txMeta.get? "err" = some err
  fee_eq : ∃ v, txMeta.get? "fee" = some v ∧ v.IsI64 fee
  transaction : ∃ txn message others, tx.get? "transaction" = some txn
    ∧ txn.get? "signatures" = some (.arr (.str signature :: others))
    ∧ txn.get? "message" = some message
    ∧ message.get? "instructions" = some (.arr instructions)
    ∧ message.get? "accountKeys" = some (.arr accountKeys)

def Acceptable (tx : Json) : Prop :=
  ∃ txMeta err fee signature instructions accountKeys,
    TransactionShape tx txMeta err fee signature instructions accountKeys

/-- What becomes of the parts of a transaction that are not copied. -/
structure PartsRead (txMeta err : Json) (instructions accountKeys : List Json)
    (t : ParsedTransaction) : Prop where
  success : t.success = true ↔ err = .null
  programIds_ascending : t.programIds.Pairwise (· < ·)
  programIds : ∀ programId, programId ∈ t.programIds
    ↔ ∃ ix ∈ instructions, ix.get? "programId" = some (.str programId)
  accountLocks : Selects (fun key => ∃ lock, LockShape key lock) LockShape accountKeys
    t.accountLocks
  tokenBalances_ascending : (t.tokenBalances.map (·.accountIndex)).Pairwise (· < ·)
  tokenBalances : ∀ idx, idx ∈ t.tokenBalances.map (·.accountIndex)
    ↔ BalanceListed txMeta "preTokenBalances" idx ∨ BalanceListed txMeta "postTokenBalances" idx

/-- `t` is what is read from `tx` at position `i`. -/
def TransactionRead (tx : Json) (i : Nat) (t : ParsedTransaction) : Prop :=
  t.txIndex = i ∧ ∃ txMeta err instructions accountKeys,
    TransactionShape tx txMeta err t.fee t.signature instructions accountKeys
      ∧ PartsRead txMeta err instructions accountKeys t

theorem firstSignature_eq_some {txn : Json} {signature : String} :
    ((txn.get? "signatures").bind (·.at? 0)).bind Json.asStr? = some signature
      ↔ ∃ others, txn.get? "signatures" = some (.arr (.str signature :: others)) := by
  rw [Json.bind_asStr?_eq_some, Option.bind_eq_some_iff]
  constructor
  · rintro ⟨v, hv, hfirst⟩
    rw [hv]
    rcases v with _ | _ | _ | _ | (_ | ⟨first, others⟩) | _
    case arr.cons =>
      obtain rfl := Option.some.inj hfirst
      exact ⟨others, rfl⟩
    all_goals cases hfirst
  · rintro ⟨others, hothers⟩
    exact ⟨_, hothers, rfl⟩

theorem parseTransaction_iff {i : Int} {tx : Json} {t : ParsedTransaction} :
    parseTransaction i tx = some t ↔
      ∃ txMeta err fee signature instructions accountKeys,
        TransactionShape tx txMeta err fee signature instructions accountKeys
          ∧ t =
            { signature, txIndex := i, success := err.isNull, fee
              programIds := btreeSet (instructions.filterMap parseProgramId)
              accountLocks := accountKeys.filterMap parseLock
              tokenBalances := parseTokenBalances txMeta } := by
  rw [parseTransaction_eq_some]
  simp only [firstSignature_eq_some, Json.bind_asI64?_eq_some, Json.bind_asArray?_eq_some]
  constructor
  · rintro ⟨txMeta, txn, message, signature, err, fee, ixs, keys, hmeta, htxn, hmessage,
      ⟨others, hsig⟩, herr, hfee, hixs, hkeys, rfl⟩
    exact ⟨txMeta, err, fee, signature, ixs, keys,
      ⟨hmeta, herr, hfee, txn, message, others, htxn, hsig, hmessage, hixs, hkeys⟩, rfl⟩
  · rintro ⟨txMeta, err, fee, signature, ixs, keys,
      ⟨hmeta, herr, hfee, txn, message, others, htxn, hsig, hmessage, hixs, hkeys⟩, rfl⟩
    exact ⟨txMeta, txn, message, signature, err, fee, ixs, keys, hmeta, htxn, hmessage,
      ⟨others, hsig⟩, herr, hfee, hixs, hkeys, rfl⟩

theorem acceptable_iff {i : Int} {tx : Json} :
    Acceptable tx ↔ ∃ t, parseTransaction i tx = some t := by
  constructor
  · rintro ⟨txMeta, err, fee, signature, ixs, keys, hshape⟩
    exact ⟨_, parseTransaction_iff.mpr ⟨txMeta, err, fee, signature, ixs, keys, hshape, rfl⟩⟩
  · rintro ⟨t, ht⟩
    obtain ⟨txMeta, err, fee, signature, ixs, keys, hshape, -⟩ := parseTransaction_iff.mp ht
    exact ⟨txMeta, err, fee, signature, ixs, keys, hshape⟩

theorem transactionRead_of_parse {i : Nat} {tx : Json} {t : ParsedTransaction}
    (h : parseTransaction i tx = some t) : TransactionRead tx i t := by
  obtain ⟨txMeta, err, fee, signature, ixs, keys, hshape, rfl⟩ := parseTransaction_iff.mp h
  refine ⟨rfl, txMeta, err, ixs, keys, hshape, ?_⟩
  exact
    { success := Json.isNull_eq_true
      programIds_ascending := btreeSet_strict _
      programIds := fun programId => by
        rw [mem_btreeSet, List.mem_filterMap]
        exact exists_congr fun ix => and_congr_right fun _ => parseProgramId_eq_some
      accountLocks := selects_filterMap (f := parseLock)
        (fun _ => exists_congr fun _ => parseLock_eq_some.symm)
        (fun _ _ => parseLock_eq_some.mp) keys
      tokenBalances_ascending := List.pairwise_map.mpr (parseTokenBalances_ascending txMeta)
      tokenBalances := fun _ => mem_parseTokenBalances }

/-! ## Blocks -/

def BlockShape (v : Json) : Prop :=
  (∃ blockhash, v.get? "blockhash" = some (.str blockhash))
    ∧ ∃ txs, v.get? "transactions" = some (.arr txs)

/-- `b` is what is read from `v`: of its transactions those of the grammar, each
with its position. -/
structure BlockRead (slot : UInt64) (v : Json) (b : ParsedBlock) : Prop where
  slot_eq : b.slot = slot
  skipped : b.skipped = false
  blockhash : ∃ blockhash, v.get? "blockhash" = some (.str blockhash)
    ∧ b.blockhash = some blockhash
  blockTime : ∀ time, b.blockTime = some time ↔ ∃ w, v.get? "blockTime" = some w ∧ w.IsI64 time
  transactions : ∃ txs, v.get? "transactions" = some (.arr txs)
    ∧ Selects (fun p => Acceptable p.1) (fun p t => TransactionRead p.1 p.2 t) txs.zipIdx
      b.transactions
  ascending : b.transactions.Pairwise fun t u => t.txIndex < u.txIndex

/-- The block with `t` at position `i`, or nothing there. -/
def ParsedBlock.withTransaction (b : ParsedBlock) (i : Nat) (t : Option ParsedTransaction) :
    ParsedBlock :=
  { b with
    transactions := b.transactions.filter (fun u => u.txIndex < (i : Int)) ++ t.toList
      ++ b.transactions.filter (fun u => (i : Int) < u.txIndex) }

structure ReadsGrammar (slot : UInt64) (v : Json) : Prop where
  accepts : (∃ b, parseBlock slot v = some b) ↔ BlockShape v
  reads : ∀ b, parseBlock slot v = some b → BlockRead slot v b
  contains : ∀ txs i x, v.get? "transactions" = some (.arr txs) → i < txs.length →
    parseBlock slot (v.modify "transactions" fun w => w.setElem i x)
      = (parseBlock slot v).map fun b => b.withTransaction i (parseTransaction i x)

theorem parseTransactions_set {txs : List Json} {i : Nat} (hi : i < txs.length) (x : Json) :
    parseTransactions (txs.set i x)
      = (parseTransactions txs).filter (fun u => u.txIndex < (i : Int))
        ++ (parseTransaction i x).toList
        ++ (parseTransactions txs).filter (fun u => (i : Int) < u.txIndex) :=
  filterMap_zipIdx_set (f := fun p => parseTransaction p.2 p.1)
    (fun _ _ _ h => parseTransaction_txIndex h) hi x

theorem parseBlock_iff {slot : UInt64} {v : Json} {b : ParsedBlock} :
    parseBlock slot v = some b ↔
      ∃ blockhash txs, v.get? "blockhash" = some (.str blockhash)
        ∧ v.get? "transactions" = some (.arr txs)
        ∧ b =
          { slot, blockhash := some blockhash
            blockTime := (v.get? "blockTime").bind Json.asI64?
            skipped := false, transactions := parseTransactions txs } := by
  rw [parseBlock_eq_some]
  simp only [Json.bind_asStr?_eq_some, Json.bind_asArray?_eq_some]

/-- On every JSON value the parser accepts its grammar and no more, reads what the
grammar says, and lets one element of the block change nothing but its own
transaction. -/
theorem parseBlock_grammar (slot : UInt64) (v : Json) : ReadsGrammar slot v := by
  refine ⟨?_, ?_, ?_⟩
  · constructor
    · rintro ⟨b, hb⟩
      obtain ⟨blockhash, txs, hhash, htxs, -⟩ := parseBlock_iff.mp hb
      exact ⟨⟨blockhash, hhash⟩, txs, htxs⟩
    · rintro ⟨⟨blockhash, hhash⟩, txs, htxs⟩
      exact ⟨_, parseBlock_iff.mpr ⟨blockhash, txs, hhash, htxs, rfl⟩⟩
  · intro b hb
    obtain ⟨blockhash, txs, hhash, htxs, rfl⟩ := parseBlock_iff.mp hb
    refine ⟨rfl, rfl, ⟨blockhash, hhash, rfl⟩, fun _ => Json.bind_asI64?_eq_some, ⟨txs, htxs, ?_⟩,
      parseTransactions_sorted txs⟩
    exact selects_filterMap (fun p => acceptable_iff) (fun p t => transactionRead_of_parse)
      txs.zipIdx
  · intro txs i x htxs hi
    have hset : (v.modify "transactions" fun w => w.setElem i x).get? "transactions"
        = some (.arr (txs.set i x)) := by
      rw [Json.get?_modify_self, htxs]
      rfl
    have hhash := Json.get?_modify_of_ne v (fun w => w.setElem i x)
      (show "blockhash" ≠ "transactions" by decide)
    have htime := Json.get?_modify_of_ne v (fun w => w.setElem i x)
      (show "blockTime" ≠ "transactions" by decide)
    refine Option.ext fun b => ?_
    rw [parseBlock_iff, hset, hhash, htime, Option.map_eq_some_iff]
    constructor
    · rintro ⟨blockhash, txs', hblockhash, harr, rfl⟩
      cases harr
      refine ⟨_, parseBlock_iff.mpr ⟨blockhash, txs, hblockhash, htxs, rfl⟩, ?_⟩
      rw [parseTransactions_set hi]
      rfl
    · rintro ⟨b', hb', rfl⟩
      obtain ⟨blockhash, txs', hblockhash, harr, rfl⟩ := parseBlock_iff.mp hb'
      rw [htxs] at harr
      cases harr
      refine ⟨blockhash, txs.set i x, hblockhash, rfl, ?_⟩
      rw [parseTransactions_set hi]
      rfl

end Astralane
