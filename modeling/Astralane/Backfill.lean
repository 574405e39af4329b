import Astralane.Load

/-!
# The `tx_index` backfill

`backfill_order.rs`: for every stored block that is not skipped, fetch the
signatures alone and set each transaction's index to the place of its signature.

The parser numbers the elements of a block before it drops the unusable ones,
the backfill after. The two agree on a stored transaction exactly when nothing
but strings stands before its signature in the response
(`length_strings_eq_iff`).

An `UPDATE` changes rows in place, so the whole run is one map over the rows
(`backfillOrder_eq`), in which each row meets the response for its own slot.
-/

namespace Astralane

/-! ## The program -/

/-- `UPDATE transactions SET tx_index = ?1 WHERE signature = ?2 AND slot = ?3`,
at one row. -/
def TransactionsRow.reindexed (slot : Int) (entry : String × Nat) (r : TransactionsRow) :
    TransactionsRow :=
  if r.signature = entry.1 ∧ r.slot = slot then { r with txIndex := entry.2 } else r

theorem TransactionsRow.reindexed_signature (slot : Int) (entry : String × Nat)
    (r : TransactionsRow) : (r.reindexed slot entry).signature = r.signature := by
  unfold TransactionsRow.reindexed
  split <;> rfl

theorem TransactionsRow.reindexed_slot (slot : Int) (entry : String × Nat)
    (r : TransactionsRow) : (r.reindexed slot entry).slot = r.slot := by
  unfold TransactionsRow.reindexed
  split <;> rfl

def Db.mapTransactions (db : Db) (f : TransactionsRow → TransactionsRow)
    (hf : ∀ r, (f r).signature = r.signature) : Db :=
  { db with transactions := db.transactions.update f hf }

def Db.updateTxIndex (slot : Int) (db : Db) (entry : String × Nat) : Db :=
  db.mapTransactions (TransactionsRow.reindexed slot entry)
    (TransactionsRow.reindexed_signature slot entry)

/-- The loop over the signatures of one block. -/
def backfillSignatures (slot : Int) (db : Db) (signatures : List String) : Db :=
  signatures.zipIdx.foldl (Db.updateTxIndex slot) db

/-- The signatures of a response: elements that are not strings are dropped. A
skipped or failed fetch and a response of another shape have none. -/
def responseSignatures : BlockFetchOutcome → Option (List String)
  | .fetched v =>
      ((v.get? "signatures").bind Json.asArray?).map fun arr => arr.filterMap Json.asStr?
  | .skipped => none
  | .failed _ => none

/-- The body of the loop over the stored blocks. -/
def backfillBlock (answer : UInt64 → BlockFetchOutcome) (db : Db) (slot : Int) : Db :=
  match responseSignatures (answer (asU64 slot)) with
  | some signatures => backfillSignatures slot db signatures
  | none => db

/-- `SELECT slot FROM blocks WHERE skipped = 0 ORDER BY slot`. -/
def backfillSlots (db : Db) : List Int :=
  (sortByKey BlocksRow.slot (db.blocks.rows.filter fun b => b.skipped = 0)).map (·.slot)

def backfillOrder (answer : UInt64 → BlockFetchOutcome) (db : Db) : Db :=
  (backfillSlots db).foldl (backfillBlock answer) db

/-! ## Row by row -/

theorem mapTransactions_eq_self {db : Db} {f : TransactionsRow → TransactionsRow}
    (hf : ∀ r, (f r).signature = r.signature) :
    db.mapTransactions f hf = db ↔ ∀ r ∈ db.transactions.rows, f r = r := by
  rw [← Keyed.update_eq_self (t := db.transactions) hf]
  constructor
  · exact fun h => congrArg Db.transactions h
  · intro h
    unfold Db.mapTransactions
    rw [h]

/-- A column that no update touches. -/
theorem foldl_column {β γ : Type} {column : TransactionsRow → γ}
    {g : β → TransactionsRow → TransactionsRow} (hg : ∀ x r, column (g x r) = column r)
    (xs : List β) (r : TransactionsRow) : column (xs.foldl (fun r x => g x r) r) = column r := by
  induction xs generalizing r with
  | nil => rfl
  | cons x xs ih => exact (ih (g x r)).trans (hg x r)

/-- A sequence of updates, one by one over the table, is one update by the
sequence at each row. -/
theorem foldl_mapTransactions {β : Type} {step : Db → β → Db}
    {g : β → TransactionsRow → TransactionsRow} (hg : ∀ x r, (g x r).signature = r.signature)
    (hstep : ∀ db x, step db x = db.mapTransactions (g x) (hg x)) (xs : List β) (db : Db) :
    xs.foldl step db
      = db.mapTransactions (fun r => xs.foldl (fun r x => g x r) r) (foldl_column hg xs) := by
  induction xs generalizing db with
  | nil => exact ((mapTransactions_eq_self _).mpr fun r _ => rfl).symm
  | cons x xs ih =>
      rw [List.foldl_cons, ih, hstep]
      unfold Db.mapTransactions
      simp only [Keyed.update_update]
      rfl

/-- What the signatures of a response for `slot` make of a row. -/
def TransactionsRow.backfilled (slot : Int) (signatures : List String) (r : TransactionsRow) :
    TransactionsRow :=
  signatures.zipIdx.foldl (fun r entry => r.reindexed slot entry) r

theorem TransactionsRow.backfilled_signature (slot : Int) (signatures : List String)
    (r : TransactionsRow) : (r.backfilled slot signatures).signature = r.signature :=
  foldl_column (TransactionsRow.reindexed_signature slot) _ r

theorem backfillSignatures_eq (slot : Int) (db : Db) (signatures : List String) :
    backfillSignatures slot db signatures
      = db.mapTransactions (TransactionsRow.backfilled slot signatures)
          (TransactionsRow.backfilled_signature slot signatures) :=
  foldl_mapTransactions (TransactionsRow.reindexed_signature slot) (fun _ _ => rfl) _ db

/-- What the answer for `slot` makes of a row. -/
def TransactionsRow.answered (answer : UInt64 → BlockFetchOutcome) (slot : Int)
    (r : TransactionsRow) : TransactionsRow :=
  match responseSignatures (answer (asU64 slot)) with
  | some signatures => r.backfilled slot signatures
  | none => r

theorem TransactionsRow.answered_signature (answer : UInt64 → BlockFetchOutcome) (slot : Int)
    (r : TransactionsRow) : (r.answered answer slot).signature = r.signature := by
  unfold TransactionsRow.answered
  split
  · exact TransactionsRow.backfilled_signature ..
  · rfl

theorem backfillBlock_eq (answer : UInt64 → BlockFetchOutcome) (db : Db) (slot : Int) :
    backfillBlock answer db slot
      = db.mapTransactions (TransactionsRow.answered answer slot)
          (TransactionsRow.answered_signature answer slot) := by
  cases h : responseSignatures (answer (asU64 slot)) with
  | none =>
      have hself : ∀ r ∈ db.transactions.rows, r.answered answer slot = r := by
        intro r _
        rw [TransactionsRow.answered, h]
      rw [backfillBlock, h, (mapTransactions_eq_self _).mpr hself]
  | some signatures =>
      have hrow : TransactionsRow.answered answer slot
          = TransactionsRow.backfilled slot signatures := by
        funext r
        rw [TransactionsRow.answered, h]
      simp only [backfillBlock, h, backfillSignatures_eq, hrow]

/-! ## One row -/

/-- A row is left alone by a response for another slot, and by one that does not
list its signature. -/
theorem backfilled_of_not_listed {slot : Int} {entries : List (String × Nat)} {r : TransactionsRow}
    (h : ∀ entry ∈ entries, ¬(r.signature = entry.1 ∧ r.slot = slot)) :
    entries.foldl (fun r entry => r.reindexed slot entry) r = r := by
  induction entries with
  | nil => rfl
  | cons entry entries ih =>
      have hhead : r.reindexed slot entry = r := if_neg (h entry List.mem_cons_self)
      rw [List.foldl_cons, hhead]
      exact ih fun e he => h e (List.mem_cons_of_mem entry he)

/-- A row takes the place of its signature, the signatures being distinct. -/
theorem backfilled_of_listed {slot : Int} {signatures : List String} (hnd : signatures.Nodup)
    {r : TransactionsRow} (hslot : r.slot = slot) {n : Nat}
    (hn : signatures[n]? = some r.signature) :
    r.backfilled slot signatures = { r with txIndex := n } := by
  have hoffset : ∀ k, (signatures.zipIdx k).foldl (fun r entry => r.reindexed slot entry) r
      = { r with txIndex := ((k + n : Nat) : Int) } := by
    induction signatures generalizing n with
    | nil => nomatch hn
    | cons signature signatures ih =>
        obtain ⟨hnot, hnd'⟩ := List.nodup_cons.mp hnd
        intro k
        rw [List.zipIdx_cons, List.foldl_cons]
        cases n with
        | zero =>
            obtain rfl : signature = r.signature := by simpa using hn
            have hhead : r.reindexed slot (r.signature, k) = { r with txIndex := k } :=
              if_pos ⟨rfl, hslot⟩
            rw [hhead]
            refine backfilled_of_not_listed fun entry hentry hmatch => hnot ?_
            exact hmatch.1 ▸ List.fst_mem_of_mem_zipIdx hentry
        | succ n =>
            have hlisted : signatures[n]? = some r.signature := by simpa using hn
            have hne : ¬(r.signature = signature ∧ r.slot = slot) := fun h =>
              hnot (h.1 ▸ List.mem_of_getElem? hlisted)
            have hhead : r.reindexed slot (signature, k) = r := if_neg hne
            rw [hhead, ih hnd' hlisted (k + 1), Nat.add_right_comm, Nat.add_assoc]
  have hzero := hoffset 0
  rwa [Nat.zero_add] at hzero

/-! ## Places in the response -/

section Response

variable {arr : List Json}

/-- In the list of strings a string stands after the strings before it. -/
theorem getElem?_strings {i : Nat} {s : String} (h : arr[i]? = some (.str s)) :
    (arr.filterMap Json.asStr?)[((arr.take i).filterMap Json.asStr?).length]? = some s := by
  obtain ⟨hi, hget⟩ := List.getElem?_eq_some_iff.mp h
  have hsplit : arr = arr.take i ++ .str s :: arr.drop (i + 1) := by
    rw [← hget, ← List.drop_eq_getElem_cons hi, List.take_append_drop]
  have hstrings : arr.filterMap Json.asStr?
      = (arr.take i).filterMap Json.asStr? ++ s :: (arr.drop (i + 1)).filterMap Json.asStr? := by
    conv => lhs; rw [hsplit]
    rw [List.filterMap_append, List.filterMap_cons_some (Json.asStr?_eq_some.mpr rfl)]
  rw [hstrings, List.getElem?_append_right (Nat.le_refl _), Nat.sub_self]
  rfl

/-- The two numberings agree at a place iff only strings stand before it. -/
theorem length_strings_eq_iff {i : Nat} (hi : i < arr.length) :
    ((arr.take i).filterMap Json.asStr?).length = i ↔ ∀ e ∈ arr.take i, ∃ s, e = .str s := by
  have hlen : (arr.take i).length = i := List.length_take_of_le (Nat.le_of_lt hi)
  have hcount : ((arr.take i).filterMap Json.asStr?).length = i
      ↔ ∀ e ∈ arr.take i, e.asStr?.isSome := by
    rw [List.length_filterMap_eq_countP]
    conv => lhs; rhs; rw [← hlen]
    exact List.countP_eq_length
  rw [hcount]
  simp only [Option.isSome_iff_exists, Json.asStr?_eq_some]

/-- Without repeated strings a string has one place. -/
theorem place_unique (hnd : (arr.filterMap Json.asStr?).Nodup) {i j : Nat} {s : String}
    (hi : arr[i]? = some (.str s)) (hj : arr[j]? = some (.str s)) : i = j := by
  have hpair := List.pairwise_iff_getElem.mp (List.pairwise_filterMap.mp hnd)
  obtain ⟨hilt, hi⟩ := List.getElem?_eq_some_iff.mp hi
  obtain ⟨hjlt, hj⟩ := List.getElem?_eq_some_iff.mp hj
  have hstr : ∀ {e : Json}, e = .str s → e.asStr? = some s := fun h => Json.asStr?_eq_some.mpr h
  rcases Nat.lt_trichotomy i j with hlt | heq | hgt
  · exact absurd rfl (hpair i j hilt hjlt hlt s (hstr hi) s (hstr hj))
  · exact heq
  · exact absurd rfl (hpair j i hjlt hilt hgt s (hstr hj) s (hstr hi))

end Response

/-! ## One block -/

/-- `response` lists its signatures in `arr`. -/
def Lists (response : BlockFetchOutcome) (arr : List Json) : Prop :=
  ∃ v, response = .fetched v ∧ v.get? "signatures" = some (.arr arr)

theorem responseSignatures_eq_some {response : BlockFetchOutcome} {signatures : List String} :
    responseSignatures response = some signatures
      ↔ ∃ arr, Lists response arr ∧ arr.filterMap Json.asStr? = signatures := by
  constructor
  · intro h
    cases response with
    | fetched v =>
        obtain ⟨arr, harr, rfl⟩ := Option.map_eq_some_iff.mp h
        obtain ⟨e, he, harr⟩ := Option.bind_eq_some_iff.mp harr
        cases e with
        | arr elems =>
            obtain rfl := Option.some.inj harr
            exact ⟨elems, ⟨v, rfl, he⟩, rfl⟩
        | null | bool | num | str | obj => nomatch harr
    | skipped => nomatch h
    | failed msg => nomatch h
  · rintro ⟨arr, ⟨v, rfl, hv⟩, rfl⟩
    simp only [responseSignatures, hv, Option.bind_some, Json.asArray?, Option.map_some]

/-- After the backfill of `slot` every stored transaction of the slot that the
response lists has its place there as index, and nothing else has changed. -/
structure BackfillExact (db db' : Db) (slot : Int) (arr : List Json) : Prop where
  indexed : ∀ r ∈ db.transactions.rows, r.slot = slot → ∀ i : Nat,
    arr[i]? = some (.str r.signature) → { r with txIndex := i } ∈ db'.transactions.rows
  others : ∀ r ∈ db.transactions.rows, r.slot ≠ slot ∨ .str r.signature ∉ arr →
    r ∈ db'.transactions.rows
  nothing_else : db'.transactions.rows.map (·.signature) = db.transactions.rows.map (·.signature)
  frame : { db' with transactions := db.transactions } = db

/-- Only strings stand before the signature of a stored transaction of the slot. -/
def StringsLead (db : Db) (slot : Int) (arr : List Json) : Prop :=
  ∀ r ∈ db.transactions.rows, r.slot = slot → ∀ i : Nat, arr[i]? = some (.str r.signature) →
    ∀ e ∈ arr.take i, ∃ s, e = .str s

section Block

variable {answer : UInt64 → BlockFetchOutcome} {db : Db} {slot : Int} {arr : List Json}
  (hlists : Lists (answer (asU64 slot)) arr)
include hlists

theorem answered_eq (r : TransactionsRow) :
    r.answered answer slot = r.backfilled slot (arr.filterMap Json.asStr?) := by
  rw [TransactionsRow.answered, responseSignatures_eq_some.mpr ⟨arr, hlists, rfl⟩]

theorem answered_of_listed (hnd : (arr.filterMap Json.asStr?).Nodup) {r : TransactionsRow}
    (hslot : r.slot = slot) {i : Nat} (hi : arr[i]? = some (.str r.signature)) :
    r.answered answer slot
      = { r with txIndex := ((arr.take i).filterMap Json.asStr?).length } := by
  rw [answered_eq hlists]
  exact backfilled_of_listed hnd hslot (getElem?_strings hi)

theorem answered_of_not_listed {r : TransactionsRow}
    (h : r.slot ≠ slot ∨ .str r.signature ∉ arr) : r.answered answer slot = r := by
  rw [answered_eq hlists]
  refine backfilled_of_not_listed fun entry hentry hmatch => ?_
  rcases h with hslot | hsig
  · exact hslot hmatch.2
  · obtain ⟨e, he, hstr⟩ := List.mem_filterMap.mp (List.fst_mem_of_mem_zipIdx hentry)
    rw [← hmatch.1, Json.asStr?_eq_some] at hstr
    exact hsig (hstr ▸ he)

theorem backfillExact_iff (hnd : (arr.filterMap Json.asStr?).Nodup) :
    BackfillExact db (backfillBlock answer db slot) slot arr ↔ StringsLead db slot arr := by
  have hmem : ∀ r ∈ db.transactions.rows,
      r.answered answer slot ∈ (backfillBlock answer db slot).transactions.rows := by
    intro r hr
    rw [backfillBlock_eq]
    exact List.mem_map_of_mem hr
  constructor
  · intro h r hr hslot i hi
    obtain ⟨hlt, -⟩ := List.getElem?_eq_some_iff.mp hi
    have hsame := (backfillBlock answer db slot).transactions.eq_of_key_eq (hmem r hr)
      (h.indexed r hr hslot i hi) (TransactionsRow.answered_signature answer slot r)
    rw [answered_of_listed hlists hnd hslot hi] at hsame
    have hindex := congrArg TransactionsRow.txIndex hsame
    exact (length_strings_eq_iff hlt).mp (Int.ofNat_inj.mp hindex)
  · intro hlead
    constructor
    · intro r hr hslot i hi
      obtain ⟨hlt, -⟩ := List.getElem?_eq_some_iff.mp hi
      have hplace := hmem r hr
      rwa [answered_of_listed hlists hnd hslot hi,
        (length_strings_eq_iff hlt).mpr (hlead r hr hslot i hi)] at hplace
    · intro r hr hother
      have hplace := hmem r hr
      rwa [answered_of_not_listed hlists hother] at hplace
    · rw [backfillBlock_eq, Db.mapTransactions, Keyed.update, List.map_map]
      exact List.map_congr_left fun r _ => TransactionsRow.answered_signature answer slot r
    · rw [backfillBlock_eq]
      rfl

end Block

/-! ## The whole run -/

theorem answered_slot (answer : UInt64 → BlockFetchOutcome) (slot : Int) (r : TransactionsRow) :
    (r.answered answer slot).slot = r.slot := by
  unfold TransactionsRow.answered
  split
  · exact foldl_column (TransactionsRow.reindexed_slot slot) _ r
  · rfl

theorem answered_of_slot_ne (answer : UInt64 → BlockFetchOutcome) {slot : Int}
    {r : TransactionsRow} (hne : r.slot ≠ slot) : r.answered answer slot = r := by
  unfold TransactionsRow.answered
  split
  · exact backfilled_of_not_listed fun entry _ hmatch => hne hmatch.2
  · rfl

/-- Rows keep their slots, so a row meets the answer for its own slot, once. -/
theorem foldl_answered (answer : UInt64 → BlockFetchOutcome) {slots : List Int}
    (hnd : slots.Nodup) (r : TransactionsRow) :
    slots.foldl (fun r slot => r.answered answer slot) r
      = if r.slot ∈ slots then r.answered answer r.slot else r := by
  induction slots generalizing r with
  | nil => rfl
  | cons slot slots ih =>
      obtain ⟨hnot, hnd'⟩ := List.nodup_cons.mp hnd
      rw [List.foldl_cons, ih hnd', answered_slot]
      by_cases heq : r.slot = slot
      · subst heq
        rw [if_neg hnot, if_pos List.mem_cons_self]
      · rw [answered_of_slot_ne answer heq]
        exact if_congr (by rw [List.mem_cons, or_iff_right heq]) rfl rfl

theorem backfillSlots_nodup (db : Db) : (backfillSlots db).Nodup := by
  have hperm := sortByKey_perm BlocksRow.slot (db.blocks.rows.filter fun b => b.skipped = 0)
  rw [backfillSlots, (hperm.map _).nodup_iff]
  exact (List.filter_sublist.map _).nodup db.blocks.nodup

/-- The backfill of all blocks, at each row. -/
theorem backfillOrder_eq_self_iff (answer : UInt64 → BlockFetchOutcome) (db : Db) :
    backfillOrder answer db = db
      ↔ ∀ r ∈ db.transactions.rows, r.slot ∈ backfillSlots db → r.answered answer r.slot = r := by
  rw [backfillOrder, foldl_mapTransactions (TransactionsRow.answered_signature answer)
    (fun db slot => backfillBlock_eq answer db slot), mapTransactions_eq_self]
  refine forall₂_congr fun r _ => ?_
  rw [foldl_answered answer (backfillSlots_nodup db)]
  by_cases hslot : r.slot ∈ backfillSlots db <;> simp [hslot]

/-- The string a block's element carries as its first signature. -/
def firstSignature (tx : Json) : Option String :=
  (((tx.get? "transaction").bind (·.get? "signatures")).bind (·.at? 0)).bind Json.asStr?

/-- `arr` lists the first signatures of the block `v`, position by position,
with a non-string exactly where there is none. -/
def FirstSignatures (v : Json) (arr : List Json) : Prop :=
  ∃ txs, (v.get? "transactions").bind Json.asArray? = some txs
    ∧ List.Forall₂ (fun e tx => e.asStr? = firstSignature tx) arr txs

/-- `bs` was parsed from the full responses `full`, one block for each slot, and
the signatures-only responses `answer` are true to them. -/
structure FreshRun (full answer : UInt64 → BlockFetchOutcome) (bs : List ParsedBlock) : Prop where
  slots : (bs.map (·.slot)).Nodup
  parsed : ∀ b ∈ bs, parseOutcome b.slot (full b.slot) = some b
  distinct : ∀ b ∈ bs, ∀ arr, Lists (answer b.slot) arr → (arr.filterMap Json.asStr?).Nodup
  listed : ∀ b ∈ bs, ∀ v, full b.slot = .fetched v → ∀ arr, Lists (answer b.slot) arr →
    FirstSignatures v arr

theorem getElem?_parseTransactions {txs : List Json} {t : ParsedTransaction}
    (h : t ∈ parseTransactions txs) :
    ∃ (i : Nat) (tx : Json), txs[i]? = some tx ∧ firstSignature tx = some t.signature
      ∧ t.txIndex = i := by
  obtain ⟨⟨tx, i⟩, hmem, hparse⟩ := List.mem_filterMap.mp h
  refine ⟨i, tx, List.mem_zipIdx_iff_getElem?.mp hmem, ?_, parseTransaction_txIndex hparse⟩
  obtain ⟨_, txn, _, _, _, _, _, _, -, htxn, -, hsignature, -, -, -, -, rfl⟩ :=
    parseTransaction_eq_some.mp hparse
  rw [firstSignature, htxn, Option.bind_some, hsignature]

section Fresh

variable (json : StringListJson) {full answer : UInt64 → BlockFetchOutcome} {bs : List ParsedBlock}
  (hfresh : FreshRun full answer bs)
include hfresh

/-- A freshly ingested row has the place of its signature as index. -/
theorem fresh_index {r : TransactionsRow}
    (hr : r ∈ (runBlocking json Db.empty bs).transactions.rows) {arr : List Json}
    (hlists : Lists (answer (asU64 r.slot)) arr) :
    (arr.filterMap Json.asStr?).Nodup
      ∧ ∃ i : Nat, arr[i]? = some (.str r.signature) ∧ r.txIndex = i := by
  rw [runBlocking_eq] at hr
  rcases Keyed.mem_insertAll hr with hr | ⟨-, hr⟩
  · nomatch hr
  · obtain ⟨b, hb, hr⟩ := List.mem_flatMap.mp hr
    obtain ⟨t, ht, rfl⟩ := (mem_transactionsRows json).mp hr
    have hslot : asU64 (t.transactionsRow json (asI64 b.slot)).slot = b.slot := asU64_asI64 b.slot
    rw [hslot] at hlists
    refine ⟨hfresh.distinct b hb arr hlists, ?_⟩
    have hparsed := hfresh.parsed b hb
    cases hfull : full b.slot with
    | skipped =>
        rw [hfull] at hparsed
        rw [show b.transactions = [] from
          (congrArg ParsedBlock.transactions (Option.some.inj hparsed)).symm] at ht
        nomatch ht
    | failed msg =>
        rw [hfull] at hparsed
        nomatch hparsed
    | fetched v =>
        rw [hfull] at hparsed
        obtain ⟨_, txs, -, htxs, hblock⟩ := parseBlock_eq_some.mp hparsed
        obtain ⟨txs', htxs', hall⟩ := hfresh.listed b hb v hfull arr hlists
        obtain rfl := Option.some.inj (htxs.symm.trans htxs')
        rw [show b.transactions = parseTransactions txs from
          congrArg ParsedBlock.transactions hblock] at ht
        obtain ⟨i, tx, hi, hsig, hindex⟩ := getElem?_parseTransactions ht
        obtain ⟨hlt, rfl⟩ := List.getElem?_eq_some_iff.mp hi
        have hlt' : i < arr.length := by rwa [hall.length_eq]
        have hplace := hall.get hlt' hlt
        refine ⟨i, ?_, hindex⟩
        rw [List.getElem?_eq_getElem hlt', Option.some.injEq, ← Json.asStr?_eq_some]
        exact hplace.trans hsig

/-- After a fresh ingestion the backfill changes nothing iff, in every response,
only strings stand before the signature of a stored transaction. -/
theorem backfillOrder_fresh_iff :
    backfillOrder answer (runBlocking json Db.empty bs) = runBlocking json Db.empty bs
      ↔ ∀ slot ∈ backfillSlots (runBlocking json Db.empty bs), ∀ arr,
          Lists (answer (asU64 slot)) arr →
            StringsLead (runBlocking json Db.empty bs) slot arr := by
  rw [backfillOrder_eq_self_iff]
  constructor
  · rintro h slot hslot arr hlists r hr rfl i hi
    obtain ⟨hnd, j, hj, hindex⟩ := fresh_index json hfresh hr hlists
    obtain rfl := place_unique hnd hi hj
    obtain ⟨hlt, -⟩ := List.getElem?_eq_some_iff.mp hi
    have hsame := congrArg TransactionsRow.txIndex (h r hr hslot)
    rw [answered_of_listed hlists hnd rfl hi] at hsame
    exact (length_strings_eq_iff hlt).mp (Int.ofNat_inj.mp (hsame.trans hindex))
  · intro h r hr hslot
    cases hresponse : responseSignatures (answer (asU64 r.slot)) with
    | none => rw [TransactionsRow.answered, hresponse]
    | some signatures =>
        obtain ⟨arr, hlists, -⟩ := responseSignatures_eq_some.mp hresponse
        obtain ⟨hnd, i, hi, hindex⟩ := fresh_index json hfresh hr hlists
        obtain ⟨hlt, -⟩ := List.getElem?_eq_some_iff.mp hi
        rw [answered_of_listed hlists hnd rfl hi,
          (length_strings_eq_iff hlt).mpr (h r.slot hslot arr hlists r hr rfl i hi), ← hindex]

end Fresh

/-- The backfill gives stored transactions the places of their signatures iff in
the response only strings stand before each of these; and under the same
condition, and no other, it leaves a fresh ingestion as the parser numbered it. -/
theorem backfill_agrees_iff (json : StringListJson) (answer : UInt64 → BlockFetchOutcome) :
    (∀ (db : Db) (slot : Int) (arr : List Json), Lists (answer (asU64 slot)) arr →
        (arr.filterMap Json.asStr?).Nodup →
          (BackfillExact db (backfillBlock answer db slot) slot arr ↔ StringsLead db slot arr))
      ∧ ∀ (full : UInt64 → BlockFetchOutcome) (bs : List ParsedBlock), FreshRun full answer bs →
          (backfillOrder answer (runBlocking json Db.empty bs) = runBlocking json Db.empty bs
            ↔ ∀ slot ∈ backfillSlots (runBlocking json Db.empty bs), ∀ arr,
                Lists (answer (asU64 slot)) arr →
                  StringsLead (runBlocking json Db.empty bs) slot arr) :=
  ⟨fun _ _ _ hlists hnd => backfillExact_iff hlists hnd,
    fun _ _ hfresh => backfillOrder_fresh_iff json hfresh⟩

/-- The signatures of `rawBlock`, whose second element has none. -/
def rawSignatures : List Json :=
  [.str "s1", .null, .str "s2"]

def signaturesAnswer (_ : UInt64) : BlockFetchOutcome :=
  .fetched (.obj [("signatures", .arr rawSignatures)])

theorem rawSignatures_freshRun :
    FreshRun (fun _ => .fetched rawBlock) signaturesAnswer [parsedBlock] where
  slots := by decide
  parsed := by decide
  distinct := by
    rintro b - arr ⟨v, hv, harr⟩
    obtain rfl := BlockFetchOutcome.fetched.inj hv
    obtain rfl := Json.arr.inj (Option.some.inj harr)
    decide
  listed := by
    rintro b - v hv arr ⟨w, hw, harr⟩
    obtain rfl := BlockFetchOutcome.fetched.inj hv
    obtain rfl := BlockFetchOutcome.fetched.inj hw
    obtain rfl := Json.arr.inj (Option.some.inj harr)
    exact ⟨_, rfl, .cons rfl (.cons rfl (.cons rfl .nil))⟩

/-- The transaction at position 2 is stored with index 2 and moved to index 1. -/
theorem backfill_shifts_after_null :
    parseBlock 5 rawBlock = some parsedBlock
      ∧ (runBlocking .escapeFree Db.empty [parsedBlock]).transactions.rows.map (·.txIndex) = [0, 2]
      ∧ (backfillOrder signaturesAnswer
          (runBlocking .escapeFree Db.empty [parsedBlock])).transactions.rows.map (·.txIndex)
            = [0, 1]
      ∧ ¬BackfillExact (runBlocking .escapeFree Db.empty [parsedBlock])
          (backfillBlock signaturesAnswer (runBlocking .escapeFree Db.empty [parsedBlock]) 5) 5
          rawSignatures := by
  refine ⟨by decide, by decide, by decide, fun h => ?_⟩
  have hplace := h.indexed ⟨"s2", 5, 2, 1, 5000, "[\"P\"]"⟩ (by decide) rfl 2 rfl
  exact absurd hplace (by decide)

theorem backfill_agrees_iff_raw :
    (BackfillExact (runBlocking .escapeFree Db.empty [parsedBlock])
        (backfillBlock signaturesAnswer (runBlocking .escapeFree Db.empty [parsedBlock]) 5) 5
        rawSignatures
      ↔ StringsLead (runBlocking .escapeFree Db.empty [parsedBlock]) 5 rawSignatures)
    ∧ (backfillOrder signaturesAnswer (runBlocking .escapeFree Db.empty [parsedBlock])
          = runBlocking .escapeFree Db.empty [parsedBlock]
        ↔ ∀ slot ∈ backfillSlots (runBlocking .escapeFree Db.empty [parsedBlock]), ∀ arr,
            Lists (signaturesAnswer (asU64 slot)) arr →
              StringsLead (runBlocking .escapeFree Db.empty [parsedBlock]) slot arr) := by
  have hagrees := backfill_agrees_iff .escapeFree signaturesAnswer
  exact ⟨hagrees.1 _ 5 rawSignatures ⟨_, rfl, rfl⟩ (by decide),
    hagrees.2 _ _ rawSignatures_freshRun⟩

end Astralane
