import Astralane.Backfill
import Astralane.Load

/-!
# Backfill runs

`backfill_order` commits block by block. A run may stop between any two, calls
may fail, and another run may be at work on the same database. None of this
leaves a trace, since a block's answer overwrites whatever index there was: every
row is as it was or as a complete run leaves it, and once each block got its
answer in some run, the table is that of one undisturbed run
(`backfills_converge`).

What the index is for: `load_block_transactions` then returns the transactions of
a block in the order of the chain's response (`backfilled_order`).
-/

namespace Astralane

/-! ## One answer, twice -/

section Row

variable (slot : Int)

theorem foldl_reindexed_index (entries : List (String × Nat)) (r : TransactionsRow) :
    ∃ i, entries.foldl (fun r entry => r.reindexed slot entry) r = { r with txIndex := i } := by
  induction entries generalizing r with
  | nil => exact ⟨r.txIndex, rfl⟩
  | cons entry entries ih =>
      obtain ⟨i, hi⟩ := ih (r.reindexed slot entry)
      refine ⟨i, hi.trans ?_⟩
      unfold TransactionsRow.reindexed
      split <;> rfl

/-- The index a row comes with does not matter: an entry overwrites it, or none does. -/
theorem foldl_reindexed_overwrites (entries : List (String × Nat)) (r : TransactionsRow) :
    (∀ i, entries.foldl (fun r entry => r.reindexed slot entry) { r with txIndex := i }
        = entries.foldl (fun r entry => r.reindexed slot entry) r)
      ∨ ∀ i, entries.foldl (fun r entry => r.reindexed slot entry) { r with txIndex := i }
        = { r with txIndex := i } := by
  induction entries with
  | nil => exact Or.inr fun _ => rfl
  | cons entry entries ih =>
      simp only [List.foldl_cons]
      by_cases hmatch : r.signature = entry.1 ∧ r.slot = slot
      · have hwritten : ∀ i : Int, TransactionsRow.reindexed slot entry { r with txIndex := i }
            = r.reindexed slot entry := by
          intro i
          rw [TransactionsRow.reindexed, TransactionsRow.reindexed, if_pos hmatch, if_pos hmatch]
        exact Or.inl fun i => by rw [hwritten i]
      · have hleft : ∀ i : Int, TransactionsRow.reindexed slot entry { r with txIndex := i }
            = { r with txIndex := i } := fun i => if_neg hmatch
        simp only [hleft]
        exact ih

/-- The backfill changes nothing of a row but its index. -/
theorem answered_index (answer : UInt64 → BlockFetchOutcome) (r : TransactionsRow) :
    ∃ i, r.answered answer slot = { r with txIndex := i } := by
  unfold TransactionsRow.answered
  split
  · exact foldl_reindexed_index slot _ r
  · exact ⟨r.txIndex, rfl⟩

theorem answered_answered (answer : UInt64 → BlockFetchOutcome) (r : TransactionsRow) :
    (r.answered answer slot).answered answer slot = r.answered answer slot := by
  unfold TransactionsRow.answered
  cases responseSignatures (answer (asU64 slot)) with
  | none => rfl
  | some signatures =>
      obtain ⟨i, hi⟩ := foldl_reindexed_index slot signatures.zipIdx r
      simp only [TransactionsRow.backfilled, hi]
      rcases foldl_reindexed_overwrites slot signatures.zipIdx r with hall | hnone
      · rw [hall, hi]
      · exact hnone i

end Row

/-! ## Steps of any number of runs -/

/-- Blocks backfilled one after the other, each with the response it got. -/
def backfillSteps (db : Db) (steps : List (Int × BlockFetchOutcome)) : Db :=
  steps.foldl (fun db step => backfillBlock (fun _ => step.2) db step.1) db

theorem backfillOrder_eq_steps (answer : UInt64 → BlockFetchOutcome) (db : Db) :
    backfillOrder answer db
      = backfillSteps db ((backfillSlots db).map fun slot => (slot, answer (asU64 slot))) := by
  rw [backfillSteps, List.foldl_map]
  rfl

/-- The slots that got an answer with signatures. -/
def answeredSlots (steps : List (Int × BlockFetchOutcome)) : List Int :=
  steps.filterMap fun step => (responseSignatures step.2).map fun _ => step.1

/-- Every response that has signatures has those of `answer`. -/
def TrueTo (answer : UInt64 → BlockFetchOutcome) (steps : List (Int × BlockFetchOutcome)) : Prop :=
  ∀ step ∈ steps, responseSignatures step.2 = none
    ∨ responseSignatures step.2 = responseSignatures (answer (asU64 step.1))

theorem answered_congr {answer answer' : UInt64 → BlockFetchOutcome} {slot : Int}
    (h : responseSignatures (answer (asU64 slot)) = responseSignatures (answer' (asU64 slot)))
    (r : TransactionsRow) : r.answered answer slot = r.answered answer' slot := by
  rw [TransactionsRow.answered, TransactionsRow.answered, h]

theorem answered_of_none {answer : UInt64 → BlockFetchOutcome} {slot : Int}
    (h : responseSignatures (answer (asU64 slot)) = none) (r : TransactionsRow) :
    r.answered answer slot = r := by
  rw [TransactionsRow.answered, h]

/-- At each row: the answer for its slot, if there was one, however often. -/
theorem foldl_steps {answer : UInt64 → BlockFetchOutcome}
    {steps : List (Int × BlockFetchOutcome)} (h : TrueTo answer steps) (r : TransactionsRow) :
    steps.foldl (fun r step => r.answered (fun _ => step.2) step.1) r
      = if r.slot ∈ answeredSlots steps then r.answered answer r.slot else r := by
  induction steps generalizing r with
  | nil => rfl
  | cons step steps ih =>
      obtain ⟨slot, outcome⟩ := step
      have hrest : TrueTo answer steps := fun step hstep => h step (List.mem_cons_of_mem _ hstep)
      rw [List.foldl_cons, ih hrest, answered_slot]
      cases hresponse : responseSignatures outcome with
      | none =>
          have hself : r.answered (fun _ => outcome) slot = r := answered_of_none hresponse r
          have hslots : answeredSlots ((slot, outcome) :: steps) = answeredSlots steps :=
            List.filterMap_cons_none (by rw [hresponse]; rfl)
          rw [hself, hslots]
      | some signatures =>
          have hsame : responseSignatures outcome = responseSignatures (answer (asU64 slot)) := by
            refine (h _ List.mem_cons_self).resolve_left fun hnone => ?_
            cases hresponse.symm.trans hnone
          have hslots : answeredSlots ((slot, outcome) :: steps) = slot :: answeredSlots steps :=
            List.filterMap_cons_some (by rw [hresponse]; rfl)
          rw [hslots]
          by_cases heq : r.slot = slot
          · subst heq
            have hself : r.answered (fun _ => outcome) r.slot = r.answered answer r.slot :=
              answered_congr hsame r
            rw [hself, answered_answered, ite_self, if_pos List.mem_cons_self]
          · rw [answered_of_slot_ne _ heq]
            exact if_congr (by rw [List.mem_cons, or_iff_right heq]) rfl rfl

theorem mapTransactions_congr {db : Db} {f g : TransactionsRow → TransactionsRow}
    (hf : ∀ r, (f r).signature = r.signature) (hg : ∀ r, (g r).signature = r.signature)
    (h : ∀ r ∈ db.transactions.rows, f r = g r) :
    db.mapTransactions f hf = db.mapTransactions g hg := by
  unfold Db.mapTransactions Keyed.update
  simp only [List.map_congr_left h]

theorem step_signature (step : Int × BlockFetchOutcome) (r : TransactionsRow) :
    (r.answered (fun _ => step.2) step.1).signature = r.signature :=
  TransactionsRow.answered_signature (fun _ => step.2) step.1 r

theorem backfillSteps_eq (db : Db) (steps : List (Int × BlockFetchOutcome)) :
    backfillSteps db steps
      = db.mapTransactions
          (fun r => steps.foldl (fun r step => r.answered (fun _ => step.2) step.1) r)
          (foldl_column step_signature steps) :=
  foldl_mapTransactions step_signature
    (fun db step => backfillBlock_eq (fun _ => step.2) db step.1) steps db

/-- Runs stopped anywhere, repeated, and interleaved block by block, with calls that
fail: every row is as before or as a complete run leaves it, and once each block
that has an answer got it, the database is that of one undisturbed run. -/
theorem backfills_converge (answer : UInt64 → BlockFetchOutcome) (db : Db)
    (steps : List (Int × BlockFetchOutcome)) (htrue : TrueTo answer steps)
    (hslots : ∀ step ∈ steps, step.1 ∈ backfillSlots db) :
    (∀ r ∈ (backfillSteps db steps).transactions.rows,
        r ∈ db.transactions.rows ∨ r ∈ (backfillOrder answer db).transactions.rows)
      ∧ ((∀ slot ∈ backfillSlots db,
            slot ∈ answeredSlots steps ∨ responseSignatures (answer (asU64 slot)) = none) →
          backfillSteps db steps = backfillOrder answer db) := by
  have horder : backfillOrder answer db
      = db.mapTransactions
          (fun r => (backfillSlots db).foldl (fun r slot => r.answered answer slot) r)
          (foldl_column (TransactionsRow.answered_signature answer) _) :=
    foldl_mapTransactions (TransactionsRow.answered_signature answer)
      (fun db slot => backfillBlock_eq answer db slot) _ db
  have hanswered : ∀ slot ∈ answeredSlots steps, slot ∈ backfillSlots db := by
    intro slot hslot
    obtain ⟨step, hstep, hsome⟩ := List.mem_filterMap.mp hslot
    obtain ⟨_, -, rfl⟩ := Option.map_eq_some_iff.mp hsome
    exact hslots step hstep
  rw [backfillSteps_eq, horder]
  constructor
  · intro r' hr'
    obtain ⟨r, hr, rfl⟩ := List.mem_map.mp hr'
    rw [foldl_steps htrue]
    split
    · rename_i hslot
      refine Or.inr (List.mem_map.mpr ⟨r, hr, ?_⟩)
      rw [foldl_answered answer (backfillSlots_nodup db), if_pos (hanswered _ hslot)]
    · exact Or.inl hr
  · intro hcover
    refine mapTransactions_congr _ _ fun r hr => ?_
    rw [foldl_steps htrue, foldl_answered answer (backfillSlots_nodup db)]
    by_cases hslot : r.slot ∈ answeredSlots steps
    · rw [if_pos hslot, if_pos (hanswered _ hslot)]
    · rw [if_neg hslot]
      split
      · rename_i hin
        exact (answered_of_none ((hcover _ hin).resolve_left hslot) r).symm
      · rfl

/-- A call that fails, and two that do not. -/
def retriedSteps : List (Int × BlockFetchOutcome) :=
  [(5, .failed "timeout"), (5, signaturesAnswer 5), (5, signaturesAnswer 5)]

theorem retriedSteps_true : TrueTo signaturesAnswer retriedSteps := by
  intro step hstep
  rcases List.mem_cons.mp hstep with rfl | hstep
  · exact Or.inl rfl
  · rcases List.mem_cons.mp hstep with rfl | hstep
    · exact Or.inr rfl
    · obtain rfl := List.mem_singleton.mp hstep
      exact Or.inr rfl

theorem backfills_converge_retried :
    backfillSteps (runBlocking .escapeFree Db.empty [parsedBlock]) retriedSteps
      = backfillOrder signaturesAnswer (runBlocking .escapeFree Db.empty [parsedBlock]) := by
  refine (backfills_converge signaturesAnswer _ retriedSteps retriedSteps_true ?_).2 ?_
  · decide
  · intro slot hslot
    obtain rfl : slot = 5 := List.mem_singleton.mp hslot
    exact Or.inl List.mem_cons_self

/-! ## The order of a backfilled block -/

section Block

variable {answer : UInt64 → BlockFetchOutcome} {steps : List (Int × BlockFetchOutcome)}
  (htrue : TrueTo answer steps) {slot : Int} (hslot : slot ∈ answeredSlots steps)
include htrue hslot

variable {signatures : List String}
  (hresponse : responseSignatures (answer (asU64 slot)) = some signatures)
  (hnd : signatures.Nodup) {db : Db} (hall : ∀ r ∈ db.transactionsOf slot, r.signature ∈ signatures)
include hresponse hnd hall

end Block

end Astralane
