import Mathlib.Data.Finset.Insert
import Mathlib.Data.Finset.Dedup
import Mathlib.Tactic.Common

/-!
# The contention scheduler

`schedule_block` and its step states, as `contention.rs` computes them: one
pass over the block, and for every transaction one scan over the steps opened
so far. The scan emits a conflict event per offending lock of each step that
rejects the transaction and stops at the first step that does not.

The two `HashSet`s of a step are only inserted into and queried, so they are
finite sets here.
-/

namespace Astralane

structure AccountLock where
  accountPubkey : String
  isWritable : Bool
deriving DecidableEq, Repr

structure Transaction where
  signature : String
  txIndex : Int
  programIds : List String
  locks : List AccountLock
deriving DecidableEq, Repr

/-- One rejection: a transaction couldn't go in a step because of this lock. -/
structure ConflictEvent where
  accountPubkey : String
  isWritable : Bool
  programIds : List String
deriving DecidableEq, Repr

/-- Signatures in placement order, per step, and the rejections on the way. -/
structure Schedule where
  steps : List (List String)
  conflicts : List ConflictEvent
deriving DecidableEq, Repr

structure StepState where
  written : Finset String
  touched : Finset String
  signatures : List String

namespace StepState

def new : StepState where
  written := ∅
  touched := ∅
  signatures := []

/-- Would taking `lock` clash with what the step already holds? A write clashes
with anything touched, a read with anything written. -/
def rejects (s : StepState) (lock : AccountLock) : Bool :=
  if lock.isWritable then
    decide (lock.accountPubkey ∈ s.touched)
  else
    decide (lock.accountPubkey ∈ s.written)

def conflictingLocks (s : StepState) (locks : List AccountLock) : List AccountLock :=
  locks.filter s.rejects

/-- The body of `add`'s loop over the locks. -/
def addLock (s : StepState) (lock : AccountLock) : StepState :=
  { s with
    touched := insert lock.accountPubkey s.touched
    written := if lock.isWritable then insert lock.accountPubkey s.written else s.written }

def add (s : StepState) (signature : String) (locks : List AccountLock) : StepState :=
  let s := locks.foldl addLock s
  { s with signatures := s.signatures ++ [signature] }

end StepState

/-- The event pushed when `lock` keeps `txn` out of a step. -/
def ConflictEvent.of (txn : Transaction) (lock : AccountLock) : ConflictEvent where
  accountPubkey := lock.accountPubkey
  isWritable := lock.isWritable
  programIds := txn.programIds

/-- The inner loop, over the steps from index `i` on: the step that accepts
`txn`, if any, and the events of the steps that reject it before. -/
def scanSteps (txn : Transaction) : Nat → List StepState → Option Nat × List ConflictEvent
  | _, [] => (none, [])
  | i, step :: rest =>
      let conflicting := step.conflictingLocks txn.locks
      if conflicting.isEmpty then
        (some i, [])
      else
        let (placedStep, conflicts) := scanSteps txn (i + 1) rest
        (placedStep, conflicting.map (ConflictEvent.of txn) ++ conflicts)

/-- The body of the outer loop, on the steps and conflicts built so far. -/
def scheduleTxn (acc : List StepState × List ConflictEvent) (txn : Transaction) :
    List StepState × List ConflictEvent :=
  let (steps, conflicts) := acc
  let (placedStep, rejections) := scanSteps txn 0 steps
  match placedStep with
  | some i =>
      (steps.modify i fun s => s.add txn.signature txn.locks, conflicts ++ rejections)
  | none =>
      (steps ++ [StepState.new.add txn.signature txn.locks], conflicts ++ rejections)

def scheduleRun (transactions : List Transaction) : List StepState × List ConflictEvent :=
  transactions.foldl scheduleTxn ([], [])

/-- Heuristic, not the validator's real schedule. Callers pass transactions in
`tx_index` order. -/
def scheduleBlock (transactions : List Transaction) : Schedule where
  steps := (scheduleRun transactions).1.map (·.signatures)
  conflicts := (scheduleRun transactions).2

/-! ## Conflicts

The README's notion, on which the declarative statements are phrased: two locks
clash when they are on one account and at least one of them writes. -/

def AccountLock.Clashes (l m : AccountLock) : Prop :=
  l.accountPubkey = m.accountPubkey ∧ (l.isWritable = true ∨ m.isWritable = true)

instance : DecidableRel AccountLock.Clashes := fun _ _ =>
  inferInstanceAs (Decidable (_ ∧ _))

theorem AccountLock.Clashes.symm {l m : AccountLock} (h : l.Clashes m) : m.Clashes l :=
  ⟨h.1.symm, h.2.symm⟩

def Conflicts (t u : Transaction) : Prop :=
  ∃ l ∈ t.locks, ∃ m ∈ u.locks, l.Clashes m

instance : DecidableRel Conflicts := fun t u =>
  inferInstanceAs (Decidable (∃ l ∈ t.locks, ∃ m ∈ u.locks, l.Clashes m))

theorem Conflicts.symm {t u : Transaction} (h : Conflicts t u) : Conflicts u t := by
  obtain ⟨l, hl, m, hm, hclash⟩ := h
  exact ⟨m, hm, l, hl, hclash.symm⟩

/-- The step a signature was placed in: the first one listing it. -/
def Schedule.stepOf (s : Schedule) (signature : String) : Nat :=
  s.steps.findIdx (signature ∈ ·)

end Astralane
