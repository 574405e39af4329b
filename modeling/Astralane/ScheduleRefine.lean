import Mathlib.Data.Finset.Basic
import Mathlib.Data.Finset.Lattice.Lemmas
import Astralane.Contention
import Astralane.FirstFit

/-!
# The scheduler is a first-fit packing

The scheduler never compares two transactions: a step keeps two summary sets
that are updated lock by lock. `StepState.ofMembers` says what the sets
summarise, the list of transactions in the step, and the two exactness lemmas
say that nothing is lost by it:

- `ofMembers_add`: placing a transaction keeps the summary exact;
- `rejects_ofMembers`: a step rejects a lock iff some member holds a lock that
  clashes with it.

With these `scheduleTxn` is one `FirstFit.place` under the relation
`Conflicts` (`scheduleTxn_ofMembers`), and the whole run is `FirstFit.pack`
(`scheduleRun_steps`). The events are the rejections by the steps before the
slot (`scheduleRun_conflicts`).
-/

namespace Astralane

open FirstFit

namespace StepState

/-- The state of a step whose members, in placement order, are `ms`. -/
def ofMembers (ms : List Transaction) : StepState where
  written := (((ms.flatMap (·.locks)).filter (·.isWritable)).map (·.accountPubkey)).toFinset
  touched := ((ms.flatMap (·.locks)).map (·.accountPubkey)).toFinset
  signatures := ms.map (·.signature)

theorem new_eq_ofMembers : new = ofMembers [] := rfl

theorem foldl_addLock (locks : List AccountLock) (s : StepState) :
    locks.foldl addLock s =
      { s with
        touched := s.touched ∪ (locks.map (·.accountPubkey)).toFinset
        written := s.written ∪
          ((locks.filter (·.isWritable)).map (·.accountPubkey)).toFinset } := by
  induction locks generalizing s with
  | nil => simp
  | cons l rest ih =>
      rw [List.foldl_cons, ih]
      cases hw : l.isWritable <;> simp [addLock, hw]

theorem ofMembers_add (ms : List Transaction) (t : Transaction) :
    (ofMembers ms).add t.signature t.locks = ofMembers (ms ++ [t]) := by
  simp [add, foldl_addLock, ofMembers, List.filter_append, List.toFinset_append]

theorem mem_touched_ofMembers {ms : List Transaction} {account : String} :
    account ∈ (ofMembers ms).touched ↔ ∃ u ∈ ms, ∃ m ∈ u.locks, m.accountPubkey = account := by
  simp only [ofMembers, List.mem_toFinset, List.mem_map, List.mem_flatMap]
  exact ⟨fun ⟨m, ⟨u, hu, hm⟩, h⟩ => ⟨u, hu, m, hm, h⟩,
    fun ⟨u, hu, m, hm, h⟩ => ⟨m, ⟨u, hu, hm⟩, h⟩⟩

theorem mem_written_ofMembers {ms : List Transaction} {account : String} :
    account ∈ (ofMembers ms).written
      ↔ ∃ u ∈ ms, ∃ m ∈ u.locks, m.accountPubkey = account ∧ m.isWritable = true := by
  simp only [ofMembers, List.mem_toFinset, List.mem_map, List.mem_filter, List.mem_flatMap]
  exact ⟨fun ⟨m, ⟨⟨u, hu, hm⟩, hw⟩, h⟩ => ⟨u, hu, m, hm, h, hw⟩,
    fun ⟨u, hu, m, hm, h, hw⟩ => ⟨m, ⟨⟨u, hu, hm⟩, hw⟩, h⟩⟩

theorem rejects_ofMembers {ms : List Transaction} {l : AccountLock} :
    (ofMembers ms).rejects l = true ↔ ∃ u ∈ ms, ∃ m ∈ u.locks, m.Clashes l := by
  unfold rejects AccountLock.Clashes
  cases hw : l.isWritable with
  | true =>
      rw [if_pos rfl, decide_eq_true_eq, mem_touched_ofMembers]
      simp
  | false =>
      rw [if_neg Bool.false_ne_true, decide_eq_true_eq, mem_written_ofMembers]
      simp

end StepState

/-- The locks of `t` that clash with a lock of some transaction in `ms`. -/
def clashingLocks (ms : List Transaction) (t : Transaction) : List AccountLock :=
  t.locks.filter fun l => decide (∃ u ∈ ms, ∃ m ∈ u.locks, m.Clashes l)

theorem conflictingLocks_ofMembers (ms : List Transaction) (t : Transaction) :
    (StepState.ofMembers ms).conflictingLocks t.locks = clashingLocks ms t := by
  refine List.filter_congr fun l _ => ?_
  rw [Bool.eq_iff_iff, StepState.rejects_ofMembers, decide_eq_true_eq]

theorem clashingLocks_eq_nil {ms : List Transaction} {t : Transaction} :
    clashingLocks ms t = [] ↔ ∀ u ∈ ms, ¬Conflicts u t := by
  simp only [clashingLocks, List.filter_eq_nil_iff, decide_eq_true_eq, Conflicts]
  constructor
  · rintro h u hu ⟨m, hm, l, hl, hclash⟩
    exact h l hl ⟨u, hu, m, hm, hclash⟩
  · rintro h l hl ⟨u, hu, m, hm, hclash⟩
    exact h u hu ⟨m, hm, l, hl, hclash⟩

/-! ## One scan, one placement, one run -/

/-- The scan stops at the first-fit slot, and reports what rejected the
transaction before it. Induction on the steps, the index moving along. -/
theorem scanSteps_ofMembers (t : Transaction) (bins : List (List Transaction)) (i : Nat) :
    scanSteps t i (bins.map StepState.ofMembers) =
      (if slotFor Conflicts bins t < bins.length then some (i + slotFor Conflicts bins t) else none,
        (bins.take (slotFor Conflicts bins t)).flatMap fun ms =>
          (clashingLocks ms t).map (ConflictEvent.of t)) := by
  induction bins generalizing i with
  | nil => simp [scanSteps, slotFor]
  | cons ms bins ih =>
      rw [List.map_cons, scanSteps, conflictingLocks_ofMembers]
      by_cases hfree : clashingLocks ms t = []
      · have hall : ∀ u ∈ ms, ¬Conflicts u t := clashingLocks_eq_nil.mp hfree
        have hslot : slotFor Conflicts (ms :: bins) t = 0 := by
          have hany : (ms.all fun u => !decide (Conflicts u t)) = true := by simpa using hall
          rw [slotFor, List.findIdx_cons, hany]
          rfl
        simp [hfree, hslot]
      · have hslot : slotFor Conflicts (ms :: bins) t = slotFor Conflicts bins t + 1 := by
          have hnot : ¬∀ u ∈ ms, ¬Conflicts u t := fun h => hfree (clashingLocks_eq_nil.mpr h)
          have hany : (ms.all fun u => !decide (Conflicts u t)) = false := by
            rw [Bool.eq_false_iff]
            simpa using hnot
          rw [slotFor, List.findIdx_cons, hany]
          rfl
        simp only [List.isEmpty_iff, hfree, ↓reduceIte, ih, hslot, List.length_cons,
          Nat.add_lt_add_iff_right, List.take_succ_cons, List.flatMap_cons]
        rw [Nat.add_right_comm i 1, Nat.add_assoc i]

/-- One iteration of the outer loop is one first-fit placement. -/
theorem scheduleTxn_ofMembers (bins : List (List Transaction)) (cs : List ConflictEvent)
    (t : Transaction) :
    scheduleTxn (bins.map StepState.ofMembers, cs) t =
      ((place Conflicts bins t).map StepState.ofMembers,
        cs ++ (bins.take (slotFor Conflicts bins t)).flatMap fun ms =>
          (clashingLocks ms t).map (ConflictEvent.of t)) := by
  rw [scheduleTxn, scanSteps_ofMembers, place]
  by_cases hlt : slotFor Conflicts bins t < bins.length
  · simp only [hlt, ↓reduceIte, Nat.zero_add, Prod.mk.injEq, and_true]
    refine List.ext_getElem? fun j => ?_
    rw [List.getElem?_modify, List.getElem?_map, List.getElem?_map, List.getElem?_modify]
    by_cases hj : slotFor Conflicts bins t = j
    · cases bins[j]? <;> simp [hj, StepState.ofMembers_add]
    · cases bins[j]? <;> simp [hj]
  · simp [hlt, StepState.new_eq_ofMembers, StepState.ofMembers_add]

theorem scheduleRun_concat (l : List Transaction) (t : Transaction) :
    scheduleRun (l ++ [t]) = scheduleTxn (scheduleRun l) t := by
  simp [scheduleRun]

theorem scheduleRun_steps (l : List Transaction) :
    (scheduleRun l).1 = (pack Conflicts l).map StepState.ofMembers := by
  induction l using List.reverseRecOn with
  | nil => rfl
  | append_singleton l t ih =>
      rw [scheduleRun_concat, pack_concat,
        show scheduleRun l = ((pack Conflicts l).map StepState.ofMembers, (scheduleRun l).2) from
          Prod.ext ih rfl, scheduleTxn_ofMembers]

theorem scheduleRun_conflicts (l : List Transaction) (t : Transaction) :
    (scheduleRun (l ++ [t])).2 = (scheduleRun l).2 ++
      ((pack Conflicts l).take (slotFor Conflicts (pack Conflicts l) t)).flatMap fun ms =>
        (clashingLocks ms t).map (ConflictEvent.of t) := by
  rw [scheduleRun_concat,
    show scheduleRun l = ((pack Conflicts l).map StepState.ofMembers, (scheduleRun l).2) from
      Prod.ext (scheduleRun_steps l) rfl, scheduleTxn_ofMembers]

theorem scheduleBlock_steps (l : List Transaction) :
    (scheduleBlock l).steps = (pack Conflicts l).map fun ms => ms.map (·.signature) := by
  rw [scheduleBlock, scheduleRun_steps, List.map_map]
  rfl

end Astralane
