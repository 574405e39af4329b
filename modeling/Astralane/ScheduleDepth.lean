import Mathlib.Data.Finset.Lattice.Fold
import Mathlib.Order.Lattice.Nat
import Astralane.ScheduleSpec

/-!
# Why a transaction is in its step

First-fit never skips a step without a reason: every step before a
transaction's own holds a transaction that is earlier in the block and conflicts
with it. Each step gives a different one, so a step index is at most the number
of earlier conflicting transactions, and this bounds the depth.
-/

namespace Astralane

open FirstFit

/-- The transactions before `t` in the block that conflict with it. -/
def earlierConflicts (txs : List Transaction) (t : Transaction) : List Transaction :=
  txs.filter fun u => [u, t].Sublist txs ∧ Conflicts u t

theorem mem_earlierConflicts {txs : List Transaction} {u t : Transaction} :
    u ∈ earlierConflicts txs t ↔ [u, t].Sublist txs ∧ Conflicts u t := by
  rw [earlierConflicts, List.mem_filter, decide_eq_true_eq]
  exact ⟨fun h => h.2, fun h => ⟨h.1.subset (by simp), h⟩⟩

section Justified

variable {txs : List Transaction} (hsig : (txs.map (·.signature)).Nodup)
include hsig

theorem exists_earlierConflict {t : Transaction} (ht : t ∈ txs) {j : Nat}
    (hj : j < (scheduleBlock txs).stepOf t.signature) :
    ∃ u ∈ earlierConflicts txs t, (scheduleBlock txs).stepOf u.signature = j := by
  obtain ⟨u, hdep, hu⟩ := (stepOf_greedy hsig).justified ht j hj
  exact ⟨u, mem_earlierConflicts.mpr hdep, hu⟩

/-- The steps before that of `t` are among those of its earlier conflicts. -/
theorem stepOf_le_earlierConflicts {t : Transaction} (ht : t ∈ txs) :
    (scheduleBlock txs).stepOf t.signature ≤ (earlierConflicts txs t).length := by
  have hsubset : List.range ((scheduleBlock txs).stepOf t.signature)
      ⊆ (earlierConflicts txs t).map fun u => (scheduleBlock txs).stepOf u.signature := by
    intro j hj
    obtain ⟨u, hu, hstep⟩ := exists_earlierConflict hsig ht (List.mem_range.mp hj)
    exact List.mem_map.mpr ⟨u, hu, hstep⟩
  have hle := (List.nodup_range.subperm hsubset).length_le
  rwa [List.length_range, List.length_map] at hle

/-- The last step holds some transaction, whose index is the depth less one. -/
theorem depth_le_earlierConflicts :
    (scheduleBlock txs).steps.length
      ≤ 1 + txs.toFinset.sup fun t => (earlierConflicts txs t).length := by
  cases hdepth : (scheduleBlock txs).steps.length with
  | zero => exact Nat.zero_le _
  | succ k =>
      have hk : k < (scheduleBlock txs).steps.length := by omega
      have hlast : (scheduleBlock txs).steps.getD k [] = (scheduleBlock txs).steps[k] := by
        rw [List.getD_eq_getElem?_getD, List.getElem?_eq_getElem hk, Option.getD_some]
      obtain ⟨sig, hsigIn⟩ := List.exists_mem_of_ne_nil _ (steps_ne_nil txs _ (List.getElem_mem hk))
      rw [← hlast, getD_steps hsig] at hsigIn
      obtain ⟨t, hmem, -⟩ := List.mem_map.mp hsigIn
      obtain ⟨ht, hplaced⟩ := List.mem_filter.mp hmem
      have hstep : (scheduleBlock txs).stepOf t.signature = k := of_decide_eq_true hplaced
      have hbound := stepOf_le_earlierConflicts hsig ht
      have hsup : (earlierConflicts txs t).length
          ≤ txs.toFinset.sup fun t => (earlierConflicts txs t).length :=
        Finset.le_sup (f := fun t => (earlierConflicts txs t).length) (List.mem_toFinset.mpr ht)
      omega

end Justified

/-- Every step that a transaction was not put in, though it comes before its
own, holds an earlier transaction in conflict with it; so the step index is at
most the number of these, and the depth at most one more than the largest such
number. -/
theorem firstFit_justified (txs : List Transaction) (hsig : (txs.map (·.signature)).Nodup) :
    (∀ t ∈ txs, ∀ k, t.signature ∈ (scheduleBlock txs).steps.getD k [] → ∀ j < k,
        ∃ u ∈ earlierConflicts txs t, u.signature ∈ (scheduleBlock txs).steps.getD j [])
      ∧ (∀ t ∈ txs, ∀ k, t.signature ∈ (scheduleBlock txs).steps.getD k [] →
          k ≤ (earlierConflicts txs t).length)
      ∧ (scheduleBlock txs).steps.length
          ≤ 1 + txs.toFinset.sup fun t => (earlierConflicts txs t).length := by
  refine ⟨?_, ?_, depth_le_earlierConflicts hsig⟩
  · intro t ht k hk j hj
    rw [mem_step_iff hsig ht] at hk
    obtain ⟨u, hu, hstep⟩ := exists_earlierConflict hsig ht (hk.symm ▸ hj)
    have hmem : u ∈ txs := (mem_earlierConflicts.mp hu).1.subset (by simp)
    exact ⟨u, hu, (mem_step_iff hsig hmem).mpr hstep⟩
  · intro t ht k hk
    rw [← (mem_step_iff hsig ht).mp hk]
    exact stepOf_le_earlierConflicts hsig ht

/-- The read of `A` waits for the write, and is one of one. -/
theorem firstFit_justified_mixedLocks :
    (earlierConflicts mixedLocks ⟨"t2", 1, ["P"], [⟨"A", false⟩, ⟨"B", true⟩]⟩).length = 1
      ∧ (scheduleBlock mixedLocks).steps.length
          ≤ 1 + mixedLocks.toFinset.sup fun t => (earlierConflicts mixedLocks t).length :=
  ⟨by decide, (firstFit_justified mixedLocks (by decide)).2.2⟩

end Astralane
