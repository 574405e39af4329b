import Mathlib.Algebra.BigOperators.Group.List.Lemmas
import Mathlib.Algebra.Group.Prod
import Mathlib.Algebra.GroupWithZero.Nat
import Mathlib.Data.List.Dedup
import Astralane.Buckets
import Astralane.Keyed

/-!
# Sums and tallies over an entry map

A sum over the entries is a sum of lookups, over any list of distinct keys that
covers them (`sum_rows`).

A tally counts the elements of a list under a key, those with a flag apart from those
without: one `entry` per element. The counts of a key are `countP`s of the list,
the keys are those that occur, the totals add up to the length of the list, and
the order of the list does not matter.
-/

/-- Count one more, on the side of `flag`. -/
def countOne (flag : Bool) (c : Nat × Nat) : Nat × Nat :=
  if flag then (c.1 + 1, c.2) else (c.1, c.2 + 1)

namespace Keyed

variable {α κ : Type*} [DecidableEq κ] (key : α → κ) (flag : α → Bool)

def tally (m : EntryMap κ (Nat × Nat)) (l : List α) : EntryMap κ (Nat × Nat) :=
  l.foldl (fun m x => m.entry (key x) (0, 0) (countOne (flag x))) m

@[simp] theorem tally_nil (m : EntryMap κ (Nat × Nat)) : tally key flag m [] = m := rfl

@[simp] theorem tally_cons (m : EntryMap κ (Nat × Nat)) (x : α) (l : List α) :
    tally key flag m (x :: l) = tally key flag (m.entry (key x) (0, 0) (countOne (flag x))) l := rfl

theorem tally_append (m : EntryMap κ (Nat × Nat)) (l l' : List α) :
    tally key flag m (l ++ l') = tally key flag (tally key flag m l) l' := by
  simp [tally]

theorem foldl_countOne (l : List α) (c : Nat × Nat) :
    l.foldl (fun c x => countOne (flag x) c) c
      = (c.1 + l.countP flag, c.2 + l.countP fun x => !flag x) := by
  induction l generalizing c with
  | nil => rfl
  | cons x l ih =>
      rw [List.foldl_cons, ih, List.countP_cons, List.countP_cons]
      cases hx : flag x <;> simp [countOne, Nat.add_assoc, Nat.add_comm 1]

/-- The counts of a key: the elements with it, split by the flag. -/
def counts (l : List α) (k : κ) : Nat × Nat :=
  (l.countP fun x => decide (key x = k) && flag x, l.countP fun x => decide (key x = k) && !flag x)

variable {key flag}

theorem counts_append (l l' : List α) (k : κ) :
    counts key flag (l ++ l') k = counts key flag l k + counts key flag l' k := by
  simp only [counts, List.countP_append, Prod.mk_add_mk]

theorem counts_perm {l l' : List α} (h : l.Perm l') (k : κ) :
    counts key flag l k = counts key flag l' k := by
  rw [counts, counts, h.countP_eq, h.countP_eq]

theorem counts_le {l l' : List α} (h : l.Subperm l') (k : κ) :
    counts key flag l k ≤ counts key flag l' k :=
  ⟨h.countP_le _, h.countP_le _⟩

theorem counts_eq_zero {l : List α} {k : κ} (hk : k ∉ l.map key) :
    counts key flag l k = (0, 0) := by
  have hnone : ∀ x ∈ l, key x ≠ k := fun x hx hxk => hk (List.mem_map.mpr ⟨x, hx, hxk⟩)
  refine Prod.ext (List.countP_eq_zero.mpr ?_) (List.countP_eq_zero.mpr ?_)
  · exact fun x hx => by simp [hnone x hx]
  · exact fun x hx => by simp [hnone x hx]

theorem counts_add (l : List α) (k : κ) :
    (counts key flag l k).1 + (counts key flag l k).2 = (l.map key).count k := by
  induction l with
  | nil => rfl
  | cons x l ih =>
      have hcount : (List.map key (x :: l)).count k
          = (l.map key).count k + if key x = k then 1 else 0 := by
        rw [List.map_cons, List.count_cons]
        simp
      rw [hcount, ← ih]
      simp only [counts, List.countP_cons]
      by_cases hk : key x = k
      · cases hx : flag x <;> simp [hk] <;> omega
      · simp [hk]

theorem get?_tally (l : List α) (k : κ) :
    (tally key flag .empty l).get? k
      = if k ∈ l.map key then some (counts key flag l k) else none := by
  rw [tally, get?_foldl_entry key (0, 0) fun x => countOne (flag x)]
  by_cases hk : k ∈ l.map key
  · have hne : l.filter (key · = k) ≠ [] := by
      obtain ⟨x, hx, hxk⟩ := List.mem_map.mp hk
      exact List.ne_nil_of_mem (List.mem_filter.mpr ⟨hx, by simpa using hxk⟩)
    rw [if_neg hne, if_pos hk, foldl_countOne, counts]
    simp [List.countP_filter, Bool.and_comm]
  · have hnil : l.filter (key · = k) = [] := by
      rw [List.filter_eq_nil_iff]
      exact fun x hx hxk => hk (List.mem_map.mpr ⟨x, hx, by simpa using hxk⟩)
    rw [if_pos hnil, if_neg hk]
    rfl

/-- A row of the tally: its key occurs, and it holds the counts of that key. -/
theorem mem_tally {l : List α} {k : κ} {c : Nat × Nat} :
    (k, c) ∈ (tally key flag .empty l).rows ↔ k ∈ l.map key ∧ c = counts key flag l k := by
  rw [mem_rows_iff_get?, get?_tally]
  by_cases hk : k ∈ l.map key
  · rw [if_pos hk, Option.some.injEq, eq_comm, and_iff_right hk]
  · simp [hk]

/-- Every element is counted once. -/
theorem sum_tally (l : List α) :
    ((tally key flag .empty l).rows.map fun r => r.2.1 + r.2.2).sum = l.length := by
  have hkeys : ((tally key flag .empty l).rows.map (·.1)).Perm (l.map key).dedup := by
    refine (List.perm_ext_iff_of_nodup (tally key flag .empty l).nodup (List.nodup_dedup _)).mpr
      fun k => ?_
    rw [List.mem_map, List.mem_dedup]
    constructor
    · rintro ⟨⟨k, c⟩, hr, rfl⟩
      exact (mem_tally.mp hr).1
    · exact fun hk => ⟨(k, counts key flag l k), mem_tally.mpr ⟨hk, rfl⟩, rfl⟩
  have hrows : ((tally key flag .empty l).rows.map fun r => r.2.1 + r.2.2)
      = ((tally key flag .empty l).rows.map (·.1)).map fun k => (l.map key).count k := by
    rw [List.map_map]
    refine List.map_congr_left fun ⟨k, c⟩ hr => ?_
    obtain ⟨-, rfl⟩ := mem_tally.mp hr
    exact counts_add l k
  rw [hrows, (hkeys.map _).sum_eq, List.sum_map_count_dedup_eq_length, List.length_map]

/-- A sum over the entries, key by key. -/
theorem sum_rows {ν M : Type*} [AddCommMonoid M] (m : EntryMap κ ν) (v : κ × ν → M) {ks : List κ}
    (hnd : ks.Nodup) (hks : ∀ r ∈ m.rows, r.1 ∈ ks) :
    (m.rows.map v).sum = (ks.map fun k => ((m.get? k).map fun e => v (k, e)).getD 0).sum := by
  rw [sum_map_fibers Prod.fst v m.rows hnd hks]
  refine congrArg List.sum (List.map_congr_left fun k _ => ?_)
  have hfiber : (m.rows.filter fun r => decide (r.1 = k)) = (m.find? k).toList := by
    have h := filter_rows_key m k fun _ => true
    simp only [Bool.and_true] at h
    rw [h]
    cases m.find? k <;> rfl
  rw [hfiber, get?]
  cases hfind : m.find? k with
  | none => rfl
  | some r =>
      obtain ⟨-, rfl⟩ := find?_eq_some.mp hfind
      simp

end Keyed
