import Mathlib.Data.List.Nodup
import Mathlib.Data.List.Perm.Basic
import Mathlib.Tactic.Common

/-!
# Keyed row collections

Rows with pairwise distinct keys, the invariant being a field: a database table
under its primary key, or a hash map when the rows are pairs keyed by their
first component (`EntryMap`).

A collection is determined, up to the order of its rows, by its lookups
(`perm_of_find?`), so every operation has one characterization, of what
`find?` returns after it:

- `insertOrIgnore`, and `insertAll` for a sequence of them: the oldest row of a
  key wins;
- `upsert`, `replaceAll`: the youngest wins;
- `update`: rows change in place, their keys stay;
- `entry`: the value is updated in place, starting from a default.

`IterOrder` is an unspecified iteration order: any arrangement of the rows.
-/

/-- Rows with pairwise distinct keys. -/
structure Keyed {ρ κ : Type*} (key : ρ → κ) where
  rows : List ρ
  nodup : (rows.map key).Nodup
deriving DecidableEq

namespace Keyed

variable {ρ κ : Type*} {key : ρ → κ}

def empty : Keyed key where
  rows := []
  nodup := List.nodup_nil

@[simp] theorem empty_rows : (empty : Keyed key).rows = [] := rfl

theorem rows_nodup (t : Keyed key) : t.rows.Nodup := t.nodup.of_map

theorem eq_of_key_eq (t : Keyed key) {r r' : ρ} (hr : r ∈ t.rows) (hr' : r' ∈ t.rows)
    (h : key r = key r') : r = r' :=
  List.inj_on_of_nodup_map t.nodup hr hr' h

/-! ## Update in place -/

/-- Change rows without changing their keys. -/
def update (t : Keyed key) (f : ρ → ρ) (hf : ∀ r, key (f r) = key r) : Keyed key where
  rows := t.rows.map f
  nodup := by
    rw [List.map_map, show key ∘ f = key from funext hf]
    exact t.nodup

theorem update_update (t : Keyed key) {f g : ρ → ρ} (hf : ∀ r, key (f r) = key r)
    (hg : ∀ r, key (g r) = key r) :
    (t.update f hf).update g hg = t.update (g ∘ f) fun r => (hg (f r)).trans (hf r) := by
  simp only [update, List.map_map]

/-- An update that leaves a collection as it was leaves each row as it was. -/
theorem update_eq_self {t : Keyed key} {f : ρ → ρ} (hf : ∀ r, key (f r) = key r) :
    t.update f hf = t ↔ ∀ r ∈ t.rows, f r = r := by
  constructor
  · intro h r hr
    have hmem : f r ∈ t.rows := by
      have himage : f r ∈ (t.update f hf).rows := List.mem_map_of_mem hr
      rwa [h] at himage
    exact t.eq_of_key_eq hmem hr (hf r)
  · intro h
    have hrows : t.rows.map f = t.rows := (List.map_congr_left h).trans (List.map_id' t.rows)
    unfold update
    simp only [hrows]

/-! ## Lookup -/

variable [DecidableEq κ]

def find? (t : Keyed key) (k : κ) : Option ρ :=
  t.rows.find? fun r => key r = k

@[simp] theorem find?_empty (k : κ) : (empty : Keyed key).find? k = none := rfl

theorem find?_eq_some {t : Keyed key} {k : κ} {r : ρ} :
    t.find? k = some r ↔ r ∈ t.rows ∧ key r = k := by
  constructor
  · intro h
    exact ⟨List.mem_of_find?_eq_some h, by simpa using List.find?_some h⟩
  · rintro ⟨hr, rfl⟩
    cases h : t.find? (key r) with
    | none => simpa using List.find?_eq_none.mp h r hr
    | some r' =>
        have hr' : r' ∈ t.rows := List.mem_of_find?_eq_some h
        have hk : key r' = key r := by simpa using List.find?_some h
        rw [t.eq_of_key_eq hr' hr hk]

theorem find?_eq_none {t : Keyed key} {k : κ} : t.find? k = none ↔ ∀ r ∈ t.rows, key r ≠ k := by
  simp [find?]

theorem mem_rows_iff {t : Keyed key} {r : ρ} : r ∈ t.rows ↔ t.find? (key r) = some r := by
  rw [find?_eq_some]
  simp

theorem perm_of_find? {t t' : Keyed key} (h : ∀ k, t.find? k = t'.find? k) :
    t.rows.Perm t'.rows := by
  rw [List.perm_ext_iff_of_nodup t.rows_nodup t'.rows_nodup]
  intro r
  rw [mem_rows_iff, mem_rows_iff, h]

theorem find?_of_perm {t t' : Keyed key} (h : t.rows.Perm t'.rows) (k : κ) :
    t.find? k = t'.find? k := by
  refine Option.ext fun r => ?_
  rw [find?_eq_some, find?_eq_some, h.mem_iff]

/-- Selecting by key and a further condition yields the row of that key or nothing. -/
theorem filter_rows_key (t : Keyed key) (k : κ) (p : ρ → Bool) :
    t.rows.filter (fun r => decide (key r = k) && p r) = ((t.find? k).filter p).toList := by
  obtain ⟨rows, hnd⟩ := t
  induction rows with
  | nil => rfl
  | cons r rows ih =>
      obtain ⟨hr, hnd'⟩ := List.nodup_cons.mp hnd
      by_cases hk : key r = k
      · have hrest : rows.filter (fun r => decide (key r = k) && p r) = [] := by
          rw [List.filter_eq_nil_iff]
          intro s hs hsk
          have hsk : key s = k := by
            rw [Bool.and_eq_true, decide_eq_true_eq] at hsk
            exact hsk.1
          exact hr (List.mem_map.mpr ⟨s, hs, hsk.trans hk.symm⟩)
        rw [List.filter_cons, hrest]
        by_cases hp : p r = true <;> simp [find?, hk, hp, Option.filter]
      · have hfind : (⟨r :: rows, hnd⟩ : Keyed key).find? k
            = (⟨rows, hnd'⟩ : Keyed key).find? k := by
          simp [find?, hk]
        rw [hfind, ← ih hnd']
        simp [hk]

theorem any_rows_key (t : Keyed key) (k : κ) (p : ρ → Bool) :
    t.rows.any (fun r => decide (key r = k) && p r) = (t.find? k).any p := by
  rw [Bool.eq_iff_iff, List.any_eq_true, Option.any_eq_true]
  constructor
  · rintro ⟨r, hr, hp⟩
    rw [Bool.and_eq_true, decide_eq_true_eq] at hp
    exact ⟨r, find?_eq_some.mpr ⟨hr, hp.1⟩, hp.2⟩
  · rintro ⟨r, hr, hp⟩
    obtain ⟨hmem, hk⟩ := find?_eq_some.mp hr
    exact ⟨r, hmem, by rw [hp, hk]; simp⟩

/-! ## Insert or ignore -/

def insertOrIgnore (t : Keyed key) (r : ρ) : Keyed key :=
  if h : ∃ r' ∈ t.rows, key r' = key r then t
  else
    { rows := t.rows ++ [r]
      nodup := by
        rw [List.map_append, List.nodup_append]
        refine ⟨t.nodup, by simp, ?_⟩
        rintro k hk k' hk' rfl
        obtain ⟨r', hr', rfl⟩ := List.mem_map.mp hk
        exact h ⟨r', hr', by simpa using hk'⟩ }

def insertAll (t : Keyed key) (rs : List ρ) : Keyed key :=
  rs.foldl insertOrIgnore t

@[simp] theorem insertAll_nil (t : Keyed key) : t.insertAll [] = t := rfl

@[simp] theorem insertAll_cons (t : Keyed key) (r : ρ) (rs : List ρ) :
    t.insertAll (r :: rs) = (t.insertOrIgnore r).insertAll rs := rfl

theorem insertAll_append (t : Keyed key) (rs rs' : List ρ) :
    t.insertAll (rs ++ rs') = (t.insertAll rs).insertAll rs' := by
  simp [insertAll]

theorem insertOrIgnore_of_present {t : Keyed key} {r : ρ} (h : t.find? (key r) ≠ none) :
    t.insertOrIgnore r = t := by
  obtain ⟨r', hr'⟩ := Option.ne_none_iff_exists'.mp h
  obtain ⟨hmem, hk⟩ := find?_eq_some.mp hr'
  rw [insertOrIgnore, dif_pos ⟨r', hmem, hk⟩]

theorem insertOrIgnore_of_absent {t : Keyed key} {r : ρ} (h : t.find? (key r) = none) :
    (t.insertOrIgnore r).rows = t.rows ++ [r] := by
  have hno : ¬∃ r' ∈ t.rows, key r' = key r := fun ⟨r', hr', hk⟩ => find?_eq_none.mp h r' hr' hk
  rw [insertOrIgnore, dif_neg hno]

theorem find?_insertOrIgnore (t : Keyed key) (r : ρ) (k : κ) :
    (t.insertOrIgnore r).find? k = (t.find? k).or (if key r = k then some r else none) := by
  cases h : t.find? (key r) with
  | some r' =>
      rw [insertOrIgnore_of_present (by simp [h])]
      split
      · rename_i hk
        rw [← hk, h]
        rfl
      · simp
  | none =>
      rw [find?, insertOrIgnore_of_absent h, List.find?_append]
      by_cases hk : key r = k <;> simp [find?, hk]

/-- After a sequence of inserts the row of a key is the old one, if there was
one, and else the first inserted. -/
theorem find?_insertAll (t : Keyed key) (rs : List ρ) (k : κ) :
    (t.insertAll rs).find? k = (t.find? k).or (rs.find? fun r => key r = k) := by
  induction rs generalizing t with
  | nil => simp
  | cons r rs ih =>
      rw [insertAll_cons, ih, find?_insertOrIgnore, Option.or_assoc]
      by_cases hk : key r = k <;> simp [hk]

theorem find?_insertAll_of_present {t : Keyed key} {rs : List ρ} {k : κ} {r : ρ}
    (h : t.find? k = some r) : (t.insertAll rs).find? k = some r := by
  rw [find?_insertAll, h]
  rfl

theorem find?_insertAll_mem (t : Keyed key) {rs : List ρ} {r : ρ} (h : r ∈ rs) :
    (t.insertAll rs).find? (key r) ≠ none := by
  rw [find?_insertAll, ne_eq, Option.or_eq_none_iff, not_and_or]
  right
  simpa using ⟨r, h, rfl⟩

/-- A batch whose keys are all taken adds nothing. -/
theorem insertAll_of_present {t : Keyed key} {rs : List ρ} (h : ∀ r ∈ rs, t.find? (key r) ≠ none) :
    t.insertAll rs = t := by
  induction rs with
  | nil => rfl
  | cons r rs ih =>
      rw [insertAll_cons, insertOrIgnore_of_present (h r List.mem_cons_self)]
      exact ih fun s hs => h s (List.mem_cons_of_mem r hs)

/-- Inserting again what was inserted before adds nothing. -/
theorem insertAll_absorbed (t : Keyed key) {rs rs' : List ρ} (h : ∀ r ∈ rs', r ∈ rs) :
    (t.insertAll rs).insertAll rs' = t.insertAll rs :=
  insertAll_of_present fun r hr => find?_insertAll_mem t (h r hr)

/-- A row is added only under a key that was free. -/
theorem mem_insertAll {t : Keyed key} {rs : List ρ} {r : ρ} (h : r ∈ (t.insertAll rs).rows) :
    r ∈ t.rows ∨ t.find? (key r) = none ∧ r ∈ rs := by
  rw [mem_rows_iff, find?_insertAll, Option.or_eq_some_iff] at h
  rcases h with h | ⟨hfree, h⟩
  · exact Or.inl (mem_rows_iff.mpr h)
  · exact Or.inr ⟨hfree, List.mem_of_find?_eq_some h⟩

/-- No row is ever changed or removed by an insert. -/
theorem mem_insertAll_of_mem {t : Keyed key} {rs : List ρ} {r : ρ} (h : r ∈ t.rows) :
    r ∈ (t.insertAll rs).rows :=
  mem_rows_iff.mpr (find?_insertAll_of_present (mem_rows_iff.mp h))

/-- When equal keys come with equal rows, nothing is lost to an older row. -/
theorem mem_insertAll_of_consistent {rs : List ρ}
    (h : ∀ r ∈ rs, ∀ s ∈ rs, key r = key s → r = s) {r : ρ} :
    r ∈ ((empty : Keyed key).insertAll rs).rows ↔ r ∈ rs := by
  rw [mem_rows_iff, find?_insertAll, find?_empty, Option.none_or]
  constructor
  · exact List.mem_of_find?_eq_some
  · intro hr
    cases hs : rs.find? fun s => key s = key r with
    | none => simpa using List.find?_eq_none.mp hs r hr
    | some s =>
        have hk : key s = key r := by simpa using List.find?_some hs
        rw [h s (List.mem_of_find?_eq_some hs) r hr hk]

/-- If one batch alone can contribute to a key, only the set of batches written
matters for it: neither their order nor repetitions do. -/
theorem find?_insertAll_flatMap_congr {β : Type*} {R : β → List ρ} {ws vs : List β}
    (hmem : ∀ b, b ∈ ws ↔ b ∈ vs)
    (howner : ∀ b ∈ vs, ∀ c ∈ vs, ∀ r ∈ R b, ∀ s ∈ R c, key r = key s → b = c) (k : κ) :
    ((empty : Keyed key).insertAll (ws.flatMap R)).find? k
      = ((empty : Keyed key).insertAll (vs.flatMap R)).find? k := by
  have hfirst : ∀ {us : List β} {r : ρ}, (∀ b ∈ us, b ∈ vs) →
      ((us.flatMap R).find? (fun r => key r = k) = some r ↔
        ∃ b ∈ us, (R b).find? (fun r => key r = k) = some r) := by
    intro us r hus
    rw [List.find?_flatMap]
    constructor
    · exact List.exists_of_findSome?_eq_some
    · rintro ⟨b, hb, hr⟩
      cases hsome : us.findSome? fun b => (R b).find? fun r => key r = k with
      | none => simp [List.findSome?_eq_none_iff.mp hsome b hb] at hr
      | some s =>
          obtain ⟨c, hc, hs⟩ := List.exists_of_findSome?_eq_some hsome
          have hrk : key r = k := by simpa using List.find?_some hr
          have hsk : key s = k := by simpa using List.find?_some hs
          obtain rfl := howner b (hus b hb) c (hus c hc) r (List.mem_of_find?_eq_some hr) s
            (List.mem_of_find?_eq_some hs) (hrk.trans hsk.symm)
          exact hs.symm.trans hr
  rw [find?_insertAll, find?_insertAll, find?_empty, Option.none_or, Option.none_or]
  refine Option.ext fun r => ?_
  rw [hfirst fun b hb => (hmem b).mp hb, hfirst fun b hb => hb]
  exact exists_congr fun b => and_congr_left' (hmem b)

/-- A batch that alone has its keys among those written keeps its rows, as it
would have them alone. -/
theorem mem_insertAll_flatMap_of_owner {β : Type*} {R : β → List ρ} {ws : List β} {b : β}
    (hb : b ∈ ws) (howner : ∀ c ∈ ws, ∀ r ∈ R b, ∀ s ∈ R c, key r = key s → c = b) {r : ρ}
    (hr : r ∈ ((empty : Keyed key).insertAll (R b)).rows) :
    r ∈ ((empty : Keyed key).insertAll (ws.flatMap R)).rows := by
  rw [mem_rows_iff, find?_insertAll, find?_empty, Option.none_or] at hr ⊢
  rw [List.find?_flatMap]
  have hmem : r ∈ R b := List.mem_of_find?_eq_some hr
  cases hfirst : ws.findSome? fun c => (R c).find? fun s => key s = key r with
  | none => simp [List.findSome?_eq_none_iff.mp hfirst b hb] at hr
  | some s =>
      obtain ⟨c, hc, hs⟩ := List.exists_of_findSome?_eq_some hfirst
      have hkey : key s = key r := by simpa using List.find?_some hs
      obtain rfl := howner c hc r hmem s (List.mem_of_find?_eq_some hs) hkey.symm
      exact hs.symm.trans hr

/-! ## Insert or replace -/

def upsert (t : Keyed key) (r : ρ) : Keyed key :=
  if h : ∃ r' ∈ t.rows, key r' = key r then
    { rows := t.rows.map fun r' => if key r' = key r then r else r'
      nodup := by
        have hkeys : (t.rows.map fun r' => if key r' = key r then r else r').map key
            = t.rows.map key := by
          rw [List.map_map]
          refine List.map_congr_left fun r' _ => ?_
          by_cases hk : key r' = key r <;> simp [hk]
        rw [hkeys]
        exact t.nodup }
  else t.insertOrIgnore r

def replaceAll (t : Keyed key) (rs : List ρ) : Keyed key :=
  rs.foldl upsert t

@[simp] theorem replaceAll_nil (t : Keyed key) : t.replaceAll [] = t := rfl

@[simp] theorem replaceAll_cons (t : Keyed key) (r : ρ) (rs : List ρ) :
    t.replaceAll (r :: rs) = (t.upsert r).replaceAll rs := rfl

theorem find?_upsert (t : Keyed key) (r : ρ) (k : κ) :
    (t.upsert r).find? k = if key r = k then some r else t.find? k := by
  unfold upsert
  split
  · rename_i h
    refine Option.ext fun s => ?_
    rw [find?_eq_some]
    simp only [List.mem_map]
    constructor
    · rintro ⟨⟨r', hr', rfl⟩, hk⟩
      by_cases hkey : key r' = key r
      · rw [if_pos hkey] at hk ⊢
        rw [if_pos hk]
      · rw [if_neg hkey] at hk ⊢
        rw [if_neg (fun hrk => hkey (hk.trans hrk.symm)), find?_eq_some]
        exact ⟨hr', hk⟩
    · intro hs
      split at hs
      · obtain rfl := Option.some.inj hs
        obtain ⟨r', hr', hk'⟩ := h
        rename_i hk
        exact ⟨⟨r', hr', by simp [hk']⟩, hk⟩
      · rename_i hne
        obtain ⟨hmem, hk⟩ := find?_eq_some.mp hs
        exact ⟨⟨s, hmem, if_neg fun h => hne (h.symm.trans hk)⟩, hk⟩
  · rename_i h
    have hnone : t.find? (key r) = none := find?_eq_none.mpr fun r' hr' hk => h ⟨r', hr', hk⟩
    rw [find?_insertOrIgnore]
    by_cases hk : key r = k
    · rw [← hk, hnone]
      simp
    · simp [hk]

/-- After a sequence of upserts the row of a key is the last one written, and
the old one when none was. -/
theorem find?_replaceAll (t : Keyed key) (rs : List ρ) (k : κ) :
    (t.replaceAll rs).find? k = (rs.reverse.find? fun r => key r = k).or (t.find? k) := by
  induction rs generalizing t with
  | nil => simp
  | cons r rs ih =>
      rw [replaceAll_cons, ih, find?_upsert, List.reverse_cons, List.find?_append, Option.or_assoc]
      by_cases hk : key r = k <;> simp [hk]

theorem mem_keys_iff {t : Keyed key} {k : κ} :
    k ∈ t.rows.map key ↔ ∃ r, t.find? k = some r := by
  rw [List.mem_map]
  exact exists_congr fun r => find?_eq_some.symm

theorem mem_keys_replaceAll {rs : List ρ} {k : κ} :
    k ∈ ((empty : Keyed key).replaceAll rs).rows.map key ↔ k ∈ rs.map key := by
  rw [mem_keys_iff, find?_replaceAll, find?_empty, Option.or_none]
  constructor
  · rintro ⟨r, hr⟩
    have hk := List.find?_some hr
    exact List.mem_map.mpr
      ⟨r, List.mem_reverse.mp (List.mem_of_find?_eq_some hr), of_decide_eq_true hk⟩
  · intro hk
    obtain ⟨r, hr, hk⟩ := List.mem_map.mp hk
    rw [← Option.isSome_iff_exists, List.find?_isSome]
    exact ⟨r, List.mem_reverse.mpr hr, decide_eq_true hk⟩

/-- What is found after an upsert was upserted or there before. -/
theorem mem_replaceAll {t : Keyed key} {rs : List ρ} {r : ρ} (h : r ∈ (t.replaceAll rs).rows) :
    r ∈ rs ∨ r ∈ t.rows := by
  rw [mem_rows_iff, find?_replaceAll, Option.or_eq_some_iff] at h
  rcases h with h | ⟨-, h⟩
  · exact Or.inl (List.mem_reverse.mp (List.mem_of_find?_eq_some h))
  · exact Or.inr (mem_rows_iff.mpr h)

/-- No key is lost, and the keys upserted are there. -/
theorem mem_keys_replaceAll_of_mem {t : Keyed key} {rs : List ρ} {k : κ}
    (h : k ∈ t.rows.map key ∨ k ∈ rs.map key) : k ∈ (t.replaceAll rs).rows.map key := by
  rw [mem_keys_iff, find?_replaceAll]
  cases hfind : rs.reverse.find? fun r => key r = k with
  | some r => exact ⟨r, rfl⟩
  | none =>
      rw [Option.none_or, ← mem_keys_iff]
      refine h.resolve_right fun hk => ?_
      obtain ⟨r, hr, hrk⟩ := List.mem_map.mp hk
      have hnot := List.find?_eq_none.mp hfind r (List.mem_reverse.mpr hr)
      exact hnot (decide_eq_true hrk)

theorem find?_replaceAll_of_nodup (t : Keyed key) {rs : List ρ} (h : (rs.map key).Nodup) (k : κ) :
    (t.replaceAll rs).find? k = (rs.find? fun r => key r = k).or (t.find? k) := by
  have hreverse : (rs.reverse.map key).Nodup := by
    rw [List.map_reverse]
    exact List.nodup_reverse.mpr h
  have hperm : (⟨rs.reverse, hreverse⟩ : Keyed key).rows.Perm (⟨rs, h⟩ : Keyed key).rows :=
    rs.reverse_perm
  rw [find?_replaceAll]
  exact congrArg (Option.or · (t.find? k)) (find?_of_perm hperm k)

/-- A batch of upserts leaves nothing but itself exactly when it covers every
key that was there. -/
theorem replaceAll_perm_iff (t : Keyed key) {rs : List ρ} (h : (rs.map key).Nodup) :
    (t.replaceAll rs).rows.Perm rs ↔ ∀ r ∈ t.rows, key r ∈ rs.map key := by
  constructor
  · intro hperm r hr
    by_contra hkey
    have hnone : (rs.find? fun s => key s = key r) = none := by
      rw [List.find?_eq_none]
      exact fun s hs hsr => hkey (List.mem_map.mpr ⟨s, hs, by simpa using hsr⟩)
    have hstays : r ∈ (t.replaceAll rs).rows := by
      rw [mem_rows_iff, find?_replaceAll_of_nodup t h, hnone, Option.none_or]
      exact mem_rows_iff.mp hr
    exact hkey (List.mem_map.mpr ⟨r, hperm.mem_iff.mp hstays, rfl⟩)
  · intro hcover
    have hlookup : ∀ k, (t.replaceAll rs).find? k = (⟨rs, h⟩ : Keyed key).find? k := by
      intro k
      rw [find?_replaceAll_of_nodup t h]
      change (rs.find? fun r => key r = k).or (t.find? k) = rs.find? fun r => key r = k
      cases hfind : rs.find? fun r => key r = k with
      | some r => rfl
      | none =>
          rw [Option.none_or, find?_eq_none]
          intro r hr hk
          obtain ⟨s, hs, hsr⟩ := List.mem_map.mp (hcover r hr)
          simpa [hsr, hk] using List.find?_eq_none.mp hfind s hs
    exact perm_of_find? hlookup

/-! ## Removal -/

def erase (t : Keyed key) (k : κ) : Keyed key where
  rows := t.rows.filter fun r => key r ≠ k
  nodup := (List.filter_sublist.map key).nodup t.nodup

theorem find?_erase (t : Keyed key) (k k' : κ) :
    (t.erase k).find? k' = if k = k' then none else t.find? k' := by
  refine Option.ext fun r => ?_
  rw [find?_eq_some, erase, List.mem_filter, decide_eq_true_eq]
  by_cases h : k = k'
  · rw [if_pos h, h]
    constructor
    · rintro ⟨⟨-, hne⟩, hk⟩
      exact absurd hk hne
    · exact fun hr => nomatch hr
  · rw [if_neg h, find?_eq_some]
    constructor
    · rintro ⟨⟨hr, -⟩, hk⟩
      exact ⟨hr, hk⟩
    · rintro ⟨hr, hk⟩
      exact ⟨⟨hr, fun hrk => h (hrk.symm.trans hk)⟩, hk⟩

end Keyed

/-! ## Entry maps -/

/-- A map as a keyed collection of its entries. -/
abbrev EntryMap (κ ν : Type*) := Keyed (Prod.fst : κ × ν → κ)

namespace Keyed

variable {κ ν α : Type*} [DecidableEq κ]

def get? (m : EntryMap κ ν) (k : κ) : Option ν :=
  (m.find? k).map Prod.snd

/-- `entry(k).or_insert(init)`, then `f` on the value in place. -/
def entry (m : EntryMap κ ν) (k : κ) (init : ν) (f : ν → ν) : EntryMap κ ν :=
  m.upsert (k, f ((m.get? k).getD init))

@[simp] theorem get?_empty (k : κ) : (Keyed.empty : EntryMap κ ν).get? k = none := rfl

theorem mem_rows_iff_get? {m : EntryMap κ ν} {k : κ} {v : ν} :
    (k, v) ∈ m.rows ↔ m.get? k = some v := by
  rw [Keyed.mem_rows_iff, get?, Option.map_eq_some_iff]
  constructor
  · exact fun h => ⟨(k, v), h, rfl⟩
  · rintro ⟨⟨k', v'⟩, h, rfl⟩
    obtain ⟨-, rfl⟩ := Keyed.find?_eq_some.mp h
    exact h

theorem get?_entry (m : EntryMap κ ν) (k k' : κ) (init : ν) (f : ν → ν) :
    (m.entry k init f).get? k' =
      if k = k' then some (f ((m.get? k).getD init)) else m.get? k' := by
  rw [entry, get?, Keyed.find?_upsert]
  by_cases h : k = k' <;> simp [h, get?]

/-- An entry depends on the update only at the value it is applied to. -/
theorem entry_congr {m : EntryMap κ ν} {k : κ} {init : ν} {f g : ν → ν}
    (h : f ((m.get? k).getD init) = g ((m.get? k).getD init)) :
    m.entry k init f = m.entry k init g :=
  congrArg (fun v => m.upsert (k, v)) h

theorem get?_erase (m : EntryMap κ ν) (k k' : κ) :
    (m.erase k).get? k' = if k = k' then none else m.get? k' := by
  rw [get?, Keyed.find?_erase]
  by_cases h : k = k' <;> simp [h, get?]

/-- Tallying a list under `key`: the value of a key is the fold of the updates
over the elements with that key, in order; a key without elements keeps what
it had. -/
theorem get?_foldl_entry (key : α → κ) (init : ν) (upd : α → ν → ν) (l : List α)
    (m : EntryMap κ ν) (k : κ) :
    (l.foldl (fun m x => m.entry (key x) init (upd x)) m).get? k =
      if l.filter (key · = k) = [] then m.get? k
      else some ((l.filter (key · = k)).foldl (fun v x => upd x v) ((m.get? k).getD init)) := by
  induction l generalizing m with
  | nil => simp
  | cons x l ih =>
      rw [List.foldl_cons, ih, get?_entry]
      by_cases hx : key x = k
      · simp only [hx, ↓reduceIte, Option.getD_some, List.filter_cons, decide_true,
          List.foldl_cons, reduceCtorEq]
        split
        · rename_i hnil
          simp [hnil]
        · rfl
      · simp [hx]

end Keyed

/-! ## Unspecified iteration orders -/

/-- Any order in which a collection may be iterated. -/
structure IterOrder (α : Type*) where
  arrange : List α → List α
  perm : ∀ l, (arrange l).Perm l

/-- The order of the rows as stored. -/
def IterOrder.stored {α : Type*} : IterOrder α where
  arrange := id
  perm := List.Perm.refl
