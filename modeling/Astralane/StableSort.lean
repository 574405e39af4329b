import Mathlib.Data.List.Sort

/-!
# Stable sorting by a key

`sort_by_key`: a stable sort under a key from a linear order. What its callers
use of it:

- it rearranges its input, in non-decreasing order of the key
  (`sortByKey_perm`, `sortByKey_sorted`), and only one arrangement of elements
  with distinct keys is sorted (`sortByKey_eq_of_strict`);
- its first and last element, exactly, ties included: the first element is the
  *earliest* among those of least key (`IsFirst`), the last one the *latest*
  among those of greatest key (`IsLast`). Both notions pass to the sublist of
  the elements with a property (`IsFirst.filter`, `IsLast.filter`), and so from
  the groups of a regrouped input to the whole (`IsFirst.of_fibers`);
- its first elements in descending order: `n` elements of largest key, whatever
  decides between equal keys (`IsLargest`).
-/

section StableSort

variable {α κ : Type*} [LinearOrder κ]

def sortByKey (key : α → κ) (l : List α) : List α :=
  l.insertionSort fun a b => key a ≤ key b

variable {key : α → κ} {l l' : List α} {a : α}

theorem sortByKey_perm (key : α → κ) (l : List α) : (sortByKey key l).Perm l :=
  List.perm_insertionSort _ l

theorem mem_sortByKey : a ∈ sortByKey key l ↔ a ∈ l :=
  (sortByKey_perm key l).mem_iff

theorem sortByKey_sorted (key : α → κ) (l : List α) :
    (sortByKey key l).Pairwise fun a b => key a ≤ key b := by
  have htotal : Std.Total fun a b : α => key a ≤ key b := ⟨fun a b => le_total (key a) (key b)⟩
  have htrans : IsTrans α fun a b => key a ≤ key b := ⟨fun _ _ _ => le_trans⟩
  exact List.pairwise_insertionSort _ l

/-- Elements with distinct keys have one sorted arrangement. -/
theorem sortByKey_eq_of_strict (hperm : l.Perm l')
    (hstrict : l'.Pairwise fun a b => key a < key b) : sortByKey key l = l' := by
  have hinj : ∀ a ∈ l', ∀ b ∈ l', key a = key b → a = b := by
    have hne : (l'.map key).Nodup := by
      rw [List.Nodup, List.pairwise_map]
      exact hstrict.imp ne_of_lt
    exact fun a ha b hb h => List.inj_on_of_nodup_map hne ha hb h
  refine ((sortByKey_perm key l).trans hperm).eq_of_pairwise ?_ (sortByKey_sorted key l)
    (hstrict.imp le_of_lt)
  intro a b ha hb hab hba
  have ha' : a ∈ l' := hperm.mem_iff.mp (mem_sortByKey.mp ha)
  exact hinj a ha' b hb (le_antisymm hab hba)

theorem sortByKey_strict (hnd : (l.map key).Nodup) :
    (sortByKey key l).Pairwise fun a b => key a < key b := by
  have hne : (sortByKey key l).Pairwise fun a b => key a ≠ key b :=
    List.pairwise_map.mp (((sortByKey_perm key l).map key).nodup_iff.mpr hnd)
  exact (sortByKey_sorted key l).imp₂ (fun _ _ => lt_of_le_of_ne) hne

/-! ## The ends of a sorted list -/

/-- `a` occurs in `l` before every other element of least key. -/
def IsFirst (key : α → κ) (l : List α) (a : α) : Prop :=
  ∃ pre post, l = pre ++ a :: post ∧ (∀ x ∈ pre, key a < key x) ∧ ∀ x ∈ post, key a ≤ key x

/-- `a` occurs in `l` after every other element of greatest key. -/
def IsLast (key : α → κ) (l : List α) (a : α) : Prop :=
  ∃ pre post, l = pre ++ a :: post ∧ (∀ x ∈ pre, key x ≤ key a) ∧ ∀ x ∈ post, key x < key a

theorem IsFirst.mem (h : IsFirst key l a) : a ∈ l := by
  obtain ⟨pre, post, rfl, -, -⟩ := h
  simp

theorem IsFirst.le (h : IsFirst key l a) : ∀ x ∈ l, key a ≤ key x := by
  obtain ⟨pre, post, rfl, hpre, hpost⟩ := h
  intro x hx
  rcases List.mem_append.mp hx with hx | hx
  · exact le_of_lt (hpre x hx)
  · obtain rfl | hx := List.mem_cons.mp hx
    · exact le_rfl
    · exact hpost x hx

theorem IsFirst.filter (h : IsFirst key l a) {p : α → Bool} (hp : p a = true) :
    IsFirst key (l.filter p) a := by
  obtain ⟨pre, post, rfl, hpre, hpost⟩ := h
  refine ⟨pre.filter p, post.filter p, by simp [hp], ?_, ?_⟩
  · exact fun x hx => hpre x (List.mem_filter.mp hx).1
  · exact fun x hx => hpost x (List.mem_filter.mp hx).1

theorem sortByKey_cons (key : α → κ) (a : α) (l : List α) :
    sortByKey key (a :: l) = (sortByKey key l).orderedInsert (fun a b => key a ≤ key b) a := rfl

theorem exists_isFirst (key : α → κ) (h : l ≠ []) : ∃ a, IsFirst key l a := by
  induction l with
  | nil => exact absurd rfl h
  | cons c l ih =>
      by_cases hl : l = []
      · exact ⟨c, [], [], by rw [hl]; rfl, by simp, by simp⟩
      · obtain ⟨a, ha⟩ := ih hl
        by_cases hca : key c ≤ key a
        · exact ⟨c, [], l, rfl, by simp, fun x hx => le_trans hca (ha.le x hx)⟩
        · obtain ⟨pre, post, rfl, hpre, hpost⟩ := ha
          refine ⟨a, c :: pre, post, rfl, fun x hx => ?_, hpost⟩
          obtain rfl | hx := List.mem_cons.mp hx
          · exact lt_of_not_ge hca
          · exact hpre x hx

/-- `IsLast` is `IsFirst` from the other end, under the dual order. -/
theorem isLast_iff_reverse :
    IsLast key l a ↔ IsFirst (fun x => OrderDual.toDual (key x)) l.reverse a := by
  constructor
  · rintro ⟨pre, post, rfl, hpre, hpost⟩
    refine ⟨post.reverse, pre.reverse, by simp, ?_, ?_⟩
    · exact fun x hx => OrderDual.toDual_lt_toDual.mpr (hpost x (List.mem_reverse.mp hx))
    · exact fun x hx => OrderDual.toDual_le_toDual.mpr (hpre x (List.mem_reverse.mp hx))
  · rintro ⟨pre, post, hl, hpre, hpost⟩
    refine ⟨post.reverse, pre.reverse, ?_, ?_, ?_⟩
    · rw [← List.reverse_reverse l, hl]
      simp
    · exact fun x hx => OrderDual.toDual_le_toDual.mp (hpost x (List.mem_reverse.mp hx))
    · exact fun x hx => OrderDual.toDual_lt_toDual.mp (hpre x (List.mem_reverse.mp hx))

theorem IsLast.mem (h : IsLast key l a) : a ∈ l :=
  List.mem_reverse.mp (isLast_iff_reverse.mp h).mem

theorem IsLast.le (h : IsLast key l a) : ∀ x ∈ l, key x ≤ key a := by
  intro x hx
  have hdual := (isLast_iff_reverse.mp h).le x (List.mem_reverse.mpr hx)
  exact OrderDual.toDual_le_toDual.mp hdual

theorem IsLast.filter (h : IsLast key l a) {p : α → Bool} (hp : p a = true) :
    IsLast key (l.filter p) a := by
  rw [isLast_iff_reverse, ← List.filter_reverse]
  exact (isLast_iff_reverse.mp h).filter hp

theorem exists_isLast (key : α → κ) (h : l ≠ []) : ∃ a, IsLast key l a := by
  have hne : l.reverse ≠ [] := List.reverse_ne_nil_iff.mpr h
  obtain ⟨a, ha⟩ := exists_isFirst (fun x => OrderDual.toDual (key x)) hne
  exact ⟨a, isLast_iff_reverse.mpr ha⟩

/-- The head of the sorted list, by induction on what precedes `a`: inserting
an element of greater key leaves the head alone. -/
theorem head?_sortByKey (h : IsFirst key l a) : (sortByKey key l).head? = some a := by
  obtain ⟨pre, post, rfl, hpre, hpost⟩ := h
  induction pre with
  | nil =>
      rw [List.nil_append, sortByKey, List.insertionSort_cons_of_forall_rel _ hpost]
      rfl
  | cons c pre ih =>
      obtain ⟨s, hs⟩ := List.head?_eq_some_iff.mp (ih fun x hx => hpre x (by simp [hx]))
      have hca : ¬key c ≤ key a := not_le_of_gt (hpre c (by simp))
      rw [List.cons_append, sortByKey_cons, hs, List.orderedInsert, if_neg hca]
      rfl

theorem orderedInsert_of_forall_lt {s : List α} (h : ∀ x ∈ s, key x < key a) :
    s.orderedInsert (fun a b => key a ≤ key b) a = s ++ [a] := by
  induction s with
  | nil => rfl
  | cons c s ih =>
      rw [List.orderedInsert, if_neg (not_le_of_gt (h c (by simp))),
        ih fun x hx => h x (by simp [hx])]
      rfl

theorem getLast?_orderedInsert {s : List α} {c : α} (hlast : s.getLast? = some a)
    (hca : key c ≤ key a) :
    (s.orderedInsert (fun a b => key a ≤ key b) c).getLast? = some a := by
  induction s with
  | nil => nomatch hlast
  | cons d s ih =>
      rw [List.orderedInsert]
      split
      · rw [List.getLast?_cons_cons]
        exact hlast
      · rename_i hcd
        cases s with
        | nil =>
            obtain rfl : d = a := by simpa using hlast
            exact absurd hca hcd
        | cons e s =>
            rw [List.getLast?_cons_cons] at hlast
            rw [List.getLast?_cons, ih hlast]
            rfl

/-- The end of the sorted list, by induction on what precedes `a`. -/
theorem getLast?_sortByKey (h : IsLast key l a) : (sortByKey key l).getLast? = some a := by
  obtain ⟨pre, post, rfl, hpre, hpost⟩ := h
  induction pre with
  | nil =>
      rw [List.nil_append, sortByKey_cons,
        orderedInsert_of_forall_lt fun x hx => hpost x (mem_sortByKey.mp hx)]
      simp
  | cons c pre ih =>
      rw [List.cons_append, sortByKey_cons]
      exact getLast?_orderedInsert (ih fun x hx => hpre x (by simp [hx])) (hpre c (by simp))

theorem IsFirst.unique {b : α} (ha : IsFirst key l a) (hb : IsFirst key l b) : a = b :=
  Option.some.inj ((head?_sortByKey ha).symm.trans (head?_sortByKey hb))

theorem IsLast.unique {b : α} (ha : IsLast key l a) (hb : IsLast key l b) : a = b :=
  Option.some.inj ((getLast?_sortByKey ha).symm.trans (getLast?_sortByKey hb))

section Fibers

variable {β π ν : Type*} [Preorder β] [DecidableEq β] {f : α → β} {v : α → ν}
  {parts : List π} {start : π → β} {value : π → ν}

/-- Over the fibers of a map that grows with the key, the first element is the
first of the least fiber. -/
theorem IsFirst.of_fibers (h : IsFirst key l a)
    (hmono : ∀ x ∈ l, ∀ y ∈ l, key x ≤ key y → f x ≤ f y)
    (hcover : ∀ x ∈ l, ∃ p ∈ parts, start p = f x)
    (hparts : ∀ p ∈ parts, ∃ x, IsFirst key (l.filter (f · = start p)) x ∧ value p = v x) :
    ∃ p ∈ parts, (∀ q ∈ parts, start p ≤ start q) ∧ v a = value p := by
  obtain ⟨p, hp, hpa⟩ := hcover a h.mem
  obtain ⟨x, hx, hvalue⟩ := hparts p hp
  refine ⟨p, hp, fun q hq => ?_, ?_⟩
  · obtain ⟨y, hy, -⟩ := hparts q hq
    obtain ⟨hmem, hfy⟩ := List.mem_filter.mp hy.mem
    rw [hpa, ← of_decide_eq_true hfy]
    exact hmono a h.mem y hmem (h.le y hmem)
  · have ha := h.filter (p := (f · = start p)) (decide_eq_true hpa.symm)
    rw [hvalue, ha.unique hx]

theorem IsLast.of_fibers (h : IsLast key l a)
    (hmono : ∀ x ∈ l, ∀ y ∈ l, key x ≤ key y → f x ≤ f y)
    (hcover : ∀ x ∈ l, ∃ p ∈ parts, start p = f x)
    (hparts : ∀ p ∈ parts, ∃ x, IsLast key (l.filter (f · = start p)) x ∧ value p = v x) :
    ∃ p ∈ parts, (∀ q ∈ parts, start q ≤ start p) ∧ v a = value p := by
  refine IsFirst.of_fibers (β := βᵒᵈ) (f := f) (isLast_iff_reverse.mp h) ?_ ?_ ?_
  · exact fun x hx y hy hxy => hmono y (List.mem_reverse.mp hy) x (List.mem_reverse.mp hx) hxy
  · exact fun x hx => hcover x (List.mem_reverse.mp hx)
  · intro p hp
    obtain ⟨x, hx, hvalue⟩ := hparts p hp
    rw [isLast_iff_reverse, ← List.filter_reverse] at hx
    exact ⟨x, hx, hvalue⟩

end Fibers

/-- In a list that is sorted already they are its ends. -/
theorem IsFirst.head?_of_sorted (h : IsFirst key l a)
    (hsorted : l.Pairwise fun a b => key a ≤ key b) : l.head? = some a := by
  obtain ⟨pre, post, rfl, hpre, -⟩ := h
  cases pre with
  | nil => rfl
  | cons c pre =>
      have hle : key c ≤ key a := (List.pairwise_cons.mp hsorted).1 a (by simp)
      exact absurd (hpre c List.mem_cons_self) (not_lt_of_ge hle)

theorem IsLast.getLast?_of_sorted (h : IsLast key l a)
    (hsorted : l.Pairwise fun a b => key a ≤ key b) : l.getLast? = some a := by
  obtain ⟨pre, post, rfl, -, hpost⟩ := h
  cases post with
  | nil => exact List.getLast?_concat
  | cons c post =>
      have hle : key a ≤ key c :=
        (List.pairwise_cons.mp (List.pairwise_append.mp hsorted).2.1).1 c List.mem_cons_self
      exact absurd (hpost c List.mem_cons_self) (not_lt_of_ge hle)

/-! ## The largest elements -/

/-- `top` is `n` elements of `l`, or all if there are fewer, that no other
element of `l` exceeds, in non-increasing order. -/
structure IsLargest (key : α → κ) (n : Nat) (l top : List α) : Prop where
  length_eq : top.length = min n l.length
  largest : ∃ rest, (top ++ rest).Perm l ∧ ∀ a ∈ top, ∀ b ∈ rest, key b ≤ key a
  descending : top.Pairwise fun a b => key b ≤ key a

theorem isLargest_take (key : α → κ) (n : Nat) (hperm : l'.Perm l) :
    IsLargest key n l ((sortByKey (fun a => OrderDual.toDual (key a)) l').take n) := by
  have hsort : (sortByKey (fun a => OrderDual.toDual (key a)) l').Perm l :=
    (sortByKey_perm _ l').trans hperm
  have hdescending : (sortByKey (fun a => OrderDual.toDual (key a)) l').Pairwise
      fun a b => key b ≤ key a :=
    (sortByKey_sorted (fun a => OrderDual.toDual (key a)) l').imp OrderDual.toDual_le_toDual.mp
  have hsplit := List.take_append_drop n (sortByKey (fun a => OrderDual.toDual (key a)) l')
  constructor
  · rw [List.length_take, hsort.length_eq]
  · refine ⟨_, by rw [hsplit]; exact hsort, ?_⟩
    rw [← hsplit, List.pairwise_append] at hdescending
    exact hdescending.2.2
  · exact hdescending.sublist (List.take_sublist _ _)

theorem IsLargest.map {β : Type*} {key' : β → κ} {n : Nat} {top : List α}
    (h : IsLargest key n l top) (f : α → β) (hkey : ∀ a, key' (f a) = key a) :
    IsLargest key' n (l.map f) (top.map f) := by
  obtain ⟨rest, hperm, hle⟩ := h.largest
  constructor
  · rw [List.length_map, List.length_map, h.length_eq]
  · refine ⟨rest.map f, ?_, ?_⟩
    · rw [← List.map_append]
      exact hperm.map f
    · simp only [List.forall_mem_map, hkey]
      exact hle
  · simp only [List.pairwise_map, hkey]
    exact h.descending

/-- Whatever is distinct throughout `l` is distinct in its top. -/
theorem IsLargest.nodup_map {β : Type*} {n : Nat} {top : List α}
    (h : IsLargest key n l top) {f : α → β} (hnd : (l.map f).Nodup) : (top.map f).Nodup := by
  obtain ⟨rest, hperm, -⟩ := h.largest
  have hall := (hperm.map f).nodup_iff.mpr hnd
  rw [List.map_append] at hall
  exact hall.of_append_left

end StableSort
