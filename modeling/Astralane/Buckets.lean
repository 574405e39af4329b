import Mathlib.Algebra.BigOperators.Group.List.Lemmas
import Mathlib.Order.OrderDual
import Mathlib.Order.Lattice
import Mathlib.Tactic.Linarith

/-!
# Buckets

Rounding down to a multiple (`floorTo`), and two aggregations that may be taken
bucket by bucket: sums over a partition (`sum_map_fibers`) and the extremum of a
fold that starts from a bound (`foldl_max_of_fibers`).

`le_floorTo_iff` is the defining property of rounding down: below `x` lie the
same multiples of `b` as below `floorTo b x`. From it follow the interval a
bucket covers and the nesting of buckets (`floorTo_mem_bucket`).
-/

/-! ## Rounding down -/

/-- The greatest multiple of `b` that is at most `x`. -/
def floorTo (b x : Int) : Int :=
  x - x % b

section FloorTo

variable {b c x y : Int}

theorem dvd_floorTo (b x : Int) : b ∣ floorTo b x :=
  Int.dvd_self_sub_emod

theorem floorTo_le (hb : 0 < b) (x : Int) : floorTo b x ≤ x := by
  have h := Int.emod_nonneg x (Int.ne_of_gt hb)
  unfold floorTo
  omega

theorem lt_floorTo_add (hb : 0 < b) (x : Int) : x < floorTo b x + b := by
  have h := Int.emod_lt_of_pos x hb
  unfold floorTo
  omega

theorem le_floorTo_iff (hb : 0 < b) (hc : b ∣ c) : c ≤ floorTo b x ↔ c ≤ x := by
  constructor
  · exact fun h => le_trans h (floorTo_le hb x)
  · intro h
    obtain ⟨k, rfl⟩ := hc
    obtain ⟨n, hn⟩ := dvd_floorTo b x
    have hlt := lt_floorTo_add hb x
    rw [hn] at hlt ⊢
    -- `b * k ≤ x < b * (n + 1)`, so `k ≤ n`
    have hk : k < n + 1 := by
      refine lt_of_mul_lt_mul_left ?_ (le_of_lt hb)
      linarith
    exact Int.mul_le_mul_of_nonneg_left (Int.lt_add_one_iff.mp hk) (le_of_lt hb)

theorem floorTo_lt_iff (hb : 0 < b) (hc : b ∣ c) : floorTo b x < c ↔ x < c := by
  rw [← not_le, le_floorTo_iff hb hc, not_le]

theorem floorTo_eq_iff (hb : 0 < b) (hc : b ∣ c) : floorTo b x = c ↔ c ≤ x ∧ x < c + b := by
  constructor
  · rintro rfl
    exact ⟨floorTo_le hb x, lt_floorTo_add hb x⟩
  · rintro ⟨hle, hlt⟩
    refine le_antisymm ?_ ((le_floorTo_iff hb hc).mpr hle)
    -- a greater multiple would be at least `c + b`
    by_contra hgt
    obtain ⟨k, rfl⟩ := hc
    obtain ⟨n, hn⟩ := dvd_floorTo b x
    rw [hn] at hgt
    have hkn : k + 1 ≤ n := lt_of_mul_lt_mul_left (not_le.mp hgt) (le_of_lt hb)
    have hbound : b * (k + 1) ≤ b * n := Int.mul_le_mul_of_nonneg_left hkn (le_of_lt hb)
    have hx := floorTo_le hb x
    rw [hn] at hx
    linarith

theorem floorTo_mono (hb : 0 < b) (h : x ≤ y) : floorTo b x ≤ floorTo b y :=
  (le_floorTo_iff hb (dvd_floorTo b x)).mpr (le_trans (floorTo_le hb x) h)

/-- Buckets nest: the small bucket of `x` starts within a large one exactly when
that is the large bucket of `x`. -/
theorem floorTo_mem_bucket {m : Int} (hb : 0 < b) (hm : 0 < m) (hc : b * m ∣ c) :
    c ≤ floorTo b x ∧ floorTo b x < c + b * m ↔ floorTo (b * m) x = c := by
  have hdvd : b ∣ c := (Int.dvd_mul_right b m).trans hc
  rw [le_floorTo_iff hb hdvd, floorTo_lt_iff hb (Int.dvd_add hdvd (Int.dvd_mul_right b m)),
    floorTo_eq_iff (Int.mul_pos hb hm) hc]

theorem floorTo_le_floorTo {m : Int} (hb : 0 < b) (hm : 0 < m) (x : Int) :
    floorTo (b * m) x ≤ floorTo b x :=
  ((floorTo_mem_bucket hb hm (dvd_floorTo (b * m) x)).mpr rfl).1

end FloorTo

/-! ## Aggregating bucket by bucket -/

/-- A sum over `l` is the sum over the fibers of `f`. -/
theorem sum_map_fibers {α κ M : Type*} [AddCommMonoid M] [DecidableEq κ] (f : α → κ) (v : α → M)
    (l : List α) {ks : List κ} (hnd : ks.Nodup) (hks : ∀ a ∈ l, f a ∈ ks) :
    (l.map v).sum = (ks.map fun k => ((l.filter (f · = k)).map v).sum).sum := by
  induction l with
  | nil => simp
  | cons a l ih =>
      have hfiber : ∀ k, (((a :: l).filter (f · = k)).map v).sum
          = (if k = f a then v a else 0) + ((l.filter (f · = k)).map v).sum := by
        intro k
        by_cases hk : f a = k
        · simp [hk]
        · simp [hk, Ne.symm hk]
      have hone : (ks.map fun k => if k = f a then v a else 0).sum = v a := by
        rw [List.sum_map_eq_nsmul_single (f a) fun k => if k = f a then v a else 0]
        · rw [List.count_eq_one_of_mem hnd (hks a List.mem_cons_self), one_nsmul, if_pos rfl]
        · exact fun k hk _ => if_neg hk
      simp only [hfiber, List.sum_map_add, hone, List.map_cons, List.sum_cons]
      rw [← ih fun x hx => hks x (List.mem_cons_of_mem _ hx)]

theorem sum_map_sub {α M : Type*} [AddCommGroup M] (v w : α → M) (l : List α) :
    (l.map fun a => v a - w a).sum = (l.map v).sum - (l.map w).sum := by
  induction l with
  | nil => simp
  | cons a l ih =>
      simp only [List.map_cons, List.sum_cons, ih]
      exact (add_sub_add_comm _ _ _ _).symm

theorem sum_map_filter {α M : Type*} [AddCommMonoid M] (p : α → Bool) (v : α → M) (l : List α) :
    ((l.filter p).map v).sum = (l.map fun a => if p a = true then v a else 0).sum := by
  induction l with
  | nil => rfl
  | cons a l ih => by_cases hp : p a = true <;> simp [hp, ih]

theorem sum_map_filterMap {α β M : Type*} [AddCommMonoid M] (g : α → Option β) (v : β → M)
    (l : List α) :
    ((l.filterMap g).map v).sum = (l.map fun a => ((g a).map v).getD 0).sum := by
  induction l with
  | nil => rfl
  | cons a l ih => cases hg : g a <;> simp [hg, ih]

section Extremum

variable {α κ β : Type*} [DecidableEq κ] [LinearOrder β]

theorem foldl_max_le_iff {l : List β} {a x : β} : l.foldl max a ≤ x ↔ a ≤ x ∧ ∀ y ∈ l, y ≤ x := by
  induction l generalizing a with
  | nil => simp
  | cons b l ih =>
      rw [List.foldl_cons, ih, max_le_iff, List.forall_mem_cons, and_assoc]

theorem foldl_max_mem (a : β) (l : List β) : l.foldl max a = a ∨ l.foldl max a ∈ l := by
  induction l generalizing a with
  | nil => exact Or.inl rfl
  | cons b l ih =>
      rw [List.foldl_cons]
      rcases ih (max a b) with h | h
      · rw [h]
        rcases max_choice a b with hab | hab
        · exact Or.inl hab
        · rw [hab]
          exact Or.inr List.mem_cons_self
      · exact Or.inr (List.mem_cons_of_mem _ h)

/-- A fold that starts below all values is one of them, and the greatest. -/
theorem foldl_max_bounds {v : α → β} {a m : β} {l : List α} (hm : m = (l.map v).foldl max a)
    (hne : l ≠ []) (hbound : ∀ x ∈ l, a ≤ v x) :
    (∃ x ∈ l, m = v x) ∧ ∀ x ∈ l, v x ≤ m := by
  have hle : ∀ x ∈ l, v x ≤ m := fun x hx =>
    (foldl_max_le_iff.mp hm.symm.le).2 _ (List.mem_map_of_mem hx)
  refine ⟨?_, hle⟩
  rcases foldl_max_mem a (l.map v) with hstart | hmem
  · obtain ⟨x, hx⟩ := List.exists_mem_of_ne_nil l hne
    exact ⟨x, hx, le_antisymm ((hm.trans hstart).trans_le (hbound x hx)) (hle x hx)⟩
  · obtain ⟨x, hx, hvalue⟩ := List.mem_map.mp hmem
    exact ⟨x, hx, hm.trans hvalue.symm⟩

theorem foldl_max_filter_le (p : α → Bool) (v : α → β) (a : β) (l : List α) :
    ((l.filter p).map v).foldl max a ≤ (l.map v).foldl max a := by
  obtain ⟨ha, hall⟩ := foldl_max_le_iff.mp (le_refl ((l.map v).foldl max a))
  refine foldl_max_le_iff.mpr ⟨ha, fun y hy => ?_⟩
  obtain ⟨x, hx, rfl⟩ := List.mem_map.mp hy
  exact hall _ (List.mem_map.mpr ⟨x, (List.mem_filter.mp hx).1, rfl⟩)

/-- The maximum over `l` is the maximum over one of its fibers: that of an
element which attains it, or any when the bound `a` is the maximum. -/
theorem exists_foldl_max_fiber (f : α → κ) (v : α → β) (a : β) {l : List α} (hne : l ≠ []) :
    ∃ x ∈ l, ((l.filter (f · = f x)).map v).foldl max a = (l.map v).foldl max a := by
  rcases foldl_max_mem a (l.map v) with hbound | hattained
  · obtain ⟨x, hx⟩ := List.exists_mem_of_ne_nil l hne
    refine ⟨x, hx, le_antisymm (foldl_max_filter_le _ v a l) ?_⟩
    rw [hbound]
    exact (foldl_max_le_iff.mp (le_refl _)).1
  · obtain ⟨x, hx, hmax⟩ := List.mem_map.mp hattained
    refine ⟨x, hx, le_antisymm (foldl_max_filter_le _ v a l) ?_⟩
    rw [← hmax]
    refine (foldl_max_le_iff.mp (le_refl _)).2 _ (List.mem_map.mpr ⟨x, ?_, rfl⟩)
    exact List.mem_filter.mpr ⟨hx, by simp⟩

/-- Over a list cut into fibers, the maximum is the greatest of their maxima. -/
theorem foldl_max_of_fibers {π : Type*} {f : α → κ} {v : α → β} {a m : β} {l : List α}
    {parts : List π} {start : π → κ} {value : π → β} (hm : m = (l.map v).foldl max a)
    (hne : l ≠ []) (hcover : ∀ x ∈ l, ∃ p ∈ parts, start p = f x)
    (hparts : ∀ p ∈ parts, value p = ((l.filter (f · = start p)).map v).foldl max a) :
    (∃ p ∈ parts, m = value p) ∧ ∀ p ∈ parts, value p ≤ m := by
  constructor
  · obtain ⟨x, hx, hmax⟩ := exists_foldl_max_fiber f v a hne
    obtain ⟨p, hp, hpx⟩ := hcover x hx
    exact ⟨p, hp, by rw [hm, hparts p hp, hpx, hmax]⟩
  · intro p hp
    rw [hm, hparts p hp]
    exact foldl_max_filter_le _ _ _ _

/-! The minimum is the maximum of the dual order. -/

theorem foldl_min_bounds {v : α → β} {a m : β} {l : List α} (hm : m = (l.map v).foldl min a)
    (hne : l ≠ []) (hbound : ∀ x ∈ l, v x ≤ a) :
    (∃ x ∈ l, m = v x) ∧ ∀ x ∈ l, m ≤ v x :=
  foldl_max_bounds (β := βᵒᵈ) hm hne hbound

theorem foldl_min_of_fibers {π : Type*} {f : α → κ} {v : α → β} {a m : β} {l : List α}
    {parts : List π} {start : π → κ} {value : π → β} (hm : m = (l.map v).foldl min a)
    (hne : l ≠ []) (hcover : ∀ x ∈ l, ∃ p ∈ parts, start p = f x)
    (hparts : ∀ p ∈ parts, value p = ((l.filter (f · = start p)).map v).foldl min a) :
    (∃ p ∈ parts, m = value p) ∧ ∀ p ∈ parts, m ≤ value p :=
  foldl_max_of_fibers (β := βᵒᵈ) hm hne hcover hparts

end Extremum
