import Mathlib.Algebra.BigOperators.Group.List.Basic
import Mathlib.Algebra.BigOperators.Group.Finset.Basic
import Mathlib.Order.Interval.Finset.SuccPred
import Mathlib.Data.Int.ConditionallyCompleteOrder
import Mathlib.Data.Int.Interval

/-! How often the members of a list of sets cover a point. Pairwise
disjointness and total length are both read off from this count. -/
namespace Cover

variable {Region Point : Type*}

section Membership

variable (inside : Region → Point → Prop) [∀ region point, Decidable (inside region point)]

/-- The number of listed regions that hold the point. -/
def count (regions : List Region) (point : Point) : Nat :=
  regions.countP fun region => inside region point

@[simp] theorem count_nil (point : Point) : count inside [] point = 0 := rfl

@[simp] theorem count_append (left right : List Region) (point : Point) :
    count inside (left ++ right) point = count inside left point + count inside right point := by
  simp [count]

theorem count_cons (region : Region) (regions : List Region) (point : Point) :
    count inside (region :: regions) point =
      (if inside region point then 1 else 0) + count inside regions point := by
  simp [count, List.countP_cons, Nat.add_comm]

theorem count_pos_iff (regions : List Region) (point : Point) :
    0 < count inside regions point ↔ ∃ region ∈ regions, inside region point := by
  simp [count, List.countP_pos_iff]

/-- Regions are pairwise disjoint exactly when no point is covered twice. -/
theorem pairwise_disjoint_iff (regions : List Region) :
    regions.Pairwise (fun first second => ∀ point, ¬ (inside first point ∧ inside second point)) ↔
      ∀ point, count inside regions point ≤ 1 := by
  induction regions with
  | nil => simp
  | cons region rest ih =>
      rw [List.pairwise_cons, ih]
      constructor
      · rintro ⟨hHead, hRest⟩ point
        rw [count_cons]
        split_ifs with hIn
        · have hNone : ¬ 0 < count inside rest point := by
            rw [count_pos_iff]
            rintro ⟨other, hOther, hBoth⟩
            exact hHead other hOther point ⟨hIn, hBoth⟩
          omega
        · have := hRest point
          omega
      · intro hCount
        refine ⟨?_, fun point => ?_⟩
        · rintro other hOther point ⟨hIn, hBoth⟩
          have hPos := (count_pos_iff inside rest point).mpr ⟨other, hOther, hBoth⟩
          have := hCount point
          rw [count_cons, if_pos hIn] at this
          omega
        · have := hCount point
          rw [count_cons] at this
          omega

/-- A point that is covered once at most is in the region of one key at most. -/
theorem key_unique {Key : Type*} {table : Key → Region} {keys : List Key} {point : Point}
    (hCount : count inside (keys.map table) point ≤ 1) {first second : Key}
    (hFirst : first ∈ keys) (hSecond : second ∈ keys) (hIn : inside (table first) point)
    (hIn' : inside (table second) point) : first = second := by
  induction keys with
  | nil => simp at hFirst
  | cons key rest ih =>
      have hPos : ∀ other ∈ rest, inside (table other) point →
          0 < count inside (rest.map table) point := by
        intro other hOther hHere
        exact (count_pos_iff inside _ point).mpr ⟨_, List.mem_map_of_mem hOther, hHere⟩
      rw [List.map_cons, count_cons] at hCount
      rcases List.mem_cons.mp hFirst with rfl | hFirstRest <;>
        rcases List.mem_cons.mp hSecond with rfl | hSecondRest
      · rfl
      · have := hPos second hSecondRest hIn'
        rw [if_pos hIn] at hCount
        omega
      · have := hPos first hFirstRest hIn
        rw [if_pos hIn'] at hCount
        omega
      · exact ih (by omega) hFirstRest hSecondRest

end Membership

section Length

variable (lo hi : Region → Int)

/-- A half-open interval of integers. -/
def Inside (region : Region) (point : Int) : Prop := lo region ≤ point ∧ point < hi region

instance (region : Region) (point : Int) : Decidable (Inside lo hi region point) :=
  inferInstanceAs (Decidable (_ ∧ _))

/-- The lengths of intervals below a bound add up to the number of times the
points below the bound are covered. -/
theorem sum_count (regions : List Region) (bound : Int)
    (hBounds : ∀ region ∈ regions, 0 ≤ lo region ∧ lo region ≤ hi region ∧ hi region ≤ bound) :
    ∑ point ∈ Finset.Ico 0 bound, (count (Inside lo hi) regions point : Int) =
      (regions.map fun region => hi region - lo region).sum := by
  induction regions with
  | nil => simp
  | cons region rest ih =>
      have hRest := ih fun other hOther => hBounds other (List.mem_cons_of_mem _ hOther)
      obtain ⟨hLo, hLen, hHi⟩ := hBounds region List.mem_cons_self
      have hOne : ∑ point ∈ Finset.Ico 0 bound,
          (if Inside lo hi region point then (1 : Int) else 0) = hi region - lo region := by
        rw [← Finset.sum_filter, Finset.sum_const, nsmul_eq_mul, mul_one]
        have hFilter : (Finset.Ico 0 bound).filter (Inside lo hi region) =
            Finset.Ico (lo region) (hi region) := by
          ext point
          simp only [Finset.mem_filter, Finset.mem_Ico, Inside]
          omega
        rw [hFilter, Int.card_Ico]
        omega
      simp only [count_cons, Nat.cast_add, Nat.cast_ite, Nat.cast_one, Nat.cast_zero,
        Finset.sum_add_distrib, List.map_cons, List.sum_cons, hOne, hRest]

/-- Intervals that cover every point below the bound exactly once, and no
other, have the bound as total length. -/
theorem sum_length_of_exact (regions : List Region) (bound : Int) (hBound : 0 ≤ bound)
    (hBounds : ∀ region ∈ regions, 0 ≤ lo region ∧ lo region ≤ hi region ∧ hi region ≤ bound)
    (hExact : ∀ point, 0 ≤ point → point < bound → count (Inside lo hi) regions point = 1) :
    (regions.map fun region => hi region - lo region).sum = bound := by
  rw [← sum_count lo hi regions bound hBounds]
  calc
    _ = ∑ _point ∈ Finset.Ico 0 bound, (1 : Int) := by
      apply Finset.sum_congr rfl
      intro point hPoint
      obtain ⟨hLo, hHi⟩ := Finset.mem_Ico.mp hPoint
      rw [hExact point hLo hHi, Nat.cast_one]
    _ = bound := by simp [Int.card_Ico, hBound]

end Length

end Cover
