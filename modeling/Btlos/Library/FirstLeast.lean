import Mathlib.Data.List.Basic
import Mathlib.Order.Lattice

/-! The first of the items with the least key, and the scan that finds it among
the items with a key below some bound. -/
namespace FirstLeast

variable {Item Key : Type*} [LinearOrder Key] {key : Item → Key}

/-- The item at this place has the least key, and the ones before it a larger one. -/
structure At (key : Item → Key) (items : List Item) (i : Nat) (item : Item) : Prop where
  here : items[i]? = some item
  least : ∀ other ∈ items, key item ≤ key other
  first : ∀ j other, j < i → items[j]? = some other → key item < key other

variable {items : List Item} {i j : Nat} {item other : Item} {bound best : Key}
  {index : Option Nat}

/-- There is only one such place. -/
theorem At.unique (h : At key items i item) (h' : At key items j other) :
    i = j ∧ item = other := by
  have hLe : ∀ {i j item other}, At key items i item → At key items j other → i ≤ j := by
    intro i j item other h h'
    by_contra hLt
    have hBefore := h.first j other (Nat.lt_of_not_le hLt) h'.here
    exact hBefore.not_ge (h'.least item (List.mem_of_getElem? h.here))
  obtain rfl := Nat.le_antisymm (hLe h h') (hLe h' h)
  exact ⟨rfl, Option.some.inj (h.here.symm.trans h'.here)⟩

/-- What a scan has found: no key below the bound, or the first of the least. -/
inductive Found (key : Item → Key) (bound : Key) (items : List Item) : Key → Option Nat → Prop where
  | nothing (hNone : ∀ item ∈ items, bound ≤ key item) : Found key bound items bound none
  | item {i : Nat} {item : Item} (hLow : key item < bound) (hAt : At key items i item) :
      Found key bound items (key item) (some i)

theorem found_nil (key : Item → Key) (bound : Key) : Found key bound [] bound none :=
  .nothing (by simp)

theorem At.concat (h : At key items i item) (hLast : key item ≤ key other) :
    At key (items ++ [other]) i item := by
  obtain ⟨hi, -⟩ := List.getElem?_eq_some_iff.mp h.here
  refine ⟨?_, ?_, fun j before hj hBefore => ?_⟩
  · rw [List.getElem?_append_left hi]
    exact h.here
  · intro one hOne
    rcases List.mem_append.mp hOne with hOld | hNew
    · exact h.least one hOld
    · rwa [List.mem_singleton.mp hNew]
  · rw [List.getElem?_append_left (Nat.lt_trans hj hi)] at hBefore
    exact h.first j before hj hBefore

theorem at_concat_self (h : ∀ one ∈ items, key other < key one) :
    At key (items ++ [other]) items.length other := by
  refine ⟨by simp, fun one hOne => ?_, fun j one hj hHere => ?_⟩
  · rcases List.mem_append.mp hOne with hOld | hNew
    · exact (h one hOld).le
    · rw [List.mem_singleton.mp hNew]
  · rw [List.getElem?_append_left hj] at hHere
    exact h one (List.mem_of_getElem? hHere)

/-- One round: an item with a smaller key than the best so far takes its place. -/
theorem Found.lower (h : Found key bound items best index) (hLower : key other < best) :
    Found key bound (items ++ [other]) (key other) (some items.length) := by
  cases h with
  | nothing hNone =>
      exact .item hLower (at_concat_self fun one hOne => hLower.trans_le (hNone one hOne))
  | item hLow hAt =>
      exact .item (hLower.trans hLow)
        (at_concat_self fun one hOne => hLower.trans_le (hAt.least one hOne))

/-- Any other item is passed by. -/
theorem Found.pass (h : Found key bound items best index) (hPass : best ≤ key other) :
    Found key bound (items ++ [other]) best index := by
  cases h with
  | nothing hNone =>
      refine .nothing fun one hOne => ?_
      rcases List.mem_append.mp hOne with hOld | hNew
      · exact hNone one hOld
      · rwa [List.mem_singleton.mp hNew]
  | item hLow hAt => exact .item hLow (hAt.concat hPass)

theorem Found.best_le (h : Found key bound items best index) : best ≤ bound := by
  cases h with
  | nothing => exact le_rfl
  | item hLow => exact hLow.le

/-- A scan comes back with an item exactly when some key is below the bound. -/
theorem Found.isSome_iff (h : Found key bound items best index) :
    index.isSome ↔ ∃ item ∈ items, key item < bound := by
  cases h with
  | nothing hNone =>
      refine iff_of_false (by simp) ?_
      rintro ⟨item, hItem, hLow⟩
      exact hLow.not_ge (hNone item hItem)
  | item hLow hAt => exact iff_of_true rfl ⟨_, List.mem_of_getElem? hAt.here, hLow⟩

end FirstLeast
