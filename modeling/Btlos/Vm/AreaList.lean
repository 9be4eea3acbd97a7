import Btlos.Library.LinkedList
import Btlos.Vm.Area

/-! `get_vma_by_num` of `mm-vm.c` on a list of any number of memory areas. All calls in
the program ask for area 0, and a process has one area. -/
namespace Btlos

open LinkedList

/-- `struct vm_area_struct` with its link. -/
structure AreaNode (Ptr : Type*) extends VmArea where
  vmNext : Option Ptr

variable {Ptr : Type*}

/-- The loop of `get_vma_by_num`. `vmait` stays what it is. Undefined after the given
number of rounds. -/
def getVmaLoop (vmaid : Int) (area : Ptr → Option (AreaNode Ptr)) :
    Nat → Int → Option Ptr → Outcome Unit (Option Ptr)
  | 0, _, _ => .undefined
  | fuel + 1, vmait, pvma =>
      if vmait < vmaid then
        match pvma with
        | none => .ok none ()
        | some addr =>
            match area addr with
            | none => .undefined
            | some node => getVmaLoop vmaid area fuel vmait node.vmNext
      else .ok pvma ()

/-- `get_vma_by_num`, for the areas that `mmap` leads to. -/
def getVmaByNumAt (fuel : Nat) (area : Ptr → Option (AreaNode Ptr)) (mmap : Option Ptr)
    (vmaid : Int) : Outcome Unit (Option Ptr) :=
  if mmap = none then .ok none () else getVmaLoop vmaid area fuel 0 mmap

/-- With enough rounds the call returns the area of this number, counted from 0, and NULL
exactly if the list has at most as many. -/
structure SelectsArea (area : Ptr → Option (AreaNode Ptr)) (mmap : Option Ptr)
    (areas : List (Ptr × AreaNode Ptr)) (vmaid : Int) : Prop where
  selects : ∃ rounds, ∀ fuel, rounds ≤ fuel →
    getVmaByNumAt fuel area mmap vmaid = .ok (areas[vmaid.toNat]?.map Prod.fst) ()
  null_iff : (∃ rounds, ∀ fuel, rounds ≤ fuel →
    getVmaByNumAt fuel area mmap vmaid = .ok none ()) ↔ (areas.length : Int) ≤ vmaid

variable {area : Ptr → Option (AreaNode Ptr)} {mmap pvma : Option Ptr}
  {areas : List (Ptr × AreaNode Ptr)} {vmaid vmait : Int}

/-- A loop that is entered goes on to the end of the list. -/
private theorem getVmaLoop_end (hList : Segment AreaNode.vmNext area none pvma areas)
    (hEnter : vmait < vmaid) (more : Nat) :
    getVmaLoop vmaid area (more + areas.length + 1) vmait pvma = .ok none () := by
  induction hList with
  | nil => exact if_pos hEnter
  | cons here _ ih =>
      rw [getVmaLoop, if_pos hEnter]
      simp only [here]
      exact ih

/-- For every list and every number: the first area, or NULL for a positive number. -/
theorem getVmaByNumAt_eq (hList : Segment AreaNode.vmNext area none mmap areas) {fuel : Nat}
    (hFuel : areas.length < fuel) :
    getVmaByNumAt fuel area mmap vmaid = .ok (if 0 < vmaid then none else mmap) () := by
  obtain ⟨more, rfl⟩ : ∃ more, fuel = more + areas.length + 1 :=
    ⟨fuel - areas.length - 1, by omega⟩
  rw [getVmaByNumAt]
  split_ifs with hNull hEnter hEnter
  · rfl
  · rw [hNull]
  · exact getVmaLoop_end hList hEnter more
  · exact if_neg hEnter

/-- With one area the call is the one on the memory of a process. -/
theorem getVmaByNumAt_single {mm : Mm} {addr : Ptr} {node : AreaNode Ptr}
    (hHere : area addr = some node) (hMmap : node.toVmArea = mm.mmap) (hNext : node.vmNext = none)
    {fuel : Nat} (hFuel : 1 < fuel) :
    ∃ result, getVmaByNumAt fuel area (some addr) vmaid = .ok result () ∧
      (result.bind area).map AreaNode.toVmArea = getVmaByNum mm vmaid := by
  have hList : Segment AreaNode.vmNext area none (some addr) [(addr, node)] := by
    apply Segment.cons hHere
    rw [hNext]
    exact .nil
  refine ⟨_, getVmaByNumAt_eq hList hFuel, ?_⟩
  rw [getVmaByNum]
  split_ifs
  · rfl
  · rw [Option.bind_some, hHere, Option.map_some, hMmap]

/-- So with enough rounds the call has this one result. -/
private theorem getVmaByNumAt_ends_iff (hList : Segment AreaNode.vmNext area none mmap areas)
    (vmaid : Int) (result : Option Ptr) :
    (∃ rounds, ∀ fuel, rounds ≤ fuel → getVmaByNumAt fuel area mmap vmaid = .ok result ()) ↔
      (if 0 < vmaid then none else mmap) = result := by
  constructor
  · rintro ⟨rounds, hEnds⟩
    have hResult : getVmaByNumAt (rounds + (areas.length + 1)) area mmap vmaid = _ :=
      getVmaByNumAt_eq hList (Nat.lt_add_left rounds (Nat.lt_succ_self areas.length))
    exact (Outcome.ok.inj (hResult.symm.trans (hEnds _ (Nat.le_add_right ..)))).1
  · rintro rfl
    exact ⟨areas.length + 1, fun fuel hFuel => getVmaByNumAt_eq hList hFuel⟩

private theorem start_eq_first (hList : Segment AreaNode.vmNext area none mmap areas) :
    mmap = areas[0]?.map Prod.fst := by
  cases hList with
  | nil => rfl
  | cons => rfl

/-- The call is right exactly for area 0, and for numbers that no area of the list has. -/
theorem selectsArea_iff (hList : Segment AreaNode.vmNext area none mmap areas)
    (hVmaid : 0 ≤ vmaid) :
    SelectsArea area mmap areas vmaid ↔ vmaid = 0 ∨ (areas.length : Int) ≤ vmaid := by
  have hNull : (if 0 < vmaid then none else mmap) = none ↔ 0 < vmaid ∨ areas.length = 0 := by
    rw [ite_eq_left_iff, hList.start_eq_none_iff, List.length_eq_zero_iff, or_iff_not_imp_left]
  constructor
  · intro h
    have hBeyond := h.null_iff
    rw [getVmaByNumAt_ends_iff hList, hNull] at hBeyond
    omega
  · intro hRight
    constructor
    · rw [getVmaByNumAt_ends_iff hList]
      rcases hRight with rfl | hBeyond
      · exact start_eq_first hList
      · rw [List.getElem?_eq_none (by omega), Option.map_none, hNull]
        omega
    · rw [getVmaByNumAt_ends_iff hList, hNull]
      omega

private def twoAreas : Nat → Option (AreaNode Nat) :=
  fun addr => [⟨⟨0, 0, 256, 0, []⟩, some 1⟩, ⟨⟨1, 256, 512, 256, []⟩, none⟩][addr]?

private theorem twoAreas_list :
    Segment AreaNode.vmNext twoAreas none (some 0)
      [(0, ⟨⟨0, 0, 256, 0, []⟩, some 1⟩), (1, ⟨⟨1, 256, 512, 256, []⟩, none⟩)] :=
  .cons rfl (.cons rfl .nil)

/-- Of two areas the first one is found. -/
theorem selectsArea_first : SelectsArea twoAreas (some 0)
    [(0, ⟨⟨0, 0, 256, 0, []⟩, some 1⟩), (1, ⟨⟨1, 256, 512, 256, []⟩, none⟩)] 0 :=
  (selectsArea_iff twoAreas_list (Int.le_refl 0)).mpr (Or.inl rfl)

/-- The second one is not: the loop goes past it to the end of the list. -/
theorem second_area_missed :
    getVmaByNumAt 3 twoAreas (some 0) 1 = .ok none () ∧ ¬ SelectsArea twoAreas (some 0)
      [(0, ⟨⟨0, 0, 256, 0, []⟩, some 1⟩), (1, ⟨⟨1, 256, 512, 256, []⟩, none⟩)] 1 := by
  have hCall : getVmaByNumAt 3 twoAreas (some 0) 1 = .ok none () := rfl
  refine ⟨hCall, fun h => ?_⟩
  have hBeyond := h.null_iff.mp ⟨3, fun fuel hFuel => getVmaByNumAt_eq twoAreas_list hFuel⟩
  exact absurd hBeyond (by decide)

end Btlos
