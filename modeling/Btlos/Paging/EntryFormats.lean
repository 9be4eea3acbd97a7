import Btlos.Paging.Getpage

/-! What is read back from a page table entry. The writers of entries and the
macros that read them take the fields at different places, so an entry shows the
frame it was written with only by coincidence. -/
namespace Btlos

/-! Resident pages -/

/-- An entry that has been given a frame is present, not marked as swapped, and
decodes to that frame. -/
def FpnRoundTrips (pte : BitVec 32) (fpn : Int) : Prop :=
  pagingPagePresent (pteSetFpn pte fpn) = true ∧ pagingPageSwapped (pteSetFpn pte fpn) = false ∧
    pagingFpn (pteSetFpn pte fpn) = fpn

instance (pte : BitVec 32) (fpn : Int) : Decidable (FpnRoundTrips pte fpn) :=
  inferInstanceAs (Decidable (_ ∧ _))

/-- Only frame 0 is read back, and two frames are told apart only by the two bits
above the low eight. -/
theorem fpnRoundTrips_iff (pte : BitVec 32) (fpn : Int) :
    (FpnRoundTrips pte fpn ↔ fpn = 0) ∧
      ∀ other fpn', pagingFpn (pteSetFpn pte fpn) ≠ pagingFpn (pteSetFpn other fpn') ↔
        fpn / 256 % 4 ≠ fpn' / 256 % 4 := by
  have hDecoded : pagingFpn (pteSetFpn pte fpn) = fpn / 256 % 4 := pagingFpn_pteSetFpn pte fpn
  constructor
  · simp only [FpnRoundTrips, pagingPagePresent_pteSetFpn, pagingPageSwapped_pteSetFpn, hDecoded,
      true_and]
    constructor
    · intro hSame
      have hSmall : 0 ≤ fpn ∧ fpn < 4 := by omega
      have hPage : fpn / 256 = 0 := Int.ediv_eq_zero_of_lt hSmall.1 (by omega)
      rw [hPage] at hSame
      exact hSame.symm
    · rintro rfl
      rfl
  · intro other fpn'
    rw [hDecoded, pagingFpn_pteSetFpn]

/-- Pages given the frames 1 and 2 both resolve to frame 0. -/
theorem fpn_lost : ¬ FpnRoundTrips 0#32 1 ∧
    pagingFpn (pteSetFpn 0#32 1) = pagingFpn (pteSetFpn 0#32 2) := by decide

/-! Pages on swap -/

/-- `PAGING_SWP` reads six bits, of which the lowest stands for 8. -/
theorem pagingSwp_eq (pte : BitVec 32) :
    pagingSwp pte = (BitField.get pte 13 8).toNat * 8 := by
  have hMask : pagingSwpMask = BitField.mask 32 13 8 := by decide
  have hShift : pagingSwpfpnOffset = 5 := rfl
  have hField : (pte &&& BitField.mask 32 13 8).toNat =
      pte.toNat / 2 ^ 8 % 2 ^ (13 + 1 - 8) * 2 ^ 8 := BitField.toNat_and_mask pte (by decide)
  rw [pagingSwp, hMask, hShift, BitVec.toNat_ushiftRight, hField,
    BitField.toNat_get _ (by decide)]
  simp only [Nat.shiftRight_eq_div_pow]
  omega

/-- Its bits lie inside the offset field of a swapped entry. -/
theorem pagingSwp_pteEvicted (pte : BitVec 32) (swptyp swpoff : Int) :
    pagingSwp (pteEvicted pte swptyp swpoff) = swpoff / 8 % 64 * 8 := by
  have hField : pteSetSwap pte swptyp swpoff =
      BitField.set (BitField.set (setbit (setbit pte (bit 31)) (bit 30))
        (BitVec.ofInt 32 swptyp) 4 0) (BitVec.ofInt 32 swpoff) 25 5 := rfl
  rw [pagingSwp_eq, pteEvicted, pagingPtePresentMask, get_clrbit (by decide) (by decide), hField,
    BitField.get_set_inner _ _ (by decide) (by decide) (by decide), BitVec.toNat_ofInt]
  omega

/-- An odd frame number is read back as 256, an even one as 0. -/
theorem pagingSwp_pteSwappedTo (vicpte : BitVec 32) (frame : Int) :
    pagingSwp (pteSwappedTo vicpte frame) = frame % 2 * 256 := by
  rw [pteSwappedTo, pagingSwp_pteEvicted, cint]
  omega

/-- The entry of a victim whose page went to swap frame `frame` is not present,
marked as swapped, and decodes to that frame. -/
def SwpRoundTrips (vicpte : BitVec 32) (frame : Int) : Prop :=
  pagingPagePresent (pteSwappedTo vicpte frame) = false ∧
    pagingPageSwapped (pteSwappedTo vicpte frame) = true ∧
    pagingSwp (pteSwappedTo vicpte frame) = frame

instance (vicpte : BitVec 32) (frame : Int) : Decidable (SwpRoundTrips vicpte frame) :=
  inferInstanceAs (Decidable (_ ∧ _))

/-- Only swap frame 0 is read back. -/
theorem swpRoundTrips_iff (vicpte : BitVec 32) (frame : Int) :
    SwpRoundTrips vicpte frame ↔ frame = 0 := by
  rw [SwpRoundTrips, pagingSwp_pteSwappedTo]
  simp only [pteSwappedTo, pagingPagePresent_pteEvicted, pagingPageSwapped_pteEvicted, true_and]
  omega

/-- A page that went to swap frame 1 is looked for elsewhere. -/
theorem swp_lost : ¬ SwpRoundTrips 0#32 1 := by decide

end Btlos
