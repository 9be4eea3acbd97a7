import Btlos.Machine.Integers
import Btlos.Library.BitField

/-! Page table entries and virtual addresses: the macros of `bitops.h` and
`mm.h`, and the two functions of `mm.c` that rewrite an entry. The bit positions
of the address fields are computed by the nested `NBITS` macros, as in the
source; the theorems say which positions come out. -/
namespace Btlos

/-! `bitops.h` -/

def bitsPerLong : Nat := 32

def divRoundUp (n d : Int) : Int := (cint (cint (n + d) - 1)).tdiv d

def bit (nr : Nat) : BitVec 32 := 1#32 <<< nr

def genmask (h l : Nat) : BitVec 32 := (~~~ 0#32 <<< l) &&& (~~~ 0#32 >>> (bitsPerLong - h - 1))

def nbits2 (n : Nat) : Nat := if n &&& 2 ≠ 0 then 1 else 0

def nbits4 (n : Nat) : Nat := if n &&& 0xC ≠ 0 then 2 + nbits2 (n >>> 2) else nbits2 n

def nbits8 (n : Nat) : Nat := if n &&& 0xF0 ≠ 0 then 4 + nbits4 (n >>> 4) else nbits4 n

def nbits16 (n : Nat) : Nat := if n &&& 0xFF00 ≠ 0 then 8 + nbits8 (n >>> 8) else nbits8 n

def nbits32 (n : Nat) : Nat := if n &&& 0xFFFF0000 ≠ 0 then 16 + nbits16 (n >>> 16) else nbits16 n

def nbits (n : Nat) : Nat := if n = 0 then 0 else nbits32 n

/-! `mm.h` -/

def pagingCpuBusWidth : Nat := 22

def pagingPagesz : Nat := 256

/-- `BIT (10)`. The comment beside the macro says 1MB, but the value is 1024. -/
def pagingMemramsz : Nat := (bit 10).toNat

def pagingPageAlignsz (sz : Int) : Int := cint (divRoundUp sz pagingPagesz * pagingPagesz)

/-- `BIT (14)`. The comment beside the macro says 16MB, but the value is 16384. -/
def pagingMemswpsz : Nat := (bit 14).toNat

def pagingSwpfpnOffset : Nat := 5

def pagingMaxPgn : Int := 16384

def pagingPtePresentMask : BitVec 32 := bit 31

def pagingPteSwappedMask : BitVec 32 := bit 30

def pagingPteFpnLobit : Nat := 0

def pagingPteFpnHibit : Nat := 12

def pagingPteSwptypLobit : Nat := 0

def pagingPteSwptypHibit : Nat := 4

def pagingPteSwpoffLobit : Nat := 5

def pagingPteSwpoffHibit : Nat := 25

def pagingPteFpnMask : BitVec 32 := genmask pagingPteFpnHibit pagingPteFpnLobit

def pagingPteSwptypMask : BitVec 32 := genmask pagingPteSwptypHibit pagingPteSwptypLobit

def pagingPteSwpoffMask : BitVec 32 := genmask pagingPteSwpoffHibit pagingPteSwpoffLobit

def pagingAddrOffstLobit : Nat := 0

def pagingAddrOffstHibit : Nat := nbits pagingPagesz - 1

def pagingAddrPgnLobit : Nat := nbits pagingPagesz

def pagingAddrPgnHibit : Nat := pagingCpuBusWidth - 1

def pagingAddrFpnLobit : Nat := nbits pagingPagesz

def pagingAddrFpnHibit : Nat := nbits pagingMemramsz - 1

def pagingSwpLobit : Nat := nbits pagingPagesz

def pagingSwpHibit : Nat := nbits pagingMemswpsz - 1

def pagingOffstMask : BitVec 32 := genmask pagingAddrOffstHibit pagingAddrOffstLobit

def pagingPgnMask : BitVec 32 := genmask pagingAddrPgnHibit pagingAddrPgnLobit

def pagingFpnMask : BitVec 32 := genmask pagingAddrFpnHibit pagingAddrFpnLobit

def pagingSwpMask : BitVec 32 := genmask pagingSwpHibit pagingSwpLobit

def setbit (v mask : BitVec 32) : BitVec 32 := v ||| mask

def clrbit (v mask : BitVec 32) : BitVec 32 := v &&& ~~~ mask

def setval (v value mask : BitVec 32) (offst : Nat) : BitVec 32 :=
  (v &&& ~~~ mask) ||| ((value <<< offst) &&& mask)

def getval (v mask : BitVec 32) (offst : Nat) : BitVec 32 := (v &&& mask) >>> offst

def pagingPagePresent (pte : BitVec 32) : Bool := pte &&& pagingPtePresentMask != 0#32

/-- `PAGING_OFFST` of an `int` address. -/
def pagingOffst (addr : Int) : Int :=
  (getval (BitVec.ofInt 32 addr) pagingOffstMask pagingAddrOffstLobit).toNat

/-- `PAGING_PGN` of an `int` address. -/
def pagingPgn (addr : Int) : Int :=
  (getval (BitVec.ofInt 32 addr) pagingPgnMask pagingAddrPgnLobit).toNat

/-- `PAGING_FPN`, which the source applies to page table entries although its
mask is the one for physical addresses. -/
def pagingFpn (pte : BitVec 32) : Int := (getval pte pagingFpnMask pagingAddrFpnLobit).toNat

def pagingSwp (pte : BitVec 32) : Int := ((pte &&& pagingSwpMask) >>> pagingSwpfpnOffset).toNat

/-! `mm.c` -/

def pteSetSwap (pte : BitVec 32) (swptyp swpoff : Int) : BitVec 32 :=
  let pte := setbit pte pagingPtePresentMask
  let pte := setbit pte pagingPteSwappedMask
  let pte := setval pte (BitVec.ofInt 32 swptyp) pagingPteSwptypMask pagingPteSwptypLobit
  setval pte (BitVec.ofInt 32 swpoff) pagingPteSwpoffMask pagingPteSwpoffLobit

def pteSetFpn (pte : BitVec 32) (fpn : Int) : BitVec 32 :=
  let pte := setbit pte pagingPtePresentMask
  let pte := clrbit pte pagingPteSwappedMask
  setval pte (BitVec.ofInt 32 fpn) pagingPteFpnMask pagingPteFpnLobit

/-! What the macros compute -/

theorem pagingOffstMask_eq : pagingOffstMask = BitField.mask 32 7 0 := by decide

theorem pagingPgnMask_eq : pagingPgnMask = BitField.mask 32 21 8 := by decide

/-- The decoding mask holds two bits only, taken from above the place where
`pte_set_fpn` stores a small frame number. -/
theorem pagingFpnMask_eq : pagingFpnMask = BitField.mask 32 9 8 := by decide

theorem pagingOffst_eq (addr : Int) : pagingOffst addr = addr % 256 := by
  have h : getval (BitVec.ofInt 32 addr) pagingOffstMask pagingAddrOffstLobit =
      BitField.get (BitVec.ofInt 32 addr) 7 0 := by
    rw [pagingOffstMask_eq]; rfl
  rw [pagingOffst, h, BitField.toNat_get _ (by decide), BitVec.toNat_ofInt]
  omega

theorem pagingOffst_bounds (addr : Int) : 0 ≤ pagingOffst addr ∧ pagingOffst addr < 256 := by
  rw [pagingOffst_eq]
  omega

/-- The page number of an address, cut to the 14 bits of the address bus. -/
theorem pagingPgn_eq (addr : Int) : pagingPgn addr = addr / 256 % 16384 := by
  have h : getval (BitVec.ofInt 32 addr) pagingPgnMask pagingAddrPgnLobit =
      BitField.get (BitVec.ofInt 32 addr) 21 8 := by
    rw [pagingPgnMask_eq]; rfl
  rw [pagingPgn, h, BitField.toNat_get _ (by decide), BitVec.toNat_ofInt]
  omega

theorem pagingPgn_bounds (addr : Int) : 0 ≤ pagingPgn addr ∧ pagingPgn addr < pagingMaxPgn := by
  rw [pagingPgn_eq, pagingMaxPgn]
  omega

theorem pagingFpn_eq_get (pte : BitVec 32) : pagingFpn pte = (BitField.get pte 9 8).toNat := by
  rw [pagingFpn, pagingFpnMask_eq]; rfl

theorem pagingFpn_bounds (pte : BitVec 32) : 0 ≤ pagingFpn pte ∧ pagingFpn pte < 4 := by
  rw [pagingFpn_eq_get, BitField.toNat_get _ (by decide)]
  omega

theorem getLsbD_bit {nr : Nat} (hNr : nr < 32) (i : Nat) :
    (bit nr).getLsbD i = decide (i = nr) := by
  rw [Bool.eq_iff_iff, bit, BitVec.getLsbD_shiftLeft]
  simp only [BitVec.getLsbD_one, Bool.and_eq_true, decide_eq_true_eq, Bool.not_eq_true',
    decide_eq_false_iff_not]
  omega

/-- Testing a word against a one-bit mask reads that bit. -/
theorem and_bit_ne_zero {nr : Nat} (hNr : nr < 32) (pte : BitVec 32) :
    (pte &&& bit nr != 0#32) = pte.getLsbD nr := by
  rw [Bool.eq_iff_iff, bne_iff_ne]
  constructor
  · intro hNe
    by_contra hBit
    refine hNe (BitVec.eq_of_getLsbD_eq fun i _ => ?_)
    rw [BitVec.getLsbD_and, getLsbD_bit hNr, BitVec.getLsbD_zero]
    by_cases hi : i = nr
    · subst hi
      simpa using hBit
    · simp [hi]
  · intro hBit hEq
    have h := congrArg (fun word => word.getLsbD nr) hEq
    simp [getLsbD_bit hNr, hBit] at h

theorem pagingPagePresent_eq (pte : BitVec 32) : pagingPagePresent pte = pte.getLsbD 31 :=
  and_bit_ne_zero (by decide) pte

@[simp] theorem pagingPagePresent_zero : pagingPagePresent 0#32 = false := by decide

theorem getLsbD_setbit {nr : Nat} (hNr : nr < 32) (v : BitVec 32) (i : Nat) :
    (setbit v (bit nr)).getLsbD i = (v.getLsbD i || decide (i = nr)) := by
  rw [setbit, BitVec.getLsbD_or, getLsbD_bit hNr]

theorem getLsbD_clrbit {nr i : Nat} (hNr : nr < 32) (hi : i < 32) (v : BitVec 32) :
    (clrbit v (bit nr)).getLsbD i = (v.getLsbD i && !decide (i = nr)) := by
  rw [clrbit, BitVec.getLsbD_and, BitVec.getLsbD_not, getLsbD_bit hNr]
  simp [hi]

theorem get_clrbit {nr hi lo : Nat} (hHi : hi < nr) (hNr : nr < 32) (v : BitVec 32) :
    BitField.get (clrbit v (bit nr)) hi lo = BitField.get v hi lo := by
  apply BitVec.eq_of_getLsbD_eq
  intro i _
  rw [BitField.getLsbD_get _ (by omega), BitField.getLsbD_get _ (by omega)]
  by_cases h : lo + i ≤ hi
  · rw [getLsbD_clrbit hNr (by omega)]
    have hNe : lo + i ≠ nr := by omega
    simp [hNe]
  · simp [h]

/-! What the two writers of entries leave -/

/-- Whether the entry is marked as swapped, read with the mask of `mm.h`. -/
def pagingPageSwapped (pte : BitVec 32) : Bool := pte &&& pagingPteSwappedMask != 0#32

theorem pagingPageSwapped_eq (pte : BitVec 32) : pagingPageSwapped pte = pte.getLsbD 30 :=
  and_bit_ne_zero (by decide) pte

private theorem pteSetFpn_eq_set (pte : BitVec 32) (fpn : Int) :
    pteSetFpn pte fpn = BitField.set (clrbit (setbit pte (bit 31)) (bit 30))
      (BitVec.ofInt 32 fpn) 12 0 := rfl

private theorem pteSetSwap_eq_set (pte : BitVec 32) (swptyp swpoff : Int) :
    pteSetSwap pte swptyp swpoff =
      BitField.set (BitField.set (setbit (setbit pte (bit 31)) (bit 30))
        (BitVec.ofInt 32 swptyp) 4 0) (BitVec.ofInt 32 swpoff) 25 5 := rfl

@[simp] theorem pagingPagePresent_pteSetFpn (pte : BitVec 32) (fpn : Int) :
    pagingPagePresent (pteSetFpn pte fpn) = true := by
  rw [pagingPagePresent_eq, pteSetFpn_eq_set, BitField.getLsbD_set _ _ (by decide),
    if_neg (by decide), getLsbD_clrbit (by decide) (by decide), getLsbD_setbit (by decide)]
  simp

@[simp] theorem pagingPageSwapped_pteSetFpn (pte : BitVec 32) (fpn : Int) :
    pagingPageSwapped (pteSetFpn pte fpn) = false := by
  rw [pagingPageSwapped_eq, pteSetFpn_eq_set, BitField.getLsbD_set _ _ (by decide),
    if_neg (by decide), getLsbD_clrbit (by decide) (by decide)]
  simp

/-- What `PAGING_FPN` makes of an entry that `pte_set_fpn` has just written:
frame numbers below 256 all decode to 0. -/
theorem pagingFpn_pteSetFpn (pte : BitVec 32) (fpn : Int) :
    pagingFpn (pteSetFpn pte fpn) = fpn / 256 % 4 := by
  rw [pagingFpn_eq_get, pteSetFpn_eq_set,
    BitField.get_set_inner _ _ (by decide) (by decide) (by decide), BitVec.toNat_ofInt]
  omega

/-- The frame number field of an entry, as `pte_set_fpn` writes it. -/
def pagingPteFpn (pte : BitVec 32) : Int := (getval pte pagingPteFpnMask pagingPteFpnLobit).toNat

theorem pagingPteFpn_pteSetFpn (pte : BitVec 32) (fpn : Int) :
    pagingPteFpn (pteSetFpn pte fpn) = fpn % 8192 := by
  have h : pagingPteFpn (pteSetFpn pte fpn) = (BitField.get (pteSetFpn pte fpn) 12 0).toNat := rfl
  rw [h, pteSetFpn_eq_set, BitField.get_set _ _ (by decide), BitVec.toNat_ofInt]
  omega

/-- A victim's entry as `pg_getpage` writes it back. -/
def pteEvicted (pte : BitVec 32) (swptyp swpoff : Int) : BitVec 32 :=
  clrbit (pteSetSwap pte swptyp swpoff) pagingPtePresentMask

@[simp] theorem pagingPagePresent_pteEvicted (pte : BitVec 32) (swptyp swpoff : Int) :
    pagingPagePresent (pteEvicted pte swptyp swpoff) = false := by
  rw [pagingPagePresent_eq, pteEvicted, pagingPtePresentMask,
    getLsbD_clrbit (by decide) (by decide)]
  simp

@[simp] theorem pagingPageSwapped_pteEvicted (pte : BitVec 32) (swptyp swpoff : Int) :
    pagingPageSwapped (pteEvicted pte swptyp swpoff) = true := by
  rw [pagingPageSwapped_eq, pteEvicted, pagingPtePresentMask,
    getLsbD_clrbit (by decide) (by decide), pteSetSwap_eq_set,
    BitField.getLsbD_set _ _ (by decide), if_neg (by decide),
    BitField.getLsbD_set _ _ (by decide), if_neg (by decide), getLsbD_setbit (by decide)]
  simp

/-- The swap offset field of an entry, as `pte_set_swap` writes it. -/
def pagingPteSwpoff (pte : BitVec 32) : Int :=
  (getval pte pagingPteSwpoffMask pagingPteSwpoffLobit).toNat

theorem pagingPteSwpoff_pteEvicted (pte : BitVec 32) (swptyp swpoff : Int) :
    pagingPteSwpoff (pteEvicted pte swptyp swpoff) = swpoff % 2097152 := by
  have h : pagingPteSwpoff (pteEvicted pte swptyp swpoff) =
      (BitField.get (pteEvicted pte swptyp swpoff) 25 5).toNat := rfl
  rw [h, pteEvicted, pagingPtePresentMask, get_clrbit (by decide) (by decide), pteSetSwap_eq_set,
    BitField.get_set _ _ (by decide), BitVec.toNat_ofInt]
  omega

/-- The bits `PAGING_FPN` reads lie inside the offset field of a swapped entry. -/
theorem pagingFpn_pteEvicted (pte : BitVec 32) (swptyp swpoff : Int) :
    pagingFpn (pteEvicted pte swptyp swpoff) = swpoff / 8 % 4 := by
  rw [pagingFpn_eq_get, pteEvicted, pagingPtePresentMask, get_clrbit (by decide) (by decide),
    pteSetSwap_eq_set, BitField.get_set_inner _ _ (by decide) (by decide) (by decide),
    BitVec.toNat_ofInt]
  omega

end Btlos
