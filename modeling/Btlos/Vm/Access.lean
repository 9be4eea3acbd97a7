import Btlos.Vm.Area

/-! Reading and writing bytes of a process: the rest of `mm-vm.c`, and the rule
by which a property of the paging state is carried through every call. -/
namespace Btlos

/-- `fpn << PAGING_ADDR_FPN_LOBIT` plus the offset. -/
def phyAddr (fpn off : Int) : Int := cint (cint (fpn * 2 ^ pagingAddrFpnLobit) + off)

theorem phyAddr_eq {fpn off : Int} (hFpn : 0 ≤ fpn ∧ fpn < 4) (hOff : 0 ≤ off ∧ off < 256) :
    phyAddr fpn off = fpn * 256 + off := by
  have hLobit : (2 : Int) ^ pagingAddrFpnLobit = 256 := by decide
  have hFrame : cint (fpn * 256) = fpn * 256 := cint_of_range (by omega) (by omega)
  rw [phyAddr, hLobit, hFrame]
  exact cint_of_range (by omega) (by omega)

def pgGetval (junk : Byte) (addr : Int) (s : Caller) : Outcome Caller Byte :=
  let pgn := pagingPgn addr
  let off := pagingOffst addr
  (pgGetpage junk pgn s).bind fun fpn s =>
    (memphyRead s.mram (phyAddr fpn off)).lift fun mram => { s with mram := mram }

def pgSetval (junk : Byte) (addr : Int) (value : Byte) (s : Caller) : Outcome Caller Unit :=
  let pgn := pagingPgn addr
  let off := pagingOffst addr
  (pgGetpage junk pgn s).bind fun fpn s =>
    (memphyWrite s.mram (phyAddr fpn off) value).lift fun mram => { s with mram := mram }

/-- The checks that `__read` and `__write` make before they go to a page: the
virtual address of an access. The test admits the offset at the region's end. -/
def accessAddr (vmaid rgid offset : Int) (s : Caller) : Outcome Caller Int :=
  (getSymrgByid rgid s).bind fun currg s =>
  match getVmaByNum s.mm vmaid with
  | none => .fail s
  | some _ =>
      if ulong (currg.rgStart + offset) < currg.rgStart ∨
          ulong (currg.rgStart + offset) > currg.rgEnd then .fail s
      else .ok (cint (currg.rgStart + offset)) s

/-- `__read`. -/
def read (junk : Byte) (vmaid rgid offset : Int) (s : Caller) : Outcome Caller Byte :=
  (accessAddr vmaid rgid offset s).bind fun addr s => pgGetval junk addr s

/-- `__write`. -/
def write (junk : Byte) (vmaid rgid offset : Int) (value : Byte) (s : Caller) :
    Outcome Caller Unit :=
  (accessAddr vmaid rgid offset s).bind fun addr s => pgSetval junk addr value s

def pgwrite (junk data : Byte) (destination offset : Int) (s : Caller) : Outcome Caller Unit :=
  write junk 0 (cint destination) (cint offset) data s

/-- `pgread`. Whatever the read returns, `data` is written to the destination,
and if that fails it is only reported. A failed read leaves in `data` what it
held before. -/
def pgread (junk data : Byte) (source offset destination : Int) (s : Caller) :
    Outcome Caller Unit :=
  match read junk 0 (cint source) (cint offset) s with
  | .ok data s => (pgwrite junk data destination 0 s).ignoreCode ()
  | .fail s => ((pgwrite junk data destination 0 s).ignoreCode ()).bind fun _ s => .fail s
  | .undefined => .undefined

/-! The way of an access to its byte -/

/-- The physical address of an access, once its page is in RAM. -/
def accessPhy (junk : Byte) (rgid offset : Int) (s : Caller) : Outcome Caller Int :=
  (accessAddr 0 rgid offset s).bind fun addr s =>
    (pgGetpage junk (pagingPgn addr) s).bind fun fpn s => .ok (phyAddr fpn (pagingOffst addr)) s

theorem read_eq (junk : Byte) (rgid offset : Int) (s : Caller) :
    read junk 0 rgid offset s = (accessPhy junk rgid offset s).bind fun phy s =>
      (memphyRead s.mram phy).lift fun mram => { s with mram := mram } := by
  simp only [read, accessPhy, pgGetval, Outcome.bind_assoc, Outcome.bind_ok]

theorem write_eq (junk : Byte) (rgid offset : Int) (value : Byte) (s : Caller) :
    write junk 0 rgid offset value s = (accessPhy junk rgid offset s).bind fun phy s =>
      (memphyWrite s.mram phy value).lift fun mram => { s with mram := mram } := by
  simp only [write, accessPhy, pgSetval, Outcome.bind_assoc, Outcome.bind_ok]

/-- An access that gets past the checks: its address comes from the symbol's
region, and the state is still the same. -/
theorem accessAddr_cases (rgid offset : Int) (s : Caller) :
    accessAddr 0 rgid offset s = .undefined ∨ accessAddr 0 rgid offset s = .fail s ∨
      (0 ≤ rgid ∧ rgid < pagingMaxSymtblSz) ∧ accessAddr 0 rgid offset s =
        .ok (cint ((s.mm.symrgtbl rgid).rgStart + offset)) s := by
  simp only [accessAddr, getSymrgByid, getVmaByNum_zero]
  split_ifs with hIndex hLast hDead
  · exact Or.inr (Or.inl rfl)
  · exact Or.inl rfl
  · exact Or.inr (Or.inl rfl)
  · rw [Outcome.bind_ok]
    split_ifs with hOut
    · exact Or.inr (Or.inl rfl)
    · exact Or.inr (Or.inr ⟨by omega, rfl⟩)

/-! A rule for properties of the paging state -/

/-- The same page table, list of recent pages and devices. -/
def Caller.SamePaging (s t : Caller) : Prop :=
  t.mm.pgd = s.mm.pgd ∧ t.mm.lruPgn = s.mm.lruPgn ∧ t.mram = s.mram ∧ t.activeMswp = s.activeMswp

theorem Caller.samePaging_setMmap (s : Caller) (mmap : VmArea) : s.SamePaging (s.setMmap mmap) :=
  ⟨rfl, rfl, rfl, rfl⟩

theorem Caller.samePaging_putSymrg (s : Caller) (rgid : Int) (rg : VmRg) :
    s.SamePaging (s.putSymrg rgid rg) :=
  ⟨rfl, rfl, rfl, rfl⟩

/-- A property that neither the areas and symbols nor a request for a page can
invalidate. -/
structure PagingInvariant (property : Caller → Prop) : Prop where
  samePaging : ∀ s t, s.SamePaging t → property s → property t
  page : ∀ junk pgn s, property s → (pgGetpage junk pgn s).Ends property

namespace PagingInvariant

variable {property : Caller → Prop} (h : PagingInvariant property) {s : Caller}
include h

theorem setSymrg (hStart : property s) (rgid : Int) (rg : VmRg) :
    (s.setSymrg rgid rg).Ends property :=
  setSymrg_rule (h.samePaging s _ (s.samePaging_putSymrg rgid rg) hStart)

theorem vmapPageRange (hStart : property s) (junk : Byte) (pgnum : Nat) (addr : Int) :
    (vmapPageRange junk pgnum addr s).Ends property := by
  induction pgnum generalizing addr s with
  | zero => exact hStart
  | succ pgnum ih =>
      exact (h.page junk (pagingPgn addr) s hStart).bind fun _ middle hMiddle => ih hMiddle _

theorem incVmaLimit (hStart : property s) (junk : Byte) (vmaid incSz : Int) :
    (incVmaLimit junk vmaid incSz s).Ends property := by
  rw [Btlos.incVmaLimit]
  cases getVmaByNum s.mm vmaid with
  | none => trivial
  | some curVma =>
      simp only
      split_ifs
      · exact hStart
      · exact h.vmapPageRange (h.samePaging s _ (s.samePaging_setMmap _) hStart) junk _ _

theorem takeBrk (hStart : property s) (curVma : VmArea) (rgid size : Int) :
    (takeBrk curVma rgid size s).Ends property :=
  h.setSymrg (h.samePaging s _ (s.samePaging_setMmap _) hStart) rgid _

theorem allocAtBrk (hStart : property s) (junk : Byte) (vmaid rgid size allocAddr : Int) :
    (allocAtBrk junk vmaid rgid size allocAddr s).Ends property := by
  rw [Btlos.allocAtBrk]
  cases getVmaByNum s.mm vmaid with
  | none => trivial
  | some curVma =>
      simp only
      split_ifs
      · exact (h.takeBrk hStart curVma rgid size).bind fun _ _ hMiddle => hMiddle
      · apply (h.incVmaLimit hStart junk vmaid _).bind
        intro _ _ hMiddle
        exact (h.takeBrk hMiddle curVma rgid size).bind fun _ _ hLast => hLast

theorem getFreeVmrgArea (hStart : property s) (fuel : Nat) (vmaid size : Int) :
    (getFreeVmrgArea fuel vmaid size s).Ends property := by
  rw [Btlos.getFreeVmrgArea]
  cases getVmaByNum s.mm vmaid with
  | none => exact hStart
  | some curVma =>
      simp only
      split_ifs
      · exact hStart
      · cases firstFitLoop size fuel ⟨ulong (-1), ulong (-1)⟩ curVma.vmFreergList with
        | none => trivial
        | some result =>
            have hSet := h.samePaging s _ (s.samePaging_setMmap
              { s.mm.mmap with vmFreergList := result.2 }) hStart
            simp only
            split_ifs <;> exact hSet

theorem alloc (hStart : property s) (fuel : Nat) (junk : Byte) (vmaid rgid size allocAddr : Int) :
    (alloc fuel junk vmaid rgid size allocAddr s).Ends property := by
  have hSearch := h.getFreeVmrgArea hStart fuel vmaid size
  apply alloc_rule
  · intro rgnode middle hCall
    rw [hCall] at hSearch
    exact h.setSymrg hSearch rgid rgnode
  · intro middle hCall
    rw [hCall] at hSearch
    exact h.allocAtBrk hSearch junk vmaid rgid size allocAddr

theorem free (hStart : property s) (rgid : Int) : (free 0 rgid s).Ends property := by
  have hCleared := h.samePaging s _ (s.samePaging_putSymrg rgid ⟨ulong (-1), ulong (-1)⟩) hStart
  exact free_rule hStart hCleared (h.samePaging _ _ (Caller.samePaging_setMmap _ _) hCleared)

theorem accessPhy (hStart : property s) (junk : Byte) (rgid offset : Int) :
    (accessPhy junk rgid offset s).Ends property := by
  rw [Btlos.accessPhy]
  rcases accessAddr_cases rgid offset s with hCall | hCall | ⟨-, hCall⟩
  · rw [hCall]
    trivial
  · rw [hCall]
    exact hStart
  · rw [hCall]
    exact (h.page junk _ s hStart).bind fun _ _ hLast => hLast

end PagingInvariant

/-- A property that does not depend on the contents of RAM either. -/
structure FrameInvariant (property : Caller → Prop) : Prop extends PagingInvariant property where
  contents : ∀ s mram, s.mram.SameFrames mram → property s → property { s with mram := mram }

namespace FrameInvariant

variable {property : Caller → Prop} (h : FrameInvariant property) {s : Caller}
include h

/-- Reading a byte needs the property only after the page has been found. -/
theorem pgGetval {junk : Byte} {addr : Int}
    (hPage : (pgGetpage junk (pagingPgn addr) s).Ends property) :
    (pgGetval junk addr s).Ends property := by
  refine hPage.bind fun fpn middle hMiddle => Outcome.Ends.lift ?_
  exact (memphyRead_ends middle.mram _).mono fun mram hMram =>
    h.contents middle mram hMram.1 hMiddle

theorem pgSetval {junk : Byte} {addr : Int} (value : Byte)
    (hPage : (pgGetpage junk (pagingPgn addr) s).Ends property) :
    (pgSetval junk addr value s).Ends property := by
  refine hPage.bind fun fpn middle hMiddle => Outcome.Ends.lift ?_
  exact (memphyWrite_ends middle.mram _ value).mono fun mram hMram =>
    h.contents middle mram hMram hMiddle

theorem pgwrite (hStart : property s) (junk data : Byte) (destination offset : Int) :
    (pgwrite junk data destination offset s).Ends property := by
  rw [Btlos.pgwrite, write]
  rcases accessAddr_cases (cint destination) (cint offset) s with hCall | hCall | ⟨-, hCall⟩
  · rw [hCall]
    trivial
  · rw [hCall]
    exact hStart
  · rw [hCall]
    exact h.pgSetval data (h.page junk _ s hStart)

end FrameInvariant

end Btlos
