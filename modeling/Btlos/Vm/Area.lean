import Btlos.Paging.System

/-! Regions of the virtual memory of a process: `__alloc` and `__free` of
`mm-vm.c` and what they call, with the mapping loop of `mm.c`. Every loop that
may not return takes a number of rounds, and a call is undefined when they are
used up. Pointers that only carry an error message are left out. -/
namespace Btlos

def pagingMaxSymtblSz : Int := 30

namespace Caller

def setMmap (s : Caller) (mmap : VmArea) : Caller := { s with mm := { s.mm with mmap := mmap } }

def setVmFreergList (s : Caller) (rgs : List VmRg) : Caller :=
  s.setMmap { s.mm.mmap with vmFreergList := rgs }

theorem setVmFreergList_self (s : Caller) {rgs : List VmRg} (h : s.mm.mmap.vmFreergList = rgs) :
    s.setVmFreergList rgs = s := by
  subst h
  rfl

def setSbrk (s : Caller) (sbrk : Int) : Caller := s.setMmap { s.mm.mmap with sbrk := sbrk }

def setVmEnd (s : Caller) (vmEnd : Int) : Caller := s.setMmap { s.mm.mmap with vmEnd := vmEnd }

def putSymrg (s : Caller) (rgid : Int) (rg : VmRg) : Caller :=
  { s with mm := { s.mm with symrgtbl := Function.update s.mm.symrgtbl rgid rg } }

@[simp] theorem putSymrg_self (s : Caller) (rgid : Int) (rg : VmRg) :
    (s.putSymrg rgid rg).mm.symrgtbl rgid = rg := by
  simp [putSymrg]

/-- A write to the symbol table. Nothing checks the index. -/
def setSymrg (s : Caller) (rgid : Int) (rg : VmRg) : Outcome Caller Unit :=
  if 0 ≤ rgid ∧ rgid < pagingMaxSymtblSz then .ok () (s.putSymrg rgid rg) else .undefined

end Caller

def enlistVmFreergList (rgElmt : VmRg) (s : Caller) : Outcome Caller Unit :=
  if rgElmt.rgStart ≥ rgElmt.rgEnd then .fail s
  else .ok () (s.setVmFreergList (rgElmt :: s.mm.mmap.vmFreergList))

/-- The loop of `get_vma_by_num` does not advance its counter, so a positive
number walks off the list of areas, which has one member. -/
def getVmaByNum (mm : Mm) (vmaid : Int) : Option VmArea :=
  if 0 < vmaid then none else some mm.mmap

@[simp] theorem getVmaByNum_zero (mm : Mm) : getVmaByNum mm 0 = some mm.mmap := rfl

/-- The check admits one index past the end of the table. -/
def getSymrgByid (rgid : Int) (s : Caller) : Outcome Caller VmRg :=
  if rgid < 0 ∨ rgid > pagingMaxSymtblSz then .fail s
  else if rgid = pagingMaxSymtblSz then .undefined
  else
    let rg := s.mm.symrgtbl rgid
    if rg.rgStart = rg.rgEnd then .fail s else .ok rg s

/-- The traversal of `get_free_vmrg_area` from node `rgit` on, with the nodes as
they are left. It goes on after a hit, with the node it has just changed. -/
def firstFitLoop (size : Int) : Nat → VmRg → List VmRg → Option (VmRg × List VmRg)
  | _, newrg, [] => some (newrg, [])
  | 0, _, _ :: _ => none
  | fuel + 1, newrg, rgit :: rest =>
      if ulong (rgit.rgStart + size) ≤ rgit.rgEnd then
        let newrg : VmRg := ⟨rgit.rgStart, ulong (rgit.rgStart + size)⟩
        if ulong (rgit.rgStart + size) < rgit.rgEnd then
          firstFitLoop size fuel newrg (⟨ulong (rgit.rgStart + size), rgit.rgEnd⟩ :: rest)
        else
          match rest with
          -- the next node is cloned into this one and freed
          | nextrg :: rest => firstFitLoop size fuel newrg (nextrg :: rest)
          | [] => firstFitLoop size fuel newrg [⟨rgit.rgEnd, rgit.rgEnd⟩]
      else (firstFitLoop size fuel newrg rest).map fun (newrg, rest) => (newrg, rgit :: rest)

def getFreeVmrgArea (fuel : Nat) (vmaid size : Int) (s : Caller) : Outcome Caller VmRg :=
  match getVmaByNum s.mm vmaid with
  | none => .fail s
  | some curVma =>
      if curVma.vmFreergList = [] then .fail s
      else
        match firstFitLoop size fuel ⟨ulong (-1), ulong (-1)⟩ curVma.vmFreergList with
        | none => .undefined
        | some (newrg, rgs) =>
            let s := s.setVmFreergList rgs
            if newrg.rgStart = ulong (-1) then .fail s else .ok newrg s

def vmapPageRange (junk : Byte) : Nat → Int → Caller → Outcome Caller Unit
  | 0, _, s => .ok () s
  | pgnum + 1, addr, s =>
      (pgGetpage junk (pagingPgn addr) s).bind fun _ s =>
        vmapPageRange junk pgnum (cint (addr + pagingPagesz)) s

/-- `vm_map_ram`. The frames are no longer allocated in advance, so the tests of
that allocation never fail. -/
def vmMapRam (junk : Byte) (mapstart incpgnum : Int) (s : Caller) : Outcome Caller Unit :=
  vmapPageRange junk incpgnum.toNat mapstart s

def getVmAreaNodeAtBrk (curVma : VmArea) (size : Int) : VmRg :=
  ⟨curVma.sbrk, ulong (curVma.sbrk + size)⟩

/-- Never implemented in the source. -/
def validateOverlapVmArea (_vmastart _vmaend : Int) : Int := 0

/-- `inc_vma_limit`. The limit is raised before the pages are mapped, and stays
raised when that fails. -/
def incVmaLimit (junk : Byte) (vmaid incSz : Int) (s : Caller) : Outcome Caller Unit :=
  let incAmt := pagingPageAlignsz incSz
  let incnumpage := incAmt.tdiv pagingPagesz
  match getVmaByNum s.mm vmaid with
  | none => .undefined
  | some curVma =>
      let area := getVmAreaNodeAtBrk curVma incSz
      let oldEnd := cint curVma.vmEnd
      if validateOverlapVmArea area.rgStart area.rgEnd < 0 then .fail s
      else vmMapRam junk oldEnd incnumpage (s.setVmEnd (ulong (curVma.vmEnd + incSz)))

/-- The end of a successful growth: the symbol gets the bytes from `sbrk` on. -/
def takeBrk (curVma : VmArea) (rgid size : Int) (s : Caller) : Outcome Caller Unit :=
  let oldSbrk := cint curVma.sbrk
  (s.setSbrk (ulong (curVma.sbrk + size))).setSymrg rgid
    ⟨ulong oldSbrk, ulong (cint (oldSbrk + size))⟩

/-- The part of `__alloc` after a failed search. An area that is not found is
reported and then used all the same. -/
def allocAtBrk (junk : Byte) (vmaid rgid size allocAddr : Int) (s : Caller) : Outcome Caller Int :=
  match getVmaByNum s.mm vmaid with
  | none => .undefined
  | some curVma =>
      let gap := cint (curVma.vmEnd - curVma.sbrk)
      if gap ≥ size then
        (takeBrk curVma rgid size s).bind fun _ s => .ok allocAddr s
      else
        let incSz := pagingPageAlignsz (cint (size - gap))
        (incVmaLimit junk vmaid incSz s).bind fun _ s =>
          (takeBrk curVma rgid size s).bind fun _ s => .ok (cint curVma.sbrk) s

/-- `__alloc`. The value of a success is what `*alloc_addr` holds afterwards; one
path does not write it. -/
def alloc (fuel : Nat) (junk : Byte) (vmaid rgid size allocAddr : Int) (s : Caller) :
    Outcome Caller Int :=
  match getFreeVmrgArea fuel vmaid size s with
  | .ok rgnode s => (s.setSymrg rgid rgnode).bind fun _ s => .ok (cint rgnode.rgStart) s
  | .fail s => allocAtBrk junk vmaid rgid size allocAddr s
  | .undefined => .undefined

/-- `__free`. The symbol is cleared before its region is enlisted. -/
def free (vmaid rgid : Int) (s : Caller) : Outcome Caller Unit :=
  if rgid < 0 ∨ rgid > pagingMaxSymtblSz then .fail s
  else
    (getSymrgByid rgid s).bind fun currg s =>
    match getVmaByNum s.mm vmaid with
    | none => .fail s
    | some _ =>
        (s.setSymrg rgid ⟨ulong (-1), ulong (-1)⟩).bind fun _ s => enlistVmFreergList currg s

/-- `pgalloc`. The address is dropped. -/
def pgalloc (fuel : Nat) (junk : Byte) (addr size regIndex : Int) (s : Caller) :
    Outcome Caller Int :=
  alloc fuel junk 0 (cint regIndex) (cint size) addr s

def pgfreeData (regIndex : Int) (s : Caller) : Outcome Caller Unit := free 0 (cint regIndex) s

/-- For the one area there is, only the mapping of the pages can fail. -/
theorem incVmaLimit_zero (junk : Byte) (incSz : Int) (s : Caller) :
    incVmaLimit junk 0 incSz s =
      vmapPageRange junk ((pagingPageAlignsz incSz).tdiv pagingPagesz).toNat
        (cint s.mm.mmap.vmEnd) (s.setVmEnd (ulong (s.mm.mmap.vmEnd + incSz))) := by
  simp only [incVmaLimit, getVmaByNum_zero, validateOverlapVmArea, vmMapRam]
  exact if_neg (Int.lt_irrefl 0)

/-! Rules for properties of the states in which a call can end -/

section Rules

variable {property : Caller → Prop} {s : Caller}

theorem setSymrg_rule {rgid : Int} {rg : VmRg} (hSet : property (s.putSymrg rgid rg)) :
    (s.setSymrg rgid rg).Ends property := by
  rw [Caller.setSymrg]
  split_ifs
  · exact hSet
  · trivial

/-- An allocation ends with the symbol set, after a search that succeeds, or at
`sbrk`, after one that fails. -/
theorem alloc_rule {fuel : Nat} {junk : Byte} {vmaid rgid size allocAddr : Int}
    (hFound : ∀ rgnode middle, getFreeVmrgArea fuel vmaid size s = .ok rgnode middle →
      (middle.setSymrg rgid rgnode).Ends property)
    (hMissed : ∀ middle, getFreeVmrgArea fuel vmaid size s = .fail middle →
      (allocAtBrk junk vmaid rgid size allocAddr middle).Ends property) :
    (alloc fuel junk vmaid rgid size allocAddr s).Ends property := by
  rw [alloc]
  cases hSearch : getFreeVmrgArea fuel vmaid size s with
  | undefined => trivial
  | ok rgnode middle => exact (hFound rgnode middle hSearch).bind fun _ _ hEnd => hEnd
  | fail middle => exact hMissed middle hSearch

/-- A release leaves the state as it was, or clears the symbol and then puts its
region on the list, unless that is refused. -/
theorem free_rule {rgid : Int} (hSame : property s)
    (hCleared : property (s.putSymrg rgid ⟨ulong (-1), ulong (-1)⟩))
    (hEnlisted : property ((s.putSymrg rgid ⟨ulong (-1), ulong (-1)⟩).setVmFreergList
      (s.mm.symrgtbl rgid :: s.mm.mmap.vmFreergList))) : (free 0 rgid s).Ends property := by
  simp only [free, getSymrgByid, getVmaByNum_zero]
  split_ifs
  · exact hSame
  · trivial
  · exact hSame
  · rw [Outcome.bind_ok, Caller.setSymrg]
    split_ifs
    · rw [Outcome.bind_ok, enlistVmFreergList]
      split_ifs
      · exact hCleared
      · exact hEnlisted
    · trivial

end Rules

end Btlos
