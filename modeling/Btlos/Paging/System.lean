import Btlos.Paging.Getpage
import Btlos.Library.Transition

/-! Several processes on one RAM and one active swap device. -/
namespace Btlos

/-- What `init_mm` finds in the memory it allocates and does not write. -/
structure FreshMm where
  pgd : Int → BitVec 32
  vmFreergList : List VmRg
  lruPgn : PgnList

/-- Zero-filled memory: empty entries and NULL pointers. -/
def FreshMm.zero : FreshMm := ⟨fun _ => 0#32, [], .nodes []⟩

def initVmRg (rgStart rgEnd : Int) : VmRg := ⟨ulong rgStart, ulong rgEnd⟩

def enlistVmRgNode (rglist : List VmRg) (rgnode : VmRg) : List VmRg := rgnode :: rglist

/-- `init_mm`. The page table and the list head are left as they were found. -/
def initMm (fresh : FreshMm) : Mm :=
  let firstRg := initVmRg 0 0
  { pgd := fresh.pgd
    mmap :=
      { vmId := 1, vmStart := 0, vmEnd := 0, sbrk := 0
        vmFreergList := enlistVmRgNode fresh.vmFreergList firstRg }
    symrgtbl := fun _ => ⟨ulong (-1), ulong (-1)⟩
    lruPgn := fresh.lruPgn }

structure System (Proc : Type*) where
  mm : Proc → Mm
  mram : Memphy
  activeMswp : Memphy

namespace System

variable {Proc : Type*}

/-- The system as one of its processes sees it. -/
def caller (sys : System Proc) (proc : Proc) : Caller := ⟨sys.mm proc, sys.mram, sys.activeMswp⟩

/-- The system after a call of the process that left this state. -/
def put [DecidableEq Proc] (sys : System Proc) (proc : Proc) (s : Caller) : System Proc :=
  ⟨Function.update sys.mm proc s.mm, s.mram, s.activeMswp⟩

/-- Processes fresh from `init_mm` on two random-access devices fresh from
`init_memphy`, all on zero-filled memory. -/
def initial (memramsz memswpsz : Int) : System Proc :=
  ⟨fun _ => initMm .zero, initMemphy .zero memramsz 1, initMemphy .zero memswpsz 1⟩

@[simp] theorem caller_mm (sys : System Proc) (proc : Proc) :
    (sys.caller proc).mm = sys.mm proc := rfl

@[simp] theorem caller_mram (sys : System Proc) (proc : Proc) :
    (sys.caller proc).mram = sys.mram := rfl

@[simp] theorem caller_activeMswp (sys : System Proc) (proc : Proc) :
    (sys.caller proc).activeMswp = sys.activeMswp := rfl

variable [DecidableEq Proc]

@[simp] theorem put_mram (sys : System Proc) (proc : Proc) (s : Caller) :
    (sys.put proc s).mram = s.mram := rfl

@[simp] theorem put_activeMswp (sys : System Proc) (proc : Proc) (s : Caller) :
    (sys.put proc s).activeMswp = s.activeMswp := rfl

theorem put_mm (sys : System Proc) (proc other : Proc) (s : Caller) :
    (sys.put proc s).mm other = if other = proc then s.mm else sys.mm other := by
  simp [put, Function.update_apply]

@[simp] theorem put_mm_self (sys : System Proc) (proc : Proc) (s : Caller) :
    (sys.put proc s).mm proc = s.mm := by
  simp [put_mm]

/-- A process asks for a page. -/
def pageStep (junk : Byte) (sys : System Proc) (label : Proc × Int) : Option (System Proc) :=
  ((pgGetpage junk label.2 (sys.caller label.1)).lift (sys.put label.1)).state?

/-- The byte that an uninitialised variable holds during the request is not
determined by the program. -/
def PageStep (sys : System Proc) (label : Proc × Int) (sys' : System Proc) : Prop :=
  ∃ junk, pageStep junk sys label = some sys'

theorem put_caller (sys : System Proc) (proc : Proc) : sys.put proc (sys.caller proc) = sys := by
  simp [put, caller]

@[simp] theorem caller_put (sys : System Proc) (proc : Proc) (s : Caller) :
    (sys.put proc s).caller proc = s := by
  simp [put, caller]

theorem PageStep.cases {sys sys' : System Proc} {label : Proc × Int}
    (h : PageStep sys label sys') :
    ∃ call s', PgEnd (sys.caller label.1) label.2 call ∧ call.state? = some s' ∧
      sys' = sys.put label.1 s' := by
  obtain ⟨junk, hState⟩ := h
  rw [pageStep, Outcome.state?_lift, Option.map_eq_some_iff] at hState
  obtain ⟨s', hState, hPut⟩ := hState
  exact ⟨_, s', pgGetpage_cases junk label.2 _, hState, hPut.symm⟩

end System

end Btlos
