import Btlos.Library.Transition
import Btlos.Paging.Memphy

/-! The two kinds of device side by side: a sequential one and a random-access one
that get the same calls of `MEMPHY_read` and `MEMPHY_write`. -/
namespace Btlos

open Transition

inductive MemphyCall where
  | read (addr : Int)
  | write (addr : Int) (data : Byte)

def MemphyCall.addr : MemphyCall → Int
  | read addr => addr
  | write addr _ => addr

/-- A read that succeeds has a value. -/
def MemphyCall.run : MemphyCall → Memphy → Outcome Memphy (Option Byte)
  | read addr, mp => (memphyRead mp addr).bind fun value mp => .ok (some value) mp
  | write addr data, mp => (memphyWrite mp addr data).bind fun _ mp => .ok none mp

/-- Both devices get the call. One for which it has no defined result stays as it was. -/
def BothStep (s : Memphy × Memphy) (call : MemphyCall) (t : Memphy × Memphy) : Prop :=
  t = ((call.run s.1).state?.getD s.1, (call.run s.2).state?.getD s.2)

/-- The same storage on a sequential and on a random-access device of the same size. -/
structure Twins (s : Memphy × Memphy) : Prop where
  sequential : s.1.rdmflg = false
  random : s.2.rdmflg = true
  maxsz : s.2.maxsz = s.1.maxsz
  storage : s.2.storage = s.1.storage

/-- The call gives the same code and value on both devices and leaves the same storage.
It fails exactly outside the device, without an access, and leaves the cursor of the
sequential device at its address otherwise. -/
structure Interchangeable (s : Memphy × Memphy) (call : MemphyCall) : Prop where
  defined : call.run s.1 ≠ .undefined
  same : (call.run s.1).Matches (· = ·) (fun mp mp' => mp'.storage = mp.storage) (call.run s.2)
  sequential_fails : (∃ mp, call.run s.1 = .fail mp) ↔ ¬ s.1.Has call.addr
  random_fails : (∃ mp, call.run s.2 = .fail mp) ↔ ¬ s.2.Has call.addr
  no_access : (∀ mp, call.run s.1 = .fail mp → mp = s.1) ∧ ∀ mp, call.run s.2 = .fail mp → mp = s.2
  cursor : ∀ value mp, call.run s.1 = .ok value mp → mp.cursor = call.addr

/-- A read has an address of the device. -/
def ReadsInside (s : Memphy × Memphy) (call : MemphyCall) : Prop :=
  ∀ addr, call = .read addr → s.1.Has addr

variable {s t : Memphy × Memphy} {call : MemphyCall}

/-- The traversal stops at the offset if the device has it. -/
theorem mvCsrLoop_eq {maxsz offset numstep : Int} (hLow : 0 ≤ numstep) (hStep : numstep ≤ offset)
    (hHigh : offset < maxsz) : mvCsrLoop maxsz offset numstep numstep = offset := by
  induction h : (offset - numstep).toNat generalizing numstep with
  | zero =>
      rw [mvCsrLoop, if_neg (by omega)]
      omega
  | succ n ih =>
      rw [mvCsrLoop, if_pos (by omega), Int.emod_eq_of_lt (by omega) (by omega)]
      exact ih (by omega) (by omega) (by omega)

theorem Memphy.accessed_cursor {mp : Memphy} {addr : Int} (hSequential : mp.rdmflg = false)
    (h : mp.Has addr) : (mp.accessed addr).cursor = addr := by
  rw [Memphy.accessed, if_neg (by simp [hSequential])]
  exact mvCsrLoop_eq (Int.le_refl 0) h.1 h.2

theorem Twins.has (h : Twins s) (addr : Int) : s.2.Has addr ↔ s.1.Has addr := by
  rw [Memphy.Has, Memphy.Has, h.maxsz]

/-- What a call gives and what is stored after it, if the device has its address. -/
def MemphyCall.value (storage : Int → Byte) : MemphyCall → Option Byte
  | read addr => some (storage addr)
  | write _ _ => none

def MemphyCall.stored (storage : Int → Byte) : MemphyCall → Int → Byte
  | read _ => storage
  | write addr data => Function.update storage addr data

theorem MemphyCall.run_inside {mp : Memphy} (h : mp.Has call.addr) :
    call.run mp = .ok (call.value mp.storage)
      { mp.accessed call.addr with storage := call.stored mp.storage } := by
  cases call with
  | read addr =>
      have hRead := memphyRead_inside h
      rw [MemphyCall.addr] at hRead
      rw [MemphyCall.run, hRead, Outcome.bind_ok]
      congr 1
      exact congrArg (fun storage => { mp.accessed addr with storage := storage })
        (mp.accessed_storage addr)
  | write addr data =>
      have hWrite := memphyWrite_inside h data
      rw [MemphyCall.addr] at hWrite
      rw [MemphyCall.run, hWrite]
      rfl

theorem MemphyCall.read_outside {mp : Memphy} {addr : Int} (h : ¬ mp.Has addr) :
    (MemphyCall.read addr).run mp = if mp.rdmflg then .fail mp else .undefined := by
  rw [MemphyCall.run, memphyRead_outside h]
  split_ifs <;> rfl

theorem MemphyCall.write_outside {mp : Memphy} {addr : Int} (h : ¬ mp.Has addr) (data : Byte) :
    (MemphyCall.write addr data).run mp = .fail mp := by
  rw [MemphyCall.run, memphyWrite_outside h]
  rfl

theorem Twins.interchangeable_inside (h : Twins s) (hHas : s.1.Has call.addr) :
    Interchangeable s call := by
  have hHas' := (h.has call.addr).mpr hHas
  have hRun := MemphyCall.run_inside hHas
  have hRun' := MemphyCall.run_inside hHas'
  refine ⟨by simp [hRun], ?_, by simp [hRun, hHas], by simp [hRun', hHas'], by simp [hRun, hRun'],
    ?_⟩
  · rw [hRun, hRun']
    exact ⟨congrArg (fun storage => call.value storage) h.storage.symm,
      congrArg (fun storage => call.stored storage) h.storage⟩
  · intro value mp hOk
    obtain ⟨-, rfl⟩ := Outcome.ok.inj (hRun.symm.trans hOk)
    exact Memphy.accessed_cursor h.sequential hHas

theorem Twins.interchangeable_iff (h : Twins s) : Interchangeable s call ↔ ReadsInside s call := by
  constructor
  · rintro hSame addr rfl
    by_contra hOut
    refine hSame.defined ?_
    rw [MemphyCall.read_outside hOut, if_neg (by simp [h.sequential])]
  · intro hInside
    by_cases hHas : s.1.Has call.addr
    · exact h.interchangeable_inside hHas
    · cases call with
      | read addr => exact absurd (hInside addr rfl) hHas
      | write addr data =>
          have hOut : ¬ s.1.Has addr := hHas
          have hOut' : ¬ s.2.Has addr := fun hHas' => hOut ((h.has addr).mp hHas')
          have hRun := MemphyCall.write_outside hOut data
          have hRun' := MemphyCall.write_outside hOut' data
          refine ⟨by simp [hRun], ?_, by simp [hRun, MemphyCall.addr, hOut],
            by simp [hRun', MemphyCall.addr, hOut'], by simp [hRun, hRun'], by simp [hRun]⟩
          rw [hRun, hRun']
          exact h.storage

theorem Twins.step (h : Twins s) (step : BothStep s call t) : Twins t := by
  subst step
  by_cases hHas : s.1.Has call.addr
  · have hHas' := (h.has call.addr).mpr hHas
    rw [MemphyCall.run_inside hHas, MemphyCall.run_inside hHas']
    refine ⟨?_, ?_, ?_, congrArg (fun storage => call.stored storage) h.storage⟩
    · exact (Memphy.accessed_rdmflg _ _).trans h.sequential
    · exact (Memphy.accessed_rdmflg _ _).trans h.random
    · exact (Memphy.accessed_maxsz _ _).trans (h.maxsz.trans (Memphy.accessed_maxsz _ _).symm)
  · have hHas' : ¬ s.2.Has call.addr := fun hIn => hHas ((h.has call.addr).mp hIn)
    cases call with
    | write addr data =>
        rw [MemphyCall.addr] at hHas hHas'
        rw [MemphyCall.write_outside hHas, MemphyCall.write_outside hHas']
        exact h
    | read addr =>
        rw [MemphyCall.addr] at hHas hHas'
        rw [MemphyCall.read_outside hHas, MemphyCall.read_outside hHas', h.sequential, h.random]
        exact h

/-- In every sequence of calls, with any addresses, the two devices do the same exactly
if each read has an address of the device. -/
theorem interchangeable_run_iff (h : Twins s) (calls : List MemphyCall) (t : Memphy × Memphy) :
    Runs (Guarded BothStep Interchangeable) s calls t ↔
      Runs (Guarded BothStep ReadsInside) s calls t :=
  Runs.guarded_iff Twins h (fun _ _ _ hTwins step => hTwins.step step)
    fun _ _ hTwins => hTwins.interchangeable_iff

/-- Both kinds of device with 256 bytes, a write outside of them and a read inside. -/
theorem interchangeable_write_outside :
    ∃ t, Runs (Guarded BothStep Interchangeable)
      (initMemphy .zero 256 0, initMemphy .zero 256 1) [.write (-1) 5#8, .read 255] t := by
  have hTwins : Twins (initMemphy .zero 256 0, initMemphy .zero 256 1) := ⟨rfl, rfl, rfl, rfl⟩
  have run : Runs (Guarded BothStep ReadsInside)
      (initMemphy .zero 256 0, initMemphy .zero 256 1) [.write (-1) 5#8, .read 255] _ :=
    (Runs.one ⟨rfl, by simp [ReadsInside]⟩).snoc ⟨rfl, by
      rintro addr hRead
      obtain rfl := MemphyCall.read.inj hRead
      decide⟩
  exact ⟨_, (interchangeable_run_iff hTwins _ _).mpr run⟩

/-- A read one past the end of 256 bytes: refused by the random-access device, and a read
outside the storage of the sequential one. -/
theorem sequential_read_past_end :
    (MemphyCall.read 256).run (initMemphy .zero 256 1) = .fail (initMemphy .zero 256 1) ∧
      (MemphyCall.read 256).run (initMemphy .zero 256 0) = .undefined ∧
      ¬ Interchangeable (initMemphy .zero 256 0, initMemphy .zero 256 1) (.read 256) := by
  have hUndefined : (MemphyCall.read 256).run (initMemphy .zero 256 0) = .undefined := rfl
  exact ⟨rfl, hUndefined, fun h => h.defined hUndefined⟩

end Btlos
