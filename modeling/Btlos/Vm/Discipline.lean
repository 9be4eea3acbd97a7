import Btlos.Vm.MemoryLaw
import Btlos.Vm.Layout

/-! Allocation, use and release of symbols over whole runs. The table stores no
mark for a live symbol; the test of `get_symrg_byid` on its region has to agree
with the history of calls. -/
namespace Btlos

open Transition

/-- The call on area number 0. Only its return code counts. -/
def ByteCall.run (u : Uninit) : ByteCall → Caller → Outcome Caller Unit
  | alloc rgid size, s =>
      (Btlos.alloc u.fuel u.junk 0 rgid size u.addr s).bind fun _ s => .ok () s
  | free rgid, s => Btlos.free 0 rgid s
  | read rgid offset, s => (Btlos.read u.junk 0 rgid offset s).bind fun _ s => .ok () s
  | write rgid offset value, s => Btlos.write u.junk 0 rgid offset value s

/-- A call that returns, with its return code. The contents of uninitialised
variables and the number of rounds are open. -/
def ByteStep (s : Caller) (label : ByteCall × Bool) (t : Caller) : Prop :=
  ∃ u, (label.1.run u s).code? = some (label.2, t)

/-- A size is at least 1 as an `int`. -/
def ByteCall.Sized : ByteCall → Prop
  | alloc _ size => 1 ≤ size ∧ size < 2147483648
  | _ => True

instance : (call : ByteCall) → Decidable call.Sized
  | .alloc _ _ => inferInstanceAs (Decidable (_ ∧ _))
  | .free _ | .read _ _ | .write _ _ _ => isTrue trivial

/-- Calls that leave the process below the limit of the bus. -/
def BoundedByteStep : Caller → ByteCall × Bool → Caller → Prop :=
  Keeping (Guarded ByteStep fun _ label => label.1.Sized) Caller.BelowBus

/-- The same as a function, for given contents of uninitialised variables. -/
def boundedByteStep (u : Uninit) (s : Caller) (label : ByteCall × Bool) : Option Caller :=
  ((label.1.run u s).code?.filter fun result =>
    result.1 = label.2 ∧ label.1.Sized ∧ result.2.BelowBus).map Prod.snd

theorem boundedByteStep_step {u : Uninit} {s t : Caller} {label : ByteCall × Bool}
    (h : boundedByteStep u s label = some t) : BoundedByteStep s label t := by
  obtain ⟨ok, t', hCode, hTest, rfl⟩ := Outcome.code?_of_filter h
  obtain ⟨rfl, hSized, hBus⟩ := of_decide_eq_true hTest
  exact ⟨⟨⟨u, hCode⟩, hSized⟩, hBus⟩

/-- A process on memory of which only the head of the region list is known to be
NULL, and on any two devices. -/
def unsetCaller (pgd : Int → BitVec 32) (lruPgn : PgnList) (mram activeMswp : Memphy) : Caller :=
  ⟨initMm ⟨pgd, [], lruPgn⟩, mram, activeMswp⟩

/-! What one call does to areas and symbols -/

theorem Caller.SameVm.inOrder {s t : Caller} (h : s.SameVm t) (hOrder : s.mm.InOrder) :
    t.mm.InOrder := by
  obtain ⟨hMmap, hTbl⟩ := h
  refine ⟨⟨?_, ?_, ?_⟩, ?_, ?_, fun addr => ?_⟩
  · rw [hMmap]
    exact hOrder.sbrk_nonneg
  · rw [hMmap]
    exact hOrder.sbrk_le
  · rw [hMmap]
    exact hOrder.free
  · rw [hMmap]
    exact hOrder.vmEnd_aligned
  · rw [hMmap, hTbl]
    exact hOrder.symbol
  · rw [Mm.cover, hMmap, hTbl]
    exact hOrder.cover_le addr

theorem pgGetval_sameVm (junk : Byte) (addr : Int) (s : Caller) :
    (pgGetval junk addr s).Ends s.SameVm := by
  apply (pgGetpage_sameVm junk (pagingPgn addr) s).bind
  intro fpn middle hMiddle
  apply Outcome.Ends.lift
  exact (memphyRead_ends middle.mram _).mono fun _ _ => hMiddle

theorem pgSetval_sameVm (junk : Byte) (addr : Int) (value : Byte) (s : Caller) :
    (pgSetval junk addr value s).Ends s.SameVm := by
  apply (pgGetpage_sameVm junk (pagingPgn addr) s).bind
  intro fpn middle hMiddle
  apply Outcome.Ends.lift
  exact (memphyWrite_ends middle.mram _ value).mono fun _ _ => hMiddle

theorem read_sameVm (junk : Byte) (rgid offset : Int) (s : Caller) :
    (read junk 0 rgid offset s).Ends s.SameVm := by
  rw [read]
  rcases accessAddr_cases rgid offset s with hCall | hCall | ⟨-, hCall⟩
  · rw [hCall]
    trivial
  · rw [hCall]
    exact .rfl
  · rw [hCall]
    exact pgGetval_sameVm junk _ s

theorem write_sameVm (junk : Byte) (rgid offset : Int) (value : Byte) (s : Caller) :
    (write junk 0 rgid offset value s).Ends s.SameVm := by
  rw [write]
  rcases accessAddr_cases rgid offset s with hCall | hCall | ⟨-, hCall⟩
  · rw [hCall]
    trivial
  · rw [hCall]
    exact .rfl
  · rw [hCall]
    exact pgSetval_sameVm junk _ value s

theorem pgread_sameVm (junk data : Byte) (source offset destination : Int) (s : Caller) :
    (pgread junk data source offset destination s).Ends s.SameVm := by
  have hRead := read_sameVm junk (cint source) (cint offset) s
  rw [pgread]
  cases hCall : read junk 0 (cint source) (cint offset) s with
  | undefined => trivial
  | ok data middle =>
      rw [hCall] at hRead
      apply Outcome.Ends.ignoreCode
      exact (write_sameVm junk _ _ data middle).mono fun _ hSame => hRead.trans hSame
  | fail middle =>
      rw [hCall] at hRead
      have hWrite := (write_sameVm junk (cint destination) (cint 0) data middle).mono
        fun _ hSame => hRead.trans hSame
      exact hWrite.ignoreCode.bind fun _ _ hLast => hLast

section Index

variable {s t : Caller} {rgid size : Int} {ok : Bool}

/-- A failed allocation may have been for any symbol. -/
private theorem AllocTo.of_failed (h : AllocTo s rgid size false t) (other : Int) :
    AllocTo s other size false t := by
  cases h with
  | failed rgs vmEnd t hCarves hAligned hRaised hMmap hTbl =>
      exact .failed rgs vmEnd t hCarves hAligned hRaised hMmap hTbl

theorem mem_symbols_zero : (0 : Int) ∈ symbols := mem_symbols.mpr ⟨by decide, by decide⟩

/-- Whatever its index, an allocation that ends in one of these ways keeps the
process in order. -/
theorem Mm.InOrder.alloc_end (h : s.mm.InOrder) (hSize : 1 ≤ size) (hTo : AllocTo s rgid size ok t)
    (hRgid : ok = true → rgid ∈ symbols) : t.mm.InOrder := by
  cases ok with
  | true => exact h.alloc_step (hRgid rfl) hSize hTo
  | false => exact h.alloc_step mem_symbols_zero hSize (hTo.of_failed 0)

/-- An allocation that returns ends in one of the ways of `AllocTo`, and if it
succeeds the index is in the table. -/
theorem alloc_to {u : Uninit} (h : Bounded s.mm) (hBus : s.BelowBus)
    (hSize : 1 ≤ size ∧ size < 2147483648)
    (hCode : (alloc u.fuel u.junk 0 rgid size u.addr s).code? = some (ok, t))
    (hBus' : t.BelowBus) : AllocTo s rgid size ok t ∧ (ok = true → rgid ∈ symbols) := by
  refine ⟨alloc_cases h hBus hSize hCode hBus', ?_⟩
  rintro rfl
  exact mem_symbols.mpr (alloc_rgid hCode)

theorem free_to (h : s.mm.InOrder) (hCode : (free 0 rgid s).code? = some (ok, t)) :
    FreeTo s rgid ok t ∧ (ok = true → rgid ∈ symbols) := by
  by_cases hRgid : 0 ≤ rgid ∧ rgid < pagingMaxSymtblSz
  · have hMem := mem_symbols.mpr hRgid
    refine ⟨free_cases hRgid ?_ hCode, fun _ => hMem⟩
    rcases h.symbol rgid hMem with hDead | hLive
    · omega
    · omega
  · by_cases hLast : rgid = pagingMaxSymtblSz
    · subst hLast
      simp [free, getSymrgByid, pagingMaxSymtblSz] at hCode
    · have hBad : rgid < 0 ∨ rgid > pagingMaxSymtblSz := by omega
      simp only [free, if_pos hBad, Outcome.code?_fail, Option.some.injEq, Prod.mk.injEq] at hCode
      obtain ⟨rfl, rfl⟩ := hCode
      exact ⟨.notLive, fun hOk => absurd hOk (by decide)⟩

end Index

/-- What a call can do to the areas and symbols of a process that is in order. -/
def ByteTo (s : Caller) : ByteCall → Bool → Caller → Prop
  | .alloc rgid size, ok, t => AllocTo s rgid size ok t ∧ (ok = true → rgid ∈ symbols)
  | .free rgid, ok, t => FreeTo s rgid ok t ∧ (ok = true → rgid ∈ symbols)
  | .read _ _, _, t | .write _ _ _, _, t => s.SameVm t

theorem BoundedByteStep.cases {s t : Caller} {label : ByteCall × Bool} (h : s.mm.InOrder)
    (hBus : s.BelowBus) (step : BoundedByteStep s label t) : ByteTo s label.1 label.2 t := by
  obtain ⟨⟨⟨u, hCode⟩, hSized⟩, hBus'⟩ := step
  obtain ⟨call, ok⟩ := label
  cases call with
  | alloc rgid size =>
      simp only [ByteCall.run, Outcome.code?_bind_ok] at hCode
      exact alloc_to h.toBounded hBus hSized hCode hBus'
  | free rgid => exact free_to h hCode
  | read rgid offset =>
      simp only [ByteCall.run, Outcome.code?_bind_ok] at hCode
      exact (read_sameVm u.junk rgid offset s).of_code? hCode
  | write rgid offset value => exact (write_sameVm u.junk rgid offset value s).of_code? hCode

theorem Mm.InOrder.byteStep {s t : Caller} {label : ByteCall × Bool} (h : s.mm.InOrder)
    (hBus : s.BelowBus) (step : BoundedByteStep s label t) : t.mm.InOrder := by
  have hTo := step.cases h hBus
  obtain ⟨⟨-, hSized⟩, -⟩ := step
  obtain ⟨call, ok⟩ := label
  cases call with
  | alloc rgid size =>
      exact h.alloc_end hSized.1 hTo.1 hTo.2
  | free rgid =>
      obtain ⟨hFree, hRgid⟩ := hTo
      cases hFree with
      | notLive => exact h
      | enlisted t hLive hMmap hTbl =>
          exact h.free_step (hRgid rfl) (.enlisted t hLive hMmap hTbl)
  | read rgid offset => exact hTo.inOrder h
  | write rgid offset value => exact hTo.inOrder h

/-! Live symbols -/

/-- The last successful allocation of the symbol came after its last successful
release. -/
def LiveAfter (calls : List (ByteCall × Bool)) (rgid : Int) : Prop :=
  Since (fun label => ∃ size, label = (.alloc rgid size, true)) (· = (.free rgid, true)) calls

/-- One call changes the test on a symbol's region as it changes its liveness. -/
theorem live_step {s t : Caller} {label : ByteCall × Bool} {rgid : Int} (h : s.mm.InOrder)
    (hBus : s.BelowBus) (step : BoundedByteStep s label t) :
    (t.mm.symrgtbl rgid).Live ↔ (∃ size, label = (.alloc rgid size, true)) ∨
      label ≠ (.free rgid, true) ∧ (s.mm.symrgtbl rgid).Live := by
  have hTo := step.cases h hBus
  obtain ⟨⟨-, hSized⟩, -⟩ := step
  obtain ⟨call, ok⟩ := label
  cases call with
  | alloc other size =>
      -- the region that an allocation hands out is never empty
      have hSet : ∀ newrg : VmRg, newrg.rgEnd = newrg.rgStart + size →
          t.mm.symrgtbl = Function.update s.mm.symrgtbl other newrg →
          ((t.mm.symrgtbl rgid).Live ↔ rgid = other ∨ (s.mm.symrgtbl rgid).Live) := by
        intro newrg hSize hTbl
        rw [hTbl, Function.update_apply]
        split_ifs with hSame
        · have hPositive : 1 ≤ size := hSized.1
          simp only [VmRg.Live, hSame, hSize, true_or, iff_true]
          omega
        · simp [hSame]
      cases hTo.1 with
      | fit rgs taken newrg t hCarves hLast hMmap hTbl =>
          rw [hSet newrg (hCarves.taken_size newrg (List.mem_of_getLast? hLast)) hTbl]
          simp [eq_comm]
      | brk rgs vmEnd t hCarves hAligned hRoom hMmap hTbl =>
          rw [hSet _ rfl hTbl]
          simp [eq_comm]
      | failed rgs vmEnd t hCarves hAligned hRaised hMmap hTbl =>
          rw [hTbl]
          simp
  | free other =>
      cases hTo.1 with
      | notLive => simp
      | enlisted t hLive hMmap hTbl =>
          rw [hTbl, Function.update_apply]
          by_cases hSame : rgid = other
          · simp [hSame, VmRg.Live]
          · simp [hSame, Ne.symm hSame]
  | read other offset =>
      rw [hTo.2]
      simp
  | write other offset value =>
      rw [hTo.2]
      simp

/-! Whole runs -/

section Run

variable {pgd : Int → BitVec 32} {lruPgn : PgnList} {mram activeMswp : Memphy}
  {calls : List (ByteCall × Bool)} {s : Caller}

theorem inOrder_byteRun
    (run : Runs BoundedByteStep (unsetCaller pgd lruPgn mram activeMswp) calls s) :
    s.mm.InOrder ∧ s.BelowBus := by
  refine run.invariant (fun s => s.mm.InOrder ∧ s.BelowBus)
    ⟨?_, (by decide : (0 : Int) ≤ busLimit)⟩ ?_
  · have hSame : (freshCaller mram activeMswp).SameVm (unsetCaller pgd lruPgn mram activeMswp) :=
      ⟨rfl, rfl⟩
    exact hSame.inOrder inOrder_initMm
  · rintro s label t ⟨hOrder, hBus⟩ step
    exact ⟨hOrder.byteStep hBus step, step.2⟩

/-- The test on the region of a symbol agrees with the history of calls. -/
theorem live_iff_liveAfter
    (run : Runs BoundedByteStep (unsetCaller pgd lruPgn mram activeMswp) calls s) (rgid : Int) :
    (s.mm.symrgtbl rgid).Live ↔ LiveAfter calls rgid := by
  induction run with
  | nil => exact iff_of_false (fun hLive => hLive rfl) not_since_nil
  | snoc prior last ih =>
      obtain ⟨hOrder, hBus⟩ := inOrder_byteRun prior
      rw [live_step hOrder hBus last, LiveAfter, since_concat, ih, LiveAfter]

end Run

/-- What a symbol that is not live does to every use of it. -/
structure Rejected (s : Caller) (rgid : Int) : Prop where
  free : free 0 rgid s = .fail s
  read : ∀ junk offset, read junk 0 rgid offset s = .fail s
  write : ∀ junk offset value, write junk 0 rgid offset value s = .fail s

theorem rejected_of_not_live {s : Caller} {rgid : Int}
    (hRgid : 0 ≤ rgid ∧ rgid < pagingMaxSymtblSz) (hDead : ¬ (s.mm.symrgtbl rgid).Live) :
    Rejected s rgid := by
  have hIndex : ¬ (rgid < 0 ∨ rgid > pagingMaxSymtblSz) := by omega
  have hNotLast : rgid ≠ pagingMaxSymtblSz := by omega
  have hSymrg : getSymrgByid rgid s = .fail s := by
    rw [getSymrgByid, if_neg hIndex, if_neg hNotLast]
    exact if_pos (not_not.mp hDead)
  refine ⟨?_, fun junk offset => ?_, fun junk offset value => ?_⟩
  · rw [Btlos.free, if_neg hIndex, hSymrg, Outcome.bind_fail]
  · rw [Btlos.read, accessAddr, hSymrg, Outcome.bind_fail, Outcome.bind_fail]
  · rw [Btlos.write, accessAddr, hSymrg, Outcome.bind_fail, Outcome.bind_fail]

/-- The release of a live symbol succeeds. -/
theorem free_of_live {s : Caller} {rgid : Int} (h : s.mm.InOrder) (hRgid : rgid ∈ symbols)
    (hLive : (s.mm.symrgtbl rgid).Live) : ∃ t, free 0 rgid s = .ok () t := by
  have hBounds := mem_symbols.mp hRgid
  have hIndex : ¬ (rgid < 0 ∨ rgid > pagingMaxSymtblSz) := by omega
  have hNotLast : rgid ≠ pagingMaxSymtblSz := by omega
  have hNonempty : ¬ (s.mm.symrgtbl rgid).rgStart ≥ (s.mm.symrgtbl rgid).rgEnd := by
    have hRegion := (h.symbol rgid hRgid).resolve_left hLive
    omega
  have hTest : ¬ (s.mm.symrgtbl rgid).rgStart = (s.mm.symrgtbl rgid).rgEnd := hLive
  simp only [free, getSymrgByid, if_neg hIndex, if_neg hNotLast, if_neg hTest, Outcome.bind_ok,
    getVmaByNum_zero, Caller.setSymrg, if_pos hBounds, enlistVmFreergList, if_neg hNonempty]
  exact ⟨_, rfl⟩

/-- In every run a release succeeds exactly for the live symbols, and a symbol
that is not live can be neither released nor read nor written. -/
theorem discipline_run {pgd : Int → BitVec 32} {lruPgn : PgnList} {mram activeMswp : Memphy}
    {calls : List (ByteCall × Bool)} {s : Caller}
    (run : Runs BoundedByteStep (unsetCaller pgd lruPgn mram activeMswp) calls s) (rgid : Int)
    (hRgid : 0 ≤ rgid ∧ rgid < pagingMaxSymtblSz) :
    ((∃ t, free 0 rgid s = .ok () t) ↔ LiveAfter calls rgid) ∧
      (¬ LiveAfter calls rgid → Rejected s rgid) := by
  have hIff := live_iff_liveAfter run rgid
  rw [← hIff]
  refine ⟨⟨?_, ?_⟩, rejected_of_not_live hRgid⟩
  · rintro ⟨t, hFree⟩
    by_contra hDead
    rw [(rejected_of_not_live hRgid hDead).free] at hFree
    simp at hFree
  · exact free_of_live (inOrder_byteRun run).1 (mem_symbols.mpr hRgid)

/-- After a growth, an access, a release, a reuse of the region by another
symbol, and a second release that fails, only the other symbol is live. -/
theorem discipline_run_reuse : ∃ s,
    Runs BoundedByteStep
      (unsetCaller (fun _ => 0) (.nodes []) (initMemphy .zero 1024 1) (initMemphy .zero 4096 1))
      [(.alloc 0 300, true), (.write 0 7 1, true), (.free 0, true), (.alloc 1 200, true),
        (.free 0, false)] s ∧
    (∃ t, free 0 1 s = .ok () t) ∧ Rejected s 0 := by
  have hEval : (exec (boundedByteStep ⟨600, 0, 0, 0⟩)
      (unsetCaller (fun _ => 0) (.nodes []) (initMemphy .zero 1024 1) (initMemphy .zero 4096 1))
      [(.alloc 0 300, true), (.write 0 7 1, true), (.free 0, true), (.alloc 1 200, true),
        (.free 0, false)]).isSome = true := by decide +kernel
  obtain ⟨s, hRun⟩ := Option.isSome_iff_exists.mp hEval
  have run := Runs.of_exec hRun fun _ _ _ h => boundedByteStep_step h
  refine ⟨s, run, ?_, ?_⟩
  · apply (discipline_run run 1 (by decide)).1.mpr
    exact ⟨[(.alloc 0 300, true), (.write 0 7 1, true), (.free 0, true)], _,
      [(.free 0, false)], rfl, ⟨200, rfl⟩, by decide⟩
  · apply (discipline_run run 0 (by decide)).2
    have hSplit : [((.alloc 0 300 : ByteCall), true), (.write 0 7 1, true), (.free 0, true),
        (.alloc 1 200, true), (.free 0, false)] =
          [(.alloc 0 300, true), (.write 0 7 1, true)] ++ [(.free 0, true)] ++
            [(.alloc 1 200, true)] ++ [(.free 0, false)] := rfl
    rw [LiveAfter, hSplit, since_concat, since_concat, since_concat]
    simp

end Btlos
