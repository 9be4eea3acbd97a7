import Btlos.Vm.Access
import Btlos.Vm.FirstFit

/-! The memory calls that a process makes, and which of them ask for a page. -/
namespace Btlos

/-- The memory calls of the instructions of a process. -/
inductive MemCall where
  | pgalloc (size regIndex : Int)
  | pgfreeData (regIndex : Int)
  | pgread (source offset destination : Int)
  | pgwrite (data : Byte) (destination offset : Int)

/-- What uninitialised variables hold during a call, and the number of rounds. -/
structure Uninit where
  fuel : Nat
  junk : Byte
  data : Byte
  addr : Int

def MemCall.run (u : Uninit) : MemCall → Caller → Outcome Caller Unit
  | pgalloc size regIndex, s =>
      (Btlos.pgalloc u.fuel u.junk u.addr size regIndex s).bind fun _ s => .ok () s
  | pgfreeData regIndex, s => Btlos.pgfreeData regIndex s
  | pgread source offset destination, s =>
      Btlos.pgread u.junk u.data source offset destination s
  | pgwrite data destination offset, s => Btlos.pgwrite u.junk data destination offset s

/-- A memory call that returns, with its return code. The contents of
uninitialised variables and the number of rounds are open. -/
def MemStep (s : Caller) (label : MemCall × Bool) (t : Caller) : Prop :=
  ∃ u, (label.1.run u s).code? = some (label.2, t)

/-- The same as `MemStep` as a function, for given uninitialised variables. -/
def memStep (u : Uninit) (s : Caller) (label : MemCall × Bool) : Option Caller :=
  ((label.1.run u s).code?.filter fun result => result.1 = label.2).map Prod.snd

theorem memStep_step {u : Uninit} {s t : Caller} {label : MemCall × Bool}
    (h : memStep u s label = some t) : MemStep s label t := by
  obtain ⟨ok, t', hCode, hTest, rfl⟩ := Outcome.code?_of_filter h
  obtain rfl := of_decide_eq_true hTest
  exact ⟨u, hCode⟩

/-! When a call asks for a page -/

/-- The search for a free region of this size fails. -/
def SearchFails (s : Caller) (size : Int) : Prop :=
  ∃ fuel t, getFreeVmrgArea fuel 0 size s = .fail t

/-- The number of pages that an allocation maps when it has to grow the area. -/
def pagesToMap (s : Caller) (size : Int) : Int :=
  (pagingPageAlignsz (pagingPageAlignsz
    (cint (size - cint (s.mm.mmap.vmEnd - s.mm.mmap.sbrk))))).tdiv pagingPagesz

/-- The access gets past the checks of `__read` and `__write`. -/
def Admitted (s : Caller) (rgid offset : Int) : Prop :=
  ∃ addr, accessAddr 0 (cint rgid) (cint offset) s = .ok addr s

/-- The call gets to `pg_getpage`. -/
def ReachesPaging (s : Caller) : MemCall → Prop
  | .pgalloc size _ => SearchFails s (cint size) ∧
      cint (s.mm.mmap.vmEnd - s.mm.mmap.sbrk) < cint size ∧ 0 < pagesToMap s (cint size)
  | .pgfreeData _ => False
  | .pgread source offset destination => Admitted s source offset ∨ Admitted s destination 0
  | .pgwrite _ destination offset => Admitted s destination offset

theorem Caller.SamePaging.rfl {s : Caller} : s.SamePaging s := ⟨by rfl, by rfl, by rfl, by rfl⟩

theorem Caller.SamePaging.trans {s t u : Caller} (h : s.SamePaging t) (h' : t.SamePaging u) :
    s.SamePaging u :=
  ⟨h'.1.trans h.1, h'.2.1.trans h.2.1, h'.2.2.1.trans h.2.2.1, h'.2.2.2.trans h.2.2.2⟩

theorem setSymrg_samePaging {s t : Caller} (h : s.SamePaging t) (rgid : Int) (rg : VmRg) :
    (t.setSymrg rgid rg).Ends s.SamePaging :=
  setSymrg_rule (h.trans (t.samePaging_putSymrg rgid rg))

theorem takeBrk_samePaging {s t : Caller} (h : s.SamePaging t) (curVma : VmArea)
    (rgid size : Int) : (takeBrk curVma rgid size t).Ends s.SamePaging :=
  setSymrg_samePaging (h.trans (t.samePaging_setMmap _)) rgid _

theorem getFreeVmrgArea_samePaging (fuel : Nat) (size : Int) (s : Caller) :
    (getFreeVmrgArea fuel 0 size s).Ends fun t => s.SamePaging t ∧
      t.mm.mmap.vmEnd = s.mm.mmap.vmEnd ∧ t.mm.mmap.sbrk = s.mm.mmap.sbrk := by
  have hEnd := getFreeVmrgArea_ends fuel size s
  generalize getFreeVmrgArea fuel 0 size s = call at hEnd ⊢
  cases hEnd with
  | undefined => trivial
  | found newrg rgs => exact ⟨s.samePaging_setMmap _, rfl, rfl⟩
  | missed newrg rgs => exact ⟨s.samePaging_setMmap _, rfl, rfl⟩

/-- The growth of an allocation, which maps pages only if it has to. -/
private theorem allocAtBrk_samePaging (junk : Byte) (rgid size allocAddr : Int) (s : Caller)
    (hNone : ¬ (cint (s.mm.mmap.vmEnd - s.mm.mmap.sbrk) < size ∧ 0 < pagesToMap s size)) :
    (allocAtBrk junk 0 rgid size allocAddr s).Ends s.SamePaging := by
  simp only [allocAtBrk, getVmaByNum_zero]
  split_ifs with hRoom
  · exact (takeBrk_samePaging .rfl _ rgid size).bind fun _ _ h => h
  · have hPages : (pagesToMap s size).toNat = 0 := by
      have hNot : ¬ 0 < pagesToMap s size := fun hPos => hNone ⟨by omega, hPos⟩
      omega
    have hMap : (incVmaLimit junk 0
        (pagingPageAlignsz (cint (size - cint (s.mm.mmap.vmEnd - s.mm.mmap.sbrk)))) s).Ends
          s.SamePaging := by
      rw [pagesToMap] at hPages
      rw [incVmaLimit_zero, hPages]
      exact s.samePaging_setMmap _
    apply hMap.bind
    intro _ middle hMiddle
    exact (takeBrk_samePaging hMiddle _ rgid size).bind fun _ _ h => h

theorem alloc_samePaging (fuel : Nat) (junk : Byte) (rgid size allocAddr : Int) (s : Caller)
    (hNone : ¬ (SearchFails s size ∧
      cint (s.mm.mmap.vmEnd - s.mm.mmap.sbrk) < size ∧ 0 < pagesToMap s size)) :
    (alloc fuel junk 0 rgid size allocAddr s).Ends s.SamePaging := by
  have hSearch := getFreeVmrgArea_samePaging fuel size s
  apply alloc_rule
  · intro rgnode middle hCall
    rw [hCall] at hSearch
    exact setSymrg_samePaging hSearch.1 rgid rgnode
  · intro middle hCall
    rw [hCall] at hSearch
    obtain ⟨hSame, hEnd, hSbrk⟩ := hSearch
    have hPages : pagesToMap middle size = pagesToMap s size := by
      rw [pagesToMap, pagesToMap, hEnd, hSbrk]
    refine (allocAtBrk_samePaging junk rgid size allocAddr middle ?_).mono fun _ h => hSame.trans h
    rw [hEnd, hSbrk, hPages]
    exact fun hBoth => hNone ⟨⟨fuel, middle, hCall⟩, hBoth⟩

theorem free_samePaging (rgid : Int) (s : Caller) : (free 0 rgid s).Ends s.SamePaging := by
  have hCleared := s.samePaging_putSymrg rgid ⟨ulong (-1), ulong (-1)⟩
  exact free_rule .rfl hCleared (hCleared.trans (Caller.samePaging_setMmap _ _))

/-- An access that is not admitted leaves the state as it was. -/
theorem accessAddr_not_admitted {s : Caller} {rgid offset : Int} (h : ¬ Admitted s rgid offset) :
    accessAddr 0 (cint rgid) (cint offset) s = .undefined ∨
      accessAddr 0 (cint rgid) (cint offset) s = .fail s := by
  rcases accessAddr_cases (cint rgid) (cint offset) s with hCall | hCall | ⟨-, hCall⟩
  · exact Or.inl hCall
  · exact Or.inr hCall
  · exact absurd ⟨_, hCall⟩ h

theorem pgwrite_samePaging (junk data : Byte) {destination offset : Int} {s : Caller}
    (hNone : ¬ Admitted s destination offset) :
    (pgwrite junk data destination offset s).Ends fun t => t = s := by
  rw [pgwrite, write]
  rcases accessAddr_not_admitted hNone with hCall | hCall
  · rw [hCall]
    trivial
  · rw [hCall]
    rfl

theorem pgread_samePaging (junk data : Byte) {source offset destination : Int} {s : Caller}
    (hSource : ¬ Admitted s source offset) (hDestination : ¬ Admitted s destination 0) :
    (pgread junk data source offset destination s).Ends fun t => t = s := by
  rw [pgread, read]
  rcases accessAddr_not_admitted hSource with hCall | hCall
  · rw [hCall]
    trivial
  · rw [hCall]
    exact (pgwrite_samePaging junk data hDestination).ignoreCode.bind fun _ _ hMiddle => hMiddle

/-- A call that does not ask for a page changes areas and symbols only. -/
theorem MemCall.run_samePaging (u : Uninit) {call : MemCall} {s : Caller}
    (hNone : ¬ ReachesPaging s call) : (call.run u s).Ends s.SamePaging := by
  have hSame : ∀ t, t = s → s.SamePaging t := fun t h => by rw [h]; exact .rfl
  cases call with
  | pgalloc size regIndex =>
      exact (alloc_samePaging u.fuel u.junk _ _ u.addr s hNone).bind fun _ _ h => h
  | pgfreeData regIndex => exact free_samePaging _ s
  | pgwrite data destination offset => exact (pgwrite_samePaging u.junk data hNone).mono hSame
  | pgread source offset destination =>
      obtain ⟨hSource, hDestination⟩ := not_or.mp hNone
      exact (pgread_samePaging u.junk u.data hSource hDestination).mono hSame

/-! A call that asks for a page -/

section Reaches

variable {property : Caller → Prop} (h : FrameInvariant property) {s : Caller}
  (hFirst : ∀ junk pgn t, 0 ≤ pgn → pgn < pagingMaxPgn → s.SamePaging t →
    (pgGetpage junk pgn t).Ends property)
include h hFirst

private theorem pgwrite_reaches (junk data : Byte) {destination offset : Int}
    (hAdmitted : Admitted s destination offset) :
    (pgwrite junk data destination offset s).Ends property := by
  obtain ⟨addr, hCall⟩ := hAdmitted
  rw [pgwrite, write, hCall]
  obtain ⟨hLow, hHigh⟩ := pagingPgn_bounds addr
  exact h.pgSetval data (hFirst junk _ s hLow hHigh .rfl)

private theorem pgread_reaches (junk data : Byte) {source offset destination : Int}
    (hAdmitted : Admitted s source offset ∨ Admitted s destination 0) :
    (pgread junk data source offset destination s).Ends property := by
  rw [pgread]
  by_cases hSource : Admitted s source offset
  · obtain ⟨addr, hCall⟩ := hSource
    obtain ⟨hLow, hHigh⟩ := pagingPgn_bounds addr
    have hRead : (read junk 0 (cint source) (cint offset) s).Ends property := by
      rw [read, hCall]
      exact h.pgGetval (hFirst junk _ s hLow hHigh .rfl)
    cases hEnd : read junk 0 (cint source) (cint offset) s with
    | undefined => trivial
    | ok data middle =>
        rw [hEnd] at hRead
        exact (h.pgwrite hRead junk data destination 0).ignoreCode
    | fail middle =>
        rw [hEnd] at hRead
        exact (h.pgwrite hRead junk data destination 0).ignoreCode.bind fun _ _ hLast => hLast
  · have hDestination := hAdmitted.resolve_left hSource
    rw [read]
    rcases accessAddr_not_admitted hSource with hCall | hCall
    · rw [hCall]
      trivial
    · rw [hCall]
      exact (pgwrite_reaches h hFirst junk data hDestination).ignoreCode.bind fun _ _ hLast => hLast

private theorem alloc_reaches (fuel : Nat) (junk : Byte) (rgid allocAddr : Int) {size : Int}
    (hSearch : SearchFails s size) (hGap : cint (s.mm.mmap.vmEnd - s.mm.mmap.sbrk) < size)
    (hPages : 0 < pagesToMap s size) : (alloc fuel junk 0 rgid size allocAddr s).Ends property := by
  have hKept := getFreeVmrgArea_samePaging fuel size s
  rw [alloc]
  cases hCall : getFreeVmrgArea fuel 0 size s with
  | undefined => trivial
  | ok rgnode middle =>
      -- a search that fails with some number of rounds never succeeds
      obtain ⟨fuel', t, hFails⟩ := hSearch
      have hSame : getFreeVmrgArea fuel 0 size s = getFreeVmrgArea fuel' 0 size s :=
        getFreeVmrgArea_unique (by simp [hCall]) (by simp [hFails])
      simp [hCall, hFails] at hSame
  | fail middle =>
      rw [hCall] at hKept
      obtain ⟨hSame, hEnd, hSbrk⟩ := hKept
      have hMap : (incVmaLimit junk 0 (pagingPageAlignsz
          (cint (size - cint (middle.mm.mmap.vmEnd - middle.mm.mmap.sbrk)))) middle).Ends
            property := by
        obtain ⟨n, hn⟩ : ∃ n : Nat, (pagesToMap s size).toNat = n + 1 :=
          ⟨(pagesToMap s size).toNat - 1, by omega⟩
        rw [pagesToMap] at hn
        rw [incVmaLimit_zero, hEnd, hSbrk, hn, Btlos.vmapPageRange]
        obtain ⟨hLow, hHigh⟩ := pagingPgn_bounds (cint s.mm.mmap.vmEnd)
        apply (hFirst junk _ _ hLow hHigh (hSame.trans (middle.samePaging_setMmap _))).bind
        exact fun _ after hAfter => h.vmapPageRange hAfter junk n _
      have hGap' : ¬ cint (middle.mm.mmap.vmEnd - middle.mm.mmap.sbrk) ≥ size := by
        rw [hEnd, hSbrk]
        omega
      simp only [allocAtBrk, getVmaByNum_zero, hGap', if_false]
      apply hMap.bind
      intro _ after hAfter
      exact (h.takeBrk hAfter _ rgid size).bind fun _ _ hLast => hLast

/-- A property that the first request for a page establishes and the later ones
keep holds at the end of a call that asks for a page. -/
theorem MemCall.run_reaches (u : Uninit) {call : MemCall} (hReaches : ReachesPaging s call) :
    (call.run u s).Ends property := by
  cases call with
  | pgalloc size regIndex =>
      obtain ⟨hSearch, hGap, hPages⟩ := hReaches
      exact (alloc_reaches h hFirst u.fuel u.junk _ u.addr hSearch hGap hPages).bind fun _ _ h => h
  | pgfreeData regIndex => exact hReaches.elim
  | pgwrite data destination offset => exact pgwrite_reaches h hFirst u.junk data hReaches
  | pgread source offset destination => exact pgread_reaches h hFirst u.junk u.data hReaches

end Reaches

/-- Such a property survives every memory call. -/
theorem FrameInvariant.memCall {property : Caller → Prop} (h : FrameInvariant property) (u : Uninit)
    (call : MemCall) {s : Caller} (hStart : property s) : (call.run u s).Ends property := by
  by_cases hReaches : ReachesPaging s call
  · refine MemCall.run_reaches h ?_ u hReaches
    intro junk pgn t _ _ hSame
    exact h.page junk pgn t (h.samePaging s t hSame hStart)
  · exact (MemCall.run_samePaging u hReaches).mono fun t hSame => h.samePaging s t hSame hStart

end Btlos
