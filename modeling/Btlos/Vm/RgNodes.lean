import Btlos.Library.LinkedList
import Btlos.Library.Transition
import Btlos.Vm.Discipline
import Btlos.Vm.FrameAccounting

/-! The free regions of `mm-vm.c` with their nodes in memory and the links between them. -/
namespace Btlos

open LinkedList Transition

/-- `struct vm_rg_struct`. -/
structure RgNode (Ptr : Type*) extends VmRg where
  rgNext : Option Ptr

/-- `vm_freerg_list`, and the nodes that are allocated. -/
structure RgNodes (Ptr : Type*) where
  vmFreergList : Option Ptr
  node : Ptr → Option (RgNode Ptr)

namespace RgNodes

variable {Ptr : Type*} [DecidableEq Ptr]

def put (addr : Ptr) (node : Option (RgNode Ptr)) (s : RgNodes Ptr) : RgNodes Ptr :=
  { s with node := Function.update s.node addr node }

/-- The traversal of `get_free_vmrg_area` from `rgit` on. -/
def searchLoop (size : Int) : Nat → VmRg → Option Ptr → RgNodes Ptr → Outcome (RgNodes Ptr) VmRg
  | _, newrg, none, s => .ok newrg s
  | 0, _, some _, _ => .undefined
  | fuel + 1, newrg, some rgit, s =>
      match s.node rgit with
      | none => .undefined
      | some node =>
          if ulong (node.rgStart + size) ≤ node.rgEnd then
            let newrg : VmRg := ⟨node.rgStart, ulong (node.rgStart + size)⟩
            if ulong (node.rgStart + size) < node.rgEnd then
              searchLoop size fuel newrg (some rgit)
                (s.put rgit (some { node with rgStart := ulong (node.rgStart + size) }))
            else
              match node.rgNext with
              | some nextrg =>
                  match s.node nextrg with
                  | none => .undefined
                  | some next =>
                      searchLoop size fuel newrg (some rgit)
                        ((s.put rgit (some next)).put nextrg none)
              | none =>
                  searchLoop size fuel newrg (some rgit)
                    (s.put rgit (some ⟨⟨node.rgEnd, node.rgEnd⟩, none⟩))
          else searchLoop size fuel newrg node.rgNext s

/-- `get_free_vmrg_area` on the area of the process. -/
def getFreeVmrgArea (fuel : Nat) (size : Int) (s : RgNodes Ptr) : Outcome (RgNodes Ptr) VmRg :=
  match s.vmFreergList with
  | none => .fail s
  | some rgit =>
      (s.searchLoop size fuel ⟨ulong (-1), ulong (-1)⟩ (some rgit)).bind fun newrg s =>
        if newrg.rgStart = ulong (-1) then .fail s else .ok newrg s

/-- `enlist_vm_freerg_list`. The link of the first node of a list is not written. -/
def enlistVmFreergList (rgElmt : Ptr) (s : RgNodes Ptr) : Outcome (RgNodes Ptr) Unit :=
  match s.node rgElmt with
  | none => .undefined
  | some elmt =>
      if elmt.rgStart ≥ elmt.rgEnd then .fail s
      else
        let s :=
          match s.vmFreergList with
          | none => s
          | some rgNode => s.put rgElmt (some { elmt with rgNext := some rgNode })
        .ok () { s with vmFreergList := some rgElmt }

/-- The end of `__free`: a clone of the symbol's region is enlisted, where `malloc` returns
the address `freeRg`. The link of a symbol's region is NULL from `init_mm` on. -/
def enlistClone (freeRg : Ptr) (currg : VmRg) (s : RgNodes Ptr) : Outcome (RgNodes Ptr) Unit :=
  (s.put freeRg (some ⟨currg, none⟩)).enlistVmFreergList freeRg

/-- The nodes after `init_mm`. -/
def init (firstRg : Ptr) : RgNodes Ptr :=
  ⟨some firstRg, Function.update (fun _ => none) firstRg (some ⟨initVmRg 0 0, none⟩)⟩

/-- A node that is lost has been refused by the list. -/
def Lost (node : RgNode Ptr) : Prop := node.rgStart ≥ node.rgEnd

/-- The links lead through nodes with these regions to NULL, and there are no other nodes
than these and the lost ones. -/
def Holds (s : RgNodes Ptr) (rgs : List VmRg) : Prop :=
  ∃ cells, Owned RgNode.rgNext Lost s.node s.vmFreergList cells ∧
    cells.map (fun cell => cell.2.toVmRg) = rgs

variable {size : Int} {s t : RgNodes Ptr} {start : Option Ptr} {cells : List (Ptr × RgNode Ptr)}
  {rgs rgs' : List VmRg} {newrg : VmRg}

/-- A traversal from `start` that does to the nodes what a search does to the list of their
regions. -/
def Traverses (s : RgNodes Ptr) (start : Option Ptr) (cells : List (Ptr × RgNode Ptr))
    (call : Outcome (RgNodes Ptr) VmRg) : Option (VmRg × List VmRg) → Prop
  | none => call = .undefined
  | some (newrg, rgs) => ∃ t cells', call = .ok newrg t ∧
      Edits RgNode.rgNext s.node t.node start cells cells' ∧
      cells'.map (fun cell => cell.2.toVmRg) = rgs ∧ t.vmFreergList = s.vmFreergList

section Traverses

variable {call : Outcome (RgNodes Ptr) VmRg} {result : Option (VmRg × List VmRg)} {addr : Ptr}
  {node : RgNode Ptr} {cells' : List (Ptr × RgNode Ptr)}

omit [DecidableEq Ptr] in
/-- After a change of the node it stands at. -/
private theorem Traverses.after (h : t.Traverses start cells' call result)
    (edit : Edits RgNode.rgNext s.node t.node start cells cells')
    (hHead : t.vmFreergList = s.vmFreergList) : s.Traverses start cells call result := by
  cases result with
  | none => exact h
  | some found =>
      obtain ⟨u, cells'', hCall, hEdit, hRgs, hSame⟩ := h
      exact ⟨u, cells'', hCall, edit.trans hEdit, hRgs, hSame.trans hHead⟩

omit [DecidableEq Ptr] in
/-- Behind a node that is left alone. -/
private theorem Traverses.skip (h : s.Traverses node.rgNext cells call result)
    (segment : Segment RgNode.rgNext s.node none (some addr) ((addr, node) :: cells)) :
    s.Traverses (some addr) ((addr, node) :: cells) call
      (result.map fun found => (found.1, node.toVmRg :: found.2)) := by
  cases result with
  | none => exact h
  | some found =>
      obtain ⟨u, cells', hCall, hEdit, hRgs, hSame⟩ := h
      exact ⟨u, (addr, node) :: cells', hCall, .skip segment hEdit, by rw [List.map_cons, hRgs],
        hSame⟩

end Traverses

theorem searchLoop_traverses (fuel : Nat) (hList : Segment RgNode.rgNext s.node none start cells) :
    s.Traverses start cells (s.searchLoop size fuel newrg start)
      (firstFitLoop size fuel newrg (cells.map fun cell => cell.2.toVmRg)) := by
  induction fuel generalizing s start cells newrg with
  | zero =>
      cases hList with
      | nil => exact ⟨s, [], rfl, .refl .nil, rfl, rfl⟩
      | cons here rest => rfl
  | succ fuel ih =>
      have hAll := hList
      cases hList with
      | nil => exact ⟨s, [], rfl, .refl .nil, rfl, rfl⟩
      | @cons addr node cells here rest =>
          rw [List.map_cons, searchLoop]
          simp only [here]
          -- a change of the node keeps the traversal there
          have hStay : ∀ (newrg : VmRg) (t : RgNodes Ptr) (cells' : List (Ptr × RgNode Ptr)),
              Edits RgNode.rgNext s.node t.node (some addr) ((addr, node) :: cells) cells' →
              t.vmFreergList = s.vmFreergList →
              s.Traverses (some addr) ((addr, node) :: cells)
                (t.searchLoop size fuel newrg (some addr))
                (firstFitLoop size fuel newrg (cells'.map fun cell => cell.2.toVmRg)) :=
            fun _ t _ hEdit hHead => (ih hEdit.segment).after hEdit hHead
          rcases lt_trichotomy (ulong (node.rgStart + size)) node.rgEnd with hMore | hExact | hPass
          · rw [firstFitLoop_shrink hMore, if_pos hMore.le, if_pos hMore]
            exact hStay _ (s.put addr (some { node with rgStart := ulong (node.rgStart + size) })) _
              (Edits.setHead hAll rfl) rfl
          · rw [if_pos hExact.le, if_neg hExact.not_lt, hExact]
            generalize hNext : node.rgNext = next at rest
            cases rest with
            | nil =>
                rw [List.map_nil, firstFitLoop_dummy hExact]
                exact hStay _ (s.put addr (some ⟨⟨node.rgEnd, node.rgEnd⟩, none⟩)) _
                  (Edits.setHead hAll hNext.symm) rfl
            | @cons nextrg nextNode cells here' rest' =>
                rw [List.map_cons, firstFitLoop_clone hExact]
                simp only [here']
                exact hStay _ ((s.put addr (some nextNode)).put nextrg none) _
                  (Edits.cloneNext hAll) rfl
          · rw [firstFitLoop_pass hPass, if_neg (not_le.mpr hPass)]
            exact (ih rest).skip hAll

end RgNodes

/-! The same calls on the list and on the nodes -/

/-- What happens to a free list: a search for a size and what it has found, or a region
that is put on it or refused. -/
inductive RgEvent where
  | search (size : Int) (found : Option VmRg)
  | release (currg : VmRg) (ok : Bool)
deriving DecidableEq

/-- What a search has found, by its last region. -/
def foundRg (newrg : VmRg) : Option VmRg :=
  if newrg.rgStart = ulong (-1) then none else some newrg

inductive RgStep : List VmRg → RgEvent → List VmRg → Prop where
  | search {size : Int} {rgs rgs' : List VmRg} {newrg : VmRg}
      (hSearch : Search size ⟨ulong (-1), ulong (-1)⟩ rgs newrg rgs') :
      RgStep rgs (.search size (foundRg newrg)) rgs'
  | enlist {rgs : List VmRg} {currg : VmRg} (hLive : currg.rgStart < currg.rgEnd) :
      RgStep rgs (.release currg true) (currg :: rgs)
  | refuse {rgs : List VmRg} {currg : VmRg} (hOrder : currg.rgEnd ≤ currg.rgStart) :
      RgStep rgs (.release currg false) rgs

namespace RgNodes

variable {Ptr : Type*} [DecidableEq Ptr]

inductive Step : RgNodes Ptr → RgEvent → RgNodes Ptr → Prop where
  | found {s t : RgNodes Ptr} {fuel : Nat} {size : Int} {newrg : VmRg}
      (hCall : s.getFreeVmrgArea fuel size = .ok newrg t) : Step s (.search size (some newrg)) t
  | missed {s t : RgNodes Ptr} {fuel : Nat} {size : Int}
      (hCall : s.getFreeVmrgArea fuel size = .fail t) : Step s (.search size none) t
  | release {s t : RgNodes Ptr} {freeRg : Ptr} {currg : VmRg} {ok : Bool}
      (hFresh : s.node freeRg = none)
      (hCall : (s.enlistClone freeRg currg).code? = some (ok, t)) : Step s (.release currg ok) t

section Step

variable {s t : RgNodes Ptr} {rgs rgs' : List VmRg} {event : RgEvent}

theorem getFreeVmrgArea_holds (fuel : Nat) (size : Int) (h : s.Holds rgs) :
    match firstFitLoop size fuel ⟨ulong (-1), ulong (-1)⟩ rgs with
    | none => s.getFreeVmrgArea fuel size = .undefined
    | some (newrg, rgs') => ∃ t, t.Holds rgs' ∧ s.getFreeVmrgArea fuel size =
        if newrg.rgStart = ulong (-1) then .fail t else .ok newrg t := by
  obtain ⟨cells, hOwned, rfl⟩ := h
  have hTraverses : s.Traverses s.vmFreergList cells
      (s.searchLoop size fuel ⟨ulong (-1), ulong (-1)⟩ s.vmFreergList) _ :=
    searchLoop_traverses fuel hOwned.segment
  cases hHead : s.vmFreergList with
  | none =>
      have hNone : cells = [] := hOwned.segment.start_eq_none_iff.mp hHead
      subst hNone
      have hLoop : firstFitLoop size fuel ⟨ulong (-1), ulong (-1)⟩ [] =
          some (⟨ulong (-1), ulong (-1)⟩, []) := by
        cases fuel <;> rfl
      rw [List.map_nil, hLoop]
      refine ⟨s, ⟨[], hOwned, rfl⟩, ?_⟩
      rw [getFreeVmrgArea, hHead]
      rfl
  | some rgit =>
      rw [getFreeVmrgArea, hHead]
      rw [hHead] at hTraverses
      cases hLoop : firstFitLoop size fuel ⟨ulong (-1), ulong (-1)⟩
          (cells.map fun cell => cell.2.toVmRg) with
      | none =>
          rw [hLoop] at hTraverses
          simp only [show
            s.searchLoop size fuel ⟨ulong (-1), ulong (-1)⟩ (some rgit) = .undefined from
            hTraverses, Outcome.bind_undefined]
      | some result =>
          rw [hLoop] at hTraverses
          obtain ⟨t, cells', hCall, hEdit, hRgs, hSame⟩ := hTraverses
          refine ⟨t, ⟨cells', ?_, hRgs⟩, by simp only [hCall, Outcome.bind_ok]⟩
          rw [hSame, hHead]
          rw [hHead] at hOwned
          exact hOwned.edit hEdit

theorem enlistClone_holds {freeRg : Ptr} {currg : VmRg} (h : s.Holds rgs)
    (hFresh : s.node freeRg = none) :
    ∃ t, (s.enlistClone freeRg currg).code? = some (decide (currg.rgStart < currg.rgEnd), t) ∧
      t.Holds (if currg.rgStart < currg.rgEnd then currg :: rgs else rgs) := by
  obtain ⟨cells, hOwned, rfl⟩ := h
  have hNode : (s.put freeRg (some ⟨currg, none⟩)).node freeRg = some ⟨currg, none⟩ :=
    Function.update_self ..
  rw [enlistClone, enlistVmFreergList, hNode]
  by_cases hLive : currg.rgStart < currg.rgEnd
  · have hOrder : ¬ currg.rgStart ≥ currg.rgEnd := not_le.mpr hLive
    simp only [if_neg hOrder, decide_eq_true hLive, if_pos hLive]
    refine ⟨_, rfl, (freeRg, ⟨currg, s.vmFreergList⟩) :: cells, ?_, rfl⟩
    have hPushed : Owned RgNode.rgNext Lost
        (Function.update s.node freeRg (some ⟨currg, s.vmFreergList⟩)) (some freeRg)
        ((freeRg, ⟨currg, s.vmFreergList⟩) :: cells) := hOwned.pushFront hFresh rfl
    cases hHead : s.vmFreergList with
    | none =>
        rw [hHead] at hPushed
        have hSame : (s.put freeRg (some ⟨currg, none⟩)).vmFreergList = none := hHead
        simp only [hSame]
        exact hPushed
    | some rgNode =>
        rw [hHead] at hPushed
        simp only [put, hHead, Function.update_idem]
        exact hPushed
  · simp only [if_pos (not_lt.mp hLive), decide_eq_false hLive, if_neg hLive]
    exact ⟨_, rfl, cells, hOwned.lose hFresh (not_lt.mp hLive), rfl⟩

/-- A search has one result, whatever the number of rounds. -/
private theorem search_eq {size : Int} {fuel : Nat} {newrg newrg' newrg'' : VmRg}
    {rgs'' : List VmRg} (h : Search size newrg rgs newrg' rgs')
    (hLoop : firstFitLoop size fuel newrg rgs = some (newrg'', rgs'')) :
    newrg'' = newrg' ∧ rgs'' = rgs' := by
  obtain ⟨rounds, hRounds⟩ := h.loop
  have hLeft := firstFitLoop_add hLoop rounds
  have hRight := firstFitLoop_add hRounds fuel
  rw [Nat.add_comm, hRight] at hLeft
  obtain ⟨rfl, rfl⟩ := Prod.mk.inj (Option.some.inj hLeft)
  exact ⟨rfl, rfl⟩

/-- Every call on nodes ends with the nodes of the list that the call on the list leaves. -/
theorem Step.holds (nodes : Step s event t) (list : RgStep rgs event rgs') (h : s.Holds rgs) :
    t.Holds rgs' := by
  have hLoop : ∀ {fuel : Nat} {size : Int} {newrg : VmRg},
      Search size ⟨ulong (-1), ulong (-1)⟩ rgs newrg rgs' →
      (s.getFreeVmrgArea fuel size).state? = some t → t.Holds rgs' := by
    intro fuel size newrg hSearch hState
    have hHolds := getFreeVmrgArea_holds fuel size h
    cases hResult : firstFitLoop size fuel ⟨ulong (-1), ulong (-1)⟩ rgs with
    | none =>
        rw [hResult] at hHolds
        simp [hHolds] at hState
    | some result =>
        obtain ⟨rfl, rfl⟩ := search_eq hSearch hResult
        rw [hResult] at hHolds
        obtain ⟨u, hEnd, hCall⟩ := hHolds
        rw [hCall] at hState
        split_ifs at hState
        · obtain rfl := Option.some.inj hState
          exact hEnd
        · obtain rfl := Option.some.inj hState
          exact hEnd
  cases list with
  | search hSearch =>
      generalize hFound : foundRg _ = found at nodes
      cases nodes with
      | found hCall => exact hLoop hSearch (congrArg Outcome.state? hCall)
      | missed hCall => exact hLoop hSearch (congrArg Outcome.state? hCall)
  | enlist hLive =>
      cases nodes with
      | release hFresh hCall =>
          obtain ⟨u, hCode, hHolds⟩ := enlistClone_holds h hFresh
          obtain ⟨-, rfl⟩ := Prod.mk.inj (Option.some.inj (hCode.symm.trans hCall))
          rwa [if_pos hLive] at hHolds
  | refuse hOrder =>
      cases nodes with
      | release hFresh hCall =>
          obtain ⟨u, hCode, hHolds⟩ := enlistClone_holds h hFresh
          obtain ⟨-, rfl⟩ := Prod.mk.inj (Option.some.inj (hCode.symm.trans hCall))
          rwa [if_neg (not_lt.mpr hOrder)] at hHolds

/-- And no call gets stuck at a node that has been freed. -/
theorem Step.exists_of_list [Infinite Ptr] (list : RgStep rgs event rgs') (h : s.Holds rgs) :
    ∃ t, Step s event t := by
  cases list with
  | @search size _ _ newrg hSearch =>
      obtain ⟨fuel, hLoop⟩ := hSearch.loop
      have hHolds := getFreeVmrgArea_holds fuel size h
      rw [hLoop] at hHolds
      obtain ⟨t, -, hCall⟩ := hHolds
      rw [foundRg]
      split_ifs at hCall ⊢
      · exact ⟨t, .missed hCall⟩
      · exact ⟨t, .found hCall⟩
  | @enlist _ currg hLive =>
      obtain ⟨cells, hOwned, -⟩ := id h
      obtain ⟨freeRg, hFresh⟩ := hOwned.exists_fresh
      obtain ⟨t, hCode, -⟩ := enlistClone_holds h hFresh
      rw [decide_eq_true hLive] at hCode
      exact ⟨t, .release hFresh hCode⟩
  | @refuse _ currg hOrder =>
      obtain ⟨cells, hOwned, -⟩ := id h
      obtain ⟨freeRg, hFresh⟩ := hOwned.exists_fresh
      obtain ⟨t, hCode, -⟩ := enlistClone_holds h hFresh
      rw [decide_eq_false (not_lt.mpr hOrder)] at hCode
      exact ⟨t, .release hFresh hCode⟩

end Step

theorem init_holds (firstRg : Ptr) : (init firstRg).Holds [⟨0, 0⟩] := by
  have hEmpty : Owned RgNode.rgNext Lost (fun _ => none : Ptr → Option (RgNode Ptr)) none [] :=
    ⟨.nil, fun _ _ hNode => (by cases hNode), by simp⟩
  exact ⟨[(firstRg, ⟨⟨0, 0⟩, none⟩)], hEmpty.pushFront rfl rfl, rfl⟩

/-- Whole runs. -/
theorem runs_holds {firstRg : Ptr} {nodes : RgNodes Ptr} {events : List RgEvent} {rgs : List VmRg}
    (run : Runs Step (init firstRg) events nodes) (list : Runs RgStep [⟨0, 0⟩] events rgs) :
    nodes.Holds rgs := by
  induction run generalizing rgs with
  | nil =>
      obtain rfl := list.eq_of_nil
      exact init_holds firstRg
  | snoc prior last ih =>
      obtain ⟨middle, list, lastList⟩ := list.of_concat
      exact last.holds lastList (ih list)

theorem exists_run [Infinite Ptr] (firstRg : Ptr) {events : List RgEvent} {rgs : List VmRg}
    (list : Runs RgStep [⟨0, 0⟩] events rgs) :
    ∃ nodes, Runs Step (init firstRg) events nodes := by
  induction list with
  | nil => exact ⟨_, Runs.nil⟩
  | snoc prior last ih =>
      obtain ⟨middle, run⟩ := ih
      obtain ⟨nodes, step⟩ := Step.exists_of_list last (runs_holds run prior)
      exact ⟨nodes, Runs.snoc run step⟩

end RgNodes

/-! The calls of the processes -/

/-- What a call does to the free list of its process. -/
def MemCall.rgEvents (u : Uninit) : MemCall → Caller → List RgEvent
  | pgalloc size _, s =>
      match getFreeVmrgArea u.fuel 0 (cint size) s with
      | .ok newrg _ => [.search (cint size) (some newrg)]
      | .fail _ => [.search (cint size) none]
      | .undefined => []
  | pgfreeData regIndex, s =>
      let currg := s.mm.symrgtbl (cint regIndex)
      if 0 ≤ cint regIndex ∧ cint regIndex < pagingMaxSymtblSz ∧ currg.rgStart ≠ currg.rgEnd then
        [.release currg (decide (currg.rgStart < currg.rgEnd))]
      else []
  | pgread _ _ _, _ => []
  | pgwrite _ _ _, _ => []

/-- From the list of one state to that of another. -/
def Caller.RgRun (s : Caller) (events : List RgEvent) (t : Caller) : Prop :=
  Runs RgStep s.mm.mmap.vmFreergList events t.mm.mmap.vmFreergList

theorem Caller.SameVm.rgRun {s t : Caller} (h : s.SameVm t) : s.RgRun [] t := by
  rw [Caller.RgRun, h.1]
  exact Runs.nil

theorem pgalloc_rgRun (u : Uninit) (size regIndex : Int) (s : Caller) :
    ((MemCall.pgalloc size regIndex).run u s).Ends
      (s.RgRun ((MemCall.pgalloc size regIndex).rgEvents u s)) := by
  have hAlloc : (alloc u.fuel u.junk 0 (cint regIndex) (cint size) u.addr s).Ends
      (s.RgRun ((MemCall.pgalloc size regIndex).rgEvents u s)) := by
    have hSearch := getFreeVmrgArea_ends u.fuel (cint size) s
    rw [alloc, MemCall.rgEvents]
    generalize getFreeVmrgArea u.fuel 0 (cint size) s = call at hSearch ⊢
    cases hSearch with
    | undefined => trivial
    | found newrg rgs hSearch hStart =>
        have hFound : RgStep s.mm.mmap.vmFreergList (.search (cint size) (some newrg)) rgs := by
          have hStep := RgStep.search hSearch
          rwa [foundRg, if_neg hStart] at hStep
        have hSet : ((s.setVmFreergList rgs).setSymrg (cint regIndex) newrg).Ends
            (s.RgRun [.search (cint size) (some newrg)]) := setSymrg_rule (Runs.one hFound)
        exact hSet.bind fun _ _ hEnd => hEnd
    | missed newrg rgs hSearch hStart =>
        have hMissed : RgStep s.mm.mmap.vmFreergList (.search (cint size) none) rgs := by
          have hStep := RgStep.search hSearch
          rwa [foundRg, if_pos hStart] at hStep
        have hBrk := allocAtBrk_ends u.junk (cint regIndex) (cint size) u.addr
          (s.setVmFreergList rgs)
        have hKept : ∀ t, ((s.setVmFreergList rgs).setVmEnd
            (brkRaised (s.setVmFreergList rgs) (cint size))).SameVm t →
            s.RgRun [.search (cint size) none] t := by
          intro t hSame
          rw [Caller.RgRun, hSame.1]
          exact Runs.one hMissed
        change (allocAtBrk u.junk 0 (cint regIndex) (cint size) u.addr
          (s.setVmFreergList rgs)).Ends _
        generalize allocAtBrk u.junk 0 (cint regIndex) (cint size) u.addr
          (s.setVmFreergList rgs) = call at hBrk ⊢
        cases hBrk with
        | undefined => trivial
        | gap => exact Runs.one hMissed
        | grown t _ _ hSame => exact hKept t hSame
        | refused t _ hSame => exact hKept t hSame
  exact hAlloc.bind fun _ _ hEnd => hEnd

theorem pgfreeData_rgRun (u : Uninit) (regIndex : Int) (s : Caller) :
    ((MemCall.pgfreeData regIndex).run u s).Ends
      (s.RgRun ((MemCall.pgfreeData regIndex).rgEvents u s)) := by
  have hSame : s.RgRun [] s := Caller.SameVm.rfl.rgRun
  rw [MemCall.run, pgfreeData, MemCall.rgEvents]
  generalize cint regIndex = rgid
  simp only [free, getSymrgByid, getVmaByNum_zero]
  by_cases hIn : 0 ≤ rgid ∧ rgid < pagingMaxSymtblSz
  · have hNotOut : ¬ (rgid < 0 ∨ rgid > pagingMaxSymtblSz) := by omega
    have hNotLast : rgid ≠ pagingMaxSymtblSz := by omega
    rw [if_neg hNotOut, if_neg hNotOut, if_neg hNotLast]
    by_cases hEmpty : (s.mm.symrgtbl rgid).rgStart = (s.mm.symrgtbl rgid).rgEnd
    · rw [if_pos hEmpty, if_neg fun h => h.2.2 hEmpty]
      exact hSame
    · rw [if_neg hEmpty, if_pos ⟨hIn.1, hIn.2, hEmpty⟩, Outcome.bind_ok, Caller.setSymrg,
        if_pos hIn,
        Outcome.bind_ok, enlistVmFreergList]
      by_cases hLive : (s.mm.symrgtbl rgid).rgStart < (s.mm.symrgtbl rgid).rgEnd
      · rw [if_neg (not_le.mpr hLive), decide_eq_true hLive]
        exact Runs.one (.enlist hLive)
      · rw [if_pos (not_lt.mp hLive), decide_eq_false hLive]
        exact Runs.one (.refuse (not_lt.mp hLive))
  · have hNone : ¬ (0 ≤ rgid ∧ rgid < pagingMaxSymtblSz ∧
        (s.mm.symrgtbl rgid).rgStart ≠ (s.mm.symrgtbl rgid).rgEnd) := by omega
    rw [if_neg hNone]
    by_cases hOut : rgid < 0 ∨ rgid > pagingMaxSymtblSz
    · rw [if_pos hOut]
      exact hSame
    · have hLast : rgid = pagingMaxSymtblSz := by omega
      rw [if_neg hOut, if_neg hOut, if_pos hLast]
      trivial

theorem memCall_rgRun (u : Uninit) (call : MemCall) (s : Caller) :
    (call.run u s).Ends (s.RgRun (call.rgEvents u s)) := by
  cases call with
  | pgalloc size regIndex => exact pgalloc_rgRun u size regIndex s
  | pgfreeData regIndex => exact pgfreeData_rgRun u regIndex s
  | pgread source offset destination =>
      exact (pgread_sameVm u.junk u.data source offset destination s).mono fun _ hSame =>
        hSame.rgRun
  | pgwrite data destination offset =>
      exact (write_sameVm u.junk _ _ data s).mono fun _ hSame => hSame.rgRun

namespace Processes

variable {Proc : Type*} [DecidableEq Proc] {memramsz memswpsz : Int} {s t : Processes Proc}

/-- What one process has done to its free list. -/
def rgEventsOf (proc : Proc) (labels : List (Proc × ProcCall × List RgEvent)) : List RgEvent :=
  labels.flatMap fun label => if label.1 = proc then label.2.2 else []

/-- A step of any process, seen from the free list of one. -/
theorem rgRun_step {label : Proc × ProcCall × List RgEvent}
    (step : ShownStep MemCall.rgEvents s label t) (proc : Proc) :
    (s.caller proc).RgRun (if label.1 = proc then label.2.2 else []) (t.caller proc) := by
  obtain ⟨caller, call, events⟩ := label
  obtain ⟨-, hCall⟩ := step
  cases call with
  | finish =>
      obtain ⟨rfl, rfl⟩ := hCall
      rw [ite_self]
      exact Runs.nil
  | mem call =>
      obtain ⟨u, s', hState, hMade, rfl⟩ := hCall
      have hRun := Outcome.ends_iff.mp (memCall_rgRun u call (s.caller caller)) s' hState
      by_cases hSame : caller = proc
      · subst hSame
        have hOwn : ({ s with toSystem := s.put caller s' } : Processes Proc).caller caller = s' :=
          s.toSystem.caller_put caller s'
        rw [hOwn, if_pos rfl]
        rwa [← hMade] at hRun
      · have hOther : (s.put caller s').mm proc = s.mm proc := by
          rw [System.put_mm, if_neg (Ne.symm hSame)]
        have hList : (({ s with toSystem := s.put caller s' } : Processes Proc).caller proc).mm =
            (s.caller proc).mm := hOther
        rw [if_neg hSame, Caller.RgRun, hList]
        exact Runs.nil

theorem rgRun_run {labels : List (Proc × ProcCall × List RgEvent)}
    (run : Runs (ShownStep MemCall.rgEvents) (initial memramsz memswpsz) labels s) (proc : Proc) :
    Runs RgStep [⟨0, 0⟩] (rgEventsOf proc labels) (s.mm proc).mmap.vmFreergList := by
  induction run with
  | nil => exact Runs.nil
  | snoc prior last ih =>
      rw [rgEventsOf, List.flatMap_append, List.flatMap_singleton]
      exact ih.trans (rgRun_step last proc)

/-- In every run, whichever processes make the calls and in whatever order, the calls of
each process can be made on the nodes of its free list, and however `malloc` places these,
the links lead through the regions of the list and to NULL. No call reads a node that has
been freed, and besides those of the list there are only nodes that it has refused. -/
theorem rgNodes_run {Ptr : Type*} [DecidableEq Ptr] [Infinite Ptr] (firstRg : Ptr)
    {labels : List (Proc × ProcCall × List RgEvent)}
    (run : Runs (ShownStep MemCall.rgEvents) (initial memramsz memswpsz) labels s) (proc : Proc) :
    (∃ nodes, Runs RgNodes.Step (RgNodes.init firstRg) (rgEventsOf proc labels) nodes) ∧
      ∀ nodes, Runs RgNodes.Step (RgNodes.init firstRg) (rgEventsOf proc labels) nodes →
        nodes.Holds (s.mm proc).mmap.vmFreergList :=
  have hList := rgRun_run run proc
  ⟨RgNodes.exists_run firstRg hList, fun _ hNodes => RgNodes.runs_holds hNodes hList⟩

/-- A region that is released and then found again, and used up. -/
theorem rgNodes_run_again : ∃ (labels : List (Unit × ProcCall × List RgEvent)) (s : Processes Unit),
    rgEventsOf () labels = [.search 100 none, .release ⟨0, 100⟩ true, .search 100 (some ⟨0, 100⟩)] ∧
    (∃ nodes, Runs RgNodes.Step (RgNodes.init 0) (rgEventsOf () labels) nodes) ∧
      ∀ nodes : RgNodes Nat, Runs RgNodes.Step (RgNodes.init 0) (rgEventsOf () labels) nodes →
        nodes.Holds (s.mm ()).mmap.vmFreergList := by
  let labels : List (Unit × ProcCall × List RgEvent) :=
    [((), .mem (.pgalloc 100 0), [.search 100 none]),
      ((), .mem (.pgfreeData 0), [.release ⟨0, 100⟩ true]),
      ((), .mem (.pgalloc 100 1), [.search 100 (some ⟨0, 100⟩)])]
  have hEval : (exec (shownStep MemCall.rgEvents ⟨3, 0, 0, 0⟩) (initial 2048 4096) labels).isSome =
      true := by
    decide +kernel
  obtain ⟨s, hExec⟩ := Option.isSome_iff_exists.mp hEval
  exact ⟨labels, s, rfl, rgNodes_run 0 (Runs.of_exec hExec fun _ _ _ => shownStep_step) ()⟩

end Processes

end Btlos
