import Btlos.Library.LinkedList
import Btlos.Paging.Lru

/-! `enlist_pgn_node` of `mm.c` with the nodes in memory and the links between them. -/
namespace Btlos

open LinkedList

/-- `struct pgn_t`. -/
structure PgnNode (Ptr : Type*) where
  pgn : Int
  pgNext : Option Ptr

/-- The head pointer of the list, and the nodes that are allocated. -/
structure PgnNodes (Ptr : Type*) where
  plist : Option Ptr
  node : Ptr → Option (PgnNode Ptr)

namespace PgnNodes

variable {Ptr : Type*} [DecidableEq Ptr]

/-- A store to `pg_next` of a node. -/
def setNext (addr : Ptr) (pgNext : Option Ptr) (s : PgnNodes Ptr) : Outcome (PgnNodes Ptr) Unit :=
  match s.node addr with
  | none => .undefined
  | some node => .ok () { s with node := Function.update s.node addr (some { node with pgNext }) }

/-- The node after `prev` is relinked to the front. -/
def moveToFront (prev pnode : Ptr) (pgNext : Option Ptr) (s : PgnNodes Ptr) :
    Outcome (PgnNodes Ptr) Unit :=
  (s.setNext prev pgNext).bind fun _ s =>
    (s.setNext pnode s.plist).bind fun _ s => .ok () { s with plist := some pnode }

/-- The loop of `enlist_pgn_node`, and whether it has returned from within. Undefined
after the given number of rounds. -/
def enlistLoop (pgn : Int) : Nat → Option Ptr → Option Ptr → PgnNodes Ptr →
    Outcome (PgnNodes Ptr) Bool
  | 0, _, _, _ => .undefined
  | _ + 1, _, none, s => .ok false s
  | fuel + 1, prev, some pnode, s =>
      match s.node pnode with
      | none => .undefined
      | some node =>
          if node.pgn = pgn then
            match prev with
            | none => .ok true s
            | some prev => (s.moveToFront prev pnode node.pgNext).bind fun _ s => .ok true s
          else enlistLoop pgn fuel (some pnode) node.pgNext s

/-- `enlist_pgn_node`, where `malloc` returns the address `fresh`. -/
def enlistPgnNode (fuel : Nat) (fresh : Ptr) (pgn : Int) (s : PgnNodes Ptr) :
    Outcome (PgnNodes Ptr) Unit :=
  (s.enlistLoop pgn fuel none s.plist).bind fun found s =>
    if found then .ok () s
    else .ok () ⟨some fresh, Function.update s.node fresh (some ⟨pgn, s.plist⟩)⟩

/-- `free`. -/
def free (addr : Ptr) (s : PgnNodes Ptr) : PgnNodes Ptr :=
  { s with node := Function.update s.node addr none }

/-- The loop of `find_victim_page`: the last node but one, the last one, and its page.
Undefined after the given number of rounds. -/
def victimLoop : Nat → Ptr → PgnNodes Ptr → Outcome (PgnNodes Ptr) (Ptr × Ptr × Int)
  | 0, _, _ => .undefined
  | fuel + 1, pg, s =>
      match (s.node pg).bind PgnNode.pgNext with
      | none => .undefined
      | some next =>
          match s.node next with
          | none => .undefined
          | some node =>
              if node.pgNext = none then .ok (pg, next, node.pgn) s else victimLoop fuel next s

/-- `find_victim_page`. With a single node, `pg = NULL` sets a local variable only. -/
def findVictimPage (fuel : Nat) (s : PgnNodes Ptr) : Outcome (PgnNodes Ptr) Int :=
  match s.plist with
  | none => .fail s
  | some pg =>
      match s.node pg with
      | none => .undefined
      | some node =>
          if node.pgNext = none then .ok node.pgn (s.free pg)
          else (s.victimLoop fuel pg).bind fun (pg, next, retpgn) s =>
            ((s.free next).setNext pg none).bind fun _ s => .ok retpgn s

/-- The links lead through nodes with these page numbers to NULL. -/
def Lists (s : PgnNodes Ptr) (pages : List Int) : Prop :=
  ∃ cells, Segment PgnNode.pgNext s.node none s.plist cells ∧
    cells.map (fun cell => cell.2.pgn) = pages

variable {s : PgnNodes Ptr} {pgn : Int} {before after : List (Ptr × PgnNode Ptr)}
  {pnode : Option Ptr} {pages : List Int}

/-- The stores that relink a node are those of the library's list. -/
private theorem moveToFront_lists {prev addr : Ptr} {prevNode node : PgnNode Ptr}
    (hList : Segment PgnNode.pgNext s.node none s.plist
      (before ++ (prev, prevNode) :: (addr, node) :: after)) :
    ∃ t, s.moveToFront prev addr node.pgNext = .ok () t ∧
      t.Lists (node.pgn :: (before.map (fun cell => cell.2.pgn) ++
        prevNode.pgn :: after.map fun cell => cell.2.pgn)) := by
  have hPrev : s.node prev = some prevNode :=
    hList.here (List.mem_append_right before List.mem_cons_self)
  have hHere : s.node addr = some node :=
    hList.here (List.mem_append_right before (List.mem_cons_of_mem _ List.mem_cons_self))
  have hNe : addr ≠ prev := by
    rintro rfl
    have hNodup := hList.nodup
    simp [List.nodup_append] at hNodup
  have hMoved := hList.moveToFront (fun node pgNext => { node with pgNext }) fun _ _ => rfl
  have hHere' : Function.update s.node prev (some { prevNode with pgNext := node.pgNext }) addr =
      some node := by
    rw [Function.update_of_ne hNe, hHere]
  simp only [moveToFront, setNext, hPrev, Outcome.bind_ok, hHere']
  exact ⟨_, rfl, _, hMoved, by simp⟩

/-- The search from a node on, with the nodes before it passed. -/
private theorem enlistLoop_lists {prev : Option Ptr}
    (hBefore : Segment PgnNode.pgNext s.node pnode s.plist before)
    (hAfter : Segment PgnNode.pgNext s.node none pnode after)
    (hPrev : prev = before.getLast?.map Prod.fst)
    (hPassed : ∀ cell ∈ before, cell.2.pgn ≠ pgn) :
    (pgn ∉ after.map fun cell => cell.2.pgn) ∧
        (∀ more, s.enlistLoop pgn (more + after.length + 1) prev pnode = .ok false s) ∨
      ∃ t, (∀ more, s.enlistLoop pgn (more + after.length + 1) prev pnode = .ok true t) ∧
        t.Lists (pgn :: ((before ++ after).map fun cell => cell.2.pgn).erase pgn) := by
  induction after generalizing prev pnode before with
  | nil =>
      cases hAfter with
      | nil => exact Or.inl ⟨List.not_mem_nil, fun _ => rfl⟩
  | cons cell after ih =>
      have hAll := hBefore.append hAfter
      cases hAfter with
      | @cons addr node _ here rest =>
          by_cases hFound : node.pgn = pgn
          · right
            subst hFound
            have hErase :
              ((before ++ (addr, node) :: after).map fun cell => cell.2.pgn).erase node.pgn =
                before.map (fun cell => cell.2.pgn) ++ after.map fun cell => cell.2.pgn := by
              rw [List.map_append, List.erase_append_right, List.map_cons, List.erase_cons_head]
              intro hMem
              obtain ⟨cell, hCell, hPgn⟩ := List.mem_map.mp hMem
              exact hPassed cell hCell hPgn
            rw [hErase]
            rcases List.eq_nil_or_concat before with rfl | ⟨earlier, ⟨last, lastNode⟩, rfl⟩
            · subst hPrev
              refine ⟨s, fun more => ?_, _, hAll, by simp⟩
              rw [enlistLoop, here]
              exact if_pos rfl
            · rw [List.concat_eq_append, List.append_assoc, List.singleton_append] at hAll
              obtain ⟨t, hMove, hLists⟩ := moveToFront_lists hAll
              refine ⟨t, fun more => ?_, by simpa using hLists⟩
              have hLast : prev = some last := by simpa using hPrev
              rw [hLast, enlistLoop, here]
              simp only [if_true, hMove, Outcome.bind_ok]
          · have hLoop : ∀ more, s.enlistLoop pgn (more + ((addr, node) :: after).length + 1) prev
                (some addr) =
                  s.enlistLoop pgn (more + after.length + 1) (some addr) node.pgNext := by
              intro more
              rw [enlistLoop, here]
              exact if_neg hFound
            have hPassed' : ∀ cell ∈ before ++ [(addr, node)], cell.2.pgn ≠ pgn := by
              intro cell hCell
              rcases List.mem_append.mp hCell with hOld | hNew
              · exact hPassed cell hOld
              · rwa [List.mem_singleton.mp hNew]
            have hLast : some addr = (before ++ [(addr, node)]).getLast?.map Prod.fst := by simp
            have hStep := ih (hBefore.append (.cons here .nil)) rest hLast hPassed'
            rw [List.append_assoc, List.singleton_append] at hStep
            simp only [hLoop]
            rcases hStep with ⟨hNone, hEnd⟩ | hMoved
            · refine Or.inl ⟨?_, hEnd⟩
              rw [List.map_cons, List.mem_cons, not_or]
              exact ⟨Ne.symm hFound, hNone⟩
            · exact Or.inr hMoved

/-- On nodes in memory the call does what it does on the list of their page numbers. -/
theorem enlistPgnNode_lists (h : s.Lists pages) (pgn : Int) (fresh : Ptr)
    (hFresh : s.node fresh = none) :
    ∃ t, (∀ fuel, pages.length < fuel → s.enlistPgnNode fuel fresh pgn = .ok () t) ∧
      t.Lists (pgn :: pages.erase pgn) := by
  obtain ⟨cells, hList, rfl⟩ := h
  have hFuel : ∀ fuel, (cells.map fun cell => cell.2.pgn).length < fuel →
      ∃ more, fuel = more + cells.length + 1 := by
    intro fuel hFuel
    rw [List.length_map] at hFuel
    exact ⟨fuel - cells.length - 1, by omega⟩
  have hNoPrev : none = ([] : List (Ptr × PgnNode Ptr)).getLast?.map Prod.fst := rfl
  rcases enlistLoop_lists .nil hList hNoPrev (fun _ h => absurd h List.not_mem_nil) with
    ⟨hNone, hLoop⟩ | ⟨t, hLoop, hLists⟩
  · have hPush := hList.pushFront hFresh ⟨pgn, s.plist⟩ rfl
    refine ⟨⟨some fresh, Function.update s.node fresh (some ⟨pgn, s.plist⟩)⟩, ?_, _, hPush, ?_⟩
    · intro fuel hMany
      obtain ⟨more, rfl⟩ := hFuel fuel hMany
      rw [enlistPgnNode, hLoop]
      rfl
    · rw [List.map_cons, List.erase_of_not_mem hNone]
  · refine ⟨t, fun fuel hMany => ?_, hLists⟩
    obtain ⟨more, rfl⟩ := hFuel fuel hMany
    rw [enlistPgnNode, hLoop]
    rfl

/-- The call is exact on every list without duplicates, wherever the page stands. -/
theorem movesToFront (h : s.Lists pages) (hNodup : pages.Nodup) (pgn : Int) (fresh : Ptr)
    (hFresh : s.node fresh = none) :
    ∃ t, (∀ fuel, pages.length < fuel → s.enlistPgnNode fuel fresh pgn = .ok () t) ∧
      t.Lists (pgn :: pages.filter fun page => page ≠ pgn) ∧
      (pgn :: pages.filter fun page => page ≠ pgn).Nodup := by
  obtain ⟨t, hCall, hLists⟩ := enlistPgnNode_lists h pgn fresh hFresh
  have hErase : pages.erase pgn = pages.filter fun page => page ≠ pgn := by
    rw [hNodup.erase_eq_filter]
    exact List.filter_congr fun page _ => by simp [bne, beq_eq_decide]
  have hAll := nodup_enlist hNodup pgn
  rw [hErase] at hLists hAll
  exact ⟨t, hCall, hLists, hAll⟩

private def threePages : PgnNodes Nat where
  plist := some 0
  node := fun addr => [⟨5, some 1⟩, ⟨6, some 2⟩, ⟨7, none⟩][addr]?

/-- Three nodes, the last of which is asked for. -/
theorem movesToFront_last : ∃ t, threePages.enlistPgnNode 4 3 7 = .ok () t ∧ t.Lists [7, 5, 6] := by
  have hLists : threePages.Lists [5, 6, 7] := ⟨_, .cons rfl (.cons rfl (.cons rfl .nil)), rfl⟩
  obtain ⟨t, hCall, hMoved, -⟩ := movesToFront hLists (by decide) 7 3 rfl
  exact ⟨t, hCall 4 (by decide), hMoved⟩

/-! `find_victim_page` -/

omit [DecidableEq Ptr] in
/-- The search from a node on that is not the last one. -/
private theorem victimLoop_last {addr : Ptr} {node : PgnNode Ptr} {cells : List (Ptr × PgnNode Ptr)}
    (hHere : s.node addr = some node)
    (hList : Segment PgnNode.pgNext s.node none node.pgNext cells) (hMore : cells ≠ []) :
    ∃ earlier prev prevNode last lastNode,
      (addr, node) :: cells = earlier ++ [(prev, prevNode), (last, lastNode)] ∧
      ∀ more, s.victimLoop (more + cells.length) addr = .ok (prev, last, lastNode.pgn) s := by
  induction cells generalizing addr node with
  | nil => exact absurd rfl hMore
  | cons cell rest ih =>
      generalize hNext : node.pgNext = next at hList
      cases hList with
      | @cons next nextNode _ hereNext hRest =>
          have hFirst : (s.node addr).bind PgnNode.pgNext = some next := by
            rw [hHere, Option.bind_some, hNext]
          have hLoop : ∀ more, s.victimLoop (more + ((next, nextNode) :: rest).length) addr =
              if nextNode.pgNext = none then .ok (addr, next, nextNode.pgn) s
              else s.victimLoop (more + rest.length) next := by
            intro more
            rw [List.length_cons, ← Nat.add_assoc, victimLoop, hFirst]
            simp only [hereNext]
          simp only [hLoop, hRest.start_eq_none_iff]
          by_cases hLast : rest = []
          · subst hLast
            exact ⟨[], addr, node, next, nextNode, rfl, fun _ => if_pos rfl⟩
          · obtain ⟨earlier, prev, prevNode, last, lastNode, hCells, hEnd⟩ :=
              ih hereNext hRest hLast
            refine ⟨(addr, node) :: earlier, prev, prevNode, last, lastNode, ?_, fun more => ?_⟩
            · rw [hCells, List.cons_append]
            · rw [if_neg hLast, hEnd]

/-- A list of two pages or more loses its last one. -/
theorem findVictimPage_lists {victim : Int} (h : s.Lists (pages ++ [victim])) (hMore : pages ≠ []) :
    ∃ t, (∀ fuel, pages.length ≤ fuel → s.findVictimPage fuel = .ok victim t) ∧ t.Lists pages := by
  obtain ⟨cells, hList, hPages⟩ := h
  have hLength : cells.length = pages.length + 1 := by
    simpa using congrArg List.length hPages
  generalize hHead : s.plist = start at hList
  have hAll := hList
  cases hList with
  | nil => simp at hLength
  | @cons addr node rest here hRest =>
      have hSecond : rest ≠ [] := by
        rintro rfl
        exact hMore (List.length_eq_zero_iff.mp (Nat.succ.inj hLength).symm)
      obtain ⟨earlier, prev, prevNode, last, lastNode, hCells, hLoop⟩ :=
        victimLoop_last here hRest hSecond
      rw [hCells] at hAll hPages
      have hDropped := hAll.dropLast (fun node pgNext => { node with pgNext }) fun _ _ => rfl
      have hPrev : (s.free last).node prev = some prevNode := by
        have hNe : prev ≠ last := by
          rintro rfl
          have hNodup := hAll.nodup
          simp [List.nodup_append] at hNodup
        have hStays : s.node prev = some prevNode :=
          hAll.here (List.mem_append_right earlier List.mem_cons_self)
        exact (Function.update_of_ne hNe _ _).trans hStays
      have hSplit : earlier.map (fun cell => cell.2.pgn) ++ [prevNode.pgn] = pages ∧
          [lastNode.pgn] = [victim] := by
        apply List.append_inj'
        · simpa using hPages
        · rfl
      obtain ⟨hPages', hVictim⟩ := hSplit
      obtain rfl := List.singleton_inj.mp hVictim
      refine ⟨⟨some addr, Function.update (Function.update s.node last none) prev
        (some { prevNode with pgNext := none })⟩, fun fuel hFuel => ?_, _, hDropped, ?_⟩
      · obtain ⟨more, rfl⟩ : ∃ more, fuel = more + rest.length :=
          ⟨fuel - rest.length, by rw [List.length_cons] at hLength; omega⟩
        have hNext : node.pgNext ≠ none := mt hRest.start_eq_none_iff.mp hSecond
        rw [findVictimPage, hHead]
        simp only [here, if_neg hNext, hLoop, Outcome.bind_ok, setNext, hPrev]
        rw [free, hHead]
      · simpa using hPages'

/-- The only node of a list is freed, and the head pointer stays on it. -/
theorem findVictimPage_single {victim : Int} (h : s.Lists [victim]) :
    ∃ t addr, (∀ fuel, s.findVictimPage fuel = .ok victim t) ∧
      t.plist = some addr ∧ t.node addr = none := by
  obtain ⟨cells, hList, hPages⟩ := h
  generalize hHead : s.plist = start at hList
  cases hList with
  | nil => simp at hPages
  | @cons addr node rest here hRest =>
      obtain ⟨rfl, hRest'⟩ := List.cons.inj hPages
      have hNext : node.pgNext = none :=
        (hRest.start_eq_none_iff).mpr (List.map_eq_nil_iff.mp hRest')
      refine ⟨s.free addr, addr, fun fuel => ?_, hHead, Function.update_self ..⟩
      rw [findVictimPage, hHead]
      simp only [here, if_pos hNext]

/-! The pager's list -/

/-- The nodes are those of a list of page numbers, or the head pointer is left on a node
that has been freed. -/
def Represents (s : PgnNodes Ptr) : PgnList → Prop
  | .nodes pages => s.Lists pages
  | .freed => ∃ addr, s.plist = some addr ∧ s.node addr = none

/-- `enlist_pgn_node` on the nodes is what it is on the list of their page numbers. -/
theorem Represents.enlist {list list' : PgnList} (h : s.Represents list) (pgn : Int) (fresh : Ptr)
    (hFresh : s.node fresh = none) (hCall : Btlos.enlistPgnNode list pgn = .ok () list') :
    ∃ t rounds, (∀ fuel, rounds ≤ fuel → s.enlistPgnNode fuel fresh pgn = .ok () t) ∧
      t.Represents list' := by
  cases list with
  | freed => cases hCall
  | nodes pages =>
      rw [enlistPgnNode_nodes] at hCall
      obtain ⟨-, rfl⟩ := Outcome.ok.inj hCall
      obtain ⟨t, hEnd, hLists⟩ := enlistPgnNode_lists h pgn fresh hFresh
      exact ⟨t, pages.length + 1, hEnd, hLists⟩

/-- And so is `find_victim_page`. -/
theorem Represents.victim {list list' : PgnList} {victim : Int} (h : s.Represents list)
    (hCall : Btlos.findVictimPage list = .ok victim list') :
    ∃ t rounds, (∀ fuel, rounds ≤ fuel → s.findVictimPage fuel = .ok victim t) ∧
      t.Represents list' := by
  cases list with
  | freed => cases hCall
  | nodes pages =>
      rcases List.eq_nil_or_concat pages with rfl | ⟨pages, last, rfl⟩
      · cases hCall
      · rw [List.concat_eq_append] at h hCall
        rw [findVictimPage_concat] at hCall
        obtain ⟨rfl, rfl⟩ := Outcome.ok.inj hCall
        by_cases hPages : pages = []
        · subst hPages
          obtain ⟨t, addr, hEnd, hHead, hFreed⟩ := findVictimPage_single h
          exact ⟨t, 0, fun fuel _ => hEnd fuel, addr, hHead, hFreed⟩
        · obtain ⟨t, hEnd, hLists⟩ := findVictimPage_lists h hPages
          rw [if_neg hPages]
          exact ⟨t, pages.length, hEnd, hLists⟩

/-- A head pointer to a freed node is what both calls read first. -/
theorem Represents.freed (h : s.Represents .freed) (fuel : Nat) (fresh : Ptr) (pgn : Int) :
    s.enlistPgnNode fuel fresh pgn = .undefined ∧ s.findVictimPage fuel = .undefined := by
  obtain ⟨addr, hHead, hFreed⟩ := h
  constructor
  · rw [enlistPgnNode, hHead]
    cases fuel with
    | zero => rfl
    | succ fuel =>
        rw [enlistLoop, hFreed]
        rfl
  · rw [findVictimPage, hHead]
    simp only [hFreed]

end PgnNodes

end Btlos
