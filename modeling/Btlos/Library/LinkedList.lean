import Mathlib.Data.List.Nodup
import Mathlib.Data.Set.Finite.Basic
import Mathlib.Logic.Function.Basic

/-! Singly linked lists in a memory of nodes. A pointer is an address or NULL. -/
namespace LinkedList

variable {Addr Node : Type*}

/-- The links lead from one pointer through these nodes, at their addresses, to
another pointer. -/
inductive Segment (next : Node → Option Addr) (memory : Addr → Option Node) (stop : Option Addr) :
    Option Addr → List (Addr × Node) → Prop where
  | nil : Segment next memory stop stop []
  | cons {addr : Addr} {node : Node} {cells : List (Addr × Node)} (here : memory addr = some node)
      (rest : Segment next memory stop (next node) cells) :
      Segment next memory stop (some addr) ((addr, node) :: cells)

variable {next : Node → Option Addr} {memory memory' : Addr → Option Node}
  {start middle stop : Option Addr} {cells more : List (Addr × Node)}

theorem Segment.append (first : Segment next memory middle start cells)
    (second : Segment next memory stop middle more) :
    Segment next memory stop start (cells ++ more) := by
  induction first with
  | nil => exact second
  | cons here _ ih => exact .cons here ih

theorem Segment.of_append (segment : Segment next memory stop start (cells ++ more)) :
    ∃ middle, Segment next memory middle start cells ∧ Segment next memory stop middle more := by
  induction cells generalizing start with
  | nil => exact ⟨start, .nil, segment⟩
  | cons cell cells ih =>
      cases segment with
      | cons here rest =>
          obtain ⟨middle, first, second⟩ := ih rest
          exact ⟨middle, .cons here first, second⟩

theorem Segment.here {cell : Addr × Node} (segment : Segment next memory stop start cells)
    (hCell : cell ∈ cells) : memory cell.1 = some cell.2 := by
  induction segment with
  | nil => exact absurd hCell List.not_mem_nil
  | cons here _ ih =>
      rcases List.mem_cons.mp hCell with rfl | hLater
      · exact here
      · exact ih hLater

/-- A pointer to NULL leads to no node, and any other one to some. -/
theorem Segment.start_eq_none_iff (segment : Segment next memory none start cells) :
    start = none ↔ cells = [] := by
  cases segment with
  | nil => exact iff_of_true rfl rfl
  | cons => exact iff_of_false (Option.some_ne_none _) (List.cons_ne_nil _ _)

/-- Only the nodes of the list matter. -/
theorem Segment.frame (segment : Segment next memory stop start cells)
    (hSame : ∀ addr ∈ cells.map Prod.fst, memory' addr = memory addr) :
    Segment next memory' stop start cells := by
  induction segment with
  | nil => exact .nil
  | @cons addr node cells here rest ih =>
      obtain ⟨hHead, hRest⟩ := List.forall_mem_cons.mp hSame
      exact .cons (hHead.trans here) (ih hRest)

/-- From a pointer there is one list that ends in NULL. -/
theorem Segment.unique (segment : Segment next memory none start cells)
    (other : Segment next memory none start more) : cells = more := by
  induction segment generalizing more with
  | nil =>
      cases other with
      | nil => rfl
  | cons here _ ih =>
      cases other with
      | cons here' rest' =>
          obtain rfl := Option.some.inj (here.symm.trans here')
          rw [ih rest']

/-- A list that ends in NULL visits no address twice. -/
theorem Segment.nodup (segment : Segment next memory none start cells) :
    (cells.map Prod.fst).Nodup := by
  induction segment with
  | nil => exact List.nodup_nil
  | @cons addr node cells here rest ih =>
      refine List.nodup_cons.mpr ⟨fun hAgain => ?_, ih⟩
      obtain ⟨⟨_, node'⟩, hCell, rfl⟩ := List.mem_map.mp hAgain
      obtain ⟨before, after, rfl⟩ := List.append_of_mem hCell
      -- from the second visit on the list would be as long as from the first one
      obtain ⟨middle, -, again⟩ := rest.of_append
      cases again with
      | cons here' rest' =>
          have hSame := (Segment.cons here rest).unique (.cons here' rest')
          have hLength := congrArg List.length hSame
          simp at hLength
          omega

section Update

variable [DecidableEq Addr] {addr : Addr} {node : Node}

/-- A new node in front. -/
theorem Segment.pushFront (segment : Segment next memory none start cells)
    (hNew : memory addr = none) (node : Node) (hNext : next node = start) :
    Segment next (Function.update memory addr (some node)) none (some addr)
      ((addr, node) :: cells) := by
  apply Segment.cons (Function.update_self ..)
  rw [hNext]
  apply segment.frame
  intro other hOther
  obtain ⟨cell, hCell, rfl⟩ := List.mem_map.mp hOther
  apply Function.update_of_ne
  rintro rfl
  rw [segment.here hCell] at hNew
  cases hNew

variable (setNext : Node → Option Addr → Node)

/-- A node of the list gets another link: the nodes before it now lead there. -/
theorem Segment.relink (hSet : ∀ node ptr, next (setNext node ptr) = ptr)
    (segment : Segment next memory none start (cells ++ (addr, node) :: more))
    (ptr : Option Addr) :
    Segment next (Function.update memory addr (some (setNext node ptr))) ptr start
      (cells ++ [(addr, setNext node ptr)]) := by
  have hNodup := segment.nodup
  rw [List.map_append, List.map_cons] at hNodup
  obtain ⟨middle, first, second⟩ := segment.of_append
  cases second with
  | cons here rest =>
      refine (first.frame ?_).append (.cons (Function.update_self ..) ?_)
      · intro other hOther
        apply Function.update_of_ne
        rintro rfl
        exact (List.nodup_append.mp hNodup).2.2 _ hOther _ List.mem_cons_self rfl
      · rw [hSet]
        exact .nil

/-- The last node is freed, and the one before it gets NULL for a link. -/
theorem Segment.dropLast (hSet : ∀ node ptr, next (setNext node ptr) = ptr) {last : Addr}
    {lastNode : Node}
    (segment : Segment next memory none start (cells ++ [(addr, node), (last, lastNode)])) :
    Segment next (Function.update (Function.update memory last none) addr
      (some (setNext node none)))
      none start (cells ++ [(addr, setNext node none)]) := by
  have hNodup := segment.nodup
  simp only [List.map_append, List.map_cons, List.map_nil, List.nodup_append, List.nodup_cons,
    List.mem_cons, List.not_mem_nil, or_false] at hNodup
  obtain ⟨-, ⟨hNe, -⟩, hApart⟩ := hNodup
  have hLinked := segment.relink setNext hSet none
  rw [Function.update_comm (Ne.symm hNe)]
  apply hLinked.frame
  intro other hOther
  apply Function.update_of_ne
  rintro rfl
  simp only [List.map_append, List.map_cons, List.map_nil, List.mem_append, List.mem_singleton]
    at hOther
  rcases hOther with hBefore | hSame
  · exact hApart _ hBefore _ (Or.inr rfl) rfl
  · exact hNe hSame.symm

/-- A node that is not the first one is taken out and put in front. -/
theorem Segment.moveToFront (hSet : ∀ node ptr, next (setNext node ptr) = ptr) {prev : Addr}
    {prevNode : Node}
    (segment : Segment next memory none start
      (cells ++ (prev, prevNode) :: (addr, node) :: more)) :
    Segment next (Function.update
        (Function.update memory prev (some (setNext prevNode (next node))))
        addr (some (setNext node start))) none (some addr)
      ((addr, setNext node start) :: (cells ++ (prev, setNext prevNode (next node)) :: more)) := by
  have hNodup := segment.nodup
  have hFront := segment.relink setNext hSet (next node)
  obtain ⟨middle, first, second⟩ := segment.of_append
  cases second with
  | cons herePrev rest =>
      generalize hNext : next prevNode = found at rest
      cases rest with
      | cons here rest =>
          simp only [List.map_append, List.map_cons, List.nodup_append, List.nodup_cons,
            List.mem_cons] at hNodup
          obtain ⟨-, ⟨hPrev, hAddr, -⟩, hApart⟩ := hNodup
          apply Segment.cons (Function.update_self ..)
          rw [hSet]
          have hRest : Segment next
              (Function.update memory prev (some (setNext prevNode (next node)))) none
              (next node) more := by
            apply rest.frame
            intro other hOther
            apply Function.update_of_ne
            rintro rfl
            exact hPrev (Or.inr hOther)
          have hAll := hFront.append hRest
          rw [List.append_assoc, List.singleton_append] at hAll
          apply hAll.frame
          intro other hOther
          apply Function.update_of_ne
          rintro rfl
          simp only [List.map_append, List.map_cons, List.mem_append, List.mem_cons] at hOther
          rcases hOther with hBefore | hSame | hAfter
          · exact hApart _ hBefore _ (Or.inr (Or.inl rfl)) rfl
          · exact hPrev (Or.inl hSame.symm)
          · exact hAddr hAfter

end Update

/-! Changes within a list -/

/-- The list from a pointer is changed within its own nodes, of which some may be freed. -/
structure Edits (next : Node → Option Addr) (memory memory' : Addr → Option Node)
    (start : Option Addr) (cells cells' : List (Addr × Node)) : Prop where
  segment : Segment next memory' none start cells'
  sub : ∀ addr ∈ cells'.map Prod.fst, addr ∈ cells.map Prod.fst
  frame : ∀ addr, addr ∉ cells.map Prod.fst → memory' addr = memory addr
  freed : ∀ addr ∈ cells.map Prod.fst, addr ∉ cells'.map Prod.fst → memory' addr = none

section Edits

variable {memory'' : Addr → Option Node} {cells' cells'' : List (Addr × Node)} {addr : Addr}
  {node : Node}

theorem Edits.refl (segment : Segment next memory none start cells) :
    Edits next memory memory start cells cells :=
  ⟨segment, fun _ h => h, fun _ _ => rfl, fun _ hIn hOut => absurd hIn hOut⟩

theorem Edits.trans (first : Edits next memory memory' start cells cells')
    (second : Edits next memory' memory'' start cells' cells'') :
    Edits next memory memory'' start cells cells'' where
  segment := second.segment
  sub addr hAddr := first.sub addr (second.sub addr hAddr)
  frame addr hOut := by
    rw [second.frame addr fun hIn => hOut (first.sub addr hIn), first.frame addr hOut]
  freed addr hIn hOut := by
    by_cases hMiddle : addr ∈ cells'.map Prod.fst
    · exact second.freed addr hMiddle hOut
    · rw [second.frame addr hMiddle, first.freed addr hIn hMiddle]

/-- A node that is left alone. -/
theorem Edits.skip (segment : Segment next memory none (some addr) ((addr, node) :: cells))
    (rest : Edits next memory memory' (next node) cells cells') :
    Edits next memory memory' (some addr) ((addr, node) :: cells) ((addr, node) :: cells') := by
  have hNew : addr ∉ cells.map Prod.fst := (List.nodup_cons.mp segment.nodup).1
  have hHere : memory' addr = some node :=
    (rest.frame addr hNew).trans (segment.here List.mem_cons_self)
  refine ⟨.cons hHere rest.segment, ?_, ?_, ?_⟩
  · intro other hOther
    rcases List.mem_cons.mp hOther with rfl | hRest
    · exact List.mem_cons_self
    · exact List.mem_cons_of_mem _ (rest.sub other hRest)
  · intro other hOther
    exact rest.frame other fun hIn => hOther (List.mem_cons_of_mem _ hIn)
  · intro other hOther hGone
    rcases List.mem_cons.mp hOther with rfl | hRest
    · exact absurd List.mem_cons_self hGone
    · exact rest.freed other hRest fun hIn => hGone (List.mem_cons_of_mem _ hIn)

variable [DecidableEq Addr]

/-- The first node gets other contents and keeps its link. -/
theorem Edits.setHead {node' : Node}
    (segment : Segment next memory none (some addr) ((addr, node) :: cells))
    (hNext : next node' = next node) :
    Edits next memory (Function.update memory addr (some node')) (some addr)
      ((addr, node) :: cells) ((addr, node') :: cells) := by
  have hNew : addr ∉ cells.map Prod.fst := (List.nodup_cons.mp segment.nodup).1
  cases segment with
  | cons here rest =>
      refine ⟨.cons (Function.update_self ..) ?_, fun _ h => h, ?_,
        fun _ hIn hOut => absurd hIn hOut⟩
      · rw [hNext]
        apply rest.frame
        intro other hOther
        apply Function.update_of_ne
        rintro rfl
        exact hNew hOther
      · intro other hOther
        apply Function.update_of_ne
        rintro rfl
        exact hOther List.mem_cons_self

/-- The first node becomes a copy of the second one, which is freed. -/
theorem Edits.cloneNext {nextAddr : Addr} {nextNode : Node}
    (segment : Segment next memory none (some addr)
      ((addr, node) :: (nextAddr, nextNode) :: cells)) :
    Edits next memory
      (Function.update (Function.update memory addr (some nextNode)) nextAddr none) (some addr)
      ((addr, node) :: (nextAddr, nextNode) :: cells) ((addr, nextNode) :: cells) := by
  have hNodup := segment.nodup
  simp only [List.map_cons, List.nodup_cons, List.mem_cons, not_or] at hNodup
  obtain ⟨⟨hNe, hNew⟩, hNew', -⟩ := hNodup
  cases segment with
  | cons here rest =>
      generalize hLink : next node = link at rest
      cases rest with
      | cons here' rest' =>
          refine ⟨.cons ?_ ?_, ?_, ?_, ?_⟩
          · rw [Function.update_of_ne hNe, Function.update_self]
          · apply rest'.frame
            intro other hOther
            rw [Function.update_of_ne, Function.update_of_ne]
            · rintro rfl
              exact hNew hOther
            · rintro rfl
              exact hNew' hOther
          · intro other hOther
            rcases List.mem_cons.mp hOther with rfl | hRest
            · exact List.mem_cons_self
            · exact List.mem_cons_of_mem _ (List.mem_cons_of_mem _ hRest)
          · intro other hOther
            simp only [List.map_cons, List.mem_cons, not_or] at hOther
            rw [Function.update_of_ne hOther.2.1, Function.update_of_ne hOther.1]
          · intro other hOther hGone
            simp only [List.map_cons, List.mem_cons, not_or] at hOther hGone
            rcases hOther with rfl | rfl | hRest
            · exact absurd rfl hGone.1
            · exact Function.update_self ..
            · exact absurd hRest hGone.2

end Edits

/-! A list and all the nodes there are -/

/-- The list to NULL, and every other node of the memory, which is finite, is a lost one. -/
structure Owned (next : Node → Option Addr) (lost : Node → Prop) (memory : Addr → Option Node)
    (start : Option Addr) (cells : List (Addr × Node)) : Prop where
  segment : Segment next memory none start cells
  rest : ∀ addr node, memory addr = some node → addr ∉ cells.map Prod.fst → lost node
  finite : {addr | memory addr ≠ none}.Finite

section Owned

variable {lost : Node → Prop} {cells' : List (Addr × Node)} {addr : Addr} {node : Node}

theorem Owned.edit (h : Owned next lost memory start cells)
    (edit : Edits next memory memory' start cells cells') :
    Owned next lost memory' start cells' := by
  refine ⟨edit.segment, fun addr node hNode hOut => ?_, h.finite.subset fun addr hSome => ?_⟩
  · by_cases hIn : addr ∈ cells.map Prod.fst
    · rw [edit.freed addr hIn hOut] at hNode
      cases hNode
    · rw [edit.frame addr hIn] at hNode
      exact h.rest addr node hNode hIn
  · by_cases hIn : addr ∈ cells.map Prod.fst
    · obtain ⟨cell, hCell, rfl⟩ := List.mem_map.mp hIn
      exact Option.ne_none_iff_exists'.mpr ⟨cell.2, h.segment.here hCell⟩
    · rwa [Set.mem_ofPred_eq, edit.frame addr hIn] at hSome

/-- There is an address for one more node. -/
theorem Owned.exists_fresh [Infinite Addr] (h : Owned next lost memory start cells) :
    ∃ addr, memory addr = none := by
  obtain ⟨addr, hFresh⟩ := h.finite.exists_notMem
  exact ⟨addr, not_not.mp hFresh⟩

variable [DecidableEq Addr]

private theorem finite_update (h : {addr | memory addr ≠ none}.Finite) (addr : Addr)
    (content : Option Node) :
    {other | Function.update memory addr content other ≠ none}.Finite := by
  apply (h.insert addr).subset
  intro other hOther
  by_cases hSame : other = addr
  · exact Or.inl hSame
  · rw [Set.mem_ofPred_eq, Function.update_of_ne hSame] at hOther
    exact Or.inr hOther

theorem Owned.pushFront (h : Owned next lost memory start cells) (hNew : memory addr = none)
    (hNext : next node = start) :
    Owned next lost (Function.update memory addr (some node)) (some addr)
      ((addr, node) :: cells) := by
  refine ⟨h.segment.pushFront hNew node hNext, fun other node' hNode hOut => ?_,
    finite_update h.finite addr _⟩
  rw [List.map_cons, List.mem_cons, not_or] at hOut
  rw [Function.update_of_ne hOut.1] at hNode
  exact h.rest other node' hNode hOut.2

/-- A node that no list will lead to. -/
theorem Owned.lose (h : Owned next lost memory start cells) (hNew : memory addr = none)
    (hLost : lost node) :
    Owned next lost (Function.update memory addr (some node)) start cells := by
  refine ⟨h.segment.frame fun other hOther => ?_, fun other node' hNode hOut => ?_,
    finite_update h.finite addr _⟩
  · obtain ⟨cell, hCell, rfl⟩ := List.mem_map.mp hOther
    apply Function.update_of_ne
    rintro rfl
    rw [h.segment.here hCell] at hNew
    cases hNew
  · rw [Function.update_apply] at hNode
    split_ifs at hNode
    · obtain rfl := Option.some.inj hNode
      exact hLost
    · exact h.rest other node' hNode hOut

/-- The first node is freed. -/
theorem Owned.popFront (h : Owned next lost memory (some addr) ((addr, node) :: cells)) :
    Owned next lost (Function.update memory addr none) (next node) cells := by
  have hNew : addr ∉ cells.map Prod.fst := (List.nodup_cons.mp h.segment.nodup).1
  have hRest := h.rest
  cases h.segment with
  | cons here rest =>
      refine ⟨rest.frame fun other hOther => ?_, fun other node' hNode hOut => ?_,
        finite_update h.finite addr _⟩
      · apply Function.update_of_ne
        rintro rfl
        exact hNew hOther
      · rw [Function.update_apply] at hNode
        split_ifs at hNode with hSame
        apply hRest other node' hNode
        rw [List.map_cons, List.mem_cons, not_or]
        exact ⟨hSame, hOut⟩

end Owned

end LinkedList
