import Btlos.Library.LinkedList
import Btlos.Paging.FramePool

/-! The free frames of `mm-memphy.c` with their nodes in memory. The owner of a frame is
never set. -/
namespace Btlos

open LinkedList Transition

/-- `struct framephy_struct`. -/
structure FrameNode (Ptr : Type*) where
  fpn : Int
  fpNext : Option Ptr

/-- `free_fp_list`, and the nodes that are allocated. -/
structure FrameNodes (Ptr : Type*) where
  freeFpList : Option Ptr
  node : Ptr → Option (FrameNode Ptr)

namespace FrameNodes

variable {Ptr : Type*} [DecidableEq Ptr]

/-- Before `MEMPHY_format`. The head is what the memory of the device held. -/
def fresh (head : Option Ptr) : FrameNodes Ptr := ⟨head, fun _ => none⟩

def put (addr : Ptr) (node : Option (FrameNode Ptr)) (s : FrameNodes Ptr) : FrameNodes Ptr :=
  { s with node := Function.update s.node addr node }

@[simp] theorem put_node (addr : Ptr) (node : Option (FrameNode Ptr)) (s : FrameNodes Ptr) :
    (s.put addr node).node = Function.update s.node addr node := rfl

/-- The loop of `MEMPHY_format` with its last node so far, where `malloc` returns the
address `malloc iter` in round `iter`. -/
def formatLoop (malloc : Nat → Ptr) : Nat → Nat → Ptr → FrameNodes Ptr →
    Outcome (FrameNodes Ptr) Unit
  | 0, _, _, s => .ok () s
  | more + 1, iter, fst, s =>
      let newfst := malloc iter
      let s := s.put newfst (some ⟨iter, none⟩)
      match s.node fst with
      | none => .undefined
      | some node =>
          formatLoop malloc more (iter + 1) newfst
            (s.put fst (some { node with fpNext := some newfst }))

/-- `MEMPHY_format`. The link of the first node is what `malloc` left there. -/
def format (malloc : Nat → Ptr) (link : Option Ptr) (maxsz : Int) (s : FrameNodes Ptr) :
    Outcome (FrameNodes Ptr) Unit :=
  let numfp := maxsz.tdiv pagingPagesz
  if numfp ≤ 0 then .fail s
  else
    formatLoop malloc (numfp - 1).toNat 1 (malloc 0)
      { s.put (malloc 0) (some ⟨0, link⟩) with freeFpList := some (malloc 0) }

/-- `MEMPHY_get_freefp`. -/
def getFreefp (s : FrameNodes Ptr) : Outcome (FrameNodes Ptr) Int :=
  match s.freeFpList with
  | none => .fail s
  | some fp =>
      match s.node fp with
      | none => .undefined
      | some node => .ok node.fpn { s.put fp none with freeFpList := node.fpNext }

/-- `MEMPHY_put_freefp`, where `malloc` returns the address `newnode`. -/
def putFreefp (newnode : Ptr) (fpn : Int) (s : FrameNodes Ptr) : FrameNodes Ptr :=
  { s.put newnode (some ⟨fpn, s.freeFpList⟩) with freeFpList := some newnode }

/-- The links lead through nodes with these frames to NULL, and there are no other nodes. -/
def Holds (s : FrameNodes Ptr) (frames : List Int) : Prop :=
  ∃ cells, Owned FrameNode.fpNext (fun _ => False) s.node s.freeFpList cells ∧
    cells.map (fun cell => cell.2.fpn) = frames

section Format

variable {s t : FrameNodes Ptr} {malloc : Nat → Ptr} {cells : List (Ptr × FrameNode Ptr)}
  {iter : Nat} {last : FrameNode Ptr}

/-- The list in the loop: nodes linked as far as the last one, and no others. -/
structure Linked (malloc : Nat → Ptr) (iter : Nat) (s : FrameNodes Ptr)
    (cells : List (Ptr × FrameNode Ptr)) (last : FrameNode Ptr) : Prop where
  segment : Segment FrameNode.fpNext s.node (some (malloc iter)) s.freeFpList cells
  here : s.node (malloc iter) = some last
  all : ∀ addr, s.node addr ≠ none → addr = malloc iter ∨ addr ∈ cells.map Prod.fst
  earlier : ∀ cell ∈ cells, ∃ round < iter, cell.1 = malloc round
  numbers : (cells ++ [(malloc iter, last)]).map (fun cell => cell.2.fpn) = formatNodes 0 (iter + 1)

theorem formatNodes_concat (iter : Int) (n : Nat) :
    formatNodes iter (n + 1) = formatNodes iter n ++ [iter + n] := by
  induction n generalizing iter with
  | zero => simp [formatNodes]
  | succ n ih =>
      rw [formatNodes, ih, formatNodes, List.cons_append]
      congr 3
      push_cast
      omega

/-- One round. -/
private theorem Linked.round (h : s.Linked malloc iter cells last)
    (hMalloc : Function.Injective malloc) :
    ((s.put (malloc (iter + 1)) (some ⟨(iter + 1 : Nat), none⟩)).put (malloc iter)
      (some { last with fpNext := some (malloc (iter + 1)) })).Linked malloc (iter + 1)
        (cells ++ [(malloc iter, { last with fpNext := some (malloc (iter + 1)) })])
        ⟨(iter + 1 : Nat), none⟩ := by
  have hNe : malloc (iter + 1) ≠ malloc iter := fun hSame => by
    have := hMalloc hSame
    omega
  refine ⟨?_, ?_, ?_, ?_, ?_⟩
  · have hLast : Segment FrameNode.fpNext
        ((s.put (malloc (iter + 1)) (some ⟨(iter + 1 : Nat), none⟩)).put (malloc iter)
          (some { last with fpNext := some (malloc (iter + 1)) })).node
        (some (malloc (iter + 1))) (some (malloc iter))
        [(malloc iter, { last with fpNext := some (malloc (iter + 1)) })] :=
      .cons (Function.update_self ..) .nil
    refine (h.segment.frame fun addr hAddr => ?_).append hLast
    obtain ⟨cell, hCell, rfl⟩ := List.mem_map.mp hAddr
    obtain ⟨round, hRound, hEq⟩ := h.earlier cell hCell
    have hFirst : cell.1 ≠ malloc iter := fun hSame => by
      have := hMalloc (hEq.symm.trans hSame)
      omega
    have hSecond : cell.1 ≠ malloc (iter + 1) := fun hSame => by
      have := hMalloc (hEq.symm.trans hSame)
      omega
    exact (Function.update_of_ne hFirst _ _).trans (Function.update_of_ne hSecond _ _)
  · exact (Function.update_of_ne hNe _ _).trans (Function.update_self ..)
  · intro addr hSome
    rw [List.map_append, List.map_singleton, List.mem_append, List.mem_singleton]
    by_cases hSecond : addr = malloc (iter + 1)
    · exact Or.inl hSecond
    · by_cases hFirst : addr = malloc iter
      · exact Or.inr (Or.inr hFirst)
      · rw [put_node, put_node, Function.update_of_ne hFirst,
          Function.update_of_ne hSecond] at hSome
        exact Or.inr (Or.inl ((h.all addr hSome).resolve_left hFirst))
  · intro cell hCell
    rcases List.mem_append.mp hCell with hOld | hNew
    · obtain ⟨round, hRound, hEq⟩ := h.earlier cell hOld
      exact ⟨round, Nat.lt_succ_of_lt hRound, hEq⟩
    · rw [List.mem_singleton] at hNew
      exact ⟨iter, Nat.lt_succ_self _, by rw [hNew]⟩
  · have hNumbers := h.numbers
    rw [formatNodes_concat, ← hNumbers]
    simp

/-- The rest of the loop. -/
private theorem Linked.loop (h : s.Linked malloc iter cells last)
    (hMalloc : Function.Injective malloc) (more : Nat) :
    ∃ t cells' last', formatLoop malloc more (iter + 1) (malloc iter) s = .ok () t ∧
      t.Linked malloc (iter + more) cells' last' ∧
        (last.fpNext = none ∨ more ≠ 0 → last'.fpNext = none) := by
  induction more generalizing s cells iter last with
  | zero => exact ⟨s, cells, last, rfl, h, fun hNull => hNull.resolve_right (by simp)⟩
  | succ more ih =>
      obtain ⟨t, cells', last', hLoop, hLinked, hNull⟩ := ih (h.round hMalloc)
      have hNe : malloc iter ≠ malloc (iter + 1) := fun hSame => by
        have := hMalloc hSame
        omega
      have hHere : (s.put (malloc (iter + 1)) (some ⟨(iter + 1 : Nat), none⟩)).node (malloc iter) =
          some last :=
        (Function.update_of_ne hNe _ _).trans h.here
      refine ⟨t, cells', last', ?_, ?_, fun _ => hNull (Or.inl rfl)⟩
      · rw [formatLoop]
        simp only [hHere]
        exact hLoop
      · rwa [← Nat.add_assoc, Nat.add_right_comm]

/-- The list at the end of the loop, if its last link is NULL. -/
private theorem Linked.holds (h : s.Linked malloc iter cells last) (hNull : last.fpNext = none) :
    s.Holds (formatNodes 0 (iter + 1)) := by
  have hLast : Segment FrameNode.fpNext s.node none (some (malloc iter)) [(malloc iter, last)] := by
    apply Segment.cons h.here
    rw [hNull]
    exact .nil
  refine ⟨cells ++ [(malloc iter, last)], ⟨h.segment.append hLast, ?_, ?_⟩, h.numbers⟩
  · intro addr node hNode hOut
    rw [List.map_append, List.map_singleton, List.mem_append, List.mem_singleton] at hOut
    rcases h.all addr (by simp [hNode]) with hSame | hIn
    · exact hOut (Or.inr hSame)
    · exact hOut (Or.inl hIn)
  · apply ((cells.map Prod.fst).toFinset.finite_toSet.insert (malloc iter)).subset
    intro addr hSome
    rcases h.all addr hSome with hSame | hIn
    · exact Or.inl hSame
    · exact Or.inr (by simpa using hIn)

/-- The list after `MEMPHY_format` numbers the frames, unless there is no node and the head was
not NULL, or a single node with a link that is not NULL. -/
theorem format_holds (hMalloc : Function.Injective malloc) {head link : Option Ptr} {maxsz : Int}
    (hHead : maxsz.tdiv pagingPagesz ≤ 0 → head = none)
    (hLink : maxsz.tdiv pagingPagesz = 1 → link = none)
    (hFormat : (format malloc link maxsz (fresh head)).state? = some t) :
    t.Holds (formatNodes 0 (maxsz.tdiv pagingPagesz).toNat) := by
  simp only [format] at hFormat
  split_ifs at hFormat with hNone
  · obtain rfl := Option.some.inj hFormat
    have hZero : (maxsz.tdiv pagingPagesz).toNat = 0 := Int.toNat_eq_zero.mpr hNone
    rw [hZero, hHead hNone]
    exact ⟨[], ⟨.nil, fun _ _ hNode => (by cases hNode), by simp [fresh]⟩, rfl⟩
  · obtain ⟨more, hMore⟩ : ∃ more : Nat, maxsz.tdiv pagingPagesz = more + 1 :=
      ⟨(maxsz.tdiv pagingPagesz - 1).toNat, by omega⟩
    have hRounds : (maxsz.tdiv pagingPagesz - 1).toNat = more := by omega
    have hFrames : (maxsz.tdiv pagingPagesz).toNat = 0 + more + 1 := by omega
    have hFirst : Linked malloc 0
        { (fresh head).put (malloc 0) (some ⟨0, link⟩) with
          freeFpList := some (malloc 0) } [] ⟨0, link⟩ := by
      refine ⟨.nil, Function.update_self .., fun addr hSome => Or.inl ?_, by simp, rfl⟩
      by_contra hOther
      exact hSome (Function.update_of_ne hOther _ _)
    obtain ⟨u, cells, last, hLoop, hLinked, hNull⟩ := hFirst.loop hMalloc more
    rw [hRounds, hLoop] at hFormat
    obtain rfl := Option.some.inj hFormat
    rw [hFrames]
    apply hLinked.holds
    apply hNull
    by_cases hOne : more = 0
    · exact Or.inl (hLink (by omega))
    · exact Or.inr hOne

end Format

/-! The same calls on the list and on the nodes -/

/-- The calls on the list of a device. No frame that is put back is checked. -/
inductive ListStep : Memphy → PoolCall → Memphy → Prop where
  | get {mp mp' : Memphy} {fpn : Int} (hGet : memphyGetFreefp mp = .ok fpn mp') :
      ListStep mp (.get (some fpn)) mp'
  | getNone {mp mp' : Memphy} (hGet : memphyGetFreefp mp = .fail mp') :
      ListStep mp (.get none) mp'
  | put {mp : Memphy} (fpn : Int) : ListStep mp (.put fpn) (memphyPutFreefp mp fpn)

inductive Step : FrameNodes Ptr → PoolCall → FrameNodes Ptr → Prop where
  | get {s t : FrameNodes Ptr} {fpn : Int} (hCall : s.getFreefp = .ok fpn t) :
      Step s (.get (some fpn)) t
  | getNone {s t : FrameNodes Ptr} (hCall : s.getFreefp = .fail t) : Step s (.get none) t
  | put {s : FrameNodes Ptr} {fpn : Int} (newnode : Ptr) (hNew : s.node newnode = none) :
      Step s (.put fpn) (s.putFreefp newnode fpn)

section Step

variable {s t : FrameNodes Ptr} {frames : List Int} {mp mp' : Memphy} {call : PoolCall}

theorem getFreefp_holds {fpn : Int} (h : s.Holds (fpn :: frames)) :
    ∃ t, s.getFreefp = .ok fpn t ∧ t.Holds frames := by
  obtain ⟨cells, hOwned, hFrames⟩ := h
  cases cells with
  | nil => cases hFrames
  | cons cell cells =>
      obtain ⟨rfl, rfl⟩ := List.cons.inj hFrames
      generalize hHead : s.freeFpList = start at hOwned
      have hSegment := hOwned.segment
      cases hSegment with
      | @cons addr node _ here rest =>
          refine ⟨{ s.put addr none with freeFpList := node.fpNext }, ?_, cells, hOwned.popFront,
            rfl⟩
          rw [getFreefp, hHead]
          simp only [here]

theorem getFreefp_none (h : s.Holds []) : s.getFreefp = .fail s := by
  obtain ⟨cells, hOwned, hFrames⟩ := h
  obtain rfl := List.map_eq_nil_iff.mp hFrames
  rw [getFreefp, hOwned.segment.start_eq_none_iff.mpr rfl]

theorem putFreefp_holds {fpn : Int} {newnode : Ptr} (h : s.Holds frames)
    (hNew : s.node newnode = none) : (s.putFreefp newnode fpn).Holds (fpn :: frames) := by
  obtain ⟨cells, hOwned, rfl⟩ := h
  exact ⟨_, hOwned.pushFront hNew rfl, rfl⟩

/-- A call on the nodes leaves those of the list that the call on the list leaves. -/
theorem Step.holds (nodes : Step s call t) (list : ListStep mp call mp')
    (h : s.Holds mp.freeFpList) : t.Holds mp'.freeFpList := by
  cases list with
  | @get _ fpn hGet =>
      cases hList : mp.freeFpList with
      | nil => simp [memphyGetFreefp, hList] at hGet
      | cons first rest =>
          obtain ⟨rfl, rfl⟩ : first = fpn ∧ { mp with freeFpList := rest } = mp' := by
            simpa [memphyGetFreefp, hList] using hGet
          rw [hList] at h
          obtain ⟨u, hCall, hHolds⟩ := getFreefp_holds h
          cases nodes with
          | get hCall' =>
              obtain ⟨-, rfl⟩ := Outcome.ok.inj (hCall.symm.trans hCall')
              exact hHolds
  | getNone hGet =>
      cases hList : mp.freeFpList with
      | cons first rest => simp [memphyGetFreefp, hList] at hGet
      | nil =>
          obtain rfl : mp = mp' := by simpa [memphyGetFreefp, hList] using hGet
          rw [hList] at h
          cases nodes with
          | getNone hCall =>
              obtain rfl := Outcome.fail.inj ((getFreefp_none h).symm.trans hCall)
              rw [hList]
              exact h
  | put fpn =>
      cases nodes with
      | put newnode hNew => exact putFreefp_holds h hNew

/-- And no call gets stuck. -/
theorem Step.exists_of_list [Infinite Ptr] (list : ListStep mp call mp')
    (h : s.Holds mp.freeFpList) : ∃ t, Step s call t := by
  cases list with
  | @get _ fpn hGet =>
      cases hList : mp.freeFpList with
      | nil => simp [memphyGetFreefp, hList] at hGet
      | cons first rest =>
          obtain ⟨rfl, -⟩ : first = fpn ∧ { mp with freeFpList := rest } = mp' := by
            simpa [memphyGetFreefp, hList] using hGet
          rw [hList] at h
          obtain ⟨t, hCall, -⟩ := getFreefp_holds h
          exact ⟨t, .get hCall⟩
  | getNone hGet =>
      cases hList : mp.freeFpList with
      | cons first rest => simp [memphyGetFreefp, hList] at hGet
      | nil =>
          rw [hList] at h
          exact ⟨s, .getNone (getFreefp_none h)⟩
  | put fpn =>
      obtain ⟨cells, hOwned, -⟩ := h
      obtain ⟨newnode, hNew⟩ := hOwned.exists_fresh
      exact ⟨_, .put newnode hNew⟩

end Step

section Run

variable {s start : FrameNodes Ptr} {mp mp' : Memphy} {calls : List PoolCall}

theorem runs_holds (nodes : Runs Step start calls s) (list : Runs ListStep mp calls mp')
    (h : start.Holds mp.freeFpList) : s.Holds mp'.freeFpList := by
  induction nodes generalizing mp' with
  | nil =>
      obtain rfl := list.eq_of_nil
      exact h
  | snoc prior last ih =>
      obtain ⟨middle, list, lastList⟩ := list.of_concat
      exact last.holds lastList (ih list)

theorem exists_run [Infinite Ptr] (list : Runs ListStep mp calls mp')
    (h : start.Holds mp.freeFpList) : ∃ s, Runs Step start calls s := by
  induction list with
  | nil => exact ⟨start, Runs.nil⟩
  | snoc prior last ih =>
      obtain ⟨middle, run⟩ := ih
      obtain ⟨s, step⟩ := Step.exists_of_list last (runs_holds run prior h)
      exact ⟨s, Runs.snoc run step⟩

/-- The calls on the list can be made on the nodes, and leave the nodes of the list. -/
def Implements (start : FrameNodes Ptr) (mp : Memphy) : Prop :=
  ∀ calls mp', Runs ListStep mp calls mp' →
    (∃ s, Runs Step start calls s) ∧ ∀ s, Runs Step start calls s → s.Holds mp'.freeFpList

/-- The nodes of a new device are those of its list of frames, over all sequences of
`MEMPHY_get_freefp` and `MEMPHY_put_freefp`, exactly if the head of a device without a frame
and the link of the only frame of a device happen to be NULL. -/
theorem frameNodes_iff [Infinite Ptr] {malloc : Nat → Ptr} (hMalloc : Function.Injective malloc)
    {head link : Option Ptr} {maxsz randomflg : Int}
    (hFormat : (format malloc link maxsz (fresh head)).state? = some start) :
    start.Implements (initMemphy .zero maxsz randomflg) ↔
      (maxsz.tdiv pagingPagesz ≤ 0 → head = none) ∧
        (maxsz.tdiv pagingPagesz = 1 → link = none) := by
  have hList : (initMemphy .zero maxsz randomflg).freeFpList =
      formatNodes 0 (maxsz.tdiv pagingPagesz).toNat := initMemphy_freeFpList maxsz randomflg
  constructor
  · intro h
    obtain ⟨cells, hOwned, hFrames⟩ := (h [] _ Runs.nil).2 start Runs.nil
    constructor
    · intro hNone
      simp only [format, if_pos hNone] at hFormat
      obtain rfl := Option.some.inj hFormat
      rw [hList, Int.toNat_of_nonpos hNone] at hFrames
      exact hOwned.segment.start_eq_none_iff.mpr (List.map_eq_nil_iff.mp hFrames)
    · intro hOne
      simp only [format, hOne] at hFormat
      obtain rfl := Option.some.inj hFormat
      simp only [hList, hOne] at hFrames
      obtain ⟨cell, rfl, -⟩ := List.map_eq_singleton_iff.mp hFrames
      have hSegment := hOwned.segment
      cases hSegment with
      | @cons _ node _ here rest =>
          have hNode : ((fresh head).put (malloc 0) (some ⟨0, link⟩)).node (malloc 0) =
              some ⟨0, link⟩ := Function.update_self ..
          obtain rfl := Option.some.inj (hNode.symm.trans here)
          exact rest.start_eq_none_iff.mpr rfl
  · rintro ⟨hHead, hLink⟩ calls mp' list
    have hHolds : start.Holds (initMemphy .zero maxsz randomflg).freeFpList := by
      rw [hList]
      exact format_holds hMalloc hHead hLink hFormat
    exact ⟨exists_run list hHolds, fun s nodes => runs_holds nodes list hHolds⟩

/-- A device of two frames, whatever its memory held before. -/
theorem frameNodes_iff_two : ∃ start : FrameNodes Nat,
    (format id (some 7) 512 (fresh (some 5))).state? = some start ∧
      (start.Implements (initMemphy .zero 512 1) ↔
        ((512 : Int).tdiv pagingPagesz ≤ 0 → (some 5 : Option Nat) = none) ∧
          ((512 : Int).tdiv pagingPagesz = 1 → (some 7 : Option Nat) = none)) :=
  ⟨_, rfl, frameNodes_iff Function.injective_id rfl⟩

end Run

end FrameNodes

end Btlos
