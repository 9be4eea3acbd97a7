import Btlos.Paging.FrameNodes

/-! `MEMPHY_get_freefp` on several CPUs, with a step for each access to the list that they
share. Nothing keeps two CPUs from calling it for the same device at the same time. -/
namespace Btlos

open LinkedList Transition

/-- Where a CPU stands in the call: outside, or with the first node in `fp`, its frame in
`*retfpn`, its link read, and the head of the list set to that. -/
inductive GetFreefp (Ptr : Type*) where
  | idle
  | loaded (fp : Ptr)
  | numbered (fp : Ptr) (retfpn : Int)
  | linked (fp : Ptr) (retfpn : Int) (fpNext : Option Ptr)
  | stored (fp : Ptr) (retfpn : Int)

namespace GetFreefp

variable {Ptr : Type*}

/-- The node that the CPU goes on with. -/
def fp? : GetFreefp Ptr → Option Ptr
  | idle => none
  | loaded fp | numbered fp _ | linked fp _ _ | stored fp _ => some fp

/-- The CPU has loaded the head and not yet set it. -/
def InSection : GetFreefp Ptr → Prop
  | loaded _ | numbered _ _ | linked _ _ _ => True
  | idle | stored _ _ => False

end GetFreefp

/-- The list and the CPUs. -/
structure FrameRace (CpuId Ptr : Type*) where
  nodes : FrameNodes Ptr
  loc : CpuId → GetFreefp Ptr

/-- An access. The first one returns at once if the head is NULL. -/
inductive FrameAccess (CpuId : Type*) where
  | load (cpu : CpuId) (found : Bool)
  | readFpn (cpu : CpuId)
  | readNext (cpu : CpuId)
  | store (cpu : CpuId) (retfpn : Int)
  | free (cpu : CpuId) (retfpn : Int)

variable {CpuId Ptr : Type*} [DecidableEq CpuId] [DecidableEq Ptr]

namespace FrameRace

def setLoc (s : FrameRace CpuId Ptr) (c : CpuId) (loc : GetFreefp Ptr) : FrameRace CpuId Ptr :=
  { s with loc := Function.update s.loc c loc }

/-- No step reads or frees a node that is not allocated. -/
inductive Step : FrameRace CpuId Ptr → FrameAccess CpuId → FrameRace CpuId Ptr → Prop where
  | load {s : FrameRace CpuId Ptr} (c : CpuId) {fp : Ptr} (hLoc : s.loc c = .idle)
      (hHead : s.nodes.freeFpList = some fp) : Step s (.load c true) (s.setLoc c (.loaded fp))
  | loadNull {s : FrameRace CpuId Ptr} (c : CpuId) (hLoc : s.loc c = .idle)
      (hHead : s.nodes.freeFpList = none) : Step s (.load c false) s
  | readFpn {s : FrameRace CpuId Ptr} (c : CpuId) {fp : Ptr} {node : FrameNode Ptr}
      (hLoc : s.loc c = .loaded fp) (hNode : s.nodes.node fp = some node) :
      Step s (.readFpn c) (s.setLoc c (.numbered fp node.fpn))
  | readNext {s : FrameRace CpuId Ptr} (c : CpuId) {fp : Ptr} {retfpn : Int} {node : FrameNode Ptr}
      (hLoc : s.loc c = .numbered fp retfpn) (hNode : s.nodes.node fp = some node) :
      Step s (.readNext c) (s.setLoc c (.linked fp retfpn node.fpNext))
  | store {s : FrameRace CpuId Ptr} (c : CpuId) {fp : Ptr} {retfpn : Int} {fpNext : Option Ptr}
      (hLoc : s.loc c = .linked fp retfpn fpNext) :
      Step s (.store c retfpn)
        { s.setLoc c (.stored fp retfpn) with nodes := { s.nodes with freeFpList := fpNext } }
  | free {s : FrameRace CpuId Ptr} (c : CpuId) {fp : Ptr} {retfpn : Int} {node : FrameNode Ptr}
      (hLoc : s.loc c = .stored fp retfpn) (hNode : s.nodes.node fp = some node) :
      Step s (.free c retfpn) { s.setLoc c .idle with nodes := s.nodes.put fp none }

/-- Every CPU goes on with a node that is allocated, and no two with the same one. -/
structure Sound (s : FrameRace CpuId Ptr) : Prop where
  allocated : ∀ c fp, (s.loc c).fp? = some fp → s.nodes.node fp ≠ none
  apart : ∀ c d fp, (s.loc c).fp? = some fp → (s.loc d).fp? = some fp → c = d

/-- The head is loaded while no other CPU is between its load and its store. -/
def Alone (s : FrameRace CpuId Ptr) : FrameAccess CpuId → Prop
  | .load c true => ∀ d, d ≠ c → ¬ (s.loc d).InSection
  | _ => True

/-- The list, and where the CPUs are with respect to it. -/
structure Ordered (s : FrameRace CpuId Ptr) (cells : List (Ptr × FrameNode Ptr)) : Prop where
  segment : Segment FrameNode.fpNext s.nodes.node none s.nodes.freeFpList cells
  first : ∀ c fp, (s.loc c).InSection → (s.loc c).fp? = some fp → s.nodes.freeFpList = some fp
  number : ∀ c fp retfpn, s.loc c = .numbered fp retfpn →
    ∃ node, s.nodes.node fp = some node ∧ node.fpn = retfpn
  link : ∀ c fp retfpn fpNext, s.loc c = .linked fp retfpn fpNext →
    s.nodes.node fp = some ⟨retfpn, fpNext⟩
  removed : ∀ c fp retfpn, s.loc c = .stored fp retfpn → fp ∉ cells.map Prod.fst
  rest : ∀ addr, s.nodes.node addr ≠ none →
    addr ∈ cells.map Prod.fst ∨ ∃ c retfpn, s.loc c = .stored addr retfpn
  finite : {addr | s.nodes.node addr ≠ none}.Finite

section Step

variable {s t : FrameRace CpuId Ptr} {cells : List (Ptr × FrameNode Ptr)}
  {access : FrameAccess CpuId}

omit [DecidableEq Ptr] in
@[simp] theorem setLoc_loc (s : FrameRace CpuId Ptr) (c : CpuId) (loc : GetFreefp Ptr) :
    (s.setLoc c loc).loc = Function.update s.loc c loc := rfl

omit [DecidableEq Ptr] in
@[simp] theorem setLoc_nodes (s : FrameRace CpuId Ptr) (c : CpuId) (loc : GetFreefp Ptr) :
    (s.setLoc c loc).nodes = s.nodes := rfl

omit [DecidableEq CpuId] [DecidableEq Ptr] in
/-- What a CPU in the section needs to know of the others. -/
theorem Sound.only_in_section (h : s.Sound) (hOrdered : s.Ordered cells) {c d : CpuId}
    (hFirst : (s.loc c).InSection) (hSecond : (s.loc d).InSection) : c = d := by
  have hSome : ∀ loc : GetFreefp Ptr, loc.InSection → ∃ fp, loc.fp? = some fp := by
    intro loc hIn
    cases loc with
    | idle | stored => cases hIn
    | _ => exact ⟨_, rfl⟩
  obtain ⟨fp, hFp⟩ := hSome _ hFirst
  obtain ⟨fp', hFp'⟩ := hSome _ hSecond
  have hSame := (hOrdered.first c fp hFirst hFp).symm.trans (hOrdered.first d fp' hSecond hFp')
  obtain rfl := Option.some.inj hSame
  exact h.apart c d fp hFp hFp'

omit [DecidableEq Ptr] in
/-- A step of one CPU within the section. -/
private theorem Ordered.setLoc (h : s.Ordered cells) {c : CpuId} {loc : GetFreefp Ptr} {fp : Ptr}
    (hFp : loc.fp? = some fp) (hHead : s.nodes.freeFpList = some fp)
    (hNumber : ∀ fp retfpn, loc = .numbered fp retfpn →
      ∃ node, s.nodes.node fp = some node ∧ node.fpn = retfpn)
    (hLink : ∀ fp retfpn fpNext, loc = .linked fp retfpn fpNext →
      s.nodes.node fp = some ⟨retfpn, fpNext⟩)
    (hIn : loc.InSection) (hFrom : ∀ fp retfpn, s.loc c ≠ .stored fp retfpn) :
    (s.setLoc c loc).Ordered cells := by
  refine ⟨h.segment, fun d fp' hSection hFp' => ?_, fun d fp' retfpn hLoc => ?_,
    fun d fp' retfpn fpNext hLoc => ?_, fun d fp' retfpn hLoc => ?_, fun addr hSome => ?_,
    h.finite⟩
  rotate_right
  · rcases h.rest addr hSome with hList | ⟨d, retfpn, hLoc⟩
    · exact Or.inl hList
    · refine Or.inr ⟨d, retfpn, ?_⟩
      rw [setLoc_loc, Function.update_of_ne, hLoc]
      rintro rfl
      exact hFrom addr retfpn hLoc
  all_goals rw [setLoc_loc, Function.update_apply] at *
  · split_ifs at hSection hFp'
    · rw [setLoc_nodes, hHead, ← hFp, hFp']
    · exact h.first d fp' hSection hFp'
  · split_ifs at hLoc
    · exact hNumber fp' retfpn hLoc
    · exact h.number d fp' retfpn hLoc
  · split_ifs at hLoc
    · exact hLink fp' retfpn fpNext hLoc
    · exact h.link d fp' retfpn fpNext hLoc
  · split_ifs at hLoc
    · rw [hLoc] at hIn
      cases hIn
    · exact h.removed d fp' retfpn hLoc

omit [DecidableEq Ptr] in
/-- The head is set to the link of the first node, by the only CPU in the section. -/
private theorem Ordered.store (h : s.Ordered cells) (hSound : s.Sound) {c : CpuId} {fp : Ptr}
    {retfpn : Int} {fpNext : Option Ptr} (hLoc : s.loc c = .linked fp retfpn fpNext) :
    ∃ rest, cells = (fp, ⟨retfpn, fpNext⟩) :: rest ∧
      Ordered { s.setLoc c (.stored fp retfpn) with nodes := { s.nodes with freeFpList := fpNext } }
        rest := by
  have hIn : (s.loc c).InSection := by
    rw [hLoc]
    trivial
  have hHead := h.first c fp hIn (by rw [hLoc]; rfl)
  have hNode := h.link c fp retfpn fpNext hLoc
  have hOther : ∀ d, d ≠ c → ¬ (s.loc d).InSection :=
    fun d hNe hSection => hNe (hSound.only_in_section h hSection hIn)
  have hList := h.segment
  rw [hHead] at hList
  have hNew := hList.nodup
  cases hList with
  | @cons _ node rest here hRest =>
      obtain rfl := Option.some.inj (hNode.symm.trans here)
      refine ⟨rest, rfl, hRest, fun d fp' hSection hFp' => ?_, fun d fp' retfpn' hLoc' => ?_,
        fun d fp' retfpn' next hLoc' => ?_, fun d fp' retfpn' hLoc' => ?_, fun addr hSome => ?_,
        h.finite⟩
      rotate_right
      · rcases h.rest addr hSome with hList | ⟨d, retfpn', hLoc'⟩
        · rcases List.mem_cons.mp hList with rfl | hList
          · exact Or.inr ⟨c, retfpn, Function.update_self ..⟩
          · exact Or.inl hList
        · refine Or.inr ⟨d, retfpn', ?_⟩
          simp only [setLoc_loc]
          rw [Function.update_of_ne, hLoc']
          rintro rfl
          rw [hLoc] at hLoc'
          cases hLoc'
      all_goals simp only [setLoc_loc, Function.update_apply] at *
      · split_ifs at hSection with hSame
        · cases hSection
        · exact absurd hSection (hOther d hSame)
      · split_ifs at hLoc' with hSame
        exact h.number d fp' retfpn' hLoc'
      · split_ifs at hLoc' with hSame
        exact h.link d fp' retfpn' next hLoc'
      · split_ifs at hLoc' with hSame
        · obtain ⟨rfl, -⟩ := GetFreefp.stored.inj hLoc'
          exact (List.nodup_cons.mp hNew).1
        · exact fun hIn => h.removed d fp' retfpn' hLoc' (List.mem_cons_of_mem _ hIn)

/-- A node that is no longer in the list is freed. -/
private theorem Ordered.free (h : s.Ordered cells) (hSound : s.Sound) {c : CpuId} {fp : Ptr}
    {retfpn : Int} (hLoc : s.loc c = .stored fp retfpn) :
    Ordered { s.setLoc c .idle with nodes := s.nodes.put fp none } cells := by
  have hOut := h.removed c fp retfpn hLoc
  have hOther : ∀ d fp', d ≠ c → (s.loc d).fp? = some fp' → fp' ≠ fp := by
    rintro d fp' hNe hHolds rfl
    exact hNe (hSound.apart d c fp' hHolds (by rw [hLoc]; rfl))
  refine ⟨h.segment.frame fun addr hAddr => ?_, fun d fp' hSection hFp' => ?_,
    fun d fp' retfpn' hLoc' => ?_, fun d fp' retfpn' next hLoc' => ?_,
    fun d fp' retfpn' hLoc' => ?_, fun addr hSome => ?_, h.finite.subset fun addr hSome => ?_⟩
  · apply Function.update_of_ne
    rintro rfl
    exact hOut hAddr
  rotate_right 2
  · rw [FrameNodes.put_node, Function.update_apply] at hSome
    split_ifs at hSome with hSame
    · exact absurd rfl hSome
    · rcases h.rest addr hSome with hList | ⟨d, retfpn', hLoc'⟩
      · exact Or.inl hList
      · refine Or.inr ⟨d, retfpn', ?_⟩
        simp only [setLoc_loc]
        rw [Function.update_of_ne, hLoc']
        rintro rfl
        rw [hLoc] at hLoc'
        exact hSame (GetFreefp.stored.inj hLoc').1.symm
  · rw [Set.mem_ofPred_eq, FrameNodes.put_node, Function.update_apply] at hSome
    split_ifs at hSome with hSame
    · exact absurd rfl hSome
    · exact hSome
  all_goals simp only [setLoc_loc, Function.update_apply, FrameNodes.put_node] at *
  · split_ifs at hSection hFp' with hSame
    · cases hSection
    · exact h.first d fp' hSection hFp'
  · split_ifs at hLoc' with hSame
    rw [if_neg (hOther d fp' hSame (by rw [hLoc']; rfl))]
    exact h.number d fp' retfpn' hLoc'
  · split_ifs at hLoc' with hSame
    rw [if_neg (hOther d fp' hSame (by rw [hLoc']; rfl))]
    exact h.link d fp' retfpn' next hLoc'
  · split_ifs at hLoc' with hSame
    exact h.removed d fp' retfpn' hLoc'

/-- What a step does to the list: `store` takes its first node off. -/
theorem Ordered.step (h : s.Ordered cells) (hSound : s.Sound) (step : Step s access t) :
    ∃ cells', t.Ordered cells' ∧
      match access with
      | .store _ retfpn => ∃ cell, cells = cell :: cells' ∧ cell.2.fpn = retfpn
      | .load _ false => cells = [] ∧ cells' = []
      | _ => cells' = cells := by
  cases step with
  | load c hLoc hHead =>
      refine ⟨cells, h.setLoc rfl hHead ?_ ?_ trivial (by simp [hLoc]), rfl⟩
      · exact fun fp retfpn hLoc => by cases hLoc
      · exact fun fp retfpn fpNext hLoc => by cases hLoc
  | loadNull c hLoc hHead =>
      have hNone : cells = [] := h.segment.start_eq_none_iff.mp hHead
      exact ⟨cells, h, hNone, hNone⟩
  | @readFpn c fp node hLoc hNode =>
      have hHead := h.first c fp (by rw [hLoc]; trivial) (by rw [hLoc]; rfl)
      refine ⟨cells, h.setLoc rfl hHead ?_ ?_ trivial (by simp [hLoc]), rfl⟩
      · rintro fp' retfpn hEq
        obtain ⟨rfl, rfl⟩ := GetFreefp.numbered.inj hEq
        exact ⟨node, hNode, rfl⟩
      · exact fun fp retfpn fpNext hLoc => by cases hLoc
  | @readNext c fp retfpn node hLoc hNode =>
      have hHead := h.first c fp (by rw [hLoc]; trivial) (by rw [hLoc]; rfl)
      refine ⟨cells, h.setLoc rfl hHead ?_ ?_ trivial (by simp [hLoc]), rfl⟩
      · exact fun fp retfpn hLoc => by cases hLoc
      · rintro fp' retfpn' fpNext hEq
        obtain ⟨rfl, rfl, rfl⟩ := GetFreefp.linked.inj hEq
        obtain ⟨node', hNode', rfl⟩ := h.number c fp retfpn hLoc
        obtain rfl := Option.some.inj (hNode.symm.trans hNode')
        exact hNode
  | store c hLoc =>
      obtain ⟨rest, rfl, hRest⟩ := h.store hSound hLoc
      exact ⟨rest, hRest, _, rfl, rfl⟩
  | free c hLoc hNode => exact ⟨cells, h.free hSound hLoc, rfl⟩

omit [DecidableEq CpuId] [DecidableEq Ptr] in
/-- A step in which no CPU turns to another node. -/
private theorem Sound.congr (h : s.Sound) (hFp : ∀ d, (t.loc d).fp? = (s.loc d).fp?)
    (hNode : t.nodes.node = s.nodes.node) : t.Sound := by
  constructor
  · intro d fp hHolds
    rw [hFp] at hHolds
    rw [hNode]
    exact h.allocated d fp hHolds
  · intro d e fp hFirst hSecond
    rw [hFp] at hFirst hSecond
    exact h.apart d e fp hFirst hSecond

omit [DecidableEq Ptr] in
private theorem setLoc_fp? {c : CpuId} {loc : GetFreefp Ptr} (hFp : loc.fp? = (s.loc c).fp?)
    (d : CpuId) : ((s.setLoc c loc).loc d).fp? = (s.loc d).fp? := by
  rw [setLoc_loc, Function.update_apply]
  split_ifs with hSame
  · rw [hSame, hFp]
  · rfl

/-- A step keeps the CPUs apart exactly if it does not load the head under another one. -/
theorem sound_iff_alone (h : s.Ordered cells) (hSound : s.Sound) (step : Step s access t) :
    t.Sound ↔ s.Alone access := by
  cases step with
  | @load c fp hLoc hHead =>
      constructor
      · intro hAfter d hNe hSection
        have hLoaded : ((s.setLoc c (.loaded fp)).loc c).fp? = some fp := by
          rw [setLoc_loc, Function.update_self]
          rfl
        have hOther : ((s.setLoc c (.loaded fp)).loc d).fp? = some fp := by
          rw [setLoc_loc, Function.update_of_ne hNe]
          cases hWhere : s.loc d with
          | idle | stored => rw [hWhere] at hSection; cases hSection
          | _ =>
              have hFirst := h.first d _ hSection (by rw [hWhere]; rfl)
              rw [← hHead, hFirst]
              rfl
        exact hNe (hAfter.apart d c fp hOther hLoaded)
      · intro hAlone
        have hList := h.segment
        rw [hHead] at hList
        cases hList with
        | @cons _ node rest here hRest =>
            have hOthers : ∀ d, d ≠ c → (s.loc d).fp? ≠ some fp := by
              intro d hNe hHolds
              cases hWhere : s.loc d with
              | idle => rw [hWhere] at hHolds; cases hHolds
              | stored fp' retfpn =>
                  rw [hWhere] at hHolds
                  obtain rfl := Option.some.inj hHolds
                  exact h.removed d fp' retfpn hWhere List.mem_cons_self
              | _ => exact hAlone d hNe (by rw [hWhere]; trivial)
            constructor
            · intro d fp' hHolds
              rw [setLoc_loc, Function.update_apply] at hHolds
              split_ifs at hHolds
              · obtain rfl := Option.some.inj hHolds
                simp [here]
              · exact hSound.allocated d fp' hHolds
            · intro d e fp' hFirst hSecond
              rw [setLoc_loc, Function.update_apply] at hFirst hSecond
              split_ifs at hFirst hSecond with hSame hSame' hSame'
              · rw [hSame, hSame']
              · obtain rfl := Option.some.inj hFirst
                exact absurd hSecond (hOthers e hSame')
              · obtain rfl := Option.some.inj hSecond
                exact absurd hFirst (hOthers d hSame)
              · exact hSound.apart d e fp' hFirst hSecond
  | loadNull c hLoc hHead => exact iff_of_true hSound trivial
  | readFpn c hLoc hNode =>
      exact iff_of_true (hSound.congr (setLoc_fp? (by rw [hLoc]; rfl)) rfl) trivial
  | readNext c hLoc hNode =>
      exact iff_of_true (hSound.congr (setLoc_fp? (by rw [hLoc]; rfl)) rfl) trivial
  | store c hLoc =>
      exact iff_of_true (hSound.congr (setLoc_fp? (by rw [hLoc]; rfl)) rfl) trivial
  | @free c fp retfpn node hLoc hNode =>
      have hOld : ∀ d fp', ((Function.update s.loc c .idle) d).fp? = some fp' →
          d ≠ c ∧ (s.loc d).fp? = some fp' := by
        intro d fp' hHolds
        rw [Function.update_apply] at hHolds
        split_ifs at hHolds with hSame
        · cases hHolds
        · exact ⟨hSame, hHolds⟩
      refine iff_of_true ⟨fun d fp' hHolds => ?_, fun d e fp' hFirst hSecond => ?_⟩ trivial
      · obtain ⟨hNe, hBefore⟩ := hOld d fp' hHolds
        rw [FrameNodes.put_node, Function.update_of_ne]
        · exact hSound.allocated d fp' hBefore
        · rintro rfl
          exact hNe (hSound.apart d c fp' hBefore (by rw [hLoc]; rfl))
      · exact hSound.apart d e fp' (hOld d fp' hFirst).2 (hOld e fp' hSecond).2

end Step

/-! The calls that the accesses amount to -/

/-- A call that finds a frame takes it at its `store`. -/
def takes? : FrameAccess CpuId → Option PoolCall
  | .load _ false => some (.get none)
  | .store _ retfpn => some (.get (some retfpn))
  | _ => none

/-- What the accesses leave: these are the frames of the device after the calls, and once
no CPU is in a call its nodes. -/
def Leaves (pool : FramePool) (accesses : List (FrameAccess CpuId)) (s : FrameRace CpuId Ptr) :
    Prop :=
  ∃ pool', Runs PoolStep pool (accesses.filterMap takes?) pool' ∧
    ((∀ c, s.loc c = .idle) → s.nodes.Holds pool'.mp.freeFpList)

section Run

variable {start s t : FrameRace CpuId Ptr} {pool : FramePool} {cells : List (Ptr × FrameNode Ptr)}
  {access : FrameAccess CpuId} {accesses : List (FrameAccess CpuId)}

/-- A step of the nodes is the step of the list that it amounts to. -/
private theorem Ordered.takes (h : s.Ordered cells) (hSound : s.Sound) (step : Step s access t)
    (hList : pool.mp.freeFpList = cells.map fun cell => cell.2.fpn) :
    ∃ pool' cells', Runs PoolStep pool (takes? access).toList pool' ∧ t.Ordered cells' ∧
      pool'.mp.freeFpList = cells'.map fun cell => cell.2.fpn := by
  obtain ⟨cells', hOrdered, hCells⟩ := h.step hSound step
  cases access with
  | load c found =>
      cases found with
      | true =>
          obtain rfl : cells' = cells := hCells
          exact ⟨pool, cells', Runs.nil, hOrdered, hList⟩
      | false =>
          obtain ⟨rfl, rfl⟩ : cells = [] ∧ cells' = [] := hCells
          have hGet : memphyGetFreefp pool.mp = .fail pool.mp := by
            rw [memphyGetFreefp, hList]
            rfl
          exact ⟨_, [], Runs.one (PoolStep.getNone hGet), hOrdered, hList⟩
  | store c retfpn =>
      obtain ⟨cell, rfl, rfl⟩ : ∃ cell, cells = cell :: cells' ∧ cell.2.fpn = retfpn := hCells
      have hGet : memphyGetFreefp pool.mp =
          .ok cell.2.fpn { pool.mp with freeFpList := cells'.map fun cell => cell.2.fpn } := by
        rw [memphyGetFreefp, hList]
        rfl
      exact ⟨_, cells', Runs.one (PoolStep.get hGet), hOrdered, rfl⟩
  | readFpn c | readNext c | free c retfpn =>
      obtain rfl : cells' = cells := hCells
      exact ⟨pool, cells', Runs.nil, hOrdered, hList⟩

omit [DecidableEq CpuId] [DecidableEq Ptr] in
private theorem ordered_idle (hIdle : ∀ c, s.loc c = .idle)
    (hOwned : Owned FrameNode.fpNext (fun _ => False) s.nodes.node s.nodes.freeFpList cells) :
    s.Ordered cells := by
  refine ⟨hOwned.segment, ?_, ?_, ?_, ?_, fun addr hSome => Or.inl ?_, hOwned.finite⟩
  rotate_right
  · obtain ⟨node, hNode⟩ := Option.ne_none_iff_exists'.mp hSome
    by_contra hOut
    exact hOwned.rest addr node hNode hOut
  all_goals simp [hIdle, GetFreefp.InSection]

omit [DecidableEq CpuId] [DecidableEq Ptr] in
private theorem Ordered.holds (h : s.Ordered cells) (hIdle : ∀ c, s.loc c = .idle) :
    s.nodes.Holds (cells.map fun cell => cell.2.fpn) := by
  refine ⟨cells, ⟨h.segment, fun addr node hNode hOut => ?_, h.finite⟩, rfl⟩
  rcases h.rest addr (by simp [hNode]) with hList | ⟨c, retfpn, hLoc⟩
  · exact hOut hList
  · rw [hIdle c] at hLoc
    cases hLoc

/-- CPUs that call `MEMPHY_get_freefp` at the same time never go on with the same node, nor
with one that was freed, exactly if none loads the head of the list while another one is
between its load and its store. Then they take the frames of the list in turn, each once. -/
theorem getFreefp_race (hIdle : ∀ c, start.loc c = .idle)
    (hHolds : start.nodes.Holds pool.mp.freeFpList) :
    (Runs (Keeping Step Sound) start accesses s ↔ Runs (Guarded Step Alone) start accesses s) ∧
      (Runs (Guarded Step Alone) start accesses s → s.Leaves pool accesses) := by
  obtain ⟨cells, hOwned, hFrames⟩ := hHolds
  have hOrdered := ordered_idle hIdle hOwned
  have hSound : start.Sound := ⟨by simp [hIdle, GetFreefp.fp?], by simp [hIdle, GetFreefp.fp?]⟩
  have hIff : Runs (Keeping Step Sound) start accesses s ↔
      Runs (Guarded Step Alone) start accesses s := by
    apply Runs.keeping_iff_guarded (fun s => ∃ cells, Ordered s cells) hSound ⟨cells, hOrdered⟩
    · rintro s access t ⟨cells, h⟩ hSound step -
      obtain ⟨cells', hAfter, -⟩ := h.step hSound step
      exact ⟨cells', hAfter⟩
    · rintro s access t ⟨cells, h⟩ hSound step
      exact sound_iff_alone h hSound step
  refine ⟨hIff, fun run => ?_⟩
  obtain ⟨pool', hCalls, cells', -, hAfter, hList⟩ := (hIff.mpr run).simulate_shown takes?
    (fun s (pool' : FramePool) => ∃ cells, s.Sound ∧ s.Ordered cells ∧
      pool'.mp.freeFpList = cells.map fun cell => cell.2.fpn)
    ⟨cells, hSound, hOrdered, hFrames.symm⟩ (by
      rintro s access t pool' ⟨cells, hSound, h, hList⟩ ⟨step, hKept⟩
      obtain ⟨pool'', cells', hCall, hAfter, hList'⟩ := h.takes hSound step hList
      exact ⟨pool'', hCall, cells', hKept, hAfter, hList'⟩)
  refine ⟨pool', hCalls, fun hDone => ?_⟩
  rw [hList]
  exact hAfter.holds hDone

/-- The second CPU loads the head after the store of the first one, before its `free`. -/
theorem getFreefp_race_overlap : ∃ (nodes : FrameNodes Nat) (s : FrameRace Bool Nat),
    (FrameNodes.format id none 512 (FrameNodes.fresh none)).state? = some nodes ∧
      Runs (Keeping Step Sound) ⟨nodes, fun _ => .idle⟩
        [.load true true, .readFpn true, .readNext true, .store true 0, .load false true,
          .free true 0] s ∧
      s.Leaves ⟨initMemphy .zero 512 1, []⟩
        [.load true true, .readFpn true, .readNext true, .store true 0, .load false true,
          .free true 0] := by
  obtain ⟨nodes, hFormat, hHead, hNode⟩ : ∃ nodes : FrameNodes Nat,
      (FrameNodes.format id none 512 (FrameNodes.fresh none)).state? = some nodes ∧
        nodes.freeFpList = some 0 ∧ nodes.node 0 = some ⟨0, some 1⟩ := ⟨_, rfl, rfl, rfl⟩
  let pool : FramePool := ⟨initMemphy .zero 512 1, []⟩
  have hHolds : nodes.Holds pool.mp.freeFpList :=
    FrameNodes.format_holds Function.injective_id (fun _ => rfl) (fun _ => rfl) hFormat
  let start : FrameRace Bool Nat := ⟨nodes, fun _ => .idle⟩
  have hIdle : ∀ c, start.loc c = .idle := fun _ => rfl
  have hOther : ∀ d : Bool, d ≠ false → d = true := fun d => Bool.eq_true_of_not_eq_false
  have run := (Runs.nil : Runs (Guarded Step Alone) start [] start)
    |>.snoc ⟨.load true rfl hHead, fun _ _ => id⟩
    |>.snoc ⟨.readFpn true rfl hNode, trivial⟩
    |>.snoc ⟨.readNext true rfl hNode, trivial⟩
    |>.snoc ⟨.store true rfl, trivial⟩
    |>.snoc ⟨.load false rfl rfl, fun d hNe => by rw [hOther d hNe]; exact id⟩
    |>.snoc ⟨.free true rfl hNode, trivial⟩
  obtain ⟨hKeeping, hLeaves⟩ := getFreefp_race hIdle hHolds
  exact ⟨nodes, _, hFormat, hKeeping.mpr run, hLeaves run⟩

end Run

end FrameRace

end Btlos
