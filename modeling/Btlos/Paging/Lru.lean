import Btlos.Library.Outcome
import Mathlib.Data.List.Basic

/-! The list of recently used pages: `enlist_pgn_node` of `mm.c` and
`find_victim_page` of `mm-vm.c`. The nodes are kept as the list of their page
numbers, and the head pointer can be left on a node that has been freed. -/
namespace Btlos

/-- What `mm->lru_pgn` points to. -/
inductive PgnList where
  | nodes (pages : List Int)
  | freed
deriving DecidableEq

/-- The page that would be evicted next. -/
def PgnList.victim? : PgnList → Option Int
  | nodes pages => pages.getLast?
  | freed => none

@[simp] theorem PgnList.victim?_concat (pages : List Int) (victim : Int) :
    (nodes (pages ++ [victim])).victim? = some victim := by
  simp [victim?]

/-- Relink a found node to the front. The nodes passed before it are in
`before`, the last of them (`prev`) first. -/
def moveToFront (before : List Int) (pnode : Int) (rest : List Int) : List Int :=
  match before with
  | [] => pnode :: rest
  | prev :: earlier => pnode :: ((prev :: earlier).reverse ++ rest)

/-- The search of `enlist_pgn_node`: the relinked list, if the page is found. -/
def enlistLoop (pgn : Int) (before : List Int) : List Int → Option (List Int)
  | [] => none
  | pnode :: rest =>
      if pnode = pgn then some (moveToFront before pnode rest)
      else enlistLoop pgn (pnode :: before) rest

def enlistPgnNode (plist : PgnList) (pgn : Int) : Outcome PgnList Unit :=
  match plist with
  | .freed => .undefined
  | .nodes pages =>
      match enlistLoop pgn [] pages with
      | some pages => .ok () (.nodes pages)
      | none => .ok () (.nodes (pgn :: pages))

/-- The loop of `find_victim_page` on a list `pg`, `next`, ... of two nodes or
more: the page of the last node, and the nodes that stay. -/
def victimLoop (pg next : Int) : List Int → Int × List Int
  | [] => (next, [pg])
  | after :: rest => (victimLoop next after rest).map id (pg :: ·)

/-- The single-node case frees the node but leaves the head pointer on it. -/
def findVictimPage (plist : PgnList) : Outcome PgnList Int :=
  match plist with
  | .freed => .undefined
  | .nodes [] => .fail plist
  | .nodes [pg] => .ok pg .freed
  | .nodes (pg :: next :: rest) =>
      let (retpgn, pages) := victimLoop pg next rest
      .ok retpgn (.nodes pages)

theorem enlistLoop_eq (pgn : Int) (before pages : List Int) :
    enlistLoop pgn before pages =
      if pgn ∈ pages then some (pgn :: (before.reverse ++ pages.erase pgn)) else none := by
  induction pages generalizing before with
  | nil => simp [enlistLoop]
  | cons pnode rest ih =>
      rw [enlistLoop]
      by_cases h : pnode = pgn
      · subst h
        cases before <;> simp [moveToFront]
      · have hErase : (pnode :: rest).erase pgn = pnode :: rest.erase pgn := by
          rw [List.erase_cons_tail]
          simpa using h
        have hMem : pgn ∈ pnode :: rest ↔ pgn ∈ rest := by
          simp [Ne.symm h]
        rw [if_neg h, ih, hErase]
        simp only [hMem, List.reverse_cons, List.append_assoc, List.singleton_append]

/-- Wherever the page stood, and also if it was not listed, it is now first and
the others keep their order. -/
theorem enlistPgnNode_nodes (pages : List Int) (pgn : Int) :
    enlistPgnNode (.nodes pages) pgn = .ok () (.nodes (pgn :: pages.erase pgn)) := by
  rw [enlistPgnNode, enlistLoop_eq]
  by_cases h : pgn ∈ pages
  · simp [h]
  · simp [h, List.erase_of_not_mem h]

theorem nodup_enlist {pages : List Int} (h : pages.Nodup) (pgn : Int) :
    (pgn :: pages.erase pgn).Nodup :=
  List.nodup_cons.mpr ⟨h.not_mem_erase, h.erase pgn⟩

@[simp] theorem enlistPgnNode_freed (pgn : Int) : enlistPgnNode .freed pgn = .undefined := rfl

theorem victimLoop_eq (pg next : Int) (rest : List Int) :
    victimLoop pg next rest =
      ((pg :: next :: rest).getLast (by simp), (pg :: next :: rest).dropLast) := by
  induction rest generalizing pg next with
  | nil => rfl
  | cons after rest ih =>
      rw [victimLoop, ih]
      rfl

@[simp] theorem findVictimPage_nil : findVictimPage (.nodes []) = .fail (.nodes []) := rfl

@[simp] theorem findVictimPage_freed : findVictimPage .freed = .undefined := rfl

/-- The victim is the last page of the list. Only a list of one page is not
left as a list. -/
theorem findVictimPage_concat (pages : List Int) (victim : Int) :
    findVictimPage (.nodes (pages ++ [victim])) =
      .ok victim (if pages = [] then .freed else .nodes pages) := by
  cases pages with
  | nil => rfl
  | cons pg rest =>
      cases hRest : rest ++ [victim] with
      | nil => simp at hRest
      | cons next rest' =>
          have hAll : pg :: next :: rest' = (pg :: rest) ++ [victim] := by
            rw [List.cons_append, hRest]
          have hLast : (pg :: next :: rest').getLast (by simp) = victim := by simp [hAll]
          have hInit : (pg :: next :: rest').dropLast = pg :: rest := by
            rw [hAll, List.dropLast_concat]
          rw [← hAll, findVictimPage, victimLoop_eq, hLast, hInit]
          simp

end Btlos
