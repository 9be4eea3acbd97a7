import Btlos.Library.Recency
import Btlos.Paging.Lru

/-! The list of recently used pages on its own, over whole sequences of
`enlist_pgn_node` and `find_victim_page`, compared with all the calls so far. -/
namespace Btlos

open Transition Recency

inductive LruCall where
  | enlistPgnNode (pgn : Int)
  | findVictimPage
deriving DecidableEq

/-- What came of a call. A stray one has followed the head pointer to a node that
was freed. -/
inductive LruEvent where
  | enlisted (pgn : Int)
  | victim (pgn : Int)
  | noVictim
  | stray
deriving DecidableEq

structure LruTrace where
  list : PgnList
  events : List LruEvent
deriving DecidableEq

def LruTrace.initial : LruTrace := ⟨.nodes [], []⟩

/-- The list after a call, and what came of it. -/
def LruTrace.after (s : LruTrace) : LruCall → LruTrace
  | .enlistPgnNode pgn =>
      match (Btlos.enlistPgnNode s.list pgn).state? with
      | some list => ⟨list, s.events ++ [.enlisted pgn]⟩
      | none => ⟨s.list, s.events ++ [.stray]⟩
  | .findVictimPage =>
      match Btlos.findVictimPage s.list with
      | .ok pgn list => ⟨list, s.events ++ [.victim pgn]⟩
      | .fail list => ⟨list, s.events ++ [.noVictim]⟩
      | .undefined => ⟨s.list, s.events ++ [.stray]⟩

def LruStep (s : LruTrace) (call : LruCall) (t : LruTrace) : Prop := t = s.after call

/-- A victim is the listed page that was enlisted last the longest time ago, and
there is none only if no page is listed. -/
def RightVictim (before : List LruEvent) : LruEvent → Prop
  | .enlisted _ => True
  | .victim pgn => Listed .enlisted .victim before pgn ∧ ∀ other,
      Listed .enlisted .victim before other → other ≠ pgn → Later .enlisted before other pgn
  | .noVictim => ∀ pgn, ¬ Listed .enlisted .victim before pgn
  | .stray => False

/-- Every call so far did what it should, and the list holds the pages that were
enlisted and not taken since, in the order in which they were enlisted last. -/
structure TraceLaw (s : LruTrace) : Prop where
  ranked : ∃ pages, s.list = .nodes pages ∧ Ranked .enlisted .victim s.events pages
  each : EachStep RightVictim s.events

/-- `find_victim_page` is not called when one page is listed. -/
def KeepsNode (s : LruTrace) (call : LruCall) : Prop :=
  call = .findVictimPage → ∀ pgn, s.list ≠ .nodes [pgn]

theorem traceLaw_initial : TraceLaw LruTrace.initial :=
  ⟨⟨[], rfl, ranked_nil⟩, eachStep_nil⟩

theorem enlisted_ne_victim (pgn other : Int) : LruEvent.enlisted pgn ≠ .victim other := by
  simp

theorem TraceLaw.enlist {s : LruTrace} (h : TraceLaw s) (pgn : Int) :
    TraceLaw (s.after (.enlistPgnNode pgn)) := by
  obtain ⟨⟨pages, hList, hRanked⟩, hEach⟩ := h
  have hAfter : s.after (.enlistPgnNode pgn) =
      ⟨.nodes (pgn :: pages.erase pgn), s.events ++ [.enlisted pgn]⟩ := by
    simp [LruTrace.after, hList, enlistPgnNode_nodes]
  rw [hAfter]
  refine ⟨⟨_, rfl, ?_⟩, (eachStep_concat _ _).mpr ⟨hEach, trivial⟩⟩
  exact hRanked.moveToFront (fun _ _ => LruEvent.enlisted.inj) enlisted_ne_victim pgn

/-- Taking a victim keeps the law unless it is the only page. -/
theorem TraceLaw.victim_iff {s : LruTrace} (h : TraceLaw s) :
    TraceLaw (s.after .findVictimPage) ↔ ∀ pgn, s.list ≠ .nodes [pgn] := by
  obtain ⟨⟨pages, hList, hRanked⟩, hEach⟩ := h
  rcases List.eq_nil_or_concat pages with rfl | ⟨pages, victim, rfl⟩
  · have hAfter : s.after .findVictimPage = ⟨.nodes [], s.events ++ [.noVictim]⟩ := by
      simp [LruTrace.after, hList]
    rw [hAfter, hList]
    refine ⟨fun _ => by simp, fun _ => ⟨⟨[], rfl, ?_⟩, (eachStep_concat _ _).mpr ⟨hEach, ?_⟩⟩⟩
    · exact hRanked.skip (by simp) (by simp)
    · intro pgn hListed
      exact List.not_mem_nil ((hRanked.mem_iff pgn).mpr hListed)
  · rw [List.concat_eq_append] at hList hRanked
    have hAfter : s.after .findVictimPage =
        ⟨if pages = [] then .freed else .nodes pages, s.events ++ [.victim victim]⟩ := by
      simp [LruTrace.after, hList, findVictimPage_concat]
    rw [hAfter, hList]
    by_cases hPages : pages = []
    · subst hPages
      refine ⟨fun hLaw => ?_, fun hMore => absurd rfl (hMore victim)⟩
      obtain ⟨_, hFreed, -⟩ := hLaw.ranked
      simp at hFreed
    · rw [if_neg hPages]
      refine ⟨fun _ pgn hOne => ?_, fun _ => ⟨⟨pages, rfl, ?_⟩, ?_⟩⟩
      · have hLength := congrArg List.length (PgnList.nodes.inj hOne)
        exact hPages (by simpa using hLength)
      · exact hRanked.removeLast (fun _ _ => LruEvent.victim.inj) enlisted_ne_victim
      · exact (eachStep_concat _ _).mpr ⟨hEach, hRanked.last⟩

theorem TraceLaw.step_iff {s t : LruTrace} {call : LruCall} (h : TraceLaw s)
    (step : LruStep s call t) : TraceLaw t ↔ KeepsNode s call := by
  subst step
  cases call with
  | enlistPgnNode pgn => exact ⟨fun _ => by simp [KeepsNode], fun _ => h.enlist pgn⟩
  | findVictimPage =>
      rw [h.victim_iff]
      exact ⟨fun hMore _ => hMore, fun hKeeps => hKeeps rfl⟩

/-- In a run of any length, every call does what it should, and the list is right after
it, exactly if `find_victim_page` is never called when one page is listed. -/
theorem traceLaw_iff (calls : List LruCall) (s : LruTrace) :
    Runs (Keeping LruStep TraceLaw) LruTrace.initial calls s ↔
      Runs (Guarded LruStep KeepsNode) LruTrace.initial calls s :=
  Runs.keeping_iff_guarded (fun _ => True) traceLaw_initial trivial (fun _ _ _ _ _ _ _ => trivial)
    fun _ _ _ _ h step => h.step_iff step

/-- Page 7 is enlisted and taken. Its node is freed, and the next call reads it. -/
theorem victim_of_one_page :
    Runs LruStep LruTrace.initial [.enlistPgnNode 7, .findVictimPage, .findVictimPage]
        ⟨.freed, [.enlisted 7, .victim 7, .stray]⟩ ∧
      ¬ TraceLaw ⟨.freed, [.enlisted 7, .victim 7, .stray]⟩ := by
  constructor
  · have hEval : exec (fun s call => some (LruTrace.after s call)) LruTrace.initial
        [.enlistPgnNode 7, .findVictimPage, .findVictimPage] =
          some ⟨.freed, [.enlisted 7, .victim 7, .stray]⟩ := by decide
    exact Runs.of_exec hEval fun _ _ _ h => (Option.some.inj h).symm
  · intro hLaw
    exact ((eachStep_concat [LruEvent.enlisted 7, .victim 7] .stray).mp hLaw.each).2

end Btlos
