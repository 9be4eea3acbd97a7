import Btlos.Library.Transition

/-! The order in which the members of a list were last used, told from the history
of all uses and removals. -/
namespace Recency

open Transition

variable {Label Page : Type*}

/-- The first page was used after the last use of the second one. -/
def Later (use : Page → Label) (history : List Label) (page other : Page) : Prop :=
  Since (· = use page) (· = use other) history

/-- The page has been used and not been removed since. -/
def Listed (use remove : Page → Label) (history : List Label) (page : Page) : Prop :=
  Since (· = use page) (· = remove page) history

/-- The list holds the listed pages, each once, the one used last in front. -/
structure Ranked (use remove : Page → Label) (history : List Label) (pages : List Page) : Prop where
  nodup : pages.Nodup
  mem_iff : ∀ page, page ∈ pages ↔ Listed use remove history page
  later : pages.Pairwise (Later use history)

variable {use remove : Page → Label} {history : List Label} {pages : List Page} {page other : Page}
  {label : Label}

theorem Later.concat (h : Later use history page other) (hOther : label ≠ use other) :
    Later use (history ++ [label]) page other :=
  (since_concat history label).mpr (Or.inr ⟨hOther, h⟩)

/-- Moving the page that is used to the front keeps the order. -/
theorem later_moveToFront [DecidableEq Page] (hUse : Function.Injective use)
    (hNodup : pages.Nodup) (hLater : pages.Pairwise (Later use history)) (page : Page) :
    (page :: pages.erase page).Pairwise (Later use (history ++ [use page])) := by
  rw [List.pairwise_cons]
  constructor
  · intro other _
    exact (since_concat history _).mpr (Or.inl rfl)
  · apply (hLater.sublist List.erase_sublist).imp_of_mem
    intro first second _ hSecond hFirst
    apply hFirst.concat
    intro hSame
    exact ((List.Nodup.mem_erase_iff hNodup).mp hSecond).1 (hUse hSame).symm

theorem ranked_nil : Ranked use remove [] [] where
  nodup := List.nodup_nil
  mem_iff := fun _ => ⟨fun h => absurd h List.not_mem_nil, fun h => absurd h not_since_nil⟩
  later := List.Pairwise.nil

theorem Ranked.moveToFront [DecidableEq Page] (h : Ranked use remove history pages)
    (hUse : Function.Injective use) (hRemove : ∀ page other, use page ≠ remove other)
    (page : Page) : Ranked use remove (history ++ [use page]) (page :: pages.erase page) where
  nodup := List.nodup_cons.mpr ⟨h.nodup.not_mem_erase, h.nodup.erase page⟩
  mem_iff := by
    intro other
    rw [Listed, since_concat, List.mem_cons, h.nodup.mem_erase_iff, h.mem_iff]
    constructor
    · rintro (rfl | ⟨-, hListed⟩)
      · exact Or.inl rfl
      · exact Or.inr ⟨hRemove page other, hListed⟩
    · rintro (hSame | ⟨-, hListed⟩)
      · exact Or.inl (hUse hSame).symm
      · by_cases hEq : other = page
        · exact Or.inl hEq
        · exact Or.inr ⟨hEq, hListed⟩
  later := later_moveToFront hUse h.nodup h.later page

theorem Ranked.removeLast (h : Ranked use remove history (pages ++ [page]))
    (hInjective : Function.Injective remove) (hRemove : ∀ page other, use page ≠ remove other) :
    Ranked use remove (history ++ [remove page]) pages where
  nodup := h.nodup.sublist (List.sublist_append_left pages [page])
  mem_iff := by
    intro other
    have hMem := h.mem_iff other
    have hNot : page ∉ pages := fun hIn =>
      (List.nodup_append.mp h.nodup).2.2 page hIn page (List.mem_singleton_self page) rfl
    rw [List.mem_append, List.mem_singleton] at hMem
    rw [Listed, since_concat]
    constructor
    · intro hIn
      refine Or.inr ⟨fun hSame => ?_, hMem.mp (Or.inl hIn)⟩
      exact hNot (hInjective hSame ▸ hIn)
    · rintro (hSame | ⟨hNe, hListed⟩)
      · exact absurd hSame.symm (hRemove other page)
      · exact (hMem.mpr hListed).resolve_right fun hEq => hNe (by rw [hEq])
  later := (h.later.sublist (List.sublist_append_left pages [page])).imp fun hLater =>
    hLater.concat (hRemove _ page).symm

/-- Any other label leaves the list as it is. -/
theorem Ranked.skip (h : Ranked use remove history pages) (hUse : ∀ page, label ≠ use page)
    (hRemove : ∀ page, label ≠ remove page) : Ranked use remove (history ++ [label]) pages where
  nodup := h.nodup
  mem_iff := fun page => by
    rw [Listed, since_concat, h.mem_iff]
    exact ⟨fun hListed => Or.inr ⟨hRemove page, hListed⟩,
      fun hEither => (hEither.resolve_left (hUse page)).2⟩
  later := h.later.imp fun hLater => hLater.concat (hUse _)

/-- The last page of the list is the one whose last use is the oldest. -/
theorem Ranked.last (h : Ranked use remove history (pages ++ [page])) :
    Listed use remove history page ∧
      ∀ other, Listed use remove history other → other ≠ page → Later use history other page := by
  refine ⟨(h.mem_iff page).mp (by simp), fun other hListed hNe => ?_⟩
  have hMem : other ∈ pages := by
    simpa [hNe] using (h.mem_iff other).mpr hListed
  exact (List.pairwise_append.mp h.later).2.2 other hMem page (List.mem_singleton_self page)

end Recency
