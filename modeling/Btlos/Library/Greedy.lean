import Mathlib.Algebra.Order.BigOperators.Group.Finset
import Mathlib.Combinatorics.Enumerative.DoubleCounting

/-! Jobs that take turns on several machines. In a slot a job gets at most one turn, so
that a schedule says for each job in which slots it got one. -/
namespace Greedy

variable {Job : Type*} [DecidableEq Job] {jobs : Finset Job} {given : Job → Finset Nat}
  {work : Job → Nat} {machines : Nat} {job : Job} {slots exceptions : Finset Nat}

/-- In each of the slots all machines have work, or the job gets a turn, up to some
exceptions. -/
def Serves (jobs : Finset Job) (given : Job → Finset Nat) (machines : Nat)
    (exceptions slots : Finset Nat) (job : Job) : Prop :=
  ∀ slot ∈ slots, slot ∈ exceptions ∨ slot ∈ given job ∨
    machines ≤ (jobs.filter fun other => slot ∈ given other).card

/-- Slots in which the others take all machines are as few as their work allows. -/
private theorem mul_card_full_le {full : Finset Nat}
    (hWork : ∀ other ∈ jobs.erase job, (given other).card ≤ work other)
    (hJob : ∀ slot ∈ full, slot ∉ given job)
    (hFull : ∀ slot ∈ full, machines ≤ (jobs.filter fun other => slot ∈ given other).card) :
    full.card * machines ≤ ∑ other ∈ jobs.erase job, work other := by
  have hOthers : ∀ slot ∈ full,
      machines ≤
        ((jobs.erase job).bipartiteAbove (fun slot other => slot ∈ given other) slot).card := by
    intro slot hSlot
    rw [Finset.bipartiteAbove, Finset.filter_erase, Finset.erase_eq_of_notMem]
    · exact hFull slot hSlot
    · intro hMem
      exact hJob slot hSlot (Finset.mem_filter.mp hMem).2
  calc full.card * machines
      ≤ ∑ slot ∈ full,
          ((jobs.erase job).bipartiteAbove (fun slot other => slot ∈ given other) slot).card :=
        Finset.card_nsmul_le_sum _ _ _ hOthers
    _ = ∑ other ∈ jobs.erase job,
          (full.bipartiteBelow (fun slot other => slot ∈ given other) other).card :=
        Finset.sum_card_bipartiteAbove_eq_sum_card_bipartiteBelow _
    _ ≤ ∑ other ∈ jobs.erase job, work other := by
        apply Finset.sum_le_sum
        intro other hOther
        apply (Finset.card_le_card _).trans (hWork other hOther)
        intro slot hSlot
        exact (Finset.mem_filter.mp hSlot).2

/-- The slots that pass are those of the job, the exceptions, and those that the work of
the others fills. -/
theorem Serves.card_le (h : Serves jobs given machines exceptions slots job)
    (hMachines : 0 < machines)
    (hWork : ∀ other ∈ jobs.erase job, (given other).card ≤ work other) :
    slots.card ≤
      exceptions.card + (given job).card + (∑ other ∈ jobs.erase job, work other) / machines := by
  have hSplit : slots ⊆ exceptions ∪ given job ∪ (slots \ exceptions) \ given job := by
    intro slot hSlot
    by_cases hException : slot ∈ exceptions
    · simp [hException]
    · by_cases hJob : slot ∈ given job
      · simp [hJob]
      · simp [hSlot, hException, hJob]
  have hFull : ((slots \ exceptions) \ given job).card ≤
      (∑ other ∈ jobs.erase job, work other) / machines := by
    rw [Nat.le_div_iff_mul_le hMachines]
    apply mul_card_full_le hWork
    · intro slot hSlot
      exact (Finset.mem_sdiff.mp hSlot).2
    · intro slot hSlot
      obtain ⟨hRest, hJob⟩ := Finset.mem_sdiff.mp hSlot
      obtain ⟨hHere, hException⟩ := Finset.mem_sdiff.mp hRest
      rcases h slot hHere with hNo | hNo | hMany
      · exact absurd hNo hException
      · exact absurd hNo hJob
      · exact hMany
  calc slots.card ≤ (exceptions ∪ given job ∪ (slots \ exceptions) \ given job).card :=
        Finset.card_le_card hSplit
    _ ≤ (exceptions ∪ given job).card + ((slots \ exceptions) \ given job).card :=
        Finset.card_union_le _ _
    _ ≤ _ := Nat.add_le_add (Finset.card_union_le _ _) hFull

/-- A job that is served until it has got its turns gets them within as many slots as its
own work, the exceptions and its part of the work of the others make. -/
theorem finished (hMachines : 0 < machines)
    (hWork : ∀ other ∈ jobs.erase job, (given other).card ≤ work other)
    (hServes : (given job).card < work job → Serves jobs given machines exceptions slots job)
    (hSlots : exceptions.card + work job + (∑ other ∈ jobs.erase job, work other) / machines ≤
      slots.card) : work job ≤ (given job).card := by
  by_contra hUnfinished
  have hLess := Nat.lt_of_not_le hUnfinished
  have hCard := (hServes hLess).card_le hMachines hWork
  omega

end Greedy
