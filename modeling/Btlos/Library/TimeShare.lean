import Mathlib.Algebra.BigOperators.Group.Finset.Piecewise
import Mathlib.Algebra.Order.BigOperators.Group.Finset
import Mathlib.Algebra.Order.Group.Multiset
import Mathlib.Order.Defs.LinearOrder
import Mathlib.Tactic.Abel

/-! A time-sharing policy over waiting lists of different priority. A smaller
priority comes first, and a cycle gives each of them a quota of turns. -/
namespace TimeShare

variable {Prio Proc : Type*}

/-- Who waits, the turns used in this cycle and the priority served last. -/
structure Ready (Prio Proc : Type*) where
  waiting : Prio → List Proc
  slots : Prio → Nat
  current : Prio

section Everyone

variable [Fintype Prio]

/-- All those who wait, at whatever priority. Unfolding it would compute the sum. -/
@[irreducible] def everyone (waiting : Prio → List Proc) : Multiset Proc :=
  ∑ prio, (waiting prio : Multiset Proc)

theorem everyone_eq_zero {waiting : Prio → List Proc} (h : ∀ prio, waiting prio = []) :
    everyone waiting = 0 := by
  rw [everyone]
  exact Finset.sum_eq_zero fun prio _ => by rw [h prio, Multiset.coe_nil]

theorem mem_everyone {waiting : Prio → List Proc} {proc : Proc} :
    proc ∈ everyone waiting ↔ ∃ prio, proc ∈ waiting prio := by
  simp [everyone, Multiset.mem_sum]

theorem le_everyone (waiting : Prio → List Proc) (prio : Prio) :
    (waiting prio : Multiset Proc) ≤ everyone waiting := by
  rw [everyone]
  exact Finset.single_le_sum (f := fun prio => (waiting prio : Multiset Proc))
    (fun _ _ => Multiset.zero_le _) (Finset.mem_univ prio)

/-- A change to one list changes everyone by that much. -/
theorem everyone_update [DecidableEq Prio] (waiting : Prio → List Proc) (prio : Prio)
    (list : List Proc) :
    everyone (Function.update waiting prio list) + waiting prio = everyone waiting + list := by
  have hOthers : ∑ p ∈ Finset.univ.erase prio,
      ((Function.update waiting prio list) p : Multiset Proc) =
        ∑ p ∈ Finset.univ.erase prio, (waiting p : Multiset Proc) := by
    apply Finset.sum_congr rfl
    intro p hp
    rw [Function.update_of_ne (Finset.ne_of_mem_erase hp)]
  rw [everyone, everyone, ← Finset.add_sum_erase _ _ (Finset.mem_univ prio),
    ← Finset.add_sum_erase Finset.univ (fun p => (waiting p : Multiset Proc))
      (Finset.mem_univ prio), hOthers, Function.update_self]
  abel

/-- Someone who joins the end of a list is one more. -/
theorem everyone_concat [DecidableEq Prio] (waiting : Prio → List Proc) (prio : Prio)
    (proc : Proc) :
    everyone (Function.update waiting prio (waiting prio ++ [proc])) =
      proc ::ₘ everyone waiting := by
  have hUpdate := everyone_update waiting prio (waiting prio ++ [proc])
  rw [← Multiset.coe_add, add_comm (waiting prio : Multiset Proc), ← add_assoc] at hUpdate
  rw [add_right_cancel hUpdate, Multiset.coe_singleton, add_comm, Multiset.singleton_add]

/-- If nobody waits twice, everybody has one position in one list. -/
theorem position_unique {waiting : Prio → List Proc} {first second : Prio} {i j : Nat}
    {proc : Proc} (h : (everyone waiting).Nodup) (hFirst : (waiting first)[i]? = some proc)
    (hSecond : (waiting second)[j]? = some proc) : first = second ∧ i = j := by
  classical
  by_cases hPrio : first = second
  · subst hPrio
    have hLe : (waiting first : Multiset Proc) ≤ everyone waiting := by
      rw [everyone]
      exact Finset.single_le_sum (f := fun prio => (waiting prio : Multiset Proc))
        (fun _ _ => Multiset.zero_le _) (Finset.mem_univ first)
    have hList : (waiting first).Nodup := Multiset.coe_nodup.mp (Multiset.nodup_of_le hLe h)
    obtain ⟨hi, -⟩ := List.getElem?_eq_some_iff.mp hFirst
    exact ⟨rfl, (List.getElem?_inj hi hList).mp (hFirst.trans hSecond.symm)⟩
  · have hPair : (waiting first : Multiset Proc) + waiting second ≤ everyone waiting := by
      rw [everyone, ← Finset.sum_pair (f := fun prio => (waiting prio : Multiset Proc)) hPrio]
      exact Finset.sum_le_sum_of_subset (Finset.subset_univ _)
    have hDisjoint := (Multiset.nodup_add.mp (Multiset.nodup_of_le hPair h)).2.2
    exact absurd (List.mem_of_getElem? hSecond)
      (Multiset.disjoint_left.mp hDisjoint (List.mem_of_getElem? hFirst))

end Everyone

/-- Someone waits, and turns are left. -/
def Ready.Open (quota : Prio → Nat) (r : Ready Prio Proc) (prio : Prio) : Prop :=
  r.waiting prio ≠ [] ∧ r.slots prio < quota prio

variable [LinearOrder Prio]

/-- Let the first in a list go and count its turn. -/
def Ready.serve (r : Ready Prio Proc) (prio : Prio) (slots : Prio → Nat) : Ready Prio Proc where
  waiting := Function.update r.waiting prio (r.waiting prio).tail
  slots := Function.update slots prio (slots prio + 1)
  current := prio

/-- Whose turn it is: the first in the next open list, and when there is none, in
the first list that has anyone, with a new cycle. -/
inductive Get (quota : Prio → Nat) (r : Ready Prio Proc) :
    Option Proc → Ready Prio Proc → Prop where
  | idle (hEmpty : ∀ prio, r.waiting prio = []) : Get quota r none r
  | go {prio : Prio} {proc : Proc} (hFrom : r.current ≤ prio) (hOpen : r.Open quota prio)
      (hLeast : ∀ other, r.current ≤ other → r.Open quota other → prio ≤ other)
      (hHead : (r.waiting prio).head? = some proc) :
      Get quota r (some proc) (r.serve prio r.slots)
  | wrap {prio : Prio} {proc : Proc} (hNone : ∀ other, r.current ≤ other → ¬ r.Open quota other)
      (hLeast : ∀ other, r.waiting other ≠ [] → prio ≤ other)
      (hHead : (r.waiting prio).head? = some proc) :
      Get quota r (some proc) (r.serve prio fun _ => 0)

variable {quota : Prio → Nat} {r t t' : Ready Prio Proc} {result result' : Option Proc}
  {proc : Proc}

private theorem ne_nil_of_head {waiting : List Proc} (h : waiting.head? = some proc) :
    waiting ≠ [] := by
  rintro rfl
  cases h

/-- The policy leaves no choice. -/
theorem Get.unique (h : Get quota r result t) (h' : Get quota r result' t') :
    result = result' ∧ t = t' := by
  cases h with
  | idle hEmpty =>
      cases h' with
      | idle => exact ⟨rfl, rfl⟩
      | go _ hOpen => exact absurd (hEmpty _) hOpen.1
      | wrap _ _ hHead => exact absurd (hEmpty _) (ne_nil_of_head hHead)
  | go hFrom hOpen hLeast hHead =>
      cases h' with
      | idle hEmpty => exact absurd (hEmpty _) hOpen.1
      | go hFrom' hOpen' hLeast' hHead' =>
          obtain rfl := le_antisymm (hLeast _ hFrom' hOpen') (hLeast' _ hFrom hOpen)
          exact ⟨hHead.symm.trans hHead', rfl⟩
      | wrap hNone => exact absurd hOpen (hNone _ hFrom)
  | wrap hNone hLeast hHead =>
      cases h' with
      | idle hEmpty => exact absurd (hEmpty _) (ne_nil_of_head hHead)
      | go hFrom' hOpen' => exact absurd hOpen' (hNone _ hFrom')
      | wrap _ hLeast' hHead' =>
          obtain rfl := le_antisymm (hLeast _ (ne_nil_of_head hHead'))
            (hLeast' _ (ne_nil_of_head hHead))
          exact ⟨hHead.symm.trans hHead', rfl⟩

theorem Get.eq_none_iff (h : Get quota r result t) :
    result = none ↔ ∀ prio, r.waiting prio = [] := by
  cases h with
  | idle hEmpty => exact iff_of_true rfl hEmpty
  | go _ hOpen => exact iff_of_false nofun fun hEmpty => hOpen.1 (hEmpty _)
  | wrap _ _ hHead =>
      exact iff_of_false nofun fun hEmpty => ne_nil_of_head hHead (hEmpty _)

theorem Get.none_eq (h : Get quota r none t) : t = r := by
  cases h
  rfl

/-- Whoever goes was the first in one of the lists, and the others stay. -/
theorem Get.some_waiting (h : Get quota r (some proc) t) :
    ∃ prio rest, r.waiting prio = proc :: rest ∧
      t.waiting = Function.update r.waiting prio rest := by
  have hServe : ∀ prio slots, (r.waiting prio).head? = some proc →
      r.waiting prio = proc :: (r.waiting prio).tail ∧
        (r.serve prio slots).waiting = Function.update r.waiting prio (r.waiting prio).tail :=
    by
      intro prio slots hHead
      obtain ⟨rest, hList⟩ := List.head?_eq_some_iff.mp hHead
      exact ⟨by rw [hList, List.tail_cons], rfl⟩
  cases h with
  | go _ _ _ hHead => exact ⟨_, _, hServe _ _ hHead⟩
  | wrap _ _ hHead => exact ⟨_, _, hServe _ _ hHead⟩

/-- Getting someone takes that one from those who wait. -/
theorem Get.everyone [Fintype Prio] (h : Get quota r result t) :
    TimeShare.everyone t.waiting + result.toList = TimeShare.everyone r.waiting := by
  cases result with
  | none => simp [h.none_eq]
  | some proc =>
      obtain ⟨prio, rest, hWaiting, hTaken⟩ := h.some_waiting
      have hUpdate := everyone_update r.waiting prio rest
      rw [hWaiting, ← hTaken, ← Multiset.cons_coe, ← Multiset.singleton_add, ← add_assoc] at hUpdate
      exact add_right_cancel hUpdate

end TimeShare
