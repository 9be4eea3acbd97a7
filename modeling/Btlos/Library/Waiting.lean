import Btlos.Library.TimeShare
import Mathlib.Order.Interval.Finset.Defs

/-! How long someone can wait under the time-sharing policy. A list that nobody
leaves but by being served gets its quota in every cycle, so the place in the
list says in which cycle the turn comes at the latest. -/
namespace TimeShare

variable {Prio Proc : Type*}

/-- The cycles in which a list with the quota `turns` serves `waiting` of them. -/
def cyclesFor (turns waiting : Nat) : Nat := (waiting + turns - 1) / turns

section Cycles

variable {turns waiting more : Nat}

theorem cyclesFor_mono (h : waiting ≤ more) : cyclesFor turns waiting ≤ cyclesFor turns more :=
  Nat.div_le_div_right (by omega)

/-- A full cycle serves the quota, if there are that many. -/
theorem cyclesFor_sub (hTurns : 0 < turns) (hWaiting : 0 < waiting) :
    cyclesFor turns (waiting - turns) + 1 = cyclesFor turns waiting := by
  rw [cyclesFor, cyclesFor, ← Nat.add_div_right _ hTurns]
  by_cases hLe : turns ≤ waiting
  · congr 1
    omega
  · have hNone : waiting - turns = 0 := by omega
    rw [hNone, Nat.div_eq_of_lt_le (k := 1) (by omega) (by omega),
      Nat.div_eq_of_lt_le (k := 1) (by omega) (by omega)]

end Cycles

variable [LinearOrder Prio] {quota : Prio → Nat} {r t : Ready Prio Proc} {prio level : Prio}
  {proc served : Proc} {ahead : Nat}

/-- The turns that a list can still get in this cycle. -/
def Ready.share (quota : Prio → Nat) (r : Ready Prio Proc) (prio : Prio) : Nat :=
  if r.current ≤ prio then quota prio - r.slots prio else 0

theorem serve_waiting (slots : Prio → Nat) :
    (r.serve prio slots).waiting = Function.update r.waiting prio (r.waiting prio).tail := rfl

theorem serve_slots (slots : Prio → Nat) :
    (r.serve prio slots).slots = Function.update slots prio (slots prio + 1) := rfl

theorem serve_current (slots : Prio → Nat) : (r.serve prio slots).current = prio := rfl

/-- A turn in this cycle takes a turn from the share of its own list, and none
from the share of another one that has anyone. -/
theorem share_go (hFrom : r.current ≤ prio) (hOpen : r.Open quota prio)
    (hLeast : ∀ other, r.current ≤ other → r.Open quota other → prio ≤ other)
    (hWaits : r.waiting level ≠ []) :
    (r.serve prio r.slots).share quota level + (if prio = level then 1 else 0) =
      r.share quota level := by
  rw [Ready.share, Ready.share, serve_slots, serve_current]
  by_cases hHere : prio = level
  · subst hHere
    have hSlots := hOpen.2
    rw [if_pos le_rfl, if_pos hFrom, if_pos rfl, Function.update_self]
    omega
  · rw [if_neg hHere, Function.update_of_ne (Ne.symm hHere), Nat.add_zero]
    by_cases hBelow : prio ≤ level
    · rw [if_pos hBelow, if_pos (hFrom.trans hBelow)]
    · rw [if_neg hBelow]
      split_ifs with hCurrent
      · -- The list was passed over, so it has had all its turns.
        have hSpent : ¬ r.slots level < quota level :=
          fun hSlots => hBelow (hLeast level hCurrent ⟨hWaits, hSlots⟩)
        omega
      · rfl

/-- At the end of a cycle a list that has anyone has had all its turns. -/
theorem share_of_none (hNone : ∀ other, r.current ≤ other → ¬ r.Open quota other)
    (hWaits : r.waiting level ≠ []) : r.share quota level = 0 := by
  rw [Ready.share]
  split_ifs with hCurrent
  · have hSpent : ¬ r.slots level < quota level :=
      fun hSlots => hNone level hCurrent ⟨hWaits, hSlots⟩
    omega
  · rfl

/-- In a new cycle a list gets its quota, of which the first turn may be gone. -/
theorem share_wrap (hLe : prio ≤ level) (hQuota : 0 < quota level) :
    (r.serve prio fun _ => 0).share quota level + (if prio = level then 1 else 0) =
      quota level := by
  rw [Ready.share, serve_slots, serve_current, if_pos hLe]
  by_cases hHere : prio = level
  · subst hHere
    rw [if_pos rfl, Function.update_self]
    omega
  · rw [if_neg hHere, Function.update_of_ne (Ne.symm hHere), Nat.sub_zero, Nat.add_zero]

/-- Someone in a list stays there at most one place further ahead, or is the one
who goes. -/
theorem waiting_serve (slots : Prio → Nat) (hHead : (r.waiting prio).head? = some served)
    (hWaits : (r.waiting level)[ahead]? = some proc) :
    served = proc ∨ ∃ left, left + (if prio = level then 1 else 0) = ahead ∧
      ((r.serve prio slots).waiting level)[left]? = some proc := by
  rw [serve_waiting]
  by_cases hHere : prio = level
  · subst hHere
    rw [if_pos rfl, Function.update_self]
    cases ahead with
    | zero =>
        rw [← List.head?_eq_getElem?, hHead] at hWaits
        exact Or.inl (Option.some.inj hWaits)
    | succ left =>
        refine Or.inr ⟨left, rfl, ?_⟩
        rw [List.getElem?_tail]
        exact hWaits
  · rw [if_neg hHere, Function.update_of_ne (Ne.symm hHere)]
    exact Or.inr ⟨ahead, rfl, hWaits⟩

/-- Joining the end of a list moves nobody back. -/
theorem waiting_insert {other : Proc} (hWaits : (r.waiting level)[ahead]? = some proc) :
    (Function.update r.waiting prio (r.waiting prio ++ [other]) level)[ahead]? = some proc := by
  by_cases hHere : level = prio
  · subst hHere
    rw [Function.update_self]
    exact List.getElem?_append_left (List.getElem?_eq_some_iff.mp hWaits).1 |>.trans hWaits
  · rw [Function.update_of_ne hHere]
    exact hWaits

variable [Fintype Prio]

/-- The turns that a cycle has. Unfolding it would compute the sum. -/
@[irreducible] def cycleTurns (quota : Prio → Nat) : Nat := ∑ prio, quota prio

/-- The turns that are left in this cycle from the current list on. -/
@[irreducible] def Ready.turnsLeft (quota : Prio → Nat) (r : Ready Prio Proc) : Nat :=
  ∑ prio with r.current ≤ prio, (quota prio - r.slots prio)

/-- An upper bound on the turns before the end of the one of someone with `ahead`
others in front. -/
def Ready.wait (quota : Prio → Nat) (r : Ready Prio Proc) (prio : Prio) (ahead : Nat) : Nat :=
  r.turnsLeft quota +
    cycleTurns quota * cyclesFor (quota prio) (ahead + 1 - r.share quota prio)

theorem turnsLeft_le : r.turnsLeft quota ≤ cycleTurns quota := by
  rw [Ready.turnsLeft, cycleTurns]
  calc ∑ prio with r.current ≤ prio, (quota prio - r.slots prio)
      ≤ ∑ prio with r.current ≤ prio, quota prio := Finset.sum_le_sum fun p _ => Nat.sub_le _ _
    _ ≤ ∑ prio, quota prio := Finset.sum_le_sum_of_subset (Finset.filter_subset _ _)

theorem wait_le : r.wait quota prio ahead ≤
    cycleTurns quota * (1 + cyclesFor (quota prio) (ahead + 1)) := by
  rw [Ready.wait, Nat.mul_add, Nat.mul_one]
  exact Nat.add_le_add turnsLeft_le (Nat.mul_le_mul_left _ (cyclesFor_mono (Nat.sub_le _ _)))

/-- The bound does not depend on who else waits. -/
theorem wait_waiting (waiting : Prio → List Proc) :
    Ready.wait quota { r with waiting := waiting } prio ahead = r.wait quota prio ahead := by
  rw [Ready.wait, Ready.wait, Ready.turnsLeft, Ready.turnsLeft]
  rfl

/-- A turn is one of those that were left to its list. -/
private theorem turnsLeft_serve_lt (slots : Prio → Nat) (hSlots : slots prio < quota prio) :
    (r.serve prio slots).turnsLeft quota < ∑ p with prio ≤ p, (quota p - slots p) := by
  rw [Ready.turnsLeft, serve_slots, serve_current]
  apply Finset.sum_lt_sum
  · intro p _
    by_cases hp : p = prio
    · rw [hp, Function.update_self]
      omega
    · rw [Function.update_of_ne hp]
  · refine ⟨prio, Finset.mem_filter.mpr ⟨Finset.mem_univ prio, le_rfl⟩, ?_⟩
    rw [Function.update_self]
    omega

theorem turnsLeft_go (hFrom : r.current ≤ prio) (hSlots : r.slots prio < quota prio) :
    (r.serve prio r.slots).turnsLeft quota < r.turnsLeft quota := by
  apply lt_of_lt_of_le (turnsLeft_serve_lt r.slots hSlots)
  rw [Ready.turnsLeft]
  apply Finset.sum_le_sum_of_subset
  intro p hp
  rw [Finset.mem_filter] at hp ⊢
  exact ⟨hp.1, hFrom.trans hp.2⟩

theorem turnsLeft_wrap (hQuota : 0 < quota prio) :
    (r.serve prio fun _ => 0).turnsLeft quota < cycleTurns quota := by
  apply lt_of_lt_of_le (turnsLeft_serve_lt (fun _ => 0) hQuota)
  rw [cycleTurns]
  exact Finset.sum_le_sum_of_subset (Finset.filter_subset _ _)

/-- Whenever someone goes, everyone else is nearer to the own turn. -/
theorem Get.wait_lt (hQuota : ∀ prio, 0 < quota prio) (h : Get quota r (some served) t)
    (hWaits : (r.waiting level)[ahead]? = some proc) :
    served = proc ∨ ∃ left, left ≤ ahead ∧ (t.waiting level)[left]? = some proc ∧
      t.wait quota level left < r.wait quota level ahead := by
  have hNotNil : r.waiting level ≠ [] := by
    intro hNil
    rw [hNil] at hWaits
    cases hWaits
  cases h with
  | @go prio _ hFrom hOpen hLeast hHead =>
      cases waiting_serve r.slots hHead hWaits with
      | inl hServed => exact Or.inl hServed
      | inr hStays =>
          obtain ⟨left, hLeft, hPlace⟩ := hStays
          have hShare := share_go hFrom hOpen hLeast hNotNil
          have hTurns := turnsLeft_go hFrom hOpen.2
          have hWaiting : left + 1 - (r.serve prio r.slots).share quota level =
              ahead + 1 - r.share quota level := by omega
          refine Or.inr ⟨left, by omega, hPlace, ?_⟩
          rw [Ready.wait, Ready.wait, hWaiting]
          omega
  | @wrap prio _ hNone hLeast hHead =>
      cases waiting_serve (fun _ => 0) hHead hWaits with
      | inl hServed => exact Or.inl hServed
      | inr hStays =>
          obtain ⟨left, hLeft, hPlace⟩ := hStays
          have hShare := share_wrap (r := r) (hLeast level hNotNil) (hQuota level)
          have hTurns := turnsLeft_wrap (r := r) (hQuota prio)
          have hWaiting : left + 1 - (r.serve prio fun _ => 0).share quota level =
              ahead + 1 - quota level := by omega
          have hCycles := cyclesFor_sub (hQuota level) ahead.succ_pos
          refine Or.inr ⟨left, by omega, hPlace, ?_⟩
          rw [Ready.wait, Ready.wait, hWaiting, share_of_none hNone hNotNil, Nat.sub_zero,
            ← hCycles, Nat.mul_add, Nat.mul_one]
          change _ < _ + (_ * cyclesFor (quota level) (ahead + 1 - quota level) + _)
          omega

end TimeShare
