import Btlos.Library.TimeShare
import Btlos.Library.Transition
import Mathlib.Algebra.Order.BigOperators.Group.Finset
import Mathlib.Data.List.DropRight
import Mathlib.Order.Cover

/-! The history of a time-sharing policy, and what it says about each cycle. A
cycle is the part of the history between two resets. -/
namespace TimeShare

open Transition

variable {Prio Proc : Type*}

/-- A list that is passed over is recorded with those who wait in it. -/
inductive Event (Prio Proc : Type*) where
  | insert (prio : Prio) (proc : Proc)
  | pass (prio : Prio) (waiting : List Proc)
  | serve (prio : Prio) (proc : Proc)
  | reset

abbrev History (Prio Proc : Type*) := List (Event Prio Proc)

def Event.isReset : Event Prio Proc → Bool
  | reset => true
  | _ => false

/-- The events since the last reset. -/
def cycle (past : History Prio Proc) : History Prio Proc :=
  past.rtakeWhile fun event => !event.isReset

/-- The priorities that were served. -/
def served (past : History Prio Proc) : List Prio :=
  past.filterMap fun event => match event with
    | .serve prio _ => some prio
    | _ => none

section Counting

variable [DecidableEq Prio]

/-- Those who joined the list of a priority. -/
def insertedAt (prio : Prio) (past : History Prio Proc) : List Proc :=
  past.filterMap fun event => match event with
    | .insert p proc => if p = prio then some proc else none
    | _ => none

/-- Those who were served from the list of a priority. -/
def servedAt (prio : Prio) (past : History Prio Proc) : List Proc :=
  past.filterMap fun event => match event with
    | .serve p proc => if p = prio then some proc else none
    | _ => none

/-- Those who joined the list and have not been served. -/
def pending (prio : Prio) (past : History Prio Proc) : List Proc :=
  (insertedAt prio past).drop (servedAt prio past).length

/-- The list has had someone in it ever since the last reset. -/
def NeverEmpty (prio : Prio) (past : History Prio Proc) : Prop :=
  ∀ before during, past = before ++ during → .reset ∉ during → pending prio before ≠ []

end Counting

section Lists

variable {past before : History Prio Proc} {event : Event Prio Proc}

theorem cycle_concat (h : event.isReset = false) :
    cycle (past ++ [event]) = cycle past ++ [event] := by
  rw [cycle, List.rtakeWhile_concat_pos _ _ _ (by simp [h])]
  rfl

@[simp] theorem cycle_concat_reset :
    cycle (past ++ [(.reset : Event Prio Proc)]) = [] := by
  rw [cycle, List.rtakeWhile_concat_neg _ _ _ (by simp [Event.isReset])]

private theorem mem_cycle_pass (past : History Prio Proc) (prio : Prio) (waiting : List Proc) :
    .pass prio waiting ∈ cycle (past ++ [.pass prio waiting]) := by
  rw [cycle_concat rfl]
  exact List.mem_append_right _ (List.mem_singleton_self _)

/-- An event of the cycle splits the history and the cycle alike. -/
theorem exists_split_of_mem_cycle (h : event ∈ cycle past) :
    ∃ before after, past = before ++ event :: after ∧
      cycle past = cycle before ++ event :: after ∧ .reset ∉ event :: after := by
  induction past using List.reverseRecOn with
  | nil => cases h
  | append_singleton past last ih =>
      cases hReset : last.isReset with
      | true =>
          obtain rfl : last = .reset := by cases last <;> simp_all [Event.isReset]
          rw [cycle_concat_reset] at h
          cases h
      | false =>
          have hLast : last ≠ .reset := by
            rintro rfl
            cases hReset
          rw [cycle_concat hReset, List.mem_append] at h
          rcases h with h | h
          · obtain ⟨before, after, hPast, hCycle, hNone⟩ := ih h
            refine ⟨before, after ++ [last], by rw [hPast]; simp, ?_, ?_⟩
            · rw [cycle_concat hReset, hCycle]
              simp
            · rw [← List.cons_append, List.mem_append, List.mem_singleton]
              exact fun h => h.elim hNone fun h => hLast h.symm
          · obtain rfl : event = last := by simpa using h
            refine ⟨past, [], rfl, cycle_concat hReset, ?_⟩
            rw [List.mem_singleton]
            exact fun h => hLast h.symm

@[simp] theorem served_append (past more : History Prio Proc) :
    served (past ++ more) = served past ++ served more := List.filterMap_append

variable [DecidableEq Prio]

@[simp] theorem insertedAt_append (prio : Prio) (past more : History Prio Proc) :
    insertedAt prio (past ++ more) = insertedAt prio past ++ insertedAt prio more :=
  List.filterMap_append

@[simp] theorem servedAt_append (prio : Prio) (past more : History Prio Proc) :
    servedAt prio (past ++ more) = servedAt prio past ++ servedAt prio more :=
  List.filterMap_append

end Lists

variable [LinearOrder Prio]

/-- The policy one decision at a time. The last list is passed over together
with the reset. -/
inductive Turn (quota : Prio → Nat) :
    Ready Prio Proc → History Prio Proc → Ready Prio Proc → Prop where
  | insert (r : Ready Prio Proc) (prio : Prio) (proc : Proc) :
      Turn quota r [.insert prio proc]
        { r with waiting := Function.update r.waiting prio (r.waiting prio ++ [proc]) }
  | serve {r : Ready Prio Proc} {proc : Proc} (hOpen : r.Open quota r.current)
      (hHead : (r.waiting r.current).head? = some proc) :
      Turn quota r [.serve r.current proc] (r.serve r.current r.slots)
  | pass {r : Ready Prio Proc} {next : Prio} (hClosed : ¬ r.Open quota r.current)
      (hNext : r.current ⋖ next) :
      Turn quota r [.pass r.current (r.waiting r.current)] { r with current := next }
  | lap {r : Ready Prio Proc} {first : Prio} (hClosed : ¬ r.Open quota r.current)
      (hLast : IsTop r.current) (hFirst : IsBot first) :
      Turn quota r [.pass r.current (r.waiting r.current), .reset]
        ⟨r.waiting, fun _ => 0, first⟩

/-- The state agrees with its history. -/
structure Tracks (quota : Prio → Nat) (past : History Prio Proc) (r : Ready Prio Proc) :
    Prop where
  slots : ∀ prio, r.slots prio = (served (cycle past)).count prio
  within : ∀ prio, r.slots prio ≤ quota prio
  fifo : ∀ prio, insertedAt prio past = servedAt prio past ++ r.waiting prio
  passed : ∀ prio, prio < r.current → ∃ waiting, .pass prio waiting ∈ cycle past
  reached : ∀ prio ∈ served (cycle past), prio ≤ r.current
  ordered : (served (cycle past)).Pairwise (· ≤ ·)

/-- What holds at a moment of the history, and of its last event. -/
structure CycleLaw (quota : Prio → Nat) (now : History Prio Proc) : Prop where
  ordered : (served (cycle now)).Pairwise (· ≤ ·)
  within : ∀ prio, (served (cycle now)).count prio ≤ quota prio
  fifo : ∀ prio, servedAt prio now <+: insertedAt prio now
  pass : ∀ earlier prio waiting, now = earlier ++ [.pass prio waiting] →
    insertedAt prio earlier = servedAt prio earlier ++ waiting ∧
      (waiting = [] ∨ (served (cycle earlier)).count prio = quota prio)
  reset : ∀ earlier, now = earlier ++ [.reset] →
    ∀ prio, ∃ waiting, .pass prio waiting ∈ cycle earlier

/-- The law at every moment of a history, and so in each of its cycles. -/
def Lawful (quota : Prio → Nat) (past : History Prio Proc) : Prop :=
  ∀ now, now <+: past → CycleLaw quota now

variable {quota : Prio → Nat} {past : History Prio Proc} {r t : Ready Prio Proc}

theorem Lawful.concat {event : Event Prio Proc} (h : Lawful quota past)
    (hLast : CycleLaw quota (past ++ [event])) : Lawful quota (past ++ [event]) := by
  intro now hNow
  rcases List.prefix_concat_iff.mp hNow with rfl | hNow
  · exact hLast
  · exact h now hNow

/-! One event after the other -/

/-- An event that serves nobody and ends no cycle. -/
private theorem Tracks.quiet {event : Event Prio Proc} (h : Tracks quota past r)
    (hReset : event.isReset = false) (hServed : served [event] = [])
    (hSlots : t.slots = r.slots) (hCurrent : t.current = r.current)
    (hFifo : ∀ prio, insertedAt prio (past ++ [event]) =
      servedAt prio (past ++ [event]) ++ t.waiting prio) :
    Tracks quota (past ++ [event]) t := by
  have hCycle : served (cycle (past ++ [event])) = served (cycle past) := by
    rw [cycle_concat hReset, served_append, hServed, List.append_nil]
  refine ⟨?_, ?_, hFifo, ?_, ?_, ?_⟩
  · rw [hCycle, hSlots]
    exact h.slots
  · rw [hSlots]
    exact h.within
  · intro prio hPrio
    obtain ⟨waiting, hPass⟩ := h.passed prio (hCurrent ▸ hPrio)
    exact ⟨waiting, by rw [cycle_concat hReset]; exact List.mem_append_left _ hPass⟩
  · rw [hCycle, hCurrent]
    exact h.reached
  · rw [hCycle]
    exact h.ordered

private theorem Tracks.insert (h : Tracks quota past r) (prio : Prio) (proc : Proc) :
    Tracks quota (past ++ [.insert prio proc])
      { r with waiting := Function.update r.waiting prio (r.waiting prio ++ [proc]) } := by
  refine h.quiet rfl rfl rfl rfl fun p => ?_
  rw [insertedAt_append, servedAt_append, h.fifo p]
  by_cases hPrio : p = prio
  · subst hPrio
    simp [insertedAt, servedAt]
  · simp [insertedAt, servedAt, hPrio, Ne.symm hPrio]

private theorem Tracks.pass (h : Tracks quota past r) (prio : Prio) (waiting : List Proc) :
    Tracks quota (past ++ [.pass prio waiting]) r := by
  apply h.quiet rfl rfl rfl rfl
  intro p
  rw [insertedAt_append, servedAt_append, h.fifo p]
  simp [insertedAt, servedAt]

/-- Go on to the next list, once the current one has been passed over. -/
private theorem Tracks.move {next : Prio} (h : Tracks quota past r) (hNext : r.current ⋖ next)
    (hPassed : ∃ waiting, .pass r.current waiting ∈ cycle past) :
    Tracks quota past { r with current := next } where
  slots := h.slots
  within := h.within
  fifo := h.fifo
  passed prio hPrio := (hNext.le_of_lt hPrio).lt_or_eq.elim (h.passed prio) fun hEq => hEq ▸ hPassed
  reached prio hPrio := (h.reached prio hPrio).trans hNext.le
  ordered := h.ordered

private theorem Tracks.reset {first : Prio} (h : Tracks quota past r) (hFirst : IsBot first) :
    Tracks quota (past ++ [.reset]) ⟨r.waiting, fun _ => 0, first⟩ where
  slots prio := by
    rw [cycle_concat_reset]
    rfl
  within _ := Nat.zero_le _
  fifo prio := by
    rw [insertedAt_append, servedAt_append, h.fifo prio]
    simp [insertedAt, servedAt]
  passed prio hPrio := absurd hPrio (hFirst prio).not_gt
  reached prio hPrio := by
    rw [cycle_concat_reset] at hPrio
    cases hPrio
  ordered := by
    rw [cycle_concat_reset]
    exact List.Pairwise.nil

private theorem Tracks.serve {proc : Proc} (h : Tracks quota past r)
    (hOpen : r.Open quota r.current) (hHead : (r.waiting r.current).head? = some proc) :
    Tracks quota (past ++ [.serve r.current proc]) (r.serve r.current r.slots) := by
  have hCycle : served (cycle (past ++ [.serve r.current proc])) =
      served (cycle past) ++ [r.current] := by
    rw [cycle_concat rfl, served_append]
    rfl
  obtain ⟨rest, hWaiting⟩ := List.head?_eq_some_iff.mp hHead
  refine ⟨fun prio => ?_, fun prio => ?_, fun prio => ?_, fun prio hPrio => ?_, ?_, ?_⟩
  · rw [hCycle, List.count_append, ← h.slots prio, Ready.serve]
    by_cases hPrio : prio = r.current
    · simp [hPrio]
    · simp [hPrio, Ne.symm hPrio]
  · rw [Ready.serve]
    by_cases hPrio : prio = r.current
    · subst hPrio
      simpa using Nat.succ_le_of_lt hOpen.2
    · simpa [hPrio] using h.within prio
  · rw [insertedAt_append, servedAt_append, h.fifo prio, Ready.serve]
    by_cases hPrio : prio = r.current
    · subst hPrio
      simp [insertedAt, servedAt, hWaiting]
    · simp [insertedAt, servedAt, hPrio, Ne.symm hPrio]
  · obtain ⟨waiting, hPass⟩ := h.passed prio hPrio
    exact ⟨waiting, by rw [cycle_concat rfl]; exact List.mem_append_left _ hPass⟩
  · intro prio hPrio
    rw [hCycle, List.mem_append, List.mem_singleton] at hPrio
    exact hPrio.elim (h.reached prio) fun hEq => hEq.le
  · rw [hCycle, List.pairwise_append]
    refine ⟨h.ordered, List.pairwise_singleton _ _, fun prio hPrio p hp => ?_⟩
    rw [List.mem_singleton.mp hp]
    exact h.reached prio hPrio

/-- The law of a moment, with what its last event has to show. -/
private theorem Tracks.law {event : Event Prio Proc} (h : Tracks quota (past ++ [event]) t)
    (hPass : ∀ prio waiting, event = .pass prio waiting →
      insertedAt prio past = servedAt prio past ++ waiting ∧
        (waiting = [] ∨ (served (cycle past)).count prio = quota prio))
    (hReset : event = .reset → ∀ prio, ∃ waiting, .pass prio waiting ∈ cycle past) :
    CycleLaw quota (past ++ [event]) where
  ordered := h.ordered
  within prio := (h.slots prio).symm.le.trans (h.within prio)
  fifo prio := ⟨t.waiting prio, (h.fifo prio).symm⟩
  pass earlier prio waiting hNow := by
    obtain ⟨rfl, hEvent⟩ := List.append_inj' hNow rfl
    exact hPass prio waiting (List.singleton_inj.mp hEvent)
  reset earlier hNow := by
    obtain ⟨rfl, hEvent⟩ := List.append_inj' hNow rfl
    exact hReset (List.singleton_inj.mp hEvent)

/-- A list that is passed over is empty or has had its quota. -/
private theorem Tracks.closed (h : Tracks quota past r) (hClosed : ¬ r.Open quota r.current) :
    insertedAt r.current past = servedAt r.current past ++ r.waiting r.current ∧
      (r.waiting r.current = [] ∨ (served (cycle past)).count r.current = quota r.current) := by
  refine ⟨h.fifo _, ?_⟩
  by_cases hEmpty : r.waiting r.current = []
  · exact Or.inl hEmpty
  · apply Or.inr
    have hUsed : ¬ r.slots r.current < quota r.current := fun hLeft => hClosed ⟨hEmpty, hLeft⟩
    rw [← h.slots]
    exact le_antisymm (h.within _) (not_lt.mp hUsed)

private theorem Tracks.law_pass (h : Tracks quota past r) (hClosed : ¬ r.Open quota r.current) :
    CycleLaw quota (past ++ [.pass r.current (r.waiting r.current)]) := by
  refine (h.pass r.current (r.waiting r.current)).law ?_ nofun
  intro prio waiting hEvent
  obtain ⟨rfl, rfl⟩ := Event.pass.inj hEvent
  exact h.closed hClosed

/-- A turn keeps the state in agreement with the history, and the law. -/
theorem Turn.lawful {events : History Prio Proc} (turn : Turn quota r events t)
    (h : Tracks quota past r) (hLaw : Lawful quota past) :
    Tracks quota (past ++ events) t ∧ Lawful quota (past ++ events) := by
  cases turn with
  | insert prio proc =>
      have hNow := h.insert prio proc
      exact ⟨hNow, hLaw.concat (hNow.law nofun nofun)⟩
  | serve hOpen hHead =>
      have hNow := h.serve hOpen hHead
      exact ⟨hNow, hLaw.concat (hNow.law nofun nofun)⟩
  | pass hClosed hNext =>
      have hNow := h.pass r.current (r.waiting r.current)
      exact ⟨hNow.move hNext ⟨_, mem_cycle_pass _ _ _⟩, hLaw.concat (h.law_pass hClosed)⟩
  | @lap first hClosed hLast hFirst =>
      have hPass := h.pass r.current (r.waiting r.current)
      have hNow := hPass.reset hFirst
      have hAll : ∀ prio, ∃ waiting,
          .pass prio waiting ∈ cycle (past ++ [.pass r.current (r.waiting r.current)]) := by
        intro prio
        rcases (hLast prio).lt_or_eq with hPrio | rfl
        · exact hPass.passed prio hPrio
        · exact ⟨_, mem_cycle_pass _ _ _⟩
      have hReset := hNow.law nofun fun _ => hAll
      have hMiddle := hLaw.concat (h.law_pass hClosed)
      have hEvents : past ++ [.pass r.current (r.waiting r.current), .reset] =
          past ++ [.pass r.current (r.waiting r.current)] ++ [.reset] := by simp
      rw [hEvents]
      exact ⟨hNow, hMiddle.concat hReset⟩

/-- The history of every run from an empty start has the law, in every cycle. -/
theorem lawful_run {first : Prio} {turns : List (History Prio Proc)} (hFirst : IsBot first)
    (run : Runs (Turn quota) ⟨fun _ => [], fun _ => 0, first⟩ turns r) :
    Tracks quota turns.flatten r ∧ Lawful quota turns.flatten := by
  induction run with
  | nil =>
      refine ⟨⟨fun _ => rfl, fun _ => Nat.zero_le _, fun _ => rfl,
        fun prio hPrio => absurd hPrio (hFirst prio).not_gt, nofun, List.Pairwise.nil⟩, ?_⟩
      intro now hNow
      obtain rfl : now = [] := List.prefix_nil.mp hNow
      exact ⟨List.Pairwise.nil, fun _ => Nat.zero_le _, fun _ => List.prefix_rfl,
        fun _ _ _ h => by simp at h, fun _ h => by simp at h⟩
  | snoc prior last ih =>
      rw [List.flatten_append, List.flatten_singleton]
      exact last.lawful ih.1 ih.2

/-! What the law says about a cycle -/

/-- Whoever waits in a list is not yet served, and nobody else. -/
theorem Tracks.pending_eq (h : Tracks quota past r) (prio : Prio) :
    pending prio past = r.waiting prio := by
  rw [pending, h.fifo prio, List.drop_left]

/-- A list that is never empty in a complete cycle gets its whole quota. -/
theorem Lawful.count_eq {now : History Prio Proc} {prio : Prio} (h : Lawful quota past)
    (hCycle : now ++ [.reset] <+: past) (hBusy : NeverEmpty prio now) :
    (served (cycle now)).count prio = quota prio := by
  obtain ⟨waiting, hPass⟩ := (h _ hCycle).reset now rfl prio
  obtain ⟨before, after, hNow, hSplit, hNone⟩ := exists_split_of_mem_cycle hPass
  have hPrefix : before ++ [.pass prio waiting] <+: past := by
    refine List.IsPrefix.trans ⟨after ++ [.reset], ?_⟩ hCycle
    rw [hNow]
    simp
  obtain ⟨hWaiting, hFull⟩ := (h _ hPrefix).pass before prio waiting rfl
  have hPending : pending prio before = waiting := by
    rw [pending, hWaiting, List.drop_left]
  have hCount := hFull.resolve_left (hPending ▸ hBusy before _ hNow hNone)
  apply le_antisymm ((h now ((List.prefix_append _ _).trans hCycle)).within prio)
  rw [← hCount, hSplit, served_append, List.count_append]
  exact Nat.le_add_right _ _

/-- A cycle has only so many turns. -/
theorem CycleLaw.length_le [Fintype Prio] {now : History Prio Proc} (h : CycleLaw quota now) :
    (served (cycle now)).length ≤ ∑ prio, quota prio := by
  calc (served (cycle now)).length = ∑ prio, (served (cycle now)).count prio := by
        have hAll := Multiset.sum_count_eq_card (s := Finset.univ)
          (m := (served (cycle now) : Multiset Prio)) fun _ _ => Finset.mem_univ _
        simpa using hAll.symm
    _ ≤ ∑ prio, quota prio := Finset.sum_le_sum fun prio _ => h.within prio

end TimeShare
