import Mathlib.Logic.Function.Basic
import Mathlib.Tactic.Common

/-! A mutex with one condition variable, on which one thread waits. Another thread
that makes the condition true owes a signal until it has given one, and it gives
it before it unlocks. -/
namespace Monitor

variable {Thread : Type*}

/-- Where a thread stands: `inside` and `owing` hold the mutex. -/
inductive Place where
  | outside
  | inside
  | owing
  | asleep
  | waking
deriving DecidableEq

def Place.Holds (place : Place) : Prop := place = .inside ∨ place = .owing

/-- `ready` is the condition that the waiter waits for. -/
@[ext]
structure State (Thread : Type*) where
  owner : Option Thread
  place : Thread → Place
  ready : Bool

variable [DecidableEq Thread]

def State.move (s : State Thread) (thread : Thread) (place : Place) : State Thread :=
  { s with place := Function.update s.place thread place }

/-- The steps of all threads. A wait may also end without a signal, and the condition
may become false at any time. -/
inductive Step (waiter : Thread) : State Thread → State Thread → Prop where
  | lock {s : State Thread} (thread : Thread)
      (hPlace : s.place thread = .outside ∨ s.place thread = .waking) (hFree : s.owner = none) :
      Step waiter s ({ s with owner := some thread }.move thread .inside)
  | unlock {s : State Thread} (thread : Thread) (hPlace : s.place thread = .inside) :
      Step waiter s ({ s with owner := none }.move thread .outside)
  | wait {s : State Thread} (hPlace : s.place waiter = .inside) (hReady : s.ready = false) :
      Step waiter s ({ s with owner := none }.move waiter .asleep)
  | wake {s : State Thread} (hPlace : s.place waiter = .asleep) :
      Step waiter s (s.move waiter .waking)
  | establish {s : State Thread} (thread : Thread) (hPlace : s.place thread = .inside) :
      Step waiter s ({ s with ready := true }.move thread .owing)
  | signal {s : State Thread} (thread : Thread) (hPlace : s.place thread = .owing)
      (hOther : thread ≠ waiter) :
      Step waiter s ((s.move thread .inside).move waiter
        (if s.place waiter = .asleep then .waking else s.place waiter))
  | spoil {s : State Thread} : Step waiter s { s with ready := false }

/-- The mutex belongs to the one who is in a section, and nobody sleeps through
the condition: if it holds, somebody is about to signal. -/
structure State.Sound (waiter : Thread) (s : State Thread) : Prop where
  owner : ∀ thread, s.owner = some thread ↔ (s.place thread).Holds
  awake : s.place waiter = .asleep → s.ready = true → ∃ thread, s.place thread = .owing

variable {waiter : Thread} {s t : State Thread}

omit [DecidableEq Thread] in
/-- Two threads are never in a section at once. -/
theorem State.Sound.exclusive (h : s.Sound waiter) {first second : Thread}
    (hFirst : (s.place first).Holds) (hSecond : (s.place second).Holds) : first = second :=
  Option.some.inj (((h.owner first).mpr hFirst).symm.trans ((h.owner second).mpr hSecond))

omit [DecidableEq Thread] in
/-- A mutex that is not free is held by someone in a section. -/
theorem State.Sound.free_or_held (h : s.Sound waiter) :
    s.owner = none ∨ ∃ thread, (s.place thread).Holds := by
  cases hOwner : s.owner with
  | none => exact Or.inl rfl
  | some thread => exact Or.inr ⟨thread, (h.owner thread).mp hOwner⟩

omit [DecidableEq Thread] in
/-- A free mutex has nobody in a section. -/
theorem State.Sound.not_holds (h : s.Sound waiter) (hFree : s.owner = none) (thread : Thread) :
    ¬ (s.place thread).Holds := by
  intro hHolds
  rw [(h.owner thread).mpr hHolds] at hFree
  cases hFree

@[simp]
theorem place_move (s : State Thread) (thread other : Thread) (place : Place) :
    (s.move thread place).place other = if other = thread then place else s.place other :=
  Function.update_apply _ _ _ _

section Move

variable {thread : Thread} {place : Place}

private theorem owner_move (owner : Option Thread)
    (hThread : owner = some thread ↔ place.Holds)
    (hOthers : ∀ other, other ≠ thread → (owner = some other ↔ (s.place other).Holds)) :
    ∀ other, owner = some other ↔ ((s.move thread place).place other).Holds := by
  intro other
  rw [place_move]
  split_ifs with hSame
  · rw [hSame]
    exact hThread
  · exact hOthers other hSame

/-- The one who is in a section leaves it, and nobody is in one. -/
private theorem State.Sound.owner_leave (h : s.Sound waiter) (hPlace : s.place thread = .inside)
    (hLeft : ¬ place.Holds) :
    ∀ other, none = some other ↔ ((s.move thread place).place other).Holds := by
  apply owner_move none (iff_of_false nofun hLeft)
  intro other hOther
  apply iff_of_false nofun
  intro hHolds
  exact hOther (h.exclusive hHolds (Or.inl hPlace))

/-- The one who is in a section stays there. -/
private theorem State.Sound.owner_stay (h : s.Sound waiter)
    (hPlace : (s.place thread).Holds ↔ place.Holds) :
    ∀ other, s.owner = some other ↔ ((s.move thread place).place other).Holds :=
  owner_move s.owner ((h.owner thread).trans hPlace) fun other _ => h.owner other

/-- A thread that owes no signal does not fall asleep. -/
private theorem State.Sound.awake_move (h : s.Sound waiter) (hAsleep : place ≠ .asleep)
    (hOwing : s.place thread ≠ .owing) :
    (s.move thread place).place waiter = .asleep → s.ready = true →
      ∃ other, (s.move thread place).place other = .owing := by
  intro hWaiter hReady
  rw [place_move] at hWaiter
  split_ifs at hWaiter with hSame
  · exact absurd hWaiter hAsleep
  · obtain ⟨other, hOther⟩ := h.awake hWaiter hReady
    refine ⟨other, ?_⟩
    rw [place_move, if_neg]
    · exact hOther
    · rintro rfl
      exact hOwing hOther

end Move

theorem State.Sound.step (h : s.Sound waiter) (step : Step waiter s t) : t.Sound waiter := by
  cases step with
  | lock thread hPlace hFree =>
      constructor
      · apply owner_move (some thread) (iff_of_true rfl (Or.inl rfl))
        intro other hOther
        exact iff_of_false (fun hSame => hOther (Option.some.inj hSame).symm)
          (h.not_holds hFree other)
      · have hNotOwing : s.place thread ≠ .owing :=
          fun hOwing => h.not_holds hFree thread (Or.inr hOwing)
        exact h.awake_move nofun hNotOwing
  | unlock thread hPlace =>
      exact ⟨h.owner_leave hPlace (by simp [Place.Holds]), h.awake_move nofun (by simp [hPlace])⟩
  | wait hPlace hReady =>
      refine ⟨h.owner_leave hPlace (by simp [Place.Holds]), ?_⟩
      intro _ hReady'
      rw [State.move, hReady] at hReady'
      cases hReady'
  | wake hPlace =>
      exact ⟨h.owner_stay (by simp [hPlace, Place.Holds]), h.awake_move nofun (by simp [hPlace])⟩
  | establish thread hPlace =>
      refine ⟨h.owner_stay (by simp [hPlace, Place.Holds]), ?_⟩
      intro _ _
      refine ⟨thread, ?_⟩
      rw [place_move, if_pos rfl]
  | signal thread hPlace hOther =>
      constructor
      · have hHolds : (s.place thread).Holds ↔ Place.inside.Holds :=
          iff_of_true (Or.inr hPlace) (Or.inl rfl)
        apply owner_move s.owner
        · rw [h.owner waiter]
          split_ifs with hAsleep
          · rw [hAsleep]
            simp [Place.Holds]
          · exact Iff.rfl
        · intro other _
          exact h.owner_stay hHolds other
      · intro hAsleep
        rw [place_move, if_pos rfl] at hAsleep
        split_ifs at hAsleep with hWaiter
        exact absurd hAsleep hWaiter
  | spoil => exact ⟨h.owner, nofun⟩

end Monitor
