import Btlos.Os.Lockstep

/-! The round of the timer after one step, and the devices when the time goes on. -/
namespace Btlos

section Timer

variable {m : Nat} {s t : Timer m} {label : TimerCall m} {round : Nat}

private theorem ofNat_succ_ne (k : Nat) : UInt64.ofNat (k + 1) ≠ UInt64.ofNat k := by
  intro hSame
  rw [UInt64.ofNat_add] at hSame
  simp at hSame

/-- The next round is this one or the one after it. -/
private theorem Timer.InRound.next (h : s.InRound round) (step : TimerStep s label t) :
    t.InRound round ∨ t.InRound (round + 1) := by
  obtain ⟨round', hRound', hSame | ⟨event, hEvent⟩⟩ := h.step step
  · have hRound : round' = round := congrArg Barrier.State.round hSame
    exact Or.inl (hRound ▸ hRound')
  · have hRound : round' = round ∨ round' = round + 1 := by
      change (t.barrier round').round = (s.barrier round).round ∨
        (t.barrier round').round = (s.barrier round).round + 1
      generalize t.barrier round' = after at hEvent
      cases hEvent with
      | «open» => exact Or.inr rfl
      | arrive | depart | leave => exact Or.inl rfl
    rcases hRound with rfl | rfl
    · exact Or.inl hRound'
    · exact Or.inr hRound'

theorem Timer.InRound.same (h : s.InRound round) (step : TimerStep s label t)
    (hTime : t.time = s.time) : t.InRound round := by
  rcases h.next step with hSame | hNext
  · exact hSame
  · rw [hNext.time, h.time] at hTime
    exact absurd hTime (ofNat_succ_ne round)

/-- When the time goes on, every device has left or is through with the round. -/
theorem Timer.InRound.opens (h : s.InRound round) (step : TimerStep s label t)
    (hTime : t.time ≠ s.time) :
    t.InRound (round + 1) ∧ t.device = s.device ∧
      ∀ i, (s.device i).phase = .detached ∨ (s.device i).Held (round + 1) := by
  have hNext : t.InRound (round + 1) := by
    rcases h.next step with hSame | hNext
    · exact absurd (hSame.time.trans h.time.symm) hTime
    · exact hNext
  cases step with
  | advance hLoc =>
      refine ⟨hNext, rfl, fun i => ?_⟩
      rcases h.fits i with ⟨hDetached, -⟩ | ⟨-, hFits⟩
      · exact Or.inl hDetached
      · rw [hLoc, Device.Fits, if_pos i.isLt] at hFits
        exact Or.inr hFits
  | enter | exit | collect | release | finish | nextSlot | slotReturns | detachEvent | stopTimer =>
      exact absurd rfl hTime

/-- A device that works or is in its second section of `next_slot` is in this round or comes
from the one before it. -/
theorem Timer.InRound.returned_le (h : s.InRound round) {i : Fin m}
    (hHere : (s.device i).phase ≠ .detached) :
    (s.device i).returned ≤ round ∧ round ≤ (s.device i).returned + 1 := by
  have hReleased : (s.device i).Released round →
      (s.device i).returned ≤ round ∧ round ≤ (s.device i).returned + 1 := by
    rintro (⟨-, -, -, hReturned⟩ | ⟨-, -, -, hReturned⟩ | ⟨-, -, -, hReturned⟩) <;> omega
  have hHeld : ∀ round', (s.device i).Held round' → round' = round ∨ round' = round + 1 →
      (s.device i).returned ≤ round ∧ round ≤ (s.device i).returned + 1 := by
    rintro round' ⟨-, -, -, hReturned⟩ hRound
    omega
  rcases h.fits i with ⟨hDetached, -⟩ | ⟨-, hFits⟩
  · exact absurd hDetached hHere
  · cases hLoc : s.loc with
    | test | ended =>
        rw [hLoc] at hFits
        exact hReleased hFits
    | collect place fsh event =>
        rw [hLoc, Device.Fits] at hFits
        split_ifs at hFits
        · exact hHeld _ hFits (Or.inr rfl)
        · exact hReleased hFits
    | release place fsh event =>
        rw [hLoc, Device.Fits] at hFits
        split_ifs at hFits
        · exact hReleased hFits
        · exact hHeld _ hFits (Or.inl rfl)

theorem TimerStep.detached {i : Fin m} (step : TimerStep s label t)
    (hLabel : label ≠ .detachEvent i) (hPhase : (t.device i).phase = .detached) :
    (s.device i).phase = .detached := by
  cases step with
  | enter | exit | collect | advance | finish | stopTimer => exact hPhase
  | release j hLoc =>
      rw [device_setDevice] at hPhase
      split_ifs at hPhase with hSame
      · rw [hSame]
        exact hPhase
      · exact hPhase
  | nextSlot j hBefore | slotReturns j hBefore =>
      rw [device_setDevice] at hPhase
      split_ifs at hPhase with hSame
      exact hPhase
  | detachEvent j hBefore =>
      rw [device_setDevice, if_neg] at hPhase
      · exact hPhase
      · rintro rfl
        exact hLabel rfl

/-- Only the timer changes the time. -/
theorem TimerStep.time_eq (step : TimerStep s label t) (hLabel : label ≠ .timer) :
    t.time = s.time := by
  cases step with
  | enter | exit | collect | advance | release | finish => exact absurd rfl hLabel
  | nextSlot | slotReturns | detachEvent | stopTimer => rfl

end Timer

end Btlos
