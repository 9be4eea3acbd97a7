import Btlos.Library.Transition
import Mathlib.Logic.Function.Basic

/-! A barrier that opens in rounds. A party arrives when it is through with a
round and departs into the next one when the barrier has opened; it may leave
for good instead of arriving. -/
namespace Barrier

open Transition

variable {Party : Type*}

@[ext]
structure State (Party : Type*) where
  round : Nat
  arrivals : Party → Nat
  departures : Party → Nat
  left : Party → Prop

def State.initial : State Party := ⟨0, fun _ => 0, fun _ => 0, fun _ => False⟩

/-- The party is inside a round, between a departure and the next arrival. -/
def State.Inside (s : State Party) (party : Party) : Prop :=
  ¬ s.left party ∧ s.arrivals party = s.departures party

inductive Event (Party : Type*) where
  | arrive (party : Party)
  | open
  | depart (party : Party)
  | leave (party : Party)

variable [DecidableEq Party]

inductive Step : State Party → Event Party → State Party → Prop where
  | arrive {s : State Party} (party : Party) (hInside : s.Inside party) :
      Step s (.arrive party)
        { s with arrivals := Function.update s.arrivals party (s.arrivals party + 1) }
  | open {s : State Party} (hAll : ∀ party, ¬ s.left party → s.arrivals party = s.round + 1) :
      Step s .open { s with round := s.round + 1 }
  | depart {s : State Party} (party : Party) (hArrived : s.departures party < s.arrivals party)
      (hOpen : s.arrivals party ≤ s.round) :
      Step s (.depart party)
        { s with departures := Function.update s.departures party (s.departures party + 1) }
  | leave {s : State Party} (party : Party) (hInside : s.Inside party) :
      Step s (.leave party) { s with left := Function.update s.left party True }

/-- The counts of all parties stand close together. -/
structure State.Together (s : State Party) : Prop where
  arrived : ∀ party, ¬ s.left party → s.round ≤ s.arrivals party ∧ s.arrivals party ≤ s.round + 1
  departed : ∀ party, s.departures party ≤ s.round
  inside : ∀ party, ¬ s.left party →
    s.departures party ≤ s.arrivals party ∧ s.arrivals party ≤ s.departures party + 1

omit [DecidableEq Party] in
theorem together_initial : (State.initial : State Party).Together :=
  ⟨fun _ _ => ⟨Nat.le_refl 0, Nat.zero_le 1⟩, fun _ => Nat.le_refl 0,
    fun _ _ => ⟨Nat.le_refl 0, Nat.zero_le 1⟩⟩

theorem State.Together.step {s t : State Party} {event : Event Party} (h : s.Together)
    (step : Step s event t) : t.Together := by
  cases step with
  | arrive party hInside =>
      obtain ⟨hHere, hSame⟩ := hInside
      have hDeparted := h.departed party
      refine ⟨fun other hOther => ?_, h.departed, fun other hOther => ?_⟩
      · have hArrived := h.arrived other hOther
        simp only [Function.update_apply]
        split_ifs with hParty
        · subst hParty
          omega
        · exact hArrived
      · have hBoth := h.inside other hOther
        simp only [Function.update_apply]
        split_ifs with hParty
        · subst hParty
          omega
        · exact hBoth
  | «open» hAll =>
      refine ⟨fun other hOther => ?_, fun other => ?_, h.inside⟩
      · have hArrived := hAll other hOther
        simp only
        omega
      · exact Nat.le_trans (h.departed other) (Nat.le_succ _)
  | depart party hArrived hOpen =>
      refine ⟨h.arrived, fun other => ?_, fun other hOther => ?_⟩
      · have hDeparted := h.departed other
        simp only [Function.update_apply]
        split_ifs with hParty
        · subst hParty
          omega
        · exact hDeparted
      · have hBoth := h.inside other hOther
        simp only [Function.update_apply]
        split_ifs with hParty
        · subst hParty
          omega
        · exact hBoth
  | leave party hInside =>
      have hStays : ∀ other, ¬ Function.update s.left party True other → ¬ s.left other := by
        intro other hOther
        rw [Function.update_apply] at hOther
        split_ifs at hOther
        · exact False.elim (hOther trivial)
        · exact hOther
      exact ⟨fun other hOther => h.arrived other (hStays other hOther), h.departed,
        fun other hOther => h.inside other (hStays other hOther)⟩

omit [DecidableEq Party] in
/-- A party inside a round is in the current one. -/
theorem State.Together.round_eq {s : State Party} (h : s.Together) {party : Party}
    (hInside : s.Inside party) : s.round = s.departures party := by
  obtain ⟨hHere, hSame⟩ := hInside
  have hArrived := h.arrived party hHere
  have hDeparted := h.departed party
  omega

/-- The barrier does not open while a party is inside. -/
theorem State.Together.round_step {s t : State Party} {event : Event Party} (h : s.Together)
    {party : Party} (hInside : s.Inside party) (step : Step s event t) : t.round = s.round := by
  cases step with
  | arrive | depart | leave => rfl
  | «open» hAll =>
      obtain ⟨hHere, hSame⟩ := hInside
      have hArrived := hAll party hHere
      have hDeparted := h.departed party
      omega

omit [DecidableEq Party] in
/-- Nobody departs more often than everyone has arrived. -/
theorem State.Together.departures_le {s : State Party} (h : s.Together) (party : Party)
    {other : Party} (hOther : ¬ s.left other) : s.departures party ≤ s.arrivals other :=
  Nat.le_trans (h.departed party) (h.arrived other hOther).1

omit [DecidableEq Party] in
theorem State.Together.arrivals_le {s : State Party} (h : s.Together) {party other : Party}
    (hParty : ¬ s.left party) (hOther : ¬ s.left other) :
    s.arrivals party ≤ s.arrivals other + 1 := by
  have hFirst := h.arrived party hParty
  have hSecond := h.arrived other hOther
  omega

omit [DecidableEq Party] in
theorem State.Together.departures_le_succ {s : State Party} (h : s.Together) (party : Party)
    {other : Party} (hOther : ¬ s.left other) : s.departures party ≤ s.departures other + 1 := by
  have hFirst := h.departures_le party hOther
  have hSecond := h.inside other hOther
  omega

end Barrier
