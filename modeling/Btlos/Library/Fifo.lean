import Btlos.Library.Transition

/-! A queue with a bounded number of places, as the list of those who wait, and
what its histories have in common. -/
namespace Fifo

open Transition

variable {Item : Type*}

/-- A call with its outcome: whether an item was accepted, and what was taken. -/
inductive Event (Item : Type*) where
  | insert (item : Item) (accepted : Bool)
  | take (result : Option Item)

inductive Step (capacity : Nat) : List Item → Event Item → List Item → Prop where
  | accept {waiting : List Item} (item : Item) (hRoom : waiting.length < capacity) :
      Step capacity waiting (.insert item true) (waiting ++ [item])
  | refuse {waiting : List Item} (item : Item) (hFull : capacity ≤ waiting.length) :
      Step capacity waiting (.insert item false) waiting
  | take (item : Item) (rest : List Item) :
      Step capacity (item :: rest) (.take (some item)) rest
  | idle : Step capacity [] (.take none) []

/-- What a call adds to the accepted items, and to those that have been taken. -/
def Event.gained : Event Item → List Item
  | insert item accepted => if accepted then [item] else []
  | take _ => []

def Event.given : Event Item → List Item
  | insert _ _ => []
  | take result => result.toList

def accepted (past : List (Event Item)) : List Item := past.flatMap Event.gained

def taken (past : List (Event Item)) : List Item := past.flatMap Event.given

variable {capacity : Nat} {waiting waiting' : List Item} {event : Event Item}
  {past : List (Event Item)}

theorem accepted_concat (past : List (Event Item)) (event : Event Item) :
    accepted (past ++ [event]) = accepted past ++ event.gained := by
  simp [accepted]

theorem taken_concat (past : List (Event Item)) (event : Event Item) :
    taken (past ++ [event]) = taken past ++ event.given := by
  simp [taken]

theorem Step.conserves (h : Step capacity waiting event waiting') :
    event.given ++ waiting' = waiting ++ event.gained := by
  cases h <;> simp [Event.given, Event.gained]

/-- Those taken and those who wait are the accepted ones, in the same order. -/
theorem taken_append_waiting (run : Runs (Step capacity) [] past waiting) :
    taken past ++ waiting = accepted past := by
  induction run with
  | nil => rfl
  | snoc prior last ih =>
      rw [taken_concat, accepted_concat, List.append_assoc, last.conserves, ← List.append_assoc, ih]

end Fifo
