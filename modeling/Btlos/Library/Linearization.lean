import Btlos.Library.Transition

/-! Calls that overlap, and the same calls one after the other. A call takes effect in one of
its steps. From there to the step in which it returns its party has the answer pending. -/
namespace Transition

section Answers

variable {Party Answer : Type*} [DecidableEq Party]

/-- The answers that a party gets. -/
def answersOf (party : Party) (calls : List (Party × Answer)) : List Answer :=
  calls.filterMap fun call => if call.1 = party then some call.2 else none

variable {party : Party} {calls more : List (Party × Answer)}

@[simp] theorem answersOf_nil : answersOf party ([] : List (Party × Answer)) = [] := rfl

@[simp] theorem answersOf_append :
    answersOf party (calls ++ more) = answersOf party calls ++ answersOf party more :=
  List.filterMap_append

/-- Where one party makes all calls. -/
theorem answersOf_map (party other : Party) (answers : List Answer) :
    answersOf party (answers.map fun answer => (other, answer)) =
      if party = other then answers else [] := by
  rw [answersOf, List.filterMap_map]
  split_ifs with hSame
  · simp only [Function.comp_def, hSame, if_true, List.filterMap_some]
  · exact List.filterMap_eq_nil_iff.mpr fun _ _ => if_neg (Ne.symm hSame)

end Answers

variable {State Label Abstract Party Answer : Type*} [DecidableEq Party]
  {step : State → Label → State → Prop} {whole : Abstract → Party × Answer → Abstract → Prop}
  {start finish : State} {abstract : Abstract} {labels : List Label}

/-- Where each step either takes effect as a whole call or leaves what the abstract state shows,
and a party returns the answer it has pending, a run amounts to whole calls in which each party
gets its answers in order. -/
theorem Runs.linearize (returns? : Label → Option (Party × Answer))
    (pending : State → Party → List Answer) (related : State → Abstract → Prop)
    (run : Runs step start labels finish) (hStart : related start abstract)
    (hStep : ∀ s label t abstract, related s abstract → step s label t →
      ∃ calls abstract', Runs whole abstract calls abstract' ∧ related t abstract' ∧
        ∀ party, pending s party ++ answersOf party calls =
          answersOf party (returns? label).toList ++ pending t party) :
    ∃ calls abstract', Runs whole abstract calls abstract' ∧ related finish abstract' ∧
      ∀ party, pending start party ++ answersOf party calls =
        answersOf party (labels.filterMap returns?) ++ pending finish party := by
  induction run with
  | nil => exact ⟨[], abstract, Runs.nil, hStart, fun party => by simp⟩
  | @snoc labels label middle finish prior last ih =>
      obtain ⟨calls, abstract', hCalls, hMiddle, hOrder⟩ := ih
      obtain ⟨more, abstract'', hMore, hFinish, hLast⟩ := hStep _ _ _ _ hMiddle last
      refine ⟨calls ++ more, abstract'', hCalls.trans hMore, hFinish, fun party => ?_⟩
      have hReturns : [label].filterMap returns? = (returns? label).toList := by
        cases h : returns? label <;> simp [h]
      rw [answersOf_append, ← List.append_assoc, hOrder, List.append_assoc, hLast,
        List.filterMap_append, hReturns, answersOf_append, List.append_assoc]

end Transition
