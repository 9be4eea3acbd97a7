import Mathlib.Data.List.Induction

/-! Finite runs of labelled transition relations. A condition on the steps of
a run is a restriction of the relation, so that "a run whose steps all meet the
condition" is again a run. -/
namespace Transition

variable {State Label : Type*}

/-- A finite run with its labels in the order in which they were taken. -/
inductive Runs (step : State → Label → State → Prop) (start : State) :
    List Label → State → Prop where
  | nil : Runs step start [] start
  | snoc {labels : List Label} {label : Label} {middle finish : State}
      (prior : Runs step start labels middle) (last : step middle label finish) :
      Runs step start (labels ++ [label]) finish

/-- Keep only the steps taken from a state that meets the condition. -/
def Guarded (step : State → Label → State → Prop) (condition : State → Label → Prop) :
    State → Label → State → Prop :=
  fun s label t => step s label t ∧ condition s label

/-- Keep only the steps that end in a state with the property. -/
def Keeping (step : State → Label → State → Prop) (property : State → Prop) :
    State → Label → State → Prop :=
  fun s label t => step s label t ∧ property t

variable {step step' : State → Label → State → Prop} {start middle finish : State}
  {labels more : List Label}

/-- What holds at the start and survives every step holds at the end. -/
theorem Runs.invariant (property : State → Prop) (run : Runs step start labels finish)
    (hStart : property start)
    (hStep : ∀ s label t, property s → step s label t → property t) :
    property finish := by
  induction run with
  | nil => exact hStart
  | snoc prior last ih => exact hStep _ _ _ ih last

theorem Runs.mono (run : Runs step start labels finish)
    (hStep : ∀ s label t, step s label t → step' s label t) :
    Runs step' start labels finish := by
  induction run with
  | nil => exact Runs.nil
  | snoc prior last ih => exact Runs.snoc ih (hStep _ _ _ last)

theorem Runs.of_guarded {condition : State → Label → Prop}
    (run : Runs (Guarded step condition) start labels finish) :
    Runs step start labels finish :=
  run.mono fun _ _ _ h => h.1

theorem Runs.one {label : Label} (last : step start label finish) :
    Runs step start [label] finish :=
  Runs.snoc Runs.nil last

theorem Runs.eq_of_nil (run : Runs step start [] finish) : finish = start := by
  generalize hLabels : ([] : List Label) = all at run
  cases run with
  | nil => rfl
  | snoc prior last => simp at hLabels

/-- The last step of a run that has one. -/
theorem Runs.of_concat {label : Label} (run : Runs step start (labels ++ [label]) finish) :
    ∃ middle, Runs step start labels middle ∧ step middle label finish := by
  generalize hLabels : labels ++ [label] = all at run
  cases run with
  | nil => simp at hLabels
  | snoc prior last =>
      obtain ⟨rfl, hLast⟩ := List.append_inj' hLabels rfl
      obtain rfl := List.singleton_inj.mp hLast
      exact ⟨_, prior, last⟩

theorem Runs.trans (left : Runs step start labels middle)
    (right : Runs step middle more finish) :
    Runs step start (labels ++ more) finish := by
  induction right with
  | nil => simpa using left
  | snoc prior last ih =>
      rw [← List.append_assoc]
      exact Runs.snoc ih last

/-- A first step in front of a run. -/
theorem Runs.cons {label : Label} (first : step start label middle)
    (rest : Runs step middle labels finish) :
    Runs step start (label :: labels) finish :=
  (Runs.one first).trans rest

/-- Where each step is answered by one with the same label from every related state,
each run is answered too. -/
theorem Runs.simulate {Other : Type*} {otherStep : Other → Label → Other → Prop} {other : Other}
    (related : State → Other → Prop) (run : Runs step start labels finish)
    (hStart : related start other)
    (hStep : ∀ s label t s', related s s' → step s label t →
      ∃ t', otherStep s' label t' ∧ related t t') :
    ∃ finish', Runs otherStep other labels finish' ∧ related finish finish' := by
  induction run with
  | nil => exact ⟨other, Runs.nil, hStart⟩
  | snoc prior last ih =>
      obtain ⟨middle', prior', hMiddle⟩ := ih
      obtain ⟨finish', last', hFinish⟩ := hStep _ _ _ _ hMiddle last
      exact ⟨finish', Runs.snoc prior' last', hFinish⟩

/-- The same where some steps show nothing: these are answered by staying. -/
theorem Runs.simulate_shown {Other Shown : Type*} {otherStep : Other → Shown → Other → Prop}
    {other : Other} (shows? : Label → Option Shown) (related : State → Other → Prop)
    (run : Runs step start labels finish) (hStart : related start other)
    (hStep : ∀ s label t s', related s s' → step s label t →
      ∃ t', Runs otherStep s' (shows? label).toList t' ∧ related t t') :
    ∃ finish', Runs otherStep other (labels.filterMap shows?) finish' ∧
      related finish finish' := by
  induction run with
  | nil => exact ⟨other, Runs.nil, hStart⟩
  | @snoc labels label _ _ prior last ih =>
      obtain ⟨middle', prior', hMiddle⟩ := ih
      obtain ⟨finish', last', hFinish⟩ := hStep _ _ _ _ hMiddle last
      refine ⟨finish', ?_, hFinish⟩
      have hLast : [label].filterMap shows? = (shows? label).toList := by
        cases h : shows? label <;> simp [h]
      rw [List.filterMap_append, hLast]
      exact prior'.trans last'

/-- Where each step is a step of another system in the view of a state, as long as
an invariant holds, a whole run is a run of that system. -/
theorem Runs.refines {Abstract : Type*} {abstractStep : Abstract → Label → Abstract → Prop}
    (view : State → Abstract) (invariant : State → Prop) (run : Runs step start labels finish)
    (hStart : invariant start)
    (hStep : ∀ s label t, invariant s → step s label t →
      abstractStep (view s) label (view t) ∧ invariant t) :
    Runs abstractStep (view start) labels (view finish) ∧ invariant finish := by
  induction run with
  | nil => exact ⟨Runs.nil, hStart⟩
  | snoc prior last ih =>
      obtain ⟨prior', hMiddle⟩ := ih
      obtain ⟨last', hFinish⟩ := hStep _ _ _ hMiddle last
      exact ⟨Runs.snoc prior' last', hFinish⟩

/-- Steps that also belong to another relation, as long as an invariant
holds, carry a whole run over to that relation. -/
theorem Runs.strengthen (invariant : State → Prop) (run : Runs step start labels finish)
    (hStart : invariant start)
    (hStep : ∀ s label t, invariant s → step s label t → step' s label t ∧ invariant t) :
    Runs step' start labels finish ∧ invariant finish :=
  run.refines id invariant hStart hStep

/-- Two conditions that agree where an invariant holds allow the same runs. -/
theorem Runs.guarded_iff {condition condition' : State → Label → Prop} (invariant : State → Prop)
    (hStart : invariant start) (hStep : ∀ s label t, invariant s → step s label t → invariant t)
    (hIff : ∀ s label, invariant s → (condition s label ↔ condition' s label)) :
    Runs (Guarded step condition) start labels finish ↔
      Runs (Guarded step condition') start labels finish := by
  constructor
  · intro run
    refine (run.strengthen invariant hStart ?_).1
    rintro s label t hInvariant ⟨last, hCondition⟩
    exact ⟨⟨last, (hIff s label hInvariant).mp hCondition⟩, hStep s label t hInvariant last⟩
  · intro run
    refine (run.strengthen invariant hStart ?_).1
    rintro s label t hInvariant ⟨last, hCondition⟩
    exact ⟨⟨last, (hIff s label hInvariant).mpr hCondition⟩, hStep s label t hInvariant last⟩

/-- Where one step keeps the property exactly when the condition holds before
it, a whole run keeps it exactly when every one of its steps meets the
condition. The auxiliary invariant may be needed to compare single steps, and
need only survive steps that keep the property. -/
theorem Runs.keeping_iff_guarded {property : State → Prop} (invariant : State → Prop)
    {condition : State → Label → Prop}
    (hStart : property start) (hInvariant : invariant start)
    (hPreserved : ∀ s label t, invariant s → property s → step s label t → property t → invariant t)
    (hStep : ∀ s label t, invariant s → property s → step s label t →
      (property t ↔ condition s label)) :
    Runs (Keeping step property) start labels finish ↔
      Runs (Guarded step condition) start labels finish := by
  constructor
  · intro run
    refine (run.strengthen (fun s => property s ∧ invariant s)
      ⟨hStart, hInvariant⟩ ?_).1
    rintro s label t ⟨hProperty, hAux⟩ ⟨last, hFinish⟩
    exact ⟨⟨last, (hStep s label t hAux hProperty last).mp hFinish⟩, hFinish,
      hPreserved s label t hAux hProperty last hFinish⟩
  · intro run
    refine (run.strengthen (fun s => property s ∧ invariant s)
      ⟨hStart, hInvariant⟩ ?_).1
    rintro s label t ⟨hProperty, hAux⟩ ⟨last, hCondition⟩
    have hFinish := (hStep s label t hAux hProperty last).mpr hCondition
    exact ⟨⟨last, hFinish⟩, hFinish, hPreserved s label t hAux hProperty last hFinish⟩

/-- Where an event spoils every later state, a run that ends in a good state has
met no such event. -/
theorem Runs.guarded_of_good_end (spoilt : State → Prop) {event : State → Label → Prop}
    (run : Runs step start labels finish)
    (hStep : ∀ s label t, step s label t → spoilt s ∨ event s label → spoilt t)
    (hFinish : ¬ spoilt finish) :
    Runs (Guarded step fun s label => ¬ event s label) start labels finish := by
  induction run with
  | nil => exact Runs.nil
  | snoc prior last ih =>
      obtain ⟨hMiddle, hEvent⟩ := not_or.mp fun hEither => hFinish (hStep _ _ _ last hEither)
      exact Runs.snoc (ih hMiddle) ⟨last, hEvent⟩

section Since

variable {good bad : Label → Prop}

/-- A history has a good label after which there is no bad one. -/
def Since (good bad : Label → Prop) (labels : List Label) : Prop :=
  ∃ before label after, labels = before ++ label :: after ∧ good label ∧
    ∀ other ∈ after, ¬ bad other

theorem not_since_nil : ¬ Since good bad [] := by
  rintro ⟨before, label, after, hLabels, -⟩
  simp at hLabels

/-- What one more label makes of it. -/
theorem since_concat (labels : List Label) (label : Label) :
    Since good bad (labels ++ [label]) ↔ good label ∨ ¬ bad label ∧ Since good bad labels := by
  constructor
  · rintro ⟨before, found, after, hLabels, hGood, hAfter⟩
    rcases List.eq_nil_or_concat after with rfl | ⟨earlier, last, rfl⟩
    · obtain ⟨-, hLast⟩ := List.append_inj' hLabels rfl
      exact Or.inl (List.singleton_inj.mp hLast ▸ hGood)
    · rw [List.concat_eq_append] at hLabels hAfter
      rw [← List.cons_append, ← List.append_assoc] at hLabels
      obtain ⟨rfl, hLast⟩ := List.append_inj' hLabels rfl
      obtain rfl := List.singleton_inj.mp hLast
      refine Or.inr ⟨hAfter label (by simp), before, found, earlier, rfl, hGood, ?_⟩
      exact fun other hOther => hAfter other (List.mem_append_left _ hOther)
  · rintro (hGood | ⟨hBad, before, found, after, rfl, hGood, hAfter⟩)
    · exact ⟨labels, label, [], rfl, hGood, by simp⟩
    · refine ⟨before, found, after ++ [label], by simp, hGood, fun other hOther => ?_⟩
      rcases List.mem_append.mp hOther with hEarlier | hLast
      · exact hAfter other hEarlier
      · rwa [List.mem_singleton.mp hLast]

end Since

/-- Each label of a history is right for the labels before it. -/
def EachStep (right : List Label → Label → Prop) (labels : List Label) : Prop :=
  ∀ before label after, labels = before ++ label :: after → right before label

theorem eachStep_nil {right : List Label → Label → Prop} : EachStep right [] := by
  intro before label after hLabels
  simp at hLabels

theorem eachStep_concat {right : List Label → Label → Prop} (labels : List Label) (label : Label) :
    EachStep right (labels ++ [label]) ↔ EachStep right labels ∧ right labels label := by
  constructor
  · intro h
    refine ⟨fun before found after hLabels => h before found (after ++ [label]) ?_,
      h labels label [] rfl⟩
    rw [hLabels, List.append_assoc, List.cons_append]
  · rintro ⟨hEarlier, hLast⟩ before found after hLabels
    rcases List.eq_nil_or_concat after with rfl | ⟨earlier, last, rfl⟩
    · obtain ⟨rfl, hSame⟩ := List.append_inj' hLabels rfl
      exact List.singleton_inj.mp hSame ▸ hLast
    · rw [List.concat_eq_append, ← List.cons_append, ← List.append_assoc] at hLabels
      exact hEarlier before found earlier (List.append_inj' hLabels rfl).1

section Execution

variable {next : State → Label → Option State}

/-- Run a step function along a list of labels, as long as it gives a state. -/
def exec (next : State → Label → Option State) : State → List Label → Option State
  | start, [] => some start
  | start, label :: rest => (next start label).bind fun s => exec next s rest

/-- An execution of a function whose steps belong to the relation is a run. -/
theorem Runs.of_exec (h : exec next start labels = some finish)
    (hNext : ∀ s label t, next s label = some t → step s label t) :
    Runs step start labels finish := by
  induction labels generalizing start with
  | nil =>
      obtain rfl : start = finish := by simpa [exec] using h
      exact Runs.nil
  | cons label rest ih =>
      obtain ⟨middle, hFirst, hRest⟩ := Option.bind_eq_some_iff.mp h
      exact Runs.cons (hNext _ _ _ hFirst) (ih hRest)

end Execution

end Transition
