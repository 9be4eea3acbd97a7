import Mathlib.Logic.Basic

/-! Calls that work on a state and may fail, in the manner of a C function
that returns 0 or -1. A third ending stands for the calls that have no defined
result, because they never return or touch memory they do not own. -/

/-- How a call ends. A failing call returns too, and leaves a state behind. -/
inductive Outcome (State Value : Type*) where
  | ok (value : Value) (state : State)
  | fail (state : State)
  | undefined

namespace Outcome

variable {State Middle Value Result : Type*}

/-- Go on with the result of a call that succeeded. -/
def bind (call : Outcome State Value) (next : Value → State → Outcome State Result) :
    Outcome State Result :=
  match call with
  | ok value state => next value state
  | fail state => fail state
  | undefined => undefined

/-- The state a call leaves, when it returns. -/
def state? : Outcome State Value → Option State
  | ok _ state => some state
  | fail state => some state
  | undefined => none

/-- The result of a call that succeeds, and the state it leaves. -/
def ok? : Outcome State Value → Option (Value × State)
  | ok value state => some (value, state)
  | _ => none

/-- Whether the call succeeds, and the state it leaves, when it returns. -/
def code? : Outcome State Value → Option (Bool × State)
  | ok _ state => some (true, state)
  | fail state => some (false, state)
  | undefined => none

/-- Go on after a failure as after a success, as a caller does that ignores the
return code. The result is then whatever stood in its place before. -/
def ignoreCode (before : Value) : Outcome State Value → Outcome State Value
  | ok value state => ok value state
  | fail state => ok before state
  | undefined => undefined

/-- Run a call on a part of a larger state and put the part back. -/
def lift (put : Middle → State) : Outcome Middle Value → Outcome State Value
  | ok value part => ok value (put part)
  | fail part => fail (put part)
  | undefined => undefined

@[simp] theorem bind_ok (value : Value) (state : State)
    (next : Value → State → Outcome State Result) :
    (ok value state).bind next = next value state := rfl

@[simp] theorem bind_fail (state : State) (next : Value → State → Outcome State Result) :
    (fail state : Outcome State Value).bind next = fail state := rfl

@[simp] theorem bind_undefined (next : Value → State → Outcome State Result) :
    (undefined : Outcome State Value).bind next = undefined := rfl

@[simp] theorem state?_ok (value : Value) (state : State) :
    (ok value state).state? = some state := rfl

@[simp] theorem state?_fail (state : State) :
    (fail state : Outcome State Value).state? = some state := rfl

@[simp] theorem state?_undefined : (undefined : Outcome State Value).state? = none := rfl

@[simp] theorem code?_ok (value : Value) (state : State) :
    (ok value state).code? = some (true, state) := rfl

@[simp] theorem code?_fail (state : State) :
    (fail state : Outcome State Value).code? = some (false, state) := rfl

@[simp] theorem code?_undefined : (undefined : Outcome State Value).code? = none := rfl

@[simp] theorem lift_ok (put : Middle → State) (value : Value) (part : Middle) :
    (ok value part).lift put = ok value (put part) := rfl

@[simp] theorem lift_fail (put : Middle → State) (part : Middle) :
    (fail part : Outcome Middle Value).lift put = fail (put part) := rfl

@[simp] theorem lift_undefined (put : Middle → State) :
    (undefined : Outcome Middle Value).lift put = undefined := rfl

@[simp] theorem ignoreCode_ok (before value : Value) (state : State) :
    (ok value state).ignoreCode before = ok value state := rfl

@[simp] theorem ignoreCode_fail (before : Value) (state : State) :
    (fail state).ignoreCode before = ok before state := rfl

@[simp] theorem ignoreCode_undefined (before : Value) :
    (undefined : Outcome State Value).ignoreCode before = undefined := rfl

theorem ok?_eq_some {call : Outcome State Value} {value : Value} {state : State} :
    call.ok? = some (value, state) ↔ call = ok value state := by
  cases call <;> simp [ok?]

theorem code?_eq_false {call : Outcome State Value} {state : State} :
    call.code? = some (false, state) ↔ call = fail state := by
  cases call <;> simp

theorem state?_of_code? {call : Outcome State Value} {success : Bool} {state : State}
    (h : call.code? = some (success, state)) : call.state? = some state := by
  cases call with
  | ok value finish =>
      obtain ⟨-, rfl⟩ := Prod.mk.inj (Option.some.inj h)
      rfl
  | fail finish =>
      obtain ⟨-, rfl⟩ := Prod.mk.inj (Option.some.inj h)
      rfl
  | undefined => cases h

/-- A call that leaves a state has a return code. -/
theorem code?_of_state? {call : Outcome State Value} {state : State}
    (h : call.state? = some state) : ∃ success, call.code? = some (success, state) := by
  cases call with
  | ok value finish => exact ⟨true, by simpa using h⟩
  | fail finish => exact ⟨false, by simpa using h⟩
  | undefined => simp at h

theorem bind_assoc {Last : Type*} (call : Outcome State Value)
    (next : Value → State → Outcome State Result) (last : Result → State → Outcome State Last) :
    (call.bind next).bind last = call.bind fun value state => (next value state).bind last := by
  cases call <;> rfl

theorem bind_eq_ok {call : Outcome State Value} {next : Value → State → Outcome State Result}
    {result : Result} {finish : State} :
    call.bind next = ok result finish ↔
      ∃ value middle, call = ok value middle ∧ next value middle = ok result finish := by
  cases call with
  | ok value middle =>
      constructor
      · exact fun h => ⟨value, middle, rfl, h⟩
      · rintro ⟨_, _, ⟨⟩, h⟩
        exact h
  | fail middle => simp
  | undefined => simp

/-- Dropping the result of a call keeps its return code. -/
theorem code?_bind_ok (call : Outcome State Value) (result : Result) :
    (call.bind fun _ state => ok result state).code? = call.code? := by
  cases call <;> rfl

/-- A result made from the result of a call. -/
theorem state?_bind_ok (call : Outcome State Value) (result : Value → Result) :
    (call.bind fun value state => ok (result value) state).state? = call.state? := by
  cases call <;> rfl

/-- A call whose return code and final state pass a test. -/
theorem code?_of_filter {call : Outcome State Value} {test : Bool × State → Bool}
    {next : Bool × State → Result} {result : Result}
    (h : (call.code?.filter test).map next = some result) :
    ∃ success finish, call.code? = some (success, finish) ∧ test (success, finish) = true ∧
      next (success, finish) = result := by
  obtain ⟨⟨success, finish⟩, hFilter, hNext⟩ := Option.map_eq_some_iff.mp h
  obtain ⟨hCode, hTest⟩ := Option.filter_eq_some_iff.mp hFilter
  exact ⟨success, finish, hCode, hTest, hNext⟩

theorem lift_eq_ok {call : Outcome Middle Value} {put : Middle → State} {value : Value}
    {finish : State} :
    call.lift put = ok value finish ↔ ∃ part, call = ok value part ∧ put part = finish := by
  cases call <;> simp [and_assoc]

theorem state?_lift (put : Middle → State) (call : Outcome Middle Value) :
    (call.lift put).state? = call.state?.map put := by
  cases call <;> rfl

/-- Every state in which the call can return has the property. -/
def Ends (property : State → Prop) : Outcome State Value → Prop
  | ok _ state => property state
  | fail state => property state
  | undefined => True

@[simp] theorem ends_ok (property : State → Prop) (value : Value) (state : State) :
    (ok value state).Ends property ↔ property state := Iff.rfl

@[simp] theorem ends_fail (property : State → Prop) (state : State) :
    (fail state : Outcome State Value).Ends property ↔ property state := Iff.rfl

@[simp] theorem ends_undefined (property : State → Prop) :
    (undefined : Outcome State Value).Ends property := trivial

theorem ends_iff {property : State → Prop} {call : Outcome State Value} :
    call.Ends property ↔ ∀ finish, call.state? = some finish → property finish := by
  cases call <;> simp [Ends]

theorem Ends.of_code? {property : State → Prop} {call : Outcome State Value} {success : Bool}
    {finish : State} (h : call.Ends property) (hCode : call.code? = some (success, finish)) :
    property finish := by
  cases call with
  | undefined => simp at hCode
  | ok value state =>
      obtain ⟨-, rfl⟩ : true = success ∧ state = finish := by simpa using hCode
      exact h
  | fail state =>
      obtain ⟨-, rfl⟩ : false = success ∧ state = finish := by simpa using hCode
      exact h

/-- The sequencing rule: the second call is entered only from a success of
the first, and a failure of the first already ends the whole call. -/
theorem Ends.bind {property : State → Prop} {call : Outcome State Value}
    {next : Value → State → Outcome State Result} (hFirst : call.Ends property)
    (hNext : ∀ value middle, property middle → (next value middle).Ends property) :
    (call.bind next).Ends property := by
  cases call with
  | ok value state => exact hNext value state hFirst
  | fail state => exact hFirst
  | undefined => trivial

theorem Ends.lift {property : State → Prop} {put : Middle → State} {call : Outcome Middle Value}
    (h : call.Ends fun part => property (put part)) : (call.lift put).Ends property := by
  cases call <;> exact h

theorem Ends.ignoreCode {property : State → Prop} {before : Value} {call : Outcome State Value}
    (h : call.Ends property) : (call.ignoreCode before).Ends property := by
  cases call <;> exact h

theorem Ends.mono {property weaker : State → Prop} {call : Outcome State Value}
    (h : call.Ends property) (hWeaker : ∀ state, property state → weaker state) :
    call.Ends weaker := by
  cases call with
  | ok value state => exact hWeaker state h
  | fail state => exact hWeaker state h
  | undefined => trivial

/-- A call that can end in success only, or not at all. -/
def NeverFails (call : Outcome State Value) : Prop := ∀ state, call ≠ fail state

theorem neverFails_ignoreCode (before : Value) (call : Outcome State Value) :
    (call.ignoreCode before).NeverFails := by
  intro state
  cases call <;> simp

theorem NeverFails.lift {put : Middle → State} {call : Outcome Middle Value}
    (h : call.NeverFails) : (call.lift put).NeverFails := by
  intro state
  cases call with
  | ok value part => simp
  | fail part => exact absurd rfl (h part)
  | undefined => simp

theorem NeverFails.bind {call : Outcome State Value} {next : Value → State → Outcome State Result}
    (hFirst : call.NeverFails) (hNext : ∀ value middle, (next value middle).NeverFails) :
    (call.bind next).NeverFails := by
  cases call with
  | ok value middle => exact hNext value middle
  | fail state => exact absurd rfl (hFirst state)
  | undefined => simp [NeverFails]

/-- Such a call is undefined or succeeds in a state with its property. -/
theorem NeverFails.cases {property : State → Prop} {call : Outcome State Value}
    (h : call.NeverFails) (hEnds : call.Ends property) :
    call = undefined ∨ ∃ value state, call = ok value state ∧ property state := by
  cases call with
  | ok value state => exact Or.inr ⟨value, state, rfl, hEnds⟩
  | fail state => exact absurd rfl (h state)
  | undefined => exact Or.inl rfl

/-! Two calls compared -/

section Matches

variable {State' Middle' Value' Result' : Type*} {values : Value → Value' → Prop}
  {states : State → State' → Prop} {call : Outcome State Value} {call' : Outcome State' Value'}

/-- Two calls end in the same way, in states and with results that are related. -/
def Matches (values : Value → Value' → Prop) (states : State → State' → Prop) :
    Outcome State Value → Outcome State' Value' → Prop
  | ok value state, ok value' state' => values value value' ∧ states state state'
  | fail state, fail state' => states state state'
  | undefined, undefined => True
  | _, _ => False

/-- A call matches itself. -/
theorem Matches.refl {values : Value → Value → Prop} {states : State → State → Prop}
    (call : Outcome State Value) (hValues : ∀ value, values value value)
    (hStates : ∀ state, states state state) : Matches values states call call := by
  cases call with
  | ok value state => exact ⟨hValues value, hStates state⟩
  | fail state => exact hStates state
  | undefined => trivial

/-- Two calls that match go on with calls that match, or fail in related states. -/
theorem Matches.bind {results : Result → Result' → Prop}
    {next : Value → State → Outcome State Result} {next' : Value' → State' → Outcome State' Result'}
    (h : Matches values states call call')
    (hNext : ∀ value value' state state', values value value' → states state state' →
      Matches results states (next value state) (next' value' state')) :
    Matches results states (call.bind next) (call'.bind next') := by
  cases call <;> cases call' <;> first | exact h.elim | exact h | exact hNext _ _ _ _ h.1 h.2

theorem Matches.lift {put : Middle → State} {put' : Middle' → State'}
    {call : Outcome Middle Value} {call' : Outcome Middle' Value'}
    (h : Matches values (fun part part' => states (put part) (put' part')) call call') :
    Matches values states (call.lift put) (call'.lift put') := by
  cases call <;> cases call' <;> first | exact h.elim | exact h

theorem Matches.ignoreCode (h : Matches values states call call') {before : Value}
    {before' : Value'} (hBefore : values before before') :
    Matches values states (call.ignoreCode before) (call'.ignoreCode before') := by
  cases call <;> cases call' <;> first | exact h.elim | exact h | exact ⟨hBefore, h⟩

theorem Matches.mono {values' : Value → Value' → Prop} {states' : State → State' → Prop}
    (h : Matches values states call call') (hValues : ∀ value value', values value value' →
      values' value value') (hStates : ∀ state state', states state state' → states' state state') :
    Matches values' states' call call' := by
  cases call <;> cases call' <;>
    first | exact h.elim | trivial | exact hStates _ _ h | exact ⟨hValues _ _ h.1, hStates _ _ h.2⟩

/-- When one call returns, the other returns the same code. -/
theorem Matches.code? (h : Matches values states call call') {success : Bool} {finish : State}
    (hCode : call.code? = some (success, finish)) :
    ∃ finish', call'.code? = some (success, finish') ∧ states finish finish' := by
  cases call <;> cases call' <;> first | exact h.elim | skip
  · obtain ⟨rfl, rfl⟩ : true = success ∧ _ = finish := by simpa using hCode
    exact ⟨_, rfl, h.2⟩
  · obtain ⟨rfl, rfl⟩ : false = success ∧ _ = finish := by simpa using hCode
    exact ⟨_, rfl, h⟩
  · simp at hCode

end Matches

end Outcome
