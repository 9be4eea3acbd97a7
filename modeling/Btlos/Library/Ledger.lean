import Mathlib.Data.Set.Card
import Mathlib.Data.List.Nodup
import Mathlib.Logic.Function.Basic

/-! A ledger of tokens that are issued from a pool. Nothing is said about what
a token is; a holder has at most one. -/
namespace Ledger

variable {Token Holder : Type*}

/-- Every token of the domain is once in the pool or with exactly one holder,
never both and never neither. -/
structure Balanced (domain : Set Token) (pool : List Token) (held : Holder → Option Token) :
    Prop where
  nodup : pool.Nodup
  pool_mem : ∀ token ∈ pool, token ∈ domain
  held_mem : ∀ holder token, held holder = some token → token ∈ domain
  unique : ∀ first second token, held first = some token → held second = some token →
    first = second
  exclusive : ∀ holder token, held holder = some token → token ∉ pool
  complete : ∀ token ∈ domain, token ∈ pool ∨ ∃ holder, held holder = some token

variable {domain : Set Token} {pool : List Token} {held held' : Holder → Option Token}

/-- Before anything is issued the pool is the whole domain. -/
theorem balanced_initial (hNodup : pool.Nodup) :
    Balanced {token | token ∈ pool} pool (fun _ : Holder => none) where
  nodup := hNodup
  pool_mem := fun _ h => h
  held_mem := by simp
  unique := by simp
  exclusive := by simp
  complete := fun _ h => Or.inl h

/-- Issue the first token of the pool to a holder that has none. -/
theorem Balanced.issue [DecidableEq Holder] {token : Token} {holder : Holder}
    (h : Balanced domain (token :: pool) held) (hFree : held holder = none) :
    Balanced domain pool (Function.update held holder (some token)) := by
  have hFresh : ∀ other, held other ≠ some token := fun other hHeld =>
    h.exclusive other token hHeld List.mem_cons_self
  refine ⟨h.nodup.of_cons, fun t ht => h.pool_mem t (List.mem_cons_of_mem _ ht), ?_, ?_, ?_, ?_⟩
  · intro other t ht
    by_cases hOther : other = holder
    · subst hOther
      obtain rfl : token = t := by simpa using ht
      exact h.pool_mem token List.mem_cons_self
    · rw [Function.update_of_ne hOther] at ht
      exact h.held_mem other t ht
  · intro first second t hFirst hSecond
    by_cases h₁ : first = holder <;> by_cases h₂ : second = holder
    · exact h₁.trans h₂.symm
    · subst h₁
      obtain rfl : token = t := by simpa using hFirst
      rw [Function.update_of_ne h₂] at hSecond
      exact absurd hSecond (hFresh second)
    · subst h₂
      obtain rfl : token = t := by simpa using hSecond
      rw [Function.update_of_ne h₁] at hFirst
      exact absurd hFirst (hFresh first)
    · rw [Function.update_of_ne h₁] at hFirst
      rw [Function.update_of_ne h₂] at hSecond
      exact h.unique first second t hFirst hSecond
  · intro other t ht
    by_cases hOther : other = holder
    · subst hOther
      obtain rfl : token = t := by simpa using ht
      exact (List.nodup_cons.mp h.nodup).1
    · rw [Function.update_of_ne hOther] at ht
      exact fun hMem => h.exclusive other t ht (List.mem_cons_of_mem _ hMem)
  · intro t ht
    rcases h.complete t ht with hPool | ⟨other, hOther⟩
    · rcases List.mem_cons.mp hPool with rfl | hRest
      · exact Or.inr ⟨holder, by simp⟩
      · exact Or.inl hRest
    · refine Or.inr ⟨other, ?_⟩
      have hNe : other ≠ holder := by
        rintro rfl
        rw [hFree] at hOther
        exact absurd hOther (by simp)
      rw [Function.update_of_ne hNe, hOther]

/-- A holder gives up its entry while the first token of the pool is issued to
another one. The ledger stays balanced only if the first had no token to give
up, the two are different, and what is recorded is the token that was issued. -/
theorem Balanced.exchange_iff [DecidableEq Holder] {token recorded : Token}
    {giver taker : Holder} (h : Balanced domain (token :: pool) held)
    (hFree : held taker = none) :
    Balanced domain pool
        (Function.update (Function.update held taker (some recorded)) giver none) ↔
      held giver = none ∧ taker ≠ giver ∧ recorded = token := by
  have hFresh : ∀ other, held other ≠ some token := fun other hHeld =>
    h.exclusive other token hHeld List.mem_cons_self
  have hIssued : token ∉ pool := (List.nodup_cons.mp h.nodup).1
  constructor
  · intro hAfter
    -- whoever has a token afterwards is the taker, or had it before
    have hSplit : ∀ other t,
        Function.update (Function.update held taker (some recorded)) giver none other = some t →
        other ≠ giver ∧ (other = taker ∧ recorded = t ∨ held other = some t) := by
      intro other t hHeld
      by_cases hGiver : other = giver
      · simp [hGiver] at hHeld
      · rw [Function.update_of_ne hGiver] at hHeld
        by_cases hTaker : other = taker
        · subst hTaker
          exact ⟨hGiver, Or.inl ⟨rfl, by simpa using hHeld⟩⟩
        · rw [Function.update_of_ne hTaker] at hHeld
          exact ⟨hGiver, Or.inr hHeld⟩
    obtain hPool | ⟨other, hOther⟩ :=
      hAfter.complete token (h.pool_mem token List.mem_cons_self)
    · exact absurd hPool hIssued
    obtain ⟨hGiver, ⟨rfl, hRecorded⟩ | hBefore⟩ := hSplit other token hOther
    · refine ⟨?_, hGiver, hRecorded⟩
      by_contra hHas
      obtain ⟨t, ht⟩ := Option.ne_none_iff_exists'.mp hHas
      have hOut : t ∉ token :: pool := h.exclusive giver t ht
      obtain hPool | ⟨last, hLast⟩ := hAfter.complete t (h.held_mem giver t ht)
      · exact hOut (List.mem_cons_of_mem _ hPool)
      obtain ⟨hApart, ⟨-, hEq⟩ | hHeld⟩ := hSplit last t hLast
      · exact hOut (by simp [← hEq, hRecorded])
      · exact hApart (h.unique last giver t hHeld ht)
    · exact absurd hBefore (hFresh other)
  · rintro ⟨hNone, hNe, rfl⟩
    have hUpdate : Function.update (Function.update held taker (some recorded)) giver none =
        Function.update held taker (some recorded) := by
      rw [Function.update_eq_self_iff, Function.update_of_ne hNe.symm, hNone]
    rw [hUpdate]
    exact h.issue hFree

/-- A token of the domain that is neither pooled nor held is lost. -/
theorem not_balanced_of_lost {token : Token} (hDomain : token ∈ domain) (hPool : token ∉ pool)
    (hHeld : ∀ holder, held holder ≠ some token) : ¬ Balanced domain pool held := by
  intro h
  rcases h.complete token hDomain with hMem | ⟨holder, hHolder⟩
  · exact hPool hMem
  · exact hHeld holder hHolder

/-- With an empty pool there are exactly as many holders as tokens. -/
theorem Balanced.ncard_holders (h : Balanced domain [] held) :
    {holder | (held holder).isSome}.ncard = domain.ncard := by
  refine Set.ncard_congr (fun holder hSome => (held holder).get hSome) ?_ ?_ ?_
  · intro holder hSome
    exact h.held_mem holder _ (Option.some_get hSome).symm
  · intro first second hFirst hSecond hEq
    apply h.unique first second ((held first).get hFirst) (Option.some_get hFirst).symm
    rw [hEq]
    exact (Option.some_get hSecond).symm
  · intro token hToken
    obtain hMem | ⟨holder, hHolder⟩ := h.complete token hToken
    · exact absurd hMem (by simp)
    · exact ⟨holder, by simp [hHolder], by simp [hHolder]⟩

end Ledger
