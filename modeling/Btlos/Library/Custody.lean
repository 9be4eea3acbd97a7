import Mathlib.Data.Multiset.ZeroCons
import Mathlib.Logic.Function.Basic

/-! Who has a thing that only one may have: the pool, or one of the holders. A
thing can also be with nobody. -/
namespace Custody

variable {Token Holder : Type*}

/-- Everything in the pool or with a holder is alive, and in one place only. -/
structure Exclusive (alive : Token → Prop) (pool : Multiset Token) (held : Holder → Option Token) :
    Prop where
  pool_alive : ∀ token ∈ pool, alive token
  held_alive : ∀ holder token, held holder = some token → alive token
  nodup : pool.Nodup
  outside : ∀ holder token, held holder = some token → token ∉ pool
  unique : ∀ first second token, held first = some token → held second = some token →
    first = second

variable {alive alive' : Token → Prop} {pool : Multiset Token} {held : Holder → Option Token}
  {token : Token} {holder : Holder}

theorem exclusive_initial : Exclusive alive 0 (fun _ : Holder => none) where
  pool_alive := by simp
  held_alive := by simp
  nodup := Multiset.nodup_zero
  outside := by simp
  unique := by simp

theorem Exclusive.mono (h : Exclusive alive pool held)
    (hAlive : ∀ token, alive token → alive' token) :
    Exclusive alive' pool held :=
  ⟨fun t ht => hAlive t (h.pool_alive t ht), fun c t ht => hAlive t (h.held_alive c t ht),
    h.nodup, h.outside, h.unique⟩

/-- A new thing goes to the pool. -/
theorem Exclusive.add (h : Exclusive alive pool held) (hNew : ¬ alive token)
    (hGrow : ∀ t, alive t → alive' t) (hToken : alive' token) :
    Exclusive alive' (token ::ₘ pool) held := by
  refine ⟨fun t ht => ?_, fun c t ht => hGrow t (h.held_alive c t ht), ?_, fun c t ht hPool => ?_,
    h.unique⟩
  · rcases Multiset.mem_cons.mp ht with rfl | ht
    · exact hToken
    · exact hGrow t (h.pool_alive t ht)
  · exact Multiset.nodup_cons.mpr ⟨fun ht => hNew (h.pool_alive _ ht), h.nodup⟩
  · rcases Multiset.mem_cons.mp hPool with rfl | hPool
    · exact hNew (h.held_alive c _ ht)
    · exact h.outside c t ht hPool

section Update

variable [DecidableEq Holder]

private theorem held_of_update_none {other : Holder} {t : Token}
    (h : Function.update held holder none other = some t) :
    other ≠ holder ∧ held other = some t := by
  by_cases hOther : other = holder
  · subst hOther
    simp at h
  · exact ⟨hOther, by rwa [Function.update_of_ne hOther] at h⟩

/-- A holder gives up what it has. -/
theorem Exclusive.release (h : Exclusive alive pool held) (holder : Holder) :
    Exclusive alive pool (Function.update held holder none) where
  pool_alive := h.pool_alive
  held_alive c t ht := h.held_alive c t (held_of_update_none ht).2
  nodup := h.nodup
  outside c t ht := h.outside c t (held_of_update_none ht).2
  unique first second t hFirst hSecond :=
    h.unique first second t (held_of_update_none hFirst).2 (held_of_update_none hSecond).2

/-- A holder gives back what it has. -/
theorem Exclusive.giveBack (h : Exclusive alive pool held) (hHeld : held holder = some token) :
    Exclusive alive (token ::ₘ pool) (Function.update held holder none) := by
  have hReleased := h.release holder
  refine ⟨fun t ht => ?_, hReleased.held_alive, ?_, fun c t ht hPool => ?_, hReleased.unique⟩
  · rcases Multiset.mem_cons.mp ht with rfl | ht
    · exact h.held_alive holder t hHeld
    · exact h.pool_alive t ht
  · exact Multiset.nodup_cons.mpr ⟨h.outside holder token hHeld, h.nodup⟩
  · obtain ⟨hOther, hOld⟩ := held_of_update_none ht
    rcases Multiset.mem_cons.mp hPool with rfl | hPool
    · exact hOther (h.unique c holder t hOld hHeld)
    · exact h.outside c t hOld hPool

/-- A holder destroys what it has. -/
theorem Exclusive.destroy (h : Exclusive alive pool held) (hHeld : held holder = some token) :
    Exclusive (fun t => alive t ∧ t ≠ token) pool (Function.update held holder none) where
  pool_alive t ht := ⟨h.pool_alive t ht, fun hEq => h.outside holder token hHeld (hEq ▸ ht)⟩
  held_alive c t ht := by
    obtain ⟨hOther, hOld⟩ := held_of_update_none ht
    exact ⟨h.held_alive c t hOld, fun hEq => hOther (h.unique c holder t hOld (hEq ▸ hHeld))⟩
  nodup := h.nodup
  outside := (h.release holder).outside
  unique := (h.release holder).unique

/-- A holder takes something from the pool, whatever it had before. -/
theorem Exclusive.take (h : Exclusive alive (token ::ₘ pool) held) (holder : Holder) :
    Exclusive alive pool (Function.update held holder (some token)) := by
  obtain ⟨hFresh, hNodup⟩ := Multiset.nodup_cons.mp h.nodup
  have hOld : ∀ c t, Function.update held holder (some token) c = some t →
      (c = holder ∧ t = token) ∨ (c ≠ holder ∧ held c = some t) := by
    intro c t ht
    by_cases hc : c = holder
    · subst hc
      exact Or.inl ⟨rfl, by simpa using ht.symm⟩
    · exact Or.inr ⟨hc, by rwa [Function.update_of_ne hc] at ht⟩
  have hElse : ∀ c, held c ≠ some token := fun c hc =>
    h.outside c token hc (Multiset.mem_cons_self token pool)
  refine ⟨fun t ht => h.pool_alive t (Multiset.mem_cons_of_mem ht), fun c t ht => ?_, hNodup,
    fun c t ht hPool => ?_, fun first second t hFirst hSecond => ?_⟩
  · rcases hOld c t ht with ⟨-, rfl⟩ | ⟨-, ht⟩
    · exact h.pool_alive t (Multiset.mem_cons_self t pool)
    · exact h.held_alive c t ht
  · rcases hOld c t ht with ⟨-, rfl⟩ | ⟨-, ht⟩
    · exact hFresh hPool
    · exact h.outside c t ht (Multiset.mem_cons_of_mem hPool)
  · rcases hOld first t hFirst with ⟨rfl, rfl⟩ | ⟨-, hFirst'⟩ <;>
      rcases hOld second t hSecond with ⟨rfl, hEq⟩ | ⟨-, hSecond'⟩
    · rfl
    · exact absurd hSecond' (hElse second)
    · exact absurd (hEq ▸ hFirst') (hElse first)
    · exact h.unique first second t hFirst' hSecond'

end Update

end Custody
