import Mathlib.Data.Int.GCD
import Mathlib.Tactic.LinearCombination
import Mathlib.Tactic.Ring

/-! Walks around a ring of numbered positions, all steps of one length. The
highest position that a walk gets to is found with the greatest common divisor
of the length of a step and the size of the ring. -/
namespace RingWalk

/-- The position after a number of steps. -/
def position (size step start : Int) (n : Nat) : Int := (start + n * step) % size

/-- The highest position that a walk from `start` gets to. -/
def highest (size step start : Int) : Int :=
  size - Int.gcd step size + start % Int.gcd step size

variable {size step start : Int}

theorem position_one : position size step start 1 = (start + step) % size := by
  simp [position]

/-- The first step may be taken off the walk. -/
theorem position_succ (n : Nat) :
    position size step start (n + 1) = position size step ((start + step) % size) n := by
  have hSum : start + ((n + 1 : Nat) : Int) * step = start + step + n * step := by
    push_cast
    ring
  rw [position, position, hSum, Int.emod_add_emod]

/-- The walk stays in one class of positions. -/
theorem position_emod_gcd (n : Nat) :
    position size step start n % Int.gcd step size = start % Int.gcd step size := by
  have hSize : (Int.gcd step size : Int) ∣ size := Int.gcd_dvd_right step size
  have hStep : (Int.gcd step size : Int) ∣ n * step :=
    (Int.gcd_dvd_left step size).mul_left _
  rw [position, Int.emod_emod_of_dvd _ hSize, Int.add_emod, Int.emod_eq_zero_of_dvd hStep,
    Int.add_zero, Int.emod_emod_of_dvd _ (dvd_refl _)]

theorem position_le_highest (hSize : 0 < size) (n : Nat) :
    position size step start n ≤ highest size step start := by
  have hPos : 0 < (Int.gcd step size : Int) := by
    exact_mod_cast Int.gcd_pos_of_ne_zero_right step hSize.ne'
  have hClass : position size step start n % Int.gcd step size = start % Int.gcd step size :=
    position_emod_gcd n
  have hDvd : (Int.gcd step size : Int) ∣ size := Int.gcd_dvd_right step size
  have hBelow : position size step start n < size := Int.emod_lt_of_pos _ hSize
  rw [highest, ← hClass]
  generalize (Int.gcd step size : Int) = g at hPos hDvd ⊢
  generalize position size step start n = y at hBelow ⊢
  obtain ⟨k, rfl⟩ := hDvd
  have hSplit := Int.mul_ediv_add_emod y g
  have hDiv : y / g ≤ k - 1 := by
    have := Int.ediv_lt_of_lt_mul hPos (show y < k * g by rwa [mul_comm])
    omega
  have hTimes : g * (y / g) ≤ g * (k - 1) := mul_le_mul_of_nonneg_left hDiv hPos.le
  rw [mul_sub, mul_one] at hTimes
  omega

/-- The highest position is reached, also by a walk that has to take a step. -/
theorem exists_position_eq_highest (hSize : 0 < size) :
    ∃ n, position size step start (n + 1) = highest size step start := by
  have hPos : 0 < (Int.gcd step size : Int) := by
    exact_mod_cast Int.gcd_pos_of_ne_zero_right step hSize.ne'
  have hLe : (Int.gcd step size : Int) ≤ size :=
    Int.le_of_dvd hSize (Int.gcd_dvd_right step size)
  have hBezout := Int.gcd_eq_gcd_ab step size
  rw [highest]
  generalize (Int.gcd step size : Int) = g at hPos hLe hBezout ⊢
  generalize Int.gcdA step size = a at hBezout
  generalize Int.gcdB step size = b at hBezout
  have hStart := Int.mul_ediv_add_emod start g
  have hLow := Int.emod_nonneg start hPos.ne'
  have hHigh := Int.emod_lt_of_pos start hPos
  -- as many steps as Bézout's identity says, shifted to a positive number
  let c := -(a * (1 + start / g))
  have hSteps := Int.emod_nonneg c hSize.ne'
  have hShift := Int.mul_ediv_add_emod c size
  refine ⟨(c % size + size - 1).toNat, ?_⟩
  have hCast : (((c % size + size - 1).toNat + 1 : Nat) : Int) = c % size + size := by omega
  have hWalk : start + (c % size + size) * step = (size - g + start % g) +
      size * (b * (1 + start / g) - 1 + (1 - c / size) * step) := by
    linear_combination (-(1 : Int)) * hStart + step * hShift + (1 + start / g) * hBezout
  rw [position, hCast, hWalk, Int.add_mul_emod_self_left]
  exact Int.emod_eq_of_lt (by omega) (by omega)

/-- A walk gets to a bound or beyond exactly when the highest position does. -/
theorem exists_le_position_iff (hSize : 0 < size) (bound : Int) :
    (∃ n, bound ≤ position size step start (n + 1)) ↔ bound ≤ highest size step start := by
  constructor
  · rintro ⟨n, hn⟩
    exact hn.trans (position_le_highest hSize _)
  · intro hBound
    obtain ⟨n, hn⟩ : ∃ n, position size step start (n + 1) = highest size step start :=
      exists_position_eq_highest hSize
    exact ⟨n, hn ▸ hBound⟩

end RingWalk
