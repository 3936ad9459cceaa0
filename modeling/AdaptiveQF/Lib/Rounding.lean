import Mathlib.Data.Int.Log
import Mathlib.Data.Rat.Floor

/-! Rounding to the nearest number with `p` binary digits, and to the even one of two that are as
near. The last digit stands for `2^low` or more. -/
namespace Rounding

def toInt (x : ℚ) : ℤ :=
  if Int.fract x < 1/2 then ⌊x⌋
  else if 1/2 < Int.fract x then ⌊x⌋ + 1
  else if ⌊x⌋ % 2 = 0 then ⌊x⌋ else ⌊x⌋ + 1

variable {p : Nat} {low n : ℤ} {x y : ℚ}

theorem floor_le_toInt (x : ℚ) : ⌊x⌋ ≤ toInt x := by
  unfold toInt
  split_ifs <;> omega

theorem toInt_le_floor_add_one (x : ℚ) : toInt x ≤ ⌊x⌋ + 1 := by
  unfold toInt
  split_ifs <;> omega

theorem toInt_intCast (n : ℤ) : toInt n = n := by
  rw [toInt, Int.fract_intCast, if_pos (by norm_num), Int.floor_intCast]

theorem toInt_mono (h : x ≤ y) : toInt x ≤ toInt y := by
  by_cases hf : ⌊x⌋ = ⌊y⌋
  · have hfract : Int.fract x ≤ Int.fract y := by
      rw [Int.fract, Int.fract, hf]
      linarith
    unfold toInt
    rw [hf]
    split_ifs <;> first | omega | (exfalso; linarith)
  · have hlt : ⌊x⌋ + 1 ≤ ⌊y⌋ := lt_of_le_of_ne (Int.floor_le_floor h) hf
    exact (toInt_le_floor_add_one x).trans (hlt.trans (floor_le_toInt y))

theorem le_toInt (h : (n : ℚ) ≤ x) : n ≤ toInt x := by
  rw [← toInt_intCast n]
  exact toInt_mono h

theorem toInt_le (h : x ≤ n) : toInt x ≤ n := by
  rw [← toInt_intCast n]
  exact toInt_mono h

def lastDigit (p : Nat) (low : ℤ) (x : ℚ) : ℤ := max low (Int.log 2 x + 1 - p)

def round (p : Nat) (low : ℤ) (x : ℚ) : ℚ :=
  toInt (x / 2^lastDigit p low x) * 2^lastDigit p low x

theorem unit_pos (n : ℤ) : (0 : ℚ) < 2^n := zpow_pos two_pos n

theorem round_nonneg (h : 0 ≤ x) : 0 ≤ round p low x := by
  have hint : 0 ≤ toInt (x / 2^lastDigit p low x) :=
    le_toInt (by simpa using div_nonneg h (unit_pos _).le)
  exact mul_nonneg (Int.cast_nonneg hint) (unit_pos _).le

@[simp] theorem round_zero (p : Nat) (low : ℤ) : round p low 0 = 0 := by
  have hint := toInt_intCast 0
  rw [Int.cast_zero] at hint
  rw [round, zero_div, hint, Int.cast_zero, zero_mul]

/-- A number with `p` digits is rounded up to the next power of two at most. -/
theorem round_le (p : Nat) (low : ℤ) (x : ℚ) : round p low x ≤ 2^(lastDigit p low x + p) := by
  have hlog : x < 2^(Int.log 2 x + 1) := by
    have hlt := Int.lt_zpow_succ_log_self Nat.one_lt_two x
    exact_mod_cast hlt
  have hx : x ≤ 2^(lastDigit p low x + p) := by
    refine hlog.le.trans (zpow_le_zpow_right₀ one_le_two ?_)
    unfold lastDigit
    omega
  have hint : toInt (x / 2^lastDigit p low x) ≤ 2^p := by
    refine toInt_le ?_
    rw [div_le_iff₀ (unit_pos _)]
    rw [zpow_add₀ two_ne_zero, zpow_natCast] at hx
    push_cast
    linarith
  rw [round, zpow_add₀ two_ne_zero, zpow_natCast, mul_comm]
  refine mul_le_mul_of_nonneg_left ?_ (unit_pos _).le
  exact_mod_cast hint

theorem le_round (hp : 0 < p) (hx : 0 < x) (hlow : low < lastDigit p low x) :
    (2 : ℚ)^(lastDigit p low x + p - 1) ≤ round p low x := by
  have hlog : (2 : ℚ)^Int.log 2 x ≤ x := by
    have hle := Int.zpow_log_le_self Nat.one_lt_two hx
    exact_mod_cast hle
  have hdigit : lastDigit p low x + (p - 1 : Nat) = Int.log 2 x := by
    unfold lastDigit at hlow ⊢
    omega
  have hint : (2 : ℤ)^(p-1) ≤ toInt (x / 2^lastDigit p low x) := by
    refine le_toInt ?_
    rw [le_div_iff₀ (unit_pos _)]
    rw [← hdigit, zpow_add₀ two_ne_zero, zpow_natCast] at hlog
    push_cast
    linarith
  have hexp : lastDigit p low x + p - 1 = lastDigit p low x + (p - 1 : Nat) := by omega
  rw [round, hexp, zpow_add₀ two_ne_zero, zpow_natCast, mul_comm]
  refine mul_le_mul_of_nonneg_right ?_ (unit_pos _).le
  exact_mod_cast hint

theorem round_mono (hp : 0 < p) (hx : 0 ≤ x) (h : x ≤ y) : round p low x ≤ round p low y := by
  rcases hx.eq_or_lt with rfl | hpos
  · rw [round_zero]
    exact round_nonneg h
  have hle : lastDigit p low x ≤ lastDigit p low y := by
    have hlog := Int.log_mono_right (b := 2) hpos h
    unfold lastDigit
    omega
  rcases hle.eq_or_lt with he | hlt
  · rw [round, round, he]
    refine mul_le_mul_of_nonneg_right (Int.cast_le.mpr (toInt_mono ?_)) (unit_pos _).le
    exact div_le_div_of_nonneg_right h (unit_pos _).le
  · -- a power of two lies between them
    have hlow : low ≤ lastDigit p low x := le_max_left _ _
    calc round p low x
      _ ≤ 2^(lastDigit p low x + p) := round_le p low x
      _ ≤ 2^(lastDigit p low y + p - 1) := zpow_le_zpow_right₀ one_le_two (by omega)
      _ ≤ round p low y := le_round hp (hpos.trans_le h) (by omega)

end Rounding
