import Mathlib.Data.ZMod.Basic
import Mathlib.Tactic.LinearCombination

/-! The steps of hash functions that can be undone: a word is xored with its own upper bits, or
multiplied with a unit. -/
namespace Mixing

section
variable {w n m : Nat} {x y : BitVec w}

theorem shiftRight_of_le (h : w ≤ n) (x : BitVec w) : x >>> n = 0#w := BitVec.ushiftRight_eq_zero h

/-- One step towards `x` from `x` xored with its upper bits: what is left is shifted further. -/
theorem xor_shift_step (x : BitVec w) (n m : Nat) :
    (x ^^^ x >>> n) ^^^ (x ^^^ x >>> m) >>> n = x ^^^ x >>> (m + n) := by
  rw [BitVec.ushiftRight_xor_distrib, ← BitVec.shiftRight_add]
  have hswap : (x ^^^ x >>> n) ^^^ (x >>> n ^^^ x >>> (m + n)) =
      x ^^^ (x >>> n ^^^ x >>> n) ^^^ x >>> (m + n) := by
    simp only [BitVec.xor_assoc]
  rw [hswap, BitVec.xor_self, BitVec.xor_zero]

theorem xor_shift_last (h : w ≤ n) (x : BitVec w) : x ^^^ x >>> n = x := by
  rw [shiftRight_of_le h, BitVec.xor_zero]

theorem xor_shift_injective (hn : 0 < n) :
    Function.Injective fun x : BitVec w => x ^^^ x >>> n := by
  intro x y h
  have hdiff : x ^^^ y = (x ^^^ y) >>> n := by
    have hxor := congrArg (fun z => z ^^^ (y ^^^ x >>> n)) h
    simp only at hxor
    rw [BitVec.ushiftRight_xor_distrib]
    have hl : (x ^^^ x >>> n) ^^^ (y ^^^ x >>> n) = x ^^^ y := by
      rw [BitVec.xor_comm y, BitVec.xor_assoc, ← BitVec.xor_assoc (x >>> n), BitVec.xor_self,
        BitVec.zero_xor]
    have hr : (y ^^^ y >>> n) ^^^ (y ^^^ x >>> n) = x >>> n ^^^ y >>> n := by
      rw [BitVec.xor_comm y (y >>> n), BitVec.xor_assoc, ← BitVec.xor_assoc y, BitVec.xor_self,
        BitVec.zero_xor, BitVec.xor_comm]
    rw [hl, hr] at hxor
    exact hxor
  -- a word that is its own shift is zero
  have hall : ∀ k, x ^^^ y = (x ^^^ y) >>> (n*k) := by
    intro k
    induction k with
    | zero => simp
    | succ k ih =>
      rw [Nat.mul_succ, BitVec.shiftRight_add, ← ih]
      exact hdiff
  have hzero := hall w
  rw [shiftRight_of_le (Nat.le_mul_of_pos_left w hn)] at hzero
  exact BitVec.xor_eq_zero_iff.mp hzero

theorem mul_injective {a b : BitVec w} (h : a * b = 1#w) :
    Function.Injective fun x : BitVec w => x * a := by
  intro x y hxy
  have hmul := congrArg (fun z => z * b) hxy
  simp only [BitVec.mul_assoc, h, BitVec.mul_one] at hmul
  exact hmul

end

/-! The lowest `k` bits as a number modulo `2^k`. -/

def low {w : Nat} (k : Nat) (x : BitVec w) : ZMod (2^k) := (x.toNat : ZMod (2^k))

section
variable {w k : Nat} {x y : BitVec w}

theorem cast_mod (hk : k ≤ w) (n : Nat) : ((n % 2^w : Nat) : ZMod (2^k)) = n := by
  rw [ZMod.natCast_eq_natCast_iff]
  exact (Nat.mod_modEq n (2^w)).of_dvd (Nat.pow_dvd_pow 2 hk)

theorem two_pow_eq_zero (k : Nat) : (2 : ZMod (2^k))^k = 0 := by
  have h := ZMod.natCast_self (2^k)
  push_cast at h
  exact h

theorem low_add (hk : k ≤ w) (x y : BitVec w) : low k (x + y) = low k x + low k y := by
  rw [low, BitVec.toNat_add, cast_mod hk, Nat.cast_add]
  rfl

theorem low_mul (hk : k ≤ w) (x y : BitVec w) : low k (x * y) = low k x * low k y := by
  rw [low, BitVec.toNat_mul, cast_mod hk, Nat.cast_mul]
  rfl

theorem low_sub (hk : k ≤ w) (x y : BitVec w) : low k (x - y) = low k x - low k y := by
  have h := low_add hk (x - y) y
  rw [BitVec.sub_add_cancel] at h
  rw [h, add_sub_cancel_right]

theorem low_not (hk : k ≤ w) (x : BitVec w) : low k (~~~x) = - low k x - 1 := by
  have h := low_add hk x (~~~x)
  have hones : low k (x + ~~~x) = -1 := by
    rw [BitVec.add_not_self, low, BitVec.toNat_allOnes, Nat.cast_sub Nat.one_le_two_pow]
    have hw := cast_mod hk (2^w)
    rw [Nat.mod_self] at hw
    rw [← hw]
    simp
  rw [hones] at h
  linear_combination -h

theorem low_shiftLeft (hk : k ≤ w) (x : BitVec w) (n : Nat) :
    low k (x <<< n) = low k x * 2^n := by
  rw [low, BitVec.toNat_shiftLeft, cast_mod hk, Nat.shiftLeft_eq, Nat.cast_mul]
  push_cast
  rfl

theorem low_mask (hk : k ≤ w) (x : BitVec w) :
    low k (x &&& BitVec.ofNat w (2^k - 1)) = low k x := by
  have hlt : 2^k - 1 < 2^w := (Nat.sub_lt (Nat.two_pow_pos k) Nat.one_pos).trans_le
    (Nat.pow_le_pow_right (by decide) hk)
  rw [low, BitVec.toNat_and, BitVec.toNat_ofNat, Nat.mod_eq_of_lt hlt,
      Nat.and_two_pow_sub_one_eq_mod,
    low, ZMod.natCast_mod]

theorem mask_lt (hk : k ≤ w) (x : BitVec w) : (x &&& BitVec.ofNat w (2^k - 1)).toNat < 2^k := by
  have hlt : 2^k - 1 < 2^w := (Nat.sub_lt (Nat.two_pow_pos k) Nat.one_pos).trans_le
    (Nat.pow_le_pow_right (by decide) hk)
  rw [BitVec.toNat_and, BitVec.toNat_ofNat, Nat.mod_eq_of_lt hlt, Nat.and_two_pow_sub_one_eq_mod]
  exact Nat.mod_lt _ (Nat.two_pow_pos k)

theorem low_inj (hx : x.toNat < 2^k) (hy : y.toNat < 2^k) (h : low k x = low k y) : x = y := by
  have hmod := (ZMod.natCast_eq_natCast_iff _ _ _).mp h
  exact BitVec.eq_of_toNat_eq (Nat.ModEq.eq_of_lt_of_lt hmod hx hy)

theorem xor_shift_lt (hx : x.toNat < 2^k) (n : Nat) : (x ^^^ x >>> n).toNat < 2^k := by
  rw [BitVec.toNat_xor, BitVec.toNat_ushiftRight]
  exact Nat.xor_lt_two_pow hx ((Nat.shiftRight_le _ _).trans_lt hx)

end

/-! A hash that takes in its input piece by piece. -/

section
variable {σ α : Type*} {f : σ → α → σ}

theorem foldl_injective (hs : ∀ a, Function.Injective fun s => f s a) (l : List α) :
    Function.Injective fun s => l.foldl f s := by
  induction l with
  | nil => exact fun _ _ h => h
  | cons a l ih => exact fun _ _ h => hs a (ih h)

/-- Inputs that differ in one place only have different results. -/
theorem foldl_one_injective (hs : ∀ a, Function.Injective fun s => f s a)
    (ha : ∀ s, Function.Injective (f s)) {l1 l2 : List α} {i : Nat} {s : σ}
    (hlen : l1.length = l2.length) (hsame : ∀ j, j ≠ i → l1[j]? = l2[j]?)
    (h : l1.foldl f s = l2.foldl f s) : l1 = l2 := by
  induction l1 generalizing l2 i s with
  | nil => exact (List.length_eq_zero_iff.mp hlen.symm).symm
  | cons a l1 ih =>
    cases l2 with
    | nil => cases hlen
    | cons b l2 =>
      rw [List.length_cons, List.length_cons, Nat.succ_inj] at hlen
      cases i with
      | zero =>
        have htail : l1 = l2 := List.ext_getElem? fun j => hsame (j+1) (Nat.succ_ne_zero j)
        subst htail
        rw [ha s (foldl_injective hs l1 h)]
      | succ i =>
        have hhead : a = b := Option.some.inj (hsame 0 (Nat.succ_ne_zero i).symm)
        subst hhead
        rw [ih hlen (fun j hj => hsame (j+1) fun he => hj (Nat.succ.inj he)) h]

end

theorem right_inverse_of_left {α : Type*} [Finite α] {f g : α → α} (h : ∀ x, g (f x) = x) (y : α) :
    f (g y) = y := by
  have hinj : Function.Injective f := Function.LeftInverse.injective h
  obtain ⟨x, rfl⟩ := Finite.surjective_of_injective hinj y
  rw [h]

end Mixing
