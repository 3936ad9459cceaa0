import Mathlib.Algebra.BigOperators.Intervals
import Mathlib.Algebra.BigOperators.Ring.Finset
import Mathlib.Algebra.Order.BigOperators.Group.Finset
import Mathlib.Data.Int.ModEq
import Mathlib.Data.Nat.Count
import Mathlib.Tactic.Ring

/-! Words that are computed with lane by lane: numbers side by side in one word, each in as many
bits. -/
namespace Lanes
open Finset

def pack (w : Nat) (f : Nat → Nat) (n : Nat) : Nat := ∑ i ∈ range n, f i * 2^(w*i)

def ones (p : Nat → Prop) [DecidablePred p] (w i : Nat) : Nat := Nat.count (fun j => p (w*i + j)) w

variable {w n : Nat} {f g : Nat → Nat}

theorem pack_succ (w : Nat) (f : Nat → Nat) (n : Nat) :
    pack w f (n+1) = pack w f n + f n * 2^(w*n) := sum_range_succ ..

theorem pack_cons (w : Nat) (f : Nat → Nat) (n : Nat) :
    pack w f (n+1) = f 0 + 2^w * pack w (fun i => f (i+1)) n := by
  have hzero : f 0 * 2^(w*0) = f 0 := by simp
  rw [pack, sum_range_succ', hzero, Nat.add_comm, pack, mul_sum]
  congr 1
  refine sum_congr rfl fun i _ => ?_
  rw [Nat.mul_succ, pow_add]
  ring

theorem pack_congr (h : ∀ i < n, f i = g i) : pack w f n = pack w g n :=
  sum_congr rfl fun i hi => by rw [h i (mem_range.mp hi)]

theorem pack_add (w : Nat) (f g : Nat → Nat) (n : Nat) :
    pack w f n + pack w g n = pack w (fun i => f i + g i) n := by
  simp only [pack, ← sum_add_distrib, Nat.add_mul]

theorem pack_const (w c n : Nat) : c * pack w (fun _ => 1) n = pack w (fun _ => c) n := by
  simp only [pack, mul_sum, Nat.one_mul]

theorem pack_sub (h : ∀ i < n, g i ≤ f i) :
    pack w f n - pack w g n = pack w (fun i => f i - g i) n := by
  have hsum := pack_add w g (fun i => f i - g i) n
  have hall : pack w (fun i => g i + (f i - g i)) n = pack w f n :=
    pack_congr fun i hi => Nat.add_sub_of_le (h i hi)
  omega

theorem pack_le (h : ∀ i < n, f i ≤ g i) : pack w f n ≤ pack w g n :=
  sum_le_sum fun i hi => Nat.mul_le_mul_right _ (h i (mem_range.mp hi))

theorem pack_lt (h : ∀ i < n, f i < 2^w) : pack w f n < 2^(w*n) := by
  induction n with
  | zero => simp [pack]
  | succ n ih =>
    have hlow := ih fun i hi => h i (by omega)
    have hmul : (f n + 1) * 2^(w*n) ≤ 2^w * 2^(w*n) :=
      Nat.mul_le_mul_right _ (h n (Nat.lt_succ_self n))
    rw [pack_succ, Nat.mul_succ, pow_add, Nat.mul_comm (2^(w*n))]
    rw [Nat.add_mul, Nat.one_mul] at hmul
    omega

theorem pack_lane (h : ∀ i < n, f i < 2^w) {i : Nat} (hi : i < n) :
    pack w f n / 2^(w*i) % 2^w = f i := by
  induction i generalizing f n with
  | zero =>
    cases n with
    | zero => omega
    | succ n =>
      rw [pack_cons, Nat.mul_zero, pow_zero, Nat.div_one, Nat.add_mul_mod_self_left,
        Nat.mod_eq_of_lt (h 0 hi)]
  | succ i ih =>
    cases n with
    | zero => omega
    | succ n =>
      have hshift : w * (i+1) = w + w * i := by ring
      rw [hshift, pow_add, ← Nat.div_div_eq_div_mul, pack_cons,
        Nat.add_mul_div_left _ _ (Nat.two_pow_pos w), Nat.div_eq_of_lt (h 0 (Nat.succ_pos n)),
        Nat.zero_add, ih (fun j hj => h (j+1) (by omega)) (by omega)]

theorem pack_lanes (w x n : Nat) : pack w (fun i => x / 2^(w*i) % 2^w) n = x % 2^(w*n) := by
  induction n with
  | zero => simp [pack, Nat.mod_one]
  | succ n ih =>
    have hp : w*(n+1) = w*n + w := by ring
    rw [pack_succ, ih, hp, pow_add, Nat.mod_mul]
    ring

/-! Bitwise operations are done lane by lane. -/

theorem and_lane {k a b c d : Nat} (ha : a < 2^k) (hb : b < 2^k) :
    (a + 2^k*c) &&& (b + 2^k*d) = (a &&& b) + 2^k*(c &&& d) := by
  have hmod := @Nat.and_mod_two_pow (a + 2^k*c) (b + 2^k*d) k
  have hdiv := @Nat.and_div_two_pow (a + 2^k*c) (b + 2^k*d) k
  have hpos := Nat.two_pow_pos k
  simp only [Nat.add_mul_mod_self_left, Nat.mod_eq_of_lt ha, Nat.mod_eq_of_lt hb] at hmod
  simp only [Nat.add_mul_div_left _ _ hpos, Nat.div_eq_of_lt ha, Nat.div_eq_of_lt hb,
    Nat.zero_add] at hdiv
  rw [← hmod, ← hdiv, Nat.mod_add_div]

theorem or_lane {k a b c d : Nat} (ha : a < 2^k) (hb : b < 2^k) :
    (a + 2^k*c) ||| (b + 2^k*d) = (a ||| b) + 2^k*(c ||| d) := by
  have hmod := @Nat.or_mod_two_pow (a + 2^k*c) (b + 2^k*d) k
  have hdiv := @Nat.or_div_two_pow (a + 2^k*c) (b + 2^k*d) k
  have hpos := Nat.two_pow_pos k
  simp only [Nat.add_mul_mod_self_left, Nat.mod_eq_of_lt ha, Nat.mod_eq_of_lt hb] at hmod
  simp only [Nat.add_mul_div_left _ _ hpos, Nat.div_eq_of_lt ha, Nat.div_eq_of_lt hb,
    Nat.zero_add] at hdiv
  rw [← hmod, ← hdiv, Nat.mod_add_div]

theorem pack_and (hf : ∀ i < n, f i < 2^w) (hg : ∀ i < n, g i < 2^w) :
    pack w f n &&& pack w g n = pack w (fun i => f i &&& g i) n := by
  induction n generalizing f g with
  | zero => simp [pack]
  | succ n ih =>
    rw [pack_cons, pack_cons, and_lane (hf 0 (Nat.succ_pos n)) (hg 0 (Nat.succ_pos n)),
      ih (fun i hi => hf (i+1) (by omega)) (fun i hi => hg (i+1) (by omega)), pack_cons]

theorem pack_or (hf : ∀ i < n, f i < 2^w) (hg : ∀ i < n, g i < 2^w) :
    pack w f n ||| pack w g n = pack w (fun i => f i ||| g i) n := by
  induction n generalizing f g with
  | zero => simp [pack]
  | succ n ih =>
    rw [pack_cons, pack_cons, or_lane (hf 0 (Nat.succ_pos n)) (hg 0 (Nat.succ_pos n)),
      ih (fun i hi => hf (i+1) (by omega)) (fun i hi => hg (i+1) (by omega)), pack_cons]

/-! Pairs of lanes. -/

theorem pack_pairs (w : Nat) (f : Nat → Nat) (n : Nat) : pack w f (2*n) =
    pack (2*w) (fun i => f (2*i)) n + 2^w * pack (2*w) (fun i => f (2*i+1)) n := by
  induction n with
  | zero => simp [pack]
  | succ n ih =>
    have hlow : w * (2*n) = 2*w*n := by ring
    have hhigh : w * (2*n+1) = w + 2*w*n := by ring
    rw [Nat.mul_succ, pack_succ, pack_succ, ih, pack_succ, pack_succ, hlow, hhigh, pow_add]
    ring

theorem ones_pairs (p : Nat → Prop) [DecidablePred p] (w i : Nat) :
    ones p w (2*i) + ones p w (2*i+1) = ones p (2*w) i := by
  have h0 : w * (2*i) = 2*w*i := by ring
  have h1 : ∀ j, w * (2*i+1) + j = 2*w*i + (w + j) := fun j => by ring
  have hw : 2*w = w + w := by ring
  simp only [ones, h0, h1]
  conv_rhs => rw [hw]
  rw [Nat.count_add]
  simp only [← hw]

theorem pack_double {p q : Nat → Nat} (w : Nat) (hp : ∀ i < n, p i < 2^w)
    (hq : ∀ i < n, q i < 2^w) :
    pack (2*w) p n + 2^w * pack (2*w) q n = pack (2*w) (fun i => p i + 2^w * q i) n ∧
      ∀ i < n, p i + 2^w * q i < 2^(2*w) := by
  constructor
  · simp only [pack, mul_sum, ← sum_add_distrib]
    exact sum_congr rfl fun i _ => by ring
  · intro i hi
    have hmul : 2^w * (q i + 1) ≤ 2^w * 2^w := Nat.mul_le_mul_left _ (hq i hi)
    have hpow : 2^(2*w) = 2^w * 2^w := by rw [Nat.two_mul, pow_add]
    have hlt := hp i hi
    rw [Nat.mul_succ] at hmul
    omega

theorem and_lower {p q : Nat → Nat} (hp : ∀ i < n, p i < 2^w) (hq : ∀ i < n, q i < 2^w) :
    (pack (2*w) p n + 2^w * pack (2*w) q n) &&& pack (2*w) (fun _ => 2^w - 1) n =
      pack (2*w) p n := by
  obtain ⟨hsum, hlt⟩ := pack_double w hp hq
  have hmask : 2^w - 1 < 2^(2*w) :=
    (Nat.sub_lt (Nat.two_pow_pos w) Nat.one_pos).trans_le
      (Nat.pow_le_pow_right (by decide) (by omega))
  rw [hsum, pack_and hlt fun _ _ => hmask]
  refine pack_congr fun i hi => ?_
  rw [Nat.and_two_pow_sub_one_eq_mod, Nat.add_mul_mod_self_left, Nat.mod_eq_of_lt (hp i hi)]

theorem shift_lower {e o : Nat → Nat} (he : ∀ i < n, e i < 2^w) (hn : e n = 0) :
    (pack (2*w) e n + 2^w * pack (2*w) o n) / 2^w =
      pack (2*w) o n + 2^w * pack (2*w) (fun i => e (i+1)) n := by
  have hpos := Nat.two_pow_pos w
  have hzero : pack (2*w) e n = pack (2*w) e (n+1) := by
    rw [pack_succ, hn, Nat.zero_mul, Nat.add_zero]
  have hfirst : e 0 < 2^w := by
    cases n with
    | zero =>
      rw [hn]
      exact hpos
    | succ n => exact he 0 (Nat.succ_pos n)
  have hpow : 2^(2*w) = 2^w * 2^w := by rw [Nat.two_mul, pow_add]
  rw [Nat.add_mul_div_left _ _ hpos, hzero, pack_cons, hpow, Nat.mul_assoc,
    Nat.add_mul_div_left _ _ hpos, Nat.div_eq_of_lt hfirst, Nat.zero_add, Nat.add_comm]

section
variable {p : Nat → Prop} [DecidablePred p]

theorem ones_lt (p : Nat → Prop) [DecidablePred p] (w i : Nat) : ones p w i < 2^w :=
  (Nat.count_le _).trans_lt Nat.lt_two_pow_self

theorem ones_and_lower (p : Nat → Prop) [DecidablePred p] (w n : Nat) :
    pack w (ones p w) (2*n) &&& pack (2*w) (fun _ => 2^w - 1) n =
      pack (2*w) (fun i => ones p w (2*i)) n := by
  rw [pack_pairs]
  exact and_lower (fun i _ => ones_lt p w _) fun i _ => ones_lt p w _

theorem ones_shift_and_lower (h : ones p w (2*n) = 0) :
    (pack w (ones p w) (2*n) / 2^w) &&& pack (2*w) (fun _ => 2^w - 1) n =
      pack (2*w) (fun i => ones p w (2*i+1)) n := by
  rw [pack_pairs, shift_lower (fun i _ => ones_lt p w _) h]
  exact and_lower (fun i _ => ones_lt p w _) fun i _ => ones_lt p w _

theorem ones_add (p : Nat → Prop) [DecidablePred p] (w n : Nat) :
    pack (2*w) (fun i => ones p w (2*i)) n + pack (2*w) (fun i => ones p w (2*i+1)) n =
      pack (2*w) (ones p (2*w)) n := by
  rw [pack_add]
  exact pack_congr fun i _ => ones_pairs p w i

/-- The same in one addition, if the sums fit into the narrow lanes. -/
theorem ones_add_and_lower (h : ones p w (2*n) = 0) (hw : 2*w < 2^w) :
    (pack w (ones p w) (2*n) + pack w (ones p w) (2*n) / 2^w) &&& pack (2*w) (fun _ => 2^w - 1) n =
      pack (2*w) (ones p (2*w)) n := by
  have hle : ∀ i, ones p w i ≤ w := fun i => Nat.count_le _
  have hsum : pack w (ones p w) (2*n) + pack w (ones p w) (2*n) / 2^w =
      pack (2*w) (ones p (2*w)) n +
        2^w * pack (2*w) (fun i => ones p w (2*i+1) + ones p w (2*(i+1))) n := by
    rw [pack_pairs, shift_lower (fun i _ => ones_lt p w _) h, ← ones_add, ← pack_add]
    ring
  rw [hsum]
  exact and_lower (fun i _ => (Nat.count_le _).trans_lt hw) fun i _ => by
    have := hle (2*i+1)
    have := hle (2*(i+1))
    omega

theorem pack_bits (x n : Nat) : pack 1 (ones (fun j => x.testBit j = true) 1) n = x % 2^n := by
  rw [← Nat.one_mul n, ← pack_lanes, Nat.one_mul]
  refine pack_congr fun i _ => ?_
  rw [ones, Nat.count_one, Nat.add_zero, Nat.one_mul, Nat.testBit_eq_decide_div_mod_eq]
  by_cases h : x / 2^i % 2 = 1
  · simp [h]
  · have hzero : x / 2^i % 2 = 0 := by omega
    simp [hzero]

end

/-! Sums over the lanes. -/

/-- Multiplication with a one in every lane. -/
theorem mul_ones_modEq (w : Nat) (f : Nat → Nat) (n : Nat) :
    pack w f n * pack w (fun _ => 1) n ≡ pack w (fun i => ∑ j ∈ range (i+1), f j) n
      [MOD 2^(w*n)] := by
  induction n generalizing f with
  | zero => exact Nat.modEq_of_dvd (by simp)
  | succ n ih =>
    have htail := ih fun i => f (i+1)
    have hpow : 2^(w*(n+1)) = 2^w * 2^(w*n) := by
      rw [Nat.mul_succ, pow_add, Nat.mul_comm]
    have hone : pack w (fun _ => 1) (n+1) = pack w (fun _ => 1) n + 2^(w*n) := by
      rw [pack_succ, Nat.one_mul]
    have hrest : pack w (fun i => f (i+1)) n * pack w (fun _ => 1) (n+1) ≡
        pack w (fun i => ∑ j ∈ range (i+1), f (j+1)) n [MOD 2^(w*n)] := by
      rw [hone, Nat.mul_add, Nat.ModEq, Nat.add_mul_mod_self_right]
      exact htail
    have hsums : pack w (fun i => ∑ j ∈ range (i+1), f j) (n+1) = f 0 * pack w (fun _ => 1) (n+1) +
        2^w * pack w (fun i => ∑ j ∈ range (i+1), f (j+1)) n := by
      have hnext : (fun i => ∑ j ∈ range (i+1+1), f j) =
          fun i => f 0 + ∑ j ∈ range (i+1), f (j+1) := by
        funext i
        rw [sum_range_succ', Nat.add_comm]
      rw [pack_cons, pack_cons w (fun _ => 1), hnext, ← pack_add, ← pack_const, sum_range_one]
      ring
    have hprod : pack w f (n+1) * pack w (fun _ => 1) (n+1) = f 0 * pack w (fun _ => 1) (n+1) +
        2^w * (pack w (fun i => f (i+1)) n * pack w (fun _ => 1) (n+1)) := by
      rw [pack_cons w f]
      ring
    rw [hprod, hsums, hpow]
    exact (hrest.mul_left' (2^w)).add_left _

theorem mul_ones {f : Nat → Nat} (h : ∀ i < n, ∑ j ∈ range (i+1), f j < 2^w) :
    pack w f n * pack w (fun _ => 1) n % 2^(w*n) = pack w (fun i => ∑ j ∈ range (i+1), f j) n :=
  Nat.mod_eq_of_modEq (mul_ones_modEq w f n) (pack_lt h)

theorem sum_ones (p : Nat → Prop) [DecidablePred p] (w n : Nat) :
    ∑ i ∈ range n, ones p w i = Nat.count p (w*n) := by
  induction n with
  | zero => simp
  | succ n ih => rw [sum_range_succ, ih, Nat.mul_succ, Nat.count_add, ones]

theorem count_pack (h : ∀ i < n, f i < 2^w) :
    Nat.count (fun j => (pack w f n).testBit j = true) (w*n) =
      ∑ i ∈ range n, Nat.count (fun j => (f i).testBit j = true) w := by
  induction n with
  | zero => simp
  | succ n ih =>
    have hlow := pack_lt fun i hi => h i (Nat.lt_succ_of_lt hi)
    have hbit : ∀ j, (pack w f (n+1)).testBit j =
        if j < w*n then (pack w f n).testBit j else (f n).testBit (j - w*n) := by
      intro j
      rw [pack_succ, Nat.add_comm, Nat.mul_comm, Nat.testBit_two_pow_mul_add _ hlow]
    rw [sum_range_succ, ← ih fun i hi => h i (Nat.lt_succ_of_lt hi), Nat.mul_succ, Nat.count_add]
    congr 1
    · rw [Nat.count_eq_card_filter_range, Nat.count_eq_card_filter_range]
      congr 1
      refine filter_congr fun j hj => ?_
      rw [hbit, if_pos (mem_range.mp hj)]
    · simp only [hbit, Nat.not_lt.mpr (Nat.le_add_right _ _), if_false, Nat.add_sub_cancel_left]

end Lanes
