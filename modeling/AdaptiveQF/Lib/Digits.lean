import Mathlib.Data.List.Lex
import Mathlib.Data.Nat.Digits.Lemmas
import Mathlib.Tactic.Ring

/-! The lowest digits of a number in a base that is a power of two, and packing
them back with shifts. -/
namespace Digits

def low (w n x : Nat) : List Nat := (List.range n).map fun i => x / 2^(w*i) % 2^w

def number (w : Nat) (l : List Nat) : Nat := Nat.ofDigits (2^w) l

variable {w n x : Nat}

@[simp] theorem length_low (w n x : Nat) : (low w n x).length = n := by simp [low]

theorem low_succ (w n x : Nat) : low w (n+1) x = low w n x ++ [x / 2^(w*n) % 2^w] := by
  simp [low, List.range_succ]

theorem low_cons : low w (n+1) x = x % 2^w :: low w n (x / 2^w) := by
  simp only [low, List.range_succ_eq_map, List.map_cons, List.map_map, Nat.mul_zero, pow_zero,
    Nat.div_one, List.cons.injEq, true_and, List.map_inj_left, Function.comp_apply]
  intro i _
  have hp : w*(i+1) = w + w*i := by ring
  rw [hp, pow_add, Nat.div_div_eq_div_mul]

theorem lt_of_mem_low {v : Nat} (h : v ∈ low w n x) : v < 2^w := by
  simp only [low, List.mem_map] at h
  obtain ⟨i, _, rfl⟩ := h
  exact Nat.mod_lt _ (Nat.two_pow_pos w)

theorem take_low {m : Nat} (h : m ≤ n) : (low w n x).take m = low w m x := by
  simp [low, ← List.map_take, List.take_range, Nat.min_eq_left h]

theorem number_concat (w : Nat) (l : List Nat) (v : Nat) :
    number w (l ++ [v]) = number w l + v * 2^(w*l.length) := by
  rw [number, Nat.ofDigits_append, Nat.ofDigits_singleton, ← pow_mul, number, Nat.mul_comm v]

theorem number_lt (hw : 0 < w) {l : List Nat} (h : ∀ v ∈ l, v < 2^w) :
    number w l < 2^(w*l.length) := by
  rw [pow_mul]
  exact Nat.ofDigits_lt_base_pow_length (Nat.one_lt_two_pow (by omega)) h

theorem number_low (w n x : Nat) : number w (low w n x) = x % 2^(w*n) := by
  induction n with
  | zero => simp [low, number, Nat.mod_one]
  | succ n ih =>
    have hp : w*(n+1) = w*n + w := by ring
    rw [low_succ, number_concat, ih, length_low, hp, pow_add, Nat.mod_mul]
    ring

theorem number_inj (hw : 0 < w) {l1 l2 : List Nat} (hl : l1.length = l2.length)
    (h1 : ∀ v ∈ l1, v < 2^w) (h2 : ∀ v ∈ l2, v < 2^w) (h : number w l1 = number w l2) :
    l1 = l2 :=
  Nat.ofDigits_inj_of_len_eq (Nat.one_lt_two_pow (by omega)) hl h1 h2 h

theorem eq_low_iff (hw : 0 < w) {l : List Nat} (h : ∀ v ∈ l, v < 2^w) :
    x % 2^(w*l.length) = number w l ↔ l = low w l.length x := by
  constructor
  · intro he
    apply number_inj hw (by simp) h fun v hv => lt_of_mem_low hv
    rw [number_low, he]
  · intro he
    rw [← number_low, ← he]

theorem low_eq_iff {y : Nat} : low w n x = low w n y ↔ x % 2^(w*n) = y % 2^(w*n) := by
  constructor
  · intro h
    rw [← number_low, ← number_low, h]
  · intro h
    rcases Nat.eq_zero_or_pos w with rfl | hw
    · simp [low, Nat.mod_one]
    · apply number_inj hw (by simp) (fun v hv => lt_of_mem_low hv) fun v hv => lt_of_mem_low hv
      rw [number_low, number_low, h]

theorem low_mono {m y : Nat} (hm : m ≤ n) (h : low w n x = low w n y) :
    low w m x = low w m y := by
  rw [← take_low hm, ← take_low hm, h]

theorem low_zero_le (w n x : Nat) : low w n 0 ≤ low w n x := by
  induction n generalizing x with
  | zero => simp [low]
  | succ n ih =>
    rw [low_cons, low_cons, Nat.zero_mod, Nat.zero_div]
    rcases Nat.eq_zero_or_pos (x % 2^w) with h | h
    · rw [h]
      exact List.cons_le_cons 0 (ih _)
    · exact (List.cons_lt_cons_iff.mpr (.inl h)).le

theorem low_inj {y : Nat} (hx : x < 2^(w*n)) (hy : y < 2^(w*n)) (h : low w n x = low w n y) :
    x = y := by
  rwa [low_eq_iff, Nat.mod_eq_of_lt hx, Nat.mod_eq_of_lt hy] at h

theorem low_zero_lt (hx : x < 2^(w*n)) (h : x ≠ 0) : low w n 0 < low w n x :=
  lt_of_le_of_ne (low_zero_le w n x) fun he => h (low_inj (by positivity) hx he).symm

theorem low_append_digits (hw : 0 < w) (h : n ≤ (Nat.digits (2^w) x).length) :
    low w n x ++ Nat.digits (2^w) (x / 2^(w*n)) = Nat.digits (2^w) x := by
  have hbase : 1 < 2^w := Nat.one_lt_two_pow (by omega)
  induction n generalizing x with
  | zero => simp [low]
  | succ n ih =>
    have hpos : 0 < x := by
      by_contra hx
      obtain rfl : x = 0 := by omega
      simp at h
    have hdigits := Nat.digits_def' hbase hpos
    have hpow : 2^(w*(n+1)) = 2^w * 2^(w*n) := by
      rw [← pow_add]
      congr 1
      ring
    rw [hdigits, List.length_cons] at h
    rw [low_cons, hpow, ← Nat.div_div_eq_div_mul, List.cons_append, ih (by omega), hdigits]

theorem or_shiftLeft {a b k : Nat} (h : a < 2^k) : a ||| b <<< k = a + b * 2^k := by
  rw [Nat.or_comm, ← Nat.shiftLeft_add_eq_or_of_lt h, Nat.shiftLeft_eq, Nat.add_comm]

def reversed (n x : Nat) : Nat := number 1 (low 1 n x).reverse

theorem reversed_zero_right (n : Nat) : reversed n 0 = 0 := by
  induction n with
  | zero => rfl
  | succ n ih =>
    rw [reversed, low_cons, List.reverse_cons, number_concat, Nat.zero_mod, Nat.zero_div,
      ← reversed, ih, Nat.zero_mul]

theorem reversed_succ (n x : Nat) : reversed (n+1) x = reversed n (x/2) + x % 2 * 2^n := by
  rw [reversed, low_cons, List.reverse_cons, number_concat, List.length_reverse, length_low,
    Nat.one_mul, pow_one]
  rfl

theorem reversed_lt (n x : Nat) : reversed n x < 2^n := by
  have hlt := @number_lt 1 (by omega) (low 1 n x).reverse fun v hv =>
    lt_of_mem_low (List.mem_reverse.mp hv)
  rwa [List.length_reverse, length_low, Nat.one_mul] at hlt

end Digits
