import Mathlib.Data.List.Find
import Mathlib.Data.Nat.Count
import Mathlib.Tactic.Linarith

/-! 64-bit words: masks, shifts, rank and select, as the macros and inline functions at the top of
gqf.c compute them in the build with `make D=1`, where `__SSE4_2_` is defined and assertions are
on. -/
namespace AdaptiveQF

/- A shift count of 64 or more is undefined in C. Both shifts take the count
   modulo 64, which is what the x86-64 instructions do. -/
def shl64 (x n : Nat) : Nat := (x <<< (n % 64)) % 2^64
def shr64 (x n : Nat) : Nat := x >>> (n % 64)

def bitmask (nbits : Nat) : Nat := if nbits = 64 then 2^64 - 1 else shl64 1 nbits - 1

def add64 (x y : Nat) : Nat := (x + y) % 2^64
def sub64 (x y : Nat) : Nat := (x + (2^64 - y % 2^64)) % 2^64

def intMax : Nat := 2^31 - 1

def toInt (x : Nat) : Int := (BitVec.ofNat 32 x).toInt

def popcnt (val : BitVec 64) : Nat := Nat.count (fun k => val.getLsbD k = true) 64

def popcntv (val : BitVec 64) (ignore : Nat) : Nat :=
  if ignore % 64 ≠ 0 then popcnt (val &&& ~~~(BitVec.ofNat 64 (bitmask (ignore % 64))))
  else popcnt val

def bitrank (val : BitVec 64) (pos : Nat) : Nat :=
  popcnt (val &&& ((BitVec.ofNat 64 2 <<< pos) - 1#64))

def pdep (val mask : BitVec 64) : BitVec 64 :=
  (BitVec.ofBoolListLE ((List.range 64).map fun k =>
    mask.getLsbD k && val.getLsbD (Nat.count (fun i => mask.getLsbD i = true) k))).setWidth 64

def tzcnt (val : BitVec 64) : Nat := ((List.range 64).find? fun k => val.getLsbD k).getD 64

def bitselect (val : BitVec 64) (rank : Nat) : Nat :=
  tzcnt (pdep (BitVec.ofNat 64 (shl64 1 rank)) val)

/-- The position of the `rank`'th one (from 0), 64 if there are fewer. -/
def selectOne (val : BitVec 64) (rank : Nat) : Nat :=
  ((List.range 64).find? fun k =>
    val.getLsbD k && Nat.count (fun i => val.getLsbD i = true) k == rank).getD 64

def bitselectv (val : BitVec 64) (ignore rank : Nat) : Nat :=
  bitselect (val &&& ~~~(BitVec.ofNat 64 (bitmask (ignore % 64)))) rank

theorem bitmask_eq {n : Nat} (h : n ≤ 64) : bitmask n = 2^n - 1 := by
  unfold bitmask shl64
  split
  · next hn => rw [hn]
  · next hn =>
    have hlt : 2^n < 2^64 := Nat.pow_lt_pow_right (by omega) (by omega)
    rw [Nat.mod_eq_of_lt (by omega : n < 64), Nat.one_shiftLeft, Nat.mod_eq_of_lt hlt]

theorem and_bitmask (x : Nat) {n : Nat} (h : n ≤ 64) : x &&& bitmask n = x % 2^n := by
  rw [bitmask_eq h, Nat.and_two_pow_sub_one_eq_mod]

theorem shr64_eq (x : Nat) {n : Nat} (h : n < 64) : shr64 x n = x / 2^n := by
  rw [shr64, Nat.mod_eq_of_lt h, Nat.shiftRight_eq_div_pow]

theorem shl64_eq {x n : Nat} (h : n < 64) (hx : x * 2^n < 2^64) : shl64 x n = x * 2^n := by
  rw [shl64, Nat.mod_eq_of_lt h, Nat.shiftLeft_eq, Nat.mod_eq_of_lt hx]

theorem toInt_of_lt {c : Nat} (h : c < 2^31) : toInt c = c := by
  unfold toInt
  rw [BitVec.toInt_eq_toNat_of_lt] <;> rw [BitVec.toNat_ofNat] <;> omega

theorem toInt_eq_iff {c : Nat} : toInt c = c ↔ c < 2^31 := by
  refine ⟨fun h => ?_, toInt_of_lt⟩
  have hlt : toInt c < 2^31 := BitVec.toInt_lt
  omega

theorem getLsbD_bitmask {n k : Nat} (hn : n ≤ 64) (hk : k < 64) :
    (BitVec.ofNat 64 (bitmask n)).getLsbD k = decide (k < n) := by
  rw [bitmask_eq hn, BitVec.getLsbD_ofNat, Nat.testBit_two_pow_sub_one]
  simp [hk]

theorem getLsbD_rankMask {pos k : Nat} (hp : pos < 64) (hk : k < 64) :
    ((BitVec.ofNat 64 2 <<< pos) - 1#64).getLsbD k = decide (k ≤ pos) := by
  have hm : (BitVec.ofNat 64 2 <<< pos) - 1#64 = BitVec.ofNat 64 (2^(pos+1) - 1) := by
    apply BitVec.eq_of_toNat_eq
    have h1 : 2^(pos+1) ≤ 2^64 := Nat.pow_le_pow_right (by omega) (by omega)
    have h2 : 0 < 2^pos := Nat.two_pow_pos pos
    rw [Nat.pow_succ] at *
    simp only [BitVec.toNat_sub, BitVec.toNat_shiftLeft, BitVec.toNat_ofNat, Nat.shiftLeft_eq]
    omega
  rw [hm, BitVec.getLsbD_ofNat, Nat.testBit_two_pow_sub_one]
  simp only [hk, decide_true, Bool.true_and, decide_eq_decide]
  omega

/-- A word as the window of a bit sequence that starts at `p`, cut to the bits from `i` to `j`. -/
theorem count_window {f : Nat → Bool} {p i j : Nat} {val : BitVec 64}
    (hf : ∀ k, k < 64 → val.getLsbD k = (f (p + k) && decide (i ≤ k) && decide (k < j)))
    (hij : i ≤ j) {n : Nat} (hn : n ≤ 64) :
    Nat.count (fun s => f s = true) (p + i) + Nat.count (fun k => val.getLsbD k = true) n =
      Nat.count (fun s => f s = true) (p + max i (min n j)) := by
  induction n with
  | zero => simp
  | succ n ih =>
    have ih := ih (by omega)
    rw [Nat.count_succ, ← Nat.add_assoc, ih, hf n (by omega)]
    by_cases h1 : i ≤ n
    · by_cases h2 : n < j
      · have e1 : max i (min n j) = n := by omega
        have e2 : max i (min (n+1) j) = n + 1 := by omega
        rw [e1, e2, ← Nat.add_assoc, Nat.count_succ]
        simp [h1, h2]
      · have e1 : max i (min n j) = max i (min (n+1) j) := by omega
        simp [h2, e1]
    · have e1 : max i (min n j) = max i (min (n+1) j) := by omega
      simp [h1, e1]

theorem popcnt_window {f : Nat → Bool} {p i j : Nat} (val : BitVec 64) (hij : i ≤ j) (hj : j ≤ 64)
    (hf : ∀ k, k < 64 → val.getLsbD k = (f (p + k) && decide (i ≤ k) && decide (k < j))) :
    Nat.count (fun s => f s = true) (p + i) + popcnt val =
      Nat.count (fun s => f s = true) (p + j) := by
  rw [popcnt, count_window hf hij (Nat.le_refl 64)]
  congr 2
  omega

theorem getLsbD_popcntv {val : BitVec 64} {ignore k : Nat} (hi : ignore < 64) (hk : k < 64) :
    (val &&& ~~~(BitVec.ofNat 64 (bitmask (ignore % 64)))).getLsbD k =
      (val.getLsbD k && decide (ignore ≤ k)) := by
  rw [BitVec.getLsbD_and, BitVec.getLsbD_not, getLsbD_bitmask (by omega) hk,
    Nat.mod_eq_of_lt hi]
  by_cases h : ignore ≤ k
  · simp [h, hk]
  · simp [h, hk, Nat.lt_of_not_le h]

theorem popcntv_eq {val : BitVec 64} {ignore : Nat} :
    popcntv val ignore = popcnt (val &&& ~~~(BitVec.ofNat 64 (bitmask (ignore % 64)))) := by
  unfold popcntv
  split
  · rfl
  · next h =>
    have h0 : ignore % 64 = 0 := by omega
    have hones : ~~~(BitVec.ofNat 64 (bitmask (ignore % 64))) = BitVec.allOnes 64 := by
      rw [h0]
      rfl
    rw [hones, BitVec.and_allOnes]

theorem popcntv_window {f : Nat → Bool} {p ignore : Nat} {val : BitVec 64} (hi : ignore < 64)
    (hf : ∀ k, k < 64 → val.getLsbD k = f (p + k)) :
    Nat.count (fun s => f s = true) (p + ignore) + popcntv val ignore =
      Nat.count (fun s => f s = true) (p + 64) := by
  rw [popcntv_eq]
  apply popcnt_window _ (by omega) (by omega)
  intro k hk
  rw [getLsbD_popcntv hi hk, hf k hk]
  simp [hk]

theorem bitrank_window {f : Nat → Bool} {p pos : Nat} (val : BitVec 64) (hp : pos < 64)
    (hf : ∀ k, k < 64 → val.getLsbD k = f (p + k)) :
    Nat.count (fun s => f s = true) p + bitrank val pos =
      Nat.count (fun s => f s = true) (p + pos + 1) := by
  have := popcnt_window (f := f) (p := p) (i := 0) (j := pos + 1)
    (val &&& ((BitVec.ofNat 64 2 <<< pos) - 1#64)) (by omega) (by omega)
  rw [bitrank]
  apply this
  intro k hk
  rw [BitVec.getLsbD_and, getLsbD_rankMask hp hk, hf k hk]
  simp only [Nat.zero_le, decide_true, Bool.and_true]
  congr 2
  exact propext Nat.lt_succ_iff.symm

theorem selectOne_eq {val : BitVec 64} {rank k : Nat} (hk : k < 64)
    (hb : val.getLsbD k = true) (hc : Nat.count (fun i => val.getLsbD i = true) k = rank) :
    selectOne val rank = k := by
  have hfind : ((List.range 64).find? fun k =>
      val.getLsbD k && Nat.count (fun i => val.getLsbD i = true) k == rank) = some k := by
    rw [List.find?_range_eq_some]
    refine ⟨by rw [hb, hc]; simp, by simpa using hk, ?_⟩
    intro j hj
    by_contra hcon
    simp only [Bool.not_eq_true', Bool.and_eq_false_iff, not_or, Bool.not_eq_false,
      beq_iff_eq] at hcon
    have := Nat.count_strict_mono (p := fun i => val.getLsbD i = true) hcon.1 hj
    omega
  rw [selectOne, hfind, Option.getD_some]

theorem selectOne_none {val : BitVec 64} {rank : Nat} (h : popcnt val ≤ rank) :
    selectOne val rank = 64 := by
  have hfind : ((List.range 64).find? fun k =>
      val.getLsbD k && Nat.count (fun i => val.getLsbD i = true) k == rank) = none := by
    rw [List.find?_eq_none]
    intro j hj hcon
    simp only [List.mem_range] at hj
    simp only [Bool.and_eq_true, beq_iff_eq] at hcon
    have := Nat.count_strict_mono (p := fun i => val.getLsbD i = true) hcon.1 hj
    unfold popcnt at h
    omega
  rw [selectOne, hfind, Option.getD_none]

theorem getLsbD_pdep (val mask : BitVec 64) {k : Nat} (hk : k < 64) : (pdep val mask).getLsbD k =
    (mask.getLsbD k && val.getLsbD (Nat.count (fun i => mask.getLsbD i = true) k)) := by
  rw [pdep, BitVec.getLsbD_setWidth, BitVec.getLsbD_ofBoolListLE]
  simp [hk]

theorem getLsbD_shl64_one (n : Nat) {k : Nat} (hk : k < 64) :
    (BitVec.ofNat 64 (shl64 1 n)).getLsbD k = (k == n % 64) := by
  rw [shl64, Nat.one_shiftLeft, BitVec.getLsbD_ofNat, Nat.testBit_mod_two_pow, Nat.testBit_two_pow]
  simp only [hk, decide_true, Bool.true_and]
  exact decide_eq_decide.mpr eq_comm

/-- The count of the shift is taken modulo 64. -/
theorem bitselect_eq_selectOne (val : BitVec 64) (rank : Nat) :
    bitselect val rank = selectOne val (rank % 64) := by
  have hbit : ∀ k ∈ List.range 64, (pdep (BitVec.ofNat 64 (shl64 1 rank)) val).getLsbD k =
      (val.getLsbD k && Nat.count (fun i => val.getLsbD i = true) k == rank % 64) := by
    intro k hk
    have hk := List.mem_range.mp hk
    rw [getLsbD_pdep _ _ hk, getLsbD_shl64_one _ ((Nat.count_le _).trans_lt hk)]
  rw [bitselect, tzcnt, selectOne, List.find?_congr hbit]

theorem bitrank_le (val : BitVec 64) (pos : Nat) : bitrank val pos ≤ 64 := Nat.count_le _

theorem bitselect_eq {val : BitVec 64} {rank k : Nat} (hk : k < 64)
    (hb : val.getLsbD k = true) (hc : Nat.count (fun i => val.getLsbD i = true) k = rank) :
    bitselect val rank = k := by
  have hle : Nat.count (fun i => val.getLsbD i = true) k ≤ k := Nat.count_le _
  rw [bitselect_eq_selectOne, Nat.mod_eq_of_lt (by omega), selectOne_eq hk hb hc]

theorem bitselect_none {val : BitVec 64} {rank : Nat} (h : popcnt val ≤ rank) (hr : rank < 64) :
    bitselect val rank = 64 := by
  rw [bitselect_eq_selectOne, Nat.mod_eq_of_lt hr, selectOne_none h]

theorem bitselectv_window {f : Nat → Bool} {p ignore rank k : Nat} {val : BitVec 64}
    (hf : ∀ k, k < 64 → val.getLsbD k = f (p + k)) (hi : ignore < 64) (hik : ignore ≤ k)
    (hk : k < 64) (hm : f (p + k) = true)
    (hc : Nat.count (fun s => f s = true) (p + k) =
      Nat.count (fun s => f s = true) (p + ignore) + rank) :
    bitselectv val ignore rank = k := by
  have hw : ∀ k, k < 64 → (val &&& ~~~(BitVec.ofNat 64 (bitmask (ignore % 64)))).getLsbD k =
      (f (p + k) && decide (ignore ≤ k) && decide (k < 64)) := by
    intro k hk
    rw [getLsbD_popcntv hi hk, hf k hk]
    simp [hk]
  apply bitselect_eq hk
  · rw [hw k hk, hm]
    simp [hik, hk]
  · have := count_window hw (by omega) (n := k) (by omega)
    have hmax : max ignore (min k 64) = k := by omega
    rw [hmax] at this
    omega

theorem bitselectv_none {f : Nat → Bool} {p ignore rank : Nat} {val : BitVec 64}
    (hf : ∀ k, k < 64 → val.getLsbD k = f (p + k)) (hi : ignore < 64) (hr : rank < 64)
    (hc : Nat.count (fun s => f s = true) (p + 64) ≤
      Nat.count (fun s => f s = true) (p + ignore) + rank) :
    bitselectv val ignore rank = 64 := by
  refine bitselect_none ?_ hr
  have := popcntv_window hi hf
  rw [popcntv_eq] at this
  omega

end AdaptiveQF
