import AdaptiveQF.Lib.Digits
import AdaptiveQF.Lib.Lanes
import AdaptiveQF.Word

/-! The position of a one by broadword selection: `_select64`, which `bitselect` comes down to in
the build with `make NH=1`, without `__SSE4_2_`. -/
namespace AdaptiveQF
open Lanes

/-- The position of the `k / 256`th one in the byte `k % 256`, and 8 if there are fewer. -/
def kSelectInByte : List Nat := [
  8, 0, 1, 0, 2, 0, 1, 0, 3, 0, 1, 0, 2, 0, 1, 0, 4, 0, 1, 0, 2, 0, 1, 0, 3, 0, 1, 0, 2, 0, 1, 0,
  5, 0, 1, 0, 2, 0, 1, 0, 3, 0, 1, 0, 2, 0, 1, 0, 4, 0, 1, 0, 2, 0, 1, 0, 3, 0, 1, 0, 2, 0, 1, 0,
  6, 0, 1, 0, 2, 0, 1, 0, 3, 0, 1, 0, 2, 0, 1, 0, 4, 0, 1, 0, 2, 0, 1, 0, 3, 0, 1, 0, 2, 0, 1, 0,
  5, 0, 1, 0, 2, 0, 1, 0, 3, 0, 1, 0, 2, 0, 1, 0, 4, 0, 1, 0, 2, 0, 1, 0, 3, 0, 1, 0, 2, 0, 1, 0,
  7, 0, 1, 0, 2, 0, 1, 0, 3, 0, 1, 0, 2, 0, 1, 0, 4, 0, 1, 0, 2, 0, 1, 0, 3, 0, 1, 0, 2, 0, 1, 0,
  5, 0, 1, 0, 2, 0, 1, 0, 3, 0, 1, 0, 2, 0, 1, 0, 4, 0, 1, 0, 2, 0, 1, 0, 3, 0, 1, 0, 2, 0, 1, 0,
  6, 0, 1, 0, 2, 0, 1, 0, 3, 0, 1, 0, 2, 0, 1, 0, 4, 0, 1, 0, 2, 0, 1, 0, 3, 0, 1, 0, 2, 0, 1, 0,
  5, 0, 1, 0, 2, 0, 1, 0, 3, 0, 1, 0, 2, 0, 1, 0, 4, 0, 1, 0, 2, 0, 1, 0, 3, 0, 1, 0, 2, 0, 1, 0,
  8, 8, 8, 1, 8, 2, 2, 1, 8, 3, 3, 1, 3, 2, 2, 1, 8, 4, 4, 1, 4, 2, 2, 1, 4, 3, 3, 1, 3, 2, 2, 1,
  8, 5, 5, 1, 5, 2, 2, 1, 5, 3, 3, 1, 3, 2, 2, 1, 5, 4, 4, 1, 4, 2, 2, 1, 4, 3, 3, 1, 3, 2, 2, 1,
  8, 6, 6, 1, 6, 2, 2, 1, 6, 3, 3, 1, 3, 2, 2, 1, 6, 4, 4, 1, 4, 2, 2, 1, 4, 3, 3, 1, 3, 2, 2, 1,
  6, 5, 5, 1, 5, 2, 2, 1, 5, 3, 3, 1, 3, 2, 2, 1, 5, 4, 4, 1, 4, 2, 2, 1, 4, 3, 3, 1, 3, 2, 2, 1,
  8, 7, 7, 1, 7, 2, 2, 1, 7, 3, 3, 1, 3, 2, 2, 1, 7, 4, 4, 1, 4, 2, 2, 1, 4, 3, 3, 1, 3, 2, 2, 1,
  7, 5, 5, 1, 5, 2, 2, 1, 5, 3, 3, 1, 3, 2, 2, 1, 5, 4, 4, 1, 4, 2, 2, 1, 4, 3, 3, 1, 3, 2, 2, 1,
  7, 6, 6, 1, 6, 2, 2, 1, 6, 3, 3, 1, 3, 2, 2, 1, 6, 4, 4, 1, 4, 2, 2, 1, 4, 3, 3, 1, 3, 2, 2, 1,
  6, 5, 5, 1, 5, 2, 2, 1, 5, 3, 3, 1, 3, 2, 2, 1, 5, 4, 4, 1, 4, 2, 2, 1, 4, 3, 3, 1, 3, 2, 2, 1,
  8, 8, 8, 8, 8, 8, 8, 2, 8, 8, 8, 3, 8, 3, 3, 2, 8, 8, 8, 4, 8, 4, 4, 2, 8, 4, 4, 3, 4, 3, 3, 2,
  8, 8, 8, 5, 8, 5, 5, 2, 8, 5, 5, 3, 5, 3, 3, 2, 8, 5, 5, 4, 5, 4, 4, 2, 5, 4, 4, 3, 4, 3, 3, 2,
  8, 8, 8, 6, 8, 6, 6, 2, 8, 6, 6, 3, 6, 3, 3, 2, 8, 6, 6, 4, 6, 4, 4, 2, 6, 4, 4, 3, 4, 3, 3, 2,
  8, 6, 6, 5, 6, 5, 5, 2, 6, 5, 5, 3, 5, 3, 3, 2, 6, 5, 5, 4, 5, 4, 4, 2, 5, 4, 4, 3, 4, 3, 3, 2,
  8, 8, 8, 7, 8, 7, 7, 2, 8, 7, 7, 3, 7, 3, 3, 2, 8, 7, 7, 4, 7, 4, 4, 2, 7, 4, 4, 3, 4, 3, 3, 2,
  8, 7, 7, 5, 7, 5, 5, 2, 7, 5, 5, 3, 5, 3, 3, 2, 7, 5, 5, 4, 5, 4, 4, 2, 5, 4, 4, 3, 4, 3, 3, 2,
  8, 7, 7, 6, 7, 6, 6, 2, 7, 6, 6, 3, 6, 3, 3, 2, 7, 6, 6, 4, 6, 4, 4, 2, 6, 4, 4, 3, 4, 3, 3, 2,
  7, 6, 6, 5, 6, 5, 5, 2, 6, 5, 5, 3, 5, 3, 3, 2, 6, 5, 5, 4, 5, 4, 4, 2, 5, 4, 4, 3, 4, 3, 3, 2,
  8, 8, 8, 8, 8, 8, 8, 8, 8, 8, 8, 8, 8, 8, 8, 3, 8, 8, 8, 8, 8, 8, 8, 4, 8, 8, 8, 4, 8, 4, 4, 3,
  8, 8, 8, 8, 8, 8, 8, 5, 8, 8, 8, 5, 8, 5, 5, 3, 8, 8, 8, 5, 8, 5, 5, 4, 8, 5, 5, 4, 5, 4, 4, 3,
  8, 8, 8, 8, 8, 8, 8, 6, 8, 8, 8, 6, 8, 6, 6, 3, 8, 8, 8, 6, 8, 6, 6, 4, 8, 6, 6, 4, 6, 4, 4, 3,
  8, 8, 8, 6, 8, 6, 6, 5, 8, 6, 6, 5, 6, 5, 5, 3, 8, 6, 6, 5, 6, 5, 5, 4, 6, 5, 5, 4, 5, 4, 4, 3,
  8, 8, 8, 8, 8, 8, 8, 7, 8, 8, 8, 7, 8, 7, 7, 3, 8, 8, 8, 7, 8, 7, 7, 4, 8, 7, 7, 4, 7, 4, 4, 3,
  8, 8, 8, 7, 8, 7, 7, 5, 8, 7, 7, 5, 7, 5, 5, 3, 8, 7, 7, 5, 7, 5, 5, 4, 7, 5, 5, 4, 5, 4, 4, 3,
  8, 8, 8, 7, 8, 7, 7, 6, 8, 7, 7, 6, 7, 6, 6, 3, 8, 7, 7, 6, 7, 6, 6, 4, 7, 6, 6, 4, 6, 4, 4, 3,
  8, 7, 7, 6, 7, 6, 6, 5, 7, 6, 6, 5, 6, 5, 5, 3, 7, 6, 6, 5, 6, 5, 5, 4, 6, 5, 5, 4, 5, 4, 4, 3,
  8, 8, 8, 8, 8, 8, 8, 8, 8, 8, 8, 8, 8, 8, 8, 8, 8, 8, 8, 8, 8, 8, 8, 8, 8, 8, 8, 8, 8, 8, 8, 4,
  8, 8, 8, 8, 8, 8, 8, 8, 8, 8, 8, 8, 8, 8, 8, 5, 8, 8, 8, 8, 8, 8, 8, 5, 8, 8, 8, 5, 8, 5, 5, 4,
  8, 8, 8, 8, 8, 8, 8, 8, 8, 8, 8, 8, 8, 8, 8, 6, 8, 8, 8, 8, 8, 8, 8, 6, 8, 8, 8, 6, 8, 6, 6, 4,
  8, 8, 8, 8, 8, 8, 8, 6, 8, 8, 8, 6, 8, 6, 6, 5, 8, 8, 8, 6, 8, 6, 6, 5, 8, 6, 6, 5, 6, 5, 5, 4,
  8, 8, 8, 8, 8, 8, 8, 8, 8, 8, 8, 8, 8, 8, 8, 7, 8, 8, 8, 8, 8, 8, 8, 7, 8, 8, 8, 7, 8, 7, 7, 4,
  8, 8, 8, 8, 8, 8, 8, 7, 8, 8, 8, 7, 8, 7, 7, 5, 8, 8, 8, 7, 8, 7, 7, 5, 8, 7, 7, 5, 7, 5, 5, 4,
  8, 8, 8, 8, 8, 8, 8, 7, 8, 8, 8, 7, 8, 7, 7, 6, 8, 8, 8, 7, 8, 7, 7, 6, 8, 7, 7, 6, 7, 6, 6, 4,
  8, 8, 8, 7, 8, 7, 7, 6, 8, 7, 7, 6, 7, 6, 6, 5, 8, 7, 7, 6, 7, 6, 6, 5, 7, 6, 6, 5, 6, 5, 5, 4,
  8, 8, 8, 8, 8, 8, 8, 8, 8, 8, 8, 8, 8, 8, 8, 8, 8, 8, 8, 8, 8, 8, 8, 8, 8, 8, 8, 8, 8, 8, 8, 8,
  8, 8, 8, 8, 8, 8, 8, 8, 8, 8, 8, 8, 8, 8, 8, 8, 8, 8, 8, 8, 8, 8, 8, 8, 8, 8, 8, 8, 8, 8, 8, 5,
  8, 8, 8, 8, 8, 8, 8, 8, 8, 8, 8, 8, 8, 8, 8, 8, 8, 8, 8, 8, 8, 8, 8, 8, 8, 8, 8, 8, 8, 8, 8, 6,
  8, 8, 8, 8, 8, 8, 8, 8, 8, 8, 8, 8, 8, 8, 8, 6, 8, 8, 8, 8, 8, 8, 8, 6, 8, 8, 8, 6, 8, 6, 6, 5,
  8, 8, 8, 8, 8, 8, 8, 8, 8, 8, 8, 8, 8, 8, 8, 8, 8, 8, 8, 8, 8, 8, 8, 8, 8, 8, 8, 8, 8, 8, 8, 7,
  8, 8, 8, 8, 8, 8, 8, 8, 8, 8, 8, 8, 8, 8, 8, 7, 8, 8, 8, 8, 8, 8, 8, 7, 8, 8, 8, 7, 8, 7, 7, 5,
  8, 8, 8, 8, 8, 8, 8, 8, 8, 8, 8, 8, 8, 8, 8, 7, 8, 8, 8, 8, 8, 8, 8, 7, 8, 8, 8, 7, 8, 7, 7, 6,
  8, 8, 8, 8, 8, 8, 8, 7, 8, 8, 8, 7, 8, 7, 7, 6, 8, 8, 8, 7, 8, 7, 7, 6, 8, 7, 7, 6, 7, 6, 6, 5,
  8, 8, 8, 8, 8, 8, 8, 8, 8, 8, 8, 8, 8, 8, 8, 8, 8, 8, 8, 8, 8, 8, 8, 8, 8, 8, 8, 8, 8, 8, 8, 8,
  8, 8, 8, 8, 8, 8, 8, 8, 8, 8, 8, 8, 8, 8, 8, 8, 8, 8, 8, 8, 8, 8, 8, 8, 8, 8, 8, 8, 8, 8, 8, 8,
  8, 8, 8, 8, 8, 8, 8, 8, 8, 8, 8, 8, 8, 8, 8, 8, 8, 8, 8, 8, 8, 8, 8, 8, 8, 8, 8, 8, 8, 8, 8, 8,
  8, 8, 8, 8, 8, 8, 8, 8, 8, 8, 8, 8, 8, 8, 8, 8, 8, 8, 8, 8, 8, 8, 8, 8, 8, 8, 8, 8, 8, 8, 8, 6,
  8, 8, 8, 8, 8, 8, 8, 8, 8, 8, 8, 8, 8, 8, 8, 8, 8, 8, 8, 8, 8, 8, 8, 8, 8, 8, 8, 8, 8, 8, 8, 8,
  8, 8, 8, 8, 8, 8, 8, 8, 8, 8, 8, 8, 8, 8, 8, 8, 8, 8, 8, 8, 8, 8, 8, 8, 8, 8, 8, 8, 8, 8, 8, 7,
  8, 8, 8, 8, 8, 8, 8, 8, 8, 8, 8, 8, 8, 8, 8, 8, 8, 8, 8, 8, 8, 8, 8, 8, 8, 8, 8, 8, 8, 8, 8, 7,
  8, 8, 8, 8, 8, 8, 8, 8, 8, 8, 8, 8, 8, 8, 8, 7, 8, 8, 8, 8, 8, 8, 8, 7, 8, 8, 8, 7, 8, 7, 7, 6,
  8, 8, 8, 8, 8, 8, 8, 8, 8, 8, 8, 8, 8, 8, 8, 8, 8, 8, 8, 8, 8, 8, 8, 8, 8, 8, 8, 8, 8, 8, 8, 8,
  8, 8, 8, 8, 8, 8, 8, 8, 8, 8, 8, 8, 8, 8, 8, 8, 8, 8, 8, 8, 8, 8, 8, 8, 8, 8, 8, 8, 8, 8, 8, 8,
  8, 8, 8, 8, 8, 8, 8, 8, 8, 8, 8, 8, 8, 8, 8, 8, 8, 8, 8, 8, 8, 8, 8, 8, 8, 8, 8, 8, 8, 8, 8, 8,
  8, 8, 8, 8, 8, 8, 8, 8, 8, 8, 8, 8, 8, 8, 8, 8, 8, 8, 8, 8, 8, 8, 8, 8, 8, 8, 8, 8, 8, 8, 8, 8,
  8, 8, 8, 8, 8, 8, 8, 8, 8, 8, 8, 8, 8, 8, 8, 8, 8, 8, 8, 8, 8, 8, 8, 8, 8, 8, 8, 8, 8, 8, 8, 8,
  8, 8, 8, 8, 8, 8, 8, 8, 8, 8, 8, 8, 8, 8, 8, 8, 8, 8, 8, 8, 8, 8, 8, 8, 8, 8, 8, 8, 8, 8, 8, 8,
  8, 8, 8, 8, 8, 8, 8, 8, 8, 8, 8, 8, 8, 8, 8, 8, 8, 8, 8, 8, 8, 8, 8, 8, 8, 8, 8, 8, 8, 8, 8, 8,
  8, 8, 8, 8, 8, 8, 8, 8, 8, 8, 8, 8, 8, 8, 8, 8, 8, 8, 8, 8, 8, 8, 8, 8, 8, 8, 8, 8, 8, 8, 8, 7]

/-- `_select64`, for a `k` that is not negative. -/
def select64 (x : BitVec 64) (k : Nat) : Nat :=
  if k ≥ popcnt x then 64
  else
    let kOnesStep4 := 0x1111111111111111#64
    let kOnesStep8 := 0x0101010101010101#64
    let kMSBsStep8 := 0x80#64 * kOnesStep8
    let s := x
    let s := s - ((s &&& 0xA#64 * kOnesStep4) >>> 1)
    let s := (s &&& 0x3#64 * kOnesStep4) + ((s >>> 2) &&& 0x3#64 * kOnesStep4)
    let s := (s + (s >>> 4)) &&& 0xF#64 * kOnesStep8
    let byteSums := s * kOnesStep8
    let kStep8 := BitVec.ofNat 64 k * kOnesStep8
    let geqKStep8 := ((kStep8 ||| kMSBsStep8) - byteSums) &&& kMSBsStep8
    let place := popcnt geqKStep8 * 8
    let byteRank := BitVec.ofNat 64 k - (((byteSums <<< 8) >>> place) &&& 0xFF#64)
    place + kSelectInByte.getD (((x >>> place) &&& 0xFF#64) ||| (byteRank <<< 8)).toNat 0

theorem kSelectInByte_all : kSelectInByte.zipIdx.all (fun a =>
    a.1 == ((List.range 8).find? fun j => (a.2 % 256).testBit j &&
      Nat.count (fun i => (a.2 % 256).testBit i = true) j == a.2 / 256).getD 8) = true ∧
    kSelectInByte.length = 2048 := by decide +kernel

theorem exists_count_eq {p : Nat → Prop} [DecidablePred p] {n r : Nat} (h : r < Nat.count p n) :
    ∃ j < n, p j ∧ Nat.count p j = r := by
  induction n with
  | zero => simp at h
  | succ n ih =>
    rw [Nat.count_succ] at h
    by_cases hlt : r < Nat.count p n
    · obtain ⟨j, hj, hp⟩ := ih hlt
      exact ⟨j, hj.trans (Nat.lt_succ_self n), hp⟩
    · split at h
      next hp => exact ⟨n, Nat.lt_succ_self n, hp, by omega⟩
      next => omega

theorem kSelectInByte_one {b r : Nat} (hb : b < 256)
    (hr : r < Nat.count (fun i => b.testBit i = true) 8) :
    ∃ j < 8, b.testBit j = true ∧ Nat.count (fun i => b.testBit i = true) j = r ∧
      kSelectInByte.getD (b + 256 * r) 0 = j := by
  obtain ⟨j, hj, hbit, hcount⟩ := exists_count_eq hr
  have hr8 : r < 8 := hr.trans_le (Nat.count_le _)
  have hlt : b + 256 * r < kSelectInByte.length := by
    rw [kSelectInByte_all.2]
    omega
  have hmod : (b + 256 * r) % 256 = b := by omega
  have hdiv : (b + 256 * r) / 256 = r := by omega
  have hall := List.all_eq_true.mp kSelectInByte_all.1 _
    (List.mk_mem_zipIdx_iff_getElem?.mpr (List.getElem?_eq_getElem hlt))
  simp only [hmod, hdiv, beq_iff_eq] at hall
  have hfind : ((List.range 8).find? fun j => b.testBit j &&
      Nat.count (fun i => b.testBit i = true) j == r) = some j := by
    rw [List.find?_range_eq_some]
    refine ⟨by simp [hbit, hcount], by simpa using hj, fun i hi => ?_⟩
    by_contra hcon
    simp only [Bool.not_eq_true', Bool.and_eq_false_iff, not_or, Bool.not_eq_false,
        beq_iff_eq] at hcon
    have hless := Nat.count_strict_mono (p := fun i => b.testBit i = true) hcon.1 hi
    omega
  refine ⟨j, hj, hbit, hcount, ?_⟩
  rw [List.getD_eq_getElem?_getD, List.getElem?_eq_getElem hlt, Option.getD_some, hall, hfind]
  rfl

/-! The counts of the bytes. -/

structure OnesOf (x : BitVec 64) (p : Nat → Prop) [DecidablePred p] : Prop where
  bits : x.toNat = pack 1 (ones p 1) 64
  none : ∀ w n, 64 ≤ w*n → ones p w n = 0

theorem onesOf (x : BitVec 64) : OnesOf x fun j => x.toNat.testBit j = true where
  bits := by rw [pack_bits, Nat.mod_eq_of_lt x.isLt]
  none w n h := by
    refine Nat.count_iff_forall_not.mpr fun j _ hone => ?_
    have hlt : x.toNat < 2^(w*n+j) := x.isLt.trans_le (Nat.pow_le_pow_right (by decide) (by omega))
    exact Bool.false_ne_true ((Nat.testBit_lt_two_pow hlt).symm.trans hone)

section
variable {x s : BitVec 64} {p : Nat → Prop} [DecidablePred p]

theorem OnesOf.pairs (h : OnesOf x p) :
    (x - ((x &&& 0xA#64 * 0x1111111111111111#64) >>> 1)).toNat = pack 2 (ones p 2) 32 := by
  have hmask : (0xA#64 * 0x1111111111111111#64).toNat / 2^1 = pack 2 (fun _ => 2^1 - 1) 32 := by
    decide +kernel
  have hshift := ones_shift_and_lower (h.none 1 (2*32) (by decide))
  have hsum := ones_add p 1 32
  have hpairs := pack_pairs 1 (ones p 1) 32
  simp only [Nat.reduceMul] at hshift hsum hpairs
  rw [← h.bits] at hshift hpairs
  have hodd : ((x &&& 0xA#64 * 0x1111111111111111#64) >>> 1).toNat =
      pack 2 (fun i => ones p 1 (2*i+1)) 32 := by
    rw [BitVec.toNat_ushiftRight, BitVec.toNat_and, Nat.shiftRight_eq_div_pow, Nat.and_div_two_pow,
      hmask, hshift]
  rw [BitVec.toNat_sub_of_le (by rw [BitVec.le_def, hodd]; omega), hodd, ← hsum]
  omega

theorem OnesOf.nibbles (h : OnesOf x p) (hs : s.toNat = pack 2 (ones p 2) 32) :
    ((s &&& 0x3#64 * 0x1111111111111111#64) +
      ((s >>> 2) &&& 0x3#64 * 0x1111111111111111#64)).toNat =
      pack 4 (ones p 4) 16 := by
  have hmask : (0x3#64 * 0x1111111111111111#64).toNat = pack 4 (fun _ => 2^2 - 1) 16 := by
    decide +kernel
  have heven := ones_and_lower p 2 16
  have hodd := ones_shift_and_lower (h.none 2 (2*16) (by decide))
  have hsum := ones_add p 2 16
  simp only [Nat.reduceMul] at heven hodd hsum
  have hlt : pack 4 (ones p 4) 16 < 2^64 := pack_lt fun i _ => ones_lt p 4 i
  rw [BitVec.toNat_add, BitVec.toNat_and, BitVec.toNat_and, BitVec.toNat_ushiftRight,
    Nat.shiftRight_eq_div_pow, hmask, hs, heven, hodd, hsum, Nat.mod_eq_of_lt hlt]

theorem OnesOf.bytes (h : OnesOf x p) (hs : s.toNat = pack 4 (ones p 4) 16) :
    ((s + (s >>> 4)) &&& 0xF#64 * 0x0101010101010101#64).toNat = pack 8 (ones p 8) 8 := by
  have hmask : (0xF#64 * 0x0101010101010101#64).toNat = pack 8 (fun _ => 2^4 - 1) 8 := by
    decide +kernel
  have hsum := ones_add_and_lower (h.none 4 (2*8) (by decide)) (by decide)
  simp only [Nat.reduceMul] at hsum
  have hle : pack 4 (ones p 4) 16 ≤ pack 4 (fun _ => 4) 16 := pack_le fun i _ => Nat.count_le _
  have hconst : pack 4 (fun _ => 4) 16 < 2^63 := by decide +kernel
  have hsmall : s.toNat + s.toNat / 2^4 < 2^64 := by
    rw [hs]
    omega
  rw [BitVec.toNat_and, BitVec.toNat_add, BitVec.toNat_ushiftRight, Nat.shiftRight_eq_div_pow,
    Nat.mod_eq_of_lt hsmall, hmask, hs, hsum]

/-- The ones up to the end of each byte. -/
theorem OnesOf.sums (hs : s.toNat = pack 8 (ones p 8) 8) :
    (s * 0x0101010101010101#64).toNat = pack 8 (fun i => Nat.count p (8*(i+1))) 8 := by
  have hmask : (0x0101010101010101#64).toNat = pack 8 (fun _ => 1) 8 := by decide +kernel
  have hsums : (fun i => ∑ j ∈ Finset.range (i+1), ones p 8 j) =
      fun i => Nat.count p (8*(i+1)) := by
    funext i
    exact sum_ones p 8 (i+1)
  have hmul := @mul_ones 8 8 (ones p 8) fun i hi => by
    rw [sum_ones]
    exact (Nat.count_le _).trans_lt (by omega)
  rw [hsums] at hmul
  rw [BitVec.toNat_mul, hs, hmask, ← hmul]

/-- The bytes up to whose end there are no more than `k` ones are marked. -/
theorem OnesOf.marks {byteSums : BitVec 64} {k : Nat} (hk : k < 64)
    (hb : byteSums.toNat = pack 8 (fun i => Nat.count p (8*(i+1))) 8) :
    (((BitVec.ofNat 64 k * 0x0101010101010101#64 |||
      0x80#64 * 0x0101010101010101#64) - byteSums) &&&
      0x80#64 * 0x0101010101010101#64).toNat =
        pack 8 (fun i => if Nat.count p (8*(i+1)) ≤ k then 128 else 0) 8 := by
  have hones : (0x0101010101010101#64).toNat = pack 8 (fun _ => 1) 8 := by decide +kernel
  have hmask : (0x80#64 * 0x0101010101010101#64).toNat = pack 8 (fun _ => 128) 8 := by
    decide +kernel
  have hor : ∀ k < 64, k ||| 128 = k + 128 := by decide
  have hand : ∀ v < 256, v &&& 128 = if 128 ≤ v then 128 else 0 := by decide +kernel
  have hcount : ∀ i < 8, Nat.count p (8*(i+1)) ≤ 64 := fun i hi => (Nat.count_le _).trans (by omega)
  have hstep : (BitVec.ofNat 64 k * 0x0101010101010101#64).toNat = pack 8 (fun _ => k) 8 := by
    have hlt : pack 8 (fun _ => k) 8 < 2^64 := pack_lt fun i _ => by omega
    rw [BitVec.toNat_mul, BitVec.toNat_ofNat, hones, Nat.mod_eq_of_lt (by omega : k < 2^64),
        pack_const,
      Nat.mod_eq_of_lt hlt]
  have hset : (BitVec.ofNat 64 k * 0x0101010101010101#64 |||
      0x80#64 * 0x0101010101010101#64).toNat =
      pack 8 (fun _ => k + 128) 8 := by
    rw [BitVec.toNat_or, hstep, hmask, pack_or (fun _ _ => by omega) fun _ _ => by decide, hor k hk]
  have hsub : ((BitVec.ofNat 64 k * 0x0101010101010101#64 ||| 0x80#64 * 0x0101010101010101#64) -
      byteSums).toNat = pack 8 (fun i => k + 128 - Nat.count p (8*(i+1))) 8 := by
    have hle : pack 8 (fun i => Nat.count p (8*(i+1))) 8 ≤ pack 8 (fun _ => k + 128) 8 :=
      pack_le fun i hi => by
        have := hcount i hi
        omega
    rw [BitVec.toNat_sub_of_le (by rw [BitVec.le_def, hset, hb]; exact hle), hset, hb]
    exact pack_sub fun i hi => by
      have := hcount i hi
      omega
  rw [BitVec.toNat_and, hsub, hmask, pack_and (fun _ _ => by omega) fun _ _ => by decide]
  refine pack_congr fun i hi => ?_
  have hle := hcount i hi
  rw [hand _ (by omega)]
  by_cases hmark : Nat.count p (8*(i+1)) ≤ k
  · rw [if_pos hmark, if_pos (by omega)]
  · rw [if_neg hmark, if_neg (by omega)]

theorem popcnt_marks {geq : BitVec 64} {m : Nat → Prop} [DecidablePred m]
    (h : geq.toNat = pack 8 (fun i => if m i then 128 else 0) 8) : popcnt geq = Nat.count m 8 := by
  have hlt : ∀ i < 8, (if m i then 128 else 0) < 2^8 := fun i _ => by split <;> decide
  have hbyte : ∀ i, Nat.count (fun j => (if m i then 128 else 0).testBit j = true) 8 =
      if m i then 1 else 0 := fun i => by split <;> rfl
  have hcount := count_pack (w := 8) (n := 8) hlt
  rw [← h] at hcount
  change Nat.count (fun j => geq.toNat.testBit j = true) (8*8) = _
  rw [hcount, Nat.count_eq_card_filter_range, Finset.card_filter]
  exact Finset.sum_congr rfl fun i _ => hbyte i

/-- Marks in front of the first byte without. -/
theorem count_lt_iff {m : Nat → Prop} [DecidablePred m] {n t : Nat} (h : ∀ i < n, m i ↔ i < t)
    (ht : t ≤ n) : Nat.count m n = t := by
  induction n generalizing t with
  | zero => simp; omega
  | succ n ih =>
    rw [Nat.count_succ]
    by_cases hlast : t = n + 1
    · subst hlast
      rw [if_pos ((h n (by omega)).mpr (by omega)), ih (t := n) (fun i hi => by
        rw [h i (by omega)]
        omega) (Nat.le_refl n)]
    · rw [if_neg fun hm => by
        have := (h n (by omega)).mp hm
        omega, ih (fun i hi => h i (by omega)) (by omega)]
      rfl

/-- The ones in front of byte `t`. -/
theorem OnesOf.rank {byteSums : BitVec 64} {t : Nat} (ht : t < 8)
    (hb : byteSums.toNat = pack 8 (fun i => Nat.count p (8*(i+1))) 8) :
    (((byteSums <<< 8) >>> (t*8)) &&& 0xFF#64).toNat = Nat.count p (8*t) := by
  have hlt : ∀ i < 8, Nat.count p (8*i) < 2^8 := fun i hi => (Nat.count_le _).trans_lt (by omega)
  have hshift : (byteSums <<< 8).toNat = pack 8 (fun i => Nat.count p (8*i)) 8 := by
    have hcons := pack_cons 8 (fun i => Nat.count p (8*i)) 8
    rw [Nat.mul_zero, Nat.count_zero, Nat.zero_add, ← hb, pack_succ] at hcons
    rw [BitVec.toNat_shiftLeft, Nat.shiftLeft_eq, Nat.mul_comm, ← hcons]
    exact (Nat.add_mul_mod_self_right _ _ _).trans (Nat.mod_eq_of_lt (pack_lt hlt))
  have hff : (0xFF#64).toNat = 2^8 - 1 := rfl
  rw [BitVec.toNat_and, BitVec.toNat_ushiftRight, Nat.shiftRight_eq_div_pow, hshift, hff,
    Nat.and_two_pow_sub_one_eq_mod, Nat.mul_comm t]
  exact pack_lane hlt ht

/-- The first byte up to whose end there are more than `k` ones. -/
theorem exists_byte {k : Nat} (hk : k < Nat.count p 64) : ∃ t < 8, Nat.count p (8*t) ≤ k ∧
    k < Nat.count p (8*(t+1)) ∧ ∀ i < 8, Nat.count p (8*(i+1)) ≤ k ↔ i < t := by
  have hex : ∃ i, k < Nat.count p (8*(i+1)) := ⟨7, hk⟩
  have hfirst : ∀ i < Nat.find hex, Nat.count p (8*(i+1)) ≤ k := fun i hi =>
    Nat.not_lt.mp (Nat.find_min hex hi)
  have hle : Nat.find hex ≤ 7 := Nat.find_min' hex hk
  refine ⟨Nat.find hex, by omega, ?_, Nat.find_spec hex, fun i hi => ⟨fun hmark => ?_, hfirst i⟩⟩
  · cases hzero : Nat.find hex with
    | zero => simp
    | succ i => exact hfirst i (by omega)
  · by_contra hnot
    have hmono := Nat.count_monotone p (by omega : 8*(Nat.find hex + 1) ≤ 8*(i+1))
    have hspec := Nat.find_spec hex
    omega

theorem byte_testBit (x t i : Nat) :
    (x / 2^(8*t) % 2^8).testBit i = (decide (i < 8) && x.testBit (8*t + i)) := by
  rw [Nat.testBit_mod_two_pow, Nat.testBit_div_two_pow, Nat.add_comm]

theorem count_byte (x t : Nat) {j : Nat} (hj : j ≤ 8) :
    Nat.count (fun i => (x / 2^(8*t) % 2^8).testBit i = true) j =
      Nat.count (fun i => x.testBit (8*t + i) = true) j := by
  rw [Nat.count_eq_card_filter_range, Nat.count_eq_card_filter_range]
  congr 1
  refine Finset.filter_congr fun i hi => ?_
  have hlt : i < 8 := (Finset.mem_range.mp hi).trans_le hj
  rw [byte_testBit, decide_eq_true hlt, Bool.true_and]

end

/-- What is left to do when the byte sums are known. -/
theorem select64_tail {x byteSums : BitVec 64} {k : Nat}
    (hk : k < Nat.count (fun j => x.toNat.testBit j = true) 64)
    (hb : byteSums.toNat =
      pack 8 (fun i => Nat.count (fun j => x.toNat.testBit j = true) (8*(i+1))) 8)
    {place : Nat} (hplace : place = popcnt
      (((BitVec.ofNat 64 k * 0x0101010101010101#64 |||
        0x80#64 * 0x0101010101010101#64) - byteSums) &&&
        0x80#64 * 0x0101010101010101#64) * 8) :
    place + kSelectInByte.getD (((x >>> place) &&& 0xFF#64) |||
      ((BitVec.ofNat 64 k - (((byteSums <<< 8) >>> place) &&& 0xFF#64)) <<< 8)).toNat 0 =
        selectOne x k := by
  have hk64 : k < 64 := hk.trans_le (Nat.count_le _)
  obtain ⟨t, ht, hle, hlt, hmarks⟩ := exists_byte hk
  have hcount := popcnt_marks (OnesOf.marks hk64 hb)
  rw [count_lt_iff hmarks ht.le] at hcount
  rw [hcount] at hplace
  subst hplace
  have hrank := OnesOf.rank ht hb
  have hff : (0xFF#64).toNat = 2^8 - 1 := rfl
  have hbyte : ((x >>> (t*8)) &&& 0xFF#64).toNat = x.toNat / 2^(8*t) % 2^8 := by
    rw [BitVec.toNat_and, BitVec.toNat_ushiftRight, Nat.shiftRight_eq_div_pow, hff,
      Nat.and_two_pow_sub_one_eq_mod, Nat.mul_comm t]
  have hones : Nat.count (fun j => x.toNat.testBit j = true) (8*(t+1)) =
      Nat.count (fun j => x.toNat.testBit j = true) (8*t) +
        Nat.count (fun i => (x.toNat / 2^(8*t) % 2^8).testBit i = true) 8 := by
    rw [Nat.mul_succ, Nat.count_add, count_byte _ _ (Nat.le_refl 8)]
  obtain ⟨r, hr⟩ : ∃ r, r = k - Nat.count (fun j => x.toNat.testBit j = true) (8*t) := ⟨_, rfl⟩
  have hsub : (BitVec.ofNat 64 k - (((byteSums <<< 8) >>> (t*8)) &&& 0xFF#64)).toNat = r := by
    have hword : (BitVec.ofNat 64 k).toNat = k := by
      rw [BitVec.toNat_ofNat, Nat.mod_eq_of_lt (by omega)]
    rw [BitVec.toNat_sub_of_le (by rw [BitVec.le_def, hrank, hword]; exact hle), hword, hrank, hr]
  obtain ⟨j, hj, hbit, hpos, htable⟩ := kSelectInByte_one (b := x.toNat / 2^(8*t) % 2^8) (r := r)
    (Nat.mod_lt _ (by decide)) (by omega)
  have hindex : (((x >>> (t*8)) &&& 0xFF#64) |||
      ((BitVec.ofNat 64 k - (((byteSums <<< 8) >>> (t*8)) &&& 0xFF#64)) <<< 8)).toNat =
        x.toNat / 2^(8*t) % 2^8 + 256 * r := by
    have hr64 : r * 2^8 < 2^64 := by omega
    rw [BitVec.toNat_or, hbyte, BitVec.toNat_shiftLeft, hsub, Nat.shiftLeft_eq,
        Nat.mod_eq_of_lt hr64,
      ← Nat.shiftLeft_eq, Digits.or_shiftLeft (Nat.mod_lt _ (by decide)), Nat.mul_comm r]
    rfl
  rw [hindex, htable]
  rw [byte_testBit, decide_eq_true hj, Bool.true_and] at hbit
  rw [count_byte _ _ hj.le] at hpos
  have hselect : Nat.count (fun i => x.toNat.testBit i = true) (8*t + j) = k := by
    rw [Nat.count_add, hpos]
    omega
  rw [selectOne_eq (k := 8*t + j) (by omega) hbit hselect, Nat.mul_comm t]

theorem select64_eq (x : BitVec 64) (k : Nat) : select64 x k = selectOne x k := by
  by_cases hk : k ≥ popcnt x
  · rw [select64, if_pos hk, selectOne_none hk]
  · have hx := onesOf x
    have hsums := OnesOf.sums (hx.bytes (hx.nibbles hx.pairs))
    rw [select64, if_neg hk]
    exact select64_tail (Nat.not_le.mp hk) hsums rfl

/-- The two builds have the same `bitselect` as long as the shift is defined, and they differ for
bit 64 of every word that is not zero. -/
theorem bitselect_eq_iff (x : BitVec 64) {k : Nat} (hk : k ≤ 64) :
    bitselect x k = selectOne x k ↔ k < 64 ∨ x = 0#64 := by
  by_cases hlt : k < 64
  · rw [bitselect_eq_selectOne, Nat.mod_eq_of_lt hlt, iff_true_intro rfl, true_iff]
    exact .inl hlt
  · obtain rfl : k = 64 := by omega
    have hnone : selectOne x 64 = 64 := selectOne_none (Nat.count_le _)
    rw [bitselect_eq_selectOne, hnone, Nat.mod_self]
    constructor
    · intro hnone
      refine .inr (BitVec.eq_of_getLsbD_eq fun i hi => ?_)
      rw [BitVec.getLsbD_zero]
      by_contra hbit
      obtain ⟨j, hj, hone, hcount⟩ := exists_count_eq (p := fun i => x.getLsbD i = true) (n := 64)
        (r := 0) (by
          have hmono := Nat.count_monotone (fun i => x.getLsbD i = true) hi
          rw [Nat.count_succ, if_pos (by simpa using hbit)] at hmono
          omega)
      rw [selectOne_eq hj hone hcount] at hnone
      omega
    · rintro (hlt | rfl)
      · exact absurd hlt (Nat.lt_irrefl 64)
      · decide

end AdaptiveQF
