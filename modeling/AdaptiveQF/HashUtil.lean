import Mathlib.Data.List.GetD
import Mathlib.Tactic.IntervalCases
import AdaptiveQF.Lib.Mixing
import AdaptiveQF.Init
import AdaptiveQF.ReverseMap
import AdaptiveQF.Session

/-! The hash functions of hashutil.c. -/
namespace AdaptiveQF
open Mixing

def hash64 (key mask : BitVec 64) : BitVec 64 :=
  let key := (~~~key + (key <<< 21)) &&& mask
  let key := key ^^^ key >>> 24
  let key := ((key + (key <<< 3)) + (key <<< 8)) &&& mask
  let key := key ^^^ key >>> 14
  let key := ((key + (key <<< 2)) + (key <<< 4)) &&& mask
  let key := key ^^^ key >>> 28
  (key + (key <<< 31)) &&& mask

def hash64i (key mask : BitVec 64) : BitVec 64 :=
  let tmp := key - (key <<< 31)
  let key := (key - (tmp <<< 31)) &&& mask
  let tmp := key ^^^ key >>> 28
  let key := key ^^^ tmp >>> 28
  let key := (key * 14933078535860113213#64) &&& mask
  let tmp := key ^^^ key >>> 14
  let tmp := key ^^^ tmp >>> 14
  let tmp := key ^^^ tmp >>> 14
  let key := key ^^^ tmp >>> 14
  let key := (key * 15244667743933553977#64) &&& mask
  let tmp := key ^^^ key >>> 24
  let key := key ^^^ tmp >>> 24
  let tmp := ~~~key
  let tmp := ~~~(key - (tmp <<< 21))
  let tmp := ~~~(key - (tmp <<< 21))
  ~~~(key - (tmp <<< 21)) &&& mask

def murmurM : BitVec 64 := 0xc6a4a7935bd1e995#64

def murmurMix (k : BitVec 64) : BitVec 64 :=
  let k := k * murmurM
  let k := k ^^^ k >>> 47
  k * murmurM

def murmurWords (key : ByteString) : List (BitVec 64) :=
  (List.range (key.length / 8)).map fun i => Bytes.readWord (fun a => key.getD a 0) (8*i)

/-- The `switch` falls through from the last byte to the first. -/
def murmurTail (h : BitVec 64) (data2 : ByteString) : BitVec 64 :=
  if data2.length = 0 then h
  else data2.zipIdx.foldr (fun (a : BitVec 8 × Nat) (h : BitVec 64) =>
    h ^^^ a.1.setWidth 64 <<< (8 * a.2)) h * murmurM

/-- `MurmurHash64A`, and `_murmur_64` of hash_table.c for a seed of 64 bits. -/
def murmurHash64A (key : ByteString) (seed : BitVec 64) : BitVec 64 :=
  let h := seed ^^^ (BitVec.ofNat 64 key.length * murmurM)
  let h := (murmurWords key).foldl (fun h k => (h ^^^ murmurMix k) * murmurM) h
  let h := murmurTail h (key.drop (8 * (key.length / 8)))
  let h := h ^^^ h >>> 47
  let h := h * murmurM
  h ^^^ h >>> 47

/-! `hash_64` and its inverse. -/

section
variable {k : Nat} {key x y : BitVec 64}

def maskOf (k : Nat) : BitVec 64 := BitVec.ofNat 64 (2^k - 1)

theorem undo_shift_add (hk : k ≤ 64) (hx : x.toNat < 2^k) :
    let y := (x + (x <<< 31)) &&& maskOf k
    (y - ((y - (y <<< 31)) <<< 31)) &&& maskOf k = x := by
  refine low_inj (mask_lt hk _) hx ?_
  have hzero : (2 : ZMod (2^k))^64 = 0 := by
    rw [← Nat.sub_add_cancel hk, pow_add, two_pow_eq_zero, mul_zero]
  simp only [maskOf, low_mask hk, low_sub hk, low_add hk, low_shiftLeft hk]
  linear_combination (low k x) * 2^29 * hzero

theorem undo_mul {a b : Nat} {c : Nat} (hk : k ≤ 64) (hx : x.toNat < 2^k)
    (hab : a * b = 1 + c * 2^64)
    (hy : low k y = low k x * a) : (y * BitVec.ofNat 64 b) &&& maskOf k = x := by
  refine low_inj (mask_lt hk _) hx ?_
  have hzero : (2 : ZMod (2^k))^64 = 0 := by
    rw [← Nat.sub_add_cancel hk, pow_add, two_pow_eq_zero, mul_zero]
  have hcast := congrArg (Nat.cast : Nat → ZMod (2^k)) hab
  push_cast at hcast
  have hb : low k (BitVec.ofNat 64 b) = b := by
    rw [low, BitVec.toNat_ofNat, cast_mod hk]
  rw [maskOf, low_mask hk, low_mul hk, hb, hy]
  linear_combination (low k x) * hcast + (low k x) * c * hzero

theorem undo_not_add (hk : k ≤ 64) (hx : x.toNat < 2^k) :
    let y := (~~~x + (x <<< 21)) &&& maskOf k
    let tmp := ~~~(y - (~~~y <<< 21))
    let tmp := ~~~(y - (tmp <<< 21))
    ~~~(y - (tmp <<< 21)) &&& maskOf k = x := by
  refine low_inj (mask_lt hk _) hx ?_
  have hzero : (2 : ZMod (2^k))^64 = 0 := by
    rw [← Nat.sub_add_cancel hk, pow_add, two_pow_eq_zero, mul_zero]
  simp only [maskOf, low_mask hk, low_sub hk, low_add hk, low_shiftLeft hk, low_not hk]
  linear_combination (- low k x) * 2^20 * hzero

theorem hash64i_hash64 (hk : k ≤ 64) (hx : x.toNat < 2^k) :
    hash64i (hash64 x (maskOf k)) (maskOf k) = x := by
  obtain ⟨k1, h1⟩ : ∃ y, y = (~~~x + (x <<< 21)) &&& maskOf k := ⟨_, rfl⟩
  obtain ⟨k2, h2⟩ : ∃ y, y = k1 ^^^ k1 >>> 24 := ⟨_, rfl⟩
  obtain ⟨k3, h3⟩ : ∃ y, y = ((k2 + (k2 <<< 3)) + (k2 <<< 8)) &&& maskOf k := ⟨_, rfl⟩
  obtain ⟨k4, h4⟩ : ∃ y, y = k3 ^^^ k3 >>> 14 := ⟨_, rfl⟩
  obtain ⟨k5, h5⟩ : ∃ y, y = ((k4 + (k4 <<< 2)) + (k4 <<< 4)) &&& maskOf k := ⟨_, rfl⟩
  obtain ⟨k6, h6⟩ : ∃ y, y = k5 ^^^ k5 >>> 28 := ⟨_, rfl⟩
  obtain ⟨k7, h7⟩ : ∃ y, y = (k6 + (k6 <<< 31)) &&& maskOf k := ⟨_, rfl⟩
  have hhash : hash64 x (maskOf k) = k7 := by rw [h7, h6, h5, h4, h3, h2, h1]; rfl
  have hlt1 : k1.toNat < 2^k := by rw [h1]; exact mask_lt hk _
  have hlt2 : k2.toNat < 2^k := by rw [h2]; exact xor_shift_lt hlt1 24
  have hlt3 : k3.toNat < 2^k := by rw [h3]; exact mask_lt hk _
  have hlt4 : k4.toNat < 2^k := by rw [h4]; exact xor_shift_lt hlt3 14
  have hlt5 : k5.toNat < 2^k := by rw [h5]; exact mask_lt hk _
  have hlt6 : k6.toNat < 2^k := by rw [h6]; exact xor_shift_lt hlt5 28
  have hadd : (k7 - ((k7 - (k7 <<< 31)) <<< 31)) &&& maskOf k = k6 := by
    rw [h7]
    exact undo_shift_add hk hlt6
  have hxor28 : k6 ^^^ (k6 ^^^ k6 >>> 28) >>> 28 = k5 := by
    rw [h6, xor_shift_step, xor_shift_step, xor_shift_last (by decide)]
  have hmul21 : (k5 * 14933078535860113213#64) &&& maskOf k = k4 := by
    refine undo_mul (a := 21) (c := 17) hk hlt4 (by decide) ?_
    rw [h5, maskOf, low_mask hk, low_add hk, low_add hk, low_shiftLeft hk, low_shiftLeft hk]
    push_cast
    ring
  have hxor14 : k4 ^^^ (k4 ^^^ (k4 ^^^ (k4 ^^^ k4 >>> 14) >>> 14) >>> 14) >>> 14 = k3 := by
    rw [h4, xor_shift_step, xor_shift_step, xor_shift_step, xor_shift_step,
      xor_shift_last (by decide)]
  have hmul265 : (k3 * 15244667743933553977#64) &&& maskOf k = k2 := by
    refine undo_mul (a := 265) (c := 219) hk hlt2 (by decide) ?_
    rw [h3, maskOf, low_mask hk, low_add hk, low_add hk, low_shiftLeft hk, low_shiftLeft hk]
    push_cast
    ring
  have hxor24 : k2 ^^^ (k2 ^^^ k2 >>> 24) >>> 24 = k1 := by
    rw [h2, xor_shift_step, xor_shift_step, xor_shift_last (by decide)]
  have hnot := undo_not_add hk hx
  simp only [← h1] at hnot
  rw [hhash]
  simp only [hash64i, hadd, hxor28, hmul21, hxor14, hmul265, hxor24, hnot]

theorem hash64_lt (hk : k ≤ 64) (x : BitVec 64) : (hash64 x (maskOf k)).toNat < 2^k := mask_lt hk _

theorem hash64i_lt (hk : k ≤ 64) (x : BitVec 64) : (hash64i x (maskOf k)).toNat < 2^k :=
  mask_lt hk _

/-- `hash_64` is a bijection on the numbers of `k` bits, and `hash_64i` its inverse on both
sides. -/
theorem hash64_inverse (hk : k ≤ 64) (hx : x.toNat < 2^k) :
    (hash64 x (maskOf k)).toNat < 2^k ∧ (hash64i x (maskOf k)).toNat < 2^k ∧
      hash64i (hash64 x (maskOf k)) (maskOf k) = x ∧
      hash64 (hash64i x (maskOf k)) (maskOf k) = x := by
  refine ⟨hash64_lt hk x, hash64i_lt hk x, hash64i_hash64 hk hx, ?_⟩
  have hwords : Finite (BitVec 64) :=
    Finite.of_injective BitVec.toFin fun _ _ => BitVec.eq_of_toFin_eq
  have hback := right_inverse_of_left (α := { x : BitVec 64 // x.toNat < 2^k })
    (f := fun x => ⟨hash64 x.1 (maskOf k), hash64_lt hk x.1⟩)
    (g := fun x => ⟨hash64i x.1 (maskOf k), hash64i_lt hk x.1⟩)
    (fun x => Subtype.ext (hash64i_hash64 hk x.2)) ⟨x, hx⟩
  exact congrArg Subtype.val hback

theorem hash64_inverse_small : (hash64 5#64 (maskOf 32)).toNat < 2^32 ∧
    (hash64i 5#64 (maskOf 32)).toNat < 2^32 ∧ hash64i (hash64 5#64 (maskOf 32)) (maskOf 32) = 5#64 ∧
      hash64 (hash64i 5#64 (maskOf 32)) (maskOf 32) = 5#64 :=
  hash64_inverse (by decide) (by decide)

end

/-! `MurmurHash64A` on keys of one length. -/

theorem murmurM_injective : Function.Injective fun h : BitVec 64 => h * murmurM :=
  mul_injective (b := 6879827495036328381#64) (by decide)

theorem murmurMix_injective : Function.Injective murmurMix :=
  murmurM_injective.comp ((xor_shift_injective (by decide)).comp murmurM_injective)

theorem xor_left_injective (k : BitVec 64) : Function.Injective fun h => h ^^^ k :=
  fun _ _ h => (BitVec.xor_left_inj k).mp h

theorem murmurStep_left_injective (k : BitVec 64) :
    Function.Injective fun h => (h ^^^ murmurMix k) * murmurM :=
  murmurM_injective.comp (xor_left_injective (murmurMix k))

theorem murmurStep_right_injective (h : BitVec 64) :
    Function.Injective fun k => (h ^^^ murmurMix k) * murmurM := by
  intro k l hkl
  exact murmurMix_injective ((BitVec.xor_right_inj h).mp (murmurM_injective hkl))

section
variable {a b data1 data2 : ByteString} {h h1 h2 seed : BitVec 64} {i j n : Nat}

/-- Each byte of the tail meets its own eight bits. -/
theorem getLsbD_tail (hn : n + data2.length ≤ 8) (hj : j < 64) :
    ((data2.zipIdx n).foldr (fun (a : BitVec 8 × Nat) (h : BitVec 64) =>
      h ^^^ a.1.setWidth 64 <<< (8 * a.2)) h).getLsbD j =
        (h.getLsbD j ^^ (decide (8*n ≤ j) && (data2.getD (j/8 - n) 0).getLsbD (j % 8))) := by
  induction data2 generalizing n with
  | nil => simp
  | cons c data2 ih =>
    rw [List.length_cons] at hn
    rw [List.zipIdx_cons, List.foldr_cons, BitVec.getLsbD_xor, ih (by omega),
        BitVec.getLsbD_shiftLeft,
      BitVec.getLsbD_setWidth, Bool.xor_assoc]
    congr 1
    by_cases hlow : j < 8*n
    · simp [hlow, Nat.not_le.mpr hlow, show ¬ 8*(n+1) ≤ j by omega]
    · by_cases hhere : j < 8*(n+1)
      · have hdiv : j/8 - n = 0 := by omega
        have hmod : j - 8*n = j % 8 := by omega
        simp [hj, hlow, Nat.not_lt.mp hlow, hdiv, hmod, show ¬ 8*(n+1) ≤ j by omega,
          (Nat.mod_lt j (by decide)).trans (show 8 < 64 by decide)]
      · have hdiv : j/8 - n = (j/8 - (n+1)) + 1 := by omega
        have hout : c.getLsbD (j - 8*n) = false := BitVec.getLsbD_of_ge _ _ (by omega)
        simp [hout, hdiv, Nat.not_lt.mp hhere, Nat.not_lt.mp hlow]

theorem murmurTail_left_injective (h8 : data2.length < 8) :
    Function.Injective fun h => murmurTail h data2 := by
  intro h1 h2 he
  simp only [murmurTail] at he
  split_ifs at he with hlen
  · exact he
  · have hfold := murmurM_injective he
    apply BitVec.eq_of_getLsbD_eq
    intro j hj
    have hbit := congrArg (fun x => x.getLsbD j) hfold
    simp only [getLsbD_tail (show 0 + data2.length ≤ 8 by omega) hj] at hbit
    simpa using hbit

theorem murmurTail_right_injective (hlen : data1.length = data2.length) (h8 : data1.length < 8)
    (he : murmurTail h data1 = murmurTail h data2) : data1 = data2 := by
  simp only [murmurTail, hlen] at he
  split_ifs at he with hzero
  · rw [List.length_eq_zero_iff.mp hzero, List.length_eq_zero_iff.mp (hlen.trans hzero)]
  · have hfold := murmurM_injective he
    apply List.ext_getElem hlen
    intro n h1 h2
    apply BitVec.eq_of_getLsbD_eq
    intro j hj
    have hplace : 8*n + j < 64 := by omega
    have hbit := congrArg (fun x => x.getLsbD (8*n + j)) hfold
    have hdiv : (8*n + j) / 8 = n := by omega
    have hmod : (8*n + j) % 8 = j := by omega
    simp only [getLsbD_tail (show 0 + data1.length ≤ 8 by omega) hplace,
      getLsbD_tail (show 0 + data2.length ≤ 8 by omega) hplace, hdiv, hmod, Nat.sub_zero,
      List.getD_eq_getElem _ _ h1, List.getD_eq_getElem _ _ h2] at hbit
    simpa using hbit

theorem length_murmurWords (key : ByteString) : (murmurWords key).length = key.length / 8 := by
  rw [murmurWords, List.length_map, List.length_range]

theorem getElem?_murmurWords (hj : j < a.length / 8) :
    (murmurWords a)[j]? = some (Bytes.readWord (fun n => a.getD n 0) (8*j)) := by
  rw [murmurWords, List.getElem?_map, List.getElem?_range hj]
  rfl

theorem murmurWords_congr (hlen : a.length = b.length) (hsame : ∀ n, n / 8 = j → a[n]? = b[n]?) :
    (murmurWords a)[j]? = (murmurWords b)[j]? := by
  by_cases hj : j < a.length / 8
  · rw [getElem?_murmurWords hj, getElem?_murmurWords (hlen ▸ hj)]
    congr 1
    refine Bytes.readWord_eq fun k hk => ?_
    rw [Bytes.wordByte_readWord hk, List.getD_eq_getElem?_getD, List.getD_eq_getElem?_getD,
      hsame _ (by omega)]
  · rw [List.getElem?_eq_none (by rw [length_murmurWords]; omega),
      List.getElem?_eq_none (by rw [length_murmurWords]; omega)]

theorem getElem?_of_murmurWords (hlen : a.length = b.length) (h : murmurWords a = murmurWords b)
    (hn : n / 8 < a.length / 8) : a[n]? = b[n]? := by
  have hword := congrArg (fun l => l[n/8]?) h
  simp only [getElem?_murmurWords hn, getElem?_murmurWords (hlen ▸ hn)] at hword
  have hbyte := congrArg (fun w => Bytes.wordByte w (n % 8)) (Option.some.inj hword)
  have hmod : n % 8 < 8 := Nat.mod_lt n (by decide)
  have hplace : 8*(n/8) + n % 8 = n := Nat.div_add_mod n 8
  have ha : n < a.length := by omega
  have hb : n < b.length := by omega
  simp only [Bytes.wordByte_readWord hmod, hplace, List.getD_eq_getElem _ _ ha,
    List.getD_eq_getElem _ _ hb] at hbyte
  rw [List.getElem?_eq_getElem ha, List.getElem?_eq_getElem hb, hbyte]

theorem murmurFinish_injective : Function.Injective fun h : BitVec 64 =>
    ((h ^^^ h >>> 47) * murmurM) ^^^ ((h ^^^ h >>> 47) * murmurM) >>> 47 :=
  (xor_shift_injective (by decide)).comp
    (murmurM_injective.comp (xor_shift_injective (by decide)))

theorem murmurHash64A_block_inj (hlen : a.length = b.length)
    (hsame : ∀ n, n / 8 ≠ i → a[n]? = b[n]?) (h : murmurHash64A a seed = murmurHash64A b seed) :
    a = b := by
  have hbody := murmurFinish_injective h
  simp only [hlen] at hbody
  have hdrop : ∀ {n}, 8 * (b.length/8) + n < a.length → (8 * (b.length/8) + n) / 8 =
      b.length/8 := by
    intro n hn
    omega
  have ht8 : (b.drop (8 * (b.length/8))).length < 8 := by
    rw [List.length_drop]
    omega
  by_cases hi : i = b.length / 8
  · -- all words are equal, so it is the tail
    have hwords : murmurWords a = murmurWords b := by
      apply List.ext_getElem?
      intro j
      by_cases hj : j < a.length / 8
      · exact murmurWords_congr hlen fun n hn => hsame n (by omega)
      · rw [List.getElem?_eq_none (by rw [length_murmurWords]; omega),
          List.getElem?_eq_none (by rw [length_murmurWords]; omega)]
    have htail : a.drop (8 * (b.length/8)) = b.drop (8 * (b.length/8)) := by
      rw [hwords] at hbody
      exact murmurTail_right_injective (by rw [List.length_drop, List.length_drop, hlen])
        (by rw [List.length_drop, hlen, ← List.length_drop]; exact ht8) hbody
    apply List.ext_getElem?
    intro n
    by_cases hn : n / 8 < a.length / 8
    · exact getElem?_of_murmurWords hlen hwords hn
    · have hat := congrArg (fun l => l[n - 8 * (b.length/8)]?) htail
      simp only [List.getElem?_drop] at hat
      rw [Nat.add_sub_cancel' (by omega)] at hat
      exact hat
  · have htail : a.drop (8 * (b.length/8)) = b.drop (8 * (b.length/8)) := by
      apply List.ext_getElem?
      intro n
      rw [List.getElem?_drop, List.getElem?_drop]
      by_cases hn : 8 * (b.length/8) + n < a.length
      · exact hsame _ (by rw [hdrop hn]; exact fun he => hi he.symm)
      · rw [List.getElem?_eq_none (by omega), List.getElem?_eq_none (by omega)]
    rw [htail] at hbody
    have hwords : murmurWords a = murmurWords b :=
      foldl_one_injective (i := i) murmurStep_left_injective murmurStep_right_injective
        (by rw [length_murmurWords, length_murmurWords, hlen])
        (fun j hj => murmurWords_congr hlen fun n hn => hsame n (by omega))
        (murmurTail_left_injective ht8 hbody)
    apply List.ext_getElem?
    intro n
    by_cases hn : n / 8 < a.length / 8
    · exact getElem?_of_murmurWords hlen hwords hn
    · by_cases hout : n < a.length
      · exact hsame n (by omega)
      · rw [List.getElem?_eq_none (by omega), List.getElem?_eq_none (by omega)]

/-- Keys of one length that differ in the bytes of one block only have different hashes. -/
theorem murmurHash64A_separates_blocks (hlen : a.length = b.length)
    (hsame : ∀ n, n / 8 ≠ i → a[n]? = b[n]?) (hne : a ≠ b) :
    murmurHash64A a seed ≠ murmurHash64A b seed :=
  fun h => hne (murmurHash64A_block_inj hlen hsame h)

theorem murmurHash64A_separates_blocks_small :
    murmurHash64A [1, 2, 3, 4, 5, 6, 7, 8, 9] 7 ≠ murmurHash64A [1, 2, 3, 4, 5, 6, 7, 8, 10] 7 := by
  refine murmurHash64A_separates_blocks (i := 1) rfl (fun n hn => ?_) (by decide)
  by_cases h9 : n < 9
  · interval_cases n
    all_goals first | rfl | exact absurd rfl hn
  · rw [List.getElem?_eq_none (Nat.not_lt.mp h9), List.getElem?_eq_none (Nat.not_lt.mp h9)]

end

/-! The hashes of the keys of a filter. -/

inductive HashMode where
  | default | invertible | none

def HashMode.keyHash (mode : HashMode) (seed : BitVec 32) (key : Nat) : Nat :=
  match mode with
  | .default => (murmurHash64A (wordBytes key) (seed.setWidth 64)).toNat
  | .invertible => (hash64 (BitVec.ofNat 64 key) (BitVec.allOnes 64)).toNat
  | .none => key

section
variable {j k : Nat} {qf : QF}

theorem ofNat_inj (hj : j < 2^64) (hk : k < 2^64) (h : BitVec.ofNat 64 j = BitVec.ofNat 64 k) :
    j = k := by
  have hnat := congrArg BitVec.toNat h
  rw [BitVec.toNat_ofNat, BitVec.toNat_ofNat, Nat.mod_eq_of_lt hj, Nat.mod_eq_of_lt hk] at hnat
  exact hnat

/-- A word is one block. -/
theorem murmurHash64A_word_inj (seed : BitVec 64) (hj : j < 2^64) (hk : k < 2^64)
    (h : murmurHash64A (wordBytes j) seed = murmurHash64A (wordBytes k) seed) : j = k := by
  refine wordBytes_inj hj hk (murmurHash64A_block_inj (i := 0) ?_ (fun n hn => ?_) h)
  · rw [length_wordBytes, length_wordBytes]
  · rw [List.getElem?_eq_none (by rw [length_wordBytes]; omega),
      List.getElem?_eq_none (by rw [length_wordBytes]; omega)]

theorem hash64_word_inj (hj : j < 2^64) (hk : k < 2^64)
    (h : hash64 (BitVec.ofNat 64 j) (maskOf 64) = hash64 (BitVec.ofNat 64 k) (maskOf 64)) :
    j = k := by
  have hback := congrArg (fun x => hash64i x (maskOf 64)) h
  simp only [hash64i_hash64 le_rfl (BitVec.isLt _)] at hback
  exact ofNat_inj hj hk hback

theorem HashMode.keyHash_inj (mode : HashMode) (seed : BitVec 32) (hj : j < 2^64) (hk : k < 2^64)
    (h : mode.keyHash seed j = mode.keyHash seed k) : j = k := by
  cases mode with
  | default => exact murmurHash64A_word_inj _ hj hk (BitVec.eq_of_toNat_eq h)
  | invertible => exact hash64_word_inj hj hk (BitVec.eq_of_toNat_eq h)
  | none => exact h

theorem HashMode.keyHash_lt (mode : HashMode) (seed : BitVec 32) (hk : k < 2^64) :
    mode.keyHash seed k < 2^64 := by
  cases mode with
  | default => exact BitVec.isLt _
  | invertible => exact BitVec.isLt _
  | none => exact hk

/-- In every mode and with every seed, the filter that `qf_init` makes in zeroed memory starts as an
empty one whose hashes tell all keys apart. -/
theorem qfInit_oneToOne (mode : HashMode) (seed : BitVec 32) {q keyBits : Nat}
    (hbits : q + 2 ≤ keyBits) (hlt : keyBits < 64) (hw : keyBits - q ≤ 56) :
    ∃ qf, qfInit (mode.keyHash seed) (2^q) keyBits (fun _ => QFBlock.zero) = some qf ∧ qf.Zeroed ∧
      qf.metadata.OneToOne := by
  have hsome := qfInit_isSome (mode.keyHash seed) q keyBits fun _ => QFBlock.zero
  rw [decide_eq_true hbits] at hsome
  obtain ⟨qf, hcall⟩ := Option.isSome_iff_exists.mp hsome
  obtain ⟨hm, hauto, hlocks, hblocks⟩ := qfInit_fields hcall
  have hhash : qf.metadata.keyHash = mode.keyHash seed := by rw [hm]; rfl
  refine ⟨qf, hcall, ?_, ?_⟩
  · refine ⟨hm ▸ initMetadata_geometry hbits hlt hw, fun j => ?_, ?_, ?_, ?_, hauto, fun i => ?_⟩
    · rw [hblocks]
      exact ite_self _
    · rw [hm]
      rfl
    · rw [hm]
      rfl
    · rw [hm]
      rfl
    · rw [hlocks]
  · refine ⟨fun k hk => ?_, fun j hj k hk he => ?_⟩
    · rw [hhash]
      exact mode.keyHash_lt seed hk
    · rw [hhash] at he
      exact mode.keyHash_inj seed hj hk he

theorem qfInit_oneToOne_small :
    ∃ qf, qfInit (HashMode.default.keyHash 26571997#32) (2^7) 16 (fun _ => QFBlock.zero) = some qf ∧
      qf.Zeroed ∧ qf.metadata.OneToOne :=
  qfInit_oneToOne .default 26571997#32 (show 7 + 2 ≤ 16 by decide) (by decide) (by decide)

end

end AdaptiveQF
