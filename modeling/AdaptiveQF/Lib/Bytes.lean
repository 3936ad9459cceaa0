import Mathlib.Tactic.Common

/-! Byte-addressed memory with little-endian 64-bit words at any address. -/
namespace Bytes

abbrev Memory := Nat → BitVec 8

def bit (m : Memory) (i : Nat) : Bool := (m (i / 8)).getLsbD (i % 8)

def readWord (m : Memory) (a : Nat) : BitVec 64 :=
  m (a+7) ++ m (a+6) ++ m (a+5) ++ m (a+4) ++ m (a+3) ++ m (a+2) ++ m (a+1) ++ m a

def wordByte (w : BitVec 64) (k : Nat) : BitVec 8 := w.extractLsb' (8*k) 8

def writeWord (m : Memory) (a : Nat) (w : BitVec 64) : Memory := fun x =>
  if a ≤ x ∧ x < a + 8 then wordByte w (x - a) else m x

section
variable {m m' : Memory} {a k i : Nat} {w : BitVec 64}

theorem getLsbD_readWord (hk : k < 64) : (readWord m a).getLsbD k = bit m (8*a + k) := by
  have hdiv : (8*a + k) / 8 = a + k/8 := by omega
  have hmod : (8*a + k) % 8 = k % 8 := by omega
  unfold bit
  rw [hdiv, hmod]
  simp only [readWord, BitVec.getLsbD_append]
  -- the byte of `m` in which bit `k` of the word lies
  split_ifs <;> congr 2 <;> omega

theorem getLsbD_wordByte (hi : i < 8) : (wordByte w k).getLsbD i = w.getLsbD (8*k + i) := by
  simp [wordByte, hi]

theorem bit_writeWord : bit (writeWord m a w) i =
    if 8*a ≤ i ∧ i < 8*a + 64 then w.getLsbD (i - 8*a) else bit m i := by
  unfold bit writeWord
  by_cases h : a ≤ i/8 ∧ i/8 < a + 8
  · have hin : 8*a ≤ i ∧ i < 8*a + 64 := by omega
    have hk : 8*(i/8 - a) + i % 8 = i - 8*a := by omega
    rw [if_pos h, if_pos hin, getLsbD_wordByte (Nat.mod_lt i (by decide)), hk]
  · have hout : ¬ (8*a ≤ i ∧ i < 8*a + 64) := by omega
    rw [if_neg h, if_neg hout]

theorem wordByte_readWord (hk : k < 8) : wordByte (readWord m a) k = m (a + k) := by
  apply BitVec.eq_of_getLsbD_eq
  intro i hi
  have hdiv : (8*a + (8*k + i)) / 8 = a + k := by omega
  have hmod : (8*a + (8*k + i)) % 8 = i := by omega
  rw [getLsbD_wordByte hi, getLsbD_readWord (by omega), bit, hdiv, hmod]

theorem readWord_eq (h : ∀ k, k < 8 → m (a + k) = wordByte w k) : readWord m a = w := by
  apply BitVec.eq_of_getLsbD_eq
  intro k hk
  have hdiv : (8*a + k) / 8 = a + k/8 := by omega
  have hmod : (8*a + k) % 8 = k % 8 := by omega
  have hlt : k % 8 < 8 := Nat.mod_lt k (by decide)
  have hsum : 8*(k/8) + k % 8 = k := by omega
  rw [getLsbD_readWord hk, bit, hdiv, hmod, h (k/8) (by omega), getLsbD_wordByte hlt, hsum]

end

end Bytes
