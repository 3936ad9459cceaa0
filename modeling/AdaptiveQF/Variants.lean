import AdaptiveQF.Insert
import AdaptiveQF.Lib.Rounding

/-! The filter classes of src/variants. -/
namespace AdaptiveQF

structure QFilterQueryResult where
  keyPresent : Int
  minirunRank : Int
  minirunCount : Int
  hash : Nat
  hashIndex : Nat
deriving DecidableEq

/-- `BaseAdaptiveFilter::queryFilter`. `minirunRank` and `hashIndex` are what its uninitialised
local variables hold, `result` what the caller's struct holds. The count is kept in a `uint8_t`. -/
def queryFilter (qf : QF) (queryKey minirunRank hashIndex : Nat) (result : QFilterQueryResult) :
    Option QFilterQueryResult := do
  let r ← qfGetCountUsingLlTableWithIndex qf queryKey minirunRank hashIndex QF_KEY_IS_HASH
  let minirunCount := (r.ret % 256).toNat
  if minirunCount > 0 then
    some { keyPresent := 1, minirunRank := r.minirunRank, minirunCount := minirunCount,
           hash := r.hash, hashIndex := r.index }
  else some { result with keyPresent := 0, minirunRank := r.minirunRank, hash := r.hash }

structure ReverseMap (M : Type) where
  /-- `insertFingerprint` or `insertAndCommitFingerprint`, as the parameters of the benchmark
  say. -/
  insertFingerprint : M → Nat → Int → Nat → Int × M
  commitFingerprints : M → M
  /-- The return value and what is in `*value` after the call. The last argument is what is in it
  before. -/
  getFingerprint : M → Nat → Int → Nat → Int × Nat

structure QFilterConfig where
  breakEvenCount : Int
  /-- `max_load_factor` times the number of slots. -/
  fullPoint : Nat

structure RepeatWindow where
  repeatDetectorFilter : Nat → Bool
  windowProgress : Nat
  windowRepeatFPs : Nat
  windowCorrectedFPs : Nat
  avgRepeatFPsPerWindow : ℚ
  avgCorrectedFPsPerWindow : ℚ
  numAdapts : Nat
  correctedFpThreshold : Nat

def RepeatWindow.start : RepeatWindow := ⟨fun _ => false, 0, 0, 0, 0, 0, 0, 0⟩

structure AdaptiveFilter (M : Type) where
  qf : QF
  reverseMap : M
  window : RepeatWindow

def toDouble (x : ℚ) : ℚ := Rounding.round 53 (-1074) x

def smoothingFactor : ℚ := toDouble (7/10)
def windowSize : Nat := 1000000
def repeatedFpThreshold : Nat := 6

/-- Every operation is rounded, and the count as it becomes a double. -/
def movingAverage (avg : ℚ) (count : Nat) : ℚ :=
  toDouble (toDouble (toDouble (1 - smoothingFactor) * avg) +
    toDouble (smoothingFactor * toDouble count))

section
variable {x y : ℚ}

theorem toDouble_nonneg (h : 0 ≤ x) : 0 ≤ toDouble x := Rounding.round_nonneg h

theorem toDouble_mono (hx : 0 ≤ x) (h : x ≤ y) : toDouble x ≤ toDouble y :=
  Rounding.round_mono (by decide) hx h

theorem smoothingFactor_nonneg : 0 ≤ smoothingFactor ∧ 0 ≤ toDouble (1 - smoothingFactor) := by
  decide +kernel

theorem movingAverage_nonneg (hx : 0 ≤ x) (n : Nat) : 0 ≤ movingAverage x n := by
  obtain ⟨hnew, hold⟩ := smoothingFactor_nonneg
  exact toDouble_nonneg (add_nonneg (toDouble_nonneg (mul_nonneg hold hx))
    (toDouble_nonneg (mul_nonneg hnew (toDouble_nonneg (Nat.cast_nonneg n)))))

theorem movingAverage_mono (hx : 0 ≤ x) (h : x ≤ y) {n k : Nat} (hn : n ≤ k) :
    movingAverage x n ≤ movingAverage y k := by
  obtain ⟨hnew, hold⟩ := smoothingFactor_nonneg
  have hcount : 0 ≤ toDouble n := toDouble_nonneg (Nat.cast_nonneg n)
  have hnext : toDouble n ≤ toDouble k := toDouble_mono (Nat.cast_nonneg n) (Nat.cast_le.mpr hn)
  refine toDouble_mono ?_ (add_le_add ?_ ?_)
  · exact add_nonneg (toDouble_nonneg (mul_nonneg hold hx))
      (toDouble_nonneg (mul_nonneg hnew hcount))
  · exact toDouble_mono (mul_nonneg hold hx) (mul_le_mul_of_nonneg_left h hold)
  · exact toDouble_mono (mul_nonneg hnew hcount) (mul_le_mul_of_nonneg_left hnext hnew)

end

namespace RepeatWindow

def roll (w : RepeatWindow) (hashBits : Nat) : RepeatWindow :=
  if w.windowProgress = windowSize then
    { w with
      avgRepeatFPsPerWindow := movingAverage w.avgRepeatFPsPerWindow w.windowRepeatFPs
      avgCorrectedFPsPerWindow := movingAverage w.avgCorrectedFPsPerWindow w.windowCorrectedFPs
      correctedFpThreshold := 2 * windowSize * w.numAdapts % 2^64 / 2^hashBits
      windowProgress := 0
      windowRepeatFPs := 0
      windowCorrectedFPs := 0
      repeatDetectorFilter := fun _ => false }
  else w

def negative (w : RepeatWindow) (extLen hashBits : Nat) : RepeatWindow :=
  { w with
    windowProgress := add64 w.windowProgress 1
    windowCorrectedFPs :=
      if extLen > 0 then add64 w.windowCorrectedFPs 1 else w.windowCorrectedFPs }.roll hashBits

def repeatHashes (key : Nat) : List Nat := [0, 16, 32, 48].map fun i => shr64 key i % 2^16

def isRepeated (w : RepeatWindow) (key : Nat) : Bool :=
  (repeatHashes key).all w.repeatDetectorFilter

def falsePositive (w : RepeatWindow) (key hashBits : Nat) : RepeatWindow :=
  let w := if w.isRepeated key then { w with windowRepeatFPs := add64 w.windowRepeatFPs 1 }
    else { w with
      repeatDetectorFilter := fun i => i ∈ repeatHashes key || w.repeatDetectorFilter i }
  { w with windowProgress := add64 w.windowProgress 1 }.roll hashBits

def exceeded (w : RepeatWindow) : Bool :=
  w.avgRepeatFPsPerWindow > toDouble repeatedFpThreshold ||
    w.avgCorrectedFPsPerWindow > toDouble w.correctedFpThreshold

end RepeatWindow

section
variable {M : Type}

def toWord (x : Int) : Nat := (x % 2^64).toNat

/-- The adaptation that three of the classes make in the same way: the key is fetched, and the
fingerprint in front of which it stands extended. -/
def fetchAndAdapt (rm : ReverseMap M) (f : AdaptiveFilter M) (queryKey : Nat)
    (result : QFilterQueryResult) (origKey : Nat) : Option (Int × AdaptiveFilter M) :=
  let (ret, origKey) := rm.getFingerprint f.reverseMap result.hash result.minirunRank origKey
  if ret ≠ 0 then some (-1, f)
  else do
    let (_, qf) ← qfAdaptUsingLlTable f.qf origKey queryKey (toWord result.minirunRank)
      QF_KEY_IS_HASH
    some (1, { f with qf := qf })

/-- `AdaptiveQF::adapt`. In all four, `origKey` is what the local variable holds before. -/
def adaptiveQFAdapt (rm : ReverseMap M) (config : QFilterConfig) (f : AdaptiveFilter M)
    (queryKey : Nat) (result : QFilterQueryResult) (origKey : Nat) :
    Option (Int × AdaptiveFilter M) :=
  if f.qf.metadata.noccupiedSlots ≥ config.fullPoint then some (-1, f)
  else fetchAndAdapt rm f queryKey result origKey

def coinFlipAdapt (rm : ReverseMap M) (config : QFilterConfig) (coinFlip : Bool)
    (f : AdaptiveFilter M) (queryKey : Nat) (result : QFilterQueryResult) (origKey : Nat) :
    Option (Int × AdaptiveFilter M) :=
  if f.qf.metadata.noccupiedSlots ≥ config.fullPoint then some (-1, f)
  else if coinFlip then fetchAndAdapt rm f queryKey result origKey
  else some (0, f)

def skiQFAdapt (rm : ReverseMap M) (config : QFilterConfig) (f : AdaptiveFilter M)
    (queryKey : Nat) (result : QFilterQueryResult) (origKey : Nat) :
    Option (Int × AdaptiveFilter M) :=
  if f.qf.metadata.noccupiedSlots ≥ config.fullPoint then some (-1, f)
  else if result.minirunCount < config.breakEvenCount then do
    let (_, qf) ← insertAndExtend f.qf result.hashIndex result.hash 1 result.hash 0 0 QF_KEY_IS_HASH
    some (0, { f with qf := qf })
  else fetchAndAdapt rm f queryKey result origKey

/-- `HybridSkiQF::adapt`, which looks neither at the load nor at what `getFingerprint` returns. -/
def hybridSkiQFAdapt (rm : ReverseMap M) (f : AdaptiveFilter M) (queryKey : Nat)
    (result : QFilterQueryResult) (origKey : Nat) : Option (Int × AdaptiveFilter M) :=
  let window := f.window.falsePositive queryKey (f.qf.qbits + f.qf.bits)
  if window.exceeded then do
    let (_, origKey) := rm.getFingerprint f.reverseMap result.hash result.minirunRank origKey
    let (_, qf) ← qfAdaptUsingLlTable f.qf origKey queryKey (toWord result.minirunRank)
      QF_KEY_IS_HASH
    some (1, { f with qf := qf, window := { window with numAdapts := add64 window.numAdapts 1 } })
  else some (0, { f with window := window })

def hybridSkiQFQueryFilter (f : AdaptiveFilter M) (queryKey : Nat) (result : QFilterQueryResult) :
    Option (QFilterQueryResult × AdaptiveFilter M) := do
  let r ← qfQueryUsingLlTableWithExtLen f.qf queryKey 0 QF_KEY_IS_HASH
  let found : Bool := r.ret ≥ 0
  some ({ result with
      keyPresent := if found then 1 else 0
      hash := r.hash
      minirunRank := r.ret },
    if found then f
    else { f with window := f.window.negative r.extLen (f.qf.qbits + f.qf.bits) })

/-- `BaseAdaptiveFilter::bulkLoad`. The loop ends when as many slots are occupied as there are keys.
`result` is what its uninitialised variable holds. -/
def bulkLoad (rm : ReverseMap M) (resize : QF → Nat → Option (Int × QF)) (numKeys : Nat)
    (result : InsertResult) : List Nat → QF → M → Option (Int × QF × M)
  | keys, qf, m =>
    if qf.metadata.noccupiedSlots < numKeys then
      match keys with
      | [] => none
      | key :: keys => do
        let ((ret, inserted), qf) ← qfInsertUsingLlTable resize qf key 1 result
          (QF_NO_LOCK ||| QF_KEY_IS_HASH)
        if ret < 0 then some (-1, qf, m)
        else
          let (ret, m) := rm.insertFingerprint m inserted.minirunId (toInt inserted.minirunRank) key
          if ret < 0 then some (-1, qf, m) else bulkLoad rm resize numKeys result keys qf m
    else some (0, qf, rm.commitFingerprints m)

end

end AdaptiveQF
