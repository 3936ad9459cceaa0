import AdaptiveQF.Lib.Bloom
import AdaptiveQF.FalsePositives

/-! The repeat detector of HybridSkiQF: which false positives it takes for repeated ones, and what
that has to do with the first adaptation. -/
namespace AdaptiveQF

/-- What a log says about the windows: how far the current one has come, its false positives, the
last one first, and how many of them were repeated in each window that is over. -/
structure WindowLog where
  progress : Nat
  keys : List Nat
  repeats : List Nat

namespace WindowLog

def repeated (l : WindowLog) : Nat := Bloom.repeats RepeatWindow.repeatHashes l.keys

def roll (l : WindowLog) : WindowLog :=
  if l.progress = windowSize then ⟨0, [], l.repeated :: l.repeats⟩ else l

def next (l : WindowLog) (a : Nat × Verdict) : WindowLog :=
  match a.2 with
  | .positive => l
  | .negative => roll ⟨l.progress + 1, l.keys, l.repeats⟩
  | .falsePositive _ => roll ⟨l.progress + 1, a.1 :: l.keys, l.repeats⟩

end WindowLog

def windowLog (log : List (Nat × Verdict)) : WindowLog := log.foldl WindowLog.next ⟨0, [], []⟩

structure Detecting (w : RepeatWindow) (l : WindowLog) : Prop where
  progress : w.windowProgress = l.progress
  marks : Bloom.Marks RepeatWindow.repeatHashes w.repeatDetectorFilter l.keys
  repeats : w.windowRepeatFPs = l.repeated
  keys : l.keys.length ≤ l.progress

section
variable {w : RepeatWindow} {l : WindowLog} {key : Nat}

theorem windowLog_concat (log : List (Nat × Verdict)) (a : Nat × Verdict) :
    windowLog (log ++ [a]) = (windowLog log).next a := by
  rw [windowLog, List.foldl_append]
  rfl

theorem Detecting.start : Detecting .start ⟨0, [], []⟩ :=
  ⟨rfl, Bloom.marks_nil, rfl, Nat.le_refl _⟩

theorem WindowLog.roll_progress_lt (h : l.progress ≤ windowSize) :
    l.roll.progress < windowSize := by
  unfold roll
  split
  · exact (by decide : 0 < windowSize)
  · omega

theorem Detecting.roll (h : Detecting w l) (hashBits : Nat) :
    Detecting (w.roll hashBits) l.roll := by
  unfold RepeatWindow.roll WindowLog.roll
  rw [h.progress]
  by_cases hend : l.progress = windowSize
  · rw [if_pos hend, if_pos hend]
    exact ⟨rfl, Bloom.marks_nil, rfl, Nat.le_refl _⟩
  · rw [if_neg hend, if_neg hend]
    exact h

/-- A negative answer, in front of the end of the window. -/
theorem Detecting.count (h : Detecting w l) (hlt : l.progress < windowSize) (corrected : Nat) :
    Detecting { w with
      windowProgress := add64 w.windowProgress 1
      windowCorrectedFPs := corrected } ⟨l.progress + 1, l.keys, l.repeats⟩ := by
  refine ⟨?_, h.marks, h.repeats, h.keys.trans (Nat.le_succ _)⟩
  show add64 w.windowProgress 1 = l.progress + 1
  rw [h.progress, add64_one hlt]

def RepeatWindow.charged (w : RepeatWindow) (key : Nat) : RepeatWindow :=
  let w := if w.isRepeated key then { w with windowRepeatFPs := add64 w.windowRepeatFPs 1 }
    else { w with
      repeatDetectorFilter := fun i => i ∈ repeatHashes key || w.repeatDetectorFilter i }
  { w with windowProgress := add64 w.windowProgress 1 }

theorem RepeatWindow.falsePositive_eq (w : RepeatWindow) (key hashBits : Nat) :
    w.falsePositive key hashBits = (w.charged key).roll hashBits := rfl

theorem Detecting.charged (h : Detecting w l) (hlt : l.progress < windowSize) (key : Nat) :
    Detecting (w.charged key) ⟨l.progress + 1, key :: l.keys, l.repeats⟩ := by
  have hle : l.repeated < windowSize :=
    (Bloom.repeats_le_length RepeatWindow.repeatHashes l.keys).trans_lt (h.keys.trans_lt hlt)
  have hknown : w.isRepeated key = Bloom.known RepeatWindow.repeatHashes l.keys key :=
    h.marks.all_eq key
  have hprogress : add64 w.windowProgress 1 = l.progress + 1 := by rw [h.progress, add64_one hlt]
  unfold RepeatWindow.charged
  cases hk : w.isRepeated key with
  | true =>
    rw [hk] at hknown
    simp only [if_true]
    refine ⟨hprogress, h.marks.skip hknown.symm, ?_, Nat.succ_le_succ h.keys⟩
    show add64 w.windowRepeatFPs 1 = _
    rw [h.repeats, add64_one hle, WindowLog.repeated, WindowLog.repeated, Bloom.repeats, ← hknown,
      if_pos rfl]
  | false =>
    rw [hk] at hknown
    simp only [Bool.false_eq_true, if_false]
    refine ⟨hprogress, h.marks.add key, ?_, Nat.succ_le_succ h.keys⟩
    show w.windowRepeatFPs = _
    rw [h.repeats, WindowLog.repeated, WindowLog.repeated, Bloom.repeats, ← hknown,
      if_neg Bool.false_ne_true, Nat.add_zero]

end

section
variable {M : Type} {rm : ReverseMap M} {m m0 : M} {qf0 qf : QF} {T0 T : Table} {keys : List Nat}
  {resize : QF → Nat → Option (Int × QF)} {result : InsertResult} {config : QFilterConfig}
  {lookupKey : Nat → Bool} {s s' : Service M} {q : Request}

theorem WindowLog.next_progress_lt {l : WindowLog} (h : l.progress < windowSize)
    (a : Nat × Verdict) : (l.next a).progress < windowSize := by
  unfold WindowLog.next
  split
  · exact h
  · exact WindowLog.roll_progress_lt h
  · exact WindowLog.roll_progress_lt h

theorem Detecting.stepped (h : Detecting s.filter.window (windowLog s.log))
    (hlt : (windowLog s.log).progress < windowSize) (hs : Stepped .hybridSkiQF T q s s') :
    Detecting s'.filter.window (windowLog s'.log) ∧ (windowLog s'.log).progress < windowSize := by
  cases hs with
  | miss hm hqf hlog hwindow =>
    rw [hlog, windowLog_concat, hwindow rfl]
    exact ⟨(h.count hlt _).roll _, WindowLog.next_progress_lt hlt _⟩
  | hit hf hfilter hlog =>
    rw [hlog, windowLog_concat, hfilter]
    exact ⟨h, hlt⟩
  | adapt hf hcase hlog hwindow =>
    obtain ⟨n, hwindow⟩ := hwindow rfl
    rw [hlog, windowLog_concat, hwindow]
    obtain ⟨hprogress, hmarks, hrepeats, hkeys⟩ :=
      (h.charged hlt q.key).roll (s.filter.qf.qbits + s.filter.qf.bits)
    exact ⟨⟨hprogress, hmarks, hrepeats, hkeys⟩, WindowLog.next_progress_lt hlt _⟩

structure Watching (rm : ReverseMap M) (qf0 : QF) (T0 : Table) (s : Service M) : Prop where
  map : Loaded rm qf0 T0 s.filter.reverseMap
  serving : ∃ T, Serving qf0 T0 s.filter.qf T
  detecting : Detecting s.filter.window (windowLog s.log)
  lt : (windowLog s.log).progress < windowSize

theorem Loaded.watching (hl : Loaded rm qf0 T0 m) (r0 : QFilterQueryResult) :
    Watching rm qf0 T0 ⟨⟨qf0, m, .start⟩, r0, []⟩ :=
  ⟨hl, ⟨T0, hl.serving⟩, .start, (by decide : 0 < windowSize)⟩

theorem Watching.step (hs : Watching rm qf0 T0 s) (config : QFilterConfig) (lookupKey : Nat → Bool)
    (hq : q.key < 2^64) : ∃ s' T, q.step rm config .hybridSkiQF lookupKey s = some s' ∧
      Serving qf0 T0 s.filter.qf T ∧ Stepped .hybridSkiQF T q s s' ∧ Watching rm qf0 T0 s' := by
  obtain ⟨T, hT⟩ := hs.serving
  have hybrid : FilterClass.hybridSkiQF ≠ .skiQF := by decide
  obtain ⟨s', hcall, hmap, hdone⟩ := hT.step hs.map hybrid config lookupKey q hq
  obtain ⟨hdetect, hlt⟩ := hs.detecting.stepped hs.lt hdone
  exact ⟨s', T, hcall, hT, hdone, by rw [hmap]; exact hs.map, (hT.stepped hdone).1, hdetect, hlt⟩

/-- In every run of HybridSkiQF behind a load, the detector takes those false positives of a window
for repeated whose pieces are all pieces of earlier ones, and it misses no repetition. -/
theorem hybrid_repeats (h : Loadable rm resize result keys qf0 m0)
    (hload : bulkLoad rm resize keys.length result keys qf0 m0 = some (0, qf, m))
    {requests : List Request} (hq : ∀ q ∈ requests, q.key < 2^64) (r0 : QFilterQueryResult) :
    ∃ s, Runs.run (Request.step rm config .hybridSkiQF lookupKey) requests
        ⟨⟨qf, m, .start⟩, r0, []⟩ = some s ∧
      s.filter.window.windowRepeatFPs = (windowLog s.log).repeated ∧
      (∀ key, s.filter.window.isRepeated key = true ↔ ∀ piece ∈ RepeatWindow.repeatHashes key,
        ∃ k ∈ (windowLog s.log).keys, piece ∈ RepeatWindow.repeatHashes k) ∧
      (windowLog s.log).keys.length ≤
        (windowLog s.log).keys.dedup.length + s.filter.window.windowRepeatFPs := by
  obtain ⟨-, T0, hl, -, -⟩ := h.loaded hload
  have hstep : ∀ (q : Request) (s : Service M), Watching rm qf T0 s → q.key < 2^64 →
      ∃ s', q.step rm config .hybridSkiQF lookupKey s = some s' ∧ Watching rm qf T0 s' := by
    intro q s hs hq
    obtain ⟨s', -, hcall, -, -, hs'⟩ := hs.step config lookupKey hq
    exact ⟨s', hcall, hs'⟩
  obtain ⟨s, hrun, hs⟩ := Runs.invariant hstep (hl.watching r0) (Runs.along_of_mem hq)
  refine ⟨s, hrun, hs.detecting.repeats, fun key => ?_, ?_⟩
  · rw [RepeatWindow.isRepeated, hs.detecting.marks.all_eq, Bloom.known_iff]
  · rw [hs.detecting.repeats]
    exact Bloom.length_le _ _

/-! The first adaptation. -/

structure RepeatWindow.Calm (w : RepeatWindow) : Prop where
  nonneg : 0 ≤ w.avgRepeatFPsPerWindow
  repeats : w.avgRepeatFPsPerWindow ≤ toDouble repeatedFpThreshold
  corrected : w.avgCorrectedFPsPerWindow = 0
  windowCorrected : w.windowCorrectedFPs = 0

theorem RepeatWindow.Calm.not_exceeded {w : RepeatWindow} (h : w.Calm) : w.exceeded = false := by
  rw [exceeded, h.corrected, Bool.or_eq_false_iff, decide_eq_false_iff_not, decide_eq_false_iff_not]
  exact ⟨not_lt.mpr h.repeats, not_lt.mpr (toDouble_nonneg (Nat.cast_nonneg _))⟩

/-- The average does not rise above the threshold by rounding. -/
theorem movingAverage_threshold : movingAverage (toDouble repeatedFpThreshold) repeatedFpThreshold ≤
    toDouble repeatedFpThreshold := by decide +kernel

theorem RepeatWindow.calm_start : RepeatWindow.start.Calm :=
  ⟨le_refl _, toDouble_nonneg (Nat.cast_nonneg _), rfl, rfl⟩

theorem RepeatWindow.Calm.roll {w : RepeatWindow} {l : WindowLog} (h : w.Calm) (hd : Detecting w l)
    (hle : ∀ n ∈ l.roll.repeats, n ≤ repeatedFpThreshold) (hashBits : Nat) :
    (w.roll hashBits).Calm := by
  unfold RepeatWindow.roll
  unfold WindowLog.roll at hle
  rw [hd.progress]
  by_cases hend : l.progress = windowSize
  · rw [if_pos hend] at hle ⊢
    have hlast : w.windowRepeatFPs ≤ repeatedFpThreshold := by
      rw [hd.repeats]
      exact hle _ List.mem_cons_self
    refine ⟨movingAverage_nonneg h.nonneg _, ?_, ?_, rfl⟩
    · exact (movingAverage_mono h.nonneg h.repeats hlast).trans movingAverage_threshold
    · have hzero : movingAverage 0 0 = 0 := by decide +kernel
      simp only [h.corrected, h.windowCorrected, hzero]
  · rw [if_neg hend]
    exact h

theorem WindowLog.roll_repeats (l : WindowLog) : l.repeats ⊆ l.roll.repeats := by
  unfold roll
  split
  · exact List.subset_cons_self _ _
  · exact List.Subset.refl _

theorem WindowLog.next_repeats (l : WindowLog) (a : Nat × Verdict) :
    l.repeats ⊆ (l.next a).repeats := by
  unfold next
  split
  · exact List.Subset.refl _
  · exact WindowLog.roll_repeats ⟨l.progress + 1, l.keys, l.repeats⟩
  · exact WindowLog.roll_repeats ⟨l.progress + 1, a.1 :: l.keys, l.repeats⟩

/-- A positive answer leaves the filter as it is. -/
theorem hybridSkiQFQueryFilter_positive {f f' : AdaptiveFilter M} {key : Nat}
    {r0 r : QFilterQueryResult}
    (h : hybridSkiQFQueryFilter f key r0 = some (r, f')) (hp : r.keyPresent ≠ 0) : f' = f := by
  simp only [hybridSkiQFQueryFilter, Option.bind_eq_bind, Option.bind_eq_some_iff,
      Option.some.injEq,
    Prod.mk.injEq] at h
  obtain ⟨x, -, rfl, rfl⟩ := h
  by_cases hfound : x.ret ≥ 0
  · simp [hfound]
  · simp [hfound] at hp

/-- `HybridSkiQF::adapt` returns 1 only if the averages exceed their thresholds. -/
theorem hybrid_exceeded (hstep : q.step rm config .hybridSkiQF lookupKey s = some s')
    (hlog : s'.log = s.log ++ [(q.key, .falsePositive 1)]) :
    (s.filter.window.falsePositive q.key
      (s.filter.qf.qbits + s.filter.qf.bits)).exceeded = true := by
  rw [Request.step, Option.bind_eq_bind, Option.bind_eq_some_iff] at hstep
  obtain ⟨⟨r, f⟩, hquery, hrest⟩ := hstep
  rw [FilterClass.queryFilter, if_pos rfl] at hquery
  by_cases hp : r.keyPresent = 0
  · simp only [if_pos hp, Option.some.injEq] at hrest
    rw [← hrest] at hlog
    simp at hlog
  · obtain rfl := hybridSkiQFQueryFilter_positive hquery hp
    by_cases hdb : (!q.inRound || lookupKey q.key) = true
    · simp only [if_neg hp, if_pos hdb, Option.some.injEq] at hrest
      rw [← hrest] at hlog
      simp at hlog
    · simp only [if_neg hp, if_neg hdb, Option.bind_eq_bind, Option.bind_eq_some_iff] at hrest
      obtain ⟨⟨ret, f⟩, hadapt, hs⟩ := hrest
      cases hs
      have hret : ret = 1 := by simpa using hlog
      subst hret
      by_contra hno
      simp [FilterClass.adapt, hybridSkiQFAdapt, hno] at hadapt

structure Waiting (rm : ReverseMap M) (qf0 : QF) (T0 : Table) (s : Service M) : Prop
    extends Watching rm qf0 T0 s where
  calm : (∀ n ∈ (windowLog s.log).repeats, n ≤ repeatedFpThreshold) →
    s.filter.qf = qf0 ∧ s.filter.window.Calm
  reason : ∀ l1 y l2, s.log = l1 ++ (y, .falsePositive 1) :: l2 →
    ∃ n ∈ (windowLog (l1 ++ [(y, .falsePositive 1)])).repeats, repeatedFpThreshold < n

theorem Waiting.le (hs : Waiting rm qf0 T0 s) {a : Nat × Verdict}
    (hle : ∀ n ∈ ((windowLog s.log).next a).repeats, n ≤ repeatedFpThreshold) :
    s.filter.qf = qf0 ∧ s.filter.window.Calm :=
  hs.calm fun n hn => hle n (WindowLog.next_repeats _ a hn)

theorem Waiting.falsePositive (hs : Waiting rm qf0 T0 s) {y : Nat} {ret : Int} (hashBits : Nat)
    (hle : ∀ n ∈ ((windowLog s.log).next (y, .falsePositive ret)).repeats,
      n ≤ repeatedFpThreshold) :
    (s.filter.window.falsePositive y hashBits).Calm := by
  obtain ⟨-, hcalm⟩ := hs.le hle
  rw [RepeatWindow.falsePositive_eq]
  refine RepeatWindow.Calm.roll ?_ (hs.detecting.charged hs.lt y) hle hashBits
  unfold RepeatWindow.charged
  split
  · exact ⟨hcalm.nonneg, hcalm.repeats, hcalm.corrected, hcalm.windowCorrected⟩
  · exact ⟨hcalm.nonneg, hcalm.repeats, hcalm.corrected, hcalm.windowCorrected⟩

/-- A key that the loaded filter does not know is no corrected false positive. -/
theorem Serving.lastExtLen_eq_zero (h : Serving qf0 T0 qf0 T) (hl : Loaded rm qf0 T0 m) {y : Nat}
    (hm : ∀ x ∈ T (qf0.metadata.bucket y), ¬ x.Matches qf0.metadata y) :
    lastExtLen qf0.metadata y 0 (T.contents qf0.metadata (qf0.metadata.bucket y)) = 0 := by
  by_contra hpos
  have hpositive := (h.corrected_iff hl hm).mp (Nat.pos_of_ne_zero hpos)
  rw [h.represents.answersPositively_iff (allNear_of_xnslots hl.near), Table.matchCount,
    List.countP_pos_iff] at hpositive
  obtain ⟨x, hx, hmatch⟩ := hpositive
  exact hm x hx (by simpa using hmatch)

/-- An adaptation has its reason in a window that is over. -/
theorem Waiting.adapted (hs : Waiting rm qf0 T0 s)
    (hstep : q.step rm config .hybridSkiQF lookupKey s = some s')
    (hlog : s'.log = s.log ++ [(q.key, .falsePositive 1)]) :
    ∃ n ∈ (windowLog s'.log).repeats, repeatedFpThreshold < n := by
  by_contra hno
  push Not at hno
  rw [hlog, windowLog_concat] at hno
  have hexceeded := hybrid_exceeded hstep hlog
  rw [(hs.falsePositive _ hno).not_exceeded] at hexceeded
  cases hexceeded

theorem Waiting.step (hs : Waiting rm qf0 T0 s) (config : QFilterConfig) (lookupKey : Nat → Bool)
    (hq : q.key < 2^64) :
    ∃ s', q.step rm config .hybridSkiQF lookupKey s = some s' ∧ Waiting rm qf0 T0 s' := by
  obtain ⟨s', T, hcall, hT, hdone, hw⟩ := hs.toWatching.step config lookupKey hq
  refine ⟨s', hcall, hw, fun hle => ?_, fun l1 y l2 hsplit => ?_⟩
  · cases hdone with
    | miss hm hqf hlog hwindow =>
      rw [hlog, windowLog_concat] at hle
      obtain ⟨hsame, hcalm⟩ := hs.le hle
      rw [hqf, hsame]
      refine ⟨rfl, ?_⟩
      rw [hwindow rfl]
      refine RepeatWindow.Calm.roll ?_ (hs.detecting.count hs.lt _) hle _
      refine ⟨hcalm.nonneg, hcalm.repeats, hcalm.corrected, ?_⟩
      rw [hsame] at hm hT
      simp only [hsame, hT.lastExtLen_eq_zero hs.map hm]
      exact hcalm.windowCorrected
    | hit hf hfilter hlog =>
      rw [hlog, windowLog_concat] at hle
      rw [hfilter]
      exact hs.le hle
    | adapt hf hcase hlog hwindow =>
      have hreason := hs.adapted (q := q) hcall
      rw [hlog] at hreason
      have hle2 := hle
      rw [hlog, windowLog_concat] at hle
      obtain ⟨n, hwindow⟩ := hwindow rfl
      have hcalm := hs.falsePositive (s.filter.qf.qbits + s.filter.qf.bits) hle
      rw [hwindow]
      refine ⟨?_, hcalm.nonneg, hcalm.repeats, hcalm.corrected, hcalm.windowCorrected⟩
      cases hcase with
      | inl hadapted =>
        obtain ⟨n, hn, hlt⟩ := hreason (by rw [hadapted.1])
        rw [hlog] at hle2
        exact absurd (hle2 n hn) (Nat.not_le.mpr hlt)
      | inr hkept => rw [hkept.2, (hs.le hle).1]
  · obtain ⟨-, v, hlog, -⟩ := hT.stepped hdone
    have hreason := hs.adapted (q := q) hcall
    rw [hlog] at hsplit hreason
    cases List.eq_nil_or_concat l2 with
    | inl hnil =>
      subst hnil
      obtain ⟨rfl, hlast⟩ := List.append_inj' hsplit rfl
      obtain ⟨rfl, rfl⟩ := Prod.mk.inj (List.cons.inj hlast).1
      exact hreason rfl
    | inr hconcat =>
      obtain ⟨l3, x, rfl⟩ := hconcat
      rw [List.concat_eq_append, ← List.cons_append, ← List.append_assoc] at hsplit
      exact hs.reason l1 y l3 (List.append_inj' hsplit rfl).1

/-- HybridSkiQF adapts no item before a window has come to its end with more repeated false
positives than the threshold. -/
theorem hybrid_first_adaptation (h : Loadable rm resize result keys qf0 m0)
    (hload : bulkLoad rm resize keys.length result keys qf0 m0 = some (0, qf, m))
    {requests : List Request} (hq : ∀ q ∈ requests, q.key < 2^64) (r0 : QFilterQueryResult) :
    ∃ s, Runs.run (Request.step rm config .hybridSkiQF lookupKey) requests
        ⟨⟨qf, m, .start⟩, r0, []⟩ = some s ∧
      ∀ l1 y l2, s.log = l1 ++ (y, .falsePositive 1) :: l2 →
        ∃ n ∈ (windowLog (l1 ++ [(y, .falsePositive 1)])).repeats, repeatedFpThreshold < n := by
  obtain ⟨-, T0, hl, -, -⟩ := h.loaded hload
  have hstart : Waiting rm qf T0 ⟨⟨qf, m, .start⟩, r0, []⟩ :=
    ⟨hl.watching r0, fun _ => ⟨rfl, RepeatWindow.calm_start⟩, by simp⟩
  have hstep : ∀ (q : Request) (s : Service M), Waiting rm qf T0 s → q.key < 2^64 →
      ∃ s', q.step rm config .hybridSkiQF lookupKey s = some s' ∧ Waiting rm qf T0 s' :=
    fun q s hs hq => hs.step config lookupKey hq
  obtain ⟨s, hrun, hs⟩ := Runs.invariant hstep hstart (Runs.along_of_mem hq)
  exact ⟨s, hrun, hs.reason⟩

end

theorem hybrid_repeats_shared : ∃ qf m, loadShared sharedMap ⟨[], fun _ => none⟩ = some (0, qf, m) ∧
    ∃ s, Runs.run (Request.step sharedMap ⟨2, 8⟩ .hybridSkiQF inShared) [askFor 64, askFor 64]
        ⟨⟨qf, m, .start⟩, ⟨0, 0, 0, 0, 0⟩, []⟩ = some s ∧
      s.filter.window.windowRepeatFPs = (windowLog s.log).repeated ∧
      (∀ key, s.filter.window.isRepeated key = true ↔ ∀ piece ∈ RepeatWindow.repeatHashes key,
        ∃ k ∈ (windowLog s.log).keys, piece ∈ RepeatWindow.repeatHashes k) ∧
      (windowLog s.log).keys.length ≤
        (windowLog s.log).keys.dedup.length + s.filter.window.windowRepeatFPs := by
  obtain ⟨qf, m, hload⟩ := sharedMap_loads
  exact ⟨qf, m, hload, hybrid_repeats (loadable_shared sharedMap_faithful) hload (by decide)
    ⟨0, 0, 0, 0, 0⟩⟩

/-! The same false positive again and again, for a whole window. -/

theorem splinterMap_adapts : ∃ qf m, loadShared splinterMap (fun _ => none) = some (0, qf, m) ∧
    qfQueryUsingLlTableWithExtLen qf 64 0 QF_KEY_IS_HASH = some ⟨0, 64, 0⟩ ∧
    (qfAdaptUsingLlTable qf (splinterMap.getFingerprint m 64 0 0).2 64 0
      QF_KEY_IS_HASH).isSome = true := by
  have hload : ∃ x ∈ loadShared splinterMap (fun _ => none), x.1 = 0 ∧
      (∃ r ∈ qfQueryUsingLlTableWithExtLen x.2.1 64 0 QF_KEY_IS_HASH, r = ⟨0, 64, 0⟩) ∧
      (qfAdaptUsingLlTable x.2.1 (splinterMap.getFingerprint x.2.2 64 0 0).2 64 0
        QF_KEY_IS_HASH).isSome = true := by decide +kernel
  obtain ⟨⟨_, qf, m⟩, hload, rfl, ⟨r, hquery, rfl⟩, hadapt⟩ := hload
  exact ⟨qf, m, hload, hquery, hadapt⟩

def splinterStep : Request → Service (ByteString → Option ByteString) →
    Option (Service (ByteString → Option ByteString)) :=
  Request.step splinterMap ⟨2, 8⟩ .hybridSkiQF inShared

section
variable {qf : QF} {m : ByteString → Option ByteString} {n : Nat}

theorem splinterStep_quiet (r0 : QFilterQueryResult) (hn : n < windowSize)
    (hquery : qfQueryUsingLlTableWithExtLen qf 64 0 QF_KEY_IS_HASH = some ⟨0, 64, 0⟩) :
    ∃ r, Runs.run splinterStep (List.replicate n (askFor 64)) ⟨⟨qf, m, .start⟩, r0, []⟩ =
      some ⟨⟨qf, m, repeatedWindow 64 n⟩, r, List.replicate n (64, .falsePositive 0)⟩ := by
  induction n with
  | zero => exact ⟨r0, rfl⟩
  | succ n ih =>
    obtain ⟨r, hrun⟩ := ih (by omega)
    have hstep : splinterStep (askFor 64)
        ⟨⟨qf, m, repeatedWindow 64 n⟩, r, List.replicate n (64, .falsePositive 0)⟩ =
        some ⟨⟨qf, m, repeatedWindow 64 (n+1)⟩,
          { r with keyPresent := 1, hash := 64, minirunRank := 0 },
          List.replicate n (64, .falsePositive 0) ++ [(64, .falsePositive 0)]⟩ := by
      have hkey : inShared 64 = false := by decide
      simp [splinterStep, Request.step, askFor, FilterClass.queryFilter, FilterClass.adapt,
        hybridSkiQFQueryFilter, hybridSkiQFAdapt, hquery, hkey, repeatedWindow_falsePositive hn,
        repeatedWindow_quiet]
    refine ⟨{ r with keyPresent := 1, hash := 64, minirunRank := 0 }, ?_⟩
    rw [List.replicate_succ', List.replicate_succ', Runs.run_append, hrun, Option.bind_some,
      Runs.run_cons hstep, Runs.run_nil]

/-- The window is over, and the item is adapted. -/
theorem splinterStep_adapts (hn : n + 1 = windowSize)
    (hquery : qfQueryUsingLlTableWithExtLen qf 64 0 QF_KEY_IS_HASH = some ⟨0, 64, 0⟩)
    (hadapt : (qfAdaptUsingLlTable qf (splinterMap.getFingerprint m 64 0 0).2 64 0
      QF_KEY_IS_HASH).isSome = true) (r0 : QFilterQueryResult) (log : List (Nat × Verdict)) :
    ∃ s, splinterStep (askFor 64) ⟨⟨qf, m, repeatedWindow 64 n⟩, r0, log⟩ = some s ∧
      s.log = log ++ [(64, .falsePositive 1)] := by
  obtain ⟨r, hr⟩ := Option.isSome_iff_exists.mp hadapt
  have hkey : inShared 64 = false := by decide
  have hexceeded : ((repeatedWindow 64 n).falsePositive 64 _).exceeded = true :=
    repeatedWindow_exceeded hn (qf.qbits + qf.bits)
  have hrank : toWord 0 = 0 := rfl
  simp [splinterStep, Request.step, askFor, FilterClass.queryFilter, FilterClass.adapt,
    hybridSkiQFQueryFilter, hybridSkiQFAdapt, hquery, hkey, hexceeded, hrank, hr]

end

theorem splinterStep_window : ∃ qf m, loadShared splinterMap (fun _ => none) = some (0, qf, m) ∧
    ∃ s log, Runs.run splinterStep (List.replicate windowSize (askFor 64))
        ⟨⟨qf, m, .start⟩, ⟨0, 0, 0, 0, 0⟩, []⟩ = some s ∧
      s.log = log ++ [(64, .falsePositive 1)] := by
  obtain ⟨qf, m, hload, hquery, hadapt⟩ := splinterMap_adapts
  obtain ⟨n, hn⟩ : ∃ n, n + 1 = windowSize := ⟨windowSize - 1, by decide⟩
  obtain ⟨r, hrun⟩ := splinterStep_quiet (m := m) ⟨0, 0, 0, 0, 0⟩ (n := n) (by omega) hquery
  obtain ⟨s, hstep, hlog⟩ := splinterStep_adapts hn hquery hadapt r
    (List.replicate n (64, .falsePositive 0))
  refine ⟨qf, m, hload, s, _, ?_, hlog⟩
  rw [← hn, List.replicate_succ', Runs.run_append, hrun, Option.bind_some, Runs.run_cons hstep,
    Runs.run_nil]

theorem hybrid_first_adaptation_splinter : ∃ qf m,
    loadShared splinterMap (fun _ => none) = some (0, qf, m) ∧
    ∃ s log, Runs.run splinterStep (List.replicate windowSize (askFor 64))
        ⟨⟨qf, m, .start⟩, ⟨0, 0, 0, 0, 0⟩, []⟩ = some s ∧
      s.log = log ++ [(64, .falsePositive 1)] ∧
      ∃ n ∈ (windowLog (log ++ [(64, .falsePositive 1)])).repeats, repeatedFpThreshold < n := by
  obtain ⟨qf, m, hload, s, log, hrun, hlog⟩ := splinterStep_window
  have hkeys : ∀ q ∈ List.replicate windowSize (askFor 64), q.key < 2^64 := by
    intro q hq
    rw [List.eq_of_mem_replicate hq]
    decide
  obtain ⟨s', hrun', hreason⟩ : ∃ s', Runs.run splinterStep _ _ = some s' ∧ _ :=
    hybrid_first_adaptation (loadable_shared splinterMap_faithful) hload hkeys ⟨0, 0, 0, 0, 0⟩
  obtain rfl : s' = s := Option.some.inj (hrun'.symm.trans hrun)
  exact ⟨qf, m, hload, s', log, hrun, hlog, hreason log 64 [] hlog⟩

end AdaptiveQF
