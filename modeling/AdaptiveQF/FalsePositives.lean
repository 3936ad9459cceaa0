import AdaptiveQF.Service

/-! How often a key that is not stored is answered positively, and what HybridSkiQF counts. -/
namespace AdaptiveQF
open RunLayout

section
variable {M : Type}

def attacks (log : List (Nat × Verdict)) : List (Nat × Bool) :=
  log.filterMap fun a =>
    if a.2 = .negative then some (a.1, false)
    else if a.2 = .falsePositive 1 then some (a.1, true)
    else none

def Request.FindsSpace (rm : ReverseMap M) (config : QFilterConfig) (c : FilterClass)
    (lookupKey : Nat → Bool) (q : Request) (s : Service M) : Prop :=
  ∀ s' ∈ q.step rm config c lookupKey s, s'.log = s.log ++ [(q.key, .falsePositive 1)] →
    ∀ a ∈ qfQuery s.filter.qf q.key QF_KEY_IS_HASH, ∀ hit ∈ a.2,
      ∀ b ∈ qfQueryUsingLlTable s.filter.qf q.key QF_KEY_IS_HASH,
        ∀ r ∈ adapt s.filter.qf hit.index (s.filter.qf.metadata.bucket q.key)
          (rm.getFingerprint s.filter.reverseMap q.key b.1 q.origKey).2 q.key, r.1 ≠ noSpace

instance (rm : ReverseMap M) (config : QFilterConfig) (c : FilterClass) (lookupKey : Nat → Bool)
    (q : Request) (s : Service M) : Decidable (q.FindsSpace rm config c lookupKey s) := by
  unfold Request.FindsSpace
  infer_instance

theorem attacks_concat (log : List (Nat × Verdict)) (y : Nat) (v : Verdict) :
    attacks (log ++ [(y, v)]) = attacks log ++
      if v = .negative then [(y, false)] else if v = .falsePositive 1 then [(y, true)] else [] := by
  unfold attacks
  rw [List.filterMap_append]
  by_cases h1 : v = .negative
  · simp [h1]
  · by_cases h2 : v = .falsePositive 1
    · simp [h2]
    · simp [h1, h2]

theorem count_attacks (log : List (Nat × Verdict)) (y : Nat) :
    (attacks log).count (y, true) = log.count (y, .falsePositive 1) := by
  induction log using List.reverseRecOn with
  | nil => rfl
  | append_singleton log a ih =>
    obtain ⟨x, v⟩ := a
    rw [attacks_concat, List.count_append, List.count_append, ih]
    congr 1
    by_cases h1 : v = .negative
    · simp [h1]
    · by_cases h2 : v = .falsePositive 1
      · by_cases hx : x = y <;> simp [h2, hx]
      · simp [h1, h2]

theorem mem_attacks_negative {log : List (Nat × Verdict)} {y : Nat} :
    (y, false) ∈ attacks log ↔ (y, .negative) ∈ log := by
  induction log using List.reverseRecOn with
  | nil => simp [attacks]
  | append_singleton log a ih =>
    obtain ⟨x, v⟩ := a
    rw [attacks_concat, List.mem_append, List.mem_append, ih]
    by_cases h1 : v = .negative
    · simp [h1]
    · by_cases h2 : v = .falsePositive 1
      · simp [h2]
      · simp [h1, h2, Ne.symm h1]

structure Tracked (rm : ReverseMap M) (qf0 : QF) (T0 : Table) (s : Service M) (T : Table) :
    Prop where
  loaded : Loaded rm qf0 T0 s.filter.reverseMap
  attacked : Attacked qf0 T0 T0 (s.filter.qf, attacks s.log) T
  order : s.log.Pairwise fun a b => b.1 = a.1 → a.2 = .negative → b.2 = .negative

variable {rm : ReverseMap M} {config : QFilterConfig} {c : FilterClass} {lookupKey : Nat → Bool}
  {qf0 : QF} {T0 T : Table} {s s' : Service M} {q : Request}

theorem Tracked.serving (h : Tracked rm qf0 T0 s T) : Serving qf0 T0 s.filter.qf T :=
  ⟨⟨h.attacked.represents, h.attacked.keeps, h.attacked.hashes⟩, h.attacked.plain⟩

theorem Loaded.tracked {m : M} (h : Loaded rm qf0 T0 m) (w : RepeatWindow)
    (r0 : QFilterQueryResult) :
    Tracked rm qf0 T0 ⟨⟨qf0, m, w⟩, r0, []⟩ T0 :=
  ⟨h, h.represents.attacked h.plain, .nil⟩

/-- An answer that is not negative, for a hash that is matched. -/
theorem Tracked.order_append (h : Tracked rm qf0 T0 s T) {y : Nat} {v : Verdict}
    (hv : v ≠ .negative → 0 < T.matchCount qf0.metadata y) :
    (s.log ++ [(y, v)]).Pairwise fun a b => b.1 = a.1 → a.2 = .negative → b.2 = .negative := by
  rw [List.pairwise_append]
  refine ⟨h.order, List.pairwise_singleton _ _, fun a ha b hb heq hneg => ?_⟩
  obtain rfl := List.mem_singleton.mp hb
  by_contra hne
  have hmem : (y, Verdict.negative) ∈ s.log := by
    have ha' : a = (y, .negative) := Prod.ext heq.symm hneg
    exact ha' ▸ ha
  have hdead := h.attacked.dead y (mem_attacks_negative.mpr hmem)
  have hpos := hv hne
  omega

theorem Tracked.matchCount_pos (h : Tracked rm qf0 T0 s T) {y : Nat} {t1 t2 : List Entry}
    {e : Entry}
    (hf : FirstEntry s.filter.qf.metadata y (T (s.filter.qf.metadata.bucket y)) t1 e t2) :
    0 < T.matchCount qf0.metadata y := by
  rw [← h.attacked.keeps.matchCount]
  exact Table.matchCount_pos (by rw [hf.split]; simp) hf.hit

theorem Tracked.hash_ne (h : Tracked rm qf0 T0 s T) {y : Nat} {t1 t2 : List Entry} {e : Entry}
    (hf : FirstEntry s.filter.qf.metadata y (T (s.filter.qf.metadata.bucket y)) t1 e t2)
    (hno : ¬ T0.Has qf0.metadata y) : e.hash ≠ y := by
  rintro rfl
  apply hno
  rw [Table.Has, ← h.attacked.hashes, ← h.attacked.keeps.bucket, hf.split]
  simp

theorem Tracked.space (h : Tracked rm qf0 T0 s T) (hs : q.FindsSpace rm config c lookupKey s)
    (hcall : q.step rm config c lookupKey s = some s')
    (hlog : s'.log = s.log ++ [(q.key, .falsePositive 1)]) (hq : q.key < 2^64)
    {t1 t2 : List Entry} {e : Entry}
    (hf : FirstEntry s.filter.qf.metadata q.key (T (s.filter.qf.metadata.bucket q.key)) t1 e t2)
    {ret : Int} {retHash : Nat} {qf' : QF}
    (ha : adapt s.filter.qf (T.pos s.filter.qf.metadata (s.filter.qf.metadata.bucket q.key) t1)
      (s.filter.qf.metadata.bucket q.key) e.hash q.key = some (ret, retHash, qf')) :
    ret ≠ noSpace := by
  have hn := h.serving.near h.loaded q.key
  have hkey := keyToHash_self s.filter.qf q.key
  have hfetch := h.serving.getFingerprint h.loaded hf q.origKey
  refine hs s' hcall hlog _ (h.attacked.represents.query_hit hkey hq hn hf) _ rfl _
    (h.attacked.represents.llTable_hit hkey hn hf) (ret, retHash, qf') ?_
  rw [hfetch]
  exact ha

theorem Tracked.stepped (h : Tracked rm qf0 T0 s T) (hq : q.key < 2^64)
    (hs : q.FindsSpace rm config c lookupKey s) (hcall : q.step rm config c lookupKey s = some s')
    (hmap : s'.filter.reverseMap = s.filter.reverseMap) (hstep : Stepped c T q s s')
    (hno : ∀ ret, s'.log = s.log ++ [(q.key, .falsePositive ret)] → ¬ T0.Has qf0.metadata q.key) :
    ∃ T', Tracked rm qf0 T0 s' T' := by
  have hk := h.attacked.keeps
  have hl : Loaded rm qf0 T0 s'.filter.reverseMap := by
    rw [hmap]
    exact h.loaded
  cases hstep with
  | miss hm hqf hlog hwindow =>
    have hzero : T.matchCount qf0.metadata q.key = 0 := by
      rw [← hk.matchCount]
      exact Table.matchCount_eq_zero.mpr hm
    refine ⟨T, hl, ?_, ?_⟩
    · rw [hlog, hqf, attacks_concat, if_pos rfl]
      exact h.attacked.negative hzero
    · rw [hlog]
      exact h.order_append fun hne => absurd rfl hne
  | hit hf hfilter hlog =>
    refine ⟨T, hl, ?_, ?_⟩
    · rw [hlog, hfilter, attacks_concat, if_neg (by decide), if_neg (by decide), List.append_nil]
      exact h.attacked
    · rw [hlog]
      exact h.order_append fun _ => h.matchCount_pos hf
  | @adapt t1 e t2 ret hf hcase hlog hwindow =>
    have horder : s'.log.Pairwise fun a b => b.1 = a.1 → a.2 = .negative → b.2 = .negative := by
      rw [hlog]
      exact h.order_append fun _ => h.matchCount_pos hf
    have hne := h.hash_ne hf (hno ret hlog)
    cases hcase with
    | inr hsame =>
      refine ⟨T, hl, ?_, horder⟩
      rw [hlog, hsame.2, attacks_concat, if_neg (by simp), if_neg (by simpa using hsame.1),
        List.append_nil]
      exact h.attacked
    | inl hto =>
      obtain ⟨rfl, hto⟩ := hto
      obtain ⟨-, r, retHash, n, hadapt, hg⟩ := hto.resolve_left fun hown => hne hown.1
      have hret := h.space hs hcall hlog hq hf hadapt
      have hp := hg.parted hret hq hne rfl
      have hbucket := hk.bucket
      have hT := hf.split
      have hrep := hg.represents
      rw [hbucket] at hT hrep
      refine ⟨Function.update T (qf0.metadata.bucket q.key) (t1 ++ e.grow n :: t2), hl, ?_, horder⟩
      rw [hlog, attacks_concat, if_neg (by simp), if_pos rfl]
      exact h.attacked.adapted hT ((hk.matches_entry e _).mp hf.hit) hg.keeps hp.longer
        (fun hc => hp.apart ((hk.matches_entry _ _).mpr hc)) hrep

theorem Request.asked {s s' : Service M} {ret : Int}
    (h : q.step rm config c lookupKey s = some s')
    (hlog : s'.log = s.log ++ [(q.key, .falsePositive ret)]) : lookupKey q.key = false := by
  simp only [Request.step, Option.bind_eq_bind, Option.bind_eq_some_iff, Prod.exists] at h
  obtain ⟨r, f, -, h⟩ := h
  split at h
  · cases h
    simp at hlog
  · split at h
    · cases h
      simp at hlog
    next hnot =>
      have hask : q.inRound = true ∧ lookupKey q.key = false := by simpa using hnot
      exact hask.2

/-- One request. -/
theorem Tracked.step (h : Tracked rm qf0 T0 s T) (hc : c ≠ .skiQF) (config : QFilterConfig)
    (hstored : ∀ y, T0.Has qf0.metadata y → lookupKey y = true) (hq : q.key < 2^64)
    (hs : q.FindsSpace rm config c lookupKey s) :
    ∃ s', q.step rm config c lookupKey s = some s' ∧ ∃ T', Tracked rm qf0 T0 s' T' := by
  obtain ⟨s', hcall, hmap, hstep⟩ := h.serving.step h.loaded hc config lookupKey q hq
  refine ⟨s', hcall, h.stepped hq hs hcall hmap hstep fun ret hlog hhas => ?_⟩
  have hfalse := q.asked hcall hlog
  rw [hstored _ hhas] at hfalse
  cases hfalse

end

section
variable {M : Type} {rm : ReverseMap M} {m m0 : M} {qf0 qf : QF} {keys : List Nat}
  {resize : QF → Nat → Option (Int × QF)} {result : InsertResult} {config : QFilterConfig}
  {c : FilterClass} {lookupKey : Nat → Bool}

/-- Behind a load whose keys are in the database, in a run whose adaptations find space: a key is
adapted to at most as often as its minirun has loaded keys, and a negative answer is final. -/
theorem false_positives_bounded (h : Loadable rm resize result keys qf0 m0)
    (hload : bulkLoad rm resize keys.length result keys qf0 m0 = some (0, qf, m)) (hc : c ≠ .skiQF)
    (hstored : ∀ key ∈ keys, lookupKey key = true) {requests : List Request}
    (hq : ∀ q ∈ requests, q.key < 2^64) (r0 : QFilterQueryResult)
    (hs : Runs.Along (Request.FindsSpace rm config c lookupKey) (Request.step rm config c lookupKey)
      requests ⟨⟨qf, m, .start⟩, r0, []⟩) :
    ∃ s, Runs.run (Request.step rm config c lookupKey) requests ⟨⟨qf, m, .start⟩, r0, []⟩ = some s ∧
      (∀ y, y ∉ keys → s.log.count (y, .falsePositive 1) ≤
        (minirunKeys qf0 keys (minirunId qf0 y)).length) ∧
      s.log.Pairwise fun a b => b.1 = a.1 → a.2 = .negative → b.2 = .negative := by
  obtain ⟨-, T0, hl, hhas, hcount⟩ := h.loaded hload
  have hstep : ∀ (q : Request) s, (∃ T, Tracked rm qf T0 s T) →
      Request.FindsSpace rm config c lookupKey q s ∧ q.key < 2^64 →
        ∃ s', q.step rm config c lookupKey s = some s' ∧ ∃ T, Tracked rm qf T0 s' T := by
    intro q s hs hok
    obtain ⟨T, hT⟩ := hs
    exact hT.step hc config (fun y hy => hstored y ((hhas y).mp hy)) hok.2 hok.1
  obtain ⟨s, hrun, T, hT⟩ :=
    Runs.invariant hstep ⟨T0, hl.tracked .start r0⟩ (Runs.along_mem hs hq)
  refine ⟨s, hrun, fun y hy => ?_, hT.order⟩
  have hbudget := hT.attacked.budget y fun hc => hy ((hhas y).mp hc)
  rw [hcount, count_attacks] at hbudget
  omega

end

/-! The same two keys in SplinterDB, and a third one that is asked for. -/

def splinterMap : ReverseMap (ByteString → Option ByteString) :=
  splinterDB (Store.mapMergeEngine ByteString mergeTuples) 5

theorem splinterMap_faithful : splinterMap.Faithful 5 fun _ => none :=
  splinterDB_faithful (Store.mapMergeEngine_faithful mergeTuples) (by decide) (by decide) _

def splinterRequests : List Request := [askFor 64, askFor 64, askFor 96, askFor 64, askFor 0]

theorem splinterMap_loads : ∃ qf m, loadShared splinterMap (fun _ => none) = some (0, qf, m) ∧
    Runs.Along (Request.FindsSpace splinterMap ⟨2, 8⟩ .adaptiveQF inShared)
      (Request.step splinterMap ⟨2, 8⟩ .adaptiveQF inShared) splinterRequests
      ⟨⟨qf, m, .start⟩, ⟨0, 0, 0, 0, 0⟩, []⟩ := by
  have hload : ∃ x ∈ loadShared splinterMap (fun _ => none), x.1 = 0 ∧
      Runs.Along (Request.FindsSpace splinterMap ⟨2, 8⟩ .adaptiveQF inShared)
        (Request.step splinterMap ⟨2, 8⟩ .adaptiveQF inShared) splinterRequests
        ⟨⟨x.2.1, x.2.2, .start⟩, ⟨0, 0, 0, 0, 0⟩, []⟩ := by decide +kernel
  obtain ⟨⟨_, qf, m⟩, hload, rfl, hall⟩ := hload
  exact ⟨qf, m, hload, hall⟩

theorem false_positives_bounded_shared : ∃ qf m,
    loadShared splinterMap (fun _ => none) = some (0, qf, m) ∧
    ∃ s, Runs.run (Request.step splinterMap ⟨2, 8⟩ .adaptiveQF inShared) splinterRequests
        ⟨⟨qf, m, .start⟩, ⟨0, 0, 0, 0, 0⟩, []⟩ = some s ∧
      (∀ y, y ∉ sharedKeys → s.log.count (y, .falsePositive 1) ≤
        (minirunKeys smallFilter sharedKeys (minirunId smallFilter y)).length) ∧
      s.log.Pairwise fun a b => b.1 = a.1 → a.2 = .negative → b.2 = .negative := by
  obtain ⟨qf, m, hload, hspace⟩ := splinterMap_loads
  exact ⟨qf, m, hload,
    false_positives_bounded (loadable_shared splinterMap_faithful) hload (by decide)
    (by decide) (by decide) ⟨0, 0, 0, 0, 0⟩ hspace⟩

/-! HybridSkiQF. -/

def answersPositively (qf : QF) (y : Nat) : Bool :=
  (qfQueryUsingLlTable qf y QF_KEY_IS_HASH).any fun r => 0 ≤ r.1

def rollTally (w : Nat × Nat) : Nat × Nat := if w.1 = windowSize then (0, 0) else w

/-- The progress of the window and its corrected false positives behind a log: a negative answer is
a corrected false positive if it was a positive one at first. -/
def windowTally (atFirst : Nat → Bool) (log : List (Nat × Verdict)) : Nat × Nat :=
  log.foldl (fun w a => match a.2 with
    | .positive => w
    | .negative => rollTally (w.1 + 1, if atFirst a.1 then w.2 + 1 else w.2)
    | .falsePositive _ => rollTally (w.1 + 1, w.2)) (0, 0)

section
variable {m : QFMetadata} {hash : Nat}

/-- Behind a walk without a match the extension length says whether there is a minirun. -/
theorem lastExtLen_pos_iff {l : List Item} (hm : ∀ x ∈ l, ¬ x.Matches m hash) :
    0 < lastExtLen m hash 0 l ↔ ∃ x ∈ l, x.rem = m.remainder hash := by
  induction l using List.reverseRecOn with
  | nil => simp [lastExtLen]
  | append_singleton l x ih =>
    have ih := ih fun y hy => hm y (by simp [hy])
    unfold lastExtLen at ih ⊢
    rw [List.foldl_append, List.foldl_cons, List.foldl_nil]
    by_cases hr : x.rem = m.remainder hash
    · have hpos : 0 < x.ext.length := by
        -- an item without extension matches its whole minirun
        by_contra hzero
        refine hm x (by simp) ⟨hr, ?_⟩
        have hnil : x.ext = [] := List.eq_nil_of_length_eq_zero (by omega)
        rw [hnil]
        rfl
      rw [if_pos hr]
      exact ⟨fun _ => ⟨x, by simp, hr⟩, fun _ => hpos⟩
    · rw [if_neg hr, ih]
      simp [hr]

end

section
variable {M : Type} {rm : ReverseMap M} {m m0 : M} {qf0 qf : QF} {T0 T : Table} {keys : List Nat}
  {resize : QF → Nat → Option (Int × QF)} {result : InsertResult} {config : QFilterConfig}
  {lookupKey : Nat → Bool} {s s' : Service M} {q : Request}

theorem Represents.answersPositively_iff (h : Represents qf T) (hn : AllNear qf) (y : Nat) :
    answersPositively qf y = true ↔ 0 < T.matchCount qf.metadata y := by
  have hpos := h.positive_iff (hn _ h.layout y)
  rw [← hpos, answersPositively, Option.any_eq_true]
  constructor
  · intro hr
    obtain ⟨r, hcall, h0⟩ := hr
    exact ⟨r.1, r.2, hcall, by simpa using h0⟩
  · intro hr
    obtain ⟨rank, x, hcall, h0⟩ := hr
    exact ⟨(rank, x), hcall, by simpa using h0⟩

theorem Loaded.matchCount_eq (h : Loaded rm qf0 T0 m) (y : Nat) :
    T0.matchCount qf0.metadata y = T0.minirunCount qf0.metadata y := by
  refine List.countP_congr fun e he => ?_
  have hshort := h.short _ e he
  simp only [decide_eq_true_eq, Entry.matches_iff, hshort]
  exact ⟨fun hm => hm.1, fun hr => ⟨hr, rfl⟩⟩

/-- A negative answer is told to be a corrected one if and only if the minirun was loaded. -/
theorem Serving.corrected_iff (h : Serving qf0 T0 qf T) (hl : Loaded rm qf0 T0 m) {y : Nat}
    (hm : ∀ x ∈ T (qf.metadata.bucket y), ¬ x.Matches qf.metadata y) :
    0 < lastExtLen qf.metadata y 0 (T.contents qf.metadata (qf.metadata.bucket y)) ↔
      answersPositively qf0 y = true := by
  have hcount : T0.minirunCount qf0.metadata y = T.minirunCount qf.metadata y := by
    rw [Table.minirunCount_eq, Table.minirunCount_eq, h.keeps.bucket, h.keeps.remainder, h.hashes]
  have hext : 0 < lastExtLen qf.metadata y 0 (T.contents qf.metadata (qf.metadata.bucket y)) ↔
      ∃ x ∈ T.contents qf.metadata (qf.metadata.bucket y), x.rem = qf.metadata.remainder y :=
    lastExtLen_pos_iff (not_matches_items hm)
  rw [hext, hl.represents.answersPositively_iff (allNear_of_xnslots hl.near),
    hl.matchCount_eq, hcount,
    Table.minirunCount, List.countP_pos_iff]
  simp [Table.contents, Entry.item]

structure Counting (atFirst : Nat → Bool) (s : Service M) : Prop where
  tally : (s.filter.window.windowProgress, s.filter.window.windowCorrectedFPs) =
    windowTally atFirst s.log
  progress : s.filter.window.windowProgress < windowSize
  corrected : s.filter.window.windowCorrectedFPs ≤ s.filter.window.windowProgress

theorem windowTally_concat (atFirst : Nat → Bool) (log : List (Nat × Verdict)) (a : Nat × Verdict) :
    windowTally atFirst (log ++ [a]) = match a.2 with
      | .positive => windowTally atFirst log
      | .negative => rollTally ((windowTally atFirst log).1 + 1,
          if atFirst a.1 then (windowTally atFirst log).2 + 1 else (windowTally atFirst log).2)
      | .falsePositive _ =>
          rollTally ((windowTally atFirst log).1 + 1, (windowTally atFirst log).2) := by
  simp [windowTally, List.foldl_append]

theorem RepeatWindow.roll_tally (w : RepeatWindow) (hashBits : Nat) :
    ((w.roll hashBits).windowProgress, (w.roll hashBits).windowCorrectedFPs) =
      rollTally (w.windowProgress, w.windowCorrectedFPs) := by
  unfold roll rollTally
  by_cases h : w.windowProgress = windowSize <;> simp [h]

theorem rollTally_lt {w : Nat × Nat} (h1 : w.1 ≤ windowSize) (h2 : w.2 ≤ w.1) :
    (rollTally w).1 < windowSize ∧ (rollTally w).2 ≤ (rollTally w).1 := by
  unfold rollTally
  split
  · exact ⟨by decide, by simp⟩
  · exact ⟨by omega, h2⟩

theorem add64_one {x : Nat} (h : x < windowSize) : add64 x 1 = x + 1 := by
  have hsize : windowSize < 2^64 := by decide
  exact Nat.mod_eq_of_lt (by omega)

theorem RepeatWindow.falsePositive_tally {w : RepeatWindow} (h : w.windowProgress < windowSize)
    (key hashBits : Nat) :
    ((w.falsePositive key hashBits).windowProgress,
      (w.falsePositive key hashBits).windowCorrectedFPs) =
      rollTally (w.windowProgress + 1, w.windowCorrectedFPs) := by
  unfold falsePositive
  rw [roll_tally]
  split <;> simp only [add64_one h]

theorem RepeatWindow.negative_tally {w : RepeatWindow} (h : w.windowProgress < windowSize)
    (h2 : w.windowCorrectedFPs ≤ w.windowProgress) (extLen hashBits : Nat) :
    ((w.negative extLen hashBits).windowProgress, (w.negative extLen hashBits).windowCorrectedFPs) =
      rollTally (w.windowProgress + 1,
        if 0 < extLen then w.windowCorrectedFPs + 1 else w.windowCorrectedFPs) := by
  unfold negative
  rw [roll_tally]
  simp only [add64_one h, add64_one (h2.trans_lt h), gt_iff_lt]

theorem Counting.next {atFirst : Nat → Bool} {a : Nat × Verdict} {p x : Nat}
    (hlog : s'.log = s.log ++ [a]) (hx : x ≤ p) (hp : p ≤ windowSize)
    (hw : (s'.filter.window.windowProgress, s'.filter.window.windowCorrectedFPs) = rollTally (p, x))
    (ht : windowTally atFirst (s.log ++ [a]) = rollTally (p, x)) : Counting atFirst s' := by
  have hlt := rollTally_lt (w := (p, x)) hp hx
  rw [← hw] at hlt
  exact ⟨by rw [hlog, ht, hw], hlt.1, hlt.2⟩

theorem Counting.stepped (h : Counting (answersPositively qf0) s)
    (hT : Serving qf0 T0 s.filter.qf T)
    (hl : Loaded rm qf0 T0 m) (hs : Stepped .hybridSkiQF T q s s') :
    Counting (answersPositively qf0) s' := by
  obtain ⟨hprog, hcorr⟩ := Prod.mk.inj h.tally
  have hlt := h.progress
  have hle := h.corrected
  cases hs with
  | miss hm hqf hlog hwindow =>
    refine .next hlog (p := s.filter.window.windowProgress + 1)
      (x := if answersPositively qf0 q.key then s.filter.window.windowCorrectedFPs + 1
        else s.filter.window.windowCorrectedFPs) (by split <;> omega) (by omega) ?_ ?_
    · rw [hwindow rfl, RepeatWindow.negative_tally hlt hle]
      simp only [hT.corrected_iff hl hm]
    · rw [windowTally_concat, ← h.tally]
  | hit hf hfilter hlog =>
    refine ⟨?_, ?_, ?_⟩
    · rw [hlog, windowTally_concat, hfilter]
      exact h.tally
    · rw [hfilter]
      exact hlt
    · rw [hfilter]
      exact hle
  | adapt hf hcase hlog hwindow =>
    obtain ⟨n, hwindow⟩ := hwindow rfl
    refine .next hlog (p := s.filter.window.windowProgress + 1)
      (x := s.filter.window.windowCorrectedFPs) (by omega) (by omega) ?_ ?_
    · rw [hwindow]
      exact RepeatWindow.falsePositive_tally hlt _ _
    · rw [windowTally_concat, ← h.tally]

/-- In every run behind a load the window counters of HybridSkiQF are those of the answers given: a
negative one counts as a corrected false positive if and only if the loaded filter would have
answered positively. -/
theorem hybrid_counts_corrected (h : Loadable rm resize result keys qf0 m0)
    (hload : bulkLoad rm resize keys.length result keys qf0 m0 = some (0, qf, m))
    {requests : List Request} (hq : ∀ q ∈ requests, q.key < 2^64) (r0 : QFilterQueryResult) :
    ∃ s, Runs.run (Request.step rm config .hybridSkiQF lookupKey) requests
        ⟨⟨qf, m, .start⟩, r0, []⟩ = some s ∧
      (s.filter.window.windowProgress, s.filter.window.windowCorrectedFPs) =
        windowTally (answersPositively qf) s.log := by
  obtain ⟨-, T0, hl, -, -⟩ := h.loaded hload
  have hybrid : FilterClass.hybridSkiQF ≠ .skiQF := by decide
  have hstep : ∀ (q : Request) (s : Service M), (Loaded rm qf T0 s.filter.reverseMap ∧
      (∃ T, Serving qf T0 s.filter.qf T) ∧ Counting (answersPositively qf) s) → q.key < 2^64 →
        ∃ s', q.step rm config .hybridSkiQF lookupKey s = some s' ∧
          Loaded rm qf T0 s'.filter.reverseMap ∧ (∃ T, Serving qf T0 s'.filter.qf T) ∧
            Counting (answersPositively qf) s' := by
    intro q s hs hq
    obtain ⟨hmap, ⟨T, hT⟩, hcount⟩ := hs
    obtain ⟨s', hcall, hmap', hdone⟩ := hT.step hmap hybrid config lookupKey q hq
    refine ⟨s', hcall, ?_, (hT.stepped hdone).1, hcount.stepped hT hl hdone⟩
    rw [hmap']
    exact hmap
  have hstart : Counting (answersPositively qf) (⟨⟨qf, m, .start⟩, r0, []⟩ : Service M) :=
    ⟨rfl, (by decide : 0 < windowSize), Nat.le_refl _⟩
  obtain ⟨s, hrun, -, -, hcount⟩ :=
    Runs.invariant hstep ⟨hl, ⟨T0, hl.serving⟩, hstart⟩ (Runs.along_of_mem hq)
  exact ⟨s, hrun, hcount.tally⟩

end

theorem hybrid_counts_corrected_shared : ∃ qf m,
    loadShared sharedMap ⟨[], fun _ => none⟩ = some (0, qf, m) ∧
    ∃ s, Runs.run (Request.step sharedMap ⟨2, 8⟩ .hybridSkiQF inShared) [askFor 64, askFor 64]
        ⟨⟨qf, m, .start⟩, ⟨0, 0, 0, 0, 0⟩, []⟩ = some s ∧
      (s.filter.window.windowProgress, s.filter.window.windowCorrectedFPs) =
        windowTally (answersPositively qf) s.log := by
  obtain ⟨qf, m, hload⟩ := sharedMap_loads
  exact ⟨qf, m, hload,
    hybrid_counts_corrected (loadable_shared sharedMap_faithful) hload (by decide)
    ⟨0, 0, 0, 0, 0⟩⟩

end AdaptiveQF
