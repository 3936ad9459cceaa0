import AdaptiveQF.Load
import AdaptiveQF.QueryPaths

/-! The filter classes in use: the queries of the benchmark, with the adaptations that follow
them. -/
namespace AdaptiveQF
open RunLayout

section
variable {M : Type}

namespace FilterClass

def queryFilter (c : FilterClass) (f : AdaptiveFilter M) (queryKey minirunRank hashIndex : Nat)
    (result : QFilterQueryResult) : Option (QFilterQueryResult × AdaptiveFilter M) :=
  if c = .hybridSkiQF then hybridSkiQFQueryFilter f queryKey result
  else (AdaptiveQF.queryFilter f.qf queryKey minirunRank hashIndex result).map fun r => (r, f)

def adapt (c : FilterClass) (rm : ReverseMap M) (config : QFilterConfig) (coinFlip : Bool)
    (f : AdaptiveFilter M) (queryKey : Nat) (result : QFilterQueryResult) (origKey : Nat) :
    Option (Int × AdaptiveFilter M) :=
  match c with
  | .adaptiveQF => adaptiveQFAdapt rm config f queryKey result origKey
  | .skiQF => skiQFAdapt rm config f queryKey result origKey
  | .coinFlip => coinFlipAdapt rm config coinFlip f queryKey result origKey
  | .hybridSkiQF => hybridSkiQFAdapt rm f queryKey result origKey

end FilterClass

inductive Verdict
  | negative
  | positive
  /-- A positive answer for a key that is not in the database, with what `adapt` returns. -/
  | falsePositive (adaptRetCode : Int)
deriving DecidableEq

structure Service (M : Type) where
  filter : AdaptiveFilter M
  result : QFilterQueryResult
  log : List (Nat × Verdict)

/-- A query, with what the uninitialised variables hold and how the coin falls. -/
structure Request where
  key : Nat
  minirunRank : Nat
  hashIndex : Nat
  origKey : Nat
  coinFlip : Bool
  /-- A query of the rounds, in which the database is asked, or one of the loops behind them. -/
  inRound : Bool

/-- The body of a query loop in `run_benchmark`. -/
def Request.step (rm : ReverseMap M) (config : QFilterConfig) (c : FilterClass)
    (lookupKey : Nat → Bool) (q : Request) (s : Service M) : Option (Service M) := do
  let (result, f) ← c.queryFilter s.filter q.key q.minirunRank q.hashIndex s.result
  if result.keyPresent = 0 then some ⟨f, result, s.log ++ [(q.key, .negative)]⟩
  else if !q.inRound || lookupKey q.key then some ⟨f, result, s.log ++ [(q.key, .positive)]⟩
  else do
    let (ret, f) ← c.adapt rm config q.coinFlip f q.key result q.origKey
    some ⟨f, result, s.log ++ [(q.key, .falsePositive ret)]⟩

def Service.Finds (c : FilterClass) (s : Service M) (key : Nat) : Prop :=
  ∀ minirunRank hashIndex result, ∃ r f,
    c.queryFilter s.filter key minirunRank hashIndex result = some (r, f) ∧ r.keyPresent = 1

end

structure Holding (qf0 : QF) (T0 : Table) (qf : QF) (T : Table) : Prop where
  represents : Represents qf T
  keeps : qf0.Keeps qf
  hashes : ∀ b, (T b).map Entry.hash = (T0 b).map Entry.hash

structure Serving (qf0 : QF) (T0 : Table) (qf : QF) (T : Table) : Prop
    extends Holding qf0 T0 qf T where
  plain : ∀ b, ∀ e ∈ T b, e.cnt = []

structure Loaded {M : Type} (rm : ReverseMap M) (qf0 : QF) (T0 : Table) (m : M) : Prop where
  represents : Represents qf0 T0
  plain : ∀ b, ∀ e ∈ T0 b, e.cnt = []
  short : ∀ b, ∀ e ∈ T0 b, e.slots = 0
  near : qf0.xnslots < 2^31
  ranks : ∀ y, T0.minirunCount qf0.metadata y ≤ 2^8
  map : ∀ y rank hash origKey : Nat, T0.hashAt qf0.metadata y rank = some hash →
    rm.getFingerprint m y rank origKey = (0, hash)

section
variable {M : Type} {rm : ReverseMap M} {config : QFilterConfig} {c : FilterClass} {m : M}
  {qf0 qf : QF} {T0 T : Table} {y : Nat} {e : Entry} {t1 t2 : List Entry}

theorem Loaded.serving (h : Loaded rm qf0 T0 m) : Serving qf0 T0 qf0 T0 :=
  ⟨⟨h.represents, .refl qf0, fun _ => rfl⟩, h.plain⟩

theorem Holding.near (h : Holding qf0 T0 qf T) (hl : Loaded rm qf0 T0 m) (y : Nat) :
    Near qf.metadata (T.contents qf.metadata) y := by
  have hx : qf.xnslots = qf0.xnslots := h.keeps.xnslots
  exact allNear_of_xnslots (by rw [hx]; exact hl.near) _ h.represents.layout y

/-- The ranks of the table in use lead where those of the loaded one do. -/
theorem Holding.hashAt (h : Holding qf0 T0 qf T) (y rank : Nat) :
    T.hashAt qf.metadata y rank = T0.hashAt qf0.metadata y rank := by
  rw [h.keeps.hashAt, Table.hashAt, Table.hashAt, h.hashes]

theorem Table.minirunCount_eq (T : Table) (m : QFMetadata) (y : Nat) : T.minirunCount m y =
    ((T (m.bucket y)).map Entry.hash).countP fun g => m.remainder g = m.remainder y := by
  rw [minirunCount, List.countP_map]
  rfl

/-- The item of an answer has a rank that fits into a byte. -/
theorem Holding.rank_lt (h : Holding qf0 T0 qf T) (hl : Loaded rm qf0 T0 m)
    (hf : FirstEntry qf.metadata y (T (qf.metadata.bucket y)) t1 e t2) :
    rankOf qf.metadata y (t1.map (Entry.item qf.metadata)) < 256 := by
  have hcount : T0.minirunCount qf0.metadata y = T.minirunCount qf.metadata y := by
    rw [Table.minirunCount_eq, Table.minirunCount_eq, h.keeps.bucket, h.keeps.remainder, h.hashes]
  have hle := hl.ranks y
  rw [hcount, Table.minirunCount, hf.split, List.countP_append, List.countP_cons] at hle
  have hrem := (Entry.matches_iff.mp hf.hit).1
  rw [if_pos (by simpa using hrem)] at hle
  rw [rankOf, List.countP_map]
  have heq : (fun x : Entry => decide ((Entry.item qf.metadata x).rem = qf.metadata.remainder y)) =
      fun x => decide (qf.metadata.remainder x.hash = qf.metadata.remainder y) := rfl
  change t1.countP (fun x : Entry => decide ((Entry.item qf.metadata x).rem =
    qf.metadata.remainder y)) < 256
  rw [heq]
  omega

end

section
variable {M : Type} {rm : ReverseMap M} {config : QFilterConfig} {c : FilterClass} {m : M}
  {qf0 : QF} {f : AdaptiveFilter M} {T0 T : Table} {y : Nat} {e : Entry} {t1 t2 : List Entry}

theorem Item.count_plain {it : Item} (h : it.cnt = []) (w : Nat) : it.count w = 1 := by
  simp [Item.count, h]

structure HitReport (f : AdaptiveFilter M) (y rank : Nat) (r : QFilterQueryResult)
    (f' : AdaptiveFilter M) : Prop where
  filter : f' = f
  keyPresent : r.keyPresent = 1
  hash : r.hash = y
  minirunRank : r.minirunRank = rank

theorem Serving.query_hit (h : Serving qf0 T0 f.qf T) (hl : Loaded rm qf0 T0 m) (c : FilterClass)
    (hf : FirstEntry f.qf.metadata y (T (f.qf.metadata.bucket y)) t1 e t2) (k i : Nat)
    (result : QFilterQueryResult) : ∃ r f', c.queryFilter f y k i result = some (r, f') ∧
      HitReport f y (rankOf f.qf.metadata y (t1.map (Entry.item f.qf.metadata))) r f' := by
  have hn := h.near hl y
  have hkey := keyToHash_self f.qf y
  have hrank := h.rank_lt hl hf
  by_cases hc : c = .hybridSkiQF
  · have hq := h.represents.wf.qfQueryUsingLlTableWithExtLen_hit hn hf.firstMatch hkey 0
    refine ⟨{ result with keyPresent := 1, hash := y, minirunRank :=
      (rankOf f.qf.metadata y (t1.map (Entry.item f.qf.metadata)) : Nat) }, f, ?_,
      rfl, rfl, rfl, rfl⟩
    rw [FilterClass.queryFilter, if_pos hc, hybridSkiQFQueryFilter, hq]
    simp
  · have hplain : (e.item f.qf.metadata).cnt = [] := h.plain _ e (by rw [hf.split]; simp)
    have hone := Item.count_plain hplain f.qf.bits
    have hq := h.represents.wf.queryFilter_hit hn hf.firstMatch (by rw [hone]; decide) k i result
    refine ⟨_, f, by rw [FilterClass.queryFilter, if_neg hc, hq]; rfl, rfl, rfl, rfl, ?_⟩
    simp only [Nat.mod_eq_of_lt hrank]

theorem Holding.query_miss (h : Holding qf0 T0 f.qf T) (hl : Loaded rm qf0 T0 m) (c : FilterClass)
    (hm : ∀ x ∈ T (f.qf.metadata.bucket y), ¬ x.Matches f.qf.metadata y) (k i : Nat)
    (result : QFilterQueryResult) : ∃ r f', c.queryFilter f y k i result = some (r, f') ∧
      r.keyPresent = 0 ∧ f'.qf = f.qf ∧ f'.reverseMap = f.reverseMap ∧
        (c = .hybridSkiQF → f'.window = f.window.negative (lastExtLen f.qf.metadata y 0
          (T.contents f.qf.metadata (f.qf.metadata.bucket y))) (f.qf.qbits + f.qf.bits)) := by
  have hn := h.near hl y
  have hkey := keyToHash_self f.qf y
  by_cases hc : c = .hybridSkiQF
  · have hq := h.represents.wf.qfQueryUsingLlTableWithExtLen_miss hn (not_matches_items hm) hkey 0
    rw [FilterClass.queryFilter, if_pos hc, hybridSkiQFQueryFilter, hq]
    exact ⟨_, _, rfl, rfl, rfl, rfl, fun _ => rfl⟩
  · obtain ⟨r, hr, hp⟩ := h.represents.wf.queryFilter_absent hn (not_matches_items hm) k i result
    exact ⟨r, f, by rw [FilterClass.queryFilter, if_neg hc, hr]; rfl, hp, rfl, rfl,
      fun hh => absurd hh hc⟩

def AdaptsTo (T : Table) (y : Nat) (t1 : List Entry) (e : Entry) (t2 : List Entry) (qf qf' : QF) :
    Prop :=
  e.hash = y ∧ qf' = qf ∨ e.hash ≠ y ∧ ∃ ret retHash n,
    AdaptiveQF.adapt qf (T.pos qf.metadata (qf.metadata.bucket y) t1)
        (qf.metadata.bucket y) e.hash y =
      some (ret, retHash, qf') ∧ Grown qf T (qf.metadata.bucket y) t1 e t2 y qf' ret retHash n

theorem Serving.adaptRank (h : Serving qf0 T0 f.qf T) (hl : Loaded rm qf0 T0 m) (hy : y < 2^64)
    (hf : FirstEntry f.qf.metadata y (T (f.qf.metadata.bucket y)) t1 e t2) :
    ∃ ret qf', qfAdaptUsingLlTable f.qf e.hash y
        (rankOf f.qf.metadata y (t1.map (Entry.item f.qf.metadata))) QF_KEY_IS_HASH =
          some (ret, qf') ∧
      AdaptsTo T y t1 e t2 f.qf qf' := by
  have hn := h.near hl y
  have hkey := keyToHash_self f.qf y
  by_cases hne : e.hash = y
  · have hhit := h.represents.layout.qfAdaptUsingLlTable_hit hkey hf.firstMatch.split
      (Represents.near_hit hn hf) hf.firstMatch.hit.1 e.hash
    rw [qfAdapt, if_pos (by rw [hne])] at hhit
    exact ⟨_, _, hhit, .inl ⟨hne, rfl⟩⟩
  · have hplain : e.cnt = [] := h.plain _ e (by rw [hf.split]; simp)
    obtain ⟨qf', ret, retHash, n, hcall, hadapt, hg⟩ := h.represents.qfAdaptUsingLlTable hf.split
      (by simp [hplain]) (Represents.near_hit hn hf) (keyToHash_self f.qf e.hash) hkey hy hne hf.hit
    exact ⟨_, _, hcall, .inr ⟨hne, ret, retHash, n, hadapt, hg⟩⟩

/-- The reverse map has the key of the item that a query reports. -/
theorem Holding.getFingerprint (h : Holding qf0 T0 f.qf T) (hl : Loaded rm qf0 T0 m)
    (hf : FirstEntry f.qf.metadata y (T (f.qf.metadata.bucket y)) t1 e t2) (origKey : Nat) :
    rm.getFingerprint m y
        (rankOf f.qf.metadata y (t1.map (Entry.item f.qf.metadata)) : Nat) origKey =
      (0, e.hash) := by
  apply hl.map
  rw [← h.hashAt]
  exact Table.hashAt_rank hf.split hf.hit

theorem Serving.adapt (h : Serving qf0 T0 f.qf T) (hl : Loaded rm qf0 T0 f.reverseMap)
    (hc : c ≠ .skiQF) (hy : y < 2^64)
    (hf : FirstEntry f.qf.metadata y (T (f.qf.metadata.bucket y)) t1 e t2) {r : QFilterQueryResult}
    (hr : r.hash = y)
    (hrank : r.minirunRank = (rankOf f.qf.metadata y (t1.map (Entry.item f.qf.metadata)) : Nat))
    (config : QFilterConfig) (coinFlip : Bool) (origKey : Nat) :
    ∃ ret f', c.adapt rm config coinFlip f y r origKey = some (ret, f') ∧
      f'.reverseMap = f.reverseMap ∧
        (ret = 1 ∧ AdaptsTo T y t1 e t2 f.qf f'.qf ∨ ret ≠ 1 ∧ f'.qf = f.qf) ∧
          (c = .hybridSkiQF → ∃ n,
            f'.window =
        { f.window.falsePositive y (f.qf.qbits + f.qf.bits) with numAdapts := n }) := by
  have hlt := h.rank_lt hl hf
  have hget := h.getFingerprint hl hf origKey
  obtain ⟨ret, qf', hadapt, hto⟩ := h.adaptRank hl hy hf
  have hword : toWord (rankOf f.qf.metadata y (t1.map (Entry.item f.qf.metadata)) : Nat) =
      rankOf f.qf.metadata y (t1.map (Entry.item f.qf.metadata)) := by
    unfold toWord
    omega
  have hfetch : fetchAndAdapt rm f y r origKey = some (1, { f with qf := qf' }) := by
    simp only [fetchAndAdapt, hr, hrank, hget, hword, hadapt, ne_eq, not_true, if_false,
      Option.bind_eq_bind, Option.bind_some]
  cases c with
  | skiQF => exact absurd rfl hc
  | adaptiveQF =>
    simp only [FilterClass.adapt, adaptiveQFAdapt, hfetch]
    split
    · exact ⟨_, _, rfl, rfl, .inr ⟨by decide, rfl⟩, by simp⟩
    · exact ⟨_, _, rfl, rfl, .inl ⟨rfl, hto⟩, by simp⟩
  | coinFlip =>
    simp only [FilterClass.adapt, coinFlipAdapt, hfetch]
    split
    · exact ⟨_, _, rfl, rfl, .inr ⟨by decide, rfl⟩, by simp⟩
    · split
      · exact ⟨_, _, rfl, rfl, .inl ⟨rfl, hto⟩, by simp⟩
      · exact ⟨_, _, rfl, rfl, .inr ⟨by decide, rfl⟩, by simp⟩
  | hybridSkiQF =>
    simp only [FilterClass.adapt, hybridSkiQFAdapt, hr, hrank, hget, hword, hadapt,
      Option.bind_eq_bind, Option.bind_some]
    split
    · exact ⟨_, _, rfl, rfl, .inl ⟨rfl, hto⟩, fun _ => ⟨_, rfl⟩⟩
    · exact ⟨_, _, rfl, rfl, .inr ⟨by decide, rfl⟩, fun _ => ⟨_, rfl⟩⟩

theorem Serving.adapted (h : Serving qf0 T0 f.qf T) {qf' : QF}
    (hT : T (f.qf.metadata.bucket y) = t1 ++ e :: t2) (ha : AdaptsTo T y t1 e t2 f.qf qf') :
    ∃ T', Serving qf0 T0 qf' T' := by
  cases ha with
  | inl hsame =>
    rw [hsame.2]
    exact ⟨T, h⟩
  | inr hgrew =>
    obtain ⟨-, ret, retHash, n, -, hg⟩ := hgrew
    have hplain := h.plain _ e (by rw [hT]; simp)
    have hgrow : (e.grow n).cnt = [] := by
      unfold Entry.grow
      split
      · exact hplain
      · rfl
    refine ⟨_, ⟨hg.represents, h.keeps.trans hg.keeps, fun b => ?_⟩, fun b x hx => ?_⟩
    · by_cases hb : b = f.qf.metadata.bucket y
      · have hh := h.hashes b
        subst hb
        rw [hT] at hh
        rw [Function.update_self, ← hh]
        simp
      · rw [Function.update_of_ne hb]
        exact h.hashes b
    · by_cases hb : b = f.qf.metadata.bucket y
      · subst hb
        rw [Function.update_self] at hx
        cases List.mem_append.mp hx with
        | inl hmem => exact h.plain _ x (by rw [hT]; simp [hmem])
        | inr hmem =>
          cases List.mem_cons.mp hmem with
          | inl heq => rw [heq]; exact hgrow
          | inr hmem => exact h.plain _ x (by rw [hT]; simp [hmem])
      · rw [Function.update_of_ne hb] at hx
        exact h.plain b x hx

/-- A key that was loaded is matched. -/
theorem Holding.not_miss (h : Holding qf0 T0 f.qf T) (hy : T0.Has qf0.metadata y) :
    ¬ ∀ x ∈ T (f.qf.metadata.bucket y), ¬ x.Matches f.qf.metadata y := by
  intro hm
  rw [Table.Has, ← h.hashes, ← h.keeps.bucket] at hy
  obtain ⟨e, he, heq⟩ := List.mem_map.mp hy
  have hself := e.matches_self f.qf.metadata
  rw [heq] at hself
  exact hm e he hself

inductive Stepped (c : FilterClass) (T : Table) (q : Request) (s s' : Service M) : Prop
  | miss (hm : ∀ x ∈ T (s.filter.qf.metadata.bucket q.key), ¬ x.Matches s.filter.qf.metadata q.key)
      (hqf : s'.filter.qf = s.filter.qf) (hlog : s'.log = s.log ++ [(q.key, .negative)])
      (hwindow : c = .hybridSkiQF → s'.filter.window = s.filter.window.negative
        (lastExtLen s.filter.qf.metadata q.key 0
          (T.contents s.filter.qf.metadata (s.filter.qf.metadata.bucket q.key)))
        (s.filter.qf.qbits + s.filter.qf.bits))
  | hit {t1 : List Entry} {e : Entry} {t2 : List Entry}
      (hf : FirstEntry s.filter.qf.metadata q.key (T (s.filter.qf.metadata.bucket q.key)) t1 e t2)
      (hfilter : s'.filter = s.filter) (hlog : s'.log = s.log ++ [(q.key, .positive)])
  | adapt {t1 : List Entry} {e : Entry} {t2 : List Entry} {ret : Int}
      (hf : FirstEntry s.filter.qf.metadata q.key (T (s.filter.qf.metadata.bucket q.key)) t1 e t2)
      (hcase : ret = 1 ∧ AdaptsTo T q.key t1 e t2 s.filter.qf s'.filter.qf ∨
        ret ≠ 1 ∧ s'.filter.qf = s.filter.qf)
      (hlog : s'.log = s.log ++ [(q.key, .falsePositive ret)])
      (hwindow : c = .hybridSkiQF → ∃ n, s'.filter.window =
        { s.filter.window.falsePositive q.key (s.filter.qf.qbits + s.filter.qf.bits) with
          numAdapts := n })

theorem Serving.step {s : Service M} (h : Serving qf0 T0 s.filter.qf T)
    (hl : Loaded rm qf0 T0 s.filter.reverseMap) (hc : c ≠ .skiQF) (config : QFilterConfig)
    (lookupKey : Nat → Bool) (q : Request) (hq : q.key < 2^64) :
    ∃ s', q.step rm config c lookupKey s = some s' ∧
      s'.filter.reverseMap = s.filter.reverseMap ∧ Stepped c T q s s' := by
  cases firstEntry_or_none s.filter.qf.metadata q.key (T (s.filter.qf.metadata.bucket q.key)) with
  | inr hm =>
    obtain ⟨r, f', hcall, hp, hqf, hmap, hwindow⟩ :=
      h.query_miss hl c hm q.minirunRank q.hashIndex s.result
    refine ⟨⟨f', r, s.log ++ [(q.key, .negative)]⟩, ?_, hmap, .miss hm hqf rfl hwindow⟩
    rw [Request.step, hcall, Option.bind_eq_bind, Option.bind_some]
    exact if_pos hp
  | inl hf =>
    obtain ⟨t1, e, t2, hf⟩ := hf
    obtain ⟨r, f', hcall, ha⟩ := h.query_hit hl c hf q.minirunRank q.hashIndex s.result
    obtain rfl := ha.filter
    have hne : ¬ r.keyPresent = 0 := by
      rw [ha.keyPresent]
      decide
    by_cases hask : (!q.inRound || lookupKey q.key) = true
    · refine ⟨⟨s.filter, r, s.log ++ [(q.key, .positive)]⟩, ?_, rfl, .hit hf rfl rfl⟩
      rw [Request.step, hcall, Option.bind_eq_bind, Option.bind_some]
      exact (if_neg hne).trans (if_pos hask)
    · obtain ⟨ret, g, hadapt, hmap, hcase, hwindow⟩ :=
        h.adapt hl hc hq hf ha.hash ha.minirunRank config q.coinFlip q.origKey
      refine ⟨⟨g, r, s.log ++ [(q.key, .falsePositive ret)]⟩, ?_, hmap, .adapt hf hcase rfl hwindow⟩
      rw [Request.step, hcall, Option.bind_eq_bind, Option.bind_some]
      refine (if_neg hne).trans ((if_neg hask).trans ?_)
      rw [hadapt]
      rfl

theorem Serving.stepped {s s' : Service M} (h : Serving qf0 T0 s.filter.qf T) {q : Request}
    (hs : Stepped c T q s s') : (∃ T', Serving qf0 T0 s'.filter.qf T') ∧
      ∃ v, s'.log = s.log ++ [(q.key, v)] ∧ (T0.Has qf0.metadata q.key → v ≠ .negative) := by
  cases hs with
  | miss hm hqf hlog hwindow =>
    refine ⟨⟨T, ?_⟩, _, hlog, fun hy => absurd hm (h.not_miss hy)⟩
    rw [hqf]
    exact h
  | hit hf hfilter hlog =>
    refine ⟨⟨T, ?_⟩, _, hlog, fun _ => by decide⟩
    rw [hfilter]
    exact h
  | adapt hf hcase hlog hwindow =>
    refine ⟨?_, _, hlog, fun _ => by simp⟩
    cases hcase with
    | inl hto => exact h.adapted hf.split hto.2
    | inr hsame =>
      rw [hsame.2]
      exact ⟨T, h⟩

end

/-! From the load on. -/

section
variable {M : Type} {rm : ReverseMap M} {m m0 : M} {qf0 qf : QF} {keys : List Nat}
  {resize : QF → Nat → Option (Int × QF)} {result : InsertResult}

/-- What a load needs: zeroed memory, fewer than 2^31 slots, a reverse map that keeps what is put
into it, miniruns whose ranks fit, and space for every key. -/
structure Loadable (rm : ReverseMap M) (resize : QF → Nat → Option (Int × QF))
    (result : InsertResult) (keys : List Nat) (qf0 : QF) (m0 : M) : Prop where
  zeroed : qf0.Zeroed
  near : qf0.xnslots < 2^31
  faithful : rm.Faithful (qf0.qbits + qf0.bits) m0
  words : ∀ key ∈ keys, key < 2^64
  ranks : MinirunsFit qf0 keys
  space : LoadFindsSpace resize result keys qf0

/-- The table of a load, in the order of the reverse map. -/
theorem Loadable.loaded (h : Loadable rm resize result keys qf0 m0)
    (hload : bulkLoad rm resize keys.length result keys qf0 m0 = some (0, qf, m)) :
    qf0.Keeps qf ∧ ∃ T0, Loaded rm qf T0 m ∧ (∀ y, T0.Has qf.metadata y ↔ y ∈ keys) ∧
      ∀ y, T0.minirunCount qf.metadata y = (minirunKeys qf0 keys (minirunId qf0 y)).length := by
  have hg := h.zeroed.geometry
  obtain ⟨⟨A, hA⟩, rfl⟩ :=
    (h.zeroed.loading : Loading qf0 [] qf0 Contents.empty).bulkLoad hg rfl h.space hload
  obtain ⟨order, hperm, hget⟩ := h.faithful _ (h.ranks.loadRanks hg h.words)
  simp only [keysOf_mapInserts, List.nil_append] at hperm hget hA ⊢
  have hk := hA.keeps
  have hhas : ∀ y, (orderTable qf0.metadata order).Has qf.metadata y ↔ y ∈ keys := by
    intro y
    rw [hk.has, Table.Has]
    constructor
    · intro hy
      obtain ⟨e, he, rfl⟩ := List.mem_map.mp hy
      exact (mem_orderTable_key hg hperm he).1
    · intro hy
      have hmem : y ∈ order (minirunId qf0 y) :=
        (hperm _).mem_iff.mpr (List.mem_filter.mpr ⟨hy, by simp⟩)
      rw [hg.minirunId_sum] at hmem
      exact List.mem_map.mpr ⟨_, mem_orderTable.mpr
        ⟨_, Nat.mod_lt _ (Nat.two_pow_pos _), y, hmem, rfl⟩, rfl⟩
  have hcount : ∀ y, (orderTable qf0.metadata order).minirunCount qf.metadata y =
      (minirunKeys qf0 keys (minirunId qf0 y)).length := by
    intro y
    have hat := hA.counts y
    rw [← hA.contents_eq hg hperm, Table.contents, rankOf_items] at hat
    rw [Table.minirunCount_eq, hk.bucket, hk.remainder]
    exact hat
  refine ⟨hk, _, ⟨hA.represents hg h.words hperm, fun b e he => ?_, fun b e he => ?_, ?_,
    fun y => ?_, fun y rank hash origKey hat => ?_⟩, hhas, hcount⟩
  · rw [(mem_orderTable_key hg hperm he).2.2]
  · rw [(mem_orderTable_key hg hperm he).2.2]
  · have hx : qf.xnslots = qf0.xnslots := hk.xnslots
    rw [hx]
    exact h.near
  · rw [hcount]
    exact (h.ranks _).1
  · rw [hk.hashAt, hashAt_orderTable hg hperm, hg.minirunId_eq] at hat
    exact hget y rank hash origKey hat

variable {config : QFilterConfig} {c : FilterClass} {lookupKey : Nat → Bool}

structure Served (rm : ReverseMap M) (qf0 : QF) (T0 : Table) (keys : List Nat) (s : Service M) :
    Prop
    where
  loaded : Loaded rm qf0 T0 s.filter.reverseMap
  serving : ∃ T, Serving qf0 T0 s.filter.qf T
  found : ∀ key ∈ keys, (key, .negative) ∉ s.log

theorem Served.finds {T0 : Table} {s : Service M} (h : Served rm qf0 T0 keys s)
    (hhas : ∀ y, T0.Has qf0.metadata y ↔ y ∈ keys) (c : FilterClass) {key : Nat} (hk : key ∈ keys) :
    s.Finds c key := by
  obtain ⟨T, hT⟩ := h.serving
  intro k i r0
  cases firstEntry_or_none s.filter.qf.metadata key (T (s.filter.qf.metadata.bucket key)) with
  | inr hm => exact absurd hm (hT.not_miss ((hhas key).mpr hk))
  | inl hf =>
    obtain ⟨t1, e, t2, hf⟩ := hf
    obtain ⟨r, f', hcall, ha⟩ := hT.query_hit h.loaded c hf k i r0
    exact ⟨r, f', hcall, ha.keyPresent⟩

theorem Served.step {T0 : Table} {s : Service M} (h : Served rm qf0 T0 keys s)
    (hhas : ∀ y, T0.Has qf0.metadata y ↔ y ∈ keys) (hc : c ≠ .skiQF) (config : QFilterConfig)
    (lookupKey : Nat → Bool) (q : Request) (hq : q.key < 2^64) :
    ∃ s', q.step rm config c lookupKey s = some s' ∧ Served rm qf0 T0 keys s' := by
  obtain ⟨T, hT⟩ := h.serving
  obtain ⟨s', hstep, hmap, hdone⟩ := hT.step h.loaded hc config lookupKey q hq
  obtain ⟨hserving, v, hlog, hv⟩ := hT.stepped hdone
  refine ⟨s', hstep, ?_, hserving, fun key hk hmem => ?_⟩
  · rw [hmap]
    exact h.loaded
  · rw [hlog] at hmem
    cases List.mem_append.mp hmem with
    | inl hold => exact h.found key hk hold
    | inr hnew =>
      obtain ⟨rfl, rfl⟩ := Prod.mk.inj (List.mem_singleton.mp hnew)
      exact hv ((hhas q.key).mpr hk) rfl

/-- Behind a load no request fails, and every loaded key is found by each query for it, in front of
any adaptation and behind it. -/
theorem no_false_negatives (h : Loadable rm resize result keys qf0 m0)
    (hload : bulkLoad rm resize keys.length result keys qf0 m0 = some (0, qf, m)) (hc : c ≠ .skiQF)
    {requests : List Request} (hq : ∀ q ∈ requests, q.key < 2^64) (r0 : QFilterQueryResult) :
    ∃ s, Runs.run (Request.step rm config c lookupKey) requests ⟨⟨qf, m, .start⟩, r0, []⟩ = some s ∧
      ∀ key ∈ keys, s.Finds c key ∧ (key, .negative) ∉ s.log := by
  obtain ⟨-, T0, hl, hhas, -⟩ := h.loaded hload
  have hstart : Served rm qf T0 keys ⟨⟨qf, m, .start⟩, r0, []⟩ := ⟨hl, ⟨T0, hl.serving⟩, by simp⟩
  obtain ⟨s, hrun, hs⟩ := Runs.invariant (fun q s hs hq => hs.step hhas hc config lookupKey q hq)
    hstart (Runs.along_of_mem hq)
  exact ⟨s, hrun, fun key hk => ⟨hs.finds hhas c hk, hs.found key hk⟩⟩

end

/-! Two keys of one minirun, and a third one that is asked for twice. -/

def sharedMap : ReverseMap (WiredTiger (Nat → Option Nat)) :=
  wiredTigerReverseMap (Store.mapEngine Nat Nat) 5 true

def sharedKeys : List Nat := [0, 32]

def sharedResult : InsertResult := ⟨0, 0, 0, false⟩

def loadShared {M : Type} (rm : ReverseMap M) (m0 : M) : Option (Int × QF × M) :=
  bulkLoad rm noResize sharedKeys.length sharedResult sharedKeys smallFilter m0

def askFor (key : Nat) : Request := ⟨key, 0, 0, 0, true, true⟩

def inShared (key : Nat) : Bool := decide (key ∈ sharedKeys)

theorem loadable_shared {M : Type} {rm : ReverseMap M} {m0 : M} (h : rm.Faithful 5 m0) :
    Loadable rm noResize sharedResult sharedKeys smallFilter m0 where
  zeroed := smallFilter_zeroed
  near := by decide
  faithful := h
  words := by decide
  ranks id := by
    have hle : (minirunKeys smallFilter sharedKeys id).length ≤ 2 := List.length_filter_le _ _
    exact ⟨hle.trans (by decide), hle.trans (by decide)⟩
  space := by
    have hfirst : LlFindsSpace smallFilter 0 := by decide +kernel
    have hsecond : ∀ qf ∈ loadStep noResize sharedResult 0 smallFilter, LlFindsSpace qf 32 := by
      decide +kernel
    exact ⟨hfirst, fun qf hqf => ⟨hsecond qf hqf, fun _ _ => trivial⟩⟩

theorem sharedMap_faithful : sharedMap.Faithful 5 ⟨[], fun _ => none⟩ :=
  wiredTigerReverseMap_faithful Store.mapEngine_faithful (by decide) (by decide) true _

theorem sharedMap_loads : ∃ qf m, loadShared sharedMap ⟨[], fun _ => none⟩ = some (0, qf, m) := by
  have hall : ∃ x ∈ loadShared sharedMap ⟨[], fun _ => none⟩, x.1 = 0 := by decide +kernel
  obtain ⟨⟨_, qf, m⟩, hload, rfl⟩ := hall
  exact ⟨qf, m, hload⟩

theorem no_false_negatives_shared : ∃ qf m,
    loadShared sharedMap ⟨[], fun _ => none⟩ = some (0, qf, m) ∧
    ∃ s, Runs.run (Request.step sharedMap ⟨2, 8⟩ .adaptiveQF inShared) [askFor 64, askFor 64]
        ⟨⟨qf, m, .start⟩, ⟨0, 0, 0, 0, 0⟩, []⟩ = some s ∧
      ∀ key ∈ sharedKeys, s.Finds .adaptiveQF key ∧ (key, .negative) ∉ s.log := by
  obtain ⟨qf, m, hload⟩ := sharedMap_loads
  exact ⟨qf, m, hload, no_false_negatives (loadable_shared sharedMap_faithful) hload (by decide)
    (by decide) ⟨0, 0, 0, 0, 0⟩⟩

end AdaptiveQF
