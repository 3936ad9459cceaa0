import AdaptiveQF.Service

/-! The database behind the filter: filter, reverse map and backing store together answer
membership. -/
namespace AdaptiveQF

structure BackingStore (D : Type) where
  insertKV : D → Nat → Nat → Bool → Int × D
  lookupKey : D → Nat → Bool

section
variable {D : Type}

/-- `WiredTigerBackingStore`, which ends the program if an insertion fails. -/
def wiredTigerBackingStore (engine : Store.Engine D Nat Nat) : BackingStore D where
  insertKV d key value _ := (0, engine.insert d key value)
  lookupKey d key := (engine.search d key).isSome

/-- `SplinterDB` as a backing store. It returns -1 behind an insertion without failure. -/
def splinterBackingStore (engine : Store.MergeEngine D ByteString ByteString) : BackingStore D where
  insertKV d key value isUpdate :=
    let (ret, d) := dbInsert engine d key value isUpdate
    (if ret = 0 then -1 else 0, d)
  lookupKey d key := (engine.search d (padData MAX_KEY_SIZE (wordBytes key))).isSome

/-- The loop of `run_benchmark` that loads the database. It ignores what the insertions return. -/
def BackingStore.load (db : BackingStore D) (d : D) (keys : List Nat) : D :=
  keys.foldl (fun d key => (db.insertKV d key key false).2) d

def BackingStore.Faithful (db : BackingStore D) (d0 : D) : Prop :=
  ∀ keys, (∀ key ∈ keys, key < 2^64) → ∀ key < 2^64,
    db.lookupKey (db.load d0 keys) key = true ↔ key ∈ keys

end

section
variable {D E : Type} {d0 : D} {d1 : E}

theorem BackingStore.faithful_of_insert {db : BackingStore D}
    (hempty : ∀ key < 2^64, db.lookupKey d0 key = false)
    (hinsert : ∀ d, ∀ k < 2^64, ∀ key < 2^64, db.lookupKey (db.insertKV d k k false).2 key = true ↔
      key = k ∨ db.lookupKey d key = true) : db.Faithful d0 := by
  intro keys hkeys key hkey
  induction keys using List.reverseRecOn with
  | nil => simp [BackingStore.load, hempty key hkey]
  | append_singleton keys k ih =>
    have hk : k < 2^64 := hkeys k (by simp)
    have ih := ih fun j hj => hkeys j (List.mem_append_left _ hj)
    rw [BackingStore.load, List.foldl_append, List.foldl_cons, List.foldl_nil,
      hinsert _ k hk key hkey,
      List.mem_append, List.mem_singleton, or_comm]
    exact or_congr_left ih

theorem wiredTigerBackingStore_faithful {engine : Store.Engine D Nat Nat} (h : engine.Faithful)
    (hempty : ∀ k, engine.search d0 k = none) : (wiredTigerBackingStore engine).Faithful d0 := by
  refine BackingStore.faithful_of_insert (fun key _ => ?_) fun d k _ key _ => ?_
  · simp [wiredTigerBackingStore, hempty]
  · simp only [wiredTigerBackingStore, h.search_insert]
    by_cases hk : key = k <;> simp [hk]

/-- Different words have different padded keys. -/
theorem padData_wordBytes_inj {x y : Nat} (hx : x < 2^64) (hy : y < 2^64)
    (h : padData MAX_KEY_SIZE (wordBytes x) = padData MAX_KEY_SIZE (wordBytes y)) : x = y := by
  refine wordBytes_inj hx hy (List.append_inj_left h ?_)
  rw [length_wordBytes, length_wordBytes]

theorem splinterBackingStore_faithful {engine : Store.MergeEngine E ByteString ByteString}
    (h : engine.toEngine.Faithful) (hempty : ∀ k, engine.search d1 k = none) :
    (splinterBackingStore engine).Faithful d1 := by
  refine BackingStore.faithful_of_insert (fun key _ => ?_) fun d k hk key hkey => ?_
  · simp [splinterBackingStore, hempty]
  · simp only [splinterBackingStore, dbInsert, Bool.false_eq_true, if_false, h.search_insert]
    by_cases he : key = k
    · simp [he]
    · rw [if_neg fun hpad => he (padData_wordBytes_inj hkey hk hpad)]
      simp [he]

end

section
variable {M D : Type} {rm : ReverseMap M} {db : BackingStore D} {d0 : D} {m m0 : M} {qf0 qf : QF}
  {T0 T : Table} {keys : List Nat} {resize : QF → Nat → Option (Int × QF)} {result : InsertResult}
  {config : QFilterConfig} {c : FilterClass} {lookupKey : Nat → Bool} {s s' : Service M}
    {q : Request}
  {v : Verdict}

/-- In the rounds, what is answered positively is what the database has. -/
theorem Request.verdict (hround : q.inRound = true)
    (hstep : q.step rm config c lookupKey s = some s') (hlog : s'.log = s.log ++ [(q.key, v)])
    (hv : v ≠ .negative) : v = .positive ↔ lookupKey q.key = true := by
  rw [Request.step, Option.bind_eq_bind, Option.bind_eq_some_iff] at hstep
  obtain ⟨⟨r, f⟩, -, hrest⟩ := hstep
  by_cases hp : r.keyPresent = 0
  · simp only [if_pos hp, Option.some.injEq] at hrest
    rw [← hrest] at hlog
    have hlast : Verdict.negative = v := by simpa using hlog
    exact absurd hlast.symm hv
  · cases hdb : lookupKey q.key with
    | true =>
      simp only [if_neg hp, hround, hdb, Bool.not_true, Bool.false_or, if_true,
        Option.some.injEq] at hrest
      rw [← hrest] at hlog
      have hlast : Verdict.positive = v := by simpa using hlog
      exact iff_of_true hlast.symm rfl
    | false =>
      simp only [if_neg hp, hround, hdb, Bool.not_true, Bool.or_self, Bool.false_eq_true, if_false,
        Option.bind_eq_bind, Option.bind_eq_some_iff, Option.some.injEq] at hrest
      obtain ⟨⟨ret, f⟩, -, hs⟩ := hrest
      rw [← hs] at hlog
      have hlast : Verdict.falsePositive ret = v := by simpa using hlog
      rw [← hlast]
      simp

structure Member (rm : ReverseMap M) (qf0 : QF) (T0 : Table) (keys : List Nat) (s : Service M) :
    Prop where
  map : Loaded rm qf0 T0 s.filter.reverseMap
  serving : ∃ T, Serving qf0 T0 s.filter.qf T
  exact : ∀ a ∈ s.log, a.2 = .positive ↔ a.1 ∈ keys

theorem Member.step (hs : Member rm qf0 T0 keys s) (hhas : ∀ y, T0.Has qf0.metadata y ↔ y ∈ keys)
    (hdb : ∀ key < 2^64, lookupKey key = true ↔ key ∈ keys) (hc : c ≠ .skiQF)
    (config : QFilterConfig) (hq : q.key < 2^64) (hround : q.inRound = true) :
    ∃ s', q.step rm config c lookupKey s = some s' ∧ Member rm qf0 T0 keys s' ∧
      s'.log.map Prod.fst = s.log.map Prod.fst ++ [q.key] := by
  obtain ⟨T, hT⟩ := hs.serving
  obtain ⟨s', hcall, hmap, hdone⟩ := hT.step hs.map hc config lookupKey q hq
  obtain ⟨hserving, v, hlog, hfound⟩ := hT.stepped hdone
  refine ⟨s', hcall, ⟨by rw [hmap]; exact hs.map, hserving, fun a ha => ?_⟩, by rw [hlog]; simp⟩
  rw [hlog] at ha
  cases List.mem_append.mp ha with
  | inl hold => exact hs.exact a hold
  | inr hnew =>
    obtain rfl := List.mem_singleton.mp hnew
    by_cases hv : v = .negative
    · refine iff_of_false (by simp [hv]) fun hmem => ?_
      exact hfound ((hhas q.key).mpr hmem) hv
    · exact (Request.verdict hround hcall hlog hv).trans (hdb q.key hq)

/-- All requests of the rounds are answered, in their order. -/
theorem Member.run {requests : List Request} (hs : Member rm qf0 T0 keys s)
    (hhas : ∀ y, T0.Has qf0.metadata y ↔ y ∈ keys)
    (hdb : ∀ key < 2^64, lookupKey key = true ↔ key ∈ keys) (hc : c ≠ .skiQF)
    (config : QFilterConfig) (hq : ∀ q ∈ requests, q.key < 2^64 ∧ q.inRound = true) :
    ∃ s', Runs.run (Request.step rm config c lookupKey) requests s = some s' ∧
      Member rm qf0 T0 keys s' ∧
        s'.log.map Prod.fst = s.log.map Prod.fst ++ requests.map Request.key := by
  induction requests generalizing s with
  | nil => exact ⟨s, rfl, hs, by simp⟩
  | cons q requests ih =>
    obtain ⟨hkey, hround⟩ := hq q List.mem_cons_self
    obtain ⟨s1, hcall, hs1, hlog1⟩ := hs.step hhas hdb hc config hkey hround
    obtain ⟨s', hrun, hs', hlog⟩ := ih hs1 fun q2 h2 => hq q2 (List.mem_cons_of_mem q h2)
    refine ⟨s', ?_, hs', ?_⟩
    · rw [Runs.run_cons hcall]
      exact hrun
    · rw [hlog, hlog1, List.append_assoc]
      rfl

theorem Loadable.answers (h : Loadable rm resize result keys qf0 m0)
    (hload : bulkLoad rm resize keys.length result keys qf0 m0 = some (0, qf, m))
    (hdb : db.Faithful d0) (hc : c ≠ .skiQF) {requests : List Request}
    (hq : ∀ q ∈ requests, q.key < 2^64 ∧ q.inRound = true) (r0 : QFilterQueryResult) :
    ∃ s, Runs.run (Request.step rm config c (db.lookupKey (db.load d0 keys))) requests
        ⟨⟨qf, m, .start⟩, r0, []⟩ = some s ∧
      s.log.map Prod.fst = requests.map Request.key ∧
        ∀ a ∈ s.log, a.2 = .positive ↔ a.1 ∈ keys := by
  obtain ⟨-, T0, hl, hhas, -⟩ := h.loaded hload
  have hstart : Member rm qf T0 keys ⟨⟨qf, m, .start⟩, r0, []⟩ := ⟨hl, ⟨T0, hl.serving⟩, by simp⟩
  obtain ⟨s, hrun, hs, hlog⟩ := hstart.run hhas (hdb keys h.words) hc config hq
  exact ⟨s, hrun, hlog, hs.exact⟩

def loadedDatabases {E : Type} (engine : Store.Engine D Nat Nat) (d0 : D)
    (merging : Store.MergeEngine E ByteString ByteString) (d1 : E) (keys : List Nat) :
    List (Nat → Bool) :=
  [(wiredTigerBackingStore engine).lookupKey ((wiredTigerBackingStore engine).load d0 keys),
    (splinterBackingStore merging).lookupKey ((splinterBackingStore merging).load d1 keys)]

/-- The filter in front of a database changes no answer: behind a load of both, the requests of the
rounds are answered one after the other, and positively if and only if the key was loaded. -/
theorem answers_membership (h : Loadable rm resize result keys qf0 m0)
    (hload : bulkLoad rm resize keys.length result keys qf0 m0 = some (0, qf, m))
    {engine : Store.Engine D Nat Nat} (hw : engine.Faithful) (hd0 : ∀ k, engine.search d0 k = none)
    {E : Type} {merging : Store.MergeEngine E ByteString ByteString}
    (hs : merging.toEngine.Faithful)
    {d1 : E} (hd1 : ∀ k, merging.search d1 k = none) (hc : c ≠ .skiQF) {requests : List Request}
    (hq : ∀ q ∈ requests, q.key < 2^64 ∧ q.inRound = true) (r0 : QFilterQueryResult) :
    ∀ lookupKey ∈ loadedDatabases engine d0 merging d1 keys,
      ∃ s,
        Runs.run (Request.step rm config c lookupKey) requests ⟨⟨qf, m, .start⟩, r0, []⟩ = some s ∧
        s.log.map Prod.fst = requests.map Request.key ∧
          ∀ a ∈ s.log, a.2 = .positive ↔ a.1 ∈ keys := by
  intro lookupKey hl
  cases List.mem_cons.mp hl with
  | inl hwired =>
    rw [hwired]
    exact h.answers hload (wiredTigerBackingStore_faithful hw hd0) hc hq r0
  | inr hsplinter =>
    rw [List.mem_singleton.mp hsplinter]
    exact h.answers hload (splinterBackingStore_faithful hs hd1) hc hq r0

end

theorem answers_membership_shared : ∃ qf m,
    loadShared sharedMap ⟨[], fun _ => none⟩ = some (0, qf, m) ∧
    ∀ lookupKey ∈ loadedDatabases (Store.mapEngine Nat Nat) (fun _ => none)
        (Store.mapMergeEngine ByteString mergeTuples) (fun _ => none) sharedKeys,
      ∃ s, Runs.run (Request.step sharedMap ⟨2, 8⟩ .adaptiveQF lookupKey) [askFor 64, askFor 32]
          ⟨⟨qf, m, .start⟩, ⟨0, 0, 0, 0, 0⟩, []⟩ = some s ∧
        s.log.map Prod.fst = [askFor 64, askFor 32].map Request.key ∧
          ∀ a ∈ s.log, a.2 = .positive ↔ a.1 ∈ sharedKeys := by
  obtain ⟨qf, m, hload⟩ := sharedMap_loads
  exact ⟨qf, m, hload, answers_membership (loadable_shared sharedMap_faithful) hload
    Store.mapEngine_faithful (fun _ => rfl) (Store.mapMergeEngine_faithful mergeTuples).toFaithful
    (fun _ => rfl) (by decide) (by decide) ⟨0, 0, 0, 0, 0⟩⟩

end AdaptiveQF
