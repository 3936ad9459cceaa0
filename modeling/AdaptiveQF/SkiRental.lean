import AdaptiveQF.Calls
import AdaptiveQF.FalsePositives
import AdaptiveQF.Lib.Rental

/-! SkiQF: an item is rented, its counter one more for each false positive, until it is worth
buying, that is to adapt. -/
namespace AdaptiveQF
open RunLayout Rental

section
variable {M : Type}

/-- The charges to the items, which are known by their minirun and their rank in it. -/
abbrev ItemLedger := Ledger (Nat × Int) Nat

def Service.charges (s : Service M) : Nat × Verdict → ItemLedger
  | (key, .falsePositive ret) =>
    if ret = -1 then []
    else [⟨(minirunId s.filter.qf key, s.result.minirunRank), key, decide (ret = 1)⟩]
  | _ => []

@[simp] theorem Service.charges_negative (s : Service M) (y : Nat) :
    s.charges (y, .negative) = [] :=
  rfl

@[simp] theorem Service.charges_positive (s : Service M) (y : Nat) :
    s.charges (y, .positive) = [] :=
  rfl

def Request.charged (rm : ReverseMap M) (config : QFilterConfig) (lookupKey : Nat → Bool)
    (q : Request) (p : Service M × ItemLedger) : Option (Service M × ItemLedger) :=
  (q.step rm config .skiQF lookupKey p.1).map fun s =>
    (s, p.2 ++ (s.log.drop p.1.log.length).flatMap s.charges)

/-- If the request comes to `adapt`: the counter that is to grow finds an empty slot for its first
digit, and afterwards has the index that `insert_and_extend` computes, and an adaptation finds
space. -/
def Request.Pays (rm : ReverseMap M) (config : QFilterConfig) (lookupKey : Nat → Bool) (q : Request)
    (s : Service M) : Prop :=
  q.inRound = true → lookupKey q.key = false → s.filter.qf.metadata.noccupiedSlots <
    config.fullPoint →
    ∀ r ∈ queryFilter s.filter.qf q.key q.minirunRank q.hashIndex s.result, r.keyPresent = 1 →
      (r.minirunCount < config.breakEvenCount → ∀ info ∈ getSlotInfo s.filter.qf r.hashIndex,
        if info.countSlots = 0 then s.filter.qf.FindsSpace (r.hashIndex + 1 + info.extSlots)
        else info.ext = info.extSlots) ∧
      (config.breakEvenCount ≤ r.minirunCount →
        (rm.getFingerprint s.filter.reverseMap q.key r.minirunRank q.origKey).1 = 0 →
          ∀ a ∈ adapt s.filter.qf r.hashIndex (s.filter.qf.metadata.bucket q.key)
            (rm.getFingerprint s.filter.reverseMap q.key r.minirunRank q.origKey).2 q.key,
              a.1 ≠ noSpace)

instance (rm : ReverseMap M) (config : QFilterConfig) (lookupKey : Nat → Bool) (q : Request)
    (s : Service M) : Decidable (q.Pays rm config lookupKey s) := by
  unfold Request.Pays
  infer_instance

end

/-! One more of an entry. -/

def Entry.withCount (w count : Nat) (e : Entry) : Entry := { e with cnt := counterOf w count }

section
variable {w count : Nat} {m : QFMetadata} {e : Entry}

theorem Entry.withCount_matches {y : Nat} : (e.withCount w count).Matches m y ↔ e.Matches m y := by
  rw [matches_iff, matches_iff]
  rfl

theorem length_counterOf (h0 : 0 < count) (h : count < 2^w) :
    (counterOf w count).length = if count = 1 then 0 else 1 := by
  unfold counterOf
  split
  · rfl
  · rw [Nat.digits_of_lt _ _ (by omega) h]
    rfl

end

section
variable {qf : QF} {T : Table} {y count : Nat} {e : Entry} {t1 t2 : List Entry}

def Rents (qf : QF) (T : Table) (y count : Nat) (t1 : List Entry) (e : Entry) : Prop :=
  if count = 1 then qf.FindsSpace (T.pos qf.metadata (qf.metadata.bucket y) t1 + 1 + e.slots)
  else (e.item qf.metadata).packedExt qf.bits = e.slots

structure Counted (w : Nat) (e : Entry) (count : Nat) : Prop where
  pos : 0 < count
  lt : count < 2^w
  cnt : e.cnt = counterOf w count

theorem Represents.pow_bits_le (h : Represents qf T) : 2^qf.bits ≤ 2^56 :=
  Nat.pow_le_pow_right (by decide) h.layout.geometry.slotBits

theorem Represents.count_eq (h : Represents qf T) (hc : Counted qf.bits e count) :
    (e.item qf.metadata).count qf.bits = count := by
  have hw : 0 < qf.bits := Nat.zero_lt_of_lt h.layout.geometry.bits
  have hpow := h.pow_bits_le
  have hlt := hc.lt
  have hcount := Item.count_counterOf hw hc.pos (by omega) (e.item qf.metadata)
  rw [← hc.cnt] at hcount
  exact hcount

/-- A rented item finds the slots for its counter. -/
theorem Represents.newSlots_le (h : Represents qf T)
    (hT : T (qf.metadata.bucket y) = t1 ++ e :: t2) (hc : Counted qf.bits e count)
    (hlt : count + 1 < 2^qf.bits) (hrents : Rents qf T y count t1 e) :
    (e.item qf.metadata).newSlots qf.bits 1 ≤
      (T.contents qf.metadata).free qf (T.pos qf.metadata (qf.metadata.bucket y) t1) := by
  have hsplit := Represents.split_contents hT qf.metadata
  have hslots : (e.item qf.metadata).ext.length = e.slots := QFMetadata.length_extension _ _ _
  have hcnt : (e.item qf.metadata).cnt.length = if count = 1 then 0 else 1 := by
    rw [← length_counterOf hc.pos hc.lt, ← hc.cnt]
    rfl
  unfold Item.newSlots
  rw [h.count_eq hc, hcnt]
  by_cases hone : count = 1
  · rw [Rents, if_pos hone] at hrents
    have hend := (h.layout.pos_add_len_le hsplit).trans h.layout.fits
    have hfree := h.layout.free_item hsplit (n := 1 + e.slots) (by unfold Item.len; omega)
    have hin : T.pos qf.metadata (qf.metadata.bucket y) t1 + 1 + e.slots ≤ qf.xnslots := by
      unfold Item.len at hend
      unfold Table.pos
      omega
    rw [h.layout.findsSpace_iff hin, Nat.add_assoc] at hrents
    rw [if_pos hone, hone, Nat.mul_zero, pow_zero, Nat.div_one,
      Nat.digits_of_lt _ _ (by decide) (by omega)]
    unfold Table.pos at hrents ⊢
    rw [hfree]
    exact hrents
  · rw [if_neg hone, Nat.mul_one, Nat.div_eq_of_lt hlt]
    simp

theorem Represents.insertAndExtend_same (h : Represents qf T)
    (hT : T (qf.metadata.bucket y) = t1 ++ e :: t2)
    (hs : T.pos qf.metadata (qf.metadata.bucket y) t1 + (e.item qf.metadata).len < 2^31)
    (hc : Counted qf.bits e count) (hlt : count + 1 < 2^qf.bits)
    (hrents : Rents qf T y count t1 e) :
    ∃ qf', AdaptiveQF.insertAndExtend qf (T.pos qf.metadata (qf.metadata.bucket y) t1) y 1 y 0 0
      QF_KEY_IS_HASH =
        some (⟨0, 0, 0⟩, qf') ∧ qf.Keeps qf' ∧
      Represents qf' (Function.update T (qf.metadata.bucket y)
        (t1 ++ e.withCount qf.bits (count+1) :: t2)) := by
  have hw : 0 < qf.bits := Nat.zero_lt_of_lt h.layout.geometry.bits
  have hpow := h.pow_bits_le
  have h0 := hc.pos
  have hkey := keyToHash_self qf y
  have hsplit := Represents.split_contents hT qf.metadata
  have hslots : (e.item qf.metadata).ext.length = e.slots := QFMetadata.length_extension _ _ _
  have hcounts : (e.item qf.metadata).Counts qf.bits := by
    have hall := Item.counts_counterOf h0 (by omega) (e.item qf.metadata) (w := qf.bits)
    rw [← hc.cnt] at hall
    exact hall
  have hindex : (e.item qf.metadata).cnt = [] ∨
      (e.item qf.metadata).packedExt qf.bits = (e.item qf.metadata).ext.length := by
    by_cases hone : count = 1
    · left
      have hcnt := hc.cnt
      rw [counterOf, if_pos hone] at hcnt
      exact hcnt
    · right
      rw [Rents, if_neg hone] at hrents
      rw [hslots, hrents]
  obtain ⟨qf', hcall, hk, hlay⟩ := h.layout.extendSame_eq hsplit hs hindex y 1 rfl
    (by rw [h.count_eq hc]; omega) (h.newSlots_le hT hc hlt hrents)
  have hnew : Nat.digits (2^qf.bits) (count+1) = counterOf qf.bits (count+1) := by
    rw [counterOf, if_neg (by omega)]
  rw [hcounts.addCount_eq hw, h.count_eq hc, hnew] at hlay
  refine ⟨qf', ?_, hk, ?_⟩
  · apply withLock_eq h.idle _ _ _ _ _ hk.locks
    simp only [hkey, ne_eq, not_true, if_false, if_true]
    change (extendSame qf ((T.contents qf.metadata).pos _ _) y 1).bind _ = _
    rw [hcall]
    rfl
  · have hv := h.valid_replace hT (l := [e.withCount qf.bits (count+1)]) fun z hz => by
      rw [List.mem_singleton.mp hz]
      have he := h.valid _ e (by rw [hT]; simp)
      exact ⟨he.bucket, he.word, he.fits⟩
    refine h.replace hk ?_ fun x hx => hv x (by simpa using hx)
    rw [List.map_append, List.map_cons]
    exact hlay

end

/-! The items. -/

def itemAt (qf : QF) (hashes : List Nat) (i : Nat) : Nat × Int :=
  (minirunId qf (hashes.getD i 0), ((hashes.take i).countP fun g =>
    qf.metadata.remainder g = qf.metadata.remainder (hashes.getD i 0) : Nat))

section
variable {qf : QF} {T T0 : Table} {b c i j y : Nat} {e e' x : Entry} {t1 t2 : List Entry}

theorem itemAt_firstEntry (hg : Geometry qf.metadata)
    (hf : FirstEntry qf.metadata y (T (qf.metadata.bucket y)) t1 e t2)
    (hb : qf.metadata.bucket e.hash = qf.metadata.bucket y) :
    itemAt qf ((T (qf.metadata.bucket y)).map Entry.hash) t1.length =
      (minirunId qf y, (rankOf qf.metadata y (t1.map (Entry.item qf.metadata)) : Int)) := by
  have hrem := (Entry.matches_iff.mp hf.hit).1
  have hhash : ((T (qf.metadata.bucket y)).map Entry.hash).getD t1.length 0 = e.hash := by
    rw [hf.split]
    simp
  have htake : ((T (qf.metadata.bucket y)).map Entry.hash).take t1.length = t1.map Entry.hash := by
    rw [hf.split]
    simp
  rw [itemAt, hhash, htake, rankOf_items, hrem, hg.minirunId_eq_iff.mpr ⟨hb, hrem⟩]

/-- The rank behind an item of the same minirun is larger. -/
theorem rank_lt_rank {m : QFMetadata} {l : List Nat} {i j g r : Nat} (hg : l[i]? = some g)
    (hij : i < j) (hr : m.remainder g = r) : (l.take i).countP (fun g => m.remainder g = r) <
      (l.take j).countP fun g => m.remainder g = r := by
  have hsub : (l.take (i+1)).Sublist (l.take j) := List.take_sublist_take_left hij
  have hle := hsub.countP_le (p := fun g => decide (m.remainder g = r))
  rw [List.take_add_one, hg, Option.toList_some, List.countP_append, List.countP_singleton,
    if_pos (by simpa using hr)] at hle
  omega

/-- Different places are different items. -/
theorem itemAt_inj (hg : Geometry qf.metadata)
    (hb : ∀ b, ∀ e ∈ T b, qf.metadata.bucket e.hash = b) {e x : Entry} (hi : (T b)[i]? = some e)
    (hj : (T c)[j]? = some x)
    (heq : itemAt qf ((T b).map Entry.hash) i = itemAt qf ((T c).map Entry.hash) j) :
    b = c ∧ i = j := by
  have hgeti : ((T b).map Entry.hash).getD i 0 = e.hash := by simp [hi]
  have hgetj : ((T c).map Entry.hash).getD j 0 = x.hash := by simp [hj]
  simp only [itemAt, hgeti, hgetj, Prod.mk.injEq, Nat.cast_inj] at heq
  obtain ⟨hid, hcount⟩ := heq
  obtain ⟨hbucket, hrem⟩ := hg.minirunId_eq_iff.mp hid
  have hbc : b = c := by
    rw [← hb b e (List.mem_of_getElem? hi), ← hb c x (List.mem_of_getElem? hj), hbucket]
  subst hbc
  refine ⟨rfl, ?_⟩
  have hhi : ((T b).map Entry.hash)[i]? = some e.hash := by simp [hi]
  have hhj : ((T b).map Entry.hash)[j]? = some x.hash := by simp [hj]
  rw [hrem] at hcount
  cases Nat.lt_trichotomy i j with
  | inl h => exact absurd hcount (rank_lt_rank hhi h hrem).ne
  | inr h =>
    cases h with
    | inl h => exact h
    | inr h => exact absurd hcount (rank_lt_rank hhj h rfl).ne'

theorem getElem?_update (hT : T b = t1 ++ e :: t2)
    (h : (Function.update T b (t1 ++ e' :: t2) c)[j]? = some x) :
    c = b ∧ j = t1.length ∧ x = e' ∨ ¬ (c = b ∧ j = t1.length) ∧ (T c)[j]? = some x := by
  by_cases hc : c = b
  · subst hc
    rw [Function.update_self] at h
    cases Nat.lt_trichotomy j t1.length with
    | inl hlt =>
      rw [List.getElem?_append_left hlt] at h
      refine .inr ⟨by omega, ?_⟩
      rw [hT, List.getElem?_append_left hlt]
      exact h
    | inr hge =>
      cases hge with
      | inl heq =>
        subst heq
        rw [List.getElem?_append_right (Nat.le_refl _), Nat.sub_self] at h
        exact .inl ⟨rfl, rfl, (Option.some.inj h).symm⟩
      | inr hgt =>
        obtain ⟨n, rfl⟩ := Nat.exists_eq_add_of_lt hgt
        refine .inr ⟨by omega, ?_⟩
        rw [hT]
        rw [List.getElem?_append_right (by omega)] at h ⊢
        have hn : t1.length + n + 1 - t1.length = n + 1 := by omega
        rw [hn] at h ⊢
        exact h
  · rw [Function.update_of_ne hc] at h
    exact .inr ⟨fun hcj => hc hcj.1, h⟩

end

section
variable {M : Type} {rm : ReverseMap M} {qf0 qf qf' : QF} {T0 T : Table} {e e' : Entry}
  {t1 t2 : List Entry}

theorem Holding.update (h : Holding qf0 T0 qf T) {b : Nat} (hT : T b = t1 ++ e :: t2)
    (hk : qf.Keeps qf') (hr : Represents qf' (Function.update T b (t1 ++ e' :: t2)))
    (he : e'.hash = e.hash) : Holding qf0 T0 qf' (Function.update T b (t1 ++ e' :: t2)) := by
  refine ⟨hr, h.keeps.trans hk, fun c => ?_⟩
  by_cases hc : c = b
  · have hh := h.hashes c
    subst hc
    rw [hT] at hh
    rw [Function.update_self, ← hh]
    simp [he]
  · rw [Function.update_of_ne hc]
    exact h.hashes c

theorem Holding.has_entry (h : Holding qf0 T0 qf T) {y : Nat}
    (hf : FirstEntry qf.metadata y (T (qf.metadata.bucket y)) t1 e t2) :
    T0.Has qf0.metadata e.hash := by
  have he : e ∈ T (qf.metadata.bucket y) := by rw [hf.split]; simp
  rw [Table.Has, ← h.hashes, ← h.keeps.bucket, (h.represents.valid _ e he).bucket]
  exact List.mem_map_of_mem he

/-- What a run of requests keeps: the counts are those of the ledger, and what has been bought on
behalf of a key does not match it. -/
structure Renting (rm : ReverseMap M) (k : Nat) (qf0 : QF) (T0 : Table) (p : Service M × ItemLedger)
    (T : Table) : Prop where
  loaded : Loaded rm qf0 T0 p.1.filter.reverseMap
  holding : Holding qf0 T0 p.1.filter.qf T
  counted : ∀ b i e, (T b)[i]? = some e → Counted qf0.bits e
    (1 + (p.2.to (itemAt qf0 ((T b).map Entry.hash) i)).length % k)
  breakEven : BreakEven k p.2
  settled : Settled p.2
  apart : ∀ c ∈ p.2, c.bought = true → ∀ b i e, (T b)[i]? = some e →
    itemAt qf0 ((T b).map Entry.hash) i = c.item → ¬ e.Matches qf0.metadata c.account
  found : ∀ y, T0.Has qf0.metadata y → (y, .negative) ∉ p.1.log

theorem Renting.charge {k y : Nat} {p : Service M × ItemLedger} {s' : Service M}
    {c : Charge (Nat × Int) Nat} {b : Nat}
    (h : Renting rm k qf0 T0 p T) (hT : T b = t1 ++ e :: t2)
    (hmap : s'.filter.reverseMap = p.1.filter.reverseMap)
    (hold : Holding qf0 T0 s'.filter.qf (Function.update T b (t1 ++ e' :: t2)))
    (hhash : e'.hash = e.hash) (hm : e.Matches qf0.metadata y)
    (hless : ∀ z, e'.Matches qf0.metadata z → e.Matches qf0.metadata z)
    (hitem : c.item = itemAt qf0 ((T b).map Entry.hash) t1.length) (hy : c.account = y)
    (hb : c.bought = decide (((p.2.to c.item).length + 1) % k = 0))
    (hc : Counted qf0.bits e' (1 + ((p.2.to c.item).length + 1) % k))
    (hparts : c.bought = true → ¬ e'.Matches qf0.metadata y)
    (hfound : ∀ z, T0.Has qf0.metadata z → (z, .negative) ∉ s'.log) :
    Renting rm k qf0 T0 (s', p.2 ++ [c]) (Function.update T b (t1 ++ e' :: t2)) := by
  have hg := h.loaded.represents.layout.geometry
  have he : (T b)[t1.length]? = some e := by simp [hT]
  have hbucket : ∀ d, ∀ x ∈ T d, qf0.metadata.bucket x.hash = d := by
    intro d x hx
    have hv := h.holding.represents.valid d x hx
    rw [← h.holding.keeps.bucket]
    exact hv.bucket
  have hhashes : ∀ d, ((Function.update T b (t1 ++ e' :: t2)) d).map Entry.hash =
      (T d).map Entry.hash := by
    intro d
    rw [hold.hashes, h.holding.hashes]
  have hother : ∀ {d j x}, ¬ (d = b ∧ j = t1.length) → (T d)[j]? = some x →
      c.item ≠ itemAt qf0 ((T d).map Entry.hash) j := by
    intro d j x hne hx heq
    rw [hitem] at heq
    obtain ⟨hd, hj⟩ := itemAt_inj hg hbucket he hx heq
    exact hne ⟨hd.symm, hj.symm⟩
  refine ⟨?_, hold, fun d j x hx => ?_, h.breakEven.concat hb,
    h.settled.concat fun a ha hai hab => ?_,
    fun a ha hab d j x hx hai => ?_, hfound⟩
  · rw [hmap]
    exact h.loaded
  · rw [hhashes]
    cases getElem?_update hT hx with
    | inl hnew =>
      obtain ⟨rfl, rfl, rfl⟩ := hnew
      rw [← hitem, length_to_concat]
      exact hc
    | inr hold =>
      rw [to_concat_of_ne (hother hold.1 hold.2)]
      exact h.counted d j x hold.2
  · intro hay
    refine h.apart a ha hab b t1.length e he (by rw [hai, hitem]) ?_
    rw [hay, hy]
    exact hm
  · rw [hhashes] at hai
    cases List.mem_append.mp ha with
    | inl hmem =>
      cases getElem?_update hT hx with
      | inl hnew =>
        obtain ⟨rfl, rfl, rfl⟩ := hnew
        exact fun hz => h.apart a hmem hab d _ e he hai (hless _ hz)
      | inr hold => exact h.apart a hmem hab d j x hold.2 hai
    | inr hmem =>
      obtain rfl := List.mem_singleton.mp hmem
      cases getElem?_update hT hx with
      | inl hnew =>
        obtain ⟨-, -, rfl⟩ := hnew
        rw [hy]
        exact hparts hab
      | inr hold => exact absurd hai.symm (hother hold.1 hold.2)

end

section
variable {M : Type} {rm : ReverseMap M} {config : QFilterConfig} {lookupKey : Nat → Bool} {k : Nat}
  {qf0 : QF} {T0 T : Table} {p : Service M × ItemLedger} {q : Request} {y : Nat} {e : Entry}
  {t1 t2 : List Entry}

theorem skiQF_queryFilter (f : AdaptiveFilter M) (y i j : Nat) (result : QFilterQueryResult) :
    FilterClass.skiQF.queryFilter f y i j result =
      (queryFilter f.qf y i j result).map fun r => (r, f) := if_neg (by decide)

theorem Request.charged_eq {s' : Service M} {a : Nat × Verdict}
    (h : q.step rm config .skiQF lookupKey p.1 = some s') (hlog : s'.log = p.1.log ++ [a]) :
    q.charged rm config lookupKey p = some (s', p.2 ++ s'.charges a) := by
  rw [charged, h, Option.map_some, hlog, List.drop_left, List.flatMap_singleton]

theorem Renting.free (h : Renting rm k qf0 T0 p T) {s' : Service M} {v : Verdict}
    (hqf : s'.filter.qf = p.1.filter.qf) (hmap : s'.filter.reverseMap = p.1.filter.reverseMap)
    (hlog : s'.log = p.1.log ++ [(y, v)]) (hv : T0.Has qf0.metadata y → v ≠ .negative) :
    Renting rm k qf0 T0 (s', p.2) T := by
  refine ⟨?_, ?_, h.counted, h.breakEven, h.settled, h.apart, fun z hz hmem => ?_⟩
  · rw [hmap]
    exact h.loaded
  · rw [hqf]
    exact h.holding
  · rw [hlog] at hmem
    cases List.mem_append.mp hmem with
    | inl hold => exact h.found z hz hold
    | inr hnew =>
      obtain ⟨rfl, rfl⟩ := Prod.mk.inj (List.mem_singleton.mp hnew)
      exact hv hz rfl

theorem Holding.queryFilter_counted {f : AdaptiveFilter M} (h : Holding qf0 T0 f.qf T)
    (hl : Loaded rm qf0 T0 f.reverseMap)
    (hf : FirstEntry f.qf.metadata y (T (f.qf.metadata.bucket y)) t1 e t2) {count : Nat}
    (hc : Counted f.qf.bits e count) (hlt : count < 256) (i j : Nat) (result : QFilterQueryResult) :
    queryFilter f.qf y i j result = some ⟨1,
      (rankOf f.qf.metadata y (t1.map (Entry.item f.qf.metadata)) : Nat), (count : Nat), y,
      T.pos f.qf.metadata (f.qf.metadata.bucket y) t1⟩ := by
  have hpos := hc.pos
  have hint : toInt count = count := toInt_of_lt (by omega)
  have hq := h.represents.wf.queryFilter_hit (h.near hl y) hf.firstMatch (by
    rw [h.represents.count_eq hc, hint]
    omega) i j result
  rw [hq, h.represents.count_eq hc, hint, Nat.mod_eq_of_lt (h.rank_lt hl hf),
    Int.emod_eq_of_lt (by omega) (by omega)]
  rfl

theorem Holding.getSlotInfo_eq {f : AdaptiveFilter M} (h : Holding qf0 T0 f.qf T)
    (hl : Loaded rm qf0 T0 f.reverseMap)
    (hf : FirstEntry f.qf.metadata y (T (f.qf.metadata.bucket y)) t1 e t2) :
    getSlotInfo f.qf (T.pos f.qf.metadata (f.qf.metadata.bucket y) t1) =
      some ((e.item f.qf.metadata).info f.qf.bits) := by
  have hat := h.represents.layout.itemAt (Represents.split_contents hf.split f.qf.metadata)
  exact (hat.getSlotInfo_eq h.represents.layout.row.blocks).trans
    (if_pos (Represents.near_hit (h.near hl y) hf))

theorem Renting.rents (h : Renting rm k qf0 T0 p T) (hp : q.Pays rm config lookupKey p.1)
    (hround : q.inRound = true) (hnot : lookupKey q.key = false)
    (hfull : p.1.filter.qf.metadata.noccupiedSlots < config.fullPoint)
    (hf : FirstEntry p.1.filter.qf.metadata q.key (T (p.1.filter.qf.metadata.bucket q.key)) t1 e t2)
    {count : Nat} (hc : Counted p.1.filter.qf.bits e count) (hlt : count < 256)
    (hbreak : (count : Int) < config.breakEvenCount) :
    Rents p.1.filter.qf T q.key count t1 e := by
  have hquery :=
    h.holding.queryFilter_counted h.loaded hf hc hlt q.minirunRank q.hashIndex p.1.result
  have hinfo :=
    (hp hround hnot hfull _ hquery rfl).1 hbreak _ (h.holding.getSlotInfo_eq h.loaded hf)
  have hslots : (e.item p.1.filter.qf.metadata).ext.length = e.slots :=
    QFMetadata.length_extension _ _ _
  have hlen := length_counterOf hc.pos hc.lt
  rw [← hc.cnt] at hlen
  have hcnt : ((e.item p.1.filter.qf.metadata).info p.1.filter.qf.bits).countSlots = e.cnt.length :=
    rfl
  rw [hcnt, hlen] at hinfo
  unfold Rents
  by_cases hone : count = 1
  · rw [if_pos hone, if_pos rfl] at hinfo
    rw [if_pos hone, ← hslots]
    exact hinfo
  · rw [if_neg hone, if_neg (by decide)] at hinfo
    rw [if_neg hone, ← hslots]
    exact hinfo

theorem Renting.buys (h : Renting rm k qf0 T0 p T) (hp : q.Pays rm config lookupKey p.1)
    (hround : q.inRound = true) (hnot : lookupKey q.key = false)
    (hfull : p.1.filter.qf.metadata.noccupiedSlots < config.fullPoint)
    (hf : FirstEntry p.1.filter.qf.metadata q.key (T (p.1.filter.qf.metadata.bucket q.key)) t1 e t2)
    {count : Nat} (hc : Counted p.1.filter.qf.bits e count) (hlt : count < 256)
    (hbreak : config.breakEvenCount ≤ (count : Int)) {ret : Int} {retHash : Nat} {qf' : QF}
    (hadapt : adapt p.1.filter.qf
      (T.pos p.1.filter.qf.metadata (p.1.filter.qf.metadata.bucket q.key) t1)
      (p.1.filter.qf.metadata.bucket q.key) e.hash q.key = some (ret, retHash, qf')) :
    ret ≠ noSpace := by
  have hquery :=
    h.holding.queryFilter_counted h.loaded hf hc hlt q.minirunRank q.hashIndex p.1.result
  have hget := h.holding.getFingerprint h.loaded hf q.origKey
  have hspace := (hp hround hnot hfull _ hquery rfl).2 hbreak
  simp only [hget] at hspace
  exact hspace trivial _ hadapt

theorem Renting.item (h : Renting rm k qf0 T0 p T)
    (hf : FirstEntry p.1.filter.qf.metadata y (T (p.1.filter.qf.metadata.bucket y)) t1 e t2) :
    ∃ item, item = itemAt qf0 ((T (p.1.filter.qf.metadata.bucket y)).map Entry.hash) t1.length ∧
      item = (minirunId qf0 y,
        (rankOf p.1.filter.qf.metadata y (t1.map (Entry.item p.1.filter.qf.metadata)) : Int)) ∧
      Counted p.1.filter.qf.bits e (1 + (p.2.to item).length % k) := by
  have hk := h.holding.keeps
  refine ⟨_, rfl, ?_, ?_⟩
  · have hv := h.holding.represents.valid _ e (by rw [hf.split]; simp)
    have hitem := itemAt_firstEntry h.holding.represents.layout.geometry hf hv.bucket
    have hat : itemAt p.1.filter.qf = itemAt qf0 := by
      funext l i
      rw [itemAt, itemAt, hk.minirunId, hk.remainder]
    rw [← hat, hitem, hk.minirunId]
  · rw [hk.bits]
    exact h.counted _ _ e (by simp [hf.split])

variable {r : QFilterQueryResult}

theorem Renting.rent (h : Renting rm k qf0 T0 p T) (hk : 0 < k) (hk2 : k < 2^qf0.bits)
    (hf : FirstEntry p.1.filter.qf.metadata y (T (p.1.filter.qf.metadata.bucket y)) t1 e t2)
    {item : Nat × Int}
    (hitem : item = itemAt qf0 ((T (p.1.filter.qf.metadata.bucket y)).map Entry.hash) t1.length)
    (hc : Counted p.1.filter.qf.bits e (1 + (p.2.to item).length % k))
    (hlt : 1 + (p.2.to item).length % k < k)
    (hrents : Rents p.1.filter.qf T y (1 + (p.2.to item).length % k) t1 e) :
    ∃ qf', insertAndExtend p.1.filter.qf
        (T.pos p.1.filter.qf.metadata (p.1.filter.qf.metadata.bucket y) t1)
          y 1 y 0 0 QF_KEY_IS_HASH =
          some (⟨0, 0, 0⟩, qf') ∧
      ∃ T', Renting rm k qf0 T0
        (⟨{ p.1.filter with qf := qf' }, r, p.1.log ++ [(y, .falsePositive 0)]⟩,
        p.2 ++ [⟨item, y, false⟩]) T' := by
  have hkeeps := h.holding.keeps
  have hsucc := succ_mod (n := (p.2.to item).length) hk
  rw [if_neg (by omega)] at hsucc
  have hbits := hkeeps.bits
  obtain ⟨qf', hcall, hk', hrep⟩ := h.holding.represents.insertAndExtend_same hf.split
    (Represents.near_hit (h.holding.near h.loaded y) hf) hc (by rw [hbits]; omega) hrents
  refine ⟨qf', hcall, _, h.charge hf.split rfl
    (h.holding.update hf.split hk' hrep rfl) rfl ((hkeeps.matches_entry e y).mp hf.hit)
    (fun z hz => Entry.withCount_matches.mp hz) hitem rfl ?_ ?_ (by simp) fun z hz hmem => ?_⟩
  · simp only [hsucc]
    simp
  · simp only [hsucc]
    refine ⟨by omega, by omega, ?_⟩
    rw [hbits, Entry.withCount, Nat.add_comm 1 (_ % k), Nat.add_comm 1 (_ % k + 1)]
  · cases List.mem_append.mp hmem with
    | inl hold => exact h.found z hz hold
    | inr hnew => simp at hnew

theorem Renting.buy (h : Renting rm k qf0 T0 p T) (hk : 0 < k) (hk2 : k < 2^qf0.bits)
    (hy : y < 2^64)
    (hf : FirstEntry p.1.filter.qf.metadata y (T (p.1.filter.qf.metadata.bucket y)) t1 e t2)
    (hne : e.hash ≠ y) {item : Nat × Int}
    (hitem : item = itemAt qf0 ((T (p.1.filter.qf.metadata.bucket y)).map Entry.hash) t1.length)
    (hc : Counted p.1.filter.qf.bits e (1 + (p.2.to item).length % k))
    (hlt : k ≤ 1 + (p.2.to item).length % k)
    (hspace : ∀ ret retHash qf', adapt p.1.filter.qf
      (T.pos p.1.filter.qf.metadata (p.1.filter.qf.metadata.bucket y) t1)
      (p.1.filter.qf.metadata.bucket y) e.hash y = some (ret, retHash, qf') → ret ≠ noSpace) :
    ∃ qf', qfAdaptUsingLlTable p.1.filter.qf e.hash y
        (rankOf p.1.filter.qf.metadata y (t1.map (Entry.item p.1.filter.qf.metadata)))
          QF_KEY_IS_HASH =
          some (1, qf') ∧
      ∃ T', Renting rm k qf0 T0
        (⟨{ p.1.filter with qf := qf' }, r, p.1.log ++ [(y, .falsePositive 1)]⟩,
        p.2 ++ [⟨item, y, true⟩]) T' := by
  have hkeeps := h.holding.keeps
  have hmod := Nat.mod_lt (p.2.to item).length hk
  have hsucc := succ_mod (n := (p.2.to item).length) hk
  rw [if_pos (by omega)] at hsucc
  have hlen : e.cnt.length ≤ 1 := by
    rw [hc.cnt, length_counterOf hc.pos hc.lt]
    split <;> decide
  obtain ⟨qf', ret, retHash, n, hcall, hadapt, hg⟩ :=
    h.holding.represents.qfAdaptUsingLlTable hf.split
    hlen (Represents.near_hit (h.holding.near h.loaded y) hf) (keyToHash_self _ e.hash)
    (keyToHash_self _ y) hy hne hf.hit
  have hparts := hg.parted (hspace _ _ _ hadapt) hy hne rfl
  have hone : 1 < 2^qf0.bits := Nat.lt_of_le_of_lt hk hk2
  refine ⟨qf', hcall, _, h.charge hf.split rfl
    (h.holding.update hf.split hg.keeps hg.represents (e.grow_hash n)) (e.grow_hash n)
    ((hkeeps.matches_entry e y).mp hf.hit) (fun z hz => hz.of_grow hparts.longer.le) hitem rfl ?_ ?_
    (fun _ hm => hparts.apart ((hkeeps.matches_entry _ y).mpr hm)) fun z hz hmem => ?_⟩
  · simp only [hsucc]
    simp
  · simp only [hsucc]
    exact ⟨by decide, hone, Entry.grow_cnt hparts.longer⟩
  · cases List.mem_append.mp hmem with
    | inl hold => exact h.found z hz hold
    | inr hnew => simp at hnew

/-- A false positive. -/
theorem Renting.adapt (h : Renting rm k qf0 T0 p T) (hk : 0 < k) (hk8 : k < 2^8)
    (hkw : k < 2^qf0.bits) (hconfig : config.breakEvenCount = k) (hq : q.key < 2^64)
    (hp : q.Pays rm config lookupKey p.1) (hround : q.inRound = true)
    (hnot : lookupKey q.key = false) (hno : ¬ T0.Has qf0.metadata q.key)
    (hf : FirstEntry p.1.filter.qf.metadata q.key (T (p.1.filter.qf.metadata.bucket q.key)) t1 e t2)
    (hr : queryFilter p.1.filter.qf q.key q.minirunRank q.hashIndex p.1.result = some r) :
    ∃ ret f', skiQFAdapt rm config p.1.filter q.key r q.origKey = some (ret, f') ∧
      ∃ T', Renting rm k qf0 T0 (⟨f', r, p.1.log ++ [(q.key, .falsePositive ret)]⟩, p.2 ++
        Service.charges ⟨f', r, p.1.log ++ [(q.key, .falsePositive ret)]⟩
          (q.key, .falsePositive ret)) T' := by
  obtain ⟨item, hitem, hname, hc⟩ := h.item hf
  have hmod := Nat.mod_lt (p.2.to item).length hk
  have hlt : 1 + (p.2.to item).length % k < 256 := by omega
  have hquery :=
    h.holding.queryFilter_counted h.loaded hf hc hlt q.minirunRank q.hashIndex p.1.result
  obtain rfl := Option.some.inj (hr.symm.trans hquery)
  have hbreak : ((1 + (p.2.to item).length % k : Nat) : Int) < config.breakEvenCount ↔
      1 + (p.2.to item).length % k < k := by
    rw [hconfig]
    exact Int.ofNat_lt
  unfold skiQFAdapt
  by_cases hfull : p.1.filter.qf.metadata.noccupiedSlots ≥ config.fullPoint
  · refine ⟨_, _, if_pos hfull, T, ?_⟩
    simp only [Service.charges, if_true, List.append_nil]
    exact h.free rfl rfl rfl fun _ => by simp
  rw [if_neg hfull]
  by_cases hcheap : 1 + (p.2.to item).length % k < k
  · obtain ⟨qf', hcall, T', hT'⟩ := h.rent hk hkw hf hitem hc hcheap
      (h.rents hp hround hnot (by omega) hf hc hlt (hbreak.mpr hcheap))
    refine ⟨0, { p.1.filter with qf := qf' }, ?_, T', ?_⟩
    · rw [if_pos (hbreak.mpr hcheap), hcall]
      rfl
    · have hmini := hT'.holding.keeps.minirunId q.key
      simp only [Service.charges, hmini, ← hname]
      exact hT'
  · obtain ⟨qf', hcall, T', hT'⟩ := h.buy hk hkw hq hf
      (fun heq => hno (heq ▸ h.holding.has_entry hf)) hitem hc (by omega) fun ret retHash qf' ha =>
        h.buys hp hround hnot (by omega) hf hc hlt (not_lt.mp fun hlt => hcheap (hbreak.mp hlt)) ha
    refine ⟨1, { p.1.filter with qf := qf' }, ?_, T', ?_⟩
    · have hget := h.holding.getFingerprint h.loaded hf q.origKey
      have hrank := h.holding.rank_lt h.loaded hf
      have hword : toWord (rankOf p.1.filter.qf.metadata q.key
          (t1.map (Entry.item p.1.filter.qf.metadata)) : Nat) =
            rankOf p.1.filter.qf.metadata q.key (t1.map (Entry.item p.1.filter.qf.metadata)) := by
        unfold toWord
        omega
      rw [if_neg fun hlt => hcheap (hbreak.mp hlt)]
      simp only [fetchAndAdapt, hget, hword, hcall, ne_eq, not_true, if_false, Option.bind_eq_bind,
        Option.bind_some]
    · have hmini := hT'.holding.keeps.minirunId q.key
      simp only [Service.charges, hmini, ← hname]
      exact hT'

theorem Renting.step (h : Renting rm k qf0 T0 p T) (hk : 0 < k) (hk8 : k < 2^8)
    (hkw : k < 2^qf0.bits) (hconfig : config.breakEvenCount = k)
    (hstored : ∀ y, T0.Has qf0.metadata y → lookupKey y = true) (hq : q.key < 2^64)
    (hp : q.Pays rm config lookupKey p.1) :
    ∃ p', q.charged rm config lookupKey p = some p' ∧ ∃ T', Renting rm k qf0 T0 p' T' := by
  cases firstEntry_or_none p.1.filter.qf.metadata q.key
      (T (p.1.filter.qf.metadata.bucket q.key)) with
  | inr hm =>
    obtain ⟨r, f', hcall, hpresent, hqf, hmap, -⟩ :=
      h.holding.query_miss h.loaded .skiQF hm q.minirunRank q.hashIndex p.1.result
    have hstep : q.step rm config .skiQF lookupKey p.1 =
        some ⟨f', r, p.1.log ++ [(q.key, .negative)]⟩ := by
      rw [Request.step, hcall, Option.bind_eq_bind, Option.bind_some]
      exact if_pos hpresent
    refine ⟨_, q.charged_eq hstep rfl, T, ?_⟩
    rw [Service.charges_negative, List.append_nil]
    exact h.free hqf hmap rfl fun hy => absurd hm (h.holding.not_miss hy)
  | inl hf =>
    obtain ⟨t1, e, t2, hf⟩ := hf
    obtain ⟨item, -, -, hc⟩ := h.item hf
    have hmod := Nat.mod_lt (p.2.to item).length hk
    have hquery := h.holding.queryFilter_counted h.loaded hf hc (by omega) q.minirunRank q.hashIndex
      p.1.result
    generalize hr : QFilterQueryResult.mk .. = r at hquery
    have hpresent : ¬ r.keyPresent = 0 := by
      rw [← hr]
      exact Int.one_ne_zero
    have hcall := skiQF_queryFilter p.1.filter q.key q.minirunRank q.hashIndex p.1.result
    rw [hquery, Option.map_some] at hcall
    by_cases hask : (!q.inRound || lookupKey q.key) = true
    · have hstep : q.step rm config .skiQF lookupKey p.1 =
          some ⟨p.1.filter, r, p.1.log ++ [(q.key, .positive)]⟩ := by
        rw [Request.step, hcall, Option.bind_eq_bind, Option.bind_some]
        exact (if_neg hpresent).trans (if_pos hask)
      refine ⟨_, q.charged_eq hstep rfl, T, ?_⟩
      rw [Service.charges_positive, List.append_nil]
      exact h.free rfl rfl rfl fun _ => by decide
    · have hin : q.inRound = true ∧ lookupKey q.key = false := by simpa using hask
      have hno : ¬ T0.Has qf0.metadata q.key := fun hy => by
        rw [hstored _ hy] at hin
        exact absurd hin.2 (by decide)
      obtain ⟨ret, f', hadapt, T', hT'⟩ :=
        h.adapt hk hk8 hkw hconfig hq hp hin.1 hin.2 hno hf hquery
      have hstep : q.step rm config .skiQF lookupKey p.1 =
          some ⟨f', r, p.1.log ++ [(q.key, .falsePositive ret)]⟩ := by
        rw [Request.step, hcall, Option.bind_eq_bind, Option.bind_some]
        refine (if_neg hpresent).trans ((if_neg hask).trans ?_)
        rw [FilterClass.adapt, hadapt]
        rfl
      exact ⟨_, q.charged_eq hstep rfl, T', hT'⟩

end

/-! From the load on. -/

section
variable {M : Type} {rm : ReverseMap M} {m m0 : M} {qf0 qf : QF} {keys : List Nat} {T0 T : Table}
  {resize : QF → Nat → Option (Int × QF)} {result : InsertResult} {config : QFilterConfig}
  {lookupKey : Nat → Bool} {k : Nat} {p : Service M × ItemLedger}

theorem Loaded.renting (h : Loaded rm qf0 T0 m) (hw : 1 < 2^qf0.bits) (k : Nat)
    (r0 : QFilterQueryResult) : Renting rm k qf0 T0 (⟨⟨qf0, m, .start⟩, r0, []⟩, []) T0 where
  loaded := h
  holding := h.serving.toHolding
  counted b i e he := by
    have hzero : ∀ item, (Ledger.to ([] : ItemLedger) item).length % k = 0 :=
      fun _ => Nat.zero_mod k
    rw [hzero]
    exact ⟨Nat.one_pos, hw, h.plain b e (List.mem_of_getElem? he)⟩
  breakEven := breakEven_nil k
  settled := .nil
  apart := by simp
  found := by simp

/-- The count that is reported of an item is that of its charges since it was last bought. -/
theorem Renting.reports (h : Renting rm k qf0 T0 p T) (hk : 0 < k) (hk8 : k < 2^8) {y i j : Nat}
    {r0 r : QFilterQueryResult} (hr : queryFilter p.1.filter.qf y i j r0 = some r)
    (hp : r.keyPresent = 1) :
    r.minirunCount = (1 + (p.2.to (minirunId qf0 y, r.minirunRank)).length % k : Nat) := by
  cases firstEntry_or_none p.1.filter.qf.metadata y (T (p.1.filter.qf.metadata.bucket y)) with
  | inr hm =>
    obtain ⟨r', hr', hzero⟩ :=
      h.holding.represents.wf.queryFilter_absent (h.holding.near h.loaded y)
      (not_matches_items hm) i j r0
    obtain rfl := Option.some.inj (hr.symm.trans hr')
    rw [hzero] at hp
    cases hp
  | inl hf =>
    obtain ⟨t1, e, t2, hf⟩ := hf
    obtain ⟨item, -, rfl, hc⟩ := h.item hf
    have hmod := Nat.mod_lt (p.2.to (minirunId qf0 y,
      (rankOf p.1.filter.qf.metadata y
          (t1.map (Entry.item p.1.filter.qf.metadata)) : Int))).length hk
    have hquery := h.holding.queryFilter_counted h.loaded hf hc (by omega) i j r0
    obtain rfl := Option.some.inj (hr.symm.trans hquery)
    rfl

/-- A loaded key is found. -/
theorem Renting.finds (h : Renting rm k qf0 T0 p T) (hk : 0 < k) (hk8 : k < 2^8) {y : Nat}
    (hy : T0.Has qf0.metadata y) : p.1.Finds .skiQF y := by
  intro i j r0
  cases firstEntry_or_none p.1.filter.qf.metadata y (T (p.1.filter.qf.metadata.bucket y)) with
  | inr hm => exact absurd hm (h.holding.not_miss hy)
  | inl hf =>
    obtain ⟨t1, e, t2, hf⟩ := hf
    obtain ⟨item, -, -, hc⟩ := h.item hf
    have hmod := Nat.mod_lt (p.2.to item).length hk
    have hquery := h.holding.queryFilter_counted h.loaded hf hc (by omega) i j r0
    have hcall := skiQF_queryFilter p.1.filter y i j r0
    rw [hquery] at hcall
    exact ⟨_, _, hcall, rfl⟩

/-- SkiQF with a break-even count that a byte and a slot can hold, behind a load whose keys are in
the database, in a run that meets `Pays`: every `k`-th charge to an item adapts it, the others count
it, and the count that is reported is that of the charges since. A key that has paid for an
adaptation is not charged to the item again, and no loaded key is answered negatively. -/
theorem ski_rental_law (h : Loadable rm resize result keys qf0 m0)
    (hload : bulkLoad rm resize keys.length result keys qf0 m0 = some (0, qf, m)) (hk : 0 < k)
    (hk8 : k < 2^8) (hkw : k < 2^qf0.bits) (hconfig : config.breakEvenCount = k)
    (hstored : ∀ key ∈ keys, lookupKey key = true) {requests : List Request}
    (hq : ∀ q ∈ requests, q.key < 2^64) (r0 : QFilterQueryResult)
    (hp : Runs.Along (fun q p => q.Pays rm config lookupKey p.1)
      (Request.charged rm config lookupKey)
      requests (⟨⟨qf, m, .start⟩, r0, []⟩, [])) :
    ∃ s ledger, Runs.run (Request.charged rm config lookupKey) requests
        (⟨⟨qf, m, .start⟩, r0, []⟩, []) = some (s, ledger) ∧
      BreakEven k ledger ∧ Settled ledger ∧
      (∀ y i j r1 r, queryFilter s.filter.qf y i j r1 = some r → r.keyPresent = 1 →
        r.minirunCount = (1 + (ledger.to (minirunId qf0 y, r.minirunRank)).length % k : Nat)) ∧
      ∀ key ∈ keys, s.Finds .skiQF key ∧ (key, .negative) ∉ s.log := by
  obtain ⟨hkeeps, T0, hl, hhas, -⟩ := h.loaded hload
  have hkw' : k < 2^qf.bits := by
    rw [hkeeps.bits]
    exact hkw
  have hstep : ∀ (q : Request) (p : Service M × ItemLedger), (∃ T, Renting rm k qf T0 p T) →
      q.Pays rm config lookupKey p.1 ∧ q.key < 2^64 →
        ∃ p', q.charged rm config lookupKey p = some p' ∧ ∃ T, Renting rm k qf T0 p' T := by
    intro q p hp hok
    obtain ⟨T, hT⟩ := hp
    exact hT.step hk hk8 hkw' hconfig (fun y hy => hstored y ((hhas y).mp hy)) hok.2 hok.1
  obtain ⟨⟨s, ledger⟩, hrun, T, hT⟩ := Runs.invariant hstep
    ⟨T0, hl.renting (Nat.lt_of_le_of_lt hk hkw') k r0⟩ (Runs.along_mem hp hq)
  refine ⟨s, ledger, hrun, hT.breakEven, hT.settled, fun y i j r1 r hr hpresent => ?_,
    fun key hkey => ⟨hT.finds hk hk8 ((hhas key).mpr hkey), hT.found key ((hhas key).mpr hkey)⟩⟩
  rw [← hkeeps.minirunId]
  exact hT.reports hk hk8 hr hpresent

end

theorem splinterMap_pays : ∃ qf m, loadShared splinterMap (fun _ => none) = some (0, qf, m) ∧
    Runs.Along (fun q p => q.Pays splinterMap ⟨2, 8⟩ inShared p.1)
      (Request.charged splinterMap ⟨2, 8⟩ inShared) [askFor 64, askFor 64, askFor 64]
      (⟨⟨qf, m, .start⟩, ⟨0, 0, 0, 0, 0⟩, []⟩, []) := by
  have hall : ∃ x ∈ loadShared splinterMap (fun _ => none), x.1 = 0 ∧
      Runs.Along (fun q p => q.Pays splinterMap ⟨2, 8⟩ inShared p.1)
        (Request.charged splinterMap ⟨2, 8⟩ inShared) [askFor 64, askFor 64, askFor 64]
        (⟨⟨x.2.1, x.2.2, .start⟩, ⟨0, 0, 0, 0, 0⟩, []⟩, []) := by decide +kernel
  obtain ⟨⟨_, qf, m⟩, hload, rfl, hpays⟩ := hall
  exact ⟨qf, m, hload, hpays⟩

theorem ski_rental_law_shared : ∃ qf m,
    loadShared splinterMap (fun _ => none) = some (0, qf, m) ∧
    ∃ s ledger, Runs.run (Request.charged splinterMap ⟨2, 8⟩ inShared)
          [askFor 64, askFor 64, askFor 64]
        (⟨⟨qf, m, .start⟩, ⟨0, 0, 0, 0, 0⟩, []⟩, []) = some (s, ledger) ∧
      BreakEven 2 ledger ∧ Settled ledger ∧
      (∀ y i j r1 r, queryFilter s.filter.qf y i j r1 = some r → r.keyPresent = 1 →
        r.minirunCount =
              (1 + (ledger.to (minirunId smallFilter y, r.minirunRank)).length % 2 : Nat)) ∧
      ∀ key ∈ sharedKeys, s.Finds .skiQF key ∧ (key, .negative) ∉ s.log := by
  obtain ⟨qf, m, hload, hpays⟩ := splinterMap_pays
  exact ⟨qf, m, hload, ski_rental_law (loadable_shared splinterMap_faithful) hload (by decide)
    (by decide) (by decide) rfl (by decide) (by decide) ⟨0, 0, 0, 0, 0⟩ hpays⟩

end AdaptiveQF
