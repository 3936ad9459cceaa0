import AdaptiveQF.Lib.Bytes
import AdaptiveQF.Lib.Store
import AdaptiveQF.MinirunRank

/-! The reverse maps of src/db, over engines that keep what is put into them. -/
namespace AdaptiveQF

structure MapInsert where
  minirunId : Nat
  rank : Nat
  key : Nat
deriving DecidableEq

def keysOf (l : List MapInsert) (id : Nat) : List Nat :=
  (l.filter fun x => x.minirunId = id).map MapInsert.key

/-- Every key comes with the number of keys in front of it in its minirun, and the numbers fit into
an `int` and above an id of `n` bits. Keys are 64-bit words. -/
def LoadRanks (n : Nat) (l : List MapInsert) : Prop :=
  Runs.Each (fun before x => x.rank = (keysOf before x.minirunId).length) l ∧
    ∀ x ∈ l, x.minirunId < 2^n ∧ x.rank < 2^31 ∧ x.rank < 2^(64-n) ∧ x.key < 2^64

section
variable {M : Type}

def ReverseMap.load (rm : ReverseMap M) (m : M) (l : List MapInsert) : M :=
  l.foldl (fun m x => (rm.insertFingerprint m x.minirunId (toInt x.rank) x.key).2) m

theorem ReverseMap.load_concat (rm : ReverseMap M) (m : M) (l : List MapInsert) (x : MapInsert) :
    rm.load m (l ++ [x]) =
      (rm.insertFingerprint (rm.load m l) x.minirunId (toInt x.rank) x.key).2 := by
  simp [load, List.foldl_append]

/-- Behind a load from `m0` the ranks of a minirun lead to its keys, to each one once. -/
def ReverseMap.Faithful (rm : ReverseMap M) (n : Nat) (m0 : M) : Prop :=
  ∀ l, LoadRanks n l → ∃ order : Nat → List Nat, (∀ id, (order id).Perm (keysOf l id)) ∧
    ∀ fingerprint rank key origKey : Nat, (order (fingerprint % 2^n))[rank]? = some key →
      rm.getFingerprint (rm.commitFingerprints (rm.load m0 l)) fingerprint rank origKey = (0, key)

end

/-! WiredTigerReverseMap. -/

section
variable {D : Type}

/-- The table, and the fingerprints that wait for the commit. -/
structure WiredTiger (D : Type) where
  fingerprints : List (Nat × Nat)
  table : D

def pairLe (x y : Nat × Nat) : Bool := x.1 < y.1 || x.1 == y.1 && x.2 ≤ y.2

def wiredTigerReverseMap (engine : Store.Engine D Nat Nat) (quotientRemainderBits : Nat)
    (sortAndInsert : Bool) : ReverseMap (WiredTiger D) where
  insertFingerprint w fingerprint rank key :=
    let fingerprint := wiredTigerKey quotientRemainderBits fingerprint rank
    if sortAndInsert then (0, { w with fingerprints := w.fingerprints ++ [(fingerprint, key)] })
    else (0, { w with table := engine.insert w.table fingerprint key })
  commitFingerprints w :=
    let fingerprints := w.fingerprints.mergeSort pairLe
    ⟨fingerprints, engine.insertAll w.table fingerprints⟩
  getFingerprint w fingerprint rank value :=
    match engine.search w.table (wiredTigerKey quotientRemainderBits fingerprint rank) with
    | some key => (0, key)
    | none => (-1, value)

end

/-! SplinterDB. -/

section
variable {D : Type}

def MAX_KEY_SIZE : Nat := 16
def MAX_VAL_SIZE : Nat := 16

abbrev ByteString := List (BitVec 8)

def wordBytes (x : Nat) : ByteString :=
  (List.range 8).map fun i => Bytes.wordByte (BitVec.ofNat 64 x) i

/-- `pad_data` without the flag. -/
def padData (destLen : Nat) (src : ByteString) : ByteString :=
  src ++ List.replicate (destLen - src.length) 0

def mergeTuples (newMessage oldMessage : ByteString) : ByteString := newMessage ++ oldMessage

/-- `db_insert` of a key and a value of one word each. The engine's insertions report no failure. -/
def dbInsert (engine : Store.MergeEngine D ByteString ByteString) (d : D) (key value : Nat)
    (update : Bool) : Int × D :=
  let keyPadded := padData MAX_KEY_SIZE (wordBytes key)
  let valPadded := padData MAX_VAL_SIZE (wordBytes value)
  (0, if update then engine.update d keyPadded valPadded else engine.insert d keyPadded valPadded)

def queryFingerprint (quotientRemainderBits fingerprint : Nat) : Nat :=
  shl64 (fingerprint &&& (shl64 1 quotientRemainderBits - 1)) (64 - quotientRemainderBits)

def splinterDB (engine : Store.MergeEngine D ByteString ByteString) (quotientRemainderBits : Nat) :
    ReverseMap D where
  insertFingerprint d fingerprint rank key :=
    dbInsert engine d (queryFingerprint quotientRemainderBits fingerprint) key (decide (rank > 0))
  commitFingerprints d := d
  getFingerprint d fingerprint rank value :=
    match engine.search d
      (padData MAX_KEY_SIZE (wordBytes (queryFingerprint quotientRemainderBits fingerprint))) with
    | some data => (0, (Bytes.readWord (fun a => data.getD a 0) (rank.toNat * MAX_KEY_SIZE)).toNat)
    | none => (-1, value)

end

section
variable {n id rank key : Nat} {l : List MapInsert} {x : MapInsert}

theorem keysOf_concat (l : List MapInsert) (x : MapInsert) (id : Nat) :
    keysOf (l ++ [x]) id = keysOf l id ++ if x.minirunId = id then [x.key] else [] := by
  by_cases h : x.minirunId = id <;> simp [keysOf, h]

theorem loadRanks_concat : LoadRanks n (l ++ [x]) ↔ LoadRanks n l ∧
    x.rank = (keysOf l x.minirunId).length ∧
      x.minirunId < 2^n ∧ x.rank < 2^31 ∧ x.rank < 2^(64-n) ∧ x.key < 2^64 := by
  unfold LoadRanks
  rw [Runs.each_concat, List.forall_mem_append, List.forall_mem_singleton]
  tauto

theorem LoadRanks.rank_lt (h : LoadRanks n l) (hx : x ∈ l) :
    x.rank < (keysOf l x.minirunId).length := by
  induction l using List.reverseRecOn with
  | nil => simp at hx
  | append_singleton l y ih =>
    obtain ⟨hl, hrank, -⟩ := loadRanks_concat.mp h
    rw [keysOf_concat, List.length_append]
    cases List.mem_append.mp hx with
    | inl hmem => exact Nat.lt_add_right _ (ih hl hmem)
    | inr hmem =>
      obtain rfl := List.mem_singleton.mp hmem
      rw [if_pos rfl, hrank]
      exact Nat.lt_succ_self _

theorem LoadRanks.exists_of_get (h : LoadRanks n l) (hk : (keysOf l id)[rank]? = some key) :
    ⟨id, rank, key⟩ ∈ l := by
  induction l using List.reverseRecOn with
  | nil => simp [keysOf] at hk
  | append_singleton l y ih =>
    obtain ⟨hl, hrank, -⟩ := loadRanks_concat.mp h
    rw [keysOf_concat] at hk
    by_cases hlt : rank < (keysOf l id).length
    · rw [List.getElem?_append_left hlt] at hk
      exact List.mem_append_left _ (ih hl hk)
    · rw [List.getElem?_append_right (by omega)] at hk
      by_cases hid : y.minirunId = id
      · rw [if_pos hid, List.getElem?_singleton] at hk
        split at hk
        · cases hk
          have hr : y.rank = rank := by
            rw [hrank, hid]
            omega
          rw [← hid, ← hr]
          simp
        · cases hk
      · rw [if_neg hid] at hk
        cases hk

theorem LoadRanks.nodup (h : LoadRanks n l) : (l.map fun x => (x.minirunId, x.rank)).Nodup := by
  induction l using List.reverseRecOn with
  | nil => exact List.nodup_nil
  | append_singleton l y ih =>
    obtain ⟨hl, hrank, -⟩ := loadRanks_concat.mp h
    rw [List.map_append, List.nodup_append]
    refine ⟨ih hl, List.nodup_singleton _, fun p hp q hq heq => ?_⟩
    obtain ⟨z, hz, rfl⟩ := List.mem_map.mp hp
    rw [List.map_singleton, List.mem_singleton] at hq
    rw [hq] at heq
    obtain ⟨hid, hr⟩ := Prod.mk.inj heq
    have hlt := hl.rank_lt hz
    rw [hid] at hlt
    omega

end

/-! WiredTigerReverseMap keeps what a load inserts. -/

section
variable {D : Type} {engine : Store.Engine D Nat Nat} {n : Nat} {l : List MapInsert}

def wiredTigerPairs (n : Nat) (l : List MapInsert) : List (Nat × Nat) :=
  l.map fun x => (wiredTigerKey n x.minirunId (toInt x.rank), x.key)

theorem wiredTigerKey_mod (hn : n < 64) (fingerprint : Nat) (rank : Int) :
    wiredTigerKey n (fingerprint % 2^n) rank = wiredTigerKey n fingerprint rank := by
  have hmask : shl64 1 n - 1 = bitmask n := by rw [bitmask, if_neg (by omega)]
  unfold wiredTigerKey
  dsimp only
  rw [hmask, and_bitmask _ (by omega), and_bitmask _ (by omega), Nat.mod_mod]

theorem LoadRanks.wiredTigerKeys_nodup (h : LoadRanks n l) (hn : 0 < n) (hn2 : n < 64) :
    ((wiredTigerPairs n l).map Prod.fst).Nodup := by
  have hpair := List.pairwise_map.mp h.nodup
  rw [wiredTigerPairs, List.map_map]
  refine List.pairwise_map.mpr (hpair.imp_of_mem fun {x y} hx hy hne hkey => ?_)
  obtain ⟨hid, h31, hfit, -⟩ := h.2 x hx
  obtain ⟨hid2, h312, hfit2, -⟩ := h.2 y hy
  obtain ⟨heq, heq2⟩ := wiredTigerKey_inj hn hn2 hid hid2 h31 h312 hfit hfit2 hkey
  exact hne (Prod.ext heq heq2)

theorem wiredTiger_load (sortAndInsert : Bool) (w : WiredTiger D) (l : List MapInsert) :
    (wiredTigerReverseMap engine n sortAndInsert).load w l =
      if sortAndInsert then ⟨w.fingerprints ++ wiredTigerPairs n l, w.table⟩
      else ⟨w.fingerprints, engine.insertAll w.table (wiredTigerPairs n l)⟩ := by
  induction l using List.reverseRecOn with
  | nil => cases sortAndInsert <;> simp [ReverseMap.load, wiredTigerPairs, Store.Engine.insertAll]
  | append_singleton l x ih =>
    have hpairs : wiredTigerPairs n (l ++ [x]) =
        wiredTigerPairs n l ++ [(wiredTigerKey n x.minirunId (toInt x.rank), x.key)] := by
      simp [wiredTigerPairs]
    rw [ReverseMap.load_concat, ih, hpairs, Store.Engine.insertAll_concat]
    cases sortAndInsert <;> simp [wiredTigerReverseMap]

theorem wiredTigerReverseMap_faithful (h : engine.Faithful) (hn : 0 < n) (hn2 : n < 64)
    (sortAndInsert : Bool) (d : D) :
    (wiredTigerReverseMap engine n sortAndInsert).Faithful n ⟨[], d⟩ := by
  intro l hl
  refine ⟨keysOf l, fun id => .refl _, fun fingerprint rank key origKey hget => ?_⟩
  have hmem := hl.exists_of_get hget
  have hrank : toInt rank = rank := toInt_of_lt (hl.2 _ hmem).2.1
  have hpair : (wiredTigerKey n fingerprint rank, key) ∈ wiredTigerPairs n l := by
    refine List.mem_map.mpr ⟨_, hmem, ?_⟩
    rw [hrank, wiredTigerKey_mod hn2]
  have hnodup := hl.wiredTigerKeys_nodup hn hn2
  have hsearch : engine.search ((wiredTigerReverseMap engine n sortAndInsert).commitFingerprints
      ((wiredTigerReverseMap engine n sortAndInsert).load ⟨[], d⟩ l)).table
        (wiredTigerKey n fingerprint rank) = some key := by
    rw [wiredTiger_load]
    cases sortAndInsert with
    | true =>
      have hperm := (wiredTigerPairs n l).mergeSort_perm pairLe
      exact h.search_insertAll ((hperm.map Prod.fst).nodup_iff.mpr hnodup) (hperm.mem_iff.mpr hpair)
    | false =>
      have hnil : ([] : List (Nat × Nat)).mergeSort pairLe = [] := List.mergeSort_nil
      simp only [Bool.false_eq_true, if_false, wiredTigerReverseMap, hnil]
      change engine.search (engine.insertAll d (wiredTigerPairs n l)) _ = _
      exact h.search_insertAll hnodup hpair
  change (match engine.search _ _ with
    | some key => ((0 : Int), key)
    | none => (-1, origKey)) = (0, key)
  rw [hsearch]

end

/-! SplinterDB keeps what a load inserts, with the last key of a minirun in front. -/

section
variable {D : Type} {engine : Store.MergeEngine D ByteString ByteString} {n id : Nat}
  {l : List MapInsert}

theorem length_wordBytes (x : Nat) : (wordBytes x).length = 8 := by simp [wordBytes]

theorem length_padData {src : ByteString} {destLen : Nat} (h : src.length ≤ destLen) :
    (padData destLen src).length = destLen := by
  rw [padData, List.length_append, List.length_replicate, Nat.add_sub_cancel' h]

/-- A word that is written into a string of bytes can be read from it. -/
theorem readWord_wordBytes {x : Nat} (hx : x < 2^64) (front back : ByteString) :
    (Bytes.readWord (fun a => (front ++ (wordBytes x ++ back)).getD a 0)
      front.length).toNat = x := by
  have hread : Bytes.readWord (fun a => (front ++ (wordBytes x ++ back)).getD a 0) front.length =
      BitVec.ofNat 64 x := by
    refine Bytes.readWord_eq fun k hk => ?_
    have hlen := length_wordBytes x
    rw [List.getD_eq_getElem?_getD, List.getElem?_append_right (Nat.le_add_right _ _),
      Nat.add_sub_cancel_left, List.getElem?_append_left (by omega), wordBytes, List.getElem?_map,
      List.getElem?_range hk]
    rfl
  rw [hread, BitVec.toNat_ofNat, Nat.mod_eq_of_lt hx]

theorem wordBytes_inj {x y : Nat} (hx : x < 2^64) (hy : y < 2^64) (h : wordBytes x = wordBytes y) :
    x = y := by
  have hwx := readWord_wordBytes hx [] []
  have hwy := readWord_wordBytes hy [] []
  rw [h] at hwx
  exact hwx.symm.trans hwy

def splinterValue (keys : List Nat) : ByteString :=
  keys.flatMap fun key => padData MAX_VAL_SIZE (wordBytes key)

theorem length_splinterValue (keys : List Nat) :
    (splinterValue keys).length = keys.length * MAX_KEY_SIZE := by
  induction keys with
  | nil => simp [splinterValue]
  | cons key keys ih =>
    have hlen : (padData MAX_VAL_SIZE (wordBytes key)).length = MAX_VAL_SIZE :=
      length_padData (by rw [length_wordBytes]; decide)
    unfold splinterValue at ih ⊢
    rw [List.flatMap_cons, List.length_append, hlen, ih, List.length_cons]
    unfold MAX_VAL_SIZE MAX_KEY_SIZE
    omega

/-- The key of every rank can be read from it. -/
theorem read_splinterValue {keys : List Nat} {rank key : Nat} (h : keys[rank]? = some key)
    (hk : key < 2^64) :
    (Bytes.readWord (fun a => (splinterValue keys).getD a 0)
      (rank * MAX_KEY_SIZE)).toNat = key := by
  obtain ⟨hlt, hget⟩ := List.getElem?_eq_some_iff.mp h
  have hsplit : keys = keys.take rank ++ key :: keys.drop (rank+1) := by
    rw [← hget, List.getElem_cons_drop, List.take_append_drop]
  have hvalue : splinterValue keys = splinterValue (keys.take rank) ++
      (wordBytes key ++ (List.replicate (MAX_VAL_SIZE - (wordBytes key).length) 0 ++
        splinterValue (keys.drop (rank+1)))) := by
    conv_lhs => rw [hsplit]
    simp only [splinterValue, List.flatMap_append, List.flatMap_cons, padData, List.append_assoc]
  have hlen : (splinterValue (keys.take rank)).length = rank * MAX_KEY_SIZE := by
    rw [length_splinterValue, List.length_take, Nat.min_eq_left hlt.le]
  rw [hvalue, ← hlen]
  exact readWord_wordBytes hk _ _

end

section
variable {D : Type} {engine : Store.MergeEngine D ByteString ByteString} {n id : Nat}
  {l : List MapInsert}

theorem queryFingerprint_eq (hn : 0 < n) (hn2 : n < 64) (fingerprint : Nat) :
    queryFingerprint n fingerprint = fingerprint % 2^n * 2^(64-n) := by
  have hmask : shl64 1 n - 1 = bitmask n := by rw [bitmask, if_neg (by omega)]
  have hpow : 2^n * 2^(64-n) = 2^64 := by
    rw [← pow_add]
    congr 1
    omega
  have hlt : fingerprint % 2^n * 2^(64-n) < 2^64 := by
    rw [← hpow]
    exact Nat.mul_lt_mul_of_pos_right (Nat.mod_lt _ (Nat.two_pow_pos n)) (Nat.two_pow_pos _)
  rw [queryFingerprint, hmask, and_bitmask _ (by omega), shl64_eq (by omega) hlt]

theorem queryFingerprint_lt (n fingerprint : Nat) : queryFingerprint n fingerprint < 2^64 :=
  Nat.mod_lt _ (Nat.two_pow_pos 64)

def splinterKey (n fingerprint : Nat) : ByteString :=
  padData MAX_KEY_SIZE (wordBytes (queryFingerprint n fingerprint))

theorem splinterKey_inj (hn : 0 < n) (hn2 : n < 64) {f g : Nat} :
    splinterKey n f = splinterKey n g ↔ f % 2^n = g % 2^n := by
  constructor
  · intro h
    have hlen : (wordBytes (queryFingerprint n f)).length =
        (wordBytes (queryFingerprint n g)).length :=
      by rw [length_wordBytes, length_wordBytes]
    have hword := wordBytes_inj (queryFingerprint_lt n f) (queryFingerprint_lt n g)
      (List.append_inj_left h hlen)
    rw [queryFingerprint_eq hn hn2, queryFingerprint_eq hn hn2] at hword
    exact Nat.eq_of_mul_eq_mul_right (Nat.two_pow_pos _) hword
  · intro h
    rw [splinterKey, splinterKey, queryFingerprint_eq hn hn2, queryFingerprint_eq hn hn2, h]

/-- Behind a load the keys of a minirun stand under its key, the last one first. -/
theorem splinterDB_load (h : engine.Faithful mergeTuples) (hn : 0 < n) (hn2 : n < 64)
    (hl : LoadRanks n l) (d : D) (hid : id < 2^n) (hne : keysOf l id ≠ []) :
    engine.search ((splinterDB engine n).load d l) (splinterKey n id) =
      some (splinterValue (keysOf l id).reverse) := by
  induction l using List.reverseRecOn with
  | nil => exact absurd rfl hne
  | append_singleton l x ih =>
    obtain ⟨hl, hrank, hx, h31, -, -⟩ := loadRanks_concat.mp hl
    have hint : toInt x.rank = x.rank := toInt_of_lt h31
    have hkey : splinterKey n id = splinterKey n x.minirunId ↔ x.minirunId = id := by
      rw [splinterKey_inj hn hn2, Nat.mod_eq_of_lt hid, Nat.mod_eq_of_lt hx]
      exact eq_comm
    have hstep : (splinterDB engine n).load d (l ++ [x]) =
        if 0 < x.rank then engine.update ((splinterDB engine n).load d l)
          (splinterKey n x.minirunId)
          (padData MAX_VAL_SIZE (wordBytes x.key))
        else engine.insert ((splinterDB engine n).load d l) (splinterKey n x.minirunId)
          (padData MAX_VAL_SIZE (wordBytes x.key)) := by
      rw [ReverseMap.load_concat, hint]
      simp [splinterDB, dbInsert, splinterKey]
    rw [keysOf_concat] at hne ⊢
    by_cases hsame : x.minirunId = id
    · subst hsame
      rw [if_pos rfl, List.reverse_append, List.reverse_singleton, List.singleton_append]
      have hvalue : splinterValue (x.key :: (keysOf l x.minirunId).reverse) =
          padData MAX_VAL_SIZE (wordBytes x.key) ++
          splinterValue (keysOf l x.minirunId).reverse := rfl
      rw [hstep, hvalue]
      by_cases hpos : 0 < x.rank
      · have hold := ih hl (List.ne_nil_of_length_pos (by omega))
        rw [if_pos hpos, h.search_update, if_pos rfl, hold]
        rfl
      · have hnil : keysOf l x.minirunId = [] := List.eq_nil_of_length_eq_zero (by omega)
        rw [if_neg hpos, h.search_insert, if_pos rfl, hnil]
        simp [splinterValue]
    · rw [if_neg hsame, List.append_nil] at hne ⊢
      rw [hstep]
      split
      · rw [h.search_update, if_neg (fun hc => hsame (hkey.mp hc)), ih hl hne]
      · rw [h.search_insert, if_neg (fun hc => hsame (hkey.mp hc)), ih hl hne]

theorem splinterDB_faithful (h : engine.Faithful mergeTuples) (hn : 0 < n) (hn2 : n < 64) (d : D) :
    (splinterDB engine n).Faithful n d := by
  intro l hl
  refine ⟨fun id => (keysOf l id).reverse, fun id => List.reverse_perm _,
    fun fingerprint rank key origKey hget => ?_⟩
  have hid : fingerprint % 2^n < 2^n := Nat.mod_lt _ (Nat.two_pow_pos n)
  have hkey : splinterKey n fingerprint = splinterKey n (fingerprint % 2^n) :=
    (splinterKey_inj hn hn2).mpr (Nat.mod_mod _ _).symm
  have hmem : key ∈ keysOf l (fingerprint % 2^n) :=
    List.mem_reverse.mp (List.mem_of_getElem? hget)
  obtain ⟨x, hx, rfl⟩ := List.mem_map.mp hmem
  have hword := (hl.2 x (List.mem_of_mem_filter hx)).2.2.2
  have hsearch := splinterDB_load h hn hn2 hl d hid (List.ne_nil_of_mem hmem)
  have hget' : (splinterDB engine n).getFingerprint ((splinterDB engine n).commitFingerprints
      ((splinterDB engine n).load d l)) fingerprint rank origKey =
        match engine.search ((splinterDB engine n).load d l) (splinterKey n fingerprint) with
        | some data => (0, (Bytes.readWord (fun a => data.getD a 0) (rank * MAX_KEY_SIZE)).toNat)
        | none => (-1, origKey) := rfl
  rw [hget', hkey, hsearch]
  simp only [read_splinterValue hget hword]

end

/-- Behind a load every rank of a minirun leads to a key of it, and every key has its rank: in
WiredTiger with and without sorting, and in SplinterDB. -/
theorem reverse_maps_faithful {D E : Type} {engine : Store.Engine D Nat Nat}
    {merging : Store.MergeEngine E ByteString ByteString} {n : Nat} (h : engine.Faithful)
    (hm : merging.Faithful mergeTuples) (hn : 0 < n) (hn2 : n < 64) (d : D) (e : E) :
    (∀ sortAndInsert, (wiredTigerReverseMap engine n sortAndInsert).Faithful n ⟨[], d⟩) ∧
      (splinterDB merging n).Faithful n e :=
  ⟨fun sortAndInsert => wiredTigerReverseMap_faithful h hn hn2 sortAndInsert d,
    splinterDB_faithful hm hn hn2 e⟩

theorem reverse_maps_faithful_small :
    (∀ sortAndInsert, (wiredTigerReverseMap (Store.mapEngine Nat Nat) 8 sortAndInsert).Faithful 8
      ⟨[], fun _ => none⟩) ∧
    (splinterDB (Store.mapMergeEngine ByteString mergeTuples) 8).Faithful 8 fun _ => none :=
  reverse_maps_faithful Store.mapEngine_faithful (Store.mapMergeEngine_faithful mergeTuples)
    (by decide) (by decide) _ _

end AdaptiveQF
