import AdaptiveQF.Protocol

/-! A caller of qf_insert_ret and what it has stored: sessions of insertions, of positive queries
that are adapted to, and of removals. -/
namespace AdaptiveQF
open RunLayout

/-- A fingerprint that a call reports for the item of a key, and its length. -/
structure Report where
  key : Nat
  hash : Nat
  hashLen : Int
deriving DecidableEq

/-- The filter, the keys in it, which item is whose, and what the last call reported. -/
structure Session where
  qf : QF
  table : Table
  keys : List Nat
  reports : List Report

def QF.session (qf : QF) : Session := ⟨qf, Table.empty, [], []⟩

inductive Action
  | insert (key count : Nat) (out : InsertOut) (retOtherHash flags : Nat)
  /-- A query for a key that is not stored, and an adaptation if it is positive. -/
  | challenge (key flags : Nat)
  | remove (key : Nat) (out : RemoveOut) (flags : Nat)

def entryAt (m : QFMetadata) (index : Nat) :
    Nat → List Entry → Option (List Entry × Entry × List Entry)
  | _, [] => none
  | p, e :: l => if p = index then some ([], e, l) else
      (entryAt m index (p + (e.item m).len) l).map fun r => (e :: r.1, r.2)

def Table.ownerAt (T : Table) (m : QFMetadata) (b index : Nat) :
    Option (List Entry × Entry × List Entry) :=
  entryAt m index (T.pos m b []) (T b)

def QFMetadata.slotsOf (m : QFMetadata) (len : Int) : Nat :=
  (len.toNat - (m.quotientBits + m.bitsPerSlot)) / m.bitsPerSlot

namespace Session

def insert (resize : QF → Nat → Option (Int × QF)) (s : Session) (key count : Nat) (out : InsertOut)
    (retOtherHash flags : Nat) : Option Session := do
  let m := s.qf.metadata
  let hash := keyToHash s.qf key flags
  let cnt := counterOf m.bitsPerSlot count
  let ((ret, out), qf) ← qfInsertRet resize s.qf key count out flags
  if ret = 1 then
    some ⟨qf, s.table.add m ⟨key, hash, 0, cnt⟩, key :: s.keys, [⟨key, out.hash, out.hashLen⟩]⟩
  else if ret = 0 then do
    let (t1, e, t2) ← s.table.ownerAt m (m.bucket hash) out.index
    let (r, qf) ← insertAndExtend qf out.index key count e.key out.hash retOtherHash flags
    let n := m.slotsOf r.ret
    some ⟨qf, Function.update s.table (m.bucket hash) (t1 ++ ⟨key, hash, n, cnt⟩ :: e.grow n :: t2),
      key :: s.keys, [⟨key, r.hash, r.ret⟩, ⟨e.key, r.otherHash, r.ret⟩]⟩
  else some { s with qf := qf, reports := [] }

def challenge (s : Session) (key flags : Nat) : Option Session := do
  let m := s.qf.metadata
  let b := m.bucket (keyToHash s.qf key flags)
  let (_, hit) ← qfQuery s.qf key flags
  match hit with
  | none => some { s with reports := [] }
  | some hit => do
    let (t1, e, t2) ← s.table.ownerAt m b hit.index
    let (ret, retHash, qf) ← qfAdapt s.qf hit.index e.key key hit.hash flags
    some ⟨qf, Function.update s.table b (t1 ++ e.grow (m.slotsOf ret) :: t2), s.keys,
      [⟨e.key, retHash, ret⟩]⟩

def remove (s : Session) (key : Nat) (out : RemoveOut) (flags : Nat) : Option Session := do
  let b := s.qf.metadata.bucket (keyToHash s.qf key flags)
  let (_, qf) ← qfRemove s.qf key out flags
  some ⟨qf, Function.update s.table b ((s.table b).filter fun e => e.key ≠ key),
    s.keys.filter fun k => k ≠ key, []⟩

end Session

def Action.step (resize : QF → Nat → Option (Int × QF)) : Action → Session → Option Session
  | .insert key count out retOtherHash flags, s => s.insert resize key count out retOtherHash flags
  | .challenge key flags, s => s.challenge key flags
  | .remove key out flags, s => s.remove key out flags

def Action.key : Action → Nat
  | .insert key _ _ _ _ => key
  | .challenge key _ => key
  | .remove key _ _ => key

def Action.flags : Action → Nat
  | .insert _ _ _ _ flags => flags
  | .challenge _ flags => flags
  | .remove _ _ flags => flags

def QFMetadata.hashOf (m : QFMetadata) (isHash : Bool) (key : Nat) : Nat :=
  if isHash then key else m.keyHash key

structure QFMetadata.OneToOne (m : QFMetadata) : Prop where
  word : ∀ k < 2^64, m.keyHash k < 2^64
  injective : ∀ j < 2^64, ∀ k < 2^64, m.keyHash j = m.keyHash k → j = k

def Table.Stores (T : Table) (key : Nat) : Prop := ∃ b, key ∈ (T b).map Entry.key

def Table.OwnFirst (T : Table) (m : QFMetadata) : Prop :=
  ∀ b, (T b).Pairwise fun x y => ¬ x.Matches m y.hash

section
variable {m : QFMetadata} {T : Table} {b key hash n : Nat} {e : Entry} {t1 t2 : List Entry}

theorem keyToHash_eq (qf : QF) (key flags : Nat) :
    keyToHash qf key flags = qf.metadata.hashOf (hasFlag flags QF_KEY_IS_HASH) key := rfl

theorem QFMetadata.OneToOne.hashOf_lt (h : m.OneToOne) (isHash : Bool) (hk : key < 2^64) :
    m.hashOf isHash key < 2^64 := by
  cases isHash with
  | false => exact h.word key hk
  | true => exact hk

theorem QFMetadata.OneToOne.hashOf_inj (h : m.OneToOne) {isHash : Bool} {j : Nat} (hj : j < 2^64)
    (hk : key < 2^64) (he : m.hashOf isHash j = m.hashOf isHash key) : j = key := by
  cases isHash with
  | false => exact h.injective j hj key hk he
  | true => exact he

theorem QF.Keeps.hashOf {qf qf' : QF} (hk : qf.Keeps qf') :
    qf'.metadata.hashOf = qf.metadata.hashOf := by
  funext isHash key
  rw [QFMetadata.hashOf, hk.keyHash]
  rfl

theorem QF.Keeps.oneToOne {qf qf' : QF} (hk : qf.Keeps qf') (h : qf.metadata.OneToOne) :
    qf'.metadata.OneToOne := by
  refine ⟨?_, ?_⟩
  · rw [hk.keyHash]
    exact h.word
  · rw [hk.keyHash]
    exact h.injective

theorem entryAt_eq {p : Nat} (t1 : List Entry) (e : Entry) (t2 : List Entry) :
    entryAt m (p + itemsLen (t1.map (Entry.item m))) p (t1 ++ e :: t2) = some (t1, e, t2) := by
  induction t1 generalizing p with
  | nil => simp [entryAt]
  | cons x t1 ih =>
    have hlen := (x.item m).len_pos
    have hne : p ≠ p + itemsLen ((x :: t1).map (Entry.item m)) := by
      rw [List.map_cons, itemsLen_cons]
      omega
    have hnext : p + itemsLen ((x :: t1).map (Entry.item m)) =
        p + (x.item m).len + itemsLen (t1.map (Entry.item m)) := by
      rw [List.map_cons, itemsLen_cons, Nat.add_assoc]
    rw [List.cons_append, entryAt, if_neg hne, hnext, ih]
    rfl

theorem Table.ownerAt_eq (hT : T b = t1 ++ e :: t2) :
    T.ownerAt m b (T.pos m b t1) = some (t1, e, t2) := by
  have hpos : T.pos m b t1 = T.pos m b [] + itemsLen (t1.map (Entry.item m)) := by
    simp [pos, Contents.pos]
  rw [ownerAt, hT, hpos, entryAt_eq]

theorem QFMetadata.slotsOf_len (h : 0 < m.bitsPerSlot) (n : Nat) :
    m.slotsOf (m.fingerprintLen n : Int) = n := by
  rw [slotsOf, Int.toNat_natCast, fingerprintLen]
  have hsub : m.bitsPerSlot * n + m.quotientBits + m.bitsPerSlot -
      (m.quotientBits + m.bitsPerSlot) = m.bitsPerSlot * n := by omega
  rw [hsub, Nat.mul_div_cancel_left n h]

theorem Table.stores_iff (b : Nat) : T.Stores key ↔ key ∈ (T b).map Entry.key ∨
    ∃ c, c ≠ b ∧ key ∈ (T c).map Entry.key := by
  constructor
  · rintro ⟨c, hc⟩
    by_cases hcb : c = b
    · subst hcb
      exact .inl hc
    · exact .inr ⟨c, hcb, hc⟩
  · rintro (hb | ⟨c, -, hc⟩)
    · exact ⟨b, hb⟩
    · exact ⟨c, hc⟩

theorem Table.stores_update {l : List Entry} : Stores (Function.update T b l) key ↔
    key ∈ l.map Entry.key ∨ ∃ c, c ≠ b ∧ key ∈ (T c).map Entry.key := by
  rw [stores_iff b, Function.update_self]
  have hother : (∃ c, c ≠ b ∧ key ∈ (Function.update T b l c).map Entry.key) ↔
      ∃ c, c ≠ b ∧ key ∈ (T c).map Entry.key :=
    exists_congr fun c => and_congr_right fun hc => by rw [Function.update_of_ne hc]
  rw [hother]

/-! The order of the items. -/

theorem Table.OwnFirst.update (h : T.OwnFirst m) {l : List Entry}
    (hl : l.Pairwise fun x y => ¬ x.Matches m y.hash) :
    OwnFirst (Function.update T b l) m := by
  intro c
  by_cases hc : c = b
  · subst hc
    rw [Function.update_self]
    exact hl
  · rw [Function.update_of_ne hc]
    exact h c

theorem Table.OwnFirst.firstEntry (h : T.OwnFirst m) (hT : T b = t1 ++ e :: t2) :
    FirstEntry m e.hash (T b) t1 e t2 := by
  refine ⟨hT, e.matches_self m, fun x hx => ?_⟩
  have hpair := h b
  rw [hT] at hpair
  exact (List.pairwise_append.mp hpair).2.2 x hx e (by simp)

/-- An entry behind its minirun, if none matches its hash. -/
theorem Table.OwnFirst.pairwise_add (h : T.OwnFirst m) (hT : T b = t1 ++ t2)
    (hm : ∀ x ∈ t1, ¬ x.Matches m e.hash)
    (hb : ∀ x ∈ t2, m.remainder e.hash < m.remainder x.hash) :
    (t1 ++ e :: t2).Pairwise fun x y => ¬ x.Matches m y.hash := by
  have hpair := h b
  rw [hT, List.pairwise_append] at hpair
  obtain ⟨h1, h2, h12⟩ := hpair
  rw [List.pairwise_append, List.pairwise_cons]
  refine ⟨h1, ⟨fun y hy hc => ?_, h2⟩, fun x hx y hy => ?_⟩
  · have hlt := hb y hy
    have hr := (Entry.matches_iff.mp hc).1
    omega
  · cases List.mem_cons.mp hy with
    | inl he =>
      rw [he]
      exact hm x hx
    | inr hy => exact h12 x hx y hy

/-- A longer entry in its place. -/
theorem Table.OwnFirst.pairwise_grow (h : T.OwnFirst m) (hT : T b = t1 ++ e :: t2)
    (hn : e.slots ≤ n) : (t1 ++ e.grow n :: t2).Pairwise fun x y => ¬ x.Matches m y.hash := by
  have hpair := h b
  rw [hT, List.pairwise_append, List.pairwise_cons] at hpair
  obtain ⟨h1, ⟨he, h2⟩, h12⟩ := hpair
  rw [List.pairwise_append, List.pairwise_cons]
  refine ⟨h1, ⟨fun y hy hc => he y hy (hc.of_grow hn), h2⟩, fun x hx y hy => ?_⟩
  cases List.mem_cons.mp hy with
  | inl hye =>
    rw [hye, Entry.grow_hash]
    exact h12 x hx e (by simp)
  | inr hy => exact h12 x hx y (by simp [hy])

/-- An entry in front of the first one that matches its hash, both extended until neither matches
the other's hash. -/
theorem Table.OwnFirst.pairwise_pair (h : T.OwnFirst m) (hf : FirstEntry m hash (T b) t1 e t2)
    (hn : e.slots < n) (hg : ¬ (e.grow n).Matches m hash) (cnt : List Nat) :
    (t1 ++ ⟨key, hash, n, cnt⟩ :: e.grow n :: t2).Pairwise fun x y => ¬ x.Matches m y.hash := by
  have hpair := h.pairwise_grow hf.split hn.le
  rw [List.pairwise_append] at hpair ⊢
  obtain ⟨h1, h2, h12⟩ := hpair
  have hown := h b
  rw [hf.split, List.pairwise_append, List.pairwise_cons] at hown
  rw [List.pairwise_cons]
  refine ⟨h1, ⟨fun y hy hc => ?_, h2⟩, fun x hx y hy => ?_⟩
  · cases List.mem_cons.mp hy with
    | inl hye =>
      rw [hye, Entry.grow_hash] at hc
      refine hg ((Entry.matches_comm (x := e.grow n) (y := ⟨key, hash, n, cnt⟩) (by simp)).mpr ?_)
      rw [Entry.grow_hash]
      exact hc
    | inr hy =>
      -- what matches the new entry's longer fingerprint matches the old one's
      have hold : e.Matches m y.hash := by
        have hnew := Entry.matches_iff.mp hc
        have hhit := Entry.matches_iff.mp hf.hit
        refine Entry.matches_iff.mpr ⟨hhit.1.trans hnew.1, hhit.2.trans ?_⟩
        have htake := congrArg (List.take e.slots) hnew.2
        rwa [m.extension_take _ hn.le, m.extension_take _ hn.le] at htake
      exact hown.2.1.1 y hy hold
  · cases List.mem_cons.mp hy with
    | inl hye =>
      rw [hye]
      exact hf.first x hx
    | inr hy => exact h12 x hx y hy

theorem Table.behind_lt {qf : QF} (h : Represents qf T) (hash : Nat) :
    ∀ x ∈ T.behind qf.metadata hash, qf.metadata.remainder hash < qf.metadata.remainder x.hash := by
  have hsort := h.layout.sorted (qf.metadata.bucket hash)
  rw [Table.contents, List.pairwise_map] at hsort
  replace hsort : (T (qf.metadata.bucket hash)).Pairwise
      fun x y => qf.metadata.remainder x.hash ≤ qf.metadata.remainder y.hash := hsort
  unfold Table.behind
  generalize T (qf.metadata.bucket hash) = l at hsort
  induction l with
  | nil => simp
  | cons x l ih =>
    rw [List.pairwise_cons] at hsort
    by_cases hx : qf.metadata.remainder x.hash ≤ qf.metadata.remainder hash
    · rw [List.dropWhile_cons_of_pos (by simpa using hx)]
      exact ih hsort.2
    · rw [List.dropWhile_cons_of_neg (by simpa using hx)]
      intro y hy
      cases List.mem_cons.mp hy with
      | inl he => rw [he]; omega
      | inr hy =>
        have hle := hsort.1 y hy
        omega

end

/-! What the calls of a session need. -/

def Session.InsertFits (s : Session) (hash count : Nat) : Prop :=
  ((∀ x ∈ s.table (s.qf.metadata.bucket hash), ¬ x.Matches s.qf.metadata hash) →
    InsertRoom s.qf s.table hash count) ∧
  ∀ t1 e t2, FirstEntry s.qf.metadata hash (s.table (s.qf.metadata.bucket hash)) t1 e t2 →
    full s.qf = false ∧ ExtendRoom s.qf s.table (s.qf.metadata.bucket hash) t1 e hash count

def Session.AdaptFits (s : Session) (hash : Nat) : Prop :=
  ∀ t1 e t2, FirstEntry s.qf.metadata hash (s.table (s.qf.metadata.bucket hash)) t1 e t2 →
    ∀ ret retHash qf', adapt s.qf (s.table.pos s.qf.metadata (s.qf.metadata.bucket hash) t1)
      (s.qf.metadata.bucket hash) e.hash hash = some (ret, retHash, qf') → ret ≠ noSpace

instance (s : Session) (hash count : Nat) : Decidable (s.InsertFits hash count) :=
  inferInstanceAs (Decidable ((_ → _) ∧ ∀ _ _ _, _ → _))

instance (s : Session) (hash : Nat) : Decidable (s.AdaptFits hash) :=
  decidable_of_iff (∀ t1 e t2,
      FirstEntry s.qf.metadata hash (s.table (s.qf.metadata.bucket hash)) t1 e t2 →
        ∀ r ∈ adapt s.qf (s.table.pos s.qf.metadata (s.qf.metadata.bucket hash) t1)
          (s.qf.metadata.bucket hash) e.hash hash, r.1 ≠ noSpace)
    ⟨fun h t1 e t2 hf _ _ _ hr => h t1 e t2 hf _ hr,
      fun h t1 e t2 hf r hr => h t1 e t2 hf r.1 r.2.1 r.2.2 hr⟩

def Action.Legal (isHash : Bool) (a : Action) (s : Session) : Prop :=
  a.key < 2^64 ∧ hasFlag a.flags QF_KEY_IS_HASH = isHash ∧
    match a with
    | .insert key count _ _ flags => key ∉ s.keys ∧ (0 < count ∧ count < 2^64) ∧
      s.InsertFits (keyToHash s.qf key flags) count
    | .challenge key flags => key ∉ s.keys ∧ s.AdaptFits (keyToHash s.qf key flags)
    | .remove key _ _ => key ∈ s.keys

instance (isHash : Bool) (s : Session) : ∀ a : Action, Decidable (a.Legal isHash s)
  | .insert .. => inferInstanceAs (Decidable (_ ∧ _ ∧ _ ∧ _ ∧ _))
  | .challenge .. => inferInstanceAs (Decidable (_ ∧ _ ∧ _ ∧ _))
  | .remove .. => inferInstanceAs (Decidable (_ ∧ _ ∧ _ ∈ _))

/-- What an insertion relies on besides: the decoded items end in front of slot 2^31, the minirun is
looked through, the old item has one counter slot at most, and the new counter is written where the
new item is. -/
structure Session.InsertSound (s : Session) (hash count flags : Nat) : Prop where
  near : Near s.qf.metadata (s.table.contents s.qf.metadata) hash
  scans : hasFlag flags QF_TRY_ONCE_LOCK = false ∨
    ∀ x ∈ s.table (s.qf.metadata.bucket hash), s.qf.metadata.remainder x.hash ≠
      s.qf.metadata.remainder hash
  counter : ∀ t1 e t2,
    FirstEntry s.qf.metadata hash (s.table (s.qf.metadata.bucket hash)) t1 e t2 → e.cnt.length ≤ 1
  hit : ∀ t1 e t2, FirstEntry s.qf.metadata hash (s.table (s.qf.metadata.bucket hash)) t1 e t2 →
    1 < count → s.qf.metadata.bucket (keyToHash s.qf hash flags) = s.qf.metadata.bucket hash ∧
      s.table.pos s.qf.metadata (s.qf.metadata.bucket hash) t1 + 1 +
        s.qf.metadata.grown e.hash hash 64 e.slots < 2^31
  miss : (∀ x ∈ s.table (s.qf.metadata.bucket hash), ¬ x.Matches s.qf.metadata hash) →
    1 < count → (s.table (s.qf.metadata.bucket hash) = [] →
      ¬ Used (s.table.contents s.qf.metadata).lens (s.qf.metadata.bucket hash)) ∧
      s.table.pos s.qf.metadata (s.qf.metadata.bucket hash)
        (s.table.before s.qf.metadata hash) + 1 < 2^31

structure Session.ChallengeSound (s : Session) (hash : Nat) : Prop where
  near : Near s.qf.metadata (s.table.contents s.qf.metadata) hash
  counter : ∀ t1 e t2,
    FirstEntry s.qf.metadata hash (s.table (s.qf.metadata.bucket hash)) t1 e t2 → e.cnt.length ≤ 1

structure Session.RemoveSound (s : Session) (hash : Nat) : Prop where
  near : Near s.qf.metadata (s.table.contents s.qf.metadata) hash
  passes : Passes s.qf.metadata (s.table.contents s.qf.metadata) hash
  reach : ∀ t1 e t2,
    FirstEntry s.qf.metadata hash (s.table (s.qf.metadata.bucket hash)) t1 e t2 →
      OffsetsReach s.qf (s.qf.metadata.bucket hash) (s.table.contents s.qf.metadata).lens
        (Table.contents (Function.update s.table (s.qf.metadata.bucket hash) (t1 ++ t2))
          s.qf.metadata).lens

def Action.Sound (a : Action) (s : Session) : Prop :=
  match a with
  | .insert key count _ _ flags => s.InsertSound (keyToHash s.qf key flags) count flags
  | .challenge key flags => s.ChallengeSound (keyToHash s.qf key flags)
  | .remove key _ flags => s.RemoveSound (keyToHash s.qf key flags)

instance (s : Session) (hash count flags : Nat) : Decidable (s.InsertSound hash count flags) :=
  decidable_of_iff (_ ∧ _ ∧ _ ∧ _ ∧ _)
    ⟨fun h => ⟨h.1, h.2.1, h.2.2.1, h.2.2.2.1, h.2.2.2.2⟩, fun h => ⟨h.1, h.2, h.3, h.4, h.5⟩⟩

instance (s : Session) (hash : Nat) : Decidable (s.ChallengeSound hash) :=
  decidable_of_iff (_ ∧ _) ⟨fun h => ⟨h.1, h.2⟩, fun h => ⟨h.1, h.2⟩⟩

instance (s : Session) (hash : Nat) : Decidable (s.RemoveSound hash) :=
  decidable_of_iff (_ ∧ _ ∧ _) ⟨fun h => ⟨h.1, h.2.1, h.2.2⟩, fun h => ⟨h.1, h.2, h.3⟩⟩

instance (s : Session) : ∀ a : Action, Decidable (a.Sound s)
  | .insert .. => inferInstanceAs (Decidable (Session.InsertSound _ _ _ _))
  | .challenge .. => inferInstanceAs (Decidable (Session.ChallengeSound _ _))
  | .remove .. => inferInstanceAs (Decidable (Session.RemoveSound _ _))

/-- The filter stores what the session says, under the hashes of its keys, and every key's own item
is the first one that matches its hash. -/
structure Session.Owned (isHash : Bool) (s : Session) : Prop where
  represents : Represents s.qf s.table
  oneToOne : s.qf.metadata.OneToOne
  first : s.table.OwnFirst s.qf.metadata
  stores : ∀ key, key ∈ s.keys ↔ s.table.Stores key
  hashed : ∀ b, ∀ e ∈ s.table b, e.key < 2^64 ∧ e.hash = s.qf.metadata.hashOf isHash e.key

def Session.Reported (s : Session) (r : Report) : Prop :=
  ∃ b t1 e t2, s.table b = t1 ++ e :: t2 ∧ e.key = r.key ∧
    r.hash = s.qf.metadata.fingerprint e.hash e.slots ∧
    r.hashLen = (s.qf.metadata.fingerprintLen e.slots : Int)

/-- The session behind an action. The length that is reported for a new item is right for a count of
1 and for an empty bucket. -/
inductive Session.Moved (s : Session) : Action → Session → Prop
  | added {key count retOtherHash flags : Nat} {out : InsertOut} {s' : Session}
      (miss : ∀ x ∈ s.table (s.qf.metadata.bucket (keyToHash s.qf key flags)),
        ¬ x.Matches s.qf.metadata (keyToHash s.qf key flags))
      (keys : s'.keys = key :: s.keys)
      (table : s'.table = s.table.add s.qf.metadata
        ⟨key, keyToHash s.qf key flags, 0, counterOf s.qf.bits count⟩)
      (reported : count = 1 ∨ s.table (s.qf.metadata.bucket (keyToHash s.qf key flags)) = [] →
        ∀ r ∈ s'.reports, s'.Reported r) : s.Moved (.insert key count out retOtherHash flags) s'
  | paired {key count retOtherHash flags n : Nat} {out : InsertOut} {s' : Session} {e : Entry}
      {t1 t2 : List Entry}
      (hit : FirstEntry s.qf.metadata (keyToHash s.qf key flags)
        (s.table (s.qf.metadata.bucket (keyToHash s.qf key flags))) t1 e t2)
      (keys : s'.keys = key :: s.keys)
      (table : s'.table = Function.update s.table
        (s.qf.metadata.bucket (keyToHash s.qf key flags))
        (t1 ++ ⟨key, keyToHash s.qf key flags, n, counterOf s.qf.bits count⟩ :: e.grow n :: t2))
      (longer : e.slots < n) (reported : ∀ r ∈ s'.reports, s'.Reported r) :
      s.Moved (.insert key count out retOtherHash flags) s'
  | missed {key flags : Nat} : s.Moved (.challenge key flags) { s with reports := [] }
  | grown {key flags n : Nat} {s' : Session} {e : Entry} {t1 t2 : List Entry}
      (hit : FirstEntry s.qf.metadata (keyToHash s.qf key flags)
        (s.table (s.qf.metadata.bucket (keyToHash s.qf key flags))) t1 e t2)
      (keys : s'.keys = s.keys)
      (table : s'.table = Function.update s.table
        (s.qf.metadata.bucket (keyToHash s.qf key flags)) (t1 ++ e.grow n :: t2))
      (longer : e.slots < n) (reported : ∀ r ∈ s'.reports, s'.Reported r) :
      s.Moved (.challenge key flags) s'
  | removed {key flags : Nat} {out : RemoveOut} {s' : Session} {e : Entry} {t1 t2 : List Entry}
      (own : s.table (s.qf.metadata.bucket (keyToHash s.qf key flags)) = t1 ++ e :: t2)
      (owner : e.key = key) (keys : s'.keys = s.keys.filter (fun k => k ≠ key))
      (table : s'.table = Function.update s.table
        (s.qf.metadata.bucket (keyToHash s.qf key flags)) (t1 ++ t2))
      (reports : s'.reports = []) : s.Moved (.remove key out flags) s'

section
variable {isHash : Bool} {s : Session} {b key hash n : Nat} {e : Entry} {t1 t2 : List Entry}

theorem QF.Zeroed.owned {qf : QF} (h : qf.Zeroed) (h1 : qf.metadata.OneToOne) (isHash : Bool) :
    qf.session.Owned isHash where
  represents := h.represents
  oneToOne := h1
  first b := List.Pairwise.nil
  stores key := by
    simp [QF.session, Table.Stores, Table.empty]
  hashed b e he := by
    simp [QF.session, Table.empty] at he

theorem Table.empty_lens (m : QFMetadata) : (Table.empty.contents m).lens = fun _ => 0 := rfl

theorem QF.Zeroed.insertFits {qf : QF} (h : qf.Zeroed) {count : Nat} (hload : full qf = false)
    (hroom : (counterOf qf.bits count).length + qf.metadata.bucket hash < qf.xnslots) :
    qf.session.InsertFits hash count := by
  refine ⟨fun _ => ⟨hload, ?_⟩, fun t1 e t2 hf => ?_⟩
  · have hpos : Table.empty.pos qf.metadata (qf.metadata.bucket hash) [] =
        qf.metadata.bucket hash := by
      rw [Table.pos, Contents.pos, Table.empty_lens, start, ends_zero]
      simp
    have hfree := h.represents.layout.le_free (x := qf.metadata.bucket hash) (by omega)
    rw [Table.empty_lens, Finset.sum_const_zero] at hfree
    have hgoal : (counterOf qf.bits count).length < (Table.empty.contents qf.metadata).free qf
        (Table.empty.pos qf.metadata (qf.metadata.bucket hash) []) := by
      rw [hpos]
      omega
    exact hgoal
  · have hnil := hf.split
    simp [QF.session, Table.empty] at hnil

theorem QF.session_insertSound (qf : QF) {count : Nat} (flags : Nat)
    (hlow : 1 < count → qf.metadata.bucket hash + 1 < 2^31) :
    qf.session.InsertSound hash count flags := by
  have hno : ∀ {t1 e t2}, ¬ FirstEntry qf.session.qf.metadata hash
      (qf.session.table (qf.session.qf.metadata.bucket hash)) t1 e t2 := fun hf => by
    have hnil := hf.split
    simp [QF.session, Table.empty] at hnil
  have hpos : qf.session.table.pos qf.session.qf.metadata (qf.session.qf.metadata.bucket hash) [] =
      qf.metadata.bucket hash := by
    rw [Table.pos, Contents.pos, QF.session, Table.empty_lens, start, ends_zero]
    simp
  refine ⟨fun l1 it l2 hs => ?_, .inr fun x hx => ?_, fun _ _ _ hf => absurd hf hno,
    fun _ _ _ hf => absurd hf hno, fun _ hgt => ⟨fun _ hu => ?_, ?_⟩⟩
  · simp [QF.session, Table.contents, Table.empty] at hs
  · simp [QF.session, Table.empty] at hx
  · obtain ⟨b, hb⟩ := hu
    simp [QF.session, Table.empty_lens, Owns] at hb
    omega
  · have hgoal := hlow hgt
    rw [← hpos] at hgoal
    exact hgoal

namespace Session.Owned

theorem or_into_middle {p a c d : Prop} : p ∨ (a ∨ c) ∨ d ↔ (a ∨ p ∨ c) ∨ d := by tauto

theorem replace (h : s.Owned isHash) {qf' : QF} {l : List Entry} {keys : List Nat}
    (hk : s.qf.Keeps qf') (hr : Represents qf' (Function.update s.table b l))
    (hl : l.Pairwise fun x y => ¬ x.Matches s.qf.metadata y.hash)
    (hkeys : ∀ key, key ∈ keys ↔ key ∈ l.map Entry.key ∨
      ∃ c, c ≠ b ∧ key ∈ (s.table c).map Entry.key)
    (hh : ∀ e ∈ l, e.key < 2^64 ∧ e.hash = s.qf.metadata.hashOf isHash e.key)
    (reports : List Report) :
    Session.Owned isHash ⟨qf', Function.update s.table b l, keys, reports⟩ where
  represents := hr
  oneToOne := hk.oneToOne h.oneToOne
  first c := by
    refine List.Pairwise.imp (fun hxy hc => hxy ((hk.matches_entry _ _).mp hc))
      (h.first.update hl c)
  stores key := by
    rw [hkeys, Table.stores_update]
  hashed c e he := by
    simp only at he ⊢
    rw [hk.hashOf]
    by_cases hc : c = b
    · rw [hc, Function.update_self] at he
      exact hh e he
    · rw [Function.update_of_ne hc] at he
      exact h.hashed c e he

/-- The hash of a key that is not stored is not the one of an item. -/
theorem hash_ne (h : s.Owned isHash) (hk : key < 2^64) (hno : key ∉ s.keys) (he : e ∈ s.table b) :
    e.hash ≠ s.qf.metadata.hashOf isHash key := by
  obtain ⟨hw, hh⟩ := h.hashed b e he
  rw [hh]
  intro hc
  obtain rfl := h.oneToOne.hashOf_inj hw hk hc
  exact hno ((h.stores _).mpr ⟨b, List.mem_map_of_mem he⟩)

theorem find (h : s.Owned isHash) (hk : key ∈ s.keys) : ∃ t1 e t2,
    s.table (s.qf.metadata.bucket (s.qf.metadata.hashOf isHash key)) = t1 ++ e :: t2 ∧ e.key = key ∧
      e.hash = s.qf.metadata.hashOf isHash key := by
  obtain ⟨b, hb⟩ := (h.stores key).mp hk
  obtain ⟨e, he, rfl⟩ := List.mem_map.mp hb
  obtain ⟨-, hh⟩ := h.hashed b e he
  have hbk := (h.represents.valid b e he).bucket
  rw [← hh, hbk]
  obtain ⟨t1, t2, hT⟩ := List.append_of_mem he
  exact ⟨t1, e, t2, hT, rfl, rfl⟩

theorem key_ne (h : s.Owned isHash) (hT : s.table b = t1 ++ e :: t2) :
    ∀ x ∈ t1 ++ t2, x.key ≠ e.key := by
  intro x hx hc
  have hx' : x ∈ s.table b := by
    rw [hT]
    rcases List.mem_append.mp hx with hx | hx <;> simp [hx]
  have hsame : x.hash = e.hash := by
    rw [(h.hashed b x hx').2, (h.hashed b e (by simp [hT])).2, hc]
  have hown := h.first b
  rw [hT, List.pairwise_append, List.pairwise_cons] at hown
  cases List.mem_append.mp hx with
  | inl hx =>
    refine hown.2.2 x hx e (by simp) ?_
    rw [← hsame]
    exact x.matches_self _
  | inr hx =>
    refine hown.2.1.1 x hx ?_
    rw [hsame]
    exact e.matches_self _

theorem erase_eq (h : s.Owned isHash) (hT : s.table b = t1 ++ e :: t2) :
    (s.table b).filter (fun x => x.key ≠ e.key) = t1 ++ t2 := by
  have hne := h.key_ne hT
  have hall : (t1 ++ t2).filter (fun x => x.key ≠ e.key) = t1 ++ t2 :=
    List.filter_eq_self.mpr fun x hx => decide_eq_true (hne x hx)
  rw [hT, List.filter_append, List.filter_cons_of_neg (by simp), ← List.filter_append, hall]

/-- A stored key is answered with its own item. -/
theorem query (h : s.Owned isHash) (hT : s.table b = t1 ++ e :: t2) {flags : Nat}
    (hflag : hasFlag flags QF_KEY_IS_HASH = isHash)
    (hn : Near s.qf.metadata (s.table.contents s.qf.metadata) e.hash) :
    qfQuery s.qf e.key flags = some ((e.item s.qf.metadata).count s.qf.bits, some
      ⟨s.table.pos s.qf.metadata b t1, s.qf.metadata.fingerprint e.hash e.slots,
        s.qf.metadata.fingerprintLen e.slots⟩) := by
  have he : e ∈ s.table b := by simp [hT]
  have hv := h.represents.valid b e he
  have hkey : keyToHash s.qf e.key flags = e.hash := by
    rw [keyToHash_eq, hflag, (h.hashed b e he).2]
  have hf := h.first.firstEntry hT
  rw [← hv.bucket] at hf ⊢
  exact h.represents.query_hit hkey hv.word hn hf

/-- Where it is decoded from slot 2^31 on, the call does not return. -/
theorem query_far (h : s.Owned isHash) (he : e ∈ s.table b) {flags : Nat}
    (hflag : hasFlag flags QF_KEY_IS_HASH = isHash)
    (hn : ¬ Near s.qf.metadata (s.table.contents s.qf.metadata) e.hash) :
    qfQuery s.qf e.key flags = none :=
  h.represents.wf.qfQuery_far (by rw [keyToHash_eq, hflag, (h.hashed b e he).2]) hn

theorem insert_new (h : s.Owned isHash) (resize : QF → Nat → Option (Int × QF)) {count flags : Nat}
    (hkey : key < 2^64) (hflag : hasFlag flags QF_KEY_IS_HASH = isHash)
    (hc : 0 < count) (hc2 : count < 2^64) (hk : keyToHash s.qf key flags = hash)
    (hfits : s.InsertFits hash count) (hs : s.InsertSound hash count flags)
    (hm : ∀ x ∈ s.table (s.qf.metadata.bucket hash), ¬ x.Matches s.qf.metadata hash)
    (out : InsertOut) (retOtherHash : Nat) :
    ∃ s', s.insert resize key count out retOtherHash flags = some s' ∧ s'.Owned isHash ∧
      s.qf.Keeps s'.qf ∧ s'.keys = key :: s.keys ∧
      s'.table = s.table.add s.qf.metadata ⟨key, hash, 0, counterOf s.qf.bits count⟩ ∧
      (count = 1 ∨ s.table (s.qf.metadata.bucket hash) = [] →
        ∀ r ∈ s'.reports, s'.Reported r) := by
  have hhash : hash = s.qf.metadata.hashOf isHash key := by rw [← hk, keyToHash_eq, hflag]
  have hword : hash < 2^64 := by
    rw [hhash]
    exact h.oneToOne.hashOf_lt isHash hkey
  obtain ⟨qf', len, hcall, hlen, hkeep, hrep⟩ := h.represents.insertRet_miss hk hword
    (fun _ => hs.near) hm hs.scans (hfits.1 hm) hc hc2 (hs.miss hm) resize out
  have hsplit := s.table.before_append_behind s.qf.metadata hash
  have hbefore : ∀ x ∈ s.table.before s.qf.metadata hash, ¬ x.Matches s.qf.metadata hash :=
    fun x hx => hm x (by rw [← hsplit]; simp [hx])
  refine ⟨⟨qf', s.table.add s.qf.metadata ⟨key, hash, 0, counterOf s.qf.bits count⟩, key :: s.keys,
      [⟨key, s.qf.metadata.fingerprint hash 0, len⟩]⟩, ?_, ?_, hkeep, rfl, rfl, fun hor r hr => ?_⟩
  · simp only [Session.insert, hcall, hk, Option.bind_eq_bind, Option.bind_some, if_true]
  · refine h.replace hkeep hrep ?_ (fun k => ?_) ?_ _
    · exact h.first.pairwise_add (e := ⟨key, hash, 0, counterOf s.qf.bits count⟩) hsplit.symm
        hbefore (Table.behind_lt h.represents hash)
    · have hst := h.stores k
      rw [Table.stores_iff (s.qf.metadata.bucket hash), ← hsplit] at hst
      simp only [List.mem_cons, hst, List.map_append, List.map_cons, List.mem_append]
      exact or_into_middle
    · intro e he
      have hold : ∀ x ∈ s.table.before s.qf.metadata hash ++ s.table.behind s.qf.metadata hash,
          x.key < 2^64 ∧ x.hash = s.qf.metadata.hashOf isHash x.key := by
        rw [hsplit]
        exact h.hashed _
      rcases List.mem_append.mp he with he | he
      · exact hold e (by simp [he])
      · rcases List.mem_cons.mp he with rfl | he
        · exact ⟨hkey, hhash⟩
        · exact hold e (by simp [he])
  · rw [List.mem_singleton.mp hr]
    refine ⟨s.qf.metadata.bucket hash, s.table.before s.qf.metadata hash,
      ⟨key, hash, 0, counterOf s.qf.bits count⟩, s.table.behind s.qf.metadata hash,
      Function.update_self .., rfl, ?_, ?_⟩
    · rw [hkeep.fingerprint]
    · rw [hkeep.fingerprintLen]
      exact hlen hor

theorem insert_met (h : s.Owned isHash) (resize : QF → Nat → Option (Int × QF)) {count flags : Nat}
    (hkey : key < 2^64) (hflag : hasFlag flags QF_KEY_IS_HASH = isHash) (hno : key ∉ s.keys)
    (hc : 0 < count) (hc2 : count < 2^64) (hk : keyToHash s.qf key flags = hash)
    (hfits : s.InsertFits hash count) (hs : s.InsertSound hash count flags)
    (hf : FirstEntry s.qf.metadata hash (s.table (s.qf.metadata.bucket hash)) t1 e t2)
    (out : InsertOut) (retOtherHash : Nat) {n : Nat}
    (hn : n = s.qf.metadata.grown e.hash hash 64 e.slots) :
    ∃ s', s.insert resize key count out retOtherHash flags = some s' ∧ s'.Owned isHash ∧
      s.qf.Keeps s'.qf ∧ s'.keys = key :: s.keys ∧
      s'.table = Function.update s.table (s.qf.metadata.bucket hash)
        (t1 ++ ⟨key, hash, n, counterOf s.qf.bits count⟩ :: e.grow n :: t2) ∧
      e.slots < n ∧ ∀ r ∈ s'.reports, s'.Reported r := by
  have hhash : hash = s.qf.metadata.hashOf isHash key := by rw [← hk, keyToHash_eq, hflag]
  have hword : hash < 2^64 := by
    rw [hhash]
    exact h.oneToOne.hashOf_lt isHash hkey
  have he : e ∈ s.table (s.qf.metadata.bucket hash) := by simp [hf.split]
  have hscan : hasFlag flags QF_TRY_ONCE_LOCK = false :=
    hs.scans.resolve_right fun hc => hc e he (Entry.matches_iff.mp hf.hit).1
  obtain ⟨hload, hroom⟩ := hfits.2 _ _ _ hf
  have hk2 : keyToHash s.qf e.key flags = e.hash := by
    rw [keyToHash_eq, hflag, (h.hashed _ e he).2]
  have hne : e.hash ≠ hash := by
    rw [hhash]
    exact h.hash_ne hkey hno he
  obtain ⟨out', hcall, hindex⟩ :=
    h.represents.insertRet_hit hk hs.near hf hscan hload hc resize out
  obtain ⟨qf', hcall2, hkeep, hrep, hlt, hapart⟩ := h.represents.insertAndExtend hf.split
    (hs.counter _ _ _ hf) (Represents.near_hit hs.near hf) hk hk2 hword hne rfl hf.hit hroom hc hc2
    hn (hs.hit _ _ _ hf |> fun hh hgt => by rw [hn]; exact hh hgt) out'.hash retOtherHash
  have hslots := s.qf.metadata.slotsOf_len (Nat.zero_lt_of_lt h.represents.layout.geometry.bits) n
  have hself : ∀ l, Function.update s.table (s.qf.metadata.bucket hash) l
      (s.qf.metadata.bucket hash) = l := fun l => Function.update_self ..
  refine ⟨⟨qf', Function.update s.table (s.qf.metadata.bucket hash)
      (t1 ++ ⟨key, hash, n, counterOf s.qf.bits count⟩ :: e.grow n :: t2), key :: s.keys,
    [⟨key, s.qf.metadata.fingerprint hash n, s.qf.metadata.fingerprintLen n⟩,
      ⟨e.key, s.qf.metadata.fingerprint e.hash n, s.qf.metadata.fingerprintLen n⟩]⟩,
    ?_, ?_, hkeep, rfl, rfl, hlt, fun r hr => ?_⟩
  · simp only [Session.insert, hcall, hk, hindex, Table.ownerAt_eq hf.split, hcall2, hslots,
      Option.bind_eq_bind, Option.bind_some, if_true, zero_ne_one, if_false]
  · refine h.replace hkeep hrep (h.first.pairwise_pair hf hlt hapart _) (fun k => ?_) ?_ _
    · have hst := h.stores k
      rw [Table.stores_iff (s.qf.metadata.bucket hash), hf.split] at hst
      simp only [List.mem_cons, hst, List.map_append, List.map_cons, List.mem_append,
        Entry.grow_key]
      exact or_into_middle
    · intro x hx
      have hold := h.hashed (s.qf.metadata.bucket hash)
      rw [hf.split] at hold
      rcases List.mem_append.mp hx with hx | hx
      · exact hold x (by simp [hx])
      · rcases List.mem_cons.mp hx with rfl | hx
        · exact ⟨hkey, hhash⟩
        · rcases List.mem_cons.mp hx with rfl | hx
          · rw [Entry.grow_key, Entry.grow_hash]
            exact hold e (by simp)
          · exact hold x (by simp [hx])
  · simp only [List.mem_cons, List.not_mem_nil, or_false] at hr
    rcases hr with rfl | rfl
    · refine ⟨s.qf.metadata.bucket hash, t1, ⟨key, hash, n, counterOf s.qf.bits count⟩,
        e.grow n :: t2, hself _, rfl, ?_, ?_⟩
      · rw [hkeep.fingerprint]
      · rw [hkeep.fingerprintLen]
    · refine ⟨s.qf.metadata.bucket hash, t1 ++ [⟨key, hash, n, counterOf s.qf.bits count⟩],
        e.grow n, t2, ?_, Entry.grow_key e n, ?_, ?_⟩
      · rw [List.append_assoc]
        exact hself _
      · rw [hkeep.fingerprint, Entry.grow_hash, Entry.grow_slots]
      · rw [hkeep.fingerprintLen, Entry.grow_slots]

theorem challenge_missed (h : s.Owned isHash) {flags : Nat} (hk : keyToHash s.qf key flags = hash)
    (hs : s.ChallengeSound hash)
    (hm : ∀ x ∈ s.table (s.qf.metadata.bucket hash), ¬ x.Matches s.qf.metadata hash) :
    s.challenge key flags = some { s with reports := [] } := by
  have hq := h.represents.query_miss hk hs.near hm
  simp only [Session.challenge, hq, Option.bind_eq_bind, Option.bind_some]

theorem challenge_met (h : s.Owned isHash) {flags : Nat} (hkey : key < 2^64)
    (hflag : hasFlag flags QF_KEY_IS_HASH = isHash) (hno : key ∉ s.keys)
    (hk : keyToHash s.qf key flags = hash) (hfits : s.AdaptFits hash) (hs : s.ChallengeSound hash)
    (hf : FirstEntry s.qf.metadata hash (s.table (s.qf.metadata.bucket hash)) t1 e t2) :
    ∃ s' n, s.challenge key flags = some s' ∧ s'.Owned isHash ∧ s.qf.Keeps s'.qf ∧
      s'.keys = s.keys ∧
      s'.table = Function.update s.table (s.qf.metadata.bucket hash) (t1 ++ e.grow n :: t2) ∧
      e.slots < n ∧ ∀ r ∈ s'.reports, s'.Reported r := by
  have hhash : hash = s.qf.metadata.hashOf isHash key := by rw [← hk, keyToHash_eq, hflag]
  have hword : hash < 2^64 := by
    rw [hhash]
    exact h.oneToOne.hashOf_lt isHash hkey
  have he : e ∈ s.table (s.qf.metadata.bucket hash) := by simp [hf.split]
  have hk2 : keyToHash s.qf e.key flags = e.hash := by
    rw [keyToHash_eq, hflag, (h.hashed _ e he).2]
  have hne : e.hash ≠ hash := by
    rw [hhash]
    exact h.hash_ne hkey hno he
  have hquery := h.represents.query_hit hk hword hs.near hf
  obtain ⟨qf', ret, retHash, n, hcall, hadapt, hg⟩ := h.represents.qfAdapt hf.split
    (hs.counter _ _ _ hf) (Represents.near_hit hs.near hf) hk2 hk hword hne rfl hf.hit
    (s.qf.metadata.fingerprint hash e.slots)
  have hp := hg.parted (hfits _ _ _ hf _ _ _ hadapt) hword hne rfl
  have hslots := s.qf.metadata.slotsOf_len (Nat.zero_lt_of_lt h.represents.layout.geometry.bits) n
  refine ⟨⟨qf', Function.update s.table (s.qf.metadata.bucket hash) (t1 ++ e.grow n :: t2), s.keys,
    [⟨e.key, retHash, ret⟩]⟩, n, ?_, ?_, hg.keeps, rfl, rfl, hp.longer, fun r hr => ?_⟩
  · rw [← hp.ret_eq] at hslots
    simp only [Session.challenge, hquery, hk, Table.ownerAt_eq hf.split, hcall, hslots,
      Option.bind_eq_bind, Option.bind_some]
  · refine h.replace hg.keeps hg.represents (h.first.pairwise_grow hf.split hg.le)
        (fun k => ?_) ?_ _
    · have hst := h.stores k
      rw [Table.stores_iff (s.qf.metadata.bucket hash), hf.split] at hst
      simp only [hst, List.map_append, List.map_cons, Entry.grow_key]
    · intro x hx
      have hold := h.hashed (s.qf.metadata.bucket hash)
      rw [hf.split] at hold
      rcases List.mem_append.mp hx with hx | hx
      · exact hold x (by simp [hx])
      · rcases List.mem_cons.mp hx with rfl | hx
        · rw [Entry.grow_key, Entry.grow_hash]
          exact hold e (by simp)
        · exact hold x (by simp [hx])
  · rw [List.mem_singleton.mp hr]
    refine ⟨s.qf.metadata.bucket hash, t1, e.grow n, t2, Function.update_self ..,
        Entry.grow_key e n,
      ?_, ?_⟩
    · rw [hg.keeps.fingerprint, hp.retHash_eq, Entry.grow_hash, Entry.grow_slots]
    · rw [hg.keeps.fingerprintLen, hp.ret_eq, Entry.grow_slots]

theorem remove_own (h : s.Owned isHash) {flags : Nat}
    (hflag : hasFlag flags QF_KEY_IS_HASH = isHash) (hk : keyToHash s.qf e.key flags = hash)
    (hT : s.table (s.qf.metadata.bucket hash) = t1 ++ e :: t2) (hs : s.RemoveSound hash)
    (out : RemoveOut) :
    ∃ out' qf' s', qfRemove s.qf e.key out flags =
        some ((((e.item s.qf.metadata).len : Int), out'), qf') ∧
      s.remove e.key out flags = some s' ∧ s'.Owned isHash ∧ s'.qf = qf' ∧ s.qf.Keeps qf' ∧
      s'.keys = s.keys.filter (fun k => k ≠ e.key) ∧
      s'.table = Function.update s.table (s.qf.metadata.bucket hash) (t1 ++ t2) ∧
      s'.reports = [] := by
  have hhash : hash = e.hash := by
    have he : e ∈ s.table (s.qf.metadata.bucket hash) := by simp [hT]
    rw [(h.hashed _ e he).2, ← hk, keyToHash_eq, hflag]
  have hf := h.first.firstEntry hT
  rw [← hhash] at hf
  have hreach := hs.reach _ _ _ hf
  rw [Table.contents_update, List.map_append] at hreach
  obtain ⟨out', qf', hcall, hframe, hlay⟩ := h.represents.wf.qfRemove_hit h.represents.idle hk
    hs.near hs.passes hf.firstMatch hreach out
  have hkeep : s.qf.Keeps qf' := ⟨_, _, _, hframe⟩
  have hold := h.hashed (s.qf.metadata.bucket hash)
  have hvalid := h.represents.valid (s.qf.metadata.bucket hash)
  rw [hT] at hold hvalid
  have hrest : ∀ x ∈ t1 ++ t2, x ∈ t1 ++ e :: t2 := fun x hx => by
    rcases List.mem_append.mp hx with hx | hx <;> simp [hx]
  have hrep : Represents qf' (Function.update s.table (s.qf.metadata.bucket hash) (t1 ++ t2)) := by
    refine h.represents.replace hkeep ?_ fun x hx => hvalid x (hrest x hx)
    rw [List.map_append]
    exact hlay
  refine ⟨out', qf', ⟨qf', Function.update s.table (s.qf.metadata.bucket hash) (t1 ++ t2),
    s.keys.filter fun k => k ≠ e.key, []⟩, hcall, ?_, ?_, rfl, hkeep, rfl, rfl, rfl⟩
  · have herase := h.erase_eq hT
    simp only [Session.remove, hk, hcall, herase, Option.bind_eq_bind, Option.bind_some]
  · refine h.replace hkeep hrep ?_ (fun k => ?_) (fun x hx => hold x (hrest x hx)) _
    · have hown := h.first (s.qf.metadata.bucket hash)
      rw [hT] at hown
      exact hown.sublist (List.Sublist.append_left (List.sublist_cons_self e t2) t1)
    · have hst := h.stores k
      rw [Table.stores_iff (s.qf.metadata.bucket hash), hT] at hst
      have hne := h.key_ne hT
      have hin : k ∈ (t1 ++ t2).map Entry.key → k ≠ e.key := by
        rintro hk rfl
        obtain ⟨x, hx, hxk⟩ := List.mem_map.mp hk
        exact hne x hx hxk
      -- no other bucket has an item of the key
      have hout : (∃ c, c ≠ s.qf.metadata.bucket hash ∧ k ∈ (s.table c).map Entry.key) →
          k ≠ e.key := by
        rintro ⟨c, hc, hkc⟩ rfl
        obtain ⟨x, hx, hxk⟩ := List.mem_map.mp hkc
        have hxh : x.hash = hash := by
          rw [hhash, (h.hashed c x hx).2, (hold e (by simp)).2, hxk]
        have hbk := (h.represents.valid c x hx).bucket
        rw [hxh] at hbk
        exact hc hbk.symm
      rw [List.mem_filter, hst]
      simp only [List.map_append, List.map_cons, List.mem_append, List.mem_cons] at hin ⊢
      rw [decide_eq_true_iff]
      constructor
      · rintro ⟨(h1 | rfl | h2) | h3, hk⟩
        · exact .inl (.inl h1)
        · exact absurd rfl hk
        · exact .inl (.inr h2)
        · exact .inr h3
      · rintro (h1 | h3)
        · exact ⟨.inl (h1.imp id .inr), hin h1⟩
        · exact ⟨.inr h3, hout h3⟩

theorem step (h : s.Owned isHash) (resize : QF → Nat → Option (Int × QF)) (a : Action)
    (hl : a.Legal isHash s) (hs : a.Sound s) :
    ∃ s', a.step resize s = some s' ∧ s'.Owned isHash ∧ s.Moved a s' := by
  cases a with
  | insert key count out retOtherHash flags =>
    obtain ⟨hkey, hflag, hno, ⟨hc, hc2⟩, hfits⟩ := hl
    rcases firstEntry_or_none s.qf.metadata (keyToHash s.qf key flags)
      (s.table (s.qf.metadata.bucket (keyToHash s.qf key flags))) with ⟨t1, e, t2, hf⟩ | hm
    · obtain ⟨s', h1, h2, -, hk, ht, hlt, hr⟩ := h.insert_met resize hkey hflag hno hc hc2 rfl hfits
        hs hf out retOtherHash rfl
      exact ⟨s', h1, h2, .paired hf hk ht hlt hr⟩
    · obtain ⟨s', h1, h2, -, hk, ht, hr⟩ := h.insert_new resize hkey hflag hc hc2 rfl hfits hs hm
        out retOtherHash
      exact ⟨s', h1, h2, .added hm hk ht hr⟩
  | challenge key flags =>
    obtain ⟨hkey, hflag, hno, hfits⟩ := hl
    rcases firstEntry_or_none s.qf.metadata (keyToHash s.qf key flags)
      (s.table (s.qf.metadata.bucket (keyToHash s.qf key flags))) with ⟨t1, e, t2, hf⟩ | hm
    · obtain ⟨s', n, h1, h2, -, hk, ht, hlt, hr⟩ := h.challenge_met hkey hflag hno rfl hfits hs hf
      exact ⟨s', h1, h2, .grown hf hk ht hlt hr⟩
    · exact ⟨_, h.challenge_missed rfl hs hm, ⟨h.represents, h.oneToOne, h.first, h.stores,
        h.hashed⟩, .missed⟩
  | remove key out flags =>
    obtain ⟨-, hflag, hin⟩ := hl
    obtain ⟨t1, e, t2, hT, rfl, he⟩ := h.find hin
    have hk : keyToHash s.qf e.key flags = s.qf.metadata.hashOf isHash e.key := by
      rw [keyToHash_eq]
      exact congrArg (fun x => s.qf.metadata.hashOf x e.key) hflag
    rw [← hk] at hT
    obtain ⟨-, -, s', -, h1, h2, -, -, hk, ht, hr⟩ := h.remove_own hflag rfl hT hs out
    exact ⟨s', h1, h2, .removed hT rfl hk ht hr⟩

end Session.Owned

end

end AdaptiveQF
