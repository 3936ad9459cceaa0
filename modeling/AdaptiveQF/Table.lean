import AdaptiveQF.Canonical
import AdaptiveQF.Insert

/-! The keys behind the items: which item stores which key, and how far its
fingerprint has been extended. -/
namespace AdaptiveQF
open RunLayout

structure Entry where
  key : Nat
  hash : Nat
  slots : Nat
  cnt : List Nat
deriving DecidableEq

abbrev Table := Nat → List Entry

def Entry.item (m : QFMetadata) (e : Entry) : Item :=
  ⟨m.remainder e.hash, m.extension e.hash e.slots, e.cnt⟩

def Entry.Matches (m : QFMetadata) (e : Entry) (hash : Nat) : Prop := (e.item m).Matches m hash

instance (m : QFMetadata) (e : Entry) (hash : Nat) : Decidable (e.Matches m hash) :=
  inferInstanceAs (Decidable ((e.item m).Matches m hash))

/-- The entry with `n` extension slots. The counter is lost on the way. -/
def Entry.grow (e : Entry) (n : Nat) : Entry :=
  if n = e.slots then e else { e with slots := n, cnt := [] }

namespace Table

def empty : Table := fun _ => []

def contents (T : Table) (m : QFMetadata) : Contents := fun b => (T b).map (Entry.item m)

def pos (T : Table) (m : QFMetadata) (b : Nat) (t1 : List Entry) : Nat :=
  (T.contents m).pos b (t1.map (Entry.item m))

def before (T : Table) (m : QFMetadata) (hash : Nat) : List Entry :=
  (T (m.bucket hash)).takeWhile fun x => m.remainder x.hash ≤ m.remainder hash

def behind (T : Table) (m : QFMetadata) (hash : Nat) : List Entry :=
  (T (m.bucket hash)).dropWhile fun x => m.remainder x.hash ≤ m.remainder hash

def add (T : Table) (m : QFMetadata) (e : Entry) : Table :=
  Function.update T (m.bucket e.hash) (T.before m e.hash ++ e :: T.behind m e.hash)

end Table

structure Entry.Valid (m : QFMetadata) (b : Nat) (e : Entry) : Prop where
  bucket : m.bucket e.hash = b
  word : e.hash < 2^64
  fits : m.quotientBits + m.bitsPerSlot * e.slots < 64

/-- The filter stores the hashes of the table. -/
structure Represents (qf : QF) (T : Table) : Prop where
  layout : Layout qf (T.contents qf.metadata)
  idle : qf.Idle
  valid : ∀ b, ∀ e ∈ T b, e.Valid qf.metadata b

/-- How many extension slots of `h` tell it from `g`: up to the first that differs, or all of them.
They are looked at from slot `n` on. -/
def QFMetadata.grown (m : QFMetadata) (h g : Nat) : Nat → Nat → Nat
  | 0, n => n
  | fuel+1, n => if m.digit h n ≠ m.digit g n ∨ 64 ≤ m.fingerprintLen (n+1) then n+1
      else m.grown h g fuel (n+1)

section
variable {m : QFMetadata} {e : Entry} {hash n : Nat}

theorem Entry.matches_iff : e.Matches m hash ↔ m.remainder e.hash = m.remainder hash ∧
    m.extension e.hash e.slots = m.extension hash e.slots := by
  unfold Matches Item.Matches item
  rw [QFMetadata.length_extension]

theorem Entry.matches_self (m : QFMetadata) (e : Entry) : e.Matches m e.hash :=
  matches_iff.mpr ⟨rfl, rfl⟩

@[simp] theorem Entry.grow_hash (e : Entry) (n : Nat) : (e.grow n).hash = e.hash := by
  unfold grow
  split <;> rfl

@[simp] theorem Entry.grow_key (e : Entry) (n : Nat) : (e.grow n).key = e.key := by
  unfold grow
  split <;> rfl

@[simp] theorem Entry.grow_slots (e : Entry) (n : Nat) : (e.grow n).slots = n := by
  unfold grow
  split
  · next h => exact h.symm
  · rfl

theorem Entry.grow_self (e : Entry) : e.grow e.slots = e := if_pos rfl

theorem Entry.grow_cnt (h : e.slots < n) : (e.grow n).cnt = [] := by
  rw [grow, if_neg (by omega)]

theorem Entry.grow_item (h : e.slots < n) : (e.grow n).item m = m.item e.hash n := by
  rw [grow, if_neg (by omega)]
  rfl

theorem QFMetadata.extension_take (m : QFMetadata) (h : Nat) {k n : Nat} (hk : k ≤ n) :
    (m.extension h n).take k = m.extension h k := Digits.take_low hk

theorem Entry.Matches.of_grow (hn : e.slots ≤ n) (h : (e.grow n).Matches m hash) :
    e.Matches m hash := by
  rw [matches_iff, grow_hash, grow_slots] at h
  refine matches_iff.mpr ⟨h.1, ?_⟩
  have htake := congrArg (List.take e.slots) h.2
  rwa [m.extension_take _ hn, m.extension_take _ hn] at htake

/-- What `adapt` appends ends where `grown` says. -/
theorem Digging.grown {h g : Nat} {ds : List Nat} (hd : Digging m h g n ds) {fuel : Nat}
    (hf : ds.length ≤ fuel) : m.grown h g fuel n = n + ds.length := by
  obtain ⟨hpos, -, hfits, hsame, hlast⟩ := hd
  generalize hN : n + ds.length = N at hfits hsame hlast ⊢
  replace hpos : n < N := by omega
  replace hf : N ≤ n + fuel := by omega
  clear hN
  induction fuel generalizing n with
  | zero => omega
  | succ fuel ih =>
    unfold QFMetadata.grown
    by_cases hn : n + 1 = N
    · rw [← hn, Nat.add_sub_cancel] at hlast
      rw [if_pos, hn]
      rcases hlast with hl | hl
      · exact .inl hl
      · right
        unfold QFMetadata.fingerprintLen
        omega
    · have hmul := Nat.mul_le_mul_left m.bitsPerSlot (by omega : n + 2 ≤ N)
      rw [if_neg, ih (fun j h1 h2 => hsame j (by omega) h2) (by omega) (by omega)]
      rintro (hc | hc)
      · exact hc (hsame n (Nat.le_refl n) (by omega))
      · have hp : m.bitsPerSlot * (n+2) = m.bitsPerSlot * (n+1) + m.bitsPerSlot := by ring
        unfold QFMetadata.fingerprintLen at hc
        omega

theorem Digging.length_unique {h g : Nat} {ds es : List Nat} (hd : Digging m h g n ds)
    (he : Digging m h g n es) : ds.length = es.length := by
  have h1 := hd.grown (Nat.le_max_left ds.length es.length)
  have h2 := he.grown (Nat.le_max_right ds.length es.length)
  omega

structure FirstEntry (m : QFMetadata) (hash : Nat) (l t1 : List Entry) (e : Entry)
    (t2 : List Entry) : Prop where
  split : l = t1 ++ e :: t2
  hit : e.Matches m hash
  first : ∀ x ∈ t1, ¬ x.Matches m hash

instance {m : QFMetadata} {hash : Nat} {l : List Entry} {P : List Entry → Entry → List Entry → Prop}
    [∀ t1 e t2, Decidable (P t1 e t2)] :
    Decidable (∀ t1 e t2, FirstEntry m hash l t1 e t2 → P t1 e t2) :=
  decidable_of_iff (∀ t1 e t2, l = t1 ++ e :: t2 → e.Matches m hash →
      (∀ x ∈ t1, ¬ x.Matches m hash) → P t1 e t2)
    ⟨fun hp t1 e t2 hf => hp t1 e t2 hf.split hf.hit hf.first,
      fun hp t1 e t2 hs hm hno => hp t1 e t2 ⟨hs, hm, hno⟩⟩

theorem firstEntry_or_none (m : QFMetadata) (hash : Nat) (l : List Entry) :
    (∃ t1 e t2, FirstEntry m hash l t1 e t2) ∨ ∀ x ∈ l, ¬ x.Matches m hash := by
  induction l with
  | nil => exact .inr (by simp)
  | cons x l ih =>
    by_cases hx : x.Matches m hash
    · exact .inl ⟨[], x, l, rfl, hx, by simp⟩
    · rcases ih with ⟨t1, e, t2, hs, hm, hf⟩ | hno
      · refine .inl ⟨x :: t1, e, t2, by rw [hs]; rfl, hm, fun y hy => ?_⟩
        rcases List.mem_cons.mp hy with rfl | hy
        · exact hx
        · exact hf y hy
      · refine .inr fun y hy => ?_
        rcases List.mem_cons.mp hy with rfl | hy
        · exact hx
        · exact hno y hy

theorem FirstEntry.firstMatch {l t1 t2 : List Entry} (h : FirstEntry m hash l t1 e t2) :
    FirstMatch m hash (l.map (Entry.item m)) (t1.map (Entry.item m)) (e.item m)
      (t2.map (Entry.item m)) := by
  refine ⟨by rw [h.split]; simp, h.hit, fun x hx => ?_⟩
  obtain ⟨y, hy, rfl⟩ := List.mem_map.mp hx
  exact h.first y hy

theorem not_matches_items {l : List Entry} (h : ∀ x ∈ l, ¬ x.Matches m hash) :
    ∀ x ∈ l.map (Entry.item m), ¬ x.Matches m hash := by
  intro x hx
  obtain ⟨y, hy, rfl⟩ := List.mem_map.mp hx
  exact h y hy

theorem Table.contents_update (T : Table) (b : Nat) (l : List Entry) :
    Table.contents (Function.update T b l) m =
      Function.update (T.contents m) b (l.map (Entry.item m)) := by
  funext c
  by_cases hc : c = b
  · subst hc
    simp [contents]
  · simp [contents, hc]

theorem Table.pos_update (T : Table) (b : Nat) (l t1 : List Entry) :
    Table.pos (Function.update T b l) m b t1 = T.pos m b t1 := by
  rw [pos, contents_update, Contents.pos_update]
  rfl

end

section
variable {qf qf' : QF} {T : Table} {b hash key flags : Nat} {e : Entry} {t1 t2 : List Entry}

theorem QF.Keeps.item (hk : qf.Keeps qf') : Entry.item qf'.metadata = Entry.item qf.metadata := by
  funext e
  rw [Entry.item, hk.remainder, hk.extension]
  rfl

theorem QF.Keeps.matches_entry (hk : qf.Keeps qf') (e : Entry) (y : Nat) :
    e.Matches qf'.metadata y ↔ e.Matches qf.metadata y := by
  rw [Entry.Matches, hk.item, hk.matches_iff]
  rfl

theorem QF.Keeps.contents (hk : qf.Keeps qf') (T : Table) :
    T.contents qf'.metadata = T.contents qf.metadata := by
  unfold Table.contents
  rw [hk.item]

theorem QF.Keeps.valid_iff (hk : qf.Keeps qf') :
    e.Valid qf'.metadata b ↔ e.Valid qf.metadata b := by
  have hq : qf'.metadata.quotientBits = qf.metadata.quotientBits := hk.qbits
  have hw : qf'.metadata.bitsPerSlot = qf.metadata.bitsPerSlot := hk.bits
  constructor
  · rintro ⟨h1, h2, h3⟩
    rw [hk.bucket] at h1
    rw [hq, hw] at h3
    exact ⟨h1, h2, h3⟩
  · rintro ⟨h1, h2, h3⟩
    rw [← hk.bucket] at h1
    rw [← hq, ← hw] at h3
    exact ⟨h1, h2, h3⟩

namespace Represents

theorem wf (h : Represents qf T) : WF qf (T.contents qf.metadata) := by
  refine ⟨h.layout, fun b it hit => ?_⟩
  obtain ⟨e, he, rfl⟩ := List.mem_map.mp hit
  have hfits := (h.valid b e he).fits
  unfold Item.Fits Entry.item
  rwa [QFMetadata.length_extension]

theorem split_contents (hT : T b = t1 ++ e :: t2) (m : QFMetadata) : T.contents m b =
    t1.map (Entry.item m) ++ e.item m :: t2.map (Entry.item m) := by
  rw [Table.contents, hT]
  simp

theorem replace (h : Represents qf T) {l : List Entry} (hk : qf.Keeps qf')
    (hl : Layout qf' (Function.update (T.contents qf.metadata) b (l.map (Entry.item qf.metadata))))
    (hv : ∀ e ∈ l, e.Valid qf.metadata b) : Represents qf' (Function.update T b l) := by
  refine ⟨?_, hk.idle h.idle, fun c e he => hk.valid_iff.mpr ?_⟩
  · rw [hk.contents, Table.contents_update]
    exact hl
  · by_cases hc : c = b
    · subst hc
      rw [Function.update_self] at he
      exact hv e he
    · rw [Function.update_of_ne hc] at he
      exact h.valid c e he

theorem valid_replace (h : Represents qf T) (hT : T b = t1 ++ e :: t2) {l : List Entry}
    (hl : ∀ x ∈ l, x.Valid qf.metadata b) : ∀ x ∈ t1 ++ l ++ t2, x.Valid qf.metadata b := by
  intro x hx
  simp only [List.mem_append] at hx
  rcases hx with (hx | hx) | hx
  · exact h.valid b x (by simp [hT, hx])
  · exact hl x hx
  · exact h.valid b x (by simp [hT, hx])

theorem query_hit (h : Represents qf T) (hk : keyToHash qf key flags = hash) (hh : hash < 2^64)
    (hn : Near qf.metadata (T.contents qf.metadata) hash)
    (hf : FirstEntry qf.metadata hash (T (qf.metadata.bucket hash)) t1 e t2) :
    qfQuery qf key flags = some ((e.item qf.metadata).count qf.bits, some
      ⟨T.pos qf.metadata (qf.metadata.bucket hash) t1, qf.metadata.fingerprint hash e.slots,
        qf.metadata.fingerprintLen e.slots⟩) := by
  have hq := h.wf.qfQuery_hit hn hh hf.firstMatch hk
  unfold Entry.item at hq
  rw [QFMetadata.length_extension] at hq
  exact hq

theorem query_miss (h : Represents qf T) (hk : keyToHash qf key flags = hash)
    (hn : Near qf.metadata (T.contents qf.metadata) hash)
    (hm : ∀ x ∈ T (qf.metadata.bucket hash), ¬ x.Matches qf.metadata hash) :
    qfQuery qf key flags = some (0, none) :=
  h.wf.qfQuery_miss hn (not_matches_items hm) hk

theorem llTable_hit (h : Represents qf T) (hk : keyToHash qf key flags = hash)
    (hn : Near qf.metadata (T.contents qf.metadata) hash)
    (hf : FirstEntry qf.metadata hash (T (qf.metadata.bucket hash)) t1 e t2) :
    qfQueryUsingLlTable qf key flags =
      some ((rankOf qf.metadata hash (t1.map (Entry.item qf.metadata)) : Int), hash) :=
  h.wf.qfQueryUsingLlTable_hit hn hf.firstMatch hk

theorem llTable_miss (h : Represents qf T) (hk : keyToHash qf key flags = hash)
    (hn : Near qf.metadata (T.contents qf.metadata) hash)
    (hm : ∀ x ∈ T (qf.metadata.bucket hash), ¬ x.Matches qf.metadata hash) :
    qfQueryUsingLlTable qf key flags = some (-1, hash) :=
  h.wf.qfQueryUsingLlTable_miss hn (not_matches_items hm) hk

/-- The item that a query decodes last ends in front of slot 2^31. -/
theorem near_hit (hn : Near qf.metadata (T.contents qf.metadata) hash)
    (hf : FirstEntry qf.metadata hash (T (qf.metadata.bucket hash)) t1 e t2) :
    T.pos qf.metadata (qf.metadata.bucket hash) t1 + (e.item qf.metadata).len < 2^31 :=
  hn _ _ _ hf.firstMatch.split hf.hit.1 hf.firstMatch.first

/-- An item that two different hashes match leaves room for an extension. -/
theorem room (h : Represents qf T) (he : e ∈ T b) (hm : e.Matches qf.metadata hash)
    (hh : hash < 2^64) (hne : e.hash ≠ hash) (hb : qf.metadata.bucket hash = b) :
    qf.metadata.fingerprintLen e.slots < 64 := by
  have hv := h.valid b e he
  have hlt := fingerprintLen_lt hv.word hh hne (hv.bucket.trans hb.symm) (e.matches_self _) hm
  have hext : (e.item qf.metadata).ext.length = e.slots := QFMetadata.length_extension _ _ _
  rwa [hext] at hlt

end Represents

structure Parted (m : QFMetadata) (e : Entry) (other : Nat) (ret : Int) (retHash n : Nat) :
    Prop where
  digging : ∃ ds, Digging m e.hash other e.slots ds ∧ n = e.slots + ds.length
  grown : n = m.grown e.hash other 64 e.slots
  longer : e.slots < n
  apart : ¬ (e.grow n).Matches m other
  retHash_eq : retHash = m.fingerprint e.hash n
  ret_eq : ret = (m.fingerprintLen n : Int)

structure Grown (qf : QF) (T : Table) (b : Nat) (t1 : List Entry) (e : Entry) (t2 : List Entry)
    (other : Nat) (qf' : QF) (ret : Int) (retHash n : Nat) : Prop where
  represents : Represents qf' (Function.update T b (t1 ++ e.grow n :: t2))
  keeps : qf.Keeps qf'
  le : e.slots ≤ n
  done : 0 < (T.contents qf.metadata).free qf (T.pos qf.metadata b t1) →
    (qf.wantedDigits e.hash other e.slots).length ≤
      (T.contents qf.metadata).free qf (T.pos qf.metadata b t1) + e.cnt.length → ret ≠ noSpace
  parted : ret ≠ noSpace → other < 2^64 → e.hash ≠ other → qf.metadata.bucket other = b →
    Parted qf.metadata e other ret retHash n

theorem Represents.adapt (h : Represents qf T) (hT : T b = t1 ++ e :: t2) (hc : e.cnt.length ≤ 1)
    (hs : T.pos qf.metadata b t1 + (e.item qf.metadata).len < 2^31)
    (hroom : qf.metadata.fingerprintLen e.slots < 64) (other : Nat) :
    ∃ qf' ret retHash n, AdaptiveQF.adapt qf (T.pos qf.metadata b t1) b e.hash other =
      some (ret, retHash, qf') ∧ Grown qf T b t1 e t2 other qf' ret retHash n := by
  have hv := h.valid b e (by simp [hT])
  have hext : (e.item qf.metadata).ext.length = e.slots := QFMetadata.length_extension _ _ _
  obtain ⟨qf', ret, retHash, done, rest, hcall, had, hdone⟩ := h.wf.adapt_matching
    (Represents.split_contents hT _) hc hs hv.bucket (e.matches_self _) hv.word
    (by rw [hext]; exact hroom) other
  have hlen : e.slots ≤ e.slots + done.length := Nat.le_add_right _ _
  -- the item that is left belongs to the grown entry
  have hitem : (e.item qf.metadata).extend done =
      (e.grow (e.slots + done.length)).item qf.metadata := by
    by_cases hd : done = []
    · subst hd
      rw [List.length_nil, Nat.add_zero, Entry.grow_self]
      rfl
    · have hm := had.matching
      have hpos := List.length_pos_iff.mpr hd
      rw [Item.extend_of_ne_nil _ hd] at hm ⊢
      have he := hm.2
      rw [List.length_append, hext] at he
      rw [Entry.grow_item (by omega), QFMetadata.item, ← he, ← hm.1]
  have hwf := had.wf
  rw [hitem] at hwf
  have hfits := had.digging.fits_left
  rw [hext] at hfits
  refine ⟨qf', ret, retHash, e.slots + done.length, hcall, ?_, had.keeps, hlen, ?_, ?_⟩
  · apply h.replace had.keeps
    · rw [List.map_append, List.map_cons]
      exact hwf.toLayout
    · intro x hx
      refine h.valid_replace hT (l := [e.grow (e.slots + done.length)]) (fun y hy => ?_) x
        (by simpa using hx)
      rw [List.mem_singleton.mp hy]
      exact ⟨by simpa using hv.bucket, by simpa using hv.word, by simpa using hfits⟩
  · intro hpos hfree
    have hwanted := h.layout.geometry.wantedDigits_spec e.hash other hroom
    have hdig := had.digging
    rw [hext] at hdig
    rw [had.ret_eq, if_pos (hdone hpos (by rw [hdig.length_unique hwanted]; exact hfree))]
    unfold noSpace
    omega
  · intro hret ho hne hbo
    obtain ⟨hrest, hsep⟩ := had.separated hret hv.word ho hne (hv.bucket.trans hbo.symm)
    have hdig := had.digging
    rw [hrest, List.append_nil, hext] at hdig
    rw [hext] at hsep
    have hlonger := hsep.longer
    rw [hext] at hlonger
    have hfuel : done.length ≤ 64 := by
      have hw := h.layout.geometry.bits
      have := Nat.mul_le_mul_right (e.slots + done.length) hw
      omega
    refine ⟨⟨_, hdig, rfl⟩, (hdig.grown hfuel).symm, hlonger, ?_, hsep.retHash_eq, hsep.ret_eq⟩
    rw [Entry.Matches, Entry.grow_item hlonger]
    exact hsep.apart

theorem Represents.contents_update (hk : qf.Keeps qf') (T : Table) (b : Nat) (l : List Entry) :
    Table.contents (Function.update T b l) qf'.metadata =
      Function.update (T.contents qf.metadata) b (l.map (Entry.item qf.metadata)) := by
  rw [hk.contents, Table.contents_update]

theorem Grown.free_eq {other n retHash : Nat} {ret : Int}
    (hg : Grown qf T b t1 e t2 other qf' ret retHash n) (h : Represents qf T)
    (hT : T b = t1 ++ e :: t2) (hc : e.cnt.length ≤ 1) :
    (T.contents qf.metadata).free qf (T.pos qf.metadata b t1) + (e.item qf.metadata).len =
      ((e.grow n).item qf.metadata).len +
        (Table.contents (Function.update T b (t1 ++ e.grow n :: t2)) qf'.metadata).free qf'
          (T.pos qf.metadata b t1) := by
  have hlay := hg.represents.layout
  rw [Represents.contents_update hg.keeps, List.map_append, List.map_cons] at hlay ⊢
  have hlen : ((e.grow n).item qf.metadata).len =
      (e.item qf.metadata).len +
        (((e.grow n).item qf.metadata).len - (e.item qf.metadata).len) := by
    have hle := hg.le
    unfold Entry.grow
    split
    · omega
    · simp only [Entry.item, Item.len, QFMetadata.length_extension, List.length_nil]
      omega
  have := h.layout.free_replace (Represents.split_contents hT _) hlay hg.keeps hlen
  unfold Table.pos
  omega

/-- What `adapt` appends is as long as `grown` says. -/
theorem Geometry.length_wantedDigits (hg : Geometry qf.metadata) {h g n : Nat}
    (hroom : qf.metadata.fingerprintLen n < 64) :
    n + (qf.wantedDigits h g n).length = qf.metadata.grown h g 64 n := by
  have hd := hg.wantedDigits_spec h g hroom
  have hw := hg.bits
  have hfits := hd.fits
  have hmul := Nat.mul_le_mul_right (n + (qf.wantedDigits h g n).length) hw
  exact (hd.grown (by omega)).symm

theorem Represents.qfAdapt (h : Represents qf T) {otherKey other : Nat}
    (hT : T b = t1 ++ e :: t2) (hc : e.cnt.length ≤ 1)
    (hs : T.pos qf.metadata b t1 + (e.item qf.metadata).len < 2^31)
    (hk : keyToHash qf key flags = e.hash) (hk2 : keyToHash qf otherKey flags = other)
    (ho : other < 2^64) (hne : e.hash ≠ other) (hbo : qf.metadata.bucket other = b)
    (hm : e.Matches qf.metadata other) (retHash : Nat) :
    ∃ qf' ret retHash' n,
        AdaptiveQF.qfAdapt qf (T.pos qf.metadata b t1) key otherKey retHash flags =
        some (ret, retHash', qf') ∧
      AdaptiveQF.adapt qf (T.pos qf.metadata b t1) b e.hash other = some (ret, retHash', qf') ∧
      Grown qf T b t1 e t2 other qf' ret retHash' n := by
  have he : e ∈ T b := by simp [hT]
  have hroom := h.room he hm ho hne hbo
  obtain ⟨qf', ret, retHash', n, hcall, hg⟩ := h.adapt hT hc hs hroom other
  refine ⟨qf', ret, retHash', n, ?_, hcall, hg⟩
  rw [h.wf.qfAdapt_eq hk hk2 hne, (h.valid b e he).bucket]
  exact hcall

theorem Represents.qfAdaptUsingLlTable (h : Represents qf T) {origKey fpKey other : Nat}
    (hT : T (qf.metadata.bucket other) = t1 ++ e :: t2) (hc : e.cnt.length ≤ 1)
    (hs : T.pos qf.metadata (qf.metadata.bucket other) t1 + (e.item qf.metadata).len < 2^31)
    (hk : keyToHash qf origKey flags = e.hash) (hk2 : keyToHash qf fpKey flags = other)
    (ho : other < 2^64) (hne : e.hash ≠ other) (hm : e.Matches qf.metadata other) :
    ∃ qf' ret retHash' n, AdaptiveQF.qfAdaptUsingLlTable qf origKey fpKey
        (rankOf qf.metadata other (t1.map (Entry.item qf.metadata))) flags = some (1, qf') ∧
      AdaptiveQF.adapt qf (T.pos qf.metadata (qf.metadata.bucket other) t1)
        (qf.metadata.bucket other) e.hash other = some (ret, retHash', qf') ∧
      Grown qf T (qf.metadata.bucket other) t1 e t2 other qf' ret retHash' n := by
  obtain ⟨qf', ret, retHash', n, h1, h2, hg⟩ :=
    h.qfAdapt hT hc hs hk hk2 ho hne rfl hm 0
  refine ⟨qf', ret, retHash', n, ?_, h2, hg⟩
  rw [h.layout.qfAdaptUsingLlTable_hit hk2 (split_contents hT _) hs hm.1 origKey]
  exact congrArg (Option.map fun r => ((1 : Int), r.2.2)) h1

/-! Insertions. -/

theorem Table.before_append_behind (T : Table) (m : QFMetadata) (hash : Nat) :
    T.before m hash ++ T.behind m hash = T (m.bucket hash) := List.takeWhile_append_dropWhile

theorem Table.before_eq {m : QFMetadata} (hT : T (m.bucket hash) = t1 ++ t2)
    (h1 : ∀ x ∈ t1, m.remainder x.hash ≤ m.remainder hash)
    (h2 : ∀ x ∈ t2, m.remainder hash < m.remainder x.hash) :
    T.before m hash = t1 ∧ T.behind m hash = t2 := by
  have htake : T.before m hash = t1 := by
    rw [before, hT, List.takeWhile_append_of_pos (by simpa using h1)]
    cases t2 with
    | nil => simp
    | cons x t2 =>
      have hx : ¬ m.remainder x.hash ≤ m.remainder hash := by
        have := h2 x (by simp)
        omega
      rw [List.takeWhile_cons_of_neg (by simpa using hx), List.append_nil]
  have hall := T.before_append_behind m hash
  rw [htake, hT] at hall
  exact ⟨htake, List.append_cancel_left hall⟩

theorem Represents.insert (h : Represents qf T) (key : Nat) (hk : qf.Keeps qf') (hh : hash < 2^64)
    (hT : T (qf.metadata.bucket hash) = t1 ++ t2) (cnt : List Nat)
    (hl : Layout qf' (Function.update (T.contents qf.metadata) (qf.metadata.bucket hash)
      (t1.map (Entry.item qf.metadata) ++ Item.withCounter
        (Item.fresh (qf.metadata.remainder hash)) cnt :: t2.map (Entry.item qf.metadata)))) :
    Represents qf' (Function.update T (qf.metadata.bucket hash)
      (t1 ++ ⟨key, hash, 0, cnt⟩ :: t2)) := by
  have hbits := h.layout.geometry.hashBits
  have hitem : Entry.item qf.metadata ⟨key, hash, 0, cnt⟩ =
      Item.withCounter (Item.fresh (qf.metadata.remainder hash)) cnt := rfl
  apply h.replace hk
  · rw [List.map_append, List.map_cons, hitem]
    exact hl
  · intro x hx
    rcases List.mem_append.mp hx with hx | hx
    · exact h.valid _ x (by simp [hT, hx])
    · rcases List.mem_cons.mp hx with rfl | hx
      · exact ⟨rfl, hh, by simp only; omega⟩
      · exact h.valid _ x (by simp [hT, hx])

end

/-! One entry. -/

def Table.single (m : QFMetadata) (e : Entry) : Table :=
  Function.update Table.empty (m.bucket e.hash) [e]

theorem Table.contents_single (m : QFMetadata) (e : Entry) :
    (Table.single m e).contents m = Contents.single (m.bucket e.hash) (e.item m) :=
  Table.contents_update _ _ _

theorem Table.single_self (m : QFMetadata) (e : Entry) : Table.single m e (m.bucket e.hash) = [e] :=
  Function.update_self ..

theorem Table.mem_single {m : QFMetadata} {e x : Entry} {b : Nat} (h : x ∈ Table.single m e b) :
    b = m.bucket e.hash ∧ x = e := by
  by_cases hb : b = m.bucket e.hash
  · subst hb
    exact ⟨rfl, by simpa [single] using h⟩
  · simp [single, hb, empty] at h

theorem QF.Zeroed.represents {qf : QF} (h : qf.Zeroed) : Represents qf Table.empty :=
  ⟨h.wf.toLayout, ⟨h.autoResize, funext h.locks⟩, by simp [Table.empty]⟩

theorem Table.single_represents {m : QFMetadata} (hg : Geometry m) {key hash : Nat}
    (hh : hash < 2^64) :
    Represents (QF.ofContents m ((Table.single m ⟨key, hash, 0, []⟩).contents m))
      (Table.single m ⟨key, hash, 0, []⟩) := by
  have hq := hg.hashBits
  have hb := hg.bucket_lt hash
  have hx := hg.xnslots
  have hitem : Entry.item m ⟨key, hash, 0, []⟩ = Item.fresh (m.remainder hash) := rfl
  have hfits : (Contents.single (m.bucket hash) (Item.fresh (m.remainder hash))).Fits m := by
    apply Contents.single_fits hb
    · rw [Item.len_fresh]
      omega
    · exact Item.bounded_fresh (Nat.mod_lt _ (Nat.two_pow_pos _))
    · unfold Item.Fits Item.fresh
      rw [List.length_nil]
      omega
  rw [← hitem] at hfits
  rw [← Table.contents_single m ⟨key, hash, 0, []⟩] at hfits
  refine ⟨(hfits.wf hg).toLayout, ⟨rfl, rfl⟩, fun b e he => ?_⟩
  obtain ⟨rfl, rfl⟩ := Table.mem_single he
  exact ⟨rfl, hh, (by omega : m.quotientBits + m.bitsPerSlot * 0 < 64)⟩

theorem Table.bucket_represents {m : QFMetadata} (hg : Geometry m) {b : Nat} {l : List Entry}
    (hb : b < m.nslots) (hv : ∀ e ∈ l, e.Valid m b ∧ e.cnt = []) (hne : l ≠ [])
    (hs : l.Pairwise fun e f => m.remainder e.hash ≤ m.remainder f.hash)
    (hx : b + itemsLen (l.map (Entry.item m)) ≤ m.xnslots) :
    Represents (QF.ofContents m (Table.contents (Function.update Table.empty b l) m))
      (Function.update Table.empty b l) := by
  have hmem : ∀ c, ∀ e ∈ Function.update Table.empty b l c, c = b ∧ e ∈ l := by
    intro c e he
    by_cases hc : c = b
    · subst hc
      rw [Function.update_self] at he
      exact ⟨rfl, he⟩
    · rw [Function.update_of_ne hc] at he
      exact absurd he List.not_mem_nil
  have hcont : Table.contents (Function.update Table.empty b l) m =
      Function.update Contents.empty b (l.map (Entry.item m)) := Table.contents_update ..
  have hfits : Contents.Fits (Table.contents (Function.update Table.empty b l) m) m := by
    refine ⟨fun c hc => ?_, ?_, fun c it hit => ?_, fun c => ?_, fun c it hit => ?_⟩
    · rw [hcont, Function.update_of_ne (by omega)]
      rfl
    · obtain ⟨e, t, rfl⟩ := List.exists_cons_of_ne_nil hne
      have hpos : 0 < itemsLen ((e :: t).map (Entry.item m)) := by
        have := (e.item m).len_pos
        rw [List.map_cons, itemsLen_cons]
        omega
      rw [hcont, Contents.extent, Contents.lens_update, Contents.lens_empty, ends_single hpos,
        if_neg (by omega)]
      exact hx
    · obtain ⟨e, he, rfl⟩ := List.mem_map.mp hit
      have hcnt := (hv e (hmem c e he).2).2
      refine ⟨Nat.mod_lt _ (Nat.two_pow_pos _), fun v hvm => Digits.lt_of_mem_low hvm, ?_⟩
      show ∀ v ∈ e.cnt, _
      simp [hcnt]
    · by_cases hc : c = b
      · subst hc
        rw [hcont, Function.update_self, List.pairwise_map]
        exact hs
      · rw [hcont, Function.update_of_ne hc]
        exact .nil
    · obtain ⟨e, he, rfl⟩ := List.mem_map.mp hit
      have hfit := (hv e (hmem c e he).2).1.fits
      unfold Item.Fits Entry.item
      rwa [QFMetadata.length_extension]
  refine ⟨(hfits.wf hg).toLayout, ⟨rfl, rfl⟩, fun c e he => ?_⟩
  obtain ⟨hc, he⟩ := hmem c e he
  exact hc ▸ (hv e he).1

/-- The item of a bucket from 2^31 on is too far for its minirun to be queried. -/
theorem Table.far {T : Table} {m : QFMetadata} {e : Entry} {hash : Nat}
    (hT : T (m.bucket hash) = [e]) (hr : m.remainder e.hash = m.remainder hash)
    (hb : 2^31 ≤ m.bucket hash) : ¬ Near m (T.contents m) hash := by
  intro hn
  have hsplit := Represents.split_contents (show T (m.bucket hash) = [] ++ e :: [] from hT) m
  have hnear := hn [] (e.item m) [] hsplit hr (by simp)
  have hst := @le_start (T.contents m).lens (m.bucket hash)
  have hlen := (e.item m).len_pos
  omega

end AdaptiveQF
