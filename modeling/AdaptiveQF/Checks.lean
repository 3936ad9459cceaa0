import AdaptiveQF.Calls
import AdaptiveQF.Decode

/-! The conditions of the calls, evaluated on the contents that the array shows. -/
namespace AdaptiveQF
open RunLayout

def Contents.runEnd (A : Contents) (b : Nat) : Nat := start A.lens b + A.lens b

def InsertChecks (qf : QF) (A : Contents) (hash count : Nat) : Prop :=
  (0 < count ∧ count < 2^64) ∧
  A.runEnd (qf.metadata.bucket hash) + (1 + (counterOf qf.bits count).length) < 2^31 ∧
  (counterOf qf.bits count).length < A.free qf (A.runEnd (qf.metadata.bucket hash)) ∧
  (count = 1 ∨ A (qf.metadata.bucket hash) ≠ [] ∨ ¬ Used A.lens (qf.metadata.bucket hash))

def ItemChecks (qf : QF) (A : Contents) (hash : Nat) (here : List Item → Prop) (p : Item → Prop) :
    Prop :=
  (∃ l1 it l2, A (qf.metadata.bucket hash) = l1 ++ it :: l2 ∧
    it.rem = qf.metadata.remainder hash ∧ here l1) ∧
  ∀ l1 it l2, A (qf.metadata.bucket hash) = l1 ++ it :: l2 →
    it.rem = qf.metadata.remainder hash → here l1 → p it

def extendSlots (qf : QF) (hash other count : Nat) (it : Item) : Nat :=
  (qf.wantedDigits other hash it.ext.length).length + 1 + (qf.wantedDigits hash other 0).length +
    (counterOf qf.bits count).length

def ExtendChecks (qf : QF) (A : Contents) (hash other index count flags : Nat) (it : Item) : Prop :=
  index + it.len < 2^31 ∧
  (hash = other → (it.cnt = [] ∨ it.packedExt qf.bits = it.ext.length) ∧
    it.count qf.bits + count < 2^64 ∧ it.newSlots qf.bits count ≤ A.free qf index ∧
    it.Matches qf.metadata hash ∧
    A.runEnd (qf.metadata.bucket hash) + it.newSlots qf.bits count < 2^31) ∧
  (hash ≠ other → it.cnt = [] ∧ qf.metadata.fingerprintLen it.ext.length < 64 ∧
    (1 < count → qf.metadata.bucket (keyToHash qf hash flags) = qf.metadata.bucket hash ∧
      index + 1 + (qf.wantedDigits hash other 0).length < 2^31) ∧
    extendSlots qf hash other count it ≤ A.free qf index ∧
    A.runEnd (qf.metadata.bucket hash) + extendSlots qf hash other count it < 2^31)

def Call.Checks (A : Contents) : Call → QF → Prop
  | .insertRet key count _ flags, qf => InsertChecks qf A (keyToHash qf key flags) count
  | .insertUsingLlTable key count _ flags, qf =>
    RankStops (qf.metadata.remainder (keyToHash qf key flags))
      (A (qf.metadata.bucket (keyToHash qf key flags))) ∧
    InsertChecks qf A (keyToHash qf key flags) count
  | .insertAndExtend index key count otherKey _ _ flags, qf =>
    ((0 < count ∧ count < 2^64) ∧
      minirunId qf (keyToHash qf key flags) = minirunId qf (keyToHash qf otherKey flags)) ∧
    ItemChecks qf A (keyToHash qf key flags)
      (fun l1 => index = A.pos (qf.metadata.bucket (keyToHash qf key flags)) l1)
      (ExtendChecks qf A (keyToHash qf key flags) (keyToHash qf otherKey flags) index count flags)
  | .adapt index key otherKey _ flags, qf =>
    ItemChecks qf A (keyToHash qf key flags)
      (fun l1 => index = A.pos (qf.metadata.bucket (keyToHash qf key flags)) l1) fun it =>
        index + it.len < 2^31 ∧
        (keyToHash qf key flags ≠ keyToHash qf otherKey flags →
          it.cnt = [] ∧ qf.metadata.fingerprintLen it.ext.length < 64) ∧
        (A.free qf index = 0 ∨ (qf.wantedDigits (keyToHash qf key flags)
          (keyToHash qf otherKey flags) it.ext.length).length ≤ A.free qf index)
  | .adaptUsingLlTable origKey fpKey minirunRank flags, qf =>
    minirunId qf (keyToHash qf origKey flags) = minirunId qf (keyToHash qf fpKey flags) ∧
    ItemChecks qf A (keyToHash qf fpKey flags)
      (fun l1 => minirunRank = rankOf qf.metadata (keyToHash qf fpKey flags) l1) fun it =>
        A.runEnd (qf.metadata.bucket (keyToHash qf fpKey flags)) < 2^31 ∧
        (keyToHash qf fpKey flags ≠ keyToHash qf origKey flags →
          it.cnt = [] ∧ qf.metadata.fingerprintLen it.ext.length < 64)
  | .remove key _ flags, qf => Removes qf A (keyToHash qf key flags) flags

instance (qf : QF) (A : Contents) (hash count : Nat) : Decidable (InsertChecks qf A hash count) :=
  inferInstanceAs (Decidable (_ ∧ _ ∧ _ ∧ _))

instance (qf : QF) (A : Contents) (hash : Nat) (here : List Item → Prop) (p : Item → Prop)
    [DecidablePred here] [DecidablePred p] : Decidable (ItemChecks qf A hash here p) :=
  inferInstanceAs (Decidable ((∃ _ _ _, _ ∧ _) ∧ ∀ _ _ _, _ → _))

instance (qf : QF) (A : Contents) (hash other index count flags : Nat) :
    DecidablePred (ExtendChecks qf A hash other index count flags) := fun _ =>
  inferInstanceAs (Decidable (_ ∧ (_ → _) ∧ (_ → _)))

instance (qf : QF) (A : Contents) (hash flags : Nat) : Decidable (Removes qf A hash flags) :=
  decidable_of_iff (_ ∧ _ ∧ _ ∧ _)
    ⟨fun h => ⟨h.1, h.2.1, h.2.2.1, h.2.2.2⟩, fun h => ⟨h.1, h.2, h.3, h.4⟩⟩

instance (r : Nat) (l : List Item) : Decidable (RankStops r l) :=
  inferInstanceAs (Decidable (List.IsChain _ l))

instance (A : Contents) (qf : QF) : ∀ c : Call, Decidable (c.Checks A qf)
  | .insertRet .. => inferInstanceAs (Decidable (InsertChecks _ _ _ _))
  | .insertUsingLlTable .. => inferInstanceAs (Decidable (_ ∧ InsertChecks _ _ _ _))
  | .insertAndExtend .. => inferInstanceAs (Decidable (_ ∧ ItemChecks _ _ _ _ _))
  | .adapt .. => inferInstanceAs (Decidable (ItemChecks _ _ _ _ _))
  | .adaptUsingLlTable .. => inferInstanceAs (Decidable (_ ∧ ItemChecks _ _ _ _ _))
  | .remove .. => inferInstanceAs (Decidable (Removes _ _ _ _))

section
variable {qf : QF} {A : Contents} {hash count index b : Nat} {l1 l2 : List Item}

theorem Contents.pos_le_runEnd (hb : A b = l1 ++ l2) : A.pos b l1 ≤ A.runEnd b := by
  rw [Contents.pos, Contents.runEnd, Contents.lens, hb, itemsLen_append]
  omega

theorem Contents.pos_add_len_le_runEnd {it : Item} (hb : A b = l1 ++ it :: l2) :
    A.pos b l1 + it.len ≤ A.runEnd b := by
  rw [Contents.pos, Contents.runEnd, Contents.lens, hb, itemsLen_append, itemsLen_cons]
  omega

theorem Contents.free_runEnd (hb : A b = l1 ++ l2) (h : 0 < A.free qf (A.runEnd b)) :
    A.free qf (A.pos b l1) = A.free qf (A.runEnd b) := by
  have hle := Contents.pos_le_runEnd hb
  have hend : A.runEnd b ≤ qf.xnslots := by
    obtain ⟨e, he, hlt⟩ := free_pos_iff.mp h
    exact he.le.trans hlt.le
  refine free_eq_of_used hle hend fun s h1 h2 => ⟨b, ?_, h2⟩
  unfold Contents.pos at h1
  omega

theorem InsertChecks.room {p : Placement} (h : InsertChecks qf A hash count)
    (hp : Places qf A hash l1 l2 p) :
    (counterOf qf.bits count).length < A.free qf (A.pos (qf.metadata.bucket hash) l1) := by
  obtain ⟨-, -, hroom, -⟩ := h
  rwa [Contents.free_runEnd hp.placed.split (by omega)]

theorem InsertChecks.countable {p : Placement} (h : InsertChecks qf A hash count)
    (hp : Places qf A hash l1 l2 p) (hcount : 1 < count) : Countable qf A hash l1 p := by
  obtain ⟨-, hnear, -, hone⟩ := h
  refine ⟨?_, ?_⟩
  · rintro i rfl
    have hfirst := hp.placed.of_first
    rcases hone with rfl | hne | hu
    · omega
    · exact hne hfirst.2
    · exact hu hfirst.1
  · have := Contents.pos_le_runEnd hp.placed.split
    omega

theorem InsertChecks.codeNear (h : InsertChecks qf A hash count) : CodeNear qf A hash := by
  obtain ⟨-, hnear, -, -⟩ := h
  intro k1 it k2 hsplit _ _
  have hle := Contents.pos_add_len_le_runEnd hsplit
  unfold Contents.pos at hle
  omega

/-- The conditions hold of the contents that the filter has. -/
theorem Call.Checks.ok {c : Call} (hc : c.Checks A qf) (h : Layout qf A) :
    c.Legal qf ∧ c.HasRoom qf ∧ c.Sound qf := by
  cases c with
  | insertRet key count out flags =>
    refine ⟨hc.1, ?_, ?_⟩
    · intro _ B l1 l2 p hB _ hp
      obtain rfl := h.unique hB
      exact hc.room hp
    · intro _ B hB
      obtain rfl := h.unique hB
      exact ⟨fun _ => hc.codeNear, fun l1 l2 p _ hp hcount => hc.countable hp hcount⟩
  | insertUsingLlTable key count result flags =>
    obtain ⟨hstops, hc⟩ := hc
    refine ⟨hc.1, ?_, ?_⟩
    · intro _ B l1 l2 p hB _ hp
      obtain rfl := h.unique hB
      exact hc.room hp
    · intro _ B hB
      obtain rfl := h.unique hB
      exact ⟨hstops, fun l1 l2 p _ hp hcount => hc.countable hp hcount⟩
  | insertAndExtend index key count otherKey retHash retOtherHash flags =>
    obtain ⟨⟨hcount, hid⟩, ⟨l1, it, l2, hb, hr, hi⟩, hall⟩ := hc
    refine ⟨⟨hcount, hid, A, l1, it, l2, ⟨⟨h, hb, hr⟩, hi⟩, fun hne =>
      ((hall l1 it l2 hb hr hi).2.2 hne).2.1⟩, ?_, ?_⟩
    · intro B l1 it l2 hst
      obtain rfl := h.unique hst.layout
      obtain ⟨-, hsame, hother⟩ := hall l1 it l2 hst.split hst.rem hst.index_eq
      exact ⟨fun he => (hsame he).2.2.1, fun hne => (hother hne).2.2.2.1⟩
    · intro B l1 it l2 hst
      obtain rfl := h.unique hst.layout
      obtain ⟨hnear, hsame, hother⟩ := hall l1 it l2 hst.split hst.rem hst.index_eq
      exact ⟨hnear, fun he => ⟨(hsame he).1, (hsame he).2.1⟩,
        fun hne => ⟨(hother hne).1, (hother hne).2.2.1⟩⟩
  | adapt index key otherKey retHash flags =>
    obtain ⟨⟨l1, it, l2, hb, hr, hi⟩, hall⟩ := hc
    refine ⟨⟨A, l1, it, l2, ⟨⟨h, hb, hr⟩, hi⟩, fun hne =>
      ((hall l1 it l2 hb hr hi).2.1 hne).2⟩, trivial, ?_⟩
    intro B l1 it l2 hst
    obtain rfl := h.unique hst.layout
    obtain ⟨hnear, hother, -⟩ := hall l1 it l2 hst.split hst.rem hst.index_eq
    exact ⟨hnear, fun hne => (hother hne).1⟩
  | adaptUsingLlTable origKey fpKey minirunRank flags =>
    obtain ⟨hid, ⟨l1, it, l2, hb, hr, hrank⟩, hall⟩ := hc
    refine ⟨⟨hid, A, l1, it, l2, ⟨h, hb, hr⟩, hrank, fun hne =>
      ((hall l1 it l2 hb hr hrank).2 hne).2⟩, trivial, ?_⟩
    intro B l1 it l2 hst hrank
    obtain rfl := h.unique hst.layout
    obtain ⟨hnear, hother⟩ := hall l1 it l2 hst.split hst.rem hrank
    refine ⟨?_, fun hne => (hother hne).1⟩
    exact (Contents.pos_add_len_le_runEnd hst.split).trans_lt hnear
  | remove key out flags =>
    refine ⟨trivial, trivial, fun B hB => ?_⟩
    obtain rfl := h.unique hB
    exact hc

end

def ShowsChecked (op : Call × List (List Item)) (qf : QF) : Prop :=
  op.2.length ≤ qf.metadata.nslots ∧ (Contents.ofList op.2).Shown qf ∧
    op.1.Checks (Contents.ofList op.2) qf

instance (op : Call × List (List Item)) (qf : QF) : Decidable (ShowsChecked op qf) :=
  inferInstanceAs (Decidable (_ ∧ _ ∧ _))

/-- What follows from the conditions in one state holds in front of every call of the run. -/
theorem Tidy.along_checked {qf : QF} {A : Contents} {ok : Call → QF → Prop}
    {resize : QF → Nat → Option (Int × QF)} (h : Tidy qf A)
    (hok : ∀ c qf A, Layout qf A → Call.Checks A c qf → ok c qf)
    {ops : List (Call × List (List Item))}
    (hops : Runs.Along ShowsChecked (fun op => op.1.step resize) ops qf) :
    Runs.Along ok (Call.step resize) (ops.map Prod.fst) qf := by
  induction ops generalizing qf A with
  | nil => trivial
  | cons op ops ih =>
    obtain ⟨⟨hlen, hshown, hchecks⟩, hrest⟩ := hops
    rw [← h.toLayout.eq_ofList hlen hshown] at hchecks
    obtain ⟨hl, hr, hs⟩ := hchecks.ok h.toLayout
    refine ⟨hok op.1 qf A h.toLayout hchecks, fun q hq => ?_⟩
    obtain ⟨q2, hq2, B, hB⟩ := h.step resize op.1 hl hr hs
    obtain rfl := Option.some.inj (hq2.symm.trans hq)
    exact ih hB (hrest q2 hq2)

/-! Calls with hashes for keys. -/
namespace HashCall

def insert (hash count : Nat) : Call := .insertRet hash count ⟨0, 0, 0⟩ QF_KEY_IS_HASH

def insertLl (hash count : Nat) : Call :=
  .insertUsingLlTable hash count ⟨0, 0, 0, false⟩ QF_KEY_IS_HASH

def extend (index hash count other : Nat) : Call :=
  .insertAndExtend index hash count other 0 0 QF_KEY_IS_HASH

def adapt (index hash other : Nat) : Call := .adapt index hash other 0 QF_KEY_IS_HASH

def remove (hash : Nat) : Call := .remove hash ⟨0, 0⟩ QF_KEY_IS_HASH

end HashCall

end AdaptiveQF
