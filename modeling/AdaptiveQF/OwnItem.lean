import AdaptiveQF.Invariant
import AdaptiveQF.Monotone
import AdaptiveQF.Session

/-! Sessions that insert each key once: a stored key is answered with its own item. -/
namespace AdaptiveQF
open RunLayout

/-- Each key is inserted once, and none is removed. -/
def Action.Once : Action → Prop
  | .insert _ count _ _ _ => count = 1
  | .challenge _ _ => True
  | .remove _ _ _ => False

instance : ∀ a : Action, Decidable a.Once
  | .insert .. => inferInstanceAs (Decidable (_ = _))
  | .challenge .. => inferInstanceAs (Decidable True)
  | .remove .. => inferInstanceAs (Decidable False)

def Action.Decodes (a : Action) (s : Session) : Prop :=
  Near s.qf.metadata (s.table.contents s.qf.metadata) (keyToHash s.qf a.key a.flags) ∧
    match a with
    | .insert key _ _ _ flags => hasFlag flags QF_TRY_ONCE_LOCK = false ∨
      ∀ x ∈ s.table (s.qf.metadata.bucket (keyToHash s.qf key flags)),
        s.qf.metadata.remainder x.hash ≠ s.qf.metadata.remainder (keyToHash s.qf key flags)
    | _ => True

instance (s : Session) : ∀ a : Action, Decidable (a.Decodes s)
  | .insert .. => inferInstanceAs (Decidable (_ ∧ (_ ∨ _)))
  | .challenge .. => inferInstanceAs (Decidable (_ ∧ True))
  | .remove .. => inferInstanceAs (Decidable (_ ∧ True))

def Session.Answers (s : Session) (key flags : Nat) : Prop :=
  ∃ b t1 e t2 count hash len, s.table b = t1 ++ e :: t2 ∧ e.key = key ∧
    qfQuery s.qf key flags = some (count, some ⟨s.table.pos s.qf.metadata b t1, hash, len⟩)

def Session.Plain (s : Session) : Prop := ∀ b, ∀ e ∈ s.table b, e.cnt = []

section
variable {isHash : Bool} {s s' : Session} {key : Nat}

theorem Session.Owned.answers_iff (h : s.Owned isHash) (hk : key ∈ s.keys) {flags : Nat}
    (hflag : hasFlag flags QF_KEY_IS_HASH = isHash) : s.Answers key flags ↔
      Near s.qf.metadata (s.table.contents s.qf.metadata) (keyToHash s.qf key flags) := by
  obtain ⟨t1, e, t2, hT, rfl, he⟩ := h.find hk
  have hmem : e ∈ s.table (s.qf.metadata.bucket (s.qf.metadata.hashOf isHash e.key)) := by
    simp [hT]
  rw [keyToHash_eq, hflag, ← he]
  constructor
  · rintro ⟨b, u1, x, u2, count, hash, len, -, -, hq⟩
    by_contra hn
    rw [h.query_far hmem hflag hn] at hq
    exact absurd hq (Option.some_ne_none _).symm
  · intro hn
    exact ⟨_, t1, e, t2, _, _, _, hT, rfl, h.query hT hflag hn⟩

theorem Session.Plain.update (h : s.Plain) {b : Nat} {l : List Entry}
    (ht : s'.table = Function.update s.table b l)
    (hl : ∀ e ∈ l, e ∈ s.table b ∨ e.cnt = []) : s'.Plain := by
  intro c e he
  rw [ht] at he
  by_cases hc : c = b
  · rw [hc, Function.update_self] at he
    exact (hl e he).elim (h b e) id
  · rw [Function.update_of_ne hc] at he
    exact h c e he

/-- Without counters nothing else is needed. -/
theorem Action.Decodes.sound {a : Action} (h : s.Plain) (ha : a.Once) (hd : a.Decodes s) :
    a.Sound s := by
  have hcounter : ∀ {hash t1 e t2}, FirstEntry s.qf.metadata hash
      (s.table (s.qf.metadata.bucket hash)) t1 e t2 → e.cnt.length ≤ 1 := fun {_ _ e _} hf => by
    rw [h _ e (by rw [hf.split]; simp)]
    exact Nat.zero_le 1
  cases a with
  | insert key count out retOtherHash flags =>
    have hone : count = 1 := ha
    exact ⟨hd.1, hd.2, fun _ _ _ hf => hcounter hf, fun _ _ _ _ hgt => by omega,
      fun _ hgt => by omega⟩
  | challenge key flags => exact ⟨hd.1, fun _ _ _ hf => hcounter hf⟩
  | remove key out flags => exact absurd ha id

theorem Session.Moved.plain {a : Action} (h : s.Moved a s') (ha : a.Once) (hp : s.Plain) :
    s'.Plain := by
  cases h with
  | added _ _ table _ =>
    obtain rfl := ha
    refine hp.update table fun x hx => ?_
    simp only [← s.table.before_append_behind, List.mem_append, List.mem_cons] at hx ⊢
    rcases hx with hx | rfl | hx
    · exact .inl (.inl hx)
    · exact .inr rfl
    · exact .inl (.inr hx)
  | paired hit _ table longer _ =>
    obtain rfl := ha
    refine hp.update table fun x hx => ?_
    rw [hit.split]
    simp only [List.mem_append, List.mem_cons] at hx ⊢
    rcases hx with hx | rfl | rfl | hx
    · exact .inl (.inl hx)
    · exact .inr rfl
    · exact .inr (Entry.grow_cnt longer)
    · exact .inl (.inr (.inr hx))
  | missed => exact hp
  | grown hit _ table longer _ =>
    refine hp.update table fun x hx => ?_
    rw [hit.split]
    simp only [List.mem_append, List.mem_cons] at hx ⊢
    rcases hx with hx | rfl | hx
    · exact .inl (.inl hx)
    · exact .inr (Entry.grow_cnt longer)
    · exact .inl (.inr (.inr hx))
  | removed _ _ _ _ _ => exact absurd ha id

end

/-- In every session whose calls decode items in front of slot 2^31 only, an item that matches the
hash of another stored key stands behind that key's own item, and a stored key is answered with its
own item if and only if no item from slot 2^31 on is decoded for it. -/
theorem own_item_first {qf : QF} (h : qf.Zeroed) (h1 : qf.metadata.OneToOne) (isHash : Bool)
    (resize : QF → Nat → Option (Int × QF)) {actions : List Action}
    (ha : Runs.Along (fun a s => (a.Once ∧ a.Legal isHash s) ∧ a.Decodes s) (Action.step resize)
      actions qf.session) :
    ∃ s, Runs.run (Action.step resize) actions qf.session = some s ∧ Represents s.qf s.table ∧
      (∀ key, key ∈ s.keys ↔ s.table.Stores key) ∧ s.table.OwnFirst s.qf.metadata ∧
      ∀ key ∈ s.keys, ∀ flags, hasFlag flags QF_KEY_IS_HASH = isHash →
        (s.Answers key flags ↔
          Near s.qf.metadata (s.table.contents s.qf.metadata) (keyToHash s.qf key flags)) := by
  have hstep : ∀ (a : Action) (s : Session), (s.Owned isHash ∧ s.Plain) →
      ((a.Once ∧ a.Legal isHash s) ∧ a.Decodes s) →
        ∃ s', a.step resize s = some s' ∧ s'.Owned isHash ∧ s'.Plain := by
    rintro a s ⟨hs, hp⟩ ⟨⟨honce, hl⟩, hd⟩
    obtain ⟨s', h1, h2, hmoved⟩ := hs.step resize a hl (hd.sound hp honce)
    exact ⟨s', h1, h2, hmoved.plain honce hp⟩
  obtain ⟨s, hrun, hs, -⟩ := Runs.invariant hstep
    ⟨h.owned h1 isHash, fun b e he => absurd he List.not_mem_nil⟩ ha
  exact ⟨s, hrun, hs.represents, hs.stores, hs.first, fun key hk flags hflag =>
    hs.answers_iff hk hflag⟩

/-! 8 slots of 2 bits. -/

theorem smallFilter_oneToOne : smallFilter.metadata.OneToOne :=
  ⟨fun _ h => h, fun _ _ _ _ h => h⟩

def insertHash (hash count : Nat) : Action := .insert hash count ⟨0, 0, 0⟩ 0 QF_KEY_IS_HASH

def challengeHash (hash : Nat) : Action := .challenge hash QF_KEY_IS_HASH

def removeHash (hash : Nat) : Action := .remove hash ⟨0, 0⟩ QF_KEY_IS_HASH

theorem insertHash_legal {qf : QF} (h : qf.Zeroed) {key count : Nat} (hk : key < 2^64)
    (hc : 0 < count) (hc2 : count < 2^64) (hload : full qf = false)
    (hroom : (counterOf qf.bits count).length + qf.metadata.bucket key < qf.xnslots) :
    (insertHash key count).Legal true qf.session :=
  ⟨hk, (by decide : hasFlag QF_KEY_IS_HASH QF_KEY_IS_HASH = true), by simp [QF.session], ⟨hc, hc2⟩,
    h.insertFits hload hroom⟩

def sharedMinirunSession : List Action :=
  [insertHash 0 1, insertHash 32 1, insertHash 8 1, challengeHash 128]

theorem own_item_first_shared :
    ∃ s, Runs.run (Action.step noResize) sharedMinirunSession smallFilter.session = some s ∧
      s.table 0 = [⟨32, 32, 1, []⟩, ⟨0, 0, 2, []⟩] ∧ s.table.OwnFirst s.qf.metadata ∧
      s.Answers 0 QF_KEY_IS_HASH ∧ s.Answers 32 QF_KEY_IS_HASH ∧ s.Answers 8 QF_KEY_IS_HASH := by
  obtain ⟨s, hrun, -, -, hfirst, hanswers⟩ := own_item_first smallFilter_zeroed smallFilter_oneToOne
    true noResize (show Runs.Along _ _ sharedMinirunSession _ by decide +kernel)
  have hfacts : ∀ s ∈ Runs.run (Action.step noResize) sharedMinirunSession smallFilter.session,
      s.table 0 = [⟨32, 32, 1, []⟩, ⟨0, 0, 2, []⟩] ∧ s.keys = [8, 32, 0] ∧ ∀ key ∈ s.keys,
        Near s.qf.metadata (s.table.contents s.qf.metadata)
          (keyToHash s.qf key QF_KEY_IS_HASH) := by
    decide +kernel
  obtain ⟨htable, hkeys, hnear⟩ := hfacts s hrun
  have hall : ∀ key ∈ s.keys, s.Answers key QF_KEY_IS_HASH := fun key hk =>
    (hanswers key hk QF_KEY_IS_HASH (by decide)).mpr (hnear key hk)
  rw [hkeys] at hall
  exact ⟨s, hrun, htable, hfirst, hall 0 (by simp), hall 32 (by simp), hall 8 (by simp)⟩

/-- In a filter of 2^32 slots the item of hash 2^39 is in slot 2^31. The query for it does not
return. -/
theorem own_item_far : (QF.zero farMetadata).Zeroed ∧ (QF.zero farMetadata).metadata.OneToOne ∧
    Runs.Along (fun a s => a.Once ∧ a.Legal true s) (Action.step noResize) [insertHash (2^39) 1]
      (QF.zero farMetadata).session ∧
    ∃ s, Runs.run (Action.step noResize) [insertHash (2^39) 1]
        (QF.zero farMetadata).session = some s ∧
      2^39 ∈ s.keys ∧ qfQuery s.qf (2^39) QF_KEY_IS_HASH = none := by
  have hz : (QF.zero farMetadata).Zeroed := QF.zeroed_init farMetadata_geometry
  have h1 : (QF.zero farMetadata).metadata.OneToOne := ⟨fun _ h => h, fun _ _ _ _ h => h⟩
  have hlegal : (insertHash (2^39) 1).Legal true (QF.zero farMetadata).session :=
    insertHash_legal hz (by decide) (by decide) (by decide) (by decide) (by decide)
  refine ⟨hz, h1, ⟨⟨rfl, hlegal⟩, fun _ _ => trivial⟩, ?_⟩
  obtain ⟨hkey, hflag, hno, ⟨hc, hc2⟩, hfits⟩ := hlegal
  obtain ⟨s, hs, hown, hkeep, hkeys, htable, -⟩ := (hz.owned h1 true).insert_new noResize hkey hflag
    hc hc2 rfl hfits (QF.session_insertSound _ QF_KEY_IS_HASH (by decide)) (fun x hx => by cases hx)
      ⟨0, 0, 0⟩ 0
  have hrun : Runs.run (Action.step noResize) [insertHash (2^39) 1] (QF.zero farMetadata).session =
      some s := Runs.run_cons hs
  have hsingle : s.table = farTable := htable
  have hself : s.table (s.qf.metadata.bucket (2^39)) = [⟨2^39, 2^39, 0, []⟩] := by
    rw [hsingle, hkeep.bucket]
    exact Table.single_self farMetadata ⟨2^39, 2^39, 0, []⟩
  have hfar : 2^31 ≤ s.qf.metadata.bucket (2^39) := by
    rw [hkeep.bucket]
    exact (by decide : 2^31 ≤ farMetadata.bucket (2^39))
  refine ⟨s, hrun, by rw [hkeys]; exact List.mem_cons_self, ?_⟩
  exact hown.query_far (e := ⟨2^39, 2^39, 0, []⟩) (by rw [hself]; exact List.mem_cons_self) hflag
    (Table.far hself rfl hfar)

end AdaptiveQF
