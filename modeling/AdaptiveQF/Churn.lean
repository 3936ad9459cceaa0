import AdaptiveQF.OwnItem

/-! Sessions with removals: a stored key's own item is taken out, and no other. -/
namespace AdaptiveQF
open RunLayout

section
variable {m : QFMetadata} {h p : Nat} {l1 l2 : List Item} {it : Item}

/-- Behind the first match nothing is decoded. -/
theorem nearIn_hit (hm : it.Matches m h) :
    NearIn m h p (l1 ++ it :: l2) ↔ NearIn m h p (l1 ++ [it]) := by
  constructor
  · intro hn k1 x k2 hs hr hk
    exact hn k1 x (k2 ++ l2) (by rw [← List.cons_append, ← List.append_assoc, ← hs]; simp) hr hk
  · intro hn k1 x k2 hs hr hk
    rcases List.append_eq_append_iff.mp hs with ⟨a, ha, hb⟩ | ⟨a, ha, hb⟩
    · cases a with
      | nil =>
        simp only [List.append_nil, List.nil_append, List.cons.injEq] at ha hb
        exact hn k1 x [] (by rw [ha, hb.1]) hr hk
      | cons y a =>
        simp only [List.cons_append, List.cons.injEq] at hb
        exact absurd hm (hk it (by simp [ha, hb.1]))
    · cases a with
      | nil =>
        simp only [List.append_nil, List.nil_append, List.cons.injEq] at ha hb
        exact hn k1 x [] (by rw [ha, hb.1]) hr hk
      | cons y a =>
        simp only [List.cons_append, List.cons.injEq] at hb
        exact hn k1 x (a ++ [it]) (by simp [ha, hb.1]) hr hk

theorem NearIn.erase (hn : NearIn m h p (l1 ++ it :: l2)) (hm : ¬ it.Matches m h) :
    NearIn m h p (l1 ++ l2) := by
  intro k1 x k2 hs hr hk
  have hbehind : ∀ a, k1 = l1 ++ a → l2 = a ++ x :: k2 → p + itemsLen k1 + x.len < 2^31 := by
    rintro a rfl rfl
    have hfar := hn (l1 ++ it :: a) x k2 (by simp) hr fun y hy => by
      rcases List.mem_append.mp hy with hy | hy
      · exact hk y (by simp [hy])
      · rcases List.mem_cons.mp hy with rfl | hy
        · exact hm
        · exact hk y (by simp [hy])
    rw [itemsLen_append, itemsLen_cons] at hfar
    rw [itemsLen_append]
    omega
  rcases List.append_eq_append_iff.mp hs with ⟨a, ha, hb⟩ | ⟨a, ha, hb⟩
  · exact hbehind a ha hb
  · cases a with
    | nil => exact hbehind [] (by simpa using ha.symm) (by simpa using hb.symm)
    | cons y a =>
      simp only [List.cons_append, List.cons.injEq] at hb
      exact hn k1 x (a ++ it :: l2) (by simp [ha, hb.1]) hr hk

theorem NearIn.of_le {q : Nat} {l : List Item} (hn : NearIn m h p l) (hq : q ≤ p) :
    NearIn m h q l := by
  intro k1 x k2 hs hr hk
  have := hn k1 x k2 hs hr hk
  omega

end

section
variable {m : QFMetadata} {T : Table} {b : Nat} {e x : Entry} {t1 t2 : List Entry}

/-- What is decoded for a stored hash moves to the front when another item is taken out. -/
theorem Table.OwnFirst.near_erase (h : T.OwnFirst m) (hT : T b = t1 ++ e :: t2)
    (hx : x ∈ Function.update T b (t1 ++ t2) (m.bucket x.hash))
    (hn : Near m (T.contents m) x.hash) :
    Near m (Table.contents (Function.update T b (t1 ++ t2)) m) x.hash := by
  have hsplit := Represents.split_contents hT m
  have hle : ∀ c, Contents.lens (Function.update (T.contents m) b
      (t1.map (Entry.item m) ++ t2.map (Entry.item m))) c ≤ (T.contents m).lens c :=
    Contents.lens_remove_le hsplit
  rw [Table.contents_update, List.map_append]
  have hstart := start_le_of_le hle (m.bucket x.hash)
  refine NearIn.of_le ?_ hstart
  unfold Near at hn
  by_cases hb : m.bucket x.hash = b
  · rw [hb, Function.update_self] at hx ⊢
    rw [hb, hsplit] at hn
    have hown := h b
    rw [hT, List.pairwise_append, List.pairwise_cons] at hown
    have hself : (x.item m).Matches m x.hash := x.matches_self m
    rcases List.mem_append.mp hx with hx | hx
    · obtain ⟨u1, u2, rfl⟩ := List.append_of_mem hx
      simp only [List.map_append, List.map_cons, List.append_assoc, List.cons_append] at hn ⊢
      rw [nearIn_hit hself] at hn ⊢
      exact hn
    · -- the item that is taken out stands in front of one that it does not match
      exact hn.erase (hown.2.1.1 x hx)
  · rw [Function.update_of_ne hb]
    exact hn

end

def Session.Finds (s : Session) (e : Entry) (count flags : Nat) : Prop :=
  ∃ b t1 t2 hash len, s.table b = t1 ++ e :: t2 ∧ qfQuery s.qf e.key flags =
    some (count, some ⟨s.table.pos s.qf.metadata b t1, hash, len⟩)

/-- `qf_remove` of the key of an entry returns the number of its slots and takes it out. Every other
key for which no item from slot 2^31 on was decoded is still answered with its own item and
count. -/
def Session.Removes (s : Session) (b : Nat) (e : Entry) (out : RemoveOut) (flags : Nat) : Prop :=
  ∃ out' s', qfRemove s.qf e.key out flags =
      some ((((e.item s.qf.metadata).len : Int), out'), Session.qf s') ∧
    Represents s'.qf s'.table ∧
    s'.table = Function.update s.table b ((s.table b).filter fun x => x.key ≠ e.key) ∧
    ∀ c, ∀ x ∈ s.table c, x.key ≠ e.key →
      Near s.qf.metadata (s.table.contents s.qf.metadata) x.hash →
        s'.Finds x ((x.item s.qf.metadata).count s.qf.bits) flags

structure Session.MissSound (s : Session) (hash flags : Nat) : Prop where
  miss : ∀ x ∈ s.table (s.qf.metadata.bucket hash), ¬ x.Matches s.qf.metadata hash
  near : Near s.qf.metadata (s.table.contents s.qf.metadata) hash
  passes : Passes s.qf.metadata (s.table.contents s.qf.metadata) hash
  unlocked : hasFlag flags QF_NO_LOCK = true ∨ s.table (s.qf.metadata.bucket hash) ≠ []

instance (s : Session) (hash flags : Nat) : Decidable (s.MissSound hash flags) :=
  decidable_of_iff (_ ∧ _ ∧ _ ∧ _)
    ⟨fun h => ⟨h.1, h.2.1, h.2.2.1, h.2.2.2⟩, fun h => ⟨h.1, h.2, h.3, h.4⟩⟩

section
variable {isHash : Bool} {s : Session} {e : Entry} {b : Nat}

theorem QF.Keeps.near {qf qf' : QF} (hk : qf.Keeps qf') {A : Contents} {h : Nat}
    (hn : Near qf.metadata A h) : Near qf'.metadata A h := by
  intro k1 x k2 hs hr hno
  rw [hk.bucket] at hs ⊢
  rw [hk.remainder] at hr
  exact hn k1 x k2 hs hr fun y hy hm => hno y hy (hk.matches_iff.mpr hm)

theorem Session.Owned.removes (h : s.Owned isHash) (he : e ∈ s.table b) (out : RemoveOut)
    {flags : Nat} (hflag : hasFlag flags QF_KEY_IS_HASH = isHash) (hs : s.RemoveSound e.hash) :
    s.Removes b e out flags := by
  have hk : keyToHash s.qf e.key flags = e.hash := by
    rw [keyToHash_eq, hflag, (h.hashed b e he).2]
  obtain ⟨t1, t2, hT⟩ := List.append_of_mem he
  have hbk := (h.represents.valid b e he).bucket
  have hT2 : s.table (s.qf.metadata.bucket e.hash) = t1 ++ e :: t2 := by rw [hbk, hT]
  obtain ⟨out', qf', s', hcall, -, hown, rfl, hkeep, -, htable, -⟩ :=
    h.remove_own hflag hk hT2 hs out
  rw [hbk] at htable
  refine ⟨out', s', hcall, hown.represents, by rw [h.erase_eq hT, htable], fun c x hx hne hn => ?_⟩
  have hx' : x ∈ Function.update s.table b (t1 ++ t2) c := by
    by_cases hc : c = b
    · subst hc
      rw [hT] at hx
      rw [Function.update_self]
      simp only [List.mem_append, List.mem_cons] at hx ⊢
      rcases hx with hx | rfl | hx
      · exact .inl hx
      · exact absurd rfl hne
      · exact .inr hx
    · rw [Function.update_of_ne hc]
      exact hx
  have hxb := (h.represents.valid c x hx).bucket
  have hnear := h.first.near_erase hT (by rw [hxb]; exact hx') hn
  rw [← htable] at hx' hnear
  obtain ⟨u1, u2, hu⟩ := List.append_of_mem hx'
  have hq := hown.query hu hflag (by rw [hkeep.contents]; exact hkeep.near hnear)
  rw [hkeep.item, hkeep.bits] at hq
  exact ⟨c, u1, u2, _, _, hu, hq⟩

theorem Session.Owned.remove_miss (h : s.Owned isHash) {key flags : Nat} (out : RemoveOut)
    (hs : s.MissSound (keyToHash s.qf key flags) flags) :
    ∃ out', qfRemove s.qf key out flags = some ((0, out'), s.qf) := by
  refine h.represents.wf.qfRemove_miss h.represents.idle rfl hs.near hs.passes
    (not_matches_items hs.miss) (hs.unlocked.imp id fun hb => ?_) out
  rw [Table.contents]
  simpa using hb

end

/-- In the state that a session of sound calls reaches, every stored key whose removal is sound is
taken out with its own item and nothing else, and the removal of a hash that no item matches changes
nothing. -/
theorem removes_own_items {qf : QF} (h : qf.Zeroed) (h1 : qf.metadata.OneToOne) (isHash : Bool)
    (resize : QF → Nat → Option (Int × QF)) {actions : List Action}
    (ha : Runs.Along (fun a s => a.Legal isHash s ∧ a.Sound s) (Action.step resize) actions
      qf.session) :
    ∃ s, Runs.run (Action.step resize) actions qf.session = some s ∧ Represents s.qf s.table ∧
      (∀ key, key ∈ s.keys ↔ s.table.Stores key) ∧
      (∀ b, ∀ e ∈ s.table b, ∀ out flags, hasFlag flags QF_KEY_IS_HASH = isHash →
        s.RemoveSound e.hash → s.Removes b e out flags) ∧
      ∀ key out flags, s.MissSound (keyToHash s.qf key flags) flags →
        ∃ out', qfRemove s.qf key out flags = some ((0, out'), s.qf) := by
  have hstep : ∀ (a : Action) (s : Session), s.Owned isHash → (a.Legal isHash s ∧ a.Sound s) →
      ∃ s', a.step resize s = some s' ∧ s'.Owned isHash := by
    rintro a s hs ⟨hl, hsound⟩
    obtain ⟨s', h1, h2, -⟩ := hs.step resize a hl hsound
    exact ⟨s', h1, h2⟩
  obtain ⟨s, hrun, hs⟩ := Runs.invariant hstep (h.owned h1 isHash) ha
  exact ⟨s, hrun, hs.represents, hs.stores, fun b e he out flags hflag hsound =>
    hs.removes he out hflag hsound, fun key out flags hsound => hs.remove_miss out hsound⟩

/-! 64 slots of 2 bits. -/

def churnFilter : QF := QF.zero (QFMetadata.init 6 2 144)

theorem churnFilter_zeroed : churnFilter.Zeroed :=
  QF.zeroed_init (Geometry.init (by decide) (by decide) (by decide) (by decide) (by decide))

theorem churnFilter_oneToOne : churnFilter.metadata.OneToOne :=
  ⟨fun _ h => h, fun _ _ _ _ h => h⟩

def churnSession : List Action :=
  [insertHash 0 1, insertHash 256 1, insertHash 512 1, removeHash 512, insertHash 64 2]

theorem removes_own_items_pair :
    ∃ s, Runs.run (Action.step noResize) churnSession churnFilter.session = some s ∧
      s.table 0 = [⟨256, 256, 1, []⟩, ⟨0, 0, 1, []⟩] ∧
      s.Removes 0 ⟨0, 0, 1, []⟩ ⟨0, 0⟩ QF_KEY_IS_HASH ∧
      s.Removes 0 ⟨256, 256, 1, []⟩ ⟨0, 0⟩ QF_KEY_IS_HASH ∧
      ∃ out', qfRemove s.qf 512 ⟨0, 0⟩ QF_KEY_IS_HASH = some ((0, out'), s.qf) := by
  obtain ⟨s, hrun, -, -, hremoves, hmiss⟩ := removes_own_items churnFilter_zeroed
    churnFilter_oneToOne true noResize (show Runs.Along _ _ churnSession _ by decide +kernel)
  have hfacts : ∀ s ∈ Runs.run (Action.step noResize) churnSession churnFilter.session,
      s.table 0 = [⟨256, 256, 1, []⟩, ⟨0, 0, 1, []⟩] ∧ s.RemoveSound 0 ∧ s.RemoveSound 256 ∧
        s.MissSound (keyToHash s.qf 512 QF_KEY_IS_HASH) QF_KEY_IS_HASH := by decide +kernel
  obtain ⟨htable, hsound0, hsound256, hsound⟩ := hfacts s hrun
  have hitems : ∀ e ∈ s.table 0, s.RemoveSound e.hash → s.Removes 0 e ⟨0, 0⟩ QF_KEY_IS_HASH :=
    fun e he => hremoves 0 e he ⟨0, 0⟩ QF_KEY_IS_HASH (by decide)
  rw [htable] at hitems
  exact ⟨s, hrun, htable, hitems ⟨0, 0, 1, []⟩ (by simp) hsound0,
    hitems ⟨256, 256, 1, []⟩ (by simp) hsound256, hmiss 512 ⟨0, 0⟩ QF_KEY_IS_HASH hsound⟩

/-- The item of hash 0 has a counter slot. The search for hash 1 steps over its item, and the
removal returns 0. -/
theorem removal_steps_over : churnFilter.Zeroed ∧ churnFilter.metadata.OneToOne ∧
    Runs.Along (fun a s => a.Legal true s) (Action.step noResize) [insertHash 0 2, insertHash 1 1]
      churnFilter.session ∧
    ∃ s out' qf', Runs.run (Action.step noResize) [insertHash 0 2, insertHash 1 1]
        churnFilter.session = some s ∧ 1 ∈ s.keys ∧
      qfRemove s.qf 1 ⟨0, 0⟩ QF_KEY_IS_HASH = some ((0, out'), qf') ∧
      (∃ hit, qfQuery qf' 1 QF_KEY_IS_HASH = some (1, some hit)) := by
  have hsome : (Runs.run (Action.step noResize) [insertHash 0 2, insertHash 1 1]
      churnFilter.session).isSome := by decide +kernel
  have hall : ∀ s ∈ Runs.run (Action.step noResize) [insertHash 0 2, insertHash 1 1]
      churnFilter.session, s.keys = [1, 0] ∧
        (qfRemove s.qf 1 ⟨0, 0⟩ QF_KEY_IS_HASH).isSome ∧
        ∀ r ∈ qfRemove s.qf 1 ⟨0, 0⟩ QF_KEY_IS_HASH, r.1.1 = 0 ∧
          qfQuery r.2 1 QF_KEY_IS_HASH = some (1, some ⟨2, 1, 8⟩) := by decide +kernel
  obtain ⟨s, hs⟩ := Option.isSome_iff_exists.mp hsome
  obtain ⟨hkeys, hcall, hr⟩ := hall s hs
  obtain ⟨⟨⟨ret, out'⟩, qf'⟩, hq⟩ := Option.isSome_iff_exists.mp hcall
  obtain ⟨hret, hquery⟩ := hr _ hq
  obtain rfl : ret = 0 := hret
  exact ⟨churnFilter_zeroed, churnFilter_oneToOne, by decide +kernel, s, out', qf', hs,
    by rw [hkeys]; exact List.mem_cons_self, hq, _, hquery⟩

end AdaptiveQF
