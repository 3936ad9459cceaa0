import AdaptiveQF.Lib.Chain
import AdaptiveQF.Lib.Runs
import AdaptiveQF.Word

/-! ll_table: a hash table of the families of keys that share quotient and remainder. A bucket
chains its families in ascending order, a family chains its keys by their rank. -/
namespace AdaptiveQF

structure LlList where
  family : Nat
  head : Chain Nat
deriving DecidableEq

structure LlTable where
  hash : Nat → Nat
  size : Nat
  buckets : Nat → Chain LlList
  numKeys : Nat
  numFamilies : Nat

def llTableInit (hash : Nat → Nat) (size : Nat) : LlTable where
  hash := hash
  size := size
  buckets _ := .null
  numKeys := 0
  numFamilies := 0

namespace LlTable

def index (table : LlTable) (family : Nat) : Nat := table.hash family % table.size

/-- The new node of a key in the list of its family. An `int` counts the nodes in front of it. -/
def insertKey (rank key : Nat) (l : LlList) : Option LlList :=
  if rank = 0 then some { l with head := .node key l.head }
  else if rank > intMax then none
  else (l.head.insertAfter key (rank-1)).map fun head => { l with head := head }

/-- The list of the family, and how many families are counted. The head of a list that is made for a
bucket with other families is not set, nor is `next` where it becomes the last one. -/
def insertFamily (family rank key : Nat) : Chain LlList → Option (Chain LlList × Nat)
  | .wild => none
  | .null => (insertKey rank key ⟨family, .wild⟩).map fun l => (.node l .wild, 1)
  | .node l next =>
    if l.family ≥ family then
      if l.family = family then (insertKey rank key l).map fun l => (.node l next, 0)
      else (insertKey rank key ⟨family, .wild⟩).map fun new => (.node new (.node l next), 1)
    else (insertFamily family rank key next).map fun r => (.node l r.1, r.2)

def insertBucket (family rank key : Nat) : Chain LlList → Option (Chain LlList × Nat)
  | .null => (insertKey rank key ⟨family, .null⟩).map fun l => (.node l .null, 0)
  | c => insertFamily family rank key c

def queryBucket (family rank : Nat) (c : Chain LlList) : Nat → Option (Option Nat)
  | 0 => none
  | fuel+1 =>
    match c with
    | .null => some none
    | .wild => none
    | .node l _ =>
      if l.family ≥ family then
        if l.family = family then (l.head.get rank).map some else some none
      else queryBucket family rank c fuel

end LlTable

def llTableInsert (table : LlTable) (family rank key : Nat) : Option LlTable :=
  (LlTable.insertBucket family rank key (table.buckets (table.index family))).map fun r =>
    { table with
      buckets := fun i => if i = table.index family then r.1 else table.buckets i
      numKeys := add64 table.numKeys 1
      numFamilies := add64 table.numFamilies r.2 }

def llTableQuery (table : LlTable) (family rank fuel : Nat) : Option (Option Nat) :=
  LlTable.queryBucket family rank (table.buckets (table.index family)) fuel

/-! The lists of keys. -/

structure LlInsert where
  family : Nat
  rank : Nat
  key : Nat
deriving DecidableEq

namespace LlInsert

def step (op : LlInsert) (table : LlTable) : Option LlTable :=
  llTableInsert table op.family op.rank op.key

def insertInto (m : Nat → List Nat) (op : LlInsert) : Nat → List Nat :=
  Function.update m op.family ((m op.family).insertIdx op.rank op.key)

end LlInsert

def familyKeys (ops : List LlInsert) : Nat → List Nat := ops.foldl LlInsert.insertInto fun _ => []

def LegalRanks : List LlInsert → Prop :=
  Runs.Each fun before op => op.rank ≤ (familyKeys before op.family).length

def arrivals (hash : Nat → Nat) (size : Nat) (ops : List LlInsert) (i : Nat) : List Nat :=
  (ops.map LlInsert.family).filter fun f => hash f % size = i

/-- The insertions return, and a query ends with the key at the rank, or without one for a family
that was never inserted. -/
def LlMaps (hash : Nat → Nat) (size : Nat) (ops : List LlInsert) (family rank : Nat) : Prop :=
  ∃ table, Runs.run LlInsert.step ops (llTableInit hash size) = some table ∧
    (rank < (familyKeys ops family).length →
      ∃ fuel, llTableQuery table family rank fuel = some (familyKeys ops family)[rank]?) ∧
    ((∀ op ∈ ops, op.family ≠ family) → ∃ fuel, llTableQuery table family rank fuel = some none)

def FirstLargest (l : List Nat) : Prop := ∀ first ∈ l.head?, ∀ f ∈ l, f ≤ first

/-- The rank is an `int`, and a family that goes to the end of its bucket finds the end set. -/
def LlInsertable (hash : Nat → Nat) (size : Nat) (before : List LlInsert) (op : LlInsert) : Prop :=
  op.rank ≤ intMax ∧
    ((∀ f ∈ arrivals hash size before (hash op.family % size), f < op.family) →
      FirstLargest (arrivals hash size before (hash op.family % size)))

/-! One bucket. -/

section
variable {c c' : Chain LlList} {l : LlList} {f rank key n : Nat} {K : Nat → List Nat}

def PutFamily (f : Nat) (keys : List Nat) (c c' : Chain LlList) : Prop :=
  ∃ l1 mid l2 new, c.toList = l1 ++ mid ++ l2 ∧ (∀ l ∈ l1, l.family < f) ∧
    (∀ l ∈ mid, l.family = f) ∧ (∀ l ∈ l2, f < l.family) ∧ c'.toList = l1 ++ new :: l2 ∧
      new.family = f ∧ new.head.toList = keys

namespace LlTable

theorem insertKey_eq (hr : rank ≤ l.head.toList.length) (hint : rank ≤ intMax) :
    ∃ l', insertKey rank key l = some l' ∧ l'.family = l.family ∧
      l'.head.toList = l.head.toList.insertIdx rank key := by
  unfold insertKey
  cases rank with
  | zero => exact ⟨_, rfl, rfl, rfl⟩
  | succ rank =>
    obtain ⟨head, h1, h2⟩ :=
      Chain.insertAfter_eq (a := key) (by omega : rank < l.head.toList.length)
    refine ⟨{ l with head := head }, ?_, rfl, h2⟩
    rw [if_neg (by omega), if_neg (by omega), Nat.add_sub_cancel, h1]
    rfl

theorem insertKey_none (h : rank > intMax) : insertKey rank key l = none := by
  unfold insertKey
  rw [if_neg (by omega), if_pos h]

theorem insertFamily_eq (hs : c.toList.Pairwise fun x y => x.family < y.family)
    (hk : ∀ l ∈ c.toList, l.head.toList = K l.family)
    (hnew : (∀ l ∈ c.toList, l.family ≠ f) → K f = []) (hr : rank ≤ (K f).length)
    (hint : rank ≤ intMax) (hopen : c.Closed ∨ ∃ l ∈ c.toList, f ≤ l.family) :
    ∃ c' n, insertFamily f rank key c = some (c', n) ∧
      PutFamily f ((K f).insertIdx rank key) c c' ∧
      (c'.Closed ↔ c.Closed ∧ ∃ l ∈ c.toList, f ≤ l.family) := by
  have hfresh : (∀ l ∈ c.toList, l.family ≠ f) → ∃ new, insertKey rank key ⟨f, .wild⟩ = some new ∧
      new.family = f ∧ new.head.toList = (K f).insertIdx rank key := by
    intro hno
    have hnil := hnew hno
    rw [hnil] at hr ⊢
    exact insertKey_eq hr hint
  induction c with
  | null =>
    obtain ⟨new, h1, h2, h3⟩ := hfresh (by simp)
    refine ⟨.node new .wild, 1, by rw [insertFamily, h1]; rfl, ?_, by simp [Chain.Closed]⟩
    exact ⟨[], [], [], new, rfl, by simp, by simp, by simp, rfl, h2, h3⟩
  | wild => simp [Chain.Closed] at hopen
  | node l next ih =>
    obtain ⟨hl, hnext⟩ := List.pairwise_cons.mp hs
    rcases Nat.lt_trichotomy f l.family with hlt | rfl | hgt
    · have hall : ∀ x ∈ (Chain.node l next).toList, f < x.family := by
        intro x hx
        rcases List.mem_cons.mp hx with rfl | hx
        · exact hlt
        · exact hlt.trans (hl x hx)
      obtain ⟨new, h1, h2, h3⟩ := hfresh fun x hx => (hall x hx).ne'
      refine ⟨.node new (.node l next), 1, ?_, ?_, ?_⟩
      · rw [insertFamily, if_pos hlt.le, if_neg hlt.ne', h1]
        rfl
      · exact ⟨[], [], l :: next.toList, new, rfl, by simp, by simp, hall, rfl, h2, h3⟩
      · exact (and_iff_left ⟨l, List.mem_cons_self, hlt.le⟩).symm
    · have hkl := hk l List.mem_cons_self
      obtain ⟨new, h1, h2, h3⟩ : ∃ new, insertKey rank key l = some new ∧ new.family = l.family ∧
          new.head.toList = l.head.toList.insertIdx rank key :=
        insertKey_eq (by rwa [hkl]) hint
      rw [hkl] at h3
      refine ⟨.node new next, 0, ?_, ?_, ?_⟩
      · rw [insertFamily, if_pos (Nat.le_refl _), if_pos rfl, h1]
        rfl
      · exact ⟨[], [l], next.toList, new, rfl, by simp, by simp, hl, rfl, h2, h3⟩
      · exact (and_iff_left ⟨l, List.mem_cons_self, Nat.le_refl _⟩).symm
    · have hmem : (∃ x ∈ (Chain.node l next).toList, f ≤ x.family) ↔
          ∃ x ∈ next.toList, f ≤ x.family := by
        simp only [Chain.toList_node, List.exists_mem_cons_iff]
        exact or_iff_right (by omega)
      have hno : (∀ x ∈ next.toList, x.family ≠ f) →
          ∀ x ∈ (Chain.node l next).toList, x.family ≠ f := by
        intro hno x hx
        rcases List.mem_cons.mp hx with rfl | hx
        · exact hgt.ne
        · exact hno x hx
      obtain ⟨c', n, h1, h2, h3⟩ := ih hnext (fun x hx => hk x (List.mem_cons_of_mem l hx))
        (fun h => hnew (hno h)) (by rwa [hmem] at hopen) fun h => hfresh (hno h)
      obtain ⟨l1, mid, l2, new, e1, e2, e3, e4, e5, e6⟩ := h2
      refine ⟨.node l c', n, ?_, ?_, ?_⟩
      · rw [insertFamily, if_neg (by omega), h1]
        rfl
      · refine ⟨l :: l1, mid, l2, new, by simp [e1], fun x hx => ?_, e3, e4, by simp [e5], e6⟩
        rcases List.mem_cons.mp hx with rfl | hx
        · exact hgt
        · exact e2 x hx
      · rw [hmem]
        exact h3

theorem insertFamily_none (h : rank > intMax ∨ ¬ c.Closed ∧ ∀ l ∈ c.toList, l.family < f) :
    insertFamily f rank key c = none := by
  induction c with
  | null =>
    rcases h with h | h
    · rw [insertFamily, insertKey_none h]
      rfl
    · exact absurd trivial h.1
  | wild => rfl
  | node l next ih =>
    rw [insertFamily]
    split
    · next hge =>
      rcases h with h | h
      · rw [insertKey_none h, insertKey_none h]
        split <;> rfl
      · have := h.2 l List.mem_cons_self
        omega
    · rw [ih (h.imp id fun h => ⟨h.1, fun x hx => h.2 x (List.mem_cons_of_mem l hx)⟩)]
      rfl

end LlTable

end

/-! The whole table. -/

section
variable {hash : Nat → Nat} {size i : Nat} {ops : List LlInsert} {op : LlInsert}
  {c c' : Chain LlList}

theorem familyKeys_concat (ops : List LlInsert) (op : LlInsert) :
    familyKeys (ops ++ [op]) = LlInsert.insertInto (familyKeys ops) op := by
  rw [familyKeys, List.foldl_append]
  rfl

theorem arrivals_concat (hash : Nat → Nat) (size : Nat) (ops : List LlInsert) (op : LlInsert)
    (i : Nat) :
    arrivals hash size (ops ++ [op]) i =
      arrivals hash size ops i ++ if hash op.family % size = i then [op.family] else [] := by
  simp [arrivals, List.filter_append, List.filter_cons]

theorem mem_arrivals {f : Nat} : f ∈ arrivals hash size ops i ↔
    (∃ op ∈ ops, op.family = f) ∧ hash f % size = i := by
  simp [arrivals]

theorem familyKeys_eq_nil {f : Nat} (h : ∀ op ∈ ops, op.family ≠ f) : familyKeys ops f = [] := by
  induction ops using List.reverseRecOn with
  | nil => rfl
  | append_singleton ops op ih =>
    rw [familyKeys_concat, LlInsert.insertInto, Function.update_of_ne (h op (by simp)).symm]
    exact ih fun op2 h2 => h op2 (by simp [h2])

structure Bucket (hash : Nat → Nat) (size : Nat) (ops : List LlInsert) (i : Nat)
    (c : Chain LlList) :
    Prop where
  sorted : c.toList.Pairwise fun x y => x.family < y.family
  mem : ∀ f, (∃ l ∈ c.toList, l.family = f) ↔ f ∈ arrivals hash size ops i
  keys : ∀ l ∈ c.toList, l.head.toList = familyKeys ops l.family
  closed : c.Closed ↔ FirstLargest (arrivals hash size ops i)
  set : c = .null ∨ c.toList ≠ []

structure Stores (hash : Nat → Nat) (size : Nat) (ops : List LlInsert) (table : LlTable) :
    Prop where
  hash_eq : table.hash = hash
  size_eq : table.size = size
  buckets : ∀ i, Bucket hash size ops i (table.buckets i)

theorem llTableInit_stores (hash : Nat → Nat) (size : Nat) :
    Stores hash size [] (llTableInit hash size) := by
  refine ⟨rfl, rfl, fun i => ⟨.nil, fun f => ?_, fun l hl => ?_, ?_, .inl rfl⟩⟩
  · simp [llTableInit, arrivals]
  · simp [llTableInit] at hl
  · simp [llTableInit, arrivals, Chain.Closed, FirstLargest]

theorem Bucket.other (h : Bucket hash size ops i c) (hi : hash op.family % size ≠ i) :
    Bucket hash size (ops ++ [op]) i c := by
  have harr : arrivals hash size (ops ++ [op]) i = arrivals hash size ops i := by
    rw [arrivals_concat, if_neg hi, List.append_nil]
  refine ⟨h.sorted, by rw [harr]; exact h.mem, fun l hl => ?_, by rw [harr]; exact h.closed, h.set⟩
  have hne : l.family ≠ op.family := by
    rintro he
    exact hi (he ▸ (mem_arrivals.mp ((h.mem l.family).mp ⟨l, hl, rfl⟩)).2)
  rw [familyKeys_concat, LlInsert.insertInto, Function.update_of_ne hne]
  exact h.keys l hl

theorem firstLargest_concat {l : List Nat} {f : Nat} (hl : l ≠ []) :
    FirstLargest (l ++ [f]) ↔ FirstLargest l ∧ ∃ g ∈ l, f ≤ g := by
  obtain ⟨a, l, rfl⟩ := List.exists_cons_of_ne_nil hl
  simp only [FirstLargest, List.cons_append, List.head?_cons, Option.mem_some_iff, forall_eq']
  constructor
  · intro h
    exact ⟨fun g hg => h g (List.mem_append_left [f] hg), a, List.mem_cons_self, h f (by simp)⟩
  · rintro ⟨h, g, hg, hf⟩ x hx
    rcases List.mem_append.mp (show x ∈ (a :: l) ++ [f] from hx) with hx | hx
    · exact h x hx
    · rw [List.mem_singleton.mp hx]
      exact hf.trans (h g hg)

theorem Bucket.put (h : Bucket hash size ops i c) (hi : hash op.family % size = i)
    (hput : PutFamily op.family ((familyKeys ops op.family).insertIdx op.rank op.key) c c')
    (hclosed : c'.Closed ↔ FirstLargest (arrivals hash size ops i ++ [op.family])) :
    Bucket hash size (ops ++ [op]) i c' := by
  obtain ⟨l1, mid, l2, new, e, h1, h2, h3, e', hf, hkeys⟩ := hput
  have harr : arrivals hash size (ops ++ [op]) i = arrivals hash size ops i ++ [op.family] := by
    rw [arrivals_concat, if_pos hi]
  have hold : ∀ l, l ∈ l1 ∨ l ∈ l2 → l ∈ c.toList ∧ l.family ≠ op.family := by
    intro l hl
    rw [e]
    rcases hl with hl | hl
    · exact ⟨by simp [hl], (h1 l hl).ne⟩
    · exact ⟨by simp [hl], (h3 l hl).ne'⟩
  have hsorted := h.sorted
  rw [e, List.append_assoc, List.pairwise_append, List.pairwise_append] at hsorted
  refine ⟨?_, fun f => ?_, fun l hl => ?_, by rw [harr]; exact hclosed, .inr (by simp [e'])⟩
  · rw [e', List.pairwise_append, List.pairwise_cons]
    refine ⟨hsorted.1, ⟨fun l hl => hf ▸ h3 l hl, hsorted.2.1.2.1⟩, fun x hx y hy => ?_⟩
    rcases List.mem_cons.mp hy with rfl | hy
    · exact hf ▸ h1 x hx
    · exact hsorted.2.2 x hx y (List.mem_append_right mid hy)
  · rw [harr, List.mem_append, ← h.mem, List.mem_singleton]
    constructor
    · rintro ⟨l, hl, rfl⟩
      rw [e'] at hl
      rcases List.mem_append.mp hl with hl | hl
      · exact .inl ⟨l, (hold l (.inl hl)).1, rfl⟩
      · rcases List.mem_cons.mp hl with rfl | hl
        · exact .inr hf
        · exact .inl ⟨l, (hold l (.inr hl)).1, rfl⟩
    · rintro (⟨l, hl, rfl⟩ | rfl)
      · rw [e] at hl
        rcases List.mem_append.mp hl with hl | hl
        · rcases List.mem_append.mp hl with hl | hl
          · exact ⟨l, by simp [e', hl], rfl⟩
          · exact ⟨new, by simp [e'], hf.trans (h2 l hl).symm⟩
        · exact ⟨l, by simp [e', hl], rfl⟩
      · exact ⟨new, by simp [e'], hf⟩
  · rw [familyKeys_concat, LlInsert.insertInto]
    have hcase : l = new ∨ l ∈ l1 ∨ l ∈ l2 := by
      rw [e'] at hl
      rcases List.mem_append.mp hl with hl | hl
      · exact .inr (.inl hl)
      · exact (List.mem_cons.mp hl).imp id .inr
    rcases hcase with rfl | hl
    · rw [hf, Function.update_self]
      exact hkeys
    · obtain ⟨hmem, hne⟩ := hold l hl
      rw [Function.update_of_ne hne]
      exact h.keys l hmem

theorem Bucket.insertBucket_eq (h : Bucket hash size ops i c) (hi : hash op.family % size = i)
    (hr : op.rank ≤ (familyKeys ops op.family).length) (hop : LlInsertable hash size ops op) :
    ∃ c' n, LlTable.insertBucket op.family op.rank op.key c = some (c', n) ∧
      Bucket hash size (ops ++ [op]) i c' := by
  obtain ⟨hint, hopen⟩ := hop
  rw [hi] at hopen
  have hnew : (∀ l ∈ c.toList, l.family ≠ op.family) → familyKeys ops op.family = [] := by
    intro hno
    apply familyKeys_eq_nil
    intro op2 h2 he
    obtain ⟨l, hl, hlf⟩ := (h.mem op.family).mpr (mem_arrivals.mpr ⟨⟨op2, h2, he⟩, hi⟩)
    exact hno l hl hlf
  rcases h.set with rfl | hne
  · have hnil : arrivals hash size ops i = [] := by
      rw [List.eq_nil_iff_forall_not_mem]
      intro f hf
      obtain ⟨l, hl, -⟩ := (h.mem f).mpr hf
      simp at hl
    have hkeys := hnew (by simp)
    rw [hkeys] at hr
    obtain ⟨new, h1, h2, h3⟩ :
        ∃ new, LlTable.insertKey op.rank op.key ⟨op.family, .null⟩ = some new ∧
        new.family = op.family ∧
          new.head.toList = (Chain.null : Chain Nat).toList.insertIdx op.rank op.key :=
      LlTable.insertKey_eq hr hint
    refine ⟨.node new .null, 0, by rw [LlTable.insertBucket, h1]; rfl, h.put hi ?_ ?_⟩
    · exact ⟨[], [], [], new, rfl, by simp, by simp, by simp, rfl, h2, by rw [hkeys]; exact h3⟩
    · simp [hnil, Chain.Closed, FirstLargest]
  · have hex : c.Closed ∨ ∃ l ∈ c.toList, op.family ≤ l.family := by
      by_cases hall : ∃ l ∈ c.toList, op.family ≤ l.family
      · exact .inr hall
      · refine .inl (h.closed.mpr (hopen fun f hf => ?_))
        obtain ⟨l, hl, rfl⟩ := (h.mem f).mpr hf
        by_contra hc
        exact hall ⟨l, hl, by omega⟩
    obtain ⟨c', n, h1, h2, h3⟩ : ∃ c' n,
        LlTable.insertFamily op.family op.rank op.key c = some (c', n) ∧
        PutFamily op.family ((familyKeys ops op.family).insertIdx op.rank op.key) c c' ∧
        (c'.Closed ↔ c.Closed ∧ ∃ l ∈ c.toList, op.family ≤ l.family) :=
      LlTable.insertFamily_eq h.sorted h.keys hnew hr hint hex
    have hbucket : LlTable.insertBucket op.family op.rank op.key c =
        LlTable.insertFamily op.family op.rank op.key c := by
      cases c with
      | null => simp at hne
      | wild => rfl
      | node l next => rfl
    have harr : arrivals hash size ops i ≠ [] := by
      obtain ⟨l, c2, hl⟩ := List.exists_cons_of_ne_nil hne
      exact List.ne_nil_of_mem ((h.mem l.family).mp ⟨l, by simp [hl], rfl⟩)
    refine ⟨c', n, hbucket.trans h1, h.put hi h2 ?_⟩
    rw [h3, firstLargest_concat harr, h.closed]
    refine and_congr_right fun _ => ⟨?_, ?_⟩
    · rintro ⟨l, hl, hle⟩
      exact ⟨l.family, (h.mem _).mp ⟨l, hl, rfl⟩, hle⟩
    · rintro ⟨f, hf, hle⟩
      obtain ⟨l, hl, rfl⟩ := (h.mem f).mpr hf
      exact ⟨l, hl, hle⟩

theorem Bucket.insertBucket_none (h : Bucket hash size ops i c) (hi : hash op.family % size = i)
    (hop : ¬ LlInsertable hash size ops op) :
    LlTable.insertBucket op.family op.rank op.key c = none := by
  have hcase : op.rank > intMax ∨ ¬ c.Closed ∧ ∀ l ∈ c.toList, l.family < op.family := by
    by_cases hint : op.rank ≤ intMax
    · right
      rw [LlInsertable, hi] at hop
      have hno := not_and.mp hop hint
      rw [Classical.not_imp, ← h.closed] at hno
      exact ⟨hno.2, fun l hl => hno.1 _ ((h.mem _).mp ⟨l, hl, rfl⟩)⟩
    · exact .inl (by omega)
  cases c with
  | null =>
    rcases hcase with hc | hc
    · rw [LlTable.insertBucket, LlTable.insertKey_none hc]
      rfl
    · exact absurd trivial hc.1
  | wild => rfl
  | node l next => exact LlTable.insertFamily_none hcase

theorem Stores.step {table : LlTable} (h : Stores hash size ops table)
    (hr : op.rank ≤ (familyKeys ops op.family).length) :
    (LlInsertable hash size ops op ∧
      ∃ table', op.step table = some table' ∧ Stores hash size (ops ++ [op]) table') ∨
    (¬ LlInsertable hash size ops op ∧ op.step table = none) := by
  have hindex : table.index op.family = hash op.family % size := by
    rw [LlTable.index, h.hash_eq, h.size_eq]
  have hb := h.buckets (hash op.family % size)
  by_cases hop : LlInsertable hash size ops op
  · obtain ⟨c', n, h1, h2⟩ := hb.insertBucket_eq rfl hr hop
    obtain ⟨table', htable⟩ : ∃ table', op.step table = some table' ∧ table' = { table with
        buckets := fun i => if i = hash op.family % size then c' else table.buckets i
        numKeys := add64 table.numKeys 1
        numFamilies := add64 table.numFamilies n } :=
      ⟨_, by rw [LlInsert.step, llTableInsert, hindex, h1]; rfl, rfl⟩
    refine .inl ⟨hop, table', htable.1, ?_⟩
    rw [htable.2]
    refine ⟨h.hash_eq, h.size_eq, fun i => ?_⟩
    by_cases hi : i = hash op.family % size
    · rw [hi]
      simp only [if_true]
      exact h2
    · simp only [if_neg hi]
      exact (h.buckets i).other (Ne.symm hi)
  · exact .inr ⟨hop,
        by rw [LlInsert.step, llTableInsert, hindex, hb.insertBucket_none rfl hop]; rfl⟩

theorem run_stores (hash : Nat → Nat) (size : Nat) (hl : LegalRanks ops) :
    (Runs.Each (LlInsertable hash size) ops ∧ ∃ table,
      Runs.run LlInsert.step ops (llTableInit hash size) = some table ∧
        Stores hash size ops table) ∨
    (¬ Runs.Each (LlInsertable hash size) ops ∧
      Runs.run LlInsert.step ops (llTableInit hash size) = none) := by
  induction ops using List.reverseRecOn with
  | nil => exact .inl ⟨Runs.each_nil, _, rfl, llTableInit_stores hash size⟩
  | append_singleton ops op ih =>
    obtain ⟨hl, hr⟩ := Runs.each_concat.mp hl
    rw [Runs.each_concat, Runs.run_append]
    rcases ih hl with ⟨hall, table, hrun, hst⟩ | ⟨hno, hrun⟩
    · rw [hrun, Option.bind_some]
      rcases hst.step hr with ⟨hop, table', h1, h2⟩ | ⟨hop, h1⟩
      · exact .inl ⟨⟨hall, hop⟩, table', by rw [Runs.run_cons h1]; rfl, h2⟩
      · exact .inr ⟨fun h => hop h.2, by rw [Runs.run, h1]; rfl⟩
    · exact .inr ⟨fun h => hno h.1, by rw [hrun]; rfl⟩

/-- A bucket whose first family is smaller is never left. -/
theorem queryBucket_none {l : LlList} {next : Chain LlList} {f : Nat} (h : l.family < f)
    (rank fuel : Nat) : LlTable.queryBucket f rank (.node l next) fuel = none := by
  induction fuel with
  | zero => rfl
  | succ fuel ih => rw [LlTable.queryBucket, if_neg (by omega), ih]

theorem Bucket.queryBucket_eq (h : Bucket hash size ops i c) {f : Nat} (hi : hash f % size = i)
    (hle : ∀ g ∈ arrivals hash size ops i, f ≤ g) (rank : Nat) :
    (rank < (familyKeys ops f).length →
      LlTable.queryBucket f rank c 1 = some (familyKeys ops f)[rank]?) ∧
    ((∀ op ∈ ops, op.family ≠ f) → LlTable.queryBucket f rank c 1 = some none) := by
  have hin : rank < (familyKeys ops f).length → f ∈ arrivals hash size ops i := by
    intro hlt
    by_contra hc
    rw [familyKeys_eq_nil fun op hop he => hc (mem_arrivals.mpr ⟨⟨op, hop, he⟩, hi⟩)] at hlt
    simp at hlt
  rcases h.set with rfl | hne
  · refine ⟨fun hlt => ?_, fun _ => rfl⟩
    obtain ⟨l, hl, -⟩ := (h.mem f).mpr (hin hlt)
    simp at hl
  · cases c with
    | null => simp at hne
    | wild => simp at hne
    | node l next =>
      have hl : f ≤ l.family := hle _ ((h.mem _).mp ⟨l, List.mem_cons_self, rfl⟩)
      rw [LlTable.queryBucket, if_pos hl]
      constructor
      · intro hlt
        have hfirst : l.family = f := by
          obtain ⟨l2, hl2, hf⟩ := (h.mem f).mpr (hin hlt)
          rcases List.mem_cons.mp hl2 with rfl | hl2
          · exact hf
          · have := (List.pairwise_cons.mp h.sorted).1 l2 hl2
            omega
        rw [if_pos hfirst, Chain.get_eq, h.keys l List.mem_cons_self, hfirst,
          List.getElem?_eq_getElem hlt]
        rfl
      · intro hno
        rw [if_neg]
        intro hf
        obtain ⟨⟨op, hop, he⟩, -⟩ := mem_arrivals.mp ((h.mem f).mp ⟨l, List.mem_cons_self, hf⟩)
        exact hno op hop he

/-- The table is the map if and only if no insertion follows a pointer that is not set, and the
family that is asked for is the smallest one of its bucket. -/
theorem ll_table_maps_iff (hash : Nat → Nat) (size : Nat) {family rank : Nat} (hl : LegalRanks ops)
    (hq : rank < (familyKeys ops family).length ∨ ∀ op ∈ ops, op.family ≠ family) :
    LlMaps hash size ops family rank ↔ Runs.Each (LlInsertable hash size) ops ∧
      ∀ f ∈ arrivals hash size ops (hash family % size), family ≤ f := by
  rcases run_stores hash size hl with ⟨hall, table, hrun, hst⟩ | ⟨hno, hrun⟩
  · have hb := hst.buckets (hash family % size)
    have hquery : ∀ fuel, llTableQuery table family rank fuel =
        LlTable.queryBucket family rank (table.buckets (hash family % size)) fuel := by
      intro fuel
      rw [llTableQuery, LlTable.index, hst.hash_eq, hst.size_eq]
    rw [and_iff_right hall]
    constructor
    · rintro ⟨table2, hrun2, hin, hout⟩ f hf
      obtain rfl : table = table2 := Option.some.inj (hrun.symm.trans hrun2)
      obtain ⟨l, hl, rfl⟩ := (hb.mem f).mpr hf
      by_contra hlt
      have hend : ∃ fuel r, llTableQuery table family rank fuel = some r := by
        rcases hq with hq | hq
        · obtain ⟨fuel, h⟩ := hin hq
          rw [List.getElem?_eq_getElem hq] at h
          exact ⟨fuel, _, h⟩
        · obtain ⟨fuel, h⟩ := hout hq
          exact ⟨fuel, _, h⟩
      obtain ⟨fuel, r, h⟩ := hend
      rw [hquery] at h
      cases hc : table.buckets (hash family % size) with
      | null =>
        rw [hc] at hl
        simp at hl
      | wild =>
        rw [hc] at hl
        simp at hl
      | node first next =>
        have hfirst : first.family ≤ l.family := by
          have hs := hb.sorted
          rw [hc] at hl hs
          rcases List.mem_cons.mp hl with rfl | hl
          · exact Nat.le_refl _
          · exact ((List.pairwise_cons.mp hs).1 l hl).le
        rw [hc, queryBucket_none (by omega)] at h
        exact absurd h (Option.some_ne_none _).symm
    · intro hle
      obtain ⟨h1, h2⟩ := hb.queryBucket_eq rfl hle rank
      refine ⟨table, hrun, fun hlt => ⟨1, ?_⟩, fun hnew => ⟨1, ?_⟩⟩
      · rw [hquery, h1 hlt, List.getElem?_eq_getElem hlt]
      · rw [hquery, h2 hnew]
  · constructor
    · rintro ⟨table, hrun2, -⟩
      rw [hrun] at hrun2
      exact absurd hrun2 (Option.some_ne_none _).symm
    · exact fun h => absurd h.1 hno

theorem ll_table_maps_two : LlMaps id 4 [⟨5, 0, 10⟩, ⟨5, 1, 11⟩] 5 1 ↔
    Runs.Each (LlInsertable id 4) [⟨5, 0, 10⟩, ⟨5, 1, 11⟩] ∧
      ∀ f ∈ arrivals id 4 [⟨5, 0, 10⟩, ⟨5, 1, 11⟩] (id 5 % 4), 5 ≤ f := by
  have hl : LegalRanks [⟨5, 0, 10⟩, ⟨5, 1, 11⟩] := by
    have h1 : LegalRanks ([] ++ [⟨5, 0, 10⟩]) := Runs.each_concat.mpr ⟨Runs.each_nil, by decide⟩
    exact Runs.each_concat.mpr ⟨h1, by decide⟩
  exact ll_table_maps_iff id 4 hl (.inl (by decide))

theorem ll_table_query_hangs : LegalRanks [⟨1, 0, 10⟩, ⟨2, 0, 20⟩] ∧
    0 < (familyKeys [⟨1, 0, 10⟩, ⟨2, 0, 20⟩] 2).length ∧
    (∃ table, Runs.run LlInsert.step [⟨1, 0, 10⟩, ⟨2, 0, 20⟩] (llTableInit (fun _ => 0) 1) =
      some table ∧ ∀ fuel, llTableQuery table 2 0 fuel = none) ∧
    ¬ LlMaps (fun _ => 0) 1 [⟨1, 0, 10⟩, ⟨2, 0, 20⟩] 2 0 := by
  have hl : LegalRanks [⟨1, 0, 10⟩, ⟨2, 0, 20⟩] := by
    have h1 : LegalRanks ([] ++ [⟨1, 0, 10⟩]) := Runs.each_concat.mpr ⟨Runs.each_nil, by decide⟩
    exact Runs.each_concat.mpr ⟨h1, by decide⟩
  have hlen : 0 < (familyKeys [⟨1, 0, 10⟩, ⟨2, 0, 20⟩] 2).length := by decide
  have hrun : ∃ table, Runs.run LlInsert.step [⟨1, 0, 10⟩, ⟨2, 0, 20⟩]
      (llTableInit (fun _ => 0) 1) = some table ∧ ∀ fuel, llTableQuery table 2 0 fuel = none :=
    ⟨_, rfl, fun fuel => queryBucket_none (by decide) 0 fuel⟩
  refine ⟨hl, hlen, hrun, ?_⟩
  rintro ⟨table2, hrun2, hin, -⟩
  obtain ⟨table, hrun, hhang⟩ := hrun
  obtain rfl : table = table2 := Option.some.inj (hrun.symm.trans hrun2)
  obtain ⟨fuel, h⟩ := hin hlen
  rw [hhang] at h
  exact absurd h (by decide)

end

end AdaptiveQF
