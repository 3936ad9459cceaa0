import Mathlib.Data.List.Induction
import Mathlib.Data.List.Nodup
import Mathlib.Logic.Function.Basic

/-! Stores that find the last value put under a key, and stores that also merge a value into the one
they have. -/
namespace Store

variable {D K V : Type*}

structure Engine (D K V : Type*) where
  insert : D → K → V → D
  search : D → K → Option V

structure MergeEngine (D K V : Type*) extends Engine D K V where
  update : D → K → V → D

def Engine.insertAll (e : Engine D K V) (d : D) (l : List (K × V)) : D :=
  l.foldl (fun d p => e.insert d p.1 p.2) d

theorem Engine.insertAll_concat (e : Engine D K V) (d : D) (l : List (K × V)) (p : K × V) :
    e.insertAll d (l ++ [p]) = e.insert (e.insertAll d l) p.1 p.2 := by
  simp [insertAll, List.foldl_append]

variable [DecidableEq K]

structure Engine.Faithful (e : Engine D K V) : Prop where
  search_insert : ∀ d k v x, e.search (e.insert d k v) x = if x = k then some v else e.search d x

structure MergeEngine.Faithful (e : MergeEngine D K V) (merge : V → V → V) : Prop
    extends e.toEngine.Faithful where
  search_update : ∀ d k v x, e.search (e.update d k v) x =
    if x = k then some ((e.search d k).elim v (merge v)) else e.search d x

section
variable {e : Engine D K V} {d : D} {l : List (K × V)} {k : K} {v : V}

namespace Engine.Faithful

theorem search_insertAll (h : e.Faithful) (hn : (l.map Prod.fst).Nodup) (hp : (k, v) ∈ l) :
    e.search (e.insertAll d l) k = some v := by
  induction l using List.reverseRecOn with
  | nil => simp at hp
  | append_singleton l p ih =>
    rw [List.map_append, List.nodup_append] at hn
    obtain ⟨hl, -, hdis⟩ := hn
    rw [Engine.insertAll_concat, h.search_insert]
    cases List.mem_append.mp hp with
    | inl hmem =>
      have hne : k ≠ p.1 := hdis k (List.mem_map_of_mem hmem) p.1 (by simp)
      rw [if_neg hne, ih hl hmem]
    | inr hmem =>
      obtain rfl := List.mem_singleton.mp hmem
      rw [if_pos rfl]

end Engine.Faithful

end

/-! Functions as stores. -/

def mapEngine (K V : Type*) [DecidableEq K] : Engine (K → Option V) K V where
  insert d k v := Function.update d k (some v)
  search d k := d k

def mapMergeEngine (K : Type*) {V : Type*} [DecidableEq K] (merge : V → V → V) :
    MergeEngine (K → Option V) K V where
  toEngine := mapEngine K V
  update d k v := Function.update d k (some ((d k).elim v (merge v)))

theorem mapEngine_faithful : (mapEngine K V).Faithful :=
  ⟨fun d k v x => Function.update_apply d k (some v) x⟩

theorem mapMergeEngine_faithful (merge : V → V → V) : (mapMergeEngine K merge).Faithful merge where
  search_insert := mapEngine_faithful.search_insert
  search_update d k v x := Function.update_apply d k (some ((d k).elim v (merge v))) x

end Store
