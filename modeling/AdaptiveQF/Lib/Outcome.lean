import Mathlib.Logic.Basic
import Mathlib.Data.Option.Basic

/-! What a partial computation delivers: a property of its result, and a condition under which there
is one. -/
namespace Outcome

universe u
variable {α β : Type u} {ok : Prop} {o : Option α} {post mid : α → Prop}

/-- Every result of `o` has the property `post`. Where `ok` holds there is a result. -/
structure Delivers (ok : Prop) (o : Option α) (post : α → Prop) : Prop where
  post : ∀ a, o = some a → post a
  result : ok → ∃ a, o = some a

namespace Delivers

theorem some {a : α} (h : post a) : Delivers ok (some a) post :=
  ⟨fun _ hb => Option.some.inj hb ▸ h, fun _ => ⟨a, rfl⟩⟩

theorem none (h : ¬ ok) : Delivers ok (none : Option α) post :=
  ⟨fun _ hb => absurd hb (Option.some_ne_none _).symm, fun hok => absurd hok h⟩

theorem mono (h : Delivers ok o mid) (hpost : ∀ a, mid a → post a) : Delivers ok o post :=
  ⟨fun a ha => hpost a (h.post a ha), h.result⟩

theorem bind {p : β → Prop} {f : α → Option β} (h : Delivers ok o mid)
    (hf : ∀ a, mid a → Delivers ok (f a) p) : Delivers ok (o >>= f) p := by
  constructor
  · intro b hb
    obtain ⟨a, ha, hfa⟩ := Option.bind_eq_some_iff.mp hb
    exact (hf a (h.post a ha)).post b hfa
  · intro hok
    obtain ⟨a, ha⟩ := h.result hok
    obtain ⟨b, hb⟩ := (hf a (h.post a ha)).result hok
    exact ⟨b, Option.bind_eq_some_iff.mpr ⟨a, ha, hb⟩⟩

end Delivers

end Outcome
