import Mathlib.Data.Finmap

/-!
# Restricting finite maps

`keep p m` is the part of a finite map whose entries satisfy `p`;
`lookup_keep` is all that is needed of it, with `Finmap.ext_lookup`.
-/

namespace Framework

universe u v

variable {α : Type u} {β : α → Type v} [DecidableEq α]

/-- The entries of `m` that satisfy `p`. -/
def keep (p : (a : α) → β a → Bool) (m : Finmap β) : Finmap β where
  entries := m.entries.filter fun e => p e.1 e.2
  nodupKeys := by
    obtain ⟨⟨l⟩, h⟩ := m
    exact h.sublist (List.filter_sublist)

@[simp] theorem lookup_keep (p : (a : α) → β a → Bool) (m : Finmap β) (a : α) :
    (keep p m).lookup a = (m.lookup a).filter (p a) := by
  induction m using Finmap.induction_on with
  | H l =>
    have hsub : (l.entries.filter fun e => decide (p e.1 e.2 = true)).NodupKeys :=
      l.nodupKeys.sublist List.filter_sublist
    have hkeep : keep p l.toFinmap = AList.toFinmap ⟨_, hsub⟩ := Finmap.ext rfl
    ext b
    rw [hkeep, Finmap.lookup_toFinmap, Finmap.lookup_toFinmap, Option.filter_eq_some_iff]
    exact (List.mem_dlookup_iff hsub).trans (List.mem_filter.trans
      (and_congr (List.mem_dlookup_iff l.nodupKeys).symm (by simp)))

theorem keep_of_lookup {p : (a : α) → β a → Bool} {m : Finmap β}
    (h : ∀ a b, m.lookup a = some b → p a b = true) : keep p m = m := by
  refine Finmap.ext_lookup fun a => ?_
  rw [lookup_keep]
  cases hm : m.lookup a with
  | none => rfl
  | some b => rw [Option.filter_some, if_pos (h a b hm)]

end Framework
