import Mathlib.Data.List.TakeWhile

/-!
# Logs with marks

A log is a list of entries, the last one first, some of which are marks.
`last` is the last mark, `since` are the entries after it, and `before` are the
entries before the first mark. The lemmas say what they become when entries
are added.
-/

namespace Framework.Log

variable {ε : Type*} (mark : ε → Bool)

/-- The last mark. -/
def last (log : List ε) : Option ε := log.find? mark

/-- The entries after the last mark, the last one first. -/
def since (log : List ε) : List ε := log.takeWhile fun e => !mark e

/-- The entries before the first mark, the first one first. -/
def before (log : List ε) : List ε := log.reverse.takeWhile fun e => !mark e

variable {mark} {e : ε} {es log : List ε}

theorem last_append (h : ∀ e ∈ es, mark e = false) : last mark (es ++ log) = last mark log := by
  have hes : es.find? mark = none := List.find?_eq_none.mpr fun e he => by simp [h e he]
  rw [last, List.find?_append, hes, Option.none_or]
  rfl

theorem since_append (h : ∀ e ∈ es, mark e = false) : since mark (es ++ log) = es ++ since mark log :=
  List.takeWhile_append_of_pos fun e he => by simp [h e he]

theorem last_mark (h : mark e = true) : last mark (e :: log) = some e := List.find?_cons_of_pos h

theorem mem_before_append (h : e ∈ before mark log) (es : List ε) : e ∈ before mark (es ++ log) := by
  unfold before at h ⊢
  rw [List.reverse_append, List.takeWhile_append]
  split
  · next heq => exact List.mem_append_left _ (List.takeWhile_subset _ h)
  · exact h

theorem mem_before (h : ∀ e ∈ log, mark e = false) (he : e ∈ log) : e ∈ before mark log := by
  unfold before
  rw [List.takeWhile_eq_self_iff.mpr fun e he => by simp [h e (List.mem_reverse.mp he)]]
  exact List.mem_reverse.mpr he

end Framework.Log
