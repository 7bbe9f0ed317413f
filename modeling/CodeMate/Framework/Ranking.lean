import Mathlib

/-!
# Rank fusion

Several rankings of the same things are lists, and an element is credited in
each list that holds it with a weight that shrinks with its first position
(`credited`). `credited_lt` is dominance: an element that comes first wherever
the other one occurs is credited more. `idxOf_lt_of_pairwise` carries it over
to a sorted list without repetitions.
-/

namespace Framework.Ranking

variable {α : Type*} [DecidableEq α]

/-- A positive weight for each position, less the later it is. -/
structure Weight where
  value : ℕ → ℚ
  pos (i : ℕ) : 0 < value i
  lt {i j : ℕ} (h : i < j) : value j < value i

/-- What one ranking credits an element with. -/
def creditIn (w : Weight) (ranking : List α) (a : α) : ℚ :=
  if a ∈ ranking then w.value (ranking.idxOf a) else 0

def credited (w : Weight) (rankings : List (List α)) (a : α) : ℚ :=
  (rankings.map fun ranking => creditIn w ranking a).sum

theorem creditIn_nonneg (w : Weight) (ranking : List α) (a : α) : 0 ≤ creditIn w ranking a := by
  rw [creditIn]
  split
  · exact (w.pos _).le
  · exact le_refl _

theorem mem_of_idxOf_lt {ranking : List α} {a b : α} (h : ranking.idxOf a < ranking.idxOf b) :
    a ∈ ranking :=
  List.idxOf_lt_length_iff.mp (h.trans_le List.idxOf_le_length)

theorem creditIn_lt (w : Weight) {ranking : List α} {a b : α} (hb : b ∈ ranking)
    (h : ranking.idxOf a < ranking.idxOf b) : creditIn w ranking b < creditIn w ranking a := by
  rw [creditIn, if_pos hb, creditIn, if_pos (mem_of_idxOf_lt h)]
  exact w.lt h

/-- `a` comes before `b` in every ranking that has `b`. -/
def Dominates (rankings : List (List α)) (a b : α) : Prop :=
  ∀ ranking ∈ rankings, b ∈ ranking → ranking.idxOf a < ranking.idxOf b

theorem creditIn_le_of_dominates (w : Weight) {rankings : List (List α)} {a b : α}
    (h : Dominates rankings a b) {ranking : List α} (hmem : ranking ∈ rankings) :
    creditIn w ranking b ≤ creditIn w ranking a := by
  by_cases hb : b ∈ ranking
  · exact (creditIn_lt w hb (h ranking hmem hb)).le
  · rw [creditIn, if_neg hb]
    exact creditIn_nonneg w ranking a

/-- Dominance is strict once some ranking has `b` at all. -/
theorem credited_lt (w : Weight) {rankings : List (List α)} {a b : α} (h : Dominates rankings a b)
    (hb : ∃ ranking ∈ rankings, b ∈ ranking) : credited w rankings b < credited w rankings a := by
  obtain ⟨ranking, hmem, hin⟩ := hb
  refine List.sum_lt_sum _ _ (fun r hr => creditIn_le_of_dominates w h hr) ⟨ranking, hmem, ?_⟩
  exact creditIn_lt w hin (h ranking hmem hin)

/-- In a list without repetitions that is sorted by `r`, what is not `r`-after comes before. -/
theorem idxOf_lt_of_pairwise {r : α → α → Prop} {l : List α} (hsorted : l.Pairwise r) {a b : α}
    (ha : a ∈ l) (hb : b ∈ l) (hne : a ≠ b) (h : ¬ r b a) : l.idxOf a < l.idxOf b := by
  induction l with
  | nil => simp at ha
  | cons x l ih =>
    obtain ⟨hx, hl⟩ := List.pairwise_cons.mp hsorted
    by_cases hxa : x = a
    · subst hxa
      rw [List.idxOf_cons_self, List.idxOf_cons_ne _ hne]
      omega
    · have hxb : x ≠ b := by
        rintro rfl
        rcases List.mem_cons.mp ha with rfl | ha
        · exact hxa rfl
        · exact h (hx a ha)
      have ha' : a ∈ l := (List.mem_cons.mp ha).resolve_left (Ne.symm hxa)
      have hb' : b ∈ l := (List.mem_cons.mp hb).resolve_left (Ne.symm hxb)
      have := ih hl ha' hb'
      rw [List.idxOf_cons_ne _ hxa, List.idxOf_cons_ne _ hxb]
      omega

/-- Mapping a list by a function that tells its elements apart keeps the positions. -/
theorem idxOf_map {β : Type*} [DecidableEq β] {f : α → β} {l : List α} (hinj : (l.map f).Nodup) {a : α}
    (ha : a ∈ l) : (l.map f).idxOf (f a) = l.idxOf a := by
  induction l with
  | nil => simp at ha
  | cons x l ih =>
    obtain ⟨hx, hl⟩ := List.nodup_cons.mp hinj
    by_cases hxa : x = a
    · subst hxa
      simp
    · have ha' : a ∈ l := (List.mem_cons.mp ha).resolve_left (Ne.symm hxa)
      have hne : f x ≠ f a := fun heq => hx (heq ▸ List.mem_map_of_mem ha')
      rw [List.map_cons, List.idxOf_cons_ne _ hne, List.idxOf_cons_ne _ hxa, ih hl ha']

end Framework.Ranking
