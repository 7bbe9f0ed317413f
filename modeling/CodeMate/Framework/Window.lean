import Mathlib.Algebra.Order.BigOperators.Group.List
import Mathlib.Order.Monotone.Basic

/-!
# Logs that are limited in every window

Entries with times and weights are admitted one after the other. A log is
`Limited` if each entry, when it was admitted, kept the weight of the entries
since a cut (its time less a minute, say, or the start of its day) within a
limit. Then so is the weight in every window whose times see each other
(`Limited.total_le`); and a check made with an earlier reading of the clock is
as good (`Limited.cons_of_check`).
-/

namespace Framework.Window

variable {α τ 𝕜 : Type*} [AddCommMonoid 𝕜]

/-- The weight of the entries that satisfy `p`. -/
def total (weight : α → 𝕜) (p : α → Bool) (log : List α) : 𝕜 := ((log.filter p).map weight).sum

section

variable {weight : α → 𝕜} {p q : α → Bool} {a : α} {log : List α}

@[simp] theorem total_nil : total weight p [] = 0 := rfl

theorem total_cons_of_pos (h : p a = true) : total weight p (a :: log) = weight a + total weight p log := by
  rw [total, List.filter_cons_of_pos h]
  rfl

theorem total_cons_of_neg (h : p a ≠ true) : total weight p (a :: log) = total weight p log := by
  rw [total, List.filter_cons_of_neg h]
  rfl

theorem total_congr (h : ∀ a ∈ log, p a = q a) : total weight p log = total weight q log := by
  rw [total, total, List.filter_congr h]

/-- The number of entries as their weight. -/
theorem total_one : total (fun _ : α => 1) p log = (log.filter p).length := by
  simp [total]

/-- More entries weigh more. -/
theorem total_mono [PartialOrder 𝕜] [IsOrderedAddMonoid 𝕜] (hw : ∀ a ∈ log, 0 ≤ weight a)
    (h : ∀ a ∈ log, p a = true → q a = true) : total weight p log ≤ total weight q log := by
  induction log with
  | nil => exact le_rfl
  | cons a log ih =>
    have ih := ih (fun b hb => hw b (List.mem_cons_of_mem _ hb)) fun b hb => h b (List.mem_cons_of_mem _ hb)
    by_cases hp : p a = true
    · rw [total_cons_of_pos hp, total_cons_of_pos (h a List.mem_cons_self hp)]
      exact add_le_add_right ih _
    · rw [total_cons_of_neg hp]
      by_cases hq : q a = true
      · rw [total_cons_of_pos hq]
        exact le_add_of_nonneg_of_le (hw a List.mem_cons_self) ih
      · rw [total_cons_of_neg hq]
        exact ih

end

variable [PartialOrder 𝕜] [LinearOrder τ]

/-- Each entry was admitted within the limit; the last comes first. -/
inductive Limited (time : α → τ) (weight : α → 𝕜) (cut : τ → τ) (limit : 𝕜) : List α → Prop
  | nil : Limited time weight cut limit []
  | cons {a : α} {log : List α} : Limited time weight cut limit log → (∀ b ∈ log, time b ≤ time a) →
      total weight (fun b => cut (time a) ≤ time b) log + weight a ≤ limit →
      Limited time weight cut limit (a :: log)

namespace Limited

variable [IsOrderedAddMonoid 𝕜] {time : α → τ} {weight : α → 𝕜} {cut : τ → τ} {limit : 𝕜} {log : List α}

/-- A check at a time that was read before the entry got its own. -/
theorem cons_of_check (h : Limited time weight cut limit log) (hcut : Monotone cut) (hw : ∀ b ∈ log, 0 ≤ weight b)
    {a : α} (ht : ∀ b ∈ log, time b ≤ time a) {now : τ} (hnow : now ≤ time a)
    (hcheck : total weight (fun b => cut now ≤ time b) log + weight a ≤ limit) :
    Limited time weight cut limit (a :: log) := by
  refine h.cons ht (le_trans (add_le_add_left (total_mono hw fun b _ hb => ?_) _) hcheck)
  exact decide_eq_true ((hcut hnow).trans (of_decide_eq_true hb))

/-- The weight in a window is within the limit: the last entry in it was
checked against all the others. -/
theorem total_le (h : Limited time weight cut limit log) (hw : ∀ b ∈ log, 0 ≤ weight b) (hlimit : 0 ≤ limit)
    {p : τ → Bool} (hp : ∀ t u, p t = true → p u = true → u ≤ t → cut t ≤ u) :
    total weight (fun a => p (time a)) log ≤ limit := by
  induction h with
  | nil => exact hlimit
  | @cons a log h ht hcheck ih =>
    have hw' := fun b hb => hw b (List.mem_cons_of_mem _ hb)
    by_cases ha : p (time a) = true
    · rw [total_cons_of_pos (p := fun a => p (time a)) ha, add_comm]
      refine le_trans (add_le_add_left (total_mono hw' fun b hb hin => ?_) _) hcheck
      exact decide_eq_true (hp _ _ ha hin (ht b hb))
    · rw [total_cons_of_neg (p := fun a => p (time a)) ha]
      exact ih hw'

end Limited

end Framework.Window
