import Mathlib.Data.List.Infix

/-!
# The order of lists by their first difference

`lexLe le` compares two lists element by element; a list comes before those
that continue it (`lexLe_extends`). It is total, transitive and antisymmetric
where `le` is, so that lists of lists are ordered by it once more.
-/

namespace Framework

/-- An order as its laws. -/
structure Linear {α : Type} (le : α → α → Bool) : Prop where
  total (a b : α) : le a b || le b a
  trans (a b c : α) : le a b → le b c → le a c
  antisymm (a b : α) : le a b → le b a → a = b

variable {α : Type} [DecidableEq α] {le : α → α → Bool}

def lexLe (le : α → α → Bool) : List α → List α → Bool
  | [], _ => true
  | _ :: _, [] => false
  | a :: as, b :: bs => if a = b then lexLe le as bs else le a b

theorem lexLe_extends {as bs : List α} (h : as <+: bs) : lexLe le as bs := by
  induction as generalizing bs with
  | nil => exact lexLe.eq_1 le bs
  | cons a as ih =>
    obtain ⟨rest, rfl⟩ := h
    rw [List.cons_append, lexLe, if_pos rfl]
    exact ih (List.prefix_append ..)

theorem lexLe_linear (h : Linear le) : Linear (lexLe le) where
  total as bs := by
    induction as generalizing bs with
    | nil => simp [lexLe]
    | cons a as ih =>
      cases bs with
      | nil => simp [lexLe]
      | cons b bs =>
        rw [lexLe, lexLe]
        by_cases heq : a = b
        · rw [if_pos heq, if_pos heq.symm]
          exact ih bs
        · rw [if_neg heq, if_neg (Ne.symm heq)]
          exact h.total a b
  antisymm as bs := by
    induction as generalizing bs with
    | nil =>
      intro _ hba
      cases bs with
      | nil => rfl
      | cons b bs => cases hba
    | cons a as ih =>
      intro hab hba
      cases bs with
      | nil => cases hab
      | cons b bs =>
        rw [lexLe] at hab hba
        by_cases heq : a = b
        · rw [if_pos heq] at hab
          rw [if_pos heq.symm] at hba
          rw [heq, ih bs hab hba]
        · rw [if_neg heq] at hab
          rw [if_neg (Ne.symm heq)] at hba
          exact absurd (h.antisymm a b hab hba) heq
  trans as bs cs := by
    induction as generalizing bs cs with
    | nil => exact fun _ _ => lexLe.eq_1 le cs
    | cons a as ih =>
      intro hab hbc
      cases bs with
      | nil => cases hab
      | cons b bs =>
        cases cs with
        | nil => cases hbc
        | cons c cs =>
          rw [lexLe] at hab hbc ⊢
          by_cases hac : a = c
          · subst hac
            rw [if_pos rfl]
            by_cases heq : a = b
            · rw [if_pos heq] at hab
              rw [if_pos heq.symm] at hbc
              exact ih bs cs hab hbc
            · rw [if_neg heq] at hab
              rw [if_neg (Ne.symm heq)] at hbc
              exact absurd (h.antisymm a b hab hbc) heq
          · rw [if_neg hac]
            by_cases heq : a = b
            · subst heq
              rwa [if_neg hac] at hbc
            · rw [if_neg heq] at hab
              by_cases heq' : b = c
              · exact heq' ▸ hab
              · rw [if_neg heq'] at hbc
                exact h.trans a b c hab hbc

end Framework
