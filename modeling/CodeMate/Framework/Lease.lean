import Mathlib.Order.Basic
import Mathlib.Data.List.Basic

/-!
# Leases on one entry

An entry is running under a lease of one owner, or completed. Its history
(`History`) is what was done to it, the last first: leases granted, each after
the one before it had ended, and at the end one completion by the holder of the
last lease. `attempts` says that the numbers of the leases grow, `one_live`
that no two of them are live at one time, and `completed_append` that a
completion is the last act, after the grant of the lease it was made under.
-/

namespace Framework.Lease

variable {κ ο ρ τ : Type*}

/-- An entry, bound to the hash of the request it serves. -/
inductive Entry (κ ο ρ τ : Type*)
  | running (hash : κ) (owner : ο) (attempt : Nat) (leaseUntil : τ)
  | completed (hash : κ) (attempt : Nat) (response : ρ)

def Entry.hash : Entry κ ο ρ τ → κ
  | .running hash _ _ _ => hash
  | .completed hash _ _ => hash

/-- What changes an entry. -/
inductive Act (κ ο ρ τ : Type*)
  | acquired (hash : κ) (owner : ο) (attempt : Nat) (leaseUntil : τ)
  | completed (hash : κ) (owner : ο) (attempt : Nat) (response : ρ)

/-- A lease that was granted. -/
structure Granted (ο τ : Type*) where
  owner : ο
  attempt : Nat
  leaseUntil : τ

/-- The lease an act grants. -/
def Act.granted : Act κ ο ρ τ → Option (Granted ο τ)
  | .acquired _ owner attempt leaseUntil => some ⟨owner, attempt, leaseUntil⟩
  | .completed .. => none

/-- An act at a time: a lease is granted on a new entry or when the last lease
has ended, and the holder of a live lease can complete the entry. -/
inductive Move [LE τ] [LT τ] (now : τ) :
    Option (Entry κ ο ρ τ) → Act κ ο ρ τ → Entry κ ο ρ τ → Prop
  | first (hash : κ) (owner : ο) (leaseUntil : τ) :
      Move now none (.acquired hash owner 1 leaseUntil) (.running hash owner 1 leaseUntil)
  | takeover {hash : κ} {last : ο} {attempt : Nat} {ended : τ} (owner : ο) (leaseUntil : τ) :
      ended ≤ now → Move now (some (.running hash last attempt ended))
        (.acquired hash owner (attempt + 1) leaseUntil) (.running hash owner (attempt + 1) leaseUntil)
  | complete {hash : κ} {owner : ο} {attempt : Nat} {leaseUntil : τ} (response : ρ) :
      now < leaseUntil → Move now (some (.running hash owner attempt leaseUntil))
        (.completed hash owner attempt response) (.completed hash attempt response)

/-- The acts on an entry with their times, the last first. -/
inductive History [LE τ] [LT τ] : List (τ × Act κ ο ρ τ) → Option (Entry κ ο ρ τ) → Prop
  | nil : History [] none
  | cons {log : List (τ × Act κ ο ρ τ)} {e : Option (Entry κ ο ρ τ)} {now : τ} {a : Act κ ο ρ τ}
      {e' : Entry κ ο ρ τ} : History log e → Move now e a e' → History ((now, a) :: log) (some e')

/-- The leases granted, the last first. -/
def leases (log : List (τ × Act κ ο ρ τ)) : List (Granted ο τ) := log.filterMap (·.2.granted)

@[simp] theorem leases_acquired (now : τ) (hash : κ) (owner : ο) (attempt : Nat) (leaseUntil : τ)
    (log : List (τ × Act κ ο ρ τ)) :
    leases ((now, .acquired hash owner attempt leaseUntil) :: log) = ⟨owner, attempt, leaseUntil⟩ :: leases log := rfl

@[simp] theorem leases_completed (now : τ) (hash : κ) (owner : ο) (attempt : Nat) (response : ρ)
    (log : List (τ × Act κ ο ρ τ)) :
    leases ((now, .completed hash owner attempt response) :: log) = leases log := rfl

namespace History

section

variable [LE τ] [LT τ] {log : List (τ × Act κ ο ρ τ)} {e : Option (Entry κ ο ρ τ)}

/-- An entry without a history does not exist. -/
theorem eq_nil (h : History log (none : Option (Entry κ ο ρ τ))) : log = [] := by
  cases h
  rfl

/-- The lease of a running entry is the last that was granted. -/
theorem running {hash : κ} {owner : ο} {attempt : Nat} {leaseUntil : τ}
    (h : History log (some (.running hash owner attempt leaseUntil))) :
    ∃ now rest, log = (now, .acquired hash owner attempt leaseUntil) :: rest := by
  cases h with
  | cons h hm => cases hm <;> exact ⟨_, _, rfl⟩

/-- The numbers of the leases grow. -/
theorem attempts (h : History log e) : (leases log).Pairwise fun a b => b.attempt < a.attempt := by
  induction h with
  | nil => exact .nil
  | @cons log e now a e' h hm ih =>
    cases hm with
    | first => rw [h.eq_nil]; exact List.pairwise_singleton _ _
    | complete => exact ih
    | takeover owner leaseUntil hend =>
      obtain ⟨t, rest, rfl⟩ := h.running
      rw [leases_acquired] at ih ⊢
      refine List.pairwise_cons.mpr ⟨fun b hb => ?_, by rw [leases_acquired]; exact ih⟩
      rw [leases_acquired] at hb
      rcases List.mem_cons.mp hb with rfl | hb
      · exact Nat.lt_succ_self _
      · exact Nat.lt_succ_of_lt ((List.pairwise_cons.mp ih).1 b hb)

/-- A completion is the last act, and was made by the holder of the last lease
while it was live. -/
theorem completed_of_mem (h : History log e) {now : τ} {hash : κ} {owner : ο} {attempt : Nat} {response : ρ}
    (hm : (now, .completed hash owner attempt response) ∈ log) :
    e = some (.completed hash attempt response) ∧ ∃ granted leaseUntil rest,
      log = (now, .completed hash owner attempt response) ::
        (granted, .acquired hash owner attempt leaseUntil) :: rest ∧ now < leaseUntil := by
  induction h with
  | nil => cases hm
  | @cons log e t a e' h hv ih =>
    rcases List.mem_cons.mp hm with heq | hm
    · obtain ⟨rfl, rfl⟩ := Prod.mk.inj heq
      cases hv with
      | complete _ hlive =>
        obtain ⟨granted, rest, rfl⟩ := h.running
        exact ⟨rfl, granted, _, rest, rfl, hlive⟩
    · obtain ⟨rfl, -⟩ := ih hm
      cases hv

/-- Nothing comes after a completion. -/
theorem completed_append {after before : List (τ × Act κ ο ρ τ)} {now : τ} {hash : κ} {owner : ο}
    {attempt : Nat} {response : ρ} (h : History (after ++ (now, .completed hash owner attempt response) :: before) e) :
    after = [] ∧ ∃ granted leaseUntil rest,
      before = (granted, .acquired hash owner attempt leaseUntil) :: rest ∧ now < leaseUntil := by
  cases after with
  | nil =>
    obtain ⟨-, granted, leaseUntil, rest, heq, hlive⟩ := h.completed_of_mem List.mem_cons_self
    exact ⟨rfl, granted, leaseUntil, rest, (List.cons.inj heq).2, hlive⟩
  | cons a after =>
    cases h with
    | cons h hm =>
      obtain ⟨rfl, -⟩ := h.completed_of_mem (List.mem_append_right _ List.mem_cons_self)
      cases hm

/-- Every act is on the hash that the entry is bound to. -/
theorem hash_of_mem {e : Entry κ ο ρ τ} (h : History log (some e)) {now : τ} {hash : κ} {owner : ο}
    {attempt : Nat} {leaseUntil : τ} (hm : (now, .acquired hash owner attempt leaseUntil) ∈ log) :
    e.hash = hash := by
  generalize he : some e = e₀ at h
  induction h generalizing e with
  | nil => cases hm
  | @cons log e₁ t a e' h hv ih =>
    obtain rfl := Option.some.inj he
    rcases List.mem_cons.mp hm with heq | hold
    · obtain ⟨rfl, rfl⟩ := Prod.mk.inj heq
      cases hv <;> rfl
    · cases hv with
      | first => rw [h.eq_nil] at hold; cases hold
      | takeover => have hash := ih hold rfl; exact hash
      | complete => have hash := ih hold rfl; exact hash

end

/-- Of the leases that were granted up to a time, all but the last have ended. -/
theorem ended [Preorder τ] {log : List (τ × Act κ ο ρ τ)} {e : Option (Entry κ ο ρ τ)} (h : History log e)
    {now : τ} (ht : ∀ a ∈ log, a.1 ≤ now) : ∀ g ∈ (leases log).tail, g.leaseUntil ≤ now := by
  induction h with
  | nil => exact fun g hg => by cases hg
  | @cons log e t a e' h hm ih =>
    have ih := ih fun a ha => ht a (List.mem_cons_of_mem _ ha)
    cases hm with
    | first => rw [h.eq_nil]; exact fun g hg => by cases hg
    | complete => exact ih
    | takeover owner leaseUntil hend =>
      obtain ⟨t', rest, rfl⟩ := h.running
      intro g hg
      rw [leases_acquired, List.tail_cons, leases_acquired] at hg
      rcases List.mem_cons.mp hg with rfl | hg
      · exact hend.trans (ht _ List.mem_cons_self)
      · exact ih g hg

/-- No two leases are live at one time. -/
theorem one_live [Preorder τ] {log : List (τ × Act κ ο ρ τ)} {e : Option (Entry κ ο ρ τ)} (h : History log e)
    {now : τ} (ht : ∀ a ∈ log, a.1 ≤ now) {g g' : Granted ο τ} (hg : g ∈ leases log) (hg' : g' ∈ leases log)
    (hl : now < g.leaseUntil) (hl' : now < g'.leaseUntil) : g = g' := by
  have hend := h.ended ht
  generalize leases log = ls at hg hg' hend
  rcases hg with _ | ⟨_, hg⟩
  · rcases hg' with _ | ⟨_, hg'⟩
    · rfl
    · exact absurd hl' (hend g' hg').not_gt
  · exact absurd hl (hend g hg).not_gt

end History

end Framework.Lease
