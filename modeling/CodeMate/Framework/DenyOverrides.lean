import Mathlib.Data.Set.Lattice
import Mathlib.Data.List.Perm.Basic

/-!
# Rules of which a denial overrides

Rules deny, allow or do neither. A set of them permits when none denies and one
allows (`Permits`). `decideRules` evaluates a list of rules and does not depend
on its order (`decideRules_iff`, `decideRules_perm`). `alone_iff` compares a
base to which several sets are added at once with the base to which one of them
is added: both decide the same, whichever one it is, exactly when a rule of the
base denies or the sets agree (`Agree`).
-/

namespace Framework.DenyOverrides

variable {α ι : Type*}

section

variable (denies allows : α → Prop)

/-- No rule denies and one allows. -/
def Permits (rules : Set α) : Prop := (∀ a ∈ rules, ¬ denies a) ∧ ∃ a ∈ rules, allows a

/-- The sets that are added to a base are each denied or without an allowing
rule, or are each allowed and not denied. -/
def Agree (base : Set α) (added : ι → Set α) (among : Set ι) : Prop :=
  (∀ i ∈ among, (∃ a ∈ added i, denies a) ∨ ¬ ((∃ a ∈ base, allows a) ∨ ∃ a ∈ added i, allows a)) ∨
    ∀ i ∈ among, (∀ a ∈ added i, ¬ denies a) ∧ ((∃ a ∈ base, allows a) ∨ ∃ a ∈ added i, allows a)

end

variable {denies allows : α → Prop} {base s t : Set α} {added : ι → Set α} {among : Set ι} {i : ι}

theorem permits_union : Permits denies allows (s ∪ t) ↔
    (∀ a ∈ s, ¬ denies a) ∧ (∀ a ∈ t, ¬ denies a) ∧ ((∃ a ∈ s, allows a) ∨ ∃ a ∈ t, allows a) := by
  simp only [Permits, Set.mem_union, or_imp, forall_and, or_and_right, exists_or, and_assoc]

theorem permits_iUnion : Permits denies allows (base ∪ ⋃ i ∈ among, added i) ↔
    (∀ a ∈ base, ¬ denies a) ∧ (∀ i ∈ among, ∀ a ∈ added i, ¬ denies a) ∧
      ((∃ a ∈ base, allows a) ∨ ∃ i ∈ among, ∃ a ∈ added i, allows a) := by
  rw [permits_union]
  have hdeny : (∀ a ∈ ⋃ i ∈ among, added i, ¬ denies a) ↔ ∀ i ∈ among, ∀ a ∈ added i, ¬ denies a := by
    simp only [Set.mem_iUnion, exists_prop]
    exact ⟨fun h i hi a ha => h a ⟨i, hi, ha⟩, fun h a ⟨i, hi, ha⟩ => h i hi a ha⟩
  have hallow : (∃ a ∈ ⋃ i ∈ among, added i, allows a) ↔ ∃ i ∈ among, ∃ a ∈ added i, allows a := by
    simp only [Set.mem_iUnion, exists_prop]
    exact ⟨fun ⟨a, ⟨i, hi, ha⟩, h⟩ => ⟨i, hi, a, ha, h⟩, fun ⟨i, hi, a, ha, h⟩ => ⟨a, ⟨i, hi, ha⟩, h⟩⟩
  rw [hdeny, hallow]

/-- One added set decides what all of them do, whichever it is, when the base
denies or the sets agree, and only then. -/
theorem alone_iff : (∀ i ∈ among, (Permits denies allows (base ∪ added i) ↔
    Permits denies allows (base ∪ ⋃ i ∈ among, added i))) ↔
      (∃ a ∈ base, denies a) ∨ Agree denies allows base added among := by
  by_cases hbase : ∃ a ∈ base, denies a
  · -- The base denies, alone and with whatever is added.
    refine iff_of_true (fun i _ => iff_of_false (fun h => ?_) (fun h => ?_)) (.inl hbase)
    · obtain ⟨a, ha, hd⟩ := hbase
      exact (permits_union.mp h).1 a ha hd
    · obtain ⟨a, ha, hd⟩ := hbase
      exact (permits_union.mp h).1 a ha hd
  have hquiet : ∀ a ∈ base, ¬ denies a := fun a ha hd => hbase ⟨a, ha, hd⟩
  simp only [permits_union (t := added _), permits_iUnion, hbase, false_or]
  constructor
  · intro h
    by_cases hall : (∀ i ∈ among, ∀ a ∈ added i, ¬ denies a) ∧
        ((∃ a ∈ base, allows a) ∨ ∃ i ∈ among, ∃ a ∈ added i, allows a)
    · exact .inr fun i hi => ((h i hi).mpr ⟨hquiet, hall⟩).2
    · refine .inl fun i hi => ?_
      by_cases hd : ∃ a ∈ added i, denies a
      · exact .inl hd
      · refine .inr fun ha => hall ((h i hi).mp ⟨hquiet, fun a hai had => hd ⟨a, hai, had⟩, ha⟩).2
  · rintro (hnone | hevery) i hi
    · refine iff_of_false (fun h => ?_) (fun h => ?_)
      · rcases hnone i hi with ⟨a, ha, hd⟩ | hno
        · exact h.2.1 a ha hd
        · exact hno h.2.2
      · rcases hnone i hi with ⟨a, ha, hd⟩ | hno
        · exact h.2.1 i hi a ha hd
        · obtain ⟨-, hdeny, hb | ⟨j, hj, hallow⟩⟩ := h
          · exact hno (.inl hb)
          · rcases hnone j hj with ⟨a, ha, hd⟩ | hno'
            · exact hdeny j hj a ha hd
            · exact hno' (.inr hallow)
    · refine iff_of_true ⟨hquiet, hevery i hi⟩ ⟨hquiet, fun j hj => (hevery j hj).1, ?_⟩
      rcases (hevery i hi).2 with hb | ha
      · exact .inl hb
      · exact .inr ⟨i, hi, ha⟩

/-- Sets that are all one set agree. -/
theorem agree_of_same (h : ∀ i ∈ among, ∀ j ∈ among, added i = added j) :
    (∃ a ∈ base, denies a) ∨ Agree denies allows base added among := by
  refine alone_iff.mp fun i hi => ?_
  have hunion : ⋃ j ∈ among, added j = added i := by
    ext a
    simp only [Set.mem_iUnion, exists_prop]
    exact ⟨fun ⟨j, hj, ha⟩ => h j hj i hi ▸ ha, fun ha => ⟨i, hi, ha⟩⟩
  rw [hunion]

section Lists

variable (denies allows : α → Bool)

/-- Evaluates a list of rules. -/
def decideRules (rules : List α) : Bool := if rules.any denies then false else rules.any allows

variable {denies allows} {rules rules' : List α}

theorem decideRules_iff : decideRules denies allows rules = true ↔
    Permits (fun a => denies a = true) (fun a => allows a = true) {a | a ∈ rules} := by
  rw [decideRules]
  split
  · next h =>
    obtain ⟨a, ha, hd⟩ := List.any_eq_true.mp h
    exact iff_of_false (by decide) fun hp => hp.1 a ha hd
  · next h =>
    rw [List.any_eq_true]
    have hno : ∀ a ∈ rules, ¬ denies a = true := fun a ha hd => h (List.any_eq_true.mpr ⟨a, ha, hd⟩)
    exact ⟨fun ha => ⟨hno, ha⟩, fun hp => hp.2⟩

theorem decideRules_perm (h : rules.Perm rules') :
    decideRules denies allows rules = decideRules denies allows rules' := by
  have hset : {a | a ∈ rules} = {a | a ∈ rules'} := by
    ext a
    exact h.mem_iff
  rw [Bool.eq_iff_iff, decideRules_iff, decideRules_iff, hset]

end Lists

end Framework.DenyOverrides
