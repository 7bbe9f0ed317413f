import Mathlib

/-!
# Counting along a family of sets

A family of finite sets may name an element several times. `mentions` counts
how often, `covered` is the union, and `shared S` adds up what every member of
the family has in common with `S`:

* `sum_mentions`: `shared S` counts each element of `S` as often as the family
  names it;
* `share_eq_iff`: the share of `S` among all that the family adds up is its
  share of the union exactly when the repetitions are spread over `S` as over
  the whole union (`Spread`);
* `share_even_iff`: that holds for every single element exactly when the family
  names all it covers equally often (`Even`).
-/

namespace Framework.Coverage

variable {α : Type*} [DecidableEq α]

/-- How many members of the family hold the element. -/
def mentions : List (Finset α) → α → ℕ
  | [], _ => 0
  | s :: family, x => (if x ∈ s then 1 else 0) + mentions family x

def covered : List (Finset α) → Finset α
  | [] => ∅
  | s :: family => s ∪ covered family

/-- What the members of the family have in common with `S`, added up. -/
def shared (S : Finset α) : List (Finset α) → ℕ
  | [] => 0
  | s :: family => (S ∩ s).card + shared S family

/-- How often the elements of `S` are named beyond the first time. -/
def surplus (S : Finset α) (family : List (Finset α)) : ℕ := ∑ x ∈ S, (mentions family x - 1)

/-- The repetitions among the covered elements of `S` are as frequent as among all of them. -/
def Spread (S : Finset α) (family : List (Finset α)) : Prop :=
  surplus (S ∩ covered family) family * (covered family).card =
    (S ∩ covered family).card * surplus (covered family) family

instance (S : Finset α) (family : List (Finset α)) : Decidable (Spread S family) :=
  inferInstanceAs (Decidable (_ = _))

/-- All covered elements are named equally often. -/
def Even (family : List (Finset α)) : Prop :=
  ∀ x ∈ covered family, ∀ y ∈ covered family, mentions family x = mentions family y

theorem mentions_pos {family : List (Finset α)} {x : α} :
    0 < mentions family x ↔ x ∈ covered family := by
  induction family with
  | nil => simp [mentions, covered]
  | cons s family ih =>
    by_cases h : x ∈ s
    · simp only [mentions, h, if_true, covered, Finset.mem_union, true_or, iff_true]
      omega
    · simp [mentions, covered, h, ih]

theorem mentions_eq_zero {family : List (Finset α)} {x : α} (h : x ∉ covered family) :
    mentions family x = 0 := by
  by_contra hne
  exact h (mentions_pos.mp (by omega))

/-- Each element of `S` is counted once for every member that holds it. -/
theorem sum_mentions (S : Finset α) (family : List (Finset α)) :
    ∑ x ∈ S, mentions family x = shared S family := by
  induction family with
  | nil => simp [mentions, shared]
  | cons s family ih =>
    simp only [mentions, shared, Finset.sum_add_distrib, ih, Finset.sum_boole, Nat.cast_id]
    rw [Finset.filter_mem_eq_inter]

/-- What lies outside the union adds nothing. -/
theorem shared_inter_covered (S : Finset α) (family : List (Finset α)) :
    shared (S ∩ covered family) family = shared S family := by
  rw [← sum_mentions, ← sum_mentions]
  refine Finset.sum_subset Finset.inter_subset_left fun x hx hnot => mentions_eq_zero fun hc => ?_
  exact hnot (Finset.mem_inter.mpr ⟨hx, hc⟩)

/-- Covered elements are counted once and then once for every repetition. -/
theorem shared_eq_add {S : Finset α} {family : List (Finset α)} (h : S ⊆ covered family) :
    shared S family = S.card + surplus S family := by
  rw [← sum_mentions, surplus, Finset.card_eq_sum_ones, ← Finset.sum_add_distrib]
  refine Finset.sum_congr rfl fun x hx => ?_
  have := mentions_pos.mpr (h hx)
  omega

theorem shared_le (S : Finset α) (family : List (Finset α)) :
    shared S family ≤ shared (covered family) family := by
  rw [← shared_inter_covered S family, ← sum_mentions, ← sum_mentions]
  exact Finset.sum_le_sum_of_subset Finset.inter_subset_right

theorem card_le_shared (family : List (Finset α)) :
    (covered family).card ≤ shared (covered family) family := by
  rw [shared_eq_add (Finset.Subset.refl _)]
  omega

/-- The share of `S` in all that is added up, and its share of the union. -/
theorem share_eq_iff (S : Finset α) {family : List (Finset α)} (h : (covered family).Nonempty) :
    (shared S family : ℚ) / shared (covered family) family =
        (S ∩ covered family).card / (covered family).card ↔ Spread S family := by
  have hcard : 0 < (covered family).card := Finset.card_pos.mpr h
  have htotal : 0 < shared (covered family) family := Nat.lt_of_lt_of_le hcard (card_le_shared family)
  rw [div_eq_div_iff (by exact_mod_cast htotal.ne') (by exact_mod_cast hcard.ne')]
  rw [← shared_inter_covered S family, shared_eq_add Finset.inter_subset_right,
    shared_eq_add (Finset.Subset.refl _), Spread]
  norm_cast
  constructor
  · intro heq
    nlinarith [heq]
  · intro heq
    nlinarith [heq]

/-- A family that names all it covers equally often spreads its repetitions over any set. -/
theorem spread_of_even {family : List (Finset α)} (h : Even family) (S : Finset α) : Spread S family := by
  rcases (covered family).eq_empty_or_nonempty with hempty | ⟨y, hy⟩
  · simp [Spread, hempty]
  · have hsame (T : Finset α) (hT : T ⊆ covered family) :
        surplus T family = T.card * (mentions family y - 1) := by
      rw [surplus, Finset.sum_congr rfl fun x hx => by rw [h x (hT hx) y hy], Finset.sum_const, smul_eq_mul]
    rw [Spread, hsame _ Finset.inter_subset_right, hsame _ (Finset.Subset.refl _)]
    ring

/-- Single elements tell whether a family names all it covers equally often. -/
theorem even_iff_spread_singletons {family : List (Finset α)} :
    Even family ↔ ∀ x ∈ covered family, Spread {x} family := by
  refine ⟨fun h x _ => spread_of_even h {x}, fun h x hx y hy => ?_⟩
  have hpos : 0 < (covered family).card := Finset.card_pos.mpr ⟨x, hx⟩
  have hone {z : α} (hz : z ∈ covered family) :
      (mentions family z - 1) * (covered family).card = surplus (covered family) family := by
    have := h z hz
    rw [Spread, Finset.inter_eq_left.mpr (Finset.singleton_subset_iff.mpr hz)] at this
    simpa [surplus] using this
  have hmul := (hone hx).trans (hone hy).symm
  have hsub := Nat.eq_of_mul_eq_mul_right hpos hmul
  have hx0 := mentions_pos.mpr hx
  have hy0 := mentions_pos.mpr hy
  omega

/-- Disjoint members name no element twice. -/
theorem even_of_pairwise {family : List (Finset α)} (h : family.Pairwise Disjoint) : Even family := by
  have hone : ∀ x ∈ covered family, mentions family x = 1 := by
    induction family with
    | nil => simp [covered]
    | cons s family ih =>
      obtain ⟨hs, hrest⟩ := List.pairwise_cons.mp h
      intro x hx
      by_cases hmem : x ∈ s
      · have hout : x ∉ covered family := by
          clear ih h hrest hx
          induction family with
          | nil => simp [covered]
          | cons t family ih =>
            have ht := Finset.disjoint_left.mp (hs t (List.mem_cons_self ..)) hmem
            simp only [covered, Finset.mem_union, not_or]
            exact ⟨ht, ih fun u hu => hs u (List.mem_cons_of_mem _ hu)⟩
        simp [mentions, hmem, mentions_eq_zero hout]
      · have hx' : x ∈ covered family := by simpa [covered, hmem] using hx
        simp [mentions, hmem, ih hrest x hx']
  intro x hx y hy
  rw [hone x hx, hone y hy]

end Framework.Coverage
