import Mathlib.Data.List.Basic
import Mathlib.Data.Nat.Notation

/-!
# Lists joined by a key

A dictionary filled from a list keeps the last entry under each key (`lastAt`).
When two lists are compared by key, an entry is compared with the entry at its
own position exactly where the lists meet (`MeetAt`): the same key in both, and
in neither again at a later position (`lastAt_of_meet`, `meet_of_lastAt`).
-/

namespace Framework

variable {α κ : Type*} [DecidableEq κ] (key : α → κ)

/-- `{key(x): x for x in xs}`: the last entry under a key. -/
def lastAt (xs : List α) (k : κ) : Option α := xs.reverse.find? fun x => key x = k

/-- Position `i` has one key in both lists, and the key is at no later position. -/
def MeetAt (ks ls : List κ) (i : ℕ) : Prop :=
  ls[i]? = ks[i]? ∧ ∀ j, i < j → ks[j]? ≠ ks[i]? ∧ ls[j]? ≠ ks[i]?

variable {key} {xs ys : List α} {x y : α} {k : κ} {i : ℕ}

/-- The last entry under a key, with its position. -/
theorem lastAt_eq_some : lastAt key xs k = some x ↔
    ∃ i : ℕ, xs[i]? = some x ∧ key x = k ∧ ∀ j : ℕ, i < j → (xs.map key)[j]? ≠ some k := by
  rw [lastAt, List.find?_eq_some_iff_append]
  constructor
  · rintro ⟨hk, before, after, hxs, hno⟩
    rw [List.reverse_eq_iff, List.reverse_append, List.reverse_cons, List.append_assoc] at hxs
    refine ⟨after.reverse.length, by simp [hxs], by simpa using hk, fun j hj hkey => ?_⟩
    rw [List.length_reverse] at hj
    rw [hxs, List.map_append, List.getElem?_append_right (by simp; omega), List.map_append,
      List.getElem?_append_right (by simp; omega)] at hkey
    obtain ⟨a, ha, hak⟩ := List.mem_map.mp (List.mem_of_getElem? hkey)
    have := hno a (List.mem_reverse.mp ha)
    simp [hak] at this
  · rintro ⟨i, hx, hk, hlast⟩
    obtain ⟨hi, rfl⟩ := List.getElem?_eq_some_iff.mp hx
    refine ⟨by simpa using hk, (xs.drop (i + 1)).reverse, (xs.take i).reverse, ?_, fun a ha => ?_⟩
    · rw [List.reverse_eq_iff, List.reverse_append, List.reverse_cons, List.reverse_reverse,
        List.reverse_reverse, List.append_assoc]
      simp
    · obtain ⟨j, hj⟩ := List.mem_iff_getElem?.mp (List.mem_reverse.mp ha)
      rw [List.getElem?_drop] at hj
      have := hlast (i + 1 + j) (by omega)
      rw [List.getElem?_map, hj] at this
      simpa using this

theorem lastAt_key (h : lastAt key xs k = some x) : key x = k := by
  obtain ⟨_, _, hk, _⟩ := lastAt_eq_some.mp h
  exact hk

/-- Where the lists meet, an entry is compared with the entry at its own position. -/
theorem lastAt_of_meet (h : MeetAt (xs.map key) (ys.map key) i) (hx : xs[i]? = some x) :
    ∃ y, ys[i]? = some y ∧ lastAt key xs (key x) = some x ∧ lastAt key ys (key x) = some y := by
  have hkx : (xs.map key)[i]? = some (key x) := by rw [List.getElem?_map, hx]; rfl
  obtain ⟨hmeet, hlast⟩ := h
  rw [hkx] at hmeet hlast
  rw [List.getElem?_map, Option.map_eq_some_iff] at hmeet
  obtain ⟨y, hy, hky⟩ := hmeet
  exact ⟨y, hy, lastAt_eq_some.mpr ⟨i, hx, rfl, fun j hj => (hlast j hj).1⟩,
    lastAt_eq_some.mpr ⟨i, hy, hky, fun j hj => (hlast j hj).2⟩⟩

omit [DecidableEq κ] in
/-- Two last entries that stand at one position: the lists meet there. -/
theorem meet_of_lastAt (hx : xs[i]? = some x) (hy : ys[i]? = some y) (hk : key x = k) (hk' : key y = k)
    (hlast : ∀ j, i < j → (xs.map key)[j]? ≠ some k) (hlast' : ∀ j, i < j → (ys.map key)[j]? ≠ some k) :
    MeetAt (xs.map key) (ys.map key) i := by
  have hkx : (xs.map key)[i]? = some k := by rw [List.getElem?_map, hx, Option.map_some, hk]
  have hky : (ys.map key)[i]? = some k := by rw [List.getElem?_map, hy, Option.map_some, hk']
  refine ⟨hky.trans hkx.symm, fun j hj => ?_⟩
  rw [hkx]
  exact ⟨hlast j hj, hlast' j hj⟩

end Framework
