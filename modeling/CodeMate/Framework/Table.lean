import Mathlib.Data.List.Nodup
import Mathlib.Data.List.Sort

/-!
# Tables with a key

A table is a list of rows with a key column, no two of them with one key
(`Keyed`). `find` is the row under a key, `store` replaces rows by those that
have their key, `merge` adds a row where there is none, `oldest` selects the first rows of an order among those that
meet a condition. `Keyed.find_eq_some` and `Keyed.mem_store` are membership in
the terms of the rows.
-/

namespace Framework.Table

variable {ρ κ τ : Type*} (key : ρ → κ)

/-- No two rows have one key. -/
def Keyed (db : List ρ) : Prop := (db.map key).Nodup

section

variable {key} {db : List ρ} {a b : ρ}

theorem Keyed.nil : Keyed key [] := List.nodup_nil

theorem Keyed.eq (h : Keyed key db) (ha : a ∈ db) (hb : b ∈ db) (hk : key a = key b) : a = b :=
  List.inj_on_of_nodup_map h ha hb hk

theorem Keyed.sublist {db' : List ρ} (h : Keyed key db) (hs : db'.Sublist db) : Keyed key db' :=
  List.Nodup.sublist (hs.map key) h

theorem Keyed.perm {db' : List ρ} (h : Keyed key db) (hp : db'.Perm db) : Keyed key db' :=
  (hp.map key).nodup_iff.mpr h

/-- Rows that are changed under their keys. -/
theorem Keyed.map {f : ρ → ρ} (h : Keyed key db) (hf : ∀ row ∈ db, key (f row) = key row) :
    Keyed key (db.map f) := by
  have hkeys : (db.map f).map key = db.map key := by rw [List.map_map]; exact List.map_congr_left hf
  rw [Keyed, hkeys]
  exact h

/-- Rows with other keys added. -/
theorem Keyed.append {rows : List ρ} (h : Keyed key db) (hr : Keyed key rows)
    (hn : ∀ row ∈ rows, key row ∉ db.map key) : Keyed key (db ++ rows) := by
  rw [Keyed, List.map_append, List.nodup_append]
  refine ⟨h, hr, fun a ha b hb hab => ?_⟩
  obtain ⟨row, hrow, rfl⟩ := List.mem_map.mp hb
  exact hn row hrow (hab ▸ ha)

end

section Find

variable [DecidableEq κ]

/-- The row under a key. -/
def find (db : List ρ) (k : κ) : Option ρ := db.find? fun row => key row = k

/-- The table with `rows` stored over the rows that have their keys. -/
def store (rows db : List ρ) : List ρ := db.map fun row => (find key rows (key row)).getD row

/-- The table with a row that is added, or stored over the one that has its key. -/
def merge (new : ρ) (db : List ρ) : List ρ := new :: db.filter fun row => key row ≠ key new

variable {key} {db rows : List ρ} {a : ρ} {k : κ}

theorem find_some (h : find key db k = some a) : a ∈ db ∧ key a = k :=
  ⟨List.mem_of_find?_eq_some h, by simpa using List.find?_some h⟩

theorem Keyed.find_eq_some (h : Keyed key db) : find key db k = some a ↔ a ∈ db ∧ key a = k := by
  refine ⟨find_some, fun ⟨ha, hk⟩ => ?_⟩
  cases hf : find key db k with
  | none =>
    have hno := List.find?_eq_none.mp hf a ha
    simp [hk] at hno
  | some b =>
    obtain ⟨hb, hkb⟩ := find_some hf
    rw [h.eq hb ha (hkb.trans hk.symm)]

theorem find_isSome : (find key db k).isSome ↔ k ∈ db.map key := by
  simp [find, List.mem_map]

theorem find_eq_none : find key db k = none ↔ k ∉ db.map key := by
  simp [find, List.mem_map]

/-- What a stored table has under the key of a row. -/
theorem key_stored (row : ρ) : key ((find key rows (key row)).getD row) = key row := by
  cases h : find key rows (key row) with
  | none => rfl
  | some new => exact (find_some h).2

theorem Keyed.store (h : Keyed key db) : Keyed key (store key rows db) :=
  h.map fun row _ => key_stored row

theorem keys_store : (store key rows db).map key = db.map key := by
  rw [Table.store, List.map_map]
  exact List.map_congr_left fun row _ => key_stored row

/-- A row of the stored table is one of those that were stored, or was there
before under another key. -/
theorem Keyed.mem_store (hr : Keyed key rows) :
    a ∈ Table.store key rows db ↔ a ∈ rows ∧ key a ∈ db.map key ∨ a ∈ db ∧ key a ∉ rows.map key := by
  rw [Table.store, List.mem_map]
  constructor
  · rintro ⟨row, hrow, rfl⟩
    cases hf : find key rows (key row) with
    | none => exact .inr ⟨hrow, find_eq_none.mp hf⟩
    | some new =>
      obtain ⟨hnew, hk⟩ := find_some hf
      exact .inl ⟨hnew, hk ▸ List.mem_map_of_mem hrow⟩
  · rintro (⟨ha, hk⟩ | ⟨ha, hk⟩)
    · obtain ⟨row, hrow, hkr⟩ := List.mem_map.mp hk
      exact ⟨row, hrow, by rw [hkr, hr.find_eq_some.mpr ⟨ha, rfl⟩]; rfl⟩
    · exact ⟨a, ha, by rw [find_eq_none.mpr hk]; rfl⟩

theorem find_singleton {new : ρ} : find key [new] k = if key new = k then some new else none := by
  rw [find, List.find?_cons, List.find?_nil]
  split <;> simp_all

theorem store_of_notMem {new : ρ} (h : key new ∉ db.map key) : store key [new] db = db := by
  refine (List.map_congr_left fun row hrow => ?_).trans (List.map_id db)
  have hne : ¬ key new = key row := fun heq => h (heq ▸ List.mem_map_of_mem hrow)
  rw [find_singleton, if_neg hne]
  rfl

/-- What is under a key after a store: the new row where one was there before. -/
theorem find_store : find key (store key rows db) k = (find key db k).map fun row =>
    (find key rows (key row)).getD row := by
  have hkeys : ((fun row => decide (key row = k)) ∘ fun row => (find key rows (key row)).getD row) =
      fun row => decide (key row = k) := by
    funext row
    exact congrArg (fun k' => decide (k' = k)) (key_stored row)
  rw [find, store, List.find?_map, hkeys]
  rfl

theorem find_merge {new : ρ} : find key (merge key new db) k = if key new = k then some new else find key db k := by
  rw [find, merge, List.find?_cons]
  by_cases hk : key new = k
  · rw [if_pos hk, decide_eq_true hk]
  · have hother : (fun row => decide (key row ≠ key new) && decide (key row = k)) =
        fun row => decide (key row = k) := by
      funext row
      by_cases hrow : key row = k
      · simp [hrow, Ne.symm hk]
      · simp [hrow]
    rw [if_neg hk, decide_eq_false hk, List.find?_filter]
    simp only [Bool.decide_and, Bool.decide_eq_true]
    rw [hother]
    rfl

theorem mem_merge {new : ρ} : a ∈ merge key new db ↔ a = new ∨ a ∈ db ∧ key a ≠ key new := by
  simp [merge]

/-- A row that is stored over another changes a count by these two rows. -/
theorem Keyed.countP_store {old new : ρ} (p : ρ → Bool) (hk : key new = key old) : ∀ {db : List ρ},
    Keyed key db → old ∈ db → (Table.store key [new] db).countP p + (if p old then 1 else 0) =
      db.countP p + (if p new then 1 else 0)
  | [], _, h => absurd h List.not_mem_nil
  | a :: db, hkeyed, h => by
    obtain ⟨hne, hrest⟩ := List.nodup_cons.mp hkeyed
    have hcons : Table.store key [new] (a :: db) =
        (if key new = key a then new else a) :: Table.store key [new] db := by
      rw [Table.store, List.map_cons, find_singleton]
      split <;> rfl
    rw [hcons, List.countP_cons, List.countP_cons]
    rcases List.mem_cons.mp h with rfl | hmem
    · rw [if_pos hk, store_of_notMem (hk ▸ hne)]
      omega
    · have ih := Keyed.countP_store p hk hrest hmem
      have hother : ¬ key new = key a := fun heq => hne (heq ▸ hk ▸ List.mem_map_of_mem hmem)
      rw [if_neg hother]
      omega

end Find

section Oldest

variable [LinearOrder τ] (at_ : ρ → τ) (p : ρ → Bool) (limit : Nat)

/-- The first `limit` rows in the order of a column among those that meet `p`. -/
def oldest (db : List ρ) : List ρ := ((db.filter p).insertionSort fun a b => at_ a ≤ at_ b).take limit

variable {at_ p limit} {db : List ρ} {a : ρ}

theorem mem_of_oldest (h : a ∈ oldest at_ p limit db) : a ∈ db ∧ p a = true :=
  List.mem_filter.mp ((List.mem_insertionSort _).mp (List.mem_of_mem_take h))

theorem Keyed.oldest {key : ρ → κ} (h : Keyed key db) : Keyed key (oldest at_ p limit db) :=
  ((h.sublist List.filter_sublist).perm (List.perm_insertionSort _ _)).sublist (List.take_sublist _ _)

end Oldest

end Framework.Table
