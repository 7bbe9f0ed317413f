import CodeMate.Framework.Json

/-!
# Paths into JSON values

A path is a list of positions: `part` is what stands at its end, `keysTo` the
keys of the objects it goes through, and `top` a value without what stands
below it. Two values are the same when their tops are at every path
(`ext_part`), which turns a fact about a walk over nested values into one
about a single step of it (`part_cons`).
-/

namespace Framework.Json

/-- The values directly inside a value, each with its key if it has one. -/
def children : Json → List (Option String × Json)
  | .arr xs => xs.map (none, ·)
  | .obj ms => ms.map fun m => (some m.1, m.2)
  | _ => []

/-- The value at a path of positions. -/
def part : Json → List Nat → Option Json
  | v, [] => some v
  | v, i :: path => (v.children[i]?).bind fun c => c.2.part path

/-- The keys on the way along a path. -/
def keysTo : Json → List Nat → List String
  | _, [] => []
  | v, i :: path => ((v.children[i]?).map fun c => c.1.toList ++ c.2.keysTo path).getD []

/-- A value by itself: its kind, its keys and how many values it holds, and the
value of a leaf. -/
def top : Json → Json
  | .arr xs => .arr (xs.map fun _ => .null)
  | .obj ms => .obj (ms.map fun m => (m.1, .null))
  | v => v

@[simp] theorem part_nil (v : Json) : v.part [] = some v := rfl

theorem part_cons (v : Json) (i : Nat) (path : List Nat) :
    v.part (i :: path) = (v.children[i]?).bind fun c => c.2.part path := rfl

theorem part_cons_of {v : Json} {i : Nat} {c : Option String × Json} (h : v.children[i]? = some c) (path : List Nat) :
    v.part (i :: path) = c.2.part path := by
  rw [part_cons, h, Option.bind_some]

@[simp] theorem keysTo_nil (v : Json) : v.keysTo [] = [] := rfl

theorem keysTo_cons_of {v : Json} {i : Nat} {c : Option String × Json} (h : v.children[i]? = some c)
    (path : List Nat) : v.keysTo (i :: path) = c.1.toList ++ c.2.keysTo path := by
  rw [keysTo, h, Option.map_some, Option.getD_some]

theorem part_append (v : Json) (path rest : List Nat) :
    v.part (path ++ rest) = (v.part path).bind fun w => w.part rest := by
  induction path generalizing v with
  | nil => rfl
  | cons i path ih =>
    rw [List.cons_append, part_cons, part_cons]
    cases v.children[i]? with
    | none => rfl
    | some c => exact ih c.2

/-- A value inside another is smaller. -/
theorem sizeOf_child {v : Json} {c : Option String × Json} (h : c ∈ v.children) : sizeOf c.2 < sizeOf v := by
  cases v with
  | arr xs =>
    obtain ⟨x, hx, rfl⟩ := List.mem_map.mp h
    have := List.sizeOf_lt_of_mem hx
    simp only [arr.sizeOf_spec]
    omega
  | obj ms =>
    obtain ⟨⟨key, x⟩, hx, rfl⟩ := List.mem_map.mp h
    have := List.sizeOf_lt_of_mem hx
    simp only [Prod.mk.sizeOf_spec] at this
    simp only [obj.sizeOf_spec]
    omega
  | _ => cases h

/-- What holds of a value whenever it holds of all that is directly inside it,
holds of every value. -/
theorem induction_children {P : Json → Prop} (step : ∀ v : Json, (∀ c ∈ v.children, P c.2) → P v) (v : Json) : P v :=
  step v fun c hc =>
    have := sizeOf_child hc
    induction_children step c.2
termination_by sizeOf v

theorem children_keys (v : Json) : v.top.children.map Prod.fst = v.children.map Prod.fst := by
  cases v <;> simp [top, children]

theorem keys_eq_of_top {v w : Json} (h : v.top = w.top) : v.children.map Prod.fst = w.children.map Prod.fst := by
  rw [← children_keys, h, children_keys]

theorem eq_of_children {v w : Json} (h : v.top = w.top) (hc : v.children = w.children) : v = w := by
  cases v <;> cases w <;> simp only [top, reduceCtorEq] at h
  case arr xs ys =>
    have := congrArg (List.map Prod.snd) hc
    simpa [children, Function.comp_def] using this
  case obj ms ns =>
    exact congrArg obj ((List.map_inj_right fun a b hab => by simpa [Prod.ext_iff] using hab).mp hc)
  case null.null => rfl
  all_goals exact h

/-- Two values with the same tops at every path are the same. -/
theorem ext_part {v w : Json} (h : ∀ path, (v.part path).map top = (w.part path).map top) : v = w := by
  induction v using induction_children generalizing w with
  | step v ih =>
    have htop : v.top = w.top := by simpa using h []
    have hkeys := keys_eq_of_top htop
    refine eq_of_children htop (List.ext_getElem? fun i => ?_)
    have hkey : (v.children[i]?).map Prod.fst = (w.children[i]?).map Prod.fst := by
      rw [← List.getElem?_map, ← List.getElem?_map, hkeys]
    cases hv : v.children[i]? with
    | none =>
      rw [hv] at hkey
      exact (Option.map_eq_none_iff.mp hkey.symm).symm
    | some c =>
      rw [hv] at hkey
      obtain ⟨d, hw, hfst⟩ := Option.map_eq_some_iff.mp hkey.symm
      have hsnd : c.2 = d.2 := ih c (List.mem_of_getElem? hv) fun path => by
        simpa only [part_cons_of hv, part_cons_of hw] using h (i :: path)
      rw [hw, Prod.ext hfst.symm hsnd]

end Framework.Json
