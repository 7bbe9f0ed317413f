/-!
# JSON values

JSON values as a program handles them after parsing: an object is a list of
its members in order of insertion. `get` and `set` are a dictionary's lookup
and assignment (an assignment to a key that is there keeps its place),
`update` is one dictionary spread over another, and `truthy` is the truth
value a dynamic language gives them. Equality is decidable, by recursion on
the value.
-/

namespace Framework

inductive Json
  | null
  | bool (b : Bool)
  | num (q : Rat)
  | str (s : String)
  | arr (xs : List Json)
  | obj (members : List (String × Json))
deriving Inhabited

namespace Json

mutual

def decEq : (a b : Json) → Decidable (a = b)
  | .null, .null => isTrue rfl
  | .bool a, .bool b => if h : a = b then isTrue (h ▸ rfl) else isFalse fun e => h (Json.bool.inj e)
  | .num a, .num b => if h : a = b then isTrue (h ▸ rfl) else isFalse fun e => h (Json.num.inj e)
  | .str a, .str b => if h : a = b then isTrue (h ▸ rfl) else isFalse fun e => h (Json.str.inj e)
  | .arr a, .arr b =>
    match decEqList a b with
    | isTrue h => isTrue (h ▸ rfl)
    | isFalse h => isFalse fun e => h (Json.arr.inj e)
  | .obj a, .obj b =>
    match decEqMembers a b with
    | isTrue h => isTrue (h ▸ rfl)
    | isFalse h => isFalse fun e => h (Json.obj.inj e)
  | .null, .bool _ | .null, .num _ | .null, .str _ | .null, .arr _ | .null, .obj _
  | .bool _, .null | .bool _, .num _ | .bool _, .str _ | .bool _, .arr _ | .bool _, .obj _
  | .num _, .null | .num _, .bool _ | .num _, .str _ | .num _, .arr _ | .num _, .obj _
  | .str _, .null | .str _, .bool _ | .str _, .num _ | .str _, .arr _ | .str _, .obj _
  | .arr _, .null | .arr _, .bool _ | .arr _, .num _ | .arr _, .str _ | .arr _, .obj _
  | .obj _, .null | .obj _, .bool _ | .obj _, .num _ | .obj _, .str _ | .obj _, .arr _ =>
    isFalse nofun

def decEqList : (a b : List Json) → Decidable (a = b)
  | [], [] => isTrue rfl
  | a :: as, b :: bs =>
    match decEq a b, decEqList as bs with
    | isTrue h, isTrue h' => isTrue (h ▸ h' ▸ rfl)
    | isFalse h, _ => isFalse fun e => h (List.cons.inj e).1
    | _, isFalse h => isFalse fun e => h (List.cons.inj e).2
  | [], _ :: _ | _ :: _, [] => isFalse nofun

def decEqMembers : (a b : List (String × Json)) → Decidable (a = b)
  | [], [] => isTrue rfl
  | (k, a) :: as, (l, b) :: bs =>
    if hk : k = l then
      match decEq a b, decEqMembers as bs with
      | isTrue h, isTrue h' => isTrue (hk ▸ h ▸ h' ▸ rfl)
      | isFalse h, _ => isFalse fun e => h (Prod.mk.inj (List.cons.inj e).1).2
      | _, isFalse h => isFalse fun e => h (List.cons.inj e).2
    else isFalse fun e => hk (Prod.mk.inj (List.cons.inj e).1).1
  | [], _ :: _ | _ :: _, [] => isFalse nofun

end

instance : DecidableEq Json := decEq

/-- The truth value: empty and zero values, and `null`, are false. -/
def truthy : Json → Bool
  | .null => false
  | .bool b => b
  | .num q => q ≠ 0
  | .str s => s ≠ ""
  | .arr xs => !xs.isEmpty
  | .obj ms => !ms.isEmpty

/-- The members of an object (none for any other value). -/
def members : Json → List (String × Json)
  | .obj ms => ms
  | _ => []

/-- The value under a key of an object. -/
def get (j : Json) (key : String) : Option Json := j.members.lookup key

/-- Assigns to a key: in place if the key is there, at the end if not. -/
def setMember (key : String) (value : Json) : List (String × Json) → List (String × Json)
  | [] => [(key, value)]
  | (k, v) :: ms => if k = key then (k, value) :: ms else (k, v) :: setMember key value ms

def set (j : Json) (key : String) (value : Json) : Json := .obj (setMember key value j.members)

/-- `{**j, **k}`. -/
def update (j k : Json) : Json := .obj (k.members.foldl (fun ms m => setMember m.1 m.2 ms) j.members)

/-- The truth value of the member `key`; a missing one is false. -/
def flag (j : Json) (key : String) : Bool := ((j.get key).map truthy).getD false

/-- A string, or `null` for none. -/
def ofOption : Option String → Json
  | none => .null
  | some s => .str s

@[simp] theorem truthy_cons (m : String × Json) (ms : List (String × Json)) :
    truthy (.obj (m :: ms)) = true := rfl

theorem truthy_of_flag {j : Json} {key : String} (h : j.flag key = true) : j.truthy = true := by
  cases j with
  | obj ms =>
    cases ms with
    | nil => simp [flag, get, members] at h
    | cons => rfl
  | _ => simp [flag, get, members] at h

theorem lookup_setMember_ne {key key' : String} (hk : key' ≠ key) (value : Json)
    (ms : List (String × Json)) : (setMember key value ms).lookup key' = ms.lookup key' := by
  induction ms with
  | nil => simp [setMember, hk]
  | cons m ms ih =>
    obtain ⟨k, v⟩ := m
    by_cases h : k = key
    · have : key' ≠ k := h ▸ hk
      simp [setMember, h, List.lookup_cons, beq_eq_false_iff_ne.mpr hk]
    · by_cases h' : key' = k
      · simp [setMember, h, h']
      · simp only [setMember, h, if_false, List.lookup_cons, beq_eq_false_iff_ne.mpr h']
        exact ih

theorem get_set_ne (j : Json) {key key' : String} (h : key' ≠ key) (value : Json) :
    (j.set key value).get key' = j.get key' := lookup_setMember_ne h value j.members

end Json

end Framework
