import CodeMate.Framework.JsonPath
import Mathlib.Data.List.Infix

/-!
# What an approver and the audit log are shown

`redact_sensitive` puts a marker for every value under a sensitive key, at any
depth, and keeps everything else. A path is open when none of its keys is
sensitive: along an open path the redacted value is the redaction of what
stood there (`part_redactSensitive`), so its shape and its leaves are kept, and
beyond one there is nothing but the marker (`marker_of_sensitive`).
-/

namespace CodeMate.Mcp

open Framework

/-- `SENSITIVE_KEY_PARTS`. -/
def sensitiveKeyParts : List String := ["authorization", "password", "secret", "token", "api_key", "apikey"]

def redactedText : String := "***redacted***"

section

variable (lower : String → String)

/-- `key.lower().replace("-", "_")`. -/
def normalizedKey (key : String) : List Char := (lower key).toList.map fun c => if c = '-' then '_' else c

/-- `any(part in normalized for part in SENSITIVE_KEY_PARTS)`. -/
def sensitiveKey (key : String) : Bool := sensitiveKeyParts.any fun part => part.toList <:+: normalizedKey lower key

mutual

/-- The keys of an object are distinct, so that each assignment to the new
dictionary adds a member at its end. -/
def redactSensitive : Json → Json
  | .obj ms => .obj (redactMembers ms)
  | .arr xs => .arr (redactItems xs)
  | v => v

def redactMembers : List (String × Json) → List (String × Json)
  | [] => []
  | (key, item) :: ms =>
    (key, if sensitiveKey lower key then .str redactedText else redactSensitive item) :: redactMembers ms

def redactItems : List Json → List Json
  | [] => []
  | item :: xs => redactSensitive item :: redactItems xs

end

/-- None of the keys along the path is sensitive. -/
def OpenPath (v : Json) (path : List Nat) : Prop := ∀ key ∈ v.keysTo path, sensitiveKey lower key = false

/-- The two values are the same but for what stands under sensitive keys. -/
def Alike (v w : Json) : Prop :=
  ∀ path, OpenPath lower v path → (v.part path).map Json.top = (w.part path).map Json.top

/-- What the walk puts for a value that stands in a list or under a key. -/
def shown (c : Option String × Json) : Option String × Json :=
  (c.1, if c.1.any (sensitiveKey lower) then .str redactedText else redactSensitive lower c.2)

end

variable {lower : String → String}

/-! ## One step of the walk -/

theorem redactItems_eq (xs : List Json) : redactItems lower xs = xs.map (redactSensitive lower) := by
  induction xs with
  | nil => rfl
  | cons x xs ih => rw [redactItems, ih, List.map_cons]

theorem redactMembers_eq (ms : List (String × Json)) :
    redactMembers lower ms =
      ms.map fun m => (m.1, if sensitiveKey lower m.1 then .str redactedText else redactSensitive lower m.2) := by
  induction ms with
  | nil => rfl
  | cons m ms ih => rw [redactMembers, ih, List.map_cons]

@[simp] theorem top_redactSensitive (v : Json) : (redactSensitive lower v).top = v.top := by
  cases v with
  | arr xs => rw [redactSensitive, redactItems_eq, Json.top, Json.top, List.map_map]; rfl
  | obj ms => rw [redactSensitive, redactMembers_eq, Json.top, Json.top, List.map_map]; rfl
  | _ => simp only [redactSensitive, Json.top]

theorem children_redactSensitive (v : Json) : (redactSensitive lower v).children = v.children.map (shown lower) := by
  cases v <;> simp [redactSensitive, redactItems_eq, redactMembers_eq, Json.children, shown]

theorem child_redactSensitive {v : Json} {i : Nat} {c : Option String × Json} (h : v.children[i]? = some c) :
    (redactSensitive lower v).children[i]? = some (shown lower c) := by
  rw [children_redactSensitive, List.getElem?_map, h, Option.map_some]

theorem shown_of_open {c : Option String × Json} (h : c.1.any (sensitiveKey lower) = false) :
    shown lower c = (c.1, redactSensitive lower c.2) := by
  simp [shown, h]

theorem shown_of_sensitive {c : Option String × Json} (h : c.1.any (sensitiveKey lower) = true) :
    shown lower c = (c.1, .str redactedText) := by
  simp [shown, h]

theorem open_cons {v : Json} {i : Nat} {c : Option String × Json} (h : v.children[i]? = some c) (path : List Nat) :
    OpenPath lower v (i :: path) ↔ c.1.any (sensitiveKey lower) = false ∧ OpenPath lower c.2 path := by
  unfold OpenPath
  rw [Json.keysTo_cons_of h]
  cases c.1 <;> simp [or_imp, forall_and]

/-! ## Whole paths -/

/-- Along an open path the walk arrives with its work still to do. -/
theorem part_redactSensitive {v : Json} {path : List Nat} (h : OpenPath lower v path) :
    (redactSensitive lower v).part path = (v.part path).map (redactSensitive lower) := by
  induction path generalizing v with
  | nil => rfl
  | cons i path ih =>
    cases hc : v.children[i]? with
    | none => simp [Json.part_cons, hc, children_redactSensitive]
    | some c =>
      obtain ⟨hkey, hrest⟩ := (open_cons hc path).mp h
      rw [Json.part_cons_of (child_redactSensitive hc), shown_of_open hkey, Json.part_cons_of hc]
      exact ih hrest

theorem keysTo_redactSensitive {v : Json} {path : List Nat} (h : OpenPath lower v path) :
    (redactSensitive lower v).keysTo path = v.keysTo path := by
  induction path generalizing v with
  | nil => rfl
  | cons i path ih =>
    cases hc : v.children[i]? with
    | none => simp [Json.keysTo, hc, children_redactSensitive]
    | some c =>
      obtain ⟨hkey, hrest⟩ := (open_cons hc path).mp h
      rw [Json.keysTo_cons_of (child_redactSensitive hc), shown_of_open hkey, Json.keysTo_cons_of hc]
      exact congrArg (c.1.toList ++ ·) (ih hrest)

/-- Whatever the output holds under a sensitive key is the marker. -/
theorem marker_of_sensitive {v w : Json} {path : List Nat} (hw : (redactSensitive lower v).part path = some w)
    (h : ¬ OpenPath lower (redactSensitive lower v) path) : w = .str redactedText := by
  induction path generalizing v with
  | nil => simp [OpenPath] at h
  | cons i path ih =>
    cases hc : v.children[i]? with
    | none => simp [Json.part_cons, hc, children_redactSensitive] at hw
    | some c =>
      have hchild : (redactSensitive lower v).children[i]? = some (shown lower c) := child_redactSensitive hc
      rw [Json.part_cons_of hchild] at hw
      rw [open_cons hchild] at h
      cases hkey : c.1.any (sensitiveKey lower) with
      | false =>
        rw [shown_of_open hkey] at hw h
        exact ih hw fun hopen => h ⟨hkey, hopen⟩
      | true =>
        rw [shown_of_sensitive hkey] at hw
        cases path with
        | nil => exact (Option.some.inj hw).symm
        | cons => simp [Json.part_cons, Json.children] at hw

/-- What the redaction shows at a path is settled by the tops along open paths. -/
theorem top_part_of_alike {v w : Json} (h : Alike lower v w) (path : List Nat) :
    ((redactSensitive lower v).part path).map Json.top = ((redactSensitive lower w).part path).map Json.top := by
  induction path generalizing v w with
  | nil =>
    have := h [] (by simp [OpenPath])
    simpa using this
  | cons i path ih =>
    have htop : v.top = w.top := by simpa using h [] (by simp [OpenPath])
    have hkey : (v.children[i]?).map Prod.fst = (w.children[i]?).map Prod.fst := by
      rw [← List.getElem?_map, ← List.getElem?_map, Json.keys_eq_of_top htop]
    cases hc : v.children[i]? with
    | none =>
      rw [hc, Option.map_none, eq_comm, Option.map_eq_none_iff] at hkey
      simp [Json.part_cons, hc, hkey, children_redactSensitive]
    | some c =>
      rw [hc, Option.map_some, eq_comm, Option.map_eq_some_iff] at hkey
      obtain ⟨d, hd, hfst⟩ := hkey
      rw [Json.part_cons_of (child_redactSensitive hc), Json.part_cons_of (child_redactSensitive hd)]
      cases hs : c.1.any (sensitiveKey lower) with
      | true => rw [shown_of_sensitive hs, shown_of_sensitive (hfst ▸ hs)]
      | false =>
        rw [shown_of_open hs, shown_of_open (hfst ▸ hs)]
        refine ih fun path hopen => ?_
        simpa only [Json.part_cons_of hc, Json.part_cons_of hd] using
          h (i :: path) ((open_cons hc path).mpr ⟨hs, hopen⟩)

theorem redactSensitive_eq_of_alike {v w : Json} (h : Alike lower v w) :
    redactSensitive lower v = redactSensitive lower w :=
  Json.ext_part (top_part_of_alike h)

/-- A value is told from its redaction only by what stands under sensitive keys. -/
theorem alike_redactSensitive (v : Json) : Alike lower v (redactSensitive lower v) := fun path h => by
  rw [part_redactSensitive h, Option.map_map]
  exact congrArg (Option.map · _) (funext fun w => (top_redactSensitive w).symm)

/-- At any depth the output holds nothing but the marker under a sensitive key;
elsewhere it has the shape and the leaves of the input; inputs that are alike
outside sensitive keys have one redaction, which redacting again does not
change. -/
theorem redactSensitive_spec (lower : String → String) (v : Json) :
    (∀ path w, (redactSensitive lower v).part path = some w →
      (∃ key ∈ (redactSensitive lower v).keysTo path, sensitiveKey lower key = true) → w = .str redactedText) ∧
    (∀ path, (∀ key ∈ v.keysTo path, sensitiveKey lower key = false) →
      (redactSensitive lower v).keysTo path = v.keysTo path ∧
        ((redactSensitive lower v).part path).map Json.top = (v.part path).map Json.top) ∧
    (∀ w, Alike lower v w → redactSensitive lower w = redactSensitive lower v) ∧
    redactSensitive lower (redactSensitive lower v) = redactSensitive lower v := by
  refine ⟨fun path w hw ⟨key, hmem, hkey⟩ => marker_of_sensitive hw fun hopen => ?_, fun path hopen => ⟨?_, ?_⟩,
    fun w h => (redactSensitive_eq_of_alike h).symm, (redactSensitive_eq_of_alike (alike_redactSensitive v)).symm⟩
  · rw [hopen key hmem] at hkey
    cases hkey
  · exact keysTo_redactSensitive hopen
  · exact (alike_redactSensitive v path hopen).symm

end CodeMate.Mcp
