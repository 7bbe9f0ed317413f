import CodeMate.Framework.JsonPath
import CodeMate.Framework.Text
import CodeMate.Sandbox.Patches
import Mathlib.Data.List.Forall2
import Mathlib.Data.List.Infix

/-!
# The public timeline

`redact_timeline_payload` puts a marker for every string of a payload, except
below an object that looks like a marker already, which it passes through:
that is what makes it idempotent (`masked_masked`), and what lets a string out
of a payload that brings such an object along (`part_of_passed`). A payload
with nothing but genuine markers in those objects is `Clean`;
`timeline_redaction_iff` says that these are the payloads whose strings are
all replaced.
-/

namespace CodeMate.Core

open Framework
open Sandbox (after?)

/-! ## The redaction -/

/-- `_SENSITIVE_KEY_MARKERS`. -/
def sensitiveKeyMarkers : List String :=
  ["api_key", "apikey", "authorization", "cookie", "credential", "password", "private_key", "secret", "token"]

/-- `_CONTENT_KEY_MARKERS`. -/
def contentKeyMarkers : List String :=
  ["argument", "command", "content", "diff", "error", "message", "output", "patch", "prompt", "query", "result",
    "stderr", "stdout", "summary"]

/-- The letter that `re.IGNORECASE` takes a character for, in a pattern of ASCII letters. -/
def foldCase (c : Char) : Char :=
  if c = '\u0130' ∨ c = '\u0131' then 'i' else if c = '\u017f' then 's' else if c = '\u212a' then 'k' else c.toLower

/-- `[A-Z ]*PRIVATE KEY-----`. -/
def endsPrivateKey : List Char → Bool
  | [] => false
  | c :: rest => "private key-----".toList.isPrefixOf (c :: rest) || ((c.isLower || c = ' ') && endsPrivateKey rest)

/-- `_SECRET_VALUE_PATTERN` at the start of a text whose case is folded. -/
def secretHere (text : List Char) : Bool :=
  ["api_key", "api-key", "apikey", "authorization", "password", "secret", "token"].any (fun word =>
    (after? word.toList text).any fun rest => (rest.dropWhile Text.isSpace).head?.any fun c => c = ':' || c = '=') ||
  (after? ['g', 'h'] text).any (fun rest => rest.head?.any (· ∈ ['p', 'o', 'u', 's', 'r']) && rest[1]? = some '_') ||
  "sk-".toList.isPrefixOf text || (after? "-----begin ".toList text).any endsPrivateKey

/-- `_SECRET_VALUE_PATTERN.search`. -/
def secretValue (text : String) : Bool := (text.toList.map foldCase).tails.any secretHere

/-- What stands for a character in `json.dumps(…, ensure_ascii=False)`. -/
def jsonEscape (c : Char) : List Char :=
  if c = '"' ∨ c = '\\' then ['\\', c]
  else match [('\n', 'n'), ('\r', 'r'), ('\t', 't'), ('\x08', 'b'), ('\x0c', 'f')].lookup c with
    | some letter => ['\\', letter]
    | none =>
      if c.toNat < 0x20 then ['\\', 'u', '0', '0', Nat.digitChar (c.toNat / 16), Nat.digitChar (c.toNat % 16)]
      else [c]

/-- `len(json.dumps(text, ensure_ascii=False))`. -/
def jsonLength (text : String) : ℕ := ('"' :: (text.toList.flatMap jsonEscape ++ ['"'])).length

section

variable (lower : String → String)

/-- `_matches`, of the lower case of the key. -/
def matchesKey (key : Option String) (markers : List String) : Bool :=
  markers.any fun marker => marker.toList <:+: (lower (key.getD "")).toList

/-- How a string under the key is classified. -/
def classification (key : Option String) (text : String) : String :=
  if secretValue text then "secret"
  else if matchesKey lower key sensitiveKeyMarkers then "secret"
  else if matchesKey lower key contentKeyMarkers then "content"
  else "text"

/-- `_redacted_marker`, without the state. -/
def redactedMarker (text classification : String) : Json :=
  .obj [("redacted", .bool true), ("classification", .str classification), ("char_count", .num (jsonLength text))]

/-- An object that is passed through. -/
def recognised : Json → Bool
  | .obj ms =>
    (Json.obj ms).get "redacted" = some (.bool true) &&
      ms.all fun m => m.1 ∈ ["redacted", "classification", "char_count"]
  | _ => false

mutual

/-- `_redact`; the state says whether a marker was put. -/
def redact (key : Option String) : Json → StateM Bool Json
  | .obj ms =>
    if recognised (.obj ms) then pure (.obj ms)
    else do
      let ms ← redactMembers ms
      return .obj ms
  | .arr xs => do
    let xs ← redactItems key xs
    return .arr xs
  | .str text => do
    set true
    return redactedMarker text (classification lower key text)
  | v => pure v

def redactMembers : List (String × Json) → StateM Bool (List (String × Json))
  | [] => pure []
  | (key, item) :: ms => do
    let item ← redact (some key) item
    let ms ← redactMembers ms
    return (key, item) :: ms

def redactItems (key : Option String) : List Json → StateM Bool (List Json)
  | [] => pure []
  | item :: xs => do
    let item ← redact key item
    let xs ← redactItems key xs
    return item :: xs

end

/-- `redact_timeline_payload`. -/
def redactTimelinePayload (value : Json) : Json × String :=
  let (payload, restricted) := (redact lower none value).run false
  (payload, if restricted then "restricted" else "metadata")

/-- The payload that the redaction of a value under a key gives. -/
def masked (key : Option String) (v : Json) : Json := ((redact lower key v).run false).1

/-- Whether the redaction puts a marker. -/
def marked : Json → Bool := fun v => ((redact lower none v).run false).2

end

variable {lower : String → String}

/-! ## One step of the walk -/

/-- The state is only ever raised, and what is put does not depend on it. -/
def Stateless (lower : String → String) (v : Json) : Prop :=
  ∀ key b, (redact lower key v).run b = (masked lower key v, b || marked lower v)

theorem stateless_of {v : Json} {f : Option String → Json} {c : Bool}
    (h : ∀ key b, (redact lower key v).run b = (f key, b || c)) : Stateless lower v := fun key b => by
  rw [h key b, masked, marked, h key false, h none false, Bool.false_or]

theorem redactItems_run {xs : List Json} (h : ∀ x ∈ xs, Stateless lower x) (key : Option String) (b : Bool) :
    (redactItems lower key xs).run b = (xs.map (masked lower key), b || xs.any (marked lower)) := by
  induction xs generalizing b with
  | nil =>
    rw [redactItems, List.any_nil, Bool.or_false]
    rfl
  | cons x xs ih =>
    have hx := h x List.mem_cons_self key b
    have hxs := ih (fun y hy => h y (List.mem_cons_of_mem x hy)) (b || marked lower x)
    rw [redactItems, StateT.run_bind, hx]
    show ((masked lower key x :: ((redactItems lower key xs).run (b || marked lower x)).1),
      ((redactItems lower key xs).run (b || marked lower x)).2) = _
    rw [hxs, List.map_cons, List.any_cons, Bool.or_assoc]

theorem redactMembers_run {ms : List (String × Json)} (h : ∀ m ∈ ms, Stateless lower m.2) (b : Bool) :
    (redactMembers lower ms).run b =
      (ms.map fun m => (m.1, masked lower (some m.1) m.2), b || ms.any fun m => marked lower m.2) := by
  induction ms generalizing b with
  | nil =>
    rw [redactMembers, List.any_nil, Bool.or_false]
    rfl
  | cons m ms ih =>
    obtain ⟨name, item⟩ := m
    have hitem := h (name, item) List.mem_cons_self (some name) b
    have hms := ih (fun m hm => h m (List.mem_cons_of_mem _ hm)) (b || marked lower item)
    rw [redactMembers, StateT.run_bind, hitem]
    show ((name, masked lower (some name) item) :: ((redactMembers lower ms).run (b || marked lower item)).1,
      ((redactMembers lower ms).run (b || marked lower item)).2) = _
    rw [hms, List.map_cons, List.any_cons, Bool.or_assoc]

theorem redact_arr {xs : List Json} (h : ∀ x ∈ xs, Stateless lower x) (key : Option String) (b : Bool) :
    (redact lower key (.arr xs)).run b = (.arr (xs.map (masked lower key)), b || xs.any (marked lower)) := by
  rw [redact, StateT.run_bind, redactItems_run h]
  rfl

theorem redact_obj {ms : List (String × Json)} (h : ∀ m ∈ ms, Stateless lower m.2) (key : Option String) (b : Bool)
    (hr : recognised (.obj ms) = false) : (redact lower key (.obj ms)).run b =
      (.obj (ms.map fun m => (m.1, masked lower (some m.1) m.2)), b || ms.any fun m => marked lower m.2) := by
  rw [redact, if_neg (by simp [hr]), StateT.run_bind, redactMembers_run h]
  rfl

theorem redact_recognised {v : Json} (h : recognised v = true) (key : Option String) (b : Bool) :
    (redact lower key v).run b = (v, b) := by
  cases v with
  | obj ms =>
    rw [redact, if_pos h]
    rfl
  | _ => cases h

theorem stateless (v : Json) : Stateless lower v := by
  induction v using Json.induction_children with
  | step v ih =>
    cases v with
    | arr xs => exact stateless_of (redact_arr fun x hx => ih (none, x) (List.mem_map.mpr ⟨x, hx, rfl⟩))
    | obj ms =>
      cases hr : recognised (.obj ms) with
      | true => exact stateless_of (c := false) fun key b => by rw [redact_recognised hr, Bool.or_false]
      | false =>
        exact stateless_of fun key b =>
          redact_obj (fun m hm => ih (some m.1, m.2) (List.mem_map.mpr ⟨m, hm, rfl⟩)) key b hr
    | str text => exact stateless_of (c := true) fun key b => by rw [redact, Bool.or_true]; rfl
    | _ => exact stateless_of (c := false) fun key b => by rw [Bool.or_false]; rfl

theorem masked_arr (key : Option String) (xs : List Json) :
    masked lower key (.arr xs) = .arr (xs.map (masked lower key)) :=
  congrArg Prod.fst (redact_arr (fun x _ => stateless x) key false)

theorem masked_obj (key : Option String) {ms : List (String × Json)} (h : recognised (.obj ms) = false) :
    masked lower key (.obj ms) = .obj (ms.map fun m => (m.1, masked lower (some m.1) m.2)) :=
  congrArg Prod.fst (redact_obj (fun m _ => stateless m.2) key false h)

theorem masked_str (key : Option String) (text : String) :
    masked lower key (.str text) = redactedMarker text (classification lower key text) := rfl

theorem masked_recognised (key : Option String) {v : Json} (h : recognised v = true) : masked lower key v = v :=
  congrArg Prod.fst (redact_recognised h key false)

theorem marked_arr (xs : List Json) : marked lower (.arr xs) = xs.any (marked lower) :=
  congrArg Prod.snd (redact_arr (fun x _ => stateless x) none false)

theorem marked_obj {ms : List (String × Json)} (h : recognised (.obj ms) = false) :
    marked lower (.obj ms) = ms.any fun m => marked lower m.2 :=
  congrArg Prod.snd (redact_obj (fun m _ => stateless m.2) none false h)

theorem marked_recognised {v : Json} (h : recognised v = true) : marked lower v = false :=
  congrArg Prod.snd (redact_recognised h none false)

/-- Neither a string nor an object that is passed through. -/
def Walked (v : Json) : Prop := recognised v = false ∧ ∀ text, v ≠ .str text

theorem top_masked {v : Json} (h : Walked v) (key : Option String) : (masked lower key v).top = v.top := by
  cases v with
  | arr xs => simp [masked_arr, Json.top, Function.comp_def]
  | obj ms => simp [masked_obj key h.1, Json.top]
  | str text => exact absurd rfl (h.2 text)
  | _ => rfl

theorem children_masked {v : Json} (h : Walked v) (key : Option String) :
    (masked lower key v).children = v.children.map fun c => (c.1, masked lower (c.1.or key) c.2) := by
  cases v with
  | arr xs => simp [masked_arr, Json.children]
  | obj ms => simp [masked_obj key h.1, Json.children]
  | str text => exact absurd rfl (h.2 text)
  | _ => rfl

theorem marked_children {v : Json} (h : Walked v) : marked lower v = v.children.any fun c => marked lower c.2 := by
  cases v with
  | arr xs => simp [marked_arr, Json.children, Function.comp_def]
  | obj ms => simp [marked_obj h.1, Json.children, Function.comp_def]
  | str text => exact absurd rfl (h.2 text)
  | _ => rfl

theorem child_masked {v : Json} (h : Walked v) (key : Option String) {i : ℕ} {c : Option String × Json}
    (hc : v.children[i]? = some c) :
    (masked lower key v).children[i]? = some (c.1, masked lower (c.1.or key) c.2) := by
  rw [children_masked h, List.getElem?_map, hc, Option.map_some]

theorem recognised_marker (text label : String) : recognised (redactedMarker text label) = true := by
  simp [recognised, redactedMarker, Json.get, Json.members]

/-- A value with something in it that is not passed through is walked. -/
theorem walked_of_child {v : Json} (h : recognised v = false) {i : ℕ} {c : Option String × Json}
    (hc : v.children[i]? = some c) : Walked v :=
  ⟨h, fun text heq => by simp [heq, Json.children] at hc⟩

/-! ## Redacting again -/

theorem masked_eq_true {key : Option String} {v : Json} : masked lower key v = .bool true ↔ v = .bool true := by
  refine ⟨fun h => ?_, fun h => by rw [h]; rfl⟩
  cases hr : recognised v with
  | true => rwa [masked_recognised key hr] at h
  | false =>
    cases v with
    | arr xs => simp [masked_arr] at h
    | obj ms => simp [masked_obj key hr] at h
    | str text => simp [masked_str, redactedMarker] at h
    | _ => exact h

theorem lookup_masked (ms : List (String × Json)) (name : String) :
    (ms.map fun m => (m.1, masked lower (some m.1) m.2)).lookup name =
      (ms.lookup name).map (masked lower (some name)) := by
  induction ms with
  | nil => rfl
  | cons m ms ih =>
    rw [List.map_cons, List.lookup_cons, List.lookup_cons]
    by_cases h : name = m.1
    · simp [h]
    · rw [beq_false_of_ne h]
      exact ih

/-- The redaction makes no object look like a marker that did not before. -/
theorem walked_masked {v : Json} (h : Walked v) (key : Option String) : Walked (masked lower key v) := by
  refine ⟨?_, fun text heq => ?_⟩
  · cases v with
    | obj ms =>
      rw [masked_obj key h.1]
      refine Eq.trans ?_ h.1
      show (decide ((ms.map fun m => (m.1, masked lower (some m.1) m.2)).lookup "redacted" = some (.bool true)) && _) =
        _
      rw [lookup_masked, List.all_map]
      have hlookup : (ms.lookup "redacted").map (masked lower (some "redacted")) = some (.bool true) ↔
          ms.lookup "redacted" = some (.bool true) := by
        cases ms.lookup "redacted" <;> simp [masked_eq_true]
      rw [decide_eq_decide.mpr hlookup]
      rfl
    | arr xs => rw [masked_arr]; rfl
    | str text => exact absurd rfl (h.2 text)
    | _ => rfl
  · have htop : (masked lower key v).top = v.top := top_masked h key
    rw [heq] at htop
    cases v <;> simp [Json.top] at htop
    exact h.2 _ rfl

theorem masked_masked (key key' : Option String) (v : Json) :
    masked lower key' (masked lower key v) = masked lower key v := by
  induction v using Json.induction_children generalizing key key' with
  | step v ih =>
    cases hr : recognised v with
    | true => rw [masked_recognised key hr, masked_recognised key' hr]
    | false =>
      by_cases hstr : ∃ text, v = .str text
      · obtain ⟨text, rfl⟩ := hstr
        exact masked_recognised key' (recognised_marker ..)
      · have hv : Walked v := ⟨hr, fun text heq => hstr ⟨text, heq⟩⟩
        have hm : Walked (masked lower key v) := walked_masked hv key
        refine Json.eq_of_children (top_masked hm key') ?_
        rw [children_masked hm, children_masked hv, List.map_map]
        exact List.map_congr_left fun c hc => congrArg (Prod.mk c.1) (ih c hc _ _)

/-! ## What becomes of a string -/

/-- The classes that a marker of the redaction may have. -/
def classes : List String := ["secret", "content", "text"]

/-- A marker as the redaction puts it, its members in any order. -/
def Genuine (v : Json) : Prop :=
  ∃ label ∈ classes, ∃ count ms, v = .obj ms ∧
    ms.Perm [("redacted", .bool true), ("classification", .str label), ("char_count", .num count)]

/-- What stands at the path is a member of a genuine marker. -/
def InMarker (p : Json) (path : List ℕ) : Prop :=
  ∃ before i v, path = before ++ [i] ∧ p.part before = some v ∧ Genuine v

/-- The path goes into an object that is passed through. -/
def Passed (p : Json) (path : List ℕ) : Prop :=
  ∃ before rest v, path = before ++ rest ∧ p.part before = some v ∧ recognised v = true

/-- The objects that are passed through hold no string but in genuine markers. -/
def Clean (p : Json) : Prop :=
  ∀ path text, Passed p path → p.part path = some (.str text) → InMarker p path

/-- There is a genuine marker for every string that is not in one. -/
def Replaced (lower : String → String) (p : Json) : Prop :=
  ∀ path text, p.part path = some (.str text) →
    InMarker p path ∨ ∃ v, (redactTimelinePayload lower p).1.part path = some v ∧ Genuine v

theorem genuine_marker (key : Option String) (text : String) :
    Genuine (redactedMarker text (classification lower key text)) := by
  refine ⟨_, ?_, _, _, rfl, .refl _⟩
  unfold classification
  split_ifs <;> simp [classes]

theorem passed_of_recognised {p : Json} (h : recognised p = true) (path : List ℕ) : Passed p path :=
  ⟨[], path, p, rfl, rfl, h⟩

theorem passed_cons {p : Json} {i : ℕ} {path : List ℕ} (h : Passed p (i :: path)) (hr : recognised p = false) :
    ∃ c, p.children[i]? = some c ∧ Passed c.2 path := by
  obtain ⟨before, rest, v, heq, hpart, hv⟩ := h
  cases before with
  | nil => rw [Option.some.inj hpart, hv] at hr; cases hr
  | cons j before =>
    obtain ⟨rfl, rfl⟩ := List.cons.inj heq
    cases hc : p.children[i]? with
    | none => simp [Json.part_cons, hc] at hpart
    | some c =>
      rw [Json.part_cons_of hc] at hpart
      exact ⟨c, rfl, before, rest, v, rfl, hpart, hv⟩

theorem Passed.cons {p : Json} {i : ℕ} {c : Option String × Json} {path : List ℕ} (h : Passed c.2 path)
    (hc : p.children[i]? = some c) : Passed p (i :: path) := by
  obtain ⟨before, rest, v, rfl, hpart, hv⟩ := h
  exact ⟨i :: before, rest, v, rfl, by rwa [Json.part_cons_of hc], hv⟩

/-- What is passed through stays as it is. -/
theorem part_of_passed (key : Option String) {p : Json} {path : List ℕ} (h : Passed p path) :
    (masked lower key p).part path = p.part path := by
  induction path generalizing p key with
  | nil =>
    obtain ⟨before, rest, v, heq, hpart, hv⟩ := h
    obtain ⟨rfl, rfl⟩ := List.append_eq_nil_iff.mp heq.symm
    rw [Option.some.inj hpart, masked_recognised key hv]
  | cons i path ih =>
    cases hr : recognised p with
    | true => rw [masked_recognised key hr]
    | false =>
      obtain ⟨c, hc, hpassed⟩ := passed_cons h hr
      rw [Json.part_cons_of (child_masked (walked_of_child hr hc) key hc), Json.part_cons_of hc]
      exact ih _ hpassed

/-- Every other string is replaced. -/
theorem part_of_not_passed (key : Option String) {p : Json} {path : List ℕ} {text : String} (h : ¬ Passed p path)
    (hpart : p.part path = some (.str text)) : ∃ v, (masked lower key p).part path = some v ∧ Genuine v := by
  induction path generalizing p key with
  | nil =>
    rw [Option.some.inj hpart]
    exact ⟨_, rfl, genuine_marker key text⟩
  | cons i path ih =>
    have hr : recognised p = false := Bool.eq_false_iff.mpr fun hr => h (passed_of_recognised hr _)
    cases hc : p.children[i]? with
    | none => simp [Json.part_cons, hc] at hpart
    | some c =>
      rw [Json.part_cons_of hc] at hpart
      rw [Json.part_cons_of (child_masked (walked_of_child hr hc) key hc)]
      exact ih _ (fun hpassed => h (hpassed.cons hc)) hpart

theorem not_genuine_str (text : String) : ¬ Genuine (.str text) := fun ⟨_, _, _, _, h, _⟩ => by cases h

theorem replaced_iff_clean (p : Json) : Replaced lower p ↔ Clean p := by
  refine ⟨fun h path text hpassed hpart => ?_, fun h path text hpart => ?_⟩
  · refine (h path text hpart).resolve_right fun ⟨v, hv, hgenuine⟩ => ?_
    rw [show (redactTimelinePayload lower p).1 = masked lower none p from rfl, part_of_passed none hpassed,
      hpart] at hv
    rw [← Option.some.inj hv] at hgenuine
    exact not_genuine_str text hgenuine
  · by_cases hpassed : Passed p path
    · exact .inl (h path text hpassed hpart)
    · exact .inr (part_of_not_passed none hpassed hpart)

/-! ## Payloads that differ in strings alone -/

/-- The same by themselves, or strings of one length of which both are secrets or neither is. -/
def SameLeaf (v w : Json) : Prop :=
  v.top = w.top ∨
    ∃ text text', v = .str text ∧ w = .str text' ∧ jsonLength text = jsonLength text' ∧
      secretValue text = secretValue text'

/-- The same shape and keys, and strings that the redaction cannot tell apart. -/
def Similar (p q : Json) : Prop := ∀ path, Option.Rel SameLeaf (p.part path) (q.part path)

theorem Similar.self {p q : Json} (h : Similar p q) : SameLeaf p q := by
  cases h []
  assumption

theorem Similar.keys {p q : Json} (h : Similar p q) : p.children.map Prod.fst = q.children.map Prod.fst := by
  rcases h.self with h | ⟨_, _, rfl, rfl, -⟩
  · exact Json.keys_eq_of_top h
  · rfl

theorem Similar.child {p q : Json} (h : Similar p q) {i : ℕ} {c : Option String × Json}
    (hc : p.children[i]? = some c) : ∃ d, q.children[i]? = some d ∧ d.1 = c.1 ∧ Similar c.2 d.2 := by
  have hkey : (p.children[i]?).map Prod.fst = (q.children[i]?).map Prod.fst := by
    rw [← List.getElem?_map, ← List.getElem?_map, h.keys]
  rw [hc, Option.map_some, eq_comm, Option.map_eq_some_iff] at hkey
  obtain ⟨d, hd, hfst⟩ := hkey
  refine ⟨d, hd, hfst, fun path => ?_⟩
  simpa only [Json.part_cons_of hc, Json.part_cons_of hd] using h (i :: path)

theorem Similar.no_child {p q : Json} (h : Similar p q) {i : ℕ} (hc : p.children[i]? = none) :
    q.children[i]? = none := by
  have hkey : (p.children[i]?).map Prod.fst = (q.children[i]?).map Prod.fst := by
    rw [← List.getElem?_map, ← List.getElem?_map, h.keys]
  rw [hc, Option.map_none, eq_comm, Option.map_eq_none_iff] at hkey
  exact hkey

theorem SameLeaf.true_iff {v w : Json} (h : SameLeaf v w) : v = .bool true ↔ w = .bool true := by
  rcases h with h | ⟨_, _, rfl, rfl, -⟩
  · cases v <;> cases w <;> simp_all [Json.top]
  · simp

theorem lookup_true_congr {ms ns : List (String × Json)} (name : String)
    (h : List.Forall₂ (fun m n => m.1 = n.1 ∧ SameLeaf m.2 n.2) ms ns) :
    ms.lookup name = some (.bool true) ↔ ns.lookup name = some (.bool true) := by
  induction h with
  | nil => rfl
  | @cons m n ms ns hmn _ ih =>
    obtain ⟨hkey, hleaf⟩ := hmn
    rw [List.lookup_cons, List.lookup_cons, hkey]
    by_cases h : name = n.1
    · simpa [h] using hleaf.true_iff
    · rw [beq_false_of_ne h]
      exact ih

/-- Members that differ in strings alone come in pairs. -/
theorem Similar.members {ms ns : List (String × Json)} (h : Similar (.obj ms) (.obj ns)) :
    List.Forall₂ (fun m n => m.1 = n.1 ∧ SameLeaf m.2 n.2) ms ns := by
  have hlength : ms.length = ns.length := by
    simpa [Json.children] using congrArg List.length h.keys
  refine List.forall₂_iff_get.mpr ⟨hlength, fun i hm hn => ?_⟩
  have hc : (Json.obj ms).children[i]? = some (some (ms.get ⟨i, hm⟩).1, (ms.get ⟨i, hm⟩).2) := by
    simp [Json.children, hm]
  obtain ⟨d, hd, hfst, hsimilar⟩ := h.child hc
  have hd' : (Json.obj ns).children[i]? = some (some (ns.get ⟨i, hn⟩).1, (ns.get ⟨i, hn⟩).2) := by
    simp [Json.children, hn]
  rw [hd', Option.some.injEq] at hd
  subst hd
  exact ⟨(Option.some.inj hfst).symm, hsimilar.self⟩

theorem recognised_congr {p q : Json} (h : Similar p q) : recognised p = recognised q := by
  rcases h.self with htop | ⟨_, _, rfl, rfl, -⟩
  · cases p <;> cases q <;> try first | rfl | cases htop
    next ms ns =>
    have hkeys : ms.map Prod.fst = ns.map Prod.fst := by
      simpa [Json.children, Function.comp_def] using congrArg (List.map (·.getD "")) h.keys
    have hall (ms : List (String × Json)) :
        (ms.all fun m => m.1 ∈ ["redacted", "classification", "char_count"]) =
          (ms.map Prod.fst).all fun name => name ∈ ["redacted", "classification", "char_count"] := by
      rw [List.all_map]
      rfl
    show (decide (ms.lookup "redacted" = some (.bool true)) && _) =
      (decide (ns.lookup "redacted" = some (.bool true)) && _)
    rw [hall ms, hall ns, hkeys, decide_eq_decide.mpr (lookup_true_congr "redacted" h.members)]
  · rfl

theorem Walked.congr {p q : Json} (h : Similar p q) (hp : Walked p) : Walked q := by
  refine ⟨(recognised_congr h).symm.trans hp.1, ?_⟩
  rintro text rfl
  rcases h.self with htop | ⟨text', _, rfl, -⟩
  · cases p <;> cases htop
    exact hp.2 _ rfl
  · exact hp.2 text' rfl

theorem marked_eq {p q : Json} (h : Similar p q) : marked lower p = marked lower q := by
  induction p using Json.induction_children generalizing q with
  | step p ih =>
    cases hr : recognised p with
    | true => rw [marked_recognised hr, marked_recognised (recognised_congr h ▸ hr)]
    | false =>
      by_cases hstr : ∃ text, p = .str text
      · obtain ⟨text, rfl⟩ := hstr
        rcases h.self with htop | ⟨_, text', -, rfl, -⟩
        · cases q <;> cases htop
          rfl
        · rfl
      have hp : Walked p := ⟨hr, fun text heq => hstr ⟨text, heq⟩⟩
      have hany (v : Json) : (v.children.any fun c => marked lower c.2) =
          (v.children.map fun c => marked lower c.2).any id := by
        rw [List.any_map]
        rfl
      rw [marked_children hp, marked_children (hp.congr h), hany p, hany q]
      congr 1
      refine List.ext_getElem? fun i => ?_
      rw [List.getElem?_map, List.getElem?_map]
      cases hc : p.children[i]? with
      | none => rw [h.no_child hc]
      | some c =>
        obtain ⟨d, hd, -, hsimilar⟩ := h.child hc
        rw [hd, Option.map_some, Option.map_some, ih c (List.mem_of_getElem? hc) hsimilar]

/-- Two strings of genuine markers are the same if they are of one length. -/
theorem label_eq : ∀ text ∈ classes, ∀ text' ∈ classes, jsonLength text = jsonLength text' → text = text' := by
  decide

theorem InMarker.label {p : Json} {path : List ℕ} {text : String} (h : InMarker p path)
    (hpart : p.part path = some (.str text)) : text ∈ classes := by
  obtain ⟨before, i, v, rfl, hv, label, hlabel, count, ms, rfl, hperm⟩ := h
  rw [Json.part_append, hv, Option.bind_some, Json.part_cons] at hpart
  obtain ⟨c, hc, hpart⟩ := Option.bind_eq_some_iff.mp hpart
  obtain ⟨m, hm, rfl⟩ := List.mem_map.mp (List.mem_of_getElem? hc)
  have hmem := hperm.mem_iff.mp hm
  have hstr : m.2 = .str text := Option.some.inj hpart
  simp only [List.mem_cons, List.not_mem_nil, or_false] at hmem
  rcases hmem with rfl | rfl | rfl
  · cases hstr
  · rwa [← Json.str.inj hstr]
  · cases hstr

/-- Clean objects that are passed through have no string to differ in. -/
theorem eq_of_recognised {p q : Json} (h : Similar p q) (hp : Clean p) (hq : Clean q) (hr : recognised p = true) :
    p = q := by
  refine Json.ext_part fun path => ?_
  have hpassed := passed_of_recognised hr path
  have hpassed' := passed_of_recognised (recognised_congr h ▸ hr) path
  have hrel := h path
  generalize hv : p.part path = v at hrel
  generalize hw : q.part path = w at hrel
  cases hrel with
  | none => rfl
  | some hleaf =>
    rcases hleaf with htop | ⟨text, text', rfl, rfl, hlength, -⟩
    · exact congrArg some htop
    · rw [label_eq text ((hp path text hpassed hv).label hv) text' ((hq path text' hpassed' hw).label hw) hlength]

theorem Clean.child {p : Json} (h : Clean p) {i : ℕ} {c : Option String × Json} (hc : p.children[i]? = some c) :
    Clean c.2 := by
  intro path text hpassed hpart
  have hin := h (i :: path) text (hpassed.cons hc) (by rwa [Json.part_cons_of hc])
  obtain ⟨before, j, v, heq, hv, hgenuine⟩ := hin
  cases before with
  | nil =>
    -- the string is what is passed through itself, and no string is
    obtain ⟨rfl, rfl⟩ := List.cons.inj heq
    obtain ⟨before, rest, w, heq', hw, hr⟩ := hpassed
    obtain ⟨rfl, rfl⟩ := List.append_eq_nil_iff.mp heq'.symm
    rw [Option.some.inj (hw.symm.trans hpart)] at hr
    cases hr
  | cons k before =>
    obtain ⟨rfl, rfl⟩ := List.cons.inj heq
    exact ⟨before, j, v, rfl, by rwa [Json.part_cons_of hc] at hv, hgenuine⟩

theorem classification_congr {text text' : String} (h : secretValue text = secretValue text') (key : Option String) :
    classification lower key text = classification lower key text' := by
  unfold classification
  rw [h]

/-- Payloads that differ in strings alone are redacted to the same, if they are clean. -/
theorem masked_eq {p q : Json} (h : Similar p q) (hp : Clean p) (hq : Clean q) (key : Option String) :
    masked lower key p = masked lower key q := by
  induction p using Json.induction_children generalizing q key with
  | step p ih =>
    cases hr : recognised p with
    | true => rw [eq_of_recognised h hp hq hr]
    | false =>
      rcases h.self with htop | ⟨text, text', rfl, rfl, hlength, hsecret⟩
      · by_cases hstr : ∃ text, p = .str text
        · obtain ⟨text, rfl⟩ := hstr
          cases q <;> cases htop
          rfl
        have hpw : Walked p := ⟨hr, fun text heq => hstr ⟨text, heq⟩⟩
        have hqw := hpw.congr h
        refine Json.eq_of_children (by rw [top_masked hpw, top_masked hqw, htop]) (List.ext_getElem? fun i => ?_)
        cases hc : p.children[i]? with
        | none =>
          rw [children_masked hpw, children_masked hqw, List.getElem?_map, List.getElem?_map, hc, h.no_child hc]
        | some c =>
          obtain ⟨d, hd, hkey, hsimilar⟩ := h.child hc
          rw [child_masked hpw key hc, child_masked hqw key hd, hkey,
            ih c (List.mem_of_getElem? hc) hsimilar (hp.child hc) (hq.child hd)]
      · rw [masked_str, masked_str, redactedMarker, redactedMarker, hlength, classification_congr hsecret]

/-- Of two payloads that differ in strings alone, all strings are replaced and the results are the
same exactly if the objects in them that are passed through hold no string but in genuine markers.
What was redacted is left as it is when it is redacted again. -/
theorem timeline_redaction_iff (lower : String → String) {p q : Json} (h : Similar p q) :
    (Replaced lower p ∧ Replaced lower q ∧ redactTimelinePayload lower p = redactTimelinePayload lower q ∧
        (redactTimelinePayload lower (redactTimelinePayload lower p).1).1 = (redactTimelinePayload lower p).1) ↔
      Clean p ∧ Clean q := by
  rw [replaced_iff_clean, replaced_iff_clean]
  refine ⟨fun h => ⟨h.1, h.2.1⟩, fun ⟨hp, hq⟩ => ⟨hp, hq, ?_, masked_masked none none p⟩⟩
  have hlabel (v : Json) : redactTimelinePayload lower v =
      (masked lower none v, if marked lower v then "restricted" else "metadata") := rfl
  rw [hlabel p, hlabel q, masked_eq h hp hq, marked_eq h]

/-- Two strings of one length, neither of them a secret. -/
theorem similar_sample : Similar (.str "invoice") (.str "receipt") := fun path => by
  cases path with
  | nil => exact .some (.inr ⟨_, _, rfl, rfl, by decide +kernel, by decide +kernel⟩)
  | cons => exact .none

theorem timeline_redaction_sample :
    (Replaced String.toLower (.str "invoice") ∧ Replaced String.toLower (.str "receipt") ∧
        redactTimelinePayload String.toLower (.str "invoice") =
          redactTimelinePayload String.toLower (.str "receipt") ∧
        (redactTimelinePayload String.toLower (redactTimelinePayload String.toLower (.str "invoice")).1).1 =
          (redactTimelinePayload String.toLower (.str "invoice")).1) ↔
      Clean (.str "invoice") ∧ Clean (.str "receipt") :=
  timeline_redaction_iff String.toLower similar_sample

/-- A tool's output in the shape of a marker keeps its text. -/
theorem timeline_redaction_forged :
    ¬ ∀ (lower : String → String) (p q : Json), Similar p q →
      Replaced lower p ∧ redactTimelinePayload lower p = redactTimelinePayload lower q ∧
        (redactTimelinePayload lower (redactTimelinePayload lower p).1).1 = (redactTimelinePayload lower p).1 := by
  intro h
  let forged : Json := .obj [("redacted", .bool true), ("classification", .str "hunter2")]
  have hsimilar : Similar forged forged := fun path => by
    cases forged.part path with
    | none => exact .none
    | some v => exact .some (.inl rfl)
  have hclean := (replaced_iff_clean forged).mp (h String.toLower forged forged hsimilar).1
  have hr : recognised forged = true := by simp [forged, recognised, Json.get, Json.members]
  have hlabel := (hclean [1] "hunter2" (passed_of_recognised hr _) rfl).label rfl
  revert hlabel
  decide

end CodeMate.Core
