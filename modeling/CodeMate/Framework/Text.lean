import Mathlib.Data.List.Basic

/-!
# Texts as lists of characters

`strip` removes the white space at both ends of a text, `find?` is the first
place of a mark in it, `of_splitOn_cons` takes the parts of a text apart, `cut`
and `cutLast` cut a text at a separator, and `splitLines_flatMap` reads lines
back.
-/

namespace Framework.Text

/-- White space in Unicode. -/
def isSpace (c : Char) : Bool :=
  c ∈ ['\t', '\n', '\x0b', '\x0c', '\r', '\x1c', '\x1d', '\x1e', '\x1f', ' ', '\u0085', '\u00a0', '\u1680', '\u2028',
    '\u2029', '\u202f', '\u205f', '\u3000'] ∨ (0x2000 ≤ c.toNat ∧ c.toNat ≤ 0x200a)

def stripRight (cs : List Char) : List Char := (cs.reverse.dropWhile isSpace).reverse

def strip (cs : List Char) : List Char := stripRight (cs.dropWhile isSpace)

theorem stripRight_append {spaces : List Char} (h : ∀ c ∈ spaces, isSpace c = true) (cs : List Char) :
    stripRight (cs ++ spaces) = stripRight cs := by
  unfold stripRight
  rw [List.reverse_append, List.dropWhile_append_of_pos fun c hc => h c (List.mem_reverse.mp hc)]

theorem stripRight_concat {c : Char} (h : isSpace c = false) (cs : List Char) :
    stripRight (cs ++ [c]) = cs ++ [c] := by
  unfold stripRight
  rw [List.reverse_append, List.reverse_singleton, List.singleton_append, List.dropWhile_cons_of_neg (by simp [h]),
    List.reverse_cons, List.reverse_reverse]

/-- What is removed at the end is white space. -/
theorem stripRight_parts (cs : List Char) :
    ∃ spaces, cs = stripRight cs ++ spaces ∧ ∀ c ∈ spaces, isSpace c = true := by
  refine ⟨(cs.reverse.takeWhile isSpace).reverse, ?_, fun c hc => ?_⟩
  · rw [stripRight, ← List.reverse_append, List.takeWhile_append_dropWhile, List.reverse_reverse]
  · exact List.all_eq_true.mp List.all_takeWhile c (List.mem_reverse.mp hc)

theorem stripRight_last {cs : List Char} (h : stripRight cs ≠ []) :
    ∃ front c, stripRight cs = front ++ [c] ∧ isSpace c = false := by
  unfold stripRight at h ⊢
  cases hdrop : cs.reverse.dropWhile isSpace with
  | nil =>
    rw [hdrop] at h
    exact absurd rfl h
  | cons c rest =>
    refine ⟨rest.reverse, c, List.reverse_cons, ?_⟩
    have hhead := List.head?_dropWhile_not isSpace cs.reverse
    rw [hdrop] at hhead
    simpa using hhead

theorem strip_cons {c : Char} (h : isSpace c = false) (cs : List Char) : strip (c :: cs) = stripRight (c :: cs) := by
  rw [strip, List.dropWhile_cons_of_neg (by simp [h])]

/-- A text with no white space at its ends. -/
theorem strip_of_ends {first last : Char} (hfirst : isSpace first = false) (hlast : isSpace last = false)
    {cs front rest : List Char} (hcs : cs = first :: rest) (hends : cs = front ++ [last]) : strip cs = cs := by
  rw [hcs, strip_cons hfirst, ← hcs, hends, stripRight_concat hlast]

/-- White space, what is left, white space. -/
theorem strip_parts (cs : List Char) : ∃ before after, cs = before ++ (strip cs ++ after) := by
  obtain ⟨after, hafter, -⟩ := stripRight_parts (cs.dropWhile isSpace)
  exact ⟨cs.takeWhile isSpace, after, by rw [strip, ← hafter, List.takeWhile_append_dropWhile]⟩

/-- Membership as a search, which decides it. -/
theorem exists_mem_eq {text : List Char} {texts : List (List Char)} : (∃ other ∈ texts, other = text) ↔ text ∈ texts := by
  simp

/-- `text.find(mark)`. -/
def find? (mark : List Char) : List Char → Option Nat
  | [] => if mark = [] then some 0 else none
  | c :: rest => if mark.isPrefixOf (c :: rest) then some 0 else (find? mark rest).map (· + 1)

theorem find?_prefix {mark text : List Char} (h : mark <+: text) : find? mark text = some 0 := by
  cases text with
  | nil => rw [List.prefix_nil.mp h]; rfl
  | cons c rest => rw [find?, if_pos (List.isPrefixOf_iff_prefix.mpr h)]

theorem find?_some {mark text : List Char} {i : Nat} (h : find? mark text = some i) : mark <+: text.drop i := by
  induction text generalizing i with
  | nil =>
    unfold find? at h
    split at h
    · next hmark => rw [hmark]; exact List.nil_prefix
    · exact absurd h.symm (Option.some_ne_none i)
  | cons c rest ih =>
    unfold find? at h
    split at h
    · next hpre =>
      obtain rfl := Option.some.inj h
      exact List.isPrefixOf_iff_prefix.mp hpre
    · obtain ⟨j, hj, rfl⟩ := Option.map_eq_some_iff.mp h
      exact ih hj

/-- A mark is found at one of its places at the latest. -/
theorem find?_append {mark text : List Char} (h : mark <+: text) (before : List Char) :
    ∃ i, find? mark (before ++ text) = some i ∧ i ≤ before.length := by
  induction before with
  | nil => exact ⟨0, find?_prefix h, Nat.le_refl 0⟩
  | cons c before ih =>
    obtain ⟨i, hi, hle⟩ := ih
    rw [List.cons_append, find?]
    split
    · exact ⟨0, rfl, Nat.zero_le _⟩
    · exact ⟨i + 1, by rw [hi]; rfl, Nat.succ_le_succ hle⟩

/-! ## Splitting -/

theorem splitOn_part {separator : Char} {part : List Char} (h : separator ∉ part) (rest : List Char) :
    (part ++ separator :: rest).splitOn separator = part :: rest.splitOn separator := by
  rw [List.splitOn_append_cons_self, List.splitOn_eq_singleton h]
  rfl

/-- The first of several parts ends at the first separator. -/
theorem of_splitOn_cons {separator : Char} {text part next : List Char} {parts : List (List Char)}
    (h : text.splitOn separator = part :: next :: parts) :
    separator ∉ part ∧ ∃ rest, text = part ++ separator :: rest ∧ rest.splitOn separator = next :: parts := by
  by_cases hmem : separator ∈ text
  · obtain ⟨front, rest, rfl, hfront⟩ := List.eq_append_cons_of_mem hmem
    rw [splitOn_part hfront] at h
    obtain ⟨rfl, hrest⟩ := List.cons.inj h
    exact ⟨hfront, rest, rfl, hrest⟩
  · rw [List.splitOn_eq_singleton hmem] at h
    cases h

theorem of_splitOn_singleton {separator : Char} {text part : List Char} (h : text.splitOn separator = [part]) :
    separator ∉ part ∧ text = part := by
  by_cases hmem : separator ∈ text
  · obtain ⟨front, rest, rfl, hfront⟩ := List.eq_append_cons_of_mem hmem
    rw [splitOn_part hfront] at h
    exact absurd (List.cons.inj h).2 (List.splitOn_ne_nil separator rest)
  · rw [List.splitOn_eq_singleton hmem] at h
    obtain rfl := List.singleton_inj.mp h
    exact ⟨hmem, rfl⟩

/-! ## Partitions -/

/-- `text.partition(separator)`, for a separator that is there. -/
def cut (separator : Char) : List Char → Option (List Char × List Char)
  | [] => none
  | c :: rest => if c = separator then some ([], rest) else (cut separator rest).map fun parts => (c :: parts.1, parts.2)

/-- `text.rpartition(separator)`, for a separator that is there. -/
def cutLast (separator : Char) (text : List Char) : Option (List Char × List Char) :=
  (cut separator text.reverse).map fun parts => (parts.2.reverse, parts.1.reverse)

theorem cut_eq_some {separator : Char} {text before after : List Char} :
    cut separator text = some (before, after) ↔ text = before ++ separator :: after ∧ separator ∉ before := by
  induction text generalizing before with
  | nil => simp [cut]
  | cons c rest ih =>
    rw [cut]
    split
    · next hc =>
      subst hc
      constructor
      · intro h
        obtain ⟨rfl, rfl⟩ := Prod.mk.inj (Option.some.inj h)
        exact ⟨rfl, List.not_mem_nil⟩
      · rintro ⟨h, hnot⟩
        cases before with
        | nil => rw [(List.cons.inj h).2]
        | cons d ds => exact absurd ((List.cons.inj h).1 ▸ List.mem_cons_self) hnot
    · next hc =>
      constructor
      · intro h
        obtain ⟨⟨front, back⟩, hcut, hparts⟩ := Option.map_eq_some_iff.mp h
        obtain ⟨rfl, rfl⟩ := Prod.mk.inj hparts
        obtain ⟨rfl, hnot⟩ := ih.mp hcut
        exact ⟨rfl, fun hmem => (List.mem_cons.mp hmem).elim (fun h => hc h.symm) hnot⟩
      · rintro ⟨h, hnot⟩
        cases before with
        | nil => exact absurd (List.cons.inj h).1 hc
        | cons d ds =>
          obtain ⟨rfl, hrest⟩ := List.cons.inj h
          rw [ih.mpr ⟨hrest, fun hmem => hnot (List.mem_cons_of_mem _ hmem)⟩]
          rfl

theorem cut_append {separator : Char} {before : List Char} (h : separator ∉ before) (after : List Char) :
    cut separator (before ++ separator :: after) = some (before, after) := cut_eq_some.mpr ⟨rfl, h⟩

theorem cutLast_append {separator : Char} {after : List Char} (h : separator ∉ after) (before : List Char) :
    cutLast separator (before ++ separator :: after) = some (before, after) := by
  have hreverse : (before ++ separator :: after).reverse = after.reverse ++ separator :: before.reverse := by simp
  rw [cutLast, hreverse, cut_append (by simpa using h)]
  simp

/-! ## Lines that end with CR LF -/

/-- `text.split("\r\n")`. -/
def splitLines : List Char → List (List Char)
  | [] => [[]]
  | '\r' :: '\n' :: rest => [] :: splitLines rest
  | c :: rest => (splitLines rest).modifyHead (c :: ·)

/-- A line without a line feed is read back. -/
theorem splitLines_append {line : List Char} (h : '\n' ∉ line) (rest : List Char) :
    splitLines (line ++ '\r' :: '\n' :: rest) = line :: splitLines rest := by
  induction line with
  | nil => rw [List.nil_append, splitLines]
  | cons c line ih =>
    have hnot : '\n' ∉ line := fun hmem => h (List.mem_cons_of_mem _ hmem)
    have hnext : ∀ tail, c = '\r' → line ++ '\r' :: '\n' :: rest = '\n' :: tail → False := by
      intro tail _ htail
      cases line with
      | nil => exact absurd (List.cons.inj htail).1 (by decide)
      | cons d line => exact hnot ((List.cons.inj htail).1 ▸ List.mem_cons_self)
    rw [List.cons_append, splitLines.eq_3 c _ hnext, ih hnot]
    rfl

theorem splitLines_flatMap {lines : List (List Char)} (h : ∀ line ∈ lines, '\n' ∉ line) (rest : List Char) :
    splitLines (lines.flatMap (· ++ ['\r', '\n']) ++ rest) = lines ++ splitLines rest := by
  induction lines with
  | nil => rfl
  | cons line lines ih =>
    rw [List.flatMap_cons, List.append_assoc, List.append_assoc, List.cons_append, List.cons_append, List.nil_append,
      splitLines_append (h line List.mem_cons_self), ih fun other hmem => h other (List.mem_cons_of_mem _ hmem),
      List.cons_append]

end Framework.Text
