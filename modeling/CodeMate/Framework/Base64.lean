import Mathlib.Data.List.Basic

/-!
# Base64 with the URL-safe alphabet

`encode` writes three bytes as four characters and pads the last group;
`decode` reads as a lenient decoder does: it takes the characters of both
alphabets, skips every other one, and ends at a complete padding.
`decode_encode` is the round trip. `encodeUrl` leaves the padding out, and
`decodeUrl` needs none (`decodeUrl_encodeUrl`). `encodeStandard` and
`decodeStandard` are of the standard alphabet (`decodeStandard_encodeStandard`).
-/

namespace Framework.Base64

def alphabet : List Char := "ABCDEFGHIJKLMNOPQRSTUVWXYZabcdefghijklmnopqrstuvwxyz0123456789-_".toList

/-- The character of a group of six bits. -/
def character (n : Nat) : Char := alphabet.getD n 'A'

/-- The six bits of a character, which may be of the standard alphabet. -/
def sixBits (c : Char) : Option Nat :=
  if c = '+' then some 62 else if c = '/' then some 63 else alphabet.findIdx? (· = c)

def encode : List UInt8 → List Char
  | [] => []
  | [a] => [character (a.toNat / 4), character (a.toNat % 4 * 16), '=', '=']
  | [a, b] =>
    [character (a.toNat / 4), character (a.toNat % 4 * 16 + b.toNat / 16), character (b.toNat % 16 * 4), '=']
  | a :: b :: c :: rest =>
    character (a.toNat / 4) :: character (a.toNat % 4 * 16 + b.toNat / 16) ::
      character (b.toNat % 16 * 4 + c.toNat / 64) :: character (c.toNat % 64) :: encode rest

/-- Reads on in a group: `quad` characters of it were read, `left` are the bits that are not written yet. -/
def decodeFrom : (quad left pads : Nat) → List Char → Option (List UInt8)
  | quad, _, _, [] => if quad = 0 then some [] else none
  | quad, left, pads, c :: cs =>
    if c = '=' then
      if quad < 2 then decodeFrom quad left pads cs
      else if 4 ≤ quad + (pads + 1) then some []
      else decodeFrom quad left (pads + 1) cs
    else match sixBits c with
      | none => decodeFrom quad left pads cs
      | some n =>
        if quad = 0 then decodeFrom 1 n 0 cs
        else if quad = 1 then (decodeFrom 2 (n % 16) 0 cs).map (UInt8.ofNat (left * 4 + n / 16) :: ·)
        else if quad = 2 then (decodeFrom 3 (n % 4) 0 cs).map (UInt8.ofNat (left * 16 + n / 4) :: ·)
        else (decodeFrom 0 0 0 cs).map (UInt8.ofNat (left * 64 + n) :: ·)

def decode (cs : List Char) : Option (List UInt8) := decodeFrom 0 0 0 cs

theorem character_spec : ∀ n < 64, character n ≠ '=' ∧ sixBits (character n) = some n := by decide +kernel

theorem sixBits_pad : sixBits '=' = none := by
  unfold sixBits alphabet
  erw [String.toList_ofList]
  decide

/-- The step of the decoder on a character that was written. -/
theorem decodeFrom_character {quad left pads n : Nat} (hn : n < 64) (cs : List Char) :
    decodeFrom quad left pads (character n :: cs) =
      if quad = 0 then decodeFrom 1 n 0 cs
      else if quad = 1 then (decodeFrom 2 (n % 16) 0 cs).map (UInt8.ofNat (left * 4 + n / 16) :: ·)
      else if quad = 2 then (decodeFrom 3 (n % 4) 0 cs).map (UInt8.ofNat (left * 16 + n / 4) :: ·)
      else (decodeFrom 0 0 0 cs).map (UInt8.ofNat (left * 64 + n) :: ·) := by
  obtain ⟨sixBits_pad, hbits⟩ := character_spec n hn
  rw [decodeFrom, if_neg sixBits_pad, hbits]

theorem ofNat_toNat_eq {b : UInt8} {n : Nat} (h : n = b.toNat) : UInt8.ofNat n = b := by
  rw [h, UInt8.ofNat_toNat]

theorem decode_encode (bytes : List UInt8) : decode (encode bytes) = some bytes := by
  unfold decode
  fun_induction encode bytes with
  | case1 => rfl
  | case2 a =>
    have ha := a.toNat_lt
    rw [decodeFrom_character (by omega), if_pos rfl, decodeFrom_character (by omega), if_neg (by decide), if_pos rfl]
    rw [ofNat_toNat_eq (by omega : a.toNat / 4 * 4 + a.toNat % 4 * 16 / 16 = a.toNat)]
    rfl
  | case3 a b =>
    have ha := a.toNat_lt
    have hb := b.toNat_lt
    rw [decodeFrom_character (by omega), if_pos rfl, decodeFrom_character (by omega), if_neg (by decide), if_pos rfl,
      decodeFrom_character (by omega), if_neg (by decide), if_neg (by decide), if_pos rfl]
    rw [ofNat_toNat_eq (by omega : a.toNat / 4 * 4 + (a.toNat % 4 * 16 + b.toNat / 16) / 16 = a.toNat),
      ofNat_toNat_eq (by omega : (a.toNat % 4 * 16 + b.toNat / 16) % 16 * 16 + b.toNat % 16 * 4 / 4 = b.toNat)]
    rfl
  | case4 a b c rest ih =>
    have ha := a.toNat_lt
    have hb := b.toNat_lt
    have hc := c.toNat_lt
    rw [decodeFrom_character (by omega), if_pos rfl, decodeFrom_character (by omega), if_neg (by decide), if_pos rfl,
      decodeFrom_character (by omega), if_neg (by decide), if_neg (by decide), if_pos rfl,
      decodeFrom_character (by omega), if_neg (by decide), if_neg (by decide), if_neg (by decide), ih]
    rw [ofNat_toNat_eq (by omega : a.toNat / 4 * 4 + (a.toNat % 4 * 16 + b.toNat / 16) / 16 = a.toNat),
      ofNat_toNat_eq
        (by omega : (a.toNat % 4 * 16 + b.toNat / 16) % 16 * 16 + (b.toNat % 16 * 4 + c.toNat / 64) / 4 = b.toNat),
      ofNat_toNat_eq (by omega : (b.toNat % 16 * 4 + c.toNat / 64) % 4 * 64 + c.toNat % 64 = c.toNat)]
    rfl

/-! ## Without padding -/

/-- The bytes of groups of six bits; the last group may have two or three. -/
def bytesOf : List Nat → List UInt8
  | a :: b :: c :: d :: rest =>
    UInt8.ofNat (a * 4 + b / 16) :: UInt8.ofNat (b % 16 * 16 + c / 4) :: UInt8.ofNat (c % 4 * 64 + d) :: bytesOf rest
  | [a, b, c] => [UInt8.ofNat (a * 4 + b / 16), UInt8.ofNat (b % 16 * 16 + c / 4)]
  | [a, b] => [UInt8.ofNat (a * 4 + b / 16)]
  | _ => []

def encodeUrl (bytes : List UInt8) : List Char := (encode bytes).filter (· ≠ '=')

/-- Skips every character of neither alphabet, and padding with them. -/
def decodeUrl (cs : List Char) : List UInt8 := bytesOf (cs.filterMap sixBits)

theorem filterMap_encodeUrl (bytes : List UInt8) :
    (encodeUrl bytes).filterMap sixBits = (encode bytes).filterMap sixBits := by
  rw [encodeUrl]
  generalize encode bytes = cs
  induction cs with
  | nil => rfl
  | cons c cs ih =>
    by_cases hc : c = '='
    · rw [List.filter_cons_of_neg (by simpa using hc), List.filterMap_cons_none (hc ▸ sixBits_pad), ih]
    · rw [List.filter_cons_of_pos (by simpa using hc), List.filterMap_cons, List.filterMap_cons, ih]

theorem filterMap_character {n : Nat} (hn : n < 64) (cs : List Char) :
    (character n :: cs).filterMap sixBits = n :: cs.filterMap sixBits :=
  List.filterMap_cons_some (character_spec n hn).2

theorem decodeUrl_encodeUrl (bytes : List UInt8) : decodeUrl (encodeUrl bytes) = bytes := by
  rw [decodeUrl, filterMap_encodeUrl]
  fun_induction encode bytes with
  | case1 => rfl
  | case2 a =>
    have ha := a.toNat_lt
    rw [filterMap_character (by omega), filterMap_character (by omega), List.filterMap_cons_none sixBits_pad,
      List.filterMap_cons_none sixBits_pad, List.filterMap_nil, bytesOf,
      ofNat_toNat_eq (by omega : a.toNat / 4 * 4 + a.toNat % 4 * 16 / 16 = a.toNat)]
  | case3 a b =>
    have ha := a.toNat_lt
    have hb := b.toNat_lt
    rw [filterMap_character (by omega), filterMap_character (by omega), filterMap_character (by omega),
      List.filterMap_cons_none sixBits_pad, List.filterMap_nil, bytesOf,
      ofNat_toNat_eq (by omega : a.toNat / 4 * 4 + (a.toNat % 4 * 16 + b.toNat / 16) / 16 = a.toNat),
      ofNat_toNat_eq (by omega : (a.toNat % 4 * 16 + b.toNat / 16) % 16 * 16 + b.toNat % 16 * 4 / 4 = b.toNat)]
  | case4 a b c rest ih =>
    have ha := a.toNat_lt
    have hb := b.toNat_lt
    have hc := c.toNat_lt
    rw [filterMap_character (by omega), filterMap_character (by omega), filterMap_character (by omega),
      filterMap_character (by omega), bytesOf, ih,
      ofNat_toNat_eq (by omega : a.toNat / 4 * 4 + (a.toNat % 4 * 16 + b.toNat / 16) / 16 = a.toNat),
      ofNat_toNat_eq
        (by omega : (a.toNat % 4 * 16 + b.toNat / 16) % 16 * 16 + (b.toNat % 16 * 4 + c.toNat / 64) / 4 = b.toNat),
      ofNat_toNat_eq (by omega : (b.toNat % 16 * 4 + c.toNat / 64) % 4 * 64 + c.toNat % 64 = c.toNat)]

/-- An encoding has characters of the alphabet only. -/
theorem mem_encodeUrl {bytes : List UInt8} {c : Char} (h : c ∈ encodeUrl bytes) : ∃ n < 64, c = character n := by
  rw [encodeUrl, List.mem_filter] at h
  obtain ⟨h, hne⟩ := h
  have hne : c ≠ '=' := by simpa using hne
  fun_induction encode bytes with
  | case1 => cases h
  | case2 a =>
    have ha := a.toNat_lt
    simp only [List.mem_cons, List.not_mem_nil, or_false, hne] at h
    rcases h with rfl | rfl
    exacts [⟨_, by omega, rfl⟩, ⟨_, by omega, rfl⟩]
  | case3 a b =>
    have ha := a.toNat_lt
    have hb := b.toNat_lt
    simp only [List.mem_cons, List.not_mem_nil, or_false, hne] at h
    rcases h with rfl | rfl | rfl
    exacts [⟨_, by omega, rfl⟩, ⟨_, by omega, rfl⟩, ⟨_, by omega, rfl⟩]
  | case4 a b c' rest ih =>
    have ha := a.toNat_lt
    have hb := b.toNat_lt
    have hc := c'.toNat_lt
    simp only [List.mem_cons] at h
    rcases h with rfl | rfl | rfl | rfl | h
    exacts [⟨_, by omega, rfl⟩, ⟨_, by omega, rfl⟩, ⟨_, by omega, rfl⟩, ⟨_, by omega, rfl⟩, ih h]

/-- Whole groups have no padding. -/
theorem length_encodeUrl {bytes : List UInt8} (h : 3 ∣ bytes.length) :
    (encodeUrl bytes).length = bytes.length / 3 * 4 := by
  rw [encodeUrl]
  fun_induction encode bytes with
  | case1 => rfl
  | case2 a => exact absurd h (by decide : ¬ 3 ∣ 1)
  | case3 a b => exact absurd h (by decide : ¬ 3 ∣ 2)
  | case4 a b c rest ih =>
    have ha := a.toNat_lt
    have hb := b.toNat_lt
    have hc := c.toNat_lt
    have hkeep {n : Nat} (hn : n < 64) (cs : List Char) :
        (character n :: cs).filter (· ≠ '=') = character n :: cs.filter (· ≠ '=') :=
      List.filter_cons_of_pos (decide_eq_true (character_spec n hn).1)
    simp only [List.length_cons] at h ⊢
    rw [hkeep (by omega), hkeep (by omega), hkeep (by omega), hkeep (by omega)]
    simp only [List.length_cons]
    rw [ih (by omega)]
    omega

/-- A character of the URL-safe alphabet in the standard one. -/
def standardChar (c : Char) : Char := if c = '-' then '+' else if c = '_' then '/' else c

/-- `b64encode`. -/
def encodeStandard (bytes : List UInt8) : List Char := (encode bytes).map standardChar

/-- `b64decode`, which skips the characters that are in the URL-safe alphabet only. -/
def decodeStandard (cs : List Char) : Option (List UInt8) := decode (cs.filter fun c => c ≠ '-' ∧ c ≠ '_')

theorem sixBits_standardChar (c : Char) : sixBits (standardChar c) = sixBits c := by
  unfold standardChar
  split
  · next h => subst h; decide +kernel
  split
  · next h => subst h; decide +kernel
  · rfl

theorem standardChar_eq_pad {c : Char} : standardChar c = '=' ↔ c = '=' := by
  unfold standardChar
  split
  · next h => subst h; decide
  split
  · next h => subst h; decide
  · rfl

theorem decodeFrom_standard (quad left pads : Nat) (cs : List Char) :
    decodeFrom quad left pads (cs.map standardChar) = decodeFrom quad left pads cs := by
  induction cs generalizing quad left pads with
  | nil => rfl
  | cons c cs ih => simp only [List.map_cons, decodeFrom, standardChar_eq_pad, sixBits_standardChar, ih]

theorem standardChar_ne (c : Char) : standardChar c ≠ '-' ∧ standardChar c ≠ '_' := by
  unfold standardChar
  split
  · decide
  split
  · decide
  · next h₁ h₂ => exact ⟨h₁, h₂⟩

theorem decodeStandard_encodeStandard (bytes : List UInt8) : decodeStandard (encodeStandard bytes) = some bytes := by
  have hall : (encodeStandard bytes).filter (fun c => c ≠ '-' ∧ c ≠ '_') = encodeStandard bytes := by
    refine List.filter_eq_self.mpr fun c hc => ?_
    obtain ⟨d, _, rfl⟩ := List.mem_map.mp hc
    exact decide_eq_true (standardChar_ne d)
  rw [decodeStandard, hall, encodeStandard, decode, decodeFrom_standard]
  exact decode_encode bytes

end Framework.Base64
