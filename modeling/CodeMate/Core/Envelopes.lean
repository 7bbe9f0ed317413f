import Mathlib.Data.List.Nodup
import CodeMate.Core.Kms
import CodeMate.Framework.Run

/-!
# Envelopes under an ideal cipher

The history of the service's encryptions (`kms`): calls of `encrypt_envelope`,
checks of the KMS, rotations of the master key, and what anybody else encrypts
under keys of their own. The cipher is ideal: it opens what was encrypted with
the same key, nonce and associated data, and nothing else (`opened`), and no
two ciphertexts are the same.

`Sound` says which encryptions there are under the service's keys, and
`envelope_binding` what follows for envelopes: they are decrypted after a
rotation, and only for their purpose and owner, and all of what one carries is
from one call.
-/

namespace CodeMate.Core

open Framework

/-- An encryption. -/
structure Sealing where
  key : Bytes
  nonce : Bytes
  plaintext : Bytes
  aad : Bytes
  ciphertext : Bytes
deriving DecidableEq

/-- The decryption of an ideal cipher, after some encryptions. -/
def opened (sealings : List Sealing) (key nonce ciphertext aad : Bytes) : Option Bytes :=
  (sealings.find? fun s => s.key = key ∧ s.nonce = nonce ∧ s.ciphertext = ciphertext ∧ s.aad = aad).map (·.plaintext)

/-- A call of `encrypt_envelope`: its arguments, the master key, and what the cipher answered. -/
structure Call where
  plaintext : Bytes
  binding : Option String
  purpose : String
  master : Bytes
  drawn : Drawn
  wrapped : Bytes
  sealed : Bytes
  value : String

section

variable (enc : Encodings)

def Call.hash (call : Call) : String := bindingSha256 enc call.binding

/-- The encryption of the data key. -/
def Call.wrapping (call : Call) : Sealing :=
  ⟨call.master, call.drawn.wrapNonce, call.drawn.dataKey,
    localWrapAad enc (some (envelopeContext call.purpose (call.hash enc))), call.wrapped⟩

/-- The encryption of the credential. -/
def Call.sealing (call : Call) : Sealing :=
  ⟨call.drawn.dataKey, call.drawn.nonce, call.plaintext, envelopeAad call.purpose (call.hash enc), call.sealed⟩

end

def Call.parts (call : Call) : Parts := ⟨call.drawn.wrapNonce ++ call.wrapped, call.drawn.nonce, call.sealed⟩

structure Kms where
  settings : Settings
  /-- All encryptions so far. -/
  sealings : List Sealing
  calls : List Call
  /-- The master keys so far. -/
  masters : List Bytes

inductive KmsStep
  /-- `encrypt_envelope`, with the answers of the cipher. -/
  | encrypt (plaintext : Bytes) (binding : Option String) (purpose : String) (drawn : Drawn)
      (cipher : Bytes → Bytes → Bytes → Bytes → Bytes)
  /-- `verify`, which wraps a data key for no envelope. -/
  | verify (dataKey nonce : Bytes) (cipher : Bytes → Bytes → Bytes → Bytes → Bytes)
  /-- Somebody else encrypts. -/
  | foreign (sealing : Sealing)
  /-- The master key becomes the previous one. -/
  | rotate (master : String)

variable (enc : Encodings)

/-- The master keys of the settings. -/
def masterKeys (s : Settings) : List Bytes :=
  [s.mcpRegistryMasterKey, s.mcpRegistryPreviousMasterKey].filterMap (masterKey enc)

/-- The call that `encrypt_envelope` makes of its arguments. -/
def Kms.call (w : Kms) (plaintext : Bytes) (binding : Option String) (purpose : String) (drawn : Drawn)
    (cipher : Bytes → Bytes → Bytes → Bytes → Bytes) : Option Call := do
  let value ← encryptEnvelope enc cipher w.settings plaintext binding purpose drawn
  let master ← masterKey enc w.settings.mcpRegistryMasterKey
  let hash := bindingSha256 enc binding
  return ⟨plaintext, binding, purpose, master, drawn,
    cipher master drawn.wrapNonce drawn.dataKey (localWrapAad enc (some (envelopeContext purpose hash))),
    cipher drawn.dataKey drawn.nonce plaintext (envelopeAad purpose hash), value⟩

/-- A new ciphertext. -/
def Kms.fresh (w : Kms) (ciphertext : Bytes) : Prop := ∀ s ∈ w.sealings, s.ciphertext ≠ ciphertext

/-- A step, where the keys that are drawn or derived are not known to anybody else, and the ciphertexts are new. -/
inductive KmsMove (w : Kms) : KmsStep → Kms → Prop
  | encrypt {plaintext : Bytes} {binding : Option String} {purpose : String} {drawn : Drawn}
      {cipher : Bytes → Bytes → Bytes → Bytes → Bytes} {call : Call} :
      w.call enc plaintext binding purpose drawn cipher = some call →
      drawn.wrapNonce.length = 12 → drawn.dataKey ∉ w.masters → (∀ s ∈ w.sealings, s.key ≠ drawn.dataKey) →
      w.fresh call.wrapped → w.fresh call.sealed → call.wrapped ≠ call.sealed →
      KmsMove w (.encrypt plaintext binding purpose drawn cipher)
        { w with sealings := call.wrapping enc :: call.sealing enc :: w.sealings, calls := call :: w.calls }
  | verify {dataKey nonce master : Bytes} {cipher : Bytes → Bytes → Bytes → Bytes → Bytes} :
      masterKey enc w.settings.mcpRegistryMasterKey = some master →
      w.fresh (cipher master nonce dataKey (localWrapAad enc none)) →
      KmsMove w (.verify dataKey nonce cipher)
        { w with sealings := ⟨master, nonce, dataKey, localWrapAad enc none,
            cipher master nonce dataKey (localWrapAad enc none)⟩ :: w.sealings }
  | foreign {sealing : Sealing} : sealing.key ∉ w.masters → (∀ call ∈ w.calls, sealing.key ≠ call.drawn.dataKey) →
      w.fresh sealing.ciphertext → KmsMove w (.foreign sealing) { w with sealings := sealing :: w.sealings }
  | rotate {master : String} :
      (∀ key, masterKey enc master = some key → key ∈ w.masters ∨ ∀ s ∈ w.sealings, s.key ≠ key) →
      KmsMove w (.rotate master)
        { w with
          settings := ⟨master, w.settings.mcpRegistryMasterKey⟩
          masters := (masterKey enc master).toList ++ w.masters }

/-- The history of a service, from its first settings. -/
def kms : System Kms KmsStep where
  start w := ∃ settings, w = ⟨settings, [], [], masterKeys enc settings⟩
  step := KmsMove enc

/-- Which encryptions there are under the keys of the service. -/
structure Sound (w : Kms) : Prop where
  masters : ∀ key ∈ masterKeys enc w.settings, key ∈ w.masters
  unique : (w.sealings.map (·.ciphertext)).Nodup
  wraps : ∀ s ∈ w.sealings, s.key ∈ w.masters →
    s.aad = localWrapAad enc none ∨ ∃ call ∈ w.calls, s = call.wrapping enc
  seals : ∀ call ∈ w.calls, ∀ s ∈ w.sealings, s.key = call.drawn.dataKey → s = call.sealing enc
  logged : ∀ call ∈ w.calls, call.wrapping enc ∈ w.sealings ∧ call.sealing enc ∈ w.sealings
  keys : ∀ call ∈ w.calls, call.master ∈ w.masters ∧ call.drawn.dataKey ∉ w.masters
  values : ∀ call ∈ w.calls, call.drawn.wrapNonce.length = 12 ∧
    call.value = envelopeText enc (envelopeMembers call.purpose "local" "local-derived-key" (call.hash enc)
      call.parts.encryptedDataKey call.parts.nonce call.parts.ciphertext)

/-! ## The cipher -/

section

variable {sealings : List Sealing} {s : Sealing}

theorem opened_some {key nonce ciphertext aad plaintext : Bytes}
    (h : opened sealings key nonce ciphertext aad = some plaintext) :
    (⟨key, nonce, plaintext, aad, ciphertext⟩ : Sealing) ∈ sealings := by
  obtain ⟨s, hs, rfl⟩ := Option.map_eq_some_iff.mp h
  have hmem := List.mem_of_find?_eq_some hs
  have hfields := List.find?_some hs
  simp only [decide_eq_true_eq] at hfields
  obtain ⟨rfl, rfl, rfl, rfl⟩ := hfields
  exact hmem

theorem opened_of_mem (hunique : (sealings.map (·.ciphertext)).Nodup) (hs : s ∈ sealings) :
    opened sealings s.key s.nonce s.ciphertext s.aad = some s.plaintext := by
  cases hopened : opened sealings s.key s.nonce s.ciphertext s.aad with
  | none =>
    have hnone := List.find?_eq_none.mp (Option.map_eq_none_iff.mp hopened) s hs
    exact absurd (decide_eq_true ⟨rfl, rfl, rfl, rfl⟩) hnone
  | some plaintext =>
    have heq := List.inj_on_of_nodup_map hunique (opened_some hopened) hs rfl
    exact congrArg some (congrArg Sealing.plaintext heq)

/-- A ciphertext is opened with its own key only. -/
theorem key_of_opened (hunique : (sealings.map (·.ciphertext)).Nodup) (hs : s ∈ sealings) {key nonce aad p : Bytes}
    (h : opened sealings key nonce s.ciphertext aad = some p) : s = ⟨key, nonce, p, aad, s.ciphertext⟩ :=
  List.inj_on_of_nodup_map hunique hs (opened_some h) rfl

end

/-! ## Runs -/

variable {enc}

theorem call_some {w : Kms} {plaintext : Bytes} {binding : Option String} {purpose : String} {drawn : Drawn}
    {cipher : Bytes → Bytes → Bytes → Bytes → Bytes} {call : Call}
    (h : w.call enc plaintext binding purpose drawn cipher = some call) :
    masterKey enc w.settings.mcpRegistryMasterKey = some call.master ∧ call.drawn = drawn ∧
      call.value = envelopeText enc (envelopeMembers call.purpose "local" "local-derived-key" (call.hash enc)
        call.parts.encryptedDataKey call.parts.nonce call.parts.ciphertext) := by
  unfold Kms.call at h
  obtain ⟨value, hvalue, h⟩ := Option.bind_eq_some_iff.mp h
  obtain ⟨master, hmaster, h⟩ := Option.bind_eq_some_iff.mp h
  obtain rfl := Option.some.inj h
  obtain ⟨master', hmaster', rfl⟩ := encryptEnvelope_some hvalue
  obtain rfl := Option.some.inj (hmaster.symm.trans hmaster')
  exact ⟨hmaster, rfl, rfl⟩

theorem master_mem {s : Settings} {key : Bytes} (h : masterKey enc s.mcpRegistryMasterKey = some key) :
    key ∈ masterKeys enc s :=
  List.mem_filterMap.mpr ⟨_, List.mem_cons_self, h⟩

/-- An encryption under a key that no call drew, and no wrapping of another kind. -/
theorem Sound.add {w : Kms} {s : Sealing} (h : Sound enc w) (hfresh : w.fresh s.ciphertext)
    (hwrap : s.key ∈ w.masters → s.aad = localWrapAad enc none)
    (hkey : ∀ call ∈ w.calls, s.key ≠ call.drawn.dataKey) :
    Sound enc { w with sealings := s :: w.sealings } where
  masters := h.masters
  unique := by
    refine List.nodup_cons.mpr ⟨fun hmem => ?_, h.unique⟩
    obtain ⟨t, ht, heq⟩ := List.mem_map.mp hmem
    exact hfresh t ht heq
  wraps t ht hmaster := by
    rcases List.mem_cons.mp ht with rfl | ht
    · exact .inl (hwrap hmaster)
    · exact h.wraps t ht hmaster
  seals call hcall t ht heq := by
    rcases List.mem_cons.mp ht with rfl | ht
    · exact absurd heq (hkey call hcall)
    · exact h.seals call hcall t ht heq
  logged call hcall :=
    ⟨List.mem_cons_of_mem _ (h.logged call hcall).1, List.mem_cons_of_mem _ (h.logged call hcall).2⟩
  keys := h.keys
  values := h.values

theorem Sound.encrypt {w : Kms} {call : Call} (h : Sound enc w) (hmaster : call.master ∈ w.masters)
    (hvalue : call.drawn.wrapNonce.length = 12 ∧
      call.value = envelopeText enc (envelopeMembers call.purpose "local" "local-derived-key" (call.hash enc)
        call.parts.encryptedDataKey call.parts.nonce call.parts.ciphertext))
    (hdataKey : call.drawn.dataKey ∉ w.masters) (hnew : ∀ s ∈ w.sealings, s.key ≠ call.drawn.dataKey)
    (hwrapped : w.fresh call.wrapped) (hsealed : w.fresh call.sealed) (hne : call.wrapped ≠ call.sealed) :
    Sound enc { w with
      sealings := call.wrapping enc :: call.sealing enc :: w.sealings
      calls := call :: w.calls } where
  masters := h.masters
  unique := by
    have hmem {c : Bytes} (hfresh : w.fresh c) : c ∉ w.sealings.map (·.ciphertext) := fun hm => by
      obtain ⟨s, hs, heq⟩ := List.mem_map.mp hm
      exact hfresh s hs heq
    refine List.nodup_cons.mpr ⟨fun hm => ?_, List.nodup_cons.mpr ⟨hmem hsealed, h.unique⟩⟩
    rcases List.mem_cons.mp hm with heq | hm
    · exact hne heq
    · exact hmem hwrapped hm
  wraps s hs hkey := by
    rcases List.mem_cons.mp hs with rfl | hs
    · exact .inr ⟨call, List.mem_cons_self, rfl⟩
    rcases List.mem_cons.mp hs with rfl | hs
    · exact absurd hkey hdataKey
    · rcases h.wraps s hs hkey with haad | ⟨old, hold, heq⟩
      · exact .inl haad
      · exact .inr ⟨old, List.mem_cons_of_mem _ hold, heq⟩
  seals old hold s hs hkey := by
    rcases List.mem_cons.mp hold with rfl | hold
    · rcases List.mem_cons.mp hs with rfl | hs
      · exact absurd (show old.master = old.drawn.dataKey from hkey) fun heq => hdataKey (heq ▸ hmaster)
      rcases List.mem_cons.mp hs with rfl | hs
      · rfl
      · exact absurd hkey (hnew s hs)
    · rcases List.mem_cons.mp hs with rfl | hs
      · exact absurd (show call.master = old.drawn.dataKey from hkey) fun heq => (h.keys old hold).2 (heq ▸ hmaster)
      rcases List.mem_cons.mp hs with rfl | hs
      · exact absurd (show old.drawn.dataKey = call.drawn.dataKey from hkey.symm) (hnew _ (h.logged old hold).2)
      · exact h.seals old hold s hs hkey
  logged old hold := by
    rcases List.mem_cons.mp hold with rfl | hold
    · exact ⟨List.mem_cons_self, List.mem_cons_of_mem _ List.mem_cons_self⟩
    · obtain ⟨hw, hs⟩ := h.logged old hold
      exact ⟨List.mem_cons_of_mem _ (List.mem_cons_of_mem _ hw), List.mem_cons_of_mem _ (List.mem_cons_of_mem _ hs)⟩
  keys old hold := by
    rcases List.mem_cons.mp hold with rfl | hold
    · exact ⟨hmaster, hdataKey⟩
    · exact h.keys old hold
  values old hold := by
    rcases List.mem_cons.mp hold with rfl | hold
    · exact hvalue
    · exact h.values old hold

theorem Sound.rotate {w : Kms} {master : String} (h : Sound enc w)
    (hknown : ∀ key, masterKey enc master = some key → key ∈ w.masters ∨ ∀ s ∈ w.sealings, s.key ≠ key) :
    Sound enc { w with
      settings := ⟨master, w.settings.mcpRegistryMasterKey⟩
      masters := (masterKey enc master).toList ++ w.masters } where
  masters key hkey := by
    obtain ⟨secret, hsecret, heq⟩ := List.mem_filterMap.mp hkey
    rcases List.mem_cons.mp hsecret with rfl | hsecret
    · exact List.mem_append_left _ (Option.mem_toList.mpr heq)
    · obtain rfl := List.mem_singleton.mp hsecret
      exact List.mem_append_right _ (h.masters key (master_mem heq))
  unique := h.unique
  wraps s hs hkey := by
    rcases List.mem_append.mp hkey with hkey | hkey
    · rcases hknown s.key (Option.mem_toList.mp hkey) with hold | hnew
      · exact h.wraps s hs hold
      · exact absurd rfl (hnew s hs)
    · exact h.wraps s hs hkey
  seals := h.seals
  logged := h.logged
  keys call hcall := by
    obtain ⟨hmaster, hdataKey⟩ := h.keys call hcall
    refine ⟨List.mem_append_right _ hmaster, fun hmem => ?_⟩
    rcases List.mem_append.mp hmem with hmem | hmem
    · rcases hknown _ (Option.mem_toList.mp hmem) with hold | hnew
      · exact hdataKey hold
      · exact hnew _ (h.logged call hcall).2 rfl
    · exact hdataKey hmem
  values := h.values

theorem sound_inductive (enc : Encodings) : (kms enc).Inductive (Sound enc) where
  start hs := by
    obtain ⟨settings, rfl⟩ := hs
    exact ⟨fun _ h => h, List.nodup_nil, nofun, nofun, nofun, nofun, nofun⟩
  step h hs := by
    cases hs with
    | @encrypt _ _ _ drawn _ call hcall hlength hmasters hkeys hwrapped hsealed hne =>
      obtain ⟨hmaster, rfl, hvalue⟩ := call_some hcall
      exact h.encrypt (h.masters _ (master_mem hmaster)) ⟨hlength, hvalue⟩ hmasters hkeys hwrapped hsealed hne
    | verify hmaster hfresh =>
      exact h.add hfresh (fun _ => rfl) fun call hcall heq =>
        (h.keys call hcall).2 (heq ▸ h.masters _ (master_mem hmaster))
    | foreign hmaster hkey hfresh => exact h.add hfresh (fun hm => absurd hm hmaster) hkey
    | rotate hknown => exact h.rotate hknown

/-! ## Envelopes -/

/-- The data key of a call is unwrapped with the master key or the previous one. -/
theorem Sound.dataKey {w : Kms} {call : Call} (h : Sound enc w) (hcall : call ∈ w.calls)
    (hmaster : call.master ∈ masterKeys enc w.settings) :
    decryptDataKey enc (opened w.sealings) w.settings call.parts.encryptedDataKey
      (envelopeContext call.purpose (call.hash enc)) = some call.drawn.dataKey := by
  have hlogged := (h.logged call hcall).1
  have htake : call.parts.encryptedDataKey.take 12 = call.drawn.wrapNonce := by
    rw [Call.parts, List.take_left' (h.values call hcall).1]
  have hdrop : call.parts.encryptedDataKey.drop 12 = call.wrapped := by
    rw [Call.parts, List.drop_left' (h.values call hcall).1]
  have hopened := opened_of_mem h.unique hlogged
  have hkey {key p : Bytes} (ho : opened w.sealings key call.drawn.wrapNonce call.wrapped
      (localWrapAad enc (some (envelopeContext call.purpose (call.hash enc)))) = some p) : p = call.drawn.dataKey :=
    (congrArg Sealing.plaintext (key_of_opened h.unique hlogged ho)).symm
  unfold decryptDataKey
  rw [htake, hdrop]
  cases hfound : [w.settings.mcpRegistryMasterKey, w.settings.mcpRegistryPreviousMasterKey].findSome? fun secret =>
      if Text.strip secret.toList = [] then none
      else (masterKey enc secret).bind fun key => opened w.sealings key call.drawn.wrapNonce call.wrapped
        (localWrapAad enc (some (envelopeContext call.purpose (call.hash enc)))) with
  | none =>
    obtain ⟨secret, hsecret, hderived⟩ := List.mem_filterMap.mp hmaster
    have hnone := List.findSome?_eq_none_iff.mp hfound secret hsecret
    have hblank : Text.strip secret.toList ≠ [] := by
      intro hblank
      simp [masterKey, hblank] at hderived
    rw [if_neg hblank, hderived, Option.bind_some] at hnone
    exact absurd (hnone.symm.trans hopened) (Option.some_ne_none _).symm
  | some p =>
    obtain ⟨secret, -, hsome⟩ := List.exists_of_findSome?_eq_some hfound
    split at hsome
    · exact absurd hsome.symm (Option.some_ne_none p)
    · obtain ⟨key, -, ho⟩ := Option.bind_eq_some_iff.mp hsome
      rw [hkey ho]

/-- An envelope that is decrypted for an owner was made for it. -/
theorem Sound.decrypted (hlaw : enc.Lawful) {w : Kms} (h : Sound enc w) {value purpose owner : String}
    {plaintext : Bytes} (hne : owner ≠ "") (hunbound : owner ≠ "unbound")
    (hok : decryptEnvelope enc (opened w.sealings) w.settings value (some owner) purpose = .ok plaintext) :
    ∃ call ∈ w.calls, call.purpose = purpose ∧ call.binding = some owner ∧ call.plaintext = plaintext ∧
      envelopeParts enc value = some call.parts := by
  obtain ⟨parts, hash, dataKey, hparts, hhash, hdataKey, hplaintext⟩ := decryptEnvelope_ok hok
  obtain rfl := hhash rfl
  obtain ⟨secret, hsecret, hsome⟩ := List.exists_of_findSome?_eq_some hdataKey
  split at hsome
  · exact absurd hsome.symm (Option.some_ne_none dataKey)
  obtain ⟨key, hkey, hopened⟩ := Option.bind_eq_some_iff.mp hsome
  have hmaster : key ∈ w.masters := h.masters key (List.mem_filterMap.mpr ⟨secret, hsecret, hkey⟩)
  rcases h.wraps _ (opened_some hopened) hmaster with haad | ⟨call, hcall, hwrapping⟩
  · exact absurd haad.symm (localWrapAad_none hlaw _ _)
  obtain ⟨-, hnonce, hkeyEq, haad, hwrapped⟩ := Sealing.mk.inj hwrapping
  obtain ⟨rfl, hhash⟩ := localWrapAad_inj hlaw haad
  have hbound : bound call.binding = owner := by
    have hcases : bound (some owner) = owner := by
      unfold bound
      split
      · next heq => exact absurd heq (Option.some_ne_none owner)
      · next heq => exact absurd (Option.some.inj heq) hne
      · next heq => exact (Option.some.inj heq).symm
    exact (hexdigest_inj hlaw hhash).symm.trans hcases
  have hbinding : call.binding = some owner := by
    unfold bound at hbound
    split at hbound
    · exact absurd hbound.symm hunbound
    · exact absurd hbound.symm hunbound
    · next heq => rw [heq, hbound]
  have hsealing := h.seals call hcall _ (opened_some hplaintext) hkeyEq
  obtain ⟨-, hnonce', hplaintext', -, hsealed⟩ := Sealing.mk.inj hsealing
  refine ⟨call, hcall, rfl, hbinding, hplaintext'.symm, ?_⟩
  rw [hparts, Call.parts, ← hnonce, ← hwrapped, List.take_append_drop, ← hnonce', ← hsealed]

/-- What is encrypted for a purpose and an owner is decrypted for them, also after a rotation, and every
envelope that is decrypted for an owner was made for it in one call. -/
theorem envelope_binding (hlaw : enc.Lawful) {w : Kms} (hw : (kms enc).Reachable w) :
    (∀ call ∈ w.calls, call.purpose ≠ "" → call.master ∈ masterKeys enc w.settings →
      decryptEnvelope enc (opened w.sealings) w.settings call.value call.binding call.purpose = .ok call.plaintext) ∧
    (∀ value purpose owner plaintext, owner ≠ "" → owner ≠ "unbound" →
      decryptEnvelope enc (opened w.sealings) w.settings value (some owner) purpose = .ok plaintext →
      ∃ call ∈ w.calls, call.purpose = purpose ∧ call.binding = some owner ∧ call.plaintext = plaintext ∧
        envelopeParts enc value = some call.parts) ∧
    ∀ purpose purpose' binding binding', envelopeAad purpose (bindingSha256 enc binding) =
        envelopeAad purpose' (bindingSha256 enc binding') →
      purpose = purpose' ∧ bindingSha256 enc binding = bindingSha256 enc binding' := by
  have h := (sound_inductive enc).reachable hw
  refine ⟨fun call hcall hpurpose hmaster => ?_, fun value purpose owner plaintext => h.decrypted hlaw,
    fun purpose purpose' binding binding' => envelopeAad_inj (hexdigest_noColon _ _) (hexdigest_noColon _ _)⟩
  rw [(h.values call hcall).2]
  exact decryptEnvelope_text hlaw hpurpose (h.dataKey hcall hmaster) (opened_of_mem h.unique (h.logged call hcall).2)

/-! ## A sample history -/

namespace Sample

/-- A character of a text in JSON: one of printable ASCII as it is or with a backslash. -/
def writeChar (c : Char) : Bytes :=
  if c = '"' ∨ c = '\\' then [92, UInt8.ofNat c.toNat]
  else if 32 ≤ c.toNat ∧ c.toNat < 127 then [UInt8.ofNat c.toNat]
  else 92 :: 117 :: (List.replicate c.toNat 48 ++ [59])

def writeText (text : String) : Bytes := 34 :: (text.toList.flatMap writeChar ++ [34])

def writeValue : Json → Bytes
  | .str text => writeText text
  | _ => [50]

def writeMembers : List (String × Json) → Bytes
  | [] => [125]
  | [m] => writeText m.1 ++ 58 :: (writeValue m.2 ++ [125])
  | m :: next :: ms => writeText m.1 ++ 58 :: (writeValue m.2 ++ 44 :: writeMembers (next :: ms))

/-- Objects of texts and the number 2, with their keys in order. -/
def dumps : Json → Bytes
  | .obj members => 123 :: writeMembers (members.mergeSort fun a b => a.1 ≤ b.1)
  | _ => []

inductive Reading
  | text
  | escape
  | code (n : Nat)

/-- The characters of a text, and what follows it. -/
def readChars : Reading → Bytes → Option (List Char × Bytes)
  | _, [] => none
  | .text, b :: rest =>
    if b = 34 then some ([], rest)
    else if b = 92 then readChars .escape rest
    else (readChars .text rest).map fun (cs, rest) => (Char.ofNat b.toNat :: cs, rest)
  | .escape, b :: rest =>
    if b = 117 then readChars (.code 0) rest
    else (readChars .text rest).map fun (cs, rest) => (Char.ofNat b.toNat :: cs, rest)
  | .code n, b :: rest =>
    if b = 48 then readChars (.code (n + 1)) rest
    else (readChars .text rest).map fun (cs, rest) => (Char.ofNat n :: cs, rest)

def readText : Bytes → Option (String × Bytes)
  | b :: rest => if b = 34 then (readChars .text rest).map fun (cs, rest) => (String.ofList cs, rest) else none
  | [] => none

def readValue : Bytes → Option (Json × Bytes)
  | b :: rest => if b = 50 then some (.num 2, rest) else (readText (b :: rest)).map fun (t, rest) => (.str t, rest)
  | [] => none

def readMembers : Nat → Bytes → Option (List (String × Json))
  | 0, _ => none
  | fuel + 1, bytes => do
    let (key, rest) ← readText bytes
    let (value, rest) ← readValue (rest.drop 1)
    match rest with
    | 44 :: rest => (readMembers fuel rest).map ((key, value) :: ·)
    | _ => some [(key, value)]

def loads : Bytes → Option Json
  | 123 :: 125 :: _ => some (.obj [])
  | 123 :: rest => (readMembers rest.length rest).map .obj
  | _ => none

theorem ofNat_toNat {c : Char} (h : c.toNat < 127) : Char.ofNat (UInt8.ofNat c.toNat).toNat = c := by
  rw [UInt8.toNat_ofNat_of_lt' (show c.toNat < 256 by omega), Char.ofNat_toNat]

theorem readChars_code (k n : Nat) (rest : Bytes) :
    readChars (.code n) (List.replicate k 48 ++ 59 :: rest) =
      (readChars .text rest).map fun (cs, rest) => (Char.ofNat (n + k) :: cs, rest) := by
  induction k generalizing n with
  | zero => rfl
  | succ k ih =>
    rw [List.replicate_succ, List.cons_append, readChars, if_pos rfl, ih, Nat.add_right_comm, Nat.add_assoc]

theorem readChars_writeChar (c : Char) (rest : Bytes) :
    readChars .text (writeChar c ++ rest) = (readChars .text rest).map fun (cs, rest) => (c :: cs, rest) := by
  unfold writeChar
  split
  · next hquote =>
    rcases hquote with rfl | rfl <;> rfl
  next hplain =>
  split
  · next hrange =>
    have hnat : (UInt8.ofNat c.toNat).toNat = c.toNat := UInt8.toNat_ofNat_of_lt' (show c.toNat < 256 by omega)
    have hquote : UInt8.ofNat c.toNat ≠ 34 := fun heq =>
      hplain (.inl (Char.toNat_inj.mp (hnat.symm.trans (congrArg UInt8.toNat heq))))
    have hbackslash : UInt8.ofNat c.toNat ≠ 92 := fun heq =>
      hplain (.inr (Char.toNat_inj.mp (hnat.symm.trans (congrArg UInt8.toNat heq))))
    rw [List.singleton_append, readChars, if_neg hquote, if_neg hbackslash, ofNat_toNat hrange.2]
  · rw [List.cons_append, List.cons_append, readChars, if_neg (by decide), if_pos rfl, readChars, if_pos rfl,
      List.append_assoc, List.singleton_append, readChars_code, Nat.zero_add, Char.ofNat_toNat]

theorem readText_writeText (text : String) (rest : Bytes) :
    readText (writeText text ++ rest) = some (text, rest) := by
  have hchars : ∀ cs : List Char, readChars .text (cs.flatMap writeChar ++ 34 :: rest) = some (cs, rest) := by
    intro cs
    induction cs with
    | nil => rfl
    | cons c cs ih =>
      rw [List.flatMap_cons, List.append_assoc, readChars_writeChar, ih]
      rfl
  rw [writeText, List.cons_append, List.append_assoc, List.singleton_append, readText, if_pos rfl, hchars]
  exact congrArg (fun t => some (t, rest)) String.ofList_toList

theorem readValue_writeValue {value : Json} (h : (∃ text, value = .str text) ∨ value = .num 2) (rest : Bytes) :
    readValue (writeValue value ++ rest) = some (value, rest) := by
  rcases h with ⟨text, rfl⟩ | rfl
  · have hread := readText_writeText text rest
    rw [writeText, List.cons_append] at hread
    rw [writeValue, writeText, List.cons_append, readValue, if_neg (by decide), hread]
    rfl
  · rfl

theorem readMembers_writeMembers {members : List (String × Json)} (hne : members ≠ [])
    (h : ∀ m ∈ members, (∃ text, m.2 = .str text) ∨ m.2 = .num 2) {fuel : Nat} (hfuel : members.length ≤ fuel) :
    readMembers fuel (writeMembers members) = some members := by
  induction members generalizing fuel with
  | nil => exact absurd rfl hne
  | cons m ms ih =>
    obtain ⟨key, value⟩ := m
    obtain ⟨fuel, rfl⟩ := Nat.exists_eq_add_of_lt hfuel
    have hvalue := h (key, value) List.mem_cons_self
    cases ms with
    | nil =>
      have htail := readValue_writeValue hvalue [125]
      simp only [writeMembers, readMembers, readText_writeText, Option.bind_eq_bind, Option.bind_some, List.drop_one,
        List.tail_cons]
      rw [htail]
      rfl
    | cons next ms =>
      have htail := readValue_writeValue hvalue (44 :: writeMembers (next :: ms))
      have hrest : readMembers (List.length (next :: ms) + fuel) (writeMembers (next :: ms)) = some (next :: ms) :=
        ih (List.cons_ne_nil next ms) (fun m hm => h m (List.mem_cons_of_mem _ hm)) (by omega)
      simp only [writeMembers, readMembers, readText_writeText, Option.bind_eq_bind, Option.bind_some, List.drop_one,
        List.tail_cons]
      rw [htail]
      exact congrArg (Option.map ((key, value) :: ·)) hrest

/-- With different keys the order of the members does not matter. -/
theorem lookup_perm {a b : List (String × Json)} (hperm : a.Perm b) (hkeys : (a.map (·.1)).Nodup) (key : String) :
    a.lookup key = b.lookup key := by
  induction hperm with
  | nil => rfl
  | cons m _ ih => rw [List.lookup_cons, List.lookup_cons, ih (List.nodup_cons.mp hkeys).2]
  | swap m n l =>
    obtain ⟨k, v⟩ := m
    obtain ⟨k', v'⟩ := n
    have hne : k' ≠ k := by
      simp only [List.map_cons, List.nodup_cons, List.mem_cons, not_or] at hkeys
      exact hkeys.1.1
    simp only [List.lookup_cons]
    by_cases hm : key = k
    · simp [hm, beq_eq_false_iff_ne.mpr (Ne.symm hne)]
    · simp [beq_eq_false_iff_ne.mpr hm]
  | trans h _ ih ih' => exact (ih hkeys).trans (ih' ((h.map _).nodup_iff.mp hkeys))

/-- Digests as SHA-256 has them, of the texts of the sample. -/
def digests : List (String × Bytes) :=
  [("0123456789abcdef", [159, 159, 81, 17, 247, 178, 122, 120, 31, 31, 29, 221, 229, 235, 194, 221, 43, 121, 107, 252,
      115, 101, 201, 194, 139, 84, 142, 86, 65, 118, 146, 159]),
    ("fedcba9876543210", [52, 101, 246, 230, 151, 91, 170, 134, 76, 169, 87, 240, 145, 78, 205, 169, 191, 126, 182, 1,
      172, 49, 172, 32, 165, 220, 61, 50, 146, 121, 168, 67]),
    ("mcp:tenant-1:docs", [102, 84, 47, 167, 158, 0, 202, 232, 33, 33, 220, 93, 137, 105, 28, 107, 119, 189, 179, 67,
      24, 153, 150, 176, 160, 11, 130, 231, 212, 113, 240, 51])]

def sha256 (text : String) : Bytes := (digests.lookup text).getD (List.replicate 33 0 ++ utf8 text)

def encodings : Encodings := ⟨dumps, loads, fun _ => "", sha256⟩

theorem digests_lookup {text : String} {digest : Bytes} (h : digests.lookup text = some digest) :
    (text, digest) ∈ digests ∧ digest.length = 32 := by
  obtain ⟨l, r, heq, -⟩ := List.lookup_eq_some_iff.mp h
  have hmem : (text, digest) ∈ digests := by rw [heq]; simp
  have hlength : ∀ d ∈ digests, d.2.length = 32 := by decide
  exact ⟨hmem, hlength _ hmem⟩

theorem sha256_injective : Function.Injective sha256 := by
  intro a b h
  unfold sha256 at h
  cases ha : digests.lookup a with
  | none =>
    cases hb : digests.lookup b with
    | none =>
      rw [ha, hb] at h
      exact utf8_inj (List.append_cancel_left h)
    | some digest =>
      rw [ha, hb] at h
      have hlength := congrArg List.length h
      simp [(digests_lookup hb).2] at hlength
  | some digest =>
    cases hb : digests.lookup b with
    | none =>
      rw [ha, hb] at h
      have hlength := congrArg List.length h
      simp [(digests_lookup ha).2] at hlength
    | some digest' =>
      rw [ha, hb] at h
      have hpairs : ∀ d ∈ digests, ∀ d' ∈ digests, d.2 = d'.2 → d.1 = d'.1 := by decide
      exact hpairs _ (digests_lookup ha).1 _ (digests_lookup hb).1 h

theorem length_le_writeMembers (members : List (String × Json)) : members.length ≤ (writeMembers members).length := by
  induction members with
  | nil => exact Nat.zero_le _
  | cons m ms ih =>
    cases ms with
    | nil =>
      simp only [writeMembers, List.length_append, List.length_cons]
      omega
    | cons next ms =>
      simp only [writeMembers, List.length_append, List.length_cons] at ih ⊢
      omega

theorem loads_writeMembers {members : List (String × Json)}
    (h : ∀ m ∈ members, (∃ text, m.2 = .str text) ∨ m.2 = .num 2) :
    loads (123 :: writeMembers members) = some (.obj members) := by
  cases members with
  | nil => rfl
  | cons m ms =>
    have hread := readMembers_writeMembers (List.cons_ne_nil m ms) h (length_le_writeMembers _)
    obtain ⟨rest, hrest⟩ : ∃ rest, writeMembers (m :: ms) = 34 :: rest := by
      cases ms <;> exact ⟨_, rfl⟩
    rw [hrest] at hread ⊢
    show (readMembers (34 :: rest).length (34 :: rest)).map Json.obj = _
    rw [hread]
    rfl

theorem lawful : encodings.Lawful where
  loads_dumps {members} h := by
    have hperm := List.mergeSort_perm members fun a b => decide (a.1 ≤ b.1)
    have hget : ∀ key, (Json.obj (members.mergeSort fun a b => decide (a.1 ≤ b.1))).get key =
        (Json.obj members).get key := fun key => lookup_perm hperm ((hperm.map _).nodup_iff.mpr h.1) key
    refine ⟨.obj (members.mergeSort fun a b => decide (a.1 ≤ b.1)), ?_, hget⟩
    exact loads_writeMembers fun m hm => h.2 m (hperm.mem_iff.mp hm)
  sha256_injective := sha256_injective
  sha256_ne {text} := by
    show (digests.lookup text).getD (List.replicate 33 0 ++ utf8 text) ≠ []
    cases h : digests.lookup text with
    | none => simp
    | some digest =>
      have hlength := (digests_lookup h).2
      intro hnil
      rw [show digest = [] from hnil] at hlength
      exact absurd hlength (by decide)

def drawn : Drawn := ⟨List.replicate 32 7, List.replicate 12 1, List.replicate 12 2⟩

def wrapped : Bytes :=
  [142, 83, 141, 4, 109, 61, 239, 60, 168, 56, 168, 155, 171, 238, 182, 152, 76, 197, 164, 186, 68, 10, 137, 106, 143,
    167, 252, 120, 244, 59, 120, 247, 97, 193, 175, 202, 126, 197, 229, 90, 161, 134, 38, 161, 70, 86, 105, 130]

def sealed : Bytes := [113, 209, 144, 133, 173, 30, 50, 176, 17, 132, 141, 107, 42, 210, 229, 40, 50, 55, 175]

/-- The answers of AES-GCM for the two encryptions of the sample. -/
def cipher (key _nonce _plaintext _aad : Bytes) : Bytes := if key = drawn.dataKey then sealed else wrapped

def settings : Settings := ⟨"0123456789abcdef", ""⟩

/-- The credential `key`. -/
def credential : Bytes := [107, 101, 121]

def start : Kms := ⟨settings, [], [], masterKeys encodings settings⟩

/-- A credential is decrypted after a rotation of the master key. -/
theorem envelope_binding_sample : ∃ w call, (kms encodings).Reachable w ∧ call ∈ w.calls ∧
    w.settings = ⟨"fedcba9876543210", "0123456789abcdef"⟩ ∧ call.binding = some "mcp:tenant-1:docs" ∧
    decryptEnvelope encodings (opened w.sealings) w.settings call.value (some "mcp:tenant-1:docs") "mcp-credential" =
      .ok credential := by
  have hview : (start.call encodings credential (some "mcp:tenant-1:docs") "mcp-credential" drawn cipher).map
      (fun call => ((call.plaintext, call.binding, call.purpose), (call.master, call.wrapped, call.sealed))) =
      some ((credential, some "mcp:tenant-1:docs", "mcp-credential"),
        (sha256 "0123456789abcdef", wrapped, sealed)) := by
    decide +kernel
  obtain ⟨call, hcall, hfields⟩ := Option.map_eq_some_iff.mp hview
  obtain ⟨harguments, hanswers⟩ := Prod.mk.inj hfields
  obtain ⟨hplaintext, hrest⟩ := Prod.mk.inj harguments
  obtain ⟨hbinding, hpurpose⟩ := Prod.mk.inj hrest
  obtain ⟨hmaster, hrest⟩ := Prod.mk.inj hanswers
  obtain ⟨hwrapped, hsealed⟩ := Prod.mk.inj hrest
  have hkeys : masterKeys encodings settings = [sha256 "0123456789abcdef"] := by decide +kernel
  have hnew : masterKey encodings "fedcba9876543210" = some (sha256 "fedcba9876543210") := by decide +kernel
  have hencrypted : KmsMove encodings start
      (.encrypt credential (some "mcp:tenant-1:docs") "mcp-credential" drawn cipher)
      { start with
        sealings := [call.wrapping encodings, call.sealing encodings]
        calls := [call] } := by
    refine .encrypt hcall rfl ?_ nofun nofun nofun ?_
    · show drawn.dataKey ∉ masterKeys encodings settings
      rw [hkeys]
      decide +kernel
    · rw [hwrapped, hsealed]
      decide
  have hdrawn : call.drawn = drawn := (call_some hcall).2.1
  have hrotated : KmsMove encodings
      { start with
        sealings := [call.wrapping encodings, call.sealing encodings]
        calls := [call] }
      (.rotate "fedcba9876543210")
      { settings := ⟨"fedcba9876543210", "0123456789abcdef"⟩
        sealings := [call.wrapping encodings, call.sealing encodings]
        calls := [call]
        masters := (masterKey encodings "fedcba9876543210").toList ++ start.masters } := by
    refine .rotate fun key hkey => .inr fun s hs => ?_
    obtain rfl := Option.some.inj (hnew.symm.trans hkey)
    rcases List.mem_cons.mp hs with rfl | hs
    · show call.master ≠ _
      rw [hmaster]
      decide +kernel
    · obtain rfl := List.mem_singleton.mp hs
      show call.drawn.dataKey ≠ _
      rw [hdrawn]
      decide +kernel
  have hstart : (kms encodings).Reachable start := .start ⟨settings, rfl⟩
  have hreachable := (hstart.step hencrypted).step hrotated
  have hold : masterKeys encodings ⟨"fedcba9876543210", "0123456789abcdef"⟩ =
      [sha256 "fedcba9876543210", sha256 "0123456789abcdef"] := by decide +kernel
  refine ⟨_, call, hreachable, List.mem_cons_self, rfl, hbinding, ?_⟩
  have hdecrypted := (envelope_binding lawful hreachable).1 call List.mem_cons_self (by rw [hpurpose]; decide)
    (by rw [hmaster, hold]; exact List.mem_cons_of_mem _ List.mem_cons_self)
  rw [hbinding, hpurpose, hplaintext] at hdecrypted
  exact hdecrypted

end Sample

end CodeMate.Core
