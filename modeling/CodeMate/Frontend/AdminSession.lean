import CodeMate.Framework.Base64
import CodeMate.Framework.Json
import CodeMate.Framework.Text
import CodeMate.Framework.Utf8
import Mathlib.Data.List.Basic

/-!
# Session cookies

The value of a session cookie is a payload and its signature, in two formats:
`createAdminSessionValue` signs the session itself, the older one its expiry.
`parseAdminSession` reads both. With signatures that cannot be forged it
accepts what was issued and is live, and beyond that a live value of the newer
format with a dot after it and nothing more, or nothing up to the next dot
(`parse_iff`). `parse_exact` is when the values that are accepted are exactly
the issued ones.
-/

namespace CodeMate.Frontend

open Framework

/-! ## Sessions -/

inductive AdminRole
  | admin
  | viewer
  deriving DecidableEq

def AdminRole.text : AdminRole → String
  | .admin => "admin"
  | .viewer => "viewer"

inductive Provider
  | github
  | password
  | localDev
  deriving DecidableEq

def Provider.text : Provider → String
  | .github => "github"
  | .password => "password"
  | .localDev => "local"

structure AdminUser where
  provider : Provider
  login : String
  name : Option String
  avatarUrl : Option String
  deriving DecidableEq

def AdminUser.json (user : AdminUser) : Json :=
  .obj [("provider", .str user.provider.text), ("login", .str user.login), ("name", Json.ofOption user.name),
    ("avatarUrl", Json.ofOption user.avatarUrl)]

structure AdminSession where
  expiresAt : Rat
  role : AdminRole
  user : AdminUser

def AdminSession.json (session : AdminSession) : Json :=
  .obj [("version", .num 2), ("expiresAt", .num session.expiresAt), ("role", .str session.role.text),
    ("user", session.user.json)]

/-- The user of a session that was opened with the password. -/
def passwordAdmin : AdminUser := ⟨.password, "password-admin", some "密码登录管理员", none⟩

def sessionTtlMs : Nat := 8 * 60 * 60 * 1000

/-! ## The runtime -/

/-- A point in time that a `Date` can hold, in milliseconds. -/
structure Instant where
  ms : Nat
  bound : ms ≤ 8640000000000000

/-- A number of JavaScript. -/
inductive Number
  | finite (q : Rat)
  | infinite (negative : Bool)
  | nan

def Number.le : Number → Int → Bool
  | .finite q, now => q ≤ now
  | .infinite negative, _ => negative
  | .nan, _ => false

/-- What the session code uses of its runtime: the HMAC of a payload under the session secret in base64url, the
JSON functions (`parse` is `none` for a `SyntaxError`), the conversion of a value to a number, and the reading of
bytes that are not UTF-8. -/
structure Runtime where
  sign : List Char → List Char
  stringify : Json → List Char
  parse : List Char → Option Json
  toNumber : Json → Number
  replace : List UInt8 → List Char

variable (r : Runtime)

/-! ## Creating and parsing -/

def encodePayload (session : AdminSession) : List Char :=
  Base64.encodeUrl (Utf8.encode (r.stringify session.json))

def newSession (role : AdminRole) (user : AdminUser) (now : Instant) : AdminSession :=
  ⟨((now.ms + sessionTtlMs : Nat) : Rat), role, user⟩

def createAdminSessionValue (role : AdminRole) (user : AdminUser) (now : Instant) : List Char :=
  let payload := encodePayload r (newSession role user now)
  payload ++ '.' :: r.sign payload

/-- Two texts are compared by their bytes. -/
def safeEqual (left right : List Char) : Bool := Utf8.encode left = Utf8.encode right

def isRole : Option Json → Bool
  | some (.str role) => role = "admin" || role = "viewer"
  | _ => false

/-- `expiresAt <= now`; a value that is missing is not a number. -/
def lessOrEqual (expiresAt : Option Json) (now : Int) : Bool :=
  match expiresAt with
  | none => false
  | some (.num q) => (Number.finite q).le now
  | some value => (r.toNumber value).le now

def legacySession (expiresAt : Rat) : AdminSession := ⟨expiresAt, .admin, passwordAdmin⟩

def parseLegacySession (value : List Char) (now : Int) : Option Json :=
  match value.splitOn '.' with
  | [version, expires, signature] =>
    if version ≠ "v1".toList then none
    else match r.toNumber (.str (String.ofList expires)) with
      | .finite expiresAt =>
        if expiresAt ≤ now then none
        else if ¬ safeEqual signature (r.sign (version ++ '.' :: expires)) then none
        else some (legacySession expiresAt).json
      | _ => none
  | _ => none

/-- What the signed payload holds, if it is a session that is live. -/
def readPayload (payload : List Char) (now : Int) : Option Json :=
  match r.parse (Utf8.decode r.replace (Base64.decodeUrl payload)) with
  | none => none
  | some parsed =>
    if parsed.get "version" ≠ some (.num 2) ∨ lessOrEqual r (parsed.get "expiresAt") now ∨
        ¬ isRole (parsed.get "role") then
      none
    else some parsed

/-- `parseAdminSession` on a value that has not the older format. -/
def parseSignedSession (value : List Char) (now : Int) : Option Json :=
  let parts := value.splitOn '.'
  -- a part that is missing is as good as an empty one
  let payload := parts.getD 0 []
  let signature := parts.getD 1 []
  let extra := parts.getD 2 []
  if payload = [] ∨ signature = [] ∨ extra ≠ [] then none
  else if ¬ safeEqual signature (r.sign payload) then none
  else readPayload r payload now

def parseAdminSession (value : Option (List Char)) (now : Int) : Option Json :=
  match value with
  | none => none
  | some value =>
    if value = [] then none
    else match parseLegacySession r value now with
      | some legacy => some legacy
      | none => parseSignedSession r value now

/-! ## What was issued -/

/-- The signer's work: a session of the newer format, or an expiry of the older one. -/
inductive Issue
  | session (role : AdminRole) (user : AdminUser) (now : Instant)
  | legacy (expiresAt : Instant)

def Issue.expiresAt : Issue → Nat
  | .session _ _ now => now.ms + sessionTtlMs
  | .legacy expiresAt => expiresAt.ms

/-- The identity, the role and the expiry that were issued. -/
def Issue.encoded : Issue → AdminSession
  | .session role user now => newSession role user now
  | .legacy expiresAt => legacySession (expiresAt.ms : Rat)

def Issue.payload : Issue → List Char
  | .session role user now => encodePayload r (newSession role user now)
  | .legacy expiresAt => "v1".toList ++ '.' :: (toString expiresAt.ms).toList

def Issue.value (issue : Issue) : List Char := issue.payload r ++ '.' :: r.sign (issue.payload r)

/-- What is documented of the runtime, for the values that it handles: the signatures are base64url, and what was
written is read. -/
structure Runtime.Documented (issued : List Issue) : Prop where
  sign_ne_nil : ∀ payload, r.sign payload ≠ []
  dot_not_mem_sign : ∀ payload, '.' ∉ r.sign payload
  parse_nil : r.parse [] = none
  parse_stringify : ∀ role user now, .session role user now ∈ issued →
    r.parse (r.stringify (newSession role user now).json) = some (newSession role user now).json
  toNumber_digits : ∀ expiresAt, .legacy expiresAt ∈ issued →
    r.toNumber (.str (toString expiresAt.ms)) = .finite (expiresAt.ms : Rat)

/-- The HMAC is ideal: a value holds a payload with its signature only if the signer made it. -/
def Unforged (issued : List Issue) (value : List Char) : Prop :=
  ∀ payload, payload ++ '.' :: r.sign payload <+: value → ∃ issue ∈ issued, issue.payload r = payload

/-- A third part that is there, and empty. -/
def Trailing (rest : List Char) : Prop := ∃ more, rest = '.' :: more ∧ (more = [] ∨ ∃ others, more = '.' :: others)

/-- The value is a live one of the newer format, and more. -/
def Trailed (issued : List Issue) (value : List Char) (now : Int) : Prop :=
  ∃ role user created, .session role user created ∈ issued ∧ now < (created.ms + sessionTtlMs : Nat) ∧
    ∃ rest, value = createAdminSessionValue r role user created ++ rest ∧ Trailing rest

/-- The session is what was issued with the value, which is live. -/
def IssuedAs (issued : List Issue) (value : List Char) (now : Int) (session : Json) : Prop :=
  ∃ issue ∈ issued, value = issue.value r ∧ now < issue.expiresAt ∧ session = issue.encoded.json

/-! ## Payloads -/

variable {r} {issued : List Issue} {value : List Char} {now : Int} {session : Json}

theorem safeEqual_iff {left right : List Char} : safeEqual left right = true ↔ left = right := by
  rw [safeEqual, decide_eq_true_iff]
  refine ⟨fun h => ?_, congrArg _⟩
  rw [← Utf8.decode_encode (fun _ => []) left, h, Utf8.decode_encode]

theorem value_append (role : AdminRole) (user : AdminUser) (created : Instant) (rest : List Char) :
    createAdminSessionValue r role user created ++ rest =
      encodePayload r (newSession role user created) ++
        '.' :: (r.sign (encodePayload r (newSession role user created)) ++ rest) :=
  List.append_assoc ..

theorem dot_not_mem_encodePayload (session : AdminSession) : '.' ∉ encodePayload r session := by
  intro h
  obtain ⟨n, hn, hdot⟩ := Base64.mem_encodeUrl h
  have hall : ∀ n < 64, '.' ≠ Base64.character n := by
    unfold Base64.character Base64.alphabet
    erw [String.toList_ofList]
    decide
  exact hall n hn hdot

theorem decoded_encodePayload (session : AdminSession) :
    Utf8.decode r.replace (Base64.decodeUrl (encodePayload r session)) = r.stringify session.json := by
  rw [encodePayload, Base64.decodeUrl_encodeUrl, Utf8.decode_encode]

theorem encodePayload_ne_nil (hr : r.Documented issued) {role : AdminRole} {user : AdminUser} {created : Instant}
    (hissue : .session role user created ∈ issued) : encodePayload r (newSession role user created) ≠ [] := by
  intro h
  have hempty : r.stringify (newSession role user created).json = [] := by
    rw [← decoded_encodePayload, h]
    exact Utf8.decode_encode r.replace []
  have hparsed := hr.parse_stringify role user created hissue
  rw [hempty, hr.parse_nil] at hparsed
  cases hparsed

/-- A payload that was issued is read as it was written, until it expires. -/
theorem readPayload_issued (hr : r.Documented issued) {role : AdminRole} {user : AdminUser} {created : Instant}
    (hissue : .session role user created ∈ issued) :
    readPayload r (encodePayload r (newSession role user created)) now =
      if now < (created.ms + sessionTtlMs : Nat) then some (newSession role user created).json else none := by
  have hversion : (newSession role user created).json.get "version" = some (.num 2) := rfl
  have hexpires : (newSession role user created).json.get "expiresAt" =
      some (.num ((created.ms + sessionTtlMs : Nat) : Rat)) := rfl
  have hrole : isRole ((newSession role user created).json.get "role") = true := by cases role <;> rfl
  have hle : lessOrEqual r (some (.num ((created.ms + sessionTtlMs : Nat) : Rat))) now = true ↔
      ¬ now < (created.ms + sessionTtlMs : Nat) := by
    show decide (((created.ms + sessionTtlMs : Nat) : Rat) ≤ (now : Rat)) = true ↔ _
    rw [decide_eq_true_iff, Int.not_lt]
    exact_mod_cast Iff.rfl
  rw [readPayload, decoded_encodePayload, hr.parse_stringify role user created hissue]
  dsimp only
  rw [hversion, hexpires, hrole]
  by_cases hlive : now < (created.ms + sessionTtlMs : Nat)
  · rw [if_pos hlive, if_neg]
    rintro (h | h | h)
    exacts [h rfl, hle.mp h hlive, h rfl]
  · rw [if_neg hlive, if_pos (.inr (.inl (hle.mpr hlive)))]

/-! ## The older format -/

theorem legacy_payload_dot (expiresAt : Instant) : '.' ∈ (Issue.legacy expiresAt).payload r :=
  List.mem_append_right _ List.mem_cons_self

theorem dot_not_mem_toString (n : Nat) : '.' ∉ (toString n).toList := by
  intro h
  have hdigits : '.' ∈ Nat.toDigits 10 n := Nat.toList_repr ▸ h
  exact absurd (Nat.isDigit_of_mem_toDigits (by decide) (by decide) hdigits) (by decide)

theorem splitOn_legacy (hr : r.Documented issued) (expiresAt : Instant) :
    ((Issue.legacy expiresAt).value r).splitOn '.' =
      ["v1".toList, (toString expiresAt.ms).toList, r.sign ((Issue.legacy expiresAt).payload r)] := by
  show List.splitOn '.' ("v1".toList ++
    '.' :: ((toString expiresAt.ms).toList ++ '.' :: r.sign ((Issue.legacy expiresAt).payload r))) = _
  rw [Text.splitOn_part (by decide), Text.splitOn_part (dot_not_mem_toString _),
    List.splitOn_eq_singleton (hr.dot_not_mem_sign _)]

/-- A value that passes as one of the older format was issued, and is live. -/
theorem legacy_ok (hr : r.Documented issued) (hvalue : Unforged r issued value)
    (h : parseLegacySession r value now = some session) : IssuedAs r issued value now session := by
  unfold parseLegacySession at h
  split at h
  · next version expires signature hsplit =>
    split at h
    · cases h
    · next hversion =>
      split at h
      · next expiresAt hnumber =>
        split at h
        · cases h
        · next hlive =>
          split at h
          · cases h
          · next hsignature =>
            obtain rfl := Option.some.inj h
            obtain rfl := not_not.mp hversion
            obtain rfl := safeEqual_iff.mp (not_not.mp hsignature)
            obtain ⟨-, rest, rfl, hrest⟩ := Text.of_splitOn_cons hsplit
            obtain ⟨-, last, rfl, hlast⟩ := Text.of_splitOn_cons hrest
            obtain ⟨-, rfl⟩ := Text.of_splitOn_singleton hlast
            obtain ⟨issue, hissue, hpayload⟩ := hvalue ("v1".toList ++ '.' :: expires)
              ⟨[], by rw [List.append_nil, List.append_assoc]; rfl⟩
            cases issue with
            | session role user created =>
              refine absurd ?_ (dot_not_mem_encodePayload (r := r) (newSession role user created))
              rw [show encodePayload r _ = _ from hpayload]
              exact List.mem_append_right _ (List.mem_cons_self ..)
            | legacy created =>
              obtain rfl : (toString created.ms).toList = expires := by
                simpa [Issue.payload] using hpayload
              rw [String.ofList_toList, hr.toNumber_digits created hissue] at hnumber
              obtain rfl := Number.finite.inj hnumber
              have hlive : now < (created.ms : Int) := by
                rw [Rat.not_le] at hlive
                exact_mod_cast hlive
              exact ⟨.legacy created, hissue, by rw [Issue.value, hpayload]; simp, hlive, rfl⟩
      · cases h
  · cases h

theorem legacy_issued (hr : r.Documented issued) {expiresAt : Instant} (hissue : .legacy expiresAt ∈ issued)
    (hlive : now < expiresAt.ms) :
    parseLegacySession r ((Issue.legacy expiresAt).value r) now = some (legacySession expiresAt.ms).json := by
  have hnumber := hr.toNumber_digits expiresAt hissue
  have hnot : ¬ ((expiresAt.ms : Rat) ≤ now) := by
    rw [Rat.not_le]
    exact_mod_cast hlive
  rw [parseLegacySession, splitOn_legacy hr]
  dsimp only
  rw [if_neg (by simp), String.ofList_toList, hnumber]
  dsimp only
  have hsignature : safeEqual (r.sign ((Issue.legacy expiresAt).payload r))
      (r.sign ("v1".toList ++ '.' :: (toString expiresAt.ms).toList)) = true := safeEqual_iff.mpr rfl
  rw [if_neg hnot, if_neg (not_not.mpr hsignature)]

/-! ## The newer format -/

/-- The parts of a payload with its signature; a third one is empty. -/
theorem splitOn_signed (hr : r.Documented issued) {payload rest : List Char} (hdot : '.' ∉ payload)
    (hrest : rest = [] ∨ Trailing rest) :
    ∃ parts, (payload ++ '.' :: (r.sign payload ++ rest)).splitOn '.' = payload :: r.sign payload :: parts ∧
      (rest = [] ∧ parts = [] ∨ Trailing rest ∧ ∃ more, parts = [] :: more) := by
  have hsign := hr.dot_not_mem_sign payload
  rw [Text.splitOn_part hdot]
  rcases hrest with rfl | ⟨more, rfl, hmore⟩
  · rw [List.append_nil, List.splitOn_eq_singleton hsign]
    exact ⟨[], rfl, .inl ⟨rfl, rfl⟩⟩
  · rw [Text.splitOn_part hsign]
    rcases hmore with rfl | ⟨others, rfl⟩
    · exact ⟨[[]], rfl, .inr ⟨⟨[], rfl, .inl rfl⟩, [], rfl⟩⟩
    · refine ⟨_, rfl, .inr ⟨⟨_, rfl, .inr ⟨others, rfl⟩⟩, others.splitOn '.', ?_⟩⟩
      exact Text.splitOn_part List.not_mem_nil others

/-- What passes as of the newer format: a payload with its signature, and at most a third part that is empty. -/
theorem parseSignedSession_iff (hr : r.Documented issued) : parseSignedSession r value now = some session ↔
    ∃ payload rest, payload ≠ [] ∧ '.' ∉ payload ∧ value = payload ++ '.' :: (r.sign payload ++ rest) ∧
      (rest = [] ∨ Trailing rest) ∧ readPayload r payload now = some session := by
  unfold parseSignedSession
  constructor
  · intro h
    dsimp only at h
    split at h
    · cases h
    · next hparts =>
      split at h
      · cases h
      · next hsignature =>
        simp only [not_or, not_not] at hparts hsignature
        obtain ⟨hpayload, hpresent, hextra⟩ := hparts
        rw [safeEqual_iff] at hsignature
        match hsplit : value.splitOn '.' with
        | [] => exact absurd hsplit (List.splitOn_ne_nil _ _)
        | [payload] => exact absurd (by rw [hsplit]; rfl) hpresent
        | payload :: signature :: parts =>
          rw [hsplit] at hpayload hsignature hextra h
          obtain ⟨hdot, text, rfl, htext⟩ := Text.of_splitOn_cons hsplit
          obtain rfl : signature = r.sign payload := hsignature
          cases parts with
          | nil =>
            obtain ⟨-, rfl⟩ := Text.of_splitOn_singleton htext
            exact ⟨payload, [], hpayload, hdot, by rw [List.append_nil], .inl rfl, h⟩
          | cons extra parts =>
            obtain rfl : extra = [] := hextra
            obtain ⟨-, more, rfl, hmore⟩ := Text.of_splitOn_cons htext
            refine ⟨payload, '.' :: more, hpayload, hdot, rfl, .inr ⟨more, rfl, ?_⟩, h⟩
            cases parts with
            | nil => exact .inl (Text.of_splitOn_singleton hmore).2
            | cons part parts =>
              obtain ⟨-, others, rfl, -⟩ := Text.of_splitOn_cons hmore
              exact .inr ⟨others, rfl⟩
  · rintro ⟨payload, rest, hpayload, hdot, rfl, hrest, hread⟩
    obtain ⟨parts, hsplit, hparts⟩ := splitOn_signed hr hdot hrest
    have hextra : parts.getD 0 [] = [] := by
      rcases hparts with ⟨-, rfl⟩ | ⟨-, more, rfl⟩ <;> rfl
    rw [hsplit]
    show (if payload = [] ∨ r.sign payload = [] ∨ parts.getD 0 [] ≠ [] then none
      else if ¬ safeEqual (r.sign payload) (r.sign payload) then none else readPayload r payload now) = some session
    rw [if_neg, if_neg (not_not.mpr (safeEqual_iff.mpr rfl)), hread]
    rintro (h | h | h)
    exacts [hpayload h, hr.sign_ne_nil _ h, h hextra]

/-- A value of the newer format is none of the older one. -/
theorem parseLegacySession_signed (hr : r.Documented issued) {payload rest : List Char} (hdot : '.' ∉ payload)
    (hrest : rest = [] ∨ Trailing rest) :
    parseLegacySession r (payload ++ '.' :: (r.sign payload ++ rest)) now = none := by
  obtain ⟨parts, hsplit, hparts⟩ := splitOn_signed hr hdot hrest
  rw [parseLegacySession, hsplit]
  rcases hparts with ⟨-, rfl⟩ | ⟨-, more, rfl⟩
  · rfl
  · cases more with
    | nil =>
      have hsignature : ¬ safeEqual [] (r.sign (payload ++ '.' :: r.sign payload)) = true :=
        fun h => hr.sign_ne_nil _ (safeEqual_iff.mp h).symm
      dsimp only
      split
      · rfl
      · split
        · exact ite_self _
        · rfl
    | cons part more => rfl

/-! ## What is accepted -/

/-- A live session is accepted with its value, and with a third part that is empty. -/
theorem parse_session (hr : r.Documented issued) {role : AdminRole} {user : AdminUser} {created : Instant}
    (hissue : .session role user created ∈ issued) (hlive : now < (created.ms + sessionTtlMs : Nat))
    {rest : List Char} (hrest : rest = [] ∨ Trailing rest) :
    parseAdminSession r (some (createAdminSessionValue r role user created ++ rest)) now =
      some (newSession role user created).json := by
  have hdot := dot_not_mem_encodePayload (r := r) (newSession role user created)
  rw [value_append, parseAdminSession, if_neg (by simp), parseLegacySession_signed hr hdot hrest]
  refine (parseSignedSession_iff hr).mpr ⟨_, rest, encodePayload_ne_nil hr hissue, hdot, rfl, hrest, ?_⟩
  rw [readPayload_issued hr hissue, if_pos hlive]

/-- A value is accepted with what was issued with it, or with a third part that is empty. -/
theorem parse_iff (hr : r.Documented issued) (hvalue : Unforged r issued value) :
    parseAdminSession r (some value) now = some session ↔ IssuedAs r issued value now session ∨
      ∃ role user created, .session role user created ∈ issued ∧ now < (created.ms + sessionTtlMs : Nat) ∧
        session = (newSession role user created).json ∧
        ∃ rest, value = createAdminSessionValue r role user created ++ rest ∧ Trailing rest := by
  constructor
  · intro h
    unfold parseAdminSession at h
    dsimp only at h
    split at h
    · cases h
    · split at h
      · next legacy hlegacy => exact .inl (Option.some.inj h ▸ legacy_ok hr hvalue hlegacy)
      · obtain ⟨payload, rest, -, hdot, rfl, hrest, hread⟩ := (parseSignedSession_iff hr).mp h
        obtain ⟨issue, hissue, rfl⟩ := hvalue payload ⟨rest, by rw [List.append_assoc]; rfl⟩
        cases issue with
        | legacy expiresAt => exact absurd (legacy_payload_dot expiresAt) hdot
        | session role user created =>
          replace hread := (readPayload_issued hr hissue).symm.trans hread
          split at hread
          · next hlive =>
            obtain rfl := Option.some.inj hread
            rcases hrest with rfl | hrest
            · exact .inl ⟨_, hissue, by rw [List.append_nil]; rfl, hlive, rfl⟩
            · have hvalue := (value_append (r := r) role user created rest).symm
              exact .inr ⟨role, user, created, hissue, hlive, rfl, rest, hvalue, hrest⟩
          · cases hread
  · rintro (⟨issue, hissue, rfl, hlive, rfl⟩ | ⟨role, user, created, hissue, hlive, rfl, rest, rfl, hrest⟩)
    · cases issue with
      | legacy expiresAt =>
        rw [parseAdminSession, if_neg (by simp [Issue.value]), legacy_issued hr hissue hlive]
        rfl
      | session role user created =>
        have h := parse_session hr hissue hlive (.inl rfl)
        rwa [List.append_nil] at h
    · exact parse_session hr hissue hlive (.inr hrest)

/-- A value with a third part that is empty was not issued. -/
theorem not_issued (hr : r.Documented issued) (role : AdminRole) (user : AdminUser) (created : Instant)
    {rest : List Char} (hrest : Trailing rest) (issue : Issue) :
    createAdminSessionValue r role user created ++ rest ≠ issue.value r := by
  intro h
  obtain ⟨parts, hsplit, hparts⟩ := splitOn_signed hr
    (dot_not_mem_encodePayload (r := r) (newSession role user created)) (.inr hrest)
  rw [← value_append, h] at hsplit
  rcases hparts with ⟨rfl, -⟩ | ⟨-, more, rfl⟩
  · obtain ⟨more, hmore, -⟩ := hrest
    cases hmore
  · cases issue with
    | legacy expiresAt =>
      rw [splitOn_legacy hr] at hsplit
      simp only [List.cons.injEq] at hsplit
      exact hr.sign_ne_nil _ hsplit.2.2.1
    | session role' user' created' =>
      obtain ⟨parts, hissue, hparts⟩ := splitOn_signed hr
        (dot_not_mem_encodePayload (r := r) (newSession role' user' created')) (.inl rfl)
      rw [List.append_nil] at hissue
      rcases hparts with ⟨-, rfl⟩ | ⟨⟨more, hmore, -⟩, -⟩
      · have hparts := hissue.symm.trans hsplit
        simp only [List.cons.injEq] at hparts
        cases hparts.2.2
      · cases hmore

/-- The values that are accepted are exactly those that were issued and are live, unless a live value of the newer
format is followed by a third part that is empty. -/
theorem parse_exact (hr : r.Documented issued) (hvalue : Unforged r issued value) :
    (∀ session, parseAdminSession r (some value) now = some session ↔ IssuedAs r issued value now session) ↔
      ¬ Trailed r issued value now := by
  constructor
  · rintro h ⟨role, user, created, hissue, hlive, rest, rfl, hrest⟩
    obtain ⟨issue, -, hsame, -⟩ := (h _).mp (parse_session hr hissue hlive (.inr hrest))
    exact not_issued hr role user created hrest issue hsame
  · intro h session
    rw [parse_iff hr hvalue]
    refine or_iff_left ?_
    rintro ⟨role, user, created, hissue, hlive, -, htrailing⟩
    exact h ⟨role, user, created, hissue, hlive, htrailing⟩

/-! ## A value with a dot after it -/

/-- Nothing in a value that was issued, or in one with a dot after it, is forged. -/
theorem unforged_value (hr : r.Documented issued) {role : AdminRole} {user : AdminUser} {created : Instant}
    (hissue : .session role user created ∈ issued) {rest : List Char} (hrest : rest = [] ∨ rest = ['.']) :
    Unforged r issued (createAdminSessionValue r role user created ++ rest) := by
  rintro payload ⟨tail, htail⟩
  refine ⟨_, hissue, ?_⟩
  have hdot := dot_not_mem_encodePayload (r := r) (newSession role user created)
  have hsplit := congrArg (List.splitOn '.') htail
  rw [createAdminSessionValue, List.append_assoc, List.append_assoc, List.cons_append, List.cons_append,
    Text.splitOn_part hdot] at hsplit
  by_cases hpayload : '.' ∈ payload
  · exfalso
    obtain ⟨front, back, rfl, hfront⟩ := List.eq_append_cons_of_mem hpayload
    rw [List.append_assoc, List.cons_append, Text.splitOn_part hfront] at hsplit
    obtain rfl := (List.cons.inj hsplit).1
    have hsame : back ++ '.' :: (r.sign (encodePayload r (newSession role user created) ++ '.' :: back) ++ tail) =
        r.sign (encodePayload r (newSession role user created)) ++ rest := by
      simpa [createAdminSessionValue] using htail
    have hsign := List.count_eq_zero.mpr (hr.dot_not_mem_sign (encodePayload r (newSession role user created)))
    have hcount := congrArg (List.count '.') hsame
    rcases hrest with rfl | rfl
    · rw [List.append_nil, List.count_append, List.count_cons_self, hsign] at hcount
      omega
    · rw [List.count_append, List.count_cons_self, @List.count_append _ _ _ (r.sign _) ['.'], hsign] at hcount
      have hback : '.' ∉ back := List.count_eq_zero.mp (by simp only [List.count_singleton_self] at hcount; omega)
      have hparts := congrArg (List.splitOn '.') hsame
      rw [Text.splitOn_part hback, Text.splitOn_part (hr.dot_not_mem_sign _)] at hparts
      have hempty := (Text.of_splitOn_singleton (List.cons.inj hparts).2).2
      exact hr.sign_ne_nil _ (List.append_eq_nil_iff.mp hempty).1
  · rw [Text.splitOn_part hpayload] at hsplit
    exact (List.cons.inj hsplit).1.symm

def sampleCreated : Instant := ⟨1700000000000, by decide⟩

def sampleIssued : List Issue := [.session .admin passwordAdmin sampleCreated]

def sampleJson : Json := (newSession .admin passwordAdmin sampleCreated).json

def sampleText : List Char :=
  ("\x7b\"version\":2,\"expiresAt\":1700028800000,\"role\":\"admin\",\"user\":\x7b\"provider\":\"password\"," ++
    "\"login\":\"password-admin\",\"name\":\"密码登录管理员\",\"avatarUrl\":null\x7d\x7d").toList

def samplePayload : List Char :=
  ("eyJ2ZXJzaW9uIjoyLCJleHBpcmVzQXQiOjE3MDAwMjg4MDAwMDAsInJvbGUiOiJhZG1pbiIsInVzZXIiOnsicHJvdmlkZXIiOiJwYXNzd29y" ++
    "ZCIsImxvZ2luIjoicGFzc3dvcmQtYWRtaW4iLCJuYW1lIjoi5a-G56CB55m75b2V566h55CG5ZGYIiwiYXZhdGFyVXJsIjpudWxsfX0").toList

/-- The runtime on the session of the password, with the secret of local development. -/
def sampleRuntime : Runtime where
  sign payload :=
    if payload = samplePayload then "1aE6L8pLMHWQjifLj9L2_TkL581KqOsbwCoo2DfMt3w".toList
    else "AAAAAAAAAAAAAAAAAAAAAAAAAAAAAAAAAAAAAAAAAAA".toList
  stringify value := if value = sampleJson then sampleText else []
  parse text := if text = sampleText then some sampleJson else none
  toNumber _ := .nan
  replace _ := []

theorem sampleRuntime_documented : sampleRuntime.Documented sampleIssued where
  sign_ne_nil payload := by
    unfold sampleRuntime
    dsimp only
    split <;> (erw [String.toList_ofList]; exact List.cons_ne_nil _ _)
  dot_not_mem_sign payload := by
    unfold sampleRuntime
    dsimp only
    split <;> (erw [String.toList_ofList]; decide)
  parse_nil := by
    have hne : ¬ [] = sampleText := by
      intro h
      have hempty := (String.append_eq_empty_iff.mp (String.toList_eq_nil_iff.mp h.symm)).1
      exact absurd hempty (by decide)
    unfold sampleRuntime
    dsimp only
    rw [if_neg hne]
  parse_stringify role user now h := by
    obtain ⟨rfl, rfl, rfl⟩ := Issue.session.inj (List.mem_singleton.mp h)
    simp only [sampleRuntime, show (newSession .admin passwordAdmin sampleCreated).json = sampleJson from rfl, if_pos]
  toNumber_digits expiresAt h := absurd (List.mem_singleton.mp h) nofun

/-- The live value of a session is accepted with a dot after it, and was not issued so. -/
theorem trailing_dot_accepted :
    sampleRuntime.Documented sampleIssued ∧
      Unforged sampleRuntime sampleIssued
        (createAdminSessionValue sampleRuntime .admin passwordAdmin sampleCreated ++ ['.']) ∧
      ¬ ∀ session, parseAdminSession sampleRuntime
          (some (createAdminSessionValue sampleRuntime .admin passwordAdmin sampleCreated ++ ['.'])) 1700000000001 =
            some session ↔
        IssuedAs sampleRuntime sampleIssued
          (createAdminSessionValue sampleRuntime .admin passwordAdmin sampleCreated ++ ['.'])
          1700000000001 session := by
  have hr := sampleRuntime_documented
  have hissue : Issue.session .admin passwordAdmin sampleCreated ∈ sampleIssued := List.mem_singleton_self _
  have hdot : Trailing ['.'] := ⟨[], rfl, .inl rfl⟩
  refine ⟨hr, unforged_value hr hissue (.inr rfl), fun h => ?_⟩
  obtain ⟨issue, -, hvalue, -⟩ := (h _).mp (parse_session hr hissue (by decide) (.inr hdot))
  exact not_issued hr .admin passwordAdmin sampleCreated hdot issue hvalue

theorem parse_exact_sample :
    ¬ Trailed sampleRuntime sampleIssued (createAdminSessionValue sampleRuntime .admin passwordAdmin sampleCreated)
        1700000000001 ∧
      ∀ session, parseAdminSession sampleRuntime
          (some (createAdminSessionValue sampleRuntime .admin passwordAdmin sampleCreated)) 1700000000001 =
            some session ↔
        IssuedAs sampleRuntime sampleIssued (createAdminSessionValue sampleRuntime .admin passwordAdmin sampleCreated)
          1700000000001 session := by
  have hr := sampleRuntime_documented
  have hissue : Issue.session .admin passwordAdmin sampleCreated ∈ sampleIssued := List.mem_singleton_self _
  have hvalue := unforged_value hr hissue (.inl rfl)
  rw [List.append_nil] at hvalue
  have htrailed : ¬ Trailed sampleRuntime sampleIssued
      (createAdminSessionValue sampleRuntime .admin passwordAdmin sampleCreated) 1700000000001 := by
    rintro ⟨role, user, created, -, -, rest, hsame, hrest⟩
    exact not_issued hr role user created hrest (.session .admin passwordAdmin sampleCreated) hsame.symm
  exact ⟨htrailed, (parse_exact hr hvalue).mpr htrailed⟩

end CodeMate.Frontend
