import CodeMate.Frontend.Proxy
import CodeMate.Mcp.Egress

/-!
# Clients of the egress gateway

A client asks the gateway for a host with the head of a CONNECT request and the
credentials of its proxy (`connectHead`). What the gateway reads is what the
client wrote (`parseAuthority_authority`, `headerField_authorization`,
`splitLines_head`), so a client with the same settings gets what
`validateEgressUrl` lets it ask for (`client_served`).
-/

namespace CodeMate.Mcp.Egress

open Framework

variable {platform : Platform} {settings : Settings}

/-! ## The request -/

/-- The characters of a host as it stands in an authority. -/
def isHostChar (c : Char) : Bool := c.toNat < 128 && c ∉ [' ', '\n', '[', ']']

def authority (host : List Char) (port : ℕ) : List Char :=
  (if ':' ∈ host then '[' :: (host ++ [']']) else host) ++ ':' :: (toString port).toList

/-- The credentials of `egress_httpx_proxy`, as they are sent. -/
def credentials (token : List Char) : List Char :=
  "Basic".toList ++ ' ' :: Base64.encodeStandard (Utf8.encode ("codemate".toList ++ ':' :: token))

def headerLine (field : List Char × List Char) : List Char := field.1 ++ ':' :: ' ' :: field.2

/-- The lines of a client that asks for a host through the proxy, with its other fields. -/
def connectLines (host : List Char) (port : ℕ) (version : List Char) (fields : List (List Char × List Char))
    (token : List Char) : List (List Char) :=
  ("CONNECT".toList ++ ' ' :: (authority host port ++ ' ' :: version)) ::
    (fields ++ [("Proxy-Authorization".toList, credentials token)]).map headerLine

/-- The lines, and an empty one that ends the head. -/
def connectHead (host : List Char) (port : ℕ) (version : List Char) (fields : List (List Char × List Char))
    (token : List Char) : List Char :=
  (connectLines host port version fields token ++ [[]]).flatMap (· ++ ['\r', '\n'])

def bytesOf (text : List Char) : List UInt8 := text.map fun c => UInt8.ofNat c.toNat

theorem latin1_bytesOf {text : List Char} (h : ∀ c ∈ text, c.toNat < 256) : latin1 (bytesOf text) = text := by
  rw [latin1, bytesOf, List.map_map]
  refine (List.map_congr_left fun c hc => ?_).trans (List.map_id text)
  rw [Function.comp_apply, UInt8.toNat_ofNat_of_lt' (h c hc)]
  exact Char.ofNat_toNat c

theorem toString_digit {n : ℕ} {c : Char} (h : c ∈ (toString n).toList) : c.isDigit = true :=
  Nat.isDigit_of_mem_toDigits (by decide) (by decide) (Nat.toList_repr ▸ h)

theorem find?_closing {host : List Char} (h : ']' ∉ host) (rest : List Char) :
    Text.find? "]:".toList (host ++ ']' :: ':' :: rest) = some host.length := by
  induction host with
  | nil => rfl
  | cons c host ih =>
    have hc : c ≠ ']' := fun heq => h (heq ▸ List.mem_cons_self)
    rw [List.cons_append, Text.find?, if_neg (by simp [Ne.symm hc]), ih fun hmem => h (List.mem_cons_of_mem _ hmem)]
    rfl

/-- An authority is read back. -/
theorem parseAuthority_authority {host : List Char} (h : ∀ c ∈ host, isHostChar c = true) (port : ℕ) :
    parseAuthority platform (authority host port) = .ok (host, (port : ℤ)) := by
  have hcolon : ':' ∉ (toString port).toList := fun hmem => absurd (toString_digit hmem) (by decide)
  have hport : Api.toInt (String.ofList (toString port).toList) = some (port : ℤ) := by
    rw [String.ofList_toList, Frontend.toInt_toString]
  unfold authority
  split
  · have hclose : ']' ∉ host := fun hmem => absurd (h _ hmem) (by decide)
    have hfind : Text.find? "]:".toList (host ++ ']' :: ':' :: (toString port).toList) = some host.length :=
      find?_closing hclose _
    rw [List.cons_append, List.append_assoc, List.singleton_append, parseAuthority, hfind]
    simp only [Option.map_some, List.take_left, ← List.drop_drop, List.drop_left, List.drop_succ_cons, List.drop_zero,
      hport]
  · next hplain =>
    have hopen : ∀ rest, host ++ ':' :: (toString port).toList ≠ '[' :: rest := by
      intro rest heq
      cases host with
      | nil => exact absurd (List.cons.inj heq).1 (by decide)
      | cons c host => exact absurd (h c List.mem_cons_self) ((List.cons.inj heq).1 ▸ by decide)
    rw [parseAuthority.eq_def]
    split
    · next rest heq => exact absurd heq (hopen rest)
    · rw [Text.cutLast_append hcolon]
      simp only [hport]

/-! ## The credentials -/

theorem standard_spec : ∀ n < 64, (Base64.standardChar (Base64.character n)).toNat < 128 ∧
    Text.isSpace (Base64.standardChar (Base64.character n)) = false := by decide +kernel

theorem encodeStandard_spec {bytes : List UInt8} {c : Char} (h : c ∈ Base64.encodeStandard bytes) :
    c.toNat < 128 ∧ Text.isSpace c = false := by
  obtain ⟨d, hd, rfl⟩ := List.mem_map.mp h
  by_cases hpad : d = '='
  · subst hpad
    decide
  · obtain ⟨n, hn, rfl⟩ := Base64.mem_encodeUrl (List.mem_filter.mpr ⟨hd, by simpa using hpad⟩)
    exact standard_spec n hn

theorem decodeCredentials_encode (text : List Char) :
    decodeCredentials (Base64.encodeStandard (Utf8.encode text)) = some text := by
  have hascii : isAscii (Base64.encodeStandard (Utf8.encode text)) = true :=
    List.all_eq_true.mpr fun c hc => decide_eq_true (encodeStandard_spec hc).1
  rw [decodeCredentials, if_pos hascii, Base64.decodeStandard_encodeStandard, Option.bind_some, Utf8.decode?_encode]

/-- The gateway takes the credentials of a client with its token. -/
theorem validProxyToken_credentials (hsome : expectedToken settings ≠ [])
    (hascii : isAscii (expectedToken settings) = true) :
    validProxyToken settings (some (credentials (expectedToken settings))) = .ok true := by
  have hcut : Text.cut ' ' (credentials (expectedToken settings)) = some ("Basic".toList,
      Base64.encodeStandard (Utf8.encode ("codemate".toList ++ ':' :: expectedToken settings))) :=
    Text.cut_append (by decide) _
  have hdecoded : Text.cut ':' ("codemate".toList ++ ':' :: expectedToken settings) =
      some ("codemate".toList, expectedToken settings) := Text.cut_append (by decide) _
  have hvalue : credentials (expectedToken settings) ≠ [] := List.cons_ne_nil _ _
  rw [validProxyToken]
  simp only [hsome, hvalue, or_self, if_false, hcut, decodeCredentials_encode, Option.bind_some, hdecoded]
  rw [if_neg (by decide), if_pos trivial, compareDigest, hascii]
  simp

theorem strip_credentials (token : List Char) : Text.strip (' ' :: credentials token) = credentials token := by
  have hends : ∃ front last, Base64.encodeStandard (Utf8.encode ("codemate".toList ++ ':' :: token)) =
      front ++ [last] := by
    rcases List.eq_nil_or_concat (Base64.encodeStandard (Utf8.encode ("codemate".toList ++ ':' :: token))) with h | h
    · have hdecode := decodeCredentials_encode ("codemate".toList ++ ':' :: token)
      rw [h] at hdecode
      exact absurd (Option.some.inj hdecode) (by simp)
    · obtain ⟨front, last, h⟩ := h
      exact ⟨front, last, by rw [h, List.concat_eq_append]⟩
  obtain ⟨front, last, hfront⟩ := hends
  have hlast : Text.isSpace last = false :=
    (encodeStandard_spec (hfront ▸ List.mem_append_right front (List.mem_singleton_self last))).2
  have hcredentials : credentials token = ("Basic".toList ++ ' ' :: front) ++ [last] := by
    rw [credentials, hfront]
    simp
  have hfirst : Text.isSpace 'B' = false := by decide
  have hstrip : Text.strip (' ' :: credentials token) = Text.strip (credentials token) := rfl
  rw [hstrip]
  exact Text.strip_of_ends hfirst hlast rfl hcredentials

theorem headerField_authorization (token : List Char) :
    headerField (headerLine ("Proxy-Authorization".toList, credentials token)) =
      some ("proxy-authorization".toList, credentials token) := by
  have hcut : Text.cut ':' (headerLine ("Proxy-Authorization".toList, credentials token)) =
      some ("Proxy-Authorization".toList, ' ' :: credentials token) :=
    Text.cut_append (show ':' ∉ "Proxy-Authorization".toList by decide) _
  rw [headerField, hcut, Option.map_some, strip_credentials]
  rfl

/-- The last field with a name counts. -/
theorem header_last {name value line : List Char} (h : headerField line = some (name, value))
    (lines : List (List Char)) : header name (lines ++ line :: [[], []]) = some value := by
  have hempty : headerField [] = none := rfl
  rw [header, List.filterMap_append, List.filterMap_cons_some h, List.filterMap_cons_none hempty,
    List.filterMap_cons_none hempty, List.filterMap_nil, List.reverse_append, List.reverse_singleton,
    List.singleton_append]
  simp

/-! ## The gateway's answer -/

/-- What else a client sends: characters of one byte each, and no line feed. -/
def isLineChar (c : Char) : Bool := c.toNat < 256 && c ≠ '\n'

theorem authority_chars {host : List Char} (h : ∀ c ∈ host, isHostChar c = true) (port : ℕ) {c : Char}
    (hc : c ∈ authority host port) : isLineChar c = true ∧ c ≠ ' ' := by
  have hhost : c ∈ host → isLineChar c = true ∧ c ≠ ' ' := by
    intro hmem
    have hc := h c hmem
    simp only [isHostChar, isLineChar, Bool.and_eq_true, decide_eq_true_eq, List.mem_cons, List.not_mem_nil,
      or_false, not_or] at hc ⊢
    exact ⟨⟨by omega, hc.2.2.1⟩, hc.2.1⟩
  have hdigit : c ∈ (toString port).toList → isLineChar c = true ∧ c ≠ ' ' := by
    intro hmem
    have hdigit := toString_digit hmem
    simp only [Char.isDigit, Bool.and_eq_true, decide_eq_true_eq, UInt32.le_iff_toNat_le] at hdigit
    have hrange : 48 ≤ c.toNat ∧ c.toNat ≤ 57 := hdigit
    simp only [isLineChar, Bool.and_eq_true, decide_eq_true_eq]
    refine ⟨⟨by omega, ?_⟩, ?_⟩
    · rintro rfl
      exact absurd hrange (by decide)
    · rintro rfl
      exact absurd hrange (by decide)
  rw [authority] at hc
  rcases List.mem_append.mp hc with hc | hc
  · split at hc
    · rcases List.mem_cons.mp hc with rfl | hc
      · decide
      · rcases List.mem_append.mp hc with hc | hc
        · exact hhost hc
        · rw [List.mem_singleton.mp hc]; decide
    · exact hhost hc
  · rcases List.mem_cons.mp hc with rfl | hc
    · decide
    · exact hdigit hc

theorem splitLines_head {host : List Char} {port : ℕ} {version token : List Char}
    {fields : List (List Char × List Char)}
    (h : ∀ line ∈ connectLines host port version fields token, ∀ c ∈ line, isLineChar c = true) :
    Text.splitLines (connectHead host port version fields token) =
      connectLines host port version fields token ++ [[], []] := by
  have hlines : ∀ line ∈ connectLines host port version fields token ++ [[]], '\n' ∉ line := by
    intro line hline hmem
    rcases List.mem_append.mp hline with hline | hline
    · exact absurd (h line hline '\n' hmem) (by decide)
    · rw [List.mem_singleton.mp hline] at hmem
      exact absurd hmem List.not_mem_nil
  have hsplit := Text.splitLines_flatMap hlines []
  rw [List.append_nil] at hsplit
  rw [connectHead, hsplit, List.append_assoc]
  rfl

theorem requestLine_connect {authority version : List Char} (h : ' ' ∉ authority) :
    requestLine ("CONNECT".toList ++ ' ' :: (authority ++ ' ' :: version)) = .ok ("CONNECT".toList, authority) := by
  have hmethod : Text.cut ' ' ("CONNECT".toList ++ ' ' :: (authority ++ ' ' :: version)) =
      some ("CONNECT".toList, authority ++ ' ' :: version) := Text.cut_append (by decide) _
  rw [requestLine, hmethod]
  dsimp only
  rw [Text.cut_append h]

theorem connectLines_chars {host : List Char} (hhost : ∀ c ∈ host, isHostChar c = true) (port : ℕ)
    {version : List Char} (hversion : ∀ c ∈ version, isLineChar c = true) {fields : List (List Char × List Char)}
    (hfields : ∀ field ∈ fields, ∀ c ∈ headerLine field, isLineChar c = true) (token : List Char) :
    ∀ line ∈ connectLines host port version fields token, ∀ c ∈ line, isLineChar c = true := by
  have hcredentials : ∀ c ∈ headerLine ("Proxy-Authorization".toList, credentials token), isLineChar c = true := by
    have hplain : ("Proxy-Authorization: Basic ".toList.all isLineChar) = true := by decide
    have hparts : headerLine ("Proxy-Authorization".toList, credentials token) =
        "Proxy-Authorization: Basic ".toList ++
          Base64.encodeStandard (Utf8.encode ("codemate".toList ++ ':' :: token)) := rfl
    intro c hc
    rw [hparts] at hc
    rcases List.mem_append.mp hc with hc | hc
    · exact List.all_eq_true.mp hplain c hc
    · obtain ⟨hascii, hspace⟩ := encodeStandard_spec hc
      have hfeed : c ≠ '\n' := by
        rintro rfl
        exact absurd hspace (by decide)
      simp only [isLineChar, Bool.and_eq_true, decide_eq_true_eq]
      exact ⟨by omega, hfeed⟩
  intro line hline
  rcases List.mem_cons.mp hline with rfl | hline
  · have hmethod : ("CONNECT ".toList.all isLineChar) = true := by decide
    intro c hc
    rcases List.mem_append.mp hc with hc | hc
    · exact List.all_eq_true.mp hmethod c (List.mem_append_left [' '] hc)
    rcases List.mem_cons.mp hc with rfl | hc
    · decide
    rcases List.mem_append.mp hc with hc | hc
    · exact (authority_chars hhost port hc).1
    rcases List.mem_cons.mp hc with rfl | hc
    · decide
    · exact hversion c hc
  · obtain ⟨field, hfield, rfl⟩ := List.mem_map.mp hline
    rcases List.mem_append.mp hfield with hfield | hfield
    · exact hfields field hfield
    · rw [List.mem_singleton.mp hfield]
      exact hcredentials

theorem connectHead_chars {host version token : List Char} {port : ℕ} {fields : List (List Char × List Char)}
    (h : ∀ line ∈ connectLines host port version fields token, ∀ c ∈ line, isLineChar c = true) :
    ∀ c ∈ connectHead host port version fields token, c.toNat < 256 := by
  intro c hc
  obtain ⟨line, hline, hc⟩ := List.mem_flatMap.mp hc
  rcases List.mem_append.mp hc with hc | hc
  · rcases List.mem_append.mp hline with hline | hline
    · have hchar := h line hline c hc
      rw [isLineChar, Bool.and_eq_true, decide_eq_true_eq] at hchar
      exact hchar.1
    · rw [List.mem_singleton.mp hline] at hc
      exact absurd hc List.not_mem_nil
  · rcases List.mem_cons.mp hc with rfl | hc
    · decide
    · rw [List.mem_singleton.mp hc]
      decide

/-- A head that passes the checks is resolved. -/
theorem admission_eq {head line method authority host : List Char} {lines : List (List Char)} {port : ℤ}
    (hhead : Text.splitLines head = line :: lines) (hline : requestLine line = .ok (method, authority))
    (hmethod : method.map Char.toUpper = "CONNECT".toList)
    (htoken : validProxyToken settings (header "proxy-authorization".toList lines) = .ok true)
    (hauthority : parseAuthority platform authority = .ok (host, port)) :
    admission platform settings head = resolveEgressTarget platform settings host port := by
  unfold admission
  rw [hhead]
  dsimp only
  rw [List.headD_cons, List.tail_cons, hline, htoken]
  refine (if_neg (not_not.mpr hmethod)).trans ?_
  show (if true = true then parseAuthority platform authority >>= fun parts =>
    resolveEgressTarget platform settings parts.1 parts.2 else .error .unauthenticated) = _
  rw [if_pos rfl, hauthority]
  rfl

/-- A client with the settings of the gateway is served: for a URL that it may ask for, the gateway connects to the
target that `validate_egress_url` gives the client. -/
theorem client_served {url : Url} {target : EgressTarget} {version : List Char}
    {fields : List (List Char × List Char)} (hvalid : validateEgressUrl platform settings url = .ok target)
    (hsome : expectedToken settings ≠ []) (hascii : isAscii (expectedToken settings) = true)
    (hhost : ∀ c ∈ url.hostname.getD [], isHostChar c = true) (hversion : ∀ c ∈ version, isLineChar c = true)
    (hfields : ∀ field ∈ fields, ∀ c ∈ headerLine field, isLineChar c = true)
    (hlength : (connectHead (url.hostname.getD []) (urlPort url) version fields (expectedToken settings)).length ≤
      maxHeaderBytes) :
    handleClient platform settings (.head (bytesOf
      (connectHead (url.hostname.getD []) (urlPort url) version fields (expectedToken settings)))) =
      connected platform target := by
  have hlines := connectLines_chars hhost (urlPort url) hversion hfields (expectedToken settings)
  have hresolve : resolveEgressTarget platform settings (url.hostname.getD []) (urlPort url) = .ok target := by
    unfold validateEgressUrl at hvalid
    split at hvalid
    · cases hvalid
    split at hvalid
    · cases hvalid
    · exact hvalid
  have hadmission : admission platform settings (connectHead (url.hostname.getD []) (urlPort url) version fields
      (expectedToken settings)) = .ok target := by
    have hhead := splitLines_head hlines
    rw [connectLines, List.map_append, List.map_singleton, List.cons_append, List.append_assoc,
      List.singleton_append] at hhead
    have hblank : ' ' ∉ authority (url.hostname.getD []) (urlPort url) := fun hmem =>
      (authority_chars hhost _ hmem).2 rfl
    have htoken := validProxyToken_credentials hsome hascii
    rw [← header_last (headerField_authorization (expectedToken settings)) (fields.map headerLine)] at htoken
    rw [admission_eq hhead (requestLine_connect hblank) rfl htoken (parseAuthority_authority hhost _), hresolve]
  have hbytes : ¬ maxHeaderBytes < (bytesOf (connectHead (url.hostname.getD []) (urlPort url) version fields
      (expectedToken settings))).length := by
    rw [bytesOf, List.length_map]
    exact Nat.not_lt.mpr hlength
  rw [handleClient, if_neg hbytes, latin1_bytesOf (connectHead_chars hlines), hadmission]

/-! A host with two addresses of which the first does not answer. -/

def samplePlatform : Platform where
  lower := lowerAscii
  repr text := text
  ipAddress text :=
    if text = "93.184.216.34".toList ∨ text = "93.184.216.35".toList then some (text, true)
    else if text = "10.0.0.5".toList then some (text, false)
    else none
  getaddrinfo host _ :=
    if host = "mcp.example.com".toList then .found ["93.184.216.34".toList, "93.184.216.35".toList]
    else if host = "intranet.example.com".toList then .found ["93.184.216.34".toList, "10.0.0.5".toList]
    else .osError "Name or service not known".toList
  connect address _ := if address = "93.184.216.34".toList then some "Connection refused".toList else none

def sampleSettings : Settings where
  registryAllowedHosts := ["mcp.example.com".toList, " Intranet.example.com".toList]
  portAllowlist := [443]
  proxyToken := some "0123456789abcdef0123456789abcdef".toList

def sampleUrl : Url := ⟨"https".toList, some "mcp.example.com".toList, none, none, [], none⟩

def sampleTarget : EgressTarget :=
  ⟨"mcp.example.com".toList, 443, ["93.184.216.34".toList, "93.184.216.35".toList]⟩

theorem sampleUrl_served :
    handleClient samplePlatform sampleSettings (.head (bytesOf (connectHead (sampleUrl.hostname.getD [])
      (urlPort sampleUrl) "HTTP/1.1".toList [("Host".toList, "mcp.example.com:443".toList)]
      (expectedToken sampleSettings)))) = connected samplePlatform sampleTarget ∧
    (connected samplePlatform sampleTarget).opened = some ("93.184.216.35".toList, 443) := by
  have hvalid : validateEgressUrl samplePlatform sampleSettings sampleUrl = .ok sampleTarget := rfl
  have hhost : ∀ c ∈ sampleUrl.hostname.getD [], isHostChar c = true := List.all_eq_true.mp rfl
  have hversion : ∀ c ∈ "HTTP/1.1".toList, isLineChar c = true := List.all_eq_true.mp rfl
  have hfields : ∀ field ∈ [("Host".toList, "mcp.example.com:443".toList)], ∀ c ∈ headerLine field,
      isLineChar c = true := List.forall_mem_singleton.mpr (List.all_eq_true.mp rfl)
  have hsome : expectedToken sampleSettings ≠ [] := List.cons_ne_nil _ _
  exact ⟨client_served hvalid hsome rfl hhost hversion hfields (by decide +kernel), rfl⟩

/-- One address of the host is a private one. -/
example : resolveEgressTarget samplePlatform sampleSettings "intranet.example.com".toList 443 =
    .error (denied "MCP egress resolved a non-global address for intranet.example.com") := by decide

end CodeMate.Mcp.Egress
