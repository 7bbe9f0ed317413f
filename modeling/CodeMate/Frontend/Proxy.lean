import CodeMate.Api.Identity
import CodeMate.Framework.Percent
import CodeMate.Frontend.AdminSession
import Mathlib.Data.List.TakeWhile

/-!
# The signing proxy

The proxy signs the method and the path with the query of the request that it
sends on, and the backend makes the signed lines again from what arrives. The
proxy's path is the percent-encoded one, that of the backend is decoded, and
the URL between them drops dot segments. `proxy_agrees_iff` says for which
paths the two are one, and the request is verified.
-/

namespace CodeMate.Frontend

open Framework

/-! ## Texts and URLs -/

/-- What `encodeURIComponent` leaves as it is. -/
def uriUnreserved (c : Char) : Bool :=
  c ∈ "ABCDEFGHIJKLMNOPQRSTUVWXYZabcdefghijklmnopqrstuvwxyz0123456789-_.!~*'()".toList

def encodeURIComponent (text : List Char) : List Char := Percent.encode uriUnreserved text

/-- The white space of `trim`. -/
def isTrimmed (c : Char) : Bool :=
  c.toNat ∈ [0x9, 0xa, 0xb, 0xc, 0xd, 0x20, 0xa0, 0x1680, 0x2000, 0x2001, 0x2002, 0x2003, 0x2004, 0x2005, 0x2006,
    0x2007, 0x2008, 0x2009, 0x200a, 0x2028, 0x2029, 0x202f, 0x205f, 0x3000, 0xfeff]

def trim (text : String) : String :=
  String.ofList ((text.toList.dropWhile isTrimmed).reverse.dropWhile isTrimmed).reverse

/-- Tabs and line ends, which a URL loses. -/
def isRemoved (c : Char) : Bool := c ∈ ['\t', '\n', '\r']

def visible (c : Char) : Bool := 0x21 ≤ c.toNat && c.toNat ≤ 0x7e

/-- What is not percent-encoded in a path. -/
def pathSafe (c : Char) : Bool := visible c && c ∉ ['"', '#', '<', '>', '?', '^', '`', '{', '}']

/-- What is not percent-encoded in the query of an HTTP URL. -/
def querySafe (c : Char) : Bool := visible c && c ∉ ['"', '#', '<', '>'] && c.toNat ≠ 0x27

def singleDots : List (List Char) := [".".toList, "%2e".toList, "%2E".toList]

def doubleDots : List (List Char) :=
  ["..".toList, ".%2e".toList, ".%2E".toList, "%2e.".toList, "%2E.".toList, "%2e%2e".toList, "%2e%2E".toList,
    "%2E%2e".toList, "%2E%2E".toList]

local instance decidableMemDots (part : List Char) (dots : List (List Char)) : Decidable (part ∈ dots) :=
  decidable_of_iff (∃ other ∈ dots, other = part) (by simp)

/-- The segments of a path from the parts of its text; `out` are the segments so far. -/
def pathSegments (out : List (List Char)) : List (List Char) → List (List Char)
  | [] => out
  | part :: parts =>
    if part ∈ doubleDots then pathSegments (if parts = [] then out.dropLast ++ [[]] else out.dropLast) parts
    else if part ∈ singleDots then pathSegments (if parts = [] then out ++ [[]] else out) parts
    else pathSegments (out ++ [Percent.encode pathSafe part]) parts

/-- The `pathname` of an HTTP URL with the text after its host. -/
def pathname (text : List Char) : List Char :=
  let path := (text.filter fun c => !isRemoved c).takeWhile fun c => c ≠ '?' && c ≠ '#'
  let parts := ((path.map fun c => if c = '\\' then '/' else c).drop 1).splitOn '/'
  (pathSegments [] parts).flatMap ('/' :: ·)

/-- The query of a URL from its text, up to the fragment. -/
def parseQuery (text : List Char) : List Char :=
  Percent.encode querySafe ((text.filter fun c => !isRemoved c).takeWhile (· ≠ '#'))

/-- `search` of a URL with the query. -/
def search (query : List Char) : List Char := if query = [] then [] else '?' :: query

/-- The query of a URL to whose `search` the text is assigned. -/
def setSearch : List Char → List Char
  | '?' :: text => Percent.encode querySafe (text.filter fun c => !isRemoved c)
  | text => Percent.encode querySafe (text.filter fun c => !isRemoved c)

/-- The method that `fetch` sends. -/
def fetchMethod (method : String) : String :=
  if method.toUpper ∈ ["DELETE", "GET", "HEAD", "OPTIONS", "POST", "PUT"] then method.toUpper else method

/-! ## The proxy -/

/-- The login of a session: that of a GitHub account, or one of the fixed ones. -/
structure Login where
  text : String
  ne_nil : text.toList ≠ []
  length_le : text.length ≤ 128
  all_visible : ∀ c ∈ text.toList, visible c = true

/-- A request with the session under which it is sent on, the point in time and the bytes of the nonce. -/
structure Call where
  method : String
  path : List (List Char)
  query : List Char
  role : AdminRole
  login : Login
  provider : Provider
  timestamp : Nat
  random : List UInt8
  random_length : random.length = 24

variable (call : Call)

def backendPath (path : List (List Char)) : List Char := '/' :: List.intercalate ['/'] (path.map encodeURIComponent)

def Call.nonce : String := String.ofList (Base64.encodeUrl call.random)

/-- `request.nextUrl.search`. -/
def Call.search : List Char := Frontend.search (parseQuery call.query)

def Call.pathWithQuery : String := String.ofList (backendPath call.path ++ call.search)

/-- The lines that are signed, with those of the role. -/
def Call.lines (role : List String) : String :=
  "\n".intercalate
    (["v1", trim (toString call.timestamp), trim call.nonce, call.method.toUpper, call.pathWithQuery] ++
    role ++ [trim call.login.text, trim call.provider.text])

/-- What `signEvaluationIdentity` signs. -/
def Call.evaluationPayload : String := call.lines [(trim call.role.text).toLower]

/-- What `signProductIdentity` signs. -/
def Call.productPayload : String := call.lines []

def Call.payload : Api.Scheme → String
  | .product => call.productPayload
  | .evaluation => call.evaluationPayload

/-- The headers of the identity; the product API is sent no role. -/
def Call.headers (sign : String → String → String) (secret : String) (scheme : Api.Scheme) : Api.IdentityHeaders where
  role := match scheme with
    | .product => none
    | .evaluation => some call.role.text
  user := some call.login.text
  provider := some call.provider.text
  timestamp := some (toString call.timestamp)
  nonce := some call.nonce
  signature := some (sign (call.payload scheme) secret)

/-! ## The backend -/

/-- The request as it arrives: the path of the URL decoded, its query as it is. -/
def Call.received (replace : List UInt8 → List Char) : Api.HttpRequest :=
  ⟨fetchMethod call.method, String.ofList (Percent.decode replace (pathname (backendPath call.path))),
    String.ofList (setSearch call.search)⟩

def AdminRole.evaluation : AdminRole → Api.EvaluationRole
  | .admin => .admin
  | .viewer => .viewer

/-- The identity that the headers assert. -/
def Call.identity (scheme : Api.Scheme) : Api.SignedIdentity where
  scheme := scheme
  role := match scheme with
    | .product => none
    | .evaluation => some call.role.evaluation
  login := call.login.text
  provider := call.provider.text
  timestamp := call.timestamp
  nonce := call.nonce

/-- No segment is a dot segment, and nothing in one is percent-encoded. -/
def PlainPath (path : List (List Char)) : Prop :=
  ∀ segment ∈ path, segment ≠ ['.'] ∧ segment ≠ ['.', '.'] ∧ ∀ c ∈ segment, uriUnreserved c = true

/-! ## Encoded paths -/

theorem uriUnreserved_marks : uriUnreserved '.' = true ∧ uriUnreserved '%' = false ∧ uriUnreserved ' ' = false := by
  unfold uriUnreserved
  erw [String.toList_ofList]
  decide

theorem mem_encodeURIComponent {text : List Char} {c : Char} (h : c ∈ encodeURIComponent text) :
    pathSafe c = true ∧ c ≠ '\\' ∧ c ≠ '/' := by
  have hall : "ABCDEFGHIJKLMNOPQRSTUVWXYZabcdefghijklmnopqrstuvwxyz0123456789-_.!~*'()".toList.all
      (fun c => pathSafe c = true ∧ c ≠ '\\' ∧ c ≠ '/') = true := by
    erw [String.toList_ofList]
    decide +kernel
  have hdigit : ∀ n < 16,
      pathSafe (Percent.hexDigit n) = true ∧ Percent.hexDigit n ≠ '\\' ∧ Percent.hexDigit n ≠ '/' := by
    decide
  rcases Percent.mem_encode h with ⟨-, hc⟩ | rfl | ⟨n, hn, rfl⟩
  · exact of_decide_eq_true (List.all_eq_true.mp hall c (of_decide_eq_true hc))
  · decide
  · exact hdigit n hn

theorem encode_encodeURIComponent (text : List Char) :
    Percent.encode pathSafe (encodeURIComponent text) = encodeURIComponent text :=
  Percent.encode_self fun _ hc => (mem_encodeURIComponent hc).1

/-- A path as text. -/
def joined (segments : List (List Char)) : List Char := segments.flatMap ('/' :: ·)

@[simp] theorem joined_cons (segment : List Char) (segments : List (List Char)) :
    joined (segment :: segments) = '/' :: (segment ++ joined segments) := rfl

@[simp] theorem joined_append (front back : List (List Char)) :
    joined (front ++ back) = joined front ++ joined back :=
  List.flatMap_append

theorem backendPath_eq {path : List (List Char)} (h : path ≠ []) :
    backendPath path = joined (path.map encodeURIComponent) := by
  rw [backendPath]
  induction path with
  | nil => exact absurd rfl h
  | cons segment path ih =>
    cases path with
    | nil => simp [joined, List.intercalate]
    | cons next path =>
      have ih := ih (List.cons_ne_nil _ _)
      rw [List.map_cons] at ih
      rw [List.map_cons, List.map_cons, List.intercalate_cons_cons, joined_cons, ← ih, List.append_assoc]
      rfl

theorem pathname_backendPath {path : List (List Char)} (h : path ≠ []) :
    pathname (backendPath path) = joined (pathSegments [] (path.map encodeURIComponent)) := by
  have hchars : ∀ c ∈ backendPath path, isRemoved c = false ∧ c ≠ '?' ∧ c ≠ '#' ∧ c ≠ '\\' := by
    intro c hc
    rw [backendPath_eq h] at hc
    obtain ⟨part, hpart, hc⟩ := List.mem_flatMap.mp hc
    obtain ⟨segment, -, rfl⟩ := List.mem_map.mp hpart
    rcases List.mem_cons.mp hc with rfl | hc
    · decide
    · obtain ⟨hsafe, hback, -⟩ := mem_encodeURIComponent hc
      have hescaped : ['\t', '\n', '\r', '?', '#'].any pathSafe = false := by decide
      have hne (d : Char) (hd : d ∈ ['\t', '\n', '\r', '?', '#']) : c ≠ d := by
        rintro rfl
        exact List.any_eq_false.mp hescaped c hd hsafe
      exact ⟨by simp [isRemoved, hne], hne _ (by simp), hne _ (by simp), hback⟩
  have hfilter : (backendPath path).filter (fun c => !isRemoved c) = backendPath path :=
    List.filter_eq_self.mpr fun c hc => by rw [(hchars c hc).1]; rfl
  have htake : (backendPath path).takeWhile (fun c => c ≠ '?' && c ≠ '#') = backendPath path :=
    List.takeWhile_eq_self_iff.mpr fun c hc => by simp [(hchars c hc).2.1, (hchars c hc).2.2.1]
  have hmap : (backendPath path).map (fun c => if c = '\\' then '/' else c) = backendPath path :=
    (List.map_congr_left fun c hc => if_neg (hchars c hc).2.2.2).trans (List.map_id _)
  have hslash : ∀ part ∈ path.map encodeURIComponent, '/' ∉ part := by
    intro part hpart hmem
    obtain ⟨segment, -, rfl⟩ := List.mem_map.mp hpart
    exact (mem_encodeURIComponent hmem).2.2 rfl
  rw [pathname, hfilter, htake, hmap]
  show joined (pathSegments [] ((List.intercalate ['/'] (path.map encodeURIComponent)).splitOn '/')) = _
  rw [List.splitOn_intercalate '/' hslash (by simpa using h)]

/-- Dot segments are dropped with what they go back over, and a path gets shorter by it. -/
theorem pathSegments_encoded (out path : List (List Char)) :
    ∃ kept, pathSegments (out.map encodeURIComponent) (path.map encodeURIComponent) = kept.map encodeURIComponent ∧
      (joined kept).length ≤ (joined out).length + (joined path).length ∧
      ((∃ segment ∈ path, encodeURIComponent segment ∈ doubleDots ∨ encodeURIComponent segment ∈ singleDots) →
        (joined kept).length < (joined out).length + (joined path).length) := by
  induction path generalizing out with
  | nil => exact ⟨out, rfl, Nat.le_refl _, fun ⟨_, h, _⟩ => absurd h List.not_mem_nil⟩
  | cons segment path ih =>
    have hmap : path.map encodeURIComponent = [] ↔ path = [] := List.map_eq_nil_iff
    have hdrop : (joined out.dropLast).length ≤ (joined out).length := by
      rcases out.eq_nil_or_concat' with rfl | ⟨front, last, rfl⟩
      · exact Nat.le_refl _
      · rw [List.dropLast_concat, joined_append, List.length_append]
        omega
    -- a dot segment is not empty, and an empty one at most takes its place
    have hshort (hsegment : segment ≠ []) (next : List (List Char))
        (hnext : (joined next).length ≤ (joined out).length + 1)
        (hsegments : pathSegments (out.map encodeURIComponent) ((segment :: path).map encodeURIComponent) =
          pathSegments (next.map encodeURIComponent) (path.map encodeURIComponent)) :
        ∃ kept, pathSegments (out.map encodeURIComponent) ((segment :: path).map encodeURIComponent) =
            kept.map encodeURIComponent ∧
          (joined kept).length < (joined out).length + (joined (segment :: path)).length := by
      obtain ⟨kept, hkept, hle, -⟩ := ih next
      refine ⟨kept, hsegments.trans hkept, ?_⟩
      have := List.length_pos_iff.mpr hsegment
      rw [joined_cons, List.length_cons, List.length_append]
      omega
    by_cases hdouble : encodeURIComponent segment ∈ doubleDots
    · obtain ⟨kept, hkept, hlt⟩ := hshort (by rintro rfl; exact absurd hdouble (by decide))
        (if path = [] then out.dropLast ++ [[]] else out.dropLast)
        (by
          split
          · rw [joined_append, List.length_append]
            exact Nat.add_le_add_right hdrop 1
          · exact hdrop.trans (Nat.le_succ _))
        (by
          rw [List.map_cons, pathSegments, if_pos hdouble]
          by_cases hlast : path = []
          · rw [if_pos (hmap.mpr hlast), if_pos hlast, List.map_append, List.map_dropLast]
            rfl
          · rw [if_neg (mt hmap.mp hlast), if_neg hlast, List.map_dropLast])
      exact ⟨kept, hkept, hlt.le, fun _ => hlt⟩
    by_cases hsingle : encodeURIComponent segment ∈ singleDots
    · obtain ⟨kept, hkept, hlt⟩ := hshort (by rintro rfl; exact absurd hsingle (by decide))
        (if path = [] then out ++ [[]] else out)
        (by
          split
          · rw [joined_append, List.length_append]
            exact Nat.le_refl _
          · exact Nat.le_succ _)
        (by
          rw [List.map_cons, pathSegments, if_neg hdouble, if_pos hsingle]
          by_cases hlast : path = []
          · rw [if_pos (hmap.mpr hlast), if_pos hlast, List.map_append]
            rfl
          · rw [if_neg (mt hmap.mp hlast), if_neg hlast])
      exact ⟨kept, hkept, hlt.le, fun _ => hlt⟩
    · obtain ⟨kept, hkept, hle, hlt⟩ := ih (out ++ [segment])
      have hlength : (joined (out ++ [segment])).length + (joined path).length =
          (joined out).length + (joined (segment :: path)).length := by
        rw [← List.length_append, ← List.length_append, ← joined_append, ← joined_append, List.append_assoc]
        rfl
      rw [hlength] at hle hlt
      refine ⟨kept, ?_, hle, ?_⟩
      · rw [List.map_cons, pathSegments, if_neg hdouble, if_neg hsingle, encode_encodeURIComponent, ← hkept,
          List.map_append]
        rfl
      · rintro ⟨dots, hmem, hdots⟩
        rcases List.mem_cons.mp hmem with rfl | hmem
        · exact absurd hdots (not_or.mpr ⟨hdouble, hsingle⟩)
        · exact hlt ⟨dots, hmem, hdots⟩

theorem pathSegments_plain {out path : List (List Char)}
    (h : ∀ segment ∈ path, encodeURIComponent segment ∉ doubleDots ∧ encodeURIComponent segment ∉ singleDots) :
    pathSegments (out.map encodeURIComponent) (path.map encodeURIComponent) =
      (out ++ path).map encodeURIComponent := by
  induction path generalizing out with
  | nil => rw [List.append_nil]; rfl
  | cons segment path ih =>
    obtain ⟨hsegment, hpath⟩ := List.forall_mem_cons.mp h
    have ih := @ih (out ++ [segment]) hpath
    rw [List.map_append, List.append_assoc] at ih
    rw [List.map_cons, pathSegments, if_neg hsegment.1, if_neg hsegment.2, encode_encodeURIComponent]
    exact ih

theorem decode_joined (replace : List UInt8 → List Char) (path : List (List Char)) :
    Percent.decode replace (joined (path.map encodeURIComponent)) = joined path := by
  refine Percent.decode_of_bytes replace ?_
  induction path with
  | nil => rfl
  | cons segment path ih =>
    rw [List.map_cons, joined_cons, Percent.decodeBytes_cons (by decide), encodeURIComponent,
      Percent.decodeBytes_encode uriUnreserved_marks.2.1, ih]
    simp [Utf8.encode]

theorem length_joined (path : List (List Char)) :
    (joined path).length ≤ (joined (path.map encodeURIComponent)).length ∧
      ((joined (path.map encodeURIComponent)).length ≤ (joined path).length →
        ∀ segment ∈ path, ∀ c ∈ segment, uriUnreserved c = true) := by
  induction path with
  | nil => exact ⟨Nat.le_refl 0, fun _ => nofun⟩
  | cons segment path ih =>
    have hsegment := @Percent.length_le_encode uriUnreserved segment
    simp only [List.map_cons, joined_cons, List.length_cons, List.length_append]
    refine ⟨?_, fun h => List.forall_mem_cons.mpr ⟨Percent.encode_length ?_, ih.2 ?_⟩⟩
    all_goals
      have := ih.1
      unfold encodeURIComponent at *
      omega

/-- The path that arrives is the one that was signed exactly if it is plain. -/
theorem received_path_iff (replace : List UInt8 → List Char) (path : List (List Char)) :
    Percent.decode replace (pathname (backendPath path)) = backendPath path ↔ PlainPath path := by
  -- no segments make the same path as an empty one
  have hone (hne : path ≠ []) :
      Percent.decode replace (pathname (backendPath path)) = backendPath path ↔ PlainPath path := by
    rw [pathname_backendPath hne, backendPath_eq hne]
    obtain ⟨kept, hkept, hle, hlt⟩ := pathSegments_encoded [] path
    rw [List.map_nil] at hkept
    obtain ⟨hencoded, hplain⟩ := length_joined path
    constructor
    · intro h
      rw [hkept, decode_joined] at h
      have hlength := congrArg List.length h
      have hempty : (joined []).length = 0 := rfl
      intro segment hsegment
      have hdots : ¬ (encodeURIComponent segment ∈ doubleDots ∨ encodeURIComponent segment ∈ singleDots) := by
        intro hdots
        have := hlt ⟨segment, hsegment, hdots⟩
        omega
      refine ⟨?_, ?_, hplain (by omega) segment hsegment⟩
      · rintro rfl
        refine hdots (.inr ?_)
        rw [encodeURIComponent, Percent.encode_self (by simpa using uriUnreserved_marks.1)]
        decide
      · rintro rfl
        refine hdots (.inl ?_)
        rw [encodeURIComponent, Percent.encode_self (by simpa using uriUnreserved_marks.1)]
        decide
    · intro h
      have hself : path.map encodeURIComponent = path :=
        (List.map_congr_left fun segment hsegment => Percent.encode_self (h segment hsegment).2.2).trans
          (List.map_id _)
      have hsegments := @pathSegments_plain [] path fun segment hsegment => ?_
      · rw [List.map_nil] at hsegments
        rw [hsegments, List.nil_append, decode_joined, hself]
      · obtain ⟨hdot, hdouble, hunreserved⟩ := h segment hsegment
        have hpercent : '%' ∉ segment := fun hmem =>
          absurd ((hunreserved _ hmem).symm.trans uriUnreserved_marks.2.1) (by decide)
        have hdoubles : ∀ dots ∈ doubleDots, dots = ['.', '.'] ∨ '%' ∈ dots := by simp [doubleDots]
        have hsingles : ∀ dots ∈ singleDots, dots = ['.'] ∨ '%' ∈ dots := by simp [singleDots]
        rw [encodeURIComponent, Percent.encode_self hunreserved]
        exact ⟨fun hmem => (hdoubles _ hmem).elim hdouble hpercent, fun hmem => (hsingles _ hmem).elim hdot hpercent⟩
  rcases eq_or_ne path [] with rfl | hne
  · have hroot : pathname (backendPath []) = joined ([[]].map encodeURIComponent) := by decide
    exact iff_of_true (hroot ▸ decode_joined replace [[]]) nofun
  · exact hone hne

/-! ## Queries and methods -/

theorem querySafe_of_mem {text : List Char} {c : Char} (h : c ∈ Percent.encode querySafe text) :
    querySafe c = true := by
  have hdigit : ∀ n < 16, querySafe (Percent.hexDigit n) = true := by decide
  rcases Percent.mem_encode h with ⟨-, hc⟩ | rfl | ⟨n, hn, rfl⟩
  · exact hc
  · decide
  · exact hdigit n hn

theorem setSearch_search (text : List Char) : setSearch (search (parseQuery text)) = parseQuery text := by
  have hself : Percent.encode querySafe ((parseQuery text).filter fun c => !isRemoved c) = parseQuery text := by
    have hremoved : ['\t', '\n', '\r'].any querySafe = false := by decide
    have hfilter : (parseQuery text).filter (fun c => !isRemoved c) = parseQuery text := by
      refine List.filter_eq_self.mpr fun c hc => ?_
      rw [Bool.not_eq_true', isRemoved, decide_eq_false_iff_not]
      exact fun hmem => List.any_eq_false.mp hremoved c hmem (querySafe_of_mem hc)
    rw [hfilter]
    exact Percent.encode_self fun _ hc => querySafe_of_mem hc
  rw [search]
  split
  · next hempty =>
    rw [hempty]
    rfl
  · exact hself

theorem fetchMethod_toUpper (method : String) : (fetchMethod method).toUpper = method.toUpper := by
  have hupper : ∀ name ∈ ["DELETE", "GET", "HEAD", "OPTIONS", "POST", "PUT"], name.toUpper = name := by decide +kernel
  unfold fetchMethod
  split
  · next h => exact hupper _ h
  · rfl

/-! ## Headers -/

theorem dropWhile_ends {p : Char → Bool} {text : List Char} (h : ∀ c ∈ text, p c = false) :
    ((text.dropWhile p).reverse.dropWhile p).reverse = text := by
  have hself (cs : List Char) (hcs : ∀ c ∈ cs, p c = false) : cs.dropWhile p = cs := by
    cases cs with
    | nil => rfl
    | cons c cs => rw [List.dropWhile_cons, hcs c List.mem_cons_self]; rfl
  rw [hself text h, hself _ fun c hc => h c (List.mem_reverse.mp hc), List.reverse_reverse]

/-- What is visible is no white space, for either side. -/
theorem not_space_of_visible {c : Char} (h : visible c = true) : Api.isSpace c = false ∧ isTrimmed c = false := by
  simp only [visible, Bool.and_eq_true, decide_eq_true_eq] at h
  obtain ⟨hlow, hhigh⟩ := h
  constructor
  all_goals
    simp only [Api.isSpace, isTrimmed, decide_eq_false_iff_not, List.mem_cons, List.not_mem_nil, or_false]
    omega

theorem strip_visible {text : String} (h : ∀ c ∈ text.toList, visible c = true) : Api.strip text = text := by
  rw [Api.strip, dropWhile_ends fun c hc => (not_space_of_visible (h c hc)).1, String.ofList_toList]

theorem trim_visible {text : String} (h : ∀ c ∈ text.toList, visible c = true) : trim text = text := by
  rw [trim, dropWhile_ends fun c hc => (not_space_of_visible (h c hc)).2, String.ofList_toList]

theorem toString_visible (n : Nat) : ∀ c ∈ (toString n).toList, visible c = true := by
  intro c hc
  have hdigits : c ∈ Nat.toDigits 10 n := Nat.toList_repr ▸ hc
  have hdigit := Nat.isDigit_of_mem_toDigits (by decide) (by decide) hdigits
  have hrange : 48 ≤ c.toNat ∧ c.toNat ≤ 57 := by
    simp only [Char.isDigit, Bool.and_eq_true, decide_eq_true_eq, UInt32.le_iff_toNat_le] at hdigit
    exact hdigit
  simp only [visible, Bool.and_eq_true, decide_eq_true_eq]
  omega

theorem nonce_chars : ∀ c ∈ call.nonce.toList,
    visible c = true ∧ (Api.isAlnum c || c ∈ ['-', '_', '.']) = true := by
  have hall : ∀ n < 64, visible (Base64.character n) = true ∧
      (Api.isAlnum (Base64.character n) || Base64.character n ∈ ['-', '_', '.']) = true := by
    unfold Base64.character Base64.alphabet
    erw [String.toList_ofList]
    decide
  intro c hc
  rw [Call.nonce, String.toList_ofList] at hc
  obtain ⟨n, hn, heq⟩ := Base64.mem_encodeUrl hc
  rw [heq]
  exact hall n hn

theorem nonce_visible : ∀ c ∈ call.nonce.toList, visible c = true := fun c hc => (nonce_chars call c hc).1

theorem provider_visible (provider : Provider) : ∀ c ∈ provider.text.toList, visible c = true := by
  exact List.all_eq_true.mp (by cases provider <;> decide)

/-! ## The signed lines -/

def roleLines (role : AdminRole) : Api.Scheme → List String
  | .product => []
  | .evaluation => [role.text]

/-- The lines with a path and query. -/
def Call.signedLines (scheme : Api.Scheme) (pathWithQuery : String) : String :=
  "\n".intercalate (["v1", toString call.timestamp, call.nonce, call.method.toUpper] ++
    pathWithQuery :: (roleLines call.role scheme ++ [call.login.text, call.provider.text]))

theorem payload_eq (scheme : Api.Scheme) : call.payload scheme = call.signedLines scheme call.pathWithQuery := by
  have hlines (role : List String) : call.lines role = "\n".intercalate (["v1", toString call.timestamp, call.nonce,
      call.method.toUpper] ++ call.pathWithQuery :: (role ++ [call.login.text, call.provider.text])) := by
    rw [Call.lines, trim_visible (toString_visible _), trim_visible (nonce_visible call),
      trim_visible call.login.all_visible,
      trim_visible (provider_visible _), List.append_assoc]
    rfl
  have hrole : (trim call.role.text).toLower = call.role.text := by
    cases call.role <;> decide +kernel
  cases scheme with
  | product => exact hlines []
  | evaluation =>
    show call.lines [(trim call.role.text).toLower] = _
    rw [hrole]
    exact hlines [call.role.text]

theorem signaturePayload_eq (replace : List UInt8 → List Char) (scheme : Api.Scheme) :
    Api.signaturePayload (call.received replace) (call.identity scheme) =
      call.signedLines scheme (Api.pathWithQuery (call.received replace)) := by
  have hrole : call.role.evaluation.text = call.role.text := by cases call.role <;> rfl
  rw [Api.signaturePayload, Call.signedLines, show (call.received replace).method = fetchMethod call.method from rfl,
    fetchMethod_toUpper, List.append_assoc]
  cases scheme with
  | product => rfl
  | evaluation =>
    show "\n".intercalate (_ ++ ([call.role.evaluation.text] ++ _)) = _
    rw [hrole]
    rfl

theorem signedLines_inj {scheme : Api.Scheme} {one other : String} :
    call.signedLines scheme one = call.signedLines scheme other ↔ one = other := by
  refine ⟨fun h => ?_, congrArg _⟩
  have hback : roleLines call.role scheme ++ [call.login.text, call.provider.text] ≠ [] := by simp
  rw [Call.signedLines, Call.signedLines,
    String.intercalate_append_of_ne_nil (List.cons_ne_nil _ _) (List.cons_ne_nil _ _),
    String.intercalate_append_of_ne_nil (List.cons_ne_nil _ _) (List.cons_ne_nil _ _),
    String.intercalate_cons_of_ne_nil hback, String.intercalate_cons_of_ne_nil hback, String.append_right_inj,
    String.append_left_inj, String.append_left_inj] at h
  exact h

theorem backend_pathWithQuery (replace : List UInt8 → List Char) : Api.pathWithQuery (call.received replace) =
    String.ofList (Percent.decode replace (pathname (backendPath call.path)) ++ call.search) := by
  rw [Api.pathWithQuery, Call.received, Call.search, setSearch_search, Frontend.search, ← String.toList_inj]
  by_cases h : parseQuery call.query = []
  · rw [h, if_pos rfl, if_pos rfl, List.append_nil]
  · rw [if_neg h, if_neg (by simpa [← String.toList_inj] using h)]
    simp

/-- The lines that the backend makes are those that were signed exactly if the path is plain. -/
theorem payload_iff (replace : List UInt8 → List Char) (scheme : Api.Scheme) :
    Api.signaturePayload (call.received replace) (call.identity scheme) = call.payload scheme ↔
      PlainPath call.path := by
  rw [signaturePayload_eq, payload_eq, signedLines_inj, backend_pathWithQuery, Call.pathWithQuery,
    ← received_path_iff replace, ← String.toList_inj, String.toList_ofList, String.toList_ofList,
    List.append_left_inj]

/-! ## Verification -/

theorem headerIdentityValue_visible {text : String} (hne : text.toList ≠ []) (hlength : text.length ≤ 128)
    (h : ∀ c ∈ text.toList, visible c = true) : Api.headerIdentityValue (some text) "" = .ok text := by
  have hbreak : text.toList.any (· ∈ ['\r', '\n']) = false := by
    rw [List.any_eq_false]
    intro c hc hmem
    have hnone : ['\r', '\n'].any visible = false := by decide
    exact List.any_eq_false.mp hnone c (of_decide_eq_true hmem) (h c hc)
  have hempty : text ≠ "" := by
    rintro rfl
    exact hne rfl
  rw [Api.headerIdentityValue, Option.getD_some, strip_visible h, if_neg hempty,
    if_neg (not_or.mpr ⟨by omega, by rw [hbreak]; exact Bool.false_ne_true⟩)]

theorem length_nonce : call.nonce.length = 32 := by
  have hdvd : 3 ∣ call.random.length := by rw [call.random_length]; decide
  rw [Call.nonce, String.length_ofList, Base64.length_encodeUrl hdvd, call.random_length]

theorem parseIdentityNonce_nonce : Api.parseIdentityNonce call.nonce = .ok call.nonce := by
  have hchars : call.nonce.toList.all (fun c => Api.isAlnum c || c ∈ ['-', '_', '.']) = true :=
    List.all_eq_true.mpr fun c hc => (nonce_chars call c hc).2
  rw [Api.parseIdentityNonce, strip_visible (nonce_visible call), length_nonce, if_neg (by decide),
    if_neg (not_not.mpr hchars)]

theorem digit_of_isDigit {c : Char} (h : c.isDigit = true) : Api.digit c = some (c.toNat - '0'.toNat) := if_pos h

theorem digitsFrom_eq {cs : List Char} (h : ∀ c ∈ cs, c.isDigit = true) (value : Nat) :
    Api.digitsFrom value cs = some (Nat.ofDigitChars 10 cs value) := by
  induction cs generalizing value with
  | nil => rfl
  | cons c cs ih =>
    obtain ⟨hc, hcs⟩ := List.forall_mem_cons.mp h
    rw [Api.digitsFrom, digit_of_isDigit hc, Option.bind_some, ih hcs, Nat.ofDigitChars_cons]
    rintro d ds rfl
    exact absurd hc (by decide)

theorem toInt_toString (n : Nat) : Api.toInt (toString n) = some (n : Int) := by
  have hlist : (toString n).toList = Nat.toDigits 10 n := Nat.toList_repr
  have hdigits : ∀ c ∈ Nat.toDigits 10 n, c.isDigit = true := fun c hc =>
    Nat.isDigit_of_mem_toDigits (by decide) (by decide) hc
  have hvalue := @Nat.ofDigitChars_ten_toDigits n
  rw [Api.toInt, strip_visible (toString_visible n), hlist]
  match hcases : Nat.toDigits 10 n with
  | [] => exact absurd hcases Nat.toDigits_ne_nil
  | c :: cs =>
    rw [hcases] at hdigits hvalue
    obtain ⟨hc, hcs⟩ := List.forall_mem_cons.mp hdigits
    have hread : Api.digits (c :: cs) = some n := by
      rw [Api.digits, digit_of_isDigit hc, Option.bind_some, digitsFrom_eq hcs, ← hvalue, Nat.ofDigitChars_cons,
        Nat.mul_zero, Nat.zero_add]
    split
    · next heq => exact absurd ((List.cons.inj heq).1 ▸ hc) (by decide)
    · next heq => exact absurd ((List.cons.inj heq).1 ▸ hc) (by decide)
    · rw [hread]
      rfl

theorem parseIdentityTimestamp_toString (n : Nat) : Api.parseIdentityTimestamp (toString n) = .ok (n : Int) := by
  rw [Api.parseIdentityTimestamp, toInt_toString]

variable {call} {settings : Api.IdentitySettings} {request : Api.HttpRequest} {expectedToken secret : String}
    {now : Int}

/-- The signature of the lines that the backend makes is taken. -/
theorem checkIdentity_signed {identity : Api.SignedIdentity} {rejected : Api.HttpException}
    (hsecret : secret ∈ settings.verificationSecrets expectedToken identity.scheme)
    (hsignature : ∀ c ∈ (settings.sign (Api.signaturePayload request identity) secret).toList, visible c = true)
    (hwindow : Api.InWindow identity.timestamp now (settings.ttlSeconds identity.scheme)) :
    Api.checkIdentity settings request expectedToken (settings.sign (Api.signaturePayload request identity) secret)
      identity now rejected = .ok identity := by
  have hany : (settings.verificationSecrets expectedToken identity.scheme).any (fun secret' =>
      Api.strip (settings.sign (Api.signaturePayload request identity) secret) =
        settings.sign (Api.signaturePayload request identity) secret') = true :=
    List.any_eq_true.mpr ⟨secret, hsecret, decide_eq_true (strip_visible hsignature)⟩
  rw [Api.checkIdentity, if_neg (not_not.mpr hwindow), if_neg (not_not.mpr hany)]

theorem toString_ne_empty (n : Nat) : toString n ≠ "" := by
  intro h
  have hlist : (toString n).toList = Nat.toDigits 10 n := Nat.toList_repr
  rw [h] at hlist
  exact Nat.toDigits_ne_nil hlist.symm

theorem nonce_ne_empty : call.nonce ≠ "" := by
  intro h
  have hlength := length_nonce call
  rw [h] at hlength
  cases hlength

theorem login_ne_empty (login : Login) : login.text ≠ "" := fun h => login.ne_nil (by rw [h]; rfl)

theorem provider_ne_empty (provider : Provider) : provider.text ≠ "" := by cases provider <;> decide

theorem login_value (login : Login) : Api.headerIdentityValue (some login.text) "" = .ok login.text :=
  headerIdentityValue_visible login.ne_nil login.length_le login.all_visible

theorem provider_value (provider : Provider) : Api.headerIdentityValue (some provider.text) "" = .ok provider.text :=
  headerIdentityValue_visible (by cases provider <;> decide) (by cases provider <;> decide)
    (provider_visible provider)

/-- A request for which the lines agree is verified. -/
theorem verify_signed {scheme : Api.Scheme} (hsecret : secret ∈ settings.verificationSecrets expectedToken scheme)
    (hsignature : ∀ payload, settings.sign payload secret ≠ "" ∧
      ∀ c ∈ (settings.sign payload secret).toList, visible c = true)
    (hwindow : Api.InWindow call.timestamp now (settings.ttlSeconds scheme))
    (hpayload : Api.signaturePayload request (call.identity scheme) = call.payload scheme) :
    Api.verifyIdentity settings request expectedToken (call.headers settings.sign secret scheme) now scheme =
      .ok (call.identity scheme) := by
  have hcheck (rejected : Api.HttpException) :
      Api.checkIdentity settings request expectedToken (settings.sign (call.payload scheme) secret)
        (call.identity scheme) now rejected = .ok (call.identity scheme) := by
    rw [← hpayload]
    exact checkIdentity_signed hsecret (hsignature _).2 hwindow
  have hlogin := login_ne_empty call.login
  have hprovider := provider_ne_empty call.provider
  have hnamed : ¬ (call.login.text = "" ∨ call.provider.text = "") := not_or.mpr ⟨hlogin, hprovider⟩
  cases scheme with
  | product =>
    have hpresent : ¬ [some call.login.text, some call.provider.text, some (toString call.timestamp), some call.nonce,
        some (settings.sign (call.payload .product) secret)].any (·.getD "" = "") = true := by
      simp [hlogin, hprovider, nonce_ne_empty, (hsignature _).1]
    show Api.verifyProductIdentity settings request expectedToken _ now = _
    rw [Api.verifyProductIdentity]
    refine (if_neg hpresent).trans ?_
    simp only [Call.headers]
    rw [login_value, provider_value]
    show (if call.login.text = "" ∨ call.provider.text = "" then _ else _) = _
    rw [if_neg hnamed, Option.getD_some, Option.getD_some, Option.getD_some, parseIdentityNonce_nonce,
      parseIdentityTimestamp_toString]
    exact hcheck _
  | evaluation =>
    have hpresent : ¬ [some call.role.text, some call.login.text, some call.provider.text,
        some (toString call.timestamp), some call.nonce,
        some (settings.sign (call.payload .evaluation) secret)].any (·.getD "" = "") = true := by
      have hrole : call.role.text ≠ "" := by cases call.role <;> decide
      simp [hrole, hlogin, hprovider, nonce_ne_empty, (hsignature _).1]
    have hrole : Api.parseEvaluationRole (some call.role.text) = .ok (some call.role.evaluation) := by
      cases call.role <;> decide +kernel
    show Api.verifyEvaluationIdentity settings request expectedToken _ now = _
    rw [Api.verifyEvaluationIdentity]
    refine (if_neg hpresent).trans ?_
    simp only [Call.headers]
    rw [hrole, login_value, provider_value]
    show (if call.login.text = "" ∨ call.provider.text = "" then _ else _) = _
    rw [if_neg hnamed, Option.getD_some, Option.getD_some, Option.getD_some, parseIdentityNonce_nonce,
      parseIdentityTimestamp_toString]
    exact hcheck _

/-- The backend makes the lines that were signed, and verifies the request, exactly if the path is plain. -/
theorem proxy_agrees_iff (call : Call) (replace : List UInt8 → List Char) (scheme : Api.Scheme)
    (hsecret : secret ∈ settings.verificationSecrets expectedToken scheme)
    (hsignature : ∀ payload, settings.sign payload secret ≠ "" ∧
      ∀ c ∈ (settings.sign payload secret).toList, visible c = true)
    (hwindow : Api.InWindow call.timestamp now (settings.ttlSeconds scheme)) :
    Api.signaturePayload (call.received replace) (call.identity scheme) = call.payload scheme ∧
        Api.verifyIdentity settings (call.received replace) expectedToken
          (call.headers settings.sign secret scheme) now scheme = .ok (call.identity scheme) ↔
      PlainPath call.path := by
  rw [← payload_iff call replace scheme]
  exact ⟨And.left, fun h => ⟨h, verify_signed hsecret hsignature hwindow h⟩⟩

/-! ## Two requests -/

def octocat : Login := ⟨"octocat", by decide, by decide, List.all_eq_true.mp (by decide)⟩

def sampleCall (path : List (List Char)) : Call :=
  ⟨"GET", path, [], .viewer, octocat, .github, 1700000000, List.replicate 24 0, rfl⟩

/-- The lines of the sample with a path. -/
def sampleLines (path : String) : String :=
  "v1\n1700000000\nAAAAAAAAAAAAAAAAAAAAAAAAAAAAAAAA\nGET\n" ++ path ++ "\noctocat\ngithub"

/-- The secret of the product identity, with its signatures of the lines of three paths. -/
def sampleSettings : Api.IdentitySettings where
  sign payload _ :=
    if payload = sampleLines "/repos" then "Vh3t_svEmg5vh4FG76WSUUXkfvmk14d1ejhuYlxIldI"
    else if payload = sampleLines "/repos/a%20b" then "GAv3Om4ybm5X9Vo_O6fSx67wsa7tlggKqvcjHh0JKmg"
    else "U4adGmldtdhzECutUA2huly_DXBim0eeaARtic6LlIE"
  productIdentitySecret := some "product-secret"
  productIdentityPreviousSecret := none
  productIdentityTtlSeconds := 300
  proxyIdentitySecret := none
  proxyIdentityPreviousSecret := none
  proxyIdentityTtlSeconds := 300

/-- What the backend makes of the sample with the path. -/
def sampleVerified (path : List (List Char)) : Except Api.HttpException Api.SignedIdentity :=
  Api.verifyIdentity sampleSettings ((sampleCall path).received fun _ => []) "token"
    ((sampleCall path).headers sampleSettings.sign "product-secret" .product) 1700000000 .product

theorem proxy_agrees_sample :
    Api.signaturePayload ((sampleCall ["repos".toList]).received fun _ => [])
        ((sampleCall ["repos".toList]).identity .product) = (sampleCall ["repos".toList]).payload .product ∧
      sampleVerified ["repos".toList] = .ok ((sampleCall ["repos".toList]).identity .product) := by
  refine (proxy_agrees_iff (sampleCall ["repos".toList]) (fun _ => []) .product (by decide) (fun payload => ?_)
    (by decide)).mpr ?_
  · unfold sampleSettings
    dsimp only
    split
    · exact ⟨by decide, List.all_eq_true.mp (by decide)⟩
    · split <;> exact ⟨by decide, List.all_eq_true.mp (by decide)⟩
  · intro segment hsegment
    rw [List.mem_singleton.mp hsegment]
    exact ⟨by decide, by decide, List.all_eq_true.mp (by decide +kernel)⟩

/-- A path with a space is signed encoded and arrives decoded, and the request is rejected. -/
theorem space_rejected :
    Api.signaturePayload ((sampleCall ["repos".toList, "a b".toList]).received fun _ => [])
        ((sampleCall ["repos".toList, "a b".toList]).identity .product) ≠
        (sampleCall ["repos".toList, "a b".toList]).payload .product ∧
      sampleVerified ["repos".toList, "a b".toList] = .error Api.productIdentityRequired := by
  constructor
  · intro h
    have hplain := (payload_iff _ _ _).mp h _ (List.mem_cons_of_mem _ (List.mem_singleton_self _))
    exact absurd ((hplain.2.2 ' ' (by decide)).symm.trans uriUnreserved_marks.2.2) (by decide)
  · decide +kernel

end CodeMate.Frontend
