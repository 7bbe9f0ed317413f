import CodeMate.Api.Identity
import CodeMate.Framework.Run
import Mathlib.Algebra.Order.Floor.Ring
import Mathlib.Data.Rat.Floor
import Mathlib.Logic.Function.Basic
import Mathlib.Tactic.Linarith

/-!
# Nonces are consumed

A nonce is remembered for the time to live from its consumption on, and an
identity is accepted until the time to live after its timestamp. The first
covers the second exactly when the timestamp is in the past, by a whole second,
when the nonce is consumed (`accepted_again_iff`): then an identity is accepted
once (`identities_once`), and else it can be accepted twice (`identity_replayed`).
-/

namespace CodeMate.Api

open Framework

/-! ## The nonce stores -/

/-- When each nonce that was consumed is forgotten. -/
abbrev Nonces := String → Option ℚ

inductive NonceStore
  | memory
  | redis
  deriving DecidableEq

/-- `codemate_proxy_identity_nonce_store`; an unknown store is the one in memory. -/
def nonceStore (setting : String) : NonceStore :=
  if (strip setting).toLower = "redis" then .redis else .memory

/-- `InMemoryReplayNonceStore.consume`, with the clock as it was read before the lock was taken. -/
def consumeInMemory (nonces : Nonces) (nonce : String) (ttlSeconds : Int) (now : ℚ) : Bool × Nonces :=
  let pruned : Nonces := fun nonce => (nonces nonce).filter fun expiresAt => ¬ expiresAt ≤ now
  if (pruned nonce).isSome then (false, pruned)
  else (true, Function.update pruned nonce (some (now + ttlSeconds)))

/-- `SET key 1 NX EX ttl`. -/
def consumeInRedis (nonces : Nonces) (key : String) (ttlSeconds : Int) (clock : ℚ) : Bool × Nonces :=
  if ((nonces key).filter fun expiresAt => clock < expiresAt).isSome then (false, nonces)
  else (true, Function.update nonces key (some (clock + ttlSeconds)))

/-- The key of a nonce; `hash` is SHA-256 in hexadecimal. -/
def NonceStore.key (hash : String → String) (nonce : String) : NonceStore → String
  | .memory => nonce
  | .redis => "codemate:proxy-identity-nonce:" ++ hash nonce

/-- `consume_proxy_identity_nonce`. -/
def NonceStore.consume (store : NonceStore) (hash : String → String) (nonces : Nonces) (nonce : String)
    (ttlSeconds : Int) (read clock : ℚ) : Bool × Nonces :=
  match store with
  | .memory => consumeInMemory nonces (store.key hash nonce) (max 1 ttlSeconds) read
  | .redis => consumeInRedis nonces (store.key hash nonce) (max 1 ttlSeconds) clock

/-- The nonce of an identity as it is consumed; the two schemes share the store. -/
def SignedIdentity.storedNonce (identity : SignedIdentity) : String :=
  match identity.scheme with
  | .product => "product:" ++ identity.nonce
  | .evaluation => identity.nonce

/-! ## Requests -/

/-- What is fixed while requests are handled; `tokens` are the bearer tokens that the API of a scheme accepts. -/
structure Gateway where
  settings : IdentitySettings
  tokens : Scheme → List String
  store : NonceStore
  hash : String → String

/-- The nonces, the identities that passed the checks with the time at which they did, and those that were
accepted. -/
structure Requests where
  clock : ℚ
  nonces : Nonces
  verified : List (SignedIdentity × ℚ)
  accepted : List SignedIdentity

inductive RequestEvent
  | tick (now : ℚ)
  | present (scheme : Scheme) (token : String) (request : HttpRequest) (headers : IdentityHeaders)
  /-- The nonce of the `i`-th identity is consumed, with the clock as it was read; the client of the store sends the
  command `again` when its answer does not arrive. -/
  | consume (i : Nat) (read : ℚ) (again : Bool)

def Requests.consume (gateway : Gateway) (s : Requests) (verified : List (SignedIdentity × ℚ)) (identity : SignedIdentity)
    (read : ℚ) : Requests :=
  let (consumed, nonces) := gateway.store.consume gateway.hash s.nonces identity.storedNonce
    (gateway.settings.ttlSeconds identity.scheme) read s.clock
  { s with
    nonces := nonces
    verified := verified
    accepted := if consumed then identity :: s.accepted else s.accepted }

def Requests.step (gateway : Gateway) (s : Requests) : RequestEvent → Option Requests
  | .tick now => if s.clock ≤ now then some { s with clock := now } else none
  | .present scheme token request headers =>
    if token ∈ gateway.tokens scheme then
      match verifyIdentity gateway.settings request token headers ⌊s.clock⌋ scheme with
      | .ok identity => some { s with verified := s.verified ++ [(identity, s.clock)] }
      | .error _ => some s
    else some s
  | .consume i read again => (s.verified[i]?).bind fun entry =>
    if entry.2 ≤ read ∧ read ≤ s.clock then
      some (s.consume gateway (if again then s.verified else s.verified.eraseIdx i) entry.1 read)
    else none

/-- The requests to one gateway, from any nonces that are stored. -/
def requests (gateway : Gateway) : System Requests RequestEvent :=
  .ofStep (fun s => s.verified = [] ∧ s.accepted = []) (Requests.step gateway)

/-! ## How long a nonce is remembered -/

namespace NonceStore

variable {store : NonceStore} {hash : String → String} {nonces : Nonces} {nonce : String} {ttlSeconds : Int}
  {read clock : ℚ}

/-- The time by which a store decides. -/
def instant (store : NonceStore) (read clock : ℚ) : ℚ :=
  match store with
  | .memory => read
  | .redis => clock

/-- The nonce is not remembered, or no longer. -/
def Free (store : NonceStore) (hash : String → String) (nonces : Nonces) (nonce : String) (read clock : ℚ) : Prop :=
  ∀ ends, nonces (store.key hash nonce) = some ends → ends ≤ store.instant read clock

theorem live_isSome {entry : Option ℚ} {now : ℚ} :
    (entry.filter fun ends => now < ends).isSome = true ↔ ¬ ∀ ends, entry = some ends → ends ≤ now := by
  cases entry with
  | none => simp
  | some ends => simp [Option.filter]

/-- What is left of the nonces when one is consumed: the store in memory forgets those that are over. -/
def kept (store : NonceStore) (nonces : Nonces) (read : ℚ) : Nonces :=
  match store with
  | .memory => fun nonce => (nonces nonce).filter fun ends => read < ends
  | .redis => nonces

/-- Both stores consume a nonce that is free by their time. -/
theorem consume_eq : store.consume hash nonces nonce ttlSeconds read clock =
    if ((nonces (store.key hash nonce)).filter fun ends => store.instant read clock < ends).isSome then
      (false, store.kept nonces read)
    else (true, Function.update (store.kept nonces read) (store.key hash nonce)
      (some (store.instant read clock + (max 1 ttlSeconds : Int)))) := by
  cases store with
  | memory =>
    simp only [consume, consumeInMemory, not_le]
    rfl
  | redis => rfl

theorem kept_live {key : String} {ends : ℚ} (hkey : nonces key = some ends) (hlive : store.instant read clock < ends) :
    store.kept nonces read key = some ends := by
  cases store with
  | memory =>
    show (nonces key).filter _ = _
    have hlive : read < ends := hlive
    rw [hkey]
    simp [Option.filter, hlive]
  | redis => exact hkey

/-- A nonce that is free is remembered for the time to live. -/
theorem consume_free (ttlSeconds : Int) (hfree : store.Free hash nonces nonce read clock) :
    (store.consume hash nonces nonce ttlSeconds read clock).1 = true ∧
      (store.consume hash nonces nonce ttlSeconds read clock).2 (store.key hash nonce) =
        some (store.instant read clock + (max 1 ttlSeconds : Int)) := by
  rw [consume_eq, if_neg fun h => live_isSome.mp h hfree]
  exact ⟨rfl, Function.update_self ..⟩

theorem consume_taken (ttlSeconds : Int) (h : ¬ store.Free hash nonces nonce read clock) :
    (store.consume hash nonces nonce ttlSeconds read clock).1 = false := by
  rw [consume_eq, if_pos (live_isSome.mpr h)]

/-- A nonce that is remembered stays so, whatever is consumed. -/
theorem consume_keeps {key : String} {ends : ℚ} (hkey : nonces key = some ends) (hlive : store.instant read clock < ends) :
    (store.consume hash nonces nonce ttlSeconds read clock).2 key = some ends := by
  rw [consume_eq]
  split
  · exact kept_live hkey hlive
  · next hnot =>
    have hne : key ≠ store.key hash nonce := by
      rintro rfl
      exact hnot (live_isSome.mpr fun hfree => absurd (hfree ends hkey) (not_le.mpr hlive))
    exact (Function.update_of_ne hne _ _).trans (kept_live hkey hlive)

theorem instant_le (hread : read ≤ clock) : store.instant read clock ≤ clock := by
  cases store with
  | memory => exact hread
  | redis => exact le_rfl

theorem instant_self : store.instant clock clock = clock := by
  cases store <;> rfl

theorem consume_eq_true : (store.consume hash nonces nonce ttlSeconds read clock).1 = true ↔
    store.Free hash nonces nonce read clock := by
  refine ⟨fun h => ?_, fun h => (consume_free ttlSeconds h).1⟩
  by_contra hnot
  rw [consume_taken _ hnot] at h
  cases h

theorem le_instant (hread : read ≤ clock) : read ≤ store.instant read clock := by
  cases store with
  | memory => exact le_rfl
  | redis => exact hread

end NonceStore

/-! ## Identities -/

/-- The first second at which an identity is out of its window. -/
def SignedIdentity.expiry (gateway : Gateway) (identity : SignedIdentity) : Int :=
  identity.timestamp + gateway.settings.ttlSeconds identity.scheme + 1

namespace Requests

variable {gateway : Gateway} {s t : Requests}

/-- An identity whose nonce is free has a timestamp in the past, and is still in its window. -/
def Timely (gateway : Gateway) (s : Requests) (e : RequestEvent) : Prop :=
  ∀ i read again identity verified, e = .consume i read again → s.verified[i]? = some (identity, verified) →
    gateway.store.Free gateway.hash s.nonces identity.storedNonce read s.clock →
    identity.timestamp < ⌊read⌋ ∧ InWindow identity.timestamp ⌊s.clock⌋ (gateway.settings.ttlSeconds identity.scheme)

/-- The nonce of an accepted identity is remembered until the identity is out of its window. -/
def Covered (gateway : Gateway) (s : Requests) : Prop :=
  ∀ identity ∈ s.accepted, ((identity.expiry gateway : Int) : ℚ) ≤ s.clock ∨
    ∃ ends, s.nonces (gateway.store.key gateway.hash identity.storedNonce) = some ends ∧
      ((identity.expiry gateway : Int) : ℚ) ≤ ends

theorem one_le_ttlSeconds (settings : IdentitySettings) (scheme : Scheme) : 1 ≤ settings.ttlSeconds scheme := by
  cases scheme
  · exact le_max_left _ _
  · exact le_max_left _ _

/-- An identity that is in its window has not expired. -/
theorem lt_expiry {identity : SignedIdentity} {clock : ℚ}
    (h : InWindow identity.timestamp ⌊clock⌋ (gateway.settings.ttlSeconds identity.scheme)) :
    clock < (identity.expiry gateway : Int) := by
  have hle : ⌊clock⌋ + 1 ≤ identity.expiry gateway := by
    unfold InWindow at h
    unfold SignedIdentity.expiry
    omega
  calc clock < ((⌊clock⌋ : Int) : ℚ) + 1 := Int.lt_floor_add_one clock
    _ = ((⌊clock⌋ + 1 : Int) : ℚ) := by push_cast; rfl
    _ ≤ (identity.expiry gateway : Int) := Int.cast_le.mpr hle

/-- A nonce that is consumed after its timestamp is remembered until the identity has expired. -/
theorem expiry_le {identity : SignedIdentity} {read clock : ℚ} (hread : read ≤ clock) (hpast : identity.timestamp < ⌊read⌋) :
    ((identity.expiry gateway : Int) : ℚ) ≤ gateway.store.instant read clock +
      (max 1 (gateway.settings.ttlSeconds identity.scheme) : Int) := by
  have hfloor : ((⌊read⌋ : Int) : ℚ) ≤ gateway.store.instant read clock :=
    (Int.floor_le read).trans (NonceStore.le_instant hread)
  have hle : identity.expiry gateway ≤ ⌊read⌋ + max 1 (gateway.settings.ttlSeconds identity.scheme) := by
    rw [max_eq_right (one_le_ttlSeconds _ _)]
    unfold SignedIdentity.expiry
    omega
  calc ((identity.expiry gateway : Int) : ℚ)
      ≤ ((⌊read⌋ + max 1 (gateway.settings.ttlSeconds identity.scheme) : Int) : ℚ) := Int.cast_le.mpr hle
    _ = (⌊read⌋ : Int) + ((max 1 (gateway.settings.ttlSeconds identity.scheme) : Int) : ℚ) := Int.cast_add _ _
    _ ≤ _ := add_le_add_left hfloor _

/-- The nonce of an identity that was accepted is not free while the identity is in its window. -/
theorem Covered.taken (hs : s.Covered gateway) {identity : SignedIdentity} {read : ℚ} (hread : read ≤ s.clock)
    (hmem : identity ∈ s.accepted)
    (hwindow : InWindow identity.timestamp ⌊s.clock⌋ (gateway.settings.ttlSeconds identity.scheme)) :
    ¬ gateway.store.Free gateway.hash s.nonces identity.storedNonce read s.clock := by
  intro hfree
  have hlt := lt_expiry hwindow
  obtain hover | ⟨ends, hends, hle⟩ := hs identity hmem
  · exact absurd hover (not_le.mpr hlt)
  · have hforgotten := (hfree ends hends).trans (NonceStore.instant_le hread)
    linarith

theorem Covered.consume (hs : s.Covered gateway) {verified : List (SignedIdentity × ℚ)} {identity : SignedIdentity}
    {read : ℚ} (hread : read ≤ s.clock)
    (hpast : gateway.store.Free gateway.hash s.nonces identity.storedNonce read s.clock → identity.timestamp < ⌊read⌋) :
    (s.consume gateway verified identity read).Covered gateway := by
  have hkept : ∀ other ∈ s.accepted, ((other.expiry gateway : Int) : ℚ) ≤ s.clock ∨ ∃ ends,
      (s.consume gateway verified identity read).nonces (gateway.store.key gateway.hash other.storedNonce) = some ends ∧
        ((other.expiry gateway : Int) : ℚ) ≤ ends := by
    intro other hmem
    obtain hover | ⟨ends, hends, hle⟩ := hs other hmem
    · exact .inl hover
    · rcases le_or_gt ((other.expiry gateway : Int) : ℚ) s.clock with hover | hlive
      · exact .inl hover
      · exact .inr ⟨ends, NonceStore.consume_keeps hends
          (((NonceStore.instant_le hread).trans_lt hlive).trans_le hle), hle⟩
  intro other hmem
  by_cases hfree : gateway.store.Free gateway.hash s.nonces identity.storedNonce read s.clock
  · obtain ⟨hconsumed, hends⟩ := NonceStore.consume_free
      (gateway.settings.ttlSeconds identity.scheme) hfree
    have haccepted : (s.consume gateway verified identity read).accepted = identity :: s.accepted := by
      simp only [Requests.consume, hconsumed, if_true]
    rw [haccepted] at hmem
    rcases List.mem_cons.mp hmem with rfl | hmem
    · exact .inr ⟨_, hends, expiry_le hread (hpast hfree)⟩
    · exact hkept other hmem
  · have hrefused := NonceStore.consume_taken (gateway.settings.ttlSeconds identity.scheme) hfree
    have haccepted : (s.consume gateway verified identity read).accepted = s.accepted := by
      simp only [Requests.consume, hrefused, if_neg Bool.false_ne_true]
    rw [haccepted] at hmem
    exact hkept other hmem

theorem covered_step {e : RequestEvent} (hs : s.Covered gateway) (honce : s.accepted.Nodup) (htimely : Timely gateway s e)
    (hstep : s.step gateway e = some t) : t.Covered gateway ∧ t.accepted.Nodup := by
  cases e with
  | tick now =>
    simp only [step] at hstep
    split at hstep
    · next hnow =>
      obtain rfl := Option.some.inj hstep
      refine ⟨fun identity hmem => ?_, honce⟩
      obtain hover | hnonce := hs identity hmem
      · exact .inl (hover.trans hnow)
      · exact .inr hnonce
    · cases hstep
  | present scheme token request headers =>
    simp only [step] at hstep
    split at hstep
    · split at hstep
      · obtain rfl := Option.some.inj hstep
        exact ⟨hs, honce⟩
      · obtain rfl := Option.some.inj hstep
        exact ⟨hs, honce⟩
    · obtain rfl := Option.some.inj hstep
      exact ⟨hs, honce⟩
  | consume i read again =>
    obtain ⟨⟨identity, verified⟩, hentry, hstep⟩ := Option.bind_eq_some_iff.mp hstep
    dsimp only at hstep
    split at hstep
    · next hread =>
      obtain rfl := Option.some.inj hstep
      have htimely := htimely i read again identity verified rfl hentry
      refine ⟨hs.consume hread.2 fun hfree => (htimely hfree).1, ?_⟩
      simp only [Requests.consume]
      split
      · next hconsumed =>
        refine List.nodup_cons.mpr ⟨fun hmem => ?_, honce⟩
        have hfree := NonceStore.consume_eq_true.mp hconsumed
        exact hs.taken hread.2 hmem (htimely hfree).2 hfree
      · exact honce
    · cases hstep

theorem covered_inductive (gateway : Gateway) : ((requests gateway).only (Timely gateway)).Inductive
    fun s => s.Covered gateway ∧ s.accepted.Nodup where
  start := by
    rintro s ⟨-, haccepted⟩
    refine ⟨fun identity hmem => ?_, ?_⟩
    · rw [haccepted] at hmem
      cases hmem
    · rw [haccepted]
      exact List.nodup_nil
  step := by
    rintro s t e ⟨hs, honce⟩ ⟨htimely, hstep⟩
    exact covered_step hs honce htimely hstep

end Requests

/-- A nonce that is consumed at `c` can be consumed again while the timestamp is in its window, exactly when the
timestamp is not in the past at `c`. -/
theorem accepted_again_iff (store : NonceStore) (hash : String → String) (nonces : Nonces) (nonce : String)
    (ttlSeconds timestamp : Int) (c : ℚ) (httl : 1 ≤ ttlSeconds) (hwindow : InWindow timestamp ⌊c⌋ ttlSeconds)
    (hfree : store.Free hash nonces nonce c c) :
    (∃ t, c ≤ t ∧ InWindow timestamp ⌊t⌋ ttlSeconds ∧
      (store.consume hash (store.consume hash nonces nonce ttlSeconds c c).2 nonce ttlSeconds t t).1 = true) ↔
        ⌊c⌋ ≤ timestamp := by
  obtain ⟨-, hends⟩ := NonceStore.consume_free ttlSeconds hfree
  rw [NonceStore.instant_self, max_eq_right httl] at hends
  have hfloor : ⌊c + (ttlSeconds : ℚ)⌋ = ⌊c⌋ + ttlSeconds := Int.floor_add_intCast c ttlSeconds
  unfold InWindow at hwindow ⊢
  constructor
  · rintro ⟨t, -, hagain, hconsumed⟩
    have hover := NonceStore.consume_eq_true.mp hconsumed _ hends
    rw [NonceStore.instant_self] at hover
    have hle := Int.floor_le_floor hover
    omega
  · intro hahead
    refine ⟨c + ttlSeconds, le_add_of_nonneg_right (Int.cast_nonneg (by omega)), ?_, ?_⟩
    · rw [hfloor]
      omega
    · refine NonceStore.consume_eq_true.mpr fun ends h => ?_
      rw [hends] at h
      rw [← Option.some.inj h, NonceStore.instant_self]

/-- Each identity is accepted at most once, as long as those whose nonce is free have a timestamp in the past; a
timestamp that is not lets the identity be accepted again. -/
theorem identities_once (gateway : Gateway) :
    (∀ s, ((requests gateway).only (Requests.Timely gateway)).Reachable s → s.accepted.Nodup) ∧
    ∀ (identity : SignedIdentity) (nonces : Nonces) (c : ℚ),
      InWindow identity.timestamp ⌊c⌋ (gateway.settings.ttlSeconds identity.scheme) →
      gateway.store.Free gateway.hash nonces identity.storedNonce c c →
      ((∃ t, c ≤ t ∧ InWindow identity.timestamp ⌊t⌋ (gateway.settings.ttlSeconds identity.scheme) ∧
        (gateway.store.consume gateway.hash (gateway.store.consume gateway.hash nonces identity.storedNonce
          (gateway.settings.ttlSeconds identity.scheme) c c).2 identity.storedNonce
          (gateway.settings.ttlSeconds identity.scheme) t t).1 = true) ↔ ⌊c⌋ ≤ identity.timestamp) :=
  ⟨fun _ hs => ((Requests.covered_inductive gateway).reachable hs).2, fun _ _ _ hwindow hfree =>
    accepted_again_iff _ _ _ _ _ _ _ (Requests.one_le_ttlSeconds _ _) hwindow hfree⟩

namespace Sample

def headers (timestamp : String) : IdentityHeaders where
  role := some "viewer"
  user := some "alice"
  provider := some "github"
  timestamp := some timestamp
  nonce := some "0123456789abcdef"
  signature := some "signature"

def request : HttpRequest := ⟨"GET", "/api/evaluations", ""⟩

def settings : IdentitySettings where
  sign _ _ := "signature"
  productIdentitySecret := none
  productIdentityPreviousSecret := none
  productIdentityTtlSeconds := 300
  proxyIdentitySecret := none
  proxyIdentityPreviousSecret := none
  proxyIdentityTtlSeconds := 300

def gateway (store : NonceStore) : Gateway := ⟨settings, fun _ => ["token"], store, id⟩

/-- The same identity, presented at both times. -/
def presentedAt (scheme : Scheme) (timestamp : String) (first second : ℚ) : List RequestEvent :=
  [.tick first, .present scheme "token" request (headers timestamp), .consume 0 first false,
    .tick second, .present scheme "token" request (headers timestamp), .consume 0 second false]

def noRequests : Requests := ⟨0, fun _ => none, [], []⟩

def identity (scheme : Scheme) (timestamp : Int) : SignedIdentity :=
  ⟨scheme, if scheme = .product then none else some .viewer, "alice", "github", timestamp, "0123456789abcdef"⟩

/-- A timestamp half a minute ahead of the first request, and a second request just before it is too old. -/
theorem presented_twice (scheme : Scheme) (store : NonceStore) : ∃ s, (requests (gateway store)).Reachable s ∧
    s.accepted = [identity scheme 1030, identity scheme 1030] := by
  have hrun : ((presentedAt scheme "1030" 1000 1310).foldlM (Requests.step (gateway store)) noRequests).map
      (·.accepted) = some [identity scheme 1030, identity scheme 1030] := by
    cases scheme <;> cases store <;> decide +kernel
  obtain ⟨s, hs, hends⟩ := Option.map_eq_some_iff.mp hrun
  exact ⟨s, ⟨_, _, ⟨rfl, rfl⟩, .of_foldlM hs⟩, hends⟩

end Sample

/-- An identity whose timestamp is ahead of the clock is accepted twice, by both schemes. -/
theorem identity_replayed :
    (∃ s, (requests (Sample.gateway .redis)).Reachable s ∧
      s.accepted = [Sample.identity .product 1030, Sample.identity .product 1030]) ∧
    ∃ s, (requests (Sample.gateway .memory)).Reachable s ∧
      s.accepted = [Sample.identity .evaluation 1030, Sample.identity .evaluation 1030] :=
  ⟨Sample.presented_twice .product .redis, Sample.presented_twice .evaluation .memory⟩

namespace Sample

/-- The timestamp is in the past, and in its window. -/
def timely (s : Requests) : RequestEvent → Bool
  | .consume i read _ => (s.verified[i]?).all fun entry =>
      entry.1.timestamp < ⌊read⌋ ∧ InWindow entry.1.timestamp ⌊s.clock⌋ (settings.ttlSeconds entry.1.scheme)
  | _ => true

theorem timely_of {store : NonceStore} {s : Requests} {e : RequestEvent} (h : timely s e = true) :
    Requests.Timely (gateway store) s e := by
  rintro i read again identity verified rfl hentry -
  simp only [timely, hentry, Option.all_some, decide_eq_true_eq] at h
  exact h

end Sample

/-- A timestamp in the past: the second time, the nonce has been used. -/
theorem identities_once_sample : ∃ s : Requests, (s.clock = 1299 ∧ s.accepted = [Sample.identity .product 999]) ∧
    s.accepted.Nodup := by
  have hrun : ((Sample.presentedAt .product "999" 1000 1299).foldlM (fun s e =>
      if Sample.timely s e = true then Requests.step (Sample.gateway .redis) s e else none) Sample.noRequests).map
        (fun s => (s.clock, s.accepted)) = some (1299, [Sample.identity .product 999]) := by
    decide +kernel
  obtain ⟨s, hs, hends⟩ := Option.map_eq_some_iff.mp hrun
  have hrun : ((requests (Sample.gateway .redis)).only (Requests.Timely (Sample.gateway .redis))).Run
      Sample.noRequests (Sample.presentedAt .product "999" 1000 1299) s :=
    (System.Run.only_of_foldlM hs).only_imp (I := fun _ => True) (fun _ _ _ _ _ _ => trivial)
      (fun _ _ _ => Sample.timely_of) trivial
  exact ⟨s, Prod.mk.inj hends, (identities_once (Sample.gateway .redis)).1 s ⟨_, _, ⟨rfl, rfl⟩, hrun⟩⟩

end CodeMate.Api
