import CodeMate.Framework.Redis
import CodeMate.Quota.Policy

/-!
# The reservation script

`REDIS_RESERVE_SCRIPT`, which takes a reservation in the store under all its
policies or refuses it. Its first loop removes the leases that have ended and
checks the limits (`checkPolicies`), its second loop charges (`charge`).

The script accepts in the stores that admit the call (`reserveScript_accepts`).
A refusal removes only leases that have ended (`reserveScript_refused`). After
an accepted call the member has the new lease under every policy
(`liveScore_reserveScript`, `holds_taken`) and, where a policy had not counted
the call, its key is there (`exists_reserveScript`); the leases of other events
stay (`holds_reserveScript`).
-/

namespace CodeMate.Quota

open Framework.Redis

variable {κ : Type*}

/-- The keys of a policy, and its limits; a limit below zero is none. -/
structure ScriptPolicy (κ : Type*) where
  minuteKey : κ
  dayKey : κ
  runKey : κ
  concurrencyKey : κ
  idemKey : κ
  rateLimit : ℚ
  dailyCallsLimit : ℚ
  dailyCostLimit : ℚ
  runLimit : ℚ
  concurrentLimit : ℚ

/-- The keys and arguments of a call of the script. -/
structure ScriptCall (κ : Type*) where
  reconcileKey : κ
  nowMs : Int
  leaseExpiry : Int
  member : String
  cost : ℚ
  alreadyCounted : Bool
  policies : List (ScriptPolicy κ)

inductive ScriptReply
  | accepted
  | rejected (index : Nat) (reason : Reason) (retryAfter : Int)
  deriving DecidableEq

/-- `limit >= 0 and used > limit`. -/
def overLimit (limit used : ℚ) : Bool := 0 ≤ limit && limit < used

section Script

variable [DecidableEq κ] (add : ℚ → ℚ → ℚ) (now : Int) (c : ScriptCall κ)

def counted (s : Store κ) (p : ScriptPolicy κ) : Bool := c.alreadyCounted || s.exists_ now p.idemKey

/-- The checks of a call that has not been counted, each with the seconds to wait. -/
def callRefusal (s : Store κ) (p : ScriptPolicy κ) : Option (Reason × Int) :=
  if overLimit p.rateLimit ((s.get now p.minuteKey).getD 0 + 1) then
    some (.rateLimitPerMinute, max 1 (Store.ttl now (s.string now p.minuteKey)))
  else if overLimit p.dailyCallsLimit ((s.hget now p.dayKey "calls").getD 0 + 1) then
    some (.dailyCallLimit, max 1 (Store.ttl now (s.hash now p.dayKey)))
  else if overLimit p.dailyCostLimit (add ((s.hget now p.dayKey "cost").getD 0) c.cost) then
    some (.dailyCostLimit, max 1 (Store.ttl now (s.hash now p.dayKey)))
  else if overLimit p.runLimit ((s.get now p.runKey).getD 0 + 1) then some (.runCallLimit, 0)
  else none

/-- The check of the concurrency set. -/
def slotRefusal (s : Store κ) (p : ScriptPolicy κ) : Option (Reason × Int) :=
  if (s.zscore now p.concurrencyKey c.member).isNone &&
      overLimit p.concurrentLimit (s.zcard now p.concurrencyKey + 1) then
    some (.concurrentLimit, (s.zset now p.concurrencyKey).lowest.elim 1 fun first =>
      max 1 (-(-(first - c.nowMs) / 1000)))
  else none

/-- Why a policy refuses the call, and the seconds to wait. -/
def refusal (s : Store κ) (p : ScriptPolicy κ) : Option (Reason × Int) :=
  (if counted now c s p then none else callRefusal add now c s p).or (slotRefusal now c s p)

/-- The first loop, from index `i` on. -/
def checkPolicies : Nat → List (ScriptPolicy κ) → Store κ → ScriptReply × Store κ
  | _, [], s => (.accepted, s)
  | i, p :: policies, s =>
    let s := s.zremrangebyscore p.concurrencyKey c.nowMs
    match refusal add now c s p with
    | some (reason, retryAfter) => (.rejected i reason retryAfter, s)
    | none => checkPolicies (i + 1) policies s

/-- A call counted under a policy. -/
def countCall (s : Store κ) (p : ScriptPolicy κ) : Store κ :=
  let s := s.incr now p.minuteKey (120 * second)
  let s := s.hset now p.dayKey "calls" ((s.hget now p.dayKey "calls").getD 0 + 1) (172800 * second)
  let s := s.hset now p.dayKey "cost" (add ((s.hget now p.dayKey "cost").getD 0) c.cost) (172800 * second)
  let s := s.incr now p.runKey (691200 * second)
  s.set now p.idemKey 1 (691200 * second)

/-- One turn of the second loop. -/
def charge (s : Store κ) (p : ScriptPolicy κ) : Store κ :=
  (if counted now c s p then s else countCall add now c s p).zadd now p.concurrencyKey c.leaseExpiry c.member
    (691200 * second)

/-- `REDIS_RESERVE_SCRIPT`. -/
def reserveScript (s : Store κ) : ScriptReply × Store κ :=
  if s.exists_ now c.reconcileKey then (.rejected 0 .quotaReconciling 1, s)
  else match checkPolicies add now c 1 c.policies s with
    | (.accepted, s) => (.accepted, c.policies.foldl (charge add now c) s)
    | rejected => rejected

/-- The call is within the limits of a store. -/
def Admits (s : Store κ) : Prop :=
  s.exists_ now c.reconcileKey = false ∧
    ∀ p ∈ c.policies, refusal add now c (s.zremrangebyscore p.concurrencyKey c.nowMs) p = none

instance (s : Store κ) : Decidable (Admits add now c s) := inferInstanceAs (Decidable (_ ∧ _))

/-- The score of a member whose lease has not ended. -/
def liveScore (nowMs : Int) (s : Store κ) (key : κ) (member : String) : Option Int :=
  (s.zscore now key member).filter fun score => nowMs < score

end Script

/-! ## The first loop -/

section Admit

variable {add : ℚ → ℚ → ℚ} {now : Int} {c : ScriptCall κ} {s t u : Store κ}

/-- The stores differ at most in leases that have ended. -/
structure Trimmed (now nowMs : Int) (s t : Store κ) : Prop where
  strings : t.strings = s.strings
  hashes : t.hashes = s.hashes
  zsets (key : κ) : (t.zset now key).above nowMs = (s.zset now key).above nowMs

namespace Trimmed

variable {nowMs : Int}

theorem refl (s : Store κ) : Trimmed now nowMs s s := ⟨rfl, rfl, fun _ => rfl⟩

theorem trans (h : Trimmed now nowMs s t) (h' : Trimmed now nowMs t u) : Trimmed now nowMs s u :=
  ⟨h'.strings.trans h.strings, h'.hashes.trans h.hashes, fun key => (h'.zsets key).trans (h.zsets key)⟩

theorem string (h : Trimmed now nowMs s t) (key : κ) : t.string now key = s.string now key := by
  unfold Store.string
  rw [h.strings]

theorem hash (h : Trimmed now nowMs s t) (key : κ) : t.hash now key = s.hash now key := by
  unfold Store.hash
  rw [h.hashes]

theorem exists_ (h : Trimmed now nowMs s t) (key : κ) : t.exists_ now key = s.exists_ now key := by
  unfold Store.exists_
  rw [h.string]

theorem liveScore (h : Trimmed now nowMs s t) (key : κ) (member : String) :
    liveScore now nowMs t key member = liveScore now nowMs s key member := by
  unfold Quota.liveScore Store.zscore
  rw [← SortedSet.score_above, h.zsets, SortedSet.score_above]

variable [DecidableEq κ]

theorem zremrangebyscore (s : Store κ) (key : κ) : Trimmed now nowMs s (s.zremrangebyscore key nowMs) where
  strings := rfl
  hashes := rfl
  zsets key' := by
    rw [Store.zset_zremrangebyscore]
    split
    · exact SortedSet.above_above
    · rfl

/-- A policy decides the same once the leases that have ended are gone. -/
theorem refusal (h : Trimmed now c.nowMs s t) (p : ScriptPolicy κ) :
    refusal add now c (t.zremrangebyscore p.concurrencyKey c.nowMs) p =
      refusal add now c (s.zremrangebyscore p.concurrencyKey c.nowMs) p := by
  have hzset : (t.zremrangebyscore p.concurrencyKey c.nowMs).zset now p.concurrencyKey =
      (s.zremrangebyscore p.concurrencyKey c.nowMs).zset now p.concurrencyKey := by
    rw [Store.zset_zremrangebyscore, Store.zset_zremrangebyscore, if_pos rfl, if_pos rfl]
    exact h.zsets _
  have hstring (key : κ) : (t.zremrangebyscore p.concurrencyKey c.nowMs).string now key =
      (s.zremrangebyscore p.concurrencyKey c.nowMs).string now key := h.string key
  have hhash (key : κ) : (t.zremrangebyscore p.concurrencyKey c.nowMs).hash now key =
      (s.zremrangebyscore p.concurrencyKey c.nowMs).hash now key := h.hash key
  unfold Quota.refusal counted callRefusal slotRefusal Store.exists_ Store.get Store.hget Store.zscore Store.zcard
  simp only [hzset, hstring, hhash]

end Trimmed

variable [DecidableEq κ]

theorem checkPolicies_trimmed (policies : List (ScriptPolicy κ)) (i : Nat) (s : Store κ) :
    Trimmed now c.nowMs s (checkPolicies add now c i policies s).2 := by
  induction policies generalizing i s with
  | nil => exact .refl s
  | cons p policies ih =>
    have hp : Trimmed now c.nowMs s (s.zremrangebyscore p.concurrencyKey c.nowMs) := .zremrangebyscore s _
    unfold checkPolicies
    dsimp only
    split
    · exact hp
    · exact hp.trans (ih _ _)

theorem checkPolicies_accepts (policies : List (ScriptPolicy κ)) (i : Nat) (s : Store κ) :
    (checkPolicies add now c i policies s).1 = .accepted ↔
      ∀ p ∈ policies, refusal add now c (s.zremrangebyscore p.concurrencyKey c.nowMs) p = none := by
  induction policies generalizing i s with
  | nil => simp [checkPolicies]
  | cons p policies ih =>
    have hp : Trimmed now c.nowMs s (s.zremrangebyscore p.concurrencyKey c.nowMs) := .zremrangebyscore s _
    rw [List.forall_mem_cons]
    unfold checkPolicies
    dsimp only
    split
    · next reason retryAfter hrefusal =>
      rw [hrefusal]
      simp
    · next hrefusal =>
      rw [ih]
      simp only [hp.refusal, hrefusal, true_and]

theorem reserveScript_of_admits (h : Admits add now c s) : ∃ t, Trimmed now c.nowMs s t ∧
    reserveScript add now c s = (.accepted, c.policies.foldl (charge add now c) t) := by
  refine ⟨(checkPolicies add now c 1 c.policies s).2, checkPolicies_trimmed _ _ _, ?_⟩
  have haccepts := (checkPolicies_accepts c.policies 1 s).mpr h.2
  unfold reserveScript
  rw [h.1, if_neg Bool.false_ne_true]
  split
  · next heq => rw [heq]
  · next hne => exact (hne _ (Prod.ext haccepts rfl)).elim

theorem reserveScript_refused (h : ¬ Admits add now c s) :
    (∃ index reason retryAfter, (reserveScript add now c s).1 = .rejected index reason retryAfter) ∧
      Trimmed now c.nowMs s (reserveScript add now c s).2 := by
  unfold reserveScript
  split
  · exact ⟨⟨_, _, _, rfl⟩, .refl s⟩
  · next hreconcile =>
    have hcheck : (checkPolicies add now c 1 c.policies s).1 = .accepted ↔ _ := checkPolicies_accepts c.policies 1 s
    have htrimmed : Trimmed now c.nowMs s (checkPolicies add now c 1 c.policies s).2 :=
      checkPolicies_trimmed c.policies 1 s
    split
    · next heq =>
      rw [heq] at hcheck
      exact absurd ⟨Bool.eq_false_of_not_eq_true hreconcile, hcheck.mp rfl⟩ h
    · next hne =>
      refine ⟨?_, htrimmed⟩
      cases hreply : (checkPolicies add now c 1 c.policies s).1 with
      | accepted => exact (hne _ (Prod.ext hreply rfl)).elim
      | rejected index reason retryAfter => exact ⟨index, reason, retryAfter, rfl⟩

theorem reserveScript_accepts : (reserveScript add now c s).1 = .accepted ↔ Admits add now c s := by
  constructor
  · intro haccepted
    by_contra h
    obtain ⟨⟨_, _, _, hrejected⟩, _⟩ := reserveScript_refused h
    rw [haccepted] at hrejected
    cases hrejected
  · intro h
    obtain ⟨_, _, heq⟩ := reserveScript_of_admits h
    rw [heq]

end Admit

/-! ## The second loop -/

section Charge

variable [DecidableEq κ] {add : ℚ → ℚ → ℚ} {now : Int} {c : ScriptCall κ} {s : Store κ} {key : κ}

theorem zscore_charge (s : Store κ) (p : ScriptPolicy κ) (member : String) :
    (charge add now c s p).zscore now key member =
      if key = p.concurrencyKey ∧ member = c.member then some c.leaseExpiry else s.zscore now key member := by
  -- counting changes no sorted set
  have hcount : (if counted now c s p then s else countCall add now c s p).zscore now key member =
      s.zscore now key member := by
    split <;> rfl
  unfold charge
  rw [Store.zscore_zadd (by decide), hcount]

theorem zscore_charges (policies : List (ScriptPolicy κ)) (s : Store κ) (member : String) :
    (policies.foldl (charge add now c) s).zscore now key member =
      if key ∈ policies.map ScriptPolicy.concurrencyKey ∧ member = c.member then some c.leaseExpiry
      else s.zscore now key member := by
  induction policies generalizing s with
  | nil => simp
  | cons p policies ih =>
    rw [List.foldl_cons, ih, zscore_charge, List.map_cons]
    by_cases hm : member = c.member
    · by_cases hp : key = p.concurrencyKey
      · simp [hm, hp]
      · simp [hm, hp]
    · simp [hm]

theorem exists_set {key' : κ} {value ttl : Int} (hlater : 0 < ttl) :
    (s.set now key' value ttl).exists_ now key = (decide (key = key') || s.exists_ now key) := by
  unfold Store.exists_
  rw [Store.string_set hlater]
  by_cases hk : key = key'
  · simp [hk]
  · simp [hk]

theorem exists_countCall (s : Store κ) (p : ScriptPolicy κ) (key : κ) :
    (countCall add now c s p).exists_ now key =
      (decide (key = p.idemKey) ||
        (decide (key = p.runKey) || (decide (key = p.minuteKey) || s.exists_ now key))) := by
  unfold countCall
  dsimp only
  rw [exists_set (by decide)]
  congr 1
  unfold Store.incr
  rw [exists_set (by decide)]
  congr 1
  exact exists_set (by decide)

/-- A string that is there stays. -/
theorem exists_charge (p : ScriptPolicy κ) (h : s.exists_ now key = true) :
    (charge add now c s p).exists_ now key = true := by
  show (if counted now c s p then s else countCall add now c s p).exists_ now key = true
  split
  · exact h
  · rw [exists_countCall, h]
    simp

/-- A policy has the key of the call after its turn. -/
theorem exists_charge_idem (s : Store κ) (p : ScriptPolicy κ) (hnew : c.alreadyCounted = false) :
    (charge add now c s p).exists_ now p.idemKey = true := by
  show (if counted now c s p then s else countCall add now c s p).exists_ now p.idemKey = true
  unfold counted
  rw [hnew, Bool.false_or]
  split
  · next h => exact h
  · rw [exists_countCall]
    simp

theorem exists_charges {policies : List (ScriptPolicy κ)} (hnew : c.alreadyCounted = false)
    (h : s.exists_ now key = true ∨ key ∈ policies.map ScriptPolicy.idemKey) :
    (policies.foldl (charge add now c) s).exists_ now key = true := by
  induction policies generalizing s with
  | nil => simpa using h
  | cons p policies ih =>
    rw [List.foldl_cons]
    refine ih ?_
    rcases h with h | h
    · exact .inl (exists_charge p h)
    · rcases List.mem_cons.mp h with rfl | h
      · exact .inl (exists_charge_idem s p hnew)
      · exact .inr h

/-- Where every policy has counted the call, no counter changes. -/
theorem counters_charges {policies : List (ScriptPolicy κ)} (h : ∀ p ∈ policies, counted now c s p = true) :
    (policies.foldl (charge add now c) s).strings = s.strings ∧
      (policies.foldl (charge add now c) s).hashes = s.hashes := by
  induction policies generalizing s with
  | nil => exact ⟨rfl, rfl⟩
  | cons p policies ih =>
    have hcharge : charge add now c s p = s.zadd now p.concurrencyKey c.leaseExpiry c.member (691200 * second) := by
      unfold charge
      rw [if_pos (h p List.mem_cons_self)]
    rw [List.foldl_cons, hcharge]
    exact ih fun q hq => h q (List.mem_cons_of_mem _ hq)

/-- The lease after an accepted call. -/
theorem liveScore_reserveScript (h : Admits add now c s) (key : κ) (member : String) :
    liveScore now c.nowMs (reserveScript add now c s).2 key member =
      if key ∈ c.policies.map ScriptPolicy.concurrencyKey ∧ member = c.member then
        (some c.leaseExpiry).filter fun score => c.nowMs < score
      else liveScore now c.nowMs s key member := by
  obtain ⟨t, htrimmed, heq⟩ := reserveScript_of_admits h
  rw [heq, ← htrimmed.liveScore]
  unfold liveScore
  rw [zscore_charges]
  split <;> rfl

theorem exists_reserveScript {p : ScriptPolicy κ} (h : Admits add now c s) (hp : p ∈ c.policies)
    (hnew : c.alreadyCounted = false) : (reserveScript add now c s).2.exists_ now p.idemKey = true := by
  obtain ⟨t, _, heq⟩ := reserveScript_of_admits h
  rw [heq]
  exact exists_charges hnew (.inr (List.mem_map_of_mem hp))

theorem counters_reserveScript (h : Admits add now c s) (hcounted : ∀ p ∈ c.policies, counted now c s p = true) :
    (reserveScript add now c s).2.strings = s.strings ∧ (reserveScript add now c s).2.hashes = s.hashes := by
  obtain ⟨t, htrimmed, heq⟩ := reserveScript_of_admits h
  rw [heq, ← htrimmed.strings, ← htrimmed.hashes]
  refine counters_charges fun p hp => ?_
  have hp := hcounted p hp
  unfold counted at hp ⊢
  rwa [htrimmed.exists_]

end Charge

/-! ## Leases that stay -/

section Holds

variable [DecidableEq κ] {add : ℚ → ℚ → ℚ} {now : Int} {c : ScriptCall κ} {s : Store κ} {key : κ} {member : String}
  {score later : Int}

theorem holds_checkPolicies (policies : List (ScriptPolicy κ)) (i : Nat) (h : s.Holds key member score later)
    (hscore : c.nowMs < score) : (checkPolicies add now c i policies s).2.Holds key member score later := by
  induction policies generalizing i s with
  | nil => exact h
  | cons p policies ih =>
    unfold checkPolicies
    dsimp only
    split
    · exact h.zremrangebyscore hscore
    · exact ih _ (h.zremrangebyscore hscore)

theorem holds_charges (policies : List (ScriptPolicy κ)) (h : s.Holds key member score later) (hnow : now < later)
    (hlater : later ≤ now + 691200 * second) (hne : member ≠ c.member) :
    (policies.foldl (charge add now c) s).Holds key member score later := by
  induction policies generalizing s with
  | nil => exact h
  | cons p policies ih =>
    refine ih (Store.Holds.zadd ?_ hnow hlater fun _ => hne)
    split
    · exact h
    · exact h

/-- The lease of another event stays, whether the script takes the reservation or not. -/
theorem holds_reserveScript (h : s.Holds key member score later) (hscore : c.nowMs < score) (hnow : now < later)
    (hlater : later ≤ now + 691200 * second) (hne : member ≠ c.member) :
    (reserveScript add now c s).2.Holds key member score later := by
  have hcheck : (checkPolicies add now c 1 c.policies s).2.Holds key member score later :=
    holds_checkPolicies c.policies 1 h hscore
  unfold reserveScript
  split
  · exact h
  · split
    · next heq =>
      rw [heq] at hcheck
      exact holds_charges c.policies hcheck hnow hlater hne
    · exact hcheck

/-- The second loop adds the member under each of its policies. -/
theorem charges_hold {policies : List (ScriptPolicy κ)} (hnow : now < later) (hlater : later ≤ now + 691200 * second)
    (h : s.Holds key c.member c.leaseExpiry later ∨ key ∈ policies.map ScriptPolicy.concurrencyKey) :
    (policies.foldl (charge add now c) s).Holds key c.member c.leaseExpiry later := by
  induction policies generalizing s with
  | nil => simpa using h
  | cons p policies ih =>
    refine ih ?_
    by_cases hp : key = p.concurrencyKey
    · rw [hp]
      exact .inl (Store.holds_zadd hlater)
    · refine (h.imp (fun h => ?_) fun h => (List.mem_cons.mp h).resolve_left hp)
      refine Store.Holds.zadd ?_ hnow hlater fun heq => absurd heq hp
      split
      · exact h
      · exact h

/-- A reservation that the script takes has its lease under every policy. -/
theorem holds_taken (h : Admits add now c s) (hkey : key ∈ c.policies.map ScriptPolicy.concurrencyKey)
    (hnow : now < later) (hlater : later ≤ now + 691200 * second) :
    (reserveScript add now c s).2.Holds key c.member c.leaseExpiry later := by
  obtain ⟨t, -, heq⟩ := reserveScript_of_admits h
  rw [heq]
  exact charges_hold hnow hlater (.inr hkey)

end Holds

end CodeMate.Quota
