import Mathlib.Data.List.Nodup
import Mathlib.Data.Rat.Init
import Mathlib.Logic.Function.Basic

/-!
# Redis

A store of strings, hashes and sorted sets whose keys expire, with the commands
that a script runs on it. A string is the number that it is read as. The time
is that of the server; a command takes a key that has expired as one that is not
there. A sorted set has each member once (`SortedSet`).

What a command does to what another one reads: `get_set`, `zscore_zadd`,
`zscore_zrem`, `zset_zremrangebyscore`. A member that other commands do not
remove stays with its key (`Store.Holds`).
-/

namespace Framework.Redis

/-! ## Sorted sets -/

/-- The members of a sorted set with their scores. -/
structure SortedSet where
  entries : List (String × Int)
  nodup : (entries.map Prod.fst).Nodup

namespace SortedSet

def empty : SortedSet := ⟨[], List.nodup_nil⟩

def score (z : SortedSet) (member : String) : Option Int := z.entries.lookup member

/-- The members that meet a condition. -/
def filter (z : SortedSet) (p : String × Int → Bool) : SortedSet where
  entries := z.entries.filter p
  nodup := z.nodup.sublist (List.filter_sublist.map _)

def rem (z : SortedSet) (member : String) : SortedSet := z.filter fun entry => entry.1 != member

def add (z : SortedSet) (member : String) (score : Int) : SortedSet where
  entries := (member, score) :: (z.rem member).entries
  nodup := by
    refine List.nodup_cons.mpr ⟨fun hm => ?_, (z.rem member).nodup⟩
    obtain ⟨entry, hentry, heq⟩ := List.mem_map.mp hm
    exact absurd heq (by simpa using (List.mem_filter.mp hentry).2)

/-- The members with scores above a bound. -/
def above (z : SortedSet) (bound : Int) : SortedSet := z.filter fun entry => bound < entry.2

def lowest (z : SortedSet) : Option Int := (z.entries.map Prod.snd).min?

variable {z : SortedSet} {member other : String}

theorem score_eq {score : Int} : z.score member = some score ↔ (member, score) ∈ z.entries := by
  unfold SortedSet.score
  obtain ⟨entries, hnodup⟩ := z
  dsimp only
  induction entries with
  | nil => simp
  | cons entry entries ih =>
    obtain ⟨m, s⟩ := entry
    obtain ⟨hm, hrest⟩ := List.nodup_cons.mp hnodup
    rw [List.lookup_cons]
    by_cases heq : member = m
    · have hnot : (member, score) ∉ entries := fun hmem =>
        hm (List.mem_map.mpr ⟨_, hmem, heq⟩)
      simp [heq] at hnot ⊢
      simp [hnot, eq_comm]
    · rw [beq_eq_false_iff_ne.mpr heq]
      simp [heq, ih hrest]

theorem score_filter {p : String × Int → Bool} :
    (z.filter p).score member = (z.score member).filter fun score => p (member, score) := by
  refine Option.ext fun score => ?_
  rw [score_eq, Option.filter_eq_some_iff, score_eq]
  exact List.mem_filter

@[simp] theorem score_rem_self : (z.rem member).score member = none := by
  unfold rem
  rw [score_filter]
  simp

theorem score_rem_ne (h : other ≠ member) : (z.rem member).score other = z.score other := by
  unfold rem
  rw [score_filter]
  cases z.score other with
  | none => rfl
  | some score => simp [Option.filter, h]

@[simp] theorem score_add_self {score : Int} : (z.add member score).score member = some score := by
  rw [score_eq]
  exact List.mem_cons_self

theorem score_add_ne {score : Int} (h : other ≠ member) : (z.add member score).score other = z.score other := by
  show ((member, score) :: (z.rem member).entries).lookup other = _
  rw [List.lookup_cons, beq_eq_false_iff_ne.mpr h]
  exact score_rem_ne h

theorem score_above {bound : Int} :
    (z.above bound).score member = (z.score member).filter fun score => bound < score := score_filter

@[simp] theorem above_above {bound : Int} : (z.above bound).above bound = z.above bound := by
  unfold above filter
  simp

end SortedSet

/-! ## Keys and commands -/

/-- A value with the time at which its key expires. -/
structure Expiring (α : Type*) where
  value : α
  expiresAt : Option Int

def Expiring.alive {α : Type*} (now : Int) (entry : Expiring α) : Bool := entry.expiresAt.all (now < ·)

/-- The keys of a store; a key that is not there has no entry. -/
structure Store (κ : Type*) where
  strings : κ → Option (Expiring Int)
  hashes : κ → Option (Expiring (String → Option ℚ))
  zsets : κ → Option (Expiring SortedSet)

namespace Store

variable {κ : Type*} [DecidableEq κ]

def empty : Store κ := ⟨fun _ => none, fun _ => none, fun _ => none⟩

section Commands

variable (s : Store κ) (now : Int) (key : κ)

/-- The string of a key that has not expired. -/
def string : Option (Expiring Int) := (s.strings key).filter (·.alive now)

/-- The hash of a key that has not expired. -/
def hash : Option (Expiring (String → Option ℚ)) := (s.hashes key).filter (·.alive now)

/-- `EXISTS` of a string. -/
def exists_ : Bool := (s.string now key).isSome

/-- `GET`. -/
def get : Option Int := (s.string now key).map (·.value)

/-- `SET`, and `EXPIRE`. -/
def set (value : Int) (ttl : Int) : Store κ :=
  { s with strings := Function.update s.strings key (some ⟨value, some (now + ttl)⟩) }

/-- `INCR`, and `EXPIRE`. -/
def incr (ttl : Int) : Store κ := s.set now key ((s.get now key).getD 0 + 1) ttl

/-- `HGET`. -/
def hget (field : String) : Option ℚ := (s.hash now key).bind (·.value field)

/-- `HSET`, and `EXPIRE`. -/
def hset (field : String) (value : ℚ) (ttl : Int) : Store κ :=
  { s with hashes := Function.update s.hashes key (some
      ⟨Function.update (s.hget now key) field (some value), some (now + ttl)⟩) }

/-- The sorted set of a key. -/
def zset : SortedSet := ((s.zsets key).filter (·.alive now)).elim .empty (·.value)

/-- `ZSCORE`. -/
def zscore (member : String) : Option Int := (s.zset now key).score member

/-- `ZCARD`. -/
def zcard : Nat := (s.zset now key).entries.length

/-- `ZADD` of one member, and `EXPIRE`. -/
def zadd (score : Int) (member : String) (ttl : Int) : Store κ :=
  { s with zsets := Function.update s.zsets key (some ⟨(s.zset now key).add member score, some (now + ttl)⟩) }

/-- A change of a sorted set that leaves the expiry of its key. -/
def zupdate (f : SortedSet → SortedSet) : Store κ :=
  let entry := (s.zsets key).map fun entry => { entry with value := f entry.value }
  { s with zsets := Function.update s.zsets key entry }

/-- `ZREM`. -/
def zrem (member : String) : Store κ := s.zupdate key (·.rem member)

/-- `ZREMRANGEBYSCORE` from `-inf`. -/
def zremrangebyscore (bound : Int) : Store κ := s.zupdate key (·.above bound)

/-- `TTL`, of an entry that has not expired: its seconds, rounded; `-2` for a
key that is not there, `-1` for one that does not expire. -/
def ttl {α : Type*} : Option (Expiring α) → Int
  | none => -2
  | some entry => entry.expiresAt.elim (-1) fun expires => (expires - now + 500000) / 1000000

end Commands

variable {s : Store κ} {now : Int} {key key' : κ} {member member' : String}

theorem string_set {value ttl : Int} (hlater : 0 < ttl) : (s.set now key value ttl).string now key' =
    if key' = key then some ⟨value, some (now + ttl)⟩ else s.string now key' := by
  have halive : now < now + ttl := by omega
  unfold string set
  by_cases hk : key' = key
  · subst hk
    dsimp only
    rw [Function.update_self, if_pos rfl]
    simp [Option.filter, Expiring.alive, halive]
  · dsimp only
    rw [Function.update_of_ne hk, if_neg hk]

theorem get_set {value ttl : Int} (hlater : 0 < ttl) : (s.set now key value ttl).get now key' =
    if key' = key then some value else s.get now key' := by
  unfold get
  rw [string_set hlater]
  split <;> rfl

theorem zset_zupdate {f : SortedSet → SortedSet} (hf : f .empty = .empty) :
    (s.zupdate key f).zset now key' = if key' = key then f (s.zset now key') else s.zset now key' := by
  unfold zset zupdate
  by_cases hk : key' = key
  · subst hk
    dsimp only
    rw [Function.update_self, if_pos rfl]
    cases s.zsets key' with
    | none => exact hf.symm
    | some entry =>
      by_cases halive : entry.alive now = true
      · have halive' : Expiring.alive now { entry with value := f entry.value } = true := halive
        simp [Option.filter, halive, halive']
      · have halive' : ¬ Expiring.alive now { entry with value := f entry.value } = true := halive
        simp [Option.filter, halive, halive', hf]
  · dsimp only
    rw [Function.update_of_ne hk, if_neg hk]

theorem zset_zremrangebyscore {bound : Int} : (s.zremrangebyscore key bound).zset now key' =
    if key' = key then (s.zset now key').above bound else s.zset now key' := zset_zupdate rfl

theorem zscore_zrem : (s.zrem key member').zscore now key' member =
    if key' = key ∧ member = member' then none else s.zscore now key' member := by
  unfold zscore zrem
  rw [zset_zupdate rfl]
  by_cases hk : key' = key
  · by_cases hm : member = member'
    · simp [hk, hm]
    · simp [hk, hm, SortedSet.score_rem_ne]
  · simp [hk]

theorem zset_zadd {score ttl : Int} (hlater : 0 < ttl) : (s.zadd now key score member ttl).zset now key' =
    if key' = key then (s.zset now key').add member score else s.zset now key' := by
  have halive : now < now + ttl := by omega
  by_cases hk : key' = key
  · subst hk
    rw [if_pos rfl]
    conv_lhs => unfold zset zadd
    dsimp only
    rw [Function.update_self]
    simp [Option.filter, Expiring.alive, halive]
  · rw [if_neg hk]
    unfold zset zadd
    dsimp only
    rw [Function.update_of_ne hk]

theorem zscore_zadd {score ttl : Int} (hlater : 0 < ttl) : (s.zadd now key score member' ttl).zscore now key' member =
    if key' = key ∧ member = member' then some score else s.zscore now key' member := by
  unfold zscore
  rw [zset_zadd hlater]
  by_cases hk : key' = key
  · by_cases hm : member = member'
    · simp [hk, hm]
    · simp [hk, hm, SortedSet.score_add_ne]
  · simp [hk]

/-! ## Members that stay -/

/-- A sorted set has the member with the score, and its key stays up to a time. -/
def Holds (s : Store κ) (key : κ) (member : String) (score later : Int) : Prop :=
  ∃ entry, s.zsets key = some entry ∧ entry.value.score member = some score ∧ ∀ expires,
    entry.expiresAt = some expires → later ≤ expires

namespace Holds

variable {score later : Int}

theorem alive {entry : Expiring SortedSet} (h : ∀ expires, entry.expiresAt = some expires → later ≤ expires)
    (hnow : now < later) : entry.alive now = true := by
  unfold Expiring.alive
  cases hexpires : entry.expiresAt with
  | none => rfl
  | some expires =>
    have := h expires hexpires
    exact decide_eq_true (by omega)

omit [DecidableEq κ] in
theorem zset_eq {entry : Expiring SortedSet} (hentry : s.zsets key = some entry)
    (h : ∀ expires, entry.expiresAt = some expires → later ≤ expires) (hnow : now < later) :
    s.zset now key = entry.value := by
  unfold zset
  rw [hentry, Option.filter_some, if_pos (alive h hnow)]
  rfl

omit [DecidableEq κ] in
theorem zscore (h : s.Holds key member score later) (hnow : now < later) :
    s.zscore now key member = some score := by
  obtain ⟨entry, hentry, hscore, hlater⟩ := h
  unfold Store.zscore
  rw [zset_eq hentry hlater hnow]
  exact hscore

theorem zupdate {f : SortedSet → SortedSet} (h : s.Holds key member score later)
    (hf : key = key' → ∀ z : SortedSet, z.score member = some score → (f z).score member = some score) :
    (s.zupdate key' f).Holds key member score later := by
  obtain ⟨entry, hentry, hscore, hlater⟩ := h
  unfold Store.zupdate
  by_cases hk : key = key'
  · subst hk
    refine ⟨{ entry with value := f entry.value }, ?_, hf rfl _ hscore, hlater⟩
    show Function.update s.zsets key _ key = _
    rw [Function.update_self, hentry]
    rfl
  · refine ⟨entry, ?_, hscore, hlater⟩
    show Function.update s.zsets key' _ key = _
    rw [Function.update_of_ne hk, hentry]

theorem zrem (h : s.Holds key member score later) (hne : key = key' → member ≠ member') :
    (s.zrem key' member').Holds key member score later :=
  h.zupdate fun hk _ hscore => (SortedSet.score_rem_ne (hne hk)).trans hscore

theorem zremrangebyscore {bound : Int} (h : s.Holds key member score later) (hbound : bound < score) :
    (s.zremrangebyscore key' bound).Holds key member score later :=
  h.zupdate fun _ _ hscore => by
    rw [SortedSet.score_above, hscore, Option.filter_some, if_pos (decide_eq_true hbound)]

/-- Another member is added. -/
theorem zadd {score' ttl : Int} (h : s.Holds key member score later) (hnow : now < later) (httl : later ≤ now + ttl)
    (hne : key = key' → member ≠ member') : (s.zadd now key' score' member' ttl).Holds key member score later := by
  obtain ⟨entry, hentry, hscore, hlater⟩ := h
  unfold Store.zadd
  by_cases hk : key = key'
  · subst hk
    refine ⟨_, Function.update_self .., ?_, fun expires hexpires => ?_⟩
    · show (SortedSet.add _ member' score').score member = _
      rw [SortedSet.score_add_ne (hne rfl), zset_eq hentry hlater hnow]
      exact hscore
    · obtain rfl := Option.some.inj hexpires
      exact httl
  · exact ⟨entry, (Function.update_of_ne hk ..).trans hentry, hscore, hlater⟩

end Holds

theorem holds_zadd {score later ttl : Int} (httl : later ≤ now + ttl) :
    (s.zadd now key score member ttl).Holds key member score later := by
  refine ⟨_, Function.update_self .., SortedSet.score_add_self, fun expires hexpires => ?_⟩
  obtain rfl := Option.some.inj hexpires
  exact httl

end Store

end Framework.Redis
