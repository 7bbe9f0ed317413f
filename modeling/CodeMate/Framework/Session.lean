import Mathlib.Data.List.AList

/-!
# Sessions with an identity map

Sessions over a table of committed rows, as an object-relational mapper keeps
them: a session holds at most one object for a row, a select of a row it holds
gives that object with the values it had when it was read (also with the row
locked), and a flush writes the columns that were changed in the object over
the committed row. `Sessions` records what each session holds, and whether
another session has committed the row since. `Coherent` says that what is held
and not stale is what is committed, and every operation keeps it
(`Coherent.transact`); a transaction of a session whose object is not stale is
the transaction on the committed row (`transactIn_current`).
-/

namespace Framework

variable {ω κ ρ α : Type*}

/-- How a flush writes an object over a row: `overlay c n d` is the row `d`
with the columns in which the object `n` differs from what was read, `c`. -/
structure Flush (ρ : Type*) where
  overlay : ρ → ρ → ρ → ρ
  current (c n : ρ) : overlay c n c = n
  unchanged (c d : ρ) : overlay c c d = d

/-- A column of a flush: what the object was changed to, else what is committed. -/
def column {α : Type*} [DecidableEq α] (c n d : α) : α := if n = c then d else n

theorem column_current {α : Type*} [DecidableEq α] (c n : α) : column c n c = n := by
  unfold column
  split
  · next h => exact h.symm
  · rfl

theorem column_unchanged {α : Type*} [DecidableEq α] (c d : α) : column c c d = d := if_pos rfl

structure Sessions (ω κ ρ : Type*) where
  /-- The object that a session holds for a row. -/
  cached : ω → κ → Option ρ
  /-- Another session has committed the row since this one read it. -/
  stale : ω → κ → Bool

namespace Sessions

def empty : Sessions ω κ ρ := ⟨fun _ _ => none, fun _ _ => false⟩

variable [DecidableEq ω] [DecidableEq κ]

/-- What a select of the row `i` gives the session `k`. -/
def select (S : Sessions ω κ ρ) (db : AList fun _ : κ => ρ) (k : ω) (i : κ) : Option ρ :=
  match S.cached k i with
  | some c => some c
  | none => db.lookup i

/-- The sessions after that select. -/
def load (S : Sessions ω κ ρ) (db : AList fun _ : κ => ρ) (k : ω) (i : κ) : Sessions ω κ ρ :=
  match S.cached k i with
  | some _ => S
  | none =>
    { cached := fun k' i' => if k' = k ∧ i' = i then db.lookup i else S.cached k' i'
      stale := fun k' i' => if k' = k ∧ i' = i then false else S.stale k' i' }

/-- The sessions after `k` committed the row `i` and read it again. -/
def refresh (S : Sessions ω κ ρ) (k : ω) (i : κ) (x : ρ) : Sessions ω κ ρ where
  cached k' i' := if k' = k ∧ i' = i then some x else S.cached k' i'
  stale k' i' := if i' = i then decide (k' ≠ k) else S.stale k' i'

/-- The sessions after one that is not among them committed the row `i`. -/
def outdate (S : Sessions ω κ ρ) (i : κ) : Sessions ω κ ρ :=
  { S with stale := fun k i' => decide (i' = i) || S.stale k i' }

/-- The session `k` no longer holds the row `i`: the object is collected, or expired. -/
def evict (S : Sessions ω κ ρ) (k : ω) (i : κ) : Sessions ω κ ρ where
  cached k' i' := if k' = k ∧ i' = i then none else S.cached k' i'
  stale k' i' := if k' = k ∧ i' = i then false else S.stale k' i'

/-- The session `k` is closed, and a new one takes its place. -/
def close (S : Sessions ω κ ρ) (k : ω) : Sessions ω κ ρ where
  cached k' i := if k' = k then none else S.cached k' i
  stale k' i := if k' = k then false else S.stale k' i

end Sessions

/-- A transaction `f` on the committed row. -/
def transactOn [DecidableEq κ] (f : ρ → ρ × α) (missing : α) (db : AList fun _ : κ => ρ) (i : κ) :
    (AList fun _ : κ => ρ) × α :=
  match db.lookup i with
  | none => (db, missing)
  | some d => (db.insert i (f d).1, (f d).2)

/-- The transaction `f` of the session `k`: it is decided on the object that
the select gives, and where it changed the object, that is flushed, committed
and read again. -/
def transactIn [DecidableEq ω] [DecidableEq κ] [DecidableEq ρ] (F : Flush ρ) (f : ρ → ρ × α)
    (missing : α) (db : AList fun _ : κ => ρ) (S : Sessions ω κ ρ) (k : ω) (i : κ) :
    (AList fun _ : κ => ρ) × Sessions ω κ ρ × α :=
  match S.select db k i, db.lookup i with
  | some c, some d =>
    let x := F.overlay c (f c).1 d
    (db.insert i x, if (f c).1 = c then S.load db k i else S.refresh k i x, (f c).2)
  | _, _ => (db, S, missing)

section

variable [DecidableEq κ] {db : AList fun _ : κ => ρ} {S : Sessions ω κ ρ} {k : ω} {i : κ} {x : ρ}

/-- What a session holds, and no other has committed since, is the committed row. -/
def Coherent (db : AList fun _ : κ => ρ) (S : Sessions ω κ ρ) : Prop :=
  ∀ ⦃k i c⦄, S.stale k i = false → S.cached k i = some c → db.lookup i = some c

/-- What a session holds is related to the committed row, stale or not. -/
def Tracks (R : ρ → ρ → Prop) (db : AList fun _ : κ => ρ) (S : Sessions ω κ ρ) : Prop :=
  ∀ ⦃k i c⦄, S.cached k i = some c → ∃ d, db.lookup i = some d ∧ R c d

theorem Coherent.empty (db : AList fun _ : κ => ρ) : Coherent db (.empty : Sessions ω κ ρ) :=
  fun _ _ _ _ h => by cases h

theorem Tracks.empty (R : ρ → ρ → Prop) (db : AList fun _ : κ => ρ) :
    Tracks R db (.empty : Sessions ω κ ρ) :=
  fun _ _ _ h => by cases h

theorem Coherent.select (h : Coherent db S) (hk : S.stale k i = false) : S.select db k i = db.lookup i := by
  unfold Sessions.select
  split
  · next c hc => exact (h hk hc).symm
  · rfl

theorem Tracks.select {R : ρ → ρ → Prop} (hrefl : ∀ a, R a a) (h : Tracks R db S) {c : ρ}
    (hc : S.select db k i = some c) : ∃ d, db.lookup i = some d ∧ R c d := by
  unfold Sessions.select at hc
  split at hc
  · next hk => exact h (hk.trans hc)
  · exact ⟨c, hc, hrefl c⟩

/-- Writing a row as it is changes no lookup. -/
theorem lookup_insert_same (h : db.lookup i = some x) (j : κ) : (db.insert i x).lookup j = db.lookup j := by
  by_cases hj : j = i
  · subst hj; rw [AList.lookup_insert, h]
  · exact AList.lookup_insert_ne hj

theorem Coherent.same {db' : AList fun _ : κ => ρ} (h : Coherent db S)
    (hdb : ∀ j, db'.lookup j = db.lookup j) : Coherent db' S :=
  fun _ i _ hs hc => (hdb i).trans (h hs hc)

theorem Coherent.outdate (h : Coherent db S) : Coherent (db.insert i x) (S.outdate i) := by
  intro k' i' c hs hc
  obtain ⟨hi, hs⟩ : i' ≠ i ∧ S.stale k' i' = false := by simpa [Sessions.outdate] using hs
  rw [AList.lookup_insert_ne hi]
  exact h hs hc

/-- A commit that keeps the relation of what is held to the row. -/
theorem Tracks.insert {R : ρ → ρ → Prop} (htrans : ∀ a b c, R a b → R b c → R a c) (h : Tracks R db S)
    (hx : ∀ d, db.lookup i = some d → R d x) : Tracks R (db.insert i x) S := by
  intro k' i' c hc
  obtain ⟨d, hd, hr⟩ := h hc
  by_cases hi : i' = i
  · subst hi
    exact ⟨x, AList.lookup_insert db, htrans _ _ _ hr (hx d hd)⟩
  · exact ⟨d, (AList.lookup_insert_ne hi).trans hd, hr⟩

variable [DecidableEq ω]

theorem load_cached {k' : ω} {i' : κ} {c : ρ} (hc : (S.load db k i).cached k' i' = some c) :
    S.cached k' i' = some c ∧ (S.load db k i).stale k' i' = S.stale k' i' ∨
      i' = i ∧ db.lookup i = some c := by
  unfold Sessions.load at hc ⊢
  split at hc
  · exact .inl ⟨hc, rfl⟩
  · by_cases hki : k' = k ∧ i' = i
    · exact .inr ⟨hki.2, by simpa only [hki, and_self, if_true] using hc⟩
    · simp only [hki, if_false] at hc ⊢
      exact .inl ⟨hc, trivial⟩

theorem Coherent.load (h : Coherent db S) : Coherent db (S.load db k i) := by
  intro k' i' c hs hc
  rcases load_cached hc with ⟨hc, heq⟩ | ⟨rfl, hc⟩
  · exact h (heq ▸ hs) hc
  · exact hc

theorem Tracks.load {R : ρ → ρ → Prop} (hrefl : ∀ a, R a a) (h : Tracks R db S) :
    Tracks R db (S.load db k i) := by
  intro k' i' c hc
  rcases load_cached hc with ⟨hc, _⟩ | ⟨rfl, hc⟩
  · exact h hc
  · exact ⟨c, hc, hrefl c⟩

theorem Coherent.refresh (h : Coherent db S) : Coherent (db.insert i x) (S.refresh k i x) := by
  intro k' i' c hs hc
  simp only [Sessions.refresh] at hs hc
  by_cases hi : i' = i
  · subst hi
    obtain rfl : k' = k := by simpa using hs
    rw [AList.lookup_insert]
    simpa using hc
  · rw [AList.lookup_insert_ne hi]
    exact h (by simpa [hi] using hs) (by simpa [hi] using hc)

theorem Tracks.refresh {R : ρ → ρ → Prop} (hrefl : ∀ a, R a a) (h : Tracks R (db.insert i x) S) :
    Tracks R (db.insert i x) (S.refresh k i x) := by
  intro k' i' c hc
  simp only [Sessions.refresh] at hc
  by_cases hki : k' = k ∧ i' = i
  · simp only [hki, and_self, if_true] at hc
    obtain rfl := Option.some.inj hc
    exact ⟨x, by rw [hki.2]; exact AList.lookup_insert db, hrefl x⟩
  · simp only [hki, if_false] at hc
    exact h hc

theorem Coherent.evict (h : Coherent db S) : Coherent db (S.evict k i) := by
  intro k' i' c hs hc
  by_cases hki : k' = k ∧ i' = i
  · simp [Sessions.evict, hki] at hc
  · simp only [Sessions.evict, hki, if_false] at hs hc
    exact h hs hc

theorem Tracks.evict {R : ρ → ρ → Prop} (h : Tracks R db S) : Tracks R db (S.evict k i) := by
  intro k' i' c hc
  simp only [Sessions.evict] at hc
  split at hc
  · cases hc
  · exact h hc

theorem Coherent.close (h : Coherent db S) : Coherent db (S.close k) := by
  intro k' i' c hs hc
  by_cases hk : k' = k
  · simp [Sessions.close, hk] at hc
  · simp only [Sessions.close, hk, if_false] at hs hc
    exact h hs hc

theorem Tracks.close {R : ρ → ρ → Prop} (h : Tracks R db S) : Tracks R db (S.close k) := by
  intro k' i' c hc
  simp only [Sessions.close] at hc
  split at hc
  · cases hc
  · exact h hc

variable [DecidableEq ρ] {F : Flush ρ} {f : ρ → ρ × α} {missing : α}

theorem Coherent.transact (h : Coherent db S) :
    Coherent (transactIn F f missing db S k i).1 (transactIn F f missing db S k i).2.1 := by
  unfold transactIn
  split
  · next c d _ hd =>
    by_cases hn : (f c).1 = c
    · simp only [hn, if_true, F.unchanged]
      exact h.load.same (lookup_insert_same hd)
    · simp only [hn, if_false]
      exact h.refresh
  · exact h

theorem Tracks.transact {R : ρ → ρ → Prop} (hrefl : ∀ a, R a a) (htrans : ∀ a b c, R a b → R b c → R a c)
    (hf : ∀ c d, S.select db k i = some c → db.lookup i = some d → R c d → R d (F.overlay c (f c).1 d))
    (h : Tracks R db S) :
    Tracks R (transactIn F f missing db S k i).1 (transactIn F f missing db S k i).2.1 := by
  unfold transactIn
  split
  · next c d hc hd =>
    obtain ⟨d', hd', hr⟩ := h.select hrefl hc
    obtain rfl := Option.some.inj (hd.symm.trans hd')
    have hins {S' : Sessions ω κ ρ} (h' : Tracks R db S') :
        Tracks R (db.insert i (F.overlay c (f c).1 d)) S' :=
      h'.insert htrans fun d' hd' => Option.some.inj (hd.symm.trans hd') ▸ hf c d hc hd hr
    dsimp only
    by_cases hn : (f c).1 = c
    · rw [if_pos hn]
      exact hins (h.load hrefl)
    · rw [if_neg hn]
      exact (hins h).refresh hrefl
  · exact h

/-- A transaction on an object that is not stale is the one on the committed row. -/
theorem transactIn_current (F : Flush ρ) (f : ρ → ρ × α) (missing : α) (h : Coherent db S) (hk : S.stale k i = false) :
    (transactIn F f missing db S k i).1 = (transactOn f missing db i).1 ∧
    (transactIn F f missing db S k i).2.2 = (transactOn f missing db i).2 := by
  unfold transactIn transactOn
  rw [h.select hk]
  cases hd : db.lookup i with
  | none => exact ⟨rfl, rfl⟩
  | some d => exact ⟨by simp only [F.current], rfl⟩

end

end Framework
