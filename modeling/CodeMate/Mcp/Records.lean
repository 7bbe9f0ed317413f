import CodeMate.Framework.Run
import CodeMate.Mcp.Approval
import Mathlib.Data.List.MinMax

/-!
# Approvals are decided once and closed once

The rows of approvals under the sessions of the API and of the workers: they
are requested, decided, expired, claimed for a resume, finished, marked for
reconciliation and reopened, in any order (`approvals`). A session decides on
the object it holds, also where it locks the row, and `finish` asks nothing.

`approvals_kept`: in runs in which no resume finishes an approval that is
completed, and no stale object is written over a row that is decided or closed
(`Careful`), a decision and a completed result stay as they are, and only
`prepare_resume_target` reopens a failed approval. `approvals_not_kept` has runs
without that: the resumed graph raises after `finish`, and two sessions decide
that both read the row while it was pending.
-/

namespace CodeMate.Mcp

open Framework

/-! ## The rows and their sessions -/

/-- Where a session stands in `resume_from_approval`. -/
inductive ResumePhase
  | idle
  | resuming (id : String)
  /-- The approval is finished, and the graph runs. -/
  | invoking (id : String)

/-- The approval that the session resumes. -/
def ResumePhase.approval : ResumePhase → Option String
  | .idle => none
  | .resuming id | .invoking id => some id

structure Approvals (ω : Type*) where
  db : AList fun _ : String => MCPToolApproval
  sessions : Sessions ω String MCPToolApproval
  phase : ω → ResumePhase
  /-- There is an execution of the approval. -/
  prepared : String → Bool

inductive ApprovalEvent (ω : Type*)
  | request (k : ω) (id runId : String) (call : Call) (checkpoint : Json) (now : Nat)
  | get (k : ω) (id : String)
  | decide (k : ω) (id : String) (verdict : Verdict) (now : Nat)
  | expire (k : ω) (id : String) (now : Nat)
  | claim (k : ω) (id : String) (now : Nat)
  | prepare (k : ω)
  | finish (k : ω) (result : Json) (failed : Bool) (now : Nat)
  /-- An exception leaves `_resolve_approval` or the graph. -/
  | raised (k : ω) (error : String) (now : Nat)
  | reconciliation (k : ω) (errorMessage : Option String) (now : Nat)
  | ended (k : ω)
  | markWaiting (k : ω) (id : String) (errorMessage : Option String) (now : Nat)
  | prepareResumeTarget (k : ω) (id : String) (now : Nat)
  /-- A rollback expires the objects of the session. -/
  | rollback (k : ω)
  /-- An object that is no longer used is collected. -/
  | collect (k : ω) (id : String)
  | close (k : ω)

section Step

variable {ω : Type*} [DecidableEq ω] (s : ApprovalSettings) (codec : Codec)

namespace Approvals

variable (w : Approvals ω)

def goto (k : ω) (phase : ResumePhase) : Approvals ω := { w with phase := Function.update w.phase k phase }

/-- A transaction of the session `k` on the row `id`. -/
def transact (k : ω) (id : String) (t : Transaction) (now : Nat) : Approvals ω :=
  let (db, sessions, _) :=
    transactIn flush (fun a => (Mcp.transact s codec now t a, ())) () w.db w.sessions k id
  { w with db, sessions }

/-- The latest approval of the run that is active. -/
def active (runId : String) : Option String :=
  ((w.db.entries.filter fun e => e.2.runId = runId ∧ e.2.status.active).argmax
    fun e => e.2.requestedAt).map Sigma.fst

/-- `create_pending`. -/
def createPending (k : ω) (id runId : String) (call : Call) (checkpoint : Json) (now : Nat) :
    Option (Approvals ω) :=
  if !s.mcpApprovalEnabled then some w
  else match w.active runId with
    | some existing => some { w with sessions := w.sessions.load w.db k existing }
    | none =>
      if id ∈ w.db then none
      else match newApproval s codec id runId call checkpoint now with
        | .ok a => some { w with db := w.db.insert id a, sessions := w.sessions.refresh k id a }
        | .error _ => some w

/-- `claim_for_resume` by a job, which goes on if it gets the approval. -/
def claim (k : ω) (id : String) (now : Nat) : Approvals ω :=
  let claimed := (w.sessions.select w.db k id).any fun a => (claimForResume s now a).2
  let w := w.transact s codec k id .claimForResume now
  if claimed then w.goto k (.resuming id) else w

/-- The result that the exception path of a resume stores. -/
def raisedResult (error : String) : Json := .obj [("ok", .bool false), ("error", .str error)]

def step : ApprovalEvent ω → Option (Approvals ω)
  | .request k id runId call checkpoint now => w.createPending s codec k id runId call checkpoint now
  | .get k id => some { w with sessions := w.sessions.load w.db k id }
  | .decide k id verdict now =>
    match w.phase k with
    | .idle => some (w.transact s codec k id (.decide verdict) now)
    | _ => none
  | .expire k id now =>
    match w.phase k with
    | .idle => some (w.transact s codec k id .expire now)
    | _ => none
  | .claim k id now =>
    match w.phase k with
    | .idle => some (w.claim s codec k id now)
    | _ => none
  | .prepare k =>
    match w.phase k with
    | .resuming id =>
      if (w.sessions.select w.db k id).any fun a => a.decision == some .approved then
        some { w with prepared := Function.update w.prepared id true }
      else none
    | _ => none
  | .finish k result failed now =>
    match w.phase k with
    | .resuming id => some ((w.transact s codec k id (.finish result failed) now).goto k (.invoking id))
    | _ => none
  | .raised k error now =>
    (w.phase k).approval.map fun id =>
      (w.transact s codec k id (.finish (raisedResult error) true) now).goto k .idle
  | .reconciliation k errorMessage now =>
    match w.phase k with
    | .resuming id =>
      if w.prepared id then some ((w.transact s codec k id (.requireReconciliation errorMessage) now).goto k .idle)
      else none
    | _ => none
  | .ended k => (w.phase k).approval.map fun _ => w.goto k .idle
  | .markWaiting k id errorMessage now =>
    match w.phase k, w.prepared id with
    | .idle, true => some (w.transact s codec k id (.requireReconciliation errorMessage) now)
    | _, _ => none
  | .prepareResumeTarget k id now =>
    match w.phase k, w.prepared id with
    | .idle, true => some (w.transact s codec k id .prepareResumeTarget now)
    | _, _ => none
  | .rollback k => some { w with sessions := w.sessions.close k }
  | .collect k id =>
    if (w.phase k).approval = some id then none else some { w with sessions := w.sessions.evict k id }
  | .close k => some ({ w with sessions := w.sessions.close k }.goto k .idle)

end Approvals

/-- Approvals from an empty table on. -/
def approvals : System (Approvals ω) (ApprovalEvent ω) :=
  .ofStep (fun w => w.db = ∅ ∧ w.sessions = .empty ∧ (∀ k, w.phase k = .idle) ∧ ∀ id, w.prepared id = false)
    (Approvals.step s codec)

end Step

/-! ## What a transaction keeps -/

/-- A decision stays, with who took it; and what is completed stays so, with its result. -/
structure Kept (a b : MCPToolApproval) : Prop where
  decision : a.decision ≠ none →
    b.decision = a.decision ∧ b.decidedBy = a.decidedBy ∧ b.decidedProvider = a.decidedProvider
  completed : a.status = .completed → b.status = .completed ∧ b.resultJson = a.resultJson

theorem Kept.refl (a : MCPToolApproval) : Kept a a := ⟨fun _ => ⟨rfl, rfl, rfl⟩, fun h => ⟨h, rfl⟩⟩

theorem Kept.trans {a b c : MCPToolApproval} (h₁ : Kept a b) (h₂ : Kept b c) : Kept a c where
  decision h := by
    obtain ⟨hd, hby, hp⟩ := h₁.decision h
    obtain ⟨hd', hby', hp'⟩ := h₂.decision (by rw [hd]; exact h)
    exact ⟨hd'.trans hd, hby'.trans hby, hp'.trans hp⟩
  completed h := by
    obtain ⟨hs, hr⟩ := h₁.completed h
    obtain ⟨hs', hr'⟩ := h₂.completed hs
    exact ⟨hs', hr'.trans hr⟩

/-- `decide` and `expire`. -/
def Transaction.decides : Transaction → Bool
  | .decide _ | .expire => true
  | _ => false

section

variable {s : ApprovalSettings} {codec : Codec} {now : Nat}

/-- The other transactions leave the decision. -/
theorem transact_decision {t : Transaction} (h : t.decides = false) (a : MCPToolApproval) :
    (transact s codec now t a).decision = a.decision ∧ (transact s codec now t a).decidedBy = a.decidedBy ∧
      (transact s codec now t a).decidedProvider = a.decidedProvider := by
  cases t with
  | decide => simp [Transaction.decides] at h
  | expire => simp [Transaction.decides] at h
  | claimForResume => dsimp only [transact, claimForResume]; split <;> exact ⟨rfl, rfl, rfl⟩
  | finish => exact ⟨rfl, rfl, rfl⟩
  | requireReconciliation => dsimp only [transact, requireReconciliation]; split <;> exact ⟨rfl, rfl, rfl⟩
  | prepareResumeTarget => dsimp only [transact, prepareResumeTarget]; split <;> exact ⟨rfl, rfl, rfl⟩

/-- `decide` and `expire` change a pending row only. -/
theorem transact_of_not_pending {t : Transaction} (h : t.decides = true) {a : MCPToolApproval}
    (ha : a.status ≠ .pending) : transact s codec now t a = a := by
  cases t with
  | decide verdict =>
    dsimp only [transact, Mcp.decide]
    split <;> rfl
  | expire => simp [transact, Mcp.expire, ha]
  | _ => simp [Transaction.decides] at h

/-- On a row that is closed, a transaction other than `finish` does nothing,
but for `prepare_resume_target` on a failed one. -/
theorem transact_of_closed {t : Transaction} (ht : ∀ result failed, t ≠ .finish result failed)
    {a : MCPToolApproval} (ha : a.status = .completed ∨ a.status = .failed ∧ t ≠ .prepareResumeTarget) :
    transact s codec now t a = a := by
  have hclosed : a.status = .completed ∨ a.status = .failed := ha.imp_right And.left
  cases t with
  | decide verdict => exact transact_of_not_pending rfl (by rcases hclosed with h | h <;> simp [h])
  | expire => exact transact_of_not_pending rfl (by rcases hclosed with h | h <;> simp [h])
  | claimForResume => rcases hclosed with h | h <;> simp [transact, claimForResume, h]
  | finish result failed => exact absurd rfl (ht result failed)
  | requireReconciliation => simp [transact, requireReconciliation, hclosed]
  | prepareResumeTarget =>
    rcases ha with h | ⟨-, hne⟩
    · simp [transact, prepareResumeTarget, h]
    · exact absurd rfl hne

/-- A row is pending after a transaction only where the transaction did nothing. -/
theorem transact_pending {t : Transaction} {a : MCPToolApproval} (h : (transact s codec now t a).status = .pending) :
    transact s codec now t a = a := by
  cases t with
  | decide verdict =>
    by_cases ha : a.status = .pending
    · dsimp only [transact, Mcp.decide] at h ⊢
      split at h
      · next hversion => rw [if_pos hversion]
      · split at h
        · next hstatus => exact absurd ha hstatus
        · simp at h
    · exact transact_of_not_pending rfl ha
  | expire =>
    dsimp only [transact, Mcp.expire] at h ⊢
    split at h
    · next hnot => rw [if_pos hnot]
    · simp at h
  | claimForResume =>
    dsimp only [transact, claimForResume] at h ⊢
    split at h
    · simp at h
    · next hnot => rw [if_neg hnot]
  | finish result failed => cases failed <;> simp [transact, Mcp.finish] at h
  | requireReconciliation errorMessage =>
    dsimp only [transact, requireReconciliation] at h ⊢
    split at h
    · next hclosed => rw [if_pos hclosed]
    · simp at h
  | prepareResumeTarget =>
    dsimp only [transact, prepareResumeTarget] at h ⊢
    split at h
    · simp at h
    · next hnot => rw [if_neg hnot]

/-- The object `c` is the row `d`, or `t` does not change it, or the row is still
open, and undecided if `t` decides. -/
def Open (s : ApprovalSettings) (codec : Codec) (now : Nat) (c d : MCPToolApproval) (t : Transaction) : Prop :=
  c = d ∨ transact s codec now t c = c ∨
    d.status ≠ .completed ∧ (d.status = .failed → t = .prepareResumeTarget) ∧ (t.decides = true → d.decision = none)

/-- The transaction on the object `c` may be written over the row `d`: a resume
that finishes does not find the row completed, nor failed where it succeeded. -/
def Writes (s : ApprovalSettings) (codec : Codec) (now : Nat) (c d : MCPToolApproval) : Transaction → Prop
  | .finish _ failed => d.status ≠ .completed ∧ (d.status = .failed → failed = true)
  | t => Open s codec now c d t

instance (t : Transaction) : Decidable (t = .prepareResumeTarget) :=
  match t with
  | .prepareResumeTarget => isTrue rfl
  | .decide _ | .expire | .claimForResume | .finish .. | .requireReconciliation _ => isFalse fun h => by cases h

instance (s : ApprovalSettings) (codec : Codec) (now : Nat) (c d : MCPToolApproval) (t : Transaction) :
    Decidable (Open s codec now c d t) :=
  inferInstanceAs (Decidable (c = d ∨ transact s codec now t c = c ∨ d.status ≠ .completed ∧
    (d.status = .failed → t = .prepareResumeTarget) ∧ (t.decides = true → d.decision = none)))

instance (s : ApprovalSettings) (codec : Codec) (now : Nat) (c d : MCPToolApproval) :
    DecidablePred (Writes s codec now c d)
  | .finish _ failed => inferInstanceAs (Decidable (d.status ≠ .completed ∧ (d.status = .failed → failed = true)))
  | .decide verdict => inferInstanceAs (Decidable (Open s codec now c d (.decide verdict)))
  | .expire => inferInstanceAs (Decidable (Open s codec now c d .expire))
  | .claimForResume => inferInstanceAs (Decidable (Open s codec now c d .claimForResume))
  | .requireReconciliation error => inferInstanceAs (Decidable (Open s codec now c d (.requireReconciliation error)))
  | .prepareResumeTarget => inferInstanceAs (Decidable (Open s codec now c d .prepareResumeTarget))

/-- What a flush keeps of the committed row. -/
structure Flushed (t : Transaction) (d x : MCPToolApproval) : Prop where
  kept : Kept d x
  reopened : d.status = .failed → x.status ≠ .failed → t = .prepareResumeTarget
  pending : x.status = .pending → x.decision = none

theorem Flushed.finish {c d : MCPToolApproval} {result : Json} {failed : Bool}
    (h : d.status ≠ .completed ∧ (d.status = .failed → failed = true))
    (hd : d.status = .pending → d.decision = none) :
    Flushed (.finish result failed) d (overlay c (transact s codec now (.finish result failed) c) d) := by
  have hdecision : ∀ {α : Type} [DecidableEq α] (x y : α), column x x y = y := column_unchanged
  refine ⟨⟨fun _ => ⟨hdecision _ _, hdecision _ _, hdecision _ _⟩, fun hc => absurd hc h.1⟩, fun hf hne => ?_,
    fun hp => ?_⟩
  · refine absurd ?_ hne
    show column c.status (if failed = true then ApprovalStatus.failed else .completed) d.status = .failed
    rw [if_pos (h.2 hf)]
    unfold column
    split
    · exact hf
    · rfl
  · have hp : column c.status (if failed = true then ApprovalStatus.failed else .completed) d.status = .pending := hp
    show column c.decision c.decision d.decision = none
    rw [column_unchanged]
    refine hd ?_
    by_cases hsame : (if failed = true then ApprovalStatus.failed else .completed) = c.status
    · rwa [column, if_pos hsame] at hp
    · rw [column, if_neg hsame] at hp
      cases failed <;> simp at hp

theorem Flushed.refl {t : Transaction} {d : MCPToolApproval} (hd : d.status = .pending → d.decision = none) :
    Flushed t d d := ⟨.refl d, fun hf hne => absurd hf hne, hd⟩

/-- A transaction other than `finish` on the committed row. -/
theorem Flushed.current {t : Transaction} (ht : ∀ result failed, t ≠ .finish result failed) {d : MCPToolApproval}
    (hd : d.status = .pending → d.decision = none) : Flushed t d (transact s codec now t d) := by
  refine ⟨⟨fun hdec => ?_, fun hc => ?_⟩, fun hf hne => ?_, fun hp => ?_⟩
  · by_cases hdecides : t.decides = true
    · rw [transact_of_not_pending hdecides fun hp => hdec (hd hp)]
      exact ⟨rfl, rfl, rfl⟩
    · exact transact_decision (Bool.not_eq_true _ ▸ hdecides) d
  · rw [transact_of_closed ht (.inl hc)]
    exact ⟨hc, rfl⟩
  · by_contra hprepare
    exact hne (by rw [transact_of_closed ht (.inr ⟨hf, hprepare⟩)]; exact hf)
  · have hsame := transact_pending hp
    rw [hsame] at hp ⊢
    exact hd hp

/-- A transaction on an object that is not the row, which is open. -/
theorem Flushed.stale {t : Transaction} {c d : MCPToolApproval} (hopen : d.status ≠ .completed)
    (hfailed : d.status = .failed → t = .prepareResumeTarget) (hdecides : t.decides = true → d.decision = none)
    (hd : d.status = .pending → d.decision = none) : Flushed t d (overlay c (transact s codec now t c) d) := by
  have hkeep : t.decides = false → (overlay c (transact s codec now t c) d).decision = d.decision ∧
      (overlay c (transact s codec now t c) d).decidedBy = d.decidedBy ∧
      (overlay c (transact s codec now t c) d).decidedProvider = d.decidedProvider := by
    intro hnot
    obtain ⟨hdec, hby, hprovider⟩ := @transact_decision s codec now _ hnot c
    simp only [overlay, hdec, hby, hprovider, column_unchanged, and_self]
  refine ⟨⟨fun hdec => ?_, fun hc => absurd hc hopen⟩, fun hf _ => hfailed hf, fun hp => ?_⟩
  · by_cases hdecides' : t.decides = true
    · exact absurd (hdecides hdecides') hdec
    · exact hkeep (Bool.not_eq_true _ ▸ hdecides')
  · have hp : column c.status (transact s codec now t c).status d.status = .pending := hp
    unfold column at hp
    split at hp
    · next hsame =>
      by_cases hdecides' : t.decides = true
      · have hc : transact s codec now t c = c := by
          by_cases hcp : c.status = .pending
          · exact transact_pending (hsame.trans hcp)
          · exact transact_of_not_pending hdecides' hcp
        rw [hc]
        show column c.decision c.decision d.decision = none
        rw [column_unchanged]
        exact hd hp
      · rw [(hkeep (Bool.not_eq_true _ ▸ hdecides')).1]
        exact hd hp
    · next hne => exact absurd (congrArg MCPToolApproval.status (transact_pending hp)) hne

theorem Writes.flushed {t : Transaction} {c d : MCPToolApproval} (h : Writes s codec now c d t)
    (hd : d.status = .pending → d.decision = none) : Flushed t d (overlay c (transact s codec now t c) d) := by
  have hother : (∀ result failed, t ≠ .finish result failed) → Open s codec now c d t →
      Flushed t d (overlay c (transact s codec now t c) d) := by
    rintro ht (rfl | hsame | ⟨hopen, hfailed, hdecides⟩)
    · rw [show overlay c (transact s codec now t c) c = transact s codec now t c from flush.current _ _]
      exact .current ht hd
    · rw [hsame, show overlay c c d = d from flush.unchanged _ _]
      exact .refl hd
    · exact .stale hopen hfailed hdecides hd
  cases t with
  | finish => exact .finish h hd
  | decide | expire | claimForResume | requireReconciliation | prepareResumeTarget => exact hother (by simp) h

end

/-! ## Runs -/

section Run

variable {ω : Type*} [DecidableEq ω] (s : ApprovalSettings) (codec : Codec)

/-- The transaction of a step: the session, the row, and what is done to it when. -/
def ApprovalEvent.transaction (w : Approvals ω) : ApprovalEvent ω → Option (ω × String × Transaction × Nat)
  | .decide k id verdict now => some (k, id, .decide verdict, now)
  | .expire k id now => some (k, id, .expire, now)
  | .claim k id now => some (k, id, .claimForResume, now)
  | .finish k result failed now => (w.phase k).approval.map fun id => (k, id, .finish result failed, now)
  | .raised k error now =>
    (w.phase k).approval.map fun id => (k, id, .finish (Approvals.raisedResult error) true, now)
  | .reconciliation k errorMessage now =>
    (w.phase k).approval.map fun id => (k, id, .requireReconciliation errorMessage, now)
  | .markWaiting k id errorMessage now => some (k, id, .requireReconciliation errorMessage, now)
  | .prepareResumeTarget k id now => some (k, id, .prepareResumeTarget, now)
  | _ => none

/-- The step finishes no completed approval, and writes no stale object over a
row that is decided or closed. -/
def Careful (w : Approvals ω) (e : ApprovalEvent ω) : Prop :=
  ∀ x ∈ e.transaction w, ∀ c ∈ w.sessions.select w.db x.1 x.2.1, ∀ d ∈ w.db.lookup x.2.1,
    Writes s codec x.2.2.2 c d x.2.2.1

instance (w : Approvals ω) : DecidablePred (Careful s codec w) := fun e =>
  inferInstanceAs (Decidable (∀ x ∈ e.transaction w, ∀ c ∈ w.sessions.select w.db x.1 x.2.1,
    ∀ d ∈ w.db.lookup x.2.1, Writes s codec x.2.2.2 c d x.2.2.1))

variable {s codec} {w w' : Approvals ω}

theorem transact_db (k : ω) (id : String) (t : Transaction) (now : Nat) :
    (w.transact s codec k id t now).db = w.db ∨ ∃ c d, w.sessions.select w.db k id = some c ∧
      w.db.lookup id = some d ∧
      (w.transact s codec k id t now).db = w.db.insert id (overlay c (transact s codec now t c) d) := by
  have hdb : (w.transact s codec k id t now).db =
      (transactIn flush (fun a => (transact s codec now t a, ())) () w.db w.sessions k id).1 := rfl
  rw [hdb]
  unfold transactIn
  split
  · next c d hc hd => exact .inr ⟨c, d, hc, hd, rfl⟩
  · exact .inl rfl

/-- What a step does to the table. -/
theorem step_db {e : ApprovalEvent ω} (h : w.step s codec e = some w') : w'.db = w.db ∨
    (∃ id runId call checkpoint now a, id ∉ w.db ∧ newApproval s codec id runId call checkpoint now = .ok a ∧
      w'.db = w.db.insert id a) ∨
    ∃ k id t now, e.transaction w = some (k, id, t, now) ∧ w'.db = (w.transact s codec k id t now).db := by
  cases e with
  | request k id runId call checkpoint now =>
    dsimp only [Approvals.step, Approvals.createPending] at h
    split at h
    · obtain rfl := Option.some.inj h
      exact .inl rfl
    split at h
    · obtain rfl := Option.some.inj h
      exact .inl rfl
    split at h
    · cases h
    next hid =>
    split at h
    · next a ha =>
      obtain rfl := Option.some.inj h
      exact .inr (.inl ⟨id, runId, call, checkpoint, now, a, hid, ha, rfl⟩)
    · obtain rfl := Option.some.inj h
      exact .inl rfl
  | get | rollback | close =>
    obtain rfl := Option.some.inj h
    exact .inl rfl
  | decide | expire =>
    dsimp only [Approvals.step] at h
    split at h
    · obtain rfl := Option.some.inj h
      exact .inr (.inr ⟨_, _, _, _, rfl, rfl⟩)
    · cases h
  | claim k id now =>
    dsimp only [Approvals.step] at h
    split at h
    · obtain rfl := Option.some.inj h
      refine .inr (.inr ⟨_, _, _, _, rfl, ?_⟩)
      dsimp only [Approvals.claim]
      split <;> rfl
    · cases h
  | prepare k =>
    dsimp only [Approvals.step] at h
    split at h
    · split at h
      · obtain rfl := Option.some.inj h
        exact .inl rfl
      · cases h
    · cases h
  | finish k result failed now =>
    dsimp only [Approvals.step] at h
    split at h
    · next id hk =>
      obtain rfl := Option.some.inj h
      exact .inr (.inr ⟨k, id, .finish result failed, now,
        by simp [ApprovalEvent.transaction, hk, ResumePhase.approval], rfl⟩)
    · cases h
  | raised k error now =>
    obtain ⟨id, hid, rfl⟩ := Option.map_eq_some_iff.mp h
    exact .inr (.inr ⟨_, _, _, _, Option.map_eq_some_iff.mpr ⟨id, hid, rfl⟩, rfl⟩)
  | reconciliation k errorMessage now =>
    dsimp only [Approvals.step] at h
    split at h
    · next id hk =>
      split at h
      · obtain rfl := Option.some.inj h
        exact .inr (.inr ⟨k, id, .requireReconciliation errorMessage, now,
          by simp [ApprovalEvent.transaction, hk, ResumePhase.approval], rfl⟩)
      · cases h
    · cases h
  | ended k =>
    obtain ⟨id, -, rfl⟩ := Option.map_eq_some_iff.mp h
    exact .inl rfl
  | markWaiting | prepareResumeTarget =>
    dsimp only [Approvals.step] at h
    split at h
    · obtain rfl := Option.some.inj h
      exact .inr (.inr ⟨_, _, _, _, rfl, rfl⟩)
    · cases h
  | collect k id =>
    dsimp only [Approvals.step] at h
    split at h
    · cases h
    · obtain rfl := Option.some.inj h
      exact .inl rfl

/-- The step that reopens an approval is that of an execution of its own. -/
theorem transaction_reopens {e : ApprovalEvent ω} (h : w.step s codec e = some w') {k : ω} {id : String} {now : Nat}
    (ht : e.transaction w = some (k, id, .prepareResumeTarget, now)) :
    w.prepared id = true ∧ ∃ k now, e = .prepareResumeTarget k id now := by
  cases e with
  | prepareResumeTarget k' id' now' =>
    obtain ⟨-, rfl, -⟩ : k' = k ∧ id' = id ∧ now' = now := by simpa [ApprovalEvent.transaction] using ht
    dsimp only [Approvals.step] at h
    split at h
    · next hprepared => exact ⟨hprepared, _, _, rfl⟩
    · cases h
  | _ => simp [ApprovalEvent.transaction] at ht

/-- A pending row has no decision. -/
def Undecided (w : Approvals ω) : Prop :=
  ∀ id a, w.db.lookup id = some a → a.status = .pending → a.decision = none

theorem newApproval_undecided {id runId : String} {call : Call} {checkpoint : Json} {now : Nat} {a : MCPToolApproval}
    (h : newApproval s codec id runId call checkpoint now = .ok a) : a.decision = none := by
  unfold newApproval at h
  dsimp only at h
  split at h
  · cases h
  split at h
  · cases h
  · rw [← Except.ok.inj h]

/-- What a careful step does to a row. -/
theorem step_row {e : ApprovalEvent ω} (h : Undecided w) (he : Careful s codec w e)
    (hs : w.step s codec e = some w') : Undecided w' ∧ ∀ id a, w.db.lookup id = some a →
      ∃ b, w'.db.lookup id = some b ∧ Kept a b ∧ (a.status = .failed → b.status ≠ .failed →
        ∃ k now, e.transaction w = some (k, id, .prepareResumeTarget, now)) := by
  have hsame : ∀ db : AList fun _ : String => MCPToolApproval, db = w.db → (∀ id a, db.lookup id = some a →
      a.status = .pending → a.decision = none) ∧ ∀ id a, w.db.lookup id = some a → ∃ b, db.lookup id = some b ∧
      Kept a b ∧ (a.status = .failed → b.status ≠ .failed →
        ∃ k now, e.transaction w = some (k, id, .prepareResumeTarget, now)) := by
    rintro _ rfl
    exact ⟨h, fun id a ha => ⟨a, ha, .refl a, fun hf hne => absurd hf hne⟩⟩
  rcases step_db hs with hdb | ⟨id, runId, call, checkpoint, now, a, hid, ha, hdb⟩ | ⟨k, id, t, now, ht, hdb⟩
  · exact hsame _ hdb
  · have hne : ∀ id' b, w.db.lookup id' = some b → id' ≠ id := by
      rintro id' b hb rfl
      exact hid (AList.lookup_isSome.mp (by rw [hb]; rfl))
    refine ⟨fun id' b hb hpending => ?_, fun id' b hb => ⟨b, ?_, .refl b, fun hf hnot => absurd hf hnot⟩⟩
    · rw [hdb] at hb
      by_cases hid' : id' = id
      · subst hid'
        obtain rfl := Option.some.inj ((AList.lookup_insert w.db).symm.trans hb)
        exact newApproval_undecided ha
      · rw [AList.lookup_insert_ne hid'] at hb
        exact h id' b hb hpending
    · rw [hdb, AList.lookup_insert_ne (hne id' b hb)]
      exact hb
  · rcases @transact_db _ _ s codec w k id t now with hnone | ⟨c, d, hc, hd, hrow⟩
    · exact hsame _ (hdb.trans hnone)
    · have hwrites : Writes s codec now c d t := he _ ht c hc d hd
      have hflushed := hwrites.flushed (h id d hd)
      rw [hrow] at hdb
      refine ⟨fun id' b hb hpending => ?_, fun id' b hb => ?_⟩
      · rw [hdb] at hb
        by_cases hid' : id' = id
        · subst hid'
          obtain rfl := Option.some.inj ((AList.lookup_insert w.db).symm.trans hb)
          exact hflushed.pending hpending
        · rw [AList.lookup_insert_ne hid'] at hb
          exact h id' b hb hpending
      · rw [hdb]
        by_cases hid' : id' = id
        · subst hid'
          obtain rfl := Option.some.inj (hd.symm.trans hb)
          refine ⟨_, AList.lookup_insert w.db, hflushed.kept, fun hf hne => ⟨k, now, ?_⟩⟩
          rw [ht, hflushed.reopened hf hne]
        · exact ⟨b, (AList.lookup_insert_ne hid').trans hb, .refl b, fun hf hnot => absurd hf hnot⟩

/-- In runs of careful steps a decision stays as it was taken, with who took it,
a completed approval stays completed, with its result, and a failed one is
reopened only by `prepare_resume_target` for an execution of its own. -/
theorem approvals_kept (s : ApprovalSettings) (codec : Codec) {es : List (ApprovalEvent ω)}
    (h : ((approvals s codec).only (Careful s codec)).Reachable w)
    (hr : ((approvals s codec).only (Careful s codec)).Run w es w') :
    (∀ id a, w.db.lookup id = some a → ∃ b, w'.db.lookup id = some b ∧ Kept a b) ∧
    ∀ e w'', Careful s codec w' e → w'.step s codec e = some w'' → ∀ id a b, w'.db.lookup id = some a →
      w''.db.lookup id = some b → a.status = .failed → b.status ≠ .failed →
      w'.prepared id = true ∧ ∃ k now, e = .prepareResumeTarget k id now := by
  have hstep : ∀ (w : Approvals ω) (e : ApprovalEvent ω) (t : Approvals ω), Undecided w →
      ((approvals s codec).only (Careful s codec)).step w e t → Undecided t :=
    fun w e t hw he => (step_row hw he.1 he.2).1
  have hstart : Undecided w := by
    obtain ⟨w₀, es₀, ⟨hdb, -⟩, hr₀⟩ := h
    refine hr₀.inv hstep fun id a ha => ?_
    rw [hdb] at ha
    cases ha
  refine ⟨?_, fun e w'' he hs id a b ha hb hf hne => ?_⟩
  · refine hr.rel (R := fun w w' => ∀ id a, w.db.lookup id = some a → ∃ b, w'.db.lookup id = some b ∧ Kept a b)
      hstep (fun w id a ha => ⟨a, ha, .refl a⟩) (fun w₁ w₂ w₃ h₁ h₂ id a ha => ?_)
      (fun w e t hw he id a ha => ?_) hstart
    · obtain ⟨b, hb, hab⟩ := h₁ id a ha
      obtain ⟨c, hc, hbc⟩ := h₂ id b hb
      exact ⟨c, hc, hab.trans hbc⟩
    · obtain ⟨b, hb, hab, -⟩ := (step_row hw he.1 he.2).2 id a ha
      exact ⟨b, hb, hab⟩
  · obtain ⟨b', hb', -, hreopened⟩ := (step_row (hr.inv hstep hstart) he hs).2 id a ha
    obtain rfl := Option.some.inj (hb.symm.trans hb')
    obtain ⟨k, now, ht⟩ := hreopened hf hne
    exact transaction_reopens hs ht

end Run

namespace Records

def settings : ApprovalSettings := ⟨true, 3600, 300, 1000⟩

def codec : Codec := ⟨fun _ => "", fun _ => "", id, fun _ => ""⟩

/-- No approval yet; `true` is a session of the API, `false` one of a worker. -/
def start : Approvals Bool := ⟨∅, .empty, fun _ => .idle, fun _ => false⟩

def requested : List (ApprovalEvent Bool) :=
  [.request false "a" "run" ⟨"ops.deploy", "ops", "deploy", .obj []⟩ (.obj []) 0]

/-- A decision of the API. -/
def approve : List (ApprovalEvent Bool) := [.decide true "a" ⟨true, none, "alice", "github", 1⟩ 5]

/-- A resume, up to its result. -/
def resumed : List (ApprovalEvent Bool) :=
  [.close false, .claim false "a" 6, .prepare false, .finish false (.obj [("ok", .bool true)]) false 7]

/-- The graph raises after that. -/
def failing : List (ApprovalEvent Bool) := [.raised false "error" 8]

/-- Two sessions of the API read the pending row. -/
def seen : List (ApprovalEvent Bool) := [.close false, .get true "a", .get false "a"]

/-- The other one decides too. -/
def reject : List (ApprovalEvent Bool) := [.decide false "a" ⟨false, none, "bob", "github", 1⟩ 6]

/-- Where such a run leads, if all its steps are careful. -/
def play (es : List (ApprovalEvent Bool)) (w : Approvals Bool) : Option (Approvals Bool) :=
  es.foldlM (fun w e => if Careful settings codec w e then w.step settings codec e else none) w

/-- What is compared of the row. -/
def row (w : Approvals Bool) : Option (ApprovalStatus × Option Decision × Option String × Option Json) :=
  (w.db.lookup "a").map fun a => (a.status, a.decision, a.decidedBy, a.resultJson)

end Records

theorem approvals_kept_sample : ∃ w w',
    Records.play (Records.requested ++ Records.approve) Records.start = some w ∧
    Records.play Records.resumed w = some w' ∧
    Records.row w = some (.queued, some .approved, some "alice", none) ∧
    Records.row w' = some (.completed, some .approved, some "alice", some (.obj [("ok", .bool true)])) ∧
    ∀ id a, w.db.lookup id = some a → ∃ b, w'.db.lookup id = some b ∧ Kept a b := by
  have hruns : ((Records.play (Records.requested ++ Records.approve) Records.start).bind fun w =>
      (Records.play Records.resumed w).map fun w' => (Records.row w, Records.row w')) =
      some (some (.queued, some .approved, some "alice", none),
        some (.completed, some .approved, some "alice", some (.obj [("ok", .bool true)]))) := rfl
  obtain ⟨w, hw, hrest⟩ := Option.bind_eq_some_iff.mp hruns
  obtain ⟨w', hw', hrows⟩ := Option.map_eq_some_iff.mp hrest
  obtain ⟨hrow, hrow'⟩ := Prod.mk.inj hrows
  have hdecided : ((approvals Records.settings Records.codec).only (Careful Records.settings Records.codec)).Run
      Records.start (Records.requested ++ Records.approve) w := .only_of_foldlM hw
  have hresumed : ((approvals Records.settings Records.codec).only (Careful Records.settings Records.codec)).Run
      w Records.resumed w' := .only_of_foldlM hw'
  refine ⟨w, w', hw, hw', hrow, hrow', ?_⟩
  exact (approvals_kept Records.settings Records.codec
    ⟨Records.start, _, ⟨rfl, rfl, fun _ => rfl, fun _ => rfl⟩, hdecided⟩ hresumed).1

/-- A completed approval fails when the graph raises after `finish`; and a
second session decides an approval that it read before the first decided. -/
theorem approvals_not_kept :
    (¬ ∀ (w w' : Approvals Bool) (es : List (ApprovalEvent Bool)),
      (approvals Records.settings Records.codec).Reachable w →
      (approvals Records.settings Records.codec).Run w es w' →
      ∀ id a, w.db.lookup id = some a → a.status = .completed →
        ∃ b, w'.db.lookup id = some b ∧ b.status = .completed ∧ b.resultJson = a.resultJson) ∧
    ¬ ∀ (w w' : Approvals Bool) (es : List (ApprovalEvent Bool)),
      (approvals Records.settings Records.codec).Reachable w →
      (approvals Records.settings Records.codec).Run w es w' →
      ∀ id a, w.db.lookup id = some a → a.decision ≠ none →
        ∃ b, w'.db.lookup id = some b ∧ b.decision = a.decision ∧ b.decidedBy = a.decidedBy := by
  refine ⟨fun h => ?_, fun h => ?_⟩
  · obtain ⟨b, hb, hstatus, -⟩ := h _ _ Records.failing
      ⟨Records.start, Records.requested ++ Records.approve ++ Records.resumed, ⟨rfl, rfl, fun _ => rfl, fun _ => rfl⟩,
        .of_foldlM rfl⟩ (.of_foldlM rfl) "a" _ rfl rfl
    obtain rfl := Option.some.inj hb
    cases hstatus
  · obtain ⟨b, hb, hdecision, -⟩ := h _ _ Records.reject
      ⟨Records.start, Records.requested ++ Records.seen ++ Records.approve, ⟨rfl, rfl, fun _ => rfl, fun _ => rfl⟩,
        .of_foldlM rfl⟩ (.of_foldlM rfl) "a" _ rfl (by decide)
    obtain rfl := Option.some.inj hb
    cases hdecision

end CodeMate.Mcp
