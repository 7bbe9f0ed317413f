import CodeMate.Framework.Run
import CodeMate.GitHub.Repair

/-!
# Decisions on a draft pull request

Reviewers decide on one repair, the worker and other requests bring in the
result of its run, each in a session of its own (`World.step`). Nothing locks
the row: a session commits a decision on the status that it read before, and a
result that it read while the repair was being fixed goes over whatever was
decided since. Where the status that a decision is based on is still recorded
when it is committed, and no repair is put back to wait after a decision
(`Current`), the draft is started once at most, and never after a rejection
(`draft_once`). Two reviewers are enough for a second one (`draft_twice`).
-/

namespace CodeMate.GitHub

open Framework Agent

/-! ## Sessions -/

/-- Where a session stands. `held` is its object of the repair, with the values
that it read. -/
inductive Phase
  | idle
  | loaded (held : GitHubAppRepair) (d : Decision)
  | synced (d : Decision)
  | checked (held : GitHubAppRepair) (d : Decision)
  /-- An approval is committed. -/
  | approved
  | pushing (held : GitHubAppRepair) (draft : Draft)
  | creating (held : GitHubAppRepair) (request : PullRequest)
  /-- The sequence has ended, with the object that is to be written. -/
  | ending (held n : GitHubAppRepair)
  /-- The worker has read the repair after the run. -/
  | selected (held : GitHubAppRepair)
  /-- The route that starts repairs has one that is being fixed. -/
  | starting (held : GitHubAppRepair)

/-- What has happened to a repair: its decisions, the start of a push with its
pull request, and the pull requests that exist. -/
inductive Entry
  | rejected
  | approved
  | started
  | created (request : PullRequest)
deriving DecidableEq

def Entry.isCreated : Entry → Bool
  | .created _ => true
  | .rejected | .approved | .started => false

structure World (ω : Type*) where
  row : GitHubAppRepair
  phase : ω → Phase
  /-- The last entry first. -/
  log : List Entry

/-- A step of the session `k`; what is read of a run or a repository comes with the event.
A pull request may be `made` also when its call fails. -/
inductive Event (ω : Type*)
  | load (k : ω) (d : Decision)
  | sync (k : ω) (run : Option AgentRun)
  | check (k : ω)
  | decide (k : ω) (now : Nat)
  | start (k : ω) (repository : Option Repository) (run : Option AgentRun)
  | push (k : ω) (error : Option String)
  | create (k : ω) (made : Bool) (reply : Except String (Int × Option String))
  | finish (k : ω)
  | select (k : ω)
  | syncSelected (k : ω) (run : Option AgentRun)
  | begin (k : ω)
  | enqueueFailed (k : ω) (reason : String)
  | leave (k : ω)

section

variable {ω : Type*} [DecidableEq ω] (lib : Library)

namespace World

variable (w : World ω)

def goto (k : ω) (phase : Phase) : World ω := { w with phase := Function.update w.phase k phase }

/-- A commit of the object `n`, which was read as `held`. -/
def write (held n : GitHubAppRepair) : World ω := { w with row := held.overlay n w.row }

def note (e : Entry) : World ω := { w with log := e :: w.log }

/-- `sync_agent_result` on an object. -/
def writeResult (held : GitHubAppRepair) (run : Option AgentRun) : World ω :=
  match syncAgentResult held run with
  | none => w
  | some n => w.write held n

end World

def step (w : World ω) : Event ω → Option (World ω)
  | .load k d =>
    match w.phase k with
    | .idle => some (w.goto k (.loaded w.row d))
    | _ => none
  | .sync k run =>
    match w.phase k with
    | .loaded held d => some ((w.writeResult held run).goto k (.synced d))
    | _ => none
  | .check k =>
    match w.phase k with
    | .synced d =>
      -- One that has its draft is returned, any other is a conflict.
      if w.row.status = .waitingApproval then some (w.goto k (.checked w.row d)) else some (w.goto k .idle)
    | _ => none
  | .decide k now =>
    match w.phase k with
    | .checked held d =>
      let w := w.write held (decided held d now)
      if d.approved then some ((w.note .approved).goto k .approved) else some ((w.note .rejected).goto k .idle)
    | _ => none
  | .start k repository run =>
    match w.phase k with
    | .approved =>
      match prepareDraft lib w.row repository run with
      | .error message => some (w.goto k (.ending w.row (draftFailed w.row message)))
      | .ok draft => some ((w.note .started).goto k (.pushing w.row draft))
    | _ => none
  | .push k error =>
    match w.phase k with
    | .pushing held draft =>
      match error with
      | some message => some (w.goto k (.ending held (draftFailed held message)))
      | none => some (w.goto k (.creating held draft.request))
    | _ => none
  | .create k made reply =>
    match w.phase k with
    | .creating held request =>
      let w := if made then w.note (.created request) else w
      match reply with
      | .error message => some (w.goto k (.ending held (draftFailed held message)))
      | .ok (number, url) =>
        if made then some (w.goto k (.ending held (draftCreated held request.branchName number url))) else none
    | _ => none
  | .finish k =>
    match w.phase k with
    | .ending held n => some ((w.write held n).goto k .idle)
    | _ => none
  | .select k =>
    match w.phase k with
    | .idle => some (w.goto k (.selected w.row))
    | _ => none
  | .syncSelected k run =>
    match w.phase k with
    | .selected held => some ((w.writeResult held run).goto k .idle)
    | _ => none
  | .begin k =>
    match w.phase k with
    | .idle => if w.row.status = .fixing then some (w.goto k (.starting w.row)) else none
    | _ => none
  | .enqueueFailed k reason =>
    match w.phase k with
    | .starting held => some ((w.write held (markEnqueueFailed held reason)).goto k .idle)
    | _ => none
  | .leave k => some (w.goto k .idle)

/-- A repair that was just started, in whatever sessions. -/
structure Started (w : World ω) : Prop where
  status : w.row.status = .fixing
  undecided : w.row.approvedBy = none
  idle : ∀ k, w.phase k = .idle
  log : w.log = []

def decisions : System (World ω) (Event ω) := .ofStep Started (step lib)

/-- A result that lets a repair wait is not written over a decision. -/
def ResultCurrent (row held : GitHubAppRepair) (run : Option AgentRun) : Prop :=
  ∀ n ∈ syncAgentResult held run, n.status = .waitingApproval → row.approvedBy = none

/-- What a session does where it stands is based on the row as it is. -/
def PhaseCurrent (row : GitHubAppRepair) (run : Option AgentRun) : Phase → Prop
  | .loaded held _ | .selected held => ResultCurrent row held run
  | .checked .. => row.status = .waitingApproval
  | .idle | .synced _ | .approved | .pushing .. | .creating .. | .ending .. | .starting _ => True

def Current (w : World ω) : Event ω → Prop
  | .sync k run | .syncSelected k run => PhaseCurrent w.row run (w.phase k)
  | .decide k _ => PhaseCurrent w.row none (w.phase k)
  | .load .. | .check _ | .start .. | .push .. | .create .. | .finish _ | .select _ | .begin _
  | .enqueueFailed .. | .leave _ => True

instance (row held : GitHubAppRepair) (run : Option AgentRun) : Decidable (ResultCurrent row held run) :=
  inferInstanceAs (Decidable (∀ n ∈ syncAgentResult held run, _ → _))

instance (row : GitHubAppRepair) (run : Option AgentRun) : (phase : Phase) → Decidable (PhaseCurrent row run phase)
  | .loaded held _ => inferInstanceAs (Decidable (ResultCurrent row held run))
  | .selected held => inferInstanceAs (Decidable (ResultCurrent row held run))
  | .checked .. => inferInstanceAs (Decidable (row.status = .waitingApproval))
  | .idle | .synced _ | .approved | .pushing .. | .creating .. | .ending .. | .starting _ => isTrue trivial

instance (w : World ω) : (e : Event ω) → Decidable (Current w e)
  | .sync k run => inferInstanceAs (Decidable (PhaseCurrent w.row run (w.phase k)))
  | .syncSelected k run => inferInstanceAs (Decidable (PhaseCurrent w.row run (w.phase k)))
  | .decide k _ => inferInstanceAs (Decidable (PhaseCurrent w.row none (w.phase k)))
  | .load .. | .check _ | .start .. | .push .. | .create .. | .finish _ | .select _ | .begin _
  | .enqueueFailed .. | .leave _ => isTrue trivial

/-- The sequence of a push and its pull request is started once at most, there
is one pull request at most, and none for a repair that was rejected. -/
structure DraftOnce (w : World ω) : Prop where
  started : w.log.count .started ≤ 1
  created : w.log.countP Entry.isCreated ≤ 1
  rejected : w.row.status = .rejected ∨ .rejected ∈ w.log → w.log.countP Entry.isCreated = 0

end

/-! ## What the steps keep -/

/-- Whether a session goes on after an approval that it has committed. -/
def Phase.afterApproval : Phase → Bool
  | .approved | .pushing .. | .creating .. | .ending .. => true
  | .idle | .loaded .. | .synced _ | .checked .. | .selected _ | .starting _ => false

/-- What has happened by the time that a session stands there. -/
def Phase.Fits (log : List Entry) : Phase → Prop
  | .checked held _ => held.status = .waitingApproval ∧ held.approvedBy = none
  | .approved => log = [.approved]
  | .pushing .. | .creating .. => log = [.started, .approved]
  | .ending held n => log ≠ [] ∧ .rejected ∉ log ∧ n.approvedBy = held.approvedBy ∧
      (n.status = .draftPrCreated ∨ n.status = .failed)
  | .idle | .loaded .. | .synced _ | .selected _ | .starting _ => True

/-- The histories of a repair with one decision. -/
def Single (log : List Entry) : Prop :=
  log = [] ∨ log = [.rejected] ∨ log = [.approved] ∨ log = [.started, .approved] ∨
    ∃ request, log = [.created request, .started, .approved]

structure Orderly {ω : Type*} (w : World ω) : Prop where
  single : Single w.log
  /-- A repair has a reviewer from its decision on, and one that is being fixed or waits has no decision. -/
  undecided : w.row.approvedBy = none ↔ w.log = []
  waiting : w.row.status = .fixing ∨ w.row.status = .waitingApproval → w.log = []
  rejected : w.row.status = .rejected → w.log = [.rejected]
  fits : ∀ k, (w.phase k).Fits w.log
  alone : ∀ k j, (w.phase k).afterApproval = true → (w.phase j).afterApproval = true → k = j

section

variable {ω : Type*} [DecidableEq ω] {lib : Library} {w w' : World ω} {k : ω} {log log' : List Entry}

theorem Phase.Fits.ne_nil {phase : Phase} (h : phase.Fits log) (ha : phase.afterApproval = true) : log ≠ [] := by
  cases phase with
  | approved => rw [show log = _ from h]; exact List.cons_ne_nil _ _
  | pushing held draft => rw [show log = _ from h]; exact List.cons_ne_nil _ _
  | creating held request => rw [show log = _ from h]; exact List.cons_ne_nil _ _
  | ending held n => exact h.1
  | idle => exact absurd ha (by decide)
  | loaded held d => exact absurd (show false = true from ha) (by decide)
  | synced d => exact absurd (show false = true from ha) (by decide)
  | checked held d => exact absurd (show false = true from ha) (by decide)
  | selected held => exact absurd (show false = true from ha) (by decide)
  | starting held => exact absurd (show false = true from ha) (by decide)

/-- Before an approval a session does not depend on what has happened. -/
theorem Phase.Fits.before {phase : Phase} (h : phase.Fits log) (ha : phase.afterApproval = false) :
    phase.Fits log' := by
  cases phase with
  | checked held d => exact h
  | approved => exact absurd ha (by decide)
  | pushing held draft => exact absurd (show true = false from ha) (by decide)
  | creating held request => exact absurd (show true = false from ha) (by decide)
  | ending held n => exact absurd (show true = false from ha) (by decide)
  | idle => trivial
  | loaded held d => trivial
  | synced d => trivial
  | selected held => trivial
  | starting held => trivial

omit [DecidableEq ω] in
/-- Once something has happened the repair is decided, and neither waits nor is being fixed. -/
theorem Orderly.settled (h : Orderly w) (hlog : w.log ≠ []) : w.row.approvedBy ≠ none ∧
    ¬ (w.row.status = .fixing ∨ w.row.status = .waitingApproval) :=
  ⟨fun hnone => hlog (h.undecided.mp hnone), fun hw => hlog (h.waiting hw)⟩

omit [DecidableEq ω] in
/-- A commit that carries no decision and does not put a decided repair back. -/
theorem Orderly.write (h : Orderly w) {held n : GitHubAppRepair} (happroved : n.approvedBy = held.approvedBy)
    (hstatus : n.status = .fixFailed ∨ n.status = .failed ∨ n.status = .draftPrCreated ∨
      n.status = .waitingApproval ∧ w.row.approvedBy = none) : Orderly (w.write held n) := by
  have hrow : (held.overlay n w.row).approvedBy = w.row.approvedBy := by
    show column held.approvedBy n.approvedBy w.row.approvedBy = _
    rw [happroved, column_unchanged]
  have hcolumn : (held.overlay n w.row).status = w.row.status ∨ (held.overlay n w.row).status = n.status := by
    show column held.status n.status w.row.status = _ ∨ column held.status n.status w.row.status = _
    rw [column]
    split
    · exact .inl rfl
    · exact .inr rfl
  refine ⟨h.single, hrow.symm ▸ h.undecided, fun hw => ?_, fun hr => ?_, h.fits, h.alone⟩
  · have hw : (held.overlay n w.row).status = .fixing ∨ (held.overlay n w.row).status = .waitingApproval := hw
    rcases hcolumn with hold | hnew
    · rw [hold] at hw
      exact h.waiting hw
    · rw [hnew] at hw
      rcases hstatus with hs | hs | hs | ⟨-, hnone⟩
      · rw [hs] at hw
        exact absurd hw (by decide)
      · rw [hs] at hw
        exact absurd hw (by decide)
      · rw [hs] at hw
        exact absurd hw (by decide)
      · exact h.undecided.mp hnone
  · have hr : (held.overlay n w.row).status = .rejected := hr
    rcases hcolumn with hold | hnew
    · exact h.rejected (hold ▸ hr)
    · rw [hnew] at hr
      rcases hstatus with hs | hs | hs | ⟨hs, -⟩ <;> exact absurd (hs.symm.trans hr) (by decide)

theorem goto_self (w : World ω) (k : ω) (phase : Phase) : (w.goto k phase).phase k = phase :=
  Function.update_self ..

theorem goto_ne {j : ω} (h : j ≠ k) (phase : Phase) : (w.goto k phase).phase j = w.phase j :=
  Function.update_of_ne h ..

/-- A session moves on, after an approval only if it was after one. -/
theorem Orderly.goto (h : Orderly w) {phase : Phase} (hfits : phase.Fits w.log)
    (hafter : phase.afterApproval = true → (w.phase k).afterApproval = true) : Orderly (w.goto k phase) := by
  have hphase : ∀ j, ((w.goto k phase).phase j).afterApproval = true → (w.phase j).afterApproval = true := by
    intro j hj
    by_cases hjk : j = k
    · subst hjk
      rw [goto_self] at hj
      exact hafter hj
    · rwa [goto_ne hjk] at hj
  refine ⟨h.single, h.undecided, h.waiting, h.rejected, fun j => ?_, fun i j hi hj =>
    h.alone i j (hphase i hi) (hphase j hj)⟩
  show ((w.goto k phase).phase j).Fits w.log
  by_cases hjk : j = k
  · rw [hjk, goto_self]
    exact hfits
  · rw [goto_ne hjk]
    exact h.fits j

/-- The one session after the approval notes what it does. -/
theorem Orderly.note (h : Orderly w) {e : Entry} {phase : Phase} (hk : (w.phase k).afterApproval = true)
    (hrejected : .rejected ∉ w.log) (hsingle : Single (e :: w.log)) (hfits : phase.Fits (e :: w.log))
    (hafter : phase.afterApproval = true) : Orderly ((w.note e).goto k phase) := by
  obtain ⟨hdecided, hwaiting⟩ := h.settled ((h.fits k).ne_nil hk)
  have hothers : ∀ j, j ≠ k → (w.phase j).afterApproval = false := by
    intro j hjk
    by_contra hj
    exact hjk (h.alone j k (by simpa using hj) hk)
  refine ⟨hsingle, iff_of_false hdecided (List.cons_ne_nil _ _), fun hw => absurd hw hwaiting, fun hr => ?_, fun j => ?_,
    fun i j hi hj => ?_⟩
  · have hmem : Entry.rejected ∈ w.log := by
      rw [h.rejected hr]
      exact List.mem_singleton_self _
    exact absurd hmem hrejected
  · show (((w.note e).goto k phase).phase j).Fits (e :: w.log)
    by_cases hjk : j = k
    · rw [hjk, goto_self]
      exact hfits
    · rw [goto_ne hjk]
      exact (h.fits j).before (hothers j hjk)
  · have hself : ∀ j, (((w.note e).goto k phase).phase j).afterApproval = true → j = k := by
      intro j hj
      by_contra hjk
      rw [goto_ne hjk] at hj
      exact absurd (hj.symm.trans (hothers j hjk)) (by decide)
    rw [hself i hi, hself j hj]

/-- The first thing that happens to a repair. -/
theorem Orderly.first (h : Orderly w) (hlog : w.log = []) {row : GitHubAppRepair} {e : Entry} {phase : Phase}
    (hreviewer : row.approvedBy ≠ none) (hwaiting : ¬ (row.status = .fixing ∨ row.status = .waitingApproval))
    (hrejected : row.status = .rejected → e = .rejected) (hsingle : Single [e]) (hfits : phase.Fits [e]) :
    Orderly ((World.note { w with row } e).goto k phase) := by
  -- Nobody is after an approval, as nothing has happened.
  have hbefore : ∀ j, (w.phase j).afterApproval = false := by
    intro j
    by_contra hj
    exact (h.fits j).ne_nil (by simpa using hj) hlog
  have hself : ∀ j, (((World.note { w with row } e).goto k phase).phase j).afterApproval = true → j = k := by
    intro j hj
    by_contra hjk
    rw [goto_ne hjk] at hj
    exact absurd (hj.symm.trans (hbefore j)) (by decide)
  refine ⟨?_, iff_of_false hreviewer (List.cons_ne_nil _ _), fun hw => absurd hw hwaiting, fun hr => ?_,
    fun j => ?_, fun i j hi hj => by rw [hself i hi, hself j hj]⟩
  · show Single (e :: w.log)
    rw [hlog]
    exact hsingle
  · show e :: w.log = _
    rw [hlog, hrejected hr]
  · show (((World.note { w with row } e).goto k phase).phase j).Fits (e :: w.log)
    by_cases hjk : j = k
    · rw [hjk, goto_self, hlog]
      exact hfits
    · rw [goto_ne hjk]
      exact (h.fits j).before (hbefore j)

/-- A decision on a repair that still waits is the first one. -/
theorem Orderly.decide (h : Orderly w) {held : GitHubAppRepair} {d : Decision} (now : Nat)
    (hphase : w.phase k = .checked held d) (hwaiting : w.row.status = .waitingApproval) :
    Orderly (if d.approved then ((w.write held (decided held d now)).note .approved).goto k .approved
      else ((w.write held (decided held d now)).note .rejected).goto k .idle) := by
  have hlog : w.log = [] := h.waiting (.inr hwaiting)
  obtain ⟨hstatus, hnone⟩ : held.status = .waitingApproval ∧ held.approvedBy = none := by
    have hfits := h.fits k
    rw [hphase] at hfits
    exact hfits
  have hreviewer : (held.overlay (decided held d now) w.row).approvedBy = some d.approver := by
    show column held.approvedBy (some d.approver) w.row.approvedBy = _
    rw [hnone, column, if_neg nofun]
  have hnew : (held.overlay (decided held d now) w.row).status = if d.approved then .creatingDraft else .rejected := by
    show column held.status (if d.approved then .creatingDraft else .rejected) w.row.status = _
    rw [hstatus, column]
    split <;> rfl
  have hsome : (held.overlay (decided held d now) w.row).approvedBy ≠ none := by
    rw [hreviewer]
    exact Option.some_ne_none _
  split
  · next happroved =>
    rw [if_pos happroved] at hnew
    refine h.first hlog hsome ?_ (fun hr => ?_) (.inr (.inr (.inl rfl))) rfl
    · rw [hnew]
      decide
    · exact absurd (hnew.symm.trans hr) (by decide)
  · next hno =>
    rw [if_neg hno] at hnew
    refine h.first hlog hsome ?_ (fun _ => rfl) (.inr (.inl rfl)) trivial
    rw [hnew]
    decide

/-- `sync_agent_result` on a row that it may be written over. -/
theorem Orderly.writeResult (h : Orderly w) {held : GitHubAppRepair} {run : Option AgentRun}
    (hc : ResultCurrent w.row held run) : Orderly (w.writeResult held run) := by
  rw [World.writeResult]
  split
  · exact h
  · next n hn =>
    obtain ⟨-, happroved, hstatus⟩ := syncAgentResult_some hn
    refine h.write happroved ?_
    rcases hstatus with hw | hf | hf
    · exact .inr (.inr (.inr ⟨hw, hc n hn hw⟩))
    · exact .inl hf
    · exact .inr (.inl hf)

theorem Orderly.step {e : Event ω} (h : Orderly w) (hc : Current w e) (hs : step lib w e = some w') : Orderly w' := by
  cases e with
  | load k d =>
    rw [GitHub.step] at hs
    split at hs
    · obtain rfl := Option.some.inj hs
      exact h.goto trivial fun ha => absurd (show false = true from ha) (by decide)
    · exact absurd hs nofun
  | sync k run =>
    have hc : PhaseCurrent w.row run (w.phase k) := hc
    rw [GitHub.step] at hs
    split at hs
    · next held d hphase =>
      rw [hphase] at hc
      obtain rfl := Option.some.inj hs
      exact (h.writeResult hc).goto trivial fun ha => absurd (show false = true from ha) (by decide)
    · exact absurd hs nofun
  | check k =>
    rw [GitHub.step] at hs
    split at hs
    · split at hs
      · next hwaiting =>
        obtain rfl := Option.some.inj hs
        exact h.goto ⟨hwaiting, h.undecided.mpr (h.waiting (.inr hwaiting))⟩ fun ha =>
          absurd (show false = true from ha) (by decide)
      · obtain rfl := Option.some.inj hs
        exact h.goto trivial fun ha => absurd (show false = true from ha) (by decide)
    · exact absurd hs nofun
  | decide k now =>
    have hc : PhaseCurrent w.row none (w.phase k) := hc
    rw [GitHub.step] at hs
    split at hs
    · next held d hphase =>
      rw [hphase] at hc
      have hnext := h.decide now hphase hc
      dsimp only at hs
      split at hs
      · next happroved =>
        obtain rfl := Option.some.inj hs
        rwa [if_pos happroved] at hnext
      · next hno =>
        obtain rfl := Option.some.inj hs
        rwa [if_neg hno] at hnext
    · exact absurd hs nofun
  | start k repository run =>
    have hfits := h.fits k
    rw [GitHub.step] at hs
    split at hs
    · next hphase =>
      rw [hphase] at hfits
      have hlog : w.log = [.approved] := hfits
      have hafter : (w.phase k).afterApproval = true := by rw [hphase]; rfl
      split at hs
      · obtain rfl := Option.some.inj hs
        refine h.goto ⟨?_, ?_, rfl, .inr rfl⟩ fun _ => hafter
        · rw [hlog]
          exact List.cons_ne_nil _ _
        · rw [hlog]
          decide
      · obtain rfl := Option.some.inj hs
        refine h.note hafter ?_ ?_ ?_ rfl
        · rw [hlog]
          decide
        · rw [hlog]
          exact .inr (.inr (.inr (.inl rfl)))
        · show .started :: w.log = _
          rw [hlog]
    · exact absurd hs nofun
  | push k error =>
    have hfits := h.fits k
    rw [GitHub.step] at hs
    split at hs
    · next held request hphase =>
      rw [hphase] at hfits
      have hlog : w.log = [.started, .approved] := hfits
      have hafter : (w.phase k).afterApproval = true := by rw [hphase]; rfl
      split at hs
      · obtain rfl := Option.some.inj hs
        refine h.goto ⟨?_, ?_, rfl, .inr rfl⟩ fun _ => hafter
        · rw [hlog]
          exact List.cons_ne_nil _ _
        · rw [hlog]
          decide
      · obtain rfl := Option.some.inj hs
        exact h.goto hlog fun _ => hafter
    · exact absurd hs nofun
  | create k made reply =>
    have hfits := h.fits k
    rw [GitHub.step] at hs
    split at hs
    · next held request hphase =>
      rw [hphase] at hfits
      have hlog : w.log = [.started, .approved] := hfits
      have hafter : (w.phase k).afterApproval = true := by rw [hphase]; rfl
      have hend : ∀ n : GitHubAppRepair, n.approvedBy = held.approvedBy → n.status = .draftPrCreated ∨ n.status = .failed →
          Orderly ((if made then w.note (.created request) else w).goto k (.ending held n)) := by
        intro n happroved hstatus
        split
        · refine h.note hafter ?_ ?_ ⟨List.cons_ne_nil _ _, ?_, happroved, hstatus⟩ rfl
          · rw [hlog]
            decide
          · rw [hlog]
            exact .inr (.inr (.inr (.inr ⟨request, rfl⟩)))
          · rw [hlog]
            simp
        · refine h.goto ⟨?_, ?_, happroved, hstatus⟩ fun _ => hafter
          · rw [hlog]
            exact List.cons_ne_nil _ _
          · rw [hlog]
            decide
      dsimp only at hs
      split at hs
      · obtain rfl := Option.some.inj hs
        exact hend (draftFailed held _) rfl (.inr rfl)
      · next number url =>
        split at hs
        · next hmade =>
          obtain rfl := Option.some.inj hs
          have hdone := hend (draftCreated held request.branchName number url) rfl (.inl rfl)
          rwa [if_pos hmade] at hdone
        · exact absurd hs nofun
    · exact absurd hs nofun
  | finish k =>
    have hfits := h.fits k
    rw [GitHub.step] at hs
    split at hs
    · next held n hphase =>
      rw [hphase] at hfits
      obtain ⟨-, -, happroved, hstatus⟩ := hfits
      obtain rfl := Option.some.inj hs
      refine (h.write happroved ?_).goto trivial fun ha => absurd (show false = true from ha) (by decide)
      rcases hstatus with hs | hs
      · exact .inr (.inr (.inl hs))
      · exact .inr (.inl hs)
    · exact absurd hs nofun
  | select k =>
    rw [GitHub.step] at hs
    split at hs
    · obtain rfl := Option.some.inj hs
      exact h.goto trivial fun ha => absurd (show false = true from ha) (by decide)
    · exact absurd hs nofun
  | syncSelected k run =>
    have hc : PhaseCurrent w.row run (w.phase k) := hc
    rw [GitHub.step] at hs
    split at hs
    · next held hphase =>
      rw [hphase] at hc
      obtain rfl := Option.some.inj hs
      exact (h.writeResult hc).goto trivial fun ha => absurd (show false = true from ha) (by decide)
    · exact absurd hs nofun
  | begin k =>
    rw [GitHub.step] at hs
    split at hs
    · split at hs
      · obtain rfl := Option.some.inj hs
        exact h.goto trivial fun ha => absurd (show false = true from ha) (by decide)
      · exact absurd hs nofun
    · exact absurd hs nofun
  | enqueueFailed k reason =>
    rw [GitHub.step] at hs
    split at hs
    · next held hphase =>
      obtain rfl := Option.some.inj hs
      have hfailed : Orderly (w.write held (markEnqueueFailed held reason)) := h.write rfl (.inr (.inl rfl))
      exact hfailed.goto trivial fun ha => absurd (show false = true from ha) (by decide)
    · exact absurd hs nofun
  | leave k =>
    obtain rfl := Option.some.inj hs
    exact h.goto trivial fun ha => absurd (show false = true from ha) (by decide)

theorem orderly (lib : Library) : ((decisions (ω := ω) lib).only Current).Inductive Orderly where
  start {w} h := by
    refine ⟨.inl h.log, iff_of_true h.undecided h.log, fun _ => h.log, fun hr => ?_, fun k => ?_, fun k j hk => ?_⟩
    · exact absurd (h.status.symm.trans hr) (by decide)
    · rw [h.idle k]
      trivial
    · rw [h.idle k] at hk
      exact absurd hk (by decide)
  step h hs := h.step hs.1 hs.2

theorem Single.counts (h : Single log) : log.count .started ≤ 1 ∧ log.countP Entry.isCreated ≤ 1 ∧
    (.rejected ∈ log → log.countP Entry.isCreated = 0) := by
  rcases h with rfl | rfl | rfl | rfl | ⟨request, rfl⟩
  · decide
  · decide
  · decide
  · decide
  · simp [Entry.isCreated, List.countP_cons]

/-- The draft is started once at most, with one pull request at most and none
after a rejection, in a run in which every decision is committed while the
repair is still recorded to wait, and no result that lets it wait is written
after a decision. -/
theorem draft_once (hr : ((decisions lib).only Current).Reachable w) : DraftOnce w := by
  have h : Orderly w := (orderly lib).reachable hr
  obtain ⟨hstarted, hcreated, hrejected⟩ := h.single.counts
  refine ⟨hstarted, hcreated, fun hr => hrejected ?_⟩
  rcases hr with hrow | hmem
  · rw [h.rejected hrow]
    exact List.mem_singleton_self _
  · exact hmem

end

namespace Sample

def lib : Library := ⟨fun _ => (some "github.com", "/acme/app"), ""⟩

def repository : Repository := ⟨"https://github.com/acme/app", some "/repos/app"⟩

def verified : AgentRun :=
  ⟨"run-1", "repo-1", .verifiedSuccess, some "--- a/app.py", none, none, 1, none, some 1, 1⟩

def repair : GitHubAppRepair :=
  ⟨"repair-1", "repo-1", "run-1", "42", "7", none, "c0ffee", "main", .fixing, none, none, none, none, none, none, none⟩

def opened : World Nat := ⟨repair, fun _ => .idle, []⟩

theorem started : Started opened := ⟨rfl, rfl, fun _ => rfl, rfl⟩

def approve (approver : String) : Decision := ⟨approver, true, none⟩

def reject (approver : String) : Decision := ⟨approver, false, none⟩

/-- The worker brings in the verified result. -/
def synced : List (Event Nat) := [.select 0, .syncSelected 0 (some verified)]

/-- A reviewer comes up to the decision. -/
def review (k : Nat) (d : Decision) : List (Event Nat) := [.load k d, .sync k (some verified), .check k]

/-- An approved draft is pushed and created. -/
def draft (k : Nat) (number : Int) : List (Event Nat) :=
  [.start k (some repository) (some verified), .push k none, .create k true (.ok (number, none)), .finish k]

def once : List (Event Nat) := synced ++ review 1 (approve "ada") ++ [.decide 1 5] ++ draft 1 1

/-- Two reviewers approve at once. -/
def twice : List (Event Nat) :=
  synced ++ review 1 (approve "ada") ++ review 2 (approve "bob") ++ [.decide 1 5, .decide 2 5] ++ draft 1 1 ++ draft 2 2

/-- One reviewer rejects while another one is about to approve. -/
def crossed : List (Event Nat) :=
  synced ++ review 1 (approve "ada") ++ review 2 (reject "bob") ++ [.decide 2 5, .decide 1 5] ++ draft 1 1

/-- A reviewer read the repair while it was being fixed, and puts it back after another one has had it drafted. -/
def putBack : List (Event Nat) :=
  [.load 1 (approve "ada")] ++ synced ++ review 2 (approve "bob") ++ [.decide 2 5] ++ draft 2 2 ++
    [.sync 1 (some verified), .check 1, .decide 1 6] ++ draft 1 1

/-- How often a draft was started and created in a run, and whether the repair was rejected. -/
def history (es : List (Event Nat)) : Option (Nat × Nat × Bool) :=
  (es.foldlM (step lib) opened).map fun w =>
    (w.log.count .started, w.log.countP Entry.isCreated, w.log.contains .rejected)

theorem reached {es : List (Event Nat)} {n m : Nat} {b : Bool} (h : history es = some (n, m, b)) :
    ∃ w : World Nat, (decisions lib).Reachable w ∧ w.log.count .started = n ∧ w.log.countP Entry.isCreated = m ∧
      w.log.contains .rejected = b := by
  obtain ⟨w, hw, hview⟩ := Option.map_eq_some_iff.mp h
  simp only [Prod.mk.injEq] at hview
  exact ⟨w, ⟨opened, es, started, .of_foldlM hw⟩, hview⟩

/-- Two pull requests for one repair, one for a rejected repair, and two after a late result. -/
theorem draft_twice :
    (∃ w : World Nat, (decisions lib).Reachable w ∧ w.log.count .started = 2 ∧ w.log.countP Entry.isCreated = 2 ∧
      ¬ DraftOnce w) ∧
    (∃ w : World Nat, (decisions lib).Reachable w ∧ .rejected ∈ w.log ∧ w.log.countP Entry.isCreated = 1 ∧
      ¬ DraftOnce w) ∧
    ∃ w : World Nat, (decisions lib).Reachable w ∧ w.log.count .started = 2 ∧ ¬ DraftOnce w := by
  have htwice : history twice = some (2, 2, false) := by decide +kernel
  have hcrossed : history crossed = some (1, 1, true) := by decide +kernel
  have hputBack : history putBack = some (2, 2, false) := by decide +kernel
  refine ⟨?_, ?_, ?_⟩
  · obtain ⟨w, hw, hstarted, hcreated, -⟩ := reached htwice
    exact ⟨w, hw, hstarted, hcreated, fun h => absurd (hstarted ▸ h.started) (by decide)⟩
  · obtain ⟨w, hw, -, hcreated, hrejected⟩ := reached hcrossed
    have hmem : Entry.rejected ∈ w.log := by simpa using hrejected
    exact ⟨w, hw, hmem, hcreated, fun h => absurd (hcreated ▸ h.rejected (.inr hmem)) (by decide)⟩
  · obtain ⟨w, hw, hstarted, -⟩ := reached hputBack
    exact ⟨w, hw, hstarted, fun h => absurd (hstarted ▸ h.started) (by decide)⟩

theorem draft_once_sample : ∃ w : World Nat, w.log.countP Entry.isCreated = 1 ∧ DraftOnce w := by
  have hrun : (once.foldlM (fun w e => if Current w e then step lib w e else none) opened).map
      (fun w => w.log.countP Entry.isCreated) = some 1 := by decide +kernel
  obtain ⟨w, hw, hcount⟩ := Option.map_eq_some_iff.mp hrun
  exact ⟨w, hcount, draft_once ⟨opened, once, started, .only_of_foldlM hw⟩⟩

end Sample

end CodeMate.GitHub
