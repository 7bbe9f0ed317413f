import CodeMate.Sandbox.SingleUse

/-!
# One attempt at a time in a workspace

The store fences the result of an attempt, but the directory of an execution is
that of all its attempts: a handler that outlives its lease removes the
workspace of the attempt that took over (`workspace_removed`). As long as an
execution is taken over only when no handler that shares its directory is under
way, a handler holds the whole archive that it extracted until it is done with
it, and what is committed was computed on it (`workspace_fenced`).
-/

namespace CodeMate.Sandbox

open Framework

namespace Handlers

variable {B : ExecutionStateStore} {plane : ExecutionPlane} {meets : String → String → Bool} {s t : Handlers B}
  {use : SingleUse B}

/-- The directories of the two executions have nothing to do with each other. -/
def Apart (meets : String → String → Bool) (id id' : String) : Prop :=
  id ≠ id' ∧ meets id id' = false ∧ meets id' id = false

theorem Apart.symm {id id' : String} (h : Apart meets id id') : Apart meets id' id := ⟨h.1.symm, h.2.2, h.2.1⟩

/-- An execution is acquired only when no handler is under way in a directory that meets its own. -/
def Uncontested (use : SingleUse B) (plane : ExecutionPlane) (meets : String → String → Bool) (s : Handlers B)
    (e : HandlerEvent) : Prop :=
  ∀ h again handler ttl read, e = .act h (.claim again) → s.handlers h = some handler →
    handler.stage = .asking ttl read → use.forgotten s.store (jti handler.claims) read s.clock →
    use.vacant s.store (asks plane handler ttl) read s.clock →
    ∀ g other, s.handlers g = some other → other.stage.underWay →
      Apart meets handler.request.executionId other.request.executionId

/-- The handlers under way are apart, and each that has extracted its archive has all of it. -/
structure Fenced (meets : String → String → Bool) (s : Handlers B) : Prop where
  apart : ∀ g h other handler, g ≠ h → s.handlers g = some other → s.handlers h = some handler →
    other.stage.underWay → handler.stage.underWay →
    Apart meets other.request.executionId handler.request.executionId
  part : ∀ h handler attempt, s.handlers h = some handler → handler.stage = .unpacking attempt →
    s.workspaces handler.request.executionId = .part h
  all : ∀ h handler, s.handlers h = some handler → handler.stage.holds →
    s.workspaces handler.request.executionId = .all h
  ran : ∀ h handler attempt response intact, s.handlers h = some handler →
    handler.stage = .ran attempt response intact → intact = true
  reporting : ∀ h handler attempt response intact read, s.handlers h = some handler →
    handler.stage = .reporting attempt response intact read → intact = true
  committed : ∀ c ∈ s.committed, c.intact = true

theorem underWay_of_holds {stage : Stage} (h : stage.holds) : stage.underWay := by
  cases stage <;> first | rfl | cases h

@[simp] theorem touch_self {id : String} {contents : Contents} : (s.touch meets id contents).workspaces id = contents :=
  if_pos rfl

theorem touch_apart {id id' : String} {contents : Contents} (h : Apart meets id id') :
    (s.touch meets id contents).workspaces id' = s.workspaces id' := by
  show (if id' = id then contents else if meets id id' then .other else s.workspaces id') = _
  rw [if_neg h.1.symm, h.2.1, if_neg Bool.false_ne_true]

theorem removeTree_apart {id id' : String} (h : Apart meets id id') :
    (s.removeTree meets id).workspaces id' = s.workspaces id' := by
  unfold removeTree
  split
  · rfl
  · exact touch_apart h

/-- A handler changes only the directories that meet its own, and none before it is under way. -/
theorem Next.frame {h : Nat} {handler : Handler} {stage stage' : Stage} {workspaces : String → Contents} {id : String}
    (hnext : Next meets s h handler stage stage' workspaces)
    (hapart : stage.underWay → Apart meets handler.request.executionId id) : workspaces id = s.workspaces id := by
  cases hnext with
  | timed | asking | ended | failed | ran | reporting => rfl
  | disturbed contents hway => exact touch_apart (hapart hway)
  | removed | cleaned => exact removeTree_apart (hapart rfl)
  | made | extracted | relocated => exact touch_apart (hapart rfl)

/-- No handler comes under way but by its claim. -/
theorem Next.underWay {h : Nat} {handler : Handler} {stage stage' : Stage} {workspaces : String → Contents}
    (hnext : Next meets s h handler stage stage' workspaces) (hway : stage'.underWay) : stage.underWay := by
  cases hnext with
  | timed | asking | ended | cleaned => cases hway
  | failed _ h => exact h
  | disturbed _ h => exact h
  | removed | made | extracted | relocated | ran | reporting => rfl

/-- A handler that goes on is apart from the others, as it was. -/
theorem Fenced.frame (hs : s.Fenced meets) {h : Nat} {handler : Handler} {stage : Stage}
    {workspaces : String → Contents} (hhandler : s.handlers h = some handler)
    (hnext : Next meets s h handler handler.stage stage workspaces) {g : Nat} {other : Handler} (hne : g ≠ h)
    (hother : s.handlers g = some other) (hway : other.stage.underWay) :
    workspaces other.request.executionId = s.workspaces other.request.executionId :=
  hnext.frame fun h' => hs.apart h g handler other hne.symm hhandler hother h' hway

theorem Fenced.next (hs : s.Fenced meets) {h : Nat} {handler : Handler} {stage : Stage}
    {workspaces : String → Contents} (hhandler : s.handlers h = some handler)
    (hnext : Next meets s h handler handler.stage stage workspaces) :
    Fenced meets { s.enter h handler stage with workspaces := workspaces } where
  apart g g' other other' hne hother hother' hway hway' := by
    obtain ⟨rfl, rfl⟩ | ⟨hg, hold⟩ := enter_handlers hother
    · obtain ⟨rfl, rfl⟩ | ⟨hg', hold'⟩ := enter_handlers hother'
      · exact absurd rfl hne
      · exact hs.apart g g' handler other' hne hhandler hold' (hnext.underWay hway) hway'
    · obtain ⟨rfl, rfl⟩ | ⟨hg', hold'⟩ := enter_handlers hother'
      · exact hs.apart g g' other handler hne hold hhandler hway (hnext.underWay hway')
      · exact hs.apart g g' other other' hne hold hold' hway hway'
  part g other attempt hother hstage := by
    obtain ⟨rfl, rfl⟩ | ⟨hg, hother⟩ := enter_handlers hother
    · have hstage : stage = .unpacking attempt := hstage
      subst hstage
      generalize hfrom : handler.stage = stage at hnext
      cases hnext with
      | made => exact touch_self
      | disturbed contents _ _ hsame =>
        rw [hsame attempt rfl]
        exact touch_self.trans (hs.part g handler attempt hhandler hfrom)
    · exact (hs.frame hhandler hnext hg hother (by rw [hstage]; rfl)).trans (hs.part g other attempt hother hstage)
  all g other hother hholds := by
    obtain ⟨rfl, rfl⟩ | ⟨hg, hother⟩ := enter_handlers hother
    · generalize hfrom : handler.stage = from' at hnext
      have hheld : from'.holds → s.workspaces handler.request.executionId = .all g := by
        intro h
        exact hs.all g handler hhandler (by rw [hfrom]; exact h)
      cases hnext with
      | timed | asking | ended | failed | removed | made | cleaned => cases hholds
      | disturbed _ _ hnot => exact absurd hholds hnot
      | extracted attempt =>
        refine touch_self.trans (if_pos ?_)
        exact hs.part g handler attempt hhandler hfrom
      | relocated attempt => exact touch_self.trans (if_pos (hheld rfl))
      | ran | reporting => exact hheld rfl
    · exact (hs.frame hhandler hnext hg hother (underWay_of_holds hholds)).trans (hs.all g other hother hholds)
  ran g other attempt response intact hother hstage := by
    obtain ⟨rfl, rfl⟩ | ⟨hg, hother⟩ := enter_handlers hother
    · have hstage : stage = .ran attempt response intact := hstage
      subst hstage
      generalize hfrom : handler.stage = from' at hnext
      cases hnext with
      | disturbed _ _ hnot => exact absurd rfl hnot
      | ran => exact decide_eq_true (hs.all g handler hhandler (by rw [hfrom]; rfl))
    · exact hs.ran g other attempt response intact hother hstage
  reporting g other attempt response intact read hother hstage := by
    obtain ⟨rfl, rfl⟩ | ⟨hg, hother⟩ := enter_handlers hother
    · have hstage : stage = .reporting attempt response intact read := hstage
      subst hstage
      generalize hfrom : handler.stage = from' at hnext
      cases hnext with
      | disturbed _ _ hnot => exact absurd rfl hnot
      | reporting => exact hs.ran g handler attempt response intact hhandler hfrom
    · exact hs.reporting g other attempt response intact read hother hstage
  committed := hs.committed

/-- A handler that enters a stage in which it holds nothing; under way it is apart from the others. -/
theorem Fenced.enter (hs : s.Fenced meets) {h : Nat} {handler : Handler} {stage : Stage}
    (hway : stage.underWay → ∀ g other, g ≠ h → s.handlers g = some other → other.stage.underWay →
      Apart meets handler.request.executionId other.request.executionId)
    (hpart : ∀ attempt, stage ≠ .unpacking attempt) (hholds : ¬ stage.holds) :
    (s.enter h handler stage).Fenced meets where
  apart g g' other other' hne hother hother' hg hg' := by
    obtain ⟨rfl, rfl⟩ | ⟨hne₁, hold⟩ := enter_handlers hother
    · obtain ⟨rfl, rfl⟩ | ⟨hne₂, hold'⟩ := enter_handlers hother'
      · exact absurd rfl hne
      · exact hway hg g' other' hne₂ hold' hg'
    · obtain ⟨rfl, rfl⟩ | ⟨hne₂, hold'⟩ := enter_handlers hother'
      · exact (hway hg' g other hne₁ hold hg).symm
      · exact hs.apart g g' other other' hne hold hold' hg hg'
  part g other attempt hother hstage := by
    obtain ⟨rfl, rfl⟩ | ⟨-, hold⟩ := enter_handlers hother
    · exact absurd hstage (hpart attempt)
    · exact hs.part g other attempt hold hstage
  all g other hother h := by
    obtain ⟨rfl, rfl⟩ | ⟨-, hold⟩ := enter_handlers hother
    · exact absurd h hholds
    · exact hs.all g other hold h
  ran g other attempt response intact hother hstage := by
    obtain ⟨rfl, rfl⟩ | ⟨-, hold⟩ := enter_handlers hother
    · have hstage : stage = .ran attempt response intact := hstage
      subst hstage
      exact absurd rfl hholds
    · exact hs.ran g other attempt response intact hold hstage
  reporting g other attempt response intact read hother hstage := by
    obtain ⟨rfl, rfl⟩ | ⟨-, hold⟩ := enter_handlers hother
    · have hstage : stage = .reporting attempt response intact read := hstage
      subst hstage
      exact absurd rfl hholds
    · exact hs.reporting g other attempt response intact read hold hstage
  committed := hs.committed

theorem Fenced.claim (hs : s.Fenced meets) {h : Nat} {handler : Handler} {ttl : Int} {read : ℚ} {again : Bool}
    (hhandler : s.handlers h = some handler) (hstage : handler.stage = .asking ttl read)
    (hfree : Uncontested use plane meets s (.act h (.claim again))) :
    (s.claim plane h handler ttl read again).Fenced meets := by
  obtain ⟨started, stage, heq, -, -, hstarted⟩ := claim_cases s plane h handler ttl read again
  have hnow : Fenced meets
      { s with store := (B.claim s.store (asks plane handler ttl) read s.clock).2, started := started } :=
    ⟨hs.apart, hs.part, hs.all, hs.ran, hs.reporting, hs.committed⟩
  rw [heq]
  dsimp only
  split
  · exact hnow
  · rcases hstarted with ⟨-, rfl, -⟩ | ⟨attempt, response, -, rfl, hanswer⟩
    · exact hnow.enter nofun nofun nofun
    · refine hnow.enter (fun _ g other _ hother hway => ?_) nofun nofun
      obtain ⟨hforgotten, hvacant⟩ := use.acquires hanswer
      exact hfree h again handler ttl read rfl hhandler hstage hforgotten hvacant g other hother hway

theorem Fenced.complete (hs : s.Fenced meets) {h : Nat} {handler : Handler} {attempt : Nat}
    {response : ExecutionResponse} {intact : Bool} {read : ℚ} {again : Bool} (hhandler : s.handlers h = some handler)
    (hstage : handler.stage = .reporting attempt response intact read) :
    (s.complete plane h handler attempt response intact read again).Fenced meets := by
  obtain ⟨committed, heq, hcommitted⟩ := complete_cases s plane h handler attempt response intact read again
  have hintact := hs.reporting h handler attempt response intact read hhandler hstage
  have hnow : Fenced meets { s with
      store := (B.complete s.store (plane.completeRequest handler.request handler.owner attempt response) read s.clock).2
      committed := committed } := by
    refine ⟨hs.apart, hs.part, hs.all, hs.ran, hs.reporting, ?_⟩
    rcases hcommitted with rfl | rfl
    · exact hs.committed
    · intro c hmem
      rcases List.mem_cons.mp hmem with rfl | hmem
      · exact hintact
      · exact hs.committed c hmem
  rw [heq]
  dsimp only
  split
  · exact hnow
  · refine hnow.enter (fun _ g other hne hother hway => ?_) nofun nofun
    exact hs.apart h g handler other hne.symm hhandler hother (by rw [hstage]; rfl) hway

theorem fenced_move {e : HandlerEvent} (hs : s.Fenced meets) (hfree : Uncontested use plane meets s e)
    (hmove : s.Move plane meets e t) : t.Fenced meets := by
  cases hmove with
  | tick => exact ⟨hs.apart, hs.part, hs.all, hs.ran, hs.reporting, hs.committed⟩
  | rejected => exact hs
  | present => exact hs.enter nofun nofun nofun
  | next _ hhandler hnext => exact hs.next hhandler hnext
  | claim again hhandler hstage => exact hs.claim hhandler hstage hfree
  | complete again hhandler hstage => exact hs.complete hhandler hstage

theorem fenced_inductive (use : SingleUse B) :
    ((handling plane meets B).only (Uncontested use plane meets)).Inductive (Fenced meets) where
  start := by
    rintro s ⟨hnone, -, hcommitted⟩
    have hnot : ∀ {h handler}, s.handlers h ≠ some handler := fun h => by cases (hnone _).symm.trans h
    refine ⟨fun _ _ _ _ _ h => absurd h hnot, fun _ _ _ h => absurd h hnot, fun _ _ h => absurd h hnot,
      fun _ _ _ _ _ h => absurd h hnot, fun _ _ _ _ _ _ h => absurd h hnot, fun c hmem => ?_⟩
    rw [hcommitted] at hmem
    cases hmem
  step := by
    rintro s t e hs ⟨hfree, hstep⟩
    exact fenced_move hs hfree (step_move hstep)

end Handlers

open Handlers in
/-- As long as no execution is acquired while a handler is under way in its directory, each handler keeps the
archive that it extracted, and what is committed was computed on it. -/
theorem workspace_fenced (backend : StateBackend) (plane : ExecutionPlane) (meets : String → String → Bool)
    {s : Handlers (buildExecutionStateStore backend)}
    (hs : ((handling plane meets _).only (Uncontested (singleUse backend) plane meets)).Reachable s) :
    (∀ h handler, s.handlers h = some handler → handler.stage.holds →
      s.workspaces handler.request.executionId = .all h) ∧ ∀ c ∈ s.committed, c.intact = true := by
  have h := (fenced_inductive (singleUse backend)).reachable hs
  exact ⟨h.all, h.committed⟩

namespace Sample

/-- A handler that has acquired its execution extracts its archive. -/
def extracts (h : Nat) : List HandlerEvent := [.act h .remove, .act h .makeDirectory, .act h .extract]

/-- A handler with its archive runs and commits a result. -/
def commits (h : Nat) : List HandlerEvent :=
  [.act h (.run ⟨true, 0, "ok", "", false, none⟩ [] "host"), .act h .report, .act h (.complete false)]

/-- The first attempt outlives its lease; the second takes over and extracts, and the first removes its workspace. -/
def takenOver : List HandlerEvent :=
  presented 0 "1" ++ extracts 0 ++ [.tick 1053] ++ presented 1 "2" ++ extracts 1 ++ [.act 0 .fail, .act 0 .cleanUp]

/-- The first attempt ends before the second takes over. -/
def followed : List HandlerEvent :=
  presented 0 "1" ++ extracts 0 ++ [.act 0 .fail, .act 0 .cleanUp, .tick 1053] ++ presented 1 "2" ++ extracts 1

def attempt (handler : Handler) : Option Nat :=
  match handler.stage with
  | .extracted attempt => some attempt
  | _ => none

end Sample

/-- The handler of an attempt that was taken over removes the workspace that the next attempt has extracted, and
the next attempt commits a result that was not computed on its archive. -/
theorem workspace_removed :
    (∃ s handler, (handling Sample.plane Sample.meets (buildExecutionStateStore .memory)).Reachable s ∧
      s.handlers 1 = some handler ∧ handler.stage.holds ∧ Sample.attempt handler = some 2 ∧
      s.workspaces Sample.executionRequest.executionId = .absent) ∧
    ∃ s, (handling Sample.plane Sample.meets (buildExecutionStateStore .memory)).Reachable s ∧
      s.committed.map (fun c => (c.request.attempt, c.intact)) = [(2, false)] := by
  refine ⟨?_, ?_⟩
  · have hrun : (Sample.takenOver.foldlM (Handlers.step Sample.plane Sample.meets) Sample.handlersStart).map
        (fun s => ((s.handlers 1).map fun handler => (handler.stage.holds, Sample.attempt handler),
          s.workspaces Sample.executionRequest.executionId)) = some (some (true, some 2), .absent) := by
      decide +kernel
    obtain ⟨s, hs, hends⟩ := Option.map_eq_some_iff.mp hrun
    obtain ⟨hhandler, habsent⟩ := Prod.mk.inj hends
    obtain ⟨handler, hhandler, hstage⟩ := Option.map_eq_some_iff.mp hhandler
    obtain ⟨hholds, hattempt⟩ := Prod.mk.inj hstage
    exact ⟨s, handler, ⟨_, _, ⟨fun _ => rfl, rfl, rfl⟩, .of_foldlM hs⟩, hhandler, hholds, hattempt, habsent⟩
  · have hrun : ((Sample.takenOver ++ Sample.commits 1).foldlM (Handlers.step Sample.plane Sample.meets)
        Sample.handlersStart).map (fun s => s.committed.map fun c => (c.request.attempt, c.intact)) =
          some [(2, false)] := by
      decide +kernel
    obtain ⟨s, hs, hends⟩ := Option.map_eq_some_iff.mp hrun
    exact ⟨s, ⟨_, _, ⟨fun _ => rfl, rfl, rfl⟩, .of_foldlM hs⟩, hends⟩

namespace Sample

/-- Only the handlers 0 and 1 take part, and a claim is made while neither is under way. -/
def inTurn {B : ExecutionStateStore} (s : Handlers B) : HandlerEvent → Bool
  | .present h _ _ _ => h < 2
  | .act _ (.claim _) => ¬ (s.handlers 0).any (·.stage.underWay) ∧ ¬ (s.handlers 1).any (·.stage.underWay)
  | _ => true

open Handlers in
theorem handlers_of_inTurn {B : ExecutionStateStore} {s t : Handlers B} {e : HandlerEvent}
    (hnone : ∀ g, 2 ≤ g → s.handlers g = none) (hturn : inTurn s e = true)
    (hstep : s.step plane meets e = some t) : ∀ g, 2 ≤ g → t.handlers g = none := by
  have henter : ∀ {s : Handlers B} {h handler stage}, (∀ g, 2 ≤ g → s.handlers g = none) → h < 2 →
      ∀ g, 2 ≤ g → (s.enter h handler stage).handlers g = none := by
    intro s h handler stage hnone hlt g hg
    show Function.update s.handlers h _ g = none
    rw [Function.update_of_ne (by omega)]
    exact hnone g hg
  have hlt : ∀ {h handler}, s.handlers h = some handler → h < 2 := by
    intro h handler hhandler
    by_contra hge
    cases (hnone h (by omega)).symm.trans hhandler
  cases step_move hstep with
  | tick | rejected => exact hnone
  | present => exact henter hnone (of_decide_eq_true hturn)
  | next _ hhandler => exact henter hnone (hlt hhandler)
  | @claim h handler ttl read again hhandler =>
    obtain ⟨started, stage, heq, -⟩ := claim_cases s plane h handler ttl read again
    rw [heq]
    dsimp only
    split
    · exact hnone
    · exact henter hnone (hlt hhandler)
  | @complete h handler attempt response intact read again hhandler =>
    obtain ⟨committed, heq, -⟩ := complete_cases s plane h handler attempt response intact read again
    rw [heq]
    dsimp only
    split
    · exact hnone
    · exact henter hnone (hlt hhandler)

open Handlers in
theorem uncontested_of_inTurn {B : ExecutionStateStore} {use : SingleUse B} {s : Handlers B} {e : HandlerEvent}
    (hnone : ∀ g, 2 ≤ g → s.handlers g = none) (hturn : inTurn s e = true) : Uncontested use plane meets s e := by
  rintro h again handler ttl read rfl - - - - g other hother hway
  simp only [inTurn, decide_eq_true_eq, Bool.not_eq_true, Option.any_eq_false] at hturn
  have hidle : ¬ other.stage.underWay := by
    obtain rfl | rfl | hge : g = 0 ∨ g = 1 ∨ 2 ≤ g := by omega
    · simpa using hturn.1 other hother
    · simpa using hturn.2 other hother
    · cases (hnone g hge).symm.trans hother
  exact absurd hway hidle

end Sample

/-- The second attempt extracts its archive after the first has ended, and commits what it computed on it. -/
theorem workspace_fenced_sample : ∃ s : Handlers (buildExecutionStateStore .memory),
    s.committed.map (fun c => c.request.attempt) = [2] ∧ ∀ c ∈ s.committed, c.intact = true := by
  have hrun : ((Sample.followed ++ Sample.commits 1).foldlM (fun s e =>
      if Sample.inTurn s e = true then Handlers.step Sample.plane Sample.meets s e else none) Sample.handlersStart).map
        (fun s => s.committed.map fun c => c.request.attempt) = some [2] := by
    decide +kernel
  obtain ⟨s, hs, hends⟩ := Option.map_eq_some_iff.mp hrun
  have hrun : ((handling Sample.plane Sample.meets (buildExecutionStateStore .memory)).only
      (Handlers.Uncontested (singleUse .memory) Sample.plane Sample.meets)).Run Sample.handlersStart
        (Sample.followed ++ Sample.commits 1) s :=
    (System.Run.only_of_foldlM hs).only_imp (fun _ _ _ => Sample.handlers_of_inTurn)
      (fun _ _ => Sample.uncontested_of_inTurn) fun _ _ => rfl
  exact ⟨s, hends, (workspace_fenced .memory Sample.plane Sample.meets ⟨_, _, ⟨fun _ => rfl, rfl, rfl⟩, hrun⟩).2⟩

end CodeMate.Sandbox
