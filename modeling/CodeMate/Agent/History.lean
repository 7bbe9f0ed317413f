import CodeMate.Agent.Graph
import Mathlib.Data.List.Nodup

/-!
# The numbers of the action history

`execute` records one action: at the end of the history, which keeps as many
entries as the settings say, under a number that is the length of that history
and one more. `recording` runs the executor with everything that it recorded
beside the state; what is kept are the latest entries, and the numbers count up
to one more than the limit and stay there (`Numbered`), so that they tell the
actions of a run apart exactly as long as no more were recorded
(`history_ordered_iff`).
-/

namespace CodeMate.Agent

open Framework

/-- The state of a run, and every entry that it recorded. -/
structure Recording where
  state : FixAgentState
  recorded : List HistoryEntry

inductive RecordingEvent
  /-- The executor handles an action. -/
  | execute (rawAction : Option Action) (now : Nat) (result : Json)
  /-- Something else happens in the run, that does not write the history. -/
  | other (next : FixAgentState)

section

variable (s : Settings) (codec : Codec)

/-- The runs of the executor, with any other steps between. -/
def recording : System Recording RecordingEvent where
  start r := r.state.actionHistory = [] ∧ r.recorded = []
  step r e t := match e with
    | .execute rawAction now result =>
      t.state = (LocalAgentExecutor.execute s codec r.state rawAction now result).1 ∧
        t.recorded = r.recorded ++ t.state.actionHistory.getLast?.toList
    | .other next => next.actionHistory = r.state.actionHistory ∧ t = ⟨next, r.recorded⟩

/-- The history keeps the latest of what was recorded, whose numbers count up to
one more than the limit. -/
structure Numbered (r : Recording) : Prop where
  kept : r.state.actionHistory = lastItems s.agentMaxActionHistory r.recorded
  numbers : r.recorded.map HistoryEntry.sequence =
    (List.range r.recorded.length).map fun k => min (k + 1) (s.agentMaxActionHistory + 1)

end

variable {s : Settings} {codec : Codec}

theorem length_lastItems {α : Type*} {limit : Nat} (hlimit : 1 ≤ limit) (items : List α) :
    (lastItems limit items).length = min items.length limit := by
  rw [lastItems, if_neg (by omega), List.length_drop]
  omega

/-- An entry is added to the kept entries as it would be to all of them. -/
theorem lastItems_concat {α : Type*} {limit : Nat} (hlimit : 1 ≤ limit) (items : List α) (item : α) :
    lastItems limit (lastItems limit items ++ [item]) = lastItems limit (items ++ [item]) := by
  rcases Nat.le_total items.length limit with hle | hlt
  · rw [lastItems_of_le hle]
  · have hlength := length_lastItems hlimit items
    simp only [lastItems, if_neg (show ¬ limit = 0 by omega), List.length_append, List.length_drop,
      List.length_singleton]
    rw [List.drop_append_of_le_length (by rw [List.length_drop]; omega), List.drop_append_of_le_length (by omega),
      List.drop_drop]
    congr 2
    omega

theorem getLast?_lastItems {α : Type*} {limit : Nat} (hlimit : 1 ≤ limit) (items : List α) (item : α) :
    (lastItems limit (items ++ [item])).getLast? = some item := by
  rw [lastItems, if_neg (by omega), List.drop_append_of_le_length (by simp; omega), List.getLast?_concat]

/-- Whatever `execute` is given, it records one entry. -/
theorem LocalAgentExecutor.execute_history (state : FixAgentState) (rawAction : Option Action) (now : Nat)
    (result : Json) :
    ∃ entry : HistoryEntry, entry.sequence = state.actionHistory.length + 1 ∧
      (execute s codec state rawAction now result).1.actionHistory =
        lastItems s.agentMaxActionHistory (state.actionHistory ++ [entry]) := by
  unfold execute
  split
  · exact ⟨_, rfl, rfl⟩
  · exact ⟨_, rfl, rfl⟩
  · exact ⟨_, rfl, rfl⟩
  split
  · exact ⟨_, rfl, rfl⟩
  split <;> exact ⟨_, rfl, rfl⟩

theorem Numbered.step (hlimit : 1 ≤ s.agentMaxActionHistory) {r t : Recording} {e : RecordingEvent}
    (h : Numbered s r) (hs : (recording s codec).step r e t) : Numbered s t := by
  cases e with
  | other next =>
    obtain ⟨hhistory, rfl⟩ := hs
    exact ⟨hhistory.trans h.kept, h.numbers⟩
  | execute rawAction now result =>
    obtain ⟨hstate, hrecorded⟩ := hs
    obtain ⟨entry, hsequence, hhistory⟩ : ∃ entry : HistoryEntry, _ ∧ (LocalAgentExecutor.execute s codec r.state
        rawAction now result).1.actionHistory = _ := LocalAgentExecutor.execute_history r.state rawAction now result
    rw [← hstate] at hhistory
    rw [hhistory, getLast?_lastItems hlimit] at hrecorded
    rw [h.kept, lastItems_concat hlimit] at hhistory
    rw [h.kept, length_lastItems hlimit] at hsequence
    refine ⟨by rw [hhistory, hrecorded]; rfl, ?_⟩
    rw [hrecorded, Option.toList_some, List.map_append, h.numbers, List.length_append, List.length_singleton,
      List.range_succ, List.map_append, List.map_singleton, List.map_singleton, hsequence]
    congr 2
    omega

theorem Numbered.run (hlimit : 1 ≤ s.agentMaxActionHistory) {r t : Recording} {es : List RecordingEvent}
    (hr : (recording s codec).start r) (h : (recording s codec).Run r es t) : Numbered s t :=
  h.inv (fun _ _ _ hn hs => hn.step hlimit hs)
    ⟨by rw [hr.1, hr.2, lastItems_of_le (Nat.zero_le _)], by rw [hr.2]; rfl⟩

/-- Counting up to a bound and staying there repeats a number once the bound was met twice. -/
theorem nodup_counted_iff (n limit : Nat) :
    ((List.range n).map fun k => min (k + 1) (limit + 1)).Nodup ↔ n ≤ limit + 1 := by
  rw [List.nodup_map_iff_inj_on List.nodup_range]
  refine ⟨fun h => ?_, fun h i hi j hj heq => ?_⟩
  · by_contra hn
    have := h limit (List.mem_range.mpr (by omega)) (limit + 1) (List.mem_range.mpr (by omega)) (by omega)
    omega
  · have := List.mem_range.mp hi
    have := List.mem_range.mp hj
    omega

theorem Numbered.increasing {r : Recording} (h : Numbered s r)
    (hlength : r.recorded.length ≤ s.agentMaxActionHistory + 1) :
    (r.state.actionHistory.map HistoryEntry.sequence).Pairwise (· < ·) := by
  have hall : (r.recorded.map HistoryEntry.sequence).Pairwise (· < ·) := by
    rw [h.numbers, List.pairwise_map]
    refine List.pairwise_lt_range.imp_of_mem fun hi hj hlt => ?_
    have := List.mem_range.mp hi
    have := List.mem_range.mp hj
    omega
  rw [h.kept, lastItems]
  split
  · exact hall
  · exact hall.sublist ((List.drop_sublist ..).map _)

/-- The history is always the latest of what was recorded. Its numbers increase
and no two actions of the run have the same one exactly as long as the run has
recorded at most one more action than the history keeps. -/
theorem history_ordered_iff (hlimit : 1 ≤ s.agentMaxActionHistory) {r t : Recording} {es : List RecordingEvent}
    (hr : (recording s codec).start r) (h : (recording s codec).Run r es t) :
    t.state.actionHistory = lastItems s.agentMaxActionHistory t.recorded ∧
      ((t.state.actionHistory.map HistoryEntry.sequence).Pairwise (· < ·) ∧
          (t.recorded.map HistoryEntry.sequence).Nodup ↔
        t.recorded.length ≤ s.agentMaxActionHistory + 1) := by
  have hn := Numbered.run hlimit hr h
  have hnodup : (t.recorded.map HistoryEntry.sequence).Nodup ↔ _ := hn.numbers ▸ nodup_counted_iff ..
  exact ⟨hn.kept, fun h => hnodup.mp h.2, fun h => ⟨hn.increasing h, hnodup.mpr h⟩⟩

/-- A history of one entry, which an invalid action is recorded in. -/
def shortSettings : Settings := { sampleSettings with agentMaxActionHistory := 1 }

/-- The recording after as many invalid actions. -/
def rejections : Nat → Recording
  | 0 => ⟨initialState shortSettings "run" "repo", []⟩
  | n + 1 =>
    let next := (LocalAgentExecutor.execute shortSettings sampleEnv.codec (rejections n).state none 0 .null).1
    ⟨next, (rejections n).recorded ++ next.actionHistory.getLast?.toList⟩

theorem rejections_run (n : Nat) : (recording shortSettings sampleEnv.codec).Run (rejections 0)
    (List.replicate n (.execute none 0 .null)) (rejections n) := by
  induction n with
  | zero => exact .nil
  | succ n ih =>
    rw [List.replicate_succ']
    exact .snoc ih ⟨rfl, rfl⟩

theorem history_ordered_two :
    (rejections 2).state.actionHistory = lastItems 1 (rejections 2).recorded ∧
      (((rejections 2).state.actionHistory.map HistoryEntry.sequence).Pairwise (· < ·) ∧
          ((rejections 2).recorded.map HistoryEntry.sequence).Nodup ↔ (rejections 2).recorded.length ≤ 2) :=
  history_ordered_iff (s := shortSettings) (by decide) ⟨rfl, rfl⟩ (rejections_run 2)

/-- The second and the third action are both number two. -/
theorem history_ordered_three :
    ¬ ∀ (s : Settings) (codec : Codec), 1 ≤ s.agentMaxActionHistory →
      ∀ (r t : Recording) (es : List RecordingEvent), (recording s codec).start r → (recording s codec).Run r es t →
        (t.state.actionHistory.map HistoryEntry.sequence).Pairwise (· < ·) ∧
          (t.recorded.map HistoryEntry.sequence).Nodup ∧
          t.state.actionHistory = lastItems s.agentMaxActionHistory t.recorded := by
  intro h
  have := (h shortSettings sampleEnv.codec (by decide) _ _ _ ⟨rfl, rfl⟩ (rejections_run 3)).2.1
  revert this
  decide

end CodeMate.Agent
