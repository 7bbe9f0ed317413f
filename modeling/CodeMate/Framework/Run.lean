import Mathlib.Logic.Relation

/-!
# Runs of a labelled system

A system (`System`) is a set of start states and a labelled step relation; a
run (`System.Run`) is a sequence of its steps. An invariant is proved once for
one step and holds along every run (`Run.inv`, `Inductive.reachable`); what
one step may change, a run may change (`Run.rel`), and a run that leaves a set
of states has a step that leaves it (`Run.crossing`); a system can be restricted
to the steps that meet a condition on the state before them (`System.only`);
and a step-by-step simulation carries whole runs (`Run.simulate`).
-/

namespace Framework

universe u v

/-- The states a run may start in, and the labelled steps. -/
structure System (σ : Type u) (ε : Type v) where
  start : σ → Prop
  step : σ → ε → σ → Prop

namespace System

variable {σ τ : Type*} {ε : Type*}

/-- A run from `s`; the labels are in the order of the steps. -/
inductive Run (S : System σ ε) (s : σ) : List ε → σ → Prop
  | nil : Run S s [] s
  | snoc {es : List ε} {t u : σ} {e : ε} : Run S s es t → S.step t e u → Run S s (es ++ [e]) u

/-- `t` is reached by a run from a start state. -/
def Reachable (S : System σ ε) (t : σ) : Prop := ∃ s es, S.start s ∧ S.Run s es t

/-- `I` holds at the start, and every step keeps it. -/
structure Inductive (S : System σ ε) (I : σ → Prop) : Prop where
  start {s : σ} : S.start s → I s
  step {s t : σ} {e : ε} : I s → S.step s e t → I t

/-- The steps of `S` that meet `ok` in the state before them. -/
def only (S : System σ ε) (ok : σ → ε → Prop) : System σ ε where
  start := S.start
  step s e t := ok s e ∧ S.step s e t

/-- The system of a step function, which gives `none` where an event is not possible. -/
def ofStep (start : σ → Prop) (step : σ → ε → Option σ) : System σ ε where
  start := start
  step s e t := step s e = some t

variable {S : System σ ε}

namespace Run

theorem single {s t : σ} {e : ε} (h : S.step s e t) : S.Run s [e] t := .snoc .nil h

theorem append {s t u : σ} {es fs : List ε} (h₁ : S.Run s es t) (h₂ : S.Run t fs u) :
    S.Run s (es ++ fs) u := by
  induction h₂ with
  | nil => simpa using h₁
  | snoc _ hs ih => rw [← List.append_assoc]; exact .snoc ih hs

/-- A run from its first step on. -/
theorem cons {s t u : σ} {e : ε} {es : List ε} (h₁ : S.step s e t) (h₂ : S.Run t es u) :
    S.Run s (e :: es) u := (single h₁).append h₂

/-- What every step keeps, a run keeps. -/
theorem inv {I : σ → Prop} (hstep : ∀ s e t, I s → S.step s e t → I t) {s t : σ} {es : List ε}
    (h : S.Run s es t) (hs : I s) : I t := by
  induction h with
  | nil => exact hs
  | snoc _ he ih => exact hstep _ _ _ ih he

/-- A relation between the two ends of a step that composes holds between the
two ends of a run; `I` is what the run keeps meanwhile. -/
theorem rel {I : σ → Prop} {R : σ → σ → Prop} (hI : ∀ s e t, I s → S.step s e t → I t)
    (hrefl : ∀ s, R s s) (htrans : ∀ s t u, R s t → R t u → R s u)
    (hstep : ∀ s e t, I s → S.step s e t → R s t) {s t : σ} {es : List ε}
    (h : S.Run s es t) (hs : I s) : R s t := by
  induction h with
  | nil => exact hrefl s
  | snoc h he ih => exact htrans _ _ _ ih (hstep _ _ _ (h.inv hI hs) he)

/-- A run that leaves a set of states has a step that leaves it. -/
theorem crossing {P : σ → Prop} {s t : σ} {es : List ε} (h : S.Run s es t) (hs : P s) (ht : ¬ P t) :
    ∃ es₁ e es₂ u u', es = es₁ ++ e :: es₂ ∧ S.Run s es₁ u ∧ P u ∧ S.step u e u' ∧ ¬ P u' ∧ S.Run u' es₂ t := by
  induction h with
  | nil => exact absurd hs ht
  | @snoc es u v e hr he ih =>
    by_cases hu : P u
    · exact ⟨es, e, [], u, v, rfl, hr, hu, he, ht, .nil⟩
    · obtain ⟨es₁, d, es₂, x, y, rfl, h₁, hx, hd, hy, h₂⟩ := ih hu
      exact ⟨es₁, d, es₂ ++ [e], x, y, by simp, h₁, hx, hd, hy, h₂.snoc he⟩

/-- A run of a system is a run of any other that has its steps. -/
theorem mono {T : System σ ε} (hstep : ∀ s e t, S.step s e t → T.step s e t) {s t : σ} {es : List ε}
    (h : S.Run s es t) : T.Run s es t := by
  induction h with
  | nil => exact .nil
  | snoc _ hs ih => exact .snoc ih (hstep _ _ _ hs)

theorem of_only {ok : σ → ε → Prop} {s t : σ} {es : List ε} (h : (S.only ok).Run s es t) :
    S.Run s es t := by
  induction h with
  | nil => exact .nil
  | snoc _ he ih => exact .snoc ih he.2

/-- A run under a condition is one under any condition that it implies in the states of the run. -/
theorem only_imp {ok ok' : σ → ε → Prop} {I : σ → Prop} (hI : ∀ s e t, I s → ok s e → S.step s e t → I t)
    (hok : ∀ s e, I s → ok s e → ok' s e) {s t : σ} {es : List ε} (h : (S.only ok).Run s es t) (hs : I s) :
    (S.only ok').Run s es t := by
  have hboth : (S.only ok').Run s es t ∧ I t := by
    induction h with
    | nil => exact ⟨.nil, hs⟩
    | snoc _ he ih => exact ⟨.snoc ih.1 ⟨hok _ _ ih.2 he.1, he.2⟩, hI _ _ _ ih.2 he.1 he.2⟩
  exact hboth.1

/-- The runs of a step function can be computed. -/
theorem of_foldlM {start : σ → Prop} {step : σ → ε → Option σ} {es : List ε} {s t : σ}
    (h : es.foldlM step s = some t) : (ofStep start step).Run s es t := by
  induction es generalizing s with
  | nil => obtain rfl := Option.some.inj h; exact .nil
  | cons e es ih =>
    obtain ⟨u, hu, ht⟩ := Option.bind_eq_some_iff.mp h
    exact .cons hu (ih ht)

theorem only_of_foldlM {start : σ → Prop} {step : σ → ε → Option σ} {ok : σ → ε → Prop}
    [∀ s e, Decidable (ok s e)] {es : List ε} {s t : σ}
    (h : es.foldlM (fun s e => if ok s e then step s e else none) s = some t) :
    ((ofStep start step).only ok).Run s es t := by
  induction es generalizing s with
  | nil => obtain rfl := Option.some.inj h; exact .nil
  | cons e es ih =>
    obtain ⟨u, hu, ht⟩ := Option.bind_eq_some_iff.mp h
    dsimp only at hu
    split at hu
    · next hok => exact .cons ⟨hok, hu⟩ (ih ht)
    · cases hu

/-- A run of a step function all of whose states meet a condition can be computed too. -/
theorem of_foldlM_filter {S : System σ ε} {step : σ → ε → Option σ} {p : σ → Prop} [DecidablePred p]
    (hS : ∀ s e t, step s e = some t → p t → S.step s e t) {es : List ε} {s t : σ}
    (h : es.foldlM (fun s e => (step s e).filter fun t => p t) s = some t) : S.Run s es t := by
  induction es generalizing s with
  | nil => obtain rfl := Option.some.inj h; exact .nil
  | cons e es ih =>
    obtain ⟨u, hu, ht⟩ := Option.bind_eq_some_iff.mp h
    obtain ⟨hu, hok⟩ := Option.filter_eq_some_iff.mp hu
    exact .cons (hS s e u hu (of_decide_eq_true hok)) (ih ht)

/-- A simulation: where `R` relates the states, each step of `S` is a step of
`T` under the label `f` gives, to related states, or one that `T` does not see. -/
theorem simulate {δ : Type*} {T : System τ δ} {R : σ → τ → Prop} {f : ε → Option δ}
    (hnone : ∀ s s' e t, R s t → S.step s e s' → f e = none → R s' t)
    (hsome : ∀ s s' e d t, R s t → S.step s e s' → f e = some d → ∃ t', T.step t d t' ∧ R s' t')
    {s s' : σ} {es : List ε} (h : S.Run s es s') {t : τ} (hR : R s t) :
    ∃ t', T.Run t (es.filterMap f) t' ∧ R s' t' := by
  induction h with
  | nil => exact ⟨t, .nil, hR⟩
  | @snoc es u v e _ he ih =>
    obtain ⟨t₁, hr, h₁⟩ := ih
    rw [List.filterMap_append]
    cases hf : f e with
    | none => exact ⟨t₁, by simpa [hf] using hr, hnone _ _ _ _ h₁ he hf⟩
    | some d =>
      obtain ⟨t₂, hs, h₂⟩ := hsome _ _ _ _ _ h₁ he hf
      exact ⟨t₂, by simpa [hf] using hr.snoc hs, h₂⟩

end Run

theorem Inductive.run {I : σ → Prop} (h : S.Inductive I) {s t : σ} {es : List ε}
    (hr : S.Run s es t) (hs : I s) : I t := hr.inv (fun _ _ _ => h.step) hs

theorem Inductive.reachable {I : σ → Prop} (h : S.Inductive I) {t : σ} (ht : S.Reachable t) : I t := by
  obtain ⟨s, es, hs, hr⟩ := ht
  exact h.run hr (h.start hs)

theorem Inductive.and {I J : σ → Prop} (hI : S.Inductive I) (hJ : S.Inductive J) :
    S.Inductive fun s => I s ∧ J s :=
  ⟨fun hs => ⟨hI.start hs, hJ.start hs⟩, fun h he => ⟨hI.step h.1 he, hJ.step h.2 he⟩⟩

theorem Reachable.step {s t : σ} {e : ε} (h : S.Reachable s) (he : S.step s e t) : S.Reachable t := by
  obtain ⟨s₀, es, h₀, hr⟩ := h
  exact ⟨s₀, es ++ [e], h₀, hr.snoc he⟩

theorem Reachable.start {s : σ} (h : S.start s) : S.Reachable s := ⟨s, [], h, .nil⟩

end System

end Framework
