/-!
# Programs with a state that may raise

An `Effect` changes a state and returns a value or raises; what it did before it
raised stays done. `Spec P x Q E` is its specification: from a state that meets
`P` it returns `a` in a state that meets `Q a`, or raises `e` in one that meets
`E e`. The rules follow the program (`Spec.bind`, `Spec.onError`), and `Keeps I x`
is the specification of a program that keeps `I` whether it raises or not. A
program that returned is taken apart by `bind_returns`.
-/

namespace Framework

/-- A program over the states `σ` that returns an `α` or raises an `ε`. -/
def Effect (σ ε α : Type) : Type := σ → Except ε α × σ

namespace Effect

variable {σ ε α β : Type}

protected def pure (a : α) : Effect σ ε α := fun s => (.ok a, s)

protected def bind (x : Effect σ ε α) (f : α → Effect σ ε β) : Effect σ ε β := fun s =>
  match x s with
  | (.ok a, t) => f a t
  | (.error e, t) => (.error e, t)

instance : Monad (Effect σ ε) where
  pure := Effect.pure
  bind := Effect.bind

/-- A value read from the state. -/
def read (f : σ → α) : Effect σ ε α := fun s => (.ok (f s), s)

def modify (f : σ → σ) : Effect σ ε Unit := fun s => (.ok (), f s)

/-- The end of a computation that has no effect. -/
def ofExcept (x : Except ε α) : Effect σ ε α := fun s => (x, s)

/-- Raises where there is something to raise. -/
def check : Option ε → Effect σ ε Unit
  | none => Effect.pure ()
  | some e => ofExcept (.error e)

/-- `try: body` with `except: handler; raise`. -/
def onError (body : Effect σ ε α) (handler : Effect σ ε Unit) : Effect σ ε α := fun s =>
  match body s with
  | (.ok a, t) => (.ok a, t)
  | (.error e, t) => ((handler t).1.bind fun _ => .error e, (handler t).2)

/-- `try: body` with `except Exception as e: handler(e)`. -/
def catching (body : Effect σ ε α) (handler : ε → Effect σ ε α) : Effect σ ε α := fun s =>
  match body s with
  | (.ok a, t) => (.ok a, t)
  | (.error e, t) => handler e t

/-- What raises is wrapped on its way out. -/
def mapError {ε' : Type} (f : ε → ε') (body : Effect σ ε α) : Effect σ ε' α := fun s =>
  ((body s).1.mapError f, (body s).2)

/-! ## Specifications -/

/-- From `P`, `x` returns in `Q` or raises in `E`. -/
structure Spec (P : σ → Prop) (x : Effect σ ε α) (Q : α → σ → Prop) (E : ε → σ → Prop) : Prop where
  returns : ∀ s, P s → ∀ a t, x s = (.ok a, t) → Q a t
  raises : ∀ s, P s → ∀ e t, x s = (.error e, t) → E e t

/-- `x` keeps `I` whether it raises or not. -/
abbrev Keeps (I : σ → Prop) (x : Effect σ ε α) : Prop := Spec I x (fun _ => I) fun _ => I

variable {P P' I : σ → Prop} {x : Effect σ ε α} {f : α → Effect σ ε β} {Q Q' : α → σ → Prop} {R : β → σ → Prop}
  {E E' : ε → σ → Prop}

theorem Spec.weaken (h : Spec P x Q E) (hP : ∀ s, P' s → P s) (hQ : ∀ a s, Q a s → Q' a s)
    (hE : ∀ e s, E e s → E' e s) : Spec P' x Q' E' :=
  ⟨fun s hs a t ht => hQ a t (h.returns s (hP s hs) a t ht), fun s hs e t ht => hE e t (h.raises s (hP s hs) e t ht)⟩

/-- A precondition weakened, and the rest as it is. -/
theorem Spec.of (h : Spec P x Q E) (hP : ∀ s, P' s → P s) : Spec P' x Q E :=
  h.weaken hP (fun _ _ hq => hq) fun _ _ he => he

/-- Nothing is claimed. -/
theorem Spec.top : Spec P x (fun _ _ => True) fun _ _ => True := ⟨fun _ _ _ _ _ => trivial, fun _ _ _ _ _ => trivial⟩

/-- What does not depend on the state is assumed once for all states. -/
theorem Spec.assuming {p : Prop} (h : p → Spec P x Q E) : Spec (fun s => p ∧ P s) x Q E :=
  ⟨fun s hs => (h hs.1).returns s hs.2, fun s hs => (h hs.1).raises s hs.2⟩

theorem Spec.ex {ι : Type} {P : ι → σ → Prop} (h : ∀ i, Spec (P i) x Q E) : Spec (fun s => ∃ i, P i s) x Q E :=
  ⟨fun s ⟨i, hs⟩ => (h i).returns s hs, fun s ⟨i, hs⟩ => (h i).raises s hs⟩

theorem Spec.pure {a : α} (h : ∀ s, P s → Q a s) : Spec P (pure a : Effect σ ε α) Q E := by
  refine ⟨fun s hs b t ht => ?_, fun s _ e t ht => ?_⟩
  · cases ht
    exact h s hs
  · cases ht

theorem Spec.bind (hx : Spec P x Q E) (hf : ∀ a, Spec (Q a) (f a) R E) : Spec P (x >>= f) R E := by
  refine ⟨fun s hs b u hu => ?_, fun s hs e u hu => ?_⟩
  · rcases hxs : x s with ⟨_ | a, t⟩
    · simp [Bind.bind, Effect.bind, hxs] at hu
    · simp only [Bind.bind, Effect.bind, hxs] at hu
      exact (hf a).returns t (hx.returns s hs a t hxs) b u hu
  · rcases hxs : x s with ⟨e' | a, t⟩
    · simp only [Bind.bind, Effect.bind, hxs] at hu
      cases hu
      exact hx.raises s hs e u hxs
    · simp only [Bind.bind, Effect.bind, hxs] at hu
      exact (hf a).raises t (hx.returns s hs a t hxs) e u hu

/-- A step that only gets the state ready for the next. -/
theorem Spec.seq {y : Effect σ ε β} (hx : Spec P x (fun _ => I) E) (hy : Spec I y R E) :
    Spec P (x >>= fun _ => y) R E :=
  .bind hx fun _ => hy

theorem Spec.read {g : σ → α} (h : ∀ s, P s → Q (g s) s) : Spec P (read g : Effect σ ε α) Q E := by
  refine ⟨fun s hs a t ht => ?_, fun s _ e t ht => ?_⟩
  · cases ht
    exact h s hs
  · cases ht

theorem Spec.modify {g : σ → σ} {Q : Unit → σ → Prop} (h : ∀ s, P s → Q () (g s)) :
    Spec P (modify g : Effect σ ε Unit) Q E := by
  refine ⟨fun s hs a t ht => ?_, fun s _ e t ht => ?_⟩
  · cases ht
    exact h s hs
  · cases ht

theorem Spec.ofExcept {y : Except ε α} (hQ : ∀ a s, y = .ok a → P s → Q a s) (hE : ∀ e s, P s → E e s) :
    Spec P (ofExcept y : Effect σ ε α) Q E := by
  refine ⟨fun s hs a t ht => ?_, fun s hs e t ht => ?_⟩
  · obtain ⟨rfl, rfl⟩ := Prod.mk.inj ht
    exact hQ a s rfl hs
  · obtain ⟨rfl, rfl⟩ := Prod.mk.inj ht
    exact hE e s hs

theorem Spec.check (failure : Option ε) : Keeps I (check failure : Effect σ ε Unit) := by
  cases failure with
  | none => exact .pure fun _ hs => hs
  | some e => exact .ofExcept (fun _ _ h => nomatch h) fun _ _ hs => hs

/-- The handler gets the state to where the exception may leave. -/
theorem Spec.onError {handler : Effect σ ε Unit} {F : ε → σ → Prop} (hx : Spec P x Q F)
    (hh : ∀ e, Spec (F e) handler (fun _ => E e) E) : Spec P (onError x handler) Q E := by
  refine ⟨fun s hs a u hu => ?_, fun s hs e u hu => ?_⟩
  · rcases hxs : x s with ⟨e | a', t⟩
    · simp only [Effect.onError, hxs, Prod.mk.injEq] at hu
      rcases hht : (handler t).1 with e' | _ <;> simp [hht, Except.bind] at hu
    · simp only [Effect.onError, hxs] at hu
      cases hu
      exact hx.returns s hs a u hxs
  · rcases hxs : x s with ⟨e' | a', t⟩
    · simp only [Effect.onError, hxs, Prod.mk.injEq] at hu
      obtain ⟨hraised, rfl⟩ := hu
      have ht := hx.raises s hs e' t hxs
      rcases hht : (handler t).1 with e'' | _
      · simp only [hht, Except.bind] at hraised
        cases hraised
        exact (hh e').raises t ht e (handler t).2 (by rw [← hht])
      · simp only [hht, Except.bind] at hraised
        cases hraised
        exact (hh e).returns t ht () (handler t).2 (by rw [← hht])
    · simp only [Effect.onError, hxs] at hu
      cases hu

theorem Spec.catching {handler : ε → Effect σ ε α} {F : ε → σ → Prop} (hx : Spec P x Q F)
    (hh : ∀ e, Spec (F e) (handler e) Q E) : Spec P (catching x handler) Q E := by
  refine ⟨fun s hs a u hu => ?_, fun s hs e u hu => ?_⟩
  · rcases hxs : x s with ⟨e | a', t⟩
    · simp only [Effect.catching, hxs] at hu
      exact (hh e).returns t (hx.raises s hs e t hxs) a u hu
    · simp only [Effect.catching, hxs] at hu
      cases hu
      exact hx.returns s hs a u hxs
  · rcases hxs : x s with ⟨e' | a', t⟩
    · simp only [Effect.catching, hxs] at hu
      exact (hh e').raises t (hx.raises s hs e' t hxs) e u hu
    · simp only [Effect.catching, hxs] at hu
      cases hu

theorem Spec.mapError {ε' : Type} {g : ε → ε'} {F : ε' → σ → Prop} (hx : Spec P x Q fun e => F (g e)) :
    Spec P (mapError g x) Q F := by
  refine ⟨fun s hs a t ht => ?_, fun s hs e t ht => ?_⟩
  · rcases hxs : x s with ⟨e | a', t'⟩
    · simp only [Effect.mapError, hxs] at ht
      cases ht
    · simp only [Effect.mapError, hxs] at ht
      cases ht
      exact hx.returns s hs a t hxs
  · rcases hxs : x s with ⟨e' | a', t'⟩
    · simp only [Effect.mapError, hxs] at ht
      cases ht
      exact hx.raises s hs e' t hxs
    · simp only [Effect.mapError, hxs] at ht
      cases ht

/-! ## Programs that returned -/

theorem bind_returns {s u : σ} {b : β} (h : (x >>= f) s = (.ok b, u)) :
    ∃ a t, x s = (.ok a, t) ∧ f a t = (.ok b, u) := by
  rcases hx : x s with ⟨e | a, t⟩
  · simp [Bind.bind, Effect.bind, hx] at h
  · simp only [Bind.bind, Effect.bind, hx] at h
    exact ⟨a, t, rfl, h⟩

theorem catching_raised {handler : ε → Effect σ ε α} {s t : σ} {e : ε} (h : x s = (.error e, t)) :
    catching x handler s = handler e t := by
  simp only [catching, h]

theorem catching_returned {handler : ε → Effect σ ε α} {s t : σ} {a : α} (h : x s = (.ok a, t)) :
    catching x handler s = (.ok a, t) := by
  simp only [catching, h]

theorem check_returns {failure : Option ε} {s t : σ} {u : Unit} (h : check failure s = (.ok u, t)) :
    failure = none ∧ t = s := by
  cases failure with
  | none => cases h; exact ⟨rfl, rfl⟩
  | some e => cases h

theorem onError_returns {handler : Effect σ ε Unit} {s t : σ} {a : α} (h : onError x handler s = (.ok a, t)) :
    x s = (.ok a, t) := by
  rcases hx : x s with ⟨e | a', t'⟩
  · simp only [onError, hx, Prod.mk.injEq] at h
    rcases hh : (handler t').1 with e' | _ <;> simp [hh, Except.bind] at h
  · simp only [onError, hx] at h
    exact h

end Effect

end Framework
