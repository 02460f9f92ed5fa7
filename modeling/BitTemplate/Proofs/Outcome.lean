import BitTemplate.Run.Decoder
import BitTemplate.Run.Encoder

/-!
When a step succeeds and when it fails. Each way to build a step, an `Except` or a step of the decoder or the encoder, has
one equivalence that says when it succeeds and with which state, and one that says when it fails and which state it leaves,
so that a run is taken apart and put together by the same lemmas.
-/

namespace BitTemplate

section

variable {ε α β : Type}

theorem except_bind_ok {x : Except ε α} {f : α → Except ε β} {b : β} :
    x >>= f = .ok b ↔ ∃ a, x = .ok a ∧ f a = .ok b := by
  cases x with
  | error e => simp [bind, Except.bind]
  | ok a => simp [bind, Except.bind]

theorem except_bind_error {x : Except ε α} {f : α → Except ε β} {e : ε} :
    x >>= f = .error e ↔ x = .error e ∨ ∃ a, x = .ok a ∧ f a = .error e := by
  cases x with
  | error e => simp [bind, Except.bind]
  | ok a => simp [bind, Except.bind]

theorem except_pure_ok {a b : α} : (pure a : Except ε α) = .ok b ↔ a = b := by
  simp [pure, Except.pure]

theorem except_pure_error {a : α} {e : ε} : (pure a : Except ε α) = .error e ↔ False := by
  simp [pure, Except.pure]

theorem except_mapError_ok {δ : Type} {x : Except ε α} {f : ε → δ} {a : α} :
    x.mapError f = .ok a ↔ x = .ok a := by
  cases x with
  | error e =>
    show Except.error (f e) = Except.ok a ↔ Except.error e = Except.ok a
    simp
  | ok b =>
    show (Except.ok b : Except δ α) = Except.ok a ↔ (Except.ok b : Except ε α) = Except.ok a
    simp

theorem except_mapError_error {δ : Type} {x : Except ε α} {f : ε → δ} {d : δ} :
    x.mapError f = .error d ↔ ∃ e, x = .error e ∧ f e = d := by
  cases x with
  | error e =>
    show Except.error (f e) = Except.error d ↔ ∃ e', Except.error e = Except.error e' ∧ f e' = d
    simp
  | ok a =>
    show (Except.ok a : Except δ α) = Except.error d ↔ ∃ e, (Except.ok a : Except ε α) = Except.error e ∧ f e = d
    simp

theorem except_discard_ok {x : Except ε α} {u : PUnit} : (discard x : Except ε PUnit) = .ok u ↔ ∃ a, x = .ok a := by
  cases x <;> simp [discard, Functor.discard, Functor.mapConst, Except.map]

end

/-! ## Steps -/

section

variable {ε σ α β : Type}

theorem step_bind_ok {x : EStateM ε σ α} {f : α → EStateM ε σ β} {s t : σ} {b : β} :
    (x >>= f) s = .ok b t ↔ ∃ a u, x s = .ok a u ∧ f a u = .ok b t := by
  simp only [bind, EStateM.bind]
  cases h : x s with
  | error e u => simp
  | ok a u =>
    constructor
    · intro h
      exact ⟨a, u, rfl, h⟩
    · rintro ⟨_, _, ⟨⟩, h⟩
      exact h

/-- A step that succeeds hands over to the next one. -/
theorem step_bind_of_ok {x : EStateM ε σ α} {f : α → EStateM ε σ β} {s t : σ} {a : α} (h : x s = .ok a t) :
    (x >>= f) s = f a t := by
  simp only [bind, EStateM.bind, h]

/-- A step that fails is the last one. -/
theorem step_bind_of_error {x : EStateM ε σ α} {f : α → EStateM ε σ β} {s t : σ} {e : ε} (h : x s = .error e t) :
    (x >>= f) s = .error e t := by
  simp only [bind, EStateM.bind, h]

theorem step_pure_ok {s t : σ} {a b : α} :
    (pure a : EStateM ε σ α) s = .ok b t ↔ a = b ∧ s = t := by
  simp [pure, EStateM.pure]

theorem step_get_ok {s t u : σ} : (get : EStateM ε σ σ) s = .ok t u ↔ s = t ∧ s = u := by
  show EStateM.Result.ok s s = EStateM.Result.ok t u ↔ s = t ∧ s = u
  simp

theorem step_modify_ok {f : σ → σ} {s t : σ} {a : PUnit} :
    (modify f : EStateM ε σ PUnit) s = .ok a t ↔ f s = t := by
  show EStateM.Result.ok PUnit.unit (f s) = EStateM.Result.ok a t ↔ f s = t
  simp

theorem step_throw_ok {e : ε} {s t : σ} {a : α} :
    (throw e : EStateM ε σ α) s = .ok a t ↔ False := by
  show EStateM.Result.error e s = EStateM.Result.ok a t ↔ False
  simp

theorem step_bind_error {x : EStateM ε σ α} {f : α → EStateM ε σ β} {s t : σ} {e : ε} :
    (x >>= f) s = .error e t ↔ x s = .error e t ∨ ∃ a u, x s = .ok a u ∧ f a u = .error e t := by
  simp only [bind, EStateM.bind]
  cases h : x s with
  | error e u => simp
  | ok a u =>
    constructor
    · intro h
      exact .inr ⟨a, u, rfl, h⟩
    · rintro (h | ⟨_, _, ⟨⟩, h⟩)
      · cases h
      · exact h

theorem step_pure_error {s t : σ} {a : α} {e : ε} : (pure a : EStateM ε σ α) s = .error e t ↔ False := by
  simp [pure, EStateM.pure]

theorem step_get_error {s t : σ} {e : ε} : (get : EStateM ε σ σ) s = .error e t ↔ False := by
  show EStateM.Result.ok s s = EStateM.Result.error e t ↔ False
  simp

theorem step_modify_error {f : σ → σ} {s t : σ} {e : ε} :
    (modify f : EStateM ε σ PUnit) s = .error e t ↔ False := by
  show EStateM.Result.ok PUnit.unit (f s) = EStateM.Result.error e t ↔ False
  simp

theorem step_throw_error {e e' : ε} {s t : σ} :
    (throw e : EStateM ε σ α) s = .error e' t ↔ e = e' ∧ s = t := by
  show EStateM.Result.error e s = EStateM.Result.error e' t ↔ e = e' ∧ s = t
  simp

theorem step_discard_ok {x : EStateM ε σ α} {s t : σ} {u : PUnit} :
    (discard x : EStateM ε σ PUnit) s = .ok u t ↔ ∃ a, x s = .ok a t := by
  simp only [discard, Functor.discard, Functor.mapConst, Function.comp_apply, EStateM.map]
  cases h : x s with
  | error e t => simp
  | ok a t =>
    constructor
    · intro h
      cases h
      exact ⟨a, rfl⟩
    · rintro ⟨_, ⟨⟩⟩
      rfl

theorem step_discard_error {x : EStateM ε σ α} {s t : σ} {e : ε} :
    (discard x : EStateM ε σ PUnit) s = .error e t ↔ x s = .error e t := by
  simp only [discard, Functor.discard, Functor.mapConst, Function.comp_apply, EStateM.map]
  cases x s <;> simp

end

namespace Decoder

variable {α : Type}

theorem check_ok {f : Engine → Except Fault α} {e e' : Engine} {a : α} :
    check f e = .ok a e' ↔ f e = .ok a ∧ e = e' := by
  simp only [check]
  cases h : f e <;> simp

theorem change_ok {f : Engine → Except Fault Engine} {e e' : Engine} {a : Unit} :
    change f e = .ok a e' ↔ f e = .ok e' := by
  simp only [change]
  cases h : f e <;> simp

theorem check_error {f : Engine → Except Fault α} {e e' : Engine} {fault : Fault} :
    check f e = .error fault e' ↔ f e = .error fault ∧ e = e' := by
  simp only [check]
  cases h : f e <;> simp

theorem change_error {f : Engine → Except Fault Engine} {e e' : Engine} {fault : Fault} :
    change f e = .error fault e' ↔ f e = .error fault ∧ e = e' := by
  simp only [change]
  cases h : f e <;> simp

end Decoder

namespace Encoder

variable {α : Type}

theorem check_ok {f : Engine → Except Fault α} {s s' : Encoder} {a : α} :
    check f s = .ok a s' ↔ f s.engine = .ok a ∧ s = s' := by
  simp only [check]
  cases h : f s.engine <;> simp

theorem onEngine_ok {f : Engine → Engine} {s s' : Encoder} {a : Unit} :
    onEngine f s = .ok a s' ↔ { s with engine := f s.engine } = s' := by
  simp [onEngine, step_modify_ok]

theorem engineNow_ok {s s' : Encoder} {e : Engine} :
    engineNow s = .ok e s' ↔ s.engine = e ∧ s = s' := by
  simp only [engineNow, step_bind_ok, step_get_ok, step_pure_ok]
  grind

theorem nextInput_ok {s s' : Encoder} {v : Value} :
    nextInput s = .ok v s' ↔ ∃ rest, s.input = v :: rest ∧ { s with input := rest } = s' := by
  simp only [nextInput]
  cases input : s.input with
  | nil => simp
  | cons first rest =>
    simp only [EStateM.Result.ok.injEq, List.cons.injEq]
    constructor
    · rintro ⟨rfl, rfl⟩
      exact ⟨rest, ⟨rfl, rfl⟩, rfl⟩
    · rintro ⟨_, ⟨rfl, rfl⟩, rfl⟩
      exact ⟨rfl, rfl⟩

theorem check_error {f : Engine → Except Fault α} {s s' : Encoder} {fault : Fault} :
    check f s = .error fault s' ↔ f s.engine = .error fault ∧ s = s' := by
  simp only [check]
  cases h : f s.engine <;> simp

theorem onEngine_error {f : Engine → Engine} {s s' : Encoder} {fault : Fault} :
    onEngine f s = .error fault s' ↔ False :=
  step_modify_error

theorem engineNow_error {s s' : Encoder} {fault : Fault} : engineNow s = .error fault s' ↔ False := by
  simp only [engineNow, step_bind_error, step_get_error, step_pure_error, and_false, exists_false, or_self]

theorem nextInput_error {s s' : Encoder} {fault : Fault} :
    nextInput s = .error fault s' ↔ s.input = [] ∧ .noInput = fault ∧ s = s' := by
  simp only [nextInput]
  cases input : s.input <;> simp

end Encoder

end BitTemplate
