import Mathlib.Data.List.Chain
import BitTemplate.Proofs.Moves

/-!
Sessions. A decoder and an encoder execute one program after another, each from where the last one stopped, even if that
one failed midway. The moments of a session are its states before, between and after all of its instructions. What every
instruction keeps, whether it succeeds or fails, holds from each moment to every later one; where an instruction keeps it
only under a condition, the condition has to hold throughout the session.
-/

namespace BitTemplate

variable {σ : Type}

/-! ## Moments -/

/-- The states of a run from an index on, up to the first instruction that fails. -/
def statesFrom (step : Nat → Instruction → EStateM Fault σ Unit) (rest : σ → σ) (index : Nat) :
    List Instruction → σ → List σ
  | [], s => [s, rest s]
  | instruction :: others, s =>
    s :: match step index instruction s with
      | .ok () s => statesFrom step rest (index + 1) others s
      | .error _ s => [s]

@[simp] theorem head?_statesFrom {step : Nat → Instruction → EStateM Fault σ Unit} {rest : σ → σ} {index : Nat}
    {instructions : List Instruction} {s : σ} : (statesFrom step rest index instructions s).head? = some s := by
  cases instructions <;> rfl

/-- The last of the states is the one that a run leaves. -/
theorem getLast?_statesFrom {step : Nat → Instruction → EStateM Fault σ Unit} {rest : σ → σ}
    {run : Nat → List Instruction → σ → σ} (nil : ∀ index s, run index [] s = rest s)
    (done : ∀ {index instruction others s s'}, step index instruction s = .ok () s' →
      run index (instruction :: others) s = run (index + 1) others s')
    (failed : ∀ {index instruction others fault s s'}, step index instruction s = .error fault s' →
      run index (instruction :: others) s = s')
    (index : Nat) (instructions : List Instruction) (s : σ) :
    (statesFrom step rest index instructions s).getLast? = some (run index instructions s) := by
  induction instructions generalizing index s with
  | nil =>
    rw [nil]
    rfl
  | cons instruction others ih =>
    rw [statesFrom]
    cases outcome : step index instruction s with
    | ok u s' =>
      rw [done outcome, List.getLast?_cons, ih]
      rfl
    | error fault s' =>
      rw [failed outcome]
      rfl

/-- Whether a condition holds at each instruction that a run from an index on comes to. -/
def AlongFrom (step : Nat → Instruction → EStateM Fault σ Unit) (holds : Instruction → σ → Prop) (index : Nat) :
    List Instruction → σ → Prop
  | [], _ => True
  | instruction :: others, s =>
    holds instruction s ∧ ∀ s', step index instruction s = .ok () s' → AlongFrom step holds (index + 1) others s'

theorem AlongFrom.of_forall {step : Nat → Instruction → EStateM Fault σ Unit} {holds : Instruction → σ → Prop}
    {index : Nat} {instructions : List Instruction} {s : σ} (all : ∀ i ∈ instructions, ∀ s, holds i s) :
    AlongFrom step holds index instructions s := by
  induction instructions generalizing index s with
  | nil => trivial
  | cons instruction others ih => exact ⟨all instruction (by simp) s, fun _ _ => ih fun i hi => all i (by simp [hi])⟩

/-- What runs programs: a decoder or an encoder. -/
structure Runner (σ : Type) where
  /-- Executes one instruction, given its index. -/
  step : Nat → Instruction → EStateM Fault σ Unit
  /-- The state before the first instruction of a run. -/
  fresh : σ → σ
  /-- The state after the last one. -/
  rest : σ → σ
  /-- The state that a run leaves. -/
  run : Program → σ → σ
  last : ∀ program s, (statesFrom step rest 0 program.instructions (fresh s)).getLast? = some (run program s)

namespace Runner

/-- The states of a session that executes programs, the first one first. -/
def moments (r : Runner σ) : List Program → σ → List σ
  | [], s => [s]
  | program :: later, s =>
    s :: statesFrom r.step r.rest 0 program.instructions (r.fresh s) ++ r.moments later (r.run program s)

@[simp] theorem head?_moments (r : Runner σ) (programs : List Program) (s : σ) :
    (r.moments programs s).head? = some s := by
  cases programs <;> rfl

theorem mem_moments (r : Runner σ) (programs : List Program) (s : σ) : s ∈ r.moments programs s :=
  List.mem_of_head? (r.head?_moments programs s)

/-- The moments of what follows a run are moments of the session. -/
theorem mem_moments_of_run {r : Runner σ} {program : Program} {later : List Program} {s t : σ}
    (h : t ∈ r.moments later (r.run program s)) : t ∈ r.moments (program :: later) s :=
  List.mem_append_right _ h

/-- The last moment of a session is the state that its last run leaves. -/
theorem getLast?_moments (r : Runner σ) (programs : List Program) (s : σ) :
    (r.moments programs s).getLast? = some (programs.foldl (fun s program => r.run program s) s) := by
  induction programs generalizing s with
  | nil => rfl
  | cons program later ih =>
    rw [moments, List.getLast?_append, ih]
    rfl

/-- Whether a condition holds at each instruction that a session comes to. -/
def Throughout (r : Runner σ) (holds : Instruction → σ → Prop) : List Program → σ → Prop
  | [], _ => True
  | program :: later, s =>
    AlongFrom r.step holds 0 program.instructions (r.fresh s) ∧ r.Throughout holds later (r.run program s)

theorem Throughout.of_forall {r : Runner σ} {holds : Instruction → σ → Prop} {programs : List Program} {s : σ}
    (all : ∀ program ∈ programs, ∀ i ∈ program.instructions, ∀ s, holds i s) : r.Throughout holds programs s := by
  induction programs generalizing s with
  | nil => trivial
  | cons program later ih =>
    exact ⟨.of_forall (all program (by simp)), ih fun other member => all other (by simp [member])⟩

/-- What is no condition holds throughout. -/
theorem throughout_true (r : Runner σ) (programs : List Program) (s : σ) : r.Throughout (fun _ _ => True) programs s :=
  .of_forall fun _ _ _ _ _ => trivial

/-- A relation between each moment of a session and the next one, where a condition holds at each instruction. -/
structure Links (r : Runner σ) (holds : Instruction → σ → Prop) (R : σ → σ → Prop) : Prop where
  refl : ∀ s, R s s
  fresh : ∀ s, R s (r.fresh s)
  rest : ∀ s, R s (r.rest s)
  done : ∀ {index instruction s s'}, holds instruction s → r.step index instruction s = .ok () s' → R s s'
  failed : ∀ {index instruction fault s s'}, holds instruction s → r.step index instruction s = .error fault s' → R s s'

namespace Links

variable {r : Runner σ} {holds : Instruction → σ → Prop} {R : σ → σ → Prop}

theorem isChain_statesFrom (links : r.Links holds R) {index : Nat} {instructions : List Instruction} {s : σ}
    (along : AlongFrom r.step holds index instructions s) :
    (statesFrom r.step r.rest index instructions s).IsChain R := by
  induction instructions generalizing index s with
  | nil => exact List.isChain_pair.mpr (links.rest s)
  | cons instruction others ih =>
    simp only [statesFrom]
    cases outcome : r.step index instruction s with
    | ok u s' => exact (ih (along.2 s' outcome)).cons (by simpa using links.done along.1 outcome)
    | error fault s' => exact List.isChain_pair.mpr (links.failed along.1 outcome)

theorem isChain_moments (links : r.Links holds R) {programs : List Program} {s : σ}
    (throughout : r.Throughout holds programs s) : (r.moments programs s).IsChain R := by
  induction programs generalizing s with
  | nil => exact .singleton s
  | cons program later ih =>
    have states : (s :: statesFrom r.step r.rest 0 program.instructions (r.fresh s)).IsChain R :=
      (links.isChain_statesFrom throughout.1).cons (by simpa using links.fresh s)
    -- the next run starts with the state that this one leaves
    refine states.append (ih throughout.2) fun t last u first => ?_
    rw [List.getLast?_cons, r.last] at last
    rw [head?_moments] at first
    cases last
    cases first
    exact links.refl _

end Links

/-- A relation that every change of a session keeps. -/
structure Keeps (r : Runner σ) (holds : Instruction → σ → Prop) (R : σ → σ → Prop) : Prop extends r.Links holds R where
  trans : ∀ {s t u}, R s t → R t u → R s u

/-- A property that goes over from each moment to the next one goes over to all later ones. -/
theorem Links.keeps {r : Runner σ} {holds : Instruction → σ → Prop} {R : σ → σ → Prop} {property : σ → Prop}
    (links : r.Links holds R) (next : ∀ {s t}, R s t → property s → property t) :
    r.Keeps holds fun s t => property s → property t where
  refl _ now := now
  fresh s := next (links.fresh s)
  rest s := next (links.rest s)
  done allowed executed := next (links.done allowed executed)
  failed allowed executed := next (links.failed allowed executed)
  trans first later now := later (first now)

namespace Keeps

variable {r : Runner σ} {holds : Instruction → σ → Prop} {R : σ → σ → Prop} {programs : List Program} {s t : σ}

/-- What every change keeps holds from each moment to every later one. -/
theorem pairwise_moments (keeps : r.Keeps holds R) (throughout : r.Throughout holds programs s) :
    (r.moments programs s).Pairwise R := by
  have : Trans R R R := ⟨keeps.trans⟩
  exact (keeps.isChain_moments throughout).pairwise

theorem of_mem_moments (keeps : r.Keeps holds R) (throughout : r.Throughout holds programs s)
    (h : t ∈ r.moments programs s) : R s t := by
  obtain ⟨later, split⟩ := List.head?_eq_some_iff.mp (r.head?_moments programs s)
  have pairwise := keeps.pairwise_moments throughout
  rw [split] at h pairwise
  rcases List.mem_cons.mp h with rfl | h
  · exact keeps.refl t
  · exact List.rel_of_pairwise_cons pairwise h

end Keeps

end Runner

/-! ## Decoding -/

namespace Decoder

theorem state_runFrom_of_ok {index : Nat} {instruction : Instruction} {others : List Instruction} {e e' : Engine}
    (done : step index instruction e = .ok () e') :
    (runFrom index (instruction :: others) e).2 = (runFrom (index + 1) others e').2 := by
  rw [runFrom, done]

theorem state_runFrom_of_error {index : Nat} {instruction : Instruction} {others : List Instruction} {fault : Fault}
    {e e' : Engine} (failed : step index instruction e = .error fault e') :
    (runFrom index (instruction :: others) e).2 = e' := by
  rw [runFrom, failed]

/-- A decoder as a runner. -/
def runner : Runner Engine where
  step := step
  fresh e := { e with events := [] }
  rest := Engine.rest
  run program e := (runFrom 0 program.instructions { e with events := [] }).2
  last program _ := @getLast?_statesFrom Engine step Engine.rest (fun index others e => (runFrom index others e).2)
    (fun _ _ => rfl) state_runFrom_of_ok state_runFrom_of_error 0 program.instructions _

/-- The states of a session of a decoder. -/
def moments (d : Decoder) (programs : List Program) : List Engine :=
  runner.moments programs d.engine

/-- The next run starts from what the decoder is after this one. -/
theorem engine_run (d : Decoder) (program : Program) : (d.run program).2.engine = runner.run program d.engine :=
  rfl

/-- A session makes moves only. -/
theorem keeps_moves {holds : Instruction → Engine → Prop} {inWord : Prop}
    (sums : ∀ instruction e, holds instruction e → inWord → instruction.directive.InWord e.cursor) :
    runner.Keeps holds (Moves inWord) where
  refl _ := .refl
  trans := Relation.ReflTransGen.trans
  fresh e := .single (.note e _ _ _)
  rest e := .single (.note e _ _ _)
  done allowed done := (Moves.step done).mono (sums _ _ allowed)
  failed allowed failed := (Moves.step_failed failed).mono (sums _ _ allowed)

end Decoder

/-! ## Encoding -/

namespace Encoder

theorem state_runFrom_of_ok {index : Nat} {instruction : Instruction} {others : List Instruction} {s s' : Encoder}
    (done : step index instruction s = .ok () s') :
    (runFrom index (instruction :: others) s).2 = (runFrom (index + 1) others s').2 := by
  rw [runFrom, done]

theorem state_runFrom_of_error {index : Nat} {instruction : Instruction} {others : List Instruction} {fault : Fault}
    {s s' : Encoder} (failed : step index instruction s = .error fault s') :
    (runFrom index (instruction :: others) s).2 = s' := by
  rw [runFrom, failed]

/-- An encoder as a runner. -/
def runner : Runner Encoder where
  step := step
  fresh s := { s with engine := { s.engine with events := [] } }
  rest s := { s with engine := s.engine.rest }
  run program s := (s.run program).2
  last program _ := @getLast?_statesFrom Encoder step _ (fun index others s => (runFrom index others s).2)
    (fun _ _ => rfl) state_runFrom_of_ok state_runFrom_of_error 0 program.instructions _

/-- The states of a session of an encoder. -/
def moments (s : Encoder) (programs : List Program) : List Encoder :=
  runner.moments programs s

end Encoder

end BitTemplate
