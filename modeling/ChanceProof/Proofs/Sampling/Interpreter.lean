import ChanceProof.Proofs.Model.Contract
import ChanceProof.Sampling.Basic

/-!
# Random programs without a store

A `Trial` is a random experiment laid out as a tree: it flips coins until it has a value, or fails,
or has gone as deep as it was allowed to. `interpret` is the trial of a call on JSON values, where
every call has the sketch that an expander says. There are no handles in it and nothing is counted.

A trial can be run on random words, one for each flip: `Trial.run`.
-/

namespace ChanceProof

/-- A double from zero to one. -/
structure Probability where
  value : Float
  unit : 0 ≤ value ∧ value ≤ 1

/-- A random experiment. -/
inductive Trial (α : Type)
  | done (x : α)
  | fail (f : Failure)
  | unfinished
  | flip (p : Probability) (next : Bool → Trial α)

namespace Trial

variable {α β : Type}

def bind : Trial α → (α → Trial β) → Trial β
  | done x, k => k x
  | fail f, _ => fail f
  | unfinished, _ => unfinished
  | flip p next, k => flip p fun b => (next b).bind k

/-- The trial with its coins decided by random words. -/
def run : Trial α → Randomness → Option (Except Failure α × Randomness)
  | done x, r => some (.ok x, r)
  | fail f, r => some (.error f, r)
  | unfinished, _ => none
  | flip p next, r => (next (r.flip p.value).1).run (r.flip p.value).2

theorem run_bind (t : Trial α) (k : α → Trial β) (r : Randomness) :
    (t.bind k).run r = match t.run r with
      | some (.ok x, r') => (k x).run r'
      | some (.error f, r') => some (.error f, r')
      | none => none := by
  induction t generalizing r with
  | done x => rfl
  | fail f => rfl
  | unfinished => rfl
  | flip p next ih => exact ih _ _

/-- Somewhere the trial fails in this way. -/
inductive Fails (f : Failure) : Trial α → Prop
  | fail : Fails f (fail f)
  | flip {p : Probability} {next : Bool → Trial α} (b : Bool) (h : Fails f (next b)) :
    Fails f (flip p next)

theorem fails_of_run {t : Trial α} {r r' : Randomness} {f : Failure}
    (h : t.run r = some (.error f, r')) : t.Fails f := by
  induction t generalizing r with
  | done x => cases h
  | fail g =>
      cases h
      exact .fail
  | unfinished => cases h
  | flip p next ih => exact .flip _ (ih _ h)

theorem fails_bind {t : Trial α} {k : α → Trial β} {f : Failure} (h : (t.bind k).Fails f) :
    t.Fails f ∨ ∃ x, (k x).Fails f := by
  induction t with
  | done x => exact .inr ⟨x, h⟩
  | fail g =>
      cases h
      exact .inl .fail
  | unfinished => cases h
  | flip p next ih =>
      cases h with
      | flip b h =>
          rcases ih b h with h | h
          · exact .inl (.flip b h)
          · exact .inr h

end Trial

theorem unit_of_probabilityOf {v : Json} {p : Float} (h : probabilityOf v = .ok p) :
    0 ≤ p ∧ p ≤ 1 := by
  unfold probabilityOf at h
  split at h
  · cases h
  · split at h
    · next hunit =>
        cases h
        exact hunit
    · cases h

def coinFailure (vs : List Json) (d : CoinDefect) : Failure :=
  .invalidParameter (String.intercalate " " (Call.coinFunction :: vs.map Json.print)) d.reason

/-- A coin whose parameters are these. -/
def coinTrial : List Json → Trial (List Json)
  | [v] =>
    match h : probabilityOf v with
    | .ok p => .flip ⟨p, unit_of_probabilityOf h⟩ fun landed => .done [.bool landed]
    | .error d => .fail (coinFailure [v] d)
  | vs => .fail (coinFailure vs (.parameterCount vs.length))

theorem coinTrial_of_probabilityOf {v : Json} {p : Float} (h : probabilityOf v = .ok p) :
    coinTrial [v] = .flip ⟨p, unit_of_probabilityOf h⟩ fun landed => .done [.bool landed] := by
  simp only [coinTrial]
  split
  · next p' hp =>
      cases hp.symm.trans h
      rfl
  · next d hd => cases hd.symm.trans h

namespace Sketch

def unbound : Failure := .malformedDistribution "a variable is referenced before it is bound"

/-- A call that returns another number of values than its step binds. -/
def wrongArity (st : Step) (returned : Nat) : Failure :=
  (Defect.wrongArity ⟨st.function, []⟩ returned st.names.length).failure

/-- Go through steps one after another on top of the results bound so far. -/
def runSteps (sk : Sketch) (draw : String → List Json → Trial (List Json)) :
    List (List Json) → List Step → Trial (List (List Json))
  | results, [] => .done results
  | results, st :: rest =>
    match sk.resolveAll results st.parameters with
    | none => .fail unbound
    | some vs =>
      (draw st.function vs).bind fun result =>
        if st.names.length = result.length then sk.runSteps draw (results ++ [result]) rest
        else .fail (wrongArity st result.length)

def run (sk : Sketch) (draw : String → List Json → Trial (List Json)) : Trial (List Json) :=
  (sk.runSteps draw [] sk.steps).bind fun results =>
    match sk.resolveAll results sk.result with
    | none => .fail unbound
    | some vs => .done vs

end Sketch

/-- The trial of a call, going at most `depth` calls deep. -/
def interpret (expand : Expander) : (depth : Nat) → String → List Json → Trial (List Json)
  | 0, _, _ => .unfinished
  | depth + 1, function, vs =>
    if function = Call.coinFunction then coinTrial vs
    else
      match expand function vs with
      | .error f => .fail f
      | .ok sk => sk.run (interpret expand depth)

/-! ## How trials of calls fail -/

/-- Kinds of failures that a trial of a call has of its own. -/
def ownKinds : List String := ["invalid_parameter", "malformed_distribution"]

theorem kind_of_coinTrial {vs : List Json} {f : Failure} (h : (coinTrial vs).Fails f) :
    f.kind ∈ ownKinds := by
  unfold coinTrial at h
  split at h
  · split at h
    · cases h with
      | flip b h => cases h
    · cases h
      exact List.mem_cons_self
  · cases h
    exact List.mem_cons_self

theorem Sketch.runSteps_fails {sk : Sketch} {draw : String → List Json → Trial (List Json)}
    {results : List (List Json)} {steps : List Step} {f : Failure}
    (h : (sk.runSteps draw results steps).Fails f) :
    f.kind ∈ ownKinds ∨ ∃ function vs, (draw function vs).Fails f := by
  induction steps generalizing results with
  | nil => cases h
  | cons st steps ih =>
      unfold runSteps at h
      split at h
      · cases h
        exact .inl (by decide)
      · rcases Trial.fails_bind h with h | ⟨result, h⟩
        · exact .inr ⟨_, _, h⟩
        · split at h
          · exact ih h
          · cases h
            exact .inl (List.mem_cons_of_mem _ List.mem_cons_self)

/-- A failure is one of a coin or of a misshapen distribution, or the expander's. -/
theorem kind_of_interpret {expand : Expander} {depth : Nat} {function : String} {vs : List Json}
    {f : Failure} (h : (interpret expand depth function vs).Fails f) :
    f.kind ∈ ownKinds ∨ ∃ function vs, expand function vs = .error f := by
  induction depth generalizing function vs with
  | zero => cases h
  | succ depth ih =>
      unfold interpret at h
      split at h
      · exact .inl (kind_of_coinTrial h)
      · split at h
        · next hexpand =>
            cases h
            exact .inr ⟨_, _, hexpand⟩
        · rcases Trial.fails_bind h with h | ⟨results, h⟩
          · rcases Sketch.runSteps_fails h with h | ⟨function, vs, h⟩
            · exact .inl h
            · exact ih h
          · split at h
            · cases h
              exact .inl (by decide)
            · cases h

end ChanceProof
