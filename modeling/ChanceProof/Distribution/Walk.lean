import ChanceProof.Distribution.Basic

/-!
# Walking a distribution

A walk binds results to the assignments of a distribution, one assignment after another, and
replaces references by what is bound so far. The sampler walks with the handles that calls
returned, the evaluator with the values that a proof claims.
-/

namespace ChanceProof

/-- The results bound so far: one list for each of the first assignments. -/
structure Walk where
  distribution : Distribution
  results : List (List Value)

namespace Walk

def start (d : Distribution) : Walk := ⟨d, []⟩

def next? (w : Walk) : Option Assignment := w.distribution.assignments[w.results.length]?

/-- Bind the results of the next assignment. -/
def bind (w : Walk) (values : List Value) : Except Defect Walk :=
  match w.next? with
  | none => .error .tooManyResults
  | some a =>
    if a.names.length = values.length then .ok { w with results := w.results ++ [values] }
    else .error (.wrongArity a.call values.length a.names.length)

/-- Binding succeeds just when there is a next assignment with as many variables as values. -/
theorem bind_eq_ok_iff {w w' : Walk} {values : List Value} :
    w.bind values = .ok w' ↔
      (∃ a, w.next? = some a ∧ a.names.length = values.length) ∧
        w' = { w with results := w.results ++ [values] } := by
  unfold bind
  split
  · next h => simp [h]
  · next a h =>
    split
    · next hlen => simp [h, hlen, eq_comm]
    · next hlen => simp [h, hlen]

def bound? (w : Walk) (place : Nat × Nat) : Option Value := do
  let results ← w.results[place.1]?
  results[place.2]?

/-- Replace a reference by what is bound to it. -/
def resolve (w : Walk) : Value → Except Defect Value
  | .literal h => .ok (.literal h)
  | .unknown name => .ok (.unknown name)
  | .output call index =>
    match w.bound? (call, index) with
    | some v => .ok v
    | none => .error (.early (.output call index))
  | .named name =>
    match w.distribution.locate? name with
    | none => .error (.notBound name)
    | some place =>
      match w.bound? place with
      | some v => .ok v
      | none => .error (.early (.named name))

@[simp] theorem resolve_literal (w : Walk) (h : Handle) :
    w.resolve (.literal h) = .ok (.literal h) := rfl

@[simp] theorem resolve_unknown (w : Walk) (name : String) :
    w.resolve (.unknown name) = .ok (.unknown name) := rfl

/-- What is no reference stays as it is, and a reference is what is bound at the place it reads. -/
theorem resolve_eq_ok_iff {w : Walk} {v u : Value} : w.resolve v = .ok u ↔
    ((∃ h, v = .literal h) ∨ ∃ name, v = .unknown name) ∧ u = v ∨
      ∃ place, w.distribution.slot? v = some place ∧ w.bound? place = some u := by
  cases v with
  | literal h => simp [Distribution.slot?, eq_comm]
  | unknown name => simp [Distribution.slot?, eq_comm]
  | output call index =>
    cases hplace : w.bound? (call, index) <;> simp [resolve, Distribution.slot?, hplace]
  | named name =>
    cases hlocate : w.distribution.locate? name with
    | none => simp [resolve, Distribution.slot?, hlocate]
    | some place =>
      cases hplace : w.bound? place <;> simp [resolve, Distribution.slot?, hlocate, hplace]

def resolveCall (w : Walk) (c : Call) : Except Defect Call := do
  return { c with parameters := ← c.parameters.mapM w.resolve }

def resolveResult (w : Walk) : Except Defect (List Value) := w.distribution.result.mapM w.resolve

end Walk

end ChanceProof
