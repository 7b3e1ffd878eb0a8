import ChanceProof.Distribution.Basic
import ChanceProof.Json.Basic

/-!
# Models

A model is a collection of random functions with a store of objects. Its five operations are all
that sampling, proving and the line protocol ever ask of it. They act on a state of any type and
may fail, and the state after a failure is still there to be spoken of.

`Model.checked` guards a model that is not trusted: it hands on only grounded calls of compound
functions and only changes of a count that change it, and it knows by itself that a handle is equal
to itself.
-/

namespace ChanceProof

/-- An operation on a model's state that may fail. -/
abbrev Action (σ α : Type) := ExceptT Failure (StateM σ) α

/-- An operation that may fail, and that may not end within the limit it was given: then there is
neither an answer nor a state. -/
abbrev Run (σ α : Type) := ExceptT Failure (StateT σ Option) α

namespace Run

variable {σ α β : Type}

def ofAction (a : Action σ α) : Run σ α := fun s => some (a.run s)

def unfinished : Run σ α := fun _ => none

/-- Whatever the first operation answers, the second answers, too. -/
def Within (a b : Run σ α) : Prop := ∀ s r, a s = some r → b s = some r

theorem Within.refl (a : Run σ α) : a.Within a := fun _ _ h => h

theorem Within.trans {a b c : Run σ α} (h : a.Within b) (h' : b.Within c) : a.Within c :=
  fun s r hr => h' s r (h s r hr)

theorem unfinished_within (a : Run σ α) : unfinished.Within a := fun _ _ h => nomatch h

/-- What is done one after another answers as its parts do. -/
theorem Within.bind {a b : Run σ α} {f g : α → Run σ β} (h : a.Within b)
    (hf : ∀ x, (f x).Within (g x)) : Run.Within (a >>= f) (b >>= g) := by
  intro s r hr
  simp only [Bind.bind, ExceptT.bind, ExceptT.mk, StateT.bind] at hr ⊢
  cases ha : a s with
  | none => simp [ha] at hr
  | some p =>
    rw [h s p ha]
    simp only [ha, Option.bind_some] at hr ⊢
    obtain ⟨x, s'⟩ := p
    cases x with
    | error e => exact hr
    | ok x => exact hf x s' r hr

end Run

/-- A call's distribution, and the seconds it took the model to produce it. -/
structure Expansion where
  distribution : Distribution
  seconds : Float
deriving DecidableEq, Inhabited

structure Model (σ : Type) where
  /-- Expand a grounded call of a compound function. Each literal in the distribution carries a
  count of its own for the caller. -/
  getDistribution : Call → Action σ Expansion
  modifyCount : Handle → Int → Action σ Unit
  toExternal : Handle → Action σ Json
  /-- Intern a host-neutral value with a count of one. -/
  fromExternal : Json → Action σ Handle
  isEqual : Handle → Handle → Action σ Bool

namespace Model

variable {σ : Type}

/-- The failure of a call that is no grounded call of a compound function. -/
def refusal? (c : Call) : Option Failure :=
  if !c.isGrounded then some (.ungroundedCall c.display)
  else if c.isPrimitive then some (.unknownFunction c.function)
  else none

def checked (M : Model σ) : Model σ where
  getDistribution c :=
    match refusal? c with
    | some failure => throw failure
    | none => M.getDistribution c
  modifyCount h delta := if delta = 0 then pure () else M.modifyCount h delta
  toExternal := M.toExternal
  fromExternal := M.fromExternal
  isEqual a b := if a = b then pure true else M.isEqual a b

end Model

end ChanceProof
