import ChanceProof.Solving.System

/-!
# Answers of the solver do not depend on the limit

The limit only bounds how many passes a component may take. Whatever was solved, or found not to
settle within its budget, comes out the same under any larger limit: `iterate_of_le` says so for a
component and `solve_of_le` for a system.
-/

namespace ChanceProof.System

variable {α : Type} (A : Arithmetic α) (system : System α)

theorem iterate_of_le {component : List Nat} {budget : Option Nat} {limit limit' passes : Nat}
    {values : Array α} {r : Except Nat (Array α × Nat)}
    (h : iterate A system component budget limit passes values = some r) (hle : limit ≤ limit') :
    iterate A system component budget limit' passes values = some r := by
  induction limit generalizing limit' passes values with
  | zero => exact nomatch h
  | succ limit ih =>
    obtain ⟨limit', rfl⟩ : ∃ n, limit' = n + 1 := ⟨limit' - 1, by omega⟩
    rw [iterate] at h ⊢
    split at h
    · next hbudget => rw [if_pos hbudget, h]
    · next hbudget =>
      rw [if_neg hbudget]
      split at h
      · exact h
      · exact ih h (by omega)

theorem solveComponents_of_le {g : Graph} {budget : Option Nat} {limit limit' passes : Nat}
    {values : Array α} {components : List (List Nat)} {r : Except NotSettled (Array α × Nat)}
    (h : solveComponents A system g budget limit passes values components = some r)
    (hle : limit ≤ limit') :
    solveComponents A system g budget limit' passes values components = some r := by
  induction components generalizing passes values with
  | nil => exact h
  | cons c rest ih =>
    rw [solveComponents] at h ⊢
    split at h
    · next hrec =>
      rw [if_pos hrec]
      split at h
      · exact nomatch h
      · next hit => rw [iterate_of_le A system hit hle]; exact h
      · next hit => rw [iterate_of_le A system hit hle]; exact ih h
    · next hrec => rw [if_neg hrec]; exact ih h

/-- What is solved under a limit is solved in the same way under any larger one. -/
theorem solve_of_le {g : Graph} {components : List (List Nat)} {budget : Option Nat}
    {limit limit' : Nat} {r : Except NotSettled (Array α × Nat)}
    (h : solve A system g components budget limit = some r) (hle : limit ≤ limit') :
    solve A system g components budget limit' = some r :=
  solveComponents_of_le A system h hle

end ChanceProof.System
