import ChanceProof.Proof.Basic

/-!
# Alternatives that exclude each other

The probabilities of a label's alternatives may be added only if no execution is described by two
of them. Executions part at a call that has different results, so two alternatives exclude each
other if there is a place in both at which their results differ.

The check sorts alternatives into groups by their results, place by place. Two alternatives still
in one group when one of them ends may describe the same execution.
-/

namespace ChanceProof

/-- Put an alternative into the group of those that start with the same result. -/
def addToGroup (result : List Value) (rest : List Label) :
    List (List Value × List (List Label)) → List (List Value × List (List Label))
  | [] => [(result, [rest])]
  | (r, group) :: groups =>
    if r = result then (r, group ++ [rest]) :: groups
    else (r, group) :: addToGroup result rest groups

/-- Group alternatives by their first results, in order of appearance, leaving out the first label
of each. There are no groups when an alternative has ended. -/
def groupByResult : List (List Value × List (List Label)) → List (List Label) →
    Option (List (List Value × List (List Label)))
  | groups, [] => some groups
  | _, [] :: _ => none
  | groups, (claim :: rest) :: others => groupByResult (addToGroup claim.result rest groups) others

/-- Check the alternatives of a group that agree on their first `place` labels. An error tells how
many labels two of them agree on when one ends. -/
def disjointFrom : (fuel place : Nat) → List (List Label) → Except Nat Unit
  | 0, place, alternatives => if alternatives.length ≤ 1 then .ok () else .error place
  | fuel + 1, place, alternatives =>
    if alternatives.length ≤ 1 then .ok ()
    else
      match groupByResult [] alternatives with
      | none => .error place
      | some groups => groups.forM fun g => disjointFrom fuel (place + 1) g.2

/-- Check that the alternatives of a label exclude each other. The longest of them bounds the
number of places. -/
def checkDisjoint (l : Label) (alternatives : List (List Label)) : Except Failure Unit :=
  (disjointFrom (alternatives.foldl (fun n a => max n a.length) 0) 0 alternatives).mapError
    fun place => .ambiguousProof l.display
      ("alternatives agree on all " ++ toString place
        ++ " sub-labels and may describe the same execution")

end ChanceProof
