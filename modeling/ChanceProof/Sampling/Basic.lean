import ChanceProof.Distribution.Walk
import ChanceProof.Sampling.Coin
import ChanceProof.Sampling.Randomness

/-!
# Sampling

`Model.sample` draws one outcome of a call. A coin is flipped; any other call is expanded and its
distribution sampled assignment by assignment. Random words are used up by coins alone, one each.

A call uses up one count of each of its literal parameters, and every literal in a distribution
brings one. A value that is read several times gets a count for each further reading, and one that
is never read is given back, so a draw leaves nothing behind in the store but its results.

Calls may expand for ever, so a draw has a depth to go at most. Running out of it is no failure and
no answer: it is `none`, and a draw that ended within some depth ends in the same way within any
larger one.
-/

namespace ChanceProof

/-- A draw from a model: it acts on the model's state and uses up randomness. -/
abbrev Draw (σ α : Type) := Run (σ × Randomness) α

namespace Draw

variable {σ α : Type}

def ask (a : Action σ α) : Draw σ α := fun (s, r) =>
  let (x, s) := a.run s
  some (x, (s, r))

def flip (probability : Float) : Draw σ Bool := fun (s, r) =>
  let (b, r) := r.flip probability
  some (.ok b, (s, r))

end Draw

namespace Distribution

/-- The places that parameters and results read, each as often as it is read. -/
def reads (d : Distribution) : List (Nat × Nat) :=
  (d.assignments.flatMap (·.call.parameters) ++ d.result).filterMap d.slot?

/-- How often each value is read that an assignment binds. -/
def useCounts (d : Distribution) : List (List Nat) :=
  let reads := d.reads
  d.assignments.zipIdx.map fun (a, i) =>
    a.names.zipIdx.map fun (_, k) => reads.count (i, k)

end Distribution

namespace Model

variable {σ : Type} (M : Model σ)

/-- Give bound values the counts that their uses need; each brought one count of its own. -/
def settleUses : List (Handle × Nat) → Action σ Unit
  | [] => return ()
  | (h, uses) :: rest => do
    if uses ≠ 1 then M.modifyCount h (uses - 1)
    settleUses rest

/-- Flip the coin of a primitive call and intern how it landed. -/
def sampleCoin (c : Call) : Draw σ Handle := do
  match c.parameters with
  | [.literal h] =>
    let p ← Draw.ask (M.readProbability c h)
    Draw.ask (M.modifyCount h (-1))
    let landed ← Draw.flip p
    Draw.ask (M.fromExternal (.bool landed))
  | [_] => throw (.ungroundedCall c.display)
  | parameters => throw ((CoinDefect.parameterCount parameters.length).failure c)

/-- Sample assignments one after another, each with the number of uses of its values. -/
def sampleAssignments (draw : Call → Draw σ (List Handle)) :
    Walk → List (Assignment × List Nat) → Draw σ Walk
  | w, [] => return w
  | w, (a, uses) :: rest => do
    let call ← (w.resolveCall a.call).mapError Defect.failure
    let results ← draw call
    let w ← (w.bind (results.map .literal)).mapError Defect.failure
    Draw.ask (M.settleUses (results.zip uses))
    sampleAssignments draw w rest

def resultHandle : Value → Except Failure Handle
  | .literal h => .ok h
  | v => .error (Defect.openResult v).failure

def sampleDistribution (draw : Call → Draw σ (List Handle)) (d : Distribution) :
    Draw σ (List Handle) := do
  let w ← M.sampleAssignments draw (.start d) (d.assignments.zip d.useCounts)
  let results ← w.resolveResult.mapError Defect.failure
  results.mapM fun v => liftM (resultHandle v)

/-- Draw an outcome of a call, going at most `depth` calls deep. Handles of the outcome belong to
the caller. -/
def sample : (depth : Nat) → Call → Draw σ (List Handle)
  | 0, _ => Run.unfinished
  | depth + 1, c =>
    if c.isPrimitive then return [← M.sampleCoin c]
    else do
      let e ← Draw.ask (M.getDistribution c)
      Draw.ask (c.handles.forM fun h => M.modifyCount h (-1))
      M.sampleDistribution (sample depth) e.distribution

end Model

end ChanceProof
