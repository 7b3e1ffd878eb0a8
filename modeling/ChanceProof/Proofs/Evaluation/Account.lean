import ChanceProof.Evaluation.Solve
import ChanceProof.Proofs.Evaluation.Accepted

/-!
# Sessions without handles

An account is a session in which objects stand for themselves: it has no store, no canonical handles
and no distributions that it remembers. Its proofs are theses, whose values are objects and
unknowns, and it expands them against sketches. A session over a model that keeps its promises does
what its account does, so questions about unknowns, about rejected proofs and about the order of
proofs can be asked of accounts, where there is nothing but forms.

An account goes through the steps of a session in their order, but for the unification of claims
with the calls of a distribution: claims are filled in from these very calls, so that each would be
unified with itself. Its failures have kinds but no texts, since texts show handles.
-/

namespace ChanceProof

/-- A value of a proof without handles. -/
inductive Referent
  | object (value : Json)
  | unknown (name : String)
deriving DecidableEq

/-- A label over values of any kind. -/
structure Claim (α : Type) where
  function : String
  parameters : List α
  result : List α
deriving DecidableEq

/-- The same names stand for related values. -/
def Dictionary.Related {α β : Type} (R : α → β → Prop) (m : Dictionary α) (m' : Dictionary β) :
    Prop :=
  List.Forall₂ (fun e e' => e.1 = e'.1 ∧ R e.2 e'.2) m.entries m'.entries

section

variable {α β : Type} {R : α → β → Prop}

theorem Dictionary.Related.get? {m : Dictionary α} {m' : Dictionary β} (h : m.Related R m')
    (name : String) :
    m.get? name = none ∧ m'.get? name = none ∨
      ∃ x y, m.get? name = some x ∧ m'.get? name = some y ∧ R x y := by
  unfold Dictionary.Related at h
  unfold Dictionary.get?
  generalize m.entries = es at h
  generalize m'.entries = es' at h
  induction h with
  | nil => exact .inl ⟨rfl, rfl⟩
  | @cons e e' es es' he _ ih =>
      obtain ⟨k, x⟩ := e
      obtain ⟨k', y⟩ := e'
      obtain ⟨hk, hxy⟩ := he
      obtain rfl : k = k' := hk
      rw [List.lookup_cons, List.lookup_cons]
      cases name == k with
      | true => exact .inr ⟨x, y, rfl, rfl, hxy⟩
      | false => exact ih

theorem Dictionary.Related.keys {m : Dictionary α} {m' : Dictionary β} (h : m.Related R m') :
    m.keys = m'.keys := by
  unfold Dictionary.Related at h
  unfold Dictionary.keys
  generalize m.entries = es at h
  generalize m'.entries = es' at h
  induction h with
  | nil => rfl
  | cons he _ ih => rw [List.map_cons, List.map_cons, he.1, ih]

end

/-- A proof without handles. -/
structure Thesis where
  claim : Claim Referent
  mappings : List (Dictionary Referent)

/-- The names that every mapping binds. There are none without mappings. -/
def Thesis.names (t : Thesis) : List String := (t.mappings.head?.map Dictionary.keys).getD []

/-- A label without handles, and the executions recorded for it. -/
structure Account.Entry where
  label : PortableLabel
  alternatives : List (List PortableLabel)
deriving DecidableEq

/-- What a session has learnt, without its handles. -/
structure Account where
  bindings : List (String × Json)
  entries : List Account.Entry
  proved : List PortableLabel

/-! ## Failures -/

namespace Account

def misshapen : Failure := .malformedDistribution ""

def conflict : Failure := .unificationConflict "" ""

def ambiguous : Failure := .ambiguousProof "" ""

def unproven : Failure := .malformedProof "" ""

def noCoin : Failure := .invalidParameter "" ""

def unsettled : Failure := .didNotConverge "" 0

end Account

/-- What has to be there, or else is a failure. -/
def Failure.require {α : Type} (f : Failure) : Option α → Except Failure α
  | some x => .ok x
  | none => .error f

theorem Failure.require_ok_iff {α : Type} {f : Failure} {o : Option α} {x : α} :
    f.require o = .ok x ↔ o = some x := by
  cases o with
  | none => exact ⟨fun h => (nomatch h), fun h => (nomatch h)⟩
  | some y => rw [Failure.require, Except.ok.injEq, Option.some.injEq]

/-! ## Claims -/

namespace Sketch

section

variable {α : Type} (object : Json → α) (sk : Sketch)

def place? (results : List (List α)) (place : Nat × Nat) : Option α := do
  let values ← results[place.1]?
  values[place.2]?

/-- The value of an item when these results are bound, whatever kind of values they are. -/
def fill? (results : List (List α)) : Item → Option α
  | .object v => some (object v)
  | .output call index => place? results (call, index)
  | .named name => (sk.locate? name).bind (place? results)

def fillAll (results : List (List α)) (items : List Item) : Except Failure (List α) :=
  items.mapM fun item => Account.misshapen.require (sk.fill? object results item)

/-- The claims of the steps that are left, when `m` gives the values of their variables. -/
def claimsFrom (m : String → Option α) :
    List (List α) → List Step → Except Failure (List (Claim α))
  | _, [] => .ok []
  | results, st :: rest => do
    let parameters ← sk.fillAll object results st.parameters
    let result ← st.names.mapM fun name => Account.unproven.require (m name)
    return ⟨st.function, parameters, result⟩ :: (← claimsFrom m (results ++ [result]) rest)

def claims (m : String → Option α) : Except Failure (List (Claim α)) :=
  sk.claimsFrom object m [] sk.steps

/-- What an execution with these claims returns. -/
def returned (cs : List (Claim α)) : Except Failure (List α) :=
  sk.fillAll object (cs.map (·.result)) sk.result

end

end Sketch

/-! ## Alternatives that exclude each other -/

theorem apart_iff {a b : List PortableLabel} :
    Apart a b ↔ ∃ p ∈ (a.map (·.result)).zip (b.map (·.result)), p.1 ≠ p.2 := by
  constructor
  · rintro ⟨i, r, t, hr, ht, hne⟩
    exact ⟨(r, t), List.mem_of_getElem? (List.getElem?_zip_eq_some.2 ⟨hr, ht⟩), hne⟩
  · rintro ⟨⟨r, t⟩, hp, hne⟩
    obtain ⟨i, hi⟩ := List.mem_iff_getElem?.1 hp
    obtain ⟨hr, ht⟩ := List.getElem?_zip_eq_some.1 hi
    exact ⟨i, r, t, hr, ht, hne⟩

instance : DecidableRel Apart := fun _ _ => decidable_of_iff _ apart_iff.symm

theorem Apart.symm {a b : List PortableLabel} (h : Apart a b) : Apart b a := by
  obtain ⟨i, r, t, hr, ht, hne⟩ := h
  exact ⟨i, t, r, ht, hr, hne.symm⟩

/-! ## Expanding theses -/

namespace Account

def start : Account := ⟨[], [], []⟩

def resolve (a : Account) : Referent → Referent
  | .object v => .object v
  | .unknown name => ((a.bindings.lookup name).map Referent.object).getD (.unknown name)

def number? (a : Account) (l : PortableLabel) : Option Nat := a.entries.findIdx? (·.label = l)

def alternativesOf (a : Account) (l : PortableLabel) : List (List PortableLabel) :=
  ((a.entries.find? (·.label = l)).map (·.alternatives)).getD []

/-- The account with an entry for a label. -/
def withEntry (a : Account) (l : PortableLabel) : Account :=
  if (a.number? l).isNone then { a with entries := a.entries ++ [⟨l, []⟩] } else a

def setAlternatives (a : Account) (l : PortableLabel) (as : List (List PortableLabel)) : Account :=
  { a with entries := a.entries.map fun e =>
      if e.label = l then { e with alternatives := as } else e }

def ground (r : Referent) : Action Account Json := do
  match (← get).resolve r with
  | .object v => return v
  | .unknown _ => throw unproven

def groundClaim (c : Claim Referent) : Action Account PortableLabel := do
  let parameters ← c.parameters.mapM ground
  let result ← c.result.mapM ground
  return ⟨c.function, parameters, result⟩

/-- Record alternatives of a label with those recorded before. -/
def add (l : PortableLabel) (as : List (List PortableLabel)) : Action Account Unit := do
  let before := (← get).alternativesOf l
  modify (·.withEntry l)
  if (before ++ as).Pairwise Apart then modify (·.setAlternatives l (before ++ as))
  else throw ambiguous

theorem run_add (a : Account) (l : PortableLabel) (as : List (List PortableLabel)) :
    (add l as).run a =
      if (a.alternativesOf l ++ as).Pairwise Apart then
        (.ok (), (a.withEntry l).setAlternatives l (a.alternativesOf l ++ as))
      else (.error ambiguous, a.withEntry l) := by
  unfold add
  rw [Action.run_bind_of_ok (Action.run_get a), Action.run_bind_of_ok (Action.run_modify _ a)]
  split <;> rfl

@[simp] theorem bindings_withEntry (a : Account) (l : PortableLabel) :
    (a.withEntry l).bindings = a.bindings := by
  unfold withEntry
  split <;> rfl

@[simp] theorem proved_withEntry (a : Account) (l : PortableLabel) :
    (a.withEntry l).proved = a.proved := by
  unfold withEntry
  split <;> rfl

theorem entries_withEntry (a : Account) (l : PortableLabel) : (a.withEntry l).entries =
    if (a.number? l).isNone then a.entries ++ [⟨l, []⟩] else a.entries := by
  unfold withEntry
  split <;> rfl

/-- Ground the result of a thesis, record alternatives of its label, and list the label. -/
def record (c : Claim Referent) (parameters : List Json)
    (as : PortableLabel → List (List PortableLabel)) : Action Account PortableLabel := do
  let l : PortableLabel := ⟨c.function, parameters, ← c.result.mapM ground⟩
  add l (as l)
  modify fun a => { a with proved := a.proved ++ [l] }
  return l

/-- The mappings of a thesis have to bind the variables of the sketch and no others. -/
def checkNames (t : Thesis) (sk : Sketch) : Except Failure Unit :=
  if t.mappings.isEmpty || t.names = Keyed.names sk.names then .ok () else .error unproven

variable (sketchOf : Expander) (E : Json → Json → Prop) [DecidableRel E]

def unify (p m : Referent) : Action Account Unit := do
  let a ← get
  match a.resolve p, a.resolve m with
  | .object v, .object w => if E v w then return () else throw conflict
  | .unknown name, .object v | .object v, .unknown name =>
    modify fun a => { a with bindings := a.bindings ++ [(name, v)] }
  | .unknown x, .unknown y => if x = y then return () else throw conflict

def unifyEach : List Referent → List Referent → Action Account Unit
  | p :: proof, m :: model => do
    unify E p m
    unifyEach proof model
  | _, _ => return ()

def unifyAll (proof model : List Referent) : Action Account Unit := do
  if proof.length ≠ model.length then throw conflict
  unifyEach E proof model

/-- Check that an execution with these claims returns this result. -/
def verify (result : List Referent) (sk : Sketch) (cs : List (Claim Referent)) :
    Action Account Unit := do
  unifyAll E result (← sk.returned .object cs)

/-- One alternative of a thesis with this result: a mapping unified with the sketch. -/
def alternative (result : List Referent) (sk : Sketch) (m : Dictionary Referent) :
    Action Account (List PortableLabel) := do
  let cs ← sk.claims .object m.get?
  verify E result sk cs
  cs.mapM groundClaim

def alternatives (t : Thesis) (parameters : List Json) :
    Action Account (List (List PortableLabel)) := do
  let sk ← sketchOf t.claim.function parameters
  checkNames t sk
  t.mappings.mapM (alternative E t.claim.result sk)

def expand (t : Thesis) : Action Account PortableLabel := do
  let parameters ← t.claim.parameters.mapM ground
  if t.claim.function = Call.coinFunction then
    if !t.mappings.isEmpty then throw unproven
    record t.claim parameters fun l => [[l]]
  else
    let as ← alternatives sketchOf E t parameters
    record t.claim parameters fun _ => as

def expandAll (ts : List Thesis) : Action Account Unit :=
  ts.forM fun t => do let _ ← expand sketchOf E t

end Account

/-! ## Solving -/

/-- What is found about an account. -/
structure Account.Results (α : Type) where
  labels : List (PortableLabel × α)
  proved : List PortableLabel
  bindings : List (String × Json)
  components : List (List Nat)
  recursiveComponents : Nat
  passes : Nat

namespace Account

def dependencies (a : Account) (e : Entry) : List Nat :=
  (e.alternatives.flatten.filter (·.function != Call.coinFunction)).filterMap a.number?

def graph (a : Account) : Graph :=
  a.entries.zipIdx.foldl (fun g (e, i) => (a.dependencies e).foldl (fun g j => g.addEdge i j) g)
    (.ofSize a.entries.length)

variable {α : Type} (A : Arithmetic α)

/-- The probability that a coin lands as its label says. -/
def coinValue (l : PortableLabel) : Except Failure α :=
  match l.parameters with
  | [v] => do
    let p ← (probabilityOf v).mapError fun _ => noCoin
    match l.result with
    | [r] =>
      match r.bool? with
      | some landed => .ok (A.coin p landed)
      | none => .error noCoin
    | _ => .error noCoin
  | _ => .error noCoin

def termOf (a : Account) (t : Term α) : List PortableLabel → Except Failure (Term α)
  | [] => .ok t
  | l :: rest =>
    if l.function = Call.coinFunction then do
      let p ← coinValue A l
      termOf a { t with coefficient := A.times t.coefficient p } rest
    else
      match a.number? l with
      | some i => termOf a { t with dependencies := t.dependencies ++ [i] } rest
      | none => termOf a { t with coefficient := A.impossible } rest

def system (a : Account) : Except Failure (System α) := do
  let equations ← a.entries.mapM fun e => e.alternatives.mapM (termOf A a ⟨A.certain, []⟩)
  return equations.toArray

def solve (budget : Option Nat) (limit : Nat) (a : Account) :
    Option (Except Failure (Account.Results α)) :=
  match a.system A with
  | .error f => some (.error f)
  | .ok system =>
    match system.solve A a.graph a.graph.components budget limit with
    | none => none
    | some (.error _) => some (.error unsettled)
    | some (.ok (values, passes)) => some (.ok {
        labels := (a.entries.map (·.label)).zip values.toList
        proved := a.proved
        bindings := a.bindings
        components := a.graph.components
        recursiveComponents := a.graph.components.countP a.graph.isRecursive
        passes := passes })

end Account

end ChanceProof
