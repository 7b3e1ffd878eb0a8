import ChanceProof.Proofs.Model.Action
import ChanceProof.Wire.Values
import Mathlib.Data.List.Nodup

/-!
# Well-formed programs

When assignments and results make a distribution can be said without going through them: no name is
bound twice, and every value is a literal, or reads a variable or a result of an assignment that
comes earlier (`Distribution.WellFormed`). The check goes through them once, with a set of names
that grows, and it accepts just these programs (`Distribution.check_ok_iff`). The set that it has at
an assignment holds the names of the assignments before, which is all that the induction needs.

On its way the check looks up the assignments that values refer to. `Distribution.checkWithin` is
the same check where a look-up beyond the assignments ends without an answer; it always has one.
-/

namespace ChanceProof.Distribution

/-! ## What well-formed programs are -/

/-- The value may stand in assignment number `position`, and among the results when that is the
number of assignments. Nothing that unification has to find may stand anywhere. -/
inductive Allows (as : List Assignment) (position : Nat) : Value → Prop
  | literal (h : Handle) : Allows as position (.literal h)
  | named {name : String} {i : Nat} {a : Assignment} (earlier : i < position)
    (assigned : as[i]? = some a) (bound : name ∈ a.names) : Allows as position (.named name)
  | output {call index : Nat} {a : Assignment} (earlier : call < position)
    (assigned : as[call]? = some a) (inRange : index < a.names.length) :
    Allows as position (.output call index)

structure WellFormed (as : List Assignment) (result : List Value) : Prop where
  distinct : (as.flatMap (·.names)).Nodup
  parameters : ∀ i a, as[i]? = some a → ∀ v ∈ a.call.parameters, Allows as i v
  result : ∀ v ∈ result, Allows as as.length v

/-! ## What the check accepts -/

/-- The names that are bound when assignment number `position` is checked. -/
def boundAt (as : List Assignment) (position : Nat) : List String :=
  ((as.take position).flatMap (·.names)).reverse

theorem mem_boundAt {as : List Assignment} {position : Nat} {name : String} :
    name ∈ boundAt as position ↔
      ∃ i a, i < position ∧ as[i]? = some a ∧ name ∈ a.names := by
  rw [boundAt, List.mem_reverse, List.mem_flatMap]
  constructor
  · rintro ⟨a, ha, hname⟩
    obtain ⟨i, hi⟩ := List.mem_iff_getElem?.1 ha
    rw [List.getElem?_take] at hi
    split at hi
    · next hlt => exact ⟨i, a, hlt, hi, hname⟩
    · cases hi
  · rintro ⟨i, a, hlt, ha, hname⟩
    refine ⟨a, List.mem_iff_getElem?.2 ⟨i, ?_⟩, hname⟩
    rw [List.getElem?_take, if_pos hlt, ha]

theorem boundAt_length (as : List Assignment) :
    boundAt as as.length = (as.flatMap (·.names)).reverse := by
  rw [boundAt, List.take_length]

theorem nodup_boundAt {as : List Assignment} (h : (as.flatMap (·.names)).Nodup) (position : Nat) :
    (boundAt as position).Nodup := by
  rw [← List.take_append_drop position as, List.flatMap_append] at h
  exact List.nodup_reverse.2 (List.nodup_append.1 h).1

theorem boundAt_succ {as : List Assignment} {position : Nat} {a : Assignment}
    (ha : as[position]? = some a) :
    boundAt as (position + 1) = a.names.reverse ++ boundAt as position := by
  rw [boundAt, List.take_add_one, ha, List.flatMap_append, List.reverse_append, boundAt]
  simp

theorem checkReference_ok_iff {as : List Assignment} {position : Nat} {v : Value} :
    checkReference as position (boundAt as position) v = .ok () ↔ Allows as position v := by
  constructor
  · intro h
    cases v with
    | literal a => exact .literal a
    | output call index =>
        simp only [checkReference] at h
        split at h
        · cases h
        · next hcall =>
            split at h
            · cases h
            · next hindex =>
                cases ha : as[call]? with
                | none => simp [ha] at hindex
                | some a =>
                    rw [ha] at hindex
                    exact .output (Nat.lt_of_not_le hcall) ha (Nat.lt_of_not_le hindex)
    | named name =>
        simp only [checkReference] at h
        split at h
        · next hbound =>
            obtain ⟨i, a, hi, ha, hname⟩ := mem_boundAt.1 (List.contains_iff_mem.1 hbound)
            exact .named hi ha hname
        · cases h
    | unknown name => cases h
  · intro h
    cases h with
    | literal a => rfl
    | output earlier assigned inRange =>
        rw [checkReference, if_neg (Nat.not_le.2 earlier), assigned]
        exact if_neg (Nat.not_le.2 inRange)
    | named earlier assigned bound =>
        have hmem := mem_boundAt.2 ⟨_, _, earlier, assigned, bound⟩
        rw [checkReference, if_pos (List.contains_iff_mem.2 hmem)]

/-- Names can be bound as long as none of them has been. -/
theorem bindNames_ok_iff {bound bound' names : List String} (hbound : bound.Nodup) :
    bindNames bound names = .ok bound' ↔ bound' = names.reverse ++ bound ∧ bound'.Nodup := by
  induction names generalizing bound with
  | nil =>
      rw [bindNames, Except.ok.injEq, List.reverse_nil, List.nil_append]
      exact ⟨fun h => ⟨h.symm, h ▸ hbound⟩, fun h => h.1.symm⟩
  | cons name names ih =>
      rw [bindNames, List.reverse_cons, List.append_assoc, List.singleton_append]
      split
      · next hmem =>
          refine ⟨fun h => (nomatch h), ?_⟩
          rintro ⟨rfl, hnodup⟩
          have hcons : (name :: bound).Nodup := (List.nodup_append.1 hnodup).2.1
          exact absurd (List.contains_iff_mem.1 hmem) (List.nodup_cons.1 hcons).1
      · next hnew =>
          exact ih (List.nodup_cons.2 ⟨fun hmem => hnew (List.contains_iff_mem.2 hmem), hbound⟩)

/-- From any assignment on, the check accepts when the names stay distinct and every value may stand
where it does. -/
theorem checkFrom_ok_iff {as rest : List Assignment} {position : Nat} {bound' : List String}
    (hrest : as.drop position = rest) (hbound : (boundAt as position).Nodup) :
    checkFrom as position (boundAt as position) rest = .ok bound' ↔
      bound' = boundAt as as.length ∧ bound'.Nodup ∧
        ∀ i a, position ≤ i → as[i]? = some a → ∀ v ∈ a.call.parameters, Allows as i v := by
  induction rest generalizing position with
  | nil =>
      have hlen : as.length ≤ position := List.drop_eq_nil_iff.1 hrest
      have hall : boundAt as position = boundAt as as.length := by
        rw [boundAt, boundAt, List.take_of_length_le hlen, List.take_length]
      rw [hall] at hbound ⊢
      rw [checkFrom, Except.ok.injEq]
      refine ⟨?_, fun h => h.1.symm⟩
      rintro rfl
      refine ⟨rfl, hbound, fun i a hi ha => ?_⟩
      rw [List.getElem?_eq_none (Nat.le_trans hlen hi)] at ha
      cases ha
  | cons a rest ih =>
      have ha : as[position]? = some a := by rw [← List.head?_drop, hrest, List.head?_cons]
      have hnext : as.drop (position + 1) = rest := by
        rw [← List.tail_drop, hrest, List.tail_cons]
      have hstep : checkFrom as position (boundAt as position) (a :: rest) = .ok bound' ↔
          (∀ v ∈ a.call.parameters, Allows as position v) ∧ (boundAt as (position + 1)).Nodup ∧
            checkFrom as (position + 1) (boundAt as (position + 1)) rest = .ok bound' := by
        simp only [checkFrom, bind_eq_ok_iff, bindNames_ok_iff hbound, ← boundAt_succ ha]
        constructor
        · rintro ⟨_, hparameters, bound, ⟨rfl, hnodup⟩, hcheck⟩
          exact ⟨fun v hv => checkReference_ok_iff.1 (forM_ok_iff.1 hparameters v hv), hnodup,
            hcheck⟩
        · rintro ⟨hparameters, hnodup, hcheck⟩
          exact ⟨(), forM_ok_iff.2 fun v hv => checkReference_ok_iff.2 (hparameters v hv), _,
            ⟨rfl, hnodup⟩, hcheck⟩
      rw [hstep]
      constructor
      · rintro ⟨hparameters, hnodup, hcheck⟩
        obtain ⟨rfl, hall, hlater⟩ := (ih hnext hnodup).1 hcheck
        refine ⟨rfl, hall, fun i b hi hb => ?_⟩
        rcases Nat.lt_or_eq_of_le hi with hlt | rfl
        · exact hlater i b hlt hb
        · cases ha.symm.trans hb
          exact hparameters
      · rintro ⟨rfl, hall, hlater⟩
        rw [boundAt_length, List.nodup_reverse] at hall
        have hnodup := nodup_boundAt hall (position + 1)
        have hrest := (ih hnext hnodup).2 ⟨rfl, nodup_boundAt hall as.length,
          fun i b hi => hlater i b (Nat.le_of_succ_le hi)⟩
        exact ⟨hlater position a (Nat.le_refl _) ha, hnodup, hrest⟩

theorem check_ok_iff {as : List Assignment} {result : List Value} :
    check as result = .ok () ↔ WellFormed as result := by
  have hstart : (boundAt as 0).Nodup := List.nodup_nil
  unfold check
  rw [bind_eq_ok_iff]
  constructor
  · rintro ⟨bound, hcheck, hresult⟩
    obtain ⟨rfl, hnodup, hparameters⟩ := (checkFrom_ok_iff rfl hstart).1 hcheck
    rw [boundAt_length, List.nodup_reverse] at hnodup
    exact ⟨hnodup, fun i a => hparameters i a (Nat.zero_le i),
      fun v hv => checkReference_ok_iff.1 (forM_ok_iff.1 hresult v hv)⟩
  · intro h
    exact ⟨_, (checkFrom_ok_iff rfl hstart).2
      ⟨rfl, nodup_boundAt h.distinct as.length, fun i a _ => h.parameters i a⟩,
      forM_ok_iff.2 fun v hv => checkReference_ok_iff.2 (h.result v hv)⟩

theorem wellFormed (d : Distribution) : WellFormed d.assignments d.result :=
  check_ok_iff.1 d.checked

instance (as : List Assignment) (result : List Value) : Decidable (WellFormed as result) :=
  decidable_of_iff _ check_ok_iff

/-- The call of an assignment cannot read what the assignment itself binds. -/
example : ¬WellFormed [⟨⟨"pick", [.named "x"]⟩, ["x"]⟩] [.output 0 0] ∧
    WellFormed [⟨⟨"pick", []⟩, ["x"]⟩, ⟨⟨"pick", [.named "x"]⟩, ["y"]⟩]
      [.output 0 0, .named "y"] := by
  decide

/-! ## Looking up assignments -/

/-- Look up an assignment. Beyond the assignments there is no answer at all. -/
def assigned (as : List Assignment) (n : Nat) : ExceptT Defect Option Assignment :=
  ExceptT.mk (as[n]?.map .ok)

def checkReferenceWithin (as : List Assignment) (position : Nat) (bound : List String) :
    Value → ExceptT Defect Option Unit
  | .output call index =>
    if position ≤ call then throw (.forward (.output call index) position)
    else do
      let a ← assigned as call
      if a.names.length ≤ index then
        throw (.outOfRange (.output call index) call a.names.length)
  | v => checkReference as position bound v

def checkFromWithin (as : List Assignment) :
    (position : Nat) → (bound : List String) → List Assignment → ExceptT Defect Option (List String)
  | _, bound, [] => return bound
  | position, bound, a :: rest => do
    a.call.parameters.forM (checkReferenceWithin as position bound)
    checkFromWithin as (position + 1) (← bindNames bound a.names) rest

/-- The check of a distribution where looking up an assignment that is not there leaves it without
an answer. -/
def checkWithin (as : List Assignment) (result : List Value) : ExceptT Defect Option Unit := do
  let bound ← checkFromWithin as 0 [] as
  result.forM (checkReferenceWithin as as.length bound)

section

variable {α β : Type}

/-- The first operation has the answer of the second. -/
def HasAnswer (x : ExceptT Defect Option α) (y : Except Defect α) : Prop := x = some y

theorem HasAnswer.bind {x : ExceptT Defect Option α} {y : Except Defect α}
    {f : α → ExceptT Defect Option β} {g : α → Except Defect β} (hx : HasAnswer x y)
    (hf : ∀ u, HasAnswer (f u) (g u)) : HasAnswer (x >>= f) (y >>= g) := by
  rw [HasAnswer] at hx
  subst hx
  cases y with
  | error e => rfl
  | ok u => exact hf u

theorem HasAnswer.forM {f : α → ExceptT Defect Option Unit} {g : α → Except Defect Unit}
    (hf : ∀ u, HasAnswer (f u) (g u)) (xs : List α) : HasAnswer (xs.forM f) (xs.forM g) := by
  induction xs with
  | nil => rfl
  | cons x xs ih =>
      rw [List.forM_eq_forM, List.forM_cons, List.forM_eq_forM, List.forM_cons]
      exact (hf x).bind fun _ => ih

end

/-- A reference is looked up only when it points back. -/
theorem hasAnswer_checkReference {as : List Assignment} {position : Nat}
    (hposition : position ≤ as.length) (bound : List String) (v : Value) :
    HasAnswer (checkReferenceWithin as position bound v) (checkReference as position bound v) := by
  cases v with
  | output call index =>
      rw [checkReferenceWithin, checkReference]
      split
      · rfl
      · next hback =>
          have ha : as[call]? = some as[call] := List.getElem?_eq_getElem (by omega)
          rw [assigned, ha]
          refine HasAnswer.bind (y := .ok as[call]) (g := fun a => if a.names.length ≤ index then
            .error (.outOfRange (.output call index) call a.names.length) else .ok ()) rfl
            fun a => ?_
          split <;> rfl
  | _ => rfl

theorem hasAnswer_checkFrom {as rest : List Assignment} {position : Nat}
    (hrest : as.drop position = rest) (bound : List String) :
    HasAnswer (checkFromWithin as position bound rest) (checkFrom as position bound rest) := by
  induction rest generalizing position bound with
  | nil => rfl
  | cons a rest ih =>
      have hposition : position ≤ as.length := by
        by_contra hlt
        rw [List.drop_of_length_le (by omega)] at hrest
        cases hrest
      have hnext : as.drop (position + 1) = rest := by
        rw [← List.tail_drop, hrest, List.tail_cons]
      exact (HasAnswer.forM (hasAnswer_checkReference hposition bound) _).bind fun _ =>
        HasAnswer.bind (y := bindNames bound a.names) rfl (ih hnext)

theorem hasAnswer_check (as : List Assignment) (result : List Value) :
    HasAnswer (checkWithin as result) (check as result) :=
  (hasAnswer_checkFrom rfl []).bind fun bound =>
    .forM (hasAnswer_checkReference (Nat.le_refl _) bound) result

/-! ## Making and decoding distributions -/

/-- The assignments and results that a document holds, before they are checked. -/
def decodeParts : Decoder (List Assignment × List Value) :=
  Decoder.twoFields "assignments" (Decoder.list Assignment.decode) "result"
    (Decoder.list Value.decode)

/-- The answer is the distribution of these assignments and results if they are well-formed, and
otherwise that they are malformed, for some reason. -/
def Judges {ε : Type} (malformed : String → ε) (as : List Assignment) (result : List Value) :
    Except ε Distribution → Prop
  | .ok d => WellFormed as result ∧ d.assignments = as ∧ d.result = result
  | .error e => ¬WellFormed as result ∧ ∃ reason, e = malformed reason

theorem judges_make (as : List Assignment) (result : List Value) :
    Judges .malformedDistribution as result (make as result) := by
  cases h : make as result with
  | ok d =>
      obtain ⟨rfl, rfl⟩ := make_eq_ok_iff.1 h
      exact ⟨d.wellFormed, rfl, rfl⟩
  | error f =>
      obtain ⟨e, he, rfl⟩ := make_eq_error_iff.1 h
      exact ⟨fun hwell => (nomatch he.symm.trans (check_ok_iff.2 hwell)), e.reason, rfl⟩

/-- Well-formed assignments and results make a distribution, and no others do, whether they are
given or decoded from a document. The check looks up no assignment that is not there. -/
theorem accepts_wellFormed (as : List Assignment) (result : List Value) :
    Judges .malformedDistribution as result (make as result) ∧
    checkWithin as result = some (check as result) ∧
    (∀ doc, decodeParts doc = .ok (as, result) →
      Judges (fun reason => .described (Failure.malformedDistribution reason).message) as result
        (decode doc)) ∧
    ∀ doc d, decode doc = .ok d → decodeParts doc = .ok (d.assignments, d.result) := by
  have hmake := judges_make as result
  refine ⟨hmake, hasAnswer_check as result, fun doc hdoc => ?_, fun doc d hd => ?_⟩
  · have hdecode : decode doc = Decoder.checkedBy (make as result) := by
      rw [decode]
      exact congrArg (· >>= fun x => Decoder.checkedBy (make x.1 x.2)) hdoc
    rw [hdecode]
    cases hr : make as result with
    | ok d =>
        rw [hr] at hmake
        exact hmake
    | error f =>
        rw [hr] at hmake
        obtain ⟨hnot, reason, rfl⟩ := hmake
        exact ⟨hnot, reason, rfl⟩
  · obtain ⟨⟨as', result'⟩, hparts, hd⟩ := bind_eq_ok_iff.1 hd
    obtain ⟨rfl, rfl⟩ := make_eq_ok_iff.1 (mapError_ok.1 hd)
    exact hparts

end ChanceProof.Distribution
