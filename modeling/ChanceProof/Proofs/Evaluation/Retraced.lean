import ChanceProof.Proofs.Distribution.Walked
import ChanceProof.Proofs.Evaluation.Paths

/-!
# Claims retrace the distribution they are made from

A distribution is walked twice for every mapping: once to make the claims, where the mapping gives
the results, and once to check them, where the claims do. The second walk has the calls of the first
at every place (`Session.Retraces`), so what is unified there is unified with itself, and nothing
comes of it but the comparison of the final results (`Session.claims_retrace`).
-/

namespace ChanceProof

namespace Session

variable {σ : Type} {M : Model σ}

/-! ## A value is unified with itself -/

theorem run_unify_self (s : Session σ) (l : Label) {v : Value} (h : Proof.checkValue v = .ok ()) :
    (unify M l v v).run s = (.ok (), s) := by
  unfold unify
  rw [Action.run_bind_of_ok (Action.run_get s)]
  rcases s.resolve_eq_or v with hv | ⟨x, a, rfl, -, hv⟩
  · rw [hv]
    cases v with
    | literal a => simp [unifyHandles]
    | unknown x => simp
    | _ => cases h
  · simp [hv, unifyHandles]

theorem run_unifyEach_self (s : Session σ) (l : Label) {vs : List Value}
    (h : ∀ v ∈ vs, Proof.checkValue v = .ok ()) : (unifyEach M l vs vs).run s = (.ok (), s) := by
  induction vs with
  | nil => rfl
  | cons v vs ih =>
      unfold unifyEach
      rw [Action.run_bind_of_ok (run_unify_self s l (h v List.mem_cons_self))]
      exact ih fun v hv => h v (List.mem_cons_of_mem _ hv)

theorem run_unifyCalls_self (s : Session σ) (l : Label) {c : Call}
    (h : ∀ v ∈ c.parameters, Proof.checkValue v = .ok ()) :
    (unifyCalls M l c c).run s = (.ok (), s) := by
  unfold unifyCalls unifyValues
  simp only [ne_eq, not_true_eq_false, if_false]
  exact run_unifyEach_self s l h

/-! ## The second walk -/

/-- The labels retrace the distribution from where these results are bound. Each makes the call that
the walk has at its place; unified with itself, whatever the model and the session, it succeeds and
leaves everything as it was; and the results of the label are bound. -/
inductive Retraces (d : Distribution) : List (List Value) → List Label → Prop
  | done {results : List (List Value)} (ended : results.length = d.assignments.length) :
    Retraces d results []
  | step {results : List (List Value)} {a : Assignment} {claim : Label} {rest : List Label}
    (next : d.assignments[results.length]? = some a)
    (call : Walk.resolveCall ⟨d, results⟩ a.call = .ok claim.call)
    (unified : ∀ {σ : Type} (M : Model σ) (l : Label) (s : Session σ),
      (unifyCalls M l claim.call claim.call).run s = (.ok (), s))
    (bound : Walk.bind ⟨d, results⟩ claim.result = .ok ⟨d, results ++ [claim.result]⟩)
    (further : Retraces d (results ++ [claim.result]) rest) :
    Retraces d results (claim :: rest)

section

variable {d : Distribution} {results : List (List Value)} {cs : List Label}

theorem Retraces.length_eq (h : Retraces d results cs) :
    results.length + cs.length = d.assignments.length := by
  induction h with
  | done ended => exact ended
  | step _ _ _ _ _ ih =>
      rw [← ih, List.length_append, List.length_singleton, List.length_cons]
      omega

theorem Retraces.fitting (h : Retraces d results cs) (hfit : d.Fitting results) :
    d.Fitting (results ++ cs.map (·.result)) := by
  induction h with
  | done _ => rwa [List.map_nil, List.append_nil]
  | step next _ _ bound _ ih =>
      obtain ⟨⟨b, hb, hlen⟩, -⟩ := Walk.bind_eq_ok_iff.1 bound
      rw [List.map_cons, List.append_cons]
      exact ih (Distribution.fitting_append.2 ⟨hfit, b, hb, hlen⟩)

/-- Labels that retrace the distribution pass the check without any question to the model. -/
theorem Retraces.run_verifySteps (h : Retraces d results cs) (l : Label) (s : Session σ) :
    (verifySteps M l ⟨d, results⟩ cs).run s = (.ok ⟨d, results ++ cs.map (·.result)⟩, s) := by
  induction h with
  | done _ => simp [verifySteps]
  | @step results a claim rest next call unified bound _ ih =>
      have hnext : Walk.next? ⟨d, results⟩ = some a := next
      unfold verifySteps
      rw [hnext]
      simp only [call, bound, Except.mapError]
      rw [Action.run_bind_of_ok (Action.run_liftM _ s),
        Action.run_bind_of_ok (unified M l s), Action.run_bind_of_ok (Action.run_liftM _ s), ih,
        List.append_assoc]
      rfl

/-- What is left of the check is to compare what the distribution returns with the label. -/
theorem Retraces.run_verify (h : Retraces d [] cs) (l : Label) (s : Session σ) :
    (verify M l d cs).run s =
      ((liftM ((Walk.resolveResult ⟨d, cs.map (·.result)⟩).mapError Defect.failure) >>=
        unifyValues M l l.result : Action (Session σ) Unit)).run s := by
  have hlen : cs.length = d.assignments.length := by
    rw [← h.length_eq, List.length_nil, Nat.zero_add]
  have hsteps : (verifySteps M l (.start d) cs).run s = (.ok ⟨d, cs.map (·.result)⟩, s) :=
    h.run_verifySteps l s
  unfold verify
  rw [if_neg (Decidable.not_not.2 hlen), Action.run_bind_of_ok hsteps]

theorem Retraces.run_verify_of_result (h : Retraces d [] cs) {l : Label} {s : Session σ}
    {result : List Value} (hresult : Walk.resolveResult ⟨d, cs.map (·.result)⟩ = .ok result) :
    (verify M l d cs).run s = (unifyValues M l l.result result).run s := by
  rw [h.run_verify, hresult]
  exact Action.run_bind_of_ok (Action.run_liftM _ s)

end

/-! ## The first walk -/

section

variable {l : Label} {d : Distribution} {m : Mapping} {results : List (List Value)}
  {as : List Assignment} {cs : List Label}

/-- The claims that a mapping yields retrace the distribution, once their calls have nothing but
literals and unknowns for parameters. -/
theorem retraces_of_claimsFrom (h : claimsFrom l m ⟨d, results⟩ as = .ok cs)
    (hfit : d.Fitting results) (has : d.assignments.drop results.length = as)
    (hvalues : ∀ c ∈ cs, ∀ v ∈ c.call.parameters, Proof.checkValue v = .ok ()) :
    Retraces d results cs := by
  induction as generalizing results cs with
  | nil =>
      cases h
      exact .done (Nat.le_antisymm hfit.length_le (List.drop_eq_nil_iff.1 has))
  | cons a as ih =>
      obtain ⟨ps, result, w', cs', hps, -, hbind, hrest, rfl⟩ := claimsFrom_cons_ok h
      obtain ⟨hnext, rfl⟩ := Walk.bind_eq_ok_iff.1 hbind
      have ha : d.assignments[results.length]? = some a := by
        rw [← List.head?_drop, has, List.head?_cons]
      have hcall : Walk.resolveCall ⟨d, results⟩ a.call = .ok ⟨a.call.function, ps⟩ := by
        rw [Walk.resolveCall, hps]
        rfl
      refine .step ha hcall (fun M l s =>
        run_unifyCalls_self s l (hvalues _ List.mem_cons_self)) hbind
        (ih hrest (Distribution.fitting_append.2 ⟨hfit, hnext⟩) ?_ fun c hc =>
          hvalues c (List.mem_cons_of_mem _ hc))
      rw [List.length_append, List.length_singleton, ← List.tail_drop, has, List.tail_cons]

theorem retraces_of_claims (h : claims l d m = .ok cs)
    (hvalues : ∀ c ∈ cs, ∀ v ∈ c.call.parameters, Proof.checkValue v = .ok ()) :
    Retraces d [] cs :=
  retraces_of_claimsFrom h d.fitting_nil rfl hvalues

/-- A walk makes no references: what it resolves is in the distribution or among its results. -/
theorem checkValue_of_resolve {w : Walk} {v u : Value} (h : w.resolve v = .ok u)
    (hresults : ∀ values ∈ w.results, ∀ v ∈ values, Proof.checkValue v = .ok ()) :
    Proof.checkValue u = .ok () := by
  rcases Walk.resolve_eq_ok_iff.1 h with ⟨⟨a, rfl⟩ | ⟨x, rfl⟩, rfl⟩ | ⟨place, -, hbound⟩
  · rfl
  · rfl
  · obtain ⟨values, hvalues, hu⟩ := Option.bind_eq_some_iff.1 hbound
    exact hresults values (List.mem_of_getElem? hvalues) u (List.mem_of_getElem? hu)

theorem checkValue_of_claimsFrom {w : Walk} (h : claimsFrom l m w as = .ok cs)
    (hm : ∀ name v, m.get? name = some v → Proof.checkValue v = .ok ())
    (hresults : ∀ values ∈ w.results, ∀ v ∈ values, Proof.checkValue v = .ok ()) :
    ∀ c ∈ cs, ∀ v ∈ c.call.parameters, Proof.checkValue v = .ok () := by
  induction as generalizing w cs with
  | nil =>
      cases h
      exact fun c hc => (nomatch hc)
  | cons a as ih =>
      obtain ⟨ps, result, w', cs', hps, hresult, hbind, hrest, rfl⟩ := claimsFrom_cons_ok h
      obtain ⟨-, rfl⟩ := Walk.bind_eq_ok_iff.1 hbind
      have hlast : ∀ v ∈ result, Proof.checkValue v = .ok () := fun v hv => by
        obtain ⟨name, -, hget⟩ := exists_of_forall₂_mem (mapM_mapped_ok hresult) hv
        exact hm name v hget
      have hlater := ih hrest fun values hvalues => by
        rcases List.mem_append.1 hvalues with hvalues | hvalues
        · exact hresults values hvalues
        · rwa [List.mem_singleton.1 hvalues]
      intro c hc v hv
      rcases List.mem_cons.1 hc with rfl | hc
      · obtain ⟨u, -, hu⟩ := exists_of_forall₂_mem (mapM_ok_iff.1 hps) hv
        exact checkValue_of_resolve hu hresults
      · exact hlater c hc v hv

/-- A mapping that has all the names of the distribution yields a claim for each of its calls. -/
theorem claimsFrom_total (hnames : ∀ name ∈ d.names, name ∈ m.keys) (hfit : d.Fitting results)
    (has : d.assignments.drop results.length = as) :
    ∃ cs, ∀ l, claimsFrom l m ⟨d, results⟩ as = .ok cs := by
  induction as generalizing results with
  | nil => exact ⟨[], fun _ => rfl⟩
  | cons a as ih =>
      have ha : d.assignments[results.length]? = some a := by
        rw [← List.head?_drop, has, List.head?_cons]
      obtain ⟨ps, hcall, -⟩ := hfit.resolvesCall ha
      obtain ⟨result, hresult⟩ := exists_forall₂ (l := a.names)
        (R := fun name v => m.get? name = some v) fun name hname => by
          have hmem := hnames name (List.mem_flatMap.2 ⟨a, List.mem_of_getElem? ha, hname⟩)
          obtain ⟨e, he, rfl⟩ := List.mem_map.1 hmem
          exact ⟨e.2, Dictionary.get?_of_mem he⟩
      have hbind : Walk.bind ⟨d, results⟩ result = .ok ⟨d, results ++ [result]⟩ :=
        Walk.bind_eq_ok_iff.2 ⟨⟨a, ha, hresult.length_eq⟩, rfl⟩
      obtain ⟨cs, hcs⟩ := ih
        (Distribution.fitting_append.2 ⟨hfit, a, ha, hresult.length_eq⟩)
        (by rw [List.length_append, List.length_singleton, ← List.tail_drop, has, List.tail_cons])
      refine ⟨⟨⟨a.call.function, ps⟩, result⟩ :: cs, fun l => ?_⟩
      have hmapped : a.names.mapM (mapped l m) = .ok result := mapM_ok_iff.2 <|
        hresult.imp fun name v hget => by rw [mapped, hget]
      rw [claimsFrom]
      exact bind_eq_ok_iff.2 ⟨_, mapError_ok.2 hcall, bind_eq_ok_iff.2 ⟨result, hmapped,
        bind_eq_ok_iff.2 ⟨_, mapError_ok.2 hbind, bind_eq_ok_iff.2 ⟨cs, hcs l, rfl⟩⟩⟩⟩

end

/-- A mapping that gives literals and unknowns to the names of a distribution yields claims, and
these retrace the distribution. So in every session over every model, the check of them comes down
to the comparison of the results of the label with what the distribution returns, which is known by
then. -/
theorem claims_retrace {d : Distribution} {m : Mapping}
    (hnames : ∀ name ∈ d.names, name ∈ m.keys)
    (hvalues : ∀ e ∈ m.entries, (∃ a, e.2 = .literal a) ∨ ∃ x, e.2 = .unknown x) :
    ∃ cs result, (∀ l, claims l d m = .ok cs) ∧ Retraces d [] cs ∧
      Walk.resolveResult ⟨d, cs.map (·.result)⟩ = .ok result ∧
      ∀ {σ : Type} (M : Model σ) (l : Label) (s : Session σ),
        (verify M l d cs).run s = (unifyValues M l l.result result).run s := by
  obtain ⟨cs, hcs⟩ := claimsFrom_total hnames d.fitting_nil rfl
  have hchecked : ∀ name v, m.get? name = some v → Proof.checkValue v = .ok () := by
    intro name v hget
    rcases hvalues _ (Dictionary.mem_of_get? hget) with ⟨a, rfl⟩ | ⟨x, rfl⟩ <;> rfl
  have hretraces : Retraces d [] cs := retraces_of_claims (l := default) (hcs _)
    (checkValue_of_claimsFrom (hcs default) hchecked fun _ h => (nomatch h))
  obtain ⟨result, hresult, -⟩ := (hretraces.fitting d.fitting_nil).resolvesResult <| by
    rw [List.nil_append, List.length_map, ← hretraces.length_eq, List.length_nil, Nat.zero_add]
  exact ⟨cs, result, hcs, hretraces, hresult, fun M l s => hretraces.run_verify_of_result hresult⟩

end Session

/-! ## A mapping with an unknown -/

namespace unknownPick

/-- What is picked is read by its name and by its place. -/
def distribution : Distribution where
  assignments := [⟨⟨"pick", [.literal ⟨0⟩]⟩, ["x"]⟩,
    ⟨⟨"echo", [.named "x", .output 0 0]⟩, ["y"]⟩]
  result := [.named "y", .named "x"]
  checked := by decide

def mapping : Mapping := .ofList [("y", .literal ⟨1⟩), ("x", .unknown "u")]

end unknownPick

theorem unknownPick_retraced :
    (∀ name ∈ unknownPick.distribution.names, name ∈ unknownPick.mapping.keys) ∧
    (∀ e ∈ unknownPick.mapping.entries, (∃ a, e.2 = .literal a) ∨ ∃ x, e.2 = .unknown x) ∧
    ∃ cs result, (∀ l, Session.claims l unknownPick.distribution unknownPick.mapping = .ok cs) ∧
      Session.Retraces unknownPick.distribution [] cs ∧
      Walk.resolveResult ⟨unknownPick.distribution, cs.map (·.result)⟩ = .ok result ∧
      ∀ {σ : Type} (M : Model σ) (l : Label) (s : Session σ),
        (Session.verify M l unknownPick.distribution cs).run s
          = (Session.unifyValues M l l.result result).run s := by
  have hnames : ∀ name ∈ unknownPick.distribution.names, name ∈ unknownPick.mapping.keys := by
    decide
  have hentries : unknownPick.mapping.entries = [("x", .unknown "u"), ("y", .literal ⟨1⟩)] := by
    decide
  have hvalues : ∀ e ∈ unknownPick.mapping.entries,
      (∃ a, e.2 = .literal a) ∨ ∃ x, e.2 = .unknown x := by
    intro e he
    rw [hentries] at he
    rcases List.mem_pair.1 he with rfl | rfl
    · exact .inr ⟨"u", rfl⟩
    · exact .inl ⟨⟨1⟩, rfl⟩
  exact ⟨hnames, hvalues, Session.claims_retrace hnames hvalues⟩

end ChanceProof
