import ChanceProof.CommandLine.Report
import ChanceProof.Proofs.Evaluation.Answered
import ChanceProof.Proofs.Evaluation.Imported
import ChanceProof.Proofs.Evaluation.Substitution

/-!
# A report answers its file

On the way from a proof file to a report every value is interned, replaced by the first handle with
its form, and read back; and every unknown is found in some proof, maybe in another one. Still the
report says of each proof of the file, in order, the label of that proof with the reported values in
place of the unknowns: `proveReport_answers`. For an imported object has the value of the file for
its form, what has a form keeps it, and canonical handles of one form are one handle.
-/

namespace ChanceProof

/-! ## Files with their unknowns written out -/

/-- What the value is when unknowns have these values. -/
def Json.written (bindings : Dictionary Json) (v : Json) : Option Json :=
  match v.marked? with
  | some x => bindings.get? x
  | none => some v

/-- The label with each unknown replaced by its value, if all of them have one. -/
def PortableLabel.written (bindings : Dictionary Json) (l : PortableLabel) :
    Option PortableLabel := do
  let parameters ← l.parameters.mapM (Json.written bindings)
  let result ← l.result.mapM (Json.written bindings)
  return ⟨l.function, parameters, result⟩

def PortableProof.values (p : PortableProof) : List Json :=
  p.label.parameters ++ p.label.result ++ p.mappings.flatMap fun m => m.entries.map (·.2)

/-- The unknowns that a proof of a file names, in its label or in a mapping. -/
def PortableProof.unknowns (p : PortableProof) : List String := p.values.filterMap Json.marked?

theorem mapM_written {bindings : Dictionary Json} {vs js : List Json}
    (h : List.Forall₂ (fun v j => v.written bindings = some j) vs js) :
    vs.mapM (Json.written bindings) = some js := by
  induction h with
  | nil => rfl
  | cons hv _ ih => rw [List.mapM_cons, hv, ih]; rfl

/-- An unknown of a proof in the file is one of the imported proof. -/
theorem Proof.Imports.unknowns {φ : Handle → Option Json} {pp : PortableProof} {p : Proof}
    (h : p.Imports φ pp) {x : String} (hx : x ∈ pp.unknowns) : x ∈ p.unknowns := by
  have hvalue : ∀ {v : Json} {u : Value}, u.Imports φ v → v.marked? = some x →
      u = .unknown x := by
    intro v u hu hv
    cases hu with
    | unknown hmarked =>
        cases hmarked.symm.trans hv
        rfl
    | literal hunmarked =>
        cases hunmarked.symm.trans hv
  have hvalues : ∀ {vs : List Json} {us : List Value},
      List.Forall₂ (fun v u => Value.Imports φ v u) vs us → ∀ v ∈ vs, v.marked? = some x →
      .unknown x ∈ us := by
    intro vs us hus v hv hmarked
    obtain ⟨u, hu, himports⟩ := exists_of_forall₂_mem hus.flip hv
    exact hvalue himports hmarked ▸ hu
  obtain ⟨v, hv, hmarked⟩ := List.mem_filterMap.1 hx
  refine Proof.mem_unknowns.2 ?_
  rcases List.mem_append.1 hv with hlabel | hmapping
  · refine List.mem_append_left _ (List.mem_append.2 ?_)
    exact (List.mem_append.1 hlabel).imp (hvalues h.parameters v · hmarked)
      (hvalues h.result v · hmarked)
  · obtain ⟨d, hd, hmem⟩ := List.mem_flatMap.1 hmapping
    obtain ⟨e, he, rfl⟩ := List.mem_map.1 hmem
    obtain ⟨m, hm, hrelated⟩ := exists_of_forall₂_mem h.mappings.flip hd
    obtain ⟨e', he', -, himports⟩ := exists_of_forall₂_mem (List.Forall₂.flip hrelated) he
    exact List.mem_append_right _ (List.mem_flatMap.2
      ⟨m, hm, List.mem_map.2 ⟨e', he', hvalue himports hmarked⟩⟩)

section

variable {α : Type} {r : Results α} {bindings : Dictionary Json} {φ ψ : Handle → Option Json}
  (hle : ∀ h v, φ h = some v → ψ h = some v)
  (hbound : ∀ x j, r.form? ψ (.unknown x) = some j → bindings.get? x = some j)

include hle hbound

/-- What was imported for a value stands for what is written in its place, as far as the bindings
tell what the results do. -/
theorem Value.Imports.written {v : Json} {u : Value} {j : Json} (h : u.Imports φ v)
    (hj : r.form? ψ u = some j) : v.written bindings = some j := by
  unfold Json.written
  cases h with
  | unknown hmarked =>
      rw [hmarked]
      exact hbound _ j hj
  | literal hunmarked hform =>
      rw [hunmarked]
      exact (hle _ _ hform).symm.trans hj

theorem Proof.Imports.written {pp : PortableProof} {p : Proof} {pl : PortableLabel}
    (h : p.Imports φ pp) (hp : p.label.Reads (r.form? ψ) pl) :
    pp.label.written bindings = some pl := by
  have hvalues : ∀ {vs us js}, List.Forall₂ (fun v u => u.Imports φ v) vs us →
      List.Forall₂ (fun u j => r.form? ψ u = some j) us js →
      vs.mapM (Json.written bindings) = some js := fun himports hforms =>
    mapM_written (forall₂_join himports hforms.flip fun _ _ _ hv => hv.written hle hbound)
  unfold PortableLabel.written
  rw [hvalues h.parameters hp.parameters, hvalues h.result hp.result, h.function, hp.function]
  rfl

end

theorem PortableLabel.toJson_injective {l m : PortableLabel} (h : l.toJson = m.toJson) : l = m := by
  obtain ⟨f, ps, rs⟩ := l
  obtain ⟨g, qs, ts⟩ := m
  simpa [PortableLabel.toJson] using h

/-! ## Reading objects back -/

namespace Model

variable {σ α : Type} {M : Model σ} {I : σ → Prop} {expand : Expander} {E : Json → Json → Prop}
  (hM : M.Meets I expand E)

include hM

/-- Labels of live objects are exported as what they say. -/
theorem exportLabels_ok {vs : List (Label × α)} {es : List (PortableLabel × α)} {w w' : σ}
    (hw : I w) (hlive : ∀ v ∈ vs, ∃ pl, v.1.Reads (literalForm? (M.form? w)) pl)
    (hr : (vs.mapM fun v => do return (← M.exportLabel v.1, v.2) : Action σ _).run w
      = (.ok es, w')) :
    M.Later I w w' ∧ List.Forall₂ (fun v e =>
      v.1.Reads (literalForm? (M.form? w')) e.1 ∧ e.2 = v.2) vs es := by
  refine mapM_ok (I := I) (P := fun v w => ∃ pl, v.1.Reads (literalForm? (M.form? w)) pl)
    (Q := fun (v : Label × α) (e : PortableLabel × α) w =>
      v.1.Reads (literalForm? (M.form? w)) e.1 ∧ e.2 = v.2)
    (fun _ _ _ hle ⟨pl, h⟩ => ⟨pl, h.of_literals hle⟩)
    (fun _ _ _ _ hle h => ⟨h.1.of_literals hle, h.2⟩) (fun v e w w' hw ⟨pl, h⟩ hr => ?_)
    hw hlive hr
  obtain ⟨w₁, hexport, hlater⟩ := exportLabel_of_reads hM hw h
  obtain ⟨pl', w₂, hexport', hr⟩ := Action.run_bind_ok.1 hr
  obtain ⟨rfl, rfl⟩ := Action.run_pure_ok.1 hr
  cases hexport.symm.trans hexport'
  exact ⟨hlater, h.of_literals (hlater hw).2, rfl⟩

/-- Bindings are exported as what is bound. -/
theorem exportBindings_ok {bs : List (String × Handle)} {es : List (String × Json)} {w w' : σ}
    (hw : I w) (hr : (bs.mapM fun b => do return (b.1, ← M.toExternal b.2) : Action σ _).run w
      = (.ok es, w')) :
    M.Later I w w' ∧ Session.BoundInOrder (M.form? w') bs es := by
  refine mapM_ok (I := I) (P := fun _ _ => True)
    (Q := fun (b : String × Handle) (e : String × Json) w =>
      b.1 = e.1 ∧ M.form? w b.2 = some e.2)
    (fun _ _ _ _ _ => trivial) (fun b e w w' hle h => ⟨h.1, hle _ _ h.2⟩)
    (fun b e w w' hw _ hr => ?_) hw (fun _ _ => trivial) hr
  obtain ⟨v, w₁, hv, hr⟩ := Action.run_bind_ok.1 hr
  obtain ⟨rfl, rfl⟩ := Action.run_pure_ok.1 hr
  have hlater := (hM.toExternal_later b.2).of_run hv
  exact ⟨hlater, rfl, (hlater hw).2 _ _ (form?_of_run hv)⟩

end Model

namespace CommandLine

variable {σ α : Type}

theorem Task.explain_ok {context : Chain} {r : Run σ α} {s s' : σ} {x : α} :
    Task.explain context r s = some (.ok x, s') ↔ r s = some (.ok x, s') := by
  unfold Task.explain
  rw [show r.run s = r s from rfl]
  rcases r s with _ | ⟨f | y, t⟩
  · simp
  · simp
  · simp

/-- The steps of a report that is given. -/
theorem proveReport_steps {M : Model σ} {limit : Nat} {text : String} {settings : Settings}
    {w w' : σ} {report : Report}
    (h : proveReport M limit text settings w = some (.ok report, w')) :
    ∃ file ps w₁ r w₂ proved w₃ bindings, parseProofs text = .ok file ∧
      (M.importProofs file).run w = (.ok ps, w₁) ∧
      M.evaluate (logArithmetic settings.tolerance) settings limit ps w₁ = some (.ok r, w₂) ∧
      ((r.provedValues (logArithmetic settings.tolerance)).mapM fun v => do
        return (← M.exportLabel v.1, v.2) : Action σ _).run w₂ = (.ok proved, w₃) ∧
      (r.bindings.mapM fun b => do return (b.1, ← M.toExternal b.2) : Action σ _).run w₃
        = (.ok bindings, w') ∧
      report = ⟨proved, .ofList bindings, r.stats⟩ := by
  obtain ⟨ps, w₁, hload, h⟩ := Run.bind_ok.1 h
  obtain ⟨r, w₂, hevaluate, h⟩ := Run.bind_ok.1 h
  obtain ⟨proved, w₃, hproved, h⟩ := Run.bind_ok.1 h
  obtain ⟨bindings, w₄, hbindings, h⟩ := Run.bind_ok.1 h
  cases h
  obtain ⟨file, _, hread, himport⟩ :=
    Action.run_bind_ok.1 (Option.some.inj (Task.explain_ok.1 hload))
  obtain ⟨hparse, rfl⟩ := Action.run_liftM_ok.1 hread
  refine ⟨file, ps, w₁, r, w₂, proved, w₃, bindings, hparse, himport, Task.explain_ok.1 hevaluate,
    ?_, ?_, rfl⟩
  · have hrun := Task.explain_ok.1 hproved
    have hone : ∀ v : Label × Float, (do return (← Run.ofAction (M.exportLabel v.1), v.2)
        : Run σ (PortableLabel × Float)) = Run.ofAction (do return (← M.exportLabel v.1, v.2)) :=
      fun v => Run.ofAction_bind (M.exportLabel v.1) fun pl => pure (pl, v.2)
    simp only [hone, Run.mapM_ofAction] at hrun
    exact Option.some.inj hrun
  · have hrun := Task.explain_ok.1 hbindings
    have hone : ∀ b : String × Handle, (do return (b.1, ← Run.ofAction (M.toExternal b.2))
        : Run σ (String × Json)) = Run.ofAction (do return (b.1, ← M.toExternal b.2)) :=
      fun b => Run.ofAction_bind (M.toExternal b.2) fun v => pure (b.1, v)
    simp only [hone, Run.mapM_ofAction] at hrun
    exact Option.some.inj hrun

/-- What a reported binding is: the object that is bound in the results. -/
theorem get?_of_boundInOrder {φ : Handle → Option Json} {bs : List (String × Handle)}
    {es : List (String × Json)} (hnames : (bs.map (·.1)).Nodup) (h : Session.BoundInOrder φ bs es)
    {x : String} {a : Handle} {v : Json} (hx : bs.lookup x = some a) (hv : φ a = some v) :
    (Dictionary.ofList es).get? x = some v := by
  have hkeys : bs.map (·.1) = es.map (·.1) :=
    List.forall₂_eq_eq_eq ▸ List.forall₂_map_left_iff.2
      (List.forall₂_map_right_iff.2 (h.imp fun _ _ hb => hb.1))
  obtain ⟨e, he, hname, hform⟩ := exists_of_forall₂_mem (List.Forall₂.flip h)
    (Store.mem_of_lookup hx)
  have hmem := Dictionary.get?_of_mem (d := .ofList es)
    (Keyed.mem_ofList_of_mem (hkeys ▸ hnames) he)
  rw [← hname] at hmem
  rw [hmem, ← hform]
  exact hv

/-- A report that is given answers the file: it has an entry for each proof, in order, with the
label of the proof in which the unknowns are replaced by the values that are reported for them; it
has one value for each unknown that the file names; and labels with one text have one
probability. -/
theorem proveReport_answers {functions : Library} {w w' : Store} (hw : w.Sound) {limit : Nat}
    {text : String} {settings : Settings} {report : Report}
    (h : proveReport functions.model limit text settings w = some (.ok report, w')) :
    ∃ file, parseProofs text = .ok file ∧
      List.Forall₂ (fun p e => p.label.written report.bindings = some e.1) file report.proofs ∧
      (∀ p ∈ file, ∀ x ∈ p.unknowns, report.bindings.keys.count x = 1) ∧
      ∀ e ∈ report.proofs, ∀ e' ∈ report.proofs,
        e.1.toJson.print = e'.1.toJson.print → e.2 = e'.2 := by
  obtain ⟨file, ps, w₁, r, w₂, proved, w₃, bindings, hparse, himport, hevaluate, hproved,
    hbindings, rfl⟩ := proveReport_steps h
  have hM : functions.model.Meets (Library.Holds fun _ => True) functions.expand
      fun v w => v.same w = true :=
    Library.meets (fun _ _ _ _ _ _ _ _ _ => trivial) fun _ _ _ _ => Iff.rfl
  have hw : Library.Holds (fun _ => True) w := ⟨hw, fun _ _ _ => trivial⟩
  obtain ⟨hlater₁, himports, hchecks⟩ := Model.importProofs_ok functions.interns hw himport
  obtain ⟨hw₁, -⟩ := hlater₁ hw
  obtain ⟨hw₂, hle₂, hanswers⟩ := Model.evaluate_answers hM hw₁ hchecks hevaluate
  obtain ⟨hlater₃, hexports⟩ := Model.exportLabels_ok hM hw₂ (fun v hv => by
    obtain ⟨l, hl, rfl⟩ := List.mem_map.1 hv
    obtain ⟨p, -, pl, -, hreads⟩ := exists_of_forall₂_mem hanswers.proved hl
    exact ⟨pl, hreads⟩) hproved
  obtain ⟨hw₃, hle₃⟩ := hlater₃ hw₂
  obtain ⟨hlater', hbindings⟩ := Model.exportBindings_ok hM hw₃ hbindings
  have hle' := (hlater' hw₃).2
  -- The report binds unknowns to what the objects say that the results bind them to.
  have hbound : ∀ x j, r.form? (functions.model.form? w₂) (.unknown x) = some j →
      (Dictionary.ofList bindings).get? x = some j := by
    intro x j hj
    obtain ⟨a, ha, hform⟩ := Option.bind_eq_some_iff.1 hj
    exact get?_of_boundInOrder hanswers.distinct hbindings ha (hle' a j (hle₃ a j hform))
  have hentries := List.forall₂_map_left_iff.1 hexports
  -- A label says the same when it is exported as when the equations are solved.
  have hreads₂ : ∀ {l pl}, l ∈ r.proved → l.Reads (literalForm? (functions.model.form? w₃)) pl →
      l.Reads (literalForm? (functions.model.form? w₂)) pl := by
    intro l pl hl hreads
    obtain ⟨p, -, pl', -, hreads'⟩ := exists_of_forall₂_mem hanswers.proved hl
    rwa [Session.reads_unique hreads (hreads'.of_literals hle₃)]
  refine ⟨file, hparse, ?_, fun p hp x hx => ?_, fun e he e' he' hprint => ?_⟩
  · refine forall₂_compose (fun p f l e himports hanswer hentry => ?_) himports.flip hanswers.proved
      hentries
    obtain ⟨pl, hp, hl⟩ := hanswer
    obtain rfl := Session.reads_unique (hl.of_literals hle₃) hentry.1
    exact himports.written hle₂ hbound hp
  · obtain ⟨q, hq, himports⟩ := exists_of_forall₂_mem himports.flip hp
    obtain ⟨j, hj⟩ := hanswers.found q hq x (himports.unknowns hx)
    exact List.count_eq_one_of_mem (Dictionary.keys_nodup _)
      (List.mem_map.2 ⟨_, Store.mem_of_lookup (hbound x j hj), rfl⟩)
  · have hsame : e.1 = e'.1 := PortableLabel.toJson_injective (Json.print_injective hprint)
    obtain ⟨l, hl, hreads, hvalue⟩ := exists_of_forall₂_mem hentries he
    obtain ⟨m, hm, hreads', hvalue'⟩ := exists_of_forall₂_mem hentries he'
    rw [← hsame] at hreads'
    rw [hvalue, hvalue', hanswers.label_inj l hl m hm e.1 (hreads₂ hl hreads) (hreads₂ hm hreads')]

/-- A file with two proofs that share an unknown. -/
def questions : String :=
  "[\x7b\"label\": \x7b\"function\": \"both\", "
    ++ "\"result\": [\x7b\"$var\": \"x\"\x7d, \x7b\"$var\": \"y\"\x7d]\x7d, "
    ++ "\"mappings\": [\x7b\x7d]\x7d, "
    ++ "\x7b\"label\": \x7b\"function\": \"yes\", \"result\": [\x7b\"$var\": \"x\"\x7d]\x7d, "
    ++ "\"mappings\": [\x7b\x7d]\x7d]"

theorem yesNo_reported : ∃ file report w', parseProofs questions = .ok file ∧
    proveReport yesNo.model 0 questions .standard .empty = some (.ok report, w') ∧
      List.Forall₂ (fun p e => p.label.written report.bindings = some e.1) file report.proofs ∧
      ∀ x ∈ ["x", "y"], report.bindings.keys.count x = 1 := by
  have hread : (parseProofs questions).map (·.map PortableProof.unknowns)
      = .ok [["x", "y"], ["x"]] := by decide +kernel
  have hgiven : ((proveReport yesNo.model 0 questions .standard .empty).map (·.1.isOk))
      = some true := by decide +kernel
  obtain ⟨⟨a, w'⟩, hrun, hok⟩ := Option.map_eq_some_iff.1 hgiven
  cases a with
  | error _ => cases hok
  | ok report =>
      obtain ⟨file, hfile, hentries, hunknowns, -⟩ := proveReport_answers Store.sound_empty hrun
      have hnamed : file.map PortableProof.unknowns = [["x", "y"], ["x"]] := by
        rw [hfile] at hread
        exact Except.ok.inj hread
      have hfirst : ["x", "y"] ∈ file.map PortableProof.unknowns := by
        rw [hnamed]
        exact List.mem_cons_self
      obtain ⟨p, hp, hnames⟩ := List.mem_map.1 hfirst
      exact ⟨file, report, w', hfile, hrun, hentries, fun x hx => hunknowns p hp x (hnames ▸ hx)⟩

end CommandLine

end ChanceProof
