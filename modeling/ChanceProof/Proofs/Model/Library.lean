import ChanceProof.Model.Functions
import ChanceProof.Proofs.Json.Zeros
import ChanceProof.Proofs.Model.Contract
import ChanceProof.Proofs.Model.Store

/-!
# What a library means

A library of functions says which sketch every call has, without a store: `Library.expand`. Its
model hands out exactly these sketches, with a new object for each literal, and what the builder of
programs accepts the check of distributions accepts, too.

So a library keeps the promises of a model. Its comparison of objects is `Json.same`, which need not
be equality of printed forms; a library whose functions keep to values on which the two agree is
lawful.
-/

namespace ChanceProof

/-- An argument in a sketch. -/
def Argument.item : Argument → Item
  | .literal v => .object v
  | .named name => .named name

/-- A pending call in a sketch. -/
def PendingCall.step (p : PendingCall) : Step :=
  ⟨p.function, p.arguments.map Argument.item, p.names⟩

/-- The sketch of a call. -/
def Library.expand (functions : Library) : Expander := fun f vs => do
  match functions.lookup f with
  | none => .error (.unknownFunction f)
  | some function =>
    let (results, pending) ← (function vs).build
    return ⟨pending.map PendingCall.step, results.map Argument.item⟩

def Distribution.values (d : Distribution) : List Value :=
  d.assignments.flatMap (·.call.parameters) ++ d.result

/-! ## Built programs are distributions -/

/-- The builders that calls lead to. -/
inductive Builder.Built : Builder → Prop
  | empty : Built .empty
  | call {b b' : Builder} (hb : Built b) {function : String} {arguments : List Argument}
      {names : List String} (h : b.call function arguments names = .ok b') : Built b'

theorem Program.built_of_run {p : Program} {b b' : Builder} {results : List Argument}
    (hb : b.Built) (h : p.run b = .ok (results, b')) : b'.Built := by
  induction p generalizing b with
  | done rs =>
      cases h
      exact hb
  | fail f => cases h
  | call function arguments names next ih =>
      unfold Program.run at h
      split at h
      · next hcall => exact ih _ (.call hb hcall) h
      · exact ih _ hb h

namespace Distribution

theorem checkFrom_append (whole : List Assignment) (position : Nat) (bound : List String)
    (as bs : List Assignment) :
    checkFrom whole position bound (as ++ bs) =
      (checkFrom whole position bound as >>= fun bound =>
        checkFrom whole (position + as.length) bound bs) := by
  induction as generalizing position bound with
  | nil => rfl
  | cons a as ih =>
      rw [List.cons_append, checkFrom, checkFrom, bind_assoc]
      congr 1
      funext _
      rw [bind_assoc]
      congr 1
      funext bound
      rw [ih, List.length_cons, Nat.add_assoc, Nat.add_comm 1]

/-- A builder binds the variables that may be bound, and no others. -/
theorem builder_bindNames_iff {function : String} {bound bound' names : List String} :
    Builder.bindNames function bound names = .ok bound' ↔ bindNames bound names = .ok bound' := by
  induction names generalizing bound with
  | nil =>
      rw [Builder.bindNames, bindNames]
      exact ⟨fun h => congrArg _ (Except.ok.inj h), fun h => congrArg _ (Except.ok.inj h)⟩
  | cons name names ih =>
      rw [Builder.bindNames, bindNames]
      split
      · exact ⟨fun h => (nomatch h), fun h => (nomatch h)⟩
      · exact ih

variable {φ : Handle → Option Json}

/-- A value that a builder lets be read may be read. -/
theorem checkReference_of_bound {b : Builder} {whole : List Assignment} {position : Nat}
    {as : List Argument} {vs : List Value}
    (hvs : List.Forall₂ (Value.Reads φ) vs (as.map Argument.item))
    (h : ∀ a ∈ as, b.checkBound a = .ok ()) :
    ∀ v ∈ vs, checkReference whole position b.bound v = .ok () := by
  induction as generalizing vs with
  | nil =>
      cases hvs
      exact fun _ h => nomatch h
  | cons a as ih =>
      cases hvs with
      | @cons v _ vs _ hv hvs =>
          refine List.forall_mem_cons.2 ⟨?_, ih hvs fun a ha => h a (List.mem_cons_of_mem _ ha)⟩
          have ha := h a List.mem_cons_self
          cases a with
          | literal w =>
              cases hv
              rfl
          | named name =>
              cases hv
              simp only [Builder.checkBound] at ha
              simp only [checkReference]
              split at ha
              · next hbound => rw [if_pos hbound]
              · cases ha

/-- The calls that a builder accepted pass the check of assignments. -/
theorem checkFrom_of_built {b : Builder} (hb : b.Built) {whole as : List Assignment}
    (has : List.Forall₂ (Assignment.Reads φ) as (b.pending.map PendingCall.step)) :
    checkFrom whole 0 [] as = .ok b.bound := by
  induction hb generalizing as with
  | empty =>
      cases has
      rfl
  | @call b b' _ function arguments names hcall ih =>
      unfold Builder.call at hcall
      obtain ⟨_, hargs, hcall⟩ := bind_eq_ok_iff.1 hcall
      obtain ⟨bound, hnames, hcall⟩ := bind_eq_ok_iff.1 hcall
      obtain rfl := pure_eq_ok_iff.1 hcall
      rw [List.map_append] at has
      have hinit := List.forall₂_take_append _ _ _ has
      obtain ⟨a, as', ha, hnil, hlast⟩ :=
        List.forall₂_cons_right_iff.1 (List.forall₂_drop_append _ _ _ has)
      cases hnil
      rw [← List.take_append_drop (b.pending.map PendingCall.step).length as, hlast,
        checkFrom_append, ih hinit]
      have hreads : ∀ position, a.call.parameters.forM (checkReference whole position b.bound)
          = .ok () := fun _ =>
        forM_ok_iff.2 (checkReference_of_bound ha.parameters (forM_ok_iff.1 hargs))
      have hbind : bindNames b.bound a.names = .ok bound := by
        rw [ha.names]
        exact builder_bindNames_iff.1 hnames
      simp only [bind, Except.bind, checkFrom, hreads, hbind]

/-- A built program makes a distribution, whatever handles its literals are given. -/
theorem check_of_build {p : Program} {results : List Argument} {pending : List PendingCall}
    (h : p.build = .ok (results, pending)) {as : List Assignment} {vs : List Value}
    (has : List.Forall₂ (Assignment.Reads φ) as (pending.map PendingCall.step))
    (hvs : List.Forall₂ (Value.Reads φ) vs (results.map Argument.item)) :
    check as vs = .ok () := by
  unfold Program.build at h
  obtain ⟨⟨rs, b⟩, hrun, h⟩ := bind_eq_ok_iff.1 h
  obtain ⟨_, hresults, h⟩ := bind_eq_ok_iff.1 h
  cases pure_eq_ok_iff.1 h
  unfold check
  rw [checkFrom_of_built (Program.built_of_run .empty hrun) has]
  exact forM_ok_iff.2 (checkReference_of_bound hvs (forM_ok_iff.1 hresults))

end Distribution

/-! ## Interning a distribution -/

namespace Store

/-- Objects stay when no count falls. -/
theorem Moves.value? {s s' : Store} {delta : Handle → Int} (h : s.Moves s' delta) (hs : s.Sound)
    (hdelta : ∀ a, 0 ≤ delta a) {a : Handle} {v : Json} (hv : s.value? a = some v) :
    s'.value? a = some v := by
  refine h.later.value?_of_counts hs hv ?_
  have hpos := (hs.counts_pos_of_value? hv).1
  have hmove := h.counts a
  have hnonneg := hdelta a
  omega

end Store

theorem count_cons (a b : Handle) (hs : List Handle) :
    ((b :: hs).count a : Int) = (if a = b then 1 else 0) + hs.count a := by
  rw [List.count_cons]
  by_cases heq : a = b
  · simp [heq, Int.add_comm]
  · simp [heq, Ne.symm heq]

/-- How often each handle stands among values. -/
def occurrences (vs : List Value) (h : Handle) : Int := vs.count (.literal h)

theorem occurrences_nonneg (vs : List Value) (h : Handle) : 0 ≤ occurrences vs h :=
  Int.natCast_nonneg _

theorem occurrences_cons (v : Value) (vs : List Value) (h : Handle) :
    occurrences (v :: vs) h = occurrences [v] h + occurrences vs h := by
  unfold occurrences
  rw [← Int.natCast_add, ← List.count_append, List.singleton_append]

theorem occurrences_append (vs ws : List Value) (h : Handle) :
    occurrences (vs ++ ws) h = occurrences vs h + occurrences ws h := by
  unfold occurrences
  rw [← Int.natCast_add, ← List.count_append]

namespace Library

section

variable {s : Store} (hs : s.Sound)

include hs

theorem run_internArgument (a : Argument) :
    ∃ v s', (internArgument a).run s = (.ok v, s') ∧ v.Reads s'.value? a.item ∧
      s.Moves s' (occurrences [v]) := by
  cases a with
  | literal w =>
      obtain ⟨h, s', hr, hv, hmoves⟩ := Store.run_add hs w
      refine ⟨.literal h, s', ?_, .literal hv, hmoves.congr fun a => ?_⟩
      · unfold internArgument
        rw [Action.run_bind_of_ok hr]
        rfl
      · unfold occurrences
        rw [List.count_singleton]
        by_cases heq : a = h
        · simp [heq]
        · simp [heq, Ne.symm heq]
  | named name =>
      refine ⟨.named name, s, rfl, .named, (Store.Moves.refl hs).congr fun a => ?_⟩
      simp [occurrences]

theorem run_internArguments (as : List Argument) :
    ∃ vs s', (as.mapM internArgument).run s = (.ok vs, s') ∧
      List.Forall₂ (Value.Reads s'.value?) vs (as.map Argument.item) ∧
        s.Moves s' (occurrences vs) := by
  induction as generalizing s with
  | nil => exact ⟨[], s, rfl, .nil, Store.Moves.refl hs⟩
  | cons a as ih =>
      obtain ⟨v, s₁, hr, hv, hmoves⟩ := run_internArgument hs a
      obtain ⟨vs, s₂, hrs, hvs, hmoves'⟩ := ih hmoves.sound
      refine ⟨v :: vs, s₂, Action.run_mapM_cons_ok.2 ⟨v, s₁, vs, hr, hrs, rfl⟩, .cons ?_ hvs,
        (hmoves.trans hmoves').congr fun a => (occurrences_cons v vs a).symm⟩
      exact hv.mono fun _ _ => hmoves'.value? hmoves.sound (occurrences_nonneg vs)

theorem run_internCall (p : PendingCall) :
    ∃ a s', (internCall p).run s = (.ok a, s') ∧ a.Reads s'.value? p.step ∧
      s.Moves s' (occurrences a.call.parameters) := by
  obtain ⟨vs, s', hr, hvs, hmoves⟩ := run_internArguments hs p.arguments
  refine ⟨⟨⟨p.function, vs⟩, p.names⟩, s', ?_, ⟨rfl, hvs, rfl⟩, hmoves⟩
  unfold internCall
  rw [Action.run_bind_of_ok hr]
  rfl

theorem run_internCalls (ps : List PendingCall) :
    ∃ as s', (ps.mapM internCall).run s = (.ok as, s') ∧
      List.Forall₂ (Assignment.Reads s'.value?) as (ps.map PendingCall.step) ∧
        s.Moves s' (occurrences (as.flatMap (·.call.parameters))) := by
  induction ps generalizing s with
  | nil => exact ⟨[], s, rfl, .nil, Store.Moves.refl hs⟩
  | cons p ps ih =>
      obtain ⟨a, s₁, hr, ha, hmoves⟩ := run_internCall hs p
      obtain ⟨as, s₂, hrs, has, hmoves'⟩ := ih hmoves.sound
      refine ⟨a :: as, s₂, Action.run_mapM_cons_ok.2 ⟨a, s₁, as, hr, hrs, rfl⟩, .cons ?_ has,
        (hmoves.trans hmoves').congr fun h => ?_⟩
      · exact ha.mono fun _ _ => hmoves'.value? hmoves.sound (occurrences_nonneg _)
      · rw [List.flatMap_cons, occurrences_append]

/-- A built program is interned as a distribution that reads as its sketch, with a new count for
each of its literals. -/
theorem run_intern {p : Program} {results : List Argument} {pending : List PendingCall}
    (hbuild : p.build = .ok (results, pending)) :
    ∃ e s', (do
        let assignments ← pending.mapM internCall
        let result ← results.mapM internArgument
        return ⟨← Distribution.make assignments result, 0⟩ : Action Store Expansion).run s
          = (.ok e, s') ∧
      s.Moves s' (occurrences e.distribution.values) ∧
      e.distribution.Reads s'.value? ⟨pending.map PendingCall.step, results.map Argument.item⟩ := by
  obtain ⟨as, s₁, has, hreads, hmoves⟩ := run_internCalls hs pending
  obtain ⟨rs, s₂, hrs, hresults, hmoves'⟩ := run_internArguments hmoves.sound results
  have hreads' : List.Forall₂ (Assignment.Reads s₂.value?) as (pending.map PendingCall.step) :=
    hreads.imp fun _ _ => .mono fun _ _ => hmoves'.value? hmoves.sound (occurrences_nonneg rs)
  have hcheck := Distribution.check_of_build hbuild hreads' hresults
  have hmake := Distribution.make_eq_ok_iff (d := ⟨as, rs, hcheck⟩).2 ⟨rfl, rfl⟩
  rw [Action.run_bind_of_ok has, Action.run_bind_of_ok hrs, hmake]
  refine ⟨⟨⟨as, rs, hcheck⟩, 0⟩, s₂, rfl, ?_, hreads', hresults⟩
  exact (hmoves.trans hmoves').congr fun h => (occurrences_append _ _ h).symm

end

/-- Reading objects changes nothing; it fails at one of them that is gone. -/
theorem run_values (s : Store) (hs : List Handle) :
    (∃ vs, (hs.mapM fun h => do return (← Store.object h).value : Action Store _).run s
        = (.ok vs, s) ∧ List.Forall₂ (fun h v => s.value? h = some v) hs vs) ∨
      ∃ h ∈ hs, s.value? h = none ∧
        (hs.mapM fun h => do return (← Store.object h).value : Action Store _).run s
          = (.error (.unknownReference h.number), s) := by
  induction hs with
  | nil => exact .inl ⟨[], rfl, .nil⟩
  | cons h hs ih =>
      rw [List.mapM_cons]
      cases ho : s.get? h with
      | none =>
          have hone : (do return (← Store.object h).value : Action Store Json).run s
              = (.error (.unknownReference h.number), s) :=
            Action.run_bind_of_error (Store.run_object_none ho)
          refine .inr ⟨h, List.mem_cons_self, ?_, Action.run_bind_of_error hone⟩
          rw [Store.value?, ho, Option.map_none]
      | some o =>
          have hone : (do return (← Store.object h).value : Action Store Json).run s
              = (.ok o.value, s) :=
            Action.run_bind_of_ok (Store.run_object ho)
          rw [Action.run_bind_of_ok hone]
          rcases ih with ⟨vs, hr, hvs⟩ | ⟨h', hmem, hnone, hr⟩
          · rw [Action.run_bind_of_ok hr]
            exact .inl ⟨o.value :: vs, rfl, .cons (by rw [Store.value?, ho]; rfl) hvs⟩
          · exact .inr ⟨h', List.mem_cons_of_mem _ hmem, hnone, Action.run_bind_of_error hr⟩

theorem expand_of_lookup {functions : Library} {name : String} {function : Function}
    (h : functions.lookup name = some function) (vs : List Json) :
    functions.expand name vs = (function vs).build >>= fun r =>
      pure ⟨r.2.map PendingCall.step, r.1.map Argument.item⟩ := by
  rw [expand, h]

/-- The distribution of a call is the sketch of its function at the values of the arguments, with a
new count for each of its literals. When there is none, nothing happens to the store. -/
theorem getDistribution_cases (functions : Library) {s : Store} (hs : s.Sound) (c : Call) :
    (∃ f, (functions.getDistribution c).run s = (.error f, s) ∧
      ∀ hs vs, c.isPrimitive = false → c.parameters = hs.map .literal →
        List.Forall₂ (fun h v => s.value? h = some v) hs vs →
          functions.expand c.function vs = .error f) ∨
    ∃ e s', (functions.getDistribution c).run s = (.ok e, s') ∧
      s.Moves s' (occurrences e.distribution.values) ∧
      ∃ hs vs sk, c.isPrimitive = false ∧ c.parameters = hs.map .literal ∧
        List.Forall₂ (fun h v => s.value? h = some v) hs vs ∧
        functions.expand c.function vs = .ok sk ∧ e.distribution.Reads s'.value? sk := by
  unfold getDistribution
  by_cases hprim : c.isPrimitive = true
  · rw [if_pos hprim]
    exact .inl ⟨_, rfl, fun _ _ h => by rw [hprim] at h; cases h⟩
  rw [if_neg hprim]
  have hprim' := Bool.eq_false_iff.2 hprim
  cases hhandles : c.handles? with
  | none =>
      refine .inl ⟨_, rfl, fun hs vs _ hpar => ?_⟩
      rw [Call.handles?_eq_some_iff.2 hpar] at hhandles
      cases hhandles
  | some handles =>
      have hpar := Call.handles?_eq_some_iff.1 hhandles
      rcases run_values s handles with ⟨vs, hr, hvs⟩ | ⟨h, hmem, hnone, hr⟩
      swap
      · refine .inl ⟨_, Action.run_bind_of_error hr, fun hs ws _ hpar' hws => ?_⟩
        rw [Call.handles_unique hpar' hpar] at hws
        obtain ⟨w, -, hw⟩ := exists_of_forall₂_mem hws.flip hmem
        exact nomatch hnone.symm.trans hw
      have hunique : ∀ {hs : List Handle} {ws : List Json}, c.parameters = hs.map .literal →
          List.Forall₂ (fun h v => s.value? h = some v) hs ws → ws = vs := by
        intro hs ws hpar' hws
        rw [Call.handles_unique hpar' hpar] at hws
        exact forall₂_some_unique hws hvs
      rw [Action.run_bind_of_ok hr]
      cases hfun : functions.lookup c.function with
      | none =>
          refine .inl ⟨_, rfl, fun hs ws _ hpar' hws => ?_⟩
          rw [expand, hfun]
      | some function =>
          have hexpand := expand_of_lookup hfun vs
          cases hbuild : (function vs).build with
          | error f =>
              refine .inl ⟨f, Action.run_bind_of_error ?_, fun hs ws _ hpar' hws => ?_⟩
              · rw [hbuild]
                exact Action.run_liftM _ s
              · rw [hunique hpar' hws, hexpand, hbuild]
                rfl
          | ok built =>
              obtain ⟨results, pending⟩ := built
              obtain ⟨e, s', hintern, hmoves, hreads⟩ := run_intern hs hbuild
              refine .inr ⟨e, s', ?_, hmoves, handles, vs, _, hprim', hpar, hvs, ?_, hreads⟩
              · simp only [hbuild]
                rw [Action.run_bind_of_ok (Action.run_liftM _ s)]
                exact hintern
              · rw [hexpand, hbuild]
                rfl

/-- The stores that the operations of a library lead to, whether they succeed or fail. -/
inductive Reached (functions : Library) : Store → Prop
  | empty : Reached functions .empty
  | getDistribution {s : Store} (h : Reached functions s) (c : Call) :
    Reached functions ((functions.model.getDistribution c).run s).2
  | modifyCount {s : Store} (h : Reached functions s) (a : Handle) (delta : Int) :
    Reached functions ((functions.model.modifyCount a delta).run s).2
  | fromExternal {s : Store} (h : Reached functions s) (v : Json) :
    Reached functions ((functions.model.fromExternal v).run s).2

theorem Reached.sound {functions : Library} {s : Store} (h : functions.Reached s) : s.Sound := by
  induction h with
  | empty => exact Store.sound_empty
  | @getDistribution s _ c ih =>
      have hmodel : functions.model.getDistribution c = functions.getDistribution c := rfl
      rw [hmodel]
      rcases functions.getDistribution_cases ih c with ⟨f, hr, -⟩ | ⟨e, s', hr, hmoves, -⟩
      · rw [hr]
        exact ih
      · rw [hr]
        exact hmoves.sound
  | @modifyCount s _ a delta ih => exact ih.modifyCount a delta
  | @fromExternal s _ v ih =>
      have hmodel : functions.model.fromExternal v = Store.add v := rfl
      obtain ⟨b, s', hr, -, hmoves⟩ := Store.run_add ih v
      rw [hmodel, hr]
      exact hmoves.sound

/-! ## Promises -/

variable (functions : Library)

theorem form?_model (s : Store) (h : Handle) : functions.model.form? s h = s.value? h := by
  unfold Model.form? model Store.value?
  simp only
  cases ho : s.get? h with
  | none => rw [Action.run_bind_of_error (Store.run_object_none ho)]; rfl
  | some o => rw [Action.run_bind_of_ok (Store.run_object ho)]; rfl

/-- The values that a library meets when it starts with some of them: a predicate that its functions
keep. -/
def KeepsTo (P : Json → Prop) : Prop :=
  ∀ f vs sk, (∀ v ∈ vs, P v) → functions.expand f vs = .ok sk →
    ∀ item ∈ sk.steps.flatMap (·.parameters) ++ sk.result, ∀ v, item = .object v → P v

/-- The store is sound and holds only such values. -/
def Holds (P : Json → Prop) (s : Store) : Prop := s.Sound ∧ ∀ h v, s.value? h = some v → P v

theorem run_toExternal_of_get? {s : Store} {h : Handle} {o : Stored} (ho : s.get? h = some o) :
    (functions.model.toExternal h).run s = (.ok o.value, s) := by
  unfold model
  simp only [Action.run_bind_of_ok (Store.run_object ho), Action.run_pure]

theorem run_toExternal (s : Store) (h : Handle) :
    ((functions.model.toExternal h).run s).2 = s := by
  cases ho : s.get? h with
  | none =>
      unfold model
      simp only [Action.run_bind_of_error (Store.run_object_none ho)]
  | some o => rw [functions.run_toExternal_of_get? ho]

/-- Two live objects are compared as values. Without one of them there is no answer. -/
theorem isEqual_cases (s : Store) (a b : Handle) :
    (∃ v w, s.value? a = some v ∧ s.value? b = some w ∧
      (functions.model.isEqual a b).run s = (.ok (v.same w), s)) ∨
    ∃ f, (functions.model.isEqual a b).run s = (.error f, s) ∧
      (s.value? a = none ∨ s.value? b = none) := by
  unfold model Store.value?
  simp only
  cases ha : s.get? a with
  | none => exact .inr ⟨_, Action.run_bind_of_error (Store.run_object_none ha), .inl rfl⟩
  | some o =>
      rw [Action.run_bind_of_ok (Store.run_object ha)]
      cases hb : s.get? b with
      | none => exact .inr ⟨_, Action.run_bind_of_error (Store.run_object_none hb), .inr rfl⟩
      | some o' =>
          rw [Action.run_bind_of_ok (Store.run_object hb)]
          exact .inl ⟨o.value, o'.value, rfl, rfl, rfl⟩

theorem run_isEqual (s : Store) (a b : Handle) :
    ((functions.model.isEqual a b).run s).2 = s := by
  rcases functions.isEqual_cases s a b with ⟨_, _, -, -, hr⟩ | ⟨_, hr, -⟩ <;> rw [hr]

theorem mem_reads_literal {φ : Handle → Option Json} {vs : List Value} {items : List Item}
    (h : List.Forall₂ (Value.Reads φ) vs items) {a : Handle} {v : Json}
    (ha : .literal a ∈ vs) (hv : φ a = some v) : .object v ∈ items := by
  obtain ⟨item, hitem, hread⟩ := exists_of_forall₂_mem h.flip ha
  cases hread with
  | literal hform =>
      cases hform.symm.trans hv
      exact hitem

/-- What gained no counts was there before, with its value. -/
theorem Holds.of_gained {P : Json → Prop} {s s' : Store} {delta : Handle → Int} (hs : Holds P s)
    (hmoves : s.Moves s' delta) (hgained : ∀ h v, 0 < delta h → s'.value? h = some v → P v) :
    Holds P s' := by
  refine ⟨hmoves.sound, fun h v hv => ?_⟩
  by_cases hdelta : 0 < delta h
  · exact hgained h v hdelta hv
  · have hcounts := hmoves.counts h
    have hpos := (hmoves.sound.counts_pos_of_value? hv).1
    obtain ⟨o, ho, -⟩ := Store.get?_of_counts (s := s) (h := h) (by omega)
    exact hs.2 h v (hmoves.later.value h v (hs.1.of_get? ho).1 hv)

/-- Distributions bring in no other values than those their sketches hold. -/
theorem Holds.of_moves {P : Json → Prop} {s s' : Store} (hs : Holds P s) {d : Distribution}
    {sk : Sketch} (hmoves : s.Moves s' (occurrences d.values)) (hreads : d.Reads s'.value? sk)
    (hsk : ∀ item ∈ sk.steps.flatMap (·.parameters) ++ sk.result, ∀ v, item = .object v → P v) :
    Holds P s' := by
  refine hs.of_gained hmoves fun h v hgained hv => hsk _ ?_ v rfl
  have hmem : .literal h ∈ d.values := List.count_pos_iff.1 (Int.natCast_pos.1 hgained)
  rcases List.mem_append.1 hmem with hmem | hmem
  · obtain ⟨a, ha, hmem⟩ := List.mem_flatMap.1 hmem
    obtain ⟨st, hst, hast⟩ := exists_of_forall₂_mem hreads.steps.flip ha
    exact List.mem_append_left _
      (List.mem_flatMap.2 ⟨st, hst, mem_reads_literal hast.parameters hmem hv⟩)
  · exact List.mem_append_right _ (mem_reads_literal hreads.result hmem hv)

/-- An object can always be interned. -/
theorem Holds.of_fromExternal {P : Json → Prop} {s : Store} (hs : Holds P s) {v : Json} (hv : P v) :
    ∃ h s', (functions.model.fromExternal v).run s = (.ok h, s') ∧ Holds P s' ∧
      s'.value? h = some v ∧ ∀ a w, s.value? a = some w → s'.value? a = some w := by
  obtain ⟨h, s', hr, hform, hmoves⟩ := Store.run_add hs.1 v
  refine ⟨h, s', hr, hs.of_gained hmoves fun a w hgained hw => ?_, hform,
    fun a w hw => hmoves.value? hs.1 (fun b => by split <;> omega) hw⟩
  split at hgained
  · next heq =>
      rw [heq, hform] at hw
      cases hw
      exact hv
  · exact absurd hgained (lt_irrefl 0)

/-- So can a list of them. -/
theorem Holds.run_fromExternal {P : Json → Prop} {s : Store} (hs : Holds P s) {vs : List Json}
    (hvs : ∀ v ∈ vs, P v) : ∃ hs s', (vs.mapM functions.model.fromExternal).run s = (.ok hs, s') ∧
      Holds P s' ∧ List.Forall₂ (fun h v => s'.value? h = some v) hs vs ∧
      ∀ h v, s.value? h = some v → s'.value? h = some v := by
  induction vs generalizing s with
  | nil => exact ⟨[], s, rfl, hs, .nil, fun _ _ h => h⟩
  | cons v vs ih =>
      obtain ⟨hv, hvs⟩ := List.forall_mem_cons.1 hvs
      obtain ⟨h, s₁, hr, hs₁, hform, hkept⟩ := Holds.of_fromExternal functions hs hv
      obtain ⟨hs', s', hrest, hs₂, hforms, hkept'⟩ := ih hs₁ hvs
      refine ⟨h :: hs', s', ?_, hs₂, .cons (hkept' h v hform) hforms,
        fun a w hw => hkept' a w (hkept a w hw)⟩
      exact Action.run_mapM_cons_ok.2 ⟨h, s₁, hs', hr, hrest, rfl⟩

variable {functions}

/-- A library keeps the promises of a model. Its comparison is that of the values its functions keep
to. -/
theorem meets {P : Json → Prop} {E : Json → Json → Prop} (hP : functions.KeepsTo P)
    (hE : ∀ v w, P v → P w → (v.same w = true ↔ E v w)) :
    functions.model.Meets (Holds P) functions.expand E where
  toExternal_later h s hs := by
    rw [functions.run_toExternal]
    exact ⟨hs, fun _ _ h => h⟩
  isEqual_later a b s hs := by
    rw [functions.run_isEqual]
    exact ⟨hs, fun _ _ h => h⟩
  getDistribution_later c s hs := by
    show Holds P ((functions.getDistribution c).run s).2 ∧ _
    rcases functions.getDistribution_cases hs.1 c with
      ⟨f, hr, -⟩ | ⟨e, s', hr, hmoves, hs', vs, sk, -, -, hvs, hsk, hreads⟩
    · rw [show (functions.model.getDistribution c).run s = (.error f, s) from hr, hr]
      exact ⟨hs, fun _ _ h => h⟩
    · rw [show (functions.model.getDistribution c).run s = (.ok e, s') from hr, hr]
      refine ⟨hs.of_moves hmoves hreads (hP _ vs sk (fun v hv => ?_) hsk), fun h v hv => ?_⟩
      · obtain ⟨h, -, hv⟩ := exists_of_forall₂_mem hvs hv
        exact hs.2 h v hv
      · rw [form?_model] at hv ⊢
        exact hmoves.value? hs.1 (occurrences_nonneg _) hv
  isEqual_iff := by
    intro s s' a b t hs hr
    simp only [form?_model]
    rcases functions.isEqual_cases s a b with ⟨v, w, hv, hw, hr'⟩ | ⟨f, hr', -⟩
    · cases hr.symm.trans hr'
      rw [hE v w (hs.2 a v hv) (hs.2 b w hw)]
      constructor
      · exact fun h => ⟨v, w, hv, hw, h⟩
      · rintro ⟨v', w', hv', hw', h⟩
        cases hv.symm.trans hv'
        cases hw.symm.trans hw'
        exact h
    · cases hr.symm.trans hr'
  isEqual_answers := by
    intro s a b v w hs hv hw
    rw [form?_model] at hv hw
    rcases functions.isEqual_cases s a b with ⟨v', w', -, -, hr⟩ | ⟨f, -, hnone | hnone⟩
    · exact ⟨_, _, hr⟩
    · exact nomatch hv.symm.trans hnone
    · exact nomatch hw.symm.trans hnone
  getDistribution_cases := by
    intro s c hs' vs hs hc hpar hforms
    have hvs : List.Forall₂ (fun h v => s.value? h = some v) hs' vs :=
      hforms.imp fun h v hv => by rwa [form?_model] at hv
    rcases functions.getDistribution_cases hs.1 c with
      ⟨f, hr, hexpand⟩ | ⟨e, s', hr, -, hs₁, ws, sk, -, hpar', hws, hsk, hreads⟩
    · exact .inr ⟨f, f, s, hr, hexpand hs' vs hc hpar hvs⟩
    · rw [Call.handles_unique hpar' hpar] at hws
      rw [forall₂_some_unique hws hvs] at hsk
      refine .inl ⟨e, s', sk, hr, hsk, hreads.mono fun h v hv => ?_⟩
      rwa [form?_model]

/-- A library that keeps to plain values is lawful: of two plain values only equal ones are the
same. -/
theorem lawful (h : functions.KeepsTo Json.Plain) :
    functions.model.Lawful (Holds Json.Plain) functions.expand :=
  meets h fun _ _ hv hw => (hv.same_iff hw).trans Json.print_inj.symm

/-- In a sound store a library keeps its promises, whatever values it holds. -/
theorem meets_sound (functions : Library) :
    functions.model.Meets Store.Sound functions.expand fun v w => v.same w = true := by
  have hholds : Holds (fun _ => True) = Store.Sound :=
    funext fun _ => propext (and_iff_left fun _ _ _ => trivial)
  rw [← hholds]
  exact meets (fun _ _ _ _ _ _ _ _ _ => trivial) fun _ _ _ _ => Iff.rfl

/-! ## A small store -/

def truths : Store := ⟨[(1, ⟨.bool false, 1⟩), (0, ⟨.bool true, 1⟩)], 2⟩

theorem truths_holds : Library.Holds Json.Plain truths := by
  refine ⟨by simp [Store.Sound, truths], fun h v hv => ?_⟩
  obtain ⟨o, ho, rfl⟩ := Option.map_eq_some_iff.1 hv
  have hmem := Store.mem_of_lookup ho
  simp only [truths, List.mem_cons, Prod.mk.injEq, List.not_mem_nil, or_false] at hmem
  obtain ⟨-, rfl⟩ | ⟨-, rfl⟩ := hmem
  · exact ⟨trivial, rfl⟩
  · exact ⟨trivial, rfl⟩

end Library

end ChanceProof
