import ChanceProof.Evaluation.Solve
import ChanceProof.Proofs.Evaluation.Submission
import ChanceProof.Proofs.Model.Shown

/-!
# What a session does besides asking for distributions

A session asks its model for three things. Two of them, the forms of objects and whether objects are
equal, are asked for all the time; the third, distributions, once for each proof that is no coin. A
relation between the states of a session that the first two keep, and all that the session writes
down by itself, is kept by everything but a request for a distribution: `Frame`. So an expansion is
a part that keeps the relation, at most one request, and again a part that keeps it
(`expands`). Solving asks for nothing but forms and writes nothing down, so it keeps all that such
questions keep: `Reading`.

A frame also compares two models. If the questions about objects do the same to the one as to what
is seen of the other through `view`, then so does the whole session (`Shows`): what only changes
the hidden part of a model's state is not noticed by the session. For one model by itself the view
is the identity. What is known of a model's answers alone, as a relation between its own states,
carries over to requests and to solving (`shows_distribution`, `conclude_shows`).
-/

namespace ChanceProof.Session

variable {σ τ α β : Type} {view : σ → τ} {R : Session σ → Session σ → Prop}

/-- The session over what is seen of its model's state. -/
def seen (view : σ → τ) (s : Session σ) : Session τ where
  world := view s.world
  settings := s.settings
  canonicalOf := s.canonicalOf
  forms := s.forms
  expansions := s.expansions
  bindings := s.bindings
  entries := s.entries
  proved := s.proved
  queries := s.queries
  hits := s.hits
  seconds := s.seconds

@[simp] theorem resolve_seen (s : Session σ) (v : Value) : (s.seen view).resolve v = s.resolve v :=
  rfl

theorem withEntry_seen (s : Session σ) (l : Label) :
    (s.seen view).withEntry l = (s.withEntry l).seen view := by
  unfold withEntry
  show (if (s.number? l).isNone then _ else _) = _
  split
  · rfl
  · rfl

/-- The first operation keeps the relation. What it answers and what is seen of the session after it
are the doing of the second one on what was seen before. -/
abbrev Shows (view : σ → τ) (R : Session σ → Session σ → Prop) (x : Action (Session σ) α)
    (y : Action (Session τ) α) : Prop :=
  Action.Shows (seen view) R x y

/-- On what is seen of a state the second operation does what the first one does on the state. -/
def Looks (view : σ → τ) (x : Action σ α) (y : Action τ α) : Prop :=
  ∀ w, y.run (view w) = ((x.run w).1, view (x.run w).2)

theorem Shows.ask {x : Action σ α} {y : Action τ α} (hkeeps : (Session.ask x).Keeps R)
    (hlooks : Looks view x y) : Shows view R (Session.ask x) (Session.ask y) := by
  refine fun s => ⟨hkeeps s, ?_⟩
  rw [run_ask, run_ask]
  show ((y.run (view s.world)).1, { s.seen view with world := (y.run (view s.world)).2 }) = _
  rw [hlooks s.world]
  rfl

/-- Questions about objects keep the relation, and do to the first model what they do to the second
one; and the relation allows what a session notes down. -/
structure Frame (view : σ → τ) (M : Model σ) (N : Model τ) (R : Session σ → Session σ → Prop) :
    Prop where
  toExternal : ∀ h, Looks view (M.toExternal h) (N.toExternal h)
  isEqual : ∀ a b, a ≠ b → Looks view (M.isEqual a b) (N.isEqual a b)
  keeps_toExternal : ∀ h, (ask (M.toExternal h)).Keeps R
  keeps_isEqual : ∀ a b, a ≠ b → (ask (M.isEqual a b)).Keeps R
  canonicalOf : ∀ (s : Session σ) h c forms, s.canonicalOf.lookup h = none →
    R s { s with canonicalOf := (h, c) :: s.canonicalOf, forms }
  bindings : ∀ (s : Session σ) bindings, R s { s with bindings }
  records : ∀ (s : Session σ) entries proved, R s { s with entries, proved }

variable {M : Model σ} {N : Model τ}

/-- Questions for the forms of objects keep the relation, and do to the first model what they do to
the second one. -/
structure Reading (view : σ → τ) (M : Model σ) (N : Model τ) (R : Session σ → Session σ → Prop) :
    Prop where
  toExternal : ∀ h, Looks view (M.toExternal h) (N.toExternal h)
  keeps_toExternal : ∀ h, (ask (M.toExternal h)).Keeps R

theorem Frame.reading (hR : Frame view M N R) : Reading view M N R :=
  ⟨hR.toExternal, hR.keeps_toExternal⟩

namespace Reading

variable [hrefl : Std.Refl R] [htrans : IsTrans (Session σ) R] (hR : Reading view M N R)

include hR

omit hrefl htrans in
theorem form (h : Handle) : Shows view R (ask (M.toExternal h)) (ask (N.toExternal h)) :=
  .ask (hR.keeps_toExternal h) (hR.toExternal h)

theorem display (h : Handle) : Shows view R (Session.display M h) (Session.display N h) := by
  intro s
  unfold Session.display
  rw [Action.run_tryCatch, Action.run_tryCatch]
  have hask : Shows view R
      (ask (M.toExternal h) >>= fun v : Json => pure (v.print ++ " (" ++ h.display ++ ")"))
      (ask (N.toExternal h) >>= fun v : Json => pure (v.print ++ " (" ++ h.display ++ ")")) :=
    (hR.form h).bind fun _ => .pure _
  obtain ⟨hkeeps, hshows⟩ := hask s
  rw [hshows]
  rcases hr : (ask (M.toExternal h) >>= fun v : Json =>
    pure (v.print ++ " (" ++ h.display ++ ")")).run s with ⟨f | v, s'⟩ <;> rw [hr] at hkeeps
  · exact ⟨hkeeps, rfl⟩
  · exact ⟨hkeeps, rfl⟩

end Reading

theorem isLiteral_of_groundValues {l : Label} {vs us : List Value} {s s' : Session σ}
    (hr : (groundValues M l vs).run s = (.ok us, s')) : ∀ u ∈ us, u.isLiteral = true := by
  induction vs generalizing s us with
  | nil =>
      cases hr
      exact fun u hu => absurd hu List.not_mem_nil
  | cons v vs ih =>
      obtain ⟨u, s₁, us', hv, hvs, rfl⟩ := Action.run_mapM_cons_ok.1 hr
      refine List.forall_mem_cons.2 ⟨?_, ih hvs⟩
      unfold groundValue at hv
      rw [Action.run_bind_of_ok (Action.run_get s)] at hv
      split at hv
      · obtain ⟨c, s₂, -, hpure⟩ := Action.run_bind_ok.1 hv
        obtain ⟨rfl, -⟩ := Action.run_pure_ok.1 hpure
        rfl
      · exact (Action.run_throw_ok hv).elim

/-- A call of values that were grounded is grounded. -/
theorem isGrounded_of_groundValues {l : Label} {vs us : List Value} {s s' : Session σ}
    (hr : (groundValues M l vs).run s = (.ok us, s')) (function : String) :
    Call.isGrounded ⟨function, us⟩ = true :=
  List.all_eq_true.2 (isLiteral_of_groundValues hr)

namespace Frame

variable [hrefl : Std.Refl R] [htrans : IsTrans (Session σ) R] (hR : Frame view M N R)

include hR

/-! ## Unification -/

theorem canonical (h : Handle) :
    Shows view R (Session.canonical M h) (Session.canonical N h) := by
  intro s
  have hkeeps := hR.keeps_toExternal h s
  rw [run_ask] at hkeeps
  have hseen : (N.toExternal h).run (s.seen view).world = _ := hR.toExternal h s.world
  rw [run_canonical, run_canonical, hseen, show (s.seen view).canonicalOf = s.canonicalOf from rfl,
    show (s.seen view).forms = s.forms from rfl]
  cases hknown : s.canonicalOf.lookup h with
  | some c => exact ⟨hrefl.refl s, rfl⟩
  | none =>
      rcases hr : (M.toExternal h).run s.world with ⟨f | v, w⟩ <;> rw [hr] at hkeeps
      · exact ⟨hkeeps, rfl⟩
      · simp only
        cases s.forms.lookup v.print with
        | some c =>
            exact ⟨htrans.trans _ _ _ hkeeps
              (hR.canonicalOf { s with world := w } h c s.forms hknown), rfl⟩
        | none =>
            exact ⟨htrans.trans _ _ _ hkeeps
              (hR.canonicalOf { s with world := w } h h ((v.print, h) :: s.forms) hknown), rfl⟩

theorem bind (name : String) (h : Handle) :
    Shows view R (Session.bind M name h) (Session.bind N name h) :=
  (hR.canonical h).bind fun _ s => ⟨hR.bindings s _, rfl⟩

theorem unifyHandles (l : Label) (a b : Handle) :
    Shows view R (Session.unifyHandles M l a b) (Session.unifyHandles N l a b) := by
  unfold Session.unifyHandles
  split
  · exact .pure ()
  · next hne =>
      refine (Shows.ask (hR.keeps_isEqual a b hne) (hR.isEqual a b hne)).bind fun t => ?_
      split
      · exact .pure ()
      · exact (hR.reading.display a).bind fun _ => (hR.reading.display b).bind fun _ => .throw _

theorem unify (l : Label) (p m : Value) :
    Shows view R (Session.unify M l p m) (Session.unify N l p m) := by
  unfold Session.unify
  refine .get fun s => ?_
  simp only [resolve_seen]
  split
  · exact hR.unifyHandles l _ _
  · exact hR.bind _ _
  · exact hR.bind _ _
  · split
    · exact .pure ()
    · exact .throw _
  · exact .throw _

theorem unifyEach (l : Label) (ps ms : List Value) :
    Shows view R (Session.unifyEach M l ps ms) (Session.unifyEach N l ps ms) := by
  induction ps generalizing ms with
  | nil => exact .pure ()
  | cons p ps ih =>
      cases ms with
      | nil => exact .pure ()
      | cons m ms => exact (hR.unify l p m).bind fun _ => ih ms

theorem unifyValues (l : Label) (ps ms : List Value) :
    Shows view R (Session.unifyValues M l ps ms) (Session.unifyValues N l ps ms) := by
  unfold Session.unifyValues
  split
  · exact .throw _
  · exact hR.unifyEach l ps ms

theorem unifyCalls (l : Label) (p m : Call) :
    Shows view R (Session.unifyCalls M l p m) (Session.unifyCalls N l p m) := by
  unfold Session.unifyCalls
  split
  · exact .throw _
  · exact hR.unifyValues l _ _

theorem verifySteps (l : Label) (w : Walk) (claims : List Label) :
    Shows view R (Session.verifySteps M l w claims) (Session.verifySteps N l w claims) := by
  induction claims generalizing w with
  | nil => exact .pure w
  | cons claim rest ih =>
      unfold Session.verifySteps
      split
      · exact .pure w
      · exact .bind (.liftM _) fun call => (hR.unifyCalls l _ _).bind fun _ =>
          .bind (.liftM _) fun w' => ih w'

theorem verify (l : Label) (d : Distribution) (claims : List Label) :
    Shows view R (Session.verify M l d claims) (Session.verify N l d claims) := by
  unfold Session.verify
  split
  · exact .throw _
  · exact (hR.verifySteps l _ _).bind fun w => .bind (.liftM _) fun result =>
      hR.unifyValues l _ _

/-! ## Expanding -/

theorem groundValues (l : Label) (vs : List Value) :
    Shows view R (Session.groundValues M l vs) (Session.groundValues N l vs) := by
  refine .mapM _ fun v => .get fun s => ?_
  simp only [resolve_seen]
  cases s.resolve v with
  | literal h => exact (hR.canonical h).bind fun _ => .pure _
  | _ => exact .throw _

theorem groundLabel (l c : Label) :
    Shows view R (Session.groundLabel M l c) (Session.groundLabel N l c) :=
  (hR.groundValues l _).bind fun _ => (hR.groundValues l _).bind fun _ => .pure _

theorem alternative (l : Label) (d : Distribution) (m : Mapping) :
    Shows view R (Session.alternative M l d m) (Session.alternative N l d m) :=
  .bind (.liftM _) fun cs => (hR.verify l d cs).bind fun _ => .mapM _ (hR.groundLabel l)

theorem record (l : Label) (c : Call) (as : Label → List (List Label)) :
    Shows view R (Session.record M l c as) (Session.record N l c as) := by
  refine (hR.groundValues l _).bind fun rs => Action.Shows.bind (fun s => ⟨?_, ?_⟩) fun _ =>
    Action.Shows.bind (fun s => ⟨hR.records s _ _, rfl⟩) fun _ => .pure _
  · have hentry : R s (s.withEntry ⟨c, rs⟩) := by
      unfold withEntry
      split
      · exact hR.records s _ _
      · exact hrefl.refl s
    rw [run_addAlternatives]
    split
    · exact hentry
    · exact htrans.trans _ _ _ hentry (hR.records _ _ _)
  · rw [run_addAlternatives, run_addAlternatives, withEntry_seen,
      show (s.seen view).alternativesOf ⟨c, rs⟩ = s.alternativesOf ⟨c, rs⟩ from rfl]
    cases checkDisjoint ⟨c, rs⟩ (s.alternativesOf ⟨c, rs⟩ ++ as ⟨c, rs⟩) with
    | error f => rfl
    | ok _ => rfl

variable (hdistribution : ∀ c : Call, c.isGrounded = true → c.isPrimitive = false →
  Shows view R (distribution M c) (distribution N c))

include hdistribution

theorem alternatives (p : Proof) {c : Call} (hgrounded : c.isGrounded = true)
    (hprim : c.isPrimitive = false) :
    Shows view R (Session.alternatives M p c) (Session.alternatives N p c) :=
  (hdistribution c hgrounded hprim).bind fun d => .bind (.liftM _) fun _ =>
    .mapM _ (hR.alternative p.label d)

theorem expand (p : Proof) : Shows view R (Session.expand M p) (Session.expand N p) := by
  rw [expand_eq, expand_eq]
  refine (hR.groundValues _ _).bind_of_ok fun ps ⟨s, s', hps⟩ => ?_
  simp only
  split
  · split
    · exact .throw _
    · exact hR.record _ _ _
  · next hprim =>
      have hgrounded := isGrounded_of_groundValues hps p.label.call.function
      exact (hR.alternatives hdistribution p hgrounded (Bool.eq_false_iff.2 hprim)).bind
        fun as => hR.record _ _ _

theorem expandAll (ps : List Proof) :
    Shows view R (Session.expandAll M ps) (Session.expandAll N ps) := by
  induction ps with
  | nil => exact .pure ()
  | cons p ps ih => exact .bind ((hR.expand hdistribution p).bind fun _ => .pure ()) fun _ => ih

end Frame

/-! ## Solving -/

theorem ask_readProbability (M : Model σ) (c : Call) (h : Handle) :
    ask (M.readProbability c h) = ask (M.toExternal h) >>= fun v =>
      liftM ((probabilityOf v).mapError (CoinDefect.failure c)) := by
  funext s
  show (ask (M.readProbability c h)).run s = _
  unfold Model.readProbability
  rw [run_ask, Action.run_bind]
  show _ = (ask (M.toExternal h) >>= _).run s
  rw [Action.run_bind, run_ask]
  rcases (M.toExternal h).run s.world with ⟨f | v, w⟩
  · rfl
  · simp only [Action.run_liftM]

namespace Reading

variable [hrefl : Std.Refl R] [htrans : IsTrans (Session σ) R] (hR : Reading view M N R)
  (A : Arithmetic α)

include hR

theorem readProbability (c : Call) (h : Handle) :
    Shows view R (ask (M.readProbability c h)) (ask (N.readProbability c h)) := by
  rw [ask_readProbability, ask_readProbability]
  exact (hR.form h).bind fun v => .liftM _

theorem coinValue (l : Label) :
    Shows view R (Session.coinValue M A l) (Session.coinValue N A l) := by
  unfold Session.coinValue
  split
  · refine (hR.readProbability _ _).bind fun p => ?_
    split
    · refine (hR.form _).bind fun v => ?_
      split
      · exact .pure _
      · exact (hR.display _).bind fun _ => .throw _
    · exact .throw _
  · exact .throw _

theorem termOf (known : List (Label × α)) (t : Term α) (labels : List Label) :
    Shows view R (Session.termOf M A known t labels) (Session.termOf N A known t labels) := by
  induction labels generalizing known t with
  | nil => exact .pure _
  | cons l rest ih =>
      unfold Session.termOf
      split
      · split
        · exact ih _ _
        · exact (hR.coinValue A l).bind fun p => ih _ _
      · refine .get fun s => ?_
        rw [show (s.seen view).number? l = s.number? l from rfl]
        cases s.number? l with
        | some i => exact ih _ _
        | none => exact ih _ _

theorem termsOf (known : List (Label × α)) (as : List (List Label)) :
    Shows view R (Session.termsOf M A known as) (Session.termsOf N A known as) := by
  induction as generalizing known with
  | nil => exact .pure _
  | cons labels rest ih =>
      exact (hR.termOf A _ _ labels).bind fun r => (ih _).bind fun r' => .pure _

theorem equationsOf (known : List (Label × α)) (es : List Entry) :
    Shows view R (Session.equationsOf M A known es) (Session.equationsOf N A known es) := by
  induction es generalizing known with
  | nil => exact .pure _
  | cons e rest ih =>
      exact (hR.termsOf A _ e.alternatives).bind fun r => (ih _).bind fun ts => .pure _

theorem system : Shows view R (Session.system M A) (Session.system N A) :=
  .get fun s => (hR.equationsOf A [] s.entries).bind fun _ => .pure _

end Reading

theorem Frame.system [Std.Refl R] [IsTrans (Session σ) R] (hR : Frame view M N R)
    (A : Arithmetic α) : Shows view R (Session.system M A) (Session.system N A) :=
  hR.reading.system A

/-- What the equations of a session are solved to. -/
theorem conclude_eq {α : Type} (M : Model σ) (A : Arithmetic α) (limit : Nat) (s : Session σ) :
    conclude M A limit (.ok (), s) = match (system M A).run s with
      | (.error f, s') => some (.error f, s'.world)
      | (.ok equations, s') =>
          (equations.solve A s.graph s.graph.components s.settings.maxPasses limit).map fun
            | .error e => (.error (s.sort.notSettled e), s'.world)
            | .ok (values, passes) => (.ok (s.sort.results values passes), s'.world) := by
  simp only [conclude]
  unfold SortedSession.solve
  rw [Run.bind_apply]
  unfold Run.ofAction
  rcases (system M A).run s with ⟨f | equations, s'⟩
  · rfl
  · simp only
    rw [show s.sort.graph = s.graph from rfl, show s.sort.components = s.graph.components from rfl,
      show s.sort.session.settings = s.settings from rfl]
    rcases equations.solve A s.graph s.graph.components s.settings.maxPasses limit with
      _ | e | found
    · rfl
    · rfl
    · rfl

/-- Solving is shown when questions for forms are. -/
theorem conclude_shows {R : σ → σ → Prop} [hrefl : Std.Refl R] [IsTrans σ R]
    (hR : Reading view M N (Order.Preimage world R)) (A : Arithmetic α) (limit : Nat)
    (x : Except Failure Unit) (s : Session σ) :
    match conclude M A limit (x, s) with
    | none => conclude N A limit (x, s.seen view) = none
    | some (r, w) => R s.world w ∧ conclude N A limit (x, s.seen view) = some (r, view w) := by
  cases x with
  | error f => exact ⟨hrefl.refl _, rfl⟩
  | ok _ =>
      obtain ⟨hkeeps, hshows⟩ := hR.system A s
      have hgraph : (s.seen view).graph = s.graph := rfl
      have hsettings : (s.seen view).settings = s.settings := rfl
      rw [conclude_eq, conclude_eq, hshows, hgraph, hsettings]
      rcases hr : (system M A).run s with ⟨f | equations, s'⟩ <;> rw [hr] at hkeeps
      · exact ⟨hkeeps, rfl⟩
      · simp only
        rcases equations.solve A s.graph s.graph.components s.settings.maxPasses limit with
          _ | e | found
        · rfl
        · exact ⟨hkeeps, rfl⟩
        · exact ⟨hkeeps, rfl⟩

/-! ## Requests -/

/-- A request for a distribution is shown as the model answers it. -/
theorem shows_distribution {R : σ → σ → Prop} [hrefl : Std.Refl R] {c : Call}
    (h : Action.Shows view R (M.getDistribution c) (N.getDistribution c)) :
    Shows view (Order.Preimage world R) (distribution M c) (distribution N c) := by
  intro s
  obtain ⟨hkeeps, hshows⟩ := h s.world
  unfold Order.Preimage
  rw [run_distribution, run_distribution, show (s.seen view).expansions = s.expansions from rfl,
    show (s.seen view).world = view s.world from rfl, hshows]
  cases s.expansions.lookup c with
  | some e => exact ⟨hrefl.refl _, rfl⟩
  | none =>
      rcases hr : (M.getDistribution c).run s.world with ⟨f | e, w⟩ <;> rw [hr] at hkeeps
      · exact ⟨hkeeps, rfl⟩
      · exact ⟨hkeeps, rfl⟩

theorem record_call {s s' : Session σ} {l g : Label} {c : Call} {as : Label → List (List Label)}
    (hr : (record M l c as).run s = (.ok g, s')) : g.call = c := by
  obtain ⟨_, _, -, rfl, -⟩ := record_ok hr
  rfl

/-- How a proof is expanded in a session that keeps a relation: either without a request for a
distribution, as the proofs of coins are and those that fail early, or with one, for the grounded
call of its label. -/
inductive Expands (M : Model σ) (R : Session σ → Session σ → Prop) (p : Proof) (s : Session σ) :
    Except Failure Label × Session σ → Prop
  | alone {x : Except Failure Label} {s' : Session σ} (keeps : R s s')
    (coin : ∀ l, x = .ok l → l.isPrimitive = true ∧ p.label.isPrimitive = true) :
    Expands M R p s (x, s')
  | asked {x : Except Failure Label} {s₁ s' : Session σ} {ps : List Value}
    (grounded : (groundValues M p.label p.label.call.parameters).run s = (.ok ps, s₁))
    (compound : Call.isPrimitive ⟨p.label.call.function, ps⟩ = false) (before : R s s₁)
    (after : R ((distribution M ⟨p.label.call.function, ps⟩).run s₁).2 s')
    (answered : ∀ l, x = .ok l → l.call = ⟨p.label.call.function, ps⟩ ∧
      ∃ d s₂, (distribution M l.call).run s₁ = (.ok d, s₂)) : Expands M R p s (x, s')

theorem expands [hrefl : Std.Refl R] [htrans : IsTrans (Session σ) R] (hR : Frame view M N R)
    (p : Proof) (s : Session σ) : Expands M R p s ((Session.expand M p).run s) := by
  have hground := (hR.groundValues p.label p.label.call.parameters).keeps s
  rw [expand_eq, Action.run_bind]
  rcases hps : (groundValues M p.label p.label.call.parameters).run s with ⟨f | ps, s₁⟩ <;>
    rw [hps] at hground
  · exact .alone hground fun _ h => nomatch h
  simp only
  have hrecord : ∀ as s, R s ((record M p.label ⟨p.label.call.function, ps⟩ as).run s).2 :=
    fun as s => (hR.record p.label _ as).keeps s
  cases hprim : Call.isPrimitive ⟨p.label.call.function, ps⟩ with
  | true =>
      simp only [if_true]
      split
      · exact .alone hground fun _ h => nomatch h
      · have hkeeps := hrecord (fun l => [[l]]) s₁
        rcases hr : (record M p.label ⟨p.label.call.function, ps⟩ fun l => [[l]]).run s₁
          with ⟨x, s'⟩
        rw [hr] at hkeeps
        refine .alone (htrans.trans _ _ _ hground hkeeps) ?_
        rintro l rfl
        rw [Label.isPrimitive, record_call hr]
        exact ⟨hprim, hprim⟩
  | false =>
      simp only [Bool.false_eq_true, if_false]
      rw [Action.run_bind]
      -- The distribution is asked for first; all that follows keeps the relation.
      unfold alternatives
      rw [Action.run_bind]
      rcases hd : (distribution M ⟨p.label.call.function, ps⟩).run s₁ with ⟨f | d, s₂⟩
      · exact .asked hps hprim hground (by rw [hd]; exact hrefl.refl s₂) fun _ h => nomatch h
      have hrest : Action.Keeps R (liftM (checkNames p d) >>= fun _ : Unit =>
          p.mappings.mapM (Session.alternative M p.label d)) :=
        .bind (.liftM _) fun _ => .mapM _ fun m => (hR.alternative p.label d m).keeps
      have hkeeps := hrest s₂
      simp only
      rcases has : (liftM (checkNames p d) >>= fun _ : Unit =>
          p.mappings.mapM (Session.alternative M p.label d)).run s₂ with ⟨f | as, s₃⟩ <;>
        rw [has] at hkeeps
      · exact .asked hps hprim hground (by rw [hd]; exact hkeeps) fun _ h => nomatch h
      have hkeeps' := hrecord (fun _ => as) s₃
      simp only
      rcases hr : (record M p.label ⟨p.label.call.function, ps⟩ fun _ => as).run s₃ with ⟨x, s'⟩
      rw [hr] at hkeeps'
      refine .asked hps hprim hground (by rw [hd]; exact htrans.trans _ _ _ hkeeps hkeeps') ?_
      rintro l rfl
      have hcall := record_call hr
      exact ⟨hcall, d, s₂, by rw [hcall]; exact hd⟩

end ChanceProof.Session
