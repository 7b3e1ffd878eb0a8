import ChanceProof.Proofs.Sampling.Interpreter
import ChanceProof.Proofs.Sampling.Ownership

/-!
# The sampler refines the interpreter

The sampler draws from a store as the interpreter's trial runs on JSON values: it uses up the same
random words, returns live objects of the same values and fails in the same way. At every step the
store has at least as many counts of a handle as there are values left that stand for it, whoever
else owns some, so no object goes before it is read.

The loop over assignments is `sampleAssignments_agrees`, the recursion through calls is
`sample_agrees`, and `sample_refines` is what comes out.
-/

namespace ChanceProof

/-! ## Draws and trials side by side -/

/-- Failures of one kind. Only those that name a call or a distribution may differ. -/
def Failure.Like (f g : Failure) : Prop := f.kind = g.kind ∧ (g.kind ∉ ownKinds → f = g)

theorem Failure.Like.refl (f : Failure) : f.Like f := ⟨rfl, fun _ => rfl⟩

/-- A draw from a store ends as a run of a trial does, with the same words used up. -/
def Agrees {α β : Type} (Q : α → Store → β → Prop) :
    Option (Except Failure α × (Store × Randomness)) → Option (Except Failure β × Randomness) → Prop
  | none, none => True
  | some (.ok x, (s, r)), some (.ok y, r') => r = r' ∧ Q x s y
  | some (.error f, (_, r)), some (.error g, r') => r = r' ∧ f.Like g
  | _, _ => False

section

variable {α β γ δ : Type} {Q : α → Store → β → Prop} {Q' : γ → Store → δ → Prop}

theorem Agrees.bind {a : Draw Store α} {t : Trial β} {f : α → Draw Store γ} {g : β → Trial δ}
    {s : Store} {r : Randomness} (h : Agrees Q (a (s, r)) (t.run r))
    (hf : ∀ x s' y r', Q x s' y → Agrees Q' (f x (s', r')) ((g y).run r')) :
    Agrees Q' ((a >>= f) (s, r)) ((t.bind g).run r) := by
  rw [Run.bind_apply, Trial.run_bind]
  generalize a (s, r) = p at h ⊢
  generalize t.run r = q at h ⊢
  rcases p with _ | ⟨x | x, s', r'⟩ <;> rcases q with _ | ⟨y | y, r''⟩
  all_goals first
    | exact h.elim
    | exact h
    | skip
  obtain ⟨rfl, hQ⟩ := h
  exact hf x s' y _ hQ

theorem Agrees.imp {Q Q' : α → Store → β → Prop} (hQ : ∀ x s y, Q x s y → Q' x s y)
    {p : Option (Except Failure α × (Store × Randomness))}
    {q : Option (Except Failure β × Randomness)} (h : Agrees Q p q) : Agrees Q' p q := by
  rcases p with _ | ⟨x | x, s, r⟩ <;> rcases q with _ | ⟨y | y, r'⟩
  all_goals first
    | exact h.elim
    | exact h
    | skip
  exact ⟨h.1, hQ _ _ _ h.2⟩

theorem Agrees.of_ok {x : α} {s : Store} {r : Randomness}
    {q : Option (Except Failure β × Randomness)} (h : Agrees Q (some (.ok x, (s, r))) q) :
    ∃ y, q = some (.ok y, r) ∧ Q x s y := by
  rcases q with _ | ⟨y | y, r'⟩
  · exact h.elim
  · exact h.elim
  · obtain ⟨rfl, hQ⟩ := h
    exact ⟨y, rfl, hQ⟩

/-- Operations of a model one after another are one operation. -/
theorem Draw.ask_bind {σ α β : Type} (a : Action σ α) (f : α → Action σ β) :
    Draw.ask (a >>= f) = Draw.ask a >>= fun x => Draw.ask (f x) := by
  funext w
  obtain ⟨s, r⟩ := w
  rw [Run.bind_apply]
  unfold Draw.ask
  simp only [Action.run_bind]
  rcases a.run s with ⟨e | y, s'⟩ <;> rfl

theorem Draw.ask_ok {a : Action Store α} {f : α → Draw Store γ} {s s' : Store} {x : α}
    (h : a.run s = (.ok x, s')) (r : Randomness) : (Draw.ask a >>= f) (s, r) = f x (s', r) := by
  rw [Run.bind_apply]
  unfold Draw.ask
  simp only [h]

theorem Draw.ask_error {a : Action Store α} {f : α → Draw Store γ} {s s' : Store} {e : Failure}
    (h : a.run s = (.error e, s')) (r : Randomness) :
    (Draw.ask a >>= f) (s, r) = some (.error e, (s', r)) := by
  rw [Run.bind_apply]
  unfold Draw.ask
  simp only [h]

theorem Draw.flip_apply {p : Float} {f : Bool → Draw Store γ} {s : Store} {r : Randomness} :
    (Draw.flip p >>= f) (s, r) = f (r.flip p).1 (s, (r.flip p).2) := by
  rw [Run.bind_apply]
  rfl

end

/-! ## What values carry -/

namespace Sketch

theorem bound?_append {results : List (List Json)} {place : Nat × Nat} {j : Json}
    (h : bound? results place = some j) (more : List (List Json)) :
    bound? (results ++ more) place = some j := by
  unfold bound? at h ⊢
  obtain ⟨js, hjs, h⟩ := Option.bind_eq_some_iff.1 h
  rw [List.getElem?_append_left (List.getElem?_eq_some_iff.1 hjs).1, hjs]
  exact h

theorem resolve_append {sk : Sketch} {results : List (List Json)} {item : Item} {j : Json}
    (h : sk.resolve results item = some j) (more : List (List Json)) :
    sk.resolve (results ++ more) item = some j := by
  cases item with
  | object v => exact h
  | output call index => exact bound?_append h more
  | named name =>
      obtain ⟨place, hplace, h⟩ := Option.bind_eq_some_iff.1 h
      rw [resolve, hplace]
      exact bound?_append h more

end Sketch

namespace Distribution

/-- Values that stand for handles stand for live objects, those that the sketch has there. -/
def Carries (d : Distribution) (hss : List (List Handle)) (sk : Sketch)
    (results : List (List Json)) (s : Store) (v : Value) (item : Item) : Prop :=
  (∀ place, d.slot? v = some place →
      ∀ results, sk.resolve results item = Sketch.bound? results place) ∧
    ∀ h, d.handleAt? hss v = some h →
      ∃ j, sk.resolve results item = some j ∧ s.value? h = some j

/-- The results bound so far are as many as the assignments bind. -/
def Fits (d : Distribution) (hss : List (List Handle)) : Prop :=
  ∀ (i : Nat) (a : Assignment), i < hss.length → d.assignments[i]? = some a →
    ∃ hs, hss[i]? = some hs ∧ hs.length = a.names.length

variable {d : Distribution} {hss : List (List Handle)}

/-- What reads assignments that are bound stands for a handle. -/
theorem Fits.exists_handleAt? (hfits : d.Fits hss) {v : Value} (hv : d.ReadsBefore hss.length v) :
    ∃ h, d.handleAt? hss v = some h := by
  rcases hv with ⟨h, rfl⟩ | ⟨place, a, hslot, hlt, ha, hk⟩
  · exact ⟨h, rfl⟩
  · obtain ⟨hs, hhs, hlen⟩ := hfits place.1 a hlt ha
    have hlt : place.2 < hs.length := hlen ▸ hk
    exact ⟨hs[place.2], by rw [handleAt?_of_slot? hslot, hhs, Option.bind_some,
      List.getElem?_eq_getElem hlt]⟩

theorem Fits.append (hfits : d.Fits hss) {a : Assignment} (ha : d.assignments[hss.length]? = some a)
    {hs : List Handle} (hlen : hs.length = a.names.length) : d.Fits (hss ++ [hs]) := by
  intro i b hi hb
  rw [List.length_append, List.length_singleton] at hi
  rcases Nat.lt_or_eq_of_le (Nat.le_of_lt_succ hi) with hlt | rfl
  · rw [List.getElem?_append_left hlt]
    exact hfits i b hlt hb
  · cases ha.symm.trans hb
    exact ⟨hs, by simp, hlen⟩

/-- Values that all stand for handles are resolved, by the walk and by the sketch. -/
theorem resolve_carried {sk : Sketch} {results : List (List Json)} {s : Store} {vs : List Value}
    {items : List Item} (h : List.Forall₂ (d.Carries hss sk results s) vs items)
    (hvs : ∀ v ∈ vs, ∃ h, d.handleAt? hss v = some h) :
    ∃ hs js, vs.mapM (d.walkTo hss).resolve = .ok (hs.map .literal) ∧
      sk.resolveAll results items = some js ∧
      List.Forall₂ (fun h j => s.value? h = some j) hs js ∧
      ∀ a, d.needs hss vs a = hs.count a := by
  induction h with
  | nil => exact ⟨[], [], rfl, rfl, .nil, fun a => rfl⟩
  | @cons v item vs items hv _ ih =>
      obtain ⟨h, hh⟩ := hvs v List.mem_cons_self
      obtain ⟨hs, js, hres, hall, hvals, hneeds⟩ := ih fun v hv => hvs v (List.mem_cons_of_mem _ hv)
      obtain ⟨j, hj, hval⟩ := hv.2 h hh
      refine ⟨h :: hs, j :: js, ?_, ?_, .cons hval hvals, fun a => ?_⟩
      · rw [List.mapM_cons, resolve_walkTo hh, hres]
        rfl
      · unfold Sketch.resolveAll at hall ⊢
        rw [List.mapM_cons, hj, hall]
        rfl
      · have hcons := d.needs_append hss [v] vs a
        rw [List.singleton_append, hneeds] at hcons
        rw [hcons, List.count_cons, Int.natCast_add, Int.add_comm]
        congr 1
        unfold needs
        rw [List.countP_singleton, hh]
        by_cases heq : h = a
        · simp [heq]
        · simp [heq]

theorem bind_walkTo {a : Assignment} (ha : d.assignments[hss.length]? = some a) (hs : List Handle) :
    (d.walkTo hss).bind (hs.map .literal) =
      if a.names.length = hs.length then .ok (d.walkTo (hss ++ [hs]))
      else .error (.wrongArity a.call hs.length a.names.length) := by
  have hnext : (d.walkTo hss).next? = some a := by
    rw [Walk.next?, walkTo, List.length_map, ha]
  unfold Walk.bind
  rw [hnext]
  simp only [List.length_map]
  split
  · simp [walkTo]
  · rfl

/-- What is left to be read stays when a step is done and its results have their counts. -/
theorem Carries.bind {sk : Sketch} {results : List (List Json)} {s s₁ s₂ : Store}
    {hs : List Handle} {js : List Json} {v : Value} {item : Item}
    (h : d.Carries hss sk results s v item) (hlen : results.length = hss.length)
    (hvals : List.Forall₂ (fun h j => s₁.value? h = some j) hs js) (hsound : s.Sound)
    (hsound₁ : s₁.Sound) (hlater : s.Later s₂) (hlater₁ : s₁.Later s₂)
    (hpos : ∀ h, d.handleAt? (hss ++ [hs]) v = some h → 0 < s₂.counts h) :
    d.Carries (hss ++ [hs]) sk (results ++ [js]) s₂ v item := by
  refine ⟨h.1, fun a ha => ?_⟩
  have hcount := hpos a ha
  by_cases hslot : ∃ k, d.slot? v = some (hss.length, k)
  · obtain ⟨k, hk⟩ := hslot
    rw [handleAt?_append_self hk] at ha
    obtain ⟨j, hj, hval⟩ := forall₂_some_left hvals ha
    refine ⟨j, ?_, hlater₁.value?_of_counts hsound₁ hval hcount⟩
    rw [h.1 _ hk, ← hlen, Sketch.bound?]
    simpa using hj
  · push Not at hslot
    rw [handleAt?_append_of_ne hslot] at ha
    obtain ⟨j, hj, hval⟩ := h.2 a ha
    exact ⟨j, Sketch.resolve_append hj _, hlater.value?_of_counts hsound hval hcount⟩

end Distribution

/-! ## Midway through a distribution -/

/-- What a call returns: live objects of these values, each with a count, in return for the counts
of its arguments. -/
def Returns (s : Store) (owned rs : List Handle) (s' : Store) (ws : List Json) : Prop :=
  List.Forall₂ (fun h w => s'.value? h = some w) rs ws ∧
    s.Moves s' fun h => rs.count h - owned.count h

namespace Distribution

/-- The values that are read when these assignments are left. -/
def left (d : Distribution) (as : List Assignment) : List Value :=
  as.flatMap (·.call.parameters) ++ d.result

theorem left_cons (d : Distribution) (a : Assignment) (as : List Assignment) :
    d.left (a :: as) = a.call.parameters ++ d.left as := by
  rw [left, List.flatMap_cons, List.append_assoc, left]

/-- Some results are bound, and what is left to be read is owned. -/
structure Midway (d : Distribution) (sk : Sketch) (as : List Assignment) (steps : List Step)
    (hss : List (List Handle)) (results : List (List Json)) (s : Store) : Prop where
  sound : s.Sound
  next : d.assignments.drop hss.length = as
  length : results.length = hss.length
  fits : d.Fits hss
  carries : List.Forall₂ (d.Carries hss sk results s) (d.left as)
    (steps.flatMap (·.parameters) ++ sk.result)
  owned : ∀ h, d.needs hss (d.left as) h ≤ s.counts h

section

variable {d : Distribution} {sk : Sketch} {φ : Handle → Option Json} {a : Assignment}
  {as : List Assignment} {st : Step} {steps : List Step} {hss : List (List Handle)}
  {results : List (List Json)} {s : Store}
  (h : d.Midway sk (a :: as) (st :: steps) hss results s) (hast : a.Reads φ st)

include h

theorem Midway.current : d.assignments[hss.length]? = some a := by
  rw [← List.head?_drop, h.next, List.head?_cons]

theorem Midway.valuesFrom : d.valuesFrom (hss.length + 1) = d.left as := by
  rw [Distribution.valuesFrom, ← List.tail_drop, h.next, List.tail_cons, left]

include hast

theorem Midway.carries_cons :
    List.Forall₂ (d.Carries hss sk results s) a.call.parameters st.parameters ∧
      List.Forall₂ (d.Carries hss sk results s) (d.left as)
        (steps.flatMap (·.parameters) ++ sk.result) := by
  have hcarries := h.carries
  rw [left_cons, List.flatMap_cons, List.append_assoc] at hcarries
  exact forall₂_append_inv hcarries hast.parameters.length_eq

/-- The arguments of the next call are handles of the objects that the sketch has there, and they
are owned beside what is left after the call. -/
theorem Midway.arguments :
    ∃ owned vs, (d.walkTo hss).resolveCall a.call = .ok ⟨a.call.function, owned.map .literal⟩ ∧
      sk.resolveAll results st.parameters = some vs ∧
      List.Forall₂ (fun h v => s.value? h = some v) owned vs ∧
      ∀ b, d.needs hss (d.left (a :: as)) b = owned.count b + d.needs hss (d.left as) b := by
  obtain ⟨owned, vs, hres, hall, hvals, hneeds⟩ := resolve_carried (h.carries_cons hast).1
    fun v hv => h.fits.exists_handleAt? (d.reads_earlier h.current v hv)
  refine ⟨owned, vs, ?_, hall, hvals, fun b => ?_⟩
  · rw [Walk.resolveCall, hres]
    rfl
  · rw [left_cons, needs_append, hneeds]

/-- A call that returned is followed by the rest, once its results have a count for each use. -/
theorem Midway.bind {owned rs : List Handle} {ws : List Json} {s₁ s₂ : Store}
    (hneeds : ∀ b, d.needs hss (d.left (a :: as)) b = owned.count b + d.needs hss (d.left as) b)
    (hreturns : Returns s owned rs s₁ ws) (hlen : a.names.length = rs.length)
    (hmoves : s₁.Moves s₂ fun b =>
      handed rs (fun k => d.reading (d.left as) (hss.length, k)) b - rs.count b) :
    d.Midway sk as steps (hss ++ [rs]) (results ++ [ws]) s₂ ∧
      s.Moves s₂ fun b =>
        d.needs (hss ++ [rs]) (d.left as) b - d.needs hss (d.left (a :: as)) b := by
  obtain ⟨hws, hmoves₁⟩ := hreturns
  have hmoves₂ : s.Moves s₂ fun b =>
      d.needs (hss ++ [rs]) (d.left as) b - d.needs hss (d.left (a :: as)) b :=
    (hmoves₁.trans hmoves).congr fun b => by
      have hn := hneeds b
      have hb := d.needs_bind hss rs (d.left as) b
      omega
  have howned : ∀ b, d.needs (hss ++ [rs]) (d.left as) b ≤ s₂.counts b := fun b => by
    have ho := h.owned b
    have hm := hmoves₂.counts b
    omega
  refine ⟨⟨hmoves.sound, ?_, ?_, h.fits.append h.current hlen.symm, ?_, howned⟩, hmoves₂⟩
  · rw [List.length_append, List.length_singleton, ← List.tail_drop, h.next, List.tail_cons]
  · rw [List.length_append, List.length_append, h.length, List.length_singleton,
      List.length_singleton]
  · refine forall₂_imp_mem (h.carries_cons hast).2 fun v hv item hcarry => ?_
    refine hcarry.bind h.length hws h.sound hmoves₁.sound hmoves₂.later hmoves.later fun b hb => ?_
    have ho := howned b
    have hp := needs_pos hv hb
    omega

/-- The arguments of the next call are owned, and when it has returned, its results can have a count
for each use. -/
theorem Midway.step (functions : Library) :
    ∃ owned vs, (d.walkTo hss).resolveCall a.call = .ok ⟨a.call.function, owned.map .literal⟩ ∧
      sk.resolveAll results st.parameters = some vs ∧
      List.Forall₂ (fun h v => s.value? h = some v) owned vs ∧
      (∀ b, (owned.count b : Int) ≤ s.counts b) ∧
      ∀ rs ws s₁, Returns s owned rs s₁ ws → a.names.length = rs.length →
        ∃ s₂, (functions.model.settleUses (rs.zip ((List.range rs.length).map fun k =>
            d.reading (d.left as) (hss.length, k)))).run s₁ = (.ok (), s₂) ∧
          d.Midway sk as steps (hss ++ [rs]) (results ++ [ws]) s₂ ∧
          s.Moves s₂ fun b =>
            d.needs (hss ++ [rs]) (d.left as) b - d.needs hss (d.left (a :: as)) b := by
  obtain ⟨owned, vs, hcall, hall, hvals, hneeds⟩ := h.arguments hast
  have hbefore : ∀ b, owned.count b + d.needs hss (d.left as) b ≤ s.counts b := fun b => by
    rw [← hneeds]
    exact h.owned b
  have hrest : ∀ b, 0 ≤ d.needs hss (d.left as) b := d.needs_nonneg hss (d.left as)
  refine ⟨owned, vs, hcall, hall, hvals, fun b => ?_, fun rs ws s₁ hreturns hlen => ?_⟩
  · have hb := hbefore b
    have hr := hrest b
    omega
  · obtain ⟨s₂, hr, hmoves⟩ := run_settleUses hreturns.2.sound functions rs
      (fun k => d.reading (d.left as) (hss.length, k)) fun b => by
        have hb := hbefore b
        have hr := hrest b
        have hm := hreturns.2.counts b
        omega
    exact ⟨s₂, hr, h.bind hast hneeds hreturns hlen hmoves⟩

end

end Distribution

/-! ## Sampling a distribution -/

/-- Drawing a call whose arguments are owned agrees with its trial. -/
def Draws (draw : Call → Draw Store (List Handle))
    (trial : String → List Json → Trial (List Json)) : Prop :=
  ∀ (s : Store) (c : Call) (owned : List Handle) (vs : List Json) (r : Randomness), s.Sound →
    c.parameters = owned.map .literal →
    List.Forall₂ (fun h v => s.value? h = some v) owned vs →
    (∀ h, (owned.count h : Int) ≤ s.counts h) →
    Agrees (Returns s owned) (draw c (s, r)) ((trial c.function vs).run r)

section

variable (functions : Library) {draw : Call → Draw Store (List Handle)}
  {trial : String → List Json → Trial (List Json)} (hdraw : Draws draw trial)
  {d : Distribution} {sk : Sketch} {φ : Handle → Option Json} (hd : d.Reads φ sk)

include hdraw

/-- Assignment by assignment, what is left to be read is owned. -/
theorem sampleAssignments_agrees {as : List Assignment} {steps : List Step}
    (has : List.Forall₂ (Assignment.Reads φ) as steps) (hss : List (List Handle))
    (results : List (List Json)) {s : Store} (r : Randomness)
    (h : d.Midway sk as steps hss results s) :
    Agrees (fun w s' results' => ∃ hss', w = d.walkTo hss' ∧ d.Midway sk [] [] hss' results' s' ∧
        s.Moves s' fun b => d.needs hss' (d.left []) b - d.needs hss (d.left as) b)
      (functions.model.sampleAssignments draw (d.walkTo hss)
        (as.zip (d.useCounts.drop hss.length)) (s, r))
      ((sk.runSteps trial results steps).run r) := by
  induction has generalizing hss results s r with
  | nil =>
      refine ⟨rfl, hss, rfl, h, (Store.Moves.refl h.sound).congr fun b => ?_⟩
      rw [Int.sub_self]
  | @cons a st as steps hast _ ih =>
      obtain ⟨hlt, hget⟩ := List.getElem?_eq_some_iff.1 (Distribution.getElem?_useCounts h.current)
      rw [List.drop_eq_getElem_cons hlt, hget, List.zip_cons_cons, h.valuesFrom]
      obtain ⟨owned, vs, hcall, hall, hvals, howned, hstep⟩ := h.step hast functions
      unfold Model.sampleAssignments Sketch.runSteps
      rw [Run.liftM_ok (by rw [hcall]; rfl), hall]
      refine Agrees.bind (Q := Returns s owned) ?_ fun rs s₁ ws r₁ hreturns => ?_
      · rw [← hast.function]
        exact hdraw s _ owned vs r h.sound rfl hvals howned
      by_cases harity : st.names.length = ws.length
      swap
      · have hne : ¬a.names.length = rs.length := by
          rwa [hast.names, hreturns.1.length_eq]
        rw [if_neg harity,
          Run.liftM_error (by rw [Distribution.bind_walkTo h.current, if_neg hne]; rfl)]
        exact ⟨rfl, rfl, fun h => absurd (List.mem_cons_of_mem _ List.mem_cons_self) h⟩
      have hlen : a.names.length = rs.length := by
        rwa [hast.names, hreturns.1.length_eq]
      obtain ⟨s₂, hr, hmid, hmoves'⟩ := hstep rs ws s₁ hreturns hlen
      rw [if_pos harity,
        Run.liftM_ok (by rw [Distribution.bind_walkTo h.current, if_pos hlen]; rfl), hlen,
        Draw.ask_ok hr]
      have hind := ih (hss ++ [rs]) (results ++ [ws]) r₁ hmid
      rw [List.length_append, List.length_singleton] at hind
      refine hind.imp ?_
      rintro w s' results' ⟨hss', rfl, hmid', hmoves''⟩
      refine ⟨hss', rfl, hmid', (hmoves'.trans hmoves'').congr fun b => ?_⟩
      omega

omit hdraw

theorem carries_start (hd : d.Reads φ sk) {s : Store} {v : Value} {item : Item}
    (hv : v.Reads φ item) (hlive : ∀ h w, v = .literal h → φ h = some w → s.value? h = some w) :
    d.Carries [] sk [] s v item := by
  cases hv with
  | literal hform =>
      refine ⟨fun place h => (nomatch h), fun h hh => ?_⟩
      cases hh
      exact ⟨_, rfl, hlive _ _ rfl hform⟩
  | output =>
      refine ⟨fun place h results => ?_, fun h hh => ?_⟩
      · cases h
        rfl
      · rw [Distribution.handleAt?_of_slot? rfl] at hh
        cases hh
  | @named name =>
      have hslot : d.slot? (.named name) = sk.locate? name := hd.locate? name
      refine ⟨fun place h results => ?_, fun h hh => ?_⟩
      · rw [hslot] at h
        rw [Sketch.resolve, h]
        rfl
      · simp only [Distribution.handleAt?, hslot] at hh
        obtain ⟨place, -, hh⟩ := Option.bind_eq_some_iff.1 hh
        cases hh

theorem run_resultHandles {σ : Type} (hs : List Handle) (s : σ × Randomness) :
    ((hs.map .literal).mapM fun v => liftM (Model.resultHandle v) : Draw σ (List Handle)) s
      = some (.ok hs, s) := by
  induction hs with
  | nil => rfl
  | cons h hs ih =>
      have hone : Model.resultHandle (.literal h) = .ok h := rfl
      rw [List.map_cons, List.mapM_cons, Run.liftM_ok hone, Run.bind_apply, ih]
      rfl

theorem forall₂_flatMap {φ : Handle → Option Json} {as : List Assignment} {steps : List Step}
    (h : List.Forall₂ (Assignment.Reads φ) as steps) :
    List.Forall₂ (Value.Reads φ) (as.flatMap (·.call.parameters))
      (steps.flatMap (·.parameters)) := by
  induction h with
  | nil => exact .nil
  | cons hast _ ih => exact List.rel_append hast.parameters ih

/-- Before the first assignment, all literals are owned. -/
theorem midway_start (hd : d.Reads φ sk) {s : Store} (hs : s.Sound)
    (hlive : ∀ h w, .literal h ∈ d.values → φ h = some w → s.value? h = some w)
    (howned : ∀ h, occurrences d.values h ≤ s.counts h) :
    d.Midway sk d.assignments sk.steps [] [] s := by
  have hvalues : List.Forall₂ (d.Carries [] sk [] s) (d.left d.assignments)
      (sk.steps.flatMap (·.parameters) ++ sk.result) :=
    forall₂_imp_mem (List.rel_append (forall₂_flatMap hd.steps) hd.result) fun v hv item hread =>
      carries_start hd hread fun h w heq => hlive h w (heq ▸ hv)
  exact ⟨hs, rfl, rfl, fun i a hi => (nomatch hi), hvalues,
    fun h => (d.needs_nil d.values h).trans_le (howned h)⟩

/-- After the last assignment, the results are live objects that the sketch has there. -/
theorem midway_end {hss : List (List Handle)} {results : List (List Json)} {s : Store}
    (h : d.Midway sk [] [] hss results s) :
    ∃ rs ws, (d.walkTo hss).resolveResult = .ok (rs.map .literal) ∧
      sk.resolveAll results sk.result = some ws ∧
      List.Forall₂ (fun h w => s.value? h = some w) rs ws ∧
      ∀ a, d.needs hss (d.left []) a = rs.count a := by
  have hall : d.assignments.length ≤ hss.length := List.drop_eq_nil_iff.1 h.next
  exact Distribution.resolve_carried h.carries
    fun v hv => h.fits.exists_handleAt? ((d.result_reads v hv).mono hall)

include hdraw

/-- Sampling a distribution whose literals are owned returns in return for these. -/
theorem sampleDistribution_agrees {s : Store} (hs : s.Sound) (hd : d.Reads φ sk)
    (hlive : ∀ h w, .literal h ∈ d.values → φ h = some w → s.value? h = some w)
    (howned : ∀ h, occurrences d.values h ≤ s.counts h) (r : Randomness) :
    Agrees (fun rs s' ws => List.Forall₂ (fun h w => s'.value? h = some w) rs ws ∧
        s.Moves s' fun h => rs.count h - occurrences d.values h)
      (functions.model.sampleDistribution draw d (s, r)) ((sk.run trial).run r) := by
  have hmid := midway_start hd hs hlive howned
  unfold Model.sampleDistribution Sketch.run
  refine (sampleAssignments_agrees functions hdraw hd.steps [] [] r hmid).bind
    fun w s' results r' => ?_
  rintro ⟨hss, rfl, hend, hmoves⟩
  obtain ⟨rs, ws, hresult, hwhole, hvals, hcounts⟩ := midway_end hend
  rw [Run.liftM_ok (by rw [hresult]; rfl), run_resultHandles, hwhole]
  refine ⟨rfl, hvals, hmoves.congr fun h => ?_⟩
  have hstart : d.needs [] (d.left d.assignments) h = occurrences d.values h :=
    d.needs_nil d.values h
  rw [hcounts, hstart]

end

theorem run_readProbability (functions : Library) {s : Store} {h : Handle} {v : Json}
    (hv : s.value? h = some v) (c : Call) :
    (functions.model.readProbability c h).run s
      = ((probabilityOf v).mapError (CoinDefect.failure c), s) := by
  obtain ⟨o, ho, rfl⟩ := Option.map_eq_some_iff.1 hv
  have hread : (functions.model.toExternal h).run s = (.ok o.value, s) :=
    Action.run_bind_of_ok (Store.run_object ho)
  unfold Model.readProbability
  rw [Action.run_bind_of_ok hread]
  cases probabilityOf o.value with
  | error d => rfl
  | ok p => rfl

/-- A coin takes the probability's count and returns a new truth value. -/
theorem sampleCoin_agrees (functions : Library) {s : Store} (hs : s.Sound) {c : Call}
    {owned : List Handle} {vs : List Json} (r : Randomness)
    (hpar : c.parameters = owned.map .literal)
    (hvals : List.Forall₂ (fun h v => s.value? h = some v) owned vs)
    (howned : ∀ h, (owned.count h : Int) ≤ s.counts h) :
    Agrees (Returns s owned) ((do return [← functions.model.sampleCoin c] : Draw Store _) (s, r))
      ((coinTrial vs).run r) := by
  unfold Model.sampleCoin
  rw [hpar]
  match owned, vs, hvals with
  | [], [], _ => exact ⟨rfl, rfl, fun h => absurd List.mem_cons_self h⟩
  | h :: h' :: owned, v :: v' :: vs, _ => exact ⟨rfl, rfl, fun h => absurd List.mem_cons_self h⟩
  | [h], [v], .cons hv _ =>
      have hread := run_readProbability functions hv c
      unfold coinTrial
      simp only [List.map_cons, List.map_nil, bind_assoc]
      split
      · next p hp =>
          rw [hp] at hread
          have hone := howned h
          rw [List.count_singleton_self] at hone
          obtain ⟨s₁, hr₁, hmoves₁⟩ := Store.run_modifyCount hs h (-1) (by omega) (by omega)
          obtain ⟨a, s₂, hr₂, ha, hmoves₂⟩ := Store.run_add hmoves₁.sound (.bool (r.flip p).1)
          have hr₁' : (functions.model.modifyCount h (-1)).run s = (.ok (), s₁) := hr₁
          have hr₂' : (functions.model.fromExternal (.bool (r.flip p).1)).run s₁ = (.ok a, s₂) :=
            hr₂
          rw [Draw.ask_ok hread, Draw.ask_ok hr₁', Draw.flip_apply, Draw.ask_ok hr₂']
          refine ⟨rfl, .cons ha .nil, (hmoves₁.trans hmoves₂).congr fun b => ?_⟩
          rw [count_cons, count_cons, List.count_nil]
          split <;> omega
      · next d hp =>
          rw [hp] at hread
          rw [Draw.ask_error hread]
          exact ⟨rfl, rfl, fun h => absurd List.mem_cons_self h⟩

/-- Expanding a call and giving its arguments up leaves every literal of the distribution owned. -/
theorem getDistribution_released (functions : Library) {s : Store} (hs : s.Sound) {c : Call}
    (hprim : c.isPrimitive = false) {owned : List Handle} {vs : List Json}
    (hpar : c.parameters = owned.map .literal)
    (hvals : List.Forall₂ (fun h v => s.value? h = some v) owned vs)
    (howned : ∀ h, (owned.count h : Int) ≤ s.counts h) :
    (∃ f, (functions.model.getDistribution c).run s = (.error f, s) ∧
      functions.expand c.function vs = .error f) ∨
    ∃ e sk s₁ s₂, (functions.model.getDistribution c).run s = (.ok e, s₁) ∧
      (c.handles.forM fun h => functions.model.modifyCount h (-1)).run s₁ = (.ok ⟨⟩, s₂) ∧
      functions.expand c.function vs = .ok sk ∧ e.distribution.Reads s₁.value? sk ∧
      (s.Moves s₂ fun h => occurrences e.distribution.values h - owned.count h) ∧
      (∀ h w, .literal h ∈ e.distribution.values → s₁.value? h = some w → s₂.value? h = some w) ∧
      ∀ h, occurrences e.distribution.values h ≤ s₂.counts h := by
  rcases functions.getDistribution_cases hs c with
    ⟨f, hr, hexpand⟩ | ⟨e, s₁, hr, hmoves, owned', vs', sk, -, hpar', hvals', hsk, hreads⟩
  · exact .inl ⟨f, hr, hexpand owned vs hprim hpar hvals⟩
  · rw [Call.handles_unique hpar' hpar] at hvals'
    rw [forall₂_some_unique hvals' hvals] at hsk
    obtain ⟨s₂, hrelease, hmoves₂⟩ := run_release hmoves.sound owned fun h => by
      have ho := howned h
      have hm := hmoves.counts h
      have hn := occurrences_nonneg e.distribution.values h
      omega
    have howned₂ : ∀ h, occurrences e.distribution.values h ≤ s₂.counts h := fun h => by
      have ho := howned h
      have hm := hmoves.counts h
      have hm₂ := hmoves₂.counts h
      omega
    refine .inr ⟨e, sk, s₁, s₂, hr, ?_, hsk, hreads, (hmoves.trans hmoves₂).congr fun h => ?_,
      fun h w hmem hw => ?_, howned₂⟩
    · rw [Call.handles_of_parameters hpar]
      exact hrelease
    · omega
    · have hpos : 0 < occurrences e.distribution.values h :=
        Int.natCast_pos.2 (List.count_pos_iff.2 hmem)
      have ho := howned₂ h
      exact hmoves₂.later.value?_of_counts hmoves.sound hw (by omega)

/-- A call of a library is drawn as its trial runs. -/
theorem sample_agrees (functions : Library) (depth : Nat) :
    Draws (functions.model.sample depth) (interpret functions.expand depth) := by
  induction depth with
  | zero => exact fun s c owned vs r _ _ _ _ => trivial
  | succ depth ih =>
      intro s c owned vs r hs hpar hvals howned
      unfold Model.sample interpret
      by_cases hprim : c.isPrimitive = true
      · rw [if_pos hprim, if_pos (Call.isPrimitive_iff.1 hprim)]
        exact sampleCoin_agrees functions hs r hpar hvals howned
      · rw [if_neg hprim, if_neg fun h => hprim (Call.isPrimitive_iff.2 h)]
        have hprim' := Bool.eq_false_iff.2 hprim
        rcases getDistribution_released functions hs hprim' hpar hvals howned with
          ⟨f, hr, hexpand⟩ | ⟨e, sk, s₁, s₂, hr, hrelease, hsk, hreads, hmoves, hlive, howned₂⟩
        · rw [hexpand, Draw.ask_error hr]
          exact ⟨rfl, .refl f⟩
        · rw [Draw.ask_ok hr, Draw.ask_ok hrelease, hsk]
          refine (sampleDistribution_agrees functions ih hmoves.sound hreads hlive howned₂ r).imp ?_
          rintro rs s' ws ⟨hws, hmoves'⟩
          refine ⟨hws, (hmoves.trans hmoves').congr fun h => ?_⟩
          omega

/-- What a builder does not let a program read makes a misshapen distribution. -/
theorem forM_checkBound (b : Builder) (as : List Argument) : as.forM b.checkBound = .ok () ∨
    ∃ f, as.forM b.checkBound = .error f ∧ f.kind = "malformed_distribution" := by
  induction as with
  | nil => exact .inl rfl
  | cons a as ih =>
      rw [List.forM_eq_forM, List.forM_cons]
      cases a with
      | literal v => exact ih
      | named name =>
          simp only [Builder.checkBound]
          split
          · exact ih
          · exact .inr ⟨_, rfl, rfl⟩

/-- A failure about a reference that a trial of a call has is one that a function ended with. -/
theorem function_fails {functions : Library} {depth : Nat} {name : String} {vs : List Json}
    {f : Failure} (h : (interpret functions.expand depth name vs).Fails f)
    (hkind : f.kind = "unknown_reference" ∨ f.kind = "invalid_reference_count") :
    ∃ name function args, functions.lookup name = some function ∧
      (function args).run .empty = .error f := by
  have hforeign : f.kind ∉ "unknown_function" :: ownKinds := by
    rcases hkind with hkind | hkind <;> rw [hkind] <;> decide
  rcases kind_of_interpret h with hown | ⟨name, args, hexpand⟩
  · exact absurd (List.mem_cons_of_mem _ hown) hforeign
  unfold Library.expand at hexpand
  split at hexpand
  · cases hexpand
    exact absurd List.mem_cons_self hforeign
  · next function hlookup =>
      refine ⟨name, function, args, hlookup, ?_⟩
      unfold Program.build at hexpand
      cases hrun : (function args).run .empty with
      | error g =>
          rw [hrun] at hexpand
          cases hexpand
          rfl
      | ok built =>
          rw [hrun] at hexpand
          have hexpand' : (built.1.forM built.2.checkBound >>= fun _ =>
              pure (built.1, built.2.pending)) >>= (fun r : List Argument × List PendingCall =>
                (pure ⟨r.2.map PendingCall.step, r.1.map Argument.item⟩ : Except Failure Sketch))
              = .error f := hexpand
          rcases forM_checkBound built.2 built.1 with hok | ⟨g, hg, hkind'⟩
          · rw [hok] at hexpand'
            cases hexpand'
          · rw [hg] at hexpand'
            cases hexpand'
            exact absurd (by rw [hkind']; decide) hforeign

/-- The sampler refines the interpreter, and it fails for a reference only when a function does. -/
theorem sample_refines (functions : Library) {s : Store} (hs : functions.Reached s) {c : Call}
    {owned : List Handle} {vs : List Json} (hpar : c.parameters = owned.map .literal)
    (hforms : functions.model.Forms s owned vs) (howned : ∀ h, (owned.count h : Int) ≤ s.counts h)
    (depth : Nat) (r : Randomness) :
    (functions.model.sample depth c (s, r) = none ↔
      (interpret functions.expand depth c.function vs).run r = none) ∧
    (∀ ws r', (interpret functions.expand depth c.function vs).run r = some (.ok ws, r') →
      ∃ rs s', functions.model.sample depth c (s, r) = some (.ok rs, (s', r')) ∧
        functions.model.Forms s' rs ws ∧
        ∀ h, s'.counts h = s.counts h - owned.count h + rs.count h) ∧
    (∀ g r', (interpret functions.expand depth c.function vs).run r = some (.error g, r') →
      ∃ f s', functions.model.sample depth c (s, r) = some (.error f, (s', r')) ∧
        f.kind = g.kind) ∧
    ∀ f s' r', functions.model.sample depth c (s, r) = some (.error f, (s', r')) →
      f.kind = "unknown_reference" ∨ f.kind = "invalid_reference_count" →
      ∃ name function args, functions.lookup name = some function ∧
        (function args).run .empty = .error f := by
  have hvals : List.Forall₂ (fun h v => s.value? h = some v) owned vs :=
    hforms.imp fun h v hv => by rwa [Library.form?_model] at hv
  have hagrees := sample_agrees functions depth s c owned vs r hs.sound hpar hvals howned
  have hfails : ∀ g r', (interpret functions.expand depth c.function vs).run r
      = some (.error g, r') → (interpret functions.expand depth c.function vs).Fails g :=
    fun _ _ => Trial.fails_of_run
  generalize functions.model.sample depth c (s, r) = p at hagrees ⊢
  generalize (interpret functions.expand depth c.function vs).run r = q at hagrees hfails ⊢
  refine ⟨?_, ?_, ?_, ?_⟩
  · rcases p with _ | ⟨x | x, s', r'⟩ <;> rcases q with _ | ⟨y | y, r''⟩
    all_goals first
      | exact hagrees.elim
      | simp
  · rintro ws r' rfl
    rcases p with _ | ⟨x | rs, s', r''⟩
    · exact hagrees.elim
    · exact hagrees.elim
    · obtain ⟨rfl, hws, hmoves⟩ := hagrees
      refine ⟨rs, s', rfl, hws.imp fun h w hw => by rwa [Library.form?_model], fun h => ?_⟩
      have hm := hmoves.counts h
      omega
  · rintro g r' rfl
    rcases p with _ | ⟨f | rs, s', r''⟩
    · exact hagrees.elim
    · obtain ⟨rfl, hkind, -⟩ := hagrees
      exact ⟨f, s', rfl, hkind⟩
    · exact hagrees.elim
  · rintro f s' r' rfl hkind
    rcases q with _ | ⟨g | ws, r''⟩
    · exact hagrees.elim
    · obtain ⟨-, hlike, heq⟩ := hagrees
      rw [hlike] at hkind
      have hforeign : g.kind ∉ ownKinds := by
        rcases hkind with hkind | hkind <;> rw [hkind] <;> decide
      rw [heq hforeign]
      exact function_fails (hfails g r'' rfl) hkind
    · exact hagrees.elim

/-! ## One flip that is returned twice -/

def doubled : Library :=
  [("double", fun
    | [p] => .append Call.coinFunction [.literal p] ["x"] (.done [.named "x", .named "x"])
    | _ => .fail (.unknownFunction "double"))]

def halfStore : Store := ((Store.add (.number (.float 0.5))).run .empty).2

theorem halfStore_reached (functions : Library) : functions.Reached halfStore :=
  .fromExternal .empty (.number (.float 0.5))

/-- The one count that the store has of its value is enough for a call of it. -/
theorem halfStore_owned (h : Handle) (hmem : Value.literal h ∈ [Value.literal ⟨0⟩]) :
    occurrences [.literal ⟨0⟩] h ≤ halfStore.counts h := by
  cases List.mem_singleton.1 hmem
  decide

def doubled.sketch : Sketch :=
  ⟨[⟨Call.coinFunction, [.object (.number (.float 0.5))], ["x"]⟩], [.named "x", .named "x"]⟩

theorem doubled_run (r : Randomness) :
    (interpret doubled.expand 2 "double" [.number (.float 0.5)]).run r =
      some (.ok [.bool (r.flip 0.5).1, .bool (r.flip 0.5).1], (r.flip 0.5).2) := by
  have hexpand : doubled.expand "double" [.number (.float 0.5)] = .ok doubled.sketch := rfl
  have hprob : probabilityOf (.number (.float 0.5)) = .ok 0.5 := by
    have hunit : (0 : Float) ≤ 0.5 ∧ (0.5 : Float) ≤ 1 := by decide +kernel
    unfold probabilityOf
    simp only [Json.float?, Number.toFloat]
    rw [if_pos hunit]
  have hcoin : interpret doubled.expand 1 Call.coinFunction [.number (.float 0.5)] =
      .flip ⟨0.5, unit_of_probabilityOf hprob⟩ fun landed => .done [.bool landed] := by
    rw [interpret, if_pos rfl, coinTrial_of_probabilityOf hprob]
  have hresolve : doubled.sketch.resolveAll [] [.object (.number (.float 0.5))]
      = some [.number (.float 0.5)] := rfl
  rw [interpret, if_neg (by decide), hexpand]
  simp only [Sketch.run, Sketch.runSteps, doubled.sketch]
  simp only [doubled.sketch] at hresolve
  rw [hresolve]
  simp only [hcoin, Trial.bind, Trial.run]
  rfl

theorem doubled_sampled : ∃ rs s' r',
    doubled.model.sample 2 ⟨"double", [.literal ⟨0⟩]⟩ (halfStore, .cycle []) =
      some (.ok rs, (s', r')) ∧
    doubled.model.Forms s' rs [.bool true, .bool true] ∧ r'.used = 1 := by
  have hreached := halfStore_reached doubled
  have howned : ∀ h : Handle, (([⟨0⟩] : List Handle).count h : Int) ≤ halfStore.counts h := by
    intro h
    rw [count_cons, List.count_nil]
    split
    · next heq =>
        rw [heq]
        decide
    · exact hreached.sound.counts_nonneg h
  have hlands : ((Randomness.cycle []).flip 0.5).1 = true := by decide +kernel
  have hrun := doubled_run (.cycle [])
  rw [hlands] at hrun
  obtain ⟨rs, s', hr, hws, -⟩ := (sample_refines doubled hreached
    (c := ⟨"double", [.literal ⟨0⟩]⟩) rfl
    (.cons rfl .nil) howned 2 (.cycle [])).2.1 _ _ hrun
  exact ⟨rs, s', _, hr, hws, rfl⟩

end ChanceProof
