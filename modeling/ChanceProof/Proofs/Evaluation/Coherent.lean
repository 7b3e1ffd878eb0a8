import ChanceProof.Evaluation.Unify
import ChanceProof.Proofs.Model.Contract

/-!
# What a session knows is true

A session is coherent when its memory agrees with the model below it: a canonical handle stands for
the same form as the handles it replaces and is the only one of its form, values of unknowns are
canonical, and the distributions it keeps still read as the model's sketches.

`Learns` is what every question, unification and check does to a session, failing ones included:
coherence stays, and nothing that was known is forgotten or changed. Labels and alternatives are
not touched.
-/

namespace ChanceProof

/-- Among different keys each entry is found under its own. -/
theorem lookup_of_mem {α : Type} {entries : List (String × α)}
    (hdistinct : (entries.map (·.1)).Nodup) {e : String × α} (he : e ∈ entries) :
    entries.lookup e.1 = some e.2 := by
  induction entries with
  | nil => exact absurd he List.not_mem_nil
  | cons f rest ih =>
      obtain ⟨hnot, hrest⟩ := List.nodup_cons.1 hdistinct
      rw [List.lookup_cons]
      cases List.mem_cons.1 he with
      | inl heq =>
          rw [heq]
          simp
      | inr hmem =>
          have hne : (e.1 == f.1) = false :=
            beq_false_of_ne fun heq => hnot (List.mem_map.2 ⟨e, hmem, heq⟩)
          rw [hne]
          exact ih hrest hmem

/-- What is found stays found when an entry is put under a new key. -/
theorem lookup_cons_of_new {α β : Type} [BEq α] [LawfulBEq α] {entries : List (α × β)} {k a : α}
    {x y : β} (hnew : entries.lookup k = none) (ha : entries.lookup a = some y) :
    ((k, x) :: entries).lookup a = some y := by
  have hne : (a == k) = false := by
    refine beq_false_of_ne fun heq => ?_
    rw [heq, hnew] at ha
    cases ha
  rw [List.lookup_cons, hne]
  exact ha

namespace Session

variable {σ : Type}

/-- The handle is the canonical one of its object. -/
def IsCanonical (s : Session σ) (h : Handle) : Prop := s.canonicalOf.lookup h = some h

/-- The unknowns with a value, in the order in which the values were found. -/
def boundNames (s : Session σ) : List String := s.bindings.map (·.1)

/-- The form of the object that a value stands for, if a live one is known. -/
def form? (M : Model σ) (s : Session σ) (v : Value) : Option Json :=
  match s.resolve v with
  | .literal h => M.form? s.world h
  | _ => none

structure Coherent (M : Model σ) (I : σ → Prop) (expand : Expander) (s : Session σ) : Prop where
  world : I s.world
  known : ∀ h c, s.canonicalOf.lookup h = some c →
    ∃ v, M.form? s.world h = some v ∧ M.form? s.world c = some v ∧ s.forms.lookup v.print = some c
  forms : ∀ t c, s.forms.lookup t = some c →
    s.IsCanonical c ∧ ∃ v, M.form? s.world c = some v ∧ v.print = t
  bindings : ∀ x h, s.bindings.lookup x = some h → s.IsCanonical h
  expansions : ∀ c e, s.expansions.lookup c = some e → c.isPrimitive = false →
    ∃ hs vs sk, c.parameters = hs.map .literal ∧ M.Forms s.world hs vs ∧
      expand c.function vs = .ok sk ∧ e.distribution.Reads (M.form? s.world) sk

structure Learns (M : Model σ) (I : σ → Prop) (expand : Expander) (s s' : Session σ) : Prop where
  coherent : s.Coherent M I expand → s'.Coherent M I expand
  world : M.Later I s.world s'.world
  canonicalOf : ∀ h c, s.canonicalOf.lookup h = some c → s'.canonicalOf.lookup h = some c
  bindings : ∃ found, s'.bindings = s.bindings ++ found
  entries : s'.entries = s.entries
  proved : s'.proved = s.proved
  settings : s'.settings = s.settings
  distinct : s.boundNames.Nodup → s'.boundNames.Nodup

section

variable {M : Model σ} {I : σ → Prop} {expand : Expander}

theorem Learns.refl (s : Session σ) : Learns M I expand s s :=
  ⟨id, .refl _, fun _ _ h => h, ⟨[], by simp⟩, rfl, rfl, rfl, id⟩

theorem Learns.trans {s s' s'' : Session σ} (h : Learns M I expand s s')
    (h' : Learns M I expand s' s'') : Learns M I expand s s'' :=
  ⟨h'.coherent ∘ h.coherent, h.world.trans h'.world,
    fun a c hc => h'.canonicalOf a c (h.canonicalOf a c hc), by
      obtain ⟨found, hf⟩ := h.bindings
      obtain ⟨found', hf'⟩ := h'.bindings
      exact ⟨found ++ found', by rw [hf', hf, List.append_assoc]⟩,
    h'.entries.trans h.entries, h'.proved.trans h.proved, h'.settings.trans h.settings,
    h'.distinct ∘ h.distinct⟩

instance : Std.Refl (Learns M I expand) := ⟨Learns.refl⟩

instance : IsTrans (Session σ) (Learns M I expand) := ⟨fun _ _ _ => Learns.trans⟩

/-- What is recorded and proved does not matter for coherence. -/
theorem Coherent.recording {s : Session σ} (hs : s.Coherent M I expand) (es : List Entry)
    (ls : List Label) : ({ s with entries := es, proved := ls } : Session σ).Coherent M I expand :=
  ⟨hs.world, hs.known, hs.forms, hs.bindings, hs.expansions⟩

/-! ## What stays known -/

theorem Learns.world_form {s s' : Session σ} (h : Learns M I expand s s')
    (hs : s.Coherent M I expand) :
    ∀ a v, M.form? s.world a = some v → M.form? s'.world a = some v :=
  (h.world hs.world).2

theorem Learns.isCanonical {s s' : Session σ} (h : Learns M I expand s s') {c : Handle}
    (hc : s.IsCanonical c) : s'.IsCanonical c :=
  h.canonicalOf c c hc

theorem resolve_eq_or (s : Session σ) (v : Value) :
    s.resolve v = v ∨ ∃ x h, v = .unknown x ∧ s.bindings.lookup x = some h ∧
      s.resolve v = .literal h := by
  cases v with
  | unknown x =>
      cases hx : s.bindings.lookup x with
      | none => exact .inl (by simp [resolve, binding?, hx])
      | some h => exact .inr ⟨x, h, rfl, hx, by simp [resolve, binding?, hx]⟩
  | _ => exact .inl rfl

/-- A value that is still unknown is a name without a binding. -/
theorem unbound_of_resolve {s : Session σ} {v : Value} {x : String}
    (h : s.resolve v = .unknown x) : v = .unknown x ∧ s.bindings.lookup x = none := by
  rcases s.resolve_eq_or v with heq | ⟨y, a, rfl, hy, hres⟩
  · rw [heq] at h
    subst h
    refine ⟨rfl, ?_⟩
    cases hx : s.bindings.lookup x with
    | none => rfl
    | some a => simp [resolve, binding?, hx] at heq
  · rw [hres] at h
    cases h

@[simp] theorem resolve_literal (s : Session σ) (h : Handle) :
    s.resolve (.literal h) = .literal h := rfl

theorem Learns.resolve_literal {s s' : Session σ} (h : Learns M I expand s s') {v : Value}
    {a : Handle} (hv : s.resolve v = .literal a) : s'.resolve v = .literal a := by
  rcases s.resolve_eq_or v with heq | ⟨x, b, rfl, hx, hres⟩
  · rw [heq] at hv
    rw [hv, Session.resolve_literal]
  · obtain ⟨found, hfound⟩ := h.bindings
    have hx' : s'.bindings.lookup x = some b := by
      rw [hfound, List.lookup_append, hx]
      rfl
    rw [hres] at hv
    cases hv
    simp [resolve, binding?, hx']

/-- An unknown that had no value has the one it was just bound to. -/
theorem resolve_bound {s : Session σ} {name : String} {c : Handle}
    (hname : s.bindings.lookup name = none) :
    Session.resolve { s with bindings := s.bindings ++ [(name, c)] } (.unknown name)
      = .literal c := by
  simp [resolve, binding?, List.lookup_append, hname]

theorem lookup_bound {bindings : List (String × Handle)} {name x : String} {c a : Handle}
    (h : (bindings ++ [(name, c)]).lookup x = some a) :
    bindings.lookup x = some a ∨ x = name ∧ a = c := by
  rw [List.lookup_append] at h
  cases hold : bindings.lookup x with
  | some b =>
      rw [hold] at h
      exact .inl h
  | none =>
      rw [hold, Option.none_or, List.lookup_cons] at h
      split at h
      · next heq => exact .inr ⟨beq_iff_eq.1 heq, (Option.some.inj h).symm⟩
      · cases h

theorem form?_of_resolve {s : Session σ} {v : Value} {a : Handle} (h : s.resolve v = .literal a) :
    s.form? M v = M.form? s.world a := by
  rw [form?, h]

theorem form?_literal (s : Session σ) (a : Handle) :
    s.form? M (.literal a) = M.form? s.world a := rfl

theorem resolve_of_form? {s : Session σ} {v : Value} {j : Json} (h : s.form? M v = some j) :
    ∃ a, s.resolve v = .literal a ∧ M.form? s.world a = some j := by
  unfold form? at h
  split at h
  · next a ha => exact ⟨a, ha, h⟩
  · cases h

theorem Learns.form? {s s' : Session σ} (h : Learns M I expand s s')
    (hs : s.Coherent M I expand) {v : Value} {j : Json} (hv : s.form? M v = some j) :
    s'.form? M v = some j := by
  obtain ⟨a, ha, hj⟩ := resolve_of_form? hv
  rw [form?_of_resolve (h.resolve_literal ha)]
  exact h.world_form hs a j hj

/-- Canonical handles of one form are one handle. -/
theorem Coherent.canonical_inj {s : Session σ} (hs : s.Coherent M I expand) {a b : Handle}
    {v : Json} (ha : s.IsCanonical a) (hb : s.IsCanonical b) (hav : M.form? s.world a = some v)
    (hbv : M.form? s.world b = some v) : a = b := by
  obtain ⟨va, hva, -, hfa⟩ := hs.known a a ha
  obtain ⟨vb, hvb, -, hfb⟩ := hs.known b b hb
  cases hva.symm.trans hav
  cases hvb.symm.trans hbv
  exact Option.some.inj (hfa.symm.trans hfb)

theorem Coherent.live {s : Session σ} (hs : s.Coherent M I expand) {a : Handle}
    (ha : s.IsCanonical a) : ∃ v, M.form? s.world a = some v := by
  obtain ⟨v, hv, -, -⟩ := hs.known a a ha
  exact ⟨v, hv⟩

theorem coherent_start (settings : Settings) {w : σ} (hw : I w) :
    (start settings w).Coherent M I expand :=
  ⟨hw, fun _ _ h => (nomatch h), fun _ _ h => (nomatch h), fun _ _ h => (nomatch h),
    fun _ _ h => (nomatch h)⟩

/-! ## Questions to the model -/

theorem run_ask {α : Type} (a : Action σ α) (s : Session σ) :
    (ask a).run s = ((a.run s.world).1, { s with world := (a.run s.world).2 }) := rfl

theorem run_ask_ok {α : Type} {a : Action σ α} {s s' : Session σ} {x : α} :
    (ask a).run s = (.ok x, s') ↔ ∃ w, a.run s.world = (.ok x, w) ∧ s' = { s with world := w } := by
  rw [run_ask]
  rcases a.run s.world with ⟨y, w⟩
  constructor
  · intro h
    rw [Prod.mk.injEq] at h
    obtain ⟨rfl, rfl⟩ := h
    exact ⟨w, rfl, rfl⟩
  · rintro ⟨w', h, rfl⟩
    cases h
    rfl

theorem Coherent.later {s : Session σ} (hs : s.Coherent M I expand) {w : σ}
    (hw : M.Later I s.world w) : Coherent M I expand { s with world := w } := by
  obtain ⟨hI, hle⟩ := hw hs.world
  refine ⟨hI, fun h c hc => ?_, fun t c hc => ?_, hs.bindings, fun c e hc hp => ?_⟩
  · obtain ⟨v, hv, hcv, hf⟩ := hs.known h c hc
    exact ⟨v, hle _ _ hv, hle _ _ hcv, hf⟩
  · obtain ⟨hcanon, v, hv, ht⟩ := hs.forms t c hc
    exact ⟨hcanon, v, hle _ _ hv, ht⟩
  · obtain ⟨hs', vs, sk, hpar, hvs, hsk, hreads⟩ := hs.expansions c e hc hp
    exact ⟨hs', vs, sk, hpar, hvs.mono hle, hsk, hreads.mono hle⟩

theorem keeps_ask {α : Type} {a : Action σ α} (ha : a.Keeps (M.Later I)) :
    (ask a).Keeps (Learns M I expand) := by
  intro s
  rw [run_ask]
  exact ⟨fun hs => hs.later (ha s.world), ha s.world, fun _ _ h => h, ⟨[], by simp⟩, rfl, rfl, rfl,
    id⟩

end

variable {M : Model σ} {I : σ → Prop} {expand : Expander} {E : Json → Json → Prop}
  (hM : M.Meets I expand E)

/-! ## Canonical handles -/

/-- A handle may be remembered under the canonical one of its form. -/
theorem Coherent.remember {s : Session σ} (hs : s.Coherent M I expand) {h : Handle} {v : Json}
    (hnew : s.canonicalOf.lookup h = none) (hv : M.form? s.world h = some v) {c : Handle}
    (hc : s.forms.lookup v.print = some c) :
    Coherent M I expand { s with canonicalOf := (h, c) :: s.canonicalOf } := by
  obtain ⟨hcanon, w, hw, hprint⟩ := hs.forms _ _ hc
  obtain rfl := Json.print_injective hprint
  have hcons : ∀ {a : Handle}, s.IsCanonical a →
      List.lookup a ((h, c) :: s.canonicalOf) = some a := lookup_cons_of_new hnew
  refine ⟨hs.world, fun a b hab => ?_, fun t b hb => ?_, fun x b hb => hcons (hs.bindings x b hb),
    hs.expansions⟩
  · simp only [List.lookup_cons] at hab
    split at hab
    · next heq =>
        obtain rfl := beq_iff_eq.1 heq
        cases hab
        exact ⟨w, hv, hw, hc⟩
    · exact hs.known a b hab
  · obtain ⟨hb', hform⟩ := hs.forms t b hb
    exact ⟨hcons hb', hform⟩

/-- A handle of a new form becomes the canonical one. -/
theorem Coherent.register {s : Session σ} (hs : s.Coherent M I expand) {h : Handle} {v : Json}
    (hnew : s.canonicalOf.lookup h = none) (hv : M.form? s.world h = some v)
    (hform : s.forms.lookup v.print = none) :
    Coherent M I expand
      { s with canonicalOf := (h, h) :: s.canonicalOf, forms := (v.print, h) :: s.forms } := by
  have hself : List.lookup h ((h, h) :: s.canonicalOf) = some h := by
    rw [List.lookup_cons, beq_self_eq_true]
  have hcons : ∀ {a : Handle}, s.IsCanonical a →
      List.lookup a ((h, h) :: s.canonicalOf) = some a := lookup_cons_of_new hnew
  refine ⟨hs.world, fun a b hab => ?_, fun t b hb => ?_, fun x b hb => hcons (hs.bindings x b hb),
    hs.expansions⟩
  · simp only [List.lookup_cons] at hab
    split at hab
    · next heq =>
        obtain rfl := beq_iff_eq.1 heq
        cases hab
        exact ⟨v, hv, hv, by rw [List.lookup_cons, beq_self_eq_true]⟩
    · obtain ⟨w, hw, hbw, hf⟩ := hs.known a b hab
      exact ⟨w, hw, hbw, lookup_cons_of_new hform hf⟩
  · simp only [List.lookup_cons] at hb
    split at hb
    · next heq =>
        obtain rfl := beq_iff_eq.1 heq
        cases hb
        exact ⟨hself, v, hv, rfl⟩
    · obtain ⟨hb', hw⟩ := hs.forms t b hb
      exact ⟨hcons hb', hw⟩

/-- How a canonical handle is found: it is remembered, or the form decides. -/
theorem run_canonical (M : Model σ) (s : Session σ) (h : Handle) :
    (canonical M h).run s =
      match s.canonicalOf.lookup h with
      | some c => (.ok c, s)
      | none =>
        match (M.toExternal h).run s.world with
        | (.error e, w) => (.error e, { s with world := w })
        | (.ok v, w) =>
          match s.forms.lookup v.print with
          | some c => (.ok c, { s with world := w, canonicalOf := (h, c) :: s.canonicalOf })
          | none => (.ok h, { s with world := w, canonicalOf := (h, h) :: s.canonicalOf,
                                      forms := (v.print, h) :: s.forms }) := by
  unfold canonical
  rw [Action.run_bind, Action.run_get]
  simp only
  cases s.canonicalOf.lookup h with
  | some c => rfl
  | none =>
      simp only [Action.run_bind, run_ask]
      rcases (M.toExternal h).run s.world with ⟨e | v, w⟩
      · rfl
      · simp only [Action.run_get]
        cases s.forms.lookup v.print with
        | some c => rfl
        | none => rfl

/-- Finding a canonical handle finds no value of an unknown. -/
theorem bindings_canonical (s : Session σ) (h : Handle) :
    ((canonical M h).run s).2.bindings = s.bindings := by
  rw [run_canonical]
  split
  · rfl
  · split
    · rfl
    · split <;> rfl

/-- A canonical handle that was found is remembered. -/
theorem canonicalOf_canonical {s s' : Session σ} {h c : Handle}
    (hr : (canonical M h).run s = (.ok c, s')) : s'.canonicalOf.lookup h = some c := by
  rw [run_canonical] at hr
  split at hr
  · next c' hc =>
      cases hr
      exact hc
  · split at hr
    · cases hr
    · split at hr
      · cases hr
        simp
      · cases hr
        simp

theorem canonical_answers {s : Session σ} {h : Handle} {v : Json}
    (hv : M.form? s.world h = some v) : ∃ c s', (canonical M h).run s = (.ok c, s') := by
  obtain ⟨w, hw⟩ := Model.run_of_form? hv
  rw [run_canonical, hw]
  simp only
  split
  · exact ⟨_, _, rfl⟩
  · split
    · exact ⟨_, _, rfl⟩
    · exact ⟨_, _, rfl⟩

include hM

theorem keeps_canonical (h : Handle) : (canonical M h).Keeps (Learns M I expand) := by
  intro s
  have hlater := hM.toExternal_later h s.world
  have hadd : ∀ {c a b : Handle}, s.canonicalOf.lookup h = none →
      s.canonicalOf.lookup a = some b → List.lookup a ((h, c) :: s.canonicalOf) = some b :=
    lookup_cons_of_new
  rw [run_canonical]
  cases hknown : s.canonicalOf.lookup h with
  | some c => exact Learns.refl s
  | none =>
      rcases hr : (M.toExternal h).run s.world with ⟨e | v, w⟩ <;> rw [hr] at hlater
      · exact ⟨fun hs => hs.later hlater, hlater, fun _ _ h => h, ⟨[], by simp⟩, rfl, rfl, rfl,
          id⟩
      · have hform : s.Coherent M I expand → M.form? w h = some v := fun hs =>
          (hlater hs.world).2 h v (Model.form?_of_run hr)
        cases hf : s.forms.lookup v.print with
        | some c =>
            simp only [hf]
            exact ⟨fun hs => (hs.later hlater).remember hknown (hform hs) hf, hlater,
              fun _ _ => hadd hknown, ⟨[], by simp⟩, rfl, rfl, rfl, id⟩
        | none =>
            simp only [hf]
            exact ⟨fun hs => (hs.later hlater).register hknown (hform hs) hf, hlater,
              fun _ _ => hadd hknown, ⟨[], by simp⟩, rfl, rfl, rfl, id⟩

/-- A canonical handle that was found stands for the form of the handle it replaces. -/
theorem canonical_ok {s s' : Session σ} {h c : Handle} (hs : s.Coherent M I expand)
    (hr : (canonical M h).run s = (.ok c, s')) :
    s'.canonicalOf.lookup h = some c ∧ s'.IsCanonical c ∧
      ∃ v, M.form? s'.world h = some v ∧ M.form? s'.world c = some v := by
  have hs' := ((keeps_canonical hM h).of_run hr).coherent hs
  have hlookup := canonicalOf_canonical hr
  obtain ⟨v, hv, hcv, hf⟩ := hs'.known h c hlookup
  exact ⟨hlookup, (hs'.forms _ _ hf).1, v, hv, hcv⟩

end Session

end ChanceProof
