import ChanceProof.Proofs.Evaluation.Terms
import ChanceProof.Proofs.Evaluation.Submission
import ChanceProof.Proofs.Model.Library

/-!
# Labels are told apart by what they say

A session compares labels by their handles, while a caller knows them by their functions and by the
printed forms of their objects. The two agree on every label that a session over a library has
written down, among its labels, its proved labels and its alternatives: labels are equal just when
their functions and printed forms are (`Session.ByContent`).

This is because a handle gets into such a label only as a canonical one, and canonical handles are
as many as printed forms: the handle that is found for an object prints as the object does, and two
of them never print the same. It holds in every session that can be reached
(`Session.Reachable.by_content`).
-/

namespace ChanceProof

namespace Model

variable {σ : Type}

/-- The printed form of the object of a literal, if there is one. -/
def printed? (M : Model σ) (w : σ) : Value → Option String
  | .literal h => (M.form? w h).map Json.print
  | _ => none

theorem printed?_eq_some_iff {M : Model σ} {w : σ} {h : Handle} {t : String} :
    M.printed? w (.literal h) = some t ↔ ∃ v, M.form? w h = some v ∧ v.print = t :=
  Option.map_eq_some_iff

end Model

namespace Label

/-- What a label says to those who do not know its handles. -/
structure Content where
  function : String
  parameters : List (Option String)
  result : List (Option String)
deriving DecidableEq

def content {σ : Type} (M : Model σ) (w : σ) (l : Label) : Content where
  function := l.call.function
  parameters := l.call.parameters.map (M.printed? w)
  result := l.result.map (M.printed? w)

end Label

namespace Session

variable {σ : Type}

/-- All labels that a session has written down. -/
def written (s : Session σ) : List Label :=
  s.labels ++ s.proved ++ s.entries.flatMap (·.alternatives.flatten)

/-- In this session objects and labels are what they print as. -/
structure ByContent (M : Model σ) (s : Session σ) : Prop where
  /-- Every live object has a canonical handle. -/
  found : ∀ h t, M.printed? s.world (.literal h) = some t →
    ∃ c s', (canonical M h).run s = (.ok c, s')
  /-- It is found again from the object and from itself, and prints as the object does. The objects
  of the model are not touched. -/
  canonical : ∀ h c s', (canonical M h).run s = (.ok c, s') →
    (Session.canonical M h).run s' = (.ok c, s') ∧ (Session.canonical M c).run s' = (.ok c, s') ∧
      s'.world = s.world ∧
        ∃ t, M.printed? s.world (.literal h) = some t ∧ M.printed? s.world (.literal c) = some t
  apart : ∀ h h' c c', s.canonicalOf.lookup h = some c → s.canonicalOf.lookup h' = some c' →
    M.printed? s.world (.literal c) = M.printed? s.world (.literal c') → c = c'
  forms : ∀ t c, s.forms.lookup t = some c ↔
    s.IsCanonical c ∧ M.printed? s.world (.literal c) = some t
  literals : ∀ l ∈ s.written, ∀ v ∈ l.values,
    ∃ c t, v = .literal c ∧ s.IsCanonical c ∧ M.printed? s.world v = some t
  labels : ∀ l ∈ s.written, ∀ m ∈ s.written, l = m ↔ l.content M s.world = m.content M s.world
  once : s.labels.Nodup
  number : ∀ l i, s.number? l = some i ↔ s.labels[i]? = some l
  /-- The alternatives of a label stand where the label stands. -/
  entry : ∀ l i, s.number? l = some i → s.entries[i]? = some ⟨l, s.alternativesOf l⟩
  /-- A session that is solved has one equation for each label. -/
  equations : ∀ {α : Type} (A : Arithmetic α) system s',
    (Session.system M A).run s = (.ok system, s') → system.size = s.labels.length

variable {M : Model σ} {I : σ → Prop} {expand : Expander} {E : Json → Json → Prop} {s : Session σ}

/-! ## Canonical handles -/

/-- A handle that is known is not asked for. -/
theorem run_canonical_known {h c : Handle} (hc : s.canonicalOf.lookup h = some c) :
    (canonical M h).run s = (.ok c, s) := by
  rw [run_canonical, hc]

/-- Over a library, looking for a canonical handle leaves the objects as they are. -/
theorem world_canonical (functions : Library) (s : Session Store) (h : Handle) :
    ((canonical functions.model h).run s).2.world = s.world := by
  have hkept := functions.run_toExternal s.world h
  rw [run_canonical]
  cases s.canonicalOf.lookup h with
  | some c => rfl
  | none =>
      rcases hform : (functions.model.toExternal h).run s.world with ⟨f | v, w⟩ <;>
        rw [hform] at hkept
      · exact hkept
      · simp only
        split <;> exact hkept

theorem Coherent.isCanonical_of_lookup (hs : s.Coherent M I expand) {h c : Handle}
    (hc : s.canonicalOf.lookup h = some c) : s.IsCanonical c :=
  let ⟨_, _, _, hform⟩ := hs.known h c hc
  (hs.forms _ _ hform).1

/-- Canonical handles that print the same are one handle. -/
theorem Coherent.printed?_inj (hs : s.Coherent M I expand) {a b : Handle} (ha : s.IsCanonical a)
    (hb : s.IsCanonical b)
    (h : M.printed? s.world (.literal a) = M.printed? s.world (.literal b)) : a = b := by
  obtain ⟨v, hv⟩ := hs.live ha
  obtain ⟨w, hw, hprint⟩ := Model.printed?_eq_some_iff.1
    (h.symm.trans (Model.printed?_eq_some_iff.2 ⟨v, hv, rfl⟩))
  cases Json.print_injective hprint
  exact hs.canonical_inj ha hb hv hw

theorem Coherent.forms_iff (hs : s.Coherent M I expand) {t : String} {c : Handle} :
    s.forms.lookup t = some c ↔
      s.IsCanonical c ∧ M.printed? s.world (.literal c) = some t := by
  constructor
  · intro h
    obtain ⟨hc, hv⟩ := hs.forms t c h
    exact ⟨hc, Model.printed?_eq_some_iff.2 hv⟩
  · rintro ⟨hc, ht⟩
    obtain ⟨v, hv, rfl⟩ := Model.printed?_eq_some_iff.1 ht
    obtain ⟨w, hw, -, hform⟩ := hs.known c c hc
    cases hv.symm.trans hw
    exact hform

/-! ## Labels -/

/-- Lists of canonical literals that print the same are one list. -/
theorem Coherent.printed_inj (hs : s.Coherent M I expand) {vs ws : List Value}
    (hvs : ∀ v ∈ vs, ∃ c, v = .literal c ∧ s.IsCanonical c)
    (hws : ∀ w ∈ ws, ∃ c, w = .literal c ∧ s.IsCanonical c)
    (h : vs.map (M.printed? s.world) = ws.map (M.printed? s.world)) : vs = ws := by
  induction vs generalizing ws with
  | nil => exact (List.map_eq_nil_iff.1 h.symm).symm
  | cons v vs ih =>
      cases ws with
      | nil => cases h
      | cons w ws =>
          obtain ⟨hhead, htail⟩ := List.cons.inj h
          obtain ⟨a, rfl, ha⟩ := hvs v List.mem_cons_self
          obtain ⟨b, rfl, hb⟩ := hws w List.mem_cons_self
          rw [hs.printed?_inj ha hb hhead, ih (fun v hv => hvs v (List.mem_cons_of_mem _ hv))
            (fun w hw => hws w (List.mem_cons_of_mem _ hw)) htail]

theorem Coherent.content_inj (hs : s.Coherent M I expand) {l m : Label} (hl : s.Canonical l)
    (hm : s.Canonical m) (h : l.content M s.world = m.content M s.world) : l = m := by
  obtain ⟨⟨f, ps⟩, rs⟩ := l
  obtain ⟨⟨g, qs⟩, ts⟩ := m
  obtain ⟨hfunction, hparameters, hresult⟩ := Label.Content.mk.inj h
  obtain rfl : f = g := hfunction
  obtain rfl : ps = qs := hs.printed_inj (fun v hv => hl v (List.mem_append_left _ hv))
    (fun v hv => hm v (List.mem_append_left _ hv)) hparameters
  obtain rfl : rs = ts := hs.printed_inj (fun v hv => hl v (List.mem_append_right _ hv))
    (fun v hv => hm v (List.mem_append_right _ hv)) hresult
  rfl

/-- Every label that is written down consists of canonical literals. -/
theorem Sound.canonical_of_written (hs : s.Sound M I expand E) (hlisted : s.Listed) {l : Label}
    (hl : l ∈ s.written) : s.Canonical l := by
  have hlabels : ∀ l ∈ s.labels, s.Canonical l := by
    intro l hl
    obtain ⟨e, he, rfl⟩ := List.mem_map.1 hl
    exact (hs.recorded e he).label
  rcases List.mem_append.1 hl with hl | hl
  · rcases List.mem_append.1 hl with hl | hl
    · exact hlabels l hl
    · exact hlabels l (hlisted l hl)
  · obtain ⟨e, he, hl⟩ := List.mem_flatMap.1 hl
    obtain ⟨a, ha, hl⟩ := List.mem_flatten.1 hl
    exact (hs.recorded e he).canonical_of_mem ha hl

/-- In every session over a library that can be reached, whatever failed on the way, objects and
labels are what they print as. -/
theorem Reachable.by_content {functions : Library} {s : Session Store}
    (hreach : Reachable functions.model Store.Sound s) : s.ByContent functions.model := by
  have hM := functions.meets_sound
  have hsound := hreach.sound hM
  have hs := hsound.coherent
  have hd := hreach.distinct_labels
  have hwritten := fun l => hsound.canonical_of_written (hreach.listed hM) (l := l)
  refine
    { found := fun h t ht => ?_
      canonical := fun h c s' hr => ?_
      apart := fun h h' c c' hc hc' =>
        hs.printed?_inj (hs.isCanonical_of_lookup hc) (hs.isCanonical_of_lookup hc')
      forms := fun t c => hs.forms_iff
      literals := fun l hl v hv => ?_
      labels := fun l hl m hm => ⟨congrArg _, hs.content_inj (hwritten l hl) (hwritten m hm)⟩
      once := nodup_labels hd
      number := fun l i => number?_eq_some_iff hd
      entry := fun l i hi => ?_
      equations := fun A system s' => size_system }
  · obtain ⟨v, hv, -⟩ := Model.printed?_eq_some_iff.1 ht
    exact canonical_answers hv
  · obtain ⟨hlookup, hc, v, hv, hcv⟩ := canonical_ok hM hs hr
    have hworld := world_canonical functions s h
    rw [hr] at hworld
    rw [hworld] at hv hcv
    exact ⟨run_canonical_known hlookup, run_canonical_known hc, hworld, v.print,
      Model.printed?_eq_some_iff.2 ⟨v, hv, rfl⟩, Model.printed?_eq_some_iff.2 ⟨v, hcv, rfl⟩⟩
  · obtain ⟨c, rfl, hc⟩ := hwritten l hl v hv
    obtain ⟨j, hj⟩ := hs.live hc
    exact ⟨c, j.print, rfl, hc, Model.printed?_eq_some_iff.2 ⟨j, hj, rfl⟩⟩
  · obtain ⟨e, he, rfl⟩ := getElem?_labels_iff.1 ((number?_eq_some_iff hd).1 hi)
    rw [he, alternativesOf_of_mem hd (List.mem_of_getElem? he)]

end Session

/-! ## A copy of an object -/

namespace twoFalse

/-- The false one is there twice. -/
def store : Store := ⟨[(2, ⟨.bool false, 1⟩), (1, ⟨.bool false, 1⟩), (0, ⟨.bool true, 1⟩)], 3⟩

/-- The second proof is of the same label as the first one, by the copy, and fails. -/
def proofs : List Proof :=
  [⟨untilTails.label 1 1, [.ofList []]⟩, ⟨untilTails.label 2 2, [.ofList []]⟩,
    ⟨untilTails.label 0 2, [untilTails.toss 0, untilTails.toss 2]⟩]

/-- The session after all proofs, whether they were accepted or not. -/
def visited : Session Store :=
  proofs.foldl (fun s p => ((Session.expand untilTails.model p).run s).2) (.start .standard store)

end twoFalse

theorem twoFalse_by_content :
    twoFalse.visited.labels = [untilTails.label 1 1, untilTails.label 0 1] ∧
    twoFalse.visited.proved = twoFalse.visited.labels ∧
    twoFalse.visited.ByContent untilTails.model := by
  have hstart : Session.Reachable untilTails.model Store.Sound (.start .standard twoFalse.store) :=
    .start .standard (by simp [Store.Sound, twoFalse.store])
  have hvisited : Session.Reachable untilTails.model Store.Sound twoFalse.visited :=
    ((hstart.expand _).expand _).expand _
  exact ⟨by decide +kernel, by decide +kernel, hvisited.by_content⟩

end ChanceProof
