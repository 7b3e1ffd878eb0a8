import ChanceProof.Proofs.Distribution.Sketch
import ChanceProof.Proofs.Json.PrintInjective
import ChanceProof.Proofs.Model.Action

/-!
# What a model promises

The evaluator relies on three promises of a model. The form of a live object never changes. Up to
the forms of its literals a distribution depends only on the function and the forms of the
arguments: there is one `Expander` that says which sketch every call has. And two objects are equal
just when their forms are.

The last promise is kept apart as a relation between forms, since models may well compare more
coarsely than printed forms do. `Model.Lawful` is the contract in which it is equality of printed
forms. All of it is promised in the states that a predicate `I` describes, which the evaluator's
questions do not leave.
-/

namespace ChanceProof

/-- The sketch of each call by function and forms of the arguments, or why there is none. -/
abbrev Expander := String → List Json → Except Failure Sketch

namespace Model

variable {σ : Type}

/-- The form of an object, if it is live. -/
def form? (M : Model σ) (s : σ) (h : Handle) : Option Json :=
  match (M.toExternal h).run s with
  | (.ok v, _) => some v
  | (.error _, _) => none

/-- The handles stand for objects of these forms. -/
def Forms (M : Model σ) (s : σ) (hs : List Handle) (vs : List Json) : Prop :=
  List.Forall₂ (fun h v => M.form? s h = some v) hs vs

/-- What a question to a model may change: new objects appear, but all that live keep their
forms. -/
def Later (M : Model σ) (I : σ → Prop) (s s' : σ) : Prop :=
  I s → I s' ∧ ∀ h v, M.form? s h = some v → M.form? s' h = some v

theorem Later.refl {M : Model σ} {I : σ → Prop} (s : σ) : M.Later I s s := fun h =>
  ⟨h, fun _ _ h => h⟩

theorem Later.trans {M : Model σ} {I : σ → Prop} {s s' s'' : σ} (h : M.Later I s s')
    (h' : M.Later I s' s'') : M.Later I s s'' := fun hs =>
  ⟨(h' (h hs).1).1, fun a v ha => (h' (h hs).1).2 a v ((h hs).2 a v ha)⟩

instance (M : Model σ) (I : σ → Prop) : Std.Refl (M.Later I) := ⟨Later.refl⟩

instance (M : Model σ) (I : σ → Prop) : IsTrans σ (M.Later I) := ⟨fun _ _ _ => Later.trans⟩

/-- The promises of a model whose comparison of objects is `E` on their forms. -/
structure Meets (M : Model σ) (I : σ → Prop) (expand : Expander) (E : Json → Json → Prop) :
    Prop where
  toExternal_later : ∀ h, (M.toExternal h).Keeps (M.Later I)
  isEqual_later : ∀ a b, (M.isEqual a b).Keeps (M.Later I)
  getDistribution_later : ∀ c, (M.getDistribution c).Keeps (M.Later I)
  isEqual_iff : ∀ {s s' a b t}, I s → (M.isEqual a b).run s = (.ok t, s') →
    (t = true ↔ ∃ v w, M.form? s a = some v ∧ M.form? s b = some w ∧ E v w)
  isEqual_answers : ∀ {s a b v w}, I s → M.form? s a = some v → M.form? s b = some w →
    ∃ t s', (M.isEqual a b).run s = (.ok t, s')
  getDistribution_cases : ∀ {s c hs vs}, I s → c.isPrimitive = false →
    c.parameters = hs.map .literal → M.Forms s hs vs →
    (∃ e s' sk, (M.getDistribution c).run s = (.ok e, s') ∧ expand c.function vs = .ok sk ∧
        e.distribution.Reads (M.form? s') sk) ∨
      ∃ f f' s', (M.getDistribution c).run s = (.error f, s') ∧ expand c.function vs = .error f'

/-- The contract: objects are equal just when their printed forms are. -/
def Lawful (M : Model σ) (I : σ → Prop) (expand : Expander) : Prop :=
  M.Meets I expand fun v w => v.print = w.print

theorem form?_of_run {M : Model σ} {s s' : σ} {h : Handle} {v : Json}
    (hr : (M.toExternal h).run s = (.ok v, s')) : M.form? s h = some v := by
  rw [form?, hr]

theorem run_of_form? {M : Model σ} {s : σ} {h : Handle} {v : Json}
    (hf : M.form? s h = some v) : ∃ s', (M.toExternal h).run s = (.ok v, s') := by
  unfold form? at hf
  split at hf
  · next v' s' hr =>
      cases hf
      exact ⟨s', hr⟩
  · cases hf

theorem Forms.mono {M : Model σ} {s s' : σ} {hs : List Handle} {vs : List Json}
    (h : M.Forms s hs vs) (hle : ∀ h v, M.form? s h = some v → M.form? s' h = some v) :
    M.Forms s' hs vs :=
  h.imp fun _ _ hf => hle _ _ hf

/-- Questions about items one after another: what is said of an item before its question, and of the
answer to it, has to outlast the other questions. -/
theorem mapM_ok {α β : Type} {M : Model σ} {I : σ → Prop} {f : α → Action σ β}
    {P : α → σ → Prop} {Q : α → β → σ → Prop}
    (hP : ∀ x w w', (∀ h v, M.form? w h = some v → M.form? w' h = some v) → P x w → P x w')
    (hQ : ∀ x y w w', (∀ h v, M.form? w h = some v → M.form? w' h = some v) → Q x y w → Q x y w')
    (hf : ∀ x y w w', I w → P x w → (f x).run w = (.ok y, w') → M.Later I w w' ∧ Q x y w')
    {xs : List α} {ys : List β} {w w' : σ} (hw : I w) (hxs : ∀ x ∈ xs, P x w)
    (hr : (xs.mapM f).run w = (.ok ys, w')) :
    M.Later I w w' ∧ List.Forall₂ (Q · · w') xs ys := by
  induction xs generalizing ys w with
  | nil =>
      obtain ⟨rfl, rfl⟩ := Action.run_pure_ok.1 hr
      exact ⟨.refl w, .nil⟩
  | cons x xs ih =>
      obtain ⟨hx, hxs⟩ := List.forall_mem_cons.1 hxs
      obtain ⟨y, w₁, rest, hy, hrest, rfl⟩ := Action.run_mapM_cons_ok.1 hr
      obtain ⟨hlater, hxy⟩ := hf x y w w₁ hw hx hy
      obtain ⟨hw₁, hle⟩ := hlater hw
      obtain ⟨hlater', hrest⟩ := ih hw₁ (fun x' hx' => hP x' w w₁ hle (hxs x' hx')) hrest
      exact ⟨hlater.trans hlater',
        .cons (hQ x y w₁ w' (hlater' hw₁).2 hxy) hrest⟩

/-- What the handles stand for in a state, so far as they are live. -/
def formsOf (M : Model σ) (s : σ) (hs : List Handle) : List Json := hs.filterMap (M.form? s)

theorem Forms.formsOf {M : Model σ} {s : σ} {hs : List Handle} {vs : List Json}
    (h : M.Forms s hs vs) : M.formsOf s hs = vs := by
  induction h with
  | nil => rfl
  | cons hv _ ih => rw [Model.formsOf, List.filterMap_cons_some hv, ← ih, Model.formsOf]

theorem Forms.unique {M : Model σ} {s : σ} {hs : List Handle} {vs ws : List Json}
    (hv : M.Forms s hs vs) (hw : M.Forms s hs ws) : vs = ws :=
  forall₂_some_unique hv hw

end Model

end ChanceProof
