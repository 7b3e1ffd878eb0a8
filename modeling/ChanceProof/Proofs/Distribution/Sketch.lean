import ChanceProof.Distribution.Walk
import ChanceProof.Proof.Portable
import Mathlib.Data.List.Forall2

/-!
# Distributions without handles

A sketch is a distribution in which every literal is the object itself. It says all that a
distribution says about values, whatever handles a store happened to give out: `Distribution.Reads`
relates a distribution to its sketch.

An execution of a sketch is a list of labels, one for each step, whose parameters are those of the
step after the results before it are filled in. `Sketch.Path` adds what the distribution returns.
-/

namespace ChanceProof

/-- A parameter or a result in a sketch. -/
inductive Item
  | object (value : Json)
  | output (call index : Nat)
  | named (name : String)
deriving DecidableEq

/-- A call in a sketch, and the variables bound to its results. -/
structure Step where
  function : String
  parameters : List Item
  names : List String
deriving DecidableEq

/-- A distribution in which objects stand for themselves. -/
structure Sketch where
  steps : List Step
  result : List Item
deriving DecidableEq

namespace Sketch

def names (sk : Sketch) : List String := sk.steps.flatMap (·.names)

/-- Where a variable is bound: the number of its step, and its place there. -/
def locate? (sk : Sketch) (name : String) : Option (Nat × Nat) :=
  sk.steps.zipIdx.findSome? fun (st, i) => (st.names.idxOf? name).map (i, ·)

def bound? (results : List (List Json)) (place : Nat × Nat) : Option Json := do
  let values ← results[place.1]?
  values[place.2]?

/-- The value of an item when these results are bound. -/
def resolve (sk : Sketch) (results : List (List Json)) : Item → Option Json
  | .object v => some v
  | .output call index => bound? results (call, index)
  | .named name => (sk.locate? name).bind (bound? results)

def resolveAll (sk : Sketch) (results : List (List Json)) (items : List Item) :
    Option (List Json) :=
  items.mapM (sk.resolve results)

/-- The labels are an execution of the steps that are left, when these results are bound. -/
def Follows (sk : Sketch) : List (List Json) → List Step → List PortableLabel → Prop
  | _, [], [] => True
  | results, st :: steps, l :: labels =>
    l.function = st.function ∧ sk.resolveAll results st.parameters = some l.parameters ∧
      l.result.length = st.names.length ∧ Follows sk (results ++ [l.result]) steps labels
  | _, _, _ => False

/-- The labels are an execution of the sketch that returns these values. -/
structure Path (sk : Sketch) (labels : List PortableLabel) (result : List Json) : Prop where
  follows : sk.Follows [] sk.steps labels
  returns : sk.resolveAll (labels.map (·.result)) sk.result = some result

theorem Follows.length_eq {sk : Sketch} {results : List (List Json)} {steps : List Step}
    {labels : List PortableLabel} (h : sk.Follows results steps labels) :
    labels.length = steps.length := by
  induction steps generalizing results labels with
  | nil =>
      cases labels with
      | nil => rfl
      | cons l labels => exact h.elim
  | cons st steps ih =>
      cases labels with
      | nil => exact h.elim
      | cons l labels => rw [List.length_cons, List.length_cons, ih h.2.2.2]

/-- The label of a step has as many results as the step has variables. -/
theorem Follows.result_length {sk : Sketch} {results : List (List Json)} {steps : List Step}
    {labels : List PortableLabel} (h : sk.Follows results steps labels) {i : Nat}
    {l : PortableLabel} (hl : labels[i]? = some l) :
    ∃ st, steps[i]? = some st ∧ l.result.length = st.names.length := by
  induction steps generalizing results labels i with
  | nil =>
      cases labels with
      | nil => cases hl
      | cons l labels => exact h.elim
  | cons st steps ih =>
      cases labels with
      | nil => exact h.elim
      | cons l' labels =>
          obtain ⟨-, -, hlen, hrest⟩ := h
          cases i with
          | zero =>
              cases hl
              exact ⟨st, rfl, hlen⟩
          | succ i => exact ih hrest hl

end Sketch

/-! ## Distributions and their sketches -/

/-- The item says what the value says, where handles stand for objects as `φ` says. -/
inductive Value.Reads (φ : Handle → Option Json) : Value → Item → Prop
  | literal {h : Handle} {v : Json} (hform : φ h = some v) : Reads φ (.literal h) (.object v)
  | output {call index : Nat} : Reads φ (.output call index) (.output call index)
  | named {name : String} : Reads φ (.named name) (.named name)

/-- The step says what the assignment says. -/
structure Assignment.Reads (φ : Handle → Option Json) (a : Assignment) (st : Step) : Prop where
  function : a.call.function = st.function
  parameters : List.Forall₂ (Value.Reads φ) a.call.parameters st.parameters
  names : a.names = st.names

/-- The sketch says what the distribution says. -/
structure Distribution.Reads (φ : Handle → Option Json) (d : Distribution) (sk : Sketch) :
    Prop where
  steps : List.Forall₂ (Assignment.Reads φ) d.assignments sk.steps
  result : List.Forall₂ (Value.Reads φ) d.result sk.result

section Mono

variable {φ ψ : Handle → Option Json} (hle : ∀ h v, φ h = some v → ψ h = some v)

include hle

theorem Value.Reads.mono {v : Value} {item : Item} (h : v.Reads φ item) : v.Reads ψ item := by
  cases h with
  | literal hform => exact .literal (hle _ _ hform)
  | output => exact .output
  | named => exact .named

theorem Assignment.Reads.mono {a : Assignment} {st : Step} (h : a.Reads φ st) : a.Reads ψ st :=
  ⟨h.function, h.parameters.imp fun _ _ => .mono hle, h.names⟩

/-- A distribution keeps its sketch while the objects in it live on. -/
theorem Distribution.Reads.mono {d : Distribution} {sk : Sketch} (h : d.Reads φ sk) :
    d.Reads ψ sk :=
  ⟨h.steps.imp fun _ _ => .mono hle, h.result.imp fun _ _ => .mono hle⟩

end Mono

theorem forall₂_getElem? {α β : Type} {R : α → β → Prop} {xs : List α} {ys : List β}
    (h : List.Forall₂ R xs ys) (i : Nat) :
    xs[i]? = none ∧ ys[i]? = none ∨ ∃ x y, xs[i]? = some x ∧ ys[i]? = some y ∧ R x y := by
  induction h generalizing i with
  | nil => exact .inl ⟨rfl, rfl⟩
  | cons hxy _ ih =>
      cases i with
      | zero => exact .inr ⟨_, _, rfl, rfl, hxy⟩
      | succ i => exact ih i

theorem forall₂_some_left {α β : Type} {R : α → β → Prop} {xs : List α} {ys : List β}
    (h : List.Forall₂ R xs ys) {i : Nat} {x : α} (hx : xs[i]? = some x) :
    ∃ y, ys[i]? = some y ∧ R x y := by
  rcases forall₂_getElem? h i with ⟨hnone, -⟩ | ⟨x', y, hx', hy, hxy⟩
  · exact nomatch hx.symm.trans hnone
  · cases hx.symm.trans hx'
    exact ⟨y, hy, hxy⟩

theorem forall₂_zipWith_map {α β γ : Type} {R : α → β → Prop} {S : γ → γ → Prop} {as : List α}
    {bs : List β} (h : List.Forall₂ R as bs) {g : α → β → γ} {f : β → γ}
    (hle : ∀ a ∈ as, ∀ b, R a b → S (g a b) (f b)) :
    List.Forall₂ S (List.zipWith g as bs) (bs.map f) := by
  induction h with
  | nil => exact .nil
  | @cons a b as bs hab _ ih =>
      exact .cons (hle a List.mem_cons_self b hab)
        (ih fun a ha => hle a (List.mem_cons_of_mem _ ha))

theorem exists_of_forall₂_mem {α β : Type} {R : α → β → Prop} {xs : List α} {ys : List β}
    (h : List.Forall₂ R xs ys) {y : β} (hy : y ∈ ys) : ∃ x ∈ xs, R x y := by
  induction h with
  | nil => cases hy
  | cons hxy _ ih =>
      rcases List.mem_cons.1 hy with rfl | hy
      · exact ⟨_, List.mem_cons_self, hxy⟩
      · obtain ⟨x, hx, hxy⟩ := ih hy
        exact ⟨x, List.mem_cons_of_mem _ hx, hxy⟩

theorem forall₂_imp_mem {α β : Type} {R S : α → β → Prop} {xs : List α} {ys : List β}
    (h : List.Forall₂ R xs ys) (hRS : ∀ x ∈ xs, ∀ y, R x y → S x y) : List.Forall₂ S xs ys := by
  induction h with
  | nil => exact .nil
  | cons hxy _ ih =>
      exact .cons (hRS _ List.mem_cons_self _ hxy)
        (ih fun x hx => hRS x (List.mem_cons_of_mem _ hx))

theorem exists_forall₂ {α β : Type} {R : α → β → Prop} {l : List α} (h : ∀ x ∈ l, ∃ y, R x y) :
    ∃ ys, List.Forall₂ R l ys := by
  induction l with
  | nil => exact ⟨[], .nil⟩
  | cons x xs ih =>
      obtain ⟨y, hy⟩ := h x List.mem_cons_self
      obtain ⟨ys, hys⟩ := ih fun x hx => h x (List.mem_cons_of_mem _ hx)
      exact ⟨y :: ys, .cons hy hys⟩

theorem forall₂_some_unique {α β : Type} {f : α → Option β} {xs : List α} {ys zs : List β}
    (hy : List.Forall₂ (fun x y => f x = some y) xs ys)
    (hz : List.Forall₂ (fun x z => f x = some z) xs zs) : ys = zs :=
  List.right_unique_forall₂' (fun _ _ _ h h' => Option.some.inj (h.symm.trans h')) hy hz

/-- Lists that are related to a third one item by item are related to each other. -/
theorem forall₂_join {α β γ : Type} {R : α → γ → Prop} {S : β → γ → Prop} {T : α → β → Prop}
    {xs : List α} {ys : List β} {zs : List γ} (hxz : List.Forall₂ R xs zs)
    (hyz : List.Forall₂ S ys zs) (h : ∀ x y z, R x z → S y z → T x y) : List.Forall₂ T xs ys := by
  induction hxz generalizing ys with
  | nil =>
      cases hyz
      exact .nil
  | cons hx _ ih =>
      cases hyz with
      | cons hy hys => exact .cons (h _ _ _ hx hy) (ih hys)

theorem forall₂_append_inv {α β : Type} {R : α → β → Prop} {xs xs' : List α} {ys ys' : List β}
    (h : List.Forall₂ R (xs ++ xs') (ys ++ ys')) (hlen : xs.length = ys.length) :
    List.Forall₂ R xs ys ∧ List.Forall₂ R xs' ys' := by
  have htake := List.forall₂_take_append _ _ _ h
  have hdrop := List.forall₂_drop_append _ _ _ h
  rw [← hlen] at htake hdrop
  rw [List.take_left] at htake
  rw [List.drop_left] at hdrop
  exact ⟨htake, hdrop⟩

theorem pairwise_of_forall₂ {α β : Type} {R : α → β → Prop} {S : β → β → Prop}
    {T : α → α → Prop} {xs : List α} {ys : List β} (h : List.Forall₂ R xs ys)
    (hy : ys.Pairwise S) (hST : ∀ x x' y y', R x y → R x' y' → S y y' → T x x') :
    xs.Pairwise T := by
  induction h with
  | nil => exact .nil
  | cons hxy hrest ih =>
      obtain ⟨hhead, htail⟩ := List.pairwise_cons.1 hy
      refine List.pairwise_cons.2 ⟨fun x' hx' => ?_, ih htail⟩
      obtain ⟨y', hy', hR⟩ := exists_of_forall₂_mem hrest.flip hx'
      exact hST _ _ _ _ hxy hR (hhead y' hy')

theorem Distribution.Reads.locate? {φ : Handle → Option Json} {d : Distribution} {sk : Sketch}
    (h : d.Reads φ sk) (name : String) : d.locate? name = sk.locate? name := by
  have hsteps := h.steps
  unfold Distribution.locate? Sketch.locate?
  generalize d.assignments = as at hsteps
  generalize sk.steps = sts at hsteps
  generalize 0 = n
  induction hsteps generalizing n with
  | nil => rfl
  | cons hast _ ih =>
      simp only [List.zipIdx_cons, List.findSome?_cons, hast.names]
      rw [ih]

theorem Distribution.Reads.names {φ : Handle → Option Json} {d : Distribution} {sk : Sketch}
    (h : d.Reads φ sk) : d.names = sk.names := by
  have hsteps := h.steps
  unfold Distribution.names Sketch.names
  generalize d.assignments = as at hsteps
  generalize sk.steps = sts at hsteps
  induction hsteps with
  | nil => rfl
  | cons hast _ ih => rw [List.flatMap_cons, List.flatMap_cons, hast.names, ih]

namespace Walk

variable {φ : Handle → Option Json} {ψ : Value → Option Json} {w : Walk} {sk : Sketch}
  {results : List (List Json)}

/-- What is bound on a walk, and what is bound in the sketch. -/
def Binds (ψ : Value → Option Json) (w : Walk) (results : List (List Json)) : Prop :=
  List.Forall₂ (List.Forall₂ fun v j => ψ v = some j) w.results results

theorem Binds.bound? (h : w.Binds ψ results) (place : Nat × Nat) :
    w.bound? place = none ∧ Sketch.bound? results place = none ∨
      ∃ v j, w.bound? place = some v ∧ Sketch.bound? results place = some j ∧ ψ v = some j := by
  unfold Walk.bound? Sketch.bound?
  rcases forall₂_getElem? h place.1 with ⟨hx, hy⟩ | ⟨vs, js, hx, hy, hvs⟩
  · exact .inl ⟨by rw [hx]; rfl, by rw [hy]; rfl⟩
  · rw [hx, hy]
    rcases forall₂_getElem? hvs place.2 with ⟨hv, hj⟩ | ⟨v, j, hv, hj, hvj⟩
    · exact .inl ⟨hv, hj⟩
    · exact .inr ⟨v, j, hv, hj, hvj⟩

/-- A reference is resolved on a walk just when it is in the sketch, and to the same object. -/
theorem resolve_reads (hd : w.distribution.Reads φ sk) (hw : w.Binds ψ results)
    (hle : ∀ h v, φ h = some v → ψ (.literal h) = some v) {v : Value} {item : Item}
    (hv : v.Reads φ item) :
    (∃ d, w.resolve v = .error d) ∧ sk.resolve results item = none ∨
      ∃ v' j, w.resolve v = .ok v' ∧ sk.resolve results item = some j ∧ ψ v' = some j := by
  cases hv with
  | literal hform => exact .inr ⟨_, _, rfl, rfl, hle _ _ hform⟩
  | @output call index =>
      rw [Sketch.resolve, Walk.resolve]
      rcases hw.bound? (call, index) with ⟨hx, hy⟩ | ⟨v, j, hx, hy, hvj⟩
      · exact .inl ⟨⟨_, by rw [hx]⟩, hy⟩
      · exact .inr ⟨v, j, by rw [hx], hy, hvj⟩
  | @named name =>
      rw [Sketch.resolve, Walk.resolve, hd.locate?]
      cases sk.locate? name with
      | none => exact .inl ⟨⟨_, rfl⟩, rfl⟩
      | some place =>
          rcases hw.bound? place with ⟨hx, hy⟩ | ⟨v, j, hx, hy, hvj⟩
          · exact .inl ⟨⟨.early (.named name), by simp only [hx]⟩, hy⟩
          · exact .inr ⟨v, j, by simp only [hx], hy, hvj⟩

theorem resolveAll_reads (hd : w.distribution.Reads φ sk) (hw : w.Binds ψ results)
    (hle : ∀ h v, φ h = some v → ψ (.literal h) = some v) {vs : List Value} {items : List Item}
    (hvs : List.Forall₂ (Value.Reads φ) vs items) :
    (∃ d, vs.mapM w.resolve = .error d) ∧ sk.resolveAll results items = none ∨
      ∃ vs' js, vs.mapM w.resolve = .ok vs' ∧ sk.resolveAll results items = some js ∧
        List.Forall₂ (fun v j => ψ v = some j) vs' js := by
  unfold Sketch.resolveAll
  induction hvs with
  | nil => exact .inr ⟨[], [], rfl, rfl, .nil⟩
  | cons hv _ ih =>
      rw [List.mapM_cons, List.mapM_cons]
      rcases resolve_reads hd hw hle hv with ⟨⟨e, hx⟩, hy⟩ | ⟨v', j, hx, hy, hvj⟩
      · exact .inl ⟨⟨e, by rw [hx]; rfl⟩, by rw [hy]; rfl⟩
      · rw [hx, hy]
        rcases ih with ⟨⟨e, hx'⟩, hy'⟩ | ⟨vs', js, hx', hy', hvs'⟩
        · exact .inl ⟨⟨e, by rw [hx']; rfl⟩, by rw [hy']; rfl⟩
        · exact .inr ⟨v' :: vs', j :: js, by rw [hx']; rfl, by rw [hy']; rfl, .cons hvj hvs'⟩

end Walk

end ChanceProof
