import ChanceProof.Proofs.Evaluation.Submission

/-!
# Unification finds the least solution

A choice of handles for unknowns solves two lists of values when at every place it makes them one
unknown, one handle, or two objects that the model calls equal (`Model.Solves`). Unification looks
for such a choice that keeps the values found before.

What it does to one pair of values is told once (`unify_cases`). Where the pair is accepted, the two
are the same from then on (`unify_same`), and in any case every solution of the pair has the values
found for it, or values equal to those (`implied_unify`). Along two lists this makes what is found
the least solution, and it makes a refusal of two objects final: no choice that keeps the values
from before solves the lists (`Session.unification_least`).
-/

namespace ChanceProof

/-- The value with the chosen handle in the place of an unknown. -/
def Value.under (β : String → Option Handle) : Value → Value
  | .unknown name => ((β name).map .literal).getD (.unknown name)
  | v => v

namespace Model

variable {σ : Type}

/-- One unknown, one handle, or handles of objects that the model calls equal. -/
inductive Same (M : Model σ) (w : σ) : Value → Value → Prop
  | unknown (name : String) : Same M w (.unknown name) (.unknown name)
  | handle (h : Handle) : Same M w (.literal h) (.literal h)
  | equal {a b : Handle} {w' : σ} (answered : (M.isEqual a b).run w = (.ok true, w')) :
    Same M w (.literal a) (.literal b)

/-- The model calls two objects different. -/
def TellsApart (M : Model σ) (w : σ) (a b : Handle) : Prop :=
  a ≠ b ∧ ∃ w', (M.isEqual a b).run w = (.ok false, w')

/-- The choice makes the values the same, place by place. -/
def Solves (M : Model σ) (w : σ) (β : String → Option Handle) (ps ms : List Value) : Prop :=
  List.Forall₂ (fun p m => M.Same w (p.under β) (m.under β)) ps ms

variable {M : Model σ} {I : σ → Prop} {expand : Expander} {w : σ}

theorem TellsApart.not_same {a b : Handle} (h : M.TellsApart w a b) :
    ¬M.Same w (.literal a) (.literal b) := by
  obtain ⟨hne, w', hfalse⟩ := h
  intro hsame
  cases hsame with
  | handle => exact hne rfl
  | equal htrue => cases hfalse.symm.trans htrue

/-- What is the same as a handle is a handle. -/
theorem Same.literal {v : Value} {a : Handle} (h : M.Same w v (.literal a)) :
    ∃ b, v = .literal b := by
  cases h with
  | handle => exact ⟨a, rfl⟩
  | @equal b => exact ⟨b, rfl⟩

/-- Handles are the same just when they are one or live handles of one form. -/
theorem Lawful.same_iff (hM : M.Lawful I expand) (hw : I w) {a b : Handle} :
    M.Same w (.literal a) (.literal b) ↔
      a = b ∨ ∃ v, M.form? w a = some v ∧ M.form? w b = some v := by
  constructor
  · intro h
    cases h with
    | handle => exact .inl rfl
    | equal htrue =>
        obtain ⟨v, v', hv, hv', hprint⟩ := (hM.isEqual_iff hw htrue).1 rfl
        obtain rfl := Json.print_injective hprint
        exact .inr ⟨v, hv, hv'⟩
  · rintro (rfl | ⟨v, hv, hv'⟩)
    · exact .handle a
    · obtain ⟨t, w', hanswer⟩ := hM.isEqual_answers hw hv hv'
      obtain rfl := (hM.isEqual_iff hw hanswer).2 ⟨v, v, hv, hv', rfl⟩
      exact .equal hanswer

theorem Lawful.same_symm (hM : M.Lawful I expand) (hw : I w) {v v' : Value}
    (h : M.Same w v v') : M.Same w v' v := by
  cases h with
  | unknown name => exact .unknown name
  | handle a => exact .handle a
  | equal htrue =>
      rcases (hM.same_iff hw).1 (.equal htrue) with rfl | ⟨v, ha, hb⟩
      · exact .handle _
      · exact (hM.same_iff hw).2 (.inr ⟨v, hb, ha⟩)

theorem Lawful.same_trans (hM : M.Lawful I expand) (hw : I w) {v v' v'' : Value}
    (h : M.Same w v v') (h' : M.Same w v' v'') : M.Same w v v'' := by
  cases h with
  | unknown name => exact h'
  | handle a => exact h'
  | equal htrue =>
      obtain ⟨c, rfl⟩ := (hM.same_symm hw h').literal
      rcases (hM.same_iff hw).1 (.equal htrue) with rfl | ⟨v, ha, hb⟩
      · exact h'
      · rcases (hM.same_iff hw).1 h' with rfl | ⟨v', hb', hc⟩
        · exact .equal htrue
        · cases hb.symm.trans hb'
          exact (hM.same_iff hw).2 (.inr ⟨v, ha, hc⟩)

/-- What is the same stays the same. -/
theorem Lawful.same_later (hM : M.Lawful I expand) (hw : I w) {w' : σ}
    (hlater : M.Later I w w') {v v' : Value} (h : M.Same w v v') : M.Same w' v v' := by
  obtain ⟨hw', hle⟩ := hlater hw
  cases h with
  | unknown name => exact .unknown name
  | handle a => exact .handle a
  | equal htrue =>
      rcases (hM.same_iff hw).1 (.equal htrue) with rfl | ⟨v, ha, hb⟩
      · exact .handle _
      · exact (hM.same_iff hw').2 (.inr ⟨v, hle _ _ ha, hle _ _ hb⟩)

end Model

namespace Session

variable {σ : Type}

theorem resolve_eq_under (s : Session σ) (v : Value) : s.resolve v = v.under s.binding? := by
  cases v <;> rfl

/-- The choice keeps the values that the session has found. -/
def KeptBy (s : Session σ) (β : String → Option Handle) : Prop :=
  ∀ x h, s.binding? x = some h → β x = some h

/-- The choice has the values that the session has found, up to equality. -/
def ImpliedBy (M : Model σ) (w : σ) (β : String → Option Handle) (s : Session σ) : Prop :=
  ∀ x h, s.binding? x = some h → ∃ a, β x = some a ∧ M.Same w (.literal a) (.literal h)

theorem KeptBy.implied {M : Model σ} {s : Session σ} {β : String → Option Handle}
    (h : s.KeptBy β) (w : σ) : s.ImpliedBy M w β :=
  fun x a hx => ⟨a, h x a hx, .handle a⟩

/-! ## One pair of values -/

/-- One of the two values is this unknown, which has no value yet, and the other this handle. -/
def Pairs (s : Session σ) (p m : Value) (name : String) (h : Handle) : Prop :=
  s.resolve p = .unknown name ∧ s.resolve m = .literal h ∨
    s.resolve p = .literal h ∧ s.resolve m = .unknown name

section

variable (M : Model σ) (l : Label) (s : Session σ) (p m : Value)

/-- Why two values are refused. -/
inductive Refuses : Failure → Prop
  | apart {a b : Handle} (proof : s.resolve p = .literal a) (model : s.resolve m = .literal b)
    (told : M.TellsApart s.world a b) (x y : String) : Refuses ((Conflict.objects x y).failure l)
  | uncompared {a b : Handle} {f : Failure} {w : σ} (proof : s.resolve p = .literal a)
    (model : s.resolve m = .literal b) (failed : (M.isEqual a b).run s.world = (.error f, w)) :
    Refuses f
  | unread {name : String} {h : Handle} {f : Failure} {s' : Session σ}
    (pairs : s.Pairs p m name h) (failed : (canonical M h).run s = (.error f, s')) : Refuses f
  | bothUnbound {x y : String} (proof : s.resolve p = .unknown x)
    (model : s.resolve m = .unknown y) (different : x ≠ y) :
    Refuses ((Conflict.bothUnbound (.unknown x) (.unknown y)).failure l)
  | unresolved (neither : ¬(Proof.checkValue p = .ok () ∧ Proof.checkValue m = .ok ())) :
    Refuses (Defect.unresolved (s.resolve p) (s.resolve m)).failure

/-- What unifying two values comes to. -/
inductive Unifying : Except Failure Unit × Session σ → Prop
  | same {s' : Session σ} (same : M.Same s.world (s.resolve p) (s.resolve m))
    (kept : s'.bindings = s.bindings) : Unifying (.ok (), s')
  | bound {name : String} {h c : Handle} {s' : Session σ} (pairs : s.Pairs p m name h)
    (found : (canonical M h).run s = (.ok c, s')) :
    Unifying (.ok (), { s' with bindings := s'.bindings ++ [(name, c)] })
  | refused {f : Failure} {s' : Session σ} (refuses : Refuses M l s p m f)
    (kept : s'.bindings = s.bindings) : Unifying (.error f, s')

end

variable {M : Model σ} {l : Label} {s : Session σ} {p m : Value}

/-- The values that may stand in a proof are those resolved to a literal or an unknown. -/
theorem checkValue_iff (s : Session σ) {v : Value} : Proof.checkValue v = .ok () ↔
    (∃ a, s.resolve v = .literal a) ∨ ∃ x, s.resolve v = .unknown x := by
  rcases s.resolve_eq_or v with heq | ⟨x, a, rfl, -, ha⟩
  · rw [heq]
    cases v <;> simp [Proof.checkValue]
  · exact ⟨fun _ => .inl ⟨a, ha⟩, fun _ => rfl⟩

theorem unifying_bind {name : String} {h : Handle} (hpairs : s.Pairs p m name h) :
    Unifying M l s p m ((bind M name h).run s) := by
  unfold bind
  rw [Action.run_bind]
  rcases hr : (canonical M h).run s with ⟨f | c, s'⟩
  · refine .refused (.unread hpairs hr) ?_
    rw [← bindings_canonical (M := M) s h, hr]
  · exact .bound hpairs hr

theorem unifying_unifyHandles {a b : Handle} (hp : s.resolve p = .literal a)
    (hm : s.resolve m = .literal b) : Unifying M l s p m ((unifyHandles M l a b).run s) := by
  have hkept := sameBindings_unifyHandles (M := M) l a b s
  rcases hr : (unifyHandles M l a b).run s with ⟨x, s'⟩
  rw [hr] at hkept
  unfold unifyHandles at hr
  split at hr
  · next hab =>
      subst hab
      cases hr
      exact .same (by rw [hp, hm]; exact .handle a) rfl
  · next hab =>
      rw [Action.run_bind, run_ask] at hr
      rcases hequal : (M.isEqual a b).run s.world with ⟨f | t, w⟩ <;> rw [hequal] at hr
      · cases hr
        exact .refused (.uncompared hp hm hequal) rfl
      · cases t with
        | true =>
            cases hr
            exact .same (by rw [hp, hm]; exact .equal hequal) rfl
        | false =>
            obtain ⟨x₁, s₁, h₁⟩ := run_display M a { s with world := w }
            obtain ⟨x₂, s₂, h₂⟩ := run_display M b s₁
            simp only [Bool.false_eq_true, if_false] at hr
            rw [Action.run_bind_of_ok h₁, Action.run_bind_of_ok h₂] at hr
            cases hr
            exact .refused (.apart hp hm ⟨hab, w, hequal⟩ x₁ x₂) hkept

/-- Unifying two values compares two objects, finds the value of an unknown, or refuses. -/
theorem unify_cases (M : Model σ) (l : Label) (s : Session σ) (p m : Value) :
    Unifying M l s p m ((unify M l p m).run s) := by
  unfold unify
  rw [Action.run_bind_of_ok (Action.run_get s)]
  split
  · next hp hm => exact unifying_unifyHandles hp hm
  · next hp hm => exact unifying_bind (.inl ⟨hp, hm⟩)
  · next hp hm => exact unifying_bind (.inr ⟨hp, hm⟩)
  · next x y hp hm =>
      split
      · next hxy => exact .same (by rw [hp, hm, hxy]; exact .unknown y) rfl
      · next hxy => exact .refused (.bothUnbound hp hm hxy) rfl
  · next hliterals hleft hright hunknowns =>
      refine .refused (.unresolved fun ⟨hp, hm⟩ => ?_) rfl
      rcases s.checkValue_iff.1 hp with ⟨a, ha⟩ | ⟨x, hx⟩ <;>
        rcases s.checkValue_iff.1 hm with ⟨b, hb⟩ | ⟨y, hy⟩
      · exact hliterals a b ha hb
      · exact hright a y ha hy
      · exact hleft x b hx hb
      · exact hunknowns x y hx hy

section

variable {I : σ → Prop} {expand : Expander} {s' : Session σ} {w : σ}
  {β : String → Option Handle} (hM : M.Lawful I expand)

include hM

/-- Values that are the same stay the same when something is learnt. -/
theorem Learns.same (h : Learns M I expand s s') (hs : s.Coherent M I expand)
    (hsame : M.Same s.world (s.resolve p) (s.resolve m)) :
    M.Same s'.world (s'.resolve p) (s'.resolve m) := by
  generalize hv : s.resolve p = v at hsame
  generalize hv' : s.resolve m = v' at hsame
  cases hsame with
  | unknown x =>
      obtain ⟨rfl, -⟩ := unbound_of_resolve hv
      obtain ⟨rfl, -⟩ := unbound_of_resolve hv'
      rcases s'.resolve_eq_or (.unknown x) with heq | ⟨y, a, -, -, ha⟩
      · rw [heq]
        exact .unknown x
      · rw [ha]
        exact .handle a
  | handle a =>
      rw [h.resolve_literal hv, h.resolve_literal hv']
      exact .handle a
  | equal htrue =>
      rw [h.resolve_literal hv, h.resolve_literal hv']
      exact hM.same_later hs.world h.world (.equal htrue)

/-- Values that agree are the same when one of them is a literal. -/
theorem Agree.same (h : s.Agree M (fun v w => v.print = w.print) p m) (hs : I s.world) {a : Handle}
    (ha : s.resolve p = .literal a ∨ s.resolve m = .literal a) :
    M.Same s.world (s.resolve p) (s.resolve m) := by
  rcases h with heq | ⟨v, v', hv, hv', halike⟩
  · rcases ha with ha | ha
    · rw [← heq, ha]
      exact .handle a
    · rw [heq, ha]
      exact .handle a
  · obtain rfl : v = v' := halike.elim id Json.print_injective
    obtain ⟨b, hb, hbv⟩ := resolve_of_form? hv
    obtain ⟨c, hc, hcv⟩ := resolve_of_form? hv'
    rw [hb, hc]
    exact (hM.same_iff hs).2 (.inr ⟨v, hbv, hcv⟩)

/-- Values that were unified are the same. -/
theorem unify_same (hs : s.Coherent M I expand) (hr : (unify M l p m).run s = (.ok (), s')) :
    M.Same s'.world (s'.resolve p) (s'.resolve m) := by
  have hlearns := (keeps_unify hM l p m).of_run hr
  have hagree := unify_ok hM hs hr
  have hcases := unify_cases M l s p m
  rw [hr] at hcases
  cases hcases with
  | same hsame => exact hlearns.same hM hs hsame
  | bound hpairs _ =>
      have hliteral := hpairs.symm.imp (fun h => hlearns.resolve_literal h.1)
        fun h => hlearns.resolve_literal h.2
      exact hagree.same hM (hlearns.coherent hs).world hliteral

omit hM in
theorem under_unknown_iff {x : String} {a : Handle} :
    M.Same w ((Value.unknown x).under β) (.literal a) ↔
      ∃ b, β x = some b ∧ M.Same w (.literal b) (.literal a) := by
  rw [Value.under]
  cases hx : β x with
  | none =>
      refine ⟨fun h => ?_, fun ⟨b, hb, _⟩ => (nomatch hb)⟩
      obtain ⟨b, hb⟩ := h.literal
      cases hb
  | some b =>
      refine ⟨fun h => ⟨b, rfl, h⟩, fun ⟨b', hb', h⟩ => ?_⟩
      cases hb'
      exact h

omit hM in
/-- A choice that has the values found, up to equality, has those that the session resolves to. -/
theorem ImpliedBy.under (h : s.ImpliedBy M w β) {v : Value} {a : Handle}
    (hv : s.resolve v = .literal a) : M.Same w (v.under β) (.literal a) := by
  rcases s.resolve_eq_or v with heq | ⟨x, b, rfl, hx, hres⟩
  · rw [heq] at hv
    subst hv
    exact .handle a
  · cases hres.symm.trans hv
    exact under_unknown_iff.2 (h x a hx)

/-- Unifying two values finds nothing that a solution of the two does not have, up to equality. -/
theorem implied_unify (hs : s.Coherent M I expand) {answer : Except Failure Unit}
    (hr : (unify M l p m).run s = (answer, s')) (hlater : M.Later I s'.world w)
    (himplied : s.ImpliedBy M w β) (hsolves : M.Same w (p.under β) (m.under β)) :
    s'.ImpliedBy M w β := by
  obtain ⟨hw, hle⟩ := hlater (((keeps_unify hM l p m).of_run hr).coherent hs).world
  have hcases := unify_cases M l s p m
  rw [hr] at hcases
  cases hcases with
  | same _ hkept => exact fun x a hx => himplied x a (by rwa [binding?, hkept] at hx)
  | refused _ hkept => exact fun x a hx => himplied x a (by rwa [binding?, hkept] at hx)
  | @bound name h c s₁ hpairs hfound =>
      obtain ⟨-, -, v, hv, hcv⟩ := canonical_ok hM hs hfound
      have hkept := bindings_canonical (M := M) s h
      rw [hfound] at hkept
      have hnew : M.Same w (.literal h) (.literal c) :=
        (hM.same_iff hw).2 (.inr ⟨v, hle _ _ hv, hle _ _ hcv⟩)
      -- A solution makes the unknown what it makes the handle on the other side.
      have hname : M.Same w ((Value.unknown name).under β) (.literal h) := by
        rcases hpairs with ⟨hp, hm⟩ | ⟨hp, hm⟩
        · obtain ⟨rfl, -⟩ := unbound_of_resolve hp
          exact hM.same_trans hw hsolves (himplied.under hm)
        · obtain ⟨rfl, -⟩ := unbound_of_resolve hm
          exact hM.same_trans hw (hM.same_symm hw hsolves) (himplied.under hp)
      intro x a hx
      rcases lookup_bound hx with hold | ⟨rfl, rfl⟩
      · rw [show s₁.bindings = s.bindings from hkept] at hold
        exact himplied x a hold
      · exact under_unknown_iff.1 (hM.same_trans hw hname hnew)

end

/-! ## Two lists of values -/

/-- What stands before these two values was unified and left this session. -/
inductive ArrivesAt (M : Model σ) (l : Label) : Session σ → List Value → List Value → Session σ →
    Value → Value → Prop
  | here (s : Session σ) (p m : Value) (ps ms : List Value) :
    ArrivesAt M l s (p :: ps) (m :: ms) s p m
  | later {s s₁ t : Session σ} {p m p' m' : Value} {ps ms : List Value}
    (unified : (unify M l p m).run s = (.ok (), s₁)) (rest : ArrivesAt M l s₁ ps ms t p' m') :
    ArrivesAt M l s (p :: ps) (m :: ms) t p' m'

theorem ArrivesAt.run {t t' : Session σ} {ps ms : List Value} {f : Failure}
    (h : ArrivesAt M l s ps ms t p m) (hr : (unify M l p m).run t = (.error f, t')) :
    (unifyEach M l ps ms).run s = (.error f, t') := by
  induction h with
  | here => exact Action.run_bind_of_error hr
  | later hunified _ ih =>
      rw [unifyEach, Action.run_bind_of_ok hunified]
      exact ih hr

/-- Where two lists are refused, two values are. -/
theorem refuses_of_unifyEach {s' : Session σ} {ps ms : List Value} {f : Failure}
    (hr : (unifyEach M l ps ms).run s = (.error f, s')) :
    ∃ t p m, ArrivesAt M l s ps ms t p m ∧ Refuses M l t p m f := by
  induction ps generalizing ms s with
  | nil => cases hr
  | cons p ps ih =>
      cases ms with
      | nil => cases hr
      | cons m ms =>
          have hcases := unify_cases M l s p m
          rw [unifyEach, Action.run_bind] at hr
          rcases hone : (unify M l p m).run s with ⟨f' | _, s₁⟩ <;> rw [hone] at hr hcases
          · cases hr
            cases hcases with
            | refused hrefuses => exact ⟨s, p, m, .here s p m ps ms, hrefuses⟩
          · obtain ⟨t, p', m', harrives, hrefuses⟩ := ih hr
            exact ⟨t, p', m', .later hone harrives, hrefuses⟩

/-- Two objects that the model tells apart are refused. -/
theorem refused_of_tellsApart {a b : Handle} (hp : s.resolve p = .literal a)
    (hm : s.resolve m = .literal b) (htold : M.TellsApart s.world a b) :
    ∃ x y s', (unify M l p m).run s = (.error ((Conflict.objects x y).failure l), s') := by
  have hcases := unify_cases M l s p m
  have hpairs : ∀ {name h}, ¬s.Pairs p m name h := by
    rintro name h (⟨hp', -⟩ | ⟨-, hm'⟩)
    · cases hp.symm.trans hp'
    · cases hm.symm.trans hm'
  generalize (unify M l p m).run s = r at hcases ⊢
  cases hcases with
  | same hsame =>
      rw [hp, hm] at hsame
      exact absurd hsame htold.not_same
  | bound hbound => exact absurd hbound hpairs
  | refused hrefuses =>
      cases hrefuses with
      | apart _ _ _ x y => exact ⟨x, y, _, rfl⟩
      | uncompared hp' hm' hfailed =>
          cases hp.symm.trans hp'
          cases hm.symm.trans hm'
          obtain ⟨-, w', hanswer⟩ := htold
          cases hanswer.symm.trans hfailed
      | unread hunread => exact absurd hunread hpairs
      | bothUnbound hp' => cases hp.symm.trans hp'
      | unresolved hneither =>
          exact absurd ⟨s.checkValue_iff.2 (.inl ⟨a, hp⟩), s.checkValue_iff.2 (.inl ⟨b, hm⟩)⟩
            hneither

section

variable {I : σ → Prop} {expand : Expander} {s' t : Session σ} {w : σ} {ps ms : List Value}
  {β : String → Option Handle} (hM : M.Lawful I expand)

include hM

theorem ArrivesAt.learns (h : ArrivesAt M l s ps ms t p m) : Learns M I expand s t := by
  induction h with
  | here => exact .refl _
  | later hunified _ ih => exact ((keeps_unify hM l _ _).of_run hunified).trans ih

/-- What was found on the way to two values a solution of the lists has, and it makes the two the
same. -/
theorem ArrivesAt.implied (h : ArrivesAt M l s ps ms t p m) (hs : s.Coherent M I expand)
    (hlater : M.Later I t.world w) (himplied : s.ImpliedBy M w β) (hsolves : M.Solves w β ps ms) :
    t.ImpliedBy M w β ∧ M.Same w (p.under β) (m.under β) := by
  induction h with
  | here => exact ⟨himplied, (List.forall₂_cons.1 hsolves).1⟩
  | later hunified hrest ih =>
      obtain ⟨hpair, hsolves⟩ := List.forall₂_cons.1 hsolves
      have hone := implied_unify hM hs hunified ((hrest.learns hM).world.trans hlater) himplied
        hpair
      exact ih (((keeps_unify hM l _ _).of_run hunified).coherent hs) hlater hone hsolves

/-- Unifying two lists finds nothing that a solution of the lists does not have, up to equality. -/
theorem implied_unifyEach (hs : s.Coherent M I expand) {answer : Except Failure Unit}
    (hr : (unifyEach M l ps ms).run s = (answer, s')) (hlater : M.Later I s'.world w)
    (himplied : s.ImpliedBy M w β) (hsolves : M.Solves w β ps ms) : s'.ImpliedBy M w β := by
  induction hsolves generalizing s with
  | nil =>
      cases hr
      exact himplied
  | @cons p m ps ms hpair _ ih =>
      rw [unifyEach, Action.run_bind] at hr
      rcases hone : (unify M l p m).run s with ⟨f | _, s₁⟩ <;> rw [hone] at hr
      · cases hr
        exact implied_unify hM hs hone hlater himplied hpair
      · have hrest := (keeps_unifyEach hM l ps ms).of_run hr
        exact ih (((keeps_unify hM l p m).of_run hone).coherent hs) hr
          (implied_unify hM hs hone (hrest.world.trans hlater) himplied hpair)

theorem unifyEach_same (hlen : ps.length = ms.length) (hs : s.Coherent M I expand)
    (hr : (unifyEach M l ps ms).run s = (.ok (), s')) : M.Solves s'.world s'.binding? ps ms := by
  induction ps generalizing ms s with
  | nil =>
      cases ms with
      | nil => exact .nil
      | cons m ms => cases hlen
  | cons p ps ih =>
      cases ms with
      | nil => cases hlen
      | cons m ms =>
          rw [unifyEach] at hr
          obtain ⟨_, s₁, hone, hr⟩ := Action.run_bind_ok.1 hr
          have hs₁ := ((keeps_unify hM l p m).of_run hone).coherent hs
          have hsame := ((keeps_unifyEach hM l ps ms).of_run hr).same hM hs₁ (unify_same hM hs hone)
          rw [resolve_eq_under, resolve_eq_under] at hsame
          exact .cons hsame (ih (Nat.succ.inj hlen) hs₁ hr)

end

/-! ## The least solution -/

/-- Values were found for unknowns among these values, one for each, and those from before stay. -/
structure FindsOnce (s : Session σ) (vs : List Value) (s' : Session σ) : Prop where
  kept : s.KeptBy s'.binding?
  found : ∃ found, s'.bindings = s.bindings ++ found ∧
    ∀ b ∈ found, .unknown b.1 ∈ vs ∧ s'.IsCanonical b.2
  /-- Each unknown with a value is listed once, and no other is. -/
  once : ∀ x, s'.boundNames.count x = if (s'.binding? x).isSome then 1 else 0

theorem mem_boundNames {x : String} : x ∈ s.boundNames ↔ (s.binding? x).isSome = true := by
  rw [← Option.ne_none_iff_isSome, binding?, ne_eq, List.lookup_eq_none_iff, boundNames]
  constructor
  · intro hmem hnone
    obtain ⟨b, hb, rfl⟩ := List.mem_map.1 hmem
    simpa using hnone b hb
  · intro hsome
    by_contra hnot
    refine hsome fun b hb => ?_
    have hne : x ≠ b.1 := fun heq => hnot (heq ▸ List.mem_map_of_mem hb)
    simpa using hne

theorem count_boundNames (hdistinct : s.boundNames.Nodup) (x : String) :
    s.boundNames.count x = if (s.binding? x).isSome then 1 else 0 := by
  rw [hdistinct.count]
  exact if_congr mem_boundNames rfl rfl

theorem FindsOnce.refl (hdistinct : s.boundNames.Nodup) (vs : List Value) : s.FindsOnce vs s :=
  ⟨fun _ _ hx => hx, ⟨[], (List.append_nil _).symm, fun _ hb => absurd hb List.not_mem_nil⟩,
    count_boundNames hdistinct⟩

/-- What unifying two lists of values comes to, with this answer and in this session. -/
structure Unifies (M : Model σ) (I : σ → Prop) (l : Label) (s : Session σ) (ps ms : List Value)
    (answer : Except Failure Unit) (s' : Session σ) : Prop extends FindsOnce s (ps ++ ms) s' where
  /-- On success the values found solve the lists. -/
  solved : answer = .ok () → M.Solves s'.world s'.binding? ps ms
  /-- Every solution that keeps the values found before has those found now, up to equality. -/
  least : ∀ w, M.Later I s'.world w → ∀ β, s.KeptBy β → M.Solves w β ps ms → s'.ImpliedBy M w β
  /-- The lists are refused for their lengths, or for a place where two values are refused. -/
  refused : ∀ f, answer = .error f →
    ps.length ≠ ms.length ∧ f = (Conflict.counts ps.length ms.length).failure l ∨
    ps.length = ms.length ∧ ∃ t p m, ArrivesAt M l s ps ms t p m ∧ Refuses M l t p m f
  /-- Two objects that the model tells apart are refused, and no choice that keeps the values found
  before solves the lists. -/
  apart : ∀ t p m a b, ps.length = ms.length → ArrivesAt M l s ps ms t p m →
    t.resolve p = .literal a → t.resolve m = .literal b → M.TellsApart t.world a b →
    (∃ x y, answer = .error ((Conflict.objects x y).failure l)) ∧
    ∀ w, M.Later I t.world w → M.TellsApart w a b → ∀ β, s.KeptBy β → ¬M.Solves w β ps ms

section

variable {I : σ → Prop} {expand : Expander} (hM : M.Lawful I expand)

include hM

/-- Where the model tells two objects apart, no choice that keeps what was found before solves the
lists. -/
theorem ArrivesAt.not_solves {t : Session σ} {ps ms : List Value} {a b : Handle} {w : σ}
    {β : String → Option Handle} (h : ArrivesAt M l s ps ms t p m) (hs : s.Coherent M I expand)
    (hp : t.resolve p = .literal a) (hm : t.resolve m = .literal b)
    (hlater : M.Later I t.world w) (htold : M.TellsApart w a b) (hβ : s.KeptBy β) :
    ¬M.Solves w β ps ms := by
  intro hsolves
  obtain ⟨himplied, hsame⟩ := h.implied hM hs hlater (hβ.implied w) hsolves
  have hw := (hlater (((h.learns hM).coherent hs).world)).1
  have hleft : M.Same w (.literal a) (p.under β) := hM.same_symm hw (himplied.under hp)
  have hright : M.Same w (m.under β) (.literal b) := himplied.under hm
  exact htold.not_same (hM.same_trans hw hleft (hM.same_trans hw hsame hright))

theorem unifies_unifyEach (hs : s.Coherent M I expand) (hdistinct : s.boundNames.Nodup)
    {ps ms : List Value} (hlen : ps.length = ms.length) {answer : Except Failure Unit}
    {s' : Session σ} (hr : (unifyEach M l ps ms).run s = (answer, s')) :
    Unifies M I l s ps ms answer s' := by
  have hlearns := (keeps_unifyEach hM l ps ms).of_run hr
  have hs' := hlearns.coherent hs
  have hdistinct' := hlearns.distinct hdistinct
  obtain ⟨found, hfound, hnames⟩ := (finds_unifyEach (M := M) l
    (fun v hv => Value.among_unknowns (List.mem_append_left ms hv))
    (fun v hv => Value.among_unknowns (List.mem_append_right ps hv))).of_run hr
  have honce : s.FindsOnce (ps ++ ms) s' := by
    refine ⟨fun x h hx => ?_, ⟨found, hfound, fun b hb => ⟨Value.mem_unknowns.1 (hnames b hb), ?_⟩⟩,
      count_boundNames hdistinct'⟩
    · rw [binding?, hfound, List.lookup_append, show s.bindings.lookup x = some h from hx]
      rfl
    · exact hs'.bindings b.1 b.2 (lookup_of_mem hdistinct' (hfound ▸ List.mem_append_right _ hb))
  refine ⟨honce, ?_, fun w hlater β hβ => implied_unifyEach hM hs hr hlater (hβ.implied w), ?_,
    fun t p m a b _ harrives hp hm htold => ⟨?_, fun w hlater htold' β =>
      harrives.not_solves hM hs hp hm hlater htold'⟩⟩
  · rintro rfl
    exact unifyEach_same hM hlen hs hr
  · rintro f rfl
    exact .inr ⟨hlen, refuses_of_unifyEach hr⟩
  · obtain ⟨x, y, t', hrefused⟩ := refused_of_tellsApart (l := l) hp hm htold
    exact ⟨x, y, congrArg Prod.fst (hr.symm.trans (harrives.run hrefused))⟩

theorem unifies_unifyValues (hs : s.Coherent M I expand) (hdistinct : s.boundNames.Nodup)
    {ps ms : List Value} {answer : Except Failure Unit} {s' : Session σ}
    (hr : (unifyValues M l ps ms).run s = (answer, s')) : Unifies M I l s ps ms answer s' := by
  unfold unifyValues at hr
  split at hr
  · next hlen =>
      cases hr
      refine ⟨.refl hdistinct _, fun h => (nomatch h), fun w _ β hβ _ => hβ.implied w,
        fun f hf => ?_, fun _ _ _ _ _ heq => absurd heq hlen⟩
      cases hf
      exact .inl ⟨hlen, rfl⟩
  · next hlen => exact unifies_unifyEach hM hs hdistinct (Decidable.not_not.1 hlen) hr

/-- In every session that can be reached, and whatever was learnt since, unification finds the least
solution of two lists of values, or of two calls of one function. Calls of different functions are
refused at once. -/
theorem unification_least {s₀ : Session σ} (hreach : Reachable M I s₀)
    (hlearns : Learns M I expand s₀ s) (l : Label) {answer : Except Failure Unit}
    {s' : Session σ} :
    (∀ ps ms, (unifyValues M l ps ms).run s = (answer, s') → Unifies M I l s ps ms answer s') ∧
    ∀ p m, (unifyCalls M l p m).run s = (answer, s') →
      s.FindsOnce (p.parameters ++ m.parameters) s' ∧
      (p.function = m.function → Unifies M I l s p.parameters m.parameters answer s') ∧
      (p.function ≠ m.function → answer = .error ((Conflict.calls p m).failure l) ∧ s' = s) := by
  have hs := hlearns.coherent (hreach.sound hM).coherent
  have hdistinct := hlearns.distinct (hreach.distinct hM)
  refine ⟨fun ps ms => unifies_unifyValues hM hs hdistinct, fun p m hr => ?_⟩
  unfold unifyCalls at hr
  split at hr
  · next hne =>
      cases hr
      exact ⟨.refl hdistinct _, fun heq => absurd heq hne, fun _ => ⟨rfl, rfl⟩⟩
  · next heq =>
      have hunifies := unifies_unifyValues hM hs hdistinct hr
      exact ⟨hunifies.toFindsOnce, fun _ => hunifies, fun hne => absurd hne heq⟩

end

end Session

/-! ## One unknown for two objects -/

namespace twoTruths

def label : Label := untilTails.label 0 1

/-- A session that knows of nothing but two truth values. -/
def start : Session Store := .start .standard Library.truths

/-- The session with the true one for one unknown. -/
def one : Session Store :=
  ((Session.unify untilTails.model label (.unknown "x") (.literal ⟨0⟩)).run start).2

/-- The session with it for another unknown, too. -/
def both : Session Store :=
  ((Session.unify untilTails.model label (.unknown "y") (.unknown "x")).run one).2

theorem tellsApart : untilTails.model.TellsApart Library.truths ⟨0⟩ ⟨1⟩ :=
  ⟨by decide, ((untilTails.model.isEqual ⟨0⟩ ⟨1⟩).run Library.truths).2,
    Prod.ext (by decide +kernel) rfl⟩

theorem arrives : Session.ArrivesAt untilTails.model label start
    [.unknown "x", .unknown "y", .unknown "x"] [.literal ⟨0⟩, .unknown "x", .literal ⟨1⟩]
    both (.unknown "x") (.literal ⟨1⟩) := by
  have hone : (Session.unify untilTails.model label (.unknown "x") (.literal ⟨0⟩)).run start
      = (.ok (), one) := Prod.ext (by decide +kernel) rfl
  have hboth : (Session.unify untilTails.model label (.unknown "y") (.unknown "x")).run one
      = (.ok (), both) := Prod.ext (by decide +kernel) rfl
  exact .later hone (.later hboth (.here both (.unknown "x") (.literal ⟨1⟩) [] []))

end twoTruths

/-- An unknown that was unified with the true one cannot be the false one, whatever is chosen. -/
theorem twoTruths_apart : ∃ x y s',
    (Session.unifyValues untilTails.model twoTruths.label
      [.unknown "x", .unknown "y", .unknown "x"] [.literal ⟨0⟩, .unknown "x", .literal ⟨1⟩]).run
        twoTruths.start = (.error ((Conflict.objects x y).failure twoTruths.label), s') ∧
    s'.boundNames = ["x", "y"] ∧
    ∀ β, ¬untilTails.model.Solves Library.truths β [.unknown "x", .unknown "y", .unknown "x"]
      [.literal ⟨0⟩, .unknown "x", .literal ⟨1⟩] := by
  have hnames : ((Session.unifyValues untilTails.model twoTruths.label
      [.unknown "x", .unknown "y", .unknown "x"] [.literal ⟨0⟩, .unknown "x", .literal ⟨1⟩]).run
        twoTruths.start).2.boundNames = ["x", "y"] := by decide +kernel
  have hworld : twoTruths.both.world = Library.truths := by decide +kernel
  have htold := twoTruths.tellsApart
  rcases hr : (Session.unifyValues untilTails.model twoTruths.label
      [.unknown "x", .unknown "y", .unknown "x"] [.literal ⟨0⟩, .unknown "x", .literal ⟨1⟩]).run
        twoTruths.start with ⟨answer, s'⟩
  rw [hr] at hnames
  rw [← hworld] at htold ⊢
  have hunifies := (Session.unification_least untilTails.lawful
    (.start .standard Library.truths_holds) (.refl twoTruths.start) twoTruths.label).1 _ _ hr
  obtain ⟨⟨x, y, rfl⟩, hnone⟩ := hunifies.apart twoTruths.both _ _ ⟨0⟩ ⟨1⟩ rfl twoTruths.arrives
    (by decide +kernel) rfl htold
  exact ⟨x, y, s', rfl, hnames, fun β => hnone _ (.refl _) htold β fun _ _ hx => nomatch hx⟩

end ChanceProof
