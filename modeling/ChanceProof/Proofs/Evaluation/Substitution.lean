import ChanceProof.Proofs.Evaluation.Related
import ChanceProof.Proofs.Evaluation.Submission

/-!
# Unknowns are shorthand

When a list of proofs is accepted, every unknown in them has been found. Writing out what was found
in its place yields proofs without unknowns, which are accepted as well and say the same
(`evaluate_written_out`).

The run with everything written out is compared with the one that found it step by step: a value
found on the way is the one that is bound in the end, since bindings only grow. So wherever the one
binds an unknown, the other compares an object with itself.
-/

namespace ChanceProof

namespace Account

/-! ## What is bound stays bound -/

/-- The account has bound no name but to its value in the end. -/
def Within (a final : Account) : Prop :=
  ∀ x v, a.bindings.lookup x = some v → final.bindings.lookup x = some v

theorem Extends.within {a a' : Account} (h : Extends a a') : a.Within a' := by
  obtain ⟨found, hfound⟩ := h
  intro x v hx
  rw [← hfound, List.lookup_append, hx]
  rfl

theorem Within.trans {a b c : Account} (h : a.Within b) (h' : b.Within c) : a.Within c :=
  fun x v hx => h' x v (h x v hx)

theorem resolve_eq_or (a : Account) (r : Referent) :
    (∃ v, a.resolve r = .object v ∧ ∀ b : Account, a.Within b → b.resolve r = .object v) ∨
      ∃ x, r = .unknown x ∧ a.resolve r = .unknown x ∧ a.bindings.lookup x = none := by
  cases r with
  | object v => exact .inl ⟨v, rfl, fun _ _ => rfl⟩
  | unknown x =>
      cases hx : a.bindings.lookup x with
      | none => exact .inr ⟨x, rfl, by rw [resolve, hx]; rfl, hx⟩
      | some v => exact .inl ⟨v, by rw [resolve, hx]; rfl,
          fun b hb => by rw [resolve, hb x v hx]; rfl⟩

/-! ## Writing out -/

def withoutBindings (a : Account) : Account := { a with bindings := [] }

@[simp] theorem resolve_withoutBindings (a : Account) (r : Referent) :
    a.withoutBindings.resolve r = r := by
  cases r <;> rfl

/-- What succeeds without binding anything else than in the end succeeds on accounts without
bindings, too, once everything is written out. -/
def WrittenOut (final : Account) {α β : Type} (Q : α → β → Prop) (x : Action Account α)
    (y : Action Account β) : Prop :=
  ∀ a u a', x.run a = (.ok u, a') → a'.Within final →
    ∃ v, y.run a.withoutBindings = (.ok v, a'.withoutBindings) ∧ Q u v

theorem ground_writtenOut (final : Account) (r : Referent) :
    WrittenOut final Eq (ground r) (ground (final.resolve r)) := by
  intro a v a' hr hfinal
  unfold ground at hr
  rw [Action.run_bind_of_ok (Action.run_get a)] at hr
  rcases a.resolve_eq_or r with ⟨w, hw, hlater⟩ | ⟨x, -, hx, -⟩
  · rw [hw] at hr
    obtain ⟨rfl, rfl⟩ := Action.run_pure_ok.1 hr
    refine ⟨w, ?_, rfl⟩
    unfold ground
    rw [Action.run_bind_of_ok (Action.run_get _), resolve_withoutBindings, hlater _ hfinal]
    rfl
  · rw [hx] at hr
    exact (Action.run_throw_ok hr).elim

theorem within_append (a : Account) (x : String) (v : Json) :
    a.Within { a with bindings := a.bindings ++ [(x, v)] } :=
  Extends.within (List.prefix_append _ _)

theorem resolve_of_bound {a final : Account} {x : String} {v : Json}
    (hx : a.bindings.lookup x = none)
    (h : Within { a with bindings := a.bindings ++ [(x, v)] } final) :
    final.resolve (.unknown x) = .object v := by
  have hlookup : (a.bindings ++ [(x, v)]).lookup x = some v := by
    rw [List.lookup_append, hx]
    simp
  rw [resolve, h x v hlookup]
  rfl

section

variable {E : Json → Json → Prop} [DecidableRel E] (hrefl : ∀ v, E v v)

include hrefl

/-- Nothing is left to do for two values that are written out alike. -/
theorem run_unify_self (a : Account) (r : Referent) :
    (unify E r r).run a.withoutBindings = (.ok (), a.withoutBindings) := by
  unfold unify
  rw [Action.run_bind_of_ok (Action.run_get _), resolve_withoutBindings]
  cases r with
  | object v => simp only [if_pos (hrefl v)]; rfl
  | unknown x => simp only [if_true]; rfl

/-- Two objects are compared as before. Where a name was bound, its object is compared with
itself. -/
theorem unify_writtenOut (final : Account) (p m : Referent) : WrittenOut final (fun _ _ => True)
    (unify E p m) (unify E (final.resolve p) (final.resolve m)) := by
  rintro a ⟨⟩ a' hr hfinal
  have hsame (h : final.resolve p = final.resolve m) :
      (unify E (final.resolve p) (final.resolve m)).run a.withoutBindings
        = (.ok (), a.withoutBindings) := by
    rw [← h]
    exact run_unify_self hrefl a _
  unfold unify at hr
  rw [Action.run_bind_of_ok (Action.run_get a)] at hr
  rcases a.resolve_eq_or p with ⟨v, hv, hlater⟩ | ⟨x, rfl, hx, hnone⟩ <;>
    rcases a.resolve_eq_or m with ⟨w, hw, hlater'⟩ | ⟨y, rfl, hy, hnone'⟩
  · rw [hv, hw] at hr
    simp only at hr
    split at hr
    · next hE =>
        obtain ⟨-, rfl⟩ := Action.run_pure_ok.1 hr
        refine ⟨(), ?_, trivial⟩
        unfold unify
        rw [Action.run_bind_of_ok (Action.run_get _), resolve_withoutBindings,
          resolve_withoutBindings, hlater _ hfinal, hlater' _ hfinal]
        simp only [if_pos hE]
        rfl
    · exact (Action.run_throw_ok hr).elim
  · rw [hv, hy] at hr
    cases hr
    have hp := hlater final ((within_append a y v).trans hfinal)
    exact ⟨(), hsame (hp.trans (resolve_of_bound hnone' hfinal).symm), trivial⟩
  · rw [hx, hw] at hr
    cases hr
    have hm := hlater' final ((within_append a x w).trans hfinal)
    exact ⟨(), hsame ((resolve_of_bound hnone hfinal).trans hm.symm), trivial⟩
  · rw [hx, hy] at hr
    simp only at hr
    split at hr
    · next heq =>
        subst heq
        obtain ⟨-, rfl⟩ := Action.run_pure_ok.1 hr
        exact ⟨(), hsame rfl, trivial⟩
    · exact (Action.run_throw_ok hr).elim

theorem relates_writtenOut (final : Account) :
    Relates E (fun r r' => r' = final.resolve r) (WrittenOut final) where
  pure hQ a u a' hr _ := by
    obtain ⟨rfl, rfl⟩ := Action.run_pure_ok.1 hr
    exact ⟨_, rfl, hQ⟩
  throw f a u a' hr _ := (Action.run_throw_ok hr).elim
  bind h hgrow hf a w a'' hr hfinal := by
    obtain ⟨u, a', hu, hr⟩ := Action.run_bind_ok.1 hr
    obtain ⟨v, hv, huv⟩ := h a u a' hu (((hgrow u).of_run hr).within.trans hfinal)
    obtain ⟨w', hw, hww⟩ := hf u v huv a' w a'' hr hfinal
    exact ⟨w', (Action.run_bind_of_ok hv).trans hw, hww⟩
  object v := rfl
  ground := by
    rintro r _ rfl
    exact ground_writtenOut final r
  unify := by
    rintro p _ m _ rfl rfl
    exact unify_writtenOut hrefl final p m

end

theorem records_writtenOut (final : Account) : Relates.Records (WrittenOut final) where
  add l as a u a' hr _ := by
    have hentry : (a.withEntry l).withoutBindings = a.withoutBindings.withEntry l := by
      unfold withEntry
      split
      · next h => exact (if_pos h).symm
      · next h => exact (if_neg h).symm
    refine ⟨(), ?_, trivial⟩
    rw [run_add] at hr ⊢
    split at hr
    · next hapart =>
        cases hr
        rw [if_pos (show (a.withoutBindings.alternativesOf l ++ as).Pairwise Apart from hapart)]
        rw [← hentry]
        rfl
    · cases hr
  prove l a u a' hr _ := by
    cases hr
    exact ⟨(), rfl, trivial⟩

/-! ## Every unknown is found -/

/-- The referent is an object or stands for one by now. -/
def Found (a : Account) (r : Referent) : Prop := ∃ v, a.resolve r = .object v

theorem Extends.found {a a' : Account} (h : Extends a a') {r : Referent} (hr : a.Found r) :
    a'.Found r := by
  rcases a.resolve_eq_or r with ⟨v, -, hlater⟩ | ⟨x, -, hx, -⟩
  · exact ⟨v, hlater a' h.within⟩
  · obtain ⟨v, hv⟩ := hr
    exact nomatch hx.symm.trans hv

theorem ground_found {a a' : Account} {r : Referent} {v : Json}
    (h : (ground r).run a = (.ok v, a')) : a' = a ∧ a.Found r := by
  unfold ground at h
  rw [Action.run_bind_of_ok (Action.run_get a)] at h
  split at h
  · next w hw =>
      obtain ⟨-, rfl⟩ := Action.run_pure_ok.1 h
      exact ⟨rfl, w, hw⟩
  · exact (Action.run_throw_ok h).elim

theorem groundAll_found {a a' : Account} {rs : List Referent} {vs : List Json}
    (h : (rs.mapM ground).run a = (.ok vs, a')) : a' = a ∧ ∀ r ∈ rs, a.Found r := by
  induction rs generalizing vs with
  | nil =>
      obtain ⟨-, rfl⟩ := Action.run_pure_ok.1 h
      exact ⟨rfl, fun _ h => absurd h List.not_mem_nil⟩
  | cons r rs ih =>
      obtain ⟨v, a₁, rest, hr, hrs, -⟩ := Action.run_mapM_cons_ok.1 h
      obtain ⟨rfl, hfound⟩ := ground_found hr
      obtain ⟨rfl, hfounds⟩ := ih hrs
      exact ⟨rfl, List.forall_mem_cons.2 ⟨hfound, hfounds⟩⟩

theorem groundClaim_found {a a' : Account} {c : Claim Referent} {l : PortableLabel}
    (h : (groundClaim c).run a = (.ok l, a')) : a' = a ∧ ∀ r ∈ c.result, a.Found r := by
  obtain ⟨ps, a₁, hps, h⟩ := Action.run_bind_ok.1 h
  obtain ⟨rs, a₂, hrs, h⟩ := Action.run_bind_ok.1 h
  obtain ⟨-, rfl⟩ := Action.run_pure_ok.1 h
  obtain ⟨rfl, -⟩ := groundAll_found hps
  exact groundAll_found hrs

theorem groundClaims_found {a a' : Account} {cs : List (Claim Referent)} {ls : List PortableLabel}
    (h : (cs.mapM groundClaim).run a = (.ok ls, a')) :
    a' = a ∧ ∀ c ∈ cs, ∀ r ∈ c.result, a.Found r := by
  induction cs generalizing ls with
  | nil =>
      obtain ⟨-, rfl⟩ := Action.run_pure_ok.1 h
      exact ⟨rfl, fun _ h => absurd h List.not_mem_nil⟩
  | cons c cs ih =>
      obtain ⟨l, a₁, rest, hc, hcs, -⟩ := Action.run_mapM_cons_ok.1 h
      obtain ⟨rfl, hfound⟩ := groundClaim_found hc
      obtain ⟨rfl, hfounds⟩ := ih hcs
      exact ⟨rfl, List.forall_mem_cons.2 ⟨hfound, hfounds⟩⟩

/-- Every name of the steps is mapped, and what it is mapped to is a result of a claim. -/
theorem claimsFrom_names {α : Type} {object : Json → α} {sk : Sketch} {m : String → Option α}
    {results : List (List α)} {steps : List Step} {cs : List (Claim α)}
    (h : sk.claimsFrom object m results steps = .ok cs) :
    ∀ name ∈ steps.flatMap (·.names), ∃ c ∈ cs, ∃ x ∈ c.result, m name = some x := by
  induction steps generalizing results cs with
  | nil => exact fun _ h => absurd h List.not_mem_nil
  | cons st steps ih =>
      rw [Sketch.claimsFrom] at h
      obtain ⟨ps, -, h⟩ := bind_eq_ok_iff.1 h
      obtain ⟨rs, hrs, h⟩ := bind_eq_ok_iff.1 h
      obtain ⟨rest, hrest, h⟩ := bind_eq_ok_iff.1 h
      obtain rfl := pure_eq_ok_iff.1 h
      intro name hname
      rw [List.flatMap_cons, List.mem_append] at hname
      rcases hname with hname | hname
      · obtain ⟨x, hx, hm⟩ := exists_of_forall₂_mem (mapM_ok_iff.1 hrs).flip hname
        exact ⟨_, List.mem_cons_self, x, hx, Failure.require_ok_iff.1 hm⟩
      · obtain ⟨c, hc, x, hx, hm⟩ := ih hrest name hname
        exact ⟨c, List.mem_cons_of_mem _ hc, x, hx, hm⟩

section

variable {E : Json → Json → Prop} [DecidableRel E]

theorem alternative_found {a a' : Account} {result : List Referent} {sk : Sketch}
    {m : Dictionary Referent} {ls : List PortableLabel}
    (h : (alternative E result sk m).run a = (.ok ls, a')) :
    ∀ name ∈ sk.names, ∃ r, m.get? name = some r ∧ a'.Found r := by
  obtain ⟨cs, a₁, hcs, h⟩ := Action.run_bind_ok.1 h
  obtain ⟨hclaims, rfl⟩ := Action.run_liftM_ok.1 hcs
  obtain ⟨_, a₂, -, h⟩ := Action.run_bind_ok.1 h
  obtain ⟨rfl, hfound⟩ := groundClaims_found h
  intro name hname
  obtain ⟨c, hc, r, hr, hm⟩ := claimsFrom_names hclaims name hname
  exact ⟨r, hm, hfound c hc r hr⟩

theorem mapM_alternative_found {a a' : Account} {result : List Referent} {sk : Sketch}
    {ms : List (Dictionary Referent)} {as : List (List PortableLabel)}
    (h : (ms.mapM (alternative E result sk)).run a = (.ok as, a')) :
    ∀ m ∈ ms, ∀ name ∈ sk.names, ∃ r, m.get? name = some r ∧ a'.Found r := by
  induction ms generalizing a as with
  | nil => exact fun _ h => absurd h List.not_mem_nil
  | cons m ms ih =>
      obtain ⟨ls, a₁, rest, hm, hms, -⟩ := Action.run_mapM_cons_ok.1 h
      have hgrow : Extends a₁ a' :=
        (Action.Keeps.mapM ms (extends_alternative E result sk)).of_run hms
      refine List.forall_mem_cons.2 ⟨fun name hname => ?_, ih hms⟩
      obtain ⟨r, hr, hfound⟩ := alternative_found hm name hname
      exact ⟨r, hr, hgrow.found hfound⟩

theorem alternatives_found {a a' : Account} {sketchOf : Expander} {t : Thesis}
    {parameters : List Json} {as : List (List PortableLabel)}
    (hkeys : ∀ m ∈ t.mappings, m.keys = t.names)
    (h : (alternatives sketchOf E t parameters).run a = (.ok as, a')) :
    ∀ m ∈ t.mappings, ∀ e ∈ m.entries, a'.Found e.2 := by
  obtain ⟨sk, a₁, -, h⟩ := Action.run_bind_ok.1 h
  obtain ⟨_, a₂, hnames, h⟩ := Action.run_bind_ok.1 h
  obtain ⟨hchecked, rfl⟩ := Action.run_liftM_ok.1 hnames
  intro m hm e he
  have hsame : t.names = Keyed.names sk.names := by
    unfold checkNames at hchecked
    split at hchecked
    · next hor =>
        refine of_decide_eq_true ((Bool.or_eq_true_iff.1 hor).resolve_left fun hempty => ?_)
        rw [List.isEmpty_iff.1 hempty] at hm
        exact absurd hm List.not_mem_nil
    · cases hchecked
  have hname : e.1 ∈ sk.names := Keyed.mem_of_mem_names (by
    rw [← hsame, ← hkeys m hm]
    exact List.mem_map.2 ⟨e, he, rfl⟩)
  obtain ⟨r, hr, hfound⟩ := mapM_alternative_found h m hm e.1 hname
  rw [Dictionary.get?_of_mem he] at hr
  cases hr
  exact hfound

theorem record_found {a a' : Account} {c : Claim Referent} {parameters : List Json}
    {as : PortableLabel → List (List PortableLabel)} {l : PortableLabel}
    (h : (record c parameters as).run a = (.ok l, a')) : ∀ r ∈ c.result, a'.Found r := by
  have hgrow := (extends_record c parameters as).of_run h
  obtain ⟨rs, a₁, hrs, -⟩ := Action.run_bind_ok.1 h
  exact fun r hr => hgrow.found ((groundAll_found hrs).2 r hr)

/-- Every unknown of an accepted thesis is found. -/
theorem expand_found {a a' : Account} {sketchOf : Expander} {t : Thesis} {l : PortableLabel}
    (hkeys : ∀ m ∈ t.mappings, m.keys = t.names)
    (h : (expand sketchOf E t).run a = (.ok l, a')) :
    (∀ r ∈ t.claim.parameters ++ t.claim.result, a'.Found r) ∧
      ∀ m ∈ t.mappings, ∀ e ∈ m.entries, a'.Found e.2 := by
  have hgrow := (extends_expand sketchOf E t).of_run h
  obtain ⟨vs, a₁, hvs, hrest⟩ := Action.run_bind_ok.1 h
  obtain ⟨rfl, hparameters⟩ := groundAll_found hvs
  have hlabel : (∀ r ∈ t.claim.result, a'.Found r) →
      ∀ r ∈ t.claim.parameters ++ t.claim.result, a'.Found r := fun hresult r hr =>
    (List.mem_append.1 hr).elim (fun hr => hgrow.found (hparameters r hr)) (hresult r)
  split at hrest
  · split at hrest
    · obtain ⟨_, _, hthrow, -⟩ := Action.run_bind_ok.1 hrest
      exact (Action.run_throw_ok hthrow).elim
    · next hempty =>
        have hnil : t.mappings = [] := List.isEmpty_iff.1 (by simpa using hempty)
        refine ⟨hlabel (record_found hrest), fun m hm => ?_⟩
        rw [hnil] at hm
        exact absurd hm List.not_mem_nil
  · obtain ⟨as, a₂, has, hrecord⟩ := Action.run_bind_ok.1 hrest
    have hgrow' := (extends_record t.claim vs fun _ => as).of_run hrecord
    exact ⟨hlabel (record_found hrecord), fun m hm e he =>
      hgrow'.found (alternatives_found hkeys has m hm e he)⟩

theorem expandAll_found {a a' : Account} {sketchOf : Expander} {ts : List Thesis}
    (hkeys : ∀ t ∈ ts, ∀ m ∈ t.mappings, m.keys = t.names)
    (h : (expandAll sketchOf E ts).run a = (.ok (), a')) : ∀ t ∈ ts,
      (∀ r ∈ t.claim.parameters ++ t.claim.result, a'.Found r) ∧
        ∀ m ∈ t.mappings, ∀ e ∈ m.entries, a'.Found e.2 := by
  induction ts generalizing a with
  | nil => exact fun _ h => absurd h List.not_mem_nil
  | cons t ts ih =>
      obtain ⟨l, a₁, ht, hts⟩ := Action.run_forM_cons_ok.1 h
      obtain ⟨ht', hts'⟩ := List.forall_mem_cons.1 hkeys
      obtain ⟨hlabel, hmappings⟩ := expand_found ht' ht
      have hgrow := (extends_expandAll sketchOf E ts).of_run hts
      exact List.forall_mem_cons.2 ⟨⟨fun r hr => hgrow.found (hlabel r hr),
        fun m hm e he => hgrow.found (hmappings m hm e he)⟩, ih hts' hts⟩

end

end Account

/-! ## Proofs written out -/

/-- The value with an unknown replaced by an object that prints as what is bound to it. -/
inductive Value.WrittenOut (φ : Handle → Option Json) (bound : String → Option Json) :
    Value → Value → Prop
  | literal {h : Handle} : WrittenOut φ bound (.literal h) (.literal h)
  | unknown {x : String} {h : Handle} {v w : Json} (hx : bound x = some v) (hform : φ h = some w)
      (hprint : w.print = v.print) : WrittenOut φ bound (.unknown x) (.literal h)

structure Proof.WrittenOut (φ : Handle → Option Json) (bound : String → Option Json)
    (p p' : Proof) : Prop where
  function : p.label.call.function = p'.label.call.function
  parameters : List.Forall₂ (Value.WrittenOut φ bound) p.label.call.parameters
    p'.label.call.parameters
  result : List.Forall₂ (Value.WrittenOut φ bound) p.label.result p'.label.result
  mappings : List.Forall₂ (Dictionary.Related (Value.WrittenOut φ bound)) p.mappings p'.mappings

section

variable {φ ψ : Handle → Option Json} {final : Account}

theorem Value.WrittenOut.means {v v' : Value} {r : Referent}
    (hle : ∀ h j, φ h = some j → ψ h = some j)
    (h : v.WrittenOut ψ (fun x => final.bindings.lookup x) v') (hv : v.Means φ r) :
    v'.Means ψ (final.resolve r) := by
  cases h with
  | literal =>
      cases hv with
      | object hform => exact .object (hle _ _ hform)
  | unknown hx hform hprint =>
      cases hv with
      | unknown =>
          rw [Account.resolve, hx]
          rw [Json.print_injective hprint] at hform
          exact .object hform

theorem forall₂_compose {α β γ δ : Type} {R : α → β → Prop} {S : α → γ → Prop} {T : γ → δ → Prop}
    {U : β → δ → Prop} (h : ∀ x y z w, R x y → S x z → T z w → U y w) {xs : List α} {ys : List β}
    {zs : List γ} {ws : List δ} (hxy : List.Forall₂ R xs ys) (hxz : List.Forall₂ S xs zs)
    (hzw : List.Forall₂ T zs ws) : List.Forall₂ U ys ws := by
  have hxw := forall₂_join hxz hzw.flip fun x w z hx hw => (⟨z, hx, hw⟩ : ∃ z, S x z ∧ T z w)
  exact forall₂_join hxy.flip hxw.flip fun y w x hy ⟨z, hx, hw⟩ => h x y z w hy hx hw

/-- Proofs that are written out stand for theses that are. -/
theorem Proof.WrittenOut.means {p p' : Proof} {t t' : Thesis}
    (hle : ∀ h j, φ h = some j → ψ h = some j)
    (h : p.WrittenOut ψ (fun x => final.bindings.lookup x) p') (hp : p.Means φ t)
    (ht : t.Related (fun r r' => r' = final.resolve r) t') : p'.Means ψ t' := by
  have hvalue : ∀ (v v' : Value) (r r' : Referent),
      v.WrittenOut ψ (fun x => final.bindings.lookup x) v' → v.Means φ r →
      r' = final.resolve r → v'.Means ψ r' := by
    rintro v v' r _ hv hr rfl
    exact hv.means hle hr
  refine ⟨⟨?_, ?_, ?_⟩, ?_⟩
  · rw [← h.function, hp.label.function, ht.claim.function]
  · exact forall₂_compose hvalue h.parameters hp.label.parameters ht.claim.parameters
  · exact forall₂_compose hvalue h.result hp.label.result ht.claim.result
  · refine forall₂_compose (fun m m' d d' hm hd hd' => ?_) h.mappings hp.mappings ht.mappings
    refine forall₂_compose ?_ hm hd hd'
    rintro e e' f f' ⟨hk, hv⟩ ⟨hk', hr⟩ ⟨hk'', hr'⟩
    exact ⟨by rw [← hk, hk', hk''], hvalue _ _ _ _ hv hr hr'⟩

/-- The unknowns of a proof are those of the thesis that it stands for. -/
theorem Proof.Means.mentions {p : Proof} {t : Thesis} (h : p.Means φ t) {x : String}
    (hx : x ∈ p.unknowns) : .unknown x ∈ t.claim.parameters ++ t.claim.result ∨
      ∃ m ∈ t.mappings, ∃ e ∈ m.entries, e.2 = .unknown x := by
  have hvalue : ∀ {vs : List Value} {rs : List Referent}, List.Forall₂ (Value.Means φ) vs rs →
      .unknown x ∈ vs → .unknown x ∈ rs := by
    intro vs rs hvs hmem
    obtain ⟨r, hr, hmeans⟩ := exists_of_forall₂_mem hvs.flip hmem
    cases hmeans with
    | unknown => exact hr
  rcases List.mem_append.1 (Proof.mem_unknowns.1 hx) with hv | hv
  · exact .inl (List.mem_append.2 ((List.mem_append.1 hv).imp (hvalue h.label.parameters)
      (hvalue h.label.result)))
  · obtain ⟨m, hm, hv⟩ := List.mem_flatMap.1 hv
    obtain ⟨e, he, hev⟩ := List.mem_map.1 hv
    obtain ⟨m', hm', hmm⟩ := exists_of_forall₂_mem h.mappings.flip hm
    obtain ⟨e', he', -, hee⟩ := exists_of_forall₂_mem hmm.flip he
    rw [hev] at hee
    cases hr : e'.2 <;> rw [hr] at hee <;> cases hee
    exact .inr ⟨m', hm', e', he', hr⟩

theorem Thesis.exists_writtenOut (final : Account) (t : Thesis) :
    ∃ t' : Thesis, t.Related (fun r r' => r' = final.resolve r) t' := by
  have hvalues : ∀ rs : List Referent,
      ∃ rs', List.Forall₂ (fun r r' => r' = final.resolve r) rs rs' :=
    fun rs => exists_forall₂ fun r _ => ⟨_, rfl⟩
  obtain ⟨ps, hps⟩ := hvalues t.claim.parameters
  obtain ⟨rs, hrs⟩ := hvalues t.claim.result
  obtain ⟨ms, hms⟩ := exists_forall₂ (l := t.mappings) fun m _ =>
    Dictionary.exists_related (R := fun r r' => r' = final.resolve r) fun e _ => ⟨_, rfl⟩
  exact ⟨⟨⟨t.claim.function, ps, rs⟩, ms⟩, ⟨rfl, hps, hrs⟩, hms⟩

end

open Session

/-- Whatever is unknown in accepted theses has been found. -/
theorem Account.bound_of_expandAll {E : Json → Json → Prop} [DecidableRel E] {expand : Expander}
    {φ : Handle → Option Json} {ps : List Proof} {ts : List Thesis} {a a' : Account}
    (hps : ∀ p ∈ ps, Proof.check p.label p.mappings = .ok ())
    (hts : List.Forall₂ (Proof.Means φ) ps ts)
    (h : (expandAll expand E ts).run a = (.ok (), a')) {p : Proof} (hp : p ∈ ps) {x : String}
    (hx : x ∈ p.unknowns) : ∃ v, a'.bindings.lookup x = some v := by
  have hkeys : ∀ t ∈ ts, ∀ m ∈ t.mappings, m.keys = t.names := by
    intro t ht m hm
    obtain ⟨q, hq, hqt⟩ := exists_of_forall₂_mem hts ht
    obtain ⟨m', hm', hmm⟩ := exists_of_forall₂_mem hqt.mappings hm
    rw [← hmm.keys, ← hqt.names]
    exact (Proof.check_ok_iff.1 (hps q hq)).2 m' hm'
  obtain ⟨t, ht, hpt⟩ := exists_of_forall₂_mem hts.flip hp
  obtain ⟨hlabel, hmappings⟩ := Account.expandAll_found hkeys h t ht
  obtain ⟨v, hv⟩ : a'.Found (.unknown x) := by
    rcases hpt.mentions hx with hr | ⟨m, hm, e, he, hr⟩
    · exact hlabel _ hr
    · exact hr ▸ hmappings m hm e he
  cases hx' : a'.bindings.lookup x with
  | none =>
      rw [Account.resolve, hx'] at hv
      exact nomatch hv
  | some w => exact ⟨w, rfl⟩

/-- What is bound in the results is what is bound in the account. -/
theorem Session.Tells.sameBound_results {σ α : Type} {M : Model σ} {I : σ → Prop}
    {expand : Expander} {E : Json → Json → Prop} (hM : M.Meets I expand E) (A : Arithmetic α)
    {s s' : Session σ} {a : Account} (ht : s.Tells M I expand a) {limit : Nat} {r : Results α}
    (hsolve : s.sort.solve M A limit s = some (.ok r, s')) :
    SameBound (M.form? s'.world) r.bindings a.bindings := by
  have hsolved := solve_mirrors hM A ht limit
  rw [hsolve] at hsolved
  generalize haccount : a.solve A s.settings.maxPasses limit = y at hsolved
  cases hsolved with
  | solved _ hmeans => exact a.bindings_solve A _ _ haccount ▸ hmeans.bindings

/-- Every unknown of an accepted list of live proofs is bound. With each replaced by an object that
prints as what is bound to it, the proofs are accepted as well, record the same terms of the same
labels and have the same results. -/
theorem Library.evaluate_written_out {α : Type} {functions : Library}
    (hfunctions : functions.KeepsTo Json.Finite) (A : Arithmetic α) (settings : Settings)
    (limit : Nat) {ps : List Proof} {w w' : Store} (hw : Library.Holds Json.Finite w)
    (hps : ∀ p ∈ ps, Proof.check p.label p.mappings = .ok () ∧ p.Live (functions.model.form? w))
    {r : Results α} (hr : functions.model.evaluate A settings limit ps w = some (.ok r, w')) :
    (∀ p ∈ ps, ∀ x ∈ p.unknowns, ∃ h v, r.binding? x = some h ∧
        functions.model.form? w' h = some v) ∧
      ∀ (w₁ : Store) (ps' : List Proof), Library.Holds Json.Finite w₁ →
        (∀ h v, functions.model.form? w h = some v → functions.model.form? w₁ h = some v) →
        List.Forall₂ (Proof.WrittenOut (functions.model.form? w₁)
          fun x => (r.binding? x).bind (functions.model.form? w')) ps ps' →
        ∃ r' w₁' found s s₁ entries,
          functions.model.evaluate A settings limit ps' w₁ = some (.ok r', w₁') ∧
            r.Means (functions.model.form? w') found ∧
            r'.Means (functions.model.form? w₁') { found with bindings := [] } ∧
            (expandAll functions.model ps).run (start settings w) = (.ok (), s) ∧
            (expandAll functions.model ps').run (start settings w₁) = (.ok (), s₁) ∧
            List.Forall₂ (s.Lists functions.model) s.entries entries ∧
            List.Forall₂ (s₁.Lists functions.model) s₁.entries entries := by
  have hM := Library.meets hfunctions fun v w hv hw => Json.same_iff v w hv hw
  have hrefl : ∀ v : Json, v.unsigned = v.unsigned := fun _ => rfl
  classical
  obtain ⟨s, s', hexpand, hsolve, rfl⟩ := Model.evaluate_ok_iff.1 hr
  obtain ⟨ts, hts⟩ := exists_forall₂ fun p hp => (hps p hp).2.exists_means
  have hstart : (start settings w).TellsInOrder functions.model (Library.Holds Json.Finite)
      functions.expand .start := tells_start settings hw
  obtain ⟨_, a, haccount, hgrows, ht, -⟩ :=
    (expandAll_mirrors hM failsAlike_true hrefl hstart hts).ok_left hexpand
  have hlookup : (fun x => (r.binding? x).bind (functions.model.form? s'.world))
      = fun x => a.bindings.lookup x :=
    funext (ht.toTells.sameBound_results hM A hsolve).bind_lookup
  refine ⟨fun p hp x hx => ?_, fun w₁ ps' hw₁ hle hwritten => ?_⟩
  · obtain ⟨v, hv⟩ := Account.bound_of_expandAll (fun p hp => (hps p hp).1) hts haccount hp hx
    obtain ⟨h, hh, hform⟩ := Option.bind_eq_some_iff.1 ((congrFun hlookup x).trans hv)
    exact ⟨h, v, hh, hform⟩
  · rw [hlookup] at hwritten
    obtain ⟨ts', hts'⟩ := exists_forall₂ fun t (_ : t ∈ ts) => t.exists_writtenOut a
    have hmeans := forall₂_compose (fun _ _ _ _ h hp ht => h.means hle hp ht) hwritten hts hts'
    obtain ⟨_, haccount₁, -⟩ := (Account.relates_writtenOut hrefl a).expandAll
      (Account.records_writtenOut a) hts' functions.expand .start () a haccount
      fun _ _ h => h
    have hstart₁ : (start settings w₁).TellsInOrder functions.model (Library.Holds Json.Finite)
        functions.expand .start := tells_start settings hw₁
    obtain ⟨_, s₁, hexpand₁, hgrows₁, ht₁, -⟩ :=
      (expandAll_mirrors hM failsAlike_true hrefl hstart₁ hmeans).ok_right haccount₁
    have halike := ht.solvedAlike hM A ht₁.toTells
      (hgrows₁.settings.trans hgrows.settings.symm) rfl rfl limit
    rw [hsolve] at halike
    generalize hsolve₁ : s₁.sort.solve functions.model A limit s₁ = y at halike
    cases halike with
    | solved hresults hresults₁ hnone =>
        obtain ⟨-, rfl⟩ := hnone
        exact ⟨_, _, _, s, s₁, a.entries, Model.evaluate_ok_iff.2 ⟨s₁, _, hexpand₁, hsolve₁, rfl⟩,
          hresults, hresults₁, hexpand, hexpand₁, ht.entries, ht₁.entries⟩

/-! ## Yes and no -/

/-- Two constants, and a pair of them. -/
def yesNo : Library :=
  [("yes", fun _ => .done [.literal (.bool true)]),
    ("no", fun _ => .done [.literal (.bool false)]),
    ("both", fun _ => .done [.literal (.bool true), .literal (.bool false)])]

namespace yesNo

theorem expand_ok {f : String} {vs : List Json} {sk : Sketch} (h : yesNo.expand f vs = .ok sk) :
    ∃ bs : List Bool, sk = ⟨[], bs.map fun b => .object (.bool b)⟩ := by
  unfold Library.expand yesNo at h
  simp only [List.lookup_cons, List.lookup_nil] at h
  split at h
  · cases h
  · next hfun =>
      split at hfun
      · cases hfun
        exact ⟨[true], (Except.ok.inj h).symm⟩
      · split at hfun
        · cases hfun
          exact ⟨[false], (Except.ok.inj h).symm⟩
        · split at hfun <;> cases hfun
          exact ⟨[true, false], (Except.ok.inj h).symm⟩

theorem keepsTo : yesNo.KeepsTo Json.Finite := by
  intro f vs sk _ h item hitem v hv
  obtain ⟨bs, rfl⟩ := expand_ok h
  obtain ⟨b, -, rfl⟩ := List.mem_map.1 hitem
  cases hv
  trivial

/-- Both values are unknown, and the second proof meets one of them again. -/
def asked : List Proof :=
  [⟨⟨⟨"both", []⟩, [.unknown "x", .unknown "y"]⟩, [.empty]⟩,
    ⟨⟨⟨"yes", []⟩, [.unknown "x"]⟩, [.empty]⟩]

def answered : List Proof :=
  [⟨⟨⟨"both", []⟩, [.literal ⟨0⟩, .literal ⟨1⟩]⟩, [.empty]⟩,
    ⟨⟨⟨"yes", []⟩, [.literal ⟨0⟩]⟩, [.empty]⟩]

abbrev evaluate (ps : List Proof) : Run Store (Results ℚ) :=
  yesNo.model.evaluate (exactArithmetic fun x y => y - x ≤ 1 / 4) .standard 0 ps

/-- The second proof names an object that is interned when its function is asked. -/
def early (yes : Value) : List Proof :=
  [⟨⟨⟨"yes", []⟩, [yes]⟩, [.empty]⟩, ⟨⟨⟨"no", []⟩, [.literal ⟨1⟩]⟩, [.empty]⟩]

theorem checked {p : Proof} (hp : p ∈ asked) : Proof.check p.label p.mappings = .ok () := by
  revert p
  decide +kernel

theorem live {p : Proof} (hp : p ∈ asked) : p.Live (yesNo.model.form? Library.truths) := by
  intro v hv
  have hunknown : ∃ x, v = .unknown x := by
    revert v p
    simp [asked, Proof.values, Label.values, Dictionary.empty]
  obtain ⟨x, rfl⟩ := hunknown
  exact ⟨_, .unknown⟩

theorem truths_holds : Library.Holds Json.Finite Library.truths :=
  ⟨Library.truths_holds.1, fun h v hv => (Library.truths_holds.2 h v hv).finite⟩

/-- What the names stand for when the proofs are evaluated, if they are. -/
def meant (ps : List Proof) (w : Store) : Option (Option (List (Option Json))) :=
  (evaluate ps w).map fun (x, w') => x.toOption.map fun r =>
    ["x", "y"].map fun name => (r.binding? name).bind (yesNo.model.form? w')

theorem of_meant (ps : List Proof) (w : Store) {x y : Option Json}
    (h : meant ps w = some (some [x, y])) : ∃ r w', evaluate ps w = some (.ok r, w') ∧
      (r.binding? "x").bind (yesNo.model.form? w') = x ∧
      (r.binding? "y").bind (yesNo.model.form? w') = y := by
  unfold meant at h
  cases hr : evaluate ps w with
  | none =>
      rw [hr] at h
      cases h
  | some answer =>
      obtain ⟨_ | r, w'⟩ := answer <;> rw [hr] at h
      · cases h
      · cases h
        exact ⟨r, w', rfl, rfl, rfl⟩

end yesNo

theorem yesNo_answered : ∃ r w' r' w₁',
    yesNo.evaluate yesNo.asked Library.truths = some (.ok r, w') ∧
      yesNo.evaluate yesNo.answered Library.truths = some (.ok r', w₁') ∧
      r'.labels.map (·.2) = r.labels.map (·.2) := by
  obtain ⟨r, w', hr, hx, hy⟩ := yesNo.of_meant yesNo.asked Library.truths
    (x := some (.bool true)) (y := some (.bool false)) (by decide +kernel)
  obtain ⟨-, h⟩ := Library.evaluate_written_out yesNo.keepsTo _ _ _ yesNo.truths_holds
    (fun p hp => ⟨yesNo.checked hp, yesNo.live hp⟩) hr
  obtain ⟨r', w₁', found, -, -, -, hr', hmeans, hmeans', -⟩ := h Library.truths yesNo.answered
    yesNo.truths_holds (fun _ _ h => h) (.cons
      ⟨rfl, .nil, .cons (.unknown hx rfl rfl) (.cons (.unknown hy rfl rfl) .nil), .cons .nil .nil⟩
      (.cons ⟨rfl, .nil, .cons (.unknown hx rfl rfl) .nil, .cons .nil .nil⟩ .nil))
  refine ⟨r, w', r', w₁', hr, hr', ?_⟩
  have hvalues : ∀ {φ : Handle → Option Json} {r : Results ℚ} {found : Account.Results ℚ},
      r.Means φ found → r.labels.map (·.2) = found.labels.map (·.2) := fun h =>
    List.forall₂_eq_eq_eq ▸ List.forall₂_map_left_iff.2 (List.forall₂_map_right_iff.2
      (h.labels.imp fun _ _ h => h.2))
  rw [hvalues hmeans, hvalues hmeans']

/-- With an object interned beforehand, a literal that was not live at the start names another
object: what was accepted is rejected once it is written out. -/
theorem yesNo_displaced : ∃ r w' f w₁',
    yesNo.evaluate (yesNo.early (.unknown "x")) .empty = some (.ok r, w') ∧
      List.Forall₂ (Proof.WrittenOut (yesNo.model.form? (Store.empty.intern (.bool true)).2)
          fun x => (r.binding? x).bind (yesNo.model.form? w'))
        (yesNo.early (.unknown "x")) (yesNo.early (.literal ⟨0⟩)) ∧
      yesNo.evaluate (yesNo.early (.literal ⟨0⟩)) (Store.empty.intern (.bool true)).2
        = some (.error f, w₁') := by
  obtain ⟨r, w', hr, hx, -⟩ := yesNo.of_meant (yesNo.early (.unknown "x")) .empty
    (x := some (.bool true)) (y := none) (by decide +kernel)
  have hrejected : (yesNo.evaluate (yesNo.early (.literal ⟨0⟩))
      (Store.empty.intern (.bool true)).2).map (·.1.isOk) = some false := by decide +kernel
  obtain ⟨⟨_ | _, w₁'⟩, hr', hok⟩ := Option.map_eq_some_iff.1 hrejected
  · exact ⟨r, w', _, w₁', hr, .cons ⟨rfl, .nil, .cons (.unknown hx rfl rfl) .nil, .cons .nil .nil⟩
      (.cons ⟨rfl, .nil, .cons .literal .nil, .cons .nil .nil⟩ .nil), hr'⟩
  · cases hok

end ChanceProof
