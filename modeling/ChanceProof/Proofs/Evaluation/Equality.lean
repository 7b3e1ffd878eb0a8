import ChanceProof.Proofs.Evaluation.Recorded
import ChanceProof.Proofs.Model.Library

/-!
# Canonical handles and equal objects

A session tells objects apart by their printed forms; the model of a library compares them as
values, for which both zeros are one number. The two agree on all objects but those that are equal
only up to the signs of zeros.

So two accepted alternatives of a label have, at the first place where they differ, a value that the
model calls unequal, unless zeros alone make the difference: then the model sees one execution
where the session counts two.
-/

namespace ChanceProof

/-- Values of equal number differ somewhere in the eyes of a library just when they still differ
without signed zeros. -/
theorem exists_not_same_iff {vs ws : List Json} (hv : ∀ v ∈ vs, v.Finite) (hw : ∀ w ∈ ws, w.Finite)
    (hlen : vs.length = ws.length) :
    (∃ (k : Nat) (v w : Json), vs[k]? = some v ∧ ws[k]? = some w ∧ v.same w = false) ↔
      vs.map Json.unsigned ≠ ws.map Json.unsigned := by
  induction vs generalizing ws with
  | nil =>
      obtain rfl := List.length_eq_zero_iff.1 hlen.symm
      simp
  | cons v vs ih =>
      cases ws with
      | nil => cases hlen
      | cons w ws =>
          have hsame := Json.same_iff v w (hv v List.mem_cons_self) (hw w List.mem_cons_self)
          have hrest := ih (fun v h => hv v (List.mem_cons_of_mem _ h))
            (fun w h => hw w (List.mem_cons_of_mem _ h)) (Nat.succ.inj hlen)
          rw [List.map_cons, List.map_cons, ne_eq, List.cons.injEq, not_and_or, ← hsame,
            Bool.not_eq_true, ← ne_eq, ← hrest]
          constructor
          · rintro ⟨k, v', w', hv', hw', hne⟩
            cases k with
            | zero =>
                cases hv'
                cases hw'
                exact .inl hne
            | succ k => exact .inr ⟨k, v', w', hv', hw', hne⟩
          · rintro (hne | ⟨k, v', w', hv', hw', hne⟩)
            · exact ⟨0, v, w, rfl, rfl, hne⟩
            · exact ⟨k + 1, v', w', hv', hw', hne⟩

namespace Session

variable {functions : Library}

/-- The model calls some values at one place of two lists unequal. -/
def SomeUnequal (functions : Library) (s : Session Store) (vs ws : List Value) : Prop :=
  ∃ (k : Nat) (a b : Handle), vs[k]? = some (.literal a) ∧ ws[k]? = some (.literal b) ∧
    (functions.model.isEqual a b).run s.world = (.ok false, s.world)

theorem someUnequal_iff {s : Session Store} {vs ws : List Value} {rs ts : List Json}
    (hvc : ∀ v ∈ vs, ∃ c, v = .literal c ∧ s.IsCanonical c)
    (hwc : ∀ w ∈ ws, ∃ c, w = .literal c ∧ s.IsCanonical c)
    (hv : List.Forall₂ (fun v j => s.form? functions.model v = some j) vs rs)
    (hw : List.Forall₂ (fun v j => s.form? functions.model v = some j) ws ts) :
    SomeUnequal functions s vs ws ↔
      ∃ (k : Nat) (v w : Json), rs[k]? = some v ∧ ts[k]? = some w ∧ v.same w = false := by
  have hequal : ∀ {a b : Handle} {v w : Json}, s.form? functions.model (.literal a) = some v →
      s.form? functions.model (.literal b) = some w →
      (functions.model.isEqual a b).run s.world = (.ok (v.same w), s.world) := by
    intro a b v w ha hb
    rw [form?_literal, Library.form?_model] at ha hb
    rcases functions.isEqual_cases s.world a b with ⟨v', w', hv', hw', hr⟩ | ⟨f, -, hnone | hnone⟩
    · cases ha.symm.trans hv'
      cases hb.symm.trans hw'
      exact hr
    · exact nomatch ha.symm.trans hnone
    · exact nomatch hb.symm.trans hnone
  constructor
  · rintro ⟨k, a, b, ha, hb, hr⟩
    obtain ⟨v, hvk, hav⟩ := forall₂_some_left hv ha
    obtain ⟨w, hwk, hbw⟩ := forall₂_some_left hw hb
    have heq := (hequal hav hbw).symm.trans hr
    exact ⟨k, v, w, hvk, hwk, Except.ok.inj (Prod.mk.inj heq).1⟩
  · rintro ⟨k, v, w, hvk, hwk, hne⟩
    obtain ⟨x, hx, hav⟩ := forall₂_some_left hv.flip hvk
    obtain ⟨y, hy, hbw⟩ := forall₂_some_left hw.flip hwk
    obtain ⟨a, rfl, -⟩ := hvc x (List.mem_of_getElem? hx)
    obtain ⟨b, rfl, -⟩ := hwc y (List.mem_of_getElem? hy)
    exact ⟨k, a, b, hx, hy, hne ▸ hequal hav hbw⟩

variable {I : Store → Prop} {E : Json → Json → Prop}

/-- Handles of live objects have one canonical handle just when their forms are equal. -/
theorem canonical_eq_iff {σ : Type} {M : Model σ} {I : σ → Prop} {expand : Expander}
    {E : Json → Json → Prop} (hM : M.Meets I expand E) {s : Session σ} (hs : s.Coherent M I expand)
    {a b : Handle} {v w : Json} (ha : M.form? s.world a = some v)
    (hb : M.form? s.world b = some w) :
    ∃ c c' s₁ s₂, (canonical M a).run s = (.ok c, s₁) ∧ (canonical M b).run s₁ = (.ok c', s₂) ∧
      (c = c' ↔ v = w) := by
  obtain ⟨c, s₁, hc⟩ := canonical_answers ha
  have hlearns := (keeps_canonical hM a).of_run hc
  have hs₁ := hlearns.coherent hs
  obtain ⟨c', s₂, hc'⟩ := canonical_answers (hlearns.world_form hs b w hb)
  have hlearns' := (keeps_canonical hM b).of_run hc'
  have hs₂ := hlearns'.coherent hs₁
  obtain ⟨-, hcanon, v', hv', hcv⟩ := canonical_ok hM hs hc
  obtain ⟨-, hcanon', w', hw', hcw⟩ := canonical_ok hM hs₁ hc'
  cases hv'.symm.trans (hlearns.world_form hs a v ha)
  cases hw'.symm.trans (hlearns'.world_form hs₁ b w (hlearns.world_form hs b w hb))
  have hcv₂ := hlearns'.world_form hs₁ c v hcv
  refine ⟨c, c', s₁, s₂, hc, hc', fun h => ?_, fun h => ?_⟩
  · rw [h] at hcv₂
    exact Option.some.inj (hcv₂.symm.trans hcw)
  · rw [← h] at hcw
    exact hs₂.canonical_inj (hlearns'.isCanonical hcanon) hcanon' hcv₂ hcw

/-- Two recorded alternatives of a label differ first in results of equally many values, which the
model tells apart just when they differ without signed zeros. -/
theorem Recorded.first_difference {s : Session Store} {expand : Expander} {e : Entry}
    (hs : s.Coherent functions.model (Library.Holds Json.Finite) expand)
    (he : s.Recorded functions.model expand E e) {a b : List Label} (ha : a ∈ e.alternatives)
    (hb : b ∈ e.alternatives) (hdiffer : Differ a b) :
    ∃ (i : Nat) (l m : Label) (rs ts : List Json), a[i]? = some l ∧ b[i]? = some m ∧
      (a.take i).map (·.result) = (b.take i).map (·.result) ∧
      List.Forall₂ (fun v j => s.form? functions.model v = some j) l.result rs ∧
      List.Forall₂ (fun v j => s.form? functions.model v = some j) m.result ts ∧ rs ≠ ts ∧
      (SomeUnequal functions s l.result m.result ↔
        rs.map Json.unsigned ≠ ts.map Json.unsigned) := by
  obtain ⟨i, l, m, hl, hm, hne, hbefore⟩ := hdiffer.first
  have hprim : e.label.isPrimitive = false := by
    refine Bool.eq_false_iff.2 fun hprim => hne ?_
    rw [he.coin hprim a ha] at hl
    rw [he.coin hprim b hb] at hm
    rw [Option.some.inj (hl.symm.trans hm)]
  obtain ⟨hcanon, pl, sk, subs, _, hpl, hsk, hsubs, hpath, -⟩ := he.paths hprim a ha
  obtain ⟨hcanon', pl', sk', subs', _, hpl', hsk', hsubs', hpath', -⟩ := he.paths hprim b hb
  obtain rfl := reads_unique hpl hpl'
  cases hsk.symm.trans hsk'
  obtain ⟨sub, hsub, hlr⟩ := forall₂_some_left hsubs hl
  obtain ⟨sub', hsub', hmr⟩ := forall₂_some_left hsubs' hm
  have hlc : ∀ v ∈ l.result, ∃ c, v = .literal c ∧ s.IsCanonical c := fun v hv =>
    hcanon l (List.mem_of_getElem? hl) v (List.mem_append_right _ hv)
  have hmc : ∀ v ∈ m.result, ∃ c, v = .literal c ∧ s.IsCanonical c := fun v hv =>
    hcanon' m (List.mem_of_getElem? hm) v (List.mem_append_right _ hv)
  have hfinite : ∀ {vs : List Value} {js : List Json},
      List.Forall₂ (fun v j => s.form? functions.model v = some j) vs js →
        ∀ j ∈ js, j.Finite := by
    intro vs js hforms j hj
    obtain ⟨v, -, hv⟩ := exists_of_forall₂_mem hforms hj
    obtain ⟨c, -, hc⟩ := resolve_of_form? hv
    rw [Library.form?_model] at hc
    exact hs.world.2 c j hc
  have hlen : sub.result.length = sub'.result.length := by
    obtain ⟨st, hst, hlength⟩ := hpath.follows.result_length hsub
    obtain ⟨st', hst', hlength'⟩ := hpath'.follows.result_length hsub'
    cases hst.symm.trans hst'
    rw [hlength, hlength']
  refine ⟨i, l, m, sub.result, sub'.result, hl, hm, hbefore, hlr.result, hmr.result,
    fun heq => hne ?_, ?_⟩
  · refine hs.literals_inj hlc hmc hlr.result ?_
    rw [heq]
    exact hmr.result
  · rw [someUnequal_iff hlc hmc hlr.result hmr.result,
      exists_not_same_iff (hfinite hlr.result) (hfinite hmr.result) hlen]

/-- Canonical handles are those of the model's equality but for the signs of zeros. -/
theorem canonical_up_to_zeros (hfunctions : functions.KeepsTo Json.Finite) {s : Session Store}
    (hs : Reachable functions.model (Library.Holds Json.Finite) s) :
    (∀ a b v w, s.world.value? a = some v → s.world.value? b = some w →
      ∃ c c' s₁ s₂ t, (canonical functions.model a).run s = (.ok c, s₁) ∧
        (canonical functions.model b).run s₁ = (.ok c', s₂) ∧
        (functions.model.isEqual a b).run s.world = (.ok t, s.world) ∧
        ((c = c' ↔ t = true) ↔ (v.unsigned = w.unsigned → v = w))) ∧
    ∀ e ∈ s.entries, e.alternatives.Pairwise fun a b =>
      ∃ (i : Nat) (l m : Label) (rs ts : List Json), a[i]? = some l ∧ b[i]? = some m ∧
        (a.take i).map (·.result) = (b.take i).map (·.result) ∧
        List.Forall₂ (fun v j => s.form? functions.model v = some j) l.result rs ∧
        List.Forall₂ (fun v j => s.form? functions.model v = some j) m.result ts ∧ rs ≠ ts ∧
        (SomeUnequal functions s l.result m.result ↔
          rs.map Json.unsigned ≠ ts.map Json.unsigned) := by
  have hM := Library.meets hfunctions fun v w _ _ => Iff.refl (v.same w = true)
  have hsound := hs.sound hM
  constructor
  · intro a b v w ha hb
    obtain ⟨c, c', s₁, s₂, hc, hc', hiff⟩ := canonical_eq_iff hM hsound.coherent
      ((functions.form?_model _ a).trans ha) ((functions.form?_model _ b).trans hb)
    rcases functions.isEqual_cases s.world a b with ⟨v', w', hv, hw, hr⟩ | ⟨f, -, hnone | hnone⟩
    · cases ha.symm.trans hv
      cases hb.symm.trans hw
      refine ⟨c, c', s₁, s₂, _, hc, hc', hr, ?_⟩
      have hfinite := hsound.coherent.world.2
      rw [hiff, Json.same_iff v w (hfinite a v ha) (hfinite b w hb)]
      exact ⟨fun h => h.2, fun h => ⟨congrArg Json.unsigned, h⟩⟩
    · exact nomatch ha.symm.trans hnone
    · exact nomatch hb.symm.trans hnone
  · intro e he
    have hrec := hsound.recorded e he
    exact hrec.disjoint.imp_of_mem fun ha hb =>
      hrec.first_difference hsound.coherent ha hb

def zeros : Store :=
  ⟨[(1, ⟨.number (.float (-0.0)), 1⟩), (0, ⟨.number (.float 0.0), 1⟩)], 2⟩

theorem zeros_holds : Library.Holds Json.Finite zeros := by
  refine ⟨by simp [Store.Sound, zeros], fun h v hv => ?_⟩
  obtain ⟨o, ho, rfl⟩ := Option.map_eq_some_iff.1 hv
  have hmem := Store.mem_of_lookup ho
  simp only [zeros, List.mem_cons, Prod.mk.injEq, List.not_mem_nil, or_false] at hmem
  obtain ⟨-, rfl⟩ | ⟨-, rfl⟩ := hmem
  · exact (by decide +kernel : (Decimal.Binary.ofFloat? (-0.0)).isSome = true)
  · exact (by decide +kernel : (Decimal.Binary.ofFloat? 0.0).isSome = true)

/-- The zeros are equal to the model, and have different canonical handles. -/
theorem zeros_apart : ∃ c c' s₁ s₂,
    (canonical (Library.model []) ⟨0⟩).run (start Settings.standard zeros) = (.ok c, s₁) ∧
      (canonical (Library.model []) ⟨1⟩).run s₁ = (.ok c', s₂) ∧
      ((Library.model []).isEqual ⟨0⟩ ⟨1⟩).run zeros = (.ok true, zeros) ∧ c ≠ c' := by
  have hkeeps : Library.KeepsTo [] Json.Finite := fun f vs sk _ h => nomatch h
  have hreach : Reachable (Library.model []) (Library.Holds Json.Finite)
      (start Settings.standard zeros) := .start _ zeros_holds
  obtain ⟨c, c', s₁, s₂, t, hc, hc', ht, hiff⟩ :=
    (canonical_up_to_zeros hkeeps hreach).1 ⟨0⟩ ⟨1⟩ _ _ rfl rfl
  have hequal : ((Library.model []).isEqual ⟨0⟩ ⟨1⟩).run zeros = (.ok true, zeros) := by
    rcases Library.isEqual_cases [] zeros ⟨0⟩ ⟨1⟩ with ⟨v, w, hv, hw, hr⟩ | ⟨f, -, hnone | hnone⟩
    · cases hv
      cases hw
      rw [hr, show Json.same (.number (.float 0.0)) (.number (.float (-0.0))) = true by
        decide +kernel]
    · cases hnone
    · cases hnone
  have ht' : t = true := Except.ok.inj (Prod.mk.inj (ht.symm.trans hequal)).1
  refine ⟨c, c', s₁, s₂, hc, hc', hequal, fun heq => ?_⟩
  have hzero := hiff.1 ⟨fun _ => ht', fun _ => heq⟩ (by decide +kernel)
  exact absurd hzero (by decide +kernel)

end Session

end ChanceProof
