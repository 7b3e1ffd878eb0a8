import ChanceProof.Evaluation.Solve
import ChanceProof.Proofs.Evaluation.Recorded
import ChanceProof.Proofs.Solving.Bounded

/-!
# What the equations of a session say

Setting up the system of a session has one equation for each entry, in their order. At any values
the equation of an entry is the sum over its alternatives of what their labels are worth: a coin its
probability, a label with an entry the value found for that, and a label without one nothing. That
is all that can happen, unless a label says of a coin what no coin does: `system_ends`.
-/

namespace ChanceProof.Session

variable {σ : Type} {M : Model σ} {I : σ → Prop} {expand : Expander} {E : Json → Json → Prop}

/-! ## Coins -/

/-- The failure of a label that says of a coin what no coin does. -/
def NoCoin (f : Failure) : Prop := ∃ (c : Call) (d : CoinDefect), f = d.failure c

/-- A display is always found, if only that of the handle. -/
theorem run_display (M : Model σ) (h : Handle) (s : Session σ) :
    ∃ text s', (display M h).run s = (.ok text, s') := by
  unfold display
  rw [Action.run_tryCatch]
  rcases (do return (← ask (M.toExternal h)).print ++ " (" ++ h.display ++ ")" :
    Action (Session σ) String).run s with ⟨f | t, s'⟩
  · exact ⟨_, _, rfl⟩
  · exact ⟨_, _, rfl⟩

theorem ends_display {F : Failure → Prop} (M : Model σ) (h : Handle) (s : Session σ) :
    (display M h).Ends (fun _ _ => True) F s := by
  obtain ⟨text, s', hr⟩ := run_display M h s
  exact .of_ok hr trivial

theorem run_readProbability {w : σ} {h : Handle} {v : Json} (hv : M.form? w h = some v) (c : Call) :
    ∃ w', (M.readProbability c h).run w
      = ((probabilityOf v).mapError (CoinDefect.failure c), w') := by
  obtain ⟨w', hw'⟩ := Model.run_of_form? hv
  refine ⟨w', ?_⟩
  unfold Model.readProbability
  rw [Action.run_bind_of_ok hw']
  cases probabilityOf v <;> rfl

section Meets

variable (hM : M.Meets I expand E)

include hM

theorem keeps_readProbability (c : Call) (h : Handle) :
    (M.readProbability c h).Keeps (M.Later I) :=
  (hM.toExternal_later h).bind fun _ => .liftM _

/-- The value of a coin is the true probability of its label. -/
theorem coinValue_ends (settled : ℚ → ℚ → Bool) {s : Session σ} (hs : s.Coherent M I expand)
    {l : Label} (hl : l.isPrimitive = true) {pl : PortableLabel} (hpl : l.Reads (s.form? M) pl) :
    (coinValue M (exactArithmetic settled) l).Ends
      (fun p s' => p = pl.truthWithin expand 1 ∧ Learns M I expand s s') NoCoin s := by
  obtain ⟨f, ps, rs⟩ := pl
  obtain ⟨hfun, hps, hrs⟩ := hpl
  unfold coinValue
  split
  · next h hpar =>
      rw [hpar] at hps
      obtain ⟨v, _, hv, hnil, rfl⟩ := List.forall₂_cons_left_iff.1 hps
      cases hnil
      have hprobability : (ask (M.readProbability l.call h)).Ends
          (fun p s' => probabilityOf v = .ok p ∧ Learns M I expand s s') NoCoin s := by
        have hlearns : Learns M I expand s ((ask (M.readProbability l.call h)).run s).2 :=
          keeps_ask (keeps_readProbability hM l.call h) s
        obtain ⟨w, hread⟩ := run_readProbability (M := M) hv l.call
        rw [run_ask, hread] at hlearns
        unfold Action.Ends
        rw [run_ask, hread]
        cases hp : probabilityOf v with
        | error d => exact ⟨l.call, d, rfl⟩
        | ok p => exact ⟨rfl, hlearns⟩
      refine hprobability.bind fun p s₁ ⟨hp, hlearns⟩ => ?_
      split
      · next a hres =>
          rw [hres] at hrs
          obtain ⟨j, _, hj, hnil, rfl⟩ := List.forall₂_cons_left_iff.1 hrs
          cases hnil
          obtain ⟨w, hrun⟩ := Model.run_of_form? (hlearns.world_form hs a j hj)
          have hask := run_ask_ok.2 ⟨w, hrun, rfl⟩
          have hlearns' : Learns M I expand s₁ _ := (keeps_ask (hM.toExternal_later a)).of_run hask
          refine (Action.Ends.of_ok (P := fun j' s' => j' = j ∧ Learns M I expand s₁ s') hask
            ⟨rfl, hlearns'⟩).bind fun j' s₂ ⟨hj', hlearns₂⟩ => ?_
          subst hj'
          split
          · next landed hbool =>
              obtain rfl : j' = .bool landed := by
                cases j' <;> simp [Json.bool?] at hbool
                rw [hbool]
              refine .pure ⟨?_, hlearns.trans hlearns₂⟩
              simp only at hfun
              rw [← hfun, Call.isPrimitive_iff.1 hl, truthWithin_coin hp]
              rfl
          · exact (ends_display M a s₂).bind fun t s₃ _ => .throw ⟨l.call, _, rfl⟩
      · exact .throw ⟨l.call, _, rfl⟩
  · exact .throw ⟨l.call, _, rfl⟩

/-! ## Terms -/

omit hM in
theorem number?_some {s : Session σ} {l : Label} {i : Nat} (h : s.number? l = some i) :
    ∃ e, s.entries[i]? = some e ∧ e.label = l := by
  unfold number? at h
  obtain ⟨hlt, hlabel, -⟩ := List.findIdx?_eq_some_iff_getElem.1 h
  exact ⟨s.entries[i], List.getElem?_eq_getElem hlt, by simpa using hlabel⟩

/-- Coins that are remembered have their true probabilities. -/
def KnownCoins (M : Model σ) (expand : Expander) (s : Session σ) (known : List (Label × ℚ)) :
    Prop :=
  ∀ l p, known.lookup l = some p → ∀ pl, l.Reads (s.form? M) pl → p = pl.truthWithin expand 1

omit hM in
theorem KnownCoins.cons {s : Session σ} {known : List (Label × ℚ)} {l : Label} {p : ℚ}
    (h : KnownCoins M expand s known)
    (hp : ∀ pl, l.Reads (s.form? M) pl → p = pl.truthWithin expand 1) :
    KnownCoins M expand s ((l, p) :: known) := by
  intro l' p' hlookup
  rw [List.lookup_cons] at hlookup
  split at hlookup
  · next heq =>
      cases hlookup
      rw [beq_iff_eq.1 heq]
      exact hp
  · exact h l' p' hlookup

/-- What a label of an alternative is worth at some values of the entries. -/
def worth (expand : Expander) (settled : ℚ → ℚ → Bool) (s : Session σ) (values : Array ℚ)
    (l : Label) (sub : PortableLabel) : ℚ :=
  if l.isPrimitive then sub.truthWithin expand 1
  else (s.number? l).elim 0 (System.valueAt (exactArithmetic settled) values)

def pathWorth (expand : Expander) (settled : ℚ → ℚ → Bool) (s : Session σ) (values : Array ℚ)
    (labels : List Label) (subs : List PortableLabel) : ℚ :=
  (List.zipWith (s.worth expand settled values) labels subs).prod

section

omit hM

variable {settled : ℚ → ℚ → Bool} {s : Session σ} {values : Array ℚ}
  (hvalues : ∀ i, 0 ≤ System.valueAt (exactArithmetic settled) values i)

include hvalues

theorem worth_nonneg (l : Label) (sub : PortableLabel) :
    0 ≤ s.worth expand settled values l sub := by
  unfold worth
  split
  · exact sub.truthWithin_nonneg expand 1
  · cases s.number? l with
    | none => exact le_refl 0
    | some i => exact hvalues i

theorem pathWorth_nonneg (labels : List Label) (subs : List PortableLabel) :
    0 ≤ s.pathWorth expand settled values labels subs := by
  unfold pathWorth
  induction labels generalizing subs with
  | nil => exact zero_le_one
  | cons l labels ih =>
      cases subs with
      | nil => exact zero_le_one
      | cons sub subs =>
          rw [List.zipWith_cons_cons, List.prod_cons]
          exact mul_nonneg (worth_nonneg hvalues l sub) (ih subs)

theorem sum_pathWorth_nonneg (as : List (List Label)) (subss : List (List PortableLabel)) :
    0 ≤ (List.zipWith (s.pathWorth expand settled values) as subss).sum := by
  induction as generalizing subss with
  | nil => exact le_refl 0
  | cons a as ih =>
      cases subss with
      | nil => exact le_refl 0
      | cons subs subss =>
          rw [List.zipWith_cons_cons, List.sum_cons]
          exact add_nonneg (pathWorth_nonneg hvalues a subs) (ih subss)

end

section

variable {settled : ℚ → ℚ → Bool} {s₀ : Session σ} (h₀ : s₀.Coherent M I expand)

include h₀

/-- The term of an alternative is what its labels are worth together. -/
theorem termOf_ends {s : Session σ} (hle : Learns M I expand s₀ s)
    {known : List (Label × ℚ)} (hknown : KnownCoins M expand s₀ known) {labels : List Label}
    {subs : List PortableLabel} (hlabels : List.Forall₂ (Label.Reads (s₀.form? M)) labels subs)
    (t : Term ℚ) :
    (termOf M (exactArithmetic settled) known t labels).Ends
      (fun r s' => Learns M I expand s₀ s' ∧ KnownCoins M expand s₀ r.1 ∧
        ∀ values, System.termValue (exactArithmetic settled) values r.2 =
          System.termValue (exactArithmetic settled) values t
            * s₀.pathWorth expand settled values labels subs) NoCoin s := by
  induction hlabels generalizing s known t with
  | nil => exact .pure ⟨hle, hknown, fun values => (mul_one _).symm⟩
  | @cons l sub labels subs hl _ ih =>
      -- Whatever the label is worth, the others follow.
      have hrest : ∀ {s₁ : Session σ} {known₁ : List (Label × ℚ)} {t₁ : Term ℚ},
          Learns M I expand s₀ s₁ → KnownCoins M expand s₀ known₁ →
          (∀ values, System.termValue (exactArithmetic settled) values t₁ =
            System.termValue (exactArithmetic settled) values t
              * s₀.worth expand settled values l sub) →
          (termOf M (exactArithmetic settled) known₁ t₁ labels).Ends
            (fun r s' => Learns M I expand s₀ s' ∧ KnownCoins M expand s₀ r.1 ∧
              ∀ values, System.termValue (exactArithmetic settled) values r.2 =
                System.termValue (exactArithmetic settled) values t
                  * s₀.pathWorth expand settled values (l :: labels) (sub :: subs)) NoCoin s₁ := by
        intro s₁ known₁ t₁ hle₁ hknown₁ hstep
        refine (ih hle₁ hknown₁ t₁).imp fun r s' ⟨hle', hknown', hvalue⟩ =>
          ⟨hle', hknown', fun values => ?_⟩
        rw [hvalue, hstep, mul_assoc, pathWorth, pathWorth, List.zipWith_cons_cons,
          List.prod_cons]
      unfold termOf
      cases hprim : l.isPrimitive with
      | true =>
          have htimes : ∀ {p : ℚ}, p = sub.truthWithin expand 1 → ∀ values,
              System.termValue (exactArithmetic settled) values
                  { t with coefficient := t.coefficient * p } =
                System.termValue (exactArithmetic settled) values t
                  * s₀.worth expand settled values l sub := by
            rintro p rfl values
            rw [System.termValue_times, worth, if_pos hprim]
          rw [if_pos rfl]
          split
          · next p hp => exact hrest hle hknown (htimes (hknown l p hp sub hl))
          · refine (coinValue_ends hM settled (hle.coherent h₀) hprim (hle.reads h₀ hl)).bind
              fun p s₁ ⟨hp, hlearns⟩ => hrest (hle.trans hlearns) (hknown.cons fun pl hpl => ?_)
                (htimes hp)
            rw [← reads_unique hl hpl, hp]
      | false =>
          have hnumber : s.number? l = s₀.number? l := by rw [number?, number?, hle.entries]
          rw [if_neg Bool.false_ne_true]
          refine (Action.Ends.get (P := fun s' s'' => s' = s ∧ s'' = s) ⟨rfl, rfl⟩).bind ?_
          rintro _ _ ⟨rfl, rfl⟩
          rw [hnumber]
          split
          · next i hi =>
              refine hrest hle hknown fun values => ?_
              rw [System.termValue_depend, worth, hprim, hi]
              rfl
          · next hi =>
              refine hrest hle hknown fun values => ?_
              rw [worth, hprim, hi]
              exact (System.termValue_impossible values t).trans (mul_zero _).symm

/-- The terms of alternatives are together what the alternatives are worth. -/
theorem termsOf_ends {s : Session σ} (hle : Learns M I expand s₀ s) {known : List (Label × ℚ)}
    (hknown : KnownCoins M expand s₀ known) {as : List (List Label)}
    {subss : List (List PortableLabel)}
    (has : List.Forall₂ (List.Forall₂ (Label.Reads (s₀.form? M))) as subss) :
    (termsOf M (exactArithmetic settled) known as).Ends
      (fun r s' => Learns M I expand s₀ s' ∧ KnownCoins M expand s₀ r.1 ∧
        ∀ values, System.sumValue (exactArithmetic settled) values r.2 =
          (List.zipWith (s₀.pathWorth expand settled values) as subss).sum) NoCoin s := by
  induction has generalizing s known with
  | nil => exact .pure ⟨hle, hknown, fun _ => rfl⟩
  | @cons a subs as subss ha _ ih =>
      unfold termsOf
      refine (termOf_ends hM h₀ hle hknown ha ⟨(exactArithmetic settled).certain, []⟩).bind ?_
      rintro ⟨known₁, t⟩ s₁ ⟨hle₁, hknown₁, hvalue⟩
      refine (ih hle₁ hknown₁).bind ?_
      rintro ⟨known₂, ts⟩ s₂ ⟨hle₂, hknown₂, hsum⟩
      refine .pure ⟨hle₂, hknown₂, fun values => ?_⟩
      have hone : System.termValue (exactArithmetic settled) values
          ⟨(exactArithmetic settled).certain, []⟩ = 1 := rfl
      have hsum' := hsum values
      rw [System.sumValue_exact] at hsum' ⊢
      rw [List.map_cons, List.sum_cons, hvalue, hone, one_mul, hsum', List.zipWith_cons_cons,
        List.sum_cons]

end

/-- The terms are together what the alternatives of an entry are worth. -/
def Equates (M : Model σ) (expand : Expander) (settled : ℚ → ℚ → Bool) (s : Session σ) (e : Entry)
    (ts : List (Term ℚ)) : Prop :=
  ∀ subss, List.Forall₂ (List.Forall₂ (Label.Reads (s.form? M))) e.alternatives subss →
    ∀ values, System.sumValue (exactArithmetic settled) values ts =
      (List.zipWith (s.pathWorth expand settled values) e.alternatives subss).sum

section

variable {s₀ : Session σ} {settled : ℚ → ℚ → Bool} (h₀ : s₀.Sound M I expand E)

include h₀

theorem equationsOf_ends {s : Session σ} (hle : Learns M I expand s₀ s) {known : List (Label × ℚ)}
    (hknown : KnownCoins M expand s₀ known) {es : List Entry} (hes : ∀ e ∈ es, e ∈ s₀.entries) :
    (equationsOf M (exactArithmetic settled) known es).Ends
      (fun equations s' => Learns M I expand s₀ s' ∧
        List.Forall₂ (Equates M expand settled s₀) es equations) NoCoin s := by
  induction es generalizing s known with
  | nil => exact .pure ⟨hle, .nil⟩
  | cons e es ih =>
      obtain ⟨subss, hsubss⟩ := h₀.exists_alternatives (hes e List.mem_cons_self)
      unfold equationsOf
      refine (termsOf_ends hM h₀.coherent hle hknown hsubss).bind ?_
      rintro ⟨known₁, ts⟩ s₁ ⟨hle₁, hknown₁, hsum⟩
      refine (ih hle₁ hknown₁ fun e he => hes e (List.mem_cons_of_mem _ he)).bind
        fun rest s₂ ⟨hle₂, hequations⟩ => .pure ⟨hle₂, .cons (fun subss' hsubss' => ?_) hequations⟩
      obtain rfl := List.right_unique_forall₂' (R := List.Forall₂ (Label.Reads (s₀.form? M)))
        (fun _ _ _ => forall₂_reads_unique) hsubss hsubss'
      exact hsum

/-- The system of a session equates its entries with what their alternatives are worth. -/
theorem system_ends (settled : ℚ → ℚ → Bool) :
    (Session.system M (exactArithmetic settled)).Ends
      (fun system s' => Learns M I expand s₀ s' ∧
        List.Forall₂ (Equates M expand settled s₀) s₀.entries system.toList) NoCoin s₀ := by
  have hnone : KnownCoins M expand s₀ [] := fun _ _ h => (nomatch h)
  unfold Session.system
  refine (Action.Ends.get (P := fun s s' => s = s₀ ∧ s' = s₀) ⟨rfl, rfl⟩).bind ?_
  rintro _ _ ⟨rfl, rfl⟩
  exact (equationsOf_ends hM h₀ (.refl _) hnone
    fun _ h => h).bind fun equations s' h => .pure h

end

end Meets

end ChanceProof.Session
