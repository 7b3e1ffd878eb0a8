import ChanceProof.Proofs.Evaluation.Final
import ChanceProof.Proofs.Solving.Support
import Mathlib.Analysis.SpecialFunctions.Log.ENNRealLog

/-!
# Labels without a derivation are impossible, and no others

A label of a session can be derived when it has an alternative whose coins may all land as they
should and whose other labels can be derived. These are the labels whose reported probability is not
zero, whatever tolerance the solver stopped with: a logarithm that leaves minus infinity grows by
more than any tolerance, so stopping early never leaves a label behind
(`SortedSession.solve_derivable`).
-/

namespace ChanceProof

/-! ## Tolerance for logarithms -/

/-- The logarithm of a probability: minus infinity for zero. -/
noncomputable def logOf (p : ℚ) : EReal := ENNReal.log (ENNReal.ofReal p)

/-- By how much a new logarithm exceeds the present one. -/
noncomputable def growth (present new : EReal) : EReal :=
  if new = ⊥ then 0 else max 0 (new - present)

/-- The logarithm of a probability grows by no more than the tolerance. -/
noncomputable def withinTolerance (tolerance : ℝ) (present new : ℚ) : Bool :=
  decide (growth (logOf present) (logOf new) ≤ tolerance)

theorem logOf_eq_bot_iff {p : ℚ} : logOf p = ⊥ ↔ p ≤ 0 := by
  rw [logOf, ENNReal.log_eq_bot_iff, ENNReal.ofReal_eq_zero]
  norm_cast

/-- No tolerance is as large as the growth from zero. -/
theorem withinTolerance_rise (tolerance : ℝ) {p : ℚ} (hp : 0 < p) :
    withinTolerance tolerance 0 p = false := by
  have hnew : logOf p ≠ ⊥ := fun h => (logOf_eq_bot_iff.1 h).not_gt hp
  have hgrowth : growth (logOf 0) (logOf p) = ⊤ := by
    rw [growth, if_neg hnew, logOf_eq_bot_iff.2 le_rfl, EReal.sub_bot hnew, max_eq_right le_top]
  rw [withinTolerance, hgrowth]
  exact decide_eq_false (EReal.coe_lt_top tolerance).not_ge

/-- To grow by no more than the tolerance is to grow by no more than the factor of which it is the
logarithm. -/
theorem withinTolerance_iff {tolerance : ℝ} (h : 0 ≤ tolerance) {present new : ℚ} :
    withinTolerance tolerance present new = true ↔
      new ≤ 0 ∨ (new : ℝ) ≤ Real.exp tolerance * present := by
  have hexp : (tolerance : EReal) = ENNReal.log (ENNReal.ofReal (Real.exp tolerance)) := by
    rw [ENNReal.log_ofReal_of_pos (Real.exp_pos tolerance), Real.log_exp]
  have hzero : (0 : EReal) ≤ tolerance := by exact_mod_cast h
  rw [withinTolerance, decide_eq_true_iff]
  by_cases hnew : new ≤ 0
  · simp only [growth, if_pos (logOf_eq_bot_iff.2 hnew), hnew, true_or, hzero]
  · rw [growth, if_neg fun h => hnew (logOf_eq_bot_iff.1 h), max_le_iff, and_iff_right hzero,
      or_iff_right hnew, EReal.sub_le_iff_le_add (.inr (EReal.coe_ne_top _))
        (.inr (EReal.coe_ne_bot _)), hexp, logOf, logOf, ← ENNReal.log_mul_add,
      ENNReal.log_le_log_iff, ← ENNReal.ofReal_mul (Real.exp_pos tolerance).le,
      ENNReal.ofReal_le_ofReal_iff']
    have hnew' : ¬((new : ℝ) ≤ 0) := by exact_mod_cast hnew
    rw [or_iff_left hnew']

theorem withinTolerance_log {factor : ℚ} (hfactor : 1 ≤ factor) :
    withinTolerance (Real.log factor)
      = fun present new => decide (new ≤ 0 ∨ new ≤ factor * present) := by
  have hpos : (0 : ℝ) < factor := by exact_mod_cast zero_lt_one.trans_le hfactor
  funext present new
  rw [Bool.eq_iff_iff, withinTolerance_iff (Real.log_nonneg (by exact_mod_cast hfactor)),
    Real.exp_log hpos, decide_eq_true_iff]
  norm_cast

namespace Session

variable {σ : Type} {M : Model σ} {settled : ℚ → ℚ → Bool} {s : Session σ}

/-! ## Derivations -/

/-- The label has an alternative whose coins are possible and whose other labels can be derived. -/
inductive Derivable (s : Session σ) (possible : Label → Prop) : Label → Prop
  | intro {l : Label} {ls : List Label} (hls : ls ∈ s.alternativesOf l)
    (hcoins : ∀ c ∈ ls, c.isPrimitive = true → possible c)
    (hcalls : ∀ c ∈ ls, c.isPrimitive = false → Derivable s possible c) : Derivable s possible l

theorem Derivable.mem_labels (hd : s.entries.Pairwise (·.label ≠ ·.label))
    {possible : Label → Prop} {l : Label} (h : s.Derivable possible l) : l ∈ s.labels := by
  obtain ⟨hls, -, -⟩ := h
  obtain ⟨e, he, heq, -⟩ := (mem_alternativesOf_iff hd).1 hls
  exact List.mem_map.2 ⟨e, he, heq⟩

/-! ## Coefficients -/

section

variable {coins : Label → ℚ} (hcoins : ∀ c, 0 ≤ coins c)

include hcoins

/-- The coefficient of an alternative is zero just when a coin in it is, or a label has no entry. -/
theorem coefficient_term (ls : List Label) :
    0 ≤ (s.term (exactArithmetic settled) coins ls).coefficient ∧
    ((s.term (exactArithmetic settled) coins ls).coefficient ≠ 0 ↔
      ∀ c ∈ ls, if c.isPrimitive then coins c ≠ 0 else (s.number? c).isSome) := by
  suffices h : ∀ t : Term ℚ, 0 ≤ t.coefficient →
      0 ≤ (ls.foldl (s.addLabel (exactArithmetic settled) coins) t).coefficient ∧
      ((ls.foldl (s.addLabel (exactArithmetic settled) coins) t).coefficient ≠ 0 ↔
        t.coefficient ≠ 0 ∧
          ∀ c ∈ ls, if c.isPrimitive then coins c ≠ 0 else (s.number? c).isSome) by
    obtain ⟨hnonneg, hne⟩ := h ⟨1, []⟩ zero_le_one
    exact ⟨hnonneg, hne.trans (and_iff_right one_ne_zero)⟩
  induction ls with
  | nil => exact fun t ht => ⟨ht, by simp⟩
  | cons l ls ih =>
      intro t ht
      rw [List.foldl_cons, List.forall_mem_cons, ← and_assoc]
      -- The other labels are added to a term that is zero if this one makes it so.
      have hstep : 0 ≤ (s.addLabel (exactArithmetic settled) coins t l).coefficient ∧
          ((s.addLabel (exactArithmetic settled) coins t l).coefficient ≠ 0 ↔ t.coefficient ≠ 0 ∧
            if l.isPrimitive then coins l ≠ 0 else (s.number? l).isSome) := by
        unfold addLabel
        cases l.isPrimitive with
        | true => exact ⟨mul_nonneg ht (hcoins l), mul_ne_zero_iff⟩
        | false =>
            cases s.number? l with
            | none => exact ⟨le_refl (0 : ℚ), by simp [Arithmetic.exact]⟩
            | some i => exact ⟨ht, by simp⟩
      obtain ⟨hnonneg, hne⟩ := ih _ hstep.1
      exact ⟨hnonneg, hne.trans (and_congr_left' hstep.2)⟩

theorem nonneg_equations : (s.equations (exactArithmetic settled) coins).Nonneg := by
  intro terms hmem t ht
  rw [equations, List.mem_toArray] at hmem
  obtain ⟨e, he, rfl⟩ := List.mem_map.1 hmem
  obtain ⟨ls, hls, rfl⟩ := List.mem_map.1 ht
  exact (coefficient_term hcoins ls).1

end

/-! ## The derivations of a session and of its equations -/

section

variable (hd : s.entries.Pairwise (·.label ≠ ·.label)) {coins : Label → ℚ}

include hd

/-- The terms of a label are those of its alternatives. -/
theorem mem_equations_iff {i : Nat} {x : Label} (hx : s.labels[i]? = some x) {t : Term ℚ} :
    t ∈ (s.equations (exactArithmetic settled) coins)[i]?.getD [] ↔
      ∃ ls ∈ s.alternativesOf x, s.term (exactArithmetic settled) coins ls = t := by
  obtain ⟨e, he, rfl⟩ := getElem?_labels_iff.1 hx
  rw [alternativesOf_of_mem hd (List.mem_of_getElem? he), equations, List.getElem?_toArray,
    List.getElem?_map, he]
  exact List.mem_map

theorem derivable_iff (hcoins : ∀ c, 0 ≤ coins c) {i : Nat} {x : Label}
    (hx : s.labels[i]? = some x) :
    (s.equations (exactArithmetic settled) coins).Derivable i ↔
      s.Derivable (fun c => coins c ≠ 0) x := by
  constructor
  · intro h
    induction h generalizing x with
    | @intro i t ht hcoefficient _ ih =>
        obtain ⟨ls, hls, rfl⟩ := (mem_equations_iff hd hx).1 ht
        have hall := (coefficient_term hcoins ls).2.1 hcoefficient
        refine .intro hls (fun c hc hprim => ?_) fun c hc hcall => ?_
        · simpa [hprim] using hall c hc
        · have hsome : (s.number? c).isSome := by simpa [hcall] using hall c hc
          obtain ⟨j, hj⟩ := Option.isSome_iff_exists.1 hsome
          have hplace := (number?_eq_some_iff hd).1 hj
          exact ih j ((mem_dependencies_term hd).2 ⟨c, hc, hcall, hplace⟩) hplace
  · intro h
    induction h generalizing i with
    | @intro x ls hls hpossible hcalls ih =>
        refine .intro ((mem_equations_iff hd hx).2 ⟨ls, hls, rfl⟩) ?_ fun j hj => ?_
        · refine (coefficient_term hcoins ls).2.2 fun c hc => ?_
          split
          · next hprim => exact hpossible c hc hprim
          · next hcall =>
              obtain ⟨j, hj⟩ := List.mem_iff_getElem?.1
                ((hcalls c hc (Bool.eq_false_iff.2 hcall)).mem_labels hd)
              rw [(number?_eq_some_iff hd).2 hj]
              rfl
        · obtain ⟨c, hc, hcall, hplace⟩ := (mem_dependencies_term hd).1 hj
          exact ih c hc hcall hplace

end

/-! ## The coins that are read -/

/-- The value of a coin is not negative. -/
theorem coinValue_nonneg {l : Label} {p : ℚ} {s s' : Session σ}
    (h : (coinValue M (exactArithmetic settled) l).run s = (.ok p, s')) : 0 ≤ p := by
  unfold coinValue at h
  split at h
  · next hp _ =>
      obtain ⟨q, t₁, hq, h⟩ := Action.run_bind_ok.1 h
      obtain ⟨w, hq, -⟩ := run_ask_ok.1 hq
      obtain ⟨v, w', -, hq⟩ := Action.run_bind_ok.1 hq
      have hv : probabilityOf v = .ok q := mapError_ok.1 (Action.run_liftM_ok.1 hq).1
      split at h
      · obtain ⟨j, t₂, -, h⟩ := Action.run_bind_ok.1 h
        split at h
        · next landed _ =>
            obtain ⟨rfl, -⟩ := Action.run_pure_ok.1 h
            exact coinWeight_nonneg (unit_of_probabilityOf hv) landed
        · obtain ⟨_, _, -, h⟩ := Action.run_bind_ok.1 h
          exact (Action.run_throw_ok h).elim
      · exact (Action.run_throw_ok h).elim
  · exact (Action.run_throw_ok h).elim

theorem knownValue_nonneg {labels : List Label} {known : List (Label × ℚ)} {s' : Session σ}
    (h : (readCoins M (exactArithmetic settled) [] labels).run s = (.ok known, s')) (c : Label) :
    0 ≤ knownValue (exactArithmetic settled) known c := by
  have hknown : ∀ l p, known.lookup l = some p → 0 ≤ p :=
    forall_known_of_readCoins (fun _ _ _ _ hrun => coinValue_nonneg hrun) h (by simp)
  rw [knownValue]
  cases hc : known.lookup c with
  | none => exact le_refl (0 : ℚ)
  | some p => exact hknown c p hc

end Session

/-! ## What is reported -/

/-- Solving reads the coins of the session, each once, and sets up the equations for these values.
Whatever the tolerance is, the probability reported for a label is not zero just when the label can
be derived in these equations: when an alternative of it has only coins whose values are not zero
and only labels that can be derived. Nothing is asked of the session but different labels, which
reachable ones have (`Session.Reachable.distinct_labels`). -/
theorem SortedSession.solve_derivable {σ : Type} {M : Model σ} {s s' : Session σ}
    (hd : s.entries.Pairwise (·.label ≠ ·.label)) (tolerance : ℝ) {limit : Nat} {r : Results ℚ}
    (h : s.sort.solve M (exactArithmetic (withinTolerance tolerance)) limit s
      = some (.ok r, s')) :
    ∃ (known : List (Label × ℚ)) (system : System ℚ),
      (Session.readCoins M (exactArithmetic (withinTolerance tolerance)) [] s.coins).run s
        = (.ok known, s') ∧
      (∀ c ∈ s.coins, ∃ p, known.lookup c = some p) ∧
      (Session.system M (exactArithmetic (withinTolerance tolerance))).run s
        = (.ok system, s') ∧
      system = s.equations (exactArithmetic (withinTolerance tolerance))
        (Session.knownValue (exactArithmetic (withinTolerance tolerance)) known) ∧
      r.labels.map Prod.fst = s.labels ∧
      ∀ i l p, r.labels[i]? = some (l, p) →
        (p ≠ 0 ↔ system.Derivable i) ∧
        (system.Derivable i ↔ s.Derivable (fun c =>
          Session.knownValue (exactArithmetic (withinTolerance tolerance)) known c ≠ 0) l) := by
  obtain ⟨system, values, passes, hsystem, hsolve, rfl⟩ := SortedSession.solve_ok h
  obtain ⟨known, hread, rfl⟩ := Session.system_ok hsystem
  have hcoins := Session.knownValue_nonneg hread
  have hsize := Session.size_graph_eq_system hsystem
  have hdependencies := Session.leads_dependencies hsystem hd
  have hvalues : values.size = s.labels.length :=
    (System.solve_outside (Session.proper_graph s) hsize
      (System.readsAlong_of_dependencies hdependencies) hsolve).1.trans
        (Session.size_system hsystem)
  refine ⟨known, _, hread, (Session.readCoins_ok hread).2.covers, hsystem, rfl, ?_,
    fun i l p hp => ⟨?_, ?_⟩⟩
  · exact List.map_fst_zip (hvalues.symm.trans values.length_toList.symm).le
  · have hvalue : System.valueAt (exactArithmetic (withinTolerance tolerance)) values i = p := by
      have hi : values[i]? = some p := by
        rw [← Array.getElem?_toList]
        exact (List.getElem?_zip_eq_some.1 hp).2
      rw [System.valueAt, hi, Option.getD_some]
    rw [← hvalue]
    exact System.solve_support (Session.nonneg_equations hcoins)
      (fun x hx => withinTolerance_rise tolerance hx) (Session.proper_graph s) hsize hdependencies
      hsolve i
  · exact Session.derivable_iff hd hcoins (List.getElem?_zip_eq_some.1 hp).1

/-! ## Tossing forever -/

namespace untilTails

/-- Besides the proofs of what is true, one that tossing ends with heads. It needs itself when heads
come first, and when tails do, a label that has no proof. -/
def withEndless : Session Store :=
  (((⟨label 0 0, [.ofList [("x", .literal ⟨0⟩), ("y", .literal ⟨0⟩)],
      .ofList [("x", .literal ⟨1⟩), ("y", .literal ⟨0⟩)]]⟩ :: proofs).forM fun p => do
      let _ ← Session.expand untilTails.model p :
    Action (Session Store) Unit).run (.start .standard Library.truths)).2

/-- A fair coin that lands so, by the handle of the outcome. -/
def fairCoin (landed : Nat) : Label := ⟨.coin ⟨2⟩, [.literal ⟨landed⟩]⟩

def fair : List (Label × ℚ) := [(fairCoin 1, 1 / 2), (fairCoin 0, 1 / 2)]

def endless : System ℚ :=
  #[[⟨1 / 2, [0]⟩, ⟨0, []⟩], [⟨1 / 2, [1]⟩, ⟨1 / 2, [2]⟩], [⟨1, []⟩]]

end untilTails

/-- When growth by a factor of two is tolerated, tossing until tails is left at three quarters, and
tossing until heads, which has no derivation from fair coins, at zero. -/
theorem withEndless_derivable : ∃ (r : Results ℚ) (s' : Session Store),
    untilTails.withEndless.sort.solve untilTails.model
      (exactArithmetic (withinTolerance (Real.log 2))) 10 untilTails.withEndless
        = some (.ok r, s') ∧
    r.labels = [(untilTails.label 0 0, 0), (untilTails.label 0 1, 3 / 4),
      (untilTails.label 1 1, 1)] ∧
    (Session.readCoins untilTails.model (exactArithmetic (withinTolerance (Real.log 2))) []
      untilTails.withEndless.coins).run untilTails.withEndless = (.ok untilTails.fair, s') ∧
    (Session.system untilTails.model (exactArithmetic (withinTolerance (Real.log 2)))).run
      untilTails.withEndless = (.ok untilTails.endless, s') ∧
    (¬untilTails.endless.Derivable 0 ∧ ¬untilTails.withEndless.Derivable (fun c =>
      Session.knownValue (exactArithmetic (withinTolerance (Real.log 2))) untilTails.fair c ≠ 0)
        (untilTails.label 0 0)) ∧
    untilTails.endless.Derivable 1 ∧ untilTails.withEndless.Derivable (fun c =>
      Session.knownValue (exactArithmetic (withinTolerance (Real.log 2))) untilTails.fair c ≠ 0)
        (untilTails.label 0 1) := by
  have hdistinct : untilTails.withEndless.entries.Pairwise (·.label ≠ ·.label) := by
    decide +kernel
  have hlog : withinTolerance (Real.log 2)
      = fun present new => decide (new ≤ 0 ∨ new ≤ 2 * present) := by
    have hcast : ((2 : ℚ) : ℝ) = 2 := Rat.cast_ofNat 2
    rw [← hcast]
    exact withinTolerance_log one_le_two
  have hlabels : (untilTails.withEndless.sort.solve untilTails.model
      (exactArithmetic (withinTolerance (Real.log 2))) 10 untilTails.withEndless).map
        (fun x => x.1.toOption.map (·.labels))
      = some (some [(untilTails.label 0 0, 0), (untilTails.label 0 1, 3 / 4),
          (untilTails.label 1 1, 1)]) := by
    rw [hlog]
    decide +kernel
  have hfair : ((Session.readCoins untilTails.model
      (exactArithmetic (withinTolerance (Real.log 2))) [] untilTails.withEndless.coins).run
        untilTails.withEndless).1 = .ok untilTails.fair := by
    rw [hlog]
    decide +kernel
  have hendless : ((Session.system untilTails.model
      (exactArithmetic (withinTolerance (Real.log 2)))).run untilTails.withEndless).1
        = .ok untilTails.endless := by
    rw [hlog]
    decide +kernel
  rcases hr : untilTails.withEndless.sort.solve untilTails.model
    (exactArithmetic (withinTolerance (Real.log 2))) 10 untilTails.withEndless with
    _ | ⟨f | r, s'⟩ <;> rw [hr] at hlabels
  · cases hlabels
  · cases hlabels
  have hreported : r.labels = [(untilTails.label 0 0, 0), (untilTails.label 0 1, 3 / 4),
      (untilTails.label 1 1, 1)] := Option.some.inj (Option.some.inj hlabels)
  obtain ⟨known, system, hread, -, hsystem, -, -, hderivable⟩ :=
    SortedSession.solve_derivable hdistinct (Real.log 2) hr
  rw [hread] at hfair
  obtain rfl := Except.ok.inj hfair
  rw [hsystem] at hendless
  obtain rfl := Except.ok.inj hendless
  obtain ⟨hzero, hforever⟩ := hderivable 0 (untilTails.label 0 0) 0 (by rw [hreported]; rfl)
  obtain ⟨hthree, hends⟩ := hderivable 1 (untilTails.label 0 1) (3 / 4) (by rw [hreported]; rfl)
  have hnever : ¬untilTails.endless.Derivable 0 := fun h => hzero.2 h rfl
  have hever : untilTails.endless.Derivable 1 := hthree.1 (by norm_num)
  exact ⟨r, s', rfl, hreported, hread, hsystem, ⟨hnever, fun h => hnever (hforever.2 h)⟩, hever,
    hends.1 hever⟩

end ChanceProof
