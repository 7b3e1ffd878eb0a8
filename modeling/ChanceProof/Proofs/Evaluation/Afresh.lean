import ChanceProof.Proofs.Evaluation.Remembered
import ChanceProof.Proofs.Evaluation.Renamed

/-!
# What is remembered is not noticed

A session that asks its model again for every distribution gets other handles each time. It differs
from a session that remembers distributions in every handle, and in none of the forms: expanding a
proof goes as the account of the session says, and an account knows nothing of what is remembered.
So both evaluations find the same, with the same terms for each label, or fail alike:
`Library.evaluate_cached`. This holds of proofs whose literals are live when the evaluation starts.
A handle that is first given out for an object of a distribution names another object when more of
them are asked for (`yesNo_astray`).
-/

namespace ChanceProof

namespace Session

variable {σ : Type}

/-- The session without the distributions that it remembers. -/
def forget (s : Session σ) : Session σ := { s with expansions := [] }

/-- Expand a proof, with a distribution that the model is asked for again. -/
def expandAfresh (M : Model σ) (p : Proof) : Action (Session σ) Label := do
  modify forget
  Session.expand M p

def expandAllAfresh (M : Model σ) (ps : List Proof) : Action (Session σ) Unit :=
  ps.forM fun p => do let _ ← expandAfresh M p

theorem run_expandAfresh (M : Model σ) (p : Proof) (s : Session σ) :
    (expandAfresh M p).run s = (Session.expand M p).run s.forget :=
  Action.run_bind_of_ok (Action.run_modify _ s)

/-- The same labels are listed with the same alternatives. -/
def TermsAlike (M : Model σ) (s t : Session σ) : Prop :=
  List.Forall₂ (fun e e' => M.ExportAlike s.world t.world e.label e'.label ∧
    List.Forall₂ (List.Forall₂ (M.ExportAlike s.world t.world)) e.alternatives e'.alternatives)
    s.entries t.entries

section

variable {M : Model σ} {I : σ → Prop} {expand : Expander} {E : Json → Json → Prop} {s t : Session σ}
  {a : Account}

theorem grows_forget (M : Model σ) (s : Session σ) : Grows M s s.forget :=
  ⟨fun _ _ h => h, fun _ _ h => h, rfl⟩

/-- An account does not tell what is remembered. -/
theorem TellsInOrder.forget (ht : s.TellsInOrder M I expand a) :
    s.forget.TellsInOrder M I expand a := by
  have hc := ht.coherent
  have hG := grows_forget M s
  exact ⟨⟨⟨hc.world, hc.known, hc.forms, hc.bindings, fun _ _ h => nomatch h⟩, ht.bindings,
    ht.entries.imp fun _ _ => hG.lists, ht.proved.imp fun _ _ => hG.saying⟩, ht.names, ht.distinct⟩

/-- Sessions with the same account list the same. -/
theorem Tells.termsAlike (hM : M.Meets I expand E) (hs : s.Tells M I expand a)
    (ht : t.Tells M I expand a) : s.TermsAlike M t := by
  have halike : ∀ {l l' : Label} {pl : PortableLabel}, s.Says M l pl → t.Says M l' pl →
      M.ExportAlike s.world t.world l l' := fun h h' =>
    Model.exportAlike_of_reads hM hs.coherent.world ht.coherent.world h.reads h'.reads
  exact forall₂_join hs.entries ht.entries fun e e' b he he' =>
    ⟨halike he.label he'.label, forall₂_join he.alternatives he'.alternatives fun _ _ _ hx hy =>
      forall₂_join hx hy fun _ _ _ => halike⟩

/-- Without memory, too, live proofs are accepted just when their theses are. -/
theorem expandAllAfresh_mirrors (hM : M.Meets I expand E) {F : Failure → Failure → Prop}
    (hF : FailsAlike M I expand F) [DecidableRel E] (hrefl : ∀ v, E v v)
    (ht : s.TellsInOrder M I expand a) {ps : List Proof} {ts : List Thesis}
    (h : List.Forall₂ (Proof.Means (M.form? s.world)) ps ts) :
    (expandAllAfresh M ps).Mirrors (Grows M) (TellsInOrder M I expand) F (fun _ _ _ => True)
      (Account.expandAll expand E ts) s a :=
  .forM (R := fun p t s => p.Means (M.form? s.world) t) (fun _ _ _ _ hG h => h.mono hG.forms)
    (fun _ _ s _ ht h => .bind_left (Action.run_modify _ s) (grows_forget M s)
      (expand_mirrors hM hF ht.forget hrefl h)) ht h

/-- Without memory nothing is hit, and there is a query for each proof that needs a distribution. -/
theorem expandAllAfresh_counts (hM : M.Meets I expand E) {ps : List Proof}
    (hr : (expandAllAfresh M ps).run s = (.ok (), t)) :
    t.queries = s.queries + ps.countP (!·.label.isPrimitive) ∧ t.hits = s.hits := by
  induction ps generalizing s with
  | nil =>
      obtain ⟨-, rfl⟩ := Action.run_pure_ok.1 hr
      exact ⟨rfl, rfl⟩
  | cons p ps ih =>
      obtain ⟨l, s₁, hp, hr⟩ := Action.run_forM_cons_ok.1 hr
      rw [run_expandAfresh] at hp
      obtain ⟨hqueries, hhits⟩ := ih hr
      rcases expand_counts hM hp with ⟨-, hprim, hquiet⟩ | ⟨-, hprim, hcounts⟩
      · rw [List.countP_cons_of_neg (by simp [hprim]), hqueries, hhits, hquiet.queries,
          hquiet.hits]
        exact ⟨rfl, rfl⟩
      · rw [List.countP_cons_of_pos (by simp [hprim])]
        cases hcounts with
        | hit hknown =>
            obtain ⟨e, he⟩ := hknown
            cases he
        | query _ _ hqueries₁ hhits₁ =>
            rw [hqueries, hhits, hqueries₁, hhits₁]
            exact ⟨by simp only [forget]; omega, rfl⟩

end

end Session

/-- Prove without remembering distributions. -/
def Model.evaluateAfresh {σ α : Type} (M : Model σ) (A : Arithmetic α) (settings : Settings)
    (limit : Nat) (ps : List Proof) : Run σ (Results α) := fun w =>
  Session.conclude M A limit ((Session.expandAllAfresh M ps).run (.start settings w))

/-- The statistics are the same but for the time that the model took, and but for hits, all of which
are queries. -/
def Stats.WithoutHits (x y : Stats) : Prop :=
  y = { x with
    modelQueries := x.modelQueries + x.cacheHits, cacheHits := 0, modelSeconds := y.modelSeconds }

/-- Live proofs are evaluated alike with what is remembered and without it, and lead to the same
terms. -/
theorem Model.evaluate_afresh {σ α : Type} {M : Model σ} {I : σ → Prop} {expand : Expander}
    {E : Json → Json → Prop} (hM : M.Meets I expand E)
    (hF : Session.FailsAlike M I expand fun f g => f.kind = g.kind) [DecidableRel E]
    (hrefl : ∀ v, E v v) (A : Arithmetic α) (settings : Settings) (limit : Nat) {w : σ} (hw : I w)
    {ps : List Proof} (hlive : ∀ p ∈ ps, p.Live (M.form? w)) :
    EvaluatedAlike M Stats.WithoutHits (M.evaluate A settings limit ps w)
        (M.evaluateAfresh A settings limit ps w) ∧
      ∀ s t, (Session.expandAll M ps).run (.start settings w) = (.ok (), s) →
        (Session.expandAllAfresh M ps).run (.start settings w) = (.ok (), t) →
        s.TermsAlike M t := by
  obtain ⟨ts, hts⟩ := exists_forall₂ fun p hp => (hlive p hp).exists_means
  have hstart : (Session.start settings w).TellsInOrder M I expand .start :=
    Session.tells_start settings hw
  rw [M.evaluate_eq, evaluateAfresh]
  rcases (Session.expandAll_mirrors hM hF hrefl hstart hts).both
    (Session.expandAllAfresh_mirrors hM hF hrefl hstart hts) with
    ⟨_, _, _, s, t, a, hx, hy, ⟨hG, hs, -⟩, hG', ht, -⟩ | ⟨f, g, k, s, t, hx, hy, hf, hg⟩
  · rw [hx, hy]
    refine ⟨(Session.conclude_alike hM hs ht A (hG'.settings.trans hG.settings.symm) limit).imp ?_,
      fun s' t' hs' ht' => ?_⟩
    · rintro _ _ ⟨stats, rfl, rfl⟩
      have hsum : s.queries + s.hits = 0 + ps.countP (!·.label.isPrimitive) :=
        Session.queries_add_hits hM hx
      have hcounts : t.queries = 0 + ps.countP (!·.label.isPrimitive) ∧ t.hits = 0 :=
        Session.expandAllAfresh_counts hM hy
      rw [Stats.WithoutHits, hcounts.1, hcounts.2, hsum]
    · cases hs'
      cases ht'
      exact hs.toTells.termsAlike hM ht.toTells
  · rw [hx, hy]
    exact ⟨.failed (hf.trans hg.symm), fun _ _ h => nomatch h⟩

/-- It is not noticed that distributions are remembered. Proofs whose literals are live at the start
are evaluated as if the model were asked for the distribution of each of them: both evaluations fail
with the same kind of failure, or export the same labels with the same probabilities and the same
bindings; and the terms of each label are the same.

Whatever the proofs are, the model answers no request twice. A log of what it answers does not
change the evaluation. The queries that are counted are as many as the requests in the log, and with
the hits as many as the proofs that need a distribution. -/
theorem Library.evaluate_cached {α : Type} {functions : Library}
    (hfunctions : functions.KeepsTo Json.Finite) (A : Arithmetic α) (settings : Settings)
    (limit : Nat) {w : Store} (hw : Library.Holds Json.Finite w) (ps : List Proof) :
    ((∀ p ∈ ps, p.Live (functions.model.form? w)) →
        EvaluatedAlike functions.model Stats.WithoutHits
            (functions.model.evaluate A settings limit ps w)
            (functions.model.evaluateAfresh A settings limit ps w) ∧
          ∀ s t, (Session.expandAll functions.model ps).run (.start settings w) = (.ok (), s) →
            (Session.expandAllAfresh functions.model ps).run (.start settings w) = (.ok (), t) →
            s.TermsAlike functions.model t) ∧
      functions.model.logged.evaluate A settings limit ps (w, []) =
        (functions.model.evaluate A settings limit ps w).map (fun r =>
          (r.1, (r.2, functions.model.answered settings ps w))) ∧
      (functions.model.answered settings ps w).Nodup ∧
      ∀ r w', functions.model.evaluate A settings limit ps w = some (.ok r, w') →
        r.stats.modelQueries = (functions.model.answered settings ps w).length ∧
          r.stats.modelQueries + r.stats.cacheHits = ps.countP (!·.label.isPrimitive) := by
  classical
  have hM := Library.meets hfunctions fun v w hv hw => Json.same_iff v w hv hw
  exact ⟨Model.evaluate_afresh hM (functions.failsAlike Json.Finite) (fun _ => rfl) A settings limit
      hw, Model.evaluate_logged _ A settings limit ps w, Model.answered_nodup hM settings hw ps,
    fun _ _ => Model.evaluate_queries hM hw⟩

namespace yesNo

/-- The distribution of the second proof is remembered from the first one. -/
def repeated : List Proof :=
  [⟨⟨⟨"yes", []⟩, [.unknown "x"]⟩, [.empty]⟩, ⟨⟨⟨"yes", []⟩, [.literal ⟨0⟩]⟩, []⟩]

/-- The last proof names the object that is interned by the second request. -/
def stray : List Proof :=
  [⟨⟨⟨"yes", []⟩, [.unknown "x"]⟩, [.empty]⟩, ⟨⟨⟨"yes", []⟩, [.unknown "x"]⟩, []⟩,
    ⟨⟨⟨"no", []⟩, [.literal ⟨1⟩]⟩, [.empty]⟩]

abbrev evaluateAfresh (ps : List Proof) : Run Store (Results ℚ) :=
  yesNo.model.evaluateAfresh (exactArithmetic fun x y => y - x ≤ 1 / 4) .standard 0 ps

theorem repeated_live {p : Proof} (hp : p ∈ repeated) :
    p.Live (yesNo.model.form? Library.truths) := by
  have hyes : yesNo.model.form? Library.truths ⟨0⟩ = some (.bool true) := by
    rw [Library.form?_model]
    rfl
  intro v hv
  have hvalue : v = .literal ⟨0⟩ ∨ v = .unknown "x" := by
    revert v p
    simp [repeated, Proof.values, Label.values, Dictionary.empty]
  rcases hvalue with rfl | rfl
  · exact ⟨_, .object hyes⟩
  · exact ⟨_, .unknown⟩

end yesNo

theorem yesNo_repeated : ∃ r v r' v',
    yesNo.evaluate yesNo.repeated Library.truths = some (.ok r, v) ∧
      yesNo.evaluateAfresh yesNo.repeated Library.truths = some (.ok r', v') ∧
      r.Alike yesNo.model v v' r' ∧ r.stats.WithoutHits r'.stats ∧
      r.stats.modelQueries + r.stats.cacheHits = 2 := by
  obtain ⟨hlive, -, -, hcounts⟩ := Library.evaluate_cached yesNo.keepsTo
    (exactArithmetic fun x y => y - x ≤ 1 / 4) .standard 0 yesNo.truths_holds yesNo.repeated
  obtain ⟨halike, -⟩ := hlive fun _ => yesNo.repeated_live
  obtain ⟨r, v, r', v', hr, hr', hsame, hstats⟩ := halike.exists_results (by decide +kernel)
  exact ⟨r, v, r', v', hr, hr', hsame, hstats, (hcounts r v hr).2⟩

/-- A handle that is given out while proofs are evaluated is given to another object when the model
is asked more often: what is accepted with the distributions remembered is rejected without. -/
theorem yesNo_astray : ∃ r w' f w₁',
    yesNo.evaluate yesNo.stray .empty = some (.ok r, w') ∧
      yesNo.evaluateAfresh yesNo.stray .empty = some (.error f, w₁') := by
  have haccepted : (yesNo.evaluate yesNo.stray .empty).map (·.1.isOk) = some true := by
    decide +kernel
  have hrejected : (yesNo.evaluateAfresh yesNo.stray .empty).map (·.1.isOk) = some false := by
    decide +kernel
  obtain ⟨⟨_ | r, w'⟩, hr, hok⟩ := Option.map_eq_some_iff.1 haccepted
  · cases hok
  obtain ⟨⟨f | _, w₁'⟩, hf, hok'⟩ := Option.map_eq_some_iff.1 hrejected
  · exact ⟨r, w', f, w₁', hr, hf⟩
  · cases hok'

end ChanceProof
