import ChanceProof.Proofs.Evaluation.Alike

/-!
# A model is asked about a call only once

Over a model with a log, proofs are evaluated as they are over the model itself, and the log tells
what the model was asked: `Model.evaluate_logged`. Whatever the proofs are and however the
evaluation ends, no request is answered twice (`Model.answered_nodup`), and what is counted as
queries are the requests in the log (`Model.evaluate_queries`). For a session compares calls by
canonical handles: a call that is not remembered has arguments that no remembered call of its
function has.
-/

namespace ChanceProof

namespace Session

variable {σ : Type} {M : Model σ} {I : σ → Prop} {expand : Expander} {E : Json → Json → Prop}

/-! ## The log -/

/-- The requests in the log are those of the calls that are remembered, each once. -/
structure Logged (M : Model σ) (s : Session (σ × List Request)) : Prop where
  distinct : s.world.2.Nodup
  queries : s.queries = s.world.2.length
  known : ∀ r ∈ s.world.2, ∃ c e, s.expansions.lookup c = some e ∧ s.Poses M.logged c r

theorem logged_start (M : Model σ) (settings : Settings) (w : σ) :
    (start settings (w, [])).Logged M :=
  ⟨.nil, rfl, fun _ h => absurd h List.not_mem_nil⟩

section

variable {s s' : Session (σ × List Request)} (h : s.Logged M)

include h

theorem Logged.of_quiet (hw : I s.world.1)
    (hquiet : Quiet M.logged (fun w => I w.1) Prod.snd s s') : s'.Logged M := by
  refine ⟨by rw [hquiet.told]; exact h.distinct, by rw [hquiet.queries, hquiet.told, h.queries],
    fun r hr => ?_⟩
  rw [hquiet.told] at hr
  obtain ⟨c, e, hc, hposes⟩ := h.known r hr
  exact ⟨c, e, by rw [hquiet.expansions]; exact hc, hposes.function,
    hposes.arguments.imp fun _ _ => .mono (hquiet.world hw).2 hquiet.canonicalOf⟩

end

/-- A request that was not answered before is logged if it is answered. -/
theorem distribution_logs (s : Session (σ × List Request)) (c : Call) :
    let s' := ((distribution M.logged c).run s).2
    (s'.expansions = s.expansions ∧ s'.queries = s.queries ∧ s'.world.2 = s.world.2) ∨
      s.expansions.lookup c = none ∧ (∃ e, s'.expansions = (c, e) :: s.expansions) ∧
        s'.queries = s.queries + 1 ∧
          s'.world.2 = s.world.2 ++ [⟨c.function, M.formsOf s.world.1 c.handles⟩] := by
  intro s'
  have hs' : s' = ((distribution M.logged c).run s).2 := rfl
  rw [run_distribution, Model.run_logged] at hs'
  cases hknown : s.expansions.lookup c with
  | some e =>
      rw [hs', hknown]
      exact .inl ⟨rfl, rfl, rfl⟩
  | none =>
      rw [hs', hknown]
      rcases (M.getDistribution c).run s.world.1 with ⟨f | e, w⟩
      · exact .inl ⟨rfl, rfl, rfl⟩
      · exact .inr ⟨rfl, ⟨e, rfl⟩, rfl, rfl⟩

theorem formsOf_handles {s : Session (σ × List Request)} {c : Call} {js : List Json}
    (hpar : List.Forall₂ (s.Denotes M.logged) c.parameters js) :
    M.formsOf s.world.1 c.handles = js := by
  obtain ⟨hs, hlit, hforms⟩ := literals_of_canonical (s := s) (M := M.logged)
    (fun v hv => by
      obtain ⟨j, -, c, hc, hcanon, -⟩ := exists_of_forall₂_mem hpar.flip hv
      exact ⟨c, hc, hcanon⟩)
    (hpar.imp fun v j ⟨c, hc, _, hj⟩ => (by rw [hc]; exact hj : s.form? M.logged v = some j))
  rw [Call.handles_of_parameters hlit]
  simp only [Model.Forms, Model.form?_logged] at hforms
  exact Model.Forms.formsOf hforms

/-- No request is answered twice: what is not remembered was not asked for with these forms. -/
theorem Logged.of_distribution {s : Session (σ × List Request)} (h : s.Logged M)
    (hs : s.Coherent M.logged (fun w => I w.1) expand) {c : Call}
    {js : List Json} (hpar : List.Forall₂ (s.Denotes M.logged) c.parameters js)
    (hlearns : Learns M.logged (fun w => I w.1) expand s ((distribution M.logged c).run s).2) :
    ((distribution M.logged c).run s).2.Logged M := by
  have hgrows := hlearns.grows hs
  have hlogs := distribution_logs (M := M) s c
  generalize hs' : ((distribution M.logged c).run s).2 = s' at hgrows hlogs
  have hkept : ∀ {c : Call} {r : Request}, s.Poses M.logged c r → s'.Poses M.logged c r := fun h =>
    ⟨h.function, h.arguments.imp fun _ _ => hgrows.denotes⟩
  rcases hlogs with ⟨hexpansions, hqueries, hlog⟩ |
    ⟨hnew, ⟨e, hexpansions⟩, hqueries, hlog⟩
  · refine ⟨by rw [hlog]; exact h.distinct, by rw [hqueries, hlog, h.queries], fun r hr => ?_⟩
    rw [hlog] at hr
    obtain ⟨c', e, hc', hposes⟩ := h.known r hr
    exact ⟨c', e, by rw [hexpansions]; exact hc', hkept hposes⟩
  · rw [formsOf_handles hpar] at hlog
    have hposed : s.Poses M.logged c ⟨c.function, js⟩ := ⟨rfl, hpar⟩
    refine ⟨?_, by rw [hqueries, hlog, h.queries, List.length_append]; rfl, fun r hr => ?_⟩
    · rw [hlog]
      refine List.Nodup.append h.distinct (List.nodup_singleton _) ?_
      rintro r hr hsame
      obtain rfl := List.mem_singleton.1 hsame
      obtain ⟨c', e', hc', hposes⟩ := h.known _ hr
      rw [(hs.poses_inj hposed hposes).2 rfl, hc'] at hnew
      cases hnew
    · rw [hlog] at hr
      rw [hexpansions]
      cases List.mem_append.1 hr with
      | inl hr =>
          obtain ⟨c', e', hc', hposes⟩ := h.known r hr
          exact ⟨c', e', lookup_cons_of_new hnew hc', hkept hposes⟩
      | inr hr =>
          rw [List.mem_singleton.1 hr]
          exact ⟨c, e, by rw [List.lookup_cons, beq_self_eq_true], hkept hposed⟩

theorem quiet_logged (hM : M.Meets I expand E) :
    Frame Prod.fst M.logged M (Quiet M.logged (fun w => I w.1) Prod.snd) :=
  quiet_frame hM.logged (fun _ _ => rfl) (fun _ _ _ => rfl) (fun _ _ => rfl) fun _ _ _ => rfl

/-- Expanding a proof keeps the log, whether it is accepted or not. -/
theorem Logged.of_expand (hM : M.Meets I expand E) {s : Session (σ × List Request)}
    (h : s.Logged M) (hs : s.Coherent M.logged (fun w => I w.1) expand) (p : Proof) :
    ((Session.expand M.logged p).run s).2.Logged M := by
  have hexpands := expands (quiet_logged hM) p s
  generalize (Session.expand M.logged p).run s = r at hexpands
  cases hexpands with
  | alone hkeeps => exact h.of_quiet hs.world hkeeps
  | @asked _ s₁ _ ps hground hcompound hbefore hafter =>
      have hlearns := (keeps_groundValues hM.logged p.label _).of_run hground
      have hs₁ := hlearns.coherent hs
      obtain ⟨hcanonical, js, -, hforms⟩ := groundValues_ok hM.logged hs hground
      obtain ⟨hs', hpar, hforms'⟩ := literals_of_canonical hcanonical hforms
      have hdenotes : List.Forall₂ (s₁.Denotes M.logged) ps js :=
        ((List.forall₂_and_left _ _).2 ⟨hcanonical, hforms⟩).imp fun v j ⟨⟨c, hv, hc⟩, hj⟩ => by
          subst hv
          exact ⟨c, rfl, hc, hj⟩
      have hasks := learns_distribution hM.logged hs₁ hcompound hpar hforms'
      have hlogged := (h.of_quiet hs.world hbefore).of_distribution hs₁
        (c := ⟨p.label.call.function, ps⟩) hdenotes hasks
      exact hlogged.of_quiet (hasks.coherent hs₁).world hafter

/-- After any proofs over a model with a log, accepted or not, every request that was answered is in
the log once, and the session has counted them. -/
theorem logged_expandAll (hM : M.Meets I expand E) (settings : Settings) {w : σ} (hw : I w)
    (ps : List Proof) : ((expandAll M.logged ps).run (start settings (w, []))).2.Logged M := by
  refine (Action.forM_invariant (P := fun s => Reachable M.logged (fun w => I w.1) s ∧ s.Logged M)
    ?_ ps ⟨.start settings hw, logged_start M settings w⟩).2
  intro s p ⟨hs, h⟩
  exact ⟨hs.expand p, h.of_expand hM (hs.sound hM.logged).coherent p⟩

/-! ## The log is not noticed -/

instance true_refl {α : Type} : Std.Refl fun _ _ : α => True := ⟨fun _ => trivial⟩

instance true_trans {α : Type} : IsTrans α fun _ _ => True := ⟨fun _ _ _ _ _ => trivial⟩

theorem distribution_shows (M : Model σ) (c : Call) : Shows Prod.fst (fun _ _ => True)
    (distribution M.logged c) (distribution M c) := by
  refine shows_distribution (R := fun _ _ => True) fun s => ⟨trivial, ?_⟩
  rw [Model.run_logged]
  rcases (M.getDistribution c).run s.1 with ⟨f | e, w⟩
  · rfl
  · rfl

theorem frame_logged (M : Model σ) : Frame Prod.fst M.logged M fun _ _ => True where
  toExternal _ _ := rfl
  isEqual _ _ _ _ := rfl
  keeps_toExternal _ _ := trivial
  keeps_isEqual _ _ _ _ := trivial
  canonicalOf _ _ _ _ _ := trivial
  bindings _ _ := trivial
  records _ _ _ := trivial

/-- Solving leaves the log as it is, and does with the model what it does without the log. -/
theorem conclude_logged {α : Type} (M : Model σ) (A : Arithmetic α) (limit : Nat)
    (x : Except Failure Unit) (s : Session (σ × List Request)) :
    conclude M.logged A limit (x, s) = (conclude M A limit (x, s.seen Prod.fst)).map fun r =>
      (r.1, (r.2, s.world.2)) := by
  have hlog : Reading Prod.fst M.logged M
      (Order.Preimage world (Order.Preimage Prod.snd Eq)) := ⟨fun _ _ => rfl, fun _ _ => rfl⟩
  have hshows := conclude_shows hlog A limit x s
  rcases hr : conclude M.logged A limit (x, s) with _ | ⟨r, w, log⟩ <;> rw [hr] at hshows
  · rw [hshows]
    rfl
  · rw [hshows.2, show s.world.2 = log from hshows.1]
    rfl

end Session

namespace Model

variable {σ α : Type} (M : Model σ)

/-- The requests that are answered while proofs are evaluated. -/
def answered (settings : Settings) (ps : List Proof) (w : σ) : List Request :=
  ((Session.expandAll M.logged ps).run (.start settings (w, []))).2.world.2

/-- What is seen of the session that proofs lead to over a model with a log. -/
theorem expandAll_seen (settings : Settings) (ps : List Proof) (w : σ) :
    let r := (Session.expandAll M.logged ps).run (.start settings (w, []))
    (Session.expandAll M ps).run (.start settings w) = (r.1, r.2.seen Prod.fst) :=
  ((Session.frame_logged M).expandAll (fun c _ _ => Session.distribution_shows M c) ps
    (Session.start settings (w, []))).2

/-- Proofs are evaluated over a model with a log as they are over the model. -/
theorem evaluate_logged (A : Arithmetic α) (settings : Settings) (limit : Nat) (ps : List Proof)
    (w : σ) : M.logged.evaluate A settings limit ps (w, []) =
      (M.evaluate A settings limit ps w).map fun r =>
        (r.1, (r.2, M.answered settings ps w)) := by
  rw [evaluate_eq, evaluate_eq, M.expandAll_seen settings ps w]
  exact Session.conclude_logged M A limit _ _

variable {M} {I : σ → Prop} {expand : Expander} {E : Json → Json → Prop} (hM : M.Meets I expand E)

include hM

theorem answered_nodup (settings : Settings) {w : σ} (hw : I w) (ps : List Proof) :
    (M.answered settings ps w).Nodup :=
  (Session.logged_expandAll hM settings hw ps).distinct

/-- The queries that are counted are the requests that were answered. With the hits they are as many
as the proofs that need a distribution. -/
theorem evaluate_queries {A : Arithmetic α} {settings : Settings} {limit : Nat} {ps : List Proof}
    {w w' : σ} (hw : I w) {r : Results α}
    (h : M.evaluate A settings limit ps w = some (.ok r, w')) :
    r.stats.modelQueries = (M.answered settings ps w).length ∧
      r.stats.modelQueries + r.stats.cacheHits = ps.countP (!·.label.isPrimitive) := by
  obtain ⟨s, s', hexpand, hsolve, -⟩ := evaluate_ok_iff.1 h
  obtain ⟨_, values, passes, -, rfl⟩ := SortedSession.solve_results hsolve
  have hlogged := Session.logged_expandAll hM settings hw ps
  have hqueries : ((Session.expandAll M.logged ps).run (.start settings (w, []))).2.queries
      = s.queries := by
    rw [M.expandAll_seen settings ps w] at hexpand
    exact congrArg (fun r : Except Failure Unit × Session σ => r.2.queries) hexpand
  refine ⟨hqueries.symm.trans hlogged.queries, ?_⟩
  have hsum := Session.queries_add_hits hM hexpand
  rw [show (Session.start settings w).queries + (Session.start settings w).hits = 0 from rfl,
    Nat.zero_add] at hsum
  exact hsum

end Model

end ChanceProof
