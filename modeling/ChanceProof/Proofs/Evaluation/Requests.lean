import ChanceProof.Proofs.Evaluation.Frame
import ChanceProof.Proofs.Model.Logged

/-!
# How often a model is asked

A session asks its model for a distribution when a proof is expanded whose call was not met before,
and finds it in its memory when the call was. So after any list of accepted proofs there was a query
for each call of a compound function among the labels that were proved, and queries and hits
together are as many as the proofs that are not of coins: `Counted.of_expandAll`,
`queries_add_hits`.

Calls of a session are compared by canonical handles, which is to compare them by forms. So the
number of queries can be read off the account of a session.
-/

namespace ChanceProof

/-- What is asked about calls of compound functions, one for each label that is proved. -/
def Account.requests (a : Account) : List Request :=
  (a.proved.filter (·.function != Call.coinFunction)).map fun l => ⟨l.function, l.parameters⟩

/-- Lists have equally many different items if their items are equal at the same places. -/
theorem card_toFinset_of_forall₂ {α β : Type} [DecidableEq α] [DecidableEq β] {R : α → β → Prop}
    (hR : ∀ x y x' y', R x y → R x' y' → (x = x' ↔ y = y')) {xs : List α} {ys : List β}
    (h : List.Forall₂ R xs ys) : xs.toFinset.card = ys.toFinset.card := by
  induction h with
  | nil => rfl
  | @cons x y xs ys hxy hrest ih =>
      have hmem : x ∈ xs ↔ y ∈ ys := by
        constructor
        · intro hx
          obtain ⟨y', hy', hxy'⟩ := exists_of_forall₂_mem hrest.flip hx
          rw [(hR x y x y' hxy hxy').1 rfl]
          exact hy'
        · intro hy
          obtain ⟨x', hx', hxy'⟩ := exists_of_forall₂_mem hrest hy
          rw [(hR x y x' y hxy hxy').2 rfl]
          exact hx'
      rw [List.toFinset_cons, List.toFinset_cons]
      by_cases hx : x ∈ xs
      · rw [Finset.insert_eq_of_mem (List.mem_toFinset.2 hx),
          Finset.insert_eq_of_mem (List.mem_toFinset.2 (hmem.1 hx)), ih]
      · rw [Finset.card_insert_of_notMem (mt List.mem_toFinset.1 hx),
          Finset.card_insert_of_notMem (mt List.mem_toFinset.1 fun hy => hx (hmem.2 hy)), ih]

namespace Session

variable {σ β : Type} {M : Model σ} {I : σ → Prop} {expand : Expander} {E : Json → Json → Prop}

/-- No distribution was asked for in between, and whatever a model tells by `told` of its state is
the same as before. -/
structure Quiet (M : Model σ) (I : σ → Prop) (told : σ → β) (s s' : Session σ) : Prop where
  expansions : s'.expansions = s.expansions
  queries : s'.queries = s.queries
  hits : s'.hits = s.hits
  told : told s'.world = told s.world
  canonicalOf : ∀ h c, s.canonicalOf.lookup h = some c → s'.canonicalOf.lookup h = some c
  world : M.Later I s.world s'.world

instance (told : σ → β) : Std.Refl (Quiet M I told) :=
  ⟨fun _ => ⟨rfl, rfl, rfl, rfl, fun _ _ h => h, .refl _⟩⟩

instance (told : σ → β) : IsTrans (Session σ) (Quiet M I told) :=
  ⟨fun _ _ _ h h' => ⟨h'.expansions.trans h.expansions, h'.queries.trans h.queries,
    h'.hits.trans h.hits, h'.told.trans h.told,
    fun a c hc => h'.canonicalOf a c (h.canonicalOf a c hc),
    h.world.trans h'.world⟩⟩

/-- Questions about objects are no requests. -/
theorem quiet_frame {τ : Type} {view : σ → τ} {N : Model τ} (hM : M.Meets I expand E)
    (hexternal : ∀ h, Looks view (M.toExternal h) (N.toExternal h))
    (hequal : ∀ a b, Looks view (M.isEqual a b) (N.isEqual a b)) {told : σ → β}
    (htold : ∀ h w, told ((M.toExternal h).run w).2 = told w)
    (htold' : ∀ a b w, told ((M.isEqual a b).run w).2 = told w) :
    Frame view M N (Quiet M I told) where
  toExternal := hexternal
  isEqual a b _ := hequal a b
  keeps_toExternal h s :=
    ⟨rfl, rfl, rfl, htold h s.world, fun _ _ h => h, hM.toExternal_later h s.world⟩
  keeps_isEqual a b _ s :=
    ⟨rfl, rfl, rfl, htold' a b s.world, fun _ _ h => h, hM.isEqual_later a b s.world⟩
  canonicalOf _ _ _ _ hnew :=
    ⟨rfl, rfl, rfl, rfl, fun _ _ => lookup_cons_of_new hnew,
      .refl _⟩
  bindings _ _ := ⟨rfl, rfl, rfl, rfl, fun _ _ h => h, .refl _⟩
  records _ _ _ :=
    ⟨rfl, rfl, rfl, rfl, fun _ _ h => h, .refl _⟩

/-- An accepted proof lists its grounded label behind those proved before. -/
theorem expand_proved (hM : M.Meets I expand E) {s s' : Session σ} (hs : s.Coherent M I expand)
    {p : Proof} {l : Label} (hr : (Session.expand M p).run s = (.ok l, s')) :
    s'.proved = s.proved ++ [l] := by
  obtain ⟨s₁, hlearns, -, hends⟩ := expand_concludes hM hs p
  rw [hr] at hends
  cases hends with
  | recorded => exact congrArg (· ++ [l]) hlearns.proved

/-! ## Counting -/

/-- How the proof of a compound call is counted: as a hit if the distribution was known before, and
else as a query, after which it is known. -/
inductive Counts (c : Call) (s s' : Session σ) : Prop
  | hit (known : ∃ e, s.expansions.lookup c = some e) (expansions : s'.expansions = s.expansions)
    (queries : s'.queries = s.queries) (hits : s'.hits = s.hits + 1)
  | query (fresh : s.expansions.lookup c = none)
    (expansions : ∃ e, s'.expansions = (c, e) :: s.expansions)
    (queries : s'.queries = s.queries + 1) (hits : s'.hits = s.hits)

theorem distribution_counts {s s' : Session σ} {c : Call} {d : Distribution}
    (hr : (distribution M c).run s = (.ok d, s')) : Counts c s s' := by
  rw [run_distribution] at hr
  cases hknown : s.expansions.lookup c with
  | some e =>
      rw [hknown] at hr
      cases hr
      exact .hit ⟨e, hknown⟩ rfl rfl rfl
  | none =>
      rw [hknown] at hr
      rcases hget : (M.getDistribution c).run s.world with ⟨f | e, w⟩ <;> rw [hget] at hr
      · cases hr
      · cases hr
        exact .query hknown ⟨e, rfl⟩ rfl rfl

/-- An accepted proof of a coin is not counted, and any other once. -/
theorem expand_counts (hM : M.Meets I expand E) {s s' : Session σ} {p : Proof} {l : Label}
    (hr : (Session.expand M p).run s = (.ok l, s')) :
    (l.isPrimitive = true ∧ p.label.isPrimitive = true ∧ Quiet M I (fun _ => ()) s s') ∨
      (l.isPrimitive = false ∧ p.label.isPrimitive = false ∧ Counts l.call s s') := by
  have hR : Frame id M M (Quiet M I fun _ => ()) :=
    quiet_frame hM (fun _ _ => rfl) (fun _ _ _ => rfl) (fun _ _ => rfl) fun _ _ _ => rfl
  have hexpands := expands hR p s
  rw [hr] at hexpands
  cases hexpands with
  | alone hkeeps hcoin =>
      obtain ⟨hl, hp⟩ := hcoin l rfl
      exact .inl ⟨hl, hp, hkeeps⟩
  | @asked _ s₁ _ ps _ hcompound hbefore hafter hanswered =>
      obtain ⟨hcall, d, s₂, hd⟩ := hanswered l rfl
      refine .inr ⟨by rw [Label.isPrimitive, hcall]; exact hcompound, hcompound, ?_⟩
      rw [← hcall, hd] at hafter
      have hafter : Quiet M I (fun _ => ()) s₂ s' := hafter
      cases distribution_counts hd with
      | hit hknown hexpansions hqueries hhits =>
          rw [hbefore.expansions] at hknown hexpansions
          exact .hit hknown (hafter.expansions.trans hexpansions)
            (by rw [hafter.queries, hqueries, hbefore.queries])
            (by rw [hafter.hits, hhits, hbefore.hits])
      | query hfresh hexpansions hqueries hhits =>
          rw [hbefore.expansions] at hfresh hexpansions
          exact .query hfresh (by rw [hafter.expansions]; exact hexpansions)
            (by rw [hafter.queries, hqueries, hbefore.queries])
            (by rw [hafter.hits, hhits, hbefore.hits])

/-- Queries and hits together are as many as the accepted proofs that are not of coins. -/
theorem queries_add_hits (hM : M.Meets I expand E) {s s' : Session σ} {ps : List Proof}
    (hr : (expandAll M ps).run s = (.ok (), s')) :
    s'.queries + s'.hits = s.queries + s.hits + ps.countP (!·.label.isPrimitive) := by
  induction ps generalizing s with
  | nil =>
      obtain ⟨-, rfl⟩ := Action.run_pure_ok.1 hr
      rfl
  | cons p ps ih =>
      obtain ⟨l, s₁, hp, hr⟩ := Action.run_forM_cons_ok.1 hr
      have hstep := ih hr
      rcases expand_counts hM hp with ⟨-, hprim, hquiet⟩ | ⟨-, hprim, hcounts⟩
      · rw [List.countP_cons_of_neg (by simp [hprim])]
        rw [hquiet.queries, hquiet.hits] at hstep
        exact hstep
      · rw [List.countP_cons_of_pos (by simp [hprim])]
        cases hcounts with
        | hit _ _ hqueries hhits => omega
        | query _ _ hqueries hhits => omega

/-- The calls of compound functions among the labels that are proved, one for each proof. -/
def calls (s : Session σ) : List Call := (s.proved.filter (!·.isPrimitive)).map (·.call)

/-- What is remembered are the distributions of the calls that are proved, and there was one query
for each of them. -/
structure Counted (s : Session σ) : Prop where
  known : ∀ c, s.expansions.lookup c = none ↔ c ∉ s.calls
  queries : s.queries = s.calls.toFinset.card

theorem counted_start (settings : Settings) (w : σ) : (start settings w).Counted :=
  ⟨fun _ => ⟨fun _ => List.not_mem_nil, fun _ => rfl⟩, rfl⟩

theorem Counted.of_expand (hM : M.Meets I expand E) {s s' : Session σ} (hs : s.Coherent M I expand)
    (h : s.Counted) {p : Proof} {l : Label} (hr : (Session.expand M p).run s = (.ok l, s')) :
    s'.Counted := by
  have hproved := expand_proved hM hs hr
  rcases expand_counts hM hr with ⟨hprim, -, hquiet⟩ | ⟨hprim, -, hcounts⟩
  · have hcalls : s'.calls = s.calls := by
      rw [calls, hproved, List.filter_append, List.filter_cons_of_neg (by simp [hprim])]
      simp [calls]
    exact ⟨fun c => by rw [hquiet.expansions, hcalls]; exact h.known c,
      by rw [hquiet.queries, hcalls]; exact h.queries⟩
  · have hcalls : s'.calls = s.calls ++ [l.call] := by
      rw [calls, hproved, List.filter_append, List.filter_cons_of_pos (by simp [hprim])]
      simp [calls]
    have hcard : s'.calls.toFinset = insert l.call s.calls.toFinset := by
      rw [hcalls, List.toFinset_append, Finset.union_comm]
      rfl
    cases hcounts with
    | hit hknown hexpansions hqueries =>
        have hmem : l.call ∈ s.calls := by
          by_contra hnot
          obtain ⟨e, he⟩ := hknown
          rw [(h.known _).2 hnot] at he
          cases he
        refine ⟨fun c => ?_, ?_⟩
        · rw [hexpansions, hcalls, h.known, List.mem_append, List.mem_singleton, not_or]
          exact ⟨fun hc => ⟨hc, fun heq => hc (heq ▸ hmem)⟩, And.left⟩
        · rw [hqueries, hcard, Finset.insert_eq_of_mem (List.mem_toFinset.2 hmem)]
          exact h.queries
    | query hfresh hexpansions hqueries =>
        obtain ⟨e, he⟩ := hexpansions
        have hmem := (h.known _).1 hfresh
        refine ⟨fun c => ?_, ?_⟩
        · rw [he, hcalls, List.lookup_cons, List.mem_append, List.mem_singleton, not_or, ← h.known]
          by_cases heq : c = l.call
          · simp [heq]
          · simp [heq, beq_false_of_ne heq]
        · rw [hqueries, hcard, Finset.card_insert_of_notMem fun hc => hmem (List.mem_toFinset.1 hc),
            h.queries]

theorem Counted.of_expandAll (hM : M.Meets I expand E) {s s' : Session σ} (hs : Reachable M I s)
    (h : s.Counted) {ps : List Proof} (hr : (Session.expandAll M ps).run s = (.ok (), s')) :
    s'.Counted := by
  refine (Action.forM_invariant_of_ok (P := fun s => Reachable M I s ∧ s.Counted) ?_ ⟨hs, h⟩ hr).2
  intro s p l s' ⟨hs, h⟩ hl
  have hexpand := hs.expand p
  rw [hl] at hexpand
  exact ⟨hexpand, h.of_expand hM (hs.sound hM).coherent hl⟩

/-! ## Counting by forms -/

/-- The call has canonical arguments, and asks for this. -/
structure Poses (M : Model σ) (s : Session σ) (c : Call) (r : Request) : Prop where
  function : c.function = r.function
  arguments : List.Forall₂ (s.Denotes M) c.parameters r.arguments

/-- Calls are equal just when they ask for the same. -/
theorem Coherent.poses_inj {s : Session σ} (hs : s.Coherent M I expand) {c c' : Call}
    {r r' : Request} (h : s.Poses M c r) (h' : s.Poses M c' r') : c = c' ↔ r = r' := by
  have hposed : ∀ {c : Call} {r : Request}, s.Poses M c r →
      s.Says M ⟨c, []⟩ ⟨r.function, r.arguments, []⟩ := fun h => ⟨h.function, h.arguments, .nil⟩
  have hinj := hs.says_inj (hposed h) (hposed h')
  obtain ⟨f, vs⟩ := r
  obtain ⟨f', vs'⟩ := r'
  simpa using hinj

theorem Tells.calls {s : Session σ} {a : Account} (ht : s.Tells M I expand a) :
    List.Forall₂ (s.Poses M) s.calls a.requests :=
  List.forall₂_map_left_iff.2 (List.forall₂_map_right_iff.2
    ((forall₂_compound ht.proved).imp fun _ _ hl => ⟨hl.function, hl.parameters⟩))

/-- There was one query for each different request. -/
theorem Counted.queries_eq {s : Session σ} {a : Account} (h : s.Counted)
    (ht : s.Tells M I expand a) : s.queries = a.requests.toFinset.card := by
  rw [h.queries]
  exact card_toFinset_of_forall₂ (fun _ _ _ _ => ht.coherent.poses_inj) ht.calls

end Session

end ChanceProof
