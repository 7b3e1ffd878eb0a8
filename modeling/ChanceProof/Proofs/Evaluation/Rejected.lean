import ChanceProof.Proofs.Evaluation.Related
import ChanceProof.Proofs.Evaluation.Submission

/-!
# What a rejected proof leaves behind

An expansion that fails is not undone. It has recorded no alternative and proved no label, but
unknowns keep the values that were found for them, and a label whose alternatives turned out to be
ambiguous stays listed. Other proofs do not notice: as long as they do not use names that were
bound in vain, they are accepted or rejected as if the proof had never been submitted, and the
session is solved to the same values (`rejected_leaves`).
-/

namespace ChanceProof

/-! ## Accounts with other bindings -/

/-- The unknown has none of these names. -/
def Referent.Avoids (N : String → Prop) (r : Referent) : Prop := ∀ x, r = .unknown x → ¬N x

theorem Proof.Means.avoids {φ : Handle → Option Json} {p : Proof} {t : Thesis} (h : p.Means φ t)
    {N : String → Prop} (hN : ∀ x ∈ p.unknowns, ¬N x) :
    t.Related (fun r r' => r = r' ∧ r.Avoids N) t := by
  have hvalue : ∀ {v : Value} {r : Referent}, v ∈ p.values → v.Means φ r → r.Avoids N := by
    rintro v _ hv hvr x rfl
    cases hvr with
    | unknown => exact hN x (List.mem_filterMap.2 ⟨_, hv, rfl⟩)
  have hvalues : ∀ {vs : List Value} {rs : List Referent}, (∀ v ∈ vs, v ∈ p.values) →
      List.Forall₂ (Value.Means φ) vs rs →
      List.Forall₂ (fun r r' => r = r' ∧ r.Avoids N) rs rs := fun hvs h =>
    List.forall₂_same.2 fun r hr =>
      let ⟨v, hv, hvr⟩ := exists_of_forall₂_mem h hr
      ⟨rfl, hvalue (hvs v hv) hvr⟩
  refine ⟨⟨rfl, hvalues (fun v hv => ?_) h.label.parameters,
    hvalues (fun v hv => ?_) h.label.result⟩, List.forall₂_same.2 fun m' hm' =>
      List.forall₂_same.2 fun e' he' => ?_⟩
  · exact List.mem_append_left _ (List.mem_append_left _ hv)
  · exact List.mem_append_left _ (List.mem_append_right _ hv)
  · obtain ⟨m, hm, hmm⟩ := exists_of_forall₂_mem h.mappings hm'
    obtain ⟨e, he, -, hee⟩ := exists_of_forall₂_mem hmm he'
    exact ⟨rfl, rfl, hvalue (List.mem_append_right _
      (List.mem_flatMap.2 ⟨m, hm, List.mem_map.2 ⟨e, he, rfl⟩⟩)) hee⟩

namespace Account

/-- The accounts are the same but for the values of these names. -/
structure AgreesBut (N : String → Prop) (a b : Account) : Prop where
  entries : b.entries = a.entries
  proved : b.proved = a.proved
  bindings : ∀ x, ¬N x → b.bindings.lookup x = a.bindings.lookup x

section

variable {N : String → Prop}

theorem AgreesBut.resolve {a b : Account} (h : AgreesBut N a b) {r : Referent} (hr : r.Avoids N) :
    b.resolve r = a.resolve r := by
  cases r with
  | object => rfl
  | unknown x => rw [Account.resolve, Account.resolve, h.bindings x (hr x rfl)]

/-- The operations do the same on accounts that agree but for these names. -/
def AlikeBut (N : String → Prop) {α β : Type} (Q : α → β → Prop) (x : Action Account α)
    (y : Action Account β) : Prop :=
  ∀ a b, AgreesBut N a b → x.Mirrors Extends (AgreesBut N) Eq (fun u v _ => Q u v) y a b

theorem relates_alikeBut (E : Json → Json → Prop) [DecidableRel E] :
    Relates E (fun r r' => r = r' ∧ r.Avoids N) (AlikeBut N) where
  pure hQ _ _ hab := .pure hab hQ
  throw f _ _ hab := .throw hab rfl
  bind h _ hf a b hab := (h a b hab).bind fun u v a' b' _ hab' huv => hf u v huv a' b' hab'
  object v := ⟨rfl, fun _ h => (nomatch h)⟩
  ground := by
    rintro r _ ⟨rfl, hr⟩ a b hab
    refine .get ?_
    rw [hab.resolve hr]
    split
    · exact .pure hab rfl
    · exact .throw hab rfl
  unify := by
    rintro p _ m _ ⟨rfl, hp⟩ ⟨rfl, hm⟩ a b hab
    have hbind : ∀ (x : String) (v : Json), Action.Mirrors Extends (AgreesBut N) Eq
        (fun _ _ _ => True)
        (modify fun a => { a with bindings := a.bindings ++ [(x, v)] } : Action Account Unit)
        (modify fun a => { a with bindings := a.bindings ++ [(x, v)] } : Action Account Unit)
        a b := by
      refine fun x v => .of_ok rfl rfl (List.prefix_append _ _)
        ⟨hab.entries, hab.proved, fun y hy => ?_⟩ trivial
      rw [List.lookup_append, List.lookup_append, hab.bindings y hy]
    refine .get ?_
    rw [hab.resolve hp, hab.resolve hm]
    split
    · split
      · exact .pure hab trivial
      · exact .throw hab rfl
    · exact hbind _ _
    · exact hbind _ _
    · split
      · exact .pure hab trivial
      · exact .throw hab rfl

theorem records_alikeBut : Relates.Records (AlikeBut N) where
  add l as a b hab := by
    have hnumber : b.number? l = a.number? l := by rw [number?, number?, hab.entries]
    have halternatives : b.alternativesOf l = a.alternativesOf l := by
      rw [alternativesOf, alternativesOf, hab.entries]
    have hentry : AgreesBut N (a.withEntry l) (b.withEntry l) := by
      refine ⟨?_, ?_, ?_⟩
      · rw [entries_withEntry, entries_withEntry, hnumber, hab.entries]
      · rw [proved_withEntry, proved_withEntry, hab.proved]
      · rw [bindings_withEntry, bindings_withEntry]
        exact hab.bindings
    have hgrow : Extends a ((add l as).run a).2 := extends_add l as a
    have hx := run_add a l as
    have hy := run_add b l as
    rw [halternatives] at hy
    rw [hx] at hgrow
    split at hx
    · next hapart =>
        rw [if_pos hapart] at hy hgrow
        exact .of_ok hx hy hgrow
          ⟨congrArg (List.map _) hentry.entries, hentry.proved, hentry.bindings⟩
          trivial
    · next hapart =>
        rw [if_neg hapart] at hy hgrow
        exact .of_error hx hy hgrow hentry rfl
  prove l a b hab := .of_ok rfl rfl List.prefix_rfl
    ⟨hab.entries, congrArg (· ++ _) hab.proved, hab.bindings⟩ trivial

/-- Theses that avoid the names are accepted and rejected alike. -/
theorem AgreesBut.attempts (expand : Expander) (E : Json → Json → Prop) [DecidableRel E]
    {a b : Account} (h : AgreesBut N a b) {ts : List Thesis}
    (hts : ∀ t ∈ ts, t.Related (fun r r' => r = r' ∧ r.Avoids N) t) :
    (Action.attempts (Account.expand expand E) ts a).1
        = (Action.attempts (Account.expand expand E) ts b).1 ∧
      AgreesBut N (Action.attempts (Account.expand expand E) ts a).2
        (Action.attempts (Account.expand expand E) ts b).2 := by
  have hsame := Action.Mirrors.attempts (G := Extends) (T := AgreesBut N) (F := Eq)
    (Q := fun u v _ => u = v)
    (R := fun t t' _ => Thesis.Related (fun r r' => r = r' ∧ r.Avoids N) t t')
    (fun _ _ _ _ _ h => h)
    (fun _ _ a b hab h => (relates_alikeBut E).expand records_alikeBut h expand a b hab)
    h (List.forall₂_same.2 hts)
  exact ⟨hsame.1, hsame.2.2⟩

end

end Account

namespace Session

variable {σ α : Type} {M : Model σ} {I : σ → Prop} {expand : Expander} {E : Json → Json → Prop}

/-- Submit proofs, whatever becomes of each, and solve the session. -/
def completed (M : Model σ) (A : Arithmetic α) (limit : Nat) (ps : List Proof) :
    Run (Session σ) (Results α) := fun s =>
  let t := (Action.attempts (Session.expand M) ps s).2
  t.sort.solve M A limit t

/-- How a rejected proof changes a session: it records nothing, and binds nothing but names of its
own. Its label may stay listed if it was ambiguous. -/
structure Rejects (M : Model σ) (I : σ → Prop) (expand : Expander) (p : Proof) (f : Failure)
    (s s' : Session σ) : Prop where
  grows : Grows M s s'
  coherent : s'.Coherent M I expand
  proved : s'.proved = s.proved
  terms : ∀ l, s'.alternativesOf l = s.alternativesOf l
  bound : ∀ x h, s.binding? x = some h → s'.binding? x = some h
  unbound : ∀ x ∉ p.unknowns, s'.binding? x = s.binding? x
  entries : s'.entries = s.entries ∨
    f.kind = Account.ambiguous.kind ∧ ∃ g ∉ s.labels, s'.entries = s.entries ++ [⟨g, []⟩]

theorem Rejects.withEntry {p : Proof} {f : Failure} {s s' : Session σ}
    (h : Rejects M I expand p f s s') (hentries : s'.entries = s.entries) (g : Label)
    (hkind : f.kind = Account.ambiguous.kind) : Rejects M I expand p f s (s'.withEntry g) := by
  have hterms : ∀ l, (s'.withEntry g).alternativesOf l = s.alternativesOf l := fun l =>
    (alternativesOf_withEntry s' g l).trans (h.terms l)
  revert hterms
  unfold Session.withEntry
  split
  · next hnone =>
      refine fun hterms => ⟨h.grows.trans (grows_recording s' _ _), h.coherent.recording _ _,
        h.proved, hterms, h.bound, h.unbound,
        .inr ⟨hkind, g, fun hg => ?_, congrArg (· ++ _) hentries⟩⟩
      obtain ⟨e, he, rfl⟩ := mem_labels.1 hg
      rw [← hentries] at he
      exact number?_isNone_iff.1 hnone e he rfl
  · exact fun _ => h

theorem rejects_of_run (hM : M.Meets I expand E) {s s' : Session σ} (hs : s.Coherent M I expand)
    {p : Proof} (hp : Proof.check p.label p.mappings = .ok ()) {f : Failure}
    (hr : (Session.expand M p).run s = (.error f, s')) : Rejects M I expand p f s s' := by
  obtain ⟨s₁, hlearns, hfinds, hends⟩ := expand_concludes hM hs p
  obtain ⟨found, hfound, hnames⟩ := hfinds hp
  have hbound : ∀ x, s₁.binding? x = (s.binding? x).or (found.lookup x) := fun x => by
    rw [binding?, binding?, hfound, List.lookup_append]
  have hrejects : Rejects M I expand p f s s₁ := by
    refine ⟨hlearns.grows hs, hlearns.coherent hs, hlearns.proved, hlearns.alternativesOf,
      fun x h hx => ?_, fun x hx => ?_, .inl hlearns.entries⟩
    · rw [hbound, hx]
      rfl
    · have hnone : found.lookup x = none := by
        refine List.lookup_eq_none_iff.2 fun b hb => ?_
        have hne : x ≠ b.1 := fun h => hx (h ▸ hnames b hb)
        simpa using hne
      rw [hbound, hnone, Option.or_none]
  rw [hr] at hends
  cases hends with
  | failed => exact hrejects
  | ambiguous g hkind => exact hrejects.withEntry hlearns.entries g hkind

/-! ## Going on -/

/-- The account of a session after a rejected proof is that of before but for the bindings. -/
theorem Rejects.tells {p : Proof} {f : Failure} {s s' : Session σ}
    (h : Rejects M I expand p f s s') {a : Account} (ht : s.Tells M I expand a)
    (hentries : s'.entries = s.entries) (hdistinct : s'.boundNames.Nodup) :
    ∃ bs, s'.TellsInOrder M I expand { a with bindings := bs } ∧
      Account.AgreesBut (fun x => s'.binding? x ≠ s.binding? x) a { a with bindings := bs } := by
  obtain ⟨bs, hbound⟩ := h.coherent.exists_boundInOrder hdistinct
  have hbs := hbound.sameBound
  refine ⟨bs, ⟨⟨h.coherent, hbs, ?_, ?_⟩, hbound.names, hdistinct⟩, rfl, rfl, fun x hx => ?_⟩
  · rw [hentries]
    exact ht.entries.imp fun _ _ => h.grows.lists
  · rw [h.proved]
    exact ht.proved.imp fun _ _ => h.grows.saying
  · have hsame : s'.bindings.lookup x = s.bindings.lookup x := Decidable.not_not.1 hx
    rcases hbs x with ⟨hx', hbs'⟩ | ⟨c, v, hx', hbs', hform⟩ <;>
      rcases ht.bindings x with ⟨hx, ha⟩ | ⟨d, w, hx, ha, hform'⟩ <;> rw [hx, hx'] at hsame
    · rw [hbs', ha]
    · cases hsame
    · cases hsame
    · cases hsame
      rw [hbs', ha, ← hform, h.grows.forms _ _ hform']

/-- A rejected proof leaves the proved labels and the terms of every label as they are, and the
bindings of all names that are not its own. The labels stay those with a proof, but for one that was
found to be ambiguous. If the labels stay, then live proofs that use no name bound in vain are
accepted and rejected as without the rejected one, and the session is solved alike. -/
theorem rejected_leaves (hM : M.Meets I expand E) (hrefl : ∀ v, E v v) {s s' : Session σ}
    (hs : Reachable M I s) {p : Proof} (hp : Proof.check p.label p.mappings = .ok ()) {f : Failure}
    (hr : (Session.expand M p).run s = (.error f, s')) :
    s'.proved = s.proved ∧ (∀ l, s'.alternativesOf l = s.alternativesOf l) ∧
      (∀ x h, s.binding? x = some h → s'.binding? x = some h) ∧
      (∀ x ∉ p.unknowns, s'.binding? x = s.binding? x) ∧
      (s'.labels = s.labels ∨
        f.kind = Account.ambiguous.kind ∧ ∃ g ∉ s.labels, s'.labels = s.labels ++ [g]) ∧
      (∀ l ∈ s'.proved, l ∈ s'.labels) ∧
      (s'.labels = s.labels → ∀ ps : List Proof, (∀ q ∈ ps, q.Live (M.form? s.world)) →
        (∀ q ∈ ps, ∀ x ∈ q.unknowns, s'.binding? x = s.binding? x) →
        (Action.attempts (Session.expand M) ps s').1 = (Action.attempts (Session.expand M) ps s).1 ∧
        ∀ (A : Arithmetic α) (limit : Nat), SolvedAlike M
          (fun bs bs' => ∀ x, s'.binding? x = s.binding? x → bs'.lookup x = bs.lookup x)
          (completed M A limit ps s) (completed M A limit ps s')) := by
  have hrejects := rejects_of_run hM (hs.sound hM).coherent hp hr
  have hreach : Reachable M I s' := by
    have := hs.expand p
    rwa [hr] at this
  refine ⟨hrejects.proved, hrejects.terms, hrejects.bound, hrejects.unbound, ?_,
    hreach.listed hM, fun hlabels ps hlive hnames => ?_⟩
  · refine hrejects.entries.imp (congrArg (List.map _)) fun ⟨hkind, g, hg, heq⟩ =>
      ⟨hkind, g, hg, ?_⟩
    rw [labels, heq, List.map_append]
    rfl
  classical
  have hentries : s'.entries = s.entries := hrejects.entries.resolve_right fun ⟨_, g, _, heq⟩ => by
    have hlength := congrArg List.length hlabels
    rw [labels, heq, labels] at hlength
    simp at hlength
  obtain ⟨a, ht⟩ := hs.exists_account hM
  obtain ⟨bs, ht', hab⟩ := hrejects.tells ht.toTells hentries (hreach.distinct hM)
  obtain ⟨ts, hts⟩ := exists_forall₂ fun q hq => (hlive q hq).exists_means
  have hts' := hts.imp fun _ _ h => h.mono hrejects.grows.forms
  obtain ⟨hsame, hG, ht₁⟩ := attempts_mirrors hM hrefl ht hts
  obtain ⟨hsame', hG', ht₁'⟩ := attempts_mirrors hM hrefl ht' hts'
  obtain ⟨hagree, hab'⟩ := hab.attempts expand E fun t htmem => by
    obtain ⟨q, hq, hqt⟩ := exists_of_forall₂_mem hts htmem
    exact hqt.avoids fun x hx => Decidable.not_not.2 (hnames q hq x hx)
  refine ⟨by rw [hsame', hsame, hagree], fun A limit => ?_⟩
  refine (ht₁.solvedAlike hM A ht₁'.toTells ?_ hab'.entries hab'.proved limit).imp ?_
  · rw [hG'.settings, hG.settings, hrejects.grows.settings]
  · rintro _ _ ⟨rfl, rfl⟩ x hx
    exact hab'.bindings x (Decidable.not_not.2 hx)

end Session

/-! ## A pair of which one half fits -/

/-- One true value, and a pair of them. -/
def truePair : Library :=
  [("one", fun _ => .done [.literal (.bool true)]),
    ("pair", fun _ => .done [.literal (.bool true), .literal (.bool true)])]

namespace truePair

theorem expand_ok {f : String} {vs : List Json} {sk : Sketch} (h : truePair.expand f vs = .ok sk) :
    sk = ⟨[], [.object (.bool true)]⟩ ∨
      sk = ⟨[], [.object (.bool true), .object (.bool true)]⟩ := by
  unfold Library.expand truePair at h
  rw [List.lookup_cons, List.lookup_cons] at h
  split at h
  · cases h
  · next hfun =>
      split at hfun
      · cases hfun
        exact .inl (Except.ok.inj h).symm
      · split at hfun
        · cases hfun
          exact .inr (Except.ok.inj h).symm
        · cases hfun

theorem lawful : truePair.model.Lawful (Library.Holds Json.Plain) truePair.expand := by
  refine Library.lawful fun f vs sk _ h item hitem v hv => ?_
  subst hv
  obtain rfl : v = .bool true := by
    rcases expand_ok h with rfl | rfl
    · simpa using hitem
    · simpa using hitem
  exact ⟨trivial, rfl⟩

def start : Session Store := .start .standard Library.truths

theorem start_reachable : Session.Reachable truePair.model (Library.Holds Json.Plain) start :=
  .start _ Library.truths_holds

/-- The first value is bound before the second one does not fit. -/
def clash : Proof := ⟨⟨⟨"pair", []⟩, [.unknown "x", .literal ⟨1⟩]⟩, [.empty]⟩

def twice : Proof := ⟨⟨⟨"one", []⟩, [.literal ⟨0⟩]⟩, [.empty, .empty]⟩

/-- Object number two is there once a pair was asked for. -/
def early : Proof := ⟨⟨⟨"one", [.literal ⟨2⟩]⟩, [.literal ⟨0⟩]⟩, [.empty]⟩

def clashed : Except Failure Label × Session Store :=
  (Session.expand truePair.model clash).run start

theorem clash_rejected : ∃ f,
    (Session.expand truePair.model clash).run start = (.error f, clashed.2) := by
  have hrejected : clashed.1.isOk = false := by decide +kernel
  cases hclashed : clashed.1 with
  | ok l =>
      rw [hclashed] at hrejected
      cases hrejected
  | error f => exact ⟨f, show clashed = _ by rw [← hclashed]⟩

end truePair

/-- A rejected proof can be noticed: a name is bound, an ambiguous label is listed, and an object is
live that was not before. -/
theorem truePair_noticed :
    truePair.start.binding? "x" = none ∧ truePair.clashed.1.isOk = false ∧
      truePair.clashed.2.binding? "x" = some ⟨2⟩ ∧
      (Action.attempts (Session.expand truePair.model) [truePair.twice] truePair.start).1
        = [false] ∧
      (Action.attempts (Session.expand truePair.model) [truePair.twice] truePair.start).2.labels
        = [truePair.twice.label] ∧
      (Action.attempts (Session.expand truePair.model) [truePair.early] truePair.start).1
        = [false] ∧
      (Action.attempts (Session.expand truePair.model) [truePair.early] truePair.clashed.2).1
        = [true] := by
  decide +kernel

/-- After the clash a proof of the other function is accepted as without it. -/
theorem truePair_unmoved : ∃ f,
    (Session.expand truePair.model truePair.clash).run truePair.start
        = (.error f, truePair.clashed.2) ∧
      truePair.clashed.2.proved = [] ∧
      (Action.attempts (Session.expand truePair.model)
          [⟨⟨⟨"one", []⟩, [.unknown "y"]⟩, [.empty]⟩] truePair.clashed.2).1
        = (Action.attempts (Session.expand truePair.model)
          [⟨⟨⟨"one", []⟩, [.unknown "y"]⟩, [.empty]⟩] truePair.start).1 := by
  obtain ⟨f, hf⟩ := truePair.clash_rejected
  obtain ⟨hproved, -, -, -, -, -, hgo⟩ := Session.rejected_leaves (α := Unit) truePair.lawful
    (fun _ => rfl) truePair.start_reachable (by decide +kernel) hf
  have hnames : truePair.clashed.2.binding? "y" = truePair.start.binding? "y" := by decide +kernel
  refine ⟨f, hf, hproved, (hgo (by decide +kernel) _ (fun q hq => ?_) fun q hq x hx => ?_).1⟩
  · obtain rfl := List.mem_singleton.1 hq
    intro v hv
    obtain rfl : v = .unknown "y" := by
      simpa [Proof.values, Label.values, Dictionary.empty] using hv
    exact ⟨_, .unknown⟩
  · obtain rfl := List.mem_singleton.1 hq
    obtain rfl : x = "y" := by
      simpa [Proof.unknowns, Proof.values, Label.values, Dictionary.empty, Value.unknown?] using hx
    exact hnames

end ChanceProof
