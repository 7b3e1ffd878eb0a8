import ChanceProof.Proofs.Evaluation.LowerBound

/-!
# Exhaustive sessions

A session is exhaustive when its proofs leave nothing out: every execution path that has any
probability of leading to the result of a proved label is recorded for it, and the calls on the path
are proved with the results that they have there.

In an exhaustive session the inequalities between equations and true probabilities hold the other
way round, too. At values that are at least what is true within some depth, every equation is at
least what is true one call deeper: `Exhaustive.truthWithin_le_sum`. A path without probability may
be missing or may depend on labels that are not proved, since it adds nothing.
-/

namespace ChanceProof.Session

variable {σ : Type} {M : Model σ} {I : σ → Prop} {expand : Expander} {E : Json → Json → Prop}

/-! ## Sessions of accepted proofs -/

/-- The entries of a session belong to accepted proofs. -/
structure Backed (s : Session σ) : Prop where
  proved : ∀ l, l ∈ s.labels ↔ l ∈ s.proved
  coins : ∀ e ∈ s.entries, e.label.isPrimitive = true → e.alternatives ≠ []

theorem backed_start (settings : Settings) (w : σ) : (start settings w).Backed :=
  ⟨fun _ => Iff.rfl, fun _ h => (nomatch h)⟩

theorem Learns.backed {s s' : Session σ} (h : Learns M I expand s s') (hs : s.Backed) :
    s'.Backed := by
  obtain ⟨hproved, hcoins⟩ := hs
  constructor
  · rw [labels, h.entries, h.proved]
    exact hproved
  · rw [h.entries]
    exact hcoins

theorem mem_labels {s : Session σ} {l : Label} : l ∈ s.labels ↔ ∃ e ∈ s.entries, e.label = l :=
  List.mem_map

theorem mem_labels_withEntry {s : Session σ} {l l' : Label} :
    l' ∈ (s.withEntry l).labels ↔ l' ∈ s.labels ∨ l' = l := by
  constructor
  · intro h
    obtain ⟨e, he, rfl⟩ := mem_labels.1 h
    rcases mem_withEntry he with he | ⟨rfl, -⟩
    · exact .inl (mem_labels.2 ⟨e, he, rfl⟩)
    · exact .inr rfl
  · rintro (h | rfl)
    · obtain ⟨e, he, rfl⟩ := mem_labels.1 h
      refine mem_labels.2 ⟨e, ?_, rfl⟩
      unfold withEntry
      split
      · exact List.mem_append_left _ he
      · exact he
    · exact mem_labels.2 (exists_withEntry s l')

/-- Recording adds one label to those that are proved. A coin comes with an alternative. -/
theorem Backed.of_record (hM : M.Meets I expand E) {s s' : Session σ} (hs : s.Backed) {l g : Label}
    {c : Call} {as : Label → List (List Label)} (hr : (record M l c as).run s = (.ok g, s'))
    (has : c.isPrimitive = true → as g ≠ []) : s'.Backed := by
  obtain ⟨rs, s₁, hrs, rfl, rfl⟩ := record_parts hr
  obtain ⟨hproved, hcoins⟩ := ((keeps_groundValues hM l l.result).of_run hrs).backed hs
  refine ⟨fun l' => ?_, fun e he hp => ?_⟩
  · show l' ∈ ((s₁.withEntry ⟨c, rs⟩).setAlternatives ⟨c, rs⟩ _).labels ↔ _
    rw [labels_setAlternatives, mem_labels_withEntry, List.mem_append, List.mem_singleton, hproved]
  · obtain ⟨e₀, he₀, rfl⟩ := List.mem_map.1 he
    by_cases heq : e₀.label = ⟨c, rs⟩
    · rw [if_pos heq] at hp ⊢
      have hc : c.isPrimitive = true := by rwa [Label.isPrimitive, heq] at hp
      exact List.append_ne_nil_of_right_ne_nil _ (has hc)
    · rw [if_neg heq] at hp ⊢
      rcases mem_withEntry he₀ with he₀ | ⟨rfl, -⟩
      · exact hcoins e₀ he₀ hp
      · exact absurd rfl heq

/-- An accepted proof keeps a session backed. -/
theorem Backed.of_expand (hM : M.Meets I expand E) {s s' : Session σ} (hs : s.Sound M I expand E)
    (hb : s.Backed) {p : Proof} {l : Label} (hr : (Session.expand M p).run s = (.ok l, s')) :
    s'.Backed := by
  obtain ⟨ps, s₁, s₂, as, hps, hlearns, hr, hkind⟩ := expand_parts hM hs.coherent hr
  have hb₂ := (((keeps_groundValues hM p.label _).of_run hps).trans hlearns).backed hb
  refine hb₂.of_record hM hr fun hprim => ?_
  rcases hkind with ⟨-, -, -, rfl⟩ | ⟨hcompound, -⟩
  · exact List.cons_ne_nil _ _
  · exact absurd hprim (Bool.eq_false_iff.1 hcompound)

theorem Backed.forM_expand (hM : M.Meets I expand E) {proofs : List Proof} {s s' : Session σ}
    (hs : s.Sound M I expand E) (hb : s.Backed)
    (hr : (proofs.forM fun p => do let _ ← Session.expand M p : Action (Session σ) Unit).run s
      = (.ok (), s')) : s'.Backed := by
  refine (Action.forM_invariant_of_ok (P := fun s => s.Sound M I expand E ∧ s.Backed)
    (fun s p l s' ⟨hs, hb⟩ hl => ⟨?_, hb.of_expand hM hs hl⟩) ⟨hs, hb⟩ hr).2
  have hexpand := hs.of_expand hM p
  rwa [hl] at hexpand

/-! ## Exhaustive sessions -/

/-- The call of a label can go along this path and return the label's result. -/
def Possible (M : Model σ) (expand : Expander) (s : Session σ) (l : Label)
    (path : List PortableLabel) : Prop :=
  ∃ pl sk, l.Reads (s.form? M) pl ∧ expand pl.function pl.parameters = .ok sk ∧
    sk.Path path pl.result ∧ pathTruth expand path ≠ 0

/-- All that can happen in the call of a proved label is recorded, and its calls are proved. -/
structure Exhaustive (M : Model σ) (expand : Expander) (s : Session σ) : Prop where
  recorded : ∀ l ∈ s.proved, l.isPrimitive = false → ∀ path, s.Possible M expand l path →
    ∃ a ∈ s.alternativesOf l, List.Forall₂ (Label.Reads (s.form? M)) a path
  proved : ∀ l ∈ s.proved, l.isPrimitive = false → ∀ path, s.Possible M expand l path →
    ∀ sub ∈ path, sub.function ≠ Call.coinFunction → ∃ m ∈ s.proved, m.Reads (s.form? M) sub

/-- Canonical labels that say the same are one label. -/
theorem Coherent.label_inj {s : Session σ} (hs : s.Coherent M I expand) {l m : Label}
    (hl : s.Canonical l) (hm : s.Canonical m) {pl : PortableLabel} (hlr : l.Reads (s.form? M) pl)
    (hmr : m.Reads (s.form? M) pl) : l = m := by
  have hparameters := hs.literals_inj (fun v hv => hl v (List.mem_append_left _ hv))
    (fun v hv => hm v (List.mem_append_left _ hv)) hlr.parameters hmr.parameters
  have hresult := hs.literals_inj (fun v hv => hl v (List.mem_append_right _ hv))
    (fun v hv => hm v (List.mem_append_right _ hv)) hlr.result hmr.result
  obtain ⟨⟨f, ps⟩, rs⟩ := l
  obtain ⟨⟨g, qs⟩, ts⟩ := m
  obtain rfl : f = g := hlr.function.trans hmr.function.symm
  obtain rfl : ps = qs := hparameters
  obtain rfl : rs = ts := hresult
  rfl

theorem exists_number? {s : Session σ} {l : Label} (h : l ∈ s.labels) :
    ∃ i, s.number? l = some i := by
  obtain ⟨e, he, hl⟩ := mem_labels.1 h
  cases hi : s.number? l with
  | none => exact absurd hl (number?_isNone_iff.1 (Option.isNone_iff_eq_none.2 hi) e he)
  | some i => exact ⟨i, rfl⟩

/-! ## Values that are at least the truth -/

section

variable {settled : ℚ → ℚ → Bool} {s : Session σ} {n : Nat} {values : Array ℚ}

/-- Values of the labels of a session that are at least what is true of them within some depth. -/
def Above (M : Model σ) (expand : Expander) (settled : ℚ → ℚ → Bool) (s : Session σ) (n : Nat)
    (values : Array ℚ) : Prop :=
  ∀ i e pl, s.entries[i]? = some e → e.label.Reads (s.form? M) pl →
    pl.truthWithin expand n ≤ System.valueAt (exactArithmetic settled) values i

theorem truthWithin_le_of_coin {pl : PortableLabel} (h : pl.function = Call.coinFunction) :
    pl.truthWithin expand n ≤ pl.truthWithin expand 1 := by
  have hsucc : pl.truthWithin expand (n + 1) = pl.truthWithin expand 1 := by
    unfold PortableLabel.truthWithin
    rw [interpret, if_pos h, interpret, if_pos h]
  rw [← hsucc]
  exact PortableLabel.truthWithin_mono (Nat.le_succ n)

variable (hvalues : ∀ i, 0 ≤ System.valueAt (exactArithmetic settled) values i)

include hvalues in
/-- A coin has itself as an alternative. -/
theorem Sound.truthWithin_le_sum_coin (hs : s.Sound M I expand E) (hb : s.Backed) {e : Entry}
    (he : e ∈ s.entries) (hcoin : e.label.isPrimitive = true) {pl : PortableLabel}
    (hpl : e.label.Reads (s.form? M) pl) {subss : List (List PortableLabel)}
    (hsubss : List.Forall₂ (List.Forall₂ (Label.Reads (s.form? M))) e.alternatives subss) :
    pl.truthWithin expand (n + 1) ≤
      (List.zipWith (s.pathWorth expand settled values) e.alternatives subss).sum := by
  have hself := (hs.recorded e he).coin hcoin
  have hsome := hb.coins e he hcoin
  generalize e.alternatives = as at hself hsome hsubss
  cases hsubss with
  | nil => exact absurd rfl hsome
  | @cons a subs as subss ha has =>
      obtain rfl := hself a List.mem_cons_self
      obtain ⟨sub, _, hsub, hnil, rfl⟩ := List.forall₂_cons_left_iff.1 ha
      cases hnil
      obtain rfl := reads_unique hpl hsub
      have hworth : s.pathWorth expand settled values [e.label] [pl] = pl.truthWithin expand 1 := by
        rw [pathWorth, List.zipWith_cons_cons, List.zipWith_nil_left, List.prod_singleton, worth,
          if_pos hcoin]
      rw [List.zipWith_cons_cons, List.sum_cons, hworth]
      refine le_add_of_le_of_nonneg ?_ (sum_pathWorth_nonneg hvalues as subss)
      exact truthWithin_le_of_coin (hpl.function_eq hcoin)

variable (habove : Above M expand settled s n values)

include habove

/-- A coin, and a label with an entry, is worth at least what is true of it. -/
theorem truthWithin_le_worth {l : Label} {sub : PortableLabel} (hl : l.Reads (s.form? M) sub)
    (hentry : l.isPrimitive = false → l ∈ s.labels) :
    sub.truthWithin expand n ≤ s.worth expand settled values l sub := by
  unfold worth
  cases hp : l.isPrimitive with
  | true =>
      rw [if_pos rfl]
      exact truthWithin_le_of_coin (hl.function_eq hp)
  | false =>
      obtain ⟨i, hi⟩ := exists_number? (hentry hp)
      obtain ⟨e, he, rfl⟩ := number?_some hi
      rw [if_neg Bool.false_ne_true, hi]
      exact habove i e sub he hl

include hvalues

theorem pathWeight_le_pathWorth {labels : List Label} {subs : List PortableLabel}
    (hlabels : List.Forall₂ (Label.Reads (s.form? M)) labels subs)
    (hentries : ∀ l ∈ labels, l.isPrimitive = false → l ∈ s.labels) :
    pathWeight expand n subs ≤ s.pathWorth expand settled values labels subs := by
  induction hlabels with
  | nil => exact le_refl 1
  | @cons l sub labels subs hl hrest ih =>
      have hle := truthWithin_le_worth habove hl (hentries l List.mem_cons_self)
      have hrest' := ih fun l hl => hentries l (List.mem_cons_of_mem _ hl)
      rw [pathWeight_cons, pathWorth, List.zipWith_cons_cons, List.prod_cons]
      exact mul_le_mul hle hrest' (pathWeight_nonneg expand n subs) (worth_nonneg hvalues l sub)

section

variable (hex : s.Exhaustive M expand) (hs : s.Sound M I expand fun v w => v.print = w.print)
  (hb : s.Backed) {e : Entry} (he : e ∈ s.entries) {pl : PortableLabel}
  (hpl : e.label.Reads (s.form? M) pl)

include hex hs hb he hpl

/-- A recorded alternative is worth at least the weight of its path. -/
theorem Exhaustive.pathWeight_le (hcall : e.label.isPrimitive = false) {sk : Sketch}
    (hsk : expand pl.function pl.parameters = .ok sk) {a : List Label} (ha : a ∈ e.alternatives)
    {subs : List PortableLabel} (hsubs : List.Forall₂ (Label.Reads (s.form? M)) a subs) :
    pathWeight expand n subs ≤ s.pathWorth expand settled values a subs := by
  rcases eq_or_ne (pathWeight expand n subs) 0 with hzero | hne
  · rw [hzero]
    exact pathWorth_nonneg hvalues a subs
  have hrecords := (hs.recorded e he).paths hcall a ha
  have hpossible : s.Possible M expand e.label subs :=
    ⟨pl, sk, hpl, hsk, hrecords.path_of_reads hpl hsk hsubs,
      (pathTruth_ne_zero_iff expand).2 ⟨n, hne⟩⟩
  refine pathWeight_le_pathWorth hvalues habove hsubs fun l hl hp => ?_
  -- What is proved of the call is said by this very label, since both are canonical.
  obtain ⟨sub, hsub, hread⟩ := exists_of_forall₂_mem hsubs.flip hl
  obtain ⟨m, hm, hmread⟩ := hex.proved e.label ((hb.proved _).1 (mem_labels.2 ⟨e, he, rfl⟩)) hcall
    subs hpossible sub hsub (hread.function_ne hp)
  have hmentry := (hb.proved m).2 hm
  obtain ⟨e', he', rfl⟩ := mem_labels.1 hmentry
  rwa [hs.coherent.label_inj (hrecords.canonical l hl) (hs.recorded e' he').label hread hmread]

/-- What is true of a label one call deeper is at most what its alternatives are worth. -/
theorem Exhaustive.truthWithin_le_sum {subss : List (List PortableLabel)}
    (hsubss : List.Forall₂ (List.Forall₂ (Label.Reads (s.form? M))) e.alternatives subss) :
    pl.truthWithin expand (n + 1) ≤
      (List.zipWith (s.pathWorth expand settled values) e.alternatives subss).sum := by
  cases hp : e.label.isPrimitive with
  | true => exact hs.truthWithin_le_sum_coin hvalues hb he hp hpl hsubss
  | false =>
      have hfun := hpl.function_ne hp
      cases hsk : expand pl.function pl.parameters with
      | error f =>
          rw [PortableLabel.truthWithin, interpret, if_neg hfun, hsk]
          exact sum_pathWorth_nonneg hvalues _ _
      | ok sk =>
          have hpaths : ∀ subs ∈ subss, sk.Path subs pl.result := by
            intro subs hsubs
            obtain ⟨a, ha, hread⟩ := exists_of_forall₂_mem hsubss hsubs
            exact ((hs.recorded e he).paths hp a ha).path_of_reads hpl hsk hread
          have hall : ∀ path, sk.Path path pl.result → pathWeight expand n path ≠ 0 →
              path ∈ subss := by
            intro path hpath hne
            obtain ⟨a, ha, hread⟩ := hex.recorded e.label
              ((hb.proved _).1 (mem_labels.2 ⟨e, he, rfl⟩)) hp path
              ⟨pl, sk, hpl, hsk, hpath, (pathTruth_ne_zero_iff expand).2 ⟨n, hne⟩⟩
            rw [alternativesOf_of_mem hs.distinct he] at ha
            obtain ⟨subs, hsubs, hread'⟩ := exists_of_forall₂_mem hsubss.flip ha
            rwa [forall₂_reads_unique hread hread']
          have hworth : List.Forall₂ (· ≥ ·)
              (List.zipWith (s.pathWorth expand settled values) e.alternatives subss)
              (subss.map (pathWeight expand n)) :=
            forall₂_zipWith_map hsubss fun a ha subs hsubs =>
              hex.pathWeight_le hvalues habove hs hb he hpl hp hsk ha hsubs
          exact (ChanceProof.truthWithin_le_sum expand n hfun hsk hpaths hall).trans
            hworth.flip.sum_le_sum

end

end

end ChanceProof.Session
