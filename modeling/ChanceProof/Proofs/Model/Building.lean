import ChanceProof.Proofs.Distribution.WellFormed
import ChanceProof.Proofs.Model.Ledger

/-!
# What a program builds

A program may go on after a call of it was refused. Which of its calls were accepted, and with what
failures the others were not, can be read off the program (`Program.attempts`). A call is refused
just when it reads something that the accepted calls before it do not bind, or binds a variable
twice (`PendingCall.Extends`): so a refused call leaves no trace, and a program that asks only for
the accepted ones builds the same.

The builder and the check of distributions are two checks, one with the names that are bound and the
other one with assignments. What the first one accepts the second one accepts, too. The distribution
of a call (`Library.getDistribution_builds`) has one assignment for every accepted call, and each
literal in it, in the order in which they stand there, is the next new object.
-/

namespace ChanceProof

/-! ## What a builder accepts -/

/-- The call reads only what the calls before it bind, and binds no variable that they bind, and
none twice. -/
structure PendingCall.Extends (before : List PendingCall) (p : PendingCall) : Prop where
  reads : ∀ name, .named name ∈ p.arguments → name ∈ before.flatMap (·.names)
  binds : (before.flatMap (·.names) ++ p.names).Nodup

namespace Builder

theorem checkBound_ok_iff {b : Builder} {a : Argument} :
    b.checkBound a = .ok () ↔ ∀ name, a = .named name → name ∈ b.bound := by
  cases a with
  | literal v => simp [checkBound]
  | named name =>
      rw [checkBound]
      split
      · next hbound =>
          refine ⟨fun _ name' heq => ?_, fun _ => rfl⟩
          cases heq
          exact List.contains_iff_mem.1 hbound
      · next hfree =>
          constructor
          · intro h
            cases h
          · exact fun h => absurd (List.contains_iff_mem.2 (h name rfl)) hfree

/-- A call is accepted just when it extends the calls before it. -/
theorem call_ok_iff {b b' : Builder} {function : String} {arguments : List Argument}
    {names : List String} (hbound : b.bound = (b.pending.flatMap (·.names)).reverse)
    (hnodup : b.bound.Nodup) :
    b.call function arguments names = .ok b' ↔
      PendingCall.Extends b.pending ⟨function, arguments, names⟩ ∧
        b' = ⟨b.pending ++ [⟨function, arguments, names⟩], names.reverse ++ b.bound⟩ := by
  have hmem : ∀ name, name ∈ b.bound ↔ name ∈ b.pending.flatMap (·.names) := fun name => by
    rw [hbound, List.mem_reverse]
  have hnames : (names.reverse ++ b.bound).Nodup ↔
      (b.pending.flatMap (·.names) ++ names).Nodup := by
    rw [hbound, ← List.reverse_append, List.nodup_reverse]
  unfold call
  simp only [bind_eq_ok_iff, Distribution.builder_bindNames_iff,
    Distribution.bindNames_ok_iff hnodup, pure_eq_ok_iff]
  constructor
  · rintro ⟨_, hreads, _, ⟨rfl, hbinds⟩, rfl⟩
    refine ⟨⟨fun name hname => ?_, hnames.1 hbinds⟩, rfl⟩
    exact (hmem name).1 (checkBound_ok_iff.1 (forM_ok_iff.1 hreads _ hname) name rfl)
  · rintro ⟨⟨hreads, hbinds⟩, rfl⟩
    refine ⟨(), forM_ok_iff.2 fun a ha => checkBound_ok_iff.2 ?_, _, ⟨rfl, hnames.2 hbinds⟩, rfl⟩
    rintro name rfl
    exact (hmem name).2 (hreads name ha)

/-- The variables that are bound are those of the calls that were accepted. -/
theorem Built.bound {b : Builder} (h : b.Built) :
    b.bound = (b.pending.flatMap (·.names)).reverse ∧ b.bound.Nodup := by
  induction h with
  | empty => exact ⟨rfl, List.nodup_nil⟩
  | call _ hcall ih =>
      obtain ⟨⟨-, hbinds⟩, rfl⟩ := (call_ok_iff ih.1 ih.2).1 hcall
      have hbound := ih.1
      refine ⟨?_, ?_⟩
      · simp [hbound]
      · rw [hbound, ← List.reverse_append]
        exact List.nodup_reverse.2 hbinds

theorem Built.call_ok_iff {b b' : Builder} (h : b.Built) {function : String}
    {arguments : List Argument} {names : List String} :
    b.call function arguments names = .ok b' ↔
      PendingCall.Extends b.pending ⟨function, arguments, names⟩ ∧
        b' = ⟨b.pending ++ [⟨function, arguments, names⟩], names.reverse ++ b.bound⟩ :=
  Builder.call_ok_iff h.bound.1 h.bound.2

end Builder

/-! ## Calls that were accepted and calls that were refused -/

/-- Calls in the order in which they were asked for, with the failures of those refused. -/
abbrev Attempts := List (PendingCall × Option Failure)

/-- The calls that were not refused. -/
def Attempts.accepted (t : Attempts) : List PendingCall :=
  (t.filter (·.2.isNone)).map (·.1)

theorem Attempts.accepted_none (p : PendingCall) (t : Attempts) :
    accepted ((p, none) :: t) = p :: t.accepted := rfl

theorem Attempts.accepted_some (p : PendingCall) (failure : Failure) (t : Attempts) :
    accepted ((p, some failure) :: t) = t.accepted := rfl

namespace Program

/-- The calls that a program asks a builder for. -/
def attempts : Program → Builder → Attempts
  | .done _, _ | .fail _, _ => []
  | .call function arguments names next, b =>
    match b.call function arguments names with
    | .ok b => (⟨function, arguments, names⟩, none) :: (next none).attempts b
    | .error failure =>
      (⟨function, arguments, names⟩, some failure) :: (next (some failure)).attempts b

/-- The program that asks for these calls and is done. -/
def ofCalls (results : List Argument) : List PendingCall → Program
  | [] => .done results
  | p :: rest => .append p.function p.arguments p.names (ofCalls results rest)

/-- A builder ends with the calls that it accepted, and would do so without the others. -/
theorem run_accepted {p : Program} {b b' : Builder} {results : List Argument}
    (h : p.run b = .ok (results, b')) :
    b'.pending = b.pending ++ (p.attempts b).accepted ∧
      (ofCalls results (p.attempts b).accepted).run b = .ok (results, b') := by
  induction p generalizing b with
  | done rs =>
      cases h
      exact ⟨(List.append_nil _).symm, rfl⟩
  | fail f => cases h
  | call function arguments names next ih =>
      cases hcall : b.call function arguments names with
      | ok b₁ =>
          rw [run, hcall] at h
          obtain ⟨hpending, hrun⟩ := ih none h
          have hb₁ : b₁.pending = b.pending ++ [⟨function, arguments, names⟩] := by
            obtain ⟨_, -, hcall'⟩ := bind_eq_ok_iff.1 hcall
            obtain ⟨bound, -, hcall'⟩ := bind_eq_ok_iff.1 hcall'
            rw [← pure_eq_ok_iff.1 hcall']
          rw [attempts, hcall, Attempts.accepted_none]
          refine ⟨by rw [hpending, hb₁, List.append_assoc, List.singleton_append], ?_⟩
          rw [ofCalls, append, run, hcall]
          exact hrun
      | error failure =>
          rw [run, hcall] at h
          rw [attempts, hcall, Attempts.accepted_some]
          exact ih (some failure) h

/-- A call is accepted just when it extends the accepted calls before it. -/
theorem accepted_iff {p : Program} {b : Builder} (hb : b.Built) {t t' : Attempts}
    {q : PendingCall} {refused : Option Failure} (h : p.attempts b = t ++ (q, refused) :: t') :
    refused = none ↔ q.Extends (b.pending ++ t.accepted) := by
  induction p generalizing b t with
  | done rs => cases List.append_eq_nil_iff.1 h.symm |>.2
  | fail f => cases List.append_eq_nil_iff.1 h.symm |>.2
  | call function arguments names next ih =>
      rw [attempts] at h
      split at h
      · next b₁ hcall =>
          obtain ⟨hextends, rfl⟩ := hb.call_ok_iff.1 hcall
          cases t with
          | nil =>
              cases h
              simpa [Attempts.accepted] using hextends
          | cons first t =>
              obtain ⟨rfl, hrest⟩ := List.cons_eq_cons.1 h
              have hnext := ih none (.call hb hcall) hrest
              rwa [List.append_assoc, List.singleton_append, ← Attempts.accepted_none] at hnext
      · next failure hcall =>
          cases t with
          | nil =>
              cases h
              refine ⟨fun h => (nomatch h), fun hextends => ?_⟩
              rw [Attempts.accepted, List.filter_nil, List.map_nil, List.append_nil] at hextends
              cases hcall.symm.trans (hb.call_ok_iff.2 ⟨hextends, rfl⟩)
          | cons first t =>
              obtain ⟨rfl, hrest⟩ := List.cons_eq_cons.1 h
              rw [Attempts.accepted_some]
              exact ih (some failure) hb hrest

end Program

/-! ## What accepted calls become -/

/-- A variable stays as it is. A literal becomes a new object of its own, with one count. -/
inductive Argument.Interned (s s' : Store) : Argument → Value → Prop
  | literal {v : Json} {h : Handle} (fresh : s.get? h = none)
    (stored : s'.get? h = some ⟨v, 1⟩) : Interned s s' (.literal v) (.literal h)
  | named (name : String) : Interned s s' (.named name) (.named name)

/-- The call has become an assignment. -/
structure PendingCall.Interned (s s' : Store) (p : PendingCall) (a : Assignment) : Prop where
  function : a.call.function = p.function
  arguments : List.Forall₂ (Argument.Interned s s') p.arguments a.call.parameters
  names : a.names = p.names

namespace Library

/-- What reads as an argument, where every literal has a number of its own, has become of it. -/
theorem interned_of_reads {s s' : Store} (hs : s.Sound) {vs : List Value}
    (hmoves : s.Moves s' (occurrences vs)) (hmints : s.Mints s' (vs.filterMap Value.handle?))
    {a : Argument} {v : Value} (hv : v ∈ vs) (hreads : v.Reads s'.value? a.item) :
    a.Interned s s' v := by
  cases a with
  | named name =>
      cases hreads
      exact .named name
  | literal w =>
      cases hreads with
      | @literal h _ hform =>
          have hmem : h ∈ vs.filterMap Value.handle? := List.mem_filterMap.2 ⟨.literal h, hv, rfl⟩
          have hfresh : s.get? h = none := hmints.get?_eq_none hs hmem
          have hcount : s'.counts h = 1 := by
            rw [hmoves.counts, (hs.counts_eq_zero_iff h).2 hfresh, occurrences_eq_count,
              List.count_eq_one_of_mem hmints.nodup hmem]
            rfl
          obtain ⟨⟨w', n⟩, ho, hn⟩ := Store.get?_of_counts (by omega : 0 < s'.counts h)
          rw [Store.value?, ho] at hform
          cases hform
          obtain rfl : n = 1 := hn.trans hcount
          exact .literal hfresh ho

section

variable {s s' : Store} (hs : s.Sound) {vs : List Value} (hmoves : s.Moves s' (occurrences vs))
  (hmints : s.Mints s' (vs.filterMap Value.handle?))

include hs hmoves hmints

theorem interned_arguments {as : List Argument} {us : List Value} (hus : ∀ v ∈ us, v ∈ vs)
    (hreads : List.Forall₂ (Value.Reads s'.value?) us (as.map Argument.item)) :
    List.Forall₂ (Argument.Interned s s') as us := by
  rw [List.forall₂_map_right_iff] at hreads
  have hboth := (List.forall₂_and_left _ _).2 ⟨hus, hreads⟩
  exact hboth.flip.imp fun _ _ h => interned_of_reads hs hmoves hmints h.1 h.2

theorem interned_calls {ps : List PendingCall} {as : List Assignment}
    (has : ∀ a ∈ as, ∀ v ∈ a.call.parameters, v ∈ vs)
    (hreads : List.Forall₂ (Assignment.Reads s'.value?) as (ps.map PendingCall.step)) :
    List.Forall₂ (PendingCall.Interned s s') ps as := by
  rw [List.forall₂_map_right_iff] at hreads
  have hboth := (List.forall₂_and_left _ _).2 ⟨has, hreads⟩
  exact hboth.flip.imp fun _ _ h =>
    ⟨h.2.function, interned_arguments hs hmoves hmints h.1 h.2.parameters, h.2.names⟩

end

/-- Whatever program a function answers with, once its results pass the check of the builder the
distribution is made. It consists of the calls that were accepted, each of which extends those
accepted before it, as if no other call had been asked for; its literals are new objects of their
own, with ascending numbers, and no other object changes. -/
theorem getDistribution_builds {functions : Library} {s : Store} (hs : functions.Reached s)
    {c : Call} {handles : List Handle} {vs : List Json} {function : Function}
    (hprim : c.isPrimitive = false) (hparameters : c.parameters = handles.map .literal)
    (hvs : List.Forall₂ (fun h v => s.value? h = some v) handles vs)
    (hfunction : functions.lookup c.function = some function) {results : List Argument}
    {b : Builder} (hrun : (function vs).run .empty = .ok (results, b))
    (hresults : ∀ a ∈ results, b.checkBound a = .ok ()) :
    (∃ e s', (functions.model.getDistribution c).run s = (.ok e, s') ∧
      List.Forall₂ (PendingCall.Interned s s') ((function vs).attempts .empty).accepted
        e.distribution.assignments ∧
      List.Forall₂ (Argument.Interned s s') results e.distribution.result ∧
      s.Mints s' (e.distribution.values.filterMap Value.handle?) ∧
      ∀ h, .literal h ∉ e.distribution.values → s'.get? h = s.get? h) ∧
    (∀ (t : Attempts) p refused t', (function vs).attempts .empty = t ++ (p, refused) :: t' →
      (refused = none ↔ p.Extends t.accepted)) ∧
    (Program.ofCalls results ((function vs).attempts .empty).accepted).run .empty
      = .ok (results, b) := by
  obtain ⟨hpending, hreplay⟩ := Program.run_accepted hrun
  refine ⟨?_, fun t p refused t' h => Program.accepted_iff .empty h, hreplay⟩
  have hbuild : (function vs).build = .ok (results, ((function vs).attempts .empty).accepted) := by
    rw [Program.build, hrun]
    show (results.forM b.checkBound >>= fun _ => _) = _
    rw [forM_ok_iff.2 hresults]
    exact congrArg (fun ps => Except.ok (results, ps)) hpending
  have hexpand := expand_of_lookup hfunction vs
  rw [hbuild] at hexpand
  rcases functions.getDistribution_cases hs.sound c with
    ⟨f, -, herror⟩ | ⟨e, s', hr, hmoves, hs₁, vs₁, sk, -, hparameters', hvs', hsk, hreads⟩
  · exact nomatch hexpand.symm.trans (herror handles vs hprim hparameters hvs)
  rw [Call.handles_unique hparameters' hparameters] at hvs'
  rw [forall₂_some_unique hvs' hvs] at hsk
  obtain rfl := Except.ok.inj (hexpand.symm.trans hsk)
  have hmints : s.Mints s' (e.distribution.values.filterMap Value.handle?) :=
    mints_getDistribution hr
  refine ⟨e, s', hr, interned_calls hs.sound hmoves hmints (fun a ha v hv => ?_) hreads.steps,
    interned_arguments hs.sound hmoves hmints (fun v hv => ?_) hreads.result, hmints,
    fun h hh => hmoves.get?_eq hs.sound ?_⟩
  · exact List.mem_append_left _ (List.mem_flatMap.2 ⟨a, ha, hv⟩)
  · exact List.mem_append_right _ hv
  · rw [occurrences, List.count_eq_zero_of_not_mem hh]
    rfl

/-! ## A function that goes on after refusals -/

/-- The first call binds a variable twice and the second one reads what it binds itself. -/
def stubborn : Function := fun vs =>
  .call "pick" [.literal .null] ["x", "x"] fun _ =>
    .call "pick" [.named "y"] ["y"] fun refused =>
      .append "pick" (vs.map .literal) ["x"] <|
        .done [.named (if refused.isSome then "x" else "y"), .literal .null]

theorem stubborn_builds :
    ((stubborn [.bool true]).attempts .empty).map (·.2.isSome) = [true, true, false] ∧
    ∃ e s', ((model [("stubborn", stubborn)]).getDistribution ⟨"stubborn", [.literal ⟨0⟩]⟩).run
        truths = (.ok e, s') ∧
      List.Forall₂ (PendingCall.Interned truths s')
        [⟨"pick", [.literal (.bool true)], ["x"]⟩] e.distribution.assignments ∧
      List.Forall₂ (Argument.Interned truths s') [.named "x", .literal .null]
        e.distribution.result ∧
      truths.Mints s' (e.distribution.values.filterMap Value.handle?) := by
  have htruths : Reached [("stubborn", stubborn)] truths :=
    .fromExternal (.fromExternal .empty (.bool true)) (.bool false)
  have hparameters : (⟨"stubborn", [.literal ⟨0⟩]⟩ : Call).parameters = [⟨0⟩].map .literal := rfl
  have hvs : List.Forall₂ (fun h v => truths.value? h = some v) [⟨0⟩] [.bool true] :=
    .cons rfl .nil
  have hrun : (stubborn [.bool true]).run .empty = .ok ([.named "x", .literal .null],
    ⟨[⟨"pick", [.literal (.bool true)], ["x"]⟩], ["x"]⟩) := rfl
  obtain ⟨⟨e, s', hr, hassignments, hresult, hmints, -⟩, -, -⟩ :=
    getDistribution_builds htruths rfl hparameters hvs rfl hrun (by decide)
  exact ⟨rfl, e, s', hr, hassignments, hresult, hmints⟩

end Library

end ChanceProof
