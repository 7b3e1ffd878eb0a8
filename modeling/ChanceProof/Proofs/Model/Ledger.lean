import ChanceProof.Proofs.Line.Transparent
import ChanceProof.Proofs.Model.Library
import Mathlib.Data.List.Induction
import Mathlib.Data.List.Nodup

/-!
# The books of a store

A library starts with an empty store, and operations follow one another, successful or not. What
they handed out and how they changed counts can be read off their outcomes alone, and it tells
everything about the store: handles are handed out in the order of their numbers, none twice, and an
object is there, with the value that it had at first, just as long as the one count it started with
and the changes that succeeded do not add up to zero (`Library.ledger`).

The invariant is that the books balance (`Library.books`). One operation keeps it because it does to
every count what its outcome says (`Library.Performs.books`), or nothing when it fails
(`Library.run_perform_error`).
-/

namespace ChanceProof

/-! ## What outcomes say -/

/-- The handles that an operation hands out, each as often as it stands in the answer. -/
def Answer.handles : Answer → List Handle
  | .expansion e => e.distribution.values.filterMap Value.handle?
  | .handle h => [h]
  | .done | .value _ | .truth _ => []

/-- By how much a command asks to change the count of a handle. -/
def Command.change (h : Handle) : Command → Int
  | .modifyCount a delta => if h = a then delta else 0
  | _ => 0

/-- The command needs this object. -/
def Command.Needs (h : Handle) : Command → Prop
  | .getDistribution call => call.isGrounded = true ∧ call.isPrimitive = false ∧ h ∈ call.handles
  | .modifyCount a _ | .toExternal a => h = a
  | .isEqual a b => h = a ∨ h = b
  | .fromExternal _ => False

/-- Commands with their outcomes, in order. -/
abbrev History := List (Command × Except Failure Answer)

namespace History

/-- All handles that were ever handed out. -/
def handedOut (t : History) : List Handle :=
  t.flatMap fun e => match e.2 with
    | .ok a => a.handles
    | .error _ => []

/-- The sum of all changes of a count that succeeded. -/
def applied (t : History) (h : Handle) : Int :=
  (t.map fun e => match e.2 with
    | .ok _ => e.1.change h
    | .error _ => 0).sum

variable (t : History) (c : Command)

theorem handedOut_error (f : Failure) :
    (t ++ [(c, .error f)] : History).handedOut = t.handedOut := by
  simp [handedOut]

theorem handedOut_ok (a : Answer) :
    (t ++ [(c, .ok a)] : History).handedOut = t.handedOut ++ a.handles := by
  simp [handedOut]

theorem applied_error (f : Failure) (h : Handle) :
    (t ++ [(c, .error f)] : History).applied h = t.applied h := by
  simp [applied]

theorem applied_ok (a : Answer) (h : Handle) :
    (t ++ [(c, .ok a)] : History).applied h = t.applied h + c.change h := by
  simp [applied]

end History

/-! ## New handles -/

namespace Store

/-- The handles have the next numbers, in order, and no others were given away. -/
structure Mints (s s' : Store) (hs : List Handle) : Prop where
  next : s'.next = s.next + hs.length
  numbers : hs.map (·.number) = List.range' s.next hs.length

theorem Mints.nil (s : Store) : s.Mints s [] := ⟨rfl, rfl⟩

theorem Mints.append {s s' s'' : Store} {hs hs' : List Handle} (h : s.Mints s' hs)
    (h' : s'.Mints s'' hs') : s.Mints s'' (hs ++ hs') := by
  refine ⟨by rw [h'.next, h.next, List.length_append, Nat.add_assoc], ?_⟩
  rw [List.map_append, h.numbers, h'.numbers, h.next, List.length_append, List.range'_append_1]

/-- What was given away is what has a number from then. -/
theorem Mints.mem_iff {s s' : Store} {hs : List Handle} (h : s.Mints s' hs) {a : Handle} :
    a ∈ hs ↔ s.next ≤ a.number ∧ a.number < s'.next := by
  have hinjective : Function.Injective Handle.number := fun _ _ heq => congrArg Handle.mk heq
  rw [← List.mem_map_of_injective hinjective, h.numbers, List.mem_range'_1, h.next]

theorem Mints.nodup {s s' : Store} {hs : List Handle} (h : s.Mints s' hs) : hs.Nodup := by
  refine List.Nodup.of_map Handle.number ?_
  rw [h.numbers]
  exact List.nodup_range'

/-- What is given away was not there. -/
theorem Mints.get?_eq_none {s s' : Store} {hs : List Handle} (h : s.Mints s' hs) (hsound : s.Sound)
    {a : Handle} (ha : a ∈ hs) : s.get? a = none := by
  cases ho : s.get? a with
  | none => rfl
  | some o => exact absurd (hsound.of_get? ho).1 (Nat.not_lt.2 (h.mem_iff.1 ha).1)

/-- Handles were given away, each with one count, and counts have changed. -/
structure Books (s s' : Store) (given : List Handle) (changed : Handle → Int) : Prop where
  moves : s.Moves s' fun h => given.count h + changed h
  mints : s.Mints s' given

theorem Books.refl {s : Store} (hs : s.Sound) : s.Books s [] fun _ => 0 :=
  ⟨(Moves.refl hs).congr fun h => by simp, .nil s⟩

theorem Books.trans {s s' s'' : Store} {given given' : List Handle}
    {changed changed' : Handle → Int}
    (h : s.Books s' given changed) (h' : s'.Books s'' given' changed') :
    s.Books s'' (given ++ given') fun a => changed a + changed' a :=
  ⟨(h.moves.trans h'.moves).congr fun a => by rw [List.count_append, Int.natCast_add]; omega,
    h.mints.append h'.mints⟩

theorem mints_mapM {α β : Type} {f : α → Action Store β} {handles : β → List Handle}
    (hf : ∀ {x s y s'}, (f x).run s = (.ok y, s') → s.Mints s' (handles y)) {xs : List α}
    {s s' : Store} {ys : List β} (h : (xs.mapM f).run s = (.ok ys, s')) :
    s.Mints s' (ys.flatMap handles) := by
  induction xs generalizing s ys with
  | nil =>
      cases h
      exact .nil s'
  | cons x xs ih =>
      obtain ⟨y, s₁, rest, hone, hrest, rfl⟩ := Action.run_mapM_cons_ok.1 h
      exact (hf hone).append (ih hrest)

end Store

/-- Literals stand for their handles as often as they stand among values. -/
theorem occurrences_eq_count (vs : List Value) (h : Handle) :
    occurrences vs h = (vs.filterMap Value.handle?).count h := by
  rw [occurrences, List.count_filterMap, List.count, Int.natCast_inj]
  refine List.countP_congr fun v _ => ?_
  cases v <;> simp [Value.handle?]

namespace Library

variable {functions : Library} {s s' : Store}

theorem mints_internArgument {a : Argument} {v : Value}
    (h : (internArgument a).run s = (.ok v, s')) : s.Mints s' v.handle?.toList := by
  cases a with
  | literal w =>
      cases h
      exact ⟨rfl, rfl⟩
  | named name =>
      cases h
      exact .nil s

theorem mints_internArguments {as : List Argument} {vs : List Value}
    (h : (as.mapM internArgument).run s = (.ok vs, s')) :
    s.Mints s' (vs.filterMap Value.handle?) := by
  rw [List.filterMap_eq_flatMap_toList]
  exact Store.mints_mapM mints_internArgument h

theorem mints_internCall {p : PendingCall} {a : Assignment}
    (h : (internCall p).run s = (.ok a, s')) :
    s.Mints s' (a.call.parameters.filterMap Value.handle?) := by
  obtain ⟨vs, s₁, hvs, h⟩ := Action.run_bind_ok.1 h
  cases h
  exact mints_internArguments hvs

/-- The literals of a distribution have the next numbers. -/
theorem mints_getDistribution {c : Call} {e : Expansion}
    (h : (functions.getDistribution c).run s = (.ok e, s')) :
    s.Mints s' (Answer.expansion e).handles := by
  unfold getDistribution at h
  by_cases hprim : c.isPrimitive = true
  · rw [if_pos hprim] at h
    cases h
  rw [if_neg hprim] at h
  cases hhandles : c.handles? with
  | none =>
      rw [hhandles] at h
      cases h
  | some handles =>
      simp only [hhandles] at h
      obtain ⟨arguments, s₁, hvalues, h⟩ := Action.run_bind_ok.1 h
      have hsame : s₁ = s := by
        rcases run_values s handles with ⟨vs, hr, -⟩ | ⟨_, -, -, hr⟩
        · cases hr.symm.trans hvalues
          rfl
        · cases hr.symm.trans hvalues
      rw [hsame] at h
      cases hfun : functions.lookup c.function with
      | none =>
          rw [hfun] at h
          cases h
      | some function =>
          simp only [hfun] at h
          obtain ⟨⟨results, pending⟩, s₂, hbuild, h⟩ := Action.run_bind_ok.1 h
          obtain ⟨-, rfl⟩ := Action.run_liftM_ok.1 hbuild
          obtain ⟨as, s₃, has, h⟩ := Action.run_bind_ok.1 h
          obtain ⟨rs, s₄, hrs, h⟩ := Action.run_bind_ok.1 h
          obtain ⟨d, s₅, hmake, h⟩ := Action.run_bind_ok.1 h
          cases h
          obtain ⟨hd, rfl⟩ := Action.run_liftM_ok.1 hmake
          obtain ⟨rfl, rfl⟩ := Distribution.make_eq_ok_iff.1 hd
          rw [Answer.handles, Distribution.values, List.filterMap_append, List.filterMap_flatMap]
          exact (Store.mints_mapM mints_internCall has).append (mints_internArguments hrs)

/-! ## One operation -/

/-- What an operation that succeeds has done. -/
inductive Performs (functions : Library) (s : Store) : Command → Answer → Store → Prop
  | getDistribution {call : Call} {e : Expansion} {s' : Store} {vs : List Json} {sk : Sketch}
      (moves : s.Moves s' (occurrences e.distribution.values))
      (mints : s.Mints s' (Answer.expansion e).handles)
      (arguments : List.Forall₂ (fun h v => s.value? h = some v) call.handles vs)
      (expands : functions.expand call.function vs = .ok sk)
      (reads : e.distribution.Reads s'.value? sk) :
      Performs functions s (.getDistribution call) (.expansion e) s'
  | modifyCount {h : Handle} {delta : Int} {s' : Store}
      (moves : s.Moves s' fun a => if a = h then delta else 0) (next : s'.next = s.next) :
      Performs functions s (.modifyCount h delta) .done s'
  | fromExternal {v : Json} {h : Handle} {s' : Store}
      (moves : s.Moves s' fun a => if a = h then 1 else 0) (mints : s.Mints s' [h])
      (value : s'.value? h = some v) : Performs functions s (.fromExternal v) (.handle h) s'
  | toExternal {h : Handle} {o : Stored} (ho : s.get? h = some o) :
      Performs functions s (.toExternal h) (.value o.value) s
  | isEqual {a b : Handle} {v w : Json} (ha : s.value? a = some v) (hb : s.value? b = some w) :
      Performs functions s (.isEqual a b) (.truth (v.same w)) s

theorem performs_of_run (hs : s.Sound) {c : Command} {a : Answer}
    (h : (functions.model.perform c).run s = (.ok a, s')) : functions.Performs s c a s' := by
  cases c with
  | getDistribution call =>
      obtain ⟨e, s₁, hop, h⟩ := Action.run_bind_ok.1 h
      obtain ⟨rfl, rfl⟩ := Action.run_pure_ok.1 h
      rcases functions.getDistribution_cases hs call with
        ⟨f, hr, -⟩ | ⟨e', s₂, hr, hmoves, handles, vs, sk, -, hpar, hvs, hsk, hreads⟩
      · cases hr.symm.trans hop
      · cases hr.symm.trans hop
        rw [← Call.handles_of_parameters hpar] at hvs
        exact .getDistribution hmoves (mints_getDistribution hr) hvs hsk hreads
  | modifyCount b delta =>
      obtain ⟨_, s₁, hop, h⟩ := Action.run_bind_ok.1 h
      obtain ⟨rfl, rfl⟩ := Action.run_pure_ok.1 h
      have hnext : s₁.next = s.next := by
        rw [← Store.next_modifyCount s b delta, show (Store.modifyCount b delta).run s = _ from hop]
      exact .modifyCount (Store.moves_of_modifyCount hs hop) hnext
  | fromExternal v =>
      obtain ⟨b, s₁, hop, h⟩ := Action.run_bind_ok.1 h
      obtain ⟨rfl, rfl⟩ := Action.run_pure_ok.1 h
      obtain ⟨b', s₂, hr, hv, hmoves⟩ := Store.run_add hs v
      cases hr.symm.trans hop
      have hmints : s.Mints s₁ [b] := by
        cases hr
        exact ⟨rfl, rfl⟩
      exact .fromExternal hmoves hmints hv
  | toExternal b =>
      obtain ⟨v, s₁, hop, h⟩ := Action.run_bind_ok.1 h
      obtain ⟨rfl, rfl⟩ := Action.run_pure_ok.1 h
      obtain ⟨o, s₂, ho, hv⟩ := Action.run_bind_ok.1 hop
      obtain ⟨rfl, rfl⟩ := Action.run_pure_ok.1 hv
      obtain ⟨ho, rfl⟩ := Store.run_object_ok.1 ho
      exact .toExternal ho
  | isEqual b b' =>
      obtain ⟨t, s₁, hop, h⟩ := Action.run_bind_ok.1 h
      obtain ⟨rfl, rfl⟩ := Action.run_pure_ok.1 h
      rcases functions.isEqual_cases s b b' with ⟨v, w, hv, hw, hr⟩ | ⟨f, hr, -⟩
      · cases hr.symm.trans hop
        exact .isEqual hv hw
      · cases hr.symm.trans hop

/-- An operation that succeeds does to every count what its outcome says, and hands out new handles
only. -/
theorem Performs.books {c : Command} {a : Answer} (h : functions.Performs s c a s')
    (hs : s.Sound) : s.Books s' a.handles fun b => c.change b := by
  cases h with
  | getDistribution moves mints =>
      refine ⟨moves.congr fun b => ?_, mints⟩
      rw [occurrences_eq_count]
      exact (Int.add_zero _).symm
  | modifyCount moves next =>
      exact ⟨moves.congr fun b => by simp [Answer.handles, Command.change], next, rfl⟩
  | fromExternal moves mints =>
      refine ⟨moves.congr fun b => ?_, mints⟩
      rw [Answer.handles, count_cons]
      simp [Command.change]
  | toExternal ho => exact .refl hs
  | isEqual ha hb => exact .refl hs

/-- What is behind the handles that a command got: the value that was asked for, or the sketch of
the call at the values of its arguments. -/
def Makes (functions : Library) (s s' : Store) : Command → Answer → Prop
  | .fromExternal v, .handle h => s'.value? h = some v
  | .getDistribution call, .expansion e => ∃ vs sk,
    List.Forall₂ (fun h v => s.value? h = some v) call.handles vs ∧
      functions.expand call.function vs = .ok sk ∧ e.distribution.Reads s'.value? sk
  | _, _ => True

theorem Performs.makes {c : Command} {a : Answer} (h : functions.Performs s c a s') :
    functions.Makes s s' c a := by
  cases h with
  | getDistribution _ _ arguments expands reads => exact ⟨_, _, arguments, expands, reads⟩
  | fromExternal _ _ value => exact value
  | _ => trivial

/-- An operation that gives a handle changes no count of it. -/
theorem Performs.change_eq_zero {c : Command} {a : Answer} (h : functions.Performs s c a s')
    {b : Handle} (hb : b ∈ a.handles) : c.change b = 0 := by
  cases h with
  | modifyCount => cases hb
  | _ => rfl

/-- An operation that fails does nothing. -/
theorem run_perform_error (hs : s.Sound) {c : Command} {f : Failure}
    (h : (functions.model.perform c).run s = (.error f, s')) : s' = s := by
  cases c with
  | getDistribution call =>
      have hop := Action.run_wrap_error.1 h
      rcases functions.getDistribution_cases hs call with ⟨_, hr, -⟩ | ⟨_, _, hr, -⟩
      · exact (congrArg Prod.snd (hr.symm.trans hop)).symm
      · cases hr.symm.trans hop
  | modifyCount b delta =>
      have hop := Action.run_wrap_error.1 h
      rcases Store.modifyCount_cases s b delta with
        ⟨-, hr⟩ | ⟨o, -, ⟨-, hr⟩ | ⟨-, hr⟩ | ⟨-, hr⟩⟩ <;> cases hr.symm.trans hop <;> rfl
  | fromExternal v =>
      obtain ⟨b, s₁, hr, -⟩ := Store.run_add hs v
      cases hr.symm.trans (Action.run_wrap_error.1 h)
  | toExternal b =>
      have hrun := functions.run_toExternal s b
      rw [Action.run_wrap_error.1 h] at hrun
      exact hrun
  | isEqual b b' =>
      have hrun := functions.run_isEqual s b b'
      rw [Action.run_wrap_error.1 h] at hrun
      exact hrun

/-- An operation that needs an object that is gone fails at one that it needs and that is gone. -/
theorem run_perform_unknown {c : Command} {h : Handle} (hneeds : c.Needs h)
    (hgone : s.get? h = none) : ∃ b, c.Needs b ∧ s.get? b = none ∧
      (functions.model.perform c).run s = (.error (.unknownReference b.number), s) := by
  cases c with
  | getDistribution call =>
      obtain ⟨hgrounded, hprim, hmem⟩ := hneeds
      have hpar := Call.isGrounded_iff.1 hgrounded
      have hhandles := Call.handles?_eq_some_iff.2 hpar
      rcases run_values s call.handles with ⟨vs, -, hvs⟩ | ⟨b, hb, hnone, hr⟩
      · obtain ⟨v, -, hv⟩ := exists_of_forall₂_mem hvs.flip hmem
        rw [Store.value?, hgone] at hv
        cases hv
      · refine ⟨b, ⟨hgrounded, hprim, hb⟩, Option.map_eq_none_iff.1 hnone,
          Action.run_bind_of_error ?_⟩
        show (functions.getDistribution call).run s = _
        unfold getDistribution
        rw [if_neg (Bool.eq_false_iff.1 hprim)]
        simp only [hhandles]
        exact Action.run_bind_of_error hr
  | modifyCount b delta =>
      cases hneeds
      refine ⟨h, rfl, hgone, Action.run_bind_of_error ?_⟩
      exact Action.run_bind_of_error (Store.run_object_none hgone)
  | fromExternal v => exact hneeds.elim
  | toExternal b =>
      cases hneeds
      refine ⟨h, rfl, hgone, Action.run_bind_of_error ?_⟩
      exact Action.run_bind_of_error (Store.run_object_none hgone)
  | isEqual b b' =>
      cases hb : s.get? b with
      | none =>
          refine ⟨b, .inl rfl, hb, Action.run_bind_of_error ?_⟩
          exact Action.run_bind_of_error (Store.run_object_none hb)
      | some o =>
          have hb' : s.get? b' = none := by
            rcases hneeds with rfl | rfl
            · cases hgone.symm.trans hb
            · exact hgone
          refine ⟨b', .inr rfl, hb', Action.run_bind_of_error ?_⟩
          refine (Action.run_bind_of_ok (Store.run_object hb)).trans ?_
          exact Action.run_bind_of_error (Store.run_object_none hb')

/-- All that an operation does in a store. -/
structure Orderly (functions : Library) (s : Store) (c : Command) : Prop where
  /-- When it fails, nothing. -/
  failed : ∀ {f s'}, (functions.model.perform c).run s = (.error f, s') → s' = s
  /-- It fails at an object that it needs and that is gone. -/
  unknown : ∀ {h}, c.Needs h → s.get? h = none → ∃ b, c.Needs b ∧ s.get? b = none ∧
    (functions.model.perform c).run s = (.error (.unknownReference b.number), s)
  /-- An object is read as its value. -/
  told : ∀ {h o}, c = .toExternal h → s.get? h = some o →
    (functions.model.perform c).run s = (.ok (.value o.value), s)
  /-- The handles that it gives were dead, and each has a new object with one count. -/
  created : ∀ {a s'}, (functions.model.perform c).run s = (.ok a, s') →
    functions.Makes s s' c a ∧ ∀ h ∈ a.handles, s.get? h = none ∧ ∃ v, s'.get? h = some ⟨v, 1⟩
  /-- An object that was there keeps its value, and it has its count unless that was to change. It
  goes when its count is zero. -/
  kept : ∀ {a s' h o}, (functions.model.perform c).run s = (.ok a, s') → s.get? h = some o →
    s'.get? h = if o.count + c.change h = 0 then none else some ⟨o.value, o.count + c.change h⟩

theorem orderly (functions : Library) (hs : s.Sound) (c : Command) : functions.Orderly s c where
  failed h := run_perform_error hs h
  unknown hneeds hgone := run_perform_unknown hneeds hgone
  told hc ho := by
    rw [hc]
    exact Action.run_bind_of_ok (Action.run_bind_of_ok (Store.run_object ho))
  created {a s'} h := by
    have hperforms := performs_of_run hs h
    have hbooks := hperforms.books hs
    refine ⟨hperforms.makes, fun b hb => ?_⟩
    have hdead := hbooks.mints.get?_eq_none hs hb
    have hone : s'.counts b = 1 := by
      rw [hbooks.moves.counts, (hs.counts_eq_zero_iff b).2 hdead, hperforms.change_eq_zero hb,
        List.count_eq_one_of_mem hbooks.mints.nodup hb]
      rfl
    obtain ⟨o, ho, hcount⟩ := Store.get?_of_counts (s := s') (h := b) (by omega)
    refine ⟨hdead, o.value, ho.trans ?_⟩
    rw [← hone, ← hcount]
  kept {a s' b o} h ho := by
    have hbooks := (performs_of_run hs h).books hs
    have hnew : a.handles.count b = 0 := by
      refine List.count_eq_zero_of_not_mem fun hb => ?_
      cases (hbooks.mints.get?_eq_none hs hb).symm.trans ho
    have hget := hbooks.moves.get?_of_some hs ho
    rwa [hnew, Int.natCast_zero, Int.zero_add] at hget

/-! ## Any number of operations -/

/-- The store after operations on a new library. -/
def storeAfter (functions : Library) (cs : List Command) : Store :=
  (functions.model.performAll cs .empty).2

def history (functions : Library) (cs : List Command) : History :=
  cs.zip (functions.model.performAll cs .empty).1

/-- One operation more is one entry more. -/
theorem history_concat {cs : List Command} {c : Command} {r : Except Failure Answer}
    (h : (functions.model.perform c).run (functions.storeAfter cs) = (r, s')) :
    functions.storeAfter (cs ++ [c]) = s' ∧
      functions.history (cs ++ [c]) = functions.history cs ++ [(c, r)] := by
  have hone : functions.model.performAll [c] (functions.storeAfter cs) = ([r], s') := by
    rw [Model.performAll_cons h, Model.performAll_nil]
  have hall := Model.performAll_append (M := functions.model) cs [c] .empty
  rw [show (functions.model.performAll cs .empty).2 = functions.storeAfter cs from rfl, hone]
    at hall
  refine ⟨congrArg Prod.snd hall, ?_⟩
  rw [history, hall]
  exact List.zip_append (Model.length_performAll cs Store.empty).symm

/-- What the outcomes say is what has become of the empty store. -/
theorem books (functions : Library) (cs : List Command) :
    Store.empty.Books (functions.storeAfter cs) (functions.history cs).handedOut
      (functions.history cs).applied := by
  induction cs using List.reverseRecOn with
  | nil => exact .refl Store.sound_empty
  | append_singleton cs c ih =>
      obtain ⟨r, s', h⟩ := Action.exists_run (functions.model.perform c) (functions.storeAfter cs)
      obtain ⟨hstore, hhistory⟩ := history_concat h
      rw [hstore, hhistory]
      cases r with
      | error f =>
          rw [run_perform_error ih.moves.sound h, History.handedOut_error]
          have happlied := History.applied_error (functions.history cs) c f
          rwa [funext happlied]
      | ok a =>
          have happlied := History.applied_ok (functions.history cs) c a
          rw [History.handedOut_ok, funext happlied]
          exact ih.trans ((performs_of_run ih.moves.sound h).books ih.moves.sound)

/-- Objects keep their values, and what is gone stays gone, whatever comes later. -/
theorem later_storeAfter (functions : Library) (cs more : List Command) :
    (functions.storeAfter cs).Later (functions.storeAfter (cs ++ more)) := by
  induction more using List.reverseRecOn with
  | nil =>
      rw [List.append_nil]
      exact .refl _
  | append_singleton more c ih =>
      obtain ⟨r, s', h⟩ :=
        Action.exists_run (functions.model.perform c) (functions.storeAfter (cs ++ more))
      have hsound := (functions.books (cs ++ more)).moves.sound
      rw [← List.append_assoc, (history_concat h).1]
      cases r with
      | error f => rwa [run_perform_error hsound h]
      | ok a => exact ih.trans ((performs_of_run hsound h).books hsound).moves.later

/-- What can be relied on after any sequence of operations, be they successful or not. -/
structure Ledger (functions : Library) (cs : List Command) : Prop where
  /-- No handle is handed out twice. -/
  new : (functions.history cs).handedOut.Nodup
  /-- What is live was handed out, and its count is the one it got then with all changes that
  succeeded. -/
  live : ∀ {h o}, (functions.storeAfter cs).get? h = some o →
    h ∈ (functions.history cs).handedOut ∧ o.count = 1 + (functions.history cs).applied h ∧
      1 ≤ o.count
  /-- What was handed out is gone just when nothing is left of its count. -/
  gone : ∀ {h}, h ∈ (functions.history cs).handedOut →
    ((functions.storeAfter cs).get? h = none ↔ 1 + (functions.history cs).applied h = 0)
  /-- It never comes back. -/
  ended : ∀ {h} more, h ∈ (functions.history cs).handedOut →
    (functions.storeAfter cs).get? h = none → (functions.storeAfter (cs ++ more)).get? h = none
  /-- As long as it is there it has its value. -/
  value : ∀ {h o o'} more, (functions.storeAfter cs).get? h = some o →
    (functions.storeAfter (cs ++ more)).get? h = some o' → o'.value = o.value
  /-- Whatever is done next is done in order. -/
  next : ∀ c, functions.Orderly (functions.storeAfter cs) c

theorem ledger (functions : Library) (cs : List Command) : functions.Ledger cs := by
  have hbooks := functions.books cs
  have hsound := hbooks.moves.sound
  have hnew := hbooks.mints.nodup
  have hcounts : ∀ {h}, h ∈ (functions.history cs).handedOut →
      (functions.storeAfter cs).counts h = 1 + (functions.history cs).applied h := by
    intro h hmem
    rw [hbooks.moves.counts, List.count_eq_one_of_mem hnew hmem]
    exact Int.zero_add _
  exact {
    new := hnew
    live := fun ho => by
      have hmem := hbooks.mints.mem_iff.2 ⟨Nat.zero_le _, (hsound.of_get? ho).1⟩
      refine ⟨hmem, ?_, (hsound.of_get? ho).2⟩
      rw [← hcounts hmem, Store.counts_of_get? ho]
    gone := fun {h} hmem => by rw [← hsound.counts_eq_zero_iff, hcounts hmem]
    ended := fun more hmem hgone =>
      (functions.later_storeAfter cs more).get?_eq_none (hbooks.mints.mem_iff.1 hmem).2 hgone
    value := fun more ho ho' => (functions.later_storeAfter cs more).value_eq hsound ho ho'
    next := functions.orderly hsound }

/-- Two handles for a toss, one of them released, and one for a value. -/
example : (tossTwice.history tossTwice.commands).handedOut = [⟨0⟩, ⟨1⟩, ⟨2⟩, ⟨3⟩] ∧
    (tossTwice.history tossTwice.commands).applied ⟨1⟩ = -1 := by
  decide +kernel

end Library

end ChanceProof
