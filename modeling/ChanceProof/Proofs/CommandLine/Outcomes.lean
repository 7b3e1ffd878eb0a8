import ChanceProof.Proofs.CommandLine.Report
import ChanceProof.Proofs.Sampling.Checked
import ChanceProof.Proofs.Sampling.Conservation

/-!
# Sampling leaves no trace

The command that samples a function interns its arguments, draws any number of outcomes and gives
the arguments back. Each draw is prepared by one more count for every argument, which the draw uses
up, and each result is read and given back, as often as it stands among the results. So no draw
moves a count in the end, whatever was drawn (`moves_of_drawOutcomes`), and a run that succeeds
leaves the store as it found it (`sampleOutcomes_restores`).

A guard before the model changes nothing about this: the call of the command is grounded, and no
count is changed by zero (`sampleOutcomes_shows`).
-/

namespace ChanceProof

theorem Call.isGrounded_of_parameters {c : Call} {hs : List Handle}
    (h : c.parameters = hs.map Value.literal) : c.isGrounded = true := by
  rw [Call.isGrounded_iff, Call.handles_of_parameters h, h]

namespace Draw

variable {σ α : Type}

theorem ask_eq_ok_iff {a : Action σ α} {s : σ} {r : Randomness} {x : α} {w : σ × Randomness} :
    ask a (s, r) = some (.ok x, w) ↔ ∃ s', a.run s = (.ok x, s') ∧ w = (s', r) := by
  rw [show ask a (s, r) = some ((a.run s).1, ((a.run s).2, r)) from rfl]
  rcases a.run s with ⟨y, t⟩
  constructor
  · intro h
    cases h
    exact ⟨t, rfl, rfl⟩
  · rintro ⟨s', h, rfl⟩
    cases h
    rfl

end Draw

namespace CommandLine

/-! ## Behind a guard -/

section

variable {σ τ : Type} {view : σ → τ} {R : σ → σ → Prop}

theorem shows_explain {α : Type} {x : Run σ α} {y : Run τ α} (h : Run.Shows view R x y)
    (context : Chain) : Run.Shows view R (Task.explain context x) (Task.explain context y) := by
  intro s
  have hs := h s
  have hx : x.run s = x s := rfl
  have hy : y.run (view s) = y (view s) := rfl
  unfold Task.explain
  rw [hx, hy]
  rcases hr : x s with _ | ⟨f | a, s'⟩ <;> rw [hr] at hs
  · rw [hs]
  · rw [hs.2]
    exact ⟨hs.1, rfl⟩
  · rw [hs.2]
    exact ⟨hs.1, rfl⟩

variable [Std.Refl R] [IsTrans σ R] {M : Model σ} {N : Model τ} (hS : M.Serves view R N)

include hS

theorem takeResult_shows (a : Handle) :
    Action.Shows view R (takeResult M a) (takeResult N a) :=
  (hS.toExternal a).bind fun v =>
    (hS.modifyCount (by decide : (-1 : Int) ≠ 0)).bind fun _ => .pure v

theorem drawOutcomes_shows (depth : Nat) (handles : List Handle) {c : Call}
    (hc : c.isGrounded = true) (n count : Nat) :
    Draw.Shows view R (drawOutcomes M depth handles c n count)
      (drawOutcomes N depth handles c n count) := by
  induction count generalizing n with
  | zero => exact .pure []
  | succ count ih =>
      unfold drawOutcomes
      refine .bind (shows_explain (.forM _ fun a => ?_) _) fun _ => ?_
      · exact .ask (hS.modifyCount (by decide : (1 : Int) ≠ 0))
      refine .bind (shows_explain (hS.sample depth hc) _) fun results => ?_
      refine .bind (shows_explain (.mapM _ fun a => .ask (takeResult_shows hS a)) _) fun _ => ?_
      exact .bind (ih (n + 1)) fun _ => .pure _

/-- The command asks only for what a guard hands on. -/
theorem sampleOutcomes_shows (depth : Nat) (function : String) (arguments : List Json)
    (count : Nat) : Draw.Shows view R (sampleOutcomes M depth function arguments count)
      (sampleOutcomes N depth function arguments count) := by
  unfold sampleOutcomes
  refine .bind (.mapM _ fun v => shows_explain (.ask (hS.fromExternal v)) _) fun handles => ?_
  refine .bind (drawOutcomes_shows hS depth handles (Call.isGrounded_of_parameters rfl) 0 count)
    fun outcomes => ?_
  refine .bind (shows_explain (.forM _ fun a => ?_) _) fun _ => .pure outcomes
  exact .ask (hS.modifyCount (by decide : (-1 : Int) ≠ 0))

end

/-- The command does the same with the guard and without. -/
theorem sampleOutcomes_checked {σ : Type} (M : Model σ) (depth : Nat) (function : String)
    (arguments : List Json) (count : Nat) :
    sampleOutcomes M.checked depth function arguments count
      = sampleOutcomes M depth function arguments count :=
  Client.eq_of_drawing_discreet
    (x := fun _ M => sampleOutcomes M depth function arguments count)
    (Client.drawing_discreet fun hS => sampleOutcomes_shows hS depth function arguments count) M

/-! ## What moves -/

variable {functions : Library}

/-- When the counts of some handles change, they change as often as the handles are listed. -/
theorem moves_of_forM {delta : Int} {handles : List Handle} {s : Store} {r : Randomness}
    {w : Store × Randomness} (hs : s.Sound)
    (h : (handles.forM fun a => Draw.ask (functions.model.modifyCount a delta) : Draw Store PUnit)
      (s, r) = some (.ok ⟨⟩, w)) : s.Moves w.1 fun a => delta * handles.count a := by
  induction handles generalizing s r with
  | nil =>
      cases h
      exact (Store.Moves.refl hs).congr fun a => by simp
  | cons b handles ih =>
      rw [List.forM_eq_forM, List.forM_cons] at h
      obtain ⟨_, _, hone, h⟩ := Run.bind_ok.1 h
      obtain ⟨s₁, hr, rfl⟩ := Draw.ask_eq_ok_iff.1 hone
      have hfirst := Store.moves_of_modifyCount hs hr
      refine (hfirst.trans (ih hfirst.sound h)).congr fun a => ?_
      rw [count_cons, Int.mul_add]
      split <;> omega

/-- A result that is taken loses one count. -/
theorem moves_of_takeResult {a : Handle} {v : Json} {s s' : Store} (hs : s.Sound)
    (h : (takeResult functions.model a).run s = (.ok v, s')) :
    s.Moves s' fun b => if b = a then -1 else 0 := by
  obtain ⟨w, s₁, hread, h⟩ := Action.run_bind_ok.1 h
  obtain ⟨_, s₂, hrelease, h⟩ := Action.run_bind_ok.1 h
  obtain ⟨-, rfl⟩ := Action.run_pure_ok.1 h
  have hsame : s₁ = s := by
    have hrun := functions.run_toExternal s a
    rwa [hread] at hrun
  rw [hsame] at hrelease
  exact Store.moves_of_modifyCount hs hrelease

theorem moves_of_takeResults {results : List Handle} {outcome : List Json} {s : Store}
    {r : Randomness} {w : Store × Randomness} (hs : s.Sound)
    (h : results.mapM (fun a => Draw.ask (takeResult functions.model a)) (s, r)
      = some (.ok outcome, w)) : s.Moves w.1 fun a => -results.count a := by
  induction results generalizing s r outcome with
  | nil =>
      cases h
      exact (Store.Moves.refl hs).congr fun a => by simp
  | cons b results ih =>
      rw [List.mapM_cons] at h
      obtain ⟨v, _, hone, h⟩ := Run.bind_ok.1 h
      obtain ⟨s₁, hr, rfl⟩ := Draw.ask_eq_ok_iff.1 hone
      obtain ⟨rest, w', hrest, h⟩ := Run.bind_ok.1 h
      cases h
      have hfirst := moves_of_takeResult hs hr
      refine (hfirst.trans (ih hfirst.sound hrest)).congr fun a => ?_
      rw [count_cons]
      split <;> omega

/-- Arguments get a count for each time they are interned. -/
theorem moves_of_arguments {arguments : List Json} {handles : List Handle} {s : Store}
    {r : Randomness} {w : Store × Randomness} (hs : s.Sound)
    (h : arguments.mapM (fun v => Task.within ("failed to intern argument " ++ v.print)
      (Draw.ask (functions.model.fromExternal v))) (s, r) = some (.ok handles, w)) :
    s.Moves w.1 fun a => handles.count a := by
  induction arguments generalizing s r handles with
  | nil =>
      cases h
      exact (Store.Moves.refl hs).congr fun a => by simp
  | cons v arguments ih =>
      rw [List.mapM_cons] at h
      obtain ⟨b, _, hone, h⟩ := Run.bind_ok.1 h
      obtain ⟨s₁, hadd, rfl⟩ := Draw.ask_eq_ok_iff.1 (Task.explain_ok.1 hone)
      obtain ⟨rest, w', hrest, h⟩ := Run.bind_ok.1 h
      cases h
      obtain ⟨b', s₂, hadd', -, hmoves⟩ := Store.run_add hs v
      cases hadd'.symm.trans hadd
      exact (hmoves.trans (ih hmoves.sound hrest)).congr fun a => (count_cons a b rest).symm

/-- No draw moves a count in the end: what it is given it uses up, and what it gives is taken. -/
theorem moves_of_drawOutcomes {depth : Nat} {function : String} {handles : List Handle}
    {n count : Nat} {outcomes : List (List Json)} {s : Store} {r : Randomness}
    {w : Store × Randomness} (hs : s.Sound)
    (h : drawOutcomes functions.model depth handles ⟨function, handles.map .literal⟩ n count (s, r)
      = some (.ok outcomes, w)) : outcomes.length = count ∧ s.Moves w.1 fun _ => 0 := by
  induction count generalizing n s r outcomes with
  | zero =>
      cases h
      exact ⟨rfl, .refl hs⟩
  | succ count ih =>
      obtain ⟨_, ⟨s₁, r₁⟩, hbump, h⟩ := Run.bind_ok.1 h
      obtain ⟨results, ⟨s₂, r₂⟩, hdraw, h⟩ := Run.bind_ok.1 h
      obtain ⟨outcome, ⟨s₃, r₃⟩, htake, h⟩ := Run.bind_ok.1 h
      obtain ⟨rest, w', hrest, h⟩ := Run.bind_ok.1 h
      cases h
      have hbumped := moves_of_forM hs (Task.explain_ok.1 hbump)
      have hgrounded : Call.isGrounded ⟨function, handles.map .literal⟩ = true :=
        Call.isGrounded_of_parameters rfl
      have hcount : ∀ a, occurrences (handles.map .literal) a = handles.count a := fun a => by
        have hparameters := Call.occurrences_parameters hgrounded a
        rwa [Call.handles_of_parameters rfl] at hparameters
      have howned : ∀ a, .literal a ∈ handles.map Value.literal →
          occurrences (handles.map .literal) a ≤ s₁.counts a := fun a _ => by
        have hnonneg := hs.counts_nonneg a
        rw [hbumped.counts, hcount]
        omega
      have hdrawn := sample_moves functions hbumped.sound hgrounded howned
        (Task.explain_ok.1 hdraw)
      have hreleased := moves_of_takeResults hdrawn.sound (Task.explain_ok.1 htake)
      obtain ⟨hlength, hmoves⟩ := ih hreleased.sound hrest
      refine ⟨congrArg (· + 1) hlength,
        (((hbumped.trans hdrawn).trans hreleased).trans hmoves).congr fun a => ?_⟩
      rw [hcount]
      omega

/-- However often a function is sampled, with or without the guard, there is one outcome for each
draw, and the store holds in the end what it held before. A store that operations led to is sound,
whatever they were. -/
theorem sampleOutcomes_restores (functions : Library) {M : Model Store}
    (hM : M = functions.model ∨ M = functions.model.checked) {s s' : Store} (hs : s.Sound)
    {depth : Nat} {function : String} {arguments : List Json} {count : Nat} {r r' : Randomness}
    {outcomes : List (List Json)}
    (h : sampleOutcomes M depth function arguments count (s, r) = some (.ok outcomes, (s', r'))) :
    outcomes.length = count ∧ ∀ a, s'.get? a = s.get? a := by
  have hplain : sampleOutcomes functions.model depth function arguments count (s, r)
      = some (.ok outcomes, (s', r')) := by
    rcases hM with rfl | rfl
    · exact h
    · rwa [sampleOutcomes_checked] at h
  obtain ⟨handles, ⟨s₁, r₁⟩, hinterned, h⟩ := Run.bind_ok.1 hplain
  obtain ⟨_, ⟨s₂, r₂⟩, hdrawn, h⟩ := Run.bind_ok.1 h
  obtain ⟨_, ⟨s₃, r₃⟩, hreleased, h⟩ := Run.bind_ok.1 h
  cases h
  have harguments := moves_of_arguments hs hinterned
  obtain ⟨hlength, hdraws⟩ := moves_of_drawOutcomes harguments.sound hdrawn
  have hrelease := moves_of_forM hdraws.sound (Task.explain_ok.1 hreleased)
  refine ⟨hlength, fun a => ((harguments.trans hdraws).trans hrelease).get?_eq hs ?_⟩
  omega

/-- Three draws behind the guard, each with one result twice and a literal, into a store that holds
the value of the argument already. -/
theorem sharedFlip_restores : ∃ outcomes s' r',
    sampleOutcomes sharedFlip.model.checked 2 "share" [.number (.float 0.5)] 3
      (halfStore, .cycle []) = some (.ok outcomes, (s', r')) ∧
    outcomes = List.replicate 3 [.bool true, .bool true, .string "tag"] ∧
    outcomes.length = 3 ∧ ∀ a, s'.get? a = halfStore.get? a := by
  have hanswer : (sampleOutcomes sharedFlip.model.checked 2 "share" [.number (.float 0.5)] 3
      (halfStore, .cycle [])).map (fun x => x.1.toOption)
        = some (some (List.replicate 3 [.bool true, .bool true, .string "tag"])) := by
    decide +kernel
  cases hr : sampleOutcomes sharedFlip.model.checked 2 "share" [.number (.float 0.5)] 3
      (halfStore, .cycle []) with
  | none =>
      rw [hr] at hanswer
      cases hanswer
  | some answer =>
      rw [hr] at hanswer
      obtain ⟨_ | outcomes, s', r'⟩ := answer
      · cases hanswer
      · cases hanswer
        exact ⟨_, s', r', rfl, rfl,
          sampleOutcomes_restores sharedFlip (.inr rfl) (halfStore_reached sharedFlip).sound hr⟩

end CommandLine

end ChanceProof
