import ChanceProof.Line.Server
import ChanceProof.Proofs.Json.PrintInjective
import ChanceProof.Proofs.Model.Ledger

/-!
# What fails has not happened

A server of a library may be sent any line. When its reply is a failure, the store is the one from
before the request, down to the number of the next handle (`Library.failure_changes_nothing`): a
line that cannot be read reaches no operation, and an operation that fails does nothing. Also a
value that only looks like a failure comes from reading an object, so a client that sees a failure
may take it that nothing was done.
-/

namespace ChanceProof

/-! ## Commands are operations -/

/-- The value that is replied for an answer. -/
def Answer.reply : Answer → Json
  | .expansion e => e.toJson.sorted
  | .done => .null
  | .handle h => h.toJson.sorted
  | .value v => v
  | .truth b => .bool b

theorem Model.dispatch_eq {σ : Type} (M : Model σ) (c : Command) :
    M.dispatch c = do return (← M.perform c).reply := by
  cases c <;> simp [dispatch, perform, Answer.reply]

/-- Only a value that was read has the shape of a failure. -/
theorem Answer.eq_value_of_reply {a : Answer} {v : Json} (h : a.reply = .object [(errorKey, v)]) :
    a = .value (.object [(errorKey, v)]) := by
  have htwo : ∀ {b c : String} {w u : Json}, b ≠ c →
      (Json.object [(b, w), (c, u)]).sorted ≠ .object [(errorKey, v)] := by
    intro b c w u hne heq
    rcases Json.sorted_twoFields hne w u with hs | hs <;> simp [hs] at heq
  cases a with
  | expansion e => exact absurd h (htwo (by decide))
  | handle b => exact absurd h (htwo (by decide))
  | value w => exact congrArg Answer.value h
  | done => cases h
  | truth b => cases h

namespace Library

variable {functions : Library} {s s' : Store}

/-! ## Requests -/

/-- A request is a line that cannot be read, or an operation. -/
theorem run_request (functions : Library) (s : Store) (line : String) :
    (∃ f, (functions.model.request line).run s = (.error f, s)) ∨
    ∃ c, Command.decode line = .ok c ∧ (functions.model.request line).run s
      = (do return (← functions.model.perform c).reply : Action Store Json).run s := by
  unfold Model.request
  cases hdecode : Command.decode line with
  | error f => exact .inl ⟨f, Action.run_bind_of_error (Action.run_liftM _ s)⟩
  | ok c =>
      refine .inr ⟨c, rfl, ?_⟩
      rw [Action.run_bind_of_ok (Action.run_liftM _ s), functions.model.dispatch_eq]

theorem run_request_error (hs : s.Sound) {line : String} {f : Failure}
    (h : (functions.model.request line).run s = (.error f, s')) : s' = s := by
  rcases functions.run_request s line with ⟨_, hr⟩ | ⟨c, -, hr⟩
  · cases hr.symm.trans h
    rfl
  · exact run_perform_error hs (Action.run_wrap_error.1 (hr.symm.trans h))

/-- What looks like a failure was read from the store. -/
theorem run_request_marked (hs : s.Sound) {line : String} {v : Json}
    (h : (functions.model.request line).run s = (.ok (.object [(errorKey, v)]), s')) : s' = s := by
  rcases functions.run_request s line with ⟨_, hr⟩ | ⟨c, -, hr⟩
  · cases hr.symm.trans h
  · obtain ⟨a, s₁, ha, hreply⟩ := Action.run_bind_ok.1 (hr.symm.trans h)
    obtain ⟨hmarked, rfl⟩ := Action.run_pure_ok.1 hreply
    have hvalue := Answer.eq_value_of_reply hmarked
    cases performs_of_run hs ha with
    | toExternal => rfl
    | _ => cases hvalue

/-! ## Servers -/

theorem Reached.perform (hs : functions.Reached s) (c : Command) :
    functions.Reached ((functions.model.perform c).run s).2 := by
  cases c with
  | getDistribution call =>
      rw [Model.perform, Action.run_wrap_state]
      exact hs.getDistribution call
  | modifyCount a delta =>
      rw [Model.perform, Action.run_wrap_state _ fun _ => Answer.done]
      exact hs.modifyCount a delta
  | fromExternal v =>
      rw [Model.perform, Action.run_wrap_state]
      exact hs.fromExternal v
  | toExternal a =>
      rw [Model.perform, Action.run_wrap_state, functions.run_toExternal]
      exact hs
  | isEqual a b =>
      rw [Model.perform, Action.run_wrap_state, functions.run_isEqual]
      exact hs

/-- A server answers a line with the outcome of its request. -/
theorem handleLine_eq (functions : Library) (s : Store) (line : String) :
    (functions.model.handleLine line).run s = (encodeReply ((functions.model.request line).run s).1,
      ((functions.model.request line).run s).2) := rfl

/-- A server never leaves the stores that operations lead to. -/
theorem Reached.handleLine (hs : functions.Reached s) (line : String) :
    functions.Reached ((functions.model.handleLine line).run s).2 := by
  rw [handleLine_eq]
  rcases functions.run_request s line with ⟨_, hr⟩ | ⟨c, -, hr⟩
  · rwa [hr]
  · rw [hr, Action.run_wrap_state]
    exact hs.perform c

theorem Reached.handleLines (hs : functions.Reached s) (lines : List String) :
    functions.Reached ((lines.mapM functions.model.handleLine).run s).2 := by
  induction lines generalizing s with
  | nil => exact hs
  | cons line lines ih =>
      rw [List.mapM_cons]
      exact ih (hs.handleLine line)

/-- Whatever lines a server was sent before, a line whose outcome is a failure leaves the store as
it is. So does every line whose reply looks like a failure. -/
theorem failure_changes_nothing (functions : Library) (hs : functions.Reached s)
    {earlier replies : List String} {t : Store}
    (ht : (earlier.mapM functions.model.handleLine).run s = (replies, t)) (line : String) :
    (∀ f t', (functions.model.request line).run t = (.error f, t') →
      t' = t ∧ (functions.model.handleLine line).run t = (encodeReply (.error f), t)) ∧
    ∀ v t', (functions.model.handleLine line).run t
      = ((Json.object [(errorKey, v)]).print, t') → t' = t := by
  have hreached : functions.Reached t := by
    have hlines := hs.handleLines earlier
    rwa [ht] at hlines
  refine ⟨fun f t' h => ?_, fun v t' h => ?_⟩
  · have hsame := run_request_error hreached.sound h
    exact ⟨hsame, by rw [handleLine_eq, h, hsame]⟩
  obtain ⟨hreply, hstate⟩ := Prod.mk.inj ((functions.handleLine_eq t line).symm.trans h)
  rcases hr : (functions.model.request line).run t with ⟨f | w, t₁⟩
  · rw [hr] at hstate
    exact hstate.symm.trans (run_request_error hreached.sound hr)
  · rw [hr] at hreply hstate
    have hmarked : w = .object [(errorKey, v)] := Json.print_injective hreply
    rw [hmarked] at hr
    exact hstate.symm.trans (run_request_marked hreached.sound hr)

end Library

/-! ## A function that pays no heed to its builder -/

/-- The one call reads what is not bound. That is ignored, and a result of it is returned. -/
def careless : Library :=
  [("careless", fun _ => .call "f" [.literal (.string "lost"), .named "y"] ["x"] fun _ =>
    .done [.literal (.string "kept"), .named "x"])]

namespace careless

def earlier : List String := ["fromExternal \"a\""]

def line : String := "getDistribution \x7b\"function\":\"careless\",\"parameters\":[]\x7d"

def store : Store := ⟨[(0, ⟨.string "a", 1⟩)], 1⟩

theorem changes_nothing : ∃ replies t f t',
    (earlier.mapM careless.model.handleLine).run .empty = (replies, t) ∧ t = store ∧
    (careless.model.request line).run t = (.error f, t') ∧ t' = t ∧
    (careless.model.handleLine line).run t = (encodeReply (.error f), t) := by
  have hstore : ((earlier.mapM careless.model.handleLine).run .empty).2 = store := by
    decide +kernel
  have hfailed : ((careless.model.request line).run store).1.toOption = none := by
    decide +kernel
  rcases ht : (earlier.mapM careless.model.handleLine).run .empty with ⟨replies, t⟩
  rw [ht] at hstore
  rcases hr : (careless.model.request line).run t with ⟨f | v, t'⟩
  · exact ⟨replies, t, f, t', rfl, hstore, hr,
      (Library.failure_changes_nothing careless .empty ht line).1 f t' hr⟩
  · rw [← hstore, hr] at hfailed
    cases hfailed

end careless

end ChanceProof
