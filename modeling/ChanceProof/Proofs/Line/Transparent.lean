import ChanceProof.Line.Remote
import ChanceProof.Model.Functions
import ChanceProof.Proofs.Wire.RoundTrip

/-!
# The line is transparent

A model behind a line to itself answers as the model does, and its state goes the same way. Every
request decodes to the command that was sent (`Command.decode_encode`), every reply to the value or
the failure that was given (`decodeReply_ok`, `decodeReply_error`), and every typed value to itself.

The one exception is a value that has the shape of a failure, an object whose only key is `$error`:
it is always taken for a failure, though not always for a readable one.
-/

namespace ChanceProof

/-! ## Requests -/

theorem Text.dropEnd_of_last (test : Char → Bool) {c : Char} (h : test c = false)
    (cs : List Char) : dropEnd test (cs ++ [c]) = cs ++ [c] := by
  simp [dropEnd, h]

namespace Command

/-- The numbers of a command fit the words that carry them, and the value in it parses back. -/
def Sendable : Command → Prop
  | .getDistribution call => call.InRange
  | .modifyCount h delta => h.InRange ∧ -(signedLimit : Int) ≤ delta ∧ delta < signedLimit
  | .fromExternal value => value.ParsesBack
  | .toExternal h => h.InRange
  | .isEqual a b => a.InRange ∧ b.InRange

instance : (c : Command) → Decidable c.Sendable
  | .getDistribution call => inferInstanceAs (Decidable call.InRange)
  | .modifyCount _ _ => inferInstanceAs (Decidable (_ ∧ _ ∧ _))
  | .fromExternal value => inferInstanceAs (Decidable value.ParsesBack)
  | .toExternal h => inferInstanceAs (Decidable h.InRange)
  | .isEqual _ _ => inferInstanceAs (Decidable (_ ∧ _))

/-- The arguments of a command are read back by the decoder that its name chooses. -/
theorem exists_decoder {c : Command} (h : c.Sendable) :
    ∃ decode, decoder c.name = some decode ∧ Decoder.ofText decode c.arguments.print = .ok c := by
  cases c with
  | getDistribution call =>
      exact ⟨_, rfl, Decoder.ofText_print (Call.readable h (by decide)) (Call.finds h).map.1⟩
  | modifyCount a delta =>
      obtain ⟨hrange, hlow, hhigh⟩ := h
      have hlimit : signedLimit < unsignedLimit := by decide
      have hfinds := ((Handle.finds hrange).twoFields (a := "ref") (b := "delta") (by decide)
        (Decoder.finds_integer hlow hhigh)).map (f := fun p => Command.modifyCount p.1 p.2)
      refine ⟨_, rfl, Decoder.ofText_print ?_ hfinds.1⟩
      exact .field (Handle.readable hrange (by decide)) (.field (.integer hlow (by omega))
        (.noFields (by decide)))
  | fromExternal value =>
      obtain ⟨hvalue, hrest⟩ := Decoder.ofText_ok_iff.1 h
      refine ⟨_, rfl, Decoder.ofText_ok_iff.2 ⟨?_, hrest⟩⟩
      simp only [arguments, hvalue]
      rfl
  | toExternal a =>
      exact ⟨_, rfl, Decoder.ofText_print (Handle.readable h (by decide)) (Handle.finds h).map.1⟩
  | isEqual a b =>
      have hfinds := ((Handle.finds h.1).pair (Handle.finds h.2)).map
        (f := fun p => Command.isEqual p.1 p.2)
      refine ⟨_, rfl, Decoder.ofText_print (.array (by decide) fun v hv => ?_) hfinds.1⟩
      rcases List.mem_cons.1 hv with rfl | hv
      · exact Handle.readable h.1 (by decide)
      · rw [List.mem_singleton.1 hv]
        exact Handle.readable h.2 (by decide)

theorem not_blank_of_mem_name {c : Command} {d : Char} (h : d ∈ c.name.toList) : d ≠ ' ' := by
  have hname : c.name.toList.all (· ≠ ' ') = true := by cases c <;> simp [name]
  simpa using List.all_eq_true.1 hname d h

/-- A command is decoded from its line. -/
theorem decode_encode {c : Command} (h : c.Sendable) : Command.decode c.encode = .ok c := by
  obtain ⟨_, hdecoder, hdecode⟩ := exists_decoder h
  obtain ⟨cs, d, hcs, hblank⟩ := c.arguments.last_not_blank
  have hend : (d = '\r' || d = '\n') = false := by
    rw [Bool.or_eq_false_iff, decide_eq_false_iff_not, decide_eq_false_iff_not]
    constructor <;> rintro rfl <;> cases hblank
  have hline : c.encode.toList = c.name.toList ++ ' ' :: c.arguments.chars := by
    simp [encode, Json.print]
  have hdrop : Text.dropEnd (fun e => e = '\r' || e = '\n') c.encode.toList
      = c.name.toList ++ ' ' :: c.arguments.chars := by
    have hlast := Text.dropEnd_of_last (fun e => e = '\r' || e = '\n') hend
      (c.name.toList ++ ' ' :: cs)
    rw [hline]
    rwa [List.append_assoc, List.cons_append, ← hcs] at hlast
  have hspan : (c.name.toList ++ ' ' :: c.arguments.chars).span (· != ' ')
      = (c.name.toList, ' ' :: c.arguments.chars) := by
    have hname : ∀ e ∈ c.name.toList, (e != ' ') = true := fun e he => by
      simpa using not_blank_of_mem_name he
    rw [List.span_eq_takeWhile_dropWhile, List.takeWhile_append_of_pos hname,
      List.dropWhile_append_of_pos hname]
    simp
  rw [Command.decode]
  simp only [hdrop, hspan, String.ofList_toList, hdecoder]
  exact hdecode

end Command

/-! ## Replies -/

theorem Text.trimEnd_print (v : Json) : trimEnd v.print = v.print := by
  obtain ⟨cs, c, hcs, hblank⟩ := v.last_not_blank
  rw [trimEnd, Json.print, String.toList_ofList, hcs, dropEnd_of_last isBlank hblank]

/-- A value that does not look like a failure is read back from its reply. -/
theorem decodeReply_ok {v : Json} (hv : v.ParsesBack) (hplain : markedFailure? v = none) :
    decodeReply (encodeReply (.ok v)) = .ok v := by
  have hread : Decoder.ofText Decoder.json (Text.trimEnd v.print) = .ok v := by
    rw [Text.trimEnd_print]
    exact hv
  rw [encodeReply, decodeReply, hread]
  simp only [bind, Except.bind, hplain]
  rfl

/-- A value that looks like a failure comes back as some failure. -/
theorem decodeReply_reserved {v w : Json} (hv : v.ParsesBack)
    (hmarked : markedFailure? v = some w) : ∃ f, decodeReply (encodeReply (.ok v)) = .error f := by
  have hread : Decoder.ofText Decoder.json (Text.trimEnd v.print) = .ok v := by
    rw [Text.trimEnd_print]
    exact hv
  rw [encodeReply, decodeReply, hread]
  simp only [bind, Except.bind, hmarked]
  rcases Failure.decode (Document.ofJson w) with fault | f
  · exact ⟨_, rfl⟩
  · exact ⟨f, rfl⟩

/-- A failure is read back from its reply. -/
theorem decodeReply_error {f : Failure} (h : f.InRange) :
    decodeReply (encodeReply (.error f)) = .error f := by
  have hsorted : (Json.object [(errorKey, f.toJson.sorted)]).sorted
      = .object [(errorKey, f.toJson.sorted)] := by
    rw [Json.sorted, Json.sortedFields, Json.sorted_sorted, Json.sortedFields]
    rfl
  have hreadable : (Json.object [(errorKey, f.toJson.sorted)]).Readable 0 :=
    .field (Failure.readable h (by decide)).sorted (.noFields (by decide))
  have hv := Json.parsesBack_of_readable hreadable hsorted
  have hread : Decoder.ofText Decoder.json
      (Text.trimEnd (Json.object [(errorKey, f.toJson.sorted)]).print)
        = .ok (.object [(errorKey, f.toJson.sorted)]) := by
    rw [Text.trimEnd_print]
    exact hv
  rw [encodeReply, decodeReply, hread]
  simp only [bind, Except.bind, markedFailure?, if_true, (Failure.finds h).2]
  rfl

/-! ## One request -/

namespace Model

variable {σ α : Type} (M : Model σ) {c : Command} (hc : c.Sendable) {decode : Decoder α} {s s' : σ}

include hc

/-- A request does on the other end what its command does here. -/
theorem run_request {r : Except Failure Json} (h : (M.dispatch c).run s = (r, s')) :
    (M.exchange.request c decode).run s
      = (decodeReply (encodeReply r) >>= fun v => match decode (Document.ofJson v) with
          | .ok x => .ok x
          | .error fault => .error (.protocol
              ("unexpected reply to " ++ c.name ++ ": " ++ Decoder.reasonOf fault)), s') := by
  have hserved : (M.request c.encode).run s = (r, s') := by
    rw [Model.request, Command.decode_encode hc]
    exact h
  have hreply : (M.exchange c.encode).run s = (.ok (encodeReply r), s') := by
    have hline : M.handleLine c.encode s = (encodeReply r, s') := by
      simp only [handleLine, bind, StateT.bind]
      rw [hserved]
      rfl
    simp only [exchange, ExceptT.run, liftM, monadLift, MonadLift.monadLift, ExceptT.lift,
      ExceptT.mk, Functor.map, StateT.map]
    rw [hline]
    rfl
  rw [Exchange.request, Action.run_bind_of_ok hreply, Action.run_bind, Action.run_liftM]
  rcases hdecoded : decodeReply (encodeReply r) with f | v
  · rfl
  · simp only [bind, Except.bind]
    rcases decode (Document.ofJson v) with fault | x <;> rfl

theorem request_ok {v : Json} {x : α} (h : (M.dispatch c).run s = (.ok v, s'))
    (hv : v.ParsesBack) (hplain : markedFailure? v = none)
    (hx : decode (Document.ofJson v) = .ok x) :
    (M.exchange.request c decode).run s = (.ok x, s') := by
  rw [M.run_request hc h, decodeReply_ok hv hplain]
  simp only [bind, Except.bind, hx]

theorem request_error {f : Failure} (h : (M.dispatch c).run s = (.error f, s'))
    (hf : f.InRange) : (M.exchange.request c decode).run s = (.error f, s') := by
  rw [M.run_request hc h, decodeReply_error hf]
  rfl

theorem request_reserved {v w : Json} (h : (M.dispatch c).run s = (.ok v, s'))
    (hv : v.ParsesBack) (hmarked : markedFailure? v = some w) :
    ∃ f, (M.exchange.request c decode).run s = (.error f, s') := by
  obtain ⟨f, hf⟩ := decodeReply_reserved hv hmarked
  refine ⟨f, ?_⟩
  rw [M.run_request hc h, hf]
  rfl

end Model

/-! ## Every operation -/

theorem Action.exists_run {σ α : Type} (a : Action σ α) (s : σ) :
    ∃ r s', a.run s = (r, s') :=
  ⟨_, _, rfl⟩

/-- What an operation of a model gives. -/
inductive Answer
  | expansion (e : Expansion)
  | done
  | handle (h : Handle)
  | value (v : Json)
  | truth (b : Bool)
deriving DecidableEq

/-- The outcome can be sent: its numbers fit the words that carry them, the time of an expansion is
finite, and the values in it parse back from their texts. -/
def Crosses : Except Failure Answer → Prop
  | .ok (.expansion e) =>
    e.distribution.InRange ∧ e.seconds.isFinite = true ∧ (Json.ofFloat e.seconds).ParsesBack
  | .ok (.handle h) => h.InRange
  | .ok (.value v) => v.ParsesBack
  | .ok .done | .ok (.truth _) => True
  | .error f => f.InRange

instance : (r : Except Failure Answer) → Decidable (Crosses r)
  | .ok (.expansion _) => inferInstanceAs (Decidable (_ ∧ _ ∧ _))
  | .ok (.handle h) => inferInstanceAs (Decidable h.InRange)
  | .ok (.value v) => inferInstanceAs (Decidable v.ParsesBack)
  | .ok .done | .ok (.truth _) => inferInstanceAs (Decidable True)
  | .error f => inferInstanceAs (Decidable f.InRange)

/-- The outcome is an object whose only key marks a failure. -/
def Reserved (r : Except Failure Answer) : Prop :=
  ∃ f, r = .ok (.value (.object [("$error", f)]))

/-- What comes over the line is the outcome itself, or some failure when it looks like one. -/
structure Mirrors (direct remote : Except Failure Answer) : Prop where
  same : ¬Reserved direct → remote = direct
  failure : Reserved direct → ∃ f, remote = .error f

theorem Mirrors.refl {r : Except Failure Answer} (h : ¬Reserved r) : Mirrors r r :=
  ⟨fun _ => rfl, fun h' => absurd h' h⟩

theorem markedFailure?_eq_some_iff {v f : Json} :
    markedFailure? v = some f ↔ v = .object [("$error", f)] := by
  constructor
  · intro h
    unfold markedFailure? at h
    split at h
    · next key f' =>
        split at h
        · next hkey => rw [hkey, Option.some.inj h, errorKey]
        · cases h
    · cases h
  · rintro rfl
    rfl

namespace Model

variable {σ : Type} (M : Model σ)

/-- Run the operation that a command names. -/
def perform : Command → Action σ Answer
  | .getDistribution call => do return .expansion (← M.getDistribution call)
  | .modifyCount h delta => do
    M.modifyCount h delta
    return .done
  | .fromExternal value => do return .handle (← M.fromExternal value)
  | .toExternal h => do return .value (← M.toExternal h)
  | .isEqual a b => do return .truth (← M.isEqual a b)

/-- Run operations one after another, be they successful or not. -/
def performAll : List Command → StateM σ (List (Except Failure Answer))
  | [] => return []
  | c :: cs => do
    let r ← (M.perform c).run
    return r :: (← performAll cs)

variable {M}

theorem performAll_nil (s : σ) : M.performAll [] s = ([], s) := rfl

theorem performAll_cons {c : Command} {cs : List Command} {s s' : σ} {r : Except Failure Answer}
    (h : (M.perform c).run s = (r, s')) :
    M.performAll (c :: cs) s = (r :: (M.performAll cs s').1, (M.performAll cs s').2) := by
  simp only [performAll, bind, StateT.bind]
  rw [h]
  rfl

theorem length_performAll (cs : List Command) (s : σ) :
    (M.performAll cs s).1.length = cs.length := by
  induction cs generalizing s with
  | nil => rfl
  | cons c cs ih =>
      obtain ⟨r, s', h⟩ := Action.exists_run (M.perform c) s
      rw [performAll_cons h, List.length_cons, List.length_cons, ih]

/-- More operations go on where the others ended. -/
theorem performAll_append (cs ds : List Command) (s : σ) : M.performAll (cs ++ ds) s
    = ((M.performAll cs s).1 ++ (M.performAll ds (M.performAll cs s).2).1,
      (M.performAll ds (M.performAll cs s).2).2) := by
  induction cs generalizing s with
  | nil => rfl
  | cons c cs ih =>
      obtain ⟨r, s', h⟩ := Action.exists_run (M.perform c) s
      rw [List.cons_append, performAll_cons h, performAll_cons h, ih, List.cons_append]

/-- An operation that is an action and a wrapping of what it gives has the same outcome when the
action is a request: for a success it has to be known that what the request replies is read back. -/
theorem request_same {β : Type} {c : Command} (hc : c.Sendable) {op : Action σ β}
    {wrap : β → Answer} {reply : β → Json} {decode : Decoder β} {s s' : σ}
    {r : Except Failure Answer} (hdispatch : M.dispatch c = do return reply (← op))
    (h : (do return wrap (← op) : Action σ Answer).run s = (r, s')) (hr : Crosses r)
    (hok : ∀ x, r = .ok (wrap x) → (reply x).ParsesBack ∧ markedFailure? (reply x) = none ∧
      decode (Document.ofJson (reply x)) = .ok x) :
    (do return wrap (← M.exchange.request c decode) : Action σ Answer).run s = (r, s') := by
  rcases hop : op.run s with ⟨f | x, t⟩
  · have hserved : (M.dispatch c).run s = (.error f, t) := by
      rw [hdispatch, Action.run_bind_of_error hop]
    rw [Action.run_bind_of_error hop] at h
    cases h
    exact Action.run_bind_of_error (M.request_error hc hserved hr)
  · have hserved : (M.dispatch c).run s = (.ok (reply x), t) := by
      rw [hdispatch, Action.run_bind_of_ok hop]
      rfl
    rw [Action.run_bind_of_ok hop] at h
    cases h
    obtain ⟨hv, hplain, hx⟩ := hok x rfl
    exact Action.run_bind_of_ok (M.request_ok hc hserved hv hplain hx)

theorem not_reserved {β : Type} {op : Action σ β} {wrap : β → Answer} {s s' : σ}
    {r : Except Failure Answer} (h : (do return wrap (← op) : Action σ Answer).run s = (r, s'))
    (hwrap : ∀ x v, wrap x ≠ .value v) : ¬Reserved r := by
  rintro ⟨f, rfl⟩
  obtain ⟨x, t, -, hx⟩ := Action.run_bind_ok.1 h
  exact hwrap x _ (Action.run_pure_ok.1 hx).1

/-- An operation over the line leaves the state that the operation leaves, and its outcome is
mirrored. -/
theorem perform_loopback {c : Command} (hc : c.Sendable) {s s' : σ} {r : Except Failure Answer}
    (h : (M.perform c).run s = (r, s')) (hr : Crosses r) :
    ∃ r', (M.loopback.perform c).run s = (r', s') ∧ Mirrors r r' := by
  cases c with
  | getDistribution call =>
      refine ⟨r, M.request_same hc rfl h hr ?_, .refl (not_reserved h fun _ _ => by simp)⟩
      rintro e rfl
      obtain ⟨hrange, hfinite, hseconds⟩ := hr
      have hsorted := Json.sorted_twoFields (a := "distribution") (b := "time") (by decide)
        e.distribution.toJson (.ofFloat e.seconds)
      refine ⟨Json.parsesBack_of_readable (Expansion.readable hrange hseconds (by decide)).sorted
        (Json.sorted_sorted _), ?_, (Expansion.finds hrange hfinite).2⟩
      rcases hsorted with hs | hs <;> rw [Expansion.toJson, hs] <;> rfl
  | modifyCount a delta =>
      have hdispatch : M.dispatch (.modifyCount a delta) = do
          return (fun _ => Json.null) (← M.modifyCount a delta) := rfl
      refine ⟨r, M.request_same hc hdispatch h hr ?_, .refl (not_reserved h fun _ _ => by simp)⟩
      rintro x rfl
      exact ⟨Json.parsesBack_of_readable (.null 0) rfl, rfl, rfl⟩
  | fromExternal value =>
      refine ⟨r, M.request_same hc rfl h hr ?_, .refl (not_reserved h fun _ _ => by simp)⟩
      rintro a rfl
      have hsorted := Json.sorted_twoFields (a := "type") (b := "ref") (by decide)
        (.string "literal") (.int a.number)
      have hfinds := Handle.finds hr
      refine ⟨Json.parsesBack_of_readable (Handle.readable hr (by decide)).sorted
        (Json.sorted_sorted _), ?_, hfinds.2⟩
      rcases hsorted with hs | hs <;> rw [Handle.toJson, Value.toJson, hs] <;> rfl
  | toExternal a =>
      by_cases hreserved : Reserved r
      · obtain ⟨f, rfl⟩ := hreserved
        obtain ⟨v, t, hop, hv⟩ := Action.run_bind_ok.1 h
        obtain ⟨heq, rfl⟩ := Action.run_pure_ok.1 hv
        have hv := Answer.value.inj heq
        have hrefused : ∃ f', (M.exchange.request (.toExternal a) Decoder.json).run s
            = (.error f', t) :=
          M.request_reserved hc hop (hv ▸ hr) (markedFailure?_eq_some_iff.2 hv)
        obtain ⟨f', hrequest⟩ := hrefused
        exact ⟨.error f', Action.run_bind_of_error hrequest, fun h => absurd ⟨f, rfl⟩ h,
          fun _ => ⟨f', rfl⟩⟩
      · refine ⟨r, M.request_same hc (bind_pure _).symm h hr ?_, .refl hreserved⟩
        rintro v rfl
        refine ⟨hr, ?_, Document.json_ofJson hr.sorted⟩
        cases hmarked : markedFailure? v with
        | none => rfl
        | some f =>
            exact absurd ⟨f, by rw [markedFailure?_eq_some_iff.1 hmarked]⟩ hreserved
  | isEqual a b =>
      refine ⟨r, M.request_same hc rfl h hr ?_, .refl (not_reserved h fun _ _ => by simp)⟩
      rintro x rfl
      exact ⟨Json.parsesBack_of_readable (.bool 0 x) rfl, rfl, rfl⟩

/-- Operations on a model behind a line to itself leave the model in the state in which the
operations themselves leave it, and their outcomes are mirrored one by one. -/
theorem loopback_transparent {cs : List Command} {s : σ} (hcs : ∀ c ∈ cs, c.Sendable)
    (hcrosses : ∀ r ∈ (M.performAll cs s).1, Crosses r) :
    (M.loopback.performAll cs s).2 = (M.performAll cs s).2 ∧
    List.Forall₂ Mirrors (M.performAll cs s).1 (M.loopback.performAll cs s).1 := by
  induction cs generalizing s with
  | nil =>
      rw [performAll_nil, performAll_nil]
      exact ⟨rfl, .nil⟩
  | cons c cs ih =>
      obtain ⟨r, s', h⟩ := Action.exists_run (M.perform c) s
      rw [performAll_cons h] at hcrosses ⊢
      obtain ⟨r', h', hmirrors⟩ := perform_loopback (hcs c List.mem_cons_self) h
        (hcrosses r List.mem_cons_self)
      obtain ⟨hstate, houtcomes⟩ := ih (fun d hd => hcs d (List.mem_cons_of_mem _ hd))
        fun r hr => hcrosses r (List.mem_cons_of_mem _ hr)
      rw [performAll_cons h']
      exact ⟨hstate, .cons hmirrors houtcomes⟩

end Model

/-! ## Two tosses, and a value that looks like a failure -/

/-- Toss the coin behind a handle twice. -/
def tossTwice : Library :=
  [("toss", fun
    | [p] => .append Call.coinFunction [.literal p] ["x"]
        (.append Call.coinFunction [.literal p] ["y"] (.done [.named "x", .named "y"]))
    | _ => .fail (.unknownFunction "toss"))]

namespace tossTwice

def commands : List Command :=
  [.fromExternal (.number (.float 0.5)), .fromExternal (.object [("$error", .string "x")]),
    .getDistribution ⟨"toss", [.literal ⟨0⟩]⟩, .isEqual ⟨0⟩ ⟨1⟩, .toExternal ⟨1⟩,
    .modifyCount ⟨1⟩ (-1), .toExternal ⟨1⟩]

def outcomes : List (Except Failure Answer) :=
  [.ok (.handle ⟨0⟩), .ok (.handle ⟨1⟩),
    .ok (.expansion ⟨⟨[⟨.coin ⟨2⟩, ["x"]⟩, ⟨.coin ⟨3⟩, ["y"]⟩], [.named "x", .named "y"], rfl⟩, 0⟩),
    .ok (.truth false), .ok (.value (.object [("$error", .string "x")])), .ok .done,
    .error (.unknownReference 1)]

def store : Store :=
  ⟨[(3, ⟨.number (.float 0.5), 1⟩), (2, ⟨.number (.float 0.5), 1⟩),
    (0, ⟨.number (.float 0.5), 1⟩)], 4⟩

end tossTwice

theorem tossTwice_mirrored :
    (tossTwice.model.performAll tossTwice.commands .empty).1 = tossTwice.outcomes ∧
    (tossTwice.model.loopback.performAll tossTwice.commands .empty).2 = tossTwice.store ∧
    List.Forall₂ Mirrors tossTwice.outcomes
      (tossTwice.model.loopback.performAll tossTwice.commands .empty).1 := by
  have houtcomes :
      (tossTwice.model.performAll tossTwice.commands .empty).1 = tossTwice.outcomes := by
    decide +kernel
  have hstore : (tossTwice.model.performAll tossTwice.commands .empty).2 = tossTwice.store := by
    decide +kernel
  have hcommands : ∀ c ∈ tossTwice.commands, c.Sendable := by decide +kernel
  have hcrosses : ∀ r ∈ tossTwice.outcomes, Crosses r := by decide +kernel
  obtain ⟨hstate, hmirrors⟩ := Model.loopback_transparent hcommands
    (M := tossTwice.model) (s := .empty) (houtcomes ▸ hcrosses)
  rw [houtcomes] at hmirrors
  rw [hstore] at hstate
  exact ⟨houtcomes, hstate, hmirrors⟩

end ChanceProof
