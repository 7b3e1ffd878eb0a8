import ChanceProof.Proofs.Json.Sendable
import ChanceProof.Proofs.Line.Transparent

/-!
# Each command and each reply is one line

A name may hold line breaks, blanks and quotes, it may look like another command or like the mark
of a failure, and none of this reaches the line: every command and every reply is one line, and it
is read back as what it was, with any line ends behind it (`line_roundTrips`). Of the replies all
come back but those that carry an object whose only key marks a failure.
-/

namespace ChanceProof

open Text (Printing)

theorem Text.dropEnd_append {test : Char → Bool} {ends : List Char}
    (h : ∀ c ∈ ends, test c = true) (cs : List Char) :
    dropEnd test (cs ++ ends) = dropEnd test cs := by
  rw [dropEnd, dropEnd, List.reverse_append,
    List.dropWhile_append_of_pos fun c hc => h c (List.mem_reverse.1 hc)]

theorem Text.Printing.inLine {c : Char} (h : Printing c) : c ≠ '\n' ∧ c ≠ '\r' := by
  constructor <;> rintro rfl <;> exact absurd h (by decide)

theorem Json.printing_print {v : Json} {c : Char} (h : c ∈ v.print.toList) : Printing c := by
  rw [print, String.toList_ofList] at h
  exact v.printing_chars c h

namespace Command

/-- The numbers of a command fit the words that carry them. -/
def InRange : Command → Prop
  | .getDistribution call => call.InRange
  | .modifyCount h delta => h.InRange ∧ -(signedLimit : Int) ≤ delta ∧ delta < signedLimit
  | .fromExternal _ => True
  | .toExternal h => h.InRange
  | .isEqual a b => a.InRange ∧ b.InRange

theorem InRange.sendable {c : Command} (h : c.InRange)
    (hvalue : ∀ v, c = .fromExternal v → v.Sendable) : c.Sendable := by
  cases c with
  | fromExternal value => exact (hvalue value rfl).parsesBack
  | _ => exact h

theorem printing_encode {c : Command} {d : Char} (h : d ∈ c.encode.toList) : Printing d := by
  have hname : ∀ e ∈ c.name.toList, Printing e := by
    cases c <;> rw [name] <;> exact Text.printing_of_all (by decide)
  rw [encode, String.toList_append, String.toList_append] at h
  rcases List.mem_append.1 h with h | h
  · rcases List.mem_append.1 h with h | h
    · exact hname d h
    · exact List.mem_singleton.1 h ▸ (by decide)
  · exact Json.printing_print h

/-- Line ends behind a command change nothing. -/
theorem decode_append (line : String) {ends : List Char}
    (h : ∀ c ∈ ends, c = '\r' ∨ c = '\n') :
    Command.decode (line ++ String.ofList ends) = Command.decode line := by
  have hends : ∀ c ∈ ends, (decide (c = '\r') || decide (c = '\n')) = true := fun c hc => by
    simpa using h c hc
  unfold Command.decode
  rw [String.toList_append, String.toList_ofList, Text.dropEnd_append hends]

end Command

theorem printing_encodeReply {o : Except Failure Json} {c : Char}
    (h : c ∈ (encodeReply o).toList) : Printing c := by
  cases o <;> exact Json.printing_print h

/-- A reply comes back just when it does not look like a failure without being one. -/
theorem decodeReply_eq_iff {o : Except Failure Json} (hvalue : ∀ v, o = .ok v → v.Sendable)
    (hfailure : ∀ f, o = .error f → f.InRange) :
    decodeReply (encodeReply o) = o ↔ ¬∃ f, o = .ok (.object [("$error", f)]) := by
  cases o with
  | error f =>
      refine ⟨fun _ => ?_, fun _ => decodeReply_error (hfailure f rfl)⟩
      rintro ⟨_, h⟩
      cases h
  | ok v =>
      have hv := (hvalue v rfl).parsesBack
      cases hmarked : markedFailure? v with
      | none =>
          refine ⟨fun _ => ?_, fun _ => decodeReply_ok hv hmarked⟩
          rintro ⟨f, h⟩
          rw [markedFailure?_eq_some_iff.2 (Except.ok.inj h)] at hmarked
          cases hmarked
      | some f =>
          obtain ⟨g, hg⟩ := decodeReply_reserved hv hmarked
          rw [hg, markedFailure?_eq_some_iff.1 hmarked]
          exact ⟨fun h => (nomatch h), fun h => absurd ⟨f, rfl⟩ h⟩

/-- Commands and replies are single lines, and they are read back: a command with any run of line
ends behind it, a reply unless it is an object whose only key marks a failure. -/
theorem line_roundTrips :
    (∀ c : Command, (∀ d ∈ c.encode.toList, d ≠ '\n' ∧ d ≠ '\r') ∧
      (c.InRange → (∀ v, c = .fromExternal v → v.Sendable) →
        ∀ ends : List Char, (∀ d ∈ ends, d = '\r' ∨ d = '\n') →
          Command.decode (c.encode ++ String.ofList ends) = .ok c)) ∧
    ∀ o : Except Failure Json, (∀ d ∈ (encodeReply o).toList, d ≠ '\n' ∧ d ≠ '\r') ∧
      ((∀ v, o = .ok v → v.Sendable) → (∀ f, o = .error f → f.InRange) →
        (decodeReply (encodeReply o) = o ↔ ¬∃ f, o = .ok (.object [("$error", f)]))) := by
  refine ⟨fun c => ⟨fun d hd => (Command.printing_encode hd).inLine, ?_⟩,
    fun o => ⟨fun d hd => (printing_encodeReply hd).inLine, decodeReply_eq_iff⟩⟩
  intro hrange hvalue ends hends
  rw [Command.decode_append _ hends]
  exact Command.decode_encode (hrange.sendable hvalue)

/-! ## Names and values that look like something else -/

/-- A field of the mark of failures beside another, with a line break in its name. -/
def awkward : Json :=
  .object [("\n", .null), ("$error", .array [.number (.float 0.5), .string "\r\n isEqual \""])]

def awkward.call : Call := ⟨"toExternal \n", [.unknown "$error"]⟩

theorem awkward_sendable : awkward.Sendable := by
  have hnumbers : awkward.numbers = [.float 0.5] := by decide +kernel
  have hhalf : (Json.number (.float 0.5)).ParsesBack := by decide +kernel
  refine ⟨by decide +kernel, fun i hi => ?_, by decide +kernel, fun x hx => ?_⟩
  · rw [hnumbers] at hi
    cases List.mem_singleton.1 hi
  · rw [hnumbers] at hx
    obtain rfl := Number.float.inj (List.mem_singleton.1 hx)
    exact hhalf.readsBack

theorem awkward_roundTrips :
    Command.decode ((Command.fromExternal awkward).encode ++ String.ofList ['\r', '\n', '\n'])
      = .ok (.fromExternal awkward) ∧
    Command.decode ((Command.getDistribution awkward.call).encode ++ String.ofList ['\n'])
      = .ok (.getDistribution awkward.call) ∧
    decodeReply (encodeReply (.ok awkward)) = .ok awkward ∧
    decodeReply (encodeReply (.error (.protocol "\n"))) = .error (.protocol "\n") := by
  have hvalue : ∀ v, Command.fromExternal awkward = .fromExternal v → v.Sendable := by
    rintro v ⟨⟩
    exact awkward_sendable
  have hreply : ∀ v, (.ok awkward : Except Failure Json) = .ok v → v.Sendable := by
    rintro v ⟨⟩
    exact awkward_sendable
  have hcall : awkward.call.InRange := by decide
  refine ⟨(line_roundTrips.1 (.fromExternal awkward)).2 trivial hvalue _ (by simp),
    (line_roundTrips.1 (.getDistribution awkward.call)).2 hcall (fun _ h => by cases h) _
      (by simp),
    ((line_roundTrips.2 _).2 hreply fun _ h => by cases h).2 ?_,
    ((line_roundTrips.2 _).2 (fun _ h => by cases h) fun f h => ?_).2 ?_⟩
  · rintro ⟨f, h⟩
    have hfields := Json.object.inj (Except.ok.inj h)
    exact absurd (congrArg List.length hfields) (by simp)
  · cases h
    trivial
  · rintro ⟨_, h⟩
    cases h

end ChanceProof
