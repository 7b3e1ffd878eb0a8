import ChanceProof.Proofs.Line.Bytes
import ChanceProof.Proofs.Line.Framing

/-!
# Requests and replies stay paired

Nothing but their order says which reply answers which request. A server writes one line for each
line that is not blank, in their order, and a client takes one line from its stream for each request
that it writes, whatever is wrong with that line. So the k-th request is answered by the k-th reply,
and a reply that cannot be read spoils its own request only: `requests_paired`.
-/

namespace ChanceProof

/-- The lines of a text that are not blank, without their ends. -/
def Text.requests (text : String) : List String :=
  ((text.toList.splitOn '\n').filter fun line => !line.all isBlank).map String.ofList

/-- There is room for all that was written. -/
def Served.Fits (s : Served) (room : Option Nat) : Prop :=
  ∀ free, room = some free → s.output.length ≤ free

namespace Text

theorem requests_last {line : List Char} (h : '\n' ∉ line) :
    requests (.ofList line) = if line.all isBlank then [] else [.ofList line] := by
  rw [requests, String.toList_ofList, List.splitOn_eq_singleton h, List.filter_cons]
  cases line.all isBlank <;> rfl

theorem requests_append {line : List Char} (h : '\n' ∉ line) (rest : List Char) :
    requests (.ofList (line ++ '\n' :: rest)) = if line.all isBlank then requests (.ofList rest)
      else .ofList line :: requests (.ofList rest) := by
  rw [requests, requests, String.toList_ofList, String.toList_ofList,
    List.splitOn_append_cons_self_of_not_mem h, List.filter_cons]
  cases line.all isBlank <;> rfl

end Text

/-! ## Serving one line -/

theorem Served.output_cons (reply : String) (replies : List String) :
    Served.output ⟨reply :: replies, none⟩
      = bytesOf reply ++ newline :: Served.output ⟨replies, none⟩ := by
  rw [output, List.flatMap_cons, List.append_assoc, List.singleton_append]
  rfl

/-- Where all replies fit, the first one fits and leaves room for the others. -/
theorem Served.Fits.cons {reply : String} {replies : List String} {room : Option Nat}
    (h : Served.Fits ⟨reply :: replies, none⟩ room) :
    ∃ room', roomAfter? room reply = some room' ∧ Served.Fits ⟨replies, none⟩ room' := by
  cases room with
  | none => exact ⟨none, rfl, fun _ h => nomatch h⟩
  | some free =>
      have hlength := h free rfl
      rw [output_cons, List.length_append, List.length_cons, length_bytesOf] at hlength
      refine ⟨some (free - (reply.utf8ByteSize + 1)), if_pos (by omega), ?_⟩
      rintro _ ⟨⟩
      omega

namespace Model

variable {σ : Type} (M : Model σ)

/-- A line is answered in the same way with and without its end. -/
theorem handleLine_lineEnd (line : String) : M.handleLine (line ++ "\n") = M.handleLine line := by
  have hend : ∀ c ∈ ['\n'], c = '\r' ∨ c = '\n' := by simp
  have hdecode : Command.decode (line ++ "\n") = Command.decode line :=
    Command.decode_append line hend
  rw [handleLine, handleLine, request, request, hdecode]

theorem exists_encodeReply (line : String) (s : σ) :
    ∃ o, ((M.handleLine line).run s).1 = encodeReply o := ⟨_, rfl⟩

variable {M} in
theorem run_mapM_handleLine_cons {line : String} {asked replies : List String} {reply : String}
    {s s₁ s₂ : σ} (hreply : (M.handleLine line).run s = (reply, s₁))
    (hrest : (asked.mapM M.handleLine).run s₁ = (replies, s₂)) :
    ((line :: asked).mapM M.handleLine).run s = (reply :: replies, s₂) := by
  rw [List.mapM_cons, StateT.run_bind, hreply]
  show (StateT.run _ s₁ : Id _) = _
  rw [StateT.run_bind, hrest]
  rfl

/-- There is one reply for each request, and it is one line. -/
theorem replies_to {asked replies : List String} {s s' : σ}
    (h : (asked.mapM M.handleLine).run s = (replies, s')) :
    replies.length = asked.length ∧ ∀ reply ∈ replies, '\n' ∉ reply.toList := by
  induction asked generalizing s replies with
  | nil =>
      cases h
      exact ⟨rfl, fun _ h => absurd h List.not_mem_nil⟩
  | cons line asked ih =>
      obtain ⟨reply, s₁, hreply⟩ : ∃ reply s₁, (M.handleLine line).run s = (reply, s₁) :=
        ⟨_, _, rfl⟩
      obtain ⟨rest, s₂, hrest⟩ : ∃ rest s₂, (asked.mapM M.handleLine).run s₁ = (rest, s₂) :=
        ⟨_, _, rfl⟩
      obtain ⟨rfl, rfl⟩ := Prod.mk.inj ((run_mapM_handleLine_cons hreply hrest).symm.trans h)
      obtain ⟨hlength, hlines⟩ := ih hrest
      refine ⟨congrArg (· + 1) hlength, List.forall_mem_cons.2 ⟨fun hmem => ?_, hlines⟩⟩
      obtain ⟨o, ho⟩ := M.exists_encodeReply line s
      rw [hreply] at ho
      subst ho
      exact (printing_encodeReply hmem).inLine.1 rfl

/-- These lines of a stream are answered as these requests are, one after another. -/
def Answers (lines : List (List UInt8)) (asked : List String) : Prop :=
  ∀ s s' replies room, (asked.mapM M.handleLine).run s = (replies, s') →
    Served.Fits ⟨replies, none⟩ room → (M.serveLines room lines).run s = (⟨replies, none⟩, s')

variable {M} {lines : List (List UInt8)} {asked : List String}

theorem Answers.nil : M.Answers [] [] := by
  rintro s s' replies room ⟨⟩ -
  rfl

theorem Answers.blank (h : M.Answers lines asked) {text : String}
    (hblank : text.toList.all Text.isBlank = true) : M.Answers (bytesOf text :: lines) asked := by
  intro s s' replies room hr hfits
  rw [serveLines, textOf?_bytesOf]
  simp only [if_pos hblank]
  exact h s s' replies room hr hfits

theorem Answers.cons (h : M.Answers lines asked) {text line : String}
    (hblank : text.toList.all Text.isBlank = false)
    (hline : M.handleLine text = M.handleLine line) :
    M.Answers (bytesOf text :: lines) (line :: asked) := by
  intro s s' replies room hr hfits
  obtain ⟨reply, s₁, hreply⟩ : ∃ reply s₁, (M.handleLine line).run s = (reply, s₁) := ⟨_, _, rfl⟩
  obtain ⟨rest, s₂, hrest⟩ : ∃ rest s₂, (asked.mapM M.handleLine).run s₁ = (rest, s₂) := ⟨_, _, rfl⟩
  obtain ⟨rfl, rfl⟩ := Prod.mk.inj ((run_mapM_handleLine_cons hreply hrest).symm.trans hr)
  obtain ⟨room', hroom, hfits⟩ := hfits.cons
  rw [serveLines, textOf?_bytesOf]
  simp only [hblank, Bool.false_eq_true, if_false]
  rw [StateT.run_bind, hline, hreply]
  simp only [bind, hroom]
  exact congrArg (fun x : Served × σ => (x.1.after reply, x.2)) (h s₁ s₂ rest room' hrest hfits)

theorem Answers.line (h : M.Answers lines asked) {line : List Char} {text : String}
    (htext : text = .ofList line ∨ text = .ofList line ++ "\n") :
    M.Answers (bytesOf text :: lines)
      (if line.all Text.isBlank then asked else .ofList line :: asked) := by
  have hall : text.toList.all Text.isBlank = line.all Text.isBlank := by
    rcases htext with rfl | rfl
    · rw [String.toList_ofList]
    · rw [String.toList_append, String.toList_ofList, List.all_append]
      exact Bool.and_true _
  have hline : M.handleLine text = M.handleLine (.ofList line) := by
    rcases htext with rfl | rfl
    · rfl
    · exact M.handleLine_lineEnd _
  cases hblank : line.all Text.isBlank with
  | true => exact h.blank (hall.trans hblank)
  | false => exact h.cons (hall.trans hblank) hline

/-- The lines of a text are answered as its requests are, whether the last one has ended or not. -/
theorem answers_linesOf (text : String) :
    M.Answers (linesOf (bytesOf text)) (Text.requests text) := by
  suffices h : ∀ cs, M.Answers (linesOf (bytesOf (.ofList cs))) (Text.requests (.ofList cs)) by
    simpa using h text.toList
  have hbytes : ∀ {line : List Char}, '\n' ∉ line → newline ∉ bytesOf (.ofList line) :=
    fun h => newline_not_mem_bytesOf (by rwa [String.toList_ofList])
  refine piece_induction (x := '\n') (fun line hline => ?_) fun line rest hline ih => ?_
  · rw [Text.requests_last hline]
    by_cases hempty : line = []
    · rw [hempty]
      exact .nil
    · rw [linesOf_unterminated (hbytes hline) (by simpa [bytesOf_eq_nil_iff] using hempty)]
      exact Answers.nil.line (.inl rfl)
  · have htext : String.ofList (line ++ '\n' :: rest) = .ofList line ++ "\n" ++ .ofList rest :=
      String.toList_inj.1 (by simp)
    rw [Text.requests_append hline, htext, bytesOf_append, bytesOf_append, bytesOf_lineEnd,
      List.append_assoc, List.singleton_append, linesOf_append_newline (hbytes hline),
      ← bytesOf_lineEnd, ← bytesOf_append]
    exact ih.line (.inr rfl)

end Model

/-! ## One exchange -/

namespace Command

variable {α : Type}

/-- What a reply to a command says, for a decoder of the values that are expected. -/
def valueOf (c : Command) (decode : Decoder α) (reply : String) : Except Failure α := do
  let v ← decodeReply reply
  match decode (Document.ofJson v) with
  | .ok x => return x
  | .error fault =>
    throw (.protocol ("unexpected reply to " ++ c.name ++ ": " ++ Decoder.reasonOf fault))

/-- What a reply answers to a command. -/
def answerOf (c : Command) (reply : String) : Except Failure Answer :=
  match c with
  | .getDistribution _ => do return .expansion (← c.valueOf Expansion.decode reply)
  | .modifyCount _ _ => do
    c.valueOf Decoder.null reply
    return .done
  | .fromExternal _ => do return .handle (← c.valueOf Handle.decode reply)
  | .toExternal _ => do return .value (← c.valueOf Decoder.json reply)
  | .isEqual _ _ => do return .truth (← c.valueOf Decoder.bool reply)

end Command

namespace Exchange

variable {τ α : Type} (exchange : Exchange τ) (c : Command)

theorem liftM_bind {β : Type} (x : Except Failure α) (f : α → Except Failure β) :
    (liftM (x >>= f) : Action τ β) = liftM x >>= fun a => liftM (f a) := by
  cases x <;> rfl

/-- A request is an exchange, and then nothing but its reply counts. -/
theorem request_eq (decode : Decoder α) :
    exchange.request c decode
      = exchange c.encode >>= fun reply => liftM (c.valueOf decode reply) := by
  refine bind_congr fun reply => ?_
  rw [Command.valueOf, liftM_bind]
  refine bind_congr fun v => ?_
  cases decode (Document.ofJson v) <;> rfl

theorem perform_eq :
    exchange.model.perform c = exchange c.encode >>= fun reply => liftM (c.answerOf reply) := by
  cases c <;>
  · rw [Model.perform]
    show exchange.request _ _ >>= _ = _
    rw [request_eq, bind_assoc]
    exact bind_congr fun reply => (liftM_bind _ _).symm

end Exchange

/-- The text of a line that was received, if there is one. -/
def received : Option (List UInt8) → Except Failure String
  | none => .error (.protocol "connection closed before reply")
  | some line =>
    match textOf? line with
    | some text => .ok text
    | none => .error (.protocol "stream did not contain valid UTF-8")

/-- What a line of the stream answers to a command, if there is one. -/
def Command.outcome (c : Command) (line? : Option (List UInt8)) : Except Failure Answer := do
  c.answerOf (← received line?)

namespace Connection

/-- An exchange writes its line and takes one line from the stream, if there is one. -/
theorem run_exchange (line : String) (conn : Connection) :
    (exchange line).run conn = (received (linesOf conn.incoming).head?,
      ⟨(linesOf conn.incoming).tail.flatten, conn.requests ++ [line]⟩) := by
  rcases conn with ⟨incoming, requests⟩
  have hwritten : (exchange line).run ⟨incoming, requests⟩
      = readLine.run ⟨incoming, requests ++ [line]⟩ :=
    Action.run_bind_of_ok (Action.run_modify _ _)
  rw [hwritten, readLine, Action.run_bind_of_ok (Action.run_get _)]
  cases hempty : incoming.isEmpty with
  | true =>
      rw [List.isEmpty_iff.1 hempty]
      rfl
  | false =>
      have hne : incoming ≠ [] := fun h => by rw [h] at hempty; cases hempty
      simp only [Bool.false_eq_true, if_false, linesOf_eq_cons hne, List.head?_cons,
        List.tail_cons, flatten_linesOf, received]
      cases textOf? (takeLine incoming).1 <;> rfl

/-- An operation writes its command and takes one line from the stream, and nothing but that line
decides what it gives. -/
theorem run_perform (c : Command) (conn : Connection) :
    (exchange.model.perform c).run conn = (c.outcome (linesOf conn.incoming).head?,
      ⟨(linesOf conn.incoming).tail.flatten, conn.requests ++ [c.encode]⟩) := by
  rw [exchange.perform_eq, Action.run_bind, run_exchange, Command.outcome]
  rcases received (linesOf conn.incoming).head? with f | reply
  · rfl
  · exact Action.run_liftM _ _

theorem linesOf_flatten_tail (bytes : List UInt8) :
    linesOf (linesOf bytes).tail.flatten = (linesOf bytes).tail := by
  by_cases h : bytes = []
  · rw [h]
    rfl
  · rw [linesOf_eq_cons h, List.tail_cons, flatten_linesOf]

/-- Each operation writes its command and is answered by its own line of the stream. -/
theorem performAll_exchange (cs : List Command) (conn : Connection) :
    exchange.model.performAll cs conn =
      (cs.mapIdx fun k c => c.outcome (linesOf conn.incoming)[k]?,
        ⟨((linesOf conn.incoming).drop cs.length).flatten,
          conn.requests ++ cs.map Command.encode⟩) := by
  induction cs generalizing conn with
  | nil =>
      rw [Model.performAll_nil, List.mapIdx_nil, List.map_nil, List.append_nil, List.length_nil,
        List.drop_zero, flatten_linesOf]
  | cons c cs ih =>
      rw [Model.performAll_cons (run_perform c conn), ih]
      simp only [linesOf_flatten_tail, List.mapIdx_cons, List.head?_eq_getElem?, List.getElem?_tail,
        List.drop_tail, List.map_cons, List.append_assoc, List.singleton_append, List.length_cons]

theorem sent_append (incoming : List UInt8) (requests more : List String) :
    sent ⟨incoming, requests ++ more⟩
      = String.join (requests.map (· ++ "\n")) ++ String.join (more.map (· ++ "\n")) := by
  rw [sent, List.map_append]
  exact String.toList_inj.1 (by simp)

end Connection

/-! ## Whole connections -/

/-- Requests and replies are paired by their order. A server answers the lines of a text that are
not blank one after another and writes one line for each, if there is room for what it writes. An
operation of a client writes its command as one line, and its outcome is what the line of the stream
in the same place answers, whatever the lines before it are. Behind the last line of the stream
every operation fails. -/
theorem requests_paired {σ : Type} (M : Model σ) :
    (∀ {s s' : σ} (text : String) {replies : List String} {room : Option Nat},
      ((Text.requests text).mapM M.handleLine).run s = (replies, s') →
      Served.Fits ⟨replies, none⟩ room →
      (M.serve room (bytesOf text)).run s = (⟨replies, none⟩, s') ∧
        Served.handled ⟨replies, none⟩ = (Text.requests text).length ∧
        (Served.output ⟨replies, none⟩).splitOn newline = replies.map bytesOf ++ [[]]) ∧
    ∀ (conn : Connection) (cs : List Command),
      (Connection.exchange.model.performAll cs conn).1
          = cs.mapIdx (fun k c => c.outcome (linesOf conn.incoming)[k]?) ∧
        (Connection.exchange.model.performAll cs conn).2.sent
          = conn.sent ++ String.join (cs.map fun c => c.encode ++ "\n") ∧
        ∀ k, (linesOf conn.incoming).length ≤ k → k < cs.length →
          (Connection.exchange.model.performAll cs conn).1[k]?
            = some (.error (.protocol "connection closed before reply")) := by
  refine ⟨fun {s s'} text {replies room} hr hfits => ?_, fun conn cs => ?_⟩
  · obtain ⟨hlength, hlines⟩ := M.replies_to hr
    refine ⟨Model.answers_linesOf text s s' replies room hr hfits, hlength, ?_⟩
    have houtput : Served.output ⟨replies, none⟩
        = (replies.map bytesOf).flatMap fun p => p ++ [newline] := by
      rw [Served.output, List.flatMap_map]
    rw [houtput]
    refine splitOn_flatMap_newline fun p hp => ?_
    obtain ⟨reply, hreply, rfl⟩ := List.mem_map.1 hp
    exact newline_not_mem_bytesOf (hlines reply hreply)
  · rw [Connection.performAll_exchange]
    refine ⟨rfl, ?_, fun k hended hk => ?_⟩
    · rw [Connection.sent_append, List.map_map]
      rfl
    · rw [List.getElem?_mapIdx, List.getElem?_eq_getElem hk, List.getElem?_eq_none hended]
      rfl

/-! ## An untidy text and an untidy stream -/

namespace untidy

/-- A line with two ends, two blank lines, a line that is no command, and a line without an end. -/
def text : String :=
  "fromExternal 0.5\r\n \n\nnonsense\ntoExternal \x7b\"type\":\"literal\",\"ref\":0\x7d"

def replies : List String :=
  ["\x7b\"ref\":0,\"type\":\"literal\"\x7d",
    encodeReply (.error (.protocol "missing arguments in `nonsense`")), "0.5"]

def store : Store := ⟨[(0, ⟨.number (.float 0.5), 1⟩)], 1⟩

/-- An error reply without a failure, a line that is no text, a value of another shape, a line that
is no value, and a truth value. -/
def stream : List UInt8 :=
  bytesOf "\x7b\"$error\":\"lost\"\x7d\n" ++ [255, newline] ++ bytesOf "null\n]\ntrue"

def commands : List Command :=
  [.toExternal ⟨0⟩, .toExternal ⟨0⟩, .isEqual ⟨0⟩ ⟨0⟩, .toExternal ⟨0⟩, .isEqual ⟨0⟩ ⟨0⟩,
    .modifyCount ⟨0⟩ (-1)]

def outcomes : List (Except Failure Answer) :=
  [.error (.protocol "unreadable error reply \"lost\": expected a tagged value"),
    .error (.protocol "stream did not contain valid UTF-8"),
    .error (.protocol "unexpected reply to isEqual: expected a truth value"),
    .error (.codec "malformed JSON at line 1 column 0"), .ok (.truth true),
    .error (.protocol "connection closed before reply")]

end untidy

theorem untidy_paired :
    ((Library.model []).serve (some 200) (bytesOf untidy.text)).run .empty
      = (⟨untidy.replies, none⟩, untidy.store) ∧
    (Served.output ⟨untidy.replies, none⟩).splitOn newline = untidy.replies.map bytesOf ++ [[]] ∧
    (Connection.exchange.model.performAll untidy.commands (.start untidy.stream)).1
      = untidy.outcomes ∧
    (Connection.exchange.model.performAll untidy.commands (.start untidy.stream)).2.sent
      = String.join (untidy.commands.map fun c => c.encode ++ "\n") := by
  obtain ⟨hserver, hclient⟩ := requests_paired (Library.model [])
  have hreplies : ((Text.requests untidy.text).mapM (Library.model []).handleLine).run .empty
      = (untidy.replies, untidy.store) :=
    Prod.ext (by decide +kernel) (by decide +kernel)
  have hroom : Served.Fits ⟨untidy.replies, none⟩ (some 200) := by
    rintro _ ⟨⟩
    decide +kernel
  obtain ⟨hserved, -, hsplit⟩ := hserver untidy.text hreplies hroom
  obtain ⟨houtcomes, hsent, -⟩ := hclient (.start untidy.stream) untidy.commands
  refine ⟨hserved, hsplit, houtcomes.trans ?_, hsent⟩
  decide +kernel

end ChanceProof
