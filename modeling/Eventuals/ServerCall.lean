import Eventuals.ComposedMeaning

/-! A call that a server has accepted: its request is read, the method is called, and the call is
finished with a status (`grpc/server.h`, and what `eventuals.cc.j2` generates for a method). -/
namespace Eventuals.ServerCall

open Resumption
open Composed
open TypeTraits (Hierarchy)

/-- `::grpc::Status` -/
structure Status where
  code : ℕ
  message : String
  deriving DecidableEq

def Status.OK : Status := ⟨0, ""⟩

/-- `::grpc::UNKNOWN` -/
def UNKNOWN : ℕ := 2

/-- What the stream of a call is asked, and its context for `onDone`. -/
inductive Question (Buffer : Type)
  | read
  | write (buffer : Buffer)
  | writeLast (buffer : Buffer)
  | finish (status : Status)
  | onDone
  deriving DecidableEq

/-- How a call asks the world. A callback is called with `ok`, and has been given a buffer if it
is that of a read. -/
structure Channel (O R Buffer : Type) where
  ask : Question Buffer → O
  ok : R → Bool
  buffer : R → Buffer

variable {G O R T A Request Response Buffer : Type}

section Call

variable [DecidableEq T] (H : Hierarchy T) (c : Channel O R Buffer)

def RuntimeError (what : String) : Error T String := ⟨H.runtimeError, what, .rvalue⟩

/-- `ServerReader::Read()`, which has no `done` and so has ended when `Head()` says `Done()`. -/
def Read (deserialize : Buffer → Option Request) : Stream G O R T String Request :=
  .ask (c.ask .read) fun r =>
    if c.ok r then
      match deserialize (c.buffer r) with
      | some request => .body request .ended
      | none => .fail (RuntimeError H "Failed to deserialize request")
    else .ended

/-- `ServerWriter::Write` -/
def Write (serialize : Response → Option Buffer) (response : Response) :
    Eventual G O R T String Unit Unit :=
  .eventual (fun _ _ =>
    match serialize response with
    | some buffer => .ask (c.ask (.write buffer)) fun r =>
      if c.ok r then .done (.start ()) else .done (.fail (RuntimeError H "Failed to write"))
    | none => .done (.fail (RuntimeError H "Failed to serialize response"))) none none

/-- `ServerWriter::WriteLast`, which does not wait for its callback. -/
def WriteLast (serialize : Response → Option Buffer) (response : Response) :
    Eventual G O R T String Unit Unit :=
  .eventual (fun _ _ =>
    match serialize response with
    | some buffer => .ask (c.ask (.writeLast buffer)) fun _ => .done (.start ())
    | none => .done (.fail (RuntimeError H "Failed to serialize response"))) none none

/-- `ServerCall::Finish` -/
def Finish (status : Status) : Eventual G O R T String Unit Unit :=
  .eventual (fun _ _ => .ask (c.ask (.finish status)) fun r =>
    if c.ok r then .done (.start ()) else .done (.fail (RuntimeError H "failed to finish")))
    none none

/-- `ServerCall::WaitForDone` -/
def WaitForDone : Eventual G O R T String A Bool :=
  .eventual (fun _ _ => .ask (c.ask .onDone) fun r => .done (.start (c.ok r))) none none

def UnaryPrologue (deserialize : Buffer → Option Request) : Eventual G O R T String A Request :=
  .head (fun _ _ => Read H c deserialize) "empty stream"

/-- `If(e.has_value()).no([]() { return Just(); }).yes([]() { return Just(); })` -/
def IfHasValue (e : Expected T String Unit) : Eventual G O R T String Unit Unit :=
  .if_ e.isOk (Then fun _ => Just ()) (Then fun _ => Just ())

/-- What both epilogues end with, from `Just(::grpc::Status::OK)` on. -/
def Epilogue : Eventual G O R T String Unit Bool :=
  .composed
    (.composed (Just Status.OK)
      (.catch_ [H.typeErasedError] false fun _ =>
        .thenValue fun argument g =>
          (g, match argument with
            | .error e => ⟨UNKNOWN, e.value⟩
            | .variant e => ⟨UNKNOWN, e.value⟩)))
    (.then_ (fun _ g => g) fun status _ =>
      .composed (Finish H c status)
        (Finally Error.itself fun e _ => .composed (IfHasValue e) (WaitForDone c)))

def UnaryEpilogue (serialize : Response → Option Buffer) : Eventual G O R T String Response Bool :=
  .composed (.then_ (fun _ g => g) fun response _ => WriteLast H c serialize response)
    (Epilogue H c)

/-- `stream >> StreamingEpilogue(call)` -/
def StreamingEpilogue (serialize : Response → Option Buffer)
    (stream : Bool → A → Stream G O R T String Response) : Eventual G O R T String A Bool :=
  .composed (.loop stream (fun _ g => g) fun response _ => Write H c serialize response)
    (Epilogue H c)

/-- What is generated for a method that takes one request, up to what ends the call: `Let()` keeps
the request in a `Closure`. -/
def ServeRequest (deserialize : Buffer → Option Request)
    (serve : Request → Eventual G O R T String Unit Bool) : Eventual G O R T String Unit Bool :=
  .composed (UnaryPrologue H c deserialize)
    (.then_ (fun _ g => g) fun request _ =>
      .closure (fun g => g) fun _ => Then fun _ => serve request)

/-- A method with one request and one response -/
def ServeUnary (deserialize : Buffer → Option Request) (serialize : Response → Option Buffer)
    (method : Request → Eventual G O R T String Unit Response) :
    Eventual G O R T String Unit Bool :=
  ServeRequest H c deserialize fun request =>
    .composed (method request) (UnaryEpilogue H c serialize)

/-- A method with one request and a stream of responses -/
def ServeStreaming (deserialize : Buffer → Option Request) (serialize : Response → Option Buffer)
    (method : Request → Bool → Unit → Stream G O R T String Response) :
    Eventual G O R T String Unit Bool :=
  ServeRequest H c deserialize fun request => StreamingEpilogue H c serialize (method request)

end Call

section Meaning

variable [DecidableEq T] {H : Hierarchy T} (c : Channel O R Buffer) {interrupt : Bool}

/-- The call is finished and has to be done before anything else happens, whatever comes of it. -/
def finished (status : Status) : Program G O R (Signal T String Bool) :=
  .ask (c.ask (.finish status)) fun _ => .ask (c.ask .onDone) fun r => .done (.start (c.ok r))

/-- What becomes of a call whose responses have been written, or not. -/
def settled : Signal T String Unit → Program G O R (Signal T String Bool)
  | .start _ => finished c Status.OK
  | .fail e => finished c ⟨UNKNOWN, e.value⟩
  | .stop => .done .stop

theorem same_waiting (ended : Signal T String Unit) :
    ((Finally Error.itself fun e _ => .composed (IfHasValue e) (WaitForDone c)).meaning (G := G) H
      interrupt ended).Same (.ask (c.ask .onDone) fun r => .done (some (.start (c.ok r)))) := by
  rw [meaning_finally]
  refine .of_act fun g => ?_
  cases ended <;>
    simp only [Signal.expected, Eventual.meaning, IfHasValue, onStart, Except.isOk, Except.toBool,
      if_true, Bool.false_eq_true, if_false, Then] <;>
    exact .of_act fun g => .refl _

theorem same_finish (status : Status) :
    (((Finish H c status).meaning (G := G) H interrupt (.start ())).bind
      (onCall ((Finally Error.itself fun e _ =>
        .composed (IfHasValue e) (WaitForDone c)).meaning H interrupt))).Same
      (calls (finished c status)) := by
  refine Program.Same.ask fun r => ?_
  cases hr : c.ok r with
  | true =>
    simp only [hr, if_true]
    exact same_waiting c _
  | false =>
    simp only [hr, Bool.false_eq_true, if_false]
    exact same_waiting c _

/-- Both epilogues end with the status that the responses have come to. -/
theorem same_epilogue (signal : Signal T String Unit) :
    ((Epilogue H c).meaning (G := G) H interrupt signal).Same (calls (settled c signal)) := by
  cases signal with
  | start u =>
    simp only [Epilogue, Eventual.meaning, Just, onStart, onCall, calls, Program.bind, settled]
    exact .of_act fun g => same_finish c Status.OK
  | fail e =>
    have hcatch : (Catch.Continuation.mk [H.typeErasedError] false interrupt).taken H e.deduce =
        some (.handled 0 (.error e.deduce)) := by
      simp [Catch.Continuation.taken, Catch.handles]
    simp only [Epilogue, Eventual.meaning, Just, onStart, onCall, calls, Option.map_none,
      Option.getD_none, Program.bind, settled, hcatch, Error.value_deduce]
    exact .of_act fun g => .of_act fun g => same_finish c _
  | stop =>
    simp only [Epilogue, Eventual.meaning, Just, onStart, onCall, calls, Option.map_none,
      Option.getD_none, Program.bind, settled]
    exact .refl _

/-- A response is the last one that is written. -/
def answered (serialize : Response → Option Buffer) :
    Signal T String Response → Program G O R (Signal T String Bool)
  | .start response =>
    match serialize response with
    | some buffer => .ask (c.ask (.writeLast buffer)) fun _ => finished c Status.OK
    | none => finished c ⟨UNKNOWN, "Failed to serialize response"⟩
  | .fail e => finished c ⟨UNKNOWN, e.value⟩
  | .stop => .done .stop

theorem same_unaryEpilogue (serialize : Response → Option Buffer)
    (signal : Signal T String Response) :
    ((UnaryEpilogue H c serialize).meaning (G := G) H interrupt signal).Same
      (calls (answered c serialize signal)) := by
  cases signal with
  | start response =>
    simp only [UnaryEpilogue, Eventual.meaning, onStart, calls, WriteLast, Program.bind, answered]
    refine .of_act fun g => ?_
    cases serialize response with
    | some buffer => exact .ask fun r => same_epilogue c (.start ())
    | none => exact same_epilogue c _
  | fail e => exact same_epilogue c (.fail e)
  | stop => exact same_epilogue c .stop

/-- A response of a stream is written before the next one is asked for. -/
def written (H : Hierarchy T) (serialize : Response → Option Buffer) (response : Response) :
    Program G O R (Option (Signal T String Unit)) :=
  match serialize response with
  | some buffer => .ask (c.ask (.write buffer)) fun r =>
    if c.ok r then .done (some (.start ()))
    else .done (some (.fail (RuntimeError H "Failed to write")))
  | none => .done (some (.fail (RuntimeError H "Failed to serialize response")))

theorem same_write (serialize : Response → Option Buffer) (response : Response) :
    ((Write H c serialize response).meaning (G := G) H interrupt (.start ())).Same
      (written c H serialize response) := by
  simp only [Write, Eventual.meaning, written]
  cases serialize response with
  | none => exact .refl _
  | some buffer =>
    refine Program.Same.ask fun r => ?_
    cases hr : c.ok r with
    | true =>
      simp only [hr, if_true]
      exact .refl _
    | false =>
      simp only [hr, Bool.false_eq_true, if_false]
      exact .refl _

/-- What a read comes to where one request is expected. -/
def received (H : Hierarchy T) (deserialize : Buffer → Option Request) (r : R) :
    Signal T String Request :=
  if c.ok r then
    match deserialize (c.buffer r) with
    | some request => .start request
    | none => .fail (RuntimeError H "Failed to deserialize request")
  else .fail (RuntimeError H "empty stream")

theorem meaning_prologue (deserialize : Buffer → Option Request) :
    (UnaryPrologue H c deserialize).meaning (G := G) (A := Unit) H interrupt (.start ()) =
      .ask (c.ask .read) fun r => .done (some (received c H deserialize r)) := by
  simp only [UnaryPrologue, Read, Eventual.meaning, onStart, calls, Stream.head, Program.bind]
  congr 1
  funext r
  unfold received
  cases c.ok r with
  | true => cases deserialize (c.buffer r) <;> rfl
  | false => rfl

theorem same_serveRequest (deserialize : Buffer → Option Request)
    (serve : Request → Eventual G O R T String Unit Bool) :
    ((ServeRequest H c deserialize serve).meaning H interrupt (.start ())).Same
      (.ask (c.ask .read) fun r =>
        onStart (fun request => (serve request).meaning H interrupt (.start ()))
          (received c H deserialize r)) := by
  simp only [ServeRequest, Eventual.meaning, meaning_prologue, Program.bind]
  refine .ask fun r => ?_
  cases received c H deserialize r with
  | start request => exact .of_act fun g => .of_act fun g => .of_act fun g => .refl _
  | fail e => exact .refl _
  | stop => exact .refl _

/-- Of a request that could not be read the call fails and is never finished. -/
theorem runs_serveRequest {deserialize : Buffer → Option Request}
    {serve : Request → Eventual G O R T String Unit Bool} {g g' : G} {x : List (Exchange G O R)}
    {b : Signal T String Bool} :
    Runs H interrupt (ServeRequest H c deserialize serve) (.start ()) g x b g' ↔
      ∃ r g₁ x', x = ⟨c.ask .read, g, r, g₁⟩ :: x' ∧
        (onStart (fun request => (serve request).meaning H interrupt (.start ()))
          (received c H deserialize r)).Plays g₁ x' b g' := by
  rw [runs_iff_plays, (same_serveRequest c deserialize serve).plays_iff]
  rfl

/-- A request comes to a read and whatever its method does, which is what the method does where
nothing is around it. Then the call is finished once, as `OK` with the response written before or
else as `UNKNOWN` with what the error says, and it is over when it is done, whether it could be
finished or not. A call whose request could not be read and one whose method stops are never
finished. -/
theorem serves_unary_iff (H : Hierarchy T) (c : Channel O R Buffer) (interrupt : Bool)
    (deserialize : Buffer → Option Request) (serialize : Response → Option Buffer)
    (method : Request → Eventual G O R T String Unit Response) (g : G)
    (x : List (Exchange G O R)) (b : Signal T String Bool) (g' : G) :
    Runs H interrupt (ServeUnary H c deserialize serialize method) (.start ()) g x b g' ↔
      ∃ r g₁ x', x = ⟨c.ask .read, g, r, g₁⟩ :: x' ∧
        match received c H deserialize r with
        | .start request => ∃ ended g₂ x₁ x₂, x' = x₁ ++ x₂ ∧
            Runs H interrupt (method request) (.start ()) g₁ x₁ ended g₂ ∧
            (answered c serialize ended).Plays g₂ x₂ b g'
        | .fail e => x' = [] ∧ b = .fail e ∧ g' = g₁
        | .stop => x' = [] ∧ b = .stop ∧ g' = g₁ := by
  rw [ServeUnary, runs_serveRequest]
  refine exists_congr fun r => exists_congr fun g₁ => exists_congr fun x' => and_congr_right' ?_
  cases received c H deserialize r with
  | start request =>
    simp only [onStart, Eventual.meaning]
    rw [(same_onCall (.refl _) (same_unaryEpilogue c serialize)).plays_iff, plays_onCall]
    simp only [runs_iff_plays, plays_calls]
  | fail e => simp only [onStart, Program.Plays, Option.some.injEq]
  | stop => simp only [onStart, Program.Plays, Option.some.injEq]

/-- The same for a stream of responses, each of which is written before the next one is asked for;
what cannot be written ends the call too, and the stream is not asked again. -/
theorem serves_streaming_iff (H : Hierarchy T) (c : Channel O R Buffer) (interrupt : Bool)
    (deserialize : Buffer → Option Request) (serialize : Response → Option Buffer)
    (method : Request → Bool → Unit → Stream G O R T String Response) (g : G)
    (x : List (Exchange G O R)) (b : Signal T String Bool) (g' : G) :
    Runs H interrupt (ServeStreaming H c deserialize serialize method) (.start ()) g x b g' ↔
      ∃ r g₁ x', x = ⟨c.ask .read, g, r, g₁⟩ :: x' ∧
        match received c H deserialize r with
        | .start request => ∃ ended g₂ x₁ x₂, x' = x₁ ++ x₂ ∧
            ((method request interrupt ()).forEach (written c H serialize)).Plays g₁ x₁
              (some ended) g₂ ∧
            (settled c ended).Plays g₂ x₂ b g'
        | .fail e => x' = [] ∧ b = .fail e ∧ g' = g₁
        | .stop => x' = [] ∧ b = .stop ∧ g' = g₁ := by
  rw [ServeStreaming, runs_serveRequest]
  refine exists_congr fun r => exists_congr fun g₁ => exists_congr fun x' => and_congr_right' ?_
  cases received c H deserialize r with
  | start request =>
    have hwritten : ((Eventual.loop (method request) (fun _ g => g) fun response _ =>
        Write H c serialize response).meaning H interrupt (.start ())).Same
        ((method request interrupt ()).forEach (written c H serialize)) := by
      simp only [Eventual.meaning, onStart]
      exact Stream.same_forEach (fun response => .of_act fun g => same_write c serialize response) _
    simp only [onStart]
    rw [StreamingEpilogue, Eventual.meaning, (same_onCall hwritten (same_epilogue c)).plays_iff,
      plays_onCall]
    simp only [plays_calls]
  | fail e => simp only [onStart, Program.Plays, Option.some.injEq]
  | stop => simp only [onStart, Program.Plays, Option.some.injEq]

end Meaning

end Eventuals.ServerCall
