import Eventuals.ServerCall
import Eventuals.Library.Transition

/-! A call of a method with one request and one response: what is generated for its client
(`eventuals.h.j2`, over `grpc/client.h`) and for its server, with gRPC between them. -/
namespace Eventuals.UnaryCall

open Resumption
open Composed
open ServerCall
open Transition (Machine)
open TypeTraits (Hierarchy)

/-- What the stream of the call is asked by the client. -/
inductive Question (Request : Type)
  | writeLast (request : Request)
  | read
  | finish
  deriving DecidableEq

/-- What a callback is called with, and what it finds in `data.response` or `data.status`. -/
structure Answer (Response : Type) where
  ok : Bool
  response : Response
  status : Status

variable {G M N T Request Response Buffer : Type}

section Client

variable [DecidableEq T] (H : Hierarchy T)

/-- `ClientWriter::WriteLast` -/
def WriteLast (request : Request) :
    Eventual Unit (Question Request) (Answer Response) T String Unit Unit :=
  .eventual (fun _ _ => .ask (.writeLast request) fun a =>
    if a.ok then .done (.start ()) else .done (.fail (RuntimeError H "Failed to write"))) none none

/-- `ClientReader::Read()`, which has no `done` either. -/
def Read : Stream Unit (Question Request) (Answer Response) T String Response :=
  .ask .read fun a => if a.ok then .body a.response .ended else .ended

/-- `ClientCall::Finish` -/
def Finish : Eventual Unit (Question Request) (Answer Response) T String Unit Status :=
  .eventual (fun _ _ => .ask .finish fun a =>
    if a.ok then .done (.start a.status) else .done (.fail (RuntimeError H "Failed to finish")))
    none none

/-- What the client makes of a status that is not `OK`. -/
def failure (name : String) (status : Status) : Error T String :=
  RuntimeError H ("Failed to '" ++ name ++ "', received gRPC status: " ++ toString status.code ++
    " and error message: " ++ status.message)

def concluded (name : String) (response : Expected T String Response) (status : Status) :
    Expected T String Response :=
  if status.code = Status.OK.code then response else .error (.error (failure H name status))

/-- What is generated for the client, once it has the call. -/
def Unary (name : String) (request : Request) :
    Eventual Unit (Question Request) (Answer Response) T String Unit Response :=
  .composed (.composed (WriteLast H request) (.head (fun _ _ => Read) "empty stream"))
    (Finally Error.itself fun response _ => .closure (fun g => g) fun _ =>
      .composed (Finish H) (.then_ (fun _ g => g) fun status _ =>
        ExpectedToEventual (concluded H name response status)))

end Client

/-- What the world tells the server, where `own` is for what its method has asked. -/
structure ServerAnswer (Buffer N : Type) where
  ok : Bool
  buffer : Buffer
  own : N

/-- What the server has asked and what it was told. -/
abbrev Served (G M N Buffer : Type) :=
  Exchange G (ServerCall.Question Buffer ⊕ M) (ServerAnswer Buffer N)

/-- The stream of the call on the server -/
def channel (M N Buffer : Type) :
    Channel (ServerCall.Question Buffer ⊕ M) (ServerAnswer Buffer N) Buffer where
  ask := .inl
  ok := ServerAnswer.ok
  buffer := ServerAnswer.buffer

/-- What a method and its messages are. -/
structure Method (G M N T Request Response Buffer : Type) where
  name : String
  /-- The stub of the client writes a request and reads a response. -/
  encode : Request → Buffer
  decode : Buffer → Option Response
  deserialize : Buffer → Option Request
  serialize : Response → Option Buffer
  call : Request → Eventual G (ServerCall.Question Buffer ⊕ M) (ServerAnswer Buffer N) T String Unit
    Response

/-- What gRPC carries: messages that have been written and not been read, and a status. -/
structure Wire (Buffer : Type) where
  requests : List Buffer
  responses : List Buffer
  status : Option Status

structure State (G M N T Request Response Buffer : Type) where
  client : Composed.State Unit (Question Request) (Answer Response) T String Response
  server : Composed.State G (ServerCall.Question Buffer ⊕ M) (ServerAnswer Buffer N) T String Bool
  /-- The question that the party waits for has been handed to gRPC. -/
  clientIssued : Bool
  serverIssued : Bool
  wire : Wire Buffer
  history : List (Served G M N Buffer)

inductive Label (G M N Request Response Buffer : Type)
  | client (x : Option (Exchange Unit (Question Request) (Answer Response)))
  | clientIssue
  | server (x : Option (Served G M N Buffer))
  | serverIssue

section Machine

variable [DecidableEq T] (H : Hierarchy T) (m : Method G M N T Request Response Buffer)

namespace Wire

variable (w : Wire Buffer)

def clientIssue : Question Request → Wire Buffer
  | .writeLast request => { w with requests := w.requests ++ [m.encode request] }
  | .read => w
  | .finish => w

def serverIssue : ServerCall.Question Buffer ⊕ M → Wire Buffer
  | .inl (.write buffer) => { w with responses := w.responses ++ [buffer] }
  | .inl (.writeLast buffer) => { w with responses := w.responses ++ [buffer] }
  | .inl (.finish status) => { w with status := some status }
  | .inl .read => w
  | .inl .onDone => w
  | .inr _ => w

/-- Anything may go wrong, but a message that is read is the next one that was written, and a
status is that of the server or one that gRPC makes up for it. -/
def TellsClient (made : Status → Prop) : Question Request → Answer Response → Prop
  | .writeLast _, _ => True
  | .read, a => a.ok = true → w.responses.head?.bind m.decode = some a.response
  | .finish, a => a.ok = true → w.status = some a.status ∨ made a.status

def TellsServer : ServerCall.Question Buffer ⊕ M → ServerAnswer Buffer N → Prop
  | .inl .read, a => a.ok = true → w.requests.head? = some a.buffer
  | _, _ => True

def toldClient : Question Request → Answer Response → Wire Buffer
  | .read, a => if a.ok then { w with responses := w.responses.tail } else w
  | _, _ => w

def toldServer : ServerCall.Question Buffer ⊕ M → ServerAnswer Buffer N → Wire Buffer
  | .inl .read, a => if a.ok then { w with requests := w.requests.tail } else w
  | _, _ => w

end Wire

def Enabled (made : Status → Prop) (s : State G M N T Request Response Buffer) :
    Label G M N Request Response Buffer → Prop
  | .client none => (tick H s.client).isSome
  | .client (some x) => s.clientIssued = true ∧ waiting s.client = some (x.question, x.before) ∧
      s.wire.TellsClient m made x.question x.answer
  | .clientIssue => s.clientIssued = false ∧ (waiting s.client).isSome
  | .server none => (tick H s.server).isSome
  | .server (some x) => s.serverIssued = true ∧ waiting s.server = some (x.question, x.before) ∧
      s.wire.TellsServer x.question x.answer
  | .serverIssue => s.serverIssued = false ∧ (waiting s.server).isSome

instance [DecidableEq G] [DecidableEq M] [DecidableEq Request] [DecidableEq Response]
    [DecidableEq Buffer] (made : Status → Prop) [DecidablePred made]
    (s : State G M N T Request Response Buffer) (l : Label G M N Request Response Buffer) :
    Decidable (Enabled H m made s l) :=
  match l with
  | .client none => inferInstanceAs (Decidable (_ = true))
  | .client (some ⟨.writeLast _, _, _, _⟩) =>
    inferInstanceAs (Decidable (_ = true ∧ _ = some _ ∧ True))
  | .client (some ⟨.read, _, _, _⟩) =>
    inferInstanceAs (Decidable (_ = true ∧ _ = some _ ∧ (_ = true → _ = some _)))
  | .client (some ⟨.finish, _, _, _⟩) =>
    inferInstanceAs (Decidable (_ = true ∧ _ = some _ ∧ (_ = true → _ = some _ ∨ made _)))
  | .clientIssue => inferInstanceAs (Decidable (_ = false ∧ _ = true))
  | .server none => inferInstanceAs (Decidable (_ = true))
  | .server (some ⟨.inl .read, _, _, _⟩) =>
    inferInstanceAs (Decidable (_ = true ∧ _ = some _ ∧ (_ = true → _ = some _)))
  | .server (some ⟨.inl (.write _), _, _, _⟩) =>
    inferInstanceAs (Decidable (_ = true ∧ _ = some _ ∧ True))
  | .server (some ⟨.inl (.writeLast _), _, _, _⟩) =>
    inferInstanceAs (Decidable (_ = true ∧ _ = some _ ∧ True))
  | .server (some ⟨.inl (.finish _), _, _, _⟩) =>
    inferInstanceAs (Decidable (_ = true ∧ _ = some _ ∧ True))
  | .server (some ⟨.inl .onDone, _, _, _⟩) =>
    inferInstanceAs (Decidable (_ = true ∧ _ = some _ ∧ True))
  | .server (some ⟨.inr _, _, _, _⟩) =>
    inferInstanceAs (Decidable (_ = true ∧ _ = some _ ∧ True))
  | .serverIssue => inferInstanceAs (Decidable (_ = false ∧ _ = true))

def next (s : State G M N T Request Response Buffer) :
    Label G M N Request Response Buffer → State G M N T Request Response Buffer
  | .client none => { s with client := (tick H s.client).getD s.client }
  | .client (some x) =>
    { s with
      client := answer s.client x.answer x.after
      clientIssued := false
      wire := s.wire.toldClient x.question x.answer }
  | .clientIssue =>
    { s with
      clientIssued := true
      wire := ((waiting s.client).map fun q => s.wire.clientIssue m q.1).getD s.wire }
  | .server none => { s with server := (tick H s.server).getD s.server }
  | .server (some x) =>
    { s with
      server := answer s.server x.answer x.after
      serverIssued := false
      wire := s.wire.toldServer x.question x.answer
      history := s.history ++ [x] }
  | .serverIssue =>
    { s with
      serverIssued := true
      wire := ((waiting s.server).map fun q => s.wire.serverIssue q.1).getD s.wire }

/-- Both have been started, with an interrupt or without one. -/
def init (interrupts : Bool × Bool) (request : Request) (g : G) :
    State G M N T Request Response Buffer where
  client := begin interrupts.1 (Unary H m.name request) (.start ()) ()
  server :=
    begin interrupts.2 (ServeUnary H (channel M N Buffer) m.deserialize m.serialize m.call)
      (.start ()) g
  clientIssued := false
  serverIssued := false
  wire := ⟨[], [], none⟩
  history := []

def machine (m : Method G M N T Request Response Buffer) (made : Status → Prop)
    (interrupts : Bool × Bool) (request : Request) (g : G) :
    Machine (State G M N T Request Response Buffer) (Label G M N Request Response Buffer) where
  Initial s := s = init H m interrupts request g
  Enabled := Enabled H m made
  next := next H m

instance [DecidableEq G] [DecidableEq M] [DecidableEq Request] [DecidableEq Response]
    [DecidableEq Buffer] (made : Status → Prop) [DecidablePred made] (interrupts : Bool × Bool)
    (request : Request) (g : G) (s : State G M N T Request Response Buffer)
    (l : Label G M N Request Response Buffer) :
    Decidable ((machine H m made interrupts request g).Enabled s l) :=
  inferInstanceAs (Decidable (Enabled H m made s l))

end Machine

end Eventuals.UnaryCall
