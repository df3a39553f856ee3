import Eventuals.UnaryCall

/-! What the client of a call ends with is what the method of its server has come to, whatever is
lost on the way. -/
namespace Eventuals.UnaryCall

open Resumption
open Composed
open ServerCall
open TypeTraits (Hierarchy)

variable {G M N T Request Response Buffer : Type} {H : Hierarchy T}

section Client

/-- The status is asked for, whatever has come before. -/
def conclude (H : Hierarchy T) (name : String) (response : Expected T String Response) :
    Program Unit (Question Request) (Answer Response) (Signal T String Response) :=
  .ask .finish fun a =>
    if a.ok then
      match concluded H name response a.status with
      | .ok response => .done (.start response)
      | .error .stopped => .done .stop
      | .error (.error e) => .done (.fail e.moved)
    else .done (.fail (RuntimeError H "Failed to finish"))

/-- The response is asked for. -/
def reading (H : Hierarchy T) (name : String) :
    Program Unit (Question Request) (Answer Response) (Signal T String Response) :=
  .ask .read fun a =>
    conclude H name (if a.ok then .ok a.response
      else .error (.error (RuntimeError H "empty stream")))

/-- What the client does in all. -/
def calling (H : Hierarchy T) (name : String) (request : Request) :
    Program Unit (Question Request) (Answer Response) (Signal T String Response) :=
  .ask (.writeLast request) fun a =>
    if a.ok then reading H name
    else conclude H name (.error (.error (RuntimeError H "Failed to write")))

variable {interrupt : Bool} {name : String}

theorem same_conclude [DecidableEq T] (ended : Signal T String Response) :
    ((Finally Error.itself fun response _ => Eventual.closure (fun g => g) fun _ =>
        Eventual.composed (Finish H) (.then_ (fun _ g => g) fun status _ =>
          ExpectedToEventual (concluded H name response status))).meaning
      (O := Question Request) (G := Unit) H interrupt ended).Same
      (calls (conclude H name (ended.expected Error.itself))) := by
  rw [meaning_finally]
  refine .of_act fun g => .of_act fun g => .ask fun a => ?_
  cases ha : a.ok with
  | true =>
    simp only [ha, if_true, Program.bind, Eventual.meaning]
    refine .of_act fun g => ?_
    simp only [ExpectedToEventual, Eventual.meaning, calls]
    cases concluded H name (ended.expected Error.itself) a.status with
    | ok response => exact .refl _
    | error e => cases e <;> exact .refl _
  | false =>
    simp only [ha, Bool.false_eq_true, if_false, Program.bind]
    exact .refl _

theorem same_unary [DecidableEq T] (request : Request) :
    ((Unary H name request : Eventual _ _ _ _ _ _ Response).meaning H interrupt (.start ())).Same
      (calls (calling H name request)) := by
  refine .ask fun a => ?_
  cases ha : a.ok with
  | true =>
    simp only [ha, if_true]
    refine .ask fun a => ?_
    cases ha : a.ok with
    | true =>
      simp only [ha, if_true]
      exact same_conclude _
    | false =>
      simp only [ha, Bool.false_eq_true, if_false]
      exact same_conclude _
  | false =>
    simp only [ha, Bool.false_eq_true, if_false]
    exact same_conclude _

/-- What the client may end with, if it may have these responses and these statuses. -/
def Sound (H : Hierarchy T) (name : String) (responses : Response → Prop)
    (statuses : Status → Prop) : Signal T String Response → Prop
  | .start response => responses response
  | .fail e =>
    e ∈ ["Failed to write", "empty stream", "Failed to finish"].map (RuntimeError H) ∨
      ∃ status, statuses status ∧ e = failure H name status
  | .stop => False

/-- What the client is about to do. -/
inductive ClientAt (H : Hierarchy T) (name : String) (request : Request)
    (responses : Response → Prop) (statuses : Status → Prop) :
    Program Unit (Question Request) (Answer Response) (Signal T String Response) → Prop
  | calling : ClientAt H name request responses statuses (calling H name request)
  | reading : ClientAt H name request responses statuses (reading H name)
  | conclude {ended : Signal T String Response} (h : Sound H name responses statuses ended) :
      ClientAt H name request responses statuses (conclude H name (ended.expected Error.itself))
  | done {ended : Signal T String Response} (h : Sound H name responses statuses ended) :
      ClientAt H name request responses statuses (.done ended)

variable {request : Request} {responses : Response → Prop} {statuses : Status → Prop}
  {p : Program Unit (Question Request) (Answer Response) (Signal T String Response)}

theorem Sound.mono {responses' : Response → Prop} {statuses' : Status → Prop}
    (hr : ∀ r, responses r → responses' r) (hs : ∀ s, statuses s → statuses' s)
    {ended : Signal T String Response} (h : Sound H name responses statuses ended) :
    Sound H name responses' statuses' ended := by
  cases ended with
  | start response => exact hr _ h
  | fail e =>
    rcases h with h | ⟨status, hstatus, rfl⟩
    · exact .inl h
    · exact .inr ⟨status, hs _ hstatus, rfl⟩
  | stop => exact h

theorem ClientAt.mono {responses' : Response → Prop} {statuses' : Status → Prop}
    (hr : ∀ r, responses r → responses' r) (hs : ∀ s, statuses s → statuses' s)
    (h : ClientAt H name request responses statuses p) :
    ClientAt H name request responses' statuses' p := by
  cases h with
  | calling => exact .calling
  | reading => exact .reading
  | conclude h => exact .conclude (h.mono hr hs)
  | done h => exact .done (h.mono hr hs)

theorem ClientAt.done_or_ask (h : ClientAt H name request responses statuses p) :
    (∃ ended, p = .done ended ∧ Sound H name responses statuses ended) ∨
      ∃ o k, p = .ask o k ∧ ∀ r, o = .writeLast r → r = request := by
  cases h with
  | calling =>
    refine .inr ⟨_, _, rfl, ?_⟩
    intro r hr
    cases hr
    rfl
  | reading => exact .inr ⟨_, _, rfl, nofun⟩
  | conclude => exact .inr ⟨_, _, rfl, nofun⟩
  | done h => exact .inl ⟨_, rfl, h⟩

theorem sound_error (what : String)
    (h : what ∈ ["Failed to write", "empty stream", "Failed to finish"]) :
    Sound H name responses statuses (.fail (RuntimeError H what)) :=
  .inl (List.mem_map_of_mem h)

/-- Nothing is lost of an error of the client that is kept until the status is there. -/
theorem Sound.moved {e : Error T String} (h : Sound H name responses statuses (.fail e)) :
    Sound H name responses statuses (.fail (e.stored Error.itself).moved) := by
  rcases h with h | ⟨status, hstatus, rfl⟩
  · obtain ⟨what, hwhat, rfl⟩ := List.mem_map.mp h
    exact sound_error what hwhat
  · exact .inr ⟨status, hstatus, rfl⟩

/-- What the client has been told is all that it goes by. -/
theorem ClientAt.told {o : Question Request}
    {k : Answer Response → Program Unit (Question Request) (Answer Response)
      (Signal T String Response)}
    (h : ClientAt H name request responses statuses (.ask o k)) (a : Answer Response)
    (hread : o = .read → a.ok = true → responses a.response)
    (hfinish : o = .finish → a.ok = true → statuses a.status) :
    ClientAt H name request responses statuses (k a) := by
  cases h with
  | calling =>
    cases ha : a.ok with
    | true =>
      simp only [ha, if_true]
      exact .reading
    | false =>
      simp only [ha, Bool.false_eq_true, if_false]
      exact .conclude (sound_error "Failed to write" (by simp))
  | reading =>
    cases ha : a.ok with
    | true =>
      simp only [ha, if_true]
      have hsound : Sound H name responses statuses (.start a.response) := hread rfl ha
      exact .conclude hsound
    | false =>
      simp only [ha, Bool.false_eq_true, if_false]
      exact .conclude (sound_error "empty stream" (by simp))
  | @conclude ended h =>
    cases ha : a.ok with
    | true =>
      simp only [ha, if_true]
      by_cases hc : a.status.code = Status.OK.code
      · simp only [concluded, hc, if_true]
        cases ended with
        | start response => exact .done h
        | fail e => exact .done h.moved
        | stop => exact .done h
      · simp only [concluded, hc, if_false]
        exact .done (.inr ⟨a.status, hfinish rfl ha, rfl⟩)
    | false =>
      simp only [ha, Bool.false_eq_true, if_false]
      exact .done (sound_error "Failed to finish" (by simp))

end Client

section Server

variable [DecidableEq T] (m : Method G M N T Request Response Buffer)

/-- The method was called with the request, and it has ended like that. -/
def Ended (H : Hierarchy T) (interrupt : Bool) (request : Request)
    (history : List (Served G M N Buffer))
    (ended : Signal T String Response) : Prop :=
  ∃ g r g₁ x rest g₂, history = ⟨.inl .read, g, r, g₁⟩ :: (x ++ rest) ∧
    Runs H interrupt (m.call request) (.start ()) g₁ x ended g₂

/-- The status that belongs to what the method has ended with -/
def Deserved (H : Hierarchy T) (interrupt : Bool) (request : Request)
    (history : List (Served G M N Buffer))
    (status : Status) : Prop :=
  (∃ response, Ended m H interrupt request history (.start response) ∧
    status = if (m.serialize response).isSome then Status.OK
      else ⟨UNKNOWN, "Failed to serialize response"⟩) ∨
  ∃ e, Ended m H interrupt request history (.fail e) ∧ status = ⟨UNKNOWN, e.value⟩

/-- What the server does in all. -/
def serving (H : Hierarchy T) (interrupt : Bool) :
    Program G (ServerCall.Question Buffer ⊕ M) (ServerAnswer Buffer N)
      (Option (Signal T String Bool)) :=
  .ask (.inl .read) fun r =>
    onStart (fun request => ((m.call request).meaning H interrupt (.start ())).bind
        (onCall fun ended => calls (answered (channel M N Buffer) m.serialize ended)))
      (received (channel M N Buffer) H m.deserialize r)

/-- What the server is about to do. -/
inductive ServerAt (H : Hierarchy T) (interrupt : Bool) (request : Request) :
    List (Served G M N Buffer) →
    Program G (ServerCall.Question Buffer ⊕ M) (ServerAnswer Buffer N)
      (Option (Signal T String Bool)) →
    G → Prop
  | serving {g : G} : ServerAt H interrupt request [] (serving m H interrupt) g
  | calling {g₀ g₁ g : G} {r : ServerAnswer Buffer N}
      {x : List (Served G M N Buffer)}
      {q : Program G (ServerCall.Question Buffer ⊕ M) (ServerAnswer Buffer N)
        (Option (Signal T String Response))}
      (h : ((m.call request).meaning H interrupt (.start ())).After g₁ x q g) :
      ServerAt H interrupt request (⟨.inl .read, g₀, r, g₁⟩ :: x)
        (q.bind (onCall fun ended => calls (answered (channel M N Buffer) m.serialize ended))) g
  | finishing {history : List (Served G M N Buffer)}
      {status : Status} {g : G} (h : Deserved m H interrupt request history status) :
      ServerAt H interrupt request history (calls (finished (channel M N Buffer) status)) g
  | waiting {history : List (Served G M N Buffer)}
      {g : G} : ServerAt H interrupt request history
        (.ask (.inl .onDone) fun r => .done (some (.start r.ok))) g
  | done {history : List (Served G M N Buffer)}
      {ended : Option (Signal T String Bool)} {g : G} :
      ServerAt H interrupt request history (.done ended) g

variable {m} {interrupt : Bool} {request : Request} {history : List (Served G M N Buffer)}
  {p : Program G (ServerCall.Question Buffer ⊕ M) (ServerAnswer Buffer N)
    (Option (Signal T String Bool))}
  {g g' : G}

theorem Ended.append {ended : Signal T String Response}
    (h : Ended m H interrupt request history ended)
    (x : List (Served G M N Buffer)) : Ended m H interrupt request (history ++ x) ended := by
  obtain ⟨g, r, g₁, y, rest, g₂, rfl, hruns⟩ := h
  exact ⟨g, r, g₁, y, rest ++ x, g₂, by simp, hruns⟩

theorem Deserved.append {status : Status} (h : Deserved m H interrupt request history status)
    (x : List (Served G M N Buffer)) : Deserved m H interrupt request (history ++ x) status := by
  rcases h with ⟨response, hended, hs⟩ | ⟨e, hended, hs⟩
  · exact .inl ⟨response, hended.append x, hs⟩
  · exact .inr ⟨e, hended.append x, hs⟩

/-- A response that has been written is what the method has returned. -/
def Written (m : Method G M N T Request Response Buffer) (H : Hierarchy T) (interrupt : Bool)
    (request : Request) (history : List (Served G M N Buffer)) (buffer : Buffer) : Prop :=
  ∃ response, m.serialize response = some buffer ∧
    Ended m H interrupt request history (.start response)

/-- What the server may ask. -/
def Fair (m : Method G M N T Request Response Buffer) (H : Hierarchy T) (interrupt : Bool)
    (request : Request) (history : List (Served G M N Buffer)) :
    ServerCall.Question Buffer ⊕ M → Prop
  | .inl (.write _) => False
  | .inl (.writeLast buffer) => Written m H interrupt request history buffer
  | .inl (.finish status) => Deserved m H interrupt request history status
  | _ => True

/-- The server goes on with one question, whatever it is told. -/
def Goes (m : Method G M N T Request Response Buffer) (H : Hierarchy T) (interrupt : Bool)
    (request : Request) (history : List (Served G M N Buffer))
    (p : Program G (ServerCall.Question Buffer ⊕ M) (ServerAnswer Buffer N)
      (Option (Signal T String Bool)))
    (g : G) : Prop :=
  ∃ o k g', p.Sim g (.ask o k) g' ∧ Fair m H interrupt request history o ∧
    ∀ r g₁, (o = .inl .read → r.ok = true → r.buffer = m.encode request) →
      ∃ q, (k r).Sim g₁ q g₁ ∧
        ServerAt m H interrupt request (history ++ [⟨o, g', r, g₁⟩]) q g₁

theorem goes_finished {status : Status}
    (hsim : p.Sim g (calls (finished (channel M N Buffer) status)) g')
    (h : Deserved m H interrupt request history status) :
    Goes m H interrupt request history p g :=
  ⟨_, _, g', hsim, h, fun _ g₁ _ => ⟨_, .refl _ g₁, .waiting⟩⟩

/-- What becomes of the call once the method has ended -/
theorem goes_answered {ended : Signal T String Response}
    (hsim : p.Sim g (calls (answered (channel M N Buffer) m.serialize ended)) g')
    (h : Ended m H interrupt request history ended) :
    (∃ ended g', p.Sim g (.done ended) g') ∨ Goes m H interrupt request history p g := by
  cases ended with
  | start response =>
    cases hs : m.serialize response with
    | some buffer =>
      simp only [answered, hs] at hsim
      refine .inr ⟨_, _, g', hsim, ⟨response, hs, h⟩, fun r g₁ _ => ⟨_, .refl _ g₁, ?_⟩⟩
      exact .finishing (.inl ⟨response, h.append _, by simp [hs]⟩)
    | none =>
      simp only [answered, hs] at hsim
      exact .inr (goes_finished hsim (.inl ⟨response, h, by simp [hs]⟩))
  | fail e => exact .inr (goes_finished hsim (.inr ⟨e, h, rfl⟩))
  | stop => exact .inl ⟨_, g', hsim⟩

/-- The server has nothing left to do, or it asks what it may ask and goes on from what it is
told. -/
theorem ServerAt.cases (hm : m.deserialize (m.encode request) = some request)
    (hown : ((m.call request).meaning H interrupt (.start ())).Asks fun o => o.isRight = true)
    (h : ServerAt m H interrupt request history p g) :
    (∃ ended g', p.Sim g (.done ended) g') ∨
    Goes m H interrupt request history p g := by
  cases h with
  | serving =>
    refine .inr ⟨_, _, g, .refl _ g, trivial, fun r g₁ hr => ?_⟩
    simp only [received]
    cases hok : r.ok with
    | true =>
      have hbuffer : m.deserialize r.buffer = some request := by rw [hr rfl hok, hm]
      simp only [channel, hok, if_true, hbuffer, onStart]
      exact ⟨_, .refl _ g₁, .calling .refl⟩
    | false =>
      simp only [channel, hok, Bool.false_eq_true, if_false, onStart]
      exact ⟨_, .refl _ g₁, .done⟩
  | @calling g₀ g₁ g r x q h =>
    have hsim := (q.sim_settle g).bind fun a => Program.Same.refl
      (onCall (fun ended => calls (answered (channel M N Buffer) m.serialize ended)) a)
    have hafter := h.settle
    rcases q.settle_cases g with ⟨_ | ended, hq⟩ | ⟨o, k, hq⟩
    · rw [hq] at hsim
      exact .inl ⟨none, _, hsim⟩
    · rw [hq] at hsim hafter
      refine goes_answered hsim ⟨g₀, r, g₁, x, [], (q.settle g).2, by simp, ?_⟩
      rw [runs_iff_plays]
      simpa using hafter.plays ⟨rfl, rfl, rfl⟩
    · rw [hq] at hsim hafter
      have hright : o.isRight = true := (hafter.asks hown).1
      refine .inr ⟨_, _, _, hsim, ?_, fun r' g₂ _ => ⟨_, .refl _ g₂, ?_⟩⟩
      · cases o with
        | inl o => cases hright
        | inr o => trivial
      · exact .calling (hafter.trans (.ask .refl))
  | @finishing _ status g h =>
    exact .inr (goes_finished (.refl _ g) h)
  | waiting =>
    exact .inr ⟨_, _, g, .refl _ g, trivial, fun r g₁ _ => ⟨_, .refl _ g₁, .done⟩⟩
  | @done _ ended g => exact .inl ⟨ended, g, .done⟩

theorem does_calling (name : String) (interrupt : Bool) (request : Request) :
    Does (Z := Response) H (calls (calling H name request)) () .terminal
      (begin interrupt (Unary H name request) (.start ()) ()) :=
  Performer.Performs.sim (same_unary request ()) (does_begin (Unary H name request) (.start ()) ())

theorem does_serving (interrupt : Bool) (g : G) :
    Does H (serving m H interrupt) g .terminal
      (begin interrupt (ServeUnary H (channel M N Buffer) m.deserialize m.serialize m.call)
        (.start ()) g) := by
  refine Performer.Performs.sim ?_ (Performer.Performs.sim
    (same_serveRequest (channel M N Buffer) m.deserialize _ g) (does_begin _ (.start ()) g))
  refine .ask fun r g' => ?_
  cases received (channel M N Buffer) H m.deserialize r with
  | start request =>
    exact same_onCall (.refl _) (same_unaryEpilogue (channel M N Buffer) m.serialize) g'
  | fail e => exact .refl _ _
  | stop => exact .refl _ _

end Server

section Agreement

variable [DecidableEq T] (H : Hierarchy T) (m : Method G M N T Request Response Buffer)
  (made : Status → Prop) (interrupts : Bool × Bool) (request : Request)

structure Inv (s : State G M N T Request Response Buffer) : Prop where
  client : ∃ p, Does H (calls p) () .terminal s.client ∧ ClientAt H m.name request
    (fun response => Ended m H interrupts.2 request s.history (.start response))
    (fun status => made status ∨ Deserved m H interrupts.2 request s.history status) p
  server : ∃ p g, Does H p g .terminal s.server ∧ ServerAt m H interrupts.2 request s.history p g
  requests : ∀ buffer ∈ s.wire.requests, buffer = m.encode request
  responses : ∀ buffer ∈ s.wire.responses, Written m H interrupts.2 request s.history buffer
  status : ∀ status, s.wire.status = some status →
    Deserved m H interrupts.2 request s.history status

variable {H m made interrupts request}

theorem Inv.init (g : G) : Inv H m made interrupts request (init H m interrupts request g) where
  client := ⟨_, does_calling m.name interrupts.1 request, .calling⟩
  server := ⟨_, g, does_serving interrupts.2 g, .serving⟩
  requests := by simp [UnaryCall.init]
  responses := by simp [UnaryCall.init]
  status := by simp [UnaryCall.init]

variable {s : State G M N T Request Response Buffer}

theorem Inv.clientTick (hi : Inv H m made interrupts request s)
    {t : Composed.State Unit (Question Request) (Answer Response) T String Response}
    (ht : tick H s.client = some t) : Inv H m made interrupts request { s with client := t } := by
  obtain ⟨p, hdoes, hp⟩ := hi.client
  exact { hi with client := ⟨p, hdoes.tick final_reached ht, hp⟩ }

theorem Inv.serverTick (hi : Inv H m made interrupts request s)
    {t : Composed.State G (ServerCall.Question Buffer ⊕ M) (ServerAnswer Buffer N) T String Bool}
    (ht : tick H s.server = some t) : Inv H m made interrupts request { s with server := t } := by
  obtain ⟨p, g, hdoes, hp⟩ := hi.server
  exact { hi with server := ⟨p, g, hdoes.tick final_reached ht, hp⟩ }

/-- What the client waits for is what it is about to ask. -/
theorem Inv.clientAsks (hi : Inv H m made interrupts request s) {o : Question Request} {g : Unit}
    (hs : waiting s.client = some (o, g)) :
    (∀ r, o = .writeLast r → r = request) ∧
    ∃ k, ClientAt H m.name request
      (fun response => Ended m H interrupts.2 request s.history (.start response))
      (fun status => made status ∨ Deserved m H interrupts.2 request s.history status) (.ask o k) ∧
      ∀ a, Does H (calls (k a)) () .terminal (answer s.client a ()) := by
  obtain ⟨p, hdoes, hp⟩ := hi.client
  rcases hp.done_or_ask with ⟨ended, rfl, -⟩ | ⟨o', k, rfl, hwrites⟩
  · have hnone : waiting s.client = none := hdoes.not_waiting final_reached
    rw [hnone] at hs
    cases hs
  · obtain ⟨rfl, -, hrest⟩ := hdoes.of_waiting_ask hs
    exact ⟨hwrites, k, hp, fun a => hrest a ()⟩

/-- What the server waits for is what it may ask. -/
theorem Inv.serverAsks (hm : m.deserialize (m.encode request) = some request)
    (hown : ((m.call request).meaning H interrupts.2 (.start ())).Asks fun o => o.isRight = true)
    (hi : Inv H m made interrupts request s) {o : ServerCall.Question Buffer ⊕ M} {g : G}
    (hs : waiting s.server = some (o, g)) :
    Fair m H interrupts.2 request s.history o ∧
    ∀ r g₁, (o = .inl .read → r.ok = true → r.buffer = m.encode request) →
      ∃ q, Does H q g₁ .terminal (answer s.server r g₁) ∧
        ServerAt m H interrupts.2 request (s.history ++ [⟨o, g, r, g₁⟩]) q g₁ := by
  obtain ⟨p, g₀, hdoes, hp⟩ := hi.server
  rcases hp.cases hm hown with ⟨ended, g', hsim⟩ | ⟨o', k, g', hsim, hfair, hgoes⟩
  · have hnone : waiting s.server = none :=
      (Performer.Performs.sim hsim hdoes).not_waiting final_reached
    rw [hnone] at hs
    cases hs
  · obtain ⟨rfl, rfl, hrest⟩ := (Performer.Performs.sim hsim hdoes).of_waiting_ask hs
    refine ⟨hfair, fun r g₁ hr => ?_⟩
    obtain ⟨q, hsim, hq⟩ := hgoes r g₁ hr
    exact ⟨q, Performer.Performs.sim hsim (hrest r g₁), hq⟩

/-- What the client hands to gRPC is the request. -/
theorem Inv.clientIssue (hi : Inv H m made interrupts request s) {o : Question Request} {g : Unit}
    (hs : waiting s.client = some (o, g)) :
    Inv H m made interrupts request
      { s with clientIssued := true, wire := s.wire.clientIssue m o } := by
  obtain ⟨hwrites, -⟩ := hi.clientAsks hs
  cases o with
  | writeLast r =>
    obtain rfl := hwrites r rfl
    refine { hi with requests := fun buffer hb => ?_ }
    rcases List.mem_append.mp hb with hb | hb
    · exact hi.requests buffer hb
    · exact List.mem_singleton.mp hb
  | read => exact { hi with }
  | finish => exact { hi with }

/-- What the client is told comes from the server, or it is a status that gRPC has made. -/
theorem Inv.clientAnswer (hdecode : ∀ r b, m.serialize r = some b → m.decode b = some r)
    (hi : Inv H m made interrupts request s) {o : Question Request} {g : Unit}
    (hs : waiting s.client = some (o, g)) {a : Answer Response}
    (ha : s.wire.TellsClient m made o a) :
    Inv H m made interrupts request { s with
      client := answer s.client a ()
      clientIssued := false
      wire := s.wire.toldClient o a } := by
  obtain ⟨-, k, hp, hdoes⟩ := hi.clientAsks hs
  have hread : o = .read → a.ok = true →
      Ended m H interrupts.2 request s.history (.start a.response) := by
    rintro rfl hok
    obtain ⟨buffer, hhead, hresponse⟩ := Option.bind_eq_some_iff.mp (ha hok)
    obtain ⟨response, hserialize, hended⟩ := hi.responses buffer (List.mem_of_mem_head? hhead)
    rw [hdecode response buffer hserialize, Option.some.injEq] at hresponse
    rwa [← hresponse]
  have hfinish : o = .finish → a.ok = true →
      made a.status ∨ Deserved m H interrupts.2 request s.history a.status := by
    rintro rfl hok
    rcases ha hok with hstatus | hmade
    · exact .inr (hi.status a.status hstatus)
    · exact .inl hmade
  have hclient := hp.told a hread hfinish
  have hwire : ∀ buffer ∈ (s.wire.toldClient o a).responses, buffer ∈ s.wire.responses := by
    intro buffer hb
    cases o with
    | read =>
      cases hok : a.ok with
      | true =>
        simp only [Wire.toldClient, hok, if_true] at hb
        exact List.mem_of_mem_tail hb
      | false => simpa [Wire.toldClient, hok] using hb
    | writeLast r => exact hb
    | finish => exact hb
  have hrest : (s.wire.toldClient o a).requests = s.wire.requests ∧
      (s.wire.toldClient o a).status = s.wire.status := by
    cases o with
    | read => cases hok : a.ok <;> simp [Wire.toldClient, hok]
    | writeLast r => exact ⟨rfl, rfl⟩
    | finish => exact ⟨rfl, rfl⟩
  exact {
    client := ⟨_, hdoes a, hclient⟩
    server := hi.server
    requests := hrest.1 ▸ hi.requests
    responses := fun buffer hb => hi.responses buffer (hwire buffer hb)
    status := hrest.2 ▸ hi.status }

section Server

variable (hm : m.deserialize (m.encode request) = some request)
  (hown : ((m.call request).meaning H interrupts.2 (.start ())).Asks fun o => o.isRight = true)

include hm hown

/-- What the server hands to gRPC is what its method has come to. -/
theorem Inv.serverIssue (hi : Inv H m made interrupts request s)
    {o : ServerCall.Question Buffer ⊕ M} {g : G} (hs : waiting s.server = some (o, g)) :
    Inv H m made interrupts request
      { s with serverIssued := true, wire := s.wire.serverIssue o } := by
  obtain ⟨hfair, -⟩ := hi.serverAsks hm hown hs
  rcases o with (_ | buffer | buffer | status | _) | o
  · exact { hi with }
  · cases hfair
  · refine { hi with responses := fun b hb => ?_ }
    rcases List.mem_append.mp hb with hb | hb
    · exact hi.responses b hb
    · obtain rfl := List.mem_singleton.mp hb
      exact hfair
  · refine { hi with status := fun status' hs' => ?_ }
    cases hs'
    exact hfair
  · exact { hi with }
  · exact { hi with }

/-- The server goes on from what it is told, and what it has done before stays done. -/
theorem Inv.serverAnswer (hi : Inv H m made interrupts request s)
    {o : ServerCall.Question Buffer ⊕ M} {g g₁ : G} (hs : waiting s.server = some (o, g))
    {r : ServerAnswer Buffer N} (hr : s.wire.TellsServer o r) :
    Inv H m made interrupts request { s with
      server := answer s.server r g₁
      serverIssued := false
      wire := s.wire.toldServer o r
      history := s.history ++ [⟨o, g, r, g₁⟩] } := by
  obtain ⟨-, hgoes⟩ := hi.serverAsks hm hown hs
  have hbuffer : o = .inl .read → r.ok = true → r.buffer = m.encode request := by
    rintro rfl hok
    exact hi.requests _ (List.mem_of_mem_head? (hr hok))
  obtain ⟨q, hdoes, hq⟩ := hgoes r g₁ hbuffer
  have hwire : (∀ buffer ∈ (s.wire.toldServer o r).requests, buffer ∈ s.wire.requests) ∧
      (s.wire.toldServer o r).responses = s.wire.responses ∧
      (s.wire.toldServer o r).status = s.wire.status := by
    rcases o with (_ | _ | _ | _ | _) | o
    · cases hok : r.ok with
      | true =>
        simp only [Wire.toldServer, hok, if_true, and_self, and_true]
        exact fun buffer hb => List.mem_of_mem_tail hb
      | false => simp [Wire.toldServer, hok]
    all_goals exact ⟨fun buffer hb => hb, rfl, rfl⟩
  obtain ⟨p, hp, hclient⟩ := hi.client
  refine {
    client := ⟨p, hp, hclient.mono (fun response h => h.append _) fun status h => ?_⟩
    server := ⟨q, g₁, hdoes, hq⟩
    requests := fun buffer hb => hi.requests buffer (hwire.1 buffer hb)
    responses := fun buffer hb => ?_
    status := fun status hs => ?_ }
  · exact h.imp_right fun h => h.append _
  · rw [hwire.2.1] at hb
    obtain ⟨response, hserialize, hended⟩ := hi.responses buffer hb
    exact ⟨response, hserialize, hended.append _⟩
  · rw [hwire.2.2] at hs
    exact (hi.status status hs).append _

theorem Inv.next (hdecode : ∀ r b, m.serialize r = some b → m.decode b = some r)
    (hi : Inv H m made interrupts request s) {l : Label G M N Request Response Buffer}
    (he : Enabled H m made s l) : Inv H m made interrupts request (next H m s l) := by
  cases l with
  | client x =>
    cases x with
    | none =>
      obtain ⟨t, ht⟩ := Option.isSome_iff_exists.mp he
      simpa [UnaryCall.next, ht] using hi.clientTick ht
    | some x =>
      obtain ⟨-, hs, ha⟩ := he
      exact hi.clientAnswer hdecode hs ha
  | clientIssue =>
    obtain ⟨q, hq⟩ := Option.isSome_iff_exists.mp he.2
    simpa [UnaryCall.next, hq] using hi.clientIssue hq
  | server x =>
    cases x with
    | none =>
      obtain ⟨t, ht⟩ := Option.isSome_iff_exists.mp he
      simpa [UnaryCall.next, ht] using hi.serverTick ht
    | some x =>
      obtain ⟨-, hs, hr⟩ := he
      exact hi.serverAnswer hm hown hs hr
  | serverIssue =>
    obtain ⟨q, hq⟩ := Option.isSome_iff_exists.mp he.2
    simpa [UnaryCall.next, hq] using hi.serverIssue hm hown hq

theorem Inv.reachable (hdecode : ∀ r b, m.serialize r = some b → m.decode b = some r) {g : G}
    (h : (machine H m made interrupts request g).Reachable s) : Inv H m made interrupts request s :=
  h.invariant (fun _ hs => by rw [hs]; exact .init g) fun _ _ hi he => hi.next hm hown hdecode he

end Server

end Agreement

/-- Whatever is lost on the way, and however the steps of the two are ordered: a response that the
client ends with is one that the method has returned for the request, at the end of its one call,
and an error that it ends with is one of its own or tells a status, which is that of the method's
end unless gRPC has made it. The client never stops, and what has been written and not been read
are no other messages. -/
theorem agrees [DecidableEq T] (H : Hierarchy T) (m : Method G M N T Request Response Buffer)
    (made : Status → Prop) (interrupts : Bool × Bool) (request : Request) (g : G)
    (hm : m.deserialize (m.encode request) = some request)
    (hdecode : ∀ r b, m.serialize r = some b → m.decode b = some r)
    (hown : ((m.call request).meaning H interrupts.2 (.start ())).Asks fun o => o.isRight = true)
    {s : State G M N T Request Response Buffer}
    (h : (machine H m made interrupts request g).Reachable s) :
    (∀ ended u, s.client = called .terminal ended u →
      match ended with
      | .start response => Ended m H interrupts.2 request s.history (.start response)
      | .fail e =>
        e ∈ ["Failed to write", "empty stream", "Failed to finish"].map (RuntimeError H) ∨
          ∃ status, (made status ∨ Deserved m H interrupts.2 request s.history status) ∧
            e = failure H m.name status
      | .stop => False) ∧
    (∀ buffer ∈ s.wire.requests, buffer = m.encode request) ∧
    ∀ buffer ∈ s.wire.responses, ∃ response, m.serialize response = some buffer ∧
      Ended m H interrupts.2 request s.history (.start response) := by
  have hi := Inv.reachable hm hown hdecode h
  refine ⟨fun ended u hs => ?_, hi.requests, hi.responses⟩
  have hfinal := final_reached (G := Unit) (O := Question Request) (R := Answer Response) (H := H)
    (some ended) u
  obtain ⟨p, hdoes, hp⟩ := hi.client
  rw [hs] at hdoes
  rcases hp.done_or_ask with ⟨ended', rfl, hsound⟩ | ⟨o, k, rfl, -⟩
  · have hreached := Performer.Ticks.eq_of_final hfinal.1 hdoes
    obtain ⟨heq, -⟩ := reached_injective (b := some ended) hreached
    cases heq
    cases ended with
    | start response => exact hsound
    | fail e => exact hsound
    | stop => exact hsound
  · obtain ⟨t, ht, hwait, -⟩ := hdoes
    obtain rfl := Performer.Ticks.eq_of_final hfinal.1 ht
    rw [show (performer H).waiting _ = none from hfinal.2] at hwait
    cases hwait

section Increment

/-- A method that adds what it counts to its request. -/
def Increment : Method ℕ Unit Unit ℕ ℕ ℕ ℕ where
  name := "Increment"
  encode := id
  decode := some
  deserialize := some
  serialize := some
  call request := .thenValue fun _ n => (n + 1, request + n)

def classes : Hierarchy ℕ where
  isBaseOf := Nat.le
  decidable := Nat.decLe
  refl := Nat.le_refl
  trans _ _ _ := Nat.le_trans
  runtimeError := 1
  typeErasedError := 0

/-- The request arrives, the response is read before the status, and nothing is lost. -/
def incrementRun : List (Label ℕ Unit Unit ℕ ℕ ℕ) :=
  .flatten [
    [.client none, .server none, .clientIssue, .serverIssue,
      .client (some ⟨.writeLast 5, (), ⟨true, 0, .OK⟩, ()⟩), .client none, .client none,
      .clientIssue, .server (some ⟨.inl .read, 7, ⟨true, 5, ()⟩, 7⟩)],
    .replicate 8 (.server none),
    [.serverIssue, .client (some ⟨.read, (), ⟨true, 12, .OK⟩, ()⟩)],
    .replicate 6 (.client none),
    [.clientIssue, .server (some ⟨.inl (.writeLast 12), 8, ⟨true, 0, ()⟩, 8⟩)],
    .replicate 7 (.server none),
    [.serverIssue, .client (some ⟨.finish, (), ⟨true, 0, .OK⟩, ()⟩)],
    .replicate 6 (.client none)]

theorem increment_agrees : ∃ s : State ℕ Unit Unit ℕ ℕ ℕ ℕ,
    (machine classes Increment (fun _ => False) (true, false) 5 7).Reachable s ∧
    s.client = called .terminal (.start 12) () ∧
    Ended Increment classes false 5 s.history (.start 12) := by
  obtain ⟨s, hs, hp⟩ := Transition.Machine.exists_reachable_of_exec
    (M := machine classes Increment (fun _ => False) (true, false) 5 7) incrementRun
    (fun s => decide (ended s.client = some (.start 12))) rfl (by decide)
  have hclient := called_of_ended (of_decide_eq_true hp)
  exact ⟨s, hs, hclient, (agrees classes Increment (fun _ => False) (true, false) 5 7 rfl
    (fun _ _ => Eq.symm) (fun _ => trivial) hs).1 _ _ hclient⟩

end Increment

end Eventuals.UnaryCall
