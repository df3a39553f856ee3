import Mathlib.Data.List.Basic
import Mathlib.Data.List.Induction
import Mathlib.Data.List.Nodup

/-! How a gRPC call finds its endpoint: the paths that a `Client` and a `Server` make of the name of
a method, and the table of the endpoints (`grpc/client.h`, `grpc/server.h`, `grpc/server.cc`,
`grpc/traits.h`). -/
namespace Eventuals.Route

inductive Failure
  /-- `std::out_of_range` is thrown. -/
  | outOfRange
  /-- `RuntimeError` -/
  | runtime (message : String)
  deriving DecidableEq

def lastIndexOf (c : Char) : List Char → Option ℕ
  | [] => none
  | a :: s =>
    match lastIndexOf c s with
    | some i => some (i + 1)
    | none => if a = c then some 0 else none

/-- `none` is `npos`. -/
def findLastOf (s : String) (c : Char) : Option ℕ := lastIndexOf c s.toList

/-- Replaces one character. -/
def replace (s : String) (index : Option ℕ) (c : Char) : Except Failure String :=
  match index with
  | some i => .ok (.ofList (s.toList.take i ++ c :: s.toList.drop (i + 1)))
  | none => .error .outOfRange

/-- `RequestResponseTraits::Details` -/
structure Details where
  name : String
  streaming : Bool
  deriving DecidableEq

/-- What is asked of a `MethodDescriptor`. -/
structure Method where
  clientStreaming : Bool
  serverStreaming : Bool
  inputType : String
  outputType : String
  deriving DecidableEq

/-- `FindMethodByName` -/
abbrev Pool := String → Option Method

namespace RequestResponseTraits

def validate (request response : Details) (method : Method) : Option String :=
  if request.streaming ∧ ¬ method.clientStreaming then
    some "Method does not have streaming requests"
  else if ¬ request.streaming ∧ method.clientStreaming then
    some "Method has streaming requests"
  else if response.streaming ∧ ¬ method.serverStreaming then
    some "Method does not have streaming responses"
  else if ¬ response.streaming ∧ method.serverStreaming then
    some "Method has streaming responses"
  else if request.name ≠ method.inputType then
    some ("Method does not have requests of type " ++ request.name)
  else if response.name ≠ method.outputType then
    some ("Method does not have responses of type " ++ response.name)
  else none

theorem validate_eq_none_iff (request response : Details) (method : Method) :
    validate request response method = none ↔
      request = ⟨method.inputType, method.clientStreaming⟩ ∧
        response = ⟨method.outputType, method.serverStreaming⟩ := by
  obtain ⟨input, requests⟩ := request
  obtain ⟨output, responses⟩ := response
  obtain ⟨clientStreaming, serverStreaming, inputType, outputType⟩ := method
  unfold validate
  cases requests <;> cases responses <;> cases clientStreaming <;> cases serverStreaming <;>
    simp [ite_eq_iff]

end RequestResponseTraits

namespace Client

def path (name : String) : Except Failure String :=
  let path := "/" ++ name
  let index := findLastOf path '.'
  replace path index '/'

/-- The path and the authority of the call that is prepared. -/
def call (pool : Pool) (name : String) (host : Option String) (request response : Details) :
    Except Failure (String × Option String) :=
  match pool name with
  | none => .error (.runtime ("Method " ++ name ++ " not found"))
  | some method =>
    match RequestResponseTraits.validate request response method with
    | some message => .error (.runtime message)
    | none => (path name).map fun path => (path, host)

end Client

/-- An `Endpoint`, with whoever dequeues from it. -/
structure Endpoint (I : Type*) where
  path : String
  host : String
  server : I
  deriving DecidableEq

variable {I : Type*}

def Endpoint.key (e : Endpoint I) : String × String := (e.path, e.host)

/-- `endpoints_` has no key twice. -/
structure Endpoints (I : Type*) where
  entries : List (Endpoint I)
  nodup : (entries.map Endpoint.key).Nodup

namespace Endpoints

def empty : Endpoints I := ⟨[], List.nodup_nil⟩

variable (t : Endpoints I)

def find (key : String × String) : Option (Endpoint I) :=
  t.entries.find? fun e => e.key = key

theorem find_eq_none {t : Endpoints I} {key : String × String} :
    t.find key = none ↔ key ∉ t.entries.map Endpoint.key := by
  simp [find]

def tryEmplace (e : Endpoint I) : Option (Endpoints I) :=
  if h : t.find e.key = none then
    some ⟨t.entries ++ [e], by
      rw [List.map_append, List.map_singleton, ← List.concat_eq_append]
      exact t.nodup.concat (find_eq_none.mp h)⟩
  else none

end Endpoints

namespace Server

def path (name : String) : Except Failure String :=
  let path := "/" ++ name
  let index := findLastOf path '.'
  replace path index '/'

def validate (pool : Pool) (name : String) (request response : Details) : Except Failure Unit :=
  match pool name with
  | none => .error (.runtime "Method not found")
  | some method =>
    match RequestResponseTraits.validate request response method with
    | some message => .error (.runtime message)
    | none => .ok ()

def insert (t : Endpoints I) (e : Endpoint I) : Except Failure Unit × Endpoints I :=
  match t.tryEmplace e with
  | none => (.error (.runtime ("Already serving " ++ e.path ++ " for host " ++ e.host)), t)
  | some t => (.ok (), t)

def accept (pool : Pool) (name host : String) (request response : Details) (server : I)
    (t : Endpoints I) : Except Failure Unit × Endpoints I :=
  match path name with
  | .error failure => (.error failure, t)
  | .ok path =>
    match validate pool name request response with
    | .error failure => (.error failure, t)
    | .ok () => insert t ⟨path, host, server⟩

/-- `Accept` of a `Service` -/
def acceptService (pool : Pool) (service name host : String) (request response : Details)
    (server : I) (t : Endpoints I) : Except Failure Unit × Endpoints I :=
  accept pool (service ++ "." ++ name) host request response server t

def lookup (t : Endpoints I) (method host : String) : Option (Endpoint I) :=
  match t.find (method, host) with
  | some e => some e
  | none => t.find (method, "*")

inductive StatusCode
  | unimplemented
  deriving DecidableEq

/-- What a worker does with a call. -/
inductive Action (I : Type*)
  | enqueue (e : Endpoint I)
  | finish (code : StatusCode) (message : String)
  deriving DecidableEq

def unimplemented (method host : String) : Action I :=
  .finish .unimplemented (method ++ " for host " ++ host)

def route (t : Endpoints I) (method host : String) : Action I :=
  match lookup t method host with
  | some e => .enqueue e
  | none => unimplemented method host

end Server

/-- A word of letters, digits and underscores. -/
structure Identifier where
  chars : List Char
  word : ∀ c ∈ chars, c.isAlphanum ∨ c = '_'
  start : ∃ c ∈ chars.head?, ¬ c.isDigit

/-- The full name of a method: that of its service, which may be in a package, and its own. -/
structure MethodName where
  scope : List Identifier
  scope_ne : scope ≠ []
  method : Identifier

def Identifier.text (n : Identifier) : String := .ofList n.chars

def MethodName.service (n : MethodName) : String :=
  ".".intercalate (n.scope.map Identifier.text)

def MethodName.text (n : MethodName) : String :=
  n.service ++ "." ++ n.method.text

theorem Server.accept_service (pool : Pool) (n : MethodName) (host : String)
    (request response : Details) (server : I) (t : Endpoints I) :
    acceptService pool n.service n.method.text host request response server t =
      accept pool n.text host request response server t :=
  rfl

/-- A call of `Accept`. -/
structure Registration (I : Type*) where
  name : MethodName
  host : String
  request : Details
  response : Details
  server : I

def Registration.accept (pool : Pool) (a : Registration I) (t : Endpoints I) :
    Except Failure Unit × Endpoints I :=
  Server.accept pool a.name.text a.host a.request a.response a.server t

def serve (pool : Pool) (history : List (Registration I)) : Endpoints I :=
  history.foldl (fun t a => (a.accept pool t).2) .empty

/-- The types are those of a method with that name. -/
def Registration.valid (pool : Pool) (a : Registration I) : Bool :=
  (Server.validate pool a.name.text a.request a.response).isOk

/-- Who serves a method at a host is whoever was the first to register for it. -/
def registered (pool : Pool) (history : List (Registration I)) (name : MethodName)
    (host : String) : Option I :=
  (history.find? fun a => a.valid pool ∧ a.name.text = name.text ∧ a.host = host).map
    Registration.server

/-- Some `Call` of the method is prepared with that path, and gets to the server for that host. -/
def Sent (name : MethodName) (path host : String) : Prop :=
  ∃ pool authority request response,
    Client.call pool name.text authority request response = .ok (path, authority) ∧
      ∀ h ∈ authority, h = host

/-- A call goes to the endpoint that is registered for the method, rather for the host that it is
for than for every host; no other path is that of the method, and no other method has that path. -/
structure Routes (pool : Pool) (history : List (Registration I)) : Prop where
  agree : ∀ name : MethodName, ∃ path,
    Client.path name.text = .ok path ∧ Server.path name.text = .ok path
  injective : ∀ n m : MethodName, Server.path n.text = Server.path m.text → n.text = m.text
  exact : ∀ {name path host i}, Sent name path host → registered pool history name host = some i →
    Server.route (serve pool history) path host = .enqueue ⟨path, host, i⟩
  wildcard : ∀ {name path host i}, Sent name path host →
    registered pool history name host = none → registered pool history name "*" = some i →
      Server.route (serve pool history) path host = .enqueue ⟨path, "*", i⟩
  unimplemented : ∀ {name path host}, Sent name path host →
    registered pool history name host = none → registered pool history name "*" = none →
      Server.route (serve pool history) path host =
        .finish .unimplemented (path ++ " for host " ++ host)
  collides : ∀ (a : Registration I) {i}, registered pool history a.name a.host = some i →
    ∃ failure, a.accept pool (serve pool history) = (.error failure, serve pool history)

section Paths

theorem lastIndexOf_of_not_mem {c : Char} {s : List Char} (h : c ∉ s) : lastIndexOf c s = none := by
  induction s with
  | nil => rfl
  | cons a s ih =>
    rw [List.mem_cons, not_or] at h
    rw [lastIndexOf, ih h.2]
    exact if_neg (Ne.symm h.1)

theorem lastIndexOf_append {c : Char} (s : List Char) {u : List Char} (h : c ∉ u) :
    lastIndexOf c (s ++ c :: u) = some s.length := by
  induction s with
  | nil => simp [lastIndexOf, lastIndexOf_of_not_mem h]
  | cons a s ih => simp [lastIndexOf, ih]

/-- Before the last dot stands the service, behind it the method. -/
theorem replace_last {s u : List Char} (h : '.' ∉ u) :
    replace (.ofList (s ++ '.' :: u)) (findLastOf (.ofList (s ++ '.' :: u)) '.') '/' =
      .ok (.ofList (s ++ '/' :: u)) := by
  rw [findLastOf, String.toList_ofList, lastIndexOf_append s h, replace, String.toList_ofList]
  simp

theorem Identifier.not_mem (n : Identifier) {c : Char} (h : ¬ (c.isAlphanum ∨ c = '_')) :
    c ∉ n.chars :=
  fun hc => h (n.word c hc)

theorem mem_intercalate {α : Type*} {a : α} {sep : List α} {l : List (List α)}
    (h : a ∈ sep.intercalate l) : a ∈ sep ∨ ∃ s ∈ l, a ∈ s := by
  induction l with
  | nil => cases h
  | cons s l ih =>
    cases l with
    | nil =>
      rw [List.intercalate_singleton] at h
      exact .inr ⟨s, List.mem_cons_self, h⟩
    | cons u l =>
      rw [List.intercalate_cons_cons, List.mem_append, List.mem_append] at h
      rcases h with (h | h) | h
      · exact .inr ⟨s, List.mem_cons_self, h⟩
      · exact .inl h
      · rcases ih h with h | ⟨v, hv, h⟩
        · exact .inl h
        · exact .inr ⟨v, List.mem_cons_of_mem _ hv, h⟩

theorem slash_not_mem_service (n : MethodName) : '/' ∉ n.service.toList := by
  intro h
  rw [MethodName.service, String.toList_intercalate] at h
  rcases mem_intercalate h with h | ⟨s, hs, h⟩
  · exact absurd h (by decide)
  · rw [List.map_map, List.mem_map] at hs
    obtain ⟨m, -, rfl⟩ := hs
    rw [Function.comp_apply, Identifier.text, String.toList_ofList] at h
    exact m.not_mem (by decide) h

/-- The path of a method has the service and the method between slashes. -/
def MethodName.path (n : MethodName) : String := "/" ++ n.service ++ "/" ++ n.method.text

theorem serverPath_text (n : MethodName) : Server.path n.text = .ok n.path := by
  have hdot : '.' ∉ n.method.chars := n.method.not_mem (by decide)
  have hname : "/" ++ n.text = .ofList (('/' :: n.service.toList) ++ '.' :: n.method.chars) := by
    apply String.toList_injective
    simp [MethodName.text, Identifier.text]
  have hpath : n.path = .ofList (('/' :: n.service.toList) ++ '/' :: n.method.chars) := by
    apply String.toList_injective
    simp [MethodName.path, Identifier.text]
  rw [Server.path, hname, replace_last hdot, hpath]

theorem clientPath_text (n : MethodName) : Client.path n.text = .ok n.path :=
  serverPath_text n

theorem text_eq_of_path {n m : MethodName} (h : n.path = m.path) : n.text = m.text := by
  have hlist : n.service.toList ++ '/' :: n.method.text.toList =
      m.service.toList ++ '/' :: m.method.text.toList := by
    simpa [MethodName.path] using congrArg String.toList h
  have hslash : '/' ∉ n.method.text.toList := by
    rw [Identifier.text, String.toList_ofList]
    exact n.method.not_mem (by decide)
  obtain ⟨hservice, -, hmethod⟩ :=
    (List.append_cons_inj_of_notMem (slash_not_mem_service n) hslash).mp hlist
  rw [MethodName.text, String.toList_injective hservice, String.toList_injective hmethod]
  rfl

theorem path_eq_iff {n m : MethodName} : n.path = m.path ↔ n.text = m.text := by
  refine ⟨text_eq_of_path, fun h => ?_⟩
  have hpath := serverPath_text n
  rw [h, serverPath_text m] at hpath
  exact (Except.ok.inj hpath).symm

theorem path_eq_of_sent {n : MethodName} {path host : String} (h : Sent n path host) :
    path = n.path := by
  obtain ⟨pool, authority, request, response, hcall, -⟩ := h
  unfold Client.call at hcall
  split at hcall
  · cases hcall
  · split at hcall
    · cases hcall
    · rw [clientPath_text] at hcall
      exact (Prod.mk.inj (Except.ok.inj hcall)).1.symm

end Paths

section Table

variable {pool : Pool} {t u : Endpoints I} {e : Endpoint I} {key : String × String}
  {history : List (Registration I)} {name : MethodName} {path host : String} {i : I}

theorem find_tryEmplace (h : t.tryEmplace e = some u) :
    u.find key = (t.find key).or (if e.key = key then some e else none) := by
  unfold Endpoints.tryEmplace at h
  split at h
  · cases h
    rw [Endpoints.find, List.find?_append, Endpoints.find]
    by_cases hk : e.key = key <;> simp [hk]
  · cases h

theorem tryEmplace_eq_none : t.tryEmplace e = none ↔ t.find e.key ≠ none := by
  unfold Endpoints.tryEmplace
  split <;> simp_all

/-- What is found after a registration is what was found before, or else what is registered. -/
theorem find_insert :
    (Server.insert t e).2.find key = (t.find key).or (if e.key = key then some e else none) := by
  unfold Server.insert
  cases h : t.tryEmplace e with
  | some u => exact find_tryEmplace h
  | none =>
    rw [tryEmplace_eq_none] at h
    by_cases hk : e.key = key
    · obtain ⟨e', he⟩ := Option.ne_none_iff_exists'.mp (hk ▸ h)
      simp [he]
    · simp [hk]

theorem accept_of_valid {a : Registration I} (h : a.valid pool = true) :
    a.accept pool t = Server.insert t ⟨a.name.path, a.host, a.server⟩ := by
  rw [Registration.accept, Server.accept, serverPath_text]
  unfold Registration.valid at h
  cases hv : Server.validate pool a.name.text a.request a.response with
  | ok => rfl
  | error failure =>
    rw [hv] at h
    cases h

theorem accept_of_not_valid {a : Registration I} (h : a.valid pool = false) :
    ∃ failure, a.accept pool t = (.error failure, t) := by
  rw [Registration.accept, Server.accept, serverPath_text]
  unfold Registration.valid at h
  cases hv : Server.validate pool a.name.text a.request a.response with
  | ok =>
    rw [hv] at h
    cases h
  | error failure => exact ⟨failure, rfl⟩

theorem find_accept (a : Registration I) :
    (a.accept pool t).2.find (name.path, host) =
      (t.find (name.path, host)).or
        (if a.valid pool ∧ a.name.text = name.text ∧ a.host = host then
          some ⟨name.path, host, a.server⟩ else none) := by
  cases hv : a.valid pool with
  | false =>
    obtain ⟨failure, hfail⟩ := accept_of_not_valid (t := t) hv
    rw [hfail]
    simp
  | true =>
    have hkey : (⟨a.name.path, a.host, a.server⟩ : Endpoint I).key = (name.path, host) ↔
        a.name.text = name.text ∧ a.host = host := by
      rw [Endpoint.key, Prod.mk.injEq, path_eq_iff]
    rw [accept_of_valid hv, find_insert, if_congr hkey rfl rfl]
    by_cases h : a.name.text = name.text ∧ a.host = host
    · simp [h, path_eq_iff.mpr h.1]
    · simp [h]

/-- The table has each endpoint under the path of the method that it was registered for. -/
theorem find_serve (history : List (Registration I)) (name : MethodName) (host : String) :
    (serve pool history).find (name.path, host) =
      (registered pool history name host).map fun i => ⟨name.path, host, i⟩ := by
  induction history using List.reverseRecOn with
  | nil => rfl
  | append_singleton history a ih =>
    rw [serve, List.foldl_append, List.foldl_cons, List.foldl_nil, find_accept, ← serve, ih,
      registered, registered, List.find?_append]
    generalize List.find? _ history = o
    cases o with
    | some b => rfl
    | none =>
      by_cases h : a.valid pool ∧ a.name.text = name.text ∧ a.host = host <;> simp [h]

theorem insert_of_find (h : t.find e.key ≠ none) :
    ∃ failure, Server.insert t e = (.error failure, t) := by
  rw [Server.insert, tryEmplace_eq_none.mpr h]
  exact ⟨_, rfl⟩

/-- Every call goes where the first registration for its method says. -/
theorem routes (pool : Pool) (history : List (Registration I)) : Routes pool history where
  agree name := ⟨name.path, clientPath_text name, serverPath_text name⟩
  injective n m h := by
    rw [serverPath_text, serverPath_text] at h
    exact text_eq_of_path (Except.ok.inj h)
  exact {name path host i} hs h := by
    obtain rfl := path_eq_of_sent hs
    rw [Server.route, Server.lookup, find_serve, h]
    rfl
  wildcard {name path host i} hs h hw := by
    obtain rfl := path_eq_of_sent hs
    rw [Server.route, Server.lookup, find_serve, h, Option.map_none, find_serve, hw]
    rfl
  unimplemented {name path host} hs h hw := by
    obtain rfl := path_eq_of_sent hs
    rw [Server.route, Server.lookup, find_serve, h, Option.map_none, find_serve, hw]
    rfl
  collides a i h := by
    cases hv : a.valid pool with
    | false => exact accept_of_not_valid hv
    | true =>
      rw [accept_of_valid hv]
      apply insert_of_find
      rw [Endpoint.key, find_serve, h]
      exact Option.some_ne_none _

end Table

end Eventuals.Route
