import Mathlib.Data.List.Basic

/-! Adjacent `Map()`s become one when the continuations are made (`map.h`), whose eventual is the
composition of the `Then()`s of all of them (`then.h`). -/
namespace Eventuals.Fusion

/-- What the `Map`s call downstream. -/
inductive Call (V E : Type*)
  | register
  | begin
  | body (v : V)
  | ended
  | fail (error : E)
  | stop
  deriving DecidableEq

/-- What a callable returns. -/
inductive Return (V C : Type*)
  | value (v : V)
  | eventual (c : C)
  deriving DecidableEq

/-- How an eventual ends. -/
inductive Result (V E : Type*)
  | value (v : V)
  | fail (error : E)
  | stop
  deriving DecidableEq

/-- The callables of a program, named by `F`, and the eventuals that they return, named by `C`: what
they do with the state `G` that they share. How an eventual ends may depend on the world. -/
structure Callables (F V E C W G : Type*) where
  call : F → V → G → G × Return V C
  /-- `Start()`, after `Register()` if there is an interrupt. -/
  start : C → Bool → G → G
  finish : C → W → G → G × Result V E

/-- `_Then::Continuation` -/
structure Then (F C : Type*) where
  f : F
  /-- `interrupt_` is set. -/
  interrupt : Bool
  /-- The eventual of `adapted_`, as long as it is under way. -/
  adapted : Option C
  deriving DecidableEq

/-- `_Map::Continuation` -/
structure Map (F C : Type*) where
  /-- The callables of `e_`, which is a `Then` or a composition of some. -/
  e : List F
  interrupt : Bool
  adapted : Option (List (Then F C))
  deriving DecidableEq

variable {F V E C W G : Type*}

/-- `adapted_`, which is made of `e_` when the first value comes. -/
def Map.adapt (m : Map F C) : List (Then F C) :=
  match m.adapted with
  | some ts => ts
  | none => m.e.map fun f => ⟨f, m.interrupt, none⟩

def Map.register (m : Map F C) : Map F C := { m with interrupt := true }

namespace Composable

/-- `_Map::Composable::k`, where `k` is made of the `Map`s that come next. -/
def k (e : List F) : List (Map F C) → List (Map F C)
  | [] => [⟨e, false, none⟩]
  | m :: ms => ⟨e ++ m.e, false, none⟩ :: ms

end Composable

/-- The continuations of a chain of `Map`s. -/
def fuse (fs : List F) : List (Map F C) := fs.foldr (fun f => Composable.k [f]) []

/-- A stage for each `Map`. -/
def separate (fs : List F) : List (Map F C) := fs.map fun f => ⟨[f], false, none⟩

section Operations

variable (c : Callables F V E C W G)

/-- `Start()` of the first `Then`. What comes out of the last one starts the adaptor. -/
def thenStart : List (Then F C) → V → G → List (Then F C) × G × Option V
  | [], v, g => ([], g, some v)
  | t :: ts, v, g =>
    match c.call t.f v g with
    | (g, .value v) =>
      let r := thenStart ts v g
      (t :: r.1, r.2)
    | (g, .eventual e) => ({ t with adapted := some e } :: ts, c.start e t.interrupt g, none)

/-- The eventual of the `Then` at a position ends, if one is under way. Then a value goes to the
next `Then`, and anything else past all of them. -/
def thenFinish : List (Then F C) → ℕ → W → G → List (Then F C) × G × Option (Result V E)
  | [], _, _, g => ([], g, none)
  | t :: ts, 0, w, g =>
    match t.adapted with
    | none => (t :: ts, g, none)
    | some e =>
      match c.finish e w g with
      | (g, .value v) =>
        let r := thenStart c ts v g
        ({ t with adapted := none } :: r.1, r.2.1, r.2.2.map .value)
      | (g, result) => ({ t with adapted := none } :: ts, g, some result)
  | t :: ts, i + 1, w, g =>
    let r := thenFinish ts i w g
    (t :: r.1, r.2)

/-- `Body()` of the first `Map`. -/
def mapBody : List (Map F C) → V → G → List (Map F C) × G × Option V
  | [], v, g => ([], g, some v)
  | m :: ms, v, g =>
    match thenStart c m.adapt v g with
    | (ts, g, some v) =>
      let r := mapBody ms v g
      ({ m with adapted := some ts } :: r.1, r.2)
    | (ts, g, none) => ({ m with adapted := some ts } :: ms, g, none)

/-- The eventual of the callable at a position ends. The adaptor of its `Map` gives a value to the
`Body()` of the next one; `Fail()` and `Stop()` of that one only pass on. -/
def mapFinish : List (Map F C) → ℕ → W → G → List (Map F C) × G × Option (Result V E)
  | [], _, _, g => ([], g, none)
  | m :: ms, i, w, g =>
    if i < m.adapt.length then
      match m.adapted with
      | none => (m :: ms, g, none)
      | some ts =>
        match thenFinish c ts i w g with
        | (ts, g, some (.value v)) =>
          let r := mapBody c ms v g
          ({ m with adapted := some ts } :: r.1, r.2.1, r.2.2.map .value)
        | (ts, g, result) => ({ m with adapted := some ts } :: ms, g, result)
    else
      let r := mapFinish ms (i - m.adapt.length) w g
      (m :: r.1, r.2)

end Operations

/-- What the stream before the `Map`s calls, and which eventual ends. -/
inductive Label (V E W : Type*)
  | begin
  | body (v : V)
  | ended
  | fail (error : E)
  | stop
  | finish (i : ℕ) (w : W)
  deriving DecidableEq

structure State (F V E C G : Type*) where
  maps : List (Map F C)
  callables : G
  calls : List (Call V E)

def Result.call : Result V E → Call V E
  | .value v => .body v
  | .fail error => .fail error
  | .stop => .stop

/-- `Begin()`, `Ended()`, `Fail()` and `Stop()` of a `Map` do nothing but call the next one. -/
def next (c : Callables F V E C W G) (s : State F V E C G) : Label V E W → State F V E C G
  | .begin => { s with calls := s.calls ++ [.begin] }
  | .body v =>
    let r := mapBody c s.maps v s.callables
    ⟨r.1, r.2.1, s.calls ++ (r.2.2.map Call.body).toList⟩
  | .ended => { s with calls := s.calls ++ [.ended] }
  | .fail error => { s with calls := s.calls ++ [.fail error] }
  | .stop => { s with calls := s.calls ++ [.stop] }
  | .finish i w =>
    let r := mapFinish c s.maps i w s.callables
    ⟨r.1, r.2.1, s.calls ++ (r.2.2.map Result.call).toList⟩

/-- An interrupt is registered with all before anything else happens. -/
def start (maps : List (Map F C)) (interrupt : Bool) (g : G) : State F V E C G :=
  if interrupt then ⟨maps.map Map.register, g, [.register]⟩ else ⟨maps, g, []⟩

def run (c : Callables F V E C W G) (s : State F V E C G) (ls : List (Label V E W)) :
    State F V E C G :=
  ls.foldl (next c) s

/-- The `Then`s of a chain, whichever `Map`s they belong to. -/
def flatten (ms : List (Map F C)) : List (Then F C) := ms.flatMap Map.adapt

section Flatten

variable {c : Callables F V E C W G} {t : Then F C} {ts us : List (Then F C)} {m : Map F C}
  {ms : List (Map F C)} {v : V} {g : G} {i : ℕ} {w : W}

/-- A value that comes out of the first `Then`s goes into the others. -/
theorem thenStart_append (ts us : List (Then F C)) (v : V) (g : G) :
    thenStart c (ts ++ us) v g =
      match thenStart c ts v g with
      | (ts, g, some v) => (ts ++ (thenStart c us v g).1, (thenStart c us v g).2)
      | (ts, g, none) => (ts ++ us, g, none) := by
  induction ts generalizing v g with
  | nil => rfl
  | cons t ts ih =>
    rw [List.cons_append, thenStart, thenStart]
    cases c.call t.f v g with
    | mk g' returned =>
      cases returned with
      | value v' =>
        simp only [ih]
        rcases thenStart c ts v' g' with ⟨ts', g'', _ | v''⟩ <;> rfl
      | eventual e => rfl

theorem thenFinish_append (ts us : List (Then F C)) (i : ℕ) (w : W) (g : G) :
    thenFinish c (ts ++ us) i w g =
      if i < ts.length then
        match thenFinish c ts i w g with
        | (ts, g, some (.value v)) =>
          (ts ++ (thenStart c us v g).1, (thenStart c us v g).2.1,
            (thenStart c us v g).2.2.map .value)
        | (ts, g, result) => (ts ++ us, g, result)
      else
        (ts ++ (thenFinish c us (i - ts.length) w g).1,
          (thenFinish c us (i - ts.length) w g).2) := by
  induction ts generalizing i with
  | nil => simp
  | cons t ts ih =>
    cases i with
    | zero =>
      rw [List.cons_append, thenFinish, thenFinish, if_pos (by simp)]
      cases t.adapted with
      | none => rfl
      | some e =>
        dsimp only
        cases c.finish e w g with
        | mk g' result =>
          cases result with
          | value v =>
            simp only [thenStart_append]
            rcases thenStart c ts v g' with ⟨ts', g'', _ | v'⟩ <;> rfl
          | fail error => rfl
          | stop => rfl
    | succ i =>
      rw [List.cons_append, thenFinish, thenFinish, ih]
      by_cases h : i < ts.length
      · have h' : i + 1 < (t :: ts).length := Nat.succ_lt_succ h
        rw [if_pos h, if_pos h']
        rcases thenFinish c ts i w g with ⟨ts', g', _ | v | error⟩ <;> rfl
      · have h' : ¬ i + 1 < (t :: ts).length := fun hlt => h (Nat.lt_of_succ_lt_succ hlt)
        have hsub : i + 1 - (t :: ts).length = i - ts.length := Nat.succ_sub_succ ..
        rw [if_neg h, if_neg h', hsub]
        rfl

/-- `Then`s without an eventual under way do nothing. -/
theorem thenFinish_of_none (h : ∀ t ∈ ts, t.adapted = none) :
    thenFinish c ts i w g = (ts, g, none) := by
  induction ts generalizing i with
  | nil => rfl
  | cons t ts ih =>
    cases i with
    | zero => rw [thenFinish, h t List.mem_cons_self]
    | succ i => rw [thenFinish, ih fun t ht => h t (List.mem_cons_of_mem _ ht)]

theorem adapt_of_none (h : m.adapted = none) : ∀ t ∈ m.adapt, t.adapted = none := by
  intro t ht
  rw [Map.adapt, h, List.mem_map] at ht
  obtain ⟨f, -, rfl⟩ := ht
  rfl

theorem adapt_of_some (h : m.adapted = some ts) : m.adapt = ts := by
  rw [Map.adapt, h]

theorem flatten_cons : flatten (m :: ms) = m.adapt ++ flatten ms := List.flatMap_cons

/-- It does not matter which `Map` a `Then` belongs to when a value comes. -/
theorem mapBody_flatten (ms : List (Map F C)) (v : V) (g : G) :
    (flatten (mapBody c ms v g).1, (mapBody c ms v g).2) = thenStart c (flatten ms) v g := by
  induction ms generalizing v g with
  | nil => rfl
  | cons m ms ih =>
    rw [flatten_cons, thenStart_append, mapBody]
    rcases thenStart c m.adapt v g with ⟨ts, g', _ | v'⟩
    · rfl
    · simp only [← ih]
      rfl

/-- Nor does it when an eventual ends. -/
theorem mapFinish_flatten (ms : List (Map F C)) (i : ℕ) (w : W) (g : G) :
    (flatten (mapFinish c ms i w g).1, (mapFinish c ms i w g).2) =
      thenFinish c (flatten ms) i w g := by
  induction ms generalizing i with
  | nil => rfl
  | cons m ms ih =>
    rw [flatten_cons, thenFinish_append, mapFinish]
    by_cases h : i < m.adapt.length
    · rw [if_pos h, if_pos h]
      cases ha : m.adapted with
      | none =>
        rw [thenFinish_of_none (adapt_of_none ha)]
        rfl
      | some ts =>
        rw [adapt_of_some ha]
        dsimp only
        rcases thenFinish c ts i w g with ⟨ts', g', _ | v | error⟩
        · rfl
        · simp only [← mapBody_flatten]
          rfl
        · rfl
        · rfl
    · rw [if_neg h, if_neg h, ← ih]
      rfl

/-- The same `Then`s in the same state, whichever `Map`s they belong to. -/
structure Same (s t : State F V E C G) : Prop where
  flatten : flatten s.maps = flatten t.maps
  callables : s.callables = t.callables
  calls : s.calls = t.calls

theorem mapBody_congr {ms ns : List (Map F C)} (h : flatten ms = flatten ns) :
    flatten (mapBody c ms v g).1 = flatten (mapBody c ns v g).1 ∧
      (mapBody c ms v g).2 = (mapBody c ns v g).2 := by
  have hms := mapBody_flatten (c := c) ms v g
  rw [h, ← mapBody_flatten] at hms
  exact Prod.mk.inj hms

theorem mapFinish_congr {ms ns : List (Map F C)} (h : flatten ms = flatten ns) :
    flatten (mapFinish c ms i w g).1 = flatten (mapFinish c ns i w g).1 ∧
      (mapFinish c ms i w g).2 = (mapFinish c ns i w g).2 := by
  have hms := mapFinish_flatten (c := c) ms i w g
  rw [h, ← mapFinish_flatten] at hms
  exact Prod.mk.inj hms

theorem Same.next {s t : State F V E C G} (h : Same s t) (l : Label V E W) :
    Same (next c s l) (next c t l) := by
  obtain ⟨ms, g, calls⟩ := s
  obtain ⟨ns, g', calls'⟩ := t
  obtain ⟨hmaps, hg, hcalls⟩ := h
  dsimp only at hmaps hg hcalls
  subst hg hcalls
  cases l with
  | begin | ended | stop | fail => exact ⟨hmaps, rfl, rfl⟩
  | body v =>
    obtain ⟨hms, hrest⟩ := mapBody_congr (c := c) (v := v) (g := g) hmaps
    exact ⟨hms, congrArg Prod.fst hrest, by simp only [Fusion.next, hrest]⟩
  | finish i w =>
    obtain ⟨hms, hrest⟩ := mapFinish_congr (c := c) (i := i) (w := w) (g := g) hmaps
    exact ⟨hms, congrArg Prod.fst hrest, by simp only [Fusion.next, hrest]⟩

theorem Same.run {s t : State F V E C G} (h : Same s t) (ls : List (Label V E W)) :
    Same (run c s ls) (run c t ls) := by
  induction ls generalizing s t with
  | nil => exact h
  | cons l ls ih => exact ih (h.next l)

theorem fuse_cons (f : F) (fs : List F) :
    fuse (C := C) (f :: fs) = [⟨f :: fs, false, none⟩] := by
  induction fs generalizing f with
  | nil => rfl
  | cons f' fs ih =>
    rw [fuse, List.foldr_cons, ← fuse, ih]
    rfl

/-- Before the first value nothing but the callables and the interrupt counts. -/
theorem flatten_fuse (fs : List F) :
    flatten (fuse (C := C) fs) = flatten (separate fs) ∧
      flatten ((fuse (C := C) fs).map Map.register) = flatten ((separate fs).map Map.register) := by
  have hseparate : ∀ gs : List F, flatten (separate (C := C) gs) =
      gs.map fun f => ⟨f, false, none⟩ := by
    intro gs
    induction gs with
    | nil => rfl
    | cons f gs ih => exact congrArg (_ :: ·) ih
  have hregister : ∀ gs : List F, flatten ((separate (C := C) gs).map Map.register) =
      gs.map fun f => ⟨f, true, none⟩ := by
    intro gs
    induction gs with
    | nil => rfl
    | cons f gs ih => exact congrArg (_ :: ·) ih
  cases fs with
  | nil => exact ⟨rfl, rfl⟩
  | cons f fs =>
    rw [fuse_cons, hseparate, hregister]
    simp [flatten, Map.adapt, Map.register]

/-- A chain of `Map`s that have become one does what the `Map`s do one after the other: in every run
the callables do the same, and downstream gets the same calls. -/
theorem fuse_run (c : Callables F V E C W G) (fs : List F) (interrupt : Bool) (g : G)
    (ls : List (Label V E W)) :
    (run c (start (fuse fs) interrupt g) ls).calls =
        (run c (start (separate fs) interrupt g) ls).calls ∧
      (run c (start (fuse fs) interrupt g) ls).callables =
        (run c (start (separate fs) interrupt g) ls).callables := by
  have hflatten := flatten_fuse (C := C) fs
  have hsame : Same (start (fuse fs) interrupt g : State F V E C G)
      (start (separate fs) interrupt g) := by
    cases interrupt with
    | false => exact ⟨hflatten.1, rfl, rfl⟩
    | true => exact ⟨hflatten.2, rfl, rfl⟩
  have hrun := hsame.run (c := c) ls
  exact ⟨hrun.calls, hrun.callables⟩

end Flatten

end Eventuals.Fusion
