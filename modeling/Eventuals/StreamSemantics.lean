import Mathlib.Tactic.IntervalCases
import Eventuals.StreamInvariant

/-! What a stream delivers is what its combinators make of the list, if predicates leave their
arguments as they were. -/
namespace Eventuals.Stream

open Iteration (Leads)

/-- What a predicate leaves of its argument. -/
abbrev Left : Type 1 := ∀ α : Type, Parameter α → Category → α → α

def Left.code : Left := fun _ => Parameter.left

def Left.intact : Left := fun _ _ _ arg => arg

variable {α β R : Type} {left : Left} {c c' : Running α} {xs : List (α × Category)}

/-- The list that a chain stands for. -/
def Chain.interpret {α : Type} : Chain α → List α
  | .iterate _ container => container
  | .map e f _ => e.interpret.map f
  | .filter e f _ => e.interpret.filter f
  | .until e f => e.interpret.takeWhile fun v => !f v
  | .takeFirst e amount => e.interpret.take amount
  | .flatMap e f => e.interpret.flatMap fun v => (f v).interpret

/-- What a chain hands on, and how it is forwarded. -/
def Chain.hands (left : Left) {α : Type} : Chain α → List (α × Category)
  | .iterate emits container => container.map fun v => (v, emits)
  | .map e f returns => (e.hands left).map fun v => (f v.1, returns)
  | .filter e f p => ((e.hands left).filter fun v => f v.1).map fun v => (left α p v.2 v.1, v.2)
  | .until e f => (e.hands left).takeWhile fun v => !f v.1
  | .takeFirst e amount => (e.hands left).take amount
  | .flatMap e f => (e.hands left).flatMap fun v => (f v.1).hands left

theorem hands_intact (e : Chain α) : (e.hands Left.intact).map Prod.fst = e.interpret := by
  induction e with
  | iterate emits container => simp [Chain.hands, Chain.interpret, Function.comp_def]
  | map e f returns ih =>
    rw [Chain.interpret, ← ih]
    simp [Chain.hands, Function.comp_def]
  | filter e f p ih =>
    rw [Chain.interpret, ← ih, List.filter_map]
    simp [Chain.hands, Left.intact, Function.comp_def]
  | «until» e f ih =>
    rw [Chain.interpret, ← ih, List.takeWhile_map]
    rfl
  | takeFirst e amount ih => rw [Chain.interpret, ← ih, Chain.hands, List.map_take]
  | flatMap e f ih ihf =>
    rw [Chain.interpret, ← ih, Chain.hands, List.map_flatMap, List.flatMap_map]
    exact congrArg (List.flatMap · _) (funext fun v => ihf v.1)

/-- A fold that stops when its function says so. -/
def foldUntil (f : R → α → R × Bool) : R → List α → R
  | t, [] => t
  | t, v :: vs => if (f t v).2 then foldUntil f (f t v).1 vs else (f t v).1

def Terminal.interpret : Terminal α R → List α → Outcome R
  | .collect collection emplace, xs => .start (xs.foldl emplace collection)
  | .head arg, [] => (Terminal.head arg).ended
  | .head _, v :: _ => .start v
  | .reduce t f, xs => .start (foldUntil f t xs)

/-- Collecting into a vector gives the values of the stream. -/
theorem interpret_vector (xs : List α) :
    (Terminal.collect [] fun vs v => vs ++ [v]).interpret xs = .start xs := by
  have h : ∀ vs : List α, xs.foldl (fun vs v => vs ++ [v]) vs = vs ++ xs := by
    induction xs with
    | nil => simp
    | cons v xs ih => simp [ih]
  exact congrArg Outcome.start (h [])

def Ctx.bodyWith (left : Left) (stream : Running α) (arg : α) (category : Category) :
    Ctx R α → Control R
  | .filter f p k =>
    if f arg then .body (.filter stream f p) (left _ p category arg) category k
    else .next stream (.filter f p k)
  | k => k.body stream arg category

/-- The call under way comes to its last call, where predicates leave what `left` says. -/
def stepWith (left : Left) (s : State R) : State R :=
  match s.control with
  | .body stream arg category k => { s with control := k.bodyWith left stream arg category }
  | _ => step s

theorem stepWith_code : stepWith (R := R) Left.code = step := by
  funext s
  obtain ⟨control, delivered, asked⟩ := s
  cases control with
  | body stream arg category k => cases k <;> rfl
  | _ => rfl

/-- One call comes to another, and nothing is delivered in between. -/
def Comes (left : Left) (a b : Control R) : Prop :=
  ∀ delivered, Leads (stepWith left) ⟨a, delivered, false⟩ ⟨b, delivered, false⟩

section Comes

variable {a b d : Control R} {k : Ctx R α}

theorem Comes.refl : Comes left a a := fun _ => .refl

theorem Comes.trans (h : Comes left a b) (h' : Comes left b d) : Comes left a d :=
  fun delivered => (h delivered).trans (h' delivered)

theorem comes_begin {stages : Stages α β} {k : Ctx R β} :
    Comes left (.begin c stages k) (stages.begin c k) :=
  fun _ => Iteration.leads_step

theorem comes_next (h : c.violates = false) : Comes left (.next c k) (c.next k) := by
  intro delivered
  have hs : stepWith left ⟨.next c k, delivered, false⟩ = ⟨c.next k, delivered, false⟩ := by
    simp [stepWith, step, h]
  exact hs ▸ Iteration.leads_step

theorem comes_done : Comes left (.done c k) (c.done k) := fun _ => Iteration.leads_step

theorem comes_body {v : α} {category : Category} :
    Comes left (.body c v category k) (k.bodyWith left c v category) :=
  fun _ => Iteration.leads_step

theorem comes_ended : Comes left (.ended c k) (k.ended c) := fun _ => Iteration.leads_step

end Comes

/-- A stream that is told that it is done comes to its end. -/
def Finishes (left : Left) (c : Running α) : Prop :=
  ∃ c', ∀ (R : Type) (k : Ctx R α), Comes left (.done c k) (.ended c' k)

/-- A stream that is asked again and again delivers the values of a list. -/
def Yields (left : Left) (c : Running α) : List (α × Category) → Prop
  | [] => Finishes left c ∧ ∃ c', ∀ (R : Type) (k : Ctx R α), Comes left (.next c k) (.ended c' k)
  | v :: vs => Finishes left c ∧
    ∃ c', (∀ (R : Type) (k : Ctx R α), Comes left (.next c k) (.body c' v.1 v.2 k)) ∧
      Yields left c' vs

/-- The calls come to what a stream of the list would answer. -/
def Answers (left : Left) (call : ∀ R : Type, Ctx R α → Control R) : List (α × Category) → Prop
  | [] => ∃ c', ∀ R k, Comes left (call R k) (.ended c' k)
  | v :: vs => ∃ c', (∀ R k, Comes left (call R k) (.body c' v.1 v.2 k)) ∧ Yields left c' vs

theorem Yields.finishes (h : Yields left c xs) : Finishes left c := by
  cases xs with
  | nil => exact h.1
  | cons v vs => exact h.1

theorem Finishes.yields (hf : Finishes left c) (h : Answers left (fun _ k => .next c k) xs) :
    Yields left c xs := by
  cases xs with
  | nil => exact ⟨hf, h⟩
  | cons v vs => exact ⟨hf, h⟩

theorem Answers.of_comes {call call' : ∀ R : Type, Ctx R α → Control R}
    (hc : ∀ R k, Comes left (call R k) (call' R k)) (h : Answers left call' xs) :
    Answers left call xs := by
  cases xs with
  | nil =>
    obtain ⟨c', h⟩ := h
    exact ⟨c', fun R k => (hc R k).trans (h R k)⟩
  | cons v vs =>
    obtain ⟨c', h, hy⟩ := h
    exact ⟨c', fun R k => (hc R k).trans (h R k), hy⟩

section Combinators

theorem finishes_iterate (emits : Category) (rest : List α) (told : Bool) :
    Finishes left (.iterate emits rest told) :=
  ⟨.iterate emits rest true, fun _ _ => comes_done⟩

theorem Finishes.map (h : Finishes left c) (f : α → β) (returns : Category) :
    Finishes left (.map c f returns) := by
  obtain ⟨c', h⟩ := h
  exact ⟨.map c' f returns, fun R k => comes_done.trans ((h R _).trans comes_ended)⟩

theorem Finishes.filter (h : Finishes left c) (f : α → Bool) (p : Parameter α) :
    Finishes left (.filter c f p) := by
  obtain ⟨c', h⟩ := h
  exact ⟨.filter c' f p, fun R k => comes_done.trans ((h R _).trans comes_ended)⟩

theorem Finishes.until (h : Finishes left c) (f : α → Bool) : Finishes left (.until c f) := by
  obtain ⟨c', h⟩ := h
  exact ⟨.until c' f, fun R k => comes_done.trans ((h R _).trans comes_ended)⟩

theorem Finishes.takeRange (h : Finishes left c) (begin amount i : ℕ) :
    Finishes left (.takeRange c begin amount i) := by
  obtain ⟨c', h⟩ := h
  exact ⟨.takeRange c' begin amount i, fun R k => comes_done.trans ((h R _).trans comes_ended)⟩

theorem Finishes.flatMap (h : Finishes left c) (f : α → Chain β) (done : Bool) :
    Finishes left (.flatMap c f done) := by
  obtain ⟨c', h⟩ := h
  exact ⟨.flatMap c' f true, fun R k => comes_done.trans ((h R _).trans comes_ended)⟩

/-- The inner stream comes to its end before the outer one is told. -/
theorem Finishes.inner {outer : Running α} {f : α → Chain β} {adapted : Running β}
    {done : Bool} (h : Finishes left adapted) (k : Ctx R β) :
    ∃ adapted', Comes left (.done (.flatMapping outer f adapted true done) k)
      (.ended adapted' (.adaptor outer f true true k)) := by
  obtain ⟨adapted', h⟩ := h
  exact ⟨adapted', comes_done.trans (h R _)⟩

theorem Finishes.flatMapping {outer : Running α} {adapted : Running β} (ho : Finishes left outer)
    (ha : Finishes left adapted) (f : α → Chain β) (done : Bool) :
    Finishes left (.flatMapping outer f adapted true done) := by
  obtain ⟨outer', ho⟩ := ho
  obtain ⟨adapted', ha⟩ := ha
  refine ⟨.flatMap outer' f true, fun R k => ?_⟩
  have hinner : Comes left (.done (.flatMapping outer f adapted true done) k)
      (.ended adapted' (.adaptor outer f true true k)) := comes_done.trans (ha R _)
  exact hinner.trans (comes_ended.trans ((ho R _).trans comes_ended))

theorem yields_iterate (emits : Category) (xs : List α) :
    Yields left (.iterate emits xs false) (xs.map fun v => (v, emits)) := by
  induction xs with
  | nil =>
    exact ⟨finishes_iterate emits [] false, .iterate emits [] false, fun _ _ => comes_next rfl⟩
  | cons v vs ih =>
    exact ⟨finishes_iterate emits (v :: vs) false, .iterate emits vs false,
      fun _ _ => comes_next rfl, ih⟩

theorem Yields.map (h : Yields left c xs) (f : α → β) (returns : Category) :
    Yields left (.map c f returns) (xs.map fun v => (f v.1, returns)) := by
  induction xs generalizing c with
  | nil =>
    obtain ⟨hf, c', hc⟩ := h
    exact ⟨hf.map f returns, .map c' f returns, fun R k =>
      (comes_next rfl).trans ((hc R _).trans comes_ended)⟩
  | cons v vs ih =>
    obtain ⟨hf, c', hc, hy⟩ := h
    exact ⟨hf.map f returns, .map c' f returns, fun R k =>
      (comes_next rfl).trans ((hc R _).trans comes_body), ih hy⟩

theorem Yields.filter (h : Yields left c xs) (f : α → Bool) (p : Parameter α) :
    Yields left (.filter c f p)
      ((xs.filter fun v => f v.1).map fun v => (left α p v.2 v.1, v.2)) := by
  refine (h.finishes.filter f p).yields (Answers.of_comes (fun R k => comes_next rfl) ?_)
  change Answers left (fun _ k => .next c (.filter f p k)) _
  induction xs generalizing c with
  | nil =>
    obtain ⟨hf, c', hc⟩ := h
    exact ⟨.filter c' f p, fun R k => (hc R _).trans comes_ended⟩
  | cons v vs ih =>
    obtain ⟨hf, c', hc, hy⟩ := h
    have hbody : ∀ (R : Type) (k : Ctx R α), Comes left (.next c (.filter f p k))
        (if f v.1 then .body (.filter c' f p) (left α p v.2 v.1) v.2 k
          else .next c' (.filter f p k)) :=
      fun R k => (hc R _).trans comes_body
    by_cases hv : f v.1 = true
    · simp only [hv, if_true] at hbody
      have hcons : ((v :: vs).filter fun v => f v.1) = v :: vs.filter fun v => f v.1 :=
        List.filter_cons_of_pos hv
      rw [hcons, List.map_cons]
      refine ⟨.filter c' f p, hbody, (hy.finishes.filter f p).yields ?_⟩
      exact Answers.of_comes (fun R k => comes_next rfl) (ih hy)
    · have hcons : ((v :: vs).filter fun v => f v.1) = vs.filter fun v => f v.1 :=
        List.filter_cons_of_neg hv
      rw [hcons]
      refine Answers.of_comes (fun R k => ?_) (ih hy)
      have hb := hbody R k
      rwa [if_neg hv] at hb

theorem Yields.until (h : Yields left c xs) (f : α → Bool) :
    Yields left (.until c f) (xs.takeWhile fun v => !f v.1) := by
  induction xs generalizing c with
  | nil =>
    obtain ⟨hf, c', hc⟩ := h
    exact ⟨hf.until f, .until c' f, fun R k => (comes_next rfl).trans ((hc R _).trans comes_ended)⟩
  | cons v vs ih =>
    obtain ⟨hf, c', hc, hy⟩ := h
    have hbody : ∀ (R : Type) (k : Ctx R α), Comes left (.next (.until c f) k)
        (if f v.1 then .done c' (.until f k) else .body (.until c' f) v.1 v.2 k) :=
      fun R k => (comes_next rfl).trans ((hc R _).trans comes_body)
    by_cases hv : f v.1 = true
    · obtain ⟨c'', hd⟩ := hy.finishes
      rw [List.takeWhile_cons_of_neg (by simp [hv])]
      refine ⟨hf.until f, .until c'' f, fun R k => ?_⟩
      have hb := hbody R k
      rw [if_pos hv] at hb
      exact hb.trans ((hd R _).trans comes_ended)
    · rw [List.takeWhile_cons_of_pos (by simp [hv])]
      refine ⟨hf.until f, .until c' f, fun R k => ?_, ih hy⟩
      have hb := hbody R k
      rwa [if_neg hv] at hb

theorem next_takeFirst {amount i : ℕ} (hi : i < amount) (k : Ctx R α) :
    Comes left (.next (.takeRange c 0 amount i) k) (.next c (.takeRange 0 amount i k)) := by
  have hn : (Running.takeRange c 0 amount i).next k = .next c (.takeRange 0 amount i k) := by
    simp only [Running.next]
    exact if_pos (by omega)
  exact hn ▸ comes_next rfl

theorem body_takeFirst {amount i : ℕ} (hi : i < amount) (v : α) (category : Category)
    (k : Ctx R α) : Comes left (.body c v category (.takeRange 0 amount i k))
      (.body (.takeRange c 0 amount (i + 1)) v category k) := by
  have hb : (Ctx.takeRange 0 amount i k).bodyWith left c v category =
      .body (.takeRange c 0 amount (i + 1)) v category k := by
    simp only [Ctx.bodyWith, Ctx.body]
    exact if_pos (by omega)
  exact hb ▸ comes_body

/-- The range is complete. -/
theorem Finishes.takeFirst (h : Finishes left c) (amount : ℕ) :
    Yields left (.takeRange c 0 amount amount) [] := by
  obtain ⟨c', hd⟩ := h
  have hn : ∀ (R : Type) (k : Ctx R α), (Running.takeRange c 0 amount amount).next k =
      .done c (.takeRange 0 amount amount k) := by
    intro R k
    simp [Running.next]
  refine ⟨Finishes.takeRange ⟨c', hd⟩ 0 amount amount, .takeRange c' 0 amount amount,
    fun R k => ?_⟩
  have hdone : Comes left (.next (.takeRange c 0 amount amount) k)
      (.done c (.takeRange 0 amount amount k)) := hn R k ▸ comes_next rfl
  exact hdone.trans ((hd R _).trans comes_ended)

theorem Yields.takeFirst (h : Yields left c xs) {amount i : ℕ} (hi : i ≤ amount) :
    Yields left (.takeRange c 0 amount i) (xs.take (amount - i)) := by
  induction xs generalizing c i with
  | nil =>
    rw [List.take_nil]
    rcases Nat.lt_or_eq_of_le hi with hlt | rfl
    · obtain ⟨hf, c', hc⟩ := h
      exact ⟨hf.takeRange 0 amount i, .takeRange c' 0 amount i, fun R k =>
        (next_takeFirst hlt k).trans ((hc R _).trans comes_ended)⟩
    · exact h.finishes.takeFirst i
  | cons v vs ih =>
    rcases Nat.lt_or_eq_of_le hi with hlt | rfl
    · obtain ⟨hf, c', hc, hy⟩ := h
      have htake : (v :: vs).take (amount - i) = v :: vs.take (amount - (i + 1)) := by
        rw [show amount - i = amount - (i + 1) + 1 by omega, List.take_succ_cons]
      rw [htake]
      exact ⟨hf.takeRange 0 amount i, .takeRange c' 0 amount (i + 1), fun R k =>
        (next_takeFirst hlt k).trans ((hc R _).trans (body_takeFirst hlt v.1 v.2 k)), ih hy hlt⟩
    · rw [Nat.sub_self, List.take_zero]
      exact h.finishes.takeFirst i

/-- A chain comes to begin, and then yields what it hands on. -/
def Built (left : Left) (e : Chain α) : Prop :=
  ∃ c, Yields left c (e.hands left) ∧
    ∀ (R : Type) (k : Ctx R α), Comes left (e.start .nil k) (.begin c .nil k)

/-- An inner stream goes first, then whatever the outer one goes on with. -/
theorem answers_adaptor {outer : Running α} {adapted : Running β} {f : α → Chain β}
    {xs ys : List (β × Category)} (ha : Yields left adapted xs) (ho : Finishes left outer)
    (hn : Answers left (fun _ k => .next outer (.flatMap f none false k)) ys) :
    Answers left (fun _ k => .next adapted (.adaptor outer f true false k)) (xs ++ ys) := by
  induction xs generalizing adapted with
  | nil =>
    obtain ⟨-, c', hc⟩ := ha
    exact Answers.of_comes (fun R k => (hc R _).trans comes_ended) hn
  | cons v vs ih =>
    obtain ⟨-, c', hc, hy⟩ := ha
    have hmapping : Answers left (fun _ k => .next (.flatMapping outer f c' true false) k)
        (vs ++ ys) := Answers.of_comes (fun R k => comes_next rfl) (ih hy)
    exact ⟨.flatMapping outer f c' true false, fun R k => (hc R _).trans comes_body,
      (ho.flatMapping hy.finishes f false).yields hmapping⟩

theorem Yields.flatMap (h : Yields left c xs) {f : α → Chain β} (hf : ∀ v, Built left (f v)) :
    Yields left (.flatMap c f false) (xs.flatMap fun v => (f v.1).hands left) := by
  refine (h.finishes.flatMap f false).yields (Answers.of_comes (fun R k => comes_next rfl) ?_)
  change Answers left (fun _ k => .next c (.flatMap f none false k)) _
  induction xs generalizing c with
  | nil =>
    obtain ⟨-, c', hc⟩ := h
    exact ⟨.flatMap c' f false, fun R k => (hc R _).trans comes_ended⟩
  | cons v vs ih =>
    obtain ⟨-, c', hc, hy⟩ := h
    obtain ⟨adapted, ha, hs⟩ := hf v.1
    rw [List.flatMap_cons]
    refine Answers.of_comes (fun R k => ?_) (answers_adaptor ha hy.finishes (ih hy))
    -- The inner stream is built and begins, and the adaptor asks it at once.
    have hstart : Comes left (.body c' v.1 v.2 (.flatMap f none false k))
        ((f v.1).start .nil (.adaptor c' f false false k)) := comes_body
    exact (hc R _).trans (hstart.trans ((hs R _).trans comes_begin))

end Combinators

section Building

/-- What the stages hand on. -/
def Stage.hands (left : Left) : Stage α β → List (α × Category) → List (β × Category)
  | .map f returns, xs => xs.map fun v => (f v.1, returns)
  | .filter f p, xs => (xs.filter fun v => f v.1).map fun v => (left α p v.2 v.1, v.2)
  | .until f, xs => xs.takeWhile fun v => !f v.1
  | .takeRange begin amount, xs => (xs.drop begin).take amount
  | .flatMap f, xs => xs.flatMap fun v => (f v.1).hands left

def Stages.hands (left : Left) {α β : Type} :
    Stages α β → List (α × Category) → List (β × Category)
  | .nil, xs => xs
  | .cons stage stages, xs => stages.hands left (stage.hands left xs)

/-- The inner streams of a stage are built. -/
def Stage.Built (left : Left) : Stage α β → Prop
  | .takeRange begin _ => begin = 0
  | .flatMap f => ∀ v, Stream.Built left (f v)
  | _ => True

def Stages.Built (left : Left) {α β : Type} : Stages α β → Prop
  | .nil => True
  | .cons stage stages => stage.Built left ∧ stages.Built left

theorem Stages.hands_map {γ : Type} (f : α → γ) (returns : Category) (stages : Stages γ β)
    (xs : List (α × Category)) : (stages.map f returns).hands left xs =
      stages.hands left (xs.map fun v => (f v.1, returns)) := by
  cases stages with
  | nil => rfl
  | cons stage stages =>
    cases stage with
    | map g returns =>
      simp only [Stages.map, Stages.hands, Stage.hands, List.map_map, Function.comp_def]
    | _ => rfl

theorem Stages.built_map {γ : Type} (f : α → γ) (returns : Category) {stages : Stages γ β}
    (h : stages.Built left) : (stages.map f returns).Built left := by
  cases stages with
  | nil => exact ⟨trivial, h⟩
  | cons stage stages =>
    cases stage with
    | map g => exact h
    | _ => exact ⟨trivial, h⟩

theorem Yields.begin (h : Yields left c xs) {stage : Stage α β} (hs : stage.Built left) :
    Yields left (stage.begin c) (stage.hands left xs) := by
  cases stage with
  | map f returns => exact h.map f returns
  | filter f p => exact h.filter f p
  | «until» f => exact h.until f
  | takeRange begin amount =>
    cases hs
    exact h.takeFirst (Nat.zero_le amount)
  | flatMap f => exact h.flatMap hs

theorem Yields.stages (h : Yields left c xs) {stages : Stages α β} (hs : stages.Built left) :
    ∃ c', Yields left c' (stages.hands left xs) ∧
      ∀ (R : Type) (k : Ctx R β), Comes left (.begin c stages k) (.begin c' .nil k) := by
  induction stages with
  | nil => exact ⟨c, h, fun _ _ => .refl⟩
  | cons stage stages ih =>
    obtain ⟨c', hy, hc⟩ := ih (h.begin hs.1) hs.2
    exact ⟨c', hy, fun R k => comes_begin.trans (hc R k)⟩

theorem chain_stages (e : Chain α) (stages : Stages α β) (hs : stages.Built left) :
    ∃ c, Yields left c (stages.hands left (e.hands left)) ∧
      ∀ (R : Type) (k : Ctx R β), Comes left (e.start stages k) (.begin c .nil k) := by
  induction e generalizing β with
  | iterate emits container => exact (yields_iterate emits container).stages hs
  | map e f returns ih =>
    obtain ⟨c, hy, hc⟩ := ih (stages.map f returns) (Stages.built_map f returns hs)
    exact ⟨c, Stages.hands_map f returns stages (e.hands left) ▸ hy, hc⟩
  | filter e f p ih => exact ih (.cons (.filter f p) stages) ⟨trivial, hs⟩
  | «until» e f ih => exact ih (.cons (.until f) stages) ⟨trivial, hs⟩
  | takeFirst e amount ih => exact ih (.cons (.takeRange 0 amount) stages) ⟨rfl, hs⟩
  | flatMap e f ih ihf =>
    refine ih (.cons (.flatMap f) stages) ⟨fun v => ?_, hs⟩
    exact ihf v .nil trivial

theorem chain_built (e : Chain α) : Built left e :=
  chain_stages e .nil trivial

end Building

theorem yields_terminal (h : Yields left c xs) (k : Terminal α R) :
    Comes left (.next c (.terminal k)) (.terminal (k.interpret (xs.map Prod.fst))) := by
  induction xs generalizing c k with
  | nil =>
    obtain ⟨-, c', hc⟩ := h
    have hk : k.ended = k.interpret [] := by
      cases k <;> rfl
    exact hk ▸ (hc R _).trans comes_ended
  | cons v vs ih =>
    obtain ⟨-, c', hc, hy⟩ := h
    have hb := (hc R (.terminal k)).trans comes_body
    cases k with
    | collect collection emplace => exact hb.trans (ih hy _)
    | head arg =>
      obtain ⟨c'', hd⟩ := hy.finishes
      exact hb.trans ((hd _ _).trans comes_ended)
    | reduce t f =>
      simp only [Ctx.bodyWith, Ctx.body, Terminal.body] at hb
      by_cases hv : (f t v.1).2 = true
      · rw [if_pos hv] at hb
        have hi : (Terminal.reduce t f).interpret ((v :: vs).map Prod.fst) =
            (Terminal.reduce (f t v.1).1 f).interpret (vs.map Prod.fst) := by
          simp [Terminal.interpret, foldUntil, hv]
        exact hi ▸ hb.trans (ih hy _)
      · obtain ⟨c'', hd⟩ := hy.finishes
        rw [if_neg hv] at hb
        have hi : (Terminal.reduce t f).interpret ((v :: vs).map Prod.fst) =
            (Terminal.reduce (f t v.1).1 f).ended := by
          simp [Terminal.interpret, foldUntil, Terminal.ended, hv]
        exact hi ▸ hb.trans ((hd _ _).trans comes_ended)

/-- The values that a chain hands on. -/
def Chain.values (left : Left) (e : Chain α) : List α := (e.hands left).map Prod.fst

/-- A run returns with one call of what follows the loop. -/
theorem start_returns (left : Left) (e : Chain α) (k : Terminal α R) :
    Leads (stepWith left) (start e k) ⟨.returned, [k.interpret (e.values left)], false⟩ := by
  have hbuilt : Built left e := chain_built e
  obtain ⟨c, hy, hs⟩ := hbuilt
  have hbegin : Comes left (.begin c .nil (.terminal k)) (.next c (.terminal k)) := comes_begin
  have hcomes := (hs R (.terminal k)).trans (hbegin.trans (yields_terminal hy k))
  exact (hcomes []).trans Iteration.leads_step

theorem Running.Ok.finishes (h : c.Ok) : Finishes left c := by
  induction c with
  | iterate emits rest told => exact finishes_iterate emits rest told
  | map c f returns ih => exact (ih h).map f returns
  | filter c f p ih => exact (ih h).filter f p
  | «until» c f ih => exact (ih h).until f
  | takeRange c b a i ih => exact (ih h.1).takeRange b a i
  | flatMap outer f done ih => exact (ih h.1).flatMap f done
  | flatMapping outer f adapted inner done iho iha =>
    obtain ⟨ho, ha, rfl, -⟩ := h
    exact (iho ho).flatMapping (iha ha) f done

/-- A `FlatMap` that is told that it is done while an inner stream is active tells that one, and
the outer one only after the inner one has ended. -/
theorem flatMap_finishes {s : State R} (h : Inv s) {outer : Running α} {f : α → Chain β}
    {adapted : Running β} {inner done : Bool} {k : Ctx R β}
    (hs : s.control = .done (.flatMapping outer f adapted inner done) k) :
    ∃ n adapted', (step^[n] s).control = .ended adapted' (.adaptor outer f true true k) ∧
      (step^[n + 1] s).control = .done outer (.flatMap f none true k) := by
  obtain ⟨control, delivered, asked⟩ := s
  obtain ⟨hc, rfl⟩ := h
  cases hs
  obtain ⟨⟨-, ha, rfl, -⟩, -⟩ := hc
  obtain ⟨adapted', hf⟩ : ∃ adapted', Comes Left.code
      (.done (.flatMapping outer f adapted true done) k)
      (.ended adapted' (.adaptor outer f true true k)) := ha.finishes.inner k
  obtain ⟨n, hn⟩ := hf delivered
  rw [stepWith_code] at hn
  refine ⟨n, adapted', by rw [hn], ?_⟩
  rw [Function.iterate_succ_apply', hn]
  rfl

/-- What holds in every state of a run. -/
structure Safe (s : State R) : Prop where
  once : s.delivered.length ≤ 1
  checks : ∀ check, s.control ≠ .failed check
  notAsked : s.askedAfterDone = false
  /-- A `FlatMap` that is told that it is done finishes its inner stream, then the outer one. -/
  innerFirst : ∀ {β γ : Type} (outer : Running β) (f : β → Chain γ) (adapted : Running γ)
    (inner done : Bool) (k : Ctx R γ),
    s.control = .done (.flatMapping outer f adapted inner done) k →
    ∃ n adapted', (step^[n] s).control = .ended adapted' (.adaptor outer f true true k) ∧
      (step^[n + 1] s).control = .done outer (.flatMap f none true k)

/-- The run comes to an end, with one call of what follows the loop. -/
def Returns (e : Chain α) (k : Terminal α R) (outcome : Outcome R) : Prop :=
  ∃ n, ∀ m, n ≤ m → step^[m] (start e k) = ⟨.returned, [outcome], false⟩

theorem returns_values (e : Chain α) (k : Terminal α R) :
    Returns e k (k.interpret (e.values Left.code)) := by
  have h := start_returns Left.code e k
  rw [stepWith_code] at h
  exact h.settles rfl

theorem run_safe (e : Chain α) (k : Terminal α R) (m : ℕ) : Safe (step^[m] (start e k)) := by
  obtain ⟨n, hn⟩ := returns_values e k
  have hinv := inv_run e k m
  refine ⟨?_, hinv.not_failed, hinv.asked, fun outer f adapted inner done k' hs =>
    flatMap_finishes hinv hs⟩
  have hlast : (step^[n] (step^[m] (start e k))).delivered.length = 1 := by
    rw [← Function.iterate_add_apply, hn (n + m) (Nat.le_add_right n m)]
    rfl
  have hle := (delivered_iterate (step^[m] (start e k)) n).length_le
  omega

/-- What follows the loop is called once, with what the combinators make of the list. -/
structure Delivers (e : Chain α) (k : Terminal α R) : Prop where
  returns : Returns e k (k.interpret e.interpret)
  safe : ∀ n, Safe (step^[n] (start e k))

section Intact

/-- A predicate that accepts its argument leaves it as it was. -/
def Intact (s : State R) : Prop :=
  match s.control with
  | .body _ arg category (.filter f p _) => f arg = true → p.left category arg = arg
  | _ => True

theorem stepWith_intact {s : State R} (h : Intact s) : stepWith Left.intact s = step s := by
  obtain ⟨control, delivered, asked⟩ := s
  cases control with
  | body stream arg category k =>
    cases k with
    | filter f p k =>
      have h : f arg = true → p.left category arg = arg := h
      simp only [stepWith, step, Ctx.bodyWith, Ctx.body, Left.intact]
      split
      · next hf => rw [h hf]
      · rfl
    | _ => rfl
  | _ => rfl

theorem iterate_intact {s : State R} (h : ∀ n, Intact (step^[n] s)) (n : ℕ) :
    (stepWith Left.intact)^[n] s = step^[n] s := by
  induction n with
  | zero => rfl
  | succ n ih =>
    rw [Function.iterate_succ_apply', Function.iterate_succ_apply', ih, stepWith_intact (h n)]

theorem Returns.unique {e : Chain α} {k : Terminal α R} {a b : Outcome R} (h : Returns e k a)
    (h' : Returns e k b) : a = b := by
  obtain ⟨n, hn⟩ := h
  obtain ⟨m, hm⟩ := h'
  have hsame := (hn (n + m) (Nat.le_add_right n m)).symm.trans (hm (n + m) (Nat.le_add_left m n))
  simpa using hsame

theorem Delivers.of_intact {e : Chain α} {k : Terminal α R}
    (h : ∀ n, Intact (step^[n] (start e k))) : Delivers e k := by
  refine ⟨?_, run_safe e k⟩
  obtain ⟨n, hn⟩ := start_returns Left.intact e k
  rw [iterate_intact h, Chain.values, hands_intact] at hn
  exact Iteration.Leads.settles ⟨n, hn⟩ rfl

/-- A chain delivers to every loop if and only if it hands on the values of the list. -/
theorem delivers_iff_values {e : Chain α} :
    (∀ (S : Type) (k : Terminal α S), Delivers e k) ↔ e.values Left.code = e.interpret := by
  constructor
  · intro h
    have hvector := (h (List α) (.collect [] fun vs v => vs ++ [v])).returns
    have hsame := hvector.unique (returns_values e _)
    rw [interpret_vector, interpret_vector] at hsame
    exact (Outcome.start.inj hsame).symm
  · intro h S k
    exact ⟨h ▸ returns_values e k, run_safe e k⟩

/-- Every chain delivers what its combinators make of the list, once, if no predicate of a `Filter`
that accepts a value leaves another one in its place. Behind a chain that delivers to every loop, a
`Filter` does so exactly if that holds of all the values that it accepts. -/
theorem delivers_of_intact (e : Chain α) (k : Terminal α R) :
    ((∀ n, Intact (step^[n] (start e k))) → Delivers e k) ∧
    ((∀ (S : Type) (k : Terminal α S), Delivers e k) → ∀ (f : α → Bool) (p : Parameter α),
      ((∀ (S : Type) (k : Terminal α S), Delivers (e.filter f p) k) ↔
        ∀ v ∈ e.hands Left.code, f v.1 = true → p.left v.2 v.1 = v.1)) := by
  refine ⟨Delivers.of_intact, fun he f p => ?_⟩
  rw [delivers_iff_values] at he ⊢
  rw [Chain.values, Chain.hands, Chain.interpret, ← he, Chain.values, List.filter_map,
    List.map_map]
  simp only [Function.comp_def, List.map_inj_left, List.mem_filter, and_imp]
  rfl

theorem intact_of_returned {s : State R} {n : ℕ} (h : ∀ m < n, Intact (step^[m] s))
    (hn : (step^[n] s).control = .returned) (m : ℕ) : Intact (step^[m] s) := by
  rcases Nat.lt_or_ge m n with hm | hm
  · exact h m hm
  · obtain ⟨j, rfl⟩ := Nat.exists_eq_add_of_le' hm
    have hfixed : step (step^[n] s) = step^[n] s := by simp [step, hn]
    rw [Function.iterate_add_apply, Function.iterate_fixed hfixed]
    simp [Intact, hn]

/-- A predicate that takes vectors by value, behind a `FlatMap` whose streams emit lvalues. -/
def nonempty : Chain (List ℕ) :=
  .filter
    (.flatMap
      (.until (.map (.iterate .rvalue [1, 2, 3]) List.range .rvalue) fun v => v.length > 2)
      fun v => .takeFirst (.iterate .lvalue [v, [], v]) 2)
    (fun v => !v.isEmpty) (.value fun _ => [])

theorem nonempty_delivers :
    Delivers nonempty (.collect [] fun vs v => vs ++ [v]) ∧ nonempty.interpret = [[0], [0, 1]] ∧
      ∀ (S : Type) (k : Terminal (List ℕ) S),
        Delivers (nonempty.filter (fun v => v.length = 1) (.value fun _ => [])) k := by
  obtain ⟨hintact, hfilter⟩ := delivers_of_intact nonempty (.collect [] fun vs v => vs ++ [v])
  refine ⟨hintact (intact_of_returned (n := 80) (fun m hm => ?_) rfl), rfl,
    (hfilter (delivers_iff_values.mpr rfl) _ _).mpr (by decide)⟩
  interval_cases m <;> first | trivial | exact fun _ => rfl

/-- The predicate takes a vector by value, and accepts the one that is moved to it. -/
theorem filter_moves : ¬ ∀ (α R : Type) (e : Chain α) (k : Terminal α R), Delivers e k := by
  intro h
  have hreturns := (h _ _ (.filter (.iterate .rvalue [[1]]) (fun v => !v.isEmpty)
    (.value fun _ => [])) (.collect [] fun vs v => vs ++ [v])).returns
  have hsame := hreturns.unique (returns_values _ _)
  exact absurd (Outcome.start.inj hsame) (by decide)

end Intact

end Eventuals.Stream
