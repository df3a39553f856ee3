import Mathlib.Data.List.Nodup
import Eventuals.HTTP

/-! Where a transfer releases what it has made. A certificate that can not be encoded and an
interrupt of a transfer with an open socket are the two ways in which it does not. -/
namespace Eventuals.HTTP

open Transition (Machine)
open EventLoop (Entry Uv)

section Polls

/-- What `polls_` and libcurl know of the poll handles is the same: those that are not closed. -/
structure Polls.Ok (p : Polls) : Prop where
  same : p.polls = p.sockets.map Prod.snd
  keys : (p.sockets.map Prod.fst).Nodup
  nodup : p.polls.Nodup
  bound : ∀ i ∈ p.polls, i < p.handles.length
  opened : ∀ i h, p.handles[i]? = some h → i ∈ p.polls → h.closes = 0
  released : ∀ i h, p.handles[i]? = some h → i ∉ p.polls → h.closes = 1 ∧ h.uv ≠ .active

variable {p q : Polls} {i socket : ℕ} {c : Curl} {cs : List Curl}

theorem ok_nil : (⟨[], [], []⟩ : Polls).Ok where
  same := rfl
  keys := .nil
  nodup := .nil
  bound := by simp
  opened := by simp
  released := by simp

theorem getElem?_modify_some {α : Type*} {l : List α} {f : α → α} {j : ℕ} {x : α}
    (h : (l.modify i f)[j]? = some x) : ∃ y, l[j]? = some y ∧ (if i = j then f y else y) = x := by
  simpa [List.getElem?_modify] using h

theorem ok_start (h : p.Ok) (hi : i ∈ p.polls) : (p.start i).Ok where
  same := h.same
  keys := h.keys
  nodup := h.nodup
  bound := by simpa [Polls.start] using h.bound
  opened j x hx hj := by
    obtain ⟨y, hy, rfl⟩ := getElem?_modify_some hx
    have hc := h.opened j y hy hj
    split_ifs <;> exact hc
  released j x hx hj := by
    obtain ⟨y, hy, rfl⟩ := getElem?_modify_some hx
    have hne : i ≠ j := by
      rintro rfl
      exact hj hi
    rw [if_neg hne]
    exact h.released j y hy hj

theorem ok_delete (h : p.Ok) (i : ℕ) : (p.delete i).Ok where
  same := h.same
  keys := h.keys
  nodup := h.nodup
  bound := by simpa [Polls.delete] using h.bound
  opened j x hx hj := by
    obtain ⟨y, hy, rfl⟩ := getElem?_modify_some hx
    have hc := h.opened j y hy hj
    split_ifs <;> exact hc
  released j x hx hj := by
    obtain ⟨y, hy, rfl⟩ := getElem?_modify_some hx
    obtain ⟨hc, huv⟩ := h.released j y hy hj
    split_ifs
    · exact ⟨hc, by simp⟩
    · exact ⟨hc, huv⟩

theorem getElem?_concat {α : Type*} {l : List α} {x y : α} {j : ℕ} (h : (l ++ [x])[j]? = some y) :
    l[j]? = some y ∨ j = l.length ∧ y = x := by
  rcases Nat.lt_or_ge j l.length with hlt | hge
  · exact .inl (by rwa [List.getElem?_append_left hlt] at h)
  · rw [List.getElem?_append_right hge] at h
    have hz : j - l.length = 0 := by
      by_contra hne
      obtain ⟨n, hn⟩ := Nat.exists_eq_succ_of_ne_zero hne
      simp [hn] at h
    rw [hz] at h
    exact .inr ⟨by omega, by simpa using h.symm⟩

theorem mem_polls_of_lookup (h : p.Ok) (hl : p.sockets.lookup socket = some i) : i ∈ p.polls := by
  obtain ⟨l, r, hs, -⟩ := List.lookup_eq_some_iff.mp hl
  simp [h.same, hs]

theorem ok_poll (h : p.Ok) (socket : ℕ) : (p.poll socket).Ok := by
  unfold Polls.poll
  split
  · next i hi => exact ok_start h (mem_polls_of_lookup h hi)
  · next hn =>
    have hfresh : p.handles.length ∉ p.polls := fun hm => Nat.lt_irrefl _ (h.bound _ hm)
    refine ⟨by simp [h.same], ?_, ?_, ?_, ?_, ?_⟩
    · rw [List.map_append, List.nodup_append']
      refine ⟨h.keys, by simp, ?_⟩
      simp only [List.lookup_eq_none_iff, bne_iff_ne, ne_eq] at hn
      intro k hk hk'
      obtain ⟨a, ha, rfl⟩ := List.mem_map.mp hk
      have hsocket : a.1 = socket := by simpa using hk'
      exact hn a ha hsocket.symm
    · exact h.nodup.append (by simp) (by simpa using hfresh)
    · intro j hj
      rcases List.mem_append.mp hj with hj | hj
      · have hb := h.bound j hj
        simp only [List.length_append, List.length_singleton]
        omega
      · simp only [List.mem_singleton] at hj
        simp [hj]
    · intro j x hx hj
      rcases getElem?_concat hx with hx | ⟨-, rfl⟩
      · rcases List.mem_append.mp hj with hj | hj
        · exact h.opened j x hx hj
        · have hlt := (List.getElem?_eq_some_iff.mp hx).1
          simp only [List.mem_singleton] at hj
          omega
      · rfl
    · intro j x hx hj
      rcases getElem?_concat hx with hx | ⟨rfl, rfl⟩
      · exact h.released j x hx fun hm => hj (List.mem_append_left _ hm)
      · simp at hj

theorem ok_remove (h : p.Ok) (socket : ℕ) : (p.remove socket).Ok := by
  unfold Polls.remove
  split
  · next i hi =>
    obtain ⟨l, r, hs, hl⟩ := List.lookup_eq_some_iff.mp hi
    have hkeys := h.keys
    have hpolls : p.polls = l.map Prod.snd ++ i :: r.map Prod.snd := by simp [h.same, hs]
    have hnodup := h.nodup
    rw [hpolls] at hnodup
    have hil : i ∉ l.map Prod.snd := by
      have hd := List.disjoint_of_nodup_append hnodup
      exact fun hm => hd hm List.mem_cons_self
    rw [hs, List.map_append, List.map_cons] at hkeys
    have hlr : ∀ a ∈ l ++ r, a.1 ≠ socket := by
      intro a ha
      rcases List.mem_append.mp ha with ha | ha
      · exact fun he => by simpa [he] using hl a ha
      · have hr := (List.nodup_cons.mp (List.nodup_append'.mp hkeys).2.1).1
        exact fun he => hr (List.mem_map.mpr ⟨a, ha, he⟩)
    have hfilter : p.sockets.filter (fun a => a.1 ≠ socket) = l ++ r := by
      rw [hs, List.filter_append, List.filter_cons_of_neg (by simp), ← List.filter_append]
      exact List.filter_eq_self.mpr fun a ha => by simpa using hlr a ha
    have herase : p.polls.erase i = l.map Prod.snd ++ r.map Prod.snd := by
      rw [hpolls, List.erase_append_right _ hil, List.erase_cons_head]
    have hsub : ∀ j ∈ p.polls.erase i, j ∈ p.polls := fun j hj => List.mem_of_mem_erase hj
    refine ⟨?_, ?_, h.nodup.erase i, ?_, ?_, ?_⟩
    · simp only [herase, hfilter, List.map_append]
    · rw [hfilter, List.map_append]
      exact hkeys.sublist (List.Sublist.append_left (List.sublist_cons_self _ _) _)
    · intro j hj
      simpa [Polls.close] using h.bound j (hsub j hj)
    · intro j x hx hj
      obtain ⟨y, hy, rfl⟩ := getElem?_modify_some hx
      have hne : i ≠ j := by
        rintro rfl
        exact (List.Nodup.not_mem_erase h.nodup) hj
      rw [if_neg hne]
      exact h.opened j y hy (hsub j hj)
    · intro j x hx hj
      obtain ⟨y, hy, rfl⟩ := getElem?_modify_some hx
      by_cases hne : i = j
      · subst hne
        have ho := h.opened i y hy (mem_polls_of_lookup h hi)
        simp [ho]
      · rw [if_neg hne]
        refine h.released j y hy fun hm => hj ?_
        exact (List.mem_erase_of_ne (Ne.symm hne)).mpr hm
  · exact h

theorem ok_curl (h : p.Ok) (cs : List Curl) : (p.curl cs).Ok := by
  induction cs generalizing p with
  | nil => exact h
  | cons c cs ih =>
    cases c with
    | timer => exact ih h
    | poll socket => exact ih (ok_poll h socket)
    | remove socket => exact ih (ok_remove h socket)

theorem polls_eq_nil_iff (h : p.Ok) : p.polls = [] ↔ p.sockets = [] := by
  rw [h.same, List.map_eq_nil_iff]

theorem closeAll_eq (h : p.polls = []) : p.closeAll = p := by
  cases p
  cases h
  rfl

theorem closes_le (h : p.Ok) : ∀ x ∈ p.handles, x.closes ≤ 1 := by
  intro x hx
  obtain ⟨i, hi⟩ := List.mem_iff_getElem?.mp hx
  by_cases hm : i ∈ p.polls
  · simp [h.opened i x hi hm]
  · simp [(h.released i x hi hm).1]

theorem closes_eq (h : p.Ok) (hn : p.polls = []) : ∀ x ∈ p.handles, x.closes = 1 := by
  intro x hx
  obtain ⟨i, hi⟩ := List.mem_iff_getElem?.mp hx
  exact (h.released i x hi (by simp [hn])).1

section Twice

/-- How often the poll handle `i` has been closed. -/
def Polls.closes (p : Polls) (i : ℕ) : ℕ := ((p.handles[i]?).map Poll.closes).getD 0

theorem closes_close (hi : i < p.handles.length) : (p.close i).closes i = p.closes i + 1 := by
  simp [Polls.closes, Polls.close, hi]

theorem closes_close_of_ne {j : ℕ} (hne : i ≠ j) : (p.close i).closes j = p.closes j := by
  simp [Polls.closes, Polls.close, hne]

theorem closes_start (i j : ℕ) : (p.start i).closes j = p.closes j := by
  simp only [Polls.closes, Polls.start, List.getElem?_modify]
  cases p.handles[j]? with
  | none => rfl
  | some x => by_cases hij : i = j <;> simp [hij]

theorem closes_poll (socket : ℕ) (hi : i < p.handles.length) :
    (p.poll socket).closes i = p.closes i := by
  unfold Polls.poll
  split
  · exact closes_start _ i
  · simp [Polls.closes, List.getElem?_append_left hi]

theorem closes_le_close (i j : ℕ) : p.closes j ≤ (p.close i).closes j := by
  by_cases hij : i = j
  · subst hij
    rcases Nat.lt_or_ge i p.handles.length with hi | hi
    · rw [closes_close hi]
      exact Nat.le_succ _
    · simp [Polls.closes, List.getElem?_eq_none hi]
  · exact Nat.le_of_eq (closes_close_of_ne hij).symm

theorem react_mono (hi : i < p.handles.length) (c : Curl) :
    i < (p.react c).handles.length ∧ p.closes i ≤ (p.react c).closes i := by
  cases c with
  | timer => exact ⟨hi, Nat.le_refl _⟩
  | poll k =>
    refine ⟨?_, Nat.le_of_eq (closes_poll k hi).symm⟩
    simp only [Polls.react, Polls.poll]
    split
    · simpa [Polls.start] using hi
    · simp only [List.length_append, List.length_singleton]
      omega
  | remove k =>
    simp only [Polls.react, Polls.remove]
    split
    · next j hj => exact ⟨by simpa [Polls.close] using hi, closes_le_close j i⟩
    · exact ⟨hi, Nat.le_refl _⟩

theorem curl_mono (hi : i < p.handles.length) (cs : List Curl) :
    p.closes i ≤ (p.curl cs).closes i := by
  induction cs generalizing p with
  | nil => exact Nat.le_refl _
  | cons c cs ih =>
    obtain ⟨hi', hc⟩ := react_mono hi c
    exact Nat.le_trans hc (ih hi')

theorem lookup_filter_ne {k : ℕ} (l : List (ℕ × ℕ)) (hk : k ≠ socket) :
    (l.filter fun a => a.1 ≠ k).lookup socket = l.lookup socket := by
  induction l with
  | nil => rfl
  | cons a l ih =>
    by_cases ha : a.1 = k
    · have hs : (socket == a.1) = false := by simpa [ha] using Ne.symm hk
      rw [List.filter_cons_of_neg (by simpa using ha), ih, List.lookup_cons, hs]
    · rw [List.filter_cons_of_pos (by simpa using ha), List.lookup_cons, List.lookup_cons, ih]

/-- A socket keeps its poll handle until it is removed, which closes that. -/
theorem react_assigned (hl : p.sockets.lookup socket = some i) (hi : i < p.handles.length)
    (c : Curl) :
    (p.react c).sockets.lookup socket = some i ∨ p.closes i + 1 ≤ (p.react c).closes i := by
  cases c with
  | timer => exact .inl hl
  | poll k =>
    refine .inl ?_
    simp only [Polls.react, Polls.poll]
    split
    · exact hl
    · simp [List.lookup_append, hl]
  | remove k =>
    simp only [Polls.react, Polls.remove]
    by_cases hk : k = socket
    · subst hk
      simp only [hl]
      exact .inr (Nat.le_of_eq (closes_close hi).symm)
    · split
      · exact .inl ((lookup_filter_ne _ hk).trans hl)
      · exact .inl hl

/-- A socket that is removed in the end has its poll handle closed once more. -/
theorem closes_of_removed (hl : p.sockets.lookup socket = some i) (hi : i < p.handles.length)
    (hn : (p.curl cs).sockets = []) : p.closes i + 1 ≤ (p.curl cs).closes i := by
  induction cs generalizing p with
  | nil =>
    have hs : p.sockets = [] := hn
    simp [hs] at hl
  | cons c cs ih =>
    obtain ⟨hi', hc⟩ := react_mono hi c
    rcases react_assigned hl hi c with hl' | hmore
    · exact Nat.le_trans (Nat.succ_le_succ hc) (ih hl' hi' hn)
    · exact Nat.le_trans hmore (curl_mono hi' cs)

/-- The sockets do not depend on what has become of the handles. -/
theorem sockets_curl (hs : p.sockets = q.sockets) (hl : p.handles.length = q.handles.length)
    (cs : List Curl) : (p.curl cs).sockets = (q.curl cs).sockets := by
  induction cs generalizing p q with
  | nil => exact hs
  | cons c cs ih =>
    refine ih ?_ ?_
    · cases c with
      | timer => exact hs
      | poll k =>
        simp only [Polls.react, Polls.poll, hs, hl]
        split <;> first | exact hs | rfl
      | remove k =>
        simp only [Polls.react, Polls.remove, hs]
        split <;> first | exact hs | rfl
    · cases c with
      | timer => exact hl
      | poll k =>
        simp only [Polls.react, Polls.poll, hs]
        split <;> simp [Polls.start, hl]
      | remove k =>
        simp only [Polls.react, Polls.remove, hs]
        split <;> simp [Polls.close, hl]

theorem foldl_close (l : List ℕ) (p : Polls) : (l.foldl Polls.close p).sockets = p.sockets ∧
    (l.foldl Polls.close p).handles.length = p.handles.length := by
  induction l generalizing p with
  | nil => exact ⟨rfl, rfl⟩
  | cons i l ih =>
    obtain ⟨hs, hl⟩ := ih (p.close i)
    exact ⟨hs, hl.trans (by simp [Polls.close])⟩

theorem length_closeAll : p.closeAll.handles.length = p.handles.length :=
  (foldl_close p.polls p).2

theorem sockets_closeAll : p.closeAll.sockets = p.sockets :=
  (foldl_close p.polls p).1

theorem closes_le_foldl (l : List ℕ) (p : Polls) (i : ℕ) :
    p.closes i ≤ (l.foldl Polls.close p).closes i := by
  induction l generalizing p with
  | nil => exact Nat.le_refl _
  | cons j l ih => exact Nat.le_trans (closes_le_close j i) (ih _)

theorem closes_foldl (l : List ℕ) (p : Polls) (hi : i ∈ l) (hlt : i < p.handles.length) :
    p.closes i + 1 ≤ (l.foldl Polls.close p).closes i := by
  induction l generalizing p with
  | nil => simp at hi
  | cons j l ih =>
    by_cases hij : i = j
    · subst hij
      rw [← closes_close hlt]
      exact closes_le_foldl l _ i
    · have hm : i ∈ l := by simpa [hij] using hi
      have hc := closes_close_of_ne (p := p) (Ne.symm hij)
      rw [← hc]
      exact ih _ hm (by simpa [Polls.close] using hlt)

/-- What is closed before it is removed is closed twice. -/
theorem closes_twice (h : p.Ok) (hn : p.polls ≠ []) (hr : (p.curl cs).sockets = []) :
    ∃ x ∈ (p.closeAll.curl cs).handles, 2 ≤ x.closes := by
  obtain ⟨⟨k, i⟩, l, hs⟩ := List.exists_cons_of_ne_nil fun hs => hn ((polls_eq_nil_iff h).mpr hs)
  have hl : p.sockets.lookup k = some i := by simp [hs]
  have hi := mem_polls_of_lookup h hl
  have hlt := h.bound i hi
  have hlt' : i < p.closeAll.handles.length := by rwa [length_closeAll]
  have hclosed : p.closes i + 1 ≤ p.closeAll.closes i := closes_foldl p.polls p hi hlt
  have hsockets : (p.closeAll.curl cs).sockets = [] :=
    (sockets_curl sockets_closeAll length_closeAll cs).trans hr
  have hl' : p.closeAll.sockets.lookup k = some i := by rwa [sockets_closeAll]
  have hagain := closes_of_removed hl' hlt' hsockets
  have hpos : 2 ≤ (p.closeAll.curl cs).closes i := by omega
  unfold Polls.closes at hpos
  cases hx : (p.closeAll.curl cs).handles[i]? with
  | none => simp [hx] at hpos
  | some x => exact ⟨x, List.mem_of_getElem? hx, by simpa [hx] using hpos⟩

end Twice

end Polls

/-- What holds of a transfer that was not interrupted with a socket open. -/
structure Inv (s : State) : Prop where
  polls : s.polls.Ok
  unentered : s.entered = none → s.context = none ∧ s.started = false ∧ s.completed = false ∧
    s.installed = false ∧ s.interruptContext = false ∧ s.calls = []
  early : s.started = false → s.timer = .unused ∧ s.onClose = none ∧ s.closed = false ∧
    s.error = 0 ∧ s.polls.sockets = [] ∧ ∀ m ∈ s.calls, m.timer = .unused ∧ m.started = false
  startedBy : s.started = true → s.entered = some .start ∧ s.context = none
  once : s.calls.length ≤ 1
  transfer : s.started = true → s.completed = false → s.onClose = none ∧ s.closed = false ∧
    s.error = 0 ∧ s.timer ≠ .closing
  closing : s.started = true → s.completed = true → s.closed = false → s.timer = .closing ∧
    s.onClose.isSome = true ∧ s.calls = [] ∧ s.polls.sockets = []
  closed : s.closed = true → s.completed = true ∧ s.timer = .closed ∧ s.onClose = none ∧
    s.polls.sockets = [] ∧ ∀ m ∈ s.calls, m.timer = .closed ∧ m.closed = true
  waiting : s.entered = some .start → s.completed = false → s.calls = []
  submitted : ∀ r, s.context = some r → s.started = false ∧ (r = .start ∧ s.entered = some .start ∨
    r ≠ .start ∧ (r = .interrupted ∨ s.entered ≠ some .start) ∧ s.installed = false ∧
      s.completed = false ∧ s.calls = [])
  installedBy : s.installed = true → s.entered = some .start
  pending : s.interruptContext = true → s.installed = true ∧ s.triggered = true
  handled : s.installed = true → s.started = false → s.completed = true →
    s.interruptContext = false ∧ s.triggered = true
  easy : s.easy = s.destroyed.toNat
  multi : s.multi = s.destroyed.toNat
  destructor : s.failed ≠ some .destructor

/-- Nothing is released twice or not at all: `k_` is called at most once, and then with a timer that
was never started or is closed, so that the destructor does not check in vain. -/
structure Released (s : State) : Prop where
  once : s.calls.length ≤ 1
  idle : ∀ m ∈ s.calls, (m.timer = .unused ∨ m.timer = .closed) ∧
    (m.started = true → m.closed = true)
  easy : s.easy = s.destroyed.toNat
  multi : s.multi = s.destroyed.toNat
  closes : ∀ x ∈ s.polls.handles, x.closes ≤ 1 ∧
    (s.started = true → s.completed = true → x.closes = 1)
  destructor : s.failed ≠ some .destructor

/-- The certificate can be encoded, and no socket is open when a transfer is interrupted. -/
def Benign (s : State) : Label → Prop
  | .run _ _ => s.context = some .start → s.completed = false → s.certificate ≠ some false
  | .interrupt _ => s.started = true → s.completed = false → s.polls.sockets = []
  | _ => True

instance (s : State) : DecidablePred (Benign s)
  | .run _ _ =>
    inferInstanceAs
      (Decidable (s.context = some .start → s.completed = false → s.certificate ≠ some false))
  | .interrupt _ =>
    inferInstanceAs (Decidable (s.started = true → s.completed = false → s.polls.sockets = []))
  | .start | .fail | .stop | .trigger | .timer _ _ | .poll _ _ _ | .close | .delete _ | .destroy =>
    .isTrue trivial

section Steps

variable {s : State} {l : Label} {cs : List Curl} {f : Finish}

theorem inv_initial (registered : Bool) (certificate : Option Bool) :
    Inv (initial registered certificate) where
  polls := ok_nil
  unentered := by simp [initial]
  early := by simp [initial]
  startedBy := by simp [initial]
  once := by simp [initial]
  transfer := by simp [initial]
  closing := by simp [initial]
  closed := by simp [initial]
  waiting := by simp [initial]
  submitted := by simp [initial]
  installedBy := by simp [initial]
  pending := by simp [initial]
  handled := by simp [initial]
  easy := rfl
  multi := rfl
  destructor := by simp [initial]

theorem Inv.released (h : Inv s) : Released s where
  once := h.once
  easy := h.easy
  multi := h.multi
  destructor := h.destructor
  idle m hm := by
    cases hs : s.started with
    | false =>
      obtain ⟨-, -, -, -, -, hcalls⟩ := h.early hs
      obtain ⟨htimer, hstarted⟩ := hcalls m hm
      exact ⟨.inl htimer, fun hx => by simp [hstarted] at hx⟩
    | true =>
      cases hc : s.completed with
      | false => simp [h.waiting (h.startedBy hs).1 hc] at hm
      | true =>
        cases hcl : s.closed with
        | false => simp [(h.closing hs hc hcl).2.2.1] at hm
        | true =>
          obtain ⟨-, -, -, -, hcalls⟩ := h.closed hcl
          exact ⟨.inr (hcalls m hm).1, fun _ => (hcalls m hm).2⟩
  closes x hx := by
    refine ⟨closes_le h.polls x hx, fun hs hc => closes_eq h.polls ?_ x hx⟩
    rw [polls_eq_nil_iff h.polls]
    cases hcl : s.closed with
    | false => exact (h.closing hs hc hcl).2.2.2
    | true => exact (h.closed hcl).2.2.2.1

/-- What uses a socket or the timer is a transfer. -/
theorem Inv.transferring (h : Inv s) (hs : s.timer = .active ∨ s.polls.sockets ≠ []) :
    s.started = true ∧ s.completed = false ∧ s.entered = some .start ∧ s.context = none ∧
      s.calls = [] ∧ s.onClose = none ∧ s.closed = false ∧ s.error = 0 ∧ s.timer ≠ .closing := by
  cases hst : s.started with
  | false =>
    obtain ⟨htimer, -, -, -, hsockets, -⟩ := h.early hst
    simp [htimer, hsockets] at hs
  | true =>
    cases hco : s.completed with
    | false =>
      obtain ⟨hen, hctx⟩ := h.startedBy hst
      exact ⟨rfl, rfl, hen, hctx, h.waiting hen hco, h.transfer hst hco⟩
    | true =>
      cases hcl : s.closed with
      | false =>
        obtain ⟨htimer, -, -, hsockets⟩ := h.closing hst hco hcl
        simp [htimer, hsockets] at hs
      | true =>
        obtain ⟨-, htimer, -, hsockets, -⟩ := h.closed hcl
        simp [htimer, hsockets] at hs

theorem inv_enter (h : Inv s) (he : s.entered = none) (e : Entry) (r : Submission)
    (installed : Bool) (hr : r = .start ∧ e = .start ∨
      r ≠ .start ∧ (r = .interrupted ∨ e ≠ .start) ∧ installed = false)
    (hi : installed = true → e = .start) :
    Inv ({ s with entered := some e, installed := installed }.submit r) := by
  obtain ⟨hctx, hst, hco, hin, hint, hcalls⟩ := h.unentered he
  have hearly := h.early hst
  rw [State.submit, if_neg (by simp [hctx])]
  exact { h with
    unentered := by simp
    startedBy := by simp [hst]
    waiting := fun _ _ => hcalls
    submitted := fun r' hr' => by
      cases hr'
      refine ⟨hst, hr.imp (fun ⟨ha, hb⟩ => ⟨ha, congrArg some hb⟩) fun ⟨ha, hb, hc⟩ => ?_⟩
      exact ⟨ha, hb.imp id fun hne hx => hne (Option.some.inj hx), hc, hco, hcalls⟩
    installedBy := by simpa using hi
    pending := by simp [hint]
    handled := by simp [hco] }

theorem inv_trigger (h : Inv s) (ht : s.triggered = false) : Inv s.trigger := by
  have hp : s.interruptContext = false := by
    cases hh : s.interruptContext with
    | false => rfl
    | true => simp [(h.pending hh).2] at ht
  have hhandled : ∀ {b : Prop}, s.installed = true → s.started = false → s.completed = true → b :=
    fun hi hst hco => absurd (h.handled hi hst hco).2 (by simp [ht])
  rw [State.trigger]
  split
  · next hi =>
    rw [if_neg (by simp [hp])]
    exact { h with
      unentered := fun he => by simp [(h.unentered he).2.2.2.1] at hi
      pending := fun _ => ⟨hi, rfl⟩
      handled := hhandled }
  · exact { h with pending := by simp [hp], handled := hhandled }

theorem inv_unblock (h : Inv s) : Inv { s with context := none } :=
  { h with
    unentered := fun he => ⟨rfl, (h.unentered he).2⟩
    startedBy := fun hs => ⟨(h.startedBy hs).1, rfl⟩
    submitted := by simp }

/-- A transfer that has not started is completed by a call. -/
theorem inv_complete (h : Inv s) (hst : s.started = false) (hcalls : s.calls = [])
    (hen : s.entered ≠ none) (hctx : ∀ r, s.context = some r → r = .start)
    (hi : s.installed = true → s.interruptContext = false ∧ s.triggered = true) (c : Call) :
    Inv ({ s with completed := true }.call c) := by
  obtain ⟨htimer, honc, hclosed, herr, hsockets, -⟩ := h.early hst
  exact { h with
    unentered := fun he => absurd he hen
    early := fun _ =>
      ⟨htimer, honc, hclosed, herr, hsockets, by simp [State.call, hcalls, htimer, hst]⟩
    once := by simp [State.call, hcalls]
    transfer := by simp [State.call]
    closing := fun hs => by simp [State.call, hst] at hs
    closed := fun hc => by simp [State.call, hclosed] at hc
    waiting := by simp [State.call]
    submitted := fun r hr => ⟨hst, .inl ⟨hctx r hr, by
      rcases (h.submitted r hr).2 with ⟨-, he⟩ | ⟨hne, -⟩
      · exact he
      · exact absurd (hctx r hr) hne⟩⟩
    handled := fun hin _ _ => hi hin }

/-- `Fail()` and `Stop()` leave it at the call. -/
theorem inv_pass (h : Inv s) (hst : s.started = false) (hco : s.completed = false)
    (hcalls : s.calls = []) (hctx : s.context = none) (hen : s.entered ≠ none)
    (hn : s.entered ≠ some .start) (c : Call) : Inv (s.call c) := by
  obtain ⟨htimer, honc, hclosed, herr, hsockets, -⟩ := h.early hst
  exact { h with
    unentered := fun he => absurd he hen
    early := fun _ =>
      ⟨htimer, honc, hclosed, herr, hsockets, by simp [State.call, hcalls, htimer, hst]⟩
    once := by simp [State.call, hcalls]
    closing := fun _ hc => by simp [State.call, hco] at hc
    closed := fun hc => by simp [State.call, hclosed] at hc
    waiting := fun he => absurd he hn
    submitted := fun r hr => by simp [State.call, hctx] at hr }

theorem curl_eq (s : State) (cs : List Curl) :
    ∃ timer, (s.timer ≠ .closing → timer ≠ .closing) ∧
      s.curl cs = { s with timer := timer, polls := s.polls.curl cs } := by
  unfold State.curl State.startTimer
  split_ifs
  · exact ⟨.active, by simp, rfl⟩
  · exact ⟨s.timer, id, rfl⟩
  · exact ⟨s.timer, id, rfl⟩

theorem inv_curl (h : Inv s) (hst : s.started = true) (hco : s.completed = false)
    (cs : List Curl) : Inv (s.curl cs) := by
  obtain ⟨timer, htimer, hs⟩ := curl_eq s cs
  obtain ⟨honc, hclosed, herr, hn⟩ := h.transfer hst hco
  rw [hs]
  exact { h with
    polls := ok_curl h.polls cs
    early := by simp [hst]
    transfer := fun _ _ => ⟨honc, hclosed, herr, htimer hn⟩
    closing := by simp [hco]
    closed := by simp [hclosed] }

theorem inv_begin (h : Inv s) (hst : s.started = false) (hco : s.completed = false)
    (hctx : s.context = none) (hen : s.entered = some .start) (hcert : s.certificate ≠ some false)
    (options : Bool) (added : List Curl) : Inv (s.begin options added) := by
  obtain ⟨htimer, honc, hclosed, herr, hsockets, -⟩ := h.early hst
  have hs : Inv { s with started := true, timer := .inactive } :=
    { h with
      unentered := by simp [hen]
      early := by simp
      startedBy := fun _ => ⟨hen, hctx⟩
      transfer := fun _ _ => ⟨honc, hclosed, herr, by simp⟩
      closing := by simp [hco]
      closed := by simp [hclosed]
      submitted := by simp [hctx]
      handled := by simp }
  have hbegin : s.begin options added =
      if options then { s with started := true, timer := .inactive }.curl added
      else { s with started := true, timer := .inactive }.abort .options :=
    (if_neg (by simpa using herr)).trans (if_neg hcert)
  rw [hbegin]
  split
  · exact inv_curl hs rfl hco added
  · exact { hs with destructor := by simp [State.abort] }

theorem inv_run (h : Inv s) (hctx : s.context.isSome = true) (options : Bool)
    (added : List Curl) (hb : Benign s (.run options added)) : Inv (s.run options added) := by
  have hu := inv_unblock h
  obtain ⟨r, hr⟩ := Option.isSome_iff_exists.mp hctx
  have hen : s.entered ≠ none := fun he => by simp [(h.unentered he).1] at hr
  obtain ⟨hst, hcase⟩ := h.submitted r hr
  simp only [State.run, hr]
  rcases hcase with ⟨rfl, hstart⟩ | ⟨hne, hentered, hi, hco, hcalls⟩
  · dsimp only
    split
    · exact hu
    · next hco =>
      have hco : s.completed = false := by simpa using hco
      exact inv_begin hu hst hco rfl hstart (hb hr hco) options added
  · cases r with
    | start => exact absurd rfl hne
    | interrupted =>
      simp only [hco, Bool.false_eq_true, if_false]
      exact inv_complete hu hst hcalls hen (by simp) (fun hh => by simp [hi] at hh) .stop
    | fail => exact inv_pass hu hst hco hcalls rfl hen (by simpa using hentered) .fail
    | stop => exact inv_pass hu hst hco hcalls rfl hen (by simpa using hentered) .stop

theorem finish_eq (s : State) (f : Finish) : s.finish f =
    { s with
      completed := true
      error := f.message.getD aborted
      polls := (s.polls.curl f.removal).closeAll
      timer := .closing
      onClose := some .respond } := by
  unfold State.finish State.curl State.startTimer State.closeTimer
  dsimp only
  split_ifs <;> rfl

/-- Nothing is left of a transfer but the timer. -/
theorem inv_closing (h : Inv s) (hst : s.started = true) (hco : s.completed = false) {p : Polls}
    (hp : p.Ok) (hn : p.sockets = []) (error : ℕ) (c : OnClose) (interruptContext : Bool)
    (hi : interruptContext = true → s.interruptContext = true) :
    Inv { s with
      interruptContext := interruptContext
      completed := true
      error := error
      polls := p
      timer := .closing
      onClose := some c } := by
  obtain ⟨hen, hctx⟩ := h.startedBy hst
  have hcalls := h.waiting hen hco
  have hclosed := (h.transfer hst hco).2.1
  exact { h with
    polls := hp
    unentered := by simp [hen]
    early := by simp [hst]
    transfer := by simp
    closing := by simp [hcalls, hn]
    closed := by simp [hclosed]
    waiting := by simp
    submitted := by simp [hctx]
    pending := fun hh => h.pending (hi hh)
    handled := by simp [hst] }

theorem inv_finish (h : Inv s) (hst : s.started = true) (hco : s.completed = false)
    (hr : (s.polls.curl f.removal).sockets = []) : Inv (s.finish f) := by
  have hok := ok_curl h.polls f.removal
  have hclose := closeAll_eq ((polls_eq_nil_iff hok).mpr hr)
  rw [finish_eq, hclose]
  exact inv_closing h hst hco hok hr _ _ s.interruptContext id

theorem inv_socketAction {finish : Option Finish} (h : Inv s) (hst : s.started = true)
    (hco : s.completed = false) (ha : s.polls.Acts cs finish) : Inv (s.socketAction cs finish) := by
  have hcurl := inv_curl h hst hco cs
  cases finish with
  | none => exact hcurl
  | some f =>
    obtain ⟨timer, -, hs⟩ := curl_eq s cs
    have hr : ((s.curl cs).polls.curl f.removal).sockets = [] := by
      rw [hs]
      exact ha.2.2
    exact inv_finish hcurl (by rw [hs]; exact hst) (by rw [hs]; exact hco) hr

theorem interrupt_eq (hst : s.started = true) (hco : s.completed = false) (herr : s.error = 0)
    (removal : List Curl) : s.interrupt removal =
    { s with
      interruptContext := false
      completed := true
      polls := s.polls.closeAll.curl removal
      timer := .closing
      onClose := some .stop } := by
  simp [State.interrupt, hst, hco, herr, State.closeTimer, State.curl, State.startTimer]

theorem inv_interrupt {removal : List Curl} (h : Inv s) (hi : s.interruptContext = true)
    (hr : s.polls.Removes removal) (hb : Benign s (.interrupt removal)) :
    Inv (s.interrupt removal) := by
  obtain ⟨hin, htr⟩ := h.pending hi
  have hen := h.installedBy hin
  have hoff : Inv { s with interruptContext := false } :=
    { h with
      unentered := fun he => by simp [hen] at he
      pending := by simp
      handled := fun _ _ _ => ⟨rfl, htr⟩ }
  cases hst : s.started with
  | false =>
    have hco : s.completed = false := by
      cases hco : s.completed with
      | false => rfl
      | true => simp [(h.handled hin hst hco).1] at hi
    have herr := (h.early hst).2.2.2.1
    have hcalls := h.waiting hen hco
    have hs : s.interrupt removal =
        { { s with interruptContext := false } with completed := true }.call .stop := by
      simp [State.interrupt, hst, hco, herr]
    rw [hs]
    refine inv_complete hoff hst hcalls (by simp [hen]) ?_ (fun _ => ⟨rfl, htr⟩) .stop
    intro r hr
    rcases (h.submitted r hr).2 with ⟨rfl, -⟩ | ⟨-, -, hn, -⟩
    · rfl
    · simp [hin] at hn
  | true =>
    cases hco : s.completed with
    | true =>
      have hs : s.interrupt removal = { s with interruptContext := false } := by
        simp [State.interrupt, hst, hco]
      rw [hs]
      exact hoff
    | false =>
      have herr := (h.transfer hst hco).2.2.1
      have hclose := closeAll_eq ((polls_eq_nil_iff h.polls).mpr (hb hst hco))
      rw [interrupt_eq hst hco herr, hclose]
      exact inv_closing h hst hco (ok_curl h.polls removal) hr.2 _ _ false (by simp)

/-- A transfer that is closed calls on. -/
theorem inv_respond (h : Inv s) (hst : s.started = true) (hco : s.completed = true)
    (hcl : s.closed = true) (hcalls : s.calls = []) (c : Call) : Inv (s.call c) := by
  obtain ⟨hen, hctx⟩ := h.startedBy hst
  obtain ⟨-, htimer, honc, hsockets, -⟩ := h.closed hcl
  exact { h with
    unentered := fun he => by simp [State.call, hen] at he
    early := by simp [State.call, hst]
    once := by simp [State.call, hcalls]
    closing := by simp [State.call, hcl]
    closed := fun _ => ⟨hco, htimer, honc, hsockets, by simp [State.call, hcalls, htimer, hcl]⟩
    waiting := by simp [State.call, hco]
    submitted := by simp [State.call, hctx] }

theorem inv_close (h : Inv s) (ht : s.timer = .closing) : Inv s.close := by
  have hst : s.started = true := by
    cases hst : s.started with
    | false => simp [(h.early hst).1] at ht
    | true => rfl
  have hcl : s.closed = false := by
    cases hcl : s.closed with
    | false => rfl
    | true => simp [(h.closed hcl).2.1] at ht
  have hco : s.completed = true := by
    cases hco : s.completed with
    | false => exact absurd ht (h.transfer hst hco).2.2.2
    | true => rfl
  obtain ⟨-, honc, hcalls, hsockets⟩ := h.closing hst hco hcl
  obtain ⟨c, hc⟩ := Option.isSome_iff_exists.mp honc
  have hs : Inv { s with closed := true, timer := .closed, onClose := none } :=
    { h with
      early := by simp [hst]
      transfer := by simp [hco]
      closing := by simp
      closed := fun _ => ⟨hco, rfl, rfl, hsockets, by simp [hcalls]⟩ }
  simp only [State.close, hc]
  cases c with
  | respond =>
    dsimp only
    split
    · exact inv_respond hs hst hco rfl hcalls .start
    · exact inv_respond hs hst hco rfl hcalls .fail
  | stop => exact inv_respond hs hst hco rfl hcalls .stop

theorem inv_destroy (h : Inv s) (hd : s.destroyed = false)
    (hc : s.entered = none ∨ s.calls ≠ []) : Inv s.destroy := by
  have hclosed : s.started = true → s.closed = true := by
    intro hst
    obtain ⟨hen, -⟩ := h.startedBy hst
    by_contra hcl
    have hcl : s.closed = false := by simpa using hcl
    have hcalls : s.calls = [] := by
      cases hco : s.completed with
      | false => exact h.waiting hen hco
      | true => exact (h.closing hst hco hcl).2.2.1
    simp [hen, hcalls] at hc
  have hs : s.destroy = { s with destroyed := true, easy := s.easy + 1, multi := s.multi + 1 } := by
    have hn : ¬ (s.started && !s.closed) = true := by
      simp only [Bool.and_eq_true, Bool.not_eq_true', not_and]
      intro hst
      simp [hclosed hst]
    rw [State.destroy, if_neg hn]
  rw [hs]
  exact { h with
    easy := by simp [h.easy, hd]
    multi := by simp [h.multi, hd] }

/-- Upstream calls something that does not set up a transfer. -/
theorem inv_leave (h : Inv s) (he : s.entered = none) {e : Entry} {r : Submission}
    (hr : r ≠ .start) (hn : r = .interrupted ∨ e ≠ .start) :
    Inv ({ s with entered := some e }.submit r) := by
  have hinstalled := (h.unentered he).2.2.2.1
  exact inv_enter h he e r s.installed (.inr ⟨hr, hn, hinstalled⟩) (by simp [hinstalled])

theorem inv_start (h : Inv s) (he : s.entered = none) : Inv s.start := by
  obtain ⟨-, hst, hco, -⟩ := h.unentered he
  rw [State.start, if_neg (by simp [hst, hco])]
  split
  · exact inv_leave h he (by simp) (.inl rfl)
  · exact inv_enter h he .start .start s.registered (.inl ⟨rfl, rfl⟩) (by simp)

theorem inv_timer {finish : Option Finish} (h : Inv s) (ht : s.timer = .active)
    (ha : s.polls.Acts cs finish) : Inv ({ s with timer := .inactive }.socketAction cs finish) := by
  obtain ⟨hst, hco, -, -, -, honc, hclosed, herr, -⟩ := h.transferring (.inl ht)
  have hs : Inv { s with timer := .inactive } :=
    { h with
      early := by simp [hst]
      transfer := fun _ _ => ⟨honc, hclosed, herr, by simp⟩
      closing := by simp [hco]
      closed := by simp [hclosed] }
  exact inv_socketAction hs hst hco ha

theorem inv_poll {i : ℕ} {finish : Option Finish} (h : Inv s)
    (hi : (s.polls.handles[i]?).any (·.uv = .active) = true) (ha : s.polls.Acts cs finish) :
    Inv (s.socketAction cs finish) := by
  have hsockets : s.polls.sockets ≠ [] := by
    intro hn
    obtain ⟨x, hx, huv⟩ := (Option.any_eq_true ..).mp hi
    have hp := (polls_eq_nil_iff h.polls).mpr hn
    exact (h.polls.released i x hx (by simp [hp])).2 (by simpa using huv)
  obtain ⟨hst, hco, -⟩ := h.transferring (.inr hsockets)
  exact inv_socketAction h hst hco ha

theorem inv_next (h : Inv s) (hr : s.Ready l) (hb : Benign s l) : Inv (s.next l) := by
  cases l with
  | start => exact inv_start h hr.1
  | fail => exact inv_leave h hr.1 (by simp) (.inr (by simp))
  | stop => exact inv_leave h hr.1 (by simp) (.inr (by simp))
  | trigger => exact inv_trigger h hr.1
  | run options added => exact inv_run h hr.1 options added hb
  | interrupt removal => exact inv_interrupt h hr.1 hr.2 hb
  | timer action finish => exact inv_timer h hr.1 hr.2
  | poll i action finish => exact inv_poll h hr.1 hr.2
  | close => exact inv_close h hr
  | delete i => exact { h with polls := ok_delete h.polls i }
  | destroy => exact inv_destroy h hr.1 hr.2.2.2

/-- Every other step releases something twice, or not at all. -/
theorem not_released_next (h : Inv s) (hr : s.Ready l) (hn : ¬ Benign s l) :
    ¬ Released (s.next l) := by
  intro hrel
  cases l with
  | run options added =>
    simp only [Benign, Classical.not_imp, ne_eq, Classical.not_not] at hn
    obtain ⟨hctx, hco, hcert⟩ := hn
    have hst := (h.submitted .start hctx).1
    obtain ⟨-, -, hclosed, herr, -⟩ := h.early hst
    have hnext : (s.run options added).calls =
        s.calls ++ [⟨.fail, s.timer, true, s.closed⟩] := by
      simp [State.run, hctx, hco, State.begin, herr, hcert, State.call]
    have hlast : (⟨.fail, s.timer, true, s.closed⟩ : Made) ∈ (s.run options added).calls := by
      rw [hnext]
      exact List.mem_append_right _ List.mem_cons_self
    have hc := (hrel.idle _ hlast).2 rfl
    simp [hclosed] at hc
  | interrupt removal =>
    simp only [Benign, Classical.not_imp] at hn
    obtain ⟨hst, hco, hsockets⟩ := hn
    have herr := (h.transfer hst hco).2.2.1
    have hpolls : s.polls.polls ≠ [] := fun hp => hsockets ((polls_eq_nil_iff h.polls).mp hp)
    obtain ⟨x, hx, htwo⟩ := closes_twice h.polls hpolls hr.2.2
    have hnext : (s.interrupt removal).polls = s.polls.closeAll.curl removal := by
      rw [interrupt_eq hst hco herr]
    have hle := (hrel.closes x (by rwa [State.next, hnext])).1
    omega
  | start | fail | stop | trigger | timer | poll | close | delete | destroy => exact hn trivial

end Steps

section Runs

variable {s t : State} {xs : List (State × Label)}

/-- A transfer releases what it has made exactly once, in every order of the callbacks, if and only
if its certificate can be encoded and it is not interrupted with a socket open. -/
theorem released_iff_benign (h0 : machine.Initial s) (hr : machine.Run s xs t) :
    (∀ j ≤ xs.length, Released (Machine.stateAt t xs j)) ↔ ∀ p ∈ xs, Benign p.1 p.2 := by
  obtain ⟨registered, certificate, rfl⟩ := h0
  have hkeep : ∀ s l, Inv s → machine.Enabled s l → Benign s l → Inv (s.next l) :=
    fun _ _ hi he hb => inv_next hi he.2 hb
  have hbreak : ∀ s l, Inv s → machine.Enabled s l → ¬ Benign s l → ¬ Released (s.next l) :=
    fun _ _ hi he hn => not_released_next hi he.2 hn
  exact hr.forall_stateAt_iff (fun _ hi => hi.released) hkeep hbreak
    (inv_initial registered certificate)

/-- A transfer with a timer, a socket and a response. -/
def transferring : List Label :=
  [.start, .run true [.timer], .timer [.poll 5] none,
    .poll 0 [] (some ⟨some 0, [.remove 5]⟩), .close, .delete 0, .destroy]

theorem exists_transfer_released : ∃ xs t, machine.Run (initial true (some true)) xs t ∧
    xs.map Prod.snd = transferring ∧ t.calls = [⟨.start, .closed, true, true⟩] ∧
      ∀ j ≤ xs.length, Released (Machine.stateAt t xs j) := by
  have he : (machine.restrict Benign).exec (initial true (some true)) transferring = some _ := rfl
  obtain ⟨xs, hrun, hl⟩ := Machine.exec_run he
  obtain ⟨hr, hb⟩ := hrun.of_restrict
  exact ⟨xs, _, hr, hl, rfl, (released_iff_benign ⟨true, some true, rfl⟩ hr).mpr hb⟩

/-- A certificate that can not be encoded leaves a transfer that its destructor does not accept and
whose handles are cleaned up before, and an interrupt closes the poll handle of a socket twice. -/
theorem exists_not_released :
    (∃ s, machine.Reachable s ∧ s.certificate = some false ∧ s.failed = some .destructor ∧
      s.destroyed = false ∧ s.easy = 1 ∧ s.multi = 1 ∧ ¬ Released s) ∧
    ∃ s, machine.Reachable s ∧ s.certificate = none ∧ s.polls.handles = [⟨.closing, 2⟩] ∧
      ¬ Released s := by
  have hcert : machine.exec (initial false (some false)) [.start, .run true [], .destroy] =
      some _ := rfl
  have hinterrupt : machine.exec (initial true none)
      [.start, .run true [.timer], .timer [.poll 5] none, .trigger, .interrupt [.remove 5]] =
      some _ := rfl
  refine ⟨⟨_, Machine.exec_reachable (.initial ⟨false, some false, rfl⟩) hcert, ?_⟩,
    ⟨_, Machine.exec_reachable (.initial ⟨true, none, rfl⟩) hinterrupt, rfl, rfl, fun h => ?_⟩⟩
  · exact ⟨rfl, rfl, rfl, rfl, rfl, fun h => h.destructor rfl⟩
  · exact absurd (h.closes ⟨.closing, 2⟩ List.mem_cons_self).1 (by decide)

end Runs

end Eventuals.HTTP
