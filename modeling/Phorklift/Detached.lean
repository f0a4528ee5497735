import Phorklift.Transition
import Mathlib.Data.List.Nodup
import Mathlib.Data.List.Pairwise
import Mathlib.Logic.Function.Basic

/-! Detached subrequests: what starts them, and what closes them. -/

namespace Phorklift

open Transition

inductive SubrFather
  /-- NULL: the request of a client -/
  | client
  | of (father : Nat)
  /-- `PHL_REQUEST_DETACHED_SUBR_FATHER` -/
  | detached
  deriving DecidableEq

structure DetachRequest where
  father : SubrFather
  /-- the state is `PHL_REQUEST_STATE_LOCATE_CONF_HOST` -/
  fresh : Bool
  closed : Bool
  /-- `phl_request_do_close` has put it on the list of requests to free -/
  freed : Bool
  subrHead : List Nat

inductive DetachEvent
  /-- `phl_request_subr_new` and `phl_request_subr_detach` -/
  | detached (s : Nat)
  /-- its first step is run -/
  | started (s : Nat)
  /-- `phl_request_close` -/
  | ended (s : Nat)
  /-- `phl_request_do_close` -/
  | closed (s : Nat)
  deriving DecidableEq

/-- The calls that are going on, the innermost first. -/
inductive DetachCall
  | run (r : Nat)
  /-- `phl_request_run_post` -/
  | post (r : Nat)
  /-- `phl_request_subr_close` -/
  | subrClose (r : Nat)
  deriving DecidableEq

structure DetachWorld where
  requests : Nat → DetachRequest
  next : Nat
  calls : List DetachCall
  log : List DetachEvent

/-- What the steps of a request do in a call. -/
inductive DetachChoice
  /-- the step returns `PHL_AGAIN` -/
  | again
  /-- a subrequest is created, and the step goes on -/
  | subr (detach : Bool)
  /-- a subrequest of its own is closed, and the step goes on -/
  | subrClose (s : Nat)
  /-- another request is run, and the step goes on -/
  | wake (s : Nat)
  /-- the last step is done, or has failed -/
  | finish
  deriving DecidableEq

inductive DetachAct
  | accept
  /-- `phl_request_run` from an event -/
  | wake (r : Nat)
  /-- the client's connection or stream is closed -/
  | disconnect (r : Nat)
  | call (choice : DetachChoice)

namespace DetachWorld

def put (w : DetachWorld) (r : Nat) (q : DetachRequest) : DetachWorld :=
  { w with requests := Function.update w.requests r q }

def write (w : DetachWorld) (e : DetachEvent) : DetachWorld :=
  { w with log := w.log ++ [e] }

def new (w : DetachWorld) (father : SubrFather) (fresh : Bool) : DetachWorld :=
  { w.put w.next ⟨father, fresh, false, false, []⟩ with next := w.next + 1 }

/-- `phl_request_subr_new`, and `phl_request_subr_detach` if wanted. -/
def phlRequestSubrNew (w : DetachWorld) (r : Nat) (detach : Bool) : DetachWorld :=
  let s := w.next
  let w := w.new (if detach then .detached else .of r) true
  let w := w.put r { w.requests r with subrHead := s :: (w.requests r).subrHead }
  if detach then w.write (.detached s) else w

/-- `wuy_list_del_if` on its node -/
def unlink (w : DetachWorld) (r : Nat) : DetachWorld :=
  { w with requests := fun f =>
      { w.requests f with subrHead := (w.requests f).subrHead.erase r } }

/-- All of `subr_head` is popped and closed. -/
def phlRequestDoClose (w : DetachWorld) (r : Nat) : DetachWorld × List DetachCall :=
  (((w.unlink r).put r { w.requests r with freed := true, subrHead := [] }).write (.closed r),
    (w.requests r).subrHead.map .subrClose)

def phlRequestClose (w : DetachWorld) (r : Nat) : DetachWorld × List DetachCall :=
  if (w.requests r).closed then (w, [])
  else
    let w := (w.put r { w.requests r with closed := true }).write (.ended r)
    match (w.requests r).father with
    | .client => w.phlRequestDoClose r
    | .of father => (w, [.run father])
    | .detached => (w, [.subrClose r])

/-- One round of the loop: the subrequest at the head is moved to the tail and run, where its first
step cannot suspend. -/
def phlRequestRunPost (w : DetachWorld) (r : Nat) : DetachWorld × List DetachCall :=
  match (w.requests r).subrHead with
  | [] => (w, [])
  | s :: rest =>
    if (w.requests s).fresh then
      let w := w.put r { w.requests r with subrHead := rest ++ [s] }
      ((w.put s { w.requests s with fresh := false }).write (.started s), [.run s, .post r])
    else (w, [])

/-- The rest of `phl_request_run`, with the part of the steps in it. -/
def phlRequestRun (w : DetachWorld) (r : Nat) (choice : DetachChoice) :
    Option (DetachWorld × List DetachCall) :=
  let q := w.requests r
  if q.freed ∨ q.closed then some (w, [])
  else
    match choice with
    | .again => some (w, [.post r])
    | .subr detach => some (w.phlRequestSubrNew r detach, [.run r])
    | .subrClose s =>
      if s ∈ q.subrHead ∧ (w.requests s).father = .of r then some (w, [.subrClose s, .run r])
      else none
    | .wake s =>
      if s < w.next ∧ (w.requests s).fresh = false then some (w, [.run s, .run r]) else none
    | .finish => some (w.phlRequestClose r)

end DetachWorld

open DetachWorld

def detachCallStep (w : DetachWorld) (choice : DetachChoice) :
    DetachCall → Option (DetachWorld × List DetachCall)
  | .run r => w.phlRequestRun r choice
  | .post r => some (w.phlRequestRunPost r)
  | .subrClose r => some (w.phlRequestDoClose r)

def detachStep (w : DetachWorld) : DetachAct → Option DetachWorld
  | .call choice =>
    match w.calls with
    | [] => none
    | c :: rest =>
      (detachCallStep w choice c).map fun x => { x.1 with calls := x.2 ++ rest }
  | .accept => if w.calls = [] then some (w.new .client false) else none
  | .wake r =>
    if w.calls = [] ∧ r < w.next ∧ (w.requests r).fresh = false then
      some { w with calls := [.run r] }
    else none
  | .disconnect r =>
    if w.calls = [] ∧ r < w.next ∧ (w.requests r).father = .client ∧
        (w.requests r).fresh = false then
      let x := w.phlRequestClose r
      some { x.1 with calls := x.2 }
    else none

/-- A detached subrequest is closed after its own end, and it ends after it was started. -/
def detachRight (pre : List DetachEvent) : DetachEvent → Prop
  | .closed s => .detached s ∈ pre → .ended s ∈ pre
  | .ended s => .detached s ∈ pre → .started s ∈ pre
  | _ => True

/-- The detached subrequests of a request have all come to their end. -/
def SubrsEnded (w : DetachWorld) (r : Nat) : Prop :=
  ∀ s ∈ (w.requests r).subrHead, (w.requests s).father = .detached → (w.requests s).closed = true

/-- The detached subrequests of a request have all been started, or are going to be by a call of
`phl_request_run_post` that is going on. -/
def SubrsStarted (w : DetachWorld) (r : Nat) (calls : List DetachCall) : Prop :=
  ∀ s ∈ (w.requests r).subrHead, (w.requests s).father = .detached →
    (w.requests s).fresh = true → .post r ∈ calls

instance (w : DetachWorld) (r : Nat) : Decidable (SubrsEnded w r) :=
  inferInstanceAs (Decidable (∀ s ∈ _, _ → _))

instance (w : DetachWorld) (r : Nat) (calls : List DetachCall) :
    Decidable (SubrsStarted w r calls) :=
  inferInstanceAs (Decidable (∀ s ∈ _, _ → _ → _))

/-- No request is freed before the end of its detached subrequests, and none ends with one that has
not been started. -/
def LetsEnd (w : DetachWorld) : DetachAct → Prop
  | .disconnect r => SubrsEnded w r
  | .call choice =>
    match w.calls with
    | .run r :: rest =>
      choice = .finish → (w.requests r).closed = false → (w.requests r).freed = false →
        if (w.requests r).father = .client then SubrsEnded w r else SubrsStarted w r rest
    | .subrClose r :: _ => SubrsEnded w r
    | _ => True
  | _ => True

section DetachSteps

variable {w w' : DetachWorld} {r s f n : Nat} {q : DetachRequest} {calls rest : List DetachCall}
  {tail : List Nat} {detach : Bool} {choice : DetachChoice} {act : DetachAct}
  {e : DetachEvent}

namespace DetachWorld

theorem put_same : (w.put r q).requests r = q := by
  rw [put]
  exact Function.update_self _ _ _

theorem put_ne (h : s ≠ r) : (w.put r q).requests s = w.requests s := by
  rw [put]
  exact Function.update_of_ne h _ _

/-- A field that is written as it was. -/
theorem put_congr {β : Type} (g : DetachRequest → β) (h : g q = g (w.requests r)) (s : Nat) :
    g ((w.put r q).requests s) = g (w.requests s) := by
  by_cases hs : s = r
  · rw [hs, put_same, h]
  · rw [put_ne hs]

/-- A call is going on that runs the request, or its new subrequests. -/
def Pends (w : DetachWorld) (f : Nat) : Prop :=
  .post f ∈ w.calls ∨
    .run f ∈ w.calls ∧ (w.requests f).closed = false ∧ (w.requests f).freed = false

def Detached (w : DetachWorld) (s : Nat) : Prop :=
  (w.requests s).father = .detached

end DetachWorld

/-- What holds of the lists of subrequests. -/
structure SubrLists (w : DetachWorld) : Prop where
  bound : ∀ f, ∀ s ∈ (w.requests f).subrHead, s < w.next
  empty : ∀ f, w.next ≤ f → (w.requests f).subrHead = []
  nodup : ∀ f, (w.requests f).subrHead.Nodup
  home : ∀ f g s, s ∈ (w.requests f).subrHead → s ∈ (w.requests g).subrHead → f = g
  order : ∀ f, (w.requests f).subrHead.Pairwise fun a b =>
    (w.requests b).fresh = true → (w.requests a).fresh = true

/-- What holds between the calls. -/
structure DetachInv (w : DetachWorld) : Prop where
  lists : SubrLists w
  fathers : ∀ s f, s < w.next → (w.requests s).father = .of f →
    f < w.next ∧ (w.requests f).fresh = false
  runs : ∀ r, .run r ∈ w.calls → r < w.next ∧ (w.requests r).fresh = false
  shut : ∀ s, (w.requests s).closed = true → (w.requests s).fresh = false
  logged : ∀ s, .detached s ∈ w.log → w.Detached s ∧ s < w.next
  closes : ∀ s, .subrClose s ∈ w.calls →
    s < w.next ∧ (w.Detached s → (w.requests s).closed = true)
  ended : ∀ s, s < w.next → (w.requests s).closed = true → .ended s ∈ w.log
  freed : ∀ s, s < w.next → w.Detached s → (w.requests s).freed = true →
    (w.requests s).closed = true
  started : ∀ s, s < w.next → w.Detached s → (w.requests s).fresh = false → .started s ∈ w.log
  waiting : ∀ s, s < w.next → w.Detached s → (w.requests s).fresh = true →
    (w.requests s).freed = false → ∃ f, s ∈ (w.requests f).subrHead ∧ w.Pends f
  owned : Each detachRight w.log

/-- Other calls are going on. -/
theorem DetachInv.recall (h : DetachInv w)
    (hruns : ∀ r, .run r ∈ calls → r < w.next ∧ (w.requests r).fresh = false)
    (hcloses : ∀ s, .subrClose s ∈ calls →
      s < w.next ∧ (w.Detached s → (w.requests s).closed = true))
    (hwaiting : ∀ s f, w.Detached s → (w.requests s).fresh = true →
      s ∈ (w.requests f).subrHead → w.Pends f → { w with calls := calls }.Pends f) :
    DetachInv { w with calls := calls } where
  lists := ⟨h.lists.bound, h.lists.empty, h.lists.nodup, h.lists.home, h.lists.order⟩
  fathers := h.fathers
  runs := hruns
  shut := h.shut
  logged := h.logged
  closes := hcloses
  ended := h.ended
  freed := h.freed
  started := h.started
  waiting := by
    intro s hs hdet hfresh hfreed
    obtain ⟨f, hmem, hpends⟩ := h.waiting s hs hdet hfresh hfreed
    exact ⟨f, hmem, hwaiting s f hdet hfresh hmem hpends⟩
  owned := h.owned

/-- The innermost call is replaced by others. -/
theorem DetachInv.replace {c : DetachCall} (new : List DetachCall) (h : DetachInv w)
    (hcalls : w.calls = c :: rest)
    (hruns : ∀ r, .run r ∈ new → r < w.next ∧ (w.requests r).fresh = false)
    (hcloses : ∀ s, .subrClose s ∈ new →
      s < w.next ∧ (w.Detached s → (w.requests s).closed = true))
    (hpost : ∀ s f, w.Detached s → (w.requests s).fresh = true →
      s ∈ (w.requests f).subrHead → c = .post f → .post f ∈ new ++ rest)
    (hrun : ∀ f, c = .run f → (w.requests f).closed = false → (w.requests f).freed = false →
      .post f ∈ new ∨ .run f ∈ new) :
    DetachInv { w with calls := new ++ rest } := by
  refine h.recall ?_ ?_ ?_
  · intro r hr
    rcases List.mem_append.mp hr with hr | hr
    · exact hruns r hr
    · exact h.runs r (by rw [hcalls]; exact List.mem_cons_of_mem c hr)
  · intro s hs
    rcases List.mem_append.mp hs with hs | hs
    · exact hcloses s hs
    · exact h.closes s (by rw [hcalls]; exact List.mem_cons_of_mem c hs)
  · intro s f hdet hfresh hmem hpends
    rw [Pends, hcalls] at hpends
    rcases hpends with hin | ⟨hin, hopen⟩
    · rcases List.mem_cons.mp hin with hc | hin
      · exact .inl (hpost s f hdet hfresh hmem hc.symm)
      · exact .inl (List.mem_append_right new hin)
    · rcases List.mem_cons.mp hin with hc | hin
      · rcases hrun f hc.symm hopen.1 hopen.2 with hnew | hnew
        · exact .inl (List.mem_append_left rest hnew)
        · exact .inr ⟨List.mem_append_left rest hnew, hopen⟩
      · exact .inr ⟨List.mem_append_right new hin, hopen⟩

theorem mem_erase_ne {l : List Nat} (hs : s ≠ r) : s ∈ l.erase r ↔ s ∈ l :=
  List.mem_erase_of_ne hs

theorem each_write (h : Each detachRight w.log) (he : detachRight w.log e) :
    Each detachRight (w.write e).log :=
  each_snoc.mpr ⟨h, he⟩

theorem mem_write {e' : DetachEvent} (he : e' ∈ w.log) : e' ∈ (w.write e).log :=
  List.mem_append_left _ he

/-- All that closing a request changes of another one is that it is unlinked. -/
theorem doClose_requests (hs : s ≠ r) : (w.phlRequestDoClose r).1.requests s =
    { w.requests s with subrHead := (w.requests s).subrHead.erase r } := put_ne hs

theorem doClose_same : (w.phlRequestDoClose r).1.requests r =
    { w.requests r with freed := true, subrHead := [] } := put_same

theorem doClose_field {β : Type} (g : DetachRequest → β)
    (hg : ∀ q l, g { q with subrHead := l } = g q)
    (hfreed : g { w.requests r with freed := true, subrHead := [] } = g (w.requests r)) :
    g ((w.phlRequestDoClose r).1.requests s) = g (w.requests s) := by
  by_cases hs : s = r
  · rw [hs, doClose_same, hfreed]
  · rw [doClose_requests hs, hg]

theorem doClose_sublist :
    ((w.phlRequestDoClose r).1.requests s).subrHead.Sublist (w.requests s).subrHead := by
  by_cases hs : s = r
  · rw [hs, doClose_same]
    exact List.nil_sublist _
  · rw [doClose_requests hs]
    exact List.erase_sublist

theorem doClose_lists (h : SubrLists w) : SubrLists (w.phlRequestDoClose r).1 := by
  have hfresh : ∀ s, ((w.phlRequestDoClose r).1.requests s).fresh = (w.requests s).fresh :=
    fun s => doClose_field DetachRequest.fresh (fun _ _ => rfl) rfl
  constructor
  · exact fun f s hs => h.bound f s (doClose_sublist.subset hs)
  · intro f hf
    have hsub := doClose_sublist (w := w) (r := r) (s := f)
    rw [h.empty f hf] at hsub
    exact List.sublist_nil.mp hsub
  · exact fun f => (h.nodup f).sublist doClose_sublist
  · exact fun f g s hf hg => h.home f g s (doClose_sublist.subset hf) (doClose_sublist.subset hg)
  · intro f
    simp only [hfresh]
    exact (h.order f).sublist doClose_sublist

/-- A request is freed when it and its detached subrequests have come to their ends. -/
theorem DetachInv.doClose (h : DetachInv w) (hr : r < w.next)
    (hended : w.Detached r → (w.requests r).closed = true) (hsubrs : SubrsEnded w r) :
    DetachInv (w.phlRequestDoClose r).1 := by
  have hfather : ∀ s, ((w.phlRequestDoClose r).1.requests s).father = (w.requests s).father :=
    fun s => doClose_field DetachRequest.father (fun _ _ => rfl) rfl
  have hfresh : ∀ s, ((w.phlRequestDoClose r).1.requests s).fresh = (w.requests s).fresh :=
    fun s => doClose_field DetachRequest.fresh (fun _ _ => rfl) rfl
  have hclosed : ∀ s, ((w.phlRequestDoClose r).1.requests s).closed = (w.requests s).closed :=
    fun s => doClose_field DetachRequest.closed (fun _ _ => rfl) rfl
  have hdet : ∀ s, (w.phlRequestDoClose r).1.Detached s ↔ w.Detached s := by
    intro s
    rw [Detached, hfather, Detached]
  constructor
  · exact doClose_lists h.lists
  · intro s f hs hf
    rw [hfather] at hf
    rw [hfresh]
    exact h.fathers s f hs hf
  · intro s hs
    rw [hfresh]
    exact h.runs s hs
  · intro s hs
    rw [hclosed] at hs
    rw [hfresh]
    exact h.shut s hs
  · intro s hs
    rw [hdet]
    rcases List.mem_append.mp hs with hs | hs
    · exact h.logged s hs
    · cases List.mem_singleton.mp hs
  · intro s hs
    rw [hclosed, hdet]
    exact h.closes s hs
  · intro s hs hc
    rw [hclosed] at hc
    exact mem_write (h.ended s hs hc)
  · intro s hs hd hf
    rw [hdet] at hd
    rw [hclosed]
    by_cases hsr : s = r
    · rw [hsr] at hd ⊢
      exact hended hd
    · rw [doClose_requests hsr] at hf
      exact h.freed s hs hd hf
  · intro s hs hd hf
    rw [hfresh] at hf
    exact mem_write (h.started s hs ((hdet s).mp hd) hf)
  · intro s hs hd hf hnot
    rw [hfresh] at hf
    rw [hdet] at hd
    have hsr : s ≠ r := by
      intro hsr
      rw [hsr, doClose_same] at hnot
      cases hnot
    rw [doClose_requests hsr] at hnot
    obtain ⟨f, hmem, hpends⟩ := h.waiting s hs hd hf hnot
    have hfr : f ≠ r := by
      intro hfr
      rw [hfr] at hmem
      have hopen := h.shut s (hsubrs s hmem hd)
      rw [hf] at hopen
      cases hopen
    refine ⟨f, ?_, ?_⟩
    · rw [doClose_requests hfr]
      exact (mem_erase_ne hsr).mpr hmem
    · rw [Pends, doClose_requests hfr]
      exact hpends
  · exact each_write h.owned fun hmem => h.ended r hr (hended (h.logged r hmem).1)

/-- The children that are closed with a request have ended where they are detached. -/
theorem DetachInv.doClose_calls (h : DetachInv w) (hsubrs : SubrsEnded w r)
    (hs : .subrClose s ∈ (w.phlRequestDoClose r).2) :
    s < w.next ∧ (w.Detached s → (w.requests s).closed = true) := by
  obtain ⟨c, hc, heq⟩ := List.mem_map.mp hs
  cases heq
  exact ⟨h.lists.bound r s hc, hsubrs s hc⟩

/-- A request ends when its detached subrequests have been started. -/
theorem DetachInv.end (h : DetachInv w) (hr : r < w.next) (hrun : (w.requests r).fresh = false)
    (hsubrs : SubrsStarted w r w.calls) :
    DetachInv ((w.put r { w.requests r with closed := true }).write (.ended r)) := by
  have hother : ∀ {β : Type} (g : DetachRequest → β),
      g { w.requests r with closed := true } = g (w.requests r) → ∀ s,
      g (((w.put r { w.requests r with closed := true }).write (.ended r)).requests s) =
        g (w.requests s) := fun g hg => put_congr g hg
  have hlist := hother DetachRequest.subrHead rfl
  have hfresh := hother DetachRequest.fresh rfl
  have hfather := hother DetachRequest.father rfl
  have hfreed := hother DetachRequest.freed rfl
  have hclosed : ∀ s, (w.requests s).closed = true →
      (((w.put r { w.requests r with closed := true }).write (.ended r)).requests s).closed =
        true := by
    intro s hs
    by_cases hsr : s = r
    · rw [hsr]
      exact congrArg DetachRequest.closed put_same
    · rw [← hs]
      exact congrArg DetachRequest.closed (put_ne hsr)
  constructor
  · constructor
    · intro f s
      rw [hlist]
      exact h.lists.bound f s
    · intro f
      rw [hlist]
      exact h.lists.empty f
    · intro f
      rw [hlist]
      exact h.lists.nodup f
    · intro f g s
      rw [hlist, hlist]
      exact h.lists.home f g s
    · intro f
      simp only [hlist, hfresh]
      exact h.lists.order f
  · intro s f hs hf
    rw [hfather] at hf
    rw [hfresh]
    exact h.fathers s f hs hf
  · intro s hs
    rw [hfresh]
    exact h.runs s hs
  · intro s hs
    rw [hfresh]
    by_cases hsr : s = r
    · rw [hsr]
      exact hrun
    · apply h.shut s
      rw [← hs]
      exact congrArg DetachRequest.closed (put_ne hsr).symm
  · intro s hs
    rw [Detached, hfather]
    rcases List.mem_append.mp hs with hs | hs
    · exact h.logged s hs
    · cases List.mem_singleton.mp hs
  · intro s hs
    rw [Detached, hfather]
    obtain ⟨hlt, hend⟩ := h.closes s hs
    exact ⟨hlt, fun hd => hclosed s (hend hd)⟩
  · intro s hs hc
    by_cases hsr : s = r
    · rw [hsr]
      exact List.mem_append_right _ (List.mem_singleton.mpr rfl)
    · apply mem_write
      apply h.ended s hs
      rw [← hc]
      exact congrArg DetachRequest.closed (put_ne hsr).symm
  · intro s hs hd hf
    rw [Detached, hfather] at hd
    rw [hfreed] at hf
    exact hclosed s (h.freed s hs hd hf)
  · intro s hs hd hf
    rw [Detached, hfather] at hd
    rw [hfresh] at hf
    exact mem_write (h.started s hs hd hf)
  · intro s hs hd hf hnot
    rw [Detached, hfather] at hd
    rw [hfresh] at hf
    rw [hfreed] at hnot
    obtain ⟨f, hmem, hpends⟩ := h.waiting s hs hd hf hnot
    refine ⟨f, ?_, ?_⟩
    · rw [hlist]
      exact hmem
    · by_cases hfr : f = r
      · rw [hfr] at hmem ⊢
        exact .inl (hsubrs s hmem hd hf)
      · rcases hpends with hpost | ⟨hin, hopen⟩
        · exact .inl hpost
        · refine .inr ⟨hin, ?_⟩
          have hsame : ((w.put r { w.requests r with closed := true }).write (.ended r)).requests f =
              w.requests f := put_ne hfr
          rw [hsame]
          exact hopen
  · refine each_write h.owned fun hmem => ?_
    exact h.started r hr (h.logged r hmem).1 hrun

/-- A new subrequest is at the head of its father's list. -/
theorem subrNew_requests (detach : Bool) (hr : r < w.next) :
    (w.phlRequestSubrNew r detach).requests w.next =
      ⟨if detach then .detached else .of r, true, false, false, []⟩ ∧
    (w.phlRequestSubrNew r detach).requests r =
      { w.requests r with subrHead := w.next :: (w.requests r).subrHead } ∧
    ∀ s, s ≠ w.next → s ≠ r → (w.phlRequestSubrNew r detach).requests s = w.requests s := by
  have hne : r ≠ w.next := Nat.ne_of_lt hr
  have hreq : (w.phlRequestSubrNew r detach).requests =
      ((w.put w.next ⟨if detach then .detached else .of r, true, false, false, []⟩).put r
        { w.requests r with subrHead := w.next :: (w.requests r).subrHead }).requests := by
    have hold : (w.new (if detach then .detached else .of r) true).requests r = w.requests r :=
      put_ne hne
    cases detach <;> rw [phlRequestSubrNew] <;> dsimp only <;> rw [hold] <;> rfl
  rw [hreq]
  refine ⟨?_, put_same, ?_⟩
  · rw [put_ne hne.symm, put_same]
  · intro s hs hsr
    rw [put_ne hsr, put_ne hs]

theorem subrNew_world (w : DetachWorld) (r : Nat) (detach : Bool) :
    (w.phlRequestSubrNew r detach).next = w.next + 1 ∧
    (w.phlRequestSubrNew r detach).calls = w.calls ∧
    (w.phlRequestSubrNew r detach).log =
      w.log ++ if detach then [.detached w.next] else [] := by
  cases detach
  · exact ⟨rfl, rfl, (List.append_nil _).symm⟩
  · exact ⟨rfl, rfl, rfl⟩

theorem subrNew_field {β : Type} (g : DetachRequest → β) (hg : ∀ q l, g { q with subrHead := l } = g q)
    (hr : r < w.next) (hs : s ≠ w.next) :
    g ((w.phlRequestSubrNew r detach).requests s) = g (w.requests s) := by
  obtain ⟨-, hsame, hother⟩ := subrNew_requests detach hr
  by_cases hsr : s = r
  · rw [hsr, hsame, hg]
  · rw [hother s hs hsr]

theorem subrNew_lists (h : SubrLists w) (hr : r < w.next) :
    SubrLists (w.phlRequestSubrNew r detach) := by
  obtain ⟨hnew, hsame, hother⟩ := subrNew_requests detach hr
  obtain ⟨hnext, -, -⟩ := subrNew_world w r detach
  have hmem : ∀ f s, s ∈ ((w.phlRequestSubrNew r detach).requests f).subrHead →
      (f = r ∧ s = w.next) ∨ s ∈ (w.requests f).subrHead := by
    intro f s hs
    by_cases hfr : f = r
    · rw [hfr, hsame] at hs
      rcases List.mem_cons.mp hs with hs | hs
      · exact .inl ⟨hfr, hs⟩
      · rw [hfr]
        exact .inr hs
    · by_cases hfn : f = w.next
      · rw [hfn, hnew] at hs
        cases hs
      · rw [hother f hfn hfr] at hs
        exact .inr hs
  have hfresh : ∀ s, s ≠ w.next →
      ((w.phlRequestSubrNew r detach).requests s).fresh = (w.requests s).fresh :=
    fun s hs => subrNew_field DetachRequest.fresh (fun _ _ => rfl) hr hs
  have hkeep : ∀ f, ((w.requests f).subrHead).Pairwise fun a b =>
      ((w.phlRequestSubrNew r detach).requests b).fresh = true →
        ((w.phlRequestSubrNew r detach).requests a).fresh = true := by
    intro f
    refine (h.order f).imp_of_mem ?_
    intro a b ha hb hab
    have hla := h.bound f a ha
    have hlb := h.bound f b hb
    rw [hfresh a (by omega), hfresh b (by omega)]
    exact hab
  constructor
  · intro f s hs
    rw [hnext]
    rcases hmem f s hs with ⟨-, hs⟩ | hs
    · omega
    · have hlt := h.bound f s hs
      omega
  · intro f hf
    rw [hnext] at hf
    rw [hother f (by omega) (by omega)]
    exact h.empty f (by omega)
  · intro f
    by_cases hfr : f = r
    · rw [hfr, hsame]
      refine List.nodup_cons.mpr ⟨?_, h.nodup r⟩
      intro hin
      have hlt := h.bound r _ hin
      omega
    · by_cases hfn : f = w.next
      · rw [hfn, hnew]
        exact List.nodup_nil
      · rw [hother f hfn hfr]
        exact h.nodup f
  · intro f g s hf hg
    rcases hmem f s hf with ⟨hfr, hs⟩ | hf
    · rcases hmem g s hg with ⟨hgr, -⟩ | hg
      · rw [hfr, hgr]
      · have hlt := h.bound g s hg
        omega
    · rcases hmem g s hg with ⟨-, hs⟩ | hg
      · have hlt := h.bound f s hf
        omega
      · exact h.home f g s hf hg
  · intro f
    by_cases hfr : f = r
    · rw [hfr, hsame]
      refine List.pairwise_cons.mpr ⟨fun b _ _ => ?_, hkeep r⟩
      rw [hnew]
    · by_cases hfn : f = w.next
      · rw [hfn, hnew]
        exact List.Pairwise.nil
      · rw [hother f hfn hfr]
        exact hkeep f

/-- A detached subrequest waits for `phl_request_run_post` of the request that runs. -/
theorem DetachInv.subrNew (h : DetachInv w) (detach : Bool) (hrun : .run r ∈ w.calls)
    (hclosed : (w.requests r).closed = false) (hfreed : (w.requests r).freed = false) :
    DetachInv (w.phlRequestSubrNew r detach) := by
  obtain ⟨hr, hrfresh⟩ := h.runs r hrun
  obtain ⟨hnew, hsame, hother⟩ := subrNew_requests detach hr
  obtain ⟨hnext, hcalls, hlog⟩ := subrNew_world w r detach
  have hfield : ∀ {β : Type} (g : DetachRequest → β), (∀ q l, g { q with subrHead := l } = g q) →
      ∀ s, s ≠ w.next → g ((w.phlRequestSubrNew r detach).requests s) = g (w.requests s) :=
    fun g hg s hs => subrNew_field g hg hr hs
  have hfather := hfield DetachRequest.father fun _ _ => rfl
  have hfresh := hfield DetachRequest.fresh fun _ _ => rfl
  have hshut := hfield DetachRequest.closed fun _ _ => rfl
  have hgone := hfield DetachRequest.freed fun _ _ => rfl
  have hdet : ∀ s, s ≠ w.next → ((w.phlRequestSubrNew r detach).Detached s ↔ w.Detached s) := by
    intro s hs
    rw [Detached, hfather s hs, Detached]
  have hkept : ∀ {e}, e ∈ w.log → e ∈ (w.phlRequestSubrNew r detach).log := by
    intro e he
    rw [hlog]
    exact List.mem_append_left _ he
  have hlt : ∀ {s}, s < (w.phlRequestSubrNew r detach).next → s ≠ w.next → s < w.next := by
    intro s hs hne
    rw [hnext] at hs
    omega
  have hpends : ∀ f, f ≠ w.next → w.Pends f → (w.phlRequestSubrNew r detach).Pends f := by
    intro f hf hp
    rw [Pends, hcalls, hshut f hf, hgone f hf]
    exact hp
  constructor
  · exact subrNew_lists h.lists hr
  · intro s f hs hf
    rw [hnext]
    by_cases hsn : s = w.next
    · rw [hsn, hnew] at hf
      cases detach
      · cases hf
        rw [hfresh r (by omega)]
        exact ⟨by omega, hrfresh⟩
      · cases hf
    · rw [hfather s hsn] at hf
      obtain ⟨hlf, hff⟩ := h.fathers s f (hlt hs hsn) hf
      rw [hfresh f (by omega)]
      exact ⟨by omega, hff⟩
  · intro s hs
    rw [hcalls] at hs
    obtain ⟨hls, hsf⟩ := h.runs s hs
    rw [hnext, hfresh s (by omega)]
    exact ⟨by omega, hsf⟩
  · intro s hs
    by_cases hsn : s = w.next
    · rw [hsn, hnew] at hs
      cases hs
    · rw [hshut s hsn] at hs
      rw [hfresh s hsn]
      exact h.shut s hs
  · intro s hs
    rw [hlog] at hs
    rw [hnext]
    rcases List.mem_append.mp hs with hs | hs
    · obtain ⟨hd, hls⟩ := h.logged s hs
      exact ⟨(hdet s (by omega)).mpr hd, by omega⟩
    · cases detach
      · cases hs
      · cases List.mem_singleton.mp hs
        exact ⟨congrArg DetachRequest.father hnew, by omega⟩
  · intro s hs
    rw [hcalls] at hs
    obtain ⟨hls, hend⟩ := h.closes s hs
    rw [hnext, hshut s (by omega)]
    exact ⟨by omega, fun hd => hend ((hdet s (by omega)).mp hd)⟩
  · intro s hs hc
    by_cases hsn : s = w.next
    · rw [hsn, hnew] at hc
      cases hc
    · rw [hshut s hsn] at hc
      exact hkept (h.ended s (hlt hs hsn) hc)
  · intro s hs hd hf
    by_cases hsn : s = w.next
    · rw [hsn, hnew] at hf
      cases hf
    · rw [hgone s hsn] at hf
      rw [hshut s hsn]
      exact h.freed s (hlt hs hsn) ((hdet s hsn).mp hd) hf
  · intro s hs hd hf
    by_cases hsn : s = w.next
    · rw [hsn, hnew] at hf
      cases hf
    · rw [hfresh s hsn] at hf
      exact hkept (h.started s (hlt hs hsn) ((hdet s hsn).mp hd) hf)
  · intro s hs hd hf hnot
    by_cases hsn : s = w.next
    · refine ⟨r, ?_, hpends r (by omega) (.inr ⟨hrun, hclosed, hfreed⟩)⟩
      rw [hsame, hsn]
      exact List.mem_cons_self
    · rw [hfresh s hsn] at hf
      rw [hgone s hsn] at hnot
      obtain ⟨f, hmem, hp⟩ := h.waiting s (hlt hs hsn) ((hdet s hsn).mp hd) hf hnot
      have hfn : f ≠ w.next := by
        intro hfn
        rw [hfn, h.lists.empty _ (Nat.le_refl _)] at hmem
        cases hmem
      refine ⟨f, ?_, hpends f hfn hp⟩
      by_cases hfr : f = r
      · rw [hfr, hsame]
        rw [hfr] at hmem
        exact List.mem_cons_of_mem _ hmem
      · rw [hother f hfn hfr]
        exact hmem
  · rw [hlog]
    refine h.owned.append_of_forall ?_
    intro e he pre
    cases detach
    · cases he
    · cases List.mem_singleton.mp he
      trivial

theorem post_field {β : Type} (g : DetachRequest → β) (hg : ∀ q l, g { q with subrHead := l } = g q)
    (hfresh : ∀ q, g { q with fresh := false } = g q) {l : List Nat} (x : Nat) :
    g (((w.put r { w.requests r with subrHead := l }).put s
      { (w.put r { w.requests r with subrHead := l }).requests s with fresh := false }).requests x) =
        g (w.requests x) := by
  rw [put_congr g (hfresh _), put_congr g (hg _ _)]

theorem post_fresh {l : List Nat} (x : Nat) :
    (((w.put r { w.requests r with subrHead := l }).put s
      { (w.put r { w.requests r with subrHead := l }).requests s with fresh := false }).requests
        x).fresh = if x = s then false else (w.requests x).fresh := by
  split
  next hx => rw [hx, put_same]
  next hx =>
    rw [put_ne hx]
    exact put_congr DetachRequest.fresh (by rfl) x

theorem post_subrHead {l : List Nat} (x : Nat) :
    (((w.put r { w.requests r with subrHead := l }).put s
      { (w.put r { w.requests r with subrHead := l }).requests s with fresh := false }).requests
        x).subrHead = if x = r then l else (w.requests x).subrHead := by
  refine (put_congr DetachRequest.subrHead (by rfl) x).trans ?_
  split
  next hx => rw [hx, put_same]
  next hx => rw [put_ne hx]

/-- The subrequest that is started goes from the head of the list to its tail. -/
theorem post_lists (h : SubrLists w) (hlist : (w.requests r).subrHead = s :: tail) :
    SubrLists ((w.put r { w.requests r with subrHead := tail ++ [s] }).put s
      { (w.put r { w.requests r with subrHead := tail ++ [s] }).requests s with
        fresh := false }) := by
  have hperm : (s :: tail).Perm (tail ++ [s]) := (List.perm_append_singleton s tail).symm
  have hmem : ∀ f x, x ∈ (((w.put r { w.requests r with subrHead := tail ++ [s] }).put s
      { (w.put r { w.requests r with subrHead := tail ++ [s] }).requests s with
        fresh := false }).requests f).subrHead ↔ x ∈ (w.requests f).subrHead := by
    intro f x
    rw [post_subrHead]
    split
    next hf => rw [hf, hlist, hperm.mem_iff]
    next => rfl
  constructor
  · intro f x hx
    exact h.bound f x ((hmem f x).mp hx)
  · intro f hf
    rw [post_subrHead]
    split
    next hfr =>
      have hnil := h.empty f hf
      rw [hfr, hlist] at hnil
      cases hnil
    next => exact h.empty f hf
  · intro f
    rw [post_subrHead]
    split
    next =>
      have hnodup := h.nodup r
      rw [hlist] at hnodup
      exact hperm.nodup_iff.mp hnodup
    next => exact h.nodup f
  · intro f g x hf hg
    exact h.home f g x ((hmem f x).mp hf) ((hmem g x).mp hg)
  · intro f
    have hkeep : ∀ {l : List Nat}, s ∉ l →
        l.Pairwise (fun a b => (w.requests b).fresh = true → (w.requests a).fresh = true) →
        l.Pairwise fun a b => (if b = s then false else (w.requests b).fresh) = true →
          (if a = s then false else (w.requests a).fresh) = true := by
      intro l hs hl
      refine hl.imp_of_mem ?_
      intro a b ha hb hab
      rw [if_neg (ne_of_mem_of_not_mem ha hs), if_neg (ne_of_mem_of_not_mem hb hs)]
      exact hab
    simp only [post_fresh]
    rw [post_subrHead]
    have hnodup := h.nodup r
    rw [hlist] at hnodup
    split
    next hf =>
      have horder := h.order r
      rw [hlist] at horder
      refine List.pairwise_append.mpr ⟨?_, List.pairwise_singleton _ _, ?_⟩
      · exact hkeep (List.nodup_cons.mp hnodup).1 (List.pairwise_cons.mp horder).2
      · intro a _ b hb
        rw [List.mem_singleton.mp hb, if_pos rfl]
        exact nofun
    next hf =>
      refine hkeep ?_ (h.order f)
      intro hin
      apply hf
      apply h.home f r s hin
      rw [hlist]
      exact List.mem_cons_self

/-- The loop ends where no subrequest of the list is fresh any more. -/
theorem not_fresh_of_head (h : SubrLists w) (hlist : (w.requests r).subrHead = s :: tail)
    (hs : (w.requests s).fresh = false) {x : Nat} (hx : x ∈ (w.requests r).subrHead) :
    (w.requests x).fresh = false := by
  have horder := h.order r
  rw [hlist] at horder hx
  rcases List.mem_cons.mp hx with hx | hx
  · rw [hx]
    exact hs
  · rw [← Bool.not_eq_true]
    intro hfresh
    have hhead := (List.pairwise_cons.mp horder).1 x hx hfresh
    rw [hs] at hhead
    cases hhead

theorem DetachInv.start (h : DetachInv w) (hlist : (w.requests r).subrHead = s :: tail) :
    DetachInv (((w.put r { w.requests r with subrHead := tail ++ [s] }).put s
      { (w.put r { w.requests r with subrHead := tail ++ [s] }).requests s with
        fresh := false }).write (.started s)) := by
  have hperm : (s :: tail).Perm (tail ++ [s]) := (List.perm_append_singleton s tail).symm
  have hfield : ∀ {β : Type} (g : DetachRequest → β), (∀ q l, g { q with subrHead := l } = g q) →
      (∀ q, g { q with fresh := false } = g q) → ∀ x,
      g ((((w.put r { w.requests r with subrHead := tail ++ [s] }).put s
        { (w.put r { w.requests r with subrHead := tail ++ [s] }).requests s with
          fresh := false }).write (.started s)).requests x) = g (w.requests x) :=
    fun g hg hf x => post_field g hg hf x
  have hfather := hfield DetachRequest.father (fun _ _ => rfl) fun _ => rfl
  have hclosed := hfield DetachRequest.closed (fun _ _ => rfl) fun _ => rfl
  have hfreed := hfield DetachRequest.freed (fun _ _ => rfl) fun _ => rfl
  have hof : ∀ x, (((w.put r { w.requests r with subrHead := tail ++ [s] }).put s
      { (w.put r { w.requests r with subrHead := tail ++ [s] }).requests s with
        fresh := false }).requests x).fresh = if x = s then false else (w.requests x).fresh :=
    fun x => post_fresh x
  have hold : ∀ x, (w.requests x).fresh = false →
      (if x = s then false else (w.requests x).fresh) = false := by
    intro x hx
    split
    · rfl
    · exact hx
  constructor
  · obtain ⟨hbound, hempty, hnodup, hhome, horder⟩ := post_lists h.lists hlist
    exact ⟨hbound, hempty, hnodup, hhome, horder⟩
  · intro x f hx hf
    rw [hfather] at hf
    obtain ⟨hlt, hff⟩ := h.fathers x f hx hf
    exact ⟨hlt, (hof f).trans (hold f hff)⟩
  · intro x hx
    obtain ⟨hlt, hxf⟩ := h.runs x hx
    exact ⟨hlt, (hof x).trans (hold x hxf)⟩
  · intro x hx
    rw [hclosed] at hx
    exact (hof x).trans (hold x (h.shut x hx))
  · intro x hx
    rw [Detached, hfather]
    rcases List.mem_append.mp hx with hx | hx
    · exact h.logged x hx
    · cases List.mem_singleton.mp hx
  · intro x hx
    rw [Detached, hfather, hclosed]
    exact h.closes x hx
  · intro x hx hc
    rw [hclosed] at hc
    exact mem_write (h.ended x hx hc)
  · intro x hx hd hf
    rw [Detached, hfather] at hd
    rw [hfreed] at hf
    rw [hclosed]
    exact h.freed x hx hd hf
  · intro x hx hd hf
    rw [Detached, hfather] at hd
    by_cases hxs : x = s
    · rw [hxs]
      exact List.mem_append_right _ (List.mem_singleton.mpr rfl)
    · have hxf := (hof x).symm.trans hf
      rw [if_neg hxs] at hxf
      exact mem_write (h.started x hx hd hxf)
  · intro x hx hd hf hnot
    rw [Detached, hfather] at hd
    rw [hfreed] at hnot
    have hxf := (hof x).symm.trans hf
    have hxs : x ≠ s := by
      intro hxs
      rw [if_pos hxs] at hxf
      cases hxf
    rw [if_neg hxs] at hxf
    obtain ⟨f, hmem, hp⟩ := h.waiting x hx hd hxf hnot
    refine ⟨f, ?_, ?_⟩
    · show x ∈ (((w.put r _).put s _).requests f).subrHead
      rw [post_subrHead]
      split
      next hfr =>
        rw [hfr, hlist] at hmem
        exact hperm.mem_iff.mp hmem
      next => exact hmem
    · rw [Pends, hclosed, hfreed]
      exact hp
  · exact each_write h.owned trivial

/-- The calls that a request leaves when it ends. -/
theorem DetachInv.close (h : DetachInv w) (hr : r < w.next) (hfresh : (w.requests r).fresh = false)
    (hsubrs : if (w.requests r).father = .client then SubrsEnded w r
      else SubrsStarted w r w.calls) (hclosed : (w.requests r).closed = false) :
    DetachInv (w.phlRequestClose r).1 ∧ ((w.phlRequestClose r).1.requests r).closed = true ∧
    (w.phlRequestClose r).1.calls = w.calls ∧
    (∀ x, .run x ∈ (w.phlRequestClose r).2 → x < (w.phlRequestClose r).1.next ∧
      ((w.phlRequestClose r).1.requests x).fresh = false) ∧
    (∀ x, .subrClose x ∈ (w.phlRequestClose r).2 → x < (w.phlRequestClose r).1.next ∧
      ((w.phlRequestClose r).1.Detached x →
        ((w.phlRequestClose r).1.requests x).closed = true)) := by
  have hstarted : SubrsStarted w r w.calls := by
    split at hsubrs
    next =>
      intro s hs hdet hf
      have hnot := h.shut s (hsubrs s hs hdet)
      rw [hf] at hnot
      cases hnot
    next => exact hsubrs
  have hend := h.end hr hfresh hstarted
  have hshut : (((w.put r { w.requests r with closed := true }).write (.ended r)).requests r).closed
      = true := congrArg DetachRequest.closed put_same
  have hfather : (((w.put r { w.requests r with closed := true }).write (.ended r)).requests
      r).father = (w.requests r).father := put_congr DetachRequest.father (by rfl) r
  have hother : ∀ x, (((w.put r { w.requests r with closed := true }).write (.ended r)).requests
      x).fresh = (w.requests x).fresh := put_congr DetachRequest.fresh rfl
  rw [DetachWorld.phlRequestClose, hclosed, if_neg Bool.false_ne_true]
  dsimp only
  split
  next hof =>
    rw [hfather] at hof
    have hnot : ¬((w.put r { w.requests r with closed := true }).write (.ended r)).Detached r := by
      rw [Detached, hfather, hof]
      exact nofun
    rw [if_pos hof] at hsubrs
    have hended : SubrsEnded ((w.put r { w.requests r with closed := true }).write (.ended r)) r := by
      intro s hs hdet
      have hlist : (((w.put r { w.requests r with closed := true }).write (.ended r)).requests
          r).subrHead = (w.requests r).subrHead := put_congr DetachRequest.subrHead (by rfl) r
      rw [hlist] at hs
      by_cases hsr : s = r
      · rw [hsr]
        exact hshut
      · have hsame : ((w.put r { w.requests r with closed := true }).write (.ended r)).requests s =
            w.requests s := put_ne hsr
        rw [hsame] at hdet ⊢
        exact hsubrs s hs hdet
    refine ⟨hend.doClose hr (fun hd => absurd hd hnot) hended, ?_, rfl, ?_, ?_⟩
    · rw [doClose_same]
      exact hshut
    · intro x hx
      obtain ⟨c, -, hc⟩ := List.mem_map.mp hx
      cases hc
    · intro x hx
      rw [Detached, doClose_field DetachRequest.father (fun _ _ => rfl) rfl,
        doClose_field DetachRequest.closed (fun _ _ => rfl) rfl]
      exact hend.doClose_calls hended hx
  next f hof =>
    rw [hfather] at hof
    obtain ⟨hlt, hff⟩ := h.fathers r f hr hof
    refine ⟨hend, hshut, rfl, ?_, ?_⟩
    · intro x hx
      cases List.mem_singleton.mp hx
      exact ⟨hlt, (hother f).trans hff⟩
    · intro x hx
      cases List.mem_singleton.mp hx
  next =>
    refine ⟨hend, hshut, rfl, ?_, ?_⟩
    · intro x hx
      cases List.mem_singleton.mp hx
    · intro x hx
      cases List.mem_singleton.mp hx
      exact ⟨hr, fun _ => hshut⟩

theorem run_keeps_detached {x : DetachWorld × List DetachCall} (h : DetachInv w)
    (hcalls : w.calls = .run r :: rest) (hok : LetsEnd w (.call choice))
    (hstep : w.phlRequestRun r choice = some x) : DetachInv { x.1 with calls := x.2 ++ rest } := by
  have hrun : .run r ∈ w.calls := by
    rw [hcalls]
    exact List.mem_cons_self
  obtain ⟨hr, hfresh⟩ := h.runs r hrun
  simp only [phlRequestRun] at hstep
  split at hstep
  next hdone =>
    cases hstep
    refine h.replace [] hcalls nofun nofun nofun ?_
    intro f hf hclosed hfreed
    cases hf
    rcases hdone with hdone | hdone
    · rw [hdone] at hfreed
      cases hfreed
    · rw [hdone] at hclosed
      cases hclosed
  next hopen =>
    simp only [not_or, Bool.not_eq_true] at hopen
    obtain ⟨hfreed, hclosed⟩ := hopen
    cases choice with
    | again =>
      cases hstep
      refine h.replace [.post r] hcalls (by simp) (by simp) nofun ?_
      intro f hf _ _
      cases hf
      simp
    | subr detach =>
      cases hstep
      have hsubr := h.subrNew detach hrun hclosed hfreed
      have hcalls' := (subrNew_world w r detach).2.1.trans hcalls
      refine hsubr.replace [.run r] hcalls' ?_ (by simp) nofun ?_
      · intro y hy
        apply hsubr.runs y
        rw [hcalls', List.mem_singleton.mp hy]
        exact List.mem_cons_self
      · intro f hf _ _
        cases hf
        simp
    | subrClose s =>
      simp only [Option.ite_none_right_eq_some] at hstep
      obtain ⟨⟨hs, hfather⟩, hx⟩ := hstep
      cases hx
      refine h.replace [.subrClose s, .run r] hcalls ?_ ?_ nofun ?_
      · intro y hy
        simp only [List.mem_cons, reduceCtorEq, DetachCall.run.injEq, List.not_mem_nil, or_false,
          false_or] at hy
        rw [hy]
        exact ⟨hr, hfresh⟩
      · intro y hy
        simp only [List.mem_cons, reduceCtorEq, DetachCall.subrClose.injEq, List.not_mem_nil,
          or_false] at hy
        rw [hy]
        refine ⟨h.lists.bound r s hs, fun hdet => ?_⟩
        rw [Detached, hfather] at hdet
        cases hdet
      · intro f hf _ _
        cases hf
        simp
    | wake s =>
      simp only [Option.ite_none_right_eq_some] at hstep
      obtain ⟨hs, hx⟩ := hstep
      cases hx
      refine h.replace [.run s, .run r] hcalls ?_ (by simp) nofun ?_
      · intro y hy
        simp only [List.mem_cons, DetachCall.run.injEq, List.not_mem_nil, or_false] at hy
        rcases hy with hy | hy
        · rw [hy]
          exact hs
        · rw [hy]
          exact ⟨hr, hfresh⟩
      · intro f hf _ _
        cases hf
        simp
    | finish =>
      cases hstep
      have hsubrs : if (w.requests r).father = .client then SubrsEnded w r
          else SubrsStarted w r w.calls := by
        rw [LetsEnd, hcalls] at hok
        have hok' := hok rfl hclosed hfreed
        split
        next hclient =>
          rw [if_pos hclient] at hok'
          exact hok'
        next hnot =>
          rw [if_neg hnot] at hok'
          intro s hs hdet hf
          rw [hcalls]
          exact List.mem_cons_of_mem _ (hok' s hs hdet hf)
      obtain ⟨hinv, hshut, hsame, hruns, hcloses⟩ := h.close hr hfresh hsubrs hclosed
      refine hinv.replace _ (hsame.trans hcalls) hruns hcloses nofun ?_
      intro f hf hc _
      cases hf
      rw [hshut] at hc
      cases hc

theorem post_keeps_detached (h : DetachInv w) (hcalls : w.calls = .post r :: rest) :
    DetachInv { (w.phlRequestRunPost r).1 with calls := (w.phlRequestRunPost r).2 ++ rest } := by
  unfold phlRequestRunPost
  split
  next hlist =>
    refine h.replace [] hcalls nofun nofun ?_ nofun
    intro s f _ _ hs hf
    cases hf
    rw [hlist] at hs
    cases hs
  next s tail hlist =>
    split
    next =>
      have hstart := h.start hlist
      refine hstart.replace [.run s, .post r] hcalls ?_ (by simp) ?_ nofun
      · intro y hy
        simp only [List.mem_cons, reduceCtorEq, DetachCall.run.injEq, List.not_mem_nil,
          or_false] at hy
        rw [hy]
        refine ⟨h.lists.bound r s ?_, congrArg DetachRequest.fresh put_same⟩
        rw [hlist]
        exact List.mem_cons_self
      · intro _ f _ _ _ hf
        cases hf
        simp
    next hnot =>
      rw [Bool.not_eq_true] at hnot
      refine h.replace [] hcalls nofun nofun ?_ nofun
      intro x f _ hfresh hx hf
      cases hf
      have hold := not_fresh_of_head h.lists hlist hnot hx
      rw [hfresh] at hold
      cases hold

theorem subrClose_keeps_detached (h : DetachInv w) (hcalls : w.calls = .subrClose r :: rest)
    (hok : SubrsEnded w r) :
    DetachInv { (w.phlRequestDoClose r).1 with calls := (w.phlRequestDoClose r).2 ++ rest } := by
  have hclose : .subrClose r ∈ w.calls := by
    rw [hcalls]
    exact List.mem_cons_self
  obtain ⟨hr, hended⟩ := h.closes r hclose
  refine (h.doClose hr hended hok).replace _ hcalls ?_ ?_ nofun nofun
  · intro y hy
    obtain ⟨c, -, hc⟩ := List.mem_map.mp hy
    cases hc
  · intro y hy
    rw [Detached, doClose_field DetachRequest.father (fun _ _ => rfl) rfl,
      doClose_field DetachRequest.closed (fun _ _ => rfl) rfl]
    exact h.doClose_calls hok hy

theorem accept_keeps_detached (h : DetachInv w) : DetachInv (w.new .client false) := by
  have hne : ∀ s, s < w.next → (w.new .client false).requests s = w.requests s :=
    fun s hs => put_ne (Nat.ne_of_lt hs)
  have hnew : (w.new .client false).requests w.next = ⟨.client, false, false, false, []⟩ := put_same
  have hlist : ∀ f, ((w.new .client false).requests f).subrHead = (w.requests f).subrHead := by
    refine put_congr DetachRequest.subrHead ?_
    exact (h.lists.empty _ (Nat.le_refl _)).symm
  have hother : ∀ s, s ≠ w.next → (w.new .client false).requests s = w.requests s :=
    fun s hs => put_ne hs
  have hold : ∀ {s}, s < (w.new .client false).next → s ≠ w.next → s < w.next := by
    intro s hs hsn
    have hlt : s < w.next + 1 := hs
    omega
  have hdet : ∀ {s}, (w.new .client false).Detached s → s ≠ w.next := by
    intro s hs hsn
    rw [hsn, Detached, hnew] at hs
    cases hs
  have hsucc : ∀ {s}, s < w.next → s < (w.new .client false).next := fun hs => Nat.lt_succ_of_lt hs
  constructor
  · constructor
    · intro f s
      rw [hlist]
      exact fun hs => hsucc (h.lists.bound f s hs)
    · intro f hf
      rw [hlist]
      exact h.lists.empty f (Nat.le_of_succ_le hf)
    · intro f
      rw [hlist]
      exact h.lists.nodup f
    · intro f g s
      rw [hlist, hlist]
      exact h.lists.home f g s
    · intro f
      rw [hlist]
      refine (h.lists.order f).imp_of_mem ?_
      intro a b ha hb hab
      rw [hne a (h.lists.bound f a ha), hne b (h.lists.bound f b hb)]
      exact hab
  · intro s f hs hf
    by_cases hsn : s = w.next
    · rw [hsn, hnew] at hf
      cases hf
    · rw [hother s hsn] at hf
      obtain ⟨hlt, hff⟩ := h.fathers s f (hold hs hsn) hf
      rw [hne f hlt]
      exact ⟨hsucc hlt, hff⟩
  · intro s hs
    obtain ⟨hlt, hf⟩ := h.runs s hs
    rw [hne s hlt]
    exact ⟨hsucc hlt, hf⟩
  · intro s hs
    by_cases hsn : s = w.next
    · rw [hsn, hnew]
    · rw [hother s hsn] at hs ⊢
      exact h.shut s hs
  · intro s hs
    obtain ⟨hd, hlt⟩ := h.logged s hs
    rw [Detached, hne s hlt]
    exact ⟨hd, hsucc hlt⟩
  · intro s hs
    obtain ⟨hlt, hend⟩ := h.closes s hs
    rw [Detached, hne s hlt]
    exact ⟨hsucc hlt, hend⟩
  · intro s hs hc
    by_cases hsn : s = w.next
    · rw [hsn, hnew] at hc
      cases hc
    · rw [hother s hsn] at hc
      exact h.ended s (hold hs hsn) hc
  · intro s hs hd hf
    have hsn := hdet hd
    rw [Detached, hother s hsn] at hd
    rw [hother s hsn] at hf ⊢
    exact h.freed s (hold hs hsn) hd hf
  · intro s hs hd hf
    have hsn := hdet hd
    rw [Detached, hother s hsn] at hd
    rw [hother s hsn] at hf
    exact h.started s (hold hs hsn) hd hf
  · intro s hs hd hf hnot
    have hsn := hdet hd
    rw [Detached, hother s hsn] at hd
    rw [hother s hsn] at hf hnot
    obtain ⟨f, hmem, hp⟩ := h.waiting s (hold hs hsn) hd hf hnot
    have hfn : f ≠ w.next := by
      intro hfn
      rw [hfn, h.lists.empty _ (Nat.le_refl _)] at hmem
      cases hmem
    refine ⟨f, ?_, ?_⟩
    · rw [hlist]
      exact hmem
    · rw [Pends, hother f hfn]
      exact hp
  · exact h.owned

theorem detachStep_keeps (h : DetachInv w) (hok : LetsEnd w act)
    (hstep : detachStep w act = some w') : DetachInv w' := by
  cases act with
  | call choice =>
    simp only [detachStep] at hstep
    split at hstep
    next => cases hstep
    next c rest hcalls =>
      obtain ⟨x, hx, hw'⟩ := Option.map_eq_some_iff.mp hstep
      rw [← hw']
      cases c with
      | run r => exact run_keeps_detached h hcalls hok hx
      | post r =>
        cases hx
        exact post_keeps_detached h hcalls
      | subrClose r =>
        cases hx
        rw [LetsEnd, hcalls] at hok
        exact subrClose_keeps_detached h hcalls hok
  | accept =>
    simp only [detachStep, Option.ite_none_right_eq_some] at hstep
    obtain ⟨-, hw'⟩ := hstep
    cases hw'
    exact accept_keeps_detached h
  | wake r =>
    simp only [detachStep, Option.ite_none_right_eq_some] at hstep
    obtain ⟨⟨hcalls, hr⟩, hw'⟩ := hstep
    cases hw'
    refine h.recall ?_ (by simp) ?_
    · intro y hy
      cases List.mem_singleton.mp hy
      exact hr
    · intro _ f _ _ _ hp
      simp [Pends, hcalls] at hp
  | disconnect r =>
    simp only [detachStep, Option.ite_none_right_eq_some] at hstep
    obtain ⟨⟨hcalls, hr, hclient, hfresh⟩, hw'⟩ := hstep
    cases hw'
    by_cases hclosed : (w.requests r).closed = true
    · rw [DetachWorld.phlRequestClose, if_pos hclosed]
      refine h.recall nofun nofun ?_
      intro _ f _ _ _ hp
      simp [Pends, hcalls] at hp
    · rw [Bool.not_eq_true] at hclosed
      have hsubrs : if (w.requests r).father = .client then SubrsEnded w r
          else SubrsStarted w r w.calls := by
        rw [if_pos hclient]
        exact hok
      obtain ⟨hinv, -, hsame, hruns, hcloses⟩ := h.close hr hfresh hsubrs hclosed
      refine hinv.recall hruns hcloses ?_
      intro _ f _ _ _ hp
      simp [Pends, hsame, hcalls] at hp

/-- The worker has had no request yet. -/
structure DetachStart (w : DetachWorld) : Prop where
  requests : ∀ r, (w.requests r).subrHead = [] ∧ (w.requests r).closed = false
  next : w.next = 0
  calls : w.calls = []
  log : w.log = []

theorem detachStart_keeps (h : DetachStart w) : DetachInv w := by
  have hnone : ∀ s, ¬s < w.next := by
    intro s
    rw [h.next]
    exact Nat.not_lt_zero s
  constructor
  · constructor
    · intro f s hs
      rw [(h.requests f).1] at hs
      cases hs
    · exact fun f _ => (h.requests f).1
    · intro f
      rw [(h.requests f).1]
      exact List.nodup_nil
    · intro f g s hs
      rw [(h.requests f).1] at hs
      cases hs
    · intro f
      rw [(h.requests f).1]
      exact List.Pairwise.nil
  · exact fun s f hs => absurd hs (hnone s)
  · simp [h.calls]
  · intro s hs
    rw [(h.requests s).2] at hs
    cases hs
  · simp [h.log]
  · simp [h.calls]
  · exact fun s hs => absurd hs (hnone s)
  · exact fun s hs => absurd hs (hnone s)
  · exact fun s hs => absurd hs (hnone s)
  · exact fun s hs => absurd hs (hnone s)
  · rw [h.log]
    exact each_nil

/-- Where no request is freed before its detached subrequests have ended, and none ends before they
are started, each of them is started, and stays open until it has come to its own end. -/
theorem detached_runs_to_end (h : Reachable DetachStart (ActStep detachStep LetsEnd) w) :
    Each detachRight w.log ∧
    (∀ s, .detached s ∈ w.log → .ended s ∈ w.log ∨
      (w.requests s).closed = false ∧ (w.requests s).freed = false) ∧
    (w.calls = [] → ∀ s, .detached s ∈ w.log → .started s ∈ w.log) := by
  have hinv : DetachInv w :=
    h.invariant (fun _ => detachStart_keeps) fun _ _ hs ⟨_, hok, hstep⟩ =>
      detachStep_keeps hs hok hstep
  have hopen : ∀ s, .detached s ∈ w.log → .ended s ∈ w.log ∨
      (w.requests s).closed = false ∧ (w.requests s).freed = false := by
    intro s hs
    obtain ⟨hd, hlt⟩ := hinv.logged s hs
    by_cases hc : (w.requests s).closed = true
    · exact .inl (hinv.ended s hlt hc)
    · by_cases hf : (w.requests s).freed = true
      · exact .inl (hinv.ended s hlt (hinv.freed s hlt hd hf))
      · exact .inr ⟨by simpa using hc, by simpa using hf⟩
  refine ⟨hinv.owned, hopen, ?_⟩
  intro hcalls s hs
  obtain ⟨hd, hlt⟩ := hinv.logged s hs
  by_cases hfresh : (w.requests s).fresh = true
  · by_cases hf : (w.requests s).freed = true
    · have hshut := hinv.shut s (hinv.freed s hlt hd hf)
      rw [hfresh] at hshut
      cases hshut
    · obtain ⟨f, -, hp⟩ := hinv.waiting s hlt hd hfresh (by simpa using hf)
      simp [Pends, hcalls] at hp
  · exact hinv.started s hlt hd (by simpa using hfresh)

end DetachSteps

def LetsEnd.check (w : DetachWorld) : DetachAct → Bool
  | .disconnect r => decide (SubrsEnded w r)
  | .call choice =>
    match w.calls with
    | .run r :: rest =>
      if (w.requests r).father = .client then decide (choice = .finish → SubrsEnded w r)
      else decide (choice = .finish → SubrsStarted w r rest)
    | .subrClose r :: _ => decide (SubrsEnded w r)
    | _ => true
  | _ => true

theorem letsEnd_of_check {w : DetachWorld} {act : DetachAct} (h : LetsEnd.check w act = true) :
    LetsEnd w act := by
  cases act with
  | disconnect r => exact of_decide_eq_true (p := SubrsEnded w r) h
  | accept => trivial
  | wake r => trivial
  | call choice =>
    simp only [LetsEnd.check] at h
    simp only [LetsEnd]
    split
    next r rest hcalls =>
      intro hfinish _ _
      rw [hcalls] at h
      dsimp only at h
      split at h
      next hclient =>
        rw [if_pos hclient]
        exact of_decide_eq_true h hfinish
      next hnot =>
        rw [if_neg hnot]
        exact of_decide_eq_true h hfinish
    next r rest hcalls =>
      rw [hcalls] at h
      exact of_decide_eq_true h
    next => trivial

def noDetached : DetachWorld := ⟨fun _ => ⟨.client, false, false, false, []⟩, 0, [], []⟩

theorem start_noDetached : DetachStart noDetached := ⟨fun _ => ⟨rfl, rfl⟩, rfl, rfl, rfl⟩

/-- The father suspends after it has created a detached subrequest, and ends after it. -/
theorem detached_runs_to_end_first : ∃ w,
    Reachable DetachStart (ActStep detachStep LetsEnd) w ∧
    w.log = [.detached 1, .started 1, .ended 1, .closed 1, .ended 0, .closed 0] ∧
    (Each detachRight w.log ∧
      (∀ s, .detached s ∈ w.log → .ended s ∈ w.log ∨
        (w.requests s).closed = false ∧ (w.requests s).freed = false) ∧
      (w.calls = [] → ∀ s, .detached s ∈ w.log → .started s ∈ w.log)) := by
  let acts : List DetachAct := [.accept, .wake 0, .call (.subr true), .call .again,
    .call .again, .call .again, .call .again, .call .again, .wake 1, .call .finish, .call .again,
    .wake 0, .call .finish]
  have hrun : (runActs detachStep acts noDetached).map (·.log) =
      some [.detached 1, .started 1, .ended 1, .closed 1, .ended 0, .closed 0] := by
    decide
  obtain ⟨w, hw, hlog⟩ := Option.map_eq_some_iff.mp hrun
  have hok : ActsMeet detachStep LetsEnd acts noDetached :=
    actsMeet_of_check (fun _ _ => letsEnd_of_check) (by decide)
  have hreach := (Reachable.start start_noDetached).runActs hok hw
  exact ⟨w, hreach, hlog, detached_runs_to_end hreach⟩

/-- The father ends in the step that has created a detached subrequest: it is closed, and has never
been started. -/
theorem father_closes_detached : ∃ w,
    Reachable DetachStart (ActStep detachStep fun _ _ => True) w ∧
    w.log = [.detached 1, .ended 0, .closed 0, .closed 1] ∧ w.calls = [] ∧
    ¬Each detachRight w.log := by
  let acts : List DetachAct := [.accept, .wake 0, .call (.subr true), .call .finish, .call .again]
  have hrun : (runActs detachStep acts noDetached).map (fun w => (w.log, w.calls)) =
      some ([.detached 1, .ended 0, .closed 0, .closed 1], []) := by
    decide
  obtain ⟨w, hw, hlog⟩ := Option.map_eq_some_iff.mp hrun
  obtain ⟨hlog, hcalls⟩ := Prod.mk.inj hlog
  have hreach := (Reachable.start start_noDetached).runActs
    (actsMeet_of_forall acts noDetached fun _ _ => trivial) hw
  refine ⟨w, hreach, hlog, hcalls, ?_⟩
  rw [hlog]
  intro h
  have hended := h [.detached 1, .ended 0, .closed 0] (.closed 1) [] rfl List.mem_cons_self
  simp at hended

end Phorklift
