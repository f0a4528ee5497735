import Phorklift.Linked
import Phorklift.Transition

/-! The lists that a request's `list_node` is on. -/

namespace Phorklift

open Transition Linked

/-- What wakes up the requests on it. -/
inductive WaitList
  /-- `holder_wait_head` -/
  | holder (n : Nat)
  /-- `wait_head` -/
  | upstream (u : Nat)
  deriving DecidableEq

inductive RequestList
  | subrHead (father : Nat)
  | wait (l : WaitList)
  /-- `phl_request_defer_list` -/
  | defer
  deriving DecidableEq

structure ListedRequest where
  /-- for what it was answered `PHL_PTR_AGAIN`, until it is run again -/
  waits : Option WaitList
  /-- `phl_request_do_close` has begun, and is done -/
  closing : Bool
  freed : Bool

structure ListWorld where
  nodes : Nodes RequestList Nat
  requests : Nat → ListedRequest
  next : Nat

inductive ListAct
  /-- the request of a client -/
  | accept
  /-- `phl_request_subr_new` -/
  | subr (father : Nat)
  /-- a round of `phl_request_run_post` -/
  | post (father : Nat)
  /-- `phl_request_run`, from anywhere but a list -/
  | run (r : Nat)
  /-- `phl_dynamic_get` finds a holder without an error -/
  | dynamicGet (r n : Nat)
  /-- `phl_upstream_get_connection` finds an upstream without an address -/
  | getConnection (r u : Nat)
  /-- a round of the loops that wake up requests -/
  | wake (l : WaitList)
  | redirect (r : Nat)
  | close (r : Nat)
  /-- a round of the loop of `phl_request_do_close` -/
  | closeSubr (father : Nat)
  | closed (r : Nat)
  /-- a round of `phl_request_defer_free` -/
  | free

namespace ListWorld

def put (w : ListWorld) (r : Nat) (q : ListedRequest) : ListWorld :=
  { w with requests := Function.update w.requests r q }

def new (w : ListWorld) : ListWorld :=
  { w.put w.next ⟨none, false, false⟩ with next := w.next + 1 }

def live (w : ListWorld) (r : Nat) : Bool :=
  decide (r < w.next) && !(w.requests r).closing

/-- From here on the request waits for what it comes to next. -/
def phlRequestRun (w : ListWorld) (r : Nat) : ListWorld :=
  w.put r { w.requests r with waits := none }

def phlRequestSubrNew (w : ListWorld) (father : Nat) : ListWorld :=
  { w.new with nodes := w.nodes.insert (.subrHead father) w.next }

/-- `none` at the end of the list. -/
def phlRequestRunPost (w : ListWorld) (father : Nat) : Option ListWorld :=
  (w.nodes.items (.subrHead father)).head?.map fun s =>
    { w with nodes := (w.nodes.delete s).append (.subrHead father) s }.phlRequestRun s

def phlDynamicGet (w : ListWorld) (r n : Nat) : ListWorld :=
  { w with nodes := w.nodes.append (.wait (.holder n)) r }.put r
    { w.requests r with waits := some (.holder n) }

def phlUpstreamGetConnection (w : ListWorld) (r u : Nat) : ListWorld :=
  { w with nodes :=
      if w.nodes.linked r then w.nodes else w.nodes.append (.wait (.upstream u)) r }.put r
    { w.requests r with waits := some (.upstream u) }

/-- `phl_dynamic_delete` and the end of resolving. -/
def wake (w : ListWorld) (l : WaitList) : Option ListWorld :=
  (w.nodes.pop (.wait l)).map fun (r, nodes) => { w with nodes := nodes }.phlRequestRun r

def phlRequestClearStuff (w : ListWorld) (r : Nat) : ListWorld :=
  { w with nodes := w.nodes.deleteIf r }.put r { w.requests r with waits := none }

def beginClose (w : ListWorld) (r : Nat) : ListWorld :=
  w.put r { w.requests r with closing := true }

def closeSubr (w : ListWorld) (father : Nat) : Option ListWorld :=
  (w.nodes.pop (.subrHead father)).map fun (s, nodes) =>
    { w with nodes := nodes }.beginClose s

def endClose (w : ListWorld) (r : Nat) : ListWorld :=
  let w := w.phlRequestClearStuff r
  { w with nodes := w.nodes.append .defer r }.put r { w.requests r with freed := true }

def phlRequestDeferFree (w : ListWorld) : Option ListWorld :=
  (w.nodes.pop .defer).map fun (_, nodes) => { w with nodes := nodes }

end ListWorld

def listStep (w : ListWorld) : ListAct → Option ListWorld
  | .accept => some w.new
  | .subr father => if w.live father then some (w.phlRequestSubrNew father) else none
  | .post father => if w.live father then w.phlRequestRunPost father else none
  | .run r => if w.live r then some (w.phlRequestRun r) else none
  | .dynamicGet r n => if w.live r then some (w.phlDynamicGet r n) else none
  | .getConnection r u => if w.live r then some (w.phlUpstreamGetConnection r u) else none
  | .wake l => w.wake l
  | .redirect r => if w.live r then some (w.phlRequestClearStuff r) else none
  | .close r => if w.live r then some (w.beginClose r) else none
  | .closeSubr father => if (w.requests father).closing then w.closeSubr father else none
  | .closed r =>
    if r < w.next ∧ (w.requests r).closing ∧ (w.requests r).freed = false ∧
        w.nodes.items (.subrHead r) = [] then
      some (w.endClose r)
    else none
  | .free => w.phlRequestDeferFree

def ListStart (w : ListWorld) : Prop :=
  w = ⟨⟨fun _ => [], fun _ => false⟩, fun _ => ⟨none, false, false⟩, 0⟩

/-- A request that is answered `PHL_PTR_AGAIN` is on no list yet; what already waits for the
upstream may ask for it again. -/
def Unshared (w : ListWorld) : ListAct → Prop
  | .dynamicGet r _ => w.nodes.linked r = false
  | .getConnection r u => w.nodes.linked r = true → r ∈ w.nodes.items (.wait (.upstream u))
  | _ => True

/-- Each request is on one list at most, and one that waits is on the list that wakes it up. -/
structure ListWorld.Ok (w : ListWorld) : Prop where
  oneList : w.nodes.OneList
  waits : ∀ r l, (w.requests r).waits = some l → r ∈ w.nodes.items (.wait l)

structure ListWorld.Inv (w : ListWorld) : Prop where
  disciplined : w.nodes.Disciplined
  waits : ∀ r l, (w.requests r).waits = some l → r ∈ w.nodes.items (.wait l)
  fresh : ∀ r, w.next ≤ r → w.nodes.linked r = false

section Steps

variable {w w' : ListWorld} {r s n u father : Nat} {q : ListedRequest} {l : RequestList}
  {nodes : Nodes RequestList Nat}

namespace ListWorld

theorem Inv.ok (h : w.Inv) : w.Ok :=
  ⟨h.disciplined.toOneList, h.waits⟩

theorem requests_put_self : (w.put r q).requests r = q := by
  simp only [ListWorld.put, Function.update_self]

theorem requests_put_of_ne (hs : s ≠ r) : (w.put r q).requests s = w.requests s := by
  simp only [ListWorld.put, Function.update_of_ne hs]

theorem Inv.put (h : w.Inv) (hq : ∀ l, q.waits = some l → r ∈ w.nodes.items (.wait l)) :
    (w.put r q).Inv := by
  refine ⟨h.disciplined, fun i l hi => ?_, h.fresh⟩
  by_cases hir : i = r
  · subst hir
    rw [requests_put_self] at hi
    exact hq l hi
  · rw [requests_put_of_ne hir] at hi
    exact h.waits i l hi

theorem Inv.run (h : w.Inv) : (w.phlRequestRun r).Inv := by
  refine h.put fun l hl => ?_
  cases hl

theorem Inv.lt (h : w.Inv) (hr : w.nodes.linked r = true) : r < w.next := by
  by_contra hle
  have hfresh := h.fresh r (by omega)
  rw [hr] at hfresh
  cases hfresh

theorem waits_run : ((w.phlRequestRun r).requests r).waits = none := by
  rw [phlRequestRun, requests_put_self]

theorem live_lt (h : w.live r = true) : r < w.next := by
  unfold live at h
  rw [Bool.and_eq_true, decide_eq_true_iff] at h
  exact h.1

/-- One request goes on a list. -/
theorem Inv.link (h : w.Inv) (hd : nodes.Disciplined) (hr : r < w.next)
    (hmem : ∀ i m, i ∈ w.nodes.items m → i ∈ nodes.items m)
    (hlinked : nodes.linked = Function.update w.nodes.linked r true) :
    ({ w with nodes := nodes } : ListWorld).Inv := by
  refine ⟨hd, fun i l hi => hmem i _ (h.waits i l hi), fun i hi => ?_⟩
  have hne : i ≠ r := by
    intro hir
    subst hir
    exact absurd hr (Nat.not_lt.mpr hi)
  show nodes.linked i = false
  rw [hlinked, Function.update_of_ne hne]
  exact h.fresh i hi

theorem Inv.append (h : w.Inv) (hr : r < w.next) (hlinked : w.nodes.linked r = false) :
    ({ w with nodes := w.nodes.append l r } : ListWorld).Inv :=
  h.link (h.disciplined.append hlinked) hr (fun _ _ hi => Nodes.mem_append.mpr (.inl hi)) rfl

/-- One that waits for nothing is taken off. -/
theorem Inv.delete (h : w.Inv) (hr : (w.requests r).waits = none) :
    ({ w with nodes := w.nodes.delete r } : ListWorld).Inv := by
  refine ⟨h.disciplined.delete, fun i l hi => ?_, fun i hi => ?_⟩
  · have hne : i ≠ r := by
      intro hir
      subst hir
      have hnone : (w.requests i).waits = some l := hi
      rw [hr] at hnone
      cases hnone
    exact h.disciplined.mem_delete.mpr ⟨hne, h.waits i l hi⟩
  · show (w.nodes.delete r).linked i = false
    by_cases hir : i = r
    · subst hir
      exact Nodes.linked_delete_self
    · rw [Nodes.linked_delete_of_ne hir]
      exact h.fresh i hi

/-- What is on another kind of list does not wait. -/
theorem Inv.waits_eq_none (h : w.Inv) (hmem : r ∈ w.nodes.items l) (hl : ∀ m, l ≠ .wait m) :
    (w.requests r).waits = none := by
  cases hw : (w.requests r).waits with
  | none => rfl
  | some m => exact absurd (h.disciplined.one r _ _ hmem (h.waits r m hw)) (hl m)

theorem Inv.new (h : w.Inv) : w.new.Inv := by
  have hput : (w.put w.next ⟨none, false, false⟩).Inv := by
    refine h.put fun l hl => ?_
    cases hl
  refine ⟨hput.disciplined, hput.waits, fun i hi => hput.fresh i ?_⟩
  have hi' : w.next + 1 ≤ i := hi
  show w.next ≤ i
  omega

theorem Inv.subrNew (h : w.Inv) : (w.phlRequestSubrNew father).Inv := by
  refine h.new.link (h.disciplined.insert (h.fresh _ le_rfl)) (r := w.next) (Nat.lt_succ_self _)
    (fun _ _ hi => Nodes.mem_insert.mpr (.inl hi)) rfl

theorem Inv.runPost (h : w.Inv) (hstep : w.phlRequestRunPost father = some w') : w'.Inv := by
  obtain ⟨s, hs, rfl⟩ := Option.map_eq_some_iff.mp hstep
  have hmem : s ∈ w.nodes.items (.subrHead father) := List.mem_of_head? hs
  have hlt : s < w.next := h.lt ((h.disciplined.linked s).mpr ⟨_, hmem⟩)
  have hdelete : ({ w.phlRequestRun s with nodes := w.nodes.delete s } : ListWorld).Inv :=
    (h.run (r := s)).delete waits_run
  exact hdelete.append hlt Nodes.linked_delete_self

theorem Inv.wake {l : WaitList} (h : w.Inv) (hstep : w.wake l = some w') : w'.Inv := by
  obtain ⟨⟨r, nodes⟩, hpop, rfl⟩ := Option.map_eq_some_iff.mp hstep
  obtain ⟨_, rfl⟩ := h.disciplined.pop_eq hpop
  exact (h.run (r := r)).delete waits_run

theorem Inv.clear (h : w.Inv) : (w.phlRequestClearStuff r).Inv := by
  unfold phlRequestClearStuff
  rw [h.disciplined.deleteIf_eq]
  exact (h.run (r := r)).delete waits_run

/-- What is popped off another kind of list. -/
theorem Inv.pop (h : w.Inv) (hl : ∀ m, l ≠ .wait m) (hpop : w.nodes.pop l = some (r, nodes)) :
    ({ w with nodes := nodes } : ListWorld).Inv := by
  obtain ⟨hmem, rfl⟩ := h.disciplined.pop_eq hpop
  exact h.delete (h.waits_eq_none hmem hl)

theorem Inv.beginClose (h : w.Inv) : (w.beginClose r).Inv :=
  h.put (h.waits r)

theorem Inv.closeSubr (h : w.Inv) (hstep : w.closeSubr father = some w') : w'.Inv := by
  obtain ⟨⟨s, nodes⟩, hpop, rfl⟩ := Option.map_eq_some_iff.mp hstep
  exact (h.pop (fun m hm => by cases hm) hpop).beginClose

theorem Inv.free (h : w.Inv) (hstep : w.phlRequestDeferFree = some w') : w'.Inv := by
  obtain ⟨⟨s, nodes⟩, hpop, rfl⟩ := Option.map_eq_some_iff.mp hstep
  exact h.pop (fun m hm => by cases hm) hpop

theorem Inv.endClose (h : w.Inv) (hr : r < w.next) : (w.endClose r).Inv := by
  have hclear := h.clear (r := r)
  have hnone : ((w.phlRequestClearStuff r).requests r).waits = none := by
    rw [phlRequestClearStuff, requests_put_self]
  have hunlinked : (w.phlRequestClearStuff r).nodes.linked r = false := by
    show (w.nodes.deleteIf r).linked r = false
    rw [h.disciplined.deleteIf_eq]
    exact Nodes.linked_delete_self
  refine (hclear.append (l := .defer) hr hunlinked).put fun l hl => ?_
  have hl' : ((w.phlRequestClearStuff r).requests r).waits = some l := hl
  rw [hnone] at hl'
  cases hl'

theorem Inv.dynamicGet (h : w.Inv) (hr : r < w.next) (hlinked : w.nodes.linked r = false) :
    (w.phlDynamicGet r n).Inv := by
  refine (h.append hr hlinked).put fun l hl => ?_
  cases hl
  exact Nodes.mem_append.mpr (.inr ⟨rfl, rfl⟩)

theorem Inv.getConnection (h : w.Inv) (hr : r < w.next)
    (hlinked : w.nodes.linked r = true → r ∈ w.nodes.items (.wait (.upstream u))) :
    (w.phlUpstreamGetConnection r u).Inv := by
  unfold phlUpstreamGetConnection
  by_cases hl : w.nodes.linked r = true
  · rw [if_pos hl]
    refine h.put fun l hl' => ?_
    cases hl'
    exact hlinked hl
  · rw [if_neg hl]
    refine (h.append hr (Bool.eq_false_iff.mpr hl)).put fun l hl' => ?_
    cases hl'
    exact Nodes.mem_append.mpr (.inr ⟨rfl, rfl⟩)

end ListWorld

theorem listStep_keeps {a : ListAct} (h : w.Inv) (hok : Unshared w a)
    (hstep : listStep w a = some w') : w'.Inv := by
  cases a with
  | accept =>
    cases hstep
    exact h.new
  | subr father =>
    obtain ⟨_, ⟨⟩⟩ := Option.ite_none_right_eq_some.mp hstep
    exact h.subrNew
  | post father => exact h.runPost (Option.ite_none_right_eq_some.mp hstep).2
  | run r =>
    obtain ⟨_, ⟨⟩⟩ := Option.ite_none_right_eq_some.mp hstep
    exact h.run
  | dynamicGet r n =>
    obtain ⟨hlive, ⟨⟩⟩ := Option.ite_none_right_eq_some.mp hstep
    exact h.dynamicGet (ListWorld.live_lt hlive) hok
  | getConnection r u =>
    obtain ⟨hlive, ⟨⟩⟩ := Option.ite_none_right_eq_some.mp hstep
    exact h.getConnection (ListWorld.live_lt hlive) hok
  | wake l => exact h.wake hstep
  | redirect r =>
    obtain ⟨_, ⟨⟩⟩ := Option.ite_none_right_eq_some.mp hstep
    exact h.clear
  | close r =>
    obtain ⟨_, ⟨⟩⟩ := Option.ite_none_right_eq_some.mp hstep
    exact h.beginClose
  | closeSubr father => exact h.closeSubr (Option.ite_none_right_eq_some.mp hstep).2
  | closed r =>
    obtain ⟨⟨hr, _⟩, ⟨⟩⟩ := Option.ite_none_right_eq_some.mp hstep
    exact h.endClose hr
  | free => exact h.free hstep

/-- A request that is on a list when it comes to wait is then on two lists, on one list twice, or
not on the one that wakes it up. -/
theorem unshared_of_ok {a : ListAct} (h : w.Inv) (hstep : listStep w a = some w') (hok : w'.Ok) :
    Unshared w a := by
  cases a with
  | dynamicGet r n =>
    obtain ⟨_, ⟨⟩⟩ := Option.ite_none_right_eq_some.mp hstep
    by_contra hlinked
    exact h.disciplined.not_oneList_append (Bool.not_eq_false _ ▸ hlinked) hok.oneList
  | getConnection r u =>
    obtain ⟨_, ⟨⟩⟩ := Option.ite_none_right_eq_some.mp hstep
    intro hlinked
    unfold ListWorld.phlUpstreamGetConnection at hok
    rw [if_pos hlinked] at hok
    refine hok.waits r _ ?_
    rw [ListWorld.requests_put_self]
  | _ => trivial

theorem list_inv (h : Reachable ListStart (ActStep listStep Unshared) w) : w.Inv := by
  refine h.invariant ?_ ?_
  · rintro w rfl
    refine ⟨⟨⟨fun _ => List.nodup_nil, ?_⟩, ?_⟩, ?_, fun _ _ => rfl⟩
    · intro i l m hl
      cases hl
    · intro i
      refine ⟨fun hlinked => absurd hlinked Bool.false_ne_true, ?_⟩
      rintro ⟨l, hl⟩
      cases hl
    · intro i l hl
      cases hl
  · rintro w w' hw ⟨a, hok, hstep⟩
    exact listStep_keeps hw hok hstep

end Steps

section Runs

def noneListed : ListWorld :=
  ⟨⟨fun _ => [], fun _ => false⟩, fun _ => ⟨none, false, false⟩, 0⟩

theorem start_noneListed : ListStart noneListed := rfl

def checkUnshared (w : ListWorld) : ListAct → Bool
  | .dynamicGet r _ => !w.nodes.linked r
  | .getConnection r u => !w.nodes.linked r || decide (r ∈ w.nodes.items (.wait (.upstream u)))
  | _ => true

theorem unshared_of_check {w : ListWorld} {a : ListAct} (h : checkUnshared w a = true) :
    Unshared w a := by
  cases a with
  | dynamicGet r n =>
    show w.nodes.linked r = false
    simpa [checkUnshared] using h
  | getConnection r u =>
    intro hlinked
    simpa [checkUnshared, hlinked] using h
  | _ => trivial

end Runs

end Phorklift
