import Phorklift.Transition
import Mathlib.Data.List.Basic
import Mathlib.Data.List.TakeWhile

/-! The resolve rounds of an upstream, and the requests that wait for its first address. -/

namespace Phorklift

open Transition

structure ResolvedAddress (A : Type) where
  sockaddr : A
  resolveDeleted : Bool
  deriving DecidableEq

structure UpstreamHostname (A : Type) where
  needResolved : Bool
  addressHead : List (ResolvedAddress A)
  deriving DecidableEq

inductive ResolveEvent
  /-- the upstream runs a request that waited -/
  | resumed (r : Nat)
  | closed (r : Nat)
  deriving DecidableEq

structure ResolveUpstream (A : Type) where
  hostnames : List (UpstreamHostname A)
  resolveIndex : Nat
  resolveUpdated : Bool
  addressNum : Nat
  waitHead : List Nat
  log : List ResolveEvent
  deriving DecidableEq

inductive ResolveAnswer (A : Type)
  /-- `"ERROR"` -/
  | error
  | addresses (new : List A)

inductive ResolveAct (A : Type)
  /-- `phl_upstream_resolve_timer_handler` -/
  | timer
  /-- `phl_upstream_resolve_on_read`, where a request that is run closes the requests `closes` -/
  | read (answer : ResolveAnswer A) (closes : Nat → List Nat)
  /-- `phl_upstream_get_connection`, for a request whose node is linked in another list or not -/
  | get (r : Nat) (linked : Bool)
  /-- `phl_request_clear_stuff` -/
  | close (r : Nat)

section Resolve

variable {A : Type} (addrcmp : A → A → Int)

/-- The part of `phl_upstream_resolve_on_read` that goes through both lists: the new list, and
whether anything has changed. -/
def resolveDiff : List (ResolvedAddress A) → List A → List (ResolvedAddress A) × Bool
  | [], new => (new.map fun n => ⟨n, false⟩, !new.isEmpty)
  | address :: node, new =>
    -- those that compare less are new and go before `address`
    let added := new.takeWhile fun n => addrcmp n address.sockaddr < 0
    let rest :=
      match new.dropWhile fun n => addrcmp n address.sockaddr < 0 with
      | [] => ({ address with resolveDeleted := true } :: (resolveDiff node []).1, true)
      | n :: new =>
        if addrcmp n address.sockaddr = 0 then
          (address :: (resolveDiff node new).1, (resolveDiff node new).2)
        else ({ address with resolveDeleted := true } :: (resolveDiff node (n :: new)).1, true)
    ((added.map fun n => ⟨n, false⟩) ++ rest.1, !added.isEmpty || rest.2)

namespace ResolveUpstream

/-- `address_head`, but for the order -/
def addressHead (u : ResolveUpstream A) : List (ResolvedAddress A) :=
  u.hostnames.flatMap UpstreamHostname.addressHead

/-- The next hostname to resolve. -/
def pick (u : ResolveUpstream A) : Option Nat :=
  (List.range u.hostnames.length).find? fun j =>
    u.resolveIndex ≤ j && u.hostnames[j]?.any UpstreamHostname.needResolved

/-- `phl_upstream_address_delete` of the marked addresses, with the count of the others. -/
def clearDeleted (u : ResolveUpstream A) : ResolveUpstream A :=
  let hostnames := u.hostnames.map fun h =>
    { h with addressHead := h.addressHead.filter fun a => !a.resolveDeleted }
  { u with
    hostnames := hostnames
    addressNum := (hostnames.flatMap UpstreamHostname.addressHead).length }

/-- The requests that wait are popped and run; one that has been closed meanwhile is unlinked. -/
def wakeUp (closes : Nat → List Nat) (gone : List Nat) : List Nat → List ResolveEvent
  | [] => []
  | r :: rest =>
    if r ∈ gone then wakeUp closes gone rest
    else .resumed r :: (closes r).map .closed ++ wakeUp closes (closes r ++ gone) rest

def phlUpstreamResolveHostname (closes : Nat → List Nat) (u : ResolveUpstream A) :
    ResolveUpstream A :=
  match u.pick with
  | some j => { u with resolveIndex := j + 1 }
  | none =>
    let u := { u with resolveIndex := 0 }
    if u.resolveUpdated = false then u
    else
      let u := u.clearDeleted
      if u.addressNum = 0 then u
      else
        { u with
          resolveUpdated := false
          waitHead := []
          log := u.log ++ wakeUp closes [] u.waitHead }

/-- The answer for a hostname is taken over. -/
def takeAnswer (u : ResolveUpstream A) (index : Nat) : ResolveAnswer A → ResolveUpstream A
  | .error => u
  | .addresses new =>
    match u.hostnames[index]? with
    | none => u
    | some hostname =>
      let diff := resolveDiff addrcmp hostname.addressHead new
      { u with
        hostnames := u.hostnames.set index { hostname with addressHead := diff.1 }
        resolveUpdated := u.resolveUpdated || diff.2 }

end ResolveUpstream

open ResolveUpstream

def resolveStep (u : ResolveUpstream A) : ResolveAct A → Option (ResolveUpstream A)
  | .timer =>
    if u.hostnames.any UpstreamHostname.needResolved then
      some (if u.resolveIndex ≠ 0 then u else u.phlUpstreamResolveHostname fun _ => [])
    else none
  | .read answer closes =>
    match u.resolveIndex with
    | 0 => none
    | index + 1 => some ((u.takeAnswer addrcmp index answer).phlUpstreamResolveHostname closes)
  | .get r linked =>
    if u.addressNum = 0 ∧ linked = false ∧ r ∉ u.waitHead then
      some { u with waitHead := u.waitHead ++ [r] }
    else some u
  | .close r => some { u with waitHead := u.waitHead.filter (· ≠ r), log := u.log ++ [.closed r] }

/-- No request is left waiting, and each that did was run, or closed. -/
def RoundServed (u u' : ResolveUpstream A) : Prop :=
  u'.waitHead = [] ∧ ∃ events, u'.log = u.log ++ events ∧
    ∀ r ∈ u.waitHead, .resumed r ∈ events ∨ .closed r ∈ events

/-- What `phl_upstream_conf_resolve_init` leaves. -/
structure ResolveStart (u : ResolveUpstream A) : Prop where
  live : ∀ a ∈ u.addressHead, a.resolveDeleted = false
  addressNum : u.addressNum = u.addressHead.length
  resolveIndex : u.resolveIndex = 0
  resolveUpdated : u.resolveUpdated = false
  waitHead : u.waitHead = []

/-- An address is left after the last answer of a round: one in the answer, or one that the
upstream has and that belongs to another hostname or stays as the answer is an error. -/
def AddressLeft (u : ResolveUpstream A) : ResolveAnswer A → Prop
  | .error => ∃ a ∈ u.addressHead, a.resolveDeleted = false
  | .addresses new => new ≠ [] ∨ ∃ j h, j + 1 ≠ u.resolveIndex ∧ u.hostnames[j]? = some h ∧
      ∃ a ∈ h.addressHead, a.resolveDeleted = false

section ResolveSteps

variable {addrcmp} {u u' : ResolveUpstream A} {r from_ index : Nat} {closes : Nat → List Nat}
  {answer : ResolveAnswer A} {act : ResolveAct A}

namespace ResolveUpstream

def Unmarked (l : List (ResolvedAddress A)) : Prop :=
  ∀ a ∈ l, a.resolveDeleted = false

def live (l : List (ResolvedAddress A)) : List (ResolvedAddress A) :=
  l.filter fun a => !a.resolveDeleted

theorem live_append (l l' : List (ResolvedAddress A)) : live (l ++ l') = live l ++ live l' :=
  List.filter_append ..

theorem live_new (new : List A) : live (new.map fun n => ⟨n, false⟩) = new.map fun n => ⟨n, false⟩ := by
  refine List.filter_eq_self.mpr ?_
  intro a ha
  obtain ⟨n, -, rfl⟩ := List.mem_map.mp ha
  rfl

theorem live_of_unmarked {l : List (ResolvedAddress A)} (h : Unmarked l) : live l = l := by
  refine List.filter_eq_self.mpr ?_
  intro a ha
  rw [h a ha]
  rfl

theorem live_ne_nil {l : List (ResolvedAddress A)} :
    live l ≠ [] ↔ ∃ a ∈ l, a.resolveDeleted = false := by
  rw [Ne, live, List.filter_eq_nil_iff]
  push Not
  simp

end ResolveUpstream

/-- As many addresses are left as the answer has; and the list is the old one if nothing has
changed. -/
theorem resolveDiff_spec (addrcmp : A → A → Int) {old : List (ResolvedAddress A)}
    (hold : Unmarked old) (new : List A) :
    (live (resolveDiff addrcmp old new).1).length = new.length ∧
    ((resolveDiff addrcmp old new).2 = false → (resolveDiff addrcmp old new).1 = old) := by
  induction old generalizing new with
  | nil =>
    rw [resolveDiff, live_new, List.length_map]
    refine ⟨rfl, ?_⟩
    intro hnew
    cases new with
    | nil => rfl
    | cons n new => cases hnew
  | cons address node ih =>
    have haddress := hold address List.mem_cons_self
    have hnode : Unmarked node := fun a ha => hold a (List.mem_cons_of_mem _ ha)
    have hlen := congrArg List.length (List.takeWhile_append_dropWhile
      (p := fun n => decide (addrcmp n address.sockaddr < 0)) (l := new))
    rw [List.length_append] at hlen
    have hmark : ∀ l : List (ResolvedAddress A),
        live ({ address with resolveDeleted := true } :: l) = live l :=
      fun l => List.filter_cons_of_neg (by simp)
    rw [resolveDiff]
    dsimp only
    rw [live_append, live_new, List.length_append, List.length_map]
    split
    next hdrop =>
      rw [hdrop, List.length_nil] at hlen
      refine ⟨?_, ?_⟩
      · rw [hmark, (ih hnode []).1, List.length_nil]
        omega
      · simp
    next n rest hdrop =>
      rw [hdrop, List.length_cons] at hlen
      split
      next =>
        refine ⟨?_, ?_⟩
        · have hkeep : live (address :: (resolveDiff addrcmp node rest).1) =
              address :: live (resolveDiff addrcmp node rest).1 :=
            List.filter_cons_of_pos (by simp [haddress])
          rw [hkeep, List.length_cons, (ih hnode rest).1]
          omega
        · intro hsame
          simp only [Bool.or_eq_false_iff, Bool.not_eq_false', List.isEmpty_iff] at hsame
          rw [hsame.1, (ih hnode rest).2 hsame.2]
          rfl
      next =>
        refine ⟨?_, ?_⟩
        · rw [hmark, (ih hnode (n :: rest)).1, List.length_cons]
          omega
        · simp

theorem resolveDiff_added {n : A} {new : List A} {address : ResolvedAddress A}
    {node : List (ResolvedAddress A)} (h : addrcmp n address.sockaddr < 0) :
    resolveDiff addrcmp (address :: node) (n :: new) =
      (⟨n, false⟩ :: (resolveDiff addrcmp (address :: node) new).1, true) := by
  rw [resolveDiff, resolveDiff]
  simp [h]

theorem resolveDiff_same {n : A} {new : List A} {address : ResolvedAddress A}
    {node : List (ResolvedAddress A)} (h : addrcmp n address.sockaddr = 0) :
    resolveDiff addrcmp (address :: node) (n :: new) =
      (address :: (resolveDiff addrcmp node new).1, (resolveDiff addrcmp node new).2) := by
  rw [resolveDiff]
  simp [h]

theorem resolveDiff_deleted {n : A} {new : List A} {address : ResolvedAddress A}
    {node : List (ResolvedAddress A)} (h : 0 < addrcmp n address.sockaddr) :
    resolveDiff addrcmp (address :: node) (n :: new) =
      ({ address with resolveDeleted := true } :: (resolveDiff addrcmp node (n :: new)).1, true) := by
  have hneg : ¬ addrcmp n address.sockaddr < 0 := by omega
  have hzero : ¬ addrcmp n address.sockaddr = 0 := by omega
  rw [resolveDiff]
  simp [hneg, hzero]

/-- What holds of an upstream whose hostnames from `from_` on have no marked addresses. -/
structure ResolveInv (from_ : Nat) (u : ResolveUpstream A) : Prop where
  waiting : u.waitHead ≠ [] → u.addressNum = 0
  counted : u.resolveUpdated = false →
    Unmarked u.addressHead ∧ u.addressNum = u.addressHead.length
  clean : ∀ j h, u.hostnames[j]? = some h → from_ ≤ j → Unmarked h.addressHead

theorem mem_addressHead {a : ResolvedAddress A} :
    a ∈ u.addressHead ↔
      ∃ (j : Nat) (h : UpstreamHostname A), u.hostnames[j]? = some h ∧ a ∈ h.addressHead := by
  rw [addressHead, List.mem_flatMap]
  constructor
  · rintro ⟨h, hh, ha⟩
    obtain ⟨j, hj⟩ := List.mem_iff_getElem?.mp hh
    exact ⟨j, h, hj, ha⟩
  · rintro ⟨j, h, hj, ha⟩
    exact ⟨h, List.mem_of_getElem? hj, ha⟩

theorem pick_le {j : Nat} (h : u.pick = some j) : u.resolveIndex ≤ j ∧ j < u.hostnames.length := by
  have hmem := List.mem_range.mp (List.mem_of_find?_eq_some h)
  have hpick := List.find?_some h
  rw [Bool.and_eq_true, decide_eq_true_iff] at hpick
  exact ⟨hpick.1, hmem⟩

theorem clearDeleted_unmarked : Unmarked u.clearDeleted.addressHead := by
  intro a ha
  obtain ⟨h, hh, ha⟩ := List.mem_flatMap.mp ha
  obtain ⟨h0, -, rfl⟩ := List.mem_map.mp hh
  have hnot := (List.mem_filter.mp ha).2
  simpa using hnot

theorem clearDeleted_addressHead : u.clearDeleted.addressHead = live u.addressHead := by
  rw [addressHead, addressHead, live, List.filter_flatMap, clearDeleted]
  dsimp only
  rw [List.flatMap_map]

/-- The three ends of the loop over the hostnames. -/
theorem resolveHostname_keeps (h : ResolveInv u.resolveIndex u) :
    ResolveInv ((u.phlUpstreamResolveHostname closes).resolveIndex - 1)
        (u.phlUpstreamResolveHostname closes) ∧
      (u.phlUpstreamResolveHostname closes).resolveIndex ≤
        (u.phlUpstreamResolveHostname closes).hostnames.length := by
  rw [phlUpstreamResolveHostname]
  split
  next j hpick =>
    obtain ⟨hle, hlt⟩ := pick_le hpick
    refine ⟨⟨h.waiting, h.counted, ?_⟩, hlt⟩
    intro i hn hi hij
    refine h.clean i hn hi ?_
    change j + 1 - 1 ≤ i at hij
    omega
  next =>
    dsimp only
    have hall : ∀ {v : ResolveUpstream A}, Unmarked v.addressHead →
        ∀ (j : Nat) (hn : UpstreamHostname A), v.hostnames[j]? = some hn →
          Unmarked hn.addressHead :=
      fun hv j hn hj a ha => hv a (mem_addressHead.mpr ⟨j, hn, hj, ha⟩)
    split
    next hupdated =>
      refine ⟨⟨h.waiting, h.counted, ?_⟩, Nat.zero_le _⟩
      exact fun j hn hj _ => hall (h.counted hupdated).1 j hn hj
    next hupdated =>
      have hclear := hall (v := u.clearDeleted) clearDeleted_unmarked
      split
      next hnum =>
        refine ⟨⟨fun _ => hnum, ?_, fun j hn hj _ => hclear j hn hj⟩, Nat.zero_le _⟩
        exact fun hfalse => absurd hfalse hupdated
      next hnum =>
        refine ⟨⟨?_, ?_, fun j hn hj _ => hclear j hn hj⟩, Nat.zero_le _⟩
        · exact fun hne => absurd rfl hne
        · exact fun _ => ⟨clearDeleted_unmarked, rfl⟩

/-- An answer that changes nothing leaves the addresses as they are. -/
theorem takeAnswer_keeps (addrcmp : A → A → Int) (answer : ResolveAnswer A)
    (h : ResolveInv (u.resolveIndex - 1) u)
    (hindex : u.resolveIndex = index + 1) :
    ResolveInv u.resolveIndex (u.takeAnswer addrcmp index answer) := by
  have hlater : ResolveInv u.resolveIndex u :=
    ⟨h.waiting, h.counted, fun j hn hj hle => h.clean j hn hj (by omega)⟩
  cases answer with
  | error => exact hlater
  | addresses new =>
    rw [takeAnswer]
    split
    next => exact hlater
    next hostname hhost =>
      have hclean := h.clean index hostname hhost (by omega)
      have hdiff := resolveDiff_spec addrcmp hclean new
      refine ⟨h.waiting, ?_, ?_⟩
      · intro hupdated
        simp only [Bool.or_eq_false_iff] at hupdated
        have hsame : u.hostnames.set index
            { hostname with addressHead := (resolveDiff addrcmp hostname.addressHead new).1 } =
            u.hostnames := by
          rw [hdiff.2 hupdated.2]
          obtain ⟨hlt, heq⟩ := List.getElem?_eq_some_iff.mp hhost
          rw [← heq]
          exact List.set_getElem_self hlt
        rw [addressHead]
        dsimp only
        rw [hsame]
        exact h.counted hupdated.1
      · intro j hn hj hle
        rw [List.getElem?_set_ne (by omega)] at hj
        exact h.clean j hn hj (by omega)

/-- The addresses that are left when the answer has been taken over. -/
theorem live_takeAnswer (h : ResolveInv (u.resolveIndex - 1) u)
    (hindex : u.resolveIndex = index + 1) (hlt : index < u.hostnames.length) :
    live (u.takeAnswer addrcmp index answer).addressHead ≠ [] ↔ AddressLeft u answer := by
  cases answer with
  | error => exact live_ne_nil
  | addresses new =>
    obtain ⟨hostname, hhost⟩ : ∃ hostname, u.hostnames[index]? = some hostname :=
      ⟨_, List.getElem?_eq_getElem hlt⟩
    have hclean := h.clean index hostname hhost (by omega)
    have hdiff := (resolveDiff_spec addrcmp hclean new).1
    have hset : (u.takeAnswer addrcmp index (.addresses new)).hostnames = u.hostnames.set index
        { hostname with addressHead := (resolveDiff addrcmp hostname.addressHead new).1 } := by
      rw [takeAnswer, hhost]
    rw [live_ne_nil]
    constructor
    · rintro ⟨a, ha, hlive⟩
      obtain ⟨j, hn, hj, ha⟩ := mem_addressHead.mp ha
      rw [hset] at hj
      by_cases hji : index = j
      · left
        rw [← hji, List.getElem?_set_self hlt, Option.some.injEq] at hj
        rw [← hj] at ha
        intro hnil
        have hne := live_ne_nil.mpr ⟨a, ha, hlive⟩
        rw [hnil] at hdiff hne
        exact hne (List.length_eq_zero_iff.mp hdiff)
      · right
        rw [List.getElem?_set_ne hji] at hj
        exact ⟨j, hn, by omega, hj, a, ha, hlive⟩
    · rintro (hnew | ⟨j, hn, hji, hj, a, ha, hlive⟩)
      · have hne : live (resolveDiff addrcmp hostname.addressHead new).1 ≠ [] := by
          intro hnil
          rw [hnil] at hdiff
          exact hnew (List.length_eq_zero_iff.mp hdiff.symm)
        obtain ⟨a, ha, hlive⟩ := live_ne_nil.mp hne
        refine ⟨a, mem_addressHead.mpr ⟨index, { hostname with
          addressHead := (resolveDiff addrcmp hostname.addressHead new).1 }, ?_, ha⟩, hlive⟩
        rw [hset]
        exact List.getElem?_set_self hlt
      · refine ⟨a, mem_addressHead.mpr ⟨j, hn, ?_, ha⟩, hlive⟩
        rw [hset, List.getElem?_set_ne (by omega)]
        exact hj

theorem wakeUp_spec (closes : Nat → List Nat) (gone waiting : List Nat) (hr : r ∈ waiting) :
    r ∈ gone ∨ .resumed r ∈ wakeUp closes gone waiting ∨ .closed r ∈ wakeUp closes gone waiting := by
  induction waiting generalizing gone with
  | nil => cases hr
  | cons s rest ih =>
    rw [wakeUp]
    split
    next hs =>
      rcases List.mem_cons.mp hr with hr | hr
      · rw [hr]
        exact .inl hs
      · exact ih gone hr
    next =>
      rcases List.mem_cons.mp hr with hr | hr
      · rw [hr]
        exact .inr (.inl List.mem_cons_self)
      · rcases ih (closes s ++ gone) hr with hmem | hmem | hmem
        · rcases List.mem_append.mp hmem with hmem | hmem
          · right
            right
            apply List.mem_append_left
            exact List.mem_cons_of_mem _ (List.mem_map.mpr ⟨r, hmem, rfl⟩)
          · exact .inl hmem
        · exact .inr (.inl (List.mem_append_right _ hmem))
        · exact .inr (.inr (List.mem_append_right _ hmem))

/-- A round ends with nobody waiting where nobody was, or an address is left. -/
theorem resolveHostname_serves (h : ResolveInv u.resolveIndex u)
    (hend : (u.phlUpstreamResolveHostname closes).resolveIndex = 0) :
    RoundServed u (u.phlUpstreamResolveHostname closes) ↔
      u.waitHead = [] ∨ live u.addressHead ≠ [] := by
  rw [phlUpstreamResolveHostname] at hend ⊢
  split at hend
  next j hpick => cases hend
  next hpick =>
    dsimp only
    have hstays : ∀ {v : ResolveUpstream A}, v.waitHead = u.waitHead → v.log = u.log →
        live u.addressHead = [] ∨ u.waitHead = [] →
        (RoundServed u v ↔ u.waitHead = [] ∨ live u.addressHead ≠ []) := by
      intro v hwait hlog hnone
      constructor
      · intro hserved
        rw [← hwait]
        exact .inl hserved.1
      · intro hor
        have hnil : u.waitHead = [] := by
          rcases hor with hnil | hlive
          · exact hnil
          · rcases hnone with hnone | hnil
            · exact absurd hnone hlive
            · exact hnil
        refine ⟨hwait.trans hnil, [], by rw [hlog, List.append_nil], ?_⟩
        rw [hnil]
        exact nofun
    split
    next hupdated =>
      apply hstays rfl rfl
      by_cases hnil : u.waitHead = []
      · exact .inr hnil
      · left
        obtain ⟨hunmarked, hcount⟩ := h.counted hupdated
        rw [h.waiting hnil] at hcount
        rw [live_of_unmarked hunmarked]
        exact List.length_eq_zero_iff.mp hcount.symm
    next =>
      have hnum : ({ u with resolveIndex := 0 } : ResolveUpstream A).clearDeleted.addressNum =
          (live u.addressHead).length := by
        rw [← clearDeleted_addressHead]
        rfl
      split
      next hzero =>
        rw [hnum] at hzero
        exact hstays rfl rfl (.inl (List.length_eq_zero_iff.mp hzero))
      next hzero =>
        rw [hnum, List.length_eq_zero_iff] at hzero
        refine iff_of_true ⟨rfl, _, rfl, ?_⟩ (.inr hzero)
        intro r hr
        rcases wakeUp_spec closes [] u.waitHead hr with hmem | hmem
        · cases hmem
        · exact hmem

theorem resolveStep_keeps
    (h : ResolveInv (u.resolveIndex - 1) u ∧ u.resolveIndex ≤ u.hostnames.length)
    (hstep : resolveStep addrcmp u act = some u') :
    ResolveInv (u'.resolveIndex - 1) u' ∧ u'.resolveIndex ≤ u'.hostnames.length := by
  cases act with
  | timer =>
    simp only [resolveStep, Option.ite_none_right_eq_some, Option.some.injEq] at hstep
    obtain ⟨-, hu'⟩ := hstep
    rw [← hu']
    split
    next => exact h
    next hzero =>
      rw [not_not] at hzero
      have hinv := h.1
      rw [hzero] at hinv
      refine resolveHostname_keeps ?_
      rw [hzero]
      exact hinv
  | read answer closes =>
    simp only [resolveStep] at hstep
    split at hstep
    next => cases hstep
    next index hindex =>
      cases hstep
      have htaken := takeAnswer_keeps addrcmp answer h.1 hindex
      refine resolveHostname_keeps ?_
      have hsame : (u.takeAnswer addrcmp index answer).resolveIndex = u.resolveIndex := by
        cases answer with
        | error => rfl
        | addresses new =>
          rw [takeAnswer]
          split <;> rfl
      rw [hsame]
      exact htaken
  | get r linked =>
    simp only [resolveStep] at hstep
    split at hstep
    next hnone =>
      cases hstep
      exact ⟨⟨fun _ => hnone.1, h.1.counted, h.1.clean⟩, h.2⟩
    next =>
      cases hstep
      exact h
  | close r =>
    cases hstep
    refine ⟨⟨?_, h.1.counted, h.1.clean⟩, h.2⟩
    intro hne
    apply h.1.waiting
    intro hnil
    apply hne
    show u.waitHead.filter _ = []
    rw [hnil]
    rfl

theorem resolveStart_keeps (h : ResolveStart u) :
    ResolveInv (u.resolveIndex - 1) u ∧ u.resolveIndex ≤ u.hostnames.length := by
  rw [h.resolveIndex]
  refine ⟨⟨?_, ?_, ?_⟩, Nat.zero_le _⟩
  · exact fun hne => absurd h.waitHead hne
  · exact fun _ => ⟨h.live, h.addressNum⟩
  · exact fun j hn hj _ a ha => h.live a (mem_addressHead.mpr ⟨j, hn, hj, ha⟩)

/-- The answer that ends a round leaves no request waiting exactly where none waited or an address
is left. -/
theorem round_serves_waiting_iff
    (h : Reachable ResolveStart (ActStep (resolveStep addrcmp) fun _ _ => True) u)
    (hstep : resolveStep addrcmp u (.read answer closes) = some u')
    (hend : u'.resolveIndex = 0) :
    RoundServed u u' ↔ u.waitHead = [] ∨ AddressLeft u answer := by
  obtain ⟨hinv, hlength⟩ : ResolveInv (u.resolveIndex - 1) u ∧
      u.resolveIndex ≤ u.hostnames.length :=
    h.invariant (fun _ => resolveStart_keeps) fun _ _ hs ⟨_, _, hstep⟩ =>
      resolveStep_keeps hs hstep
  simp only [resolveStep] at hstep
  split at hstep
  next => cases hstep
  next index hindex =>
    cases hstep
    have htaken := takeAnswer_keeps addrcmp answer hinv hindex
    have hsame : (u.takeAnswer addrcmp index answer).resolveIndex = u.resolveIndex ∧
        (u.takeAnswer addrcmp index answer).waitHead = u.waitHead ∧
        (u.takeAnswer addrcmp index answer).log = u.log := by
      cases answer with
      | error => exact ⟨rfl, rfl, rfl⟩
      | addresses new =>
        rw [takeAnswer]
        split
        · exact ⟨rfl, rfl, rfl⟩
        · exact ⟨rfl, rfl, rfl⟩
    rw [← hsame.1] at htaken
    have hserves := resolveHostname_serves htaken hend
    rw [RoundServed, hsame.2.1, hsame.2.2, live_takeAnswer hinv hindex (by omega)] at hserves
    exact hserves

end ResolveSteps

end Resolve

/-- A dynamic upstream with one hostname, of which nothing is known yet. -/
def unresolved : ResolveUpstream Int := ⟨[⟨true, []⟩], 0, false, 0, [], []⟩

theorem start_unresolved : ResolveStart unresolved where
  live := nofun
  addressNum := rfl
  resolveIndex := rfl
  resolveUpdated := rfl
  waitHead := rfl

/-- Two requests wait for the answer. -/
def awaiting : ResolveUpstream Int := ⟨[⟨true, []⟩], 1, false, 0, [0, 1], []⟩

theorem reachable_awaiting :
    Reachable ResolveStart (ActStep (resolveStep (· - ·)) fun _ _ => True) awaiting := by
  have hrun : runActs (resolveStep (· - ·)) [.get 0 false, .timer, .get 1 false] unresolved =
      some awaiting := by
    decide
  exact (Reachable.start start_unresolved).runActs (actsMeet_of_forall _ _ fun _ _ => trivial) hrun

/-- An address comes. -/
theorem round_serves_waiting_iff_address :
    let served : ResolveUpstream Int :=
      ⟨[⟨true, [⟨7, false⟩]⟩], 0, false, 1, [], [.resumed 0, .resumed 1]⟩
    resolveStep (· - ·) awaiting (.read (.addresses [7]) fun _ => []) = some served ∧
    (RoundServed awaiting served ↔ awaiting.waitHead = [] ∨ AddressLeft awaiting (.addresses [7])) := by
  intro served
  have hstep : resolveStep (· - ·) awaiting (.read (.addresses [7]) fun _ => []) = some served := by
    decide
  exact ⟨hstep, round_serves_waiting_iff reachable_awaiting hstep rfl⟩

/-- The hostname cannot be resolved: the round ends, and both requests go on waiting. -/
theorem error_leaves_waiting : ∃ u u' : ResolveUpstream Int,
    Reachable ResolveStart (ActStep (resolveStep (· - ·)) fun _ _ => True) u ∧
    resolveStep (· - ·) u (.read .error fun _ => []) = some u' ∧
    u'.resolveIndex = 0 ∧ u'.waitHead = [0, 1] ∧ u'.log = [] ∧ ¬RoundServed u u' := by
  refine ⟨awaiting, { awaiting with resolveIndex := 0 }, reachable_awaiting, by decide, rfl, rfl,
    rfl, ?_⟩
  intro h
  cases h.1

end Phorklift
