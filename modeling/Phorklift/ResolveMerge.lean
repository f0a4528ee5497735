import Phorklift.Bytes
import Phorklift.Resolve
import Mathlib.Order.Defs.LinearOrder

/-! How an answer of the resolver is merged into the address list of its hostname, from the bytes
on. -/

namespace Phorklift

open Transition

/-- `sa_family` -/
inductive SaFamily
  | inet
  | inet6
  | unix
  | other
  deriving DecidableEq

/-- A `struct sockaddr` with what libwuya does with it, its bytes, and the one that starts at some
bytes. -/
structure SockaddrOps (A : Type) where
  saFamily : A → SaFamily
  /-- `sin_port` or `sin6_port` is set -/
  setPort : A → Nat → A
  wuySockaddrSize : A → Nat
  wuySockaddrAddrcmp : A → A → Int
  wuySockaddrDumps : A → Bytes
  encode : A → Bytes
  decode : Bytes → A

/-- `struct phl_upstream_address`; its pointer is a number that no other address has. -/
structure AddressNode (A S : Type) where
  pointer : Nat
  sockaddr : A
  name : Bytes
  resolveDeleted : Bool
  /-- its weight, statistics, failures, connections and health check -/
  state : S
  deriving DecidableEq

structure MergeHostname (A S : Type) where
  needResolved : Bool
  port : Nat
  addressHead : List (AddressNode A S)
  deriving DecidableEq

structure MergeUpstream (A S : Type) where
  hostnames : List (MergeHostname A S)
  resolveIndex : Nat
  resolveUpdated : Bool
  deriving DecidableEq

/-- What the loops of `phl_upstream_resolve_on_read` change. -/
structure MergeState (A S : Type) where
  p : Nat
  /-- the list before `node` -/
  before : List (AddressNode A S)
  /-- the list from `node` on -/
  node : List (AddressNode A S)
  resolveUpdated : Bool
  /-- the next pointer that `calloc` returns -/
  next : Nat
  deriving DecidableEq

/-- `memcmp(data, "ERROR", 5) == 0` -/
def isErrorAnswer (data : Bytes) : Bool := data.take 5 == bytes "ERROR"

def AddressNode.markDeleted {A S : Type} (a : AddressNode A S) : AddressNode A S :=
  { a with resolveDeleted := true }

/-- The list once `phl_upstream_resolve_hostname` has removed the marked addresses. -/
def clearMarked {A S : Type} (head : List (AddressNode A S)) : List (AddressNode A S) :=
  head.filter fun a => !a.resolveDeleted

section Merge

variable {A S : Type} (ops : SockaddrOps A) (fresh : Bytes → S)

/-- The switch over the families; the last one is `abort()`. -/
def SockaddrOps.withPort (port : Nat) (sockaddr : A) : Option A :=
  match ops.saFamily sockaddr with
  | .inet | .inet6 => some (if port ≠ 0 then ops.setPort sockaddr port else sockaddr)
  | .unix => some sockaddr
  | .other => none

/-- The new address; `fresh` is what the address of a name starts with. -/
def phlUpstreamAddressAdd (port pointer : Nat) (sockaddr : A) : Option (AddressNode A S) :=
  (ops.withPort port sockaddr).map fun stored =>
    let name := ops.wuySockaddrDumps sockaddr
    ⟨pointer, stored, name, false, fresh name⟩

/-- The address at `p`, if all of it is in the answer. -/
def SockaddrOps.newaddr (data : Bytes) (len p : Nat) : Option A :=
  let newaddr := ops.decode (data.drop p)
  if p + ops.wuySockaddrSize newaddr ≤ len then some newaddr else none

variable (port : Nat) (data : Bytes) (len : Nat)

/-- The loop while both lists last. -/
def mergeLoop : Nat → MergeState A S → Option (MergeState A S)
  | 0, _ => none
  | fuel + 1, s =>
    match s.node with
    | [] => some s
    | address :: node =>
      if s.p < len then do
        let newaddr ← ops.newaddr data len s.p
        let cmp := ops.wuySockaddrAddrcmp newaddr address.sockaddr
        if cmp = 0 then
          mergeLoop fuel { s with
            p := s.p + ops.wuySockaddrSize newaddr
            before := s.before ++ [address]
            node := node }
        else if cmp < 0 then do
          let added ← phlUpstreamAddressAdd ops fresh port s.next newaddr
          mergeLoop fuel { s with
            p := s.p + ops.wuySockaddrSize newaddr
            before := s.before ++ [added]
            resolveUpdated := true
            next := s.next + 1 }
        else
          mergeLoop fuel { s with
            before := s.before ++ [address.markDeleted]
            node := node
            resolveUpdated := true }
      else some s

/-- The loop over the addresses that are left. -/
def deleteLoop (s : MergeState A S) : MergeState A S :=
  { s with
    before := s.before ++ s.node.map AddressNode.markDeleted
    node := []
    resolveUpdated := s.resolveUpdated || !s.node.isEmpty }

/-- The loop over the rest of the answer. -/
def addLoop : Nat → MergeState A S → Option (MergeState A S)
  | 0, _ => none
  | fuel + 1, s =>
    if s.p < len then do
      let newaddr ← ops.newaddr data len s.p
      let added ← phlUpstreamAddressAdd ops fresh port s.next newaddr
      addLoop fuel { s with
        p := s.p + ops.wuySockaddrSize newaddr
        before := s.before ++ [added]
        resolveUpdated := true
        next := s.next + 1 }
    else some s

/-- The three loops; each round takes an address off the list or bytes off the answer. -/
def mergeAnswer (next : Nat) (head : List (AddressNode A S)) : Option (MergeState A S) := do
  let s ← mergeLoop ops fresh port data len (len + head.length + 1) ⟨0, [], head, false, next⟩
  addLoop ops fresh port data len (len + 1) (deleteLoop s)

/-- A pointer after those of all addresses. -/
def MergeUpstream.nextPointer (u : MergeUpstream A S) : Nat :=
  (u.hostnames.flatMap MergeHostname.addressHead).foldr (fun a n => max (a.pointer + 1) n) 0

/-- The answer for the hostname in turn is taken over. -/
def MergeUpstream.takeAnswer (u : MergeUpstream A S) : Option (MergeUpstream A S) := do
  let index := u.resolveIndex - 1
  let hostname ← u.hostnames[index]?
  if isErrorAnswer data = true then some u
  else do
    let s ← mergeAnswer ops fresh hostname.port data len u.nextPointer hostname.addressHead
    some { u with
      hostnames := u.hostnames.set index { hostname with addressHead := s.before ++ s.node }
      resolveUpdated := u.resolveUpdated || s.resolveUpdated }

/-- The next hostname to resolve. -/
def MergeUpstream.pick (u : MergeUpstream A S) : Option Nat :=
  (List.range u.hostnames.length).find? fun j =>
    u.resolveIndex ≤ j && u.hostnames[j]?.any MergeHostname.needResolved

/-- `phl_upstream_address_delete` of the marked addresses. -/
def MergeUpstream.clearDeleted (u : MergeUpstream A S) : MergeUpstream A S :=
  { u with hostnames := u.hostnames.map fun h =>
      { h with addressHead := clearMarked h.addressHead } }

/-- But for the requests that wait. -/
def MergeUpstream.phlUpstreamResolveHostname (u : MergeUpstream A S) : MergeUpstream A S :=
  match u.pick with
  | some j => { u with resolveIndex := j + 1 }
  | none =>
    let u := { u with resolveIndex := 0 }
    if u.resolveUpdated = false then u
    else
      let u := u.clearDeleted
      if u.hostnames.flatMap MergeHostname.addressHead = [] then u
      else { u with resolveUpdated := false }

def phlUpstreamResolveOnRead (u : MergeUpstream A S) : Option (MergeUpstream A S) :=
  (u.takeAnswer ops fresh data len).map MergeUpstream.phlUpstreamResolveHostname

end Merge

/-- What is relied on of libwuya and of the addresses in memory: an address is read back from its
bytes, its size is their number, it does not start as an error does, and two of them compare as
what they are without their ports. -/
structure SockaddrLaws {A B : Type} [LinearOrder B] (ops : SockaddrOps A) (addr : A → B) : Prop where
  decode_encode : ∀ a rest, ops.decode (ops.encode a ++ rest) = a
  size_eq : ∀ a, ops.wuySockaddrSize a = (ops.encode a).length
  size_pos : ∀ a, 0 < ops.wuySockaddrSize a
  not_error : ∀ a rest, isErrorAnswer (ops.encode a ++ rest) = false
  addrcmp_neg : ∀ a a', ops.wuySockaddrAddrcmp a a' < 0 ↔ addr a < addr a'
  addrcmp_zero : ∀ a a', ops.wuySockaddrAddrcmp a a' = 0 ↔ addr a = addr a'
  addr_setPort : ∀ a port, addr (ops.setPort a port) = addr a

/-- The address and the port of a `struct sockaddr_in`, byte by byte. -/
structure SockaddrIn where
  sinPort : UInt8 × UInt8
  sinAddr : UInt8 × UInt8 × UInt8 × UInt8
  deriving DecidableEq

/-- `ntohl(sin_addr)` -/
def SockaddrIn.number (a : SockaddrIn) : Nat :=
  ((a.sinAddr.1.toNat * 256 + a.sinAddr.2.1.toNat) * 256 + a.sinAddr.2.2.1.toNat) * 256 +
    a.sinAddr.2.2.2.toNat

def SockaddrIn.encode (a : SockaddrIn) : Bytes :=
  [2, 0, a.sinPort.1, a.sinPort.2, a.sinAddr.1, a.sinAddr.2.1, a.sinAddr.2.2.1, a.sinAddr.2.2.2,
    0, 0, 0, 0, 0, 0, 0, 0]

def SockaddrIn.decode : Bytes → SockaddrIn
  | _ :: _ :: hi :: lo :: a :: b :: c :: d :: _ => ⟨(hi, lo), (a, b, c, d)⟩
  | _ => ⟨(0, 0), (0, 0, 0, 0)⟩

/-- `"%d.%d.%d.%d"` -/
def SockaddrIn.dumps (a : SockaddrIn) : Bytes :=
  bytes (".".intercalate ([a.sinAddr.1, a.sinAddr.2.1, a.sinAddr.2.2.1, a.sinAddr.2.2.2].map
    fun n => toString n.toNat))

def SockaddrIn.ops : SockaddrOps SockaddrIn where
  saFamily _ := .inet
  setPort a port := { a with sinPort := (UInt8.ofNat (port / 256), UInt8.ofNat port) }
  wuySockaddrSize _ := 16
  wuySockaddrAddrcmp a a' := (a.number : Int) - a'.number
  wuySockaddrDumps := SockaddrIn.dumps
  encode := SockaddrIn.encode
  decode := SockaddrIn.decode

theorem SockaddrIn.laws : SockaddrLaws SockaddrIn.ops SockaddrIn.number where
  decode_encode _ _ := rfl
  size_eq _ := rfl
  size_pos _ := Nat.succ_pos _
  not_error a rest := by
    rw [isErrorAnswer]
    simp [SockaddrIn.ops, SockaddrIn.encode, bytes]
  addrcmp_neg a a' := by
    change (a.number : Int) - a'.number < 0 ↔ a.number < a'.number
    omega
  addrcmp_zero a a' := by
    change (a.number : Int) - a'.number = 0 ↔ a.number = a'.number
    omega
  addr_setPort _ _ := rfl

/-- A run of the three loops from `node` and the rest of the answer: what becomes of the list, and
whether anything has changed. -/
inductive Merged {A S : Type} (ops : SockaddrOps A) (fresh : Bytes → S)
    (port : Nat) :
    Nat → List (AddressNode A S) → List A → List (AddressNode A S) → Bool → Prop
  | done {next} : Merged ops fresh port next [] [] [] false
  | same {next address node newaddr new out updated}
      (hcmp : ops.wuySockaddrAddrcmp newaddr address.sockaddr = 0)
      (rest : Merged ops fresh port next node new out updated) :
      Merged ops fresh port next (address :: node) (newaddr :: new) (address :: out) updated
  | added {next address node newaddr new added out updated}
      (hcmp : ops.wuySockaddrAddrcmp newaddr address.sockaddr < 0)
      (hadd : phlUpstreamAddressAdd ops fresh port next newaddr = some added)
      (rest : Merged ops fresh port (next + 1) (address :: node) new out updated) :
      Merged ops fresh port next (address :: node) (newaddr :: new) (added :: out) true
  | deleted {next address node newaddr new out updated}
      (hcmp : 0 < ops.wuySockaddrAddrcmp newaddr address.sockaddr)
      (rest : Merged ops fresh port next node (newaddr :: new) out updated) :
      Merged ops fresh port next (address :: node) (newaddr :: new)
        (address.markDeleted :: out) true
  | restDeleted {next address node out updated}
      (rest : Merged ops fresh port next node [] out updated) :
      Merged ops fresh port next (address :: node) [] (address.markDeleted :: out) true
  | restAdded {next newaddr new added out updated}
      (hadd : phlUpstreamAddressAdd ops fresh port next newaddr = some added)
      (rest : Merged ops fresh port (next + 1) [] new out updated) :
      Merged ops fresh port next [] (newaddr :: new) (added :: out) true

/-- `10.0.0.n` -/
def tenHost (n : UInt8) : SockaddrIn := ⟨(0, 80), (10, 0, 0, n)⟩

def oneHostname : MergeUpstream SockaddrIn Nat :=
  ⟨[⟨true, 80, [⟨0, tenHost 1, [], false, 5⟩, ⟨1, tenHost 3, [], false, 6⟩]⟩], 1, false⟩

section Merged

variable {A B S : Type} [LinearOrder B] {ops : SockaddrOps A} {addr : A → B} {fresh : Bytes → S}
  {port len p next pointer fuel : Nat} {data : Bytes} {newaddr : A} {new rest : List A}
  {address added : AddressNode A S} {node head out : List (AddressNode A S)} {updated : Bool}
  {s : MergeState A S}

/-- The bytes of an answer. -/
def SockaddrOps.answer (ops : SockaddrOps A) (new : List A) : Bytes := new.flatMap ops.encode

/-- What is left of the answer at `p` are the addresses `rest`. -/
def AnswerAt (ops : SockaddrOps A) (data : Bytes) (len p : Nat) (rest : List A) : Prop :=
  p + (ops.answer rest).length = len ∧ ∃ stale, data.drop p = ops.answer rest ++ stale

/-- What the loops do from `s` on, they do from `t` on once they are there. -/
def LeadsTo (ops : SockaddrOps A) (fresh : Bytes → S) (port : Nat) (s : MergeState A S)
    (rest : List A) (t : MergeState A S) (rest' : List A) : Prop :=
  ∃ mid changed, t.before = s.before ++ mid ∧ t.resolveUpdated = (s.resolveUpdated || changed) ∧
    ∀ out updated, Merged ops fresh port t.next t.node rest' out updated →
      Merged ops fresh port s.next s.node rest (mid ++ out) (changed || updated)

theorem answer_cons : ops.answer (newaddr :: new) = ops.encode newaddr ++ ops.answer new := rfl

/-- The next address is read whole, and `p` moves on to the one after it. -/
theorem AnswerAt.cons (laws : SockaddrLaws ops addr)
    (h : AnswerAt ops data len p (newaddr :: rest)) :
    p < len ∧ ops.newaddr data len p = some newaddr ∧
      AnswerAt ops data len (p + ops.wuySockaddrSize newaddr) rest := by
  obtain ⟨hlen, stale, hdrop⟩ := h
  rw [answer_cons, List.length_append] at hlen
  rw [answer_cons, List.append_assoc] at hdrop
  have hsize := laws.size_eq newaddr
  have hpos := laws.size_pos newaddr
  have hread : ops.decode (data.drop p) = newaddr := by
    rw [hdrop]
    exact laws.decode_encode newaddr _
  refine ⟨by omega, ?_, by omega, stale, ?_⟩
  · rw [SockaddrOps.newaddr, hread, if_pos (by omega)]
  · rw [← List.drop_drop, hdrop, hsize]
    exact List.drop_left

theorem AnswerAt.nil (h : AnswerAt ops data len p []) : p = len := h.1

theorem addressAdd_isSome (fresh : Bytes → S) (port pointer : Nat)
    (hfamily : ops.saFamily newaddr ≠ .other) :
    ∃ added, phlUpstreamAddressAdd ops fresh port pointer newaddr = some added := by
  rw [phlUpstreamAddressAdd, SockaddrOps.withPort]
  cases hf : ops.saFamily newaddr with
  | inet => exact ⟨_, rfl⟩
  | inet6 => exact ⟨_, rfl⟩
  | unix => exact ⟨_, rfl⟩
  | other => exact absurd hf hfamily

/-- A new address compares as the one in the answer, and has a pointer of its own. -/
theorem addressAdd_spec (laws : SockaddrLaws ops addr)
    (hadd : phlUpstreamAddressAdd ops fresh port pointer newaddr = some added) :
    addr added.sockaddr = addr newaddr ∧ added.resolveDeleted = false ∧
      added.pointer = pointer := by
  rw [phlUpstreamAddressAdd, Option.map_eq_some_iff] at hadd
  obtain ⟨stored, hstored, rfl⟩ := hadd
  refine ⟨?_, rfl, rfl⟩
  rw [SockaddrOps.withPort] at hstored
  have hport : addr (if port ≠ 0 then ops.setPort newaddr port else newaddr) = addr newaddr := by
    split
    next => exact laws.addr_setPort newaddr port
    next => rfl
  split at hstored
  next => rw [← Option.some.inj hstored, hport]
  next => rw [← Option.some.inj hstored, hport]
  next => rw [← Option.some.inj hstored]
  next => cases hstored

theorem LeadsTo.refl : LeadsTo ops fresh port s rest s rest :=
  ⟨[], false, (List.append_nil _).symm, (Bool.or_false _).symm, fun _ _ hmerged => hmerged⟩

theorem LeadsTo.trans {t w : MergeState A S} {rest' rest'' : List A}
    (h : LeadsTo ops fresh port s rest t rest') (h' : LeadsTo ops fresh port t rest' w rest'') :
    LeadsTo ops fresh port s rest w rest'' := by
  obtain ⟨mid, changed, hbefore, hupdated, hmerged⟩ := h
  obtain ⟨mid', changed', hbefore', hupdated', hmerged'⟩ := h'
  refine ⟨mid ++ mid', changed || changed', ?_, ?_, ?_⟩
  · rw [hbefore', hbefore, List.append_assoc]
  · rw [hupdated', hupdated, Bool.or_assoc]
  · intro out updated hout
    rw [List.append_assoc, Bool.or_assoc]
    exact hmerged _ _ (hmerged' _ _ hout)

theorem LeadsTo.stepSame (hnode : s.node = address :: node)
    (hcmp : ops.wuySockaddrAddrcmp newaddr address.sockaddr = 0) :
    LeadsTo ops fresh port s (newaddr :: rest)
      { s with p := p, before := s.before ++ [address], node := node } rest := by
  refine ⟨[address], false, rfl, (Bool.or_false _).symm, fun out updated hout => ?_⟩
  rw [hnode]
  exact .same hcmp hout

theorem LeadsTo.stepAdded (hnode : s.node = address :: node)
    (hcmp : ops.wuySockaddrAddrcmp newaddr address.sockaddr < 0)
    (hadd : phlUpstreamAddressAdd ops fresh port s.next newaddr = some added) :
    LeadsTo ops fresh port s (newaddr :: rest)
      { s with p := p, before := s.before ++ [added], resolveUpdated := true, next := s.next + 1 }
      rest := by
  refine ⟨[added], true, rfl, (Bool.or_true _).symm, fun out updated hout => ?_⟩
  change Merged ops fresh port (s.next + 1) s.node rest out updated at hout
  rw [hnode] at hout ⊢
  exact .added hcmp hadd hout

theorem LeadsTo.stepDeleted (hnode : s.node = address :: node)
    (hcmp : 0 < ops.wuySockaddrAddrcmp newaddr address.sockaddr) :
    LeadsTo ops fresh port s (newaddr :: rest)
      { s with before := s.before ++ [address.markDeleted], node := node, resolveUpdated := true }
      (newaddr :: rest) := by
  refine ⟨[address.markDeleted], true, rfl, (Bool.or_true _).symm, fun out updated hout => ?_⟩
  rw [hnode]
  exact .deleted hcmp hout

theorem LeadsTo.stepRestAdded (hnode : s.node = [])
    (hadd : phlUpstreamAddressAdd ops fresh port s.next newaddr = some added) :
    LeadsTo ops fresh port s (newaddr :: rest)
      { s with p := p, before := s.before ++ [added], resolveUpdated := true, next := s.next + 1 }
      rest := by
  refine ⟨[added], true, rfl, (Bool.or_true _).symm, fun out updated hout => ?_⟩
  change Merged ops fresh port (s.next + 1) s.node rest out updated at hout
  rw [hnode] at hout ⊢
  exact .restAdded hadd hout

/-- The first loop ends with one of the two lists used up. -/
theorem mergeLoop_leads (fresh : Bytes → S) (port : Nat) (s : MergeState A S)
    (laws : SockaddrLaws ops addr)
    (hfamily : ∀ a ∈ rest, ops.saFamily a ≠ .other) (hat : AnswerAt ops data len s.p rest)
    (hfuel : len - s.p + s.node.length < fuel) :
    ∃ t rest', mergeLoop ops fresh port data len fuel s = some t ∧
      LeadsTo ops fresh port s rest t rest' ∧ AnswerAt ops data len t.p rest' ∧
      (∀ a ∈ rest', ops.saFamily a ≠ .other) ∧ (t.node = [] ∨ rest' = []) := by
  induction fuel generalizing s rest with
  | zero => omega
  | succ fuel ih =>
    rw [mergeLoop]
    split
    next hnode => exact ⟨s, rest, rfl, .refl, hat, hfamily, .inl hnode⟩
    next address node hnode =>
      have hlen : s.node.length = node.length + 1 := by rw [hnode, List.length_cons]
      cases rest with
      | nil =>
        have hend := hat.nil
        rw [if_neg (by omega)]
        exact ⟨s, [], rfl, .refl, hat, hfamily, .inr rfl⟩
      | cons newaddr rest =>
        obtain ⟨hlt, hread, hnext⟩ := hat.cons laws
        have hpos := laws.size_pos newaddr
        have hrest : ∀ a ∈ rest, ops.saFamily a ≠ .other :=
          fun a ha => hfamily a (List.mem_cons_of_mem _ ha)
        rw [if_pos hlt, hread]
        dsimp only [Option.bind_eq_bind, Option.bind_some]
        split
        next hcmp =>
          obtain ⟨t, rest', hrun, hleads, hends⟩ := ih (s := { s with
            p := s.p + ops.wuySockaddrSize newaddr
            before := s.before ++ [address]
            node := node }) hrest hnext (by dsimp only; omega)
          exact ⟨t, rest', hrun, (LeadsTo.stepSame hnode hcmp).trans hleads, hends⟩
        next hcmp =>
          split
          next hneg =>
            obtain ⟨added, hadd⟩ := addressAdd_isSome fresh port s.next
              (hfamily newaddr List.mem_cons_self)
            rw [hadd]
            obtain ⟨t, rest', hrun, hleads, hends⟩ := ih (s := { s with
              p := s.p + ops.wuySockaddrSize newaddr
              before := s.before ++ [added]
              resolveUpdated := true
              next := s.next + 1 }) hrest hnext (by dsimp only; omega)
            exact ⟨t, rest', hrun, (LeadsTo.stepAdded hnode hneg hadd).trans hleads, hends⟩
          next hneg =>
            obtain ⟨t, rest', hrun, hleads, hends⟩ := ih (s := { s with
              before := s.before ++ [address.markDeleted]
              node := node
              resolveUpdated := true }) hfamily hat (by dsimp only; omega)
            exact ⟨t, rest', hrun, (LeadsTo.stepDeleted hnode (by omega)).trans hleads, hends⟩

/-- The second loop does nothing where the first one ends with the list. -/
theorem deleteLoop_leads (hend : s.node = [] ∨ rest = []) :
    LeadsTo ops fresh port s rest (deleteLoop s) rest := by
  refine ⟨s.node.map AddressNode.markDeleted, !s.node.isEmpty, rfl, rfl, ?_⟩
  intro out updated hout
  change Merged ops fresh port s.next [] rest out updated at hout
  rcases hend with hnode | hrest
  · rw [hnode]
    exact hout
  · rw [hrest] at hout ⊢
    induction s.node with
    | nil => exact hout
    | cons address node ih => exact .restDeleted ih

theorem addLoop_leads (fresh : Bytes → S) (port : Nat) (s : MergeState A S)
    (laws : SockaddrLaws ops addr)
    (hfamily : ∀ a ∈ rest, ops.saFamily a ≠ .other) (hat : AnswerAt ops data len s.p rest)
    (hnode : s.node = []) (hfuel : len - s.p < fuel) :
    ∃ t, addLoop ops fresh port data len fuel s = some t ∧ LeadsTo ops fresh port s rest t [] ∧
      t.p = len ∧ t.node = [] := by
  induction fuel generalizing s rest with
  | zero => omega
  | succ fuel ih =>
    rw [addLoop]
    cases rest with
    | nil =>
      have hend := hat.nil
      rw [if_neg (by omega)]
      exact ⟨s, rfl, .refl, hend, hnode⟩
    | cons newaddr rest =>
      obtain ⟨hlt, hread, hnext⟩ := hat.cons laws
      have hpos := laws.size_pos newaddr
      obtain ⟨added, hadd⟩ := addressAdd_isSome fresh port s.next
        (hfamily newaddr List.mem_cons_self)
      rw [if_pos hlt, hread]
      dsimp only [Option.bind_eq_bind, Option.bind_some]
      rw [hadd]
      obtain ⟨t, hrun, hleads, hends⟩ := ih (s := { s with
        p := s.p + ops.wuySockaddrSize newaddr
        before := s.before ++ [added]
        resolveUpdated := true
        next := s.next + 1 }) (fun a ha => hfamily a (List.mem_cons_of_mem _ ha)) hnext hnode
        (by dsimp only; omega)
      exact ⟨t, hrun, (LeadsTo.stepRestAdded hnode hadd).trans hleads, hends⟩

/-- The loops end, and at the end of the answer. -/
theorem mergeAnswer_merged (fresh : Bytes → S) (port next : Nat) (head : List (AddressNode A S))
    (laws : SockaddrLaws ops addr)
    (hfamily : ∀ a ∈ new, ops.saFamily a ≠ .other) (hat : AnswerAt ops data len 0 new) :
    ∃ t, mergeAnswer ops fresh port data len next head = some t ∧ t.p = len ∧ t.node = [] ∧
      Merged ops fresh port next head new t.before t.resolveUpdated := by
  have hfuel : len - 0 + head.length < len + head.length + 1 := by omega
  obtain ⟨s, rest, hrun, hleads, hat', hfamily', hend⟩ :=
    mergeLoop_leads fresh port ⟨0, [], head, false, next⟩ laws hfamily hat hfuel
  have hfuel' : len - (deleteLoop s).p < len + 1 := by omega
  obtain ⟨t, hadd, hleads', hp, hnode⟩ :=
    addLoop_leads fresh port (deleteLoop s) laws hfamily' hat' rfl hfuel'
  obtain ⟨mid, changed, hbefore, hupdated, hmerged⟩ :=
    (hleads.trans (deleteLoop_leads hend)).trans hleads'
  refine ⟨t, ?_, hp, hnode, ?_⟩
  · rw [mergeAnswer, hrun]
    exact hadd
  · rw [hnode] at hmerged
    have hdone := hmerged [] false .done
    rw [List.append_nil, Bool.or_false] at hdone
    rw [hbefore, hupdated]
    exact hdone

def NodesLive (l : List (AddressNode A S)) : Prop := ∀ a ∈ l, a.resolveDeleted = false

instance (l : List (AddressNode A S)) : Decidable (NodesLive l) :=
  inferInstanceAs (Decidable (∀ a ∈ l, a.resolveDeleted = false))

/-- The addresses of the list that compare as `b`. -/
def nodesAt (addr : A → B) (b : B) (l : List (AddressNode A S)) : List (AddressNode A S) :=
  l.filter fun a => addr a.sockaddr = b

theorem clearMarked_live (h : address.resolveDeleted = false) :
    clearMarked (address :: out) = address :: clearMarked out :=
  List.filter_cons_of_pos (by simp [h])

theorem clearMarked_marked : clearMarked (address.markDeleted :: out) = clearMarked out :=
  List.filter_cons_of_neg (by simp [AddressNode.markDeleted])

theorem clearMarked_of_live (h : NodesLive head) : clearMarked head = head :=
  List.filter_eq_self.mpr fun a ha => by simp [h a ha]

theorem nodesAt_self : nodesAt addr (addr address.sockaddr) (address :: out) =
    address :: nodesAt addr (addr address.sockaddr) out :=
  List.filter_cons_of_pos (by simp)

theorem nodesAt_ne {b : B} (h : addr address.sockaddr ≠ b) :
    nodesAt addr b (address :: out) = nodesAt addr b out :=
  List.filter_cons_of_neg (by simpa using h)

theorem nodesAt_eq_nil {b : B} (h : ∀ a ∈ out, addr a.sockaddr ≠ b) : nodesAt addr b out = [] :=
  List.filter_eq_nil_iff.mpr fun a ha => by simpa using h a ha

/-- A sorted list that starts above `b` has no address that compares as `b`. -/
theorem nodesAt_eq_nil_of_lt {b c : B} {l : List B} (hlt : b < c)
    (heq : out.map (fun a => addr a.sockaddr) = c :: l) (hsorted : (c :: l).Pairwise (· ≤ ·)) :
    nodesAt addr b out = [] := by
  refine nodesAt_eq_nil fun a ha hb => ?_
  have hmem : addr a.sockaddr ∈ c :: l := by
    rw [← heq]
    exact List.mem_map_of_mem ha
  rw [hb] at hmem
  rcases List.mem_cons.mp hmem with hmem | hmem
  · exact hlt.ne hmem
  · have hle := (List.pairwise_cons.mp hsorted).1 b hmem
    exact lt_irrefl _ (lt_of_lt_of_le hlt hle)

/-- The addresses that are left are those of the answer, one by one. -/
theorem Merged.answer (laws : SockaddrLaws ops addr)
    (h : Merged ops fresh port next head new out updated) (hlive : NodesLive head) :
    (clearMarked out).map (fun a => addr a.sockaddr) = new.map addr := by
  induction h with
  | done => rfl
  | same hcmp rest ih =>
    rw [clearMarked_live (hlive _ List.mem_cons_self), List.map_cons, List.map_cons,
      ih fun a ha => hlive a (List.mem_cons_of_mem _ ha), (laws.addrcmp_zero _ _).mp hcmp]
  | added hcmp hadd rest ih =>
    obtain ⟨haddr, hnew, -⟩ := addressAdd_spec laws hadd
    rw [clearMarked_live hnew, List.map_cons, List.map_cons, ih hlive, haddr]
  | deleted hcmp rest ih =>
    rw [clearMarked_marked]
    exact ih fun a ha => hlive a (List.mem_cons_of_mem _ ha)
  | restDeleted rest ih =>
    rw [clearMarked_marked]
    exact ih fun a ha => hlive a (List.mem_cons_of_mem _ ha)
  | restAdded hadd rest ih =>
    obtain ⟨haddr, hnew, -⟩ := addressAdd_spec laws hadd
    rw [clearMarked_live hnew, List.map_cons, List.map_cons, ih hlive, haddr]

/-- Of the addresses that compare alike, the first ones of the list stay, as many as the answer
has; where it has more, those are new and come after them. -/
theorem Merged.kept (laws : SockaddrLaws ops addr)
    (h : Merged ops fresh port next head new out updated) (hlive : NodesLive head)
    (hhead : (head.map fun a => addr a.sockaddr).Pairwise (· ≤ ·))
    (hnew : (new.map addr).Pairwise (· ≤ ·)) (b : B) :
    nodesAt addr b (clearMarked out) <+: nodesAt addr b head ∨
      nodesAt addr b head <+: nodesAt addr b (clearMarked out) := by
  have hanswer := h.answer laws hlive
  induction h with
  | done => exact .inl List.nil_prefix
  | @same _ address node newaddr new out _ hcmp rest ih =>
    have hnode : NodesLive node := fun a ha => hlive a (List.mem_cons_of_mem _ ha)
    have hih := ih hnode (List.pairwise_cons.mp hhead).2 (List.pairwise_cons.mp hnew).2
      (rest.answer laws hnode)
    rw [clearMarked_live (hlive _ List.mem_cons_self)]
    by_cases hb : addr address.sockaddr = b
    · rw [← hb, nodesAt_self, nodesAt_self, List.prefix_cons_inj, List.prefix_cons_inj, hb]
      exact hih
    · rw [nodesAt_ne hb, nodesAt_ne hb]
      exact hih
  | @added _ address node newaddr new added out _ hcmp hadd rest ih =>
    obtain ⟨haddr, hlive', -⟩ := addressAdd_spec laws hadd
    have hlt := (laws.addrcmp_neg _ _).mp hcmp
    rw [clearMarked_live hlive']
    by_cases hb : addr newaddr = b
    · -- every address of the list compares greater than the new one
      right
      rw [nodesAt_eq_nil_of_lt (hb ▸ hlt) (List.map_cons ..) hhead]
      exact List.nil_prefix
    · rw [nodesAt_ne (by rw [haddr]; exact hb)]
      exact ih hlive hhead (List.pairwise_cons.mp hnew).2 (rest.answer laws hlive)
  | @deleted _ address node newaddr new out _ hcmp rest ih =>
    have hnode : NodesLive node := fun a ha => hlive a (List.mem_cons_of_mem _ ha)
    have hlt : addr address.sockaddr < addr newaddr := by
      have hneg := mt (laws.addrcmp_neg newaddr address.sockaddr).mpr (by omega)
      have hzero := mt (laws.addrcmp_zero newaddr address.sockaddr).mpr (by omega)
      exact lt_of_le_of_ne (le_of_not_gt hneg) fun heq => hzero heq.symm
    rw [clearMarked_marked] at hanswer ⊢
    by_cases hb : addr address.sockaddr = b
    · -- every address of the answer compares greater than the one of the list
      left
      rw [nodesAt_eq_nil_of_lt (hb ▸ hlt) hanswer hnew]
      exact List.nil_prefix
    · rw [nodesAt_ne hb]
      exact ih hnode (List.pairwise_cons.mp hhead).2 hnew hanswer
  | @restDeleted _ address node out _ rest ih =>
    rw [clearMarked_marked] at hanswer ⊢
    have hnone := List.map_eq_nil_iff.mp hanswer
    rw [hnone]
    exact .inl List.nil_prefix
  | restAdded hadd rest ih => exact .inr List.nil_prefix

/-- A marked address makes the list shorter, if nothing new comes into it. -/
theorem changed_of_marked (hlive : NodesLive node) (hsame : updated = false → out = node)
    (hchanged : updated = true → (∃ a ∈ clearMarked out, next ≤ a.pointer) ∨
      (clearMarked out).length < node.length) :
    (∃ a ∈ clearMarked out, next ≤ a.pointer) ∨
      (clearMarked out).length < (address :: node).length := by
  rw [List.length_cons]
  cases updated with
  | false =>
    rw [hsame rfl, clearMarked_of_live hlive]
    exact .inr (Nat.lt_succ_self _)
  | true => exact (hchanged rfl).imp id Nat.lt_succ_of_lt

/-- Where nothing is flagged the list stays; else a new address is in it or one is left out. -/
theorem Merged.changed (laws : SockaddrLaws ops addr)
    (h : Merged ops fresh port next head new out updated) (hlive : NodesLive head) :
    (updated = false → out = head) ∧
      (updated = true → (∃ a ∈ clearMarked out, next ≤ a.pointer) ∨
        (clearMarked out).length < head.length) := by
  induction h with
  | done => exact ⟨fun _ => rfl, fun hfalse => absurd hfalse (by simp)⟩
  | same hcmp rest ih =>
    obtain ⟨hsame, hchanged⟩ := ih fun a ha => hlive a (List.mem_cons_of_mem _ ha)
    rw [clearMarked_live (hlive _ List.mem_cons_self)]
    refine ⟨fun hfalse => by rw [hsame hfalse], fun htrue => ?_⟩
    rcases hchanged htrue with ⟨a, ha, hle⟩ | hlt
    · exact .inl ⟨a, List.mem_cons_of_mem _ ha, hle⟩
    · right
      rw [List.length_cons, List.length_cons]
      omega
  | added hcmp hadd rest ih =>
    obtain ⟨-, hnew, hpointer⟩ := addressAdd_spec laws hadd
    rw [clearMarked_live hnew]
    exact ⟨fun hfalse => absurd hfalse (by simp), fun _ =>
      .inl ⟨_, List.mem_cons_self, hpointer.ge⟩⟩
  | deleted hcmp rest ih =>
    have hnode := fun a ha => hlive a (List.mem_cons_of_mem _ ha)
    obtain ⟨hsame, hchanged⟩ := ih hnode
    rw [clearMarked_marked]
    exact ⟨fun hfalse => absurd hfalse (by simp), fun _ => changed_of_marked hnode hsame hchanged⟩
  | restDeleted rest ih =>
    have hnode := fun a ha => hlive a (List.mem_cons_of_mem _ ha)
    obtain ⟨hsame, hchanged⟩ := ih hnode
    rw [clearMarked_marked]
    exact ⟨fun hfalse => absurd hfalse (by simp), fun _ => changed_of_marked hnode hsame hchanged⟩
  | restAdded hadd rest ih =>
    obtain ⟨-, hnew, hpointer⟩ := addressAdd_spec laws hadd
    rw [clearMarked_live hnew]
    exact ⟨fun hfalse => absurd hfalse (by simp), fun _ =>
      .inl ⟨_, List.mem_cons_self, hpointer.ge⟩⟩

/-- What the merge and the removal of the marked addresses make of a hostname's list: exactly the
answer's addresses in its order, those that were there as they were, and the flag set if and only
if it is another list. -/
structure MergeExact (addr : A → B) (head left : List (AddressNode A S)) (new : List A)
    (updated : Bool) : Prop where
  answer : left.map (fun a => addr a.sockaddr) = new.map addr
  kept : ∀ b, nodesAt addr b left <+: nodesAt addr b head ∨
    nodesAt addr b head <+: nodesAt addr b left
  flagged : updated = true ↔ left ≠ head

theorem Merged.exact (laws : SockaddrLaws ops addr)
    (h : Merged ops fresh port next head new out updated) (hlive : NodesLive head)
    (hpointers : ∀ a ∈ head, a.pointer < next)
    (hhead : (head.map fun a => addr a.sockaddr).Pairwise (· ≤ ·))
    (hnew : (new.map addr).Pairwise (· ≤ ·)) :
    MergeExact addr head (clearMarked out) new updated := by
  refine ⟨h.answer laws hlive, h.kept laws hlive hhead hnew, ?_⟩
  obtain ⟨hsame, hchanged⟩ := h.changed laws hlive
  constructor
  · intro htrue heq
    rw [heq] at hchanged
    rcases hchanged htrue with ⟨a, ha, hle⟩ | hlt
    · have hpointer := hpointers a ha
      omega
    · omega
  · intro hne
    by_contra hfalse
    refine hne ?_
    rw [hsame (by simpa using hfalse)]
    exact clearMarked_of_live hlive

theorem lt_nextPointer {u : MergeUpstream A S} {hostname : MergeHostname A S}
    (hhost : hostname ∈ u.hostnames) : ∀ a ∈ hostname.addressHead, a.pointer < u.nextPointer := by
  intro a ha
  have hmem : a ∈ u.hostnames.flatMap MergeHostname.addressHead :=
    List.mem_flatMap.mpr ⟨hostname, hhost, ha⟩
  rw [MergeUpstream.nextPointer]
  generalize u.hostnames.flatMap MergeHostname.addressHead = l at hmem
  induction l with
  | nil => cases hmem
  | cons a' l ih =>
    rw [List.foldr_cons]
    rcases List.mem_cons.mp hmem with hmem | hmem
    · rw [hmem]
      omega
    · have hlt := ih hmem
      omega

theorem addrcmp_le (laws : SockaddrLaws ops addr) (a a' : A) :
    ops.wuySockaddrAddrcmp a a' ≤ 0 ↔ addr a ≤ addr a' := by
  rw [Int.le_iff_lt_or_eq, laws.addrcmp_neg, laws.addrcmp_zero]
  exact le_iff_lt_or_eq.symm

theorem answer_sorted (laws : SockaddrLaws ops addr)
    (hnew : new.Pairwise fun a a' => ops.wuySockaddrAddrcmp a a' ≤ 0) :
    (new.map addr).Pairwise (· ≤ ·) := by
  rw [List.pairwise_map]
  exact hnew.imp fun h => (addrcmp_le laws _ _).mp h

theorem nodes_sorted (laws : SockaddrLaws ops addr) :
    (head.Pairwise fun a a' => ops.wuySockaddrAddrcmp a.sockaddr a'.sockaddr ≤ 0) ↔
      (head.map fun a => addr a.sockaddr).Pairwise (· ≤ ·) := by
  rw [List.pairwise_map]
  exact ⟨fun h => h.imp (addrcmp_le laws _ _).mp, fun h => h.imp (addrcmp_le laws _ _).mpr⟩

/-- So the list is again as the next answer needs it. -/
theorem MergeExact.settled (laws : SockaddrLaws ops addr)
    (h : MergeExact addr head (clearMarked out) new updated)
    (hnew : new.Pairwise fun a a' => ops.wuySockaddrAddrcmp a a' ≤ 0) :
    NodesLive (clearMarked out) ∧ (clearMarked out).Pairwise fun a a' =>
      ops.wuySockaddrAddrcmp a.sockaddr a'.sockaddr ≤ 0 := by
  constructor
  · intro a ha
    have hkeep := (List.mem_filter.mp ha).2
    simpa using hkeep
  · rw [nodes_sorted laws, h.answer]
    exact answer_sorted laws hnew

/-- An answer is no error; an empty one is not if what is left in the buffer is none. -/
theorem answer_not_error {stale : Bytes} (laws : SockaddrLaws ops addr)
    (hstale : new = [] → isErrorAnswer stale = false) :
    isErrorAnswer (ops.answer new ++ stale) = false := by
  cases new with
  | nil => exact hstale rfl
  | cons newaddr new =>
    rw [answer_cons, List.append_assoc]
    exact laws.not_error newaddr _

/-- An answer that is no error goes through the loops. -/
theorem takeAnswer_eq {u : MergeUpstream A S} {index : Nat} {hostname : MergeHostname A S}
    {stale : Bytes} (fresh : Bytes → S) (len : Nat) (laws : SockaddrLaws ops addr)
    (hindex : u.resolveIndex = index + 1) (hhost : u.hostnames[index]? = some hostname)
    (hstale : new = [] → isErrorAnswer stale = false) :
    u.takeAnswer ops fresh (ops.answer new ++ stale) len =
      (mergeAnswer ops fresh hostname.port (ops.answer new ++ stale) len u.nextPointer
        hostname.addressHead).map fun t => { u with
          hostnames := u.hostnames.set index { hostname with addressHead := t.before ++ t.node }
          resolveUpdated := u.resolveUpdated || t.resolveUpdated } := by
  rw [MergeUpstream.takeAnswer, hindex, Nat.add_sub_cancel, hhost]
  dsimp only [Option.bind_eq_bind, Option.bind_some]
  rw [answer_not_error laws hstale, if_neg Bool.false_ne_true, Option.map_eq_bind]
  rfl

theorem clearMarked_clearMarked : clearMarked (clearMarked head) = clearMarked head := by
  rw [clearMarked, clearMarked, List.filter_filter]
  simp

/-- The end of a round removes what is marked, and nothing else. -/
theorem resolveHostname_left {u : MergeUpstream A S} {index : Nat} {hostname : MergeHostname A S}
    (hhost : u.hostnames[index]? = some hostname) :
    ∃ hostname', u.phlUpstreamResolveHostname.hostnames[index]? = some hostname' ∧
      clearMarked hostname'.addressHead = clearMarked hostname.addressHead := by
  have hclear : u.clearDeleted.hostnames[index]? =
      some { hostname with addressHead := clearMarked hostname.addressHead } := by
    rw [MergeUpstream.clearDeleted, List.getElem?_map, hhost]
    rfl
  rw [MergeUpstream.phlUpstreamResolveHostname]
  split
  next => exact ⟨hostname, hhost, rfl⟩
  next =>
    dsimp only
    split
    next => exact ⟨hostname, hhost, rfl⟩
    next =>
      split
      next => exact ⟨_, hclear, clearMarked_clearMarked⟩
      next => exact ⟨_, hclear, clearMarked_clearMarked⟩

end Merged

section Resolves

variable {A B S : Type} {ops : SockaddrOps A} {addr : A → B} {fresh : Bytes → S}
  {port next : Nat} {new : List A} {head out : List (AddressNode A S)} {updated : Bool}
  {u : MergeUpstream A S} {w : ResolveUpstream B}

def AddressNode.resolved (addr : A → B) (a : AddressNode A S) : ResolvedAddress B :=
  ⟨addr a.sockaddr, a.resolveDeleted⟩

def MergeHostname.resolved (addr : A → B) (h : MergeHostname A S) : UpstreamHostname B :=
  ⟨h.needResolved, h.addressHead.map (AddressNode.resolved addr)⟩

/-- The upstream of the resolve rounds is this one, of which it knows less. -/
structure Resolves (addr : A → B) (u : MergeUpstream A S) (w : ResolveUpstream B) : Prop where
  hostnames : w.hostnames = u.hostnames.map (MergeHostname.resolved addr)
  resolveIndex : w.resolveIndex = u.resolveIndex
  resolveUpdated : w.resolveUpdated = u.resolveUpdated

theorem Resolves.getElem? (h : Resolves addr u w) (j : Nat) :
    w.hostnames[j]? = u.hostnames[j]?.map (MergeHostname.resolved addr) := by
  rw [h.hostnames, List.getElem?_map]

theorem Resolves.pick (h : Resolves addr u w) : w.pick = u.pick := by
  rw [ResolveUpstream.pick, MergeUpstream.pick, h.resolveIndex, h.hostnames, List.length_map]
  congr 1
  funext j
  rw [List.getElem?_map, Option.any_map]
  rfl

theorem Resolves.clearDeleted (h : Resolves addr u w) :
    Resolves addr u.clearDeleted w.clearDeleted := by
  refine ⟨?_, h.resolveIndex, h.resolveUpdated⟩
  rw [ResolveUpstream.clearDeleted, MergeUpstream.clearDeleted, h.hostnames]
  dsimp only
  rw [List.map_map, List.map_map]
  refine List.map_congr_left fun hostname _ => ?_
  simp only [Function.comp_apply, MergeHostname.resolved, clearMarked, List.filter_map]
  rfl

theorem Resolves.addressNum (h : Resolves addr u w) :
    w.clearDeleted.addressNum = 0 ↔
      u.clearDeleted.hostnames.flatMap MergeHostname.addressHead = [] := by
  have hnum : w.clearDeleted.addressNum = w.clearDeleted.addressHead.length := rfl
  rw [hnum, List.length_eq_zero_iff, ResolveUpstream.addressHead, h.clearDeleted.hostnames,
    List.flatMap_map, List.flatMap_eq_nil_iff, List.flatMap_eq_nil_iff]
  simp [MergeHostname.resolved]

/-- The end of a round is the same. -/
theorem Resolves.resolveHostname (h : Resolves addr u w) (closes : Nat → List Nat) :
    Resolves addr u.phlUpstreamResolveHostname (w.phlUpstreamResolveHostname closes) := by
  rw [MergeUpstream.phlUpstreamResolveHostname, ResolveUpstream.phlUpstreamResolveHostname, h.pick]
  cases u.pick with
  | some j => exact ⟨h.hostnames, rfl, h.resolveUpdated⟩
  | none =>
    have hend : Resolves addr { u with resolveIndex := 0 } { w with resolveIndex := 0 } :=
      ⟨h.hostnames, rfl, h.resolveUpdated⟩
    have hclear := hend.clearDeleted
    have hsame := h.resolveUpdated
    dsimp only
    by_cases hupdated : u.resolveUpdated = false
    · rw [if_pos hupdated, if_pos (hsame.trans hupdated)]
      exact hend
    · have hupdated' : ¬ w.resolveUpdated = false := fun hw => hupdated (hsame.symm.trans hw)
      rw [if_neg hupdated, if_neg hupdated']
      by_cases hnum : ({ w with resolveIndex := 0 } : ResolveUpstream B).clearDeleted.addressNum = 0
      · rw [if_pos hnum, if_pos (hend.addressNum.mp hnum)]
        exact hclear
      · rw [if_neg hnum, if_neg (mt hend.addressNum.mpr hnum)]
        exact ⟨hclear.hostnames, hclear.resolveIndex, rfl⟩

/-- When an answer comes for a hostname no address of its list is marked, whatever has been read
and done before. -/
theorem Resolves.live {addrcmp : B → B → Int} {index : Nat} {hostname : MergeHostname A S}
    (h : Resolves addr u w)
    (hreach : Reachable ResolveStart (ActStep (resolveStep addrcmp) fun _ _ => True) w)
    (hindex : u.resolveIndex = index + 1) (hhost : u.hostnames[index]? = some hostname) :
    NodesLive hostname.addressHead := by
  obtain ⟨hinv, -⟩ : ResolveInv (w.resolveIndex - 1) w ∧ w.resolveIndex ≤ w.hostnames.length :=
    hreach.invariant (fun _ => resolveStart_keeps) fun _ _ hs ⟨_, _, hstep⟩ =>
      resolveStep_keeps hs hstep
  have hclean := hinv.clean index (hostname.resolved addr) (by rw [h.getElem?, hhost]; rfl)
    (by rw [h.resolveIndex]; omega)
  exact fun a ha => hclean _ (List.mem_map_of_mem ha)

variable [LinearOrder B]

/-- The comparison of addresses without ports. -/
def addrOrder (b b' : B) : Int := if b < b' then -1 else if b = b' then 0 else 1

/-- The loops over the bytes compute the difference of the lists. -/
theorem Merged.resolveDiff_eq (laws : SockaddrLaws ops addr)
    (h : Merged ops fresh port next head new out updated) :
    resolveDiff addrOrder (head.map (AddressNode.resolved addr)) (new.map addr) =
      (out.map (AddressNode.resolved addr), updated) := by
  induction h with
  | done => rfl
  | @same _ address _ newaddr _ _ _ hcmp rest ih =>
    have heq := (laws.addrcmp_zero _ _).mp hcmp
    have hzero : addrOrder (addr newaddr) (address.resolved addr).sockaddr = 0 := by
      rw [addrOrder, heq]
      simp [AddressNode.resolved]
    rw [List.map_cons, List.map_cons, resolveDiff_same hzero, ih, List.map_cons]
  | @added _ address _ newaddr _ added _ _ hcmp hadd rest ih =>
    have hlt := (laws.addrcmp_neg _ _).mp hcmp
    obtain ⟨haddr, hnew, -⟩ := addressAdd_spec laws hadd
    have hneg : addrOrder (addr newaddr) (address.resolved addr).sockaddr < 0 := by
      rw [addrOrder, AddressNode.resolved, if_pos hlt]
      omega
    rw [List.map_cons] at ih
    rw [List.map_cons, List.map_cons, resolveDiff_added hneg, ih, List.map_cons,
      AddressNode.resolved, haddr, hnew]
  | @deleted _ address _ newaddr _ _ _ hcmp rest ih =>
    have hneg := mt (laws.addrcmp_neg newaddr address.sockaddr).mpr (by omega)
    have hzero := mt (laws.addrcmp_zero newaddr address.sockaddr).mpr (by omega)
    have hpos : 0 < addrOrder (addr newaddr) (address.resolved addr).sockaddr := by
      rw [addrOrder, AddressNode.resolved, if_neg hneg, if_neg hzero]
      omega
    rw [List.map_cons] at ih
    rw [List.map_cons, List.map_cons, resolveDiff_deleted hpos, ih, List.map_cons]
    rfl
  | restDeleted rest ih =>
    rw [List.map_nil] at ih
    rw [List.map_nil, List.map_cons, resolveDiff, List.takeWhile_nil, List.dropWhile_nil]
    dsimp only
    rw [ih]
    rfl
  | restAdded hadd rest ih =>
    obtain ⟨haddr, hnew, -⟩ := addressAdd_spec laws hadd
    rw [List.map_nil, resolveDiff] at ih
    rw [List.map_nil, List.map_cons, resolveDiff, List.map_cons, (Prod.mk.inj ih).1, List.map_cons,
      AddressNode.resolved, haddr, hnew]
    rfl

/-- What is read from the resolver does the same to both upstreams. -/
theorem Resolves.onRead {index : Nat} {hostname : MergeHostname A S} {stale : Bytes}
    (h : Resolves addr u w) (laws : SockaddrLaws ops addr) (hindex : u.resolveIndex = index + 1)
    (hhost : u.hostnames[index]? = some hostname)
    (hfamily : ∀ a ∈ new, ops.saFamily a ≠ .other)
    (hstale : new = [] → isErrorAnswer stale = false) (closes : Nat → List Nat) :
    ∃ v w', phlUpstreamResolveOnRead ops fresh (ops.answer new ++ stale) (ops.answer new).length u =
        some v ∧
      resolveStep addrOrder w (.read (.addresses (new.map addr)) closes) = some w' ∧
      Resolves addr v w' := by
  have hat : AnswerAt ops (ops.answer new ++ stale) (ops.answer new).length 0 new :=
    ⟨Nat.zero_add _, stale, rfl⟩
  obtain ⟨t, hrun, -, hnode, hmerged⟩ := mergeAnswer_merged fresh hostname.port u.nextPointer
    hostname.addressHead laws hfamily hat
  have htake := takeAnswer_eq fresh (ops.answer new).length laws hindex hhost hstale
  rw [hrun, Option.map_some, hnode, List.append_nil] at htake
  have hdiff : resolveDiff addrOrder (hostname.resolved addr).addressHead (new.map addr) =
      (t.before.map (AddressNode.resolved addr), t.resolveUpdated) := hmerged.resolveDiff_eq laws
  have htaken : Resolves addr
      { u with
        hostnames := u.hostnames.set index { hostname with addressHead := t.before }
        resolveUpdated := u.resolveUpdated || t.resolveUpdated }
      (w.takeAnswer addrOrder index (.addresses (new.map addr))) := by
    rw [ResolveUpstream.takeAnswer, h.getElem?, hhost, Option.map_some]
    dsimp only
    rw [hdiff]
    refine ⟨?_, h.resolveIndex, by rw [h.resolveUpdated]⟩
    rw [h.hostnames, List.map_set]
    rfl
  refine ⟨_, _, ?_, ?_, htaken.resolveHostname closes⟩
  · rw [phlUpstreamResolveOnRead, htake, Option.map_some]
  · rw [resolveStep, h.resolveIndex, hindex]

end Resolves

end Phorklift
