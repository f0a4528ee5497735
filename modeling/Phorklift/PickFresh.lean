import Phorklift.PoolLists
import Phorklift.RandomPick
import Phorklift.Resolve

/-! The tables of the load balancers while the addresses of an upstream come and go. -/

namespace Phorklift

open Transition

/-- A load balancer with its table of addresses. `Input` is what a pick reads besides; it is `none`
where no address comes of it. -/
structure Balancer where
  Ctx : Type
  Input : Type
  update : List UpstreamAddress → Ctx
  pick : Ctx → Input → Option (UpstreamAddress × Ctx)
  table : Ctx → List UpstreamAddress

/-- A table holds what it was made of, and a pick is one of the table. -/
structure Balancer.Lawful (b : Balancer) : Prop where
  update : ∀ {addresses a}, a ∈ b.table (b.update addresses) → a ∈ addresses
  picked : ∀ {ctx input a ctx'}, b.pick ctx input = some (a, ctx') → a ∈ b.table ctx
  kept : ∀ {ctx input a ctx' x}, b.pick ctx input = some (a, ctx') → x ∈ b.table ctx' →
    x ∈ b.table ctx

def randomBalancer : Balancer where
  Ctx := RandomCtx
  Input := Statuses × (Nat → ℚ)
  update := phlUpstreamRandomUpdate
  pick ctx input := phlUpstreamRandomPick input.1 ctx input.2
  table := RandomCtx.addresses

def hashBalancer (vhash64 : Bytes → Nat) (addressVnodes : Nat) : Balancer where
  Ctx := List Vnode
  Input := (UpstreamAddress → Bool) × Option Bytes
  update := phlUpstreamHashUpdate vhash64 addressVnodes
  pick vnodes input := (phlUpstreamHashPick vhash64 input.1 vnodes input.2).map fun a => (a, vnodes)
  table vnodes := vnodes.map (·.address)

section Tables

variable {ctx ctx' : RandomCtx} {a x : UpstreamAddress} {st : Statuses}

theorem exchange_mem {i j : Nat} (h : phlUpstreamRandomExchange ctx i j = some ctx')
    (hx : x ∈ ctx'.addresses) : x ∈ ctx.addresses := by
  unfold phlUpstreamRandomExchange at h
  split at h
  next =>
    cases h
    exact hx
  next =>
    split at h
    next =>
      split at h
      next addr1 addr2 h1 h2 =>
        cases h
        rcases List.mem_or_eq_of_mem_set hx with hx | rfl
        · rcases List.mem_or_eq_of_mem_set hx with hx | rfl
          · exact hx
          · exact List.mem_of_getElem? h2
        · exact List.mem_of_getElem? h1
      next => cases h
    next => cases h

theorem expire_mem {down : Nat} (h : phlUpstreamRandomExpire ctx down = some ctx')
    (hx : x ∈ ctx'.addresses) : x ∈ ctx.addresses :=
  have hsame := @exchange_mem { ctx with availableNum := ctx.availableNum - 1 } ctx' x
  hsame h hx

theorem recover_mem {recov : Nat} (h : phlUpstreamRandomRecover ctx recov = some ctx')
    (hx : x ∈ ctx'.addresses) : x ∈ ctx.addresses :=
  have hsame := @exchange_mem { ctx with availableNum := ctx.availableNum + 1 } ctx' x
  hsame h hx

/-- By induction on the picks from the available addresses. -/
theorem retry_mem {l : List UpstreamAddress} (fuel : Nat) {ctx : RandomCtx}
    {address : UpstreamAddress} {draws : Nat → ℚ} (hctx : ∀ x ∈ ctx.addresses, x ∈ l)
    (haddress : address ∈ l)
    (h : phlUpstreamRandomRetry st fuel ctx address draws = some (a, ctx')) :
    a ∈ l ∧ ∀ x ∈ ctx'.addresses, x ∈ l := by
  induction fuel generalizing ctx address draws with
  | zero => cases h
  | succ fuel ih =>
    unfold phlUpstreamRandomRetry at h
    split at h
    next =>
      cases h
      exact ⟨haddress, hctx⟩
    next =>
      obtain ⟨picked, -, h⟩ := Option.bind_eq_some_iff.mp h
      obtain ⟨again, hagain, h⟩ := Option.bind_eq_some_iff.mp h
      have hmem := hctx again (List.mem_of_getElem? hagain)
      split at h
      next =>
        cases h
        exact ⟨hmem, hctx⟩
      next =>
        obtain ⟨expired, hexpired, h⟩ := Option.bind_eq_some_iff.mp h
        exact ih (fun x hx => hctx x (expire_mem hexpired hx)) hmem h

theorem randomPick_mem {draws : Nat → ℚ} (h : phlUpstreamRandomPick st ctx draws = some (a, ctx')) :
    a ∈ ctx.addresses ∧ ∀ x ∈ ctx'.addresses, x ∈ ctx.addresses := by
  obtain ⟨picked, -, h⟩ := Option.bind_eq_some_iff.mp h
  obtain ⟨address, haddress, h⟩ := Option.bind_eq_some_iff.mp h
  have hmem := List.mem_of_getElem? haddress
  have hsame : ∀ x ∈ ctx.addresses, x ∈ ctx.addresses := fun _ hx => hx
  dsimp only at h
  split at h
  next =>
    split at h
    next =>
      obtain ⟨recovered, hrecovered, h⟩ := Option.bind_eq_some_iff.mp h
      cases h
      exact ⟨hmem, fun x hx => recover_mem hrecovered hx⟩
    next =>
      split at h
      next =>
        cases h
        exact ⟨hmem, hsame⟩
      next => exact retry_mem _ hsame hmem h
  next =>
    split at h
    next =>
      cases h
      exact ⟨hmem, hsame⟩
    next =>
      obtain ⟨expired, hexpired, h⟩ := Option.bind_eq_some_iff.mp h
      exact retry_mem _ (fun x hx => expire_mem hexpired hx) hmem h

theorem randomBalancer_lawful : randomBalancer.Lawful where
  update := fun hmem => hmem
  picked := fun h => (randomPick_mem h).1
  kept := fun h hx => (randomPick_mem h).2 _ hx

theorem hashPick_mem {vhash64 : Bytes → Nat} {pickable : UpstreamAddress → Bool}
    {vnodes : List Vnode} {key : Option Bytes}
    (h : phlUpstreamHashPick vhash64 pickable vnodes key = some a) :
    a ∈ vnodes.map (·.address) := by
  obtain ⟨key, -, h⟩ := Option.bind_eq_some_iff.mp h
  obtain ⟨vnode, -, h⟩ := Option.bind_eq_some_iff.mp h
  split at h
  next v hfind =>
    cases h
    exact List.mem_map.mpr ⟨v, List.mem_of_mem_drop (List.mem_of_find?_eq_some hfind), rfl⟩
  next =>
    split at h
    next v hfind =>
      cases h
      exact List.mem_map.mpr ⟨v, List.mem_of_mem_take (List.mem_of_find?_eq_some hfind), rfl⟩
    next =>
      obtain ⟨v, hv, rfl⟩ := Option.map_eq_some_iff.mp h
      exact List.mem_map.mpr ⟨v, List.mem_of_getElem? hv, rfl⟩

theorem hashBalancer_lawful (vhash64 : Bytes → Nat) (addressVnodes : Nat) :
    (hashBalancer vhash64 addressVnodes).Lawful where
  update := by
    intro addresses a ha
    obtain ⟨v, hv, rfl⟩ := List.mem_map.mp ha
    exact mem_update hv
  picked := by
    intro vnodes input a vnodes' h
    obtain ⟨x, hx, hmade⟩ := Option.map_eq_some_iff.mp h
    cases hmade
    exact hashPick_mem hx
  kept := by
    intro vnodes input a vnodes' x h hx
    obtain ⟨y, -, hmade⟩ := Option.map_eq_some_iff.mp h
    cases hmade
    exact hx

end Tables

/-- An upstream with its balancer. `next` is the `id` that the next address gets. -/
structure BalancedUpstream (b : Balancer) where
  resolve : ResolveUpstream UpstreamAddress
  ctx : b.Ctx
  deletedAddressDefer : List UpstreamAddress
  freed : List UpstreamAddress
  use : PoolUse
  next : Nat

inductive BalancedAct (b : Balancer)
  /-- `phl_upstream_resolve_timer_handler`; `order` is that of `address_head` -/
  | timer (order : List UpstreamAddress)
  /-- `phl_upstream_resolve_on_read` -/
  | read (answer : ResolveAnswer Bytes) (closes : Nat → List Nat) (order : List UpstreamAddress)
  /-- `phl_upstream_get_connection` -/
  | get (r : Nat) (linked : Bool) (input : b.Input) (connects : Bool)
  /-- `phl_upstream_retry_connection` -/
  | retry (old : Nat) (linked : Bool) (input : b.Input) (connects : Bool)
  /-- anything else that becomes of a connection -/
  | connection (act : PoolUseAct)
  /-- `phl_request_clear_stuff` -/
  | close (r : Nat)

namespace BalancedUpstream

variable {b : Balancer}

def addressHead (w : BalancedUpstream b) : List UpstreamAddress :=
  w.resolve.addressHead.map (·.sockaddr)

def unused (w : BalancedUpstream b) (a : UpstreamAddress) : Bool :=
  (w.use.pool.active a.id).isEmpty && (w.use.pool.idle a.id).isEmpty

def phlUpstreamAddressDeferFree (w : BalancedUpstream b) : BalancedUpstream b :=
  { w with
    deletedAddressDefer := w.deletedAddressDefer.filter fun a => !w.unused a
    freed := w.freed ++ w.deletedAddressDefer.filter w.unused }

/-- The next hostname, or the end of the round: the marked addresses are deleted, and the balancer
is updated if any are left. -/
def phlUpstreamResolveHostname (closes : Nat → List Nat) (order : List UpstreamAddress)
    (w : BalancedUpstream b) : Option (BalancedUpstream b) :=
  let resolve := w.resolve.phlUpstreamResolveHostname closes
  if w.resolve.pick ≠ none ∨ w.resolve.resolveUpdated = false then
    some { w with resolve := resolve }
  else
    let deleted := (w.resolve.addressHead.filter (·.resolveDeleted)).map (·.sockaddr)
    let w := { w with
      resolve := resolve
      deletedAddressDefer := w.deletedAddressDefer ++ deleted }
    if resolve.addressNum = 0 then some w
    else if order.Perm w.addressHead then some { w with ctx := b.update order }
    else none

/-- The addresses that an answer may add. -/
def allocated (next : Nat) (weight : ℚ) (new : List Bytes) : List UpstreamAddress :=
  new.mapIdx fun i sockaddr => ⟨next + i, sockaddr, weight⟩

/-- The pick of `phl_upstream_get_connection`, and what the balancer is left with. -/
def picked (w : BalancedUpstream b) (input : b.Input) (connects : Bool) : Picked × b.Ctx :=
  if w.resolve.addressNum = 0 then (.again, w.ctx)
  else
    match b.pick w.ctx input with
    | none => (.error, w.ctx)
    | some (a, ctx) => (.address a.id connects, ctx)

end BalancedUpstream

open BalancedUpstream

section Steps

variable {b : Balancer} (addrcmp : Bytes → Bytes → Int) (weight : Nat → ℚ) (idleMax : Nat)

def sockaddrCmp (n a : UpstreamAddress) : Int := addrcmp n.sockaddr a.sockaddr

def balancedStep (w : BalancedUpstream b) : BalancedAct b → Option (BalancedUpstream b)
  | .timer order =>
    if w.resolve.hostnames.any UpstreamHostname.needResolved then
      if w.resolve.resolveIndex ≠ 0 then some w
      else w.phlUpstreamAddressDeferFree.phlUpstreamResolveHostname (fun _ => []) order
    else none
  | .read answer closes order =>
    match w.resolve.resolveIndex with
    | 0 => none
    | index + 1 =>
      match answer with
      | .error => w.phlUpstreamResolveHostname closes order
      | .addresses new =>
        { w with
          resolve := w.resolve.takeAnswer (sockaddrCmp addrcmp) index
            (.addresses (allocated w.next (weight index) new))
          next := w.next + new.length : BalancedUpstream b }.phlUpstreamResolveHostname closes order
  | .get r linked input connects =>
    let picked := w.picked input connects
    (resolveStep (sockaddrCmp addrcmp) w.resolve (.get r linked)).bind fun resolve =>
      (poolUseStep idleMax w.use (.get r picked.1)).map fun use =>
        { w with resolve := resolve, ctx := picked.2, use := use }
  | .retry old linked input connects =>
    let picked := w.picked input connects
    (w.use.handed.find? fun x => x.1 = old).bind fun x =>
      (resolveStep (sockaddrCmp addrcmp) w.resolve (.get x.2 linked)).bind fun resolve =>
        (poolUseStep idleMax w.use (.retry old picked.1)).map fun use =>
          { w with resolve := resolve, ctx := picked.2, use := use }
  | .connection act =>
    match act with
    | .get _ _ => none
    | .retry _ _ => none
    | act => (poolUseStep idleMax w.use act).map fun use => { w with use := use }
  | .close r =>
    (resolveStep (sockaddrCmp addrcmp) w.resolve (.close r)).map fun resolve =>
      { w with resolve := resolve }

/-- What `phl_upstream_conf_post` leaves. -/
structure BalancedStart (w : BalancedUpstream b) : Prop where
  resolve : ResolveStart w.resolve
  ctx : ∃ order, order.Perm w.addressHead ∧ w.ctx = b.update order
  nodup : (w.addressHead.map (·.id)).Nodup
  bound : ∀ a ∈ w.addressHead, a.id < w.next
  deletedAddressDefer : w.deletedAddressDefer = []
  freed : w.freed = []
  use : PoolUseStart w.use

/-- The address is on `address_head`, and neither deleted nor freed. -/
structure Fresh (w : BalancedUpstream b) (a : UpstreamAddress) : Prop where
  head : a ∈ w.addressHead
  deferred : a.id ∉ w.deletedAddressDefer.map (·.id)
  freed : a.id ∉ w.freed.map (·.id)

/-- What `phl_upstream_get_connection` may pick is fresh, and what is freed has no connection. -/
structure PicksFresh (w : BalancedUpstream b) : Prop where
  fresh : w.resolve.addressNum ≠ 0 → ∀ input a ctx, b.pick w.ctx input = some (a, ctx) → Fresh w a
  unused : ∀ act w', balancedStep addrcmp weight idleMax w act = some w' →
    ∀ a ∈ w'.freed, a ∉ w.freed → w.use.pool.idle a.id = [] ∧ w.use.pool.active a.id = []
  held : ∀ c conn, w.use.pool.conns c = some conn → conn.address ∉ w.freed.map (·.id)

end Steps

section Runs

variable {b : Balancer} {addrcmp : Bytes → Bytes → Int} {weight : Nat → ℚ} {idleMax : Nat}
  {w w' : BalancedUpstream b} {act : BalancedAct b} {order : List UpstreamAddress}
  {closes : Nat → List Nat}

/-- All addresses there have been. -/
def BalancedUpstream.all (w : BalancedUpstream b) : List UpstreamAddress :=
  w.addressHead ++ (w.deletedAddressDefer ++ w.freed)

/-- The table has no address that is gone, except while `address_num` keeps it from being read. -/
structure BalancedInv (w : BalancedUpstream b) : Prop where
  nodup : (w.all.map (·.id)).Nodup
  bound : ∀ a ∈ w.all, a.id < w.next
  table : w.resolve.addressNum ≠ 0 → ∀ a ∈ b.table w.ctx, a ∈ w.addressHead
  use : PoolUseInv w.use
  held : ∀ c conn, w.use.pool.conns c = some conn →
    conn.address ∈ (w.addressHead ++ w.deletedAddressDefer).map (·.id)

theorem BalancedInv.of_perm (h : BalancedInv w) (hperm : w'.all.Perm w.all)
    (hnext : w'.next = w.next) :
    (w'.all.map (·.id)).Nodup ∧ ∀ a ∈ w'.all, a.id < w'.next := by
  refine ⟨(hperm.map _).nodup_iff.mpr h.nodup, fun a ha => ?_⟩
  rw [hnext]
  exact h.bound a (hperm.mem_iff.mp ha)

/-- A connection stands on one of the lists of its address. -/
theorem BalancedInv.not_unused (h : BalancedInv w) {c : Nat} {conn : UpstreamConnection}
    (hconn : w.use.pool.conns c = some conn) {a : UpstreamAddress} (ha : a.id = conn.address) :
    w.unused a = false := by
  unfold unused
  rw [ha]
  by_cases hrequest : conn.request = none
  · have hmem := (h.use.ok.mem_idle hconn).mpr ⟨rfl, hrequest⟩
    rw [List.isEmpty_eq_false_iff.mpr (List.ne_nil_of_mem hmem), Bool.and_false]
  · have hmem := (h.use.ok.mem_active hconn).mpr ⟨rfl, hrequest⟩
    rw [List.isEmpty_eq_false_iff.mpr (List.ne_nil_of_mem hmem), Bool.false_and]

theorem BalancedInv.deferFree (h : BalancedInv w) : BalancedInv w.phlUpstreamAddressDeferFree := by
  have hsplit := List.filter_append_perm (fun a => !w.unused a) w.deletedAddressDefer
  simp only [Bool.not_not] at hsplit
  have hperm : w.phlUpstreamAddressDeferFree.all.Perm w.all := by
    apply List.Perm.append_left
    have hfreed : (w.freed ++ w.deletedAddressDefer.filter w.unused).Perm
        (w.deletedAddressDefer.filter w.unused ++ w.freed) := List.perm_append_comm
    have hall := (hfreed.append_left (w.deletedAddressDefer.filter fun a => !w.unused a))
    refine hall.trans ?_
    rw [← List.append_assoc]
    exact hsplit.append_right _
  obtain ⟨hnodup, hbound⟩ := h.of_perm hperm rfl
  refine ⟨hnodup, hbound, h.table, h.use, fun c conn hconn => ?_⟩
  obtain ⟨a, ha, haddress⟩ := List.mem_map.mp (h.held c conn hconn)
  refine List.mem_map.mpr ⟨a, ?_, haddress⟩
  rcases List.mem_append.mp ha with ha | ha
  · exact List.mem_append_left _ ha
  · apply List.mem_append_right
    refine List.mem_filter.mpr ⟨ha, ?_⟩
    rw [h.not_unused hconn haddress]
    rfl

/-- The diff keeps all old addresses, marked or not, and adds some of the new ones. By induction on
the old ones. -/
theorem resolveDiff_addresses {A : Type} (addrcmp : A → A → Int) (old : List (ResolvedAddress A))
    (new : List A) : ∃ added, added.Sublist new ∧
      ((resolveDiff addrcmp old new).1.map (·.sockaddr)).Perm (old.map (·.sockaddr) ++ added) := by
  have hnew : ∀ l : List A,
      (l.map fun n => (⟨n, false⟩ : ResolvedAddress A)).map (·.sockaddr) = l := by
    intro l
    rw [List.map_map]
    exact List.map_id' l
  induction old generalizing new with
  | nil =>
    rw [resolveDiff, hnew]
    exact ⟨new, List.Sublist.refl new, List.Perm.refl new⟩
  | cons address node ih =>
    have hsplit := List.takeWhile_append_dropWhile
      (p := fun n => decide (addrcmp n address.sockaddr < 0)) (l := new)
    rw [resolveDiff]
    dsimp only
    generalize (new.takeWhile fun n => decide (addrcmp n address.sockaddr < 0)) = front at hsplit
    generalize (new.dropWhile fun n => decide (addrcmp n address.sockaddr < 0)) = back at hsplit
    rw [List.map_append, hnew]
    -- what is added before `address` goes behind the old addresses
    have hmoves : ∀ (rest : List A) (added : List A),
        rest.Perm (address.sockaddr :: (node.map (·.sockaddr) ++ added)) →
        (front ++ rest).Perm ((address :: node).map (·.sockaddr) ++ (front ++ added)) := by
      intro rest added hrest
      refine (hrest.append_left front).trans ?_
      rw [List.map_cons, List.cons_append]
      refine List.perm_middle.trans (List.Perm.cons _ ?_)
      rw [← List.append_assoc, ← List.append_assoc]
      exact List.perm_append_comm.append_right added
    split
    next =>
      obtain ⟨added, hsub, hperm⟩ := ih []
      rw [List.append_nil] at hsplit
      refine ⟨front ++ added, ?_, hmoves _ _ ?_⟩
      · rw [← hsplit, List.sublist_nil.mp hsub, List.append_nil]
      · rw [List.map_cons]
        exact List.Perm.cons _ hperm
    next n rest =>
      split
      next =>
        obtain ⟨added, hsub, hperm⟩ := ih rest
        refine ⟨front ++ added, ?_, hmoves _ _ ?_⟩
        · rw [← hsplit]
          exact (hsub.cons n).append_left front
        · rw [List.map_cons]
          exact List.Perm.cons _ hperm
      next =>
        obtain ⟨added, hsub, hperm⟩ := ih (n :: rest)
        refine ⟨front ++ added, ?_, hmoves _ _ ?_⟩
        · rw [← hsplit]
          exact hsub.append_left front
        · rw [List.map_cons]
          exact List.Perm.cons _ hperm

theorem takeAnswer_addresses {A : Type} (addrcmp : A → A → Int) (u : ResolveUpstream A)
    (index : Nat) (new : List A) : ∃ added, added.Sublist new ∧
      ((u.takeAnswer addrcmp index (.addresses new)).addressHead.map (·.sockaddr)).Perm
        (u.addressHead.map (·.sockaddr) ++ added) := by
  rw [ResolveUpstream.takeAnswer]
  cases hhost : u.hostnames[index]? with
  | none =>
    refine ⟨[], List.nil_sublist new, ?_⟩
    rw [List.append_nil]
  | some hostname =>
    obtain ⟨hlt, hget⟩ := List.getElem?_eq_some_iff.mp hhost
    obtain ⟨added, hsub, hperm⟩ := resolveDiff_addresses addrcmp hostname.addressHead new
    refine ⟨added, hsub, ?_⟩
    have hold : u.hostnames =
        u.hostnames.take index ++ hostname :: u.hostnames.drop (index + 1) := by
      rw [← hget, List.cons_getElem_drop_succ, List.take_append_drop]
    unfold ResolveUpstream.addressHead
    dsimp only
    rw [List.set_eq_take_append_cons_drop, if_pos hlt]
    conv => rhs; rw [hold]
    simp only [List.flatMap_append, List.flatMap_cons, List.map_append, List.append_assoc]
    apply List.Perm.append_left
    refine (hperm.append_right _).trans ?_
    rw [List.append_assoc]
    apply List.Perm.append_left
    exact List.perm_append_comm

/-- The addresses are as before, or the marked ones have gone. -/
theorem resolveHostname_addresses {A : Type} (closes : Nat → List Nat) (u : ResolveUpstream A) :
    if u.pick ≠ none ∨ u.resolveUpdated = false then
      (u.phlUpstreamResolveHostname closes).addressHead = u.addressHead ∧
        (u.phlUpstreamResolveHostname closes).addressNum = u.addressNum
    else (u.phlUpstreamResolveHostname closes).addressHead =
      u.addressHead.filter fun a => !a.resolveDeleted := by
  unfold ResolveUpstream.phlUpstreamResolveHostname
  cases hpick : u.pick with
  | some j =>
    rw [if_pos (.inl (Option.some_ne_none j))]
    exact ⟨rfl, rfl⟩
  | none =>
    dsimp only
    by_cases hupdated : u.resolveUpdated = false
    · rw [if_pos (.inr hupdated), if_pos hupdated]
      exact ⟨rfl, rfl⟩
    · rw [if_neg (by simpa using hupdated), if_neg hupdated]
      have hcleared := clearDeleted_addressHead (u := { u with resolveIndex := 0 })
      split
      next => exact hcleared
      next => exact hcleared

theorem BalancedInv.resolveHostname (hb : b.Lawful) (h : BalancedInv w)
    (hstep : w.phlUpstreamResolveHostname closes order = some w') :
    BalancedInv w' ∧ w'.freed = w.freed := by
  have haddresses := resolveHostname_addresses closes w.resolve
  unfold BalancedUpstream.phlUpstreamResolveHostname at hstep
  dsimp only at hstep
  split at hstep
  next hstays =>
    cases hstep
    rw [if_pos hstays] at haddresses
    have hhead : BalancedUpstream.addressHead
        { w with resolve := w.resolve.phlUpstreamResolveHostname closes } = w.addressHead :=
      congrArg (List.map ResolvedAddress.sockaddr) haddresses.1
    refine ⟨⟨?_, ?_, fun hnum => ?_, h.use, ?_⟩, rfl⟩
    · unfold BalancedUpstream.all
      rw [hhead]
      exact h.nodup
    · unfold BalancedUpstream.all
      rw [hhead]
      exact h.bound
    · rw [hhead]
      rw [haddresses.2] at hnum
      exact h.table hnum
    · rw [hhead]
      exact h.held
  next hends =>
    rw [if_neg hends] at haddresses
    have hsplit := (List.filter_append_perm (fun a => !a.resolveDeleted)
      w.resolve.addressHead).map (·.sockaddr)
    simp only [Bool.not_not, List.map_append] at hsplit
    rw [← haddresses] at hsplit
    -- the deleted addresses have gone from one list to the other
    have hkeeps : ∀ v : BalancedUpstream b,
        v.resolve = w.resolve.phlUpstreamResolveHostname closes →
        v.deletedAddressDefer = w.deletedAddressDefer ++
          (w.resolve.addressHead.filter (·.resolveDeleted)).map (·.sockaddr) →
        v.freed = w.freed → v.use = w.use → v.next = w.next →
        (v.resolve.addressNum ≠ 0 → ∀ a ∈ b.table v.ctx, a ∈ v.addressHead) → BalancedInv v := by
      intro v hresolve hdeferred hfreed huse hnext htable
      have hhead : v.addressHead =
          ((w.resolve.phlUpstreamResolveHostname closes).addressHead).map (·.sockaddr) := by
        unfold BalancedUpstream.addressHead
        rw [hresolve]
      have hlists : (v.addressHead ++ v.deletedAddressDefer).Perm
          (w.addressHead ++ w.deletedAddressDefer) := by
        rw [hhead, hdeferred]
        refine (List.perm_append_comm.append_left _).trans ?_
        rw [← List.append_assoc]
        exact hsplit.append_right _
      have hperm : v.all.Perm w.all := by
        unfold BalancedUpstream.all
        rw [← List.append_assoc, ← List.append_assoc, hfreed]
        exact hlists.append_right _
      obtain ⟨hnodup, hbound⟩ := h.of_perm hperm hnext
      refine ⟨hnodup, hbound, htable, ?_, fun c conn hconn => ?_⟩
      · rw [huse]
        exact h.use
      · rw [huse] at hconn
        exact (hlists.map _).mem_iff.mpr (h.held c conn hconn)
    split at hstep
    next hzero =>
      cases hstep
      exact ⟨hkeeps _ rfl rfl rfl rfl rfl (fun hnum => absurd hzero hnum), rfl⟩
    next =>
      obtain ⟨horder, hstep⟩ := Option.ite_none_right_eq_some.mp hstep
      cases hstep
      refine ⟨hkeeps _ rfl rfl rfl rfl rfl fun _ a ha => ?_, rfl⟩
      exact horder.mem_iff.mp (hb.update ha)

theorem allocated_id {next : Nat} {weight : ℚ} {new : List Bytes} {a : UpstreamAddress}
    (ha : a ∈ allocated next weight new) : next ≤ a.id ∧ a.id < next + new.length := by
  obtain ⟨i, hi, hget⟩ := List.mem_iff_getElem.mp ha
  unfold allocated at hi hget
  rw [List.length_mapIdx] at hi
  rw [List.getElem_mapIdx] at hget
  rw [← hget]
  show next ≤ next + i ∧ next + i < next + new.length
  omega

theorem allocated_nodup (next : Nat) (weight : ℚ) (new : List Bytes) :
    ((allocated next weight new).map (·.id)).Nodup := by
  have hids : (allocated next weight new).map (·.id) = List.range' next new.length := by
    unfold allocated
    apply List.ext_getElem
    · rw [List.length_map, List.length_mapIdx, List.length_range']
    · intro i hi hi'
      rw [List.getElem_map, List.getElem_mapIdx, List.getElem_range']
      show next + i = next + 1 * i
      omega
  rw [hids]
  exact List.nodup_range'

/-- What an answer adds is new. -/
theorem BalancedInv.takeAnswer (h : BalancedInv w) (index : Nat) (weight : ℚ) (new : List Bytes) :
    BalancedInv { w with
      resolve := w.resolve.takeAnswer (sockaddrCmp addrcmp) index
        (.addresses (allocated w.next weight new))
      next := w.next + new.length } := by
  obtain ⟨added, hsub, hperm⟩ := takeAnswer_addresses (sockaddrCmp addrcmp) w.resolve index
    (allocated w.next weight new)
  have hnum : (w.resolve.takeAnswer (sockaddrCmp addrcmp) index
      (.addresses (allocated w.next weight new))).addressNum = w.resolve.addressNum := by
    unfold ResolveUpstream.takeAnswer
    split
    next => rfl
    next => split <;> rfl
  have hall : (BalancedUpstream.all { w with
      resolve := w.resolve.takeAnswer (sockaddrCmp addrcmp) index
        (.addresses (allocated w.next weight new))
      next := w.next + new.length }).Perm (w.all ++ added) := by
    unfold BalancedUpstream.all
    refine (hperm.append_right _).trans ?_
    rw [List.append_assoc, List.append_assoc]
    exact List.perm_append_comm.append_left _
  have hmem : ∀ a ∈ w.addressHead, a ∈ BalancedUpstream.addressHead { w with
      resolve := w.resolve.takeAnswer (sockaddrCmp addrcmp) index
        (.addresses (allocated w.next weight new))
      next := w.next + new.length } := by
    intro a ha
    exact hperm.mem_iff.mpr (List.mem_append_left _ ha)
  refine ⟨?_, fun a ha => ?_, fun hne a ha => ?_, h.use, fun c conn hconn => ?_⟩
  · rw [(hall.map _).nodup_iff, List.map_append]
    refine List.nodup_append'.mpr ⟨h.nodup, (allocated_nodup _ _ _).sublist (hsub.map _), ?_⟩
    intro i hi hadded
    obtain ⟨a, ha, rfl⟩ := List.mem_map.mp hi
    obtain ⟨x, hx, hsame⟩ := List.mem_map.mp hadded
    have hold := h.bound a ha
    have hnew := (allocated_id (hsub.subset hx)).1
    omega
  · show a.id < w.next + new.length
    rcases List.mem_append.mp (hall.mem_iff.mp ha) with ha | ha
    · have hold := h.bound a ha
      omega
    · exact (allocated_id (hsub.subset ha)).2
  · have hnum' : w.resolve.addressNum ≠ 0 := by
      rw [← hnum]
      exact hne
    exact hmem a (h.table hnum' a ha)
  · obtain ⟨a, ha, haddress⟩ := List.mem_map.mp (h.held c conn hconn)
    refine List.mem_map.mpr ⟨a, ?_, haddress⟩
    rcases List.mem_append.mp ha with ha | ha
    · exact List.mem_append_left _ (hmem a ha)
    · exact List.mem_append_right _ ha

/-- The connections are at the addresses where they were; a new one is at the picked address. -/
def AddressesFrom (picked : Picked) (p p' : Pool) : Prop :=
  ∀ c conn', p'.conns c = some conn' →
    (∃ conn, p.conns c = some conn ∧ conn.address = conn'.address) ∨
      ∃ connects, picked = .address conn'.address connects

theorem AddressesFrom.refl (picked : Picked) (p : Pool) : AddressesFrom picked p p :=
  fun _ conn hconn => .inl ⟨conn, hconn, rfl⟩

/-- One connection has changed, or is new. -/
theorem AddressesFrom.update {picked : Picked} {p p' : Pool} {c : Nat}
    {x : Option UpstreamConnection} (hconns : p'.conns = Function.update p.conns c x)
    (hx : ∀ conn', x = some conn' →
      (∃ conn, p.conns c = some conn ∧ conn.address = conn'.address) ∨
        ∃ connects, picked = .address conn'.address connects) : AddressesFrom picked p p' := by
  intro c' conn' hconn'
  rw [hconns] at hconn'
  by_cases hc : c' = c
  · rw [hc, Function.update_self] at hconn'
    rw [hc]
    exact hx conn' hconn'
  · rw [Function.update_of_ne hc] at hconn'
    exact .inl ⟨conn', hconn', rfl⟩

theorem getConnection_addresses (p : Pool) (r : Nat) (picked : Picked) :
    AddressesFrom picked p (p.phlUpstreamGetConnection r picked).1 := by
  unfold Pool.phlUpstreamGetConnection
  cases picked with
  | again => exact .refl _ p
  | error => exact .refl _ p
  | address a connects =>
    dsimp only
    split
    next c rest _ =>
      refine AddressesFrom.update rfl fun conn' hconn' => ?_
      obtain ⟨conn, hconn, rfl⟩ := Option.map_eq_some_iff.mp hconn'
      exact .inl ⟨conn, hconn, rfl⟩
    next =>
      split
      next =>
        refine AddressesFrom.update rfl fun conn' hconn' => ?_
        cases hconn'
        exact .inr ⟨connects, rfl⟩
      next => exact .refl _ p

/-- The address that an act has picked. -/
def PoolUseAct.picked : PoolUseAct → Picked
  | .get _ picked => picked
  | .retry _ picked => picked
  | _ => .error

theorem poolUseStep_addresses {u u' : PoolUse} {act : PoolUseAct} (h : PoolUseInv u)
    (hstep : poolUseStep idleMax u act = some u') :
    AddressesFrom act.picked u.pool u'.pool := by
  cases act with
  | get r picked =>
    cases hstep
    rw [hand_pool]
    exact getConnection_addresses u.pool r picked
  | retry old picked =>
    obtain ⟨r, p1, got, -, hconns, -, hget, hu'⟩ := h.retry_cases hstep
    have hfrom := getConnection_addresses p1 r picked
    rw [hget] at hfrom
    rw [← hu', hand_pool]
    intro c' conn' hconn'
    refine (hfrom c' conn' hconn').imp_left fun hold => ?_
    obtain ⟨before, hbefore, hsame⟩ := hold
    rw [hconns] at hbefore
    by_cases hne : c' = old
    · rw [hne, Function.update_self] at hbefore
      cases hbefore
    · rw [Function.update_of_ne hne] at hbefore
      exact ⟨before, hbefore, hsame⟩
  | release c isClean =>
    obtain ⟨conn, p', hconn, hrelease, hu'⟩ := h.release_cases hstep
    obtain ⟨-, hspared, hreleased, -⟩ := h.ok.release hconn hrelease
    rw [← hu']
    intro c' conn' hconn'
    left
    by_cases hne : c' = c
    · rw [hne] at hconn' ⊢
      dsimp only at hconn'
      rw [hconn'] at hreleased
      cases hreleased with
      | idle => exact ⟨conn, hconn, rfl⟩
    · rcases hspared c' hne with hsame | ⟨hgone, -⟩
      · dsimp only at hconn'
        rw [hsame] at hconn'
        exact ⟨conn', hconn', rfl⟩
      · dsimp only at hconn'
        rw [hgone] at hconn'
        cases hconn'
  | fail c =>
    obtain ⟨conn, hconn, hu'⟩ := Option.map_eq_some_iff.mp hstep
    rw [← hu']
    refine AddressesFrom.update rfl fun conn' hconn' => ?_
    cases hconn'
    exact .inl ⟨conn, hconn, rfl⟩
  | hangup c =>
    obtain ⟨conn, hconn, hu'⟩ := Option.map_eq_some_iff.mp hstep
    rw [← hu']
    refine AddressesFrom.update rfl fun conn' hconn' => ?_
    cases hconn'
    exact .inl ⟨conn, hconn, rfl⟩
  | active c =>
    obtain ⟨conn, hconn, hu'⟩ := Option.map_eq_some_iff.mp hstep
    rw [← hu']
    split
    next =>
      refine AddressesFrom.update (Pool.close_conns hconn).1 fun conn' hconn' => ?_
      cases hconn'
    next => exact .refl _ _

/-- What is picked is on `address_head`, and the table that is left has nothing else. -/
theorem BalancedInv.picked (hb : b.Lawful) (h : BalancedInv w) (input : b.Input)
    (connects : Bool) :
    (∀ i tries, (w.picked input connects).1 = .address i tries →
      i ∈ w.addressHead.map (·.id)) ∧
    (w.resolve.addressNum ≠ 0 → ∀ a ∈ b.table (w.picked input connects).2, a ∈ w.addressHead) := by
  unfold BalancedUpstream.picked
  split
  next =>
    refine ⟨fun i tries hi => ?_, h.table⟩
    cases hi
  next hnum =>
    have htable := h.table hnum
    cases hpick : b.pick w.ctx input with
    | none =>
      refine ⟨fun i tries hi => ?_, h.table⟩
      cases hi
    | some x =>
      obtain ⟨a, ctx⟩ := x
      refine ⟨fun i tries hi => ?_, fun _ x hx => ?_⟩
      · cases hi
        exact List.mem_map.mpr ⟨a, htable a (hb.picked hpick), rfl⟩
      · exact htable x (hb.kept hpick hx)

/-- A request gets a connection, or waits. -/
theorem BalancedInv.acquire (h : BalancedInv w) {resolve : ResolveUpstream UpstreamAddress}
    {ctx : b.Ctx} {use : PoolUse} {act : PoolUseAct}
    (hstep : poolUseStep idleMax w.use act = some use)
    (hresolve : resolve.addressHead = w.resolve.addressHead ∧
      resolve.addressNum = w.resolve.addressNum)
    (hpicked : ∀ i tries, act.picked = .address i tries → i ∈ w.addressHead.map (·.id))
    (htable : w.resolve.addressNum ≠ 0 → ∀ a ∈ b.table ctx, a ∈ w.addressHead) :
    BalancedInv { w with resolve := resolve, ctx := ctx, use := use } := by
  have hfrom := poolUseStep_addresses h.use hstep
  have hhead : BalancedUpstream.addressHead
      { w with resolve := resolve, ctx := ctx, use := use } = w.addressHead := by
    unfold BalancedUpstream.addressHead
    dsimp only
    rw [hresolve.1]
  refine ⟨?_, ?_, fun hnum => ?_, poolUseStep_keeps h.use hstep, fun c conn' hconn' => ?_⟩
  · unfold BalancedUpstream.all
    rw [hhead]
    exact h.nodup
  · unfold BalancedUpstream.all
    rw [hhead]
    exact h.bound
  · rw [hhead]
    dsimp only at hnum
    rw [hresolve.2] at hnum
    exact htable hnum
  · rw [hhead]
    rcases hfrom c conn' hconn' with ⟨conn, hconn, hsame⟩ | ⟨connects, hnew⟩
    · rw [← hsame]
      exact h.held c conn hconn
    · rw [List.map_append]
      exact List.mem_append_left _ (hpicked _ _ hnew)

theorem resolveStep_waits {A : Type} {addrcmp : A → A → Int} {u u' : ResolveUpstream A} {r : Nat}
    {linked : Bool} (hstep : resolveStep addrcmp u (.get r linked) = some u') :
    u'.addressHead = u.addressHead ∧ u'.addressNum = u.addressNum := by
  unfold resolveStep at hstep
  dsimp only at hstep
  split at hstep
  next =>
    cases hstep
    exact ⟨rfl, rfl⟩
  next =>
    cases hstep
    exact ⟨rfl, rfl⟩

theorem balancedStep_keeps (hb : b.Lawful) (h : BalancedInv w)
    (hstep : balancedStep addrcmp weight idleMax w act = some w') :
    BalancedInv w' ∧ ∀ a ∈ w'.freed, a ∈ w.freed ∨ w.unused a = true := by
  have hsame : ∀ {v : BalancedUpstream b}, v.freed = w.freed →
      ∀ a ∈ v.freed, a ∈ w.freed ∨ w.unused a = true := by
    intro v hfreed a ha
    rw [hfreed] at ha
    exact .inl ha
  cases act with
  | timer order =>
    obtain ⟨-, hstep⟩ := Option.ite_none_right_eq_some.mp hstep
    split at hstep
    next =>
      cases hstep
      exact ⟨h, hsame rfl⟩
    next =>
      obtain ⟨hinv, hfreed⟩ := h.deferFree.resolveHostname hb hstep
      refine ⟨hinv, fun a ha => ?_⟩
      rw [hfreed] at ha
      rcases List.mem_append.mp ha with ha | ha
      · exact .inl ha
      · exact .inr (List.mem_filter.mp ha).2
  | read answer closes order =>
    unfold balancedStep at hstep
    dsimp only at hstep
    split at hstep
    next => cases hstep
    next index _ =>
      cases answer with
      | error =>
        obtain ⟨hinv, hfreed⟩ := h.resolveHostname hb hstep
        exact ⟨hinv, hsame hfreed⟩
      | addresses new =>
        obtain ⟨hinv, hfreed⟩ := (h.takeAnswer index (weight index) new).resolveHostname hb hstep
        exact ⟨hinv, hsame hfreed⟩
  | get r linked input connects =>
    obtain ⟨resolve, hresolve, hstep⟩ := Option.bind_eq_some_iff.mp hstep
    obtain ⟨use, huse, hw'⟩ := Option.map_eq_some_iff.mp hstep
    obtain ⟨hpicked, htable⟩ := h.picked hb input connects
    rw [← hw']
    exact ⟨h.acquire huse (resolveStep_waits hresolve) hpicked htable, hsame rfl⟩
  | retry old linked input connects =>
    obtain ⟨x, -, hstep⟩ := Option.bind_eq_some_iff.mp hstep
    obtain ⟨resolve, hresolve, hstep⟩ := Option.bind_eq_some_iff.mp hstep
    obtain ⟨use, huse, hw'⟩ := Option.map_eq_some_iff.mp hstep
    obtain ⟨hpicked, htable⟩ := h.picked hb input connects
    rw [← hw']
    exact ⟨h.acquire huse (resolveStep_waits hresolve) hpicked htable, hsame rfl⟩
  | connection other =>
    have huses : ∀ {use : PoolUse}, poolUseStep idleMax w.use other = some use →
        other.picked = .error → BalancedInv { w with use := use } := by
      intro use huse hnone
      refine h.acquire huse ⟨rfl, rfl⟩ (fun i tries hi => ?_) h.table
      rw [hnone] at hi
      cases hi
    cases other with
    | get r picked => cases hstep
    | retry old picked => cases hstep
    | release c isClean =>
      obtain ⟨use, huse, hw'⟩ := Option.map_eq_some_iff.mp hstep
      rw [← hw']
      exact ⟨huses huse rfl, hsame rfl⟩
    | fail c =>
      obtain ⟨use, huse, hw'⟩ := Option.map_eq_some_iff.mp hstep
      rw [← hw']
      exact ⟨huses huse rfl, hsame rfl⟩
    | hangup c =>
      obtain ⟨use, huse, hw'⟩ := Option.map_eq_some_iff.mp hstep
      rw [← hw']
      exact ⟨huses huse rfl, hsame rfl⟩
    | active c =>
      obtain ⟨use, huse, hw'⟩ := Option.map_eq_some_iff.mp hstep
      rw [← hw']
      exact ⟨huses huse rfl, hsame rfl⟩
  | close r =>
    cases hstep
    exact ⟨⟨h.nodup, h.bound, h.table, h.use, h.held⟩, hsame rfl⟩

theorem balancedStart_keeps (hb : b.Lawful) (h : BalancedStart w) : BalancedInv w := by
  have hall : w.all = w.addressHead := by
    unfold BalancedUpstream.all
    rw [h.deletedAddressDefer, h.freed, List.append_nil, List.append_nil]
  obtain ⟨order, horder, hctx⟩ := h.ctx
  refine ⟨?_, ?_, fun _ a ha => ?_, poolUseStart_keeps h.use, fun c conn hconn => ?_⟩
  · rw [hall]
    exact h.nodup
  · rw [hall]
    exact h.bound
  · rw [hctx] at ha
    exact horder.mem_iff.mp (hb.update ha)
  · rw [h.use.conns c] at hconn
    cases hconn

theorem BalancedInv.fresh (h : BalancedInv w) {a : UpstreamAddress} (ha : a ∈ w.addressHead) :
    Fresh w a := by
  have hnodup := h.nodup
  unfold BalancedUpstream.all at hnodup
  rw [List.map_append, List.map_append] at hnodup
  have hapart := (List.nodup_append'.mp hnodup).2.2 (List.mem_map.mpr ⟨a, ha, rfl⟩)
  exact ⟨ha, fun hin => hapart (List.mem_append_left _ hin),
    fun hin => hapart (List.mem_append_right _ hin)⟩

theorem picksFresh_of_lawful (hb : b.Lawful)
    (h : Reachable BalancedStart
      (ActStep (balancedStep addrcmp weight idleMax) fun _ _ => True) w) :
    PicksFresh addrcmp weight idleMax w := by
  have hinv : BalancedInv w :=
    h.invariant (fun _ => balancedStart_keeps hb) fun _ _ hs ⟨_, _, hstep⟩ =>
      (balancedStep_keeps hb hs hstep).1
  refine ⟨fun hnum input a ctx hpick => ?_, fun act w' hstep a ha hnew => ?_,
    fun c conn hconn hfreed => ?_⟩
  · exact hinv.fresh (hinv.table hnum a (hb.picked hpick))
  · have hunused := ((balancedStep_keeps hb hinv hstep).2 a ha).resolve_left hnew
    unfold BalancedUpstream.unused at hunused
    rw [Bool.and_eq_true, List.isEmpty_iff, List.isEmpty_iff] at hunused
    exact ⟨hunused.2, hunused.1⟩
  · have hnodup := hinv.nodup
    unfold BalancedUpstream.all at hnodup
    rw [← List.append_assoc, List.map_append] at hnodup
    exact (List.nodup_append'.mp hnodup).2.2 (hinv.held c conn hconn) hfreed

/-- In every run the picks of both balancers are fresh, and no address is freed that has a
connection. -/
theorem balancer_picks_fresh (vhash64 : Bytes → Nat) (addressVnodes : Nat)
    (addrcmp : Bytes → Bytes → Int) (weight : Nat → ℚ) (idleMax : Nat) :
    (∀ w : BalancedUpstream randomBalancer, Reachable BalancedStart
        (ActStep (balancedStep addrcmp weight idleMax) fun _ _ => True) w →
      PicksFresh addrcmp weight idleMax w) ∧
    ∀ w : BalancedUpstream (hashBalancer vhash64 addressVnodes), Reachable BalancedStart
        (ActStep (balancedStep addrcmp weight idleMax) fun _ _ => True) w →
      PicksFresh addrcmp weight idleMax w :=
  ⟨fun _ h => picksFresh_of_lawful randomBalancer_lawful h,
    fun _ h => picksFresh_of_lawful (hashBalancer_lawful vhash64 addressVnodes) h⟩

end Runs

/-- Of a hostname one address is known. -/
def oneAddress : BalancedUpstream (hashBalancer firstByte 1) where
  resolve := ⟨[⟨true, [⟨⟨0, [10], 1⟩, false⟩]⟩], 0, false, 1, [], []⟩
  ctx := (hashBalancer firstByte 1).update [⟨0, [10], 1⟩]
  deletedAddressDefer := []
  freed := []
  use := unusedPool
  next := 1

theorem start_oneAddress : BalancedStart oneAddress where
  resolve :=
    { live := by decide
      addressNum := rfl
      resolveIndex := rfl
      resolveUpdated := rfl
      waitHead := rfl }
  ctx := ⟨[⟨0, [10], 1⟩], List.Perm.refl _, rfl⟩
  nodup := by decide
  bound := by decide
  deletedAddressDefer := rfl
  freed := rfl
  use := start_unusedPool

def compareFirst (a b : Bytes) : Int := firstByte a - firstByte b

/-- The address is replaced while a request has a connection to it, and freed after the connection
is closed. -/
def replacedActs : List (BalancedAct (hashBalancer firstByte 1)) :=
  [.get 0 false (fun _ => true, some [10]) true, .timer [],
    .read (.addresses [[20]]) (fun _ => []) [⟨1, [20], 1⟩],
    .get 1 false (fun _ => true, some [10]) true, .timer [], .read .error (fun _ => []) [],
    .connection (.release 0 false), .timer []]

theorem balancer_picks_fresh_replaced :
    ∃ w : BalancedUpstream (hashBalancer firstByte 1),
      Reachable BalancedStart
        (ActStep (balancedStep compareFirst (fun _ => 1) 0) fun _ _ => True) w ∧
      w.addressHead = [⟨1, [20], 1⟩] ∧ w.freed = [⟨0, [10], 1⟩] ∧ w.use.pool.active 1 = [1] ∧
      PicksFresh compareFirst (fun _ => 1) 0 w := by
  have hrun : (runActs (balancedStep compareFirst (fun _ => 1) 0) replacedActs oneAddress).map
      (fun w => (w.addressHead, w.freed, w.use.pool.active 1)) =
        some ([⟨1, [20], 1⟩], [⟨0, [10], 1⟩], [1]) := by
    decide +kernel
  obtain ⟨w, hw, hfacts⟩ := Option.map_eq_some_iff.mp hrun
  simp only [Prod.mk.injEq] at hfacts
  have hreach := (Reachable.start start_oneAddress).runActs
    (actsMeet_of_forall _ _ fun _ _ => trivial) hw
  exact ⟨w, hreach, hfacts.1, hfacts.2.1, hfacts.2.2,
    (balancer_picks_fresh firstByte 1 compareFirst (fun _ => 1) 0).2 w hreach⟩

end Phorklift
