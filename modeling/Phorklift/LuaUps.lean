import Phorklift.PoolLists

/-! `phl.ups` of the Lua API: the handles of upstream connections and what collects them. -/

namespace Phorklift

open Transition

/-- The userdata of a connection. -/
structure UpsHandle where
  /-- the request whose script has called `getc` -/
  owner : Nat
  /-- `*udata`, `none` where it is NULL -/
  udata : Option Nat
  collected : Bool

/-- A release of a connection. -/
structure UpsRelease where
  /-- the handle that the connection was obtained with last, if it had not been released -/
  lease : Option Nat
  /-- `upc->request` -/
  request : Option Nat
  /-- the request has been freed -/
  freed : Bool
  deriving DecidableEq

structure UpsWorld where
  pool : Pool
  /-- the requests that have been freed -/
  freed : Nat → Bool
  handles : List UpsHandle
  /-- the handle that a connection was obtained with, until it is released -/
  lent : Nat → Option Nat
  releases : List UpsRelease
  /-- the handles that have been used after the release of their connection -/
  stale : List Nat
  /-- an assertion has failed, or freed memory has been used -/
  aborted : Bool

/-- The calls of the scripts, in any order, and of the garbage collector. -/
inductive UpsAct
  | getc (r : Nat) (picked : Picked)
  | send (h dataLen : Nat) (io : StreamIo)
  | recvSize (h size : Nat) (io : StreamIo)
  | keepalive (h : Nat)
  | close (h : Nat)
  /-- `__gc` -/
  | collect (h : Nat)
  /-- the request is freed -/
  | free (r : Nat)
  | hangup (c : Nat)
  /-- `phl_upstream_on_active` on an idle connection -/
  | active (c : Nat)

namespace UpsWorld

/-- `none` for `luaL_error`. -/
def phlUpsArgUpc (handle : UpsHandle) : Option Nat := handle.udata

/-- An operation on the connection by the handle. -/
def noteUse (w : UpsWorld) (h c : Nat) : UpsWorld :=
  if w.lent c = some h then w else { w with stale := w.stale ++ [h] }

/-- `phl_upstream_release_connection` by a handle. -/
def release (idleMax : Nat) (w : UpsWorld) (h c : Nat) (isClean : Bool) : UpsWorld :=
  let w := w.noteUse h c
  match w.pool.conns c, w.pool.phlUpstreamReleaseConnection idleMax c isClean with
  | some conn, some pool =>
    { w with
      pool := pool
      lent := Function.update w.lent c none
      releases := w.releases ++ [⟨w.lent c, conn.request, conn.request.any w.freed⟩] }
  | _, _ => { w with aborted := true }

/-- `phl_ups_get_connection`; the script is suspended where the upstream is not there yet. -/
def phlUpsGetConnection (w : UpsWorld) (r : Nat) (picked : Picked) : UpsWorld :=
  let got := w.pool.phlUpstreamGetConnection r picked
  match got.2 with
  | .connection c =>
    { w with
      pool := got.1
      handles := w.handles ++ [⟨r, some c, false⟩]
      lent := Function.update w.lent c (some w.handles.length) }
  | _ => w

/-- A read or a write on the connection of a handle. -/
def onConn (w : UpsWorld) (h c : Nat)
    (f : UpstreamConnection → Option UpstreamConnection) : Option UpsWorld :=
  let w := w.noteUse h c
  match w.pool.conns c with
  | none => some { w with aborted := true }
  | some conn => (f conn).map fun conn => { w with pool := w.pool.setConn c (some conn) }

/-- `phl_ups_send_resume` -/
def phlUpsSend (w : UpsWorld) (h c dataLen : Nat) (handle : UpsHandle) (io : StreamIo) :
    Option UpsWorld :=
  w.onConn h c fun conn =>
    match io with
    | .blocked => some conn
    | .fails => some { conn with closed := true }
    | .bytes n => (phlUpstreamConnectionWrite conn handle.owner dataLen n).map Prod.fst

/-- `phl_ups_recv_resume` -/
def phlUpsRecv (w : UpsWorld) (h c size : Nat) (io : StreamIo) : Option UpsWorld :=
  w.onConn h c fun conn =>
    match io with
    | .blocked => some { conn with input := (conn.input.read size 0).2 }
    | .fails => some { conn with closed := true, input := { conn.input with preread := none } }
    | .bytes k => some { conn with input := (conn.input.read size k).2 }

/-- A function of the API that is called with a handle. -/
def withHandle (w : UpsWorld) (h : Nat) (act : UpsHandle → Nat → Option UpsWorld) :
    Option UpsWorld :=
  w.handles[h]?.bind fun handle =>
    if handle.collected then none
    else match phlUpsArgUpc handle with
      | some c => act handle c
      | none => some w

end UpsWorld

open UpsWorld

def upsStep (idleMax : Nat) (w : UpsWorld) (a : UpsAct) : Option UpsWorld :=
  if w.aborted then none
  else match a with
    | .getc r picked => if w.freed r then none else some (w.phlUpsGetConnection r picked)
    | .send h dataLen io => w.withHandle h fun handle c => w.phlUpsSend h c dataLen handle io
    | .recvSize h size io => w.withHandle h fun _ c => w.phlUpsRecv h c size io
    | .keepalive h => w.withHandle h fun _ c => some (w.release idleMax h c true)
    | .close h => w.withHandle h fun _ c => some (w.release idleMax h c false)
    | .collect h =>
      w.withHandle h fun handle c => some (UpsWorld.release idleMax
        { w with handles := w.handles.set h { handle with collected := true } } h c false)
    | .free r => some { w with freed := Function.update w.freed r true }
    | .hangup c =>
      (w.pool.conns c).map fun conn =>
        { w with pool := w.pool.setConn c (some { conn with closed := true }) }
    | .active c =>
      (w.pool.conns c).bind fun conn =>
        if conn.request = none then
          some { w with pool := w.pool.phlUpstreamConnectionClose c }
        else none

structure UpsStart (w : UpsWorld) : Prop where
  conns : ∀ c, w.pool.conns c = none
  lists : ∀ a, w.pool.idle a = [] ∧ w.pool.active a = [] ∧ w.pool.idleNum a = 0
  handles : w.handles = []
  lent : ∀ c, w.lent c = none
  releases : w.releases = []
  stale : w.stale = []
  alive : w.aborted = false

/-- How often a connection has been released under the handle. -/
def UpsWorld.released (w : UpsWorld) (h : Nat) : Nat :=
  w.releases.countP fun e => decide (e.lease = some h)

/-- Each connection is released once, for the request that has obtained it, and is not used after
that. -/
structure ReleasedOnce (w : UpsWorld) : Prop where
  alive : w.aborted = false
  unused : w.stale = []
  once : ∀ h handle, w.handles[h]? = some handle →
    w.released h ≤ 1 ∧ (handle.collected → w.released h = 1)
  own : ∀ e ∈ w.releases, e.freed = false ∧ ∃ h handle, e.lease = some h ∧
    w.handles[h]? = some handle ∧ e.request = some handle.owner

/-- The script leaves the release to the collector, which comes while the request is still
there. -/
def LeftToCollector (w : UpsWorld) : UpsAct → Prop
  | .keepalive _ | .close _ => False
  | .collect h => ∀ handle, w.handles[h]? = some handle → w.freed handle.owner = false
  | _ => True

section Steps

variable {idleMax r c h : Nat} {w w' : UpsWorld} {picked : Picked} {handle : UpsHandle}
  {conn conn' : UpstreamConnection} {a : UpsAct}

structure UpsInv (w : UpsWorld) : Prop where
  ok : w.pool.Ok
  alive : w.aborted = false
  unused : w.stale = []
  held : ∀ h handle, w.handles[h]? = some handle → handle.collected = false →
    ∃ c conn, handle.udata = some c ∧ w.lent c = some h ∧ w.pool.conns c = some conn ∧
      conn.request = some handle.owner
  lent : ∀ c h, w.lent c = some h → ∃ handle, w.handles[h]? = some handle ∧
    handle.collected = false ∧ handle.udata = some c
  once : ∀ h handle, w.handles[h]? = some handle →
    w.released h = if handle.collected then 1 else 0
  own : ∀ e ∈ w.releases, e.freed = false ∧ ∃ h handle, e.lease = some h ∧
    w.handles[h]? = some handle ∧ e.request = some handle.owner

theorem UpsInv.releasedOnce (h : UpsInv w) : ReleasedOnce w := by
  refine ⟨h.alive, h.unused, fun k handle hget => ?_, h.own⟩
  rw [h.once k handle hget]
  split
  next => exact ⟨Nat.le_refl 1, fun _ => rfl⟩
  next hnot => exact ⟨Nat.zero_le 1, fun hcollected => absurd hcollected hnot⟩

/-- A connection that is not held by a request is not lent. -/
theorem UpsInv.not_lent (h : UpsInv w)
    (hfree : ∀ conn, w.pool.conns c = some conn → conn.request = none) : w.lent c = none := by
  cases hlent : w.lent c with
  | none => rfl
  | some k =>
    obtain ⟨handle, hget, hcollected, hudata⟩ := h.lent c k hlent
    obtain ⟨c', conn, hudata', -, hconn, hrequest⟩ := h.held k handle hget hcollected
    rw [hudata] at hudata'
    cases hudata'
    rw [hfree conn hconn] at hrequest
    cases hrequest

/-- No release is of a handle that is still to come. -/
theorem UpsInv.released_fresh (h : UpsInv w) : w.released w.handles.length = 0 := by
  unfold UpsWorld.released
  rw [List.countP_eq_zero]
  intro e he hlease
  obtain ⟨-, k, handle, hk, hget, -⟩ := h.own e he
  rw [of_decide_eq_true hlease] at hk
  cases hk
  obtain ⟨hlt, -⟩ := List.getElem?_eq_some_iff.mp hget
  exact Nat.lt_irrefl _ hlt

/-- The connections that are held stay as they are, but for what no handle sees. -/
theorem UpsInv.setPool {p : Pool} (h : UpsInv w) (hok : p.Ok)
    (hkept : ∀ c conn, w.pool.conns c = some conn → conn.request ≠ none →
      ∃ conn', p.conns c = some conn' ∧ conn'.request = conn.request) :
    UpsInv { w with pool := p } := by
  refine ⟨hok, h.alive, h.unused, fun k handle hget hcollected => ?_, h.lent, h.once, h.own⟩
  obtain ⟨c, conn, hudata, hlent, hconn, hrequest⟩ := h.held k handle hget hcollected
  obtain ⟨conn', hconn', hsame⟩ := hkept c conn hconn (by rw [hrequest]; exact nofun)
  exact ⟨c, conn', hudata, hlent, hconn', hsame.trans hrequest⟩

theorem UpsInv.setConn (h : UpsInv w) (hconn : w.pool.conns c = some conn)
    (haddress : conn'.address = conn.address) (hrequest : conn'.request = conn.request) :
    UpsInv { w with pool := w.pool.setConn c (some conn') } := by
  refine h.setPool (h.ok.setConn hconn haddress (by rw [hrequest])) fun c' old hold _ => ?_
  by_cases hc : c' = c
  · rw [hc] at hold ⊢
    rw [hconn] at hold
    cases hold
    exact ⟨conn', Function.update_self _ _ _, hrequest⟩
  · exact ⟨old, (Function.update_of_ne hc _ _).trans hold, rfl⟩

theorem UpsInv.closeIdle (h : UpsInv w) (hconn : w.pool.conns c = some conn)
    (hrequest : conn.request = none) :
    UpsInv { w with pool := w.pool.phlUpstreamConnectionClose c } := by
  refine h.setPool (h.ok.close hconn) fun c' old hold hheld => ?_
  have hne : c' ≠ c := by
    intro heq
    rw [heq, hconn] at hold
    cases hold
    exact hheld hrequest
  refine ⟨old, ?_, rfl⟩
  rw [(Pool.close_conns hconn).1, Function.update_of_ne hne]
  exact hold

theorem handles_kept {handles : List UpsHandle} {new : UpsHandle} {k : Nat}
    (hget : handles[k]? = some handle) : (handles ++ [new])[k]? = some handle := by
  obtain ⟨hlt, -⟩ := List.getElem?_eq_some_iff.mp hget
  rw [List.getElem?_append_left hlt]
  exact hget

theorem handles_concat {handles : List UpsHandle} {new : UpsHandle} {k : Nat}
    (hget : (handles ++ [new])[k]? = some handle) :
    handles[k]? = some handle ∨ k = handles.length ∧ handle = new := by
  by_cases hlt : k < handles.length
  · rw [List.getElem?_append_left hlt] at hget
    exact .inl hget
  · obtain ⟨hle, -⟩ := List.getElem?_eq_some_iff.mp hget
    rw [List.length_append, List.length_singleton] at hle
    have hk : k = handles.length := by omega
    rw [hk, List.getElem?_concat_length] at hget
    exact .inr ⟨hk, (Option.some.inj hget).symm⟩

theorem UpsInv.getc (h : UpsInv w) : UpsInv (w.phlUpsGetConnection r picked) := by
  unfold UpsWorld.phlUpsGetConnection
  cases hgot : w.pool.phlUpstreamGetConnection r picked with
  | mk p upc =>
    cases upc with
    | null => exact h
    | ptrAgain => exact h
    | ptrError => exact h
    | connection c =>
      obtain ⟨address, conn, hgets, hconns, -⟩ := Pool.get_connection h.ok hgot
      have hlent := h.not_lent fun _ hold => hgets.free hold
      have hnew : (w.handles ++ [(⟨r, some c, false⟩ : UpsHandle)])[w.handles.length]? =
          some ⟨r, some c, false⟩ := List.getElem?_concat_length
      refine ⟨h.ok.get hgot, h.alive, h.unused, ?_, ?_, ?_, ?_⟩
      · intro k handle hget hcollected
        rcases handles_concat hget with hget | ⟨hk, hhandle⟩
        · obtain ⟨c', old, hudata, hlent', hconn, hrequest⟩ := h.held k handle hget hcollected
          have hne : c' ≠ c := by
            intro heq
            rw [heq, hlent] at hlent'
            cases hlent'
          refine ⟨c', old, hudata, (Function.update_of_ne hne _ _).trans hlent', ?_, hrequest⟩
          rw [hconns, Function.update_of_ne hne]
          exact hconn
        · rw [hhandle, hk]
          refine ⟨c, conn, rfl, Function.update_self _ _ _, ?_, hgets.request⟩
          rw [hconns, Function.update_self]
      · intro c' k hlent'
        dsimp only at hlent'
        by_cases hc : c' = c
        · rw [hc, Function.update_self] at hlent'
          cases hlent'
          exact ⟨_, hnew, rfl, by rw [hc]⟩
        · rw [Function.update_of_ne hc] at hlent'
          obtain ⟨handle, hget, hkept⟩ := h.lent c' k hlent'
          exact ⟨handle, handles_kept hget, hkept⟩
      · intro k handle hget
        rcases handles_concat hget with hget | ⟨hk, hhandle⟩
        · exact h.once k handle hget
        · rw [hhandle, hk]
          exact h.released_fresh
      · intro e he
        obtain ⟨hfreed, k, handle, hlease, hget, hrequest⟩ := h.own e he
        exact ⟨hfreed, k, handle, hlease, handles_kept hget, hrequest⟩

/-- What a handle that has not been collected is for. -/
theorem withHandle_some {act : UpsHandle → Nat → Option UpsWorld} (h : UpsInv w)
    (hstep : w.withHandle r act = some w') :
    ∃ handle c conn, w.handles[r]? = some handle ∧ handle.collected = false ∧
      handle.udata = some c ∧ w.lent c = some r ∧ w.pool.conns c = some conn ∧
      conn.request = some handle.owner ∧ act handle c = some w' := by
  obtain ⟨handle, hget, hact⟩ := Option.bind_eq_some_iff.mp hstep
  obtain ⟨hcollected, hact⟩ := Option.ite_none_left_eq_some.mp hact
  have hopen : handle.collected = false := by simpa using hcollected
  obtain ⟨c, conn, hudata, hlent, hconn, hrequest⟩ := h.held r handle hget hopen
  rw [UpsWorld.phlUpsArgUpc, hudata] at hact
  exact ⟨handle, c, conn, hget, hopen, hudata, hlent, hconn, hrequest, hact⟩

theorem UpsInv.onConn {k : Nat} {f : UpstreamConnection → Option UpstreamConnection}
    (h : UpsInv w) (hlent : w.lent c = some k) (hconn : w.pool.conns c = some conn)
    (hf : ∀ conn', f conn = some conn' →
      conn'.address = conn.address ∧ conn'.request = conn.request)
    (hstep : w.onConn k c f = some w') : UpsInv w' := by
  unfold UpsWorld.onConn UpsWorld.noteUse at hstep
  rw [if_pos hlent] at hstep
  dsimp only at hstep
  rw [hconn] at hstep
  obtain ⟨conn', hconn', hw'⟩ := Option.map_eq_some_iff.mp hstep
  rw [← hw']
  obtain ⟨haddress, hrequest⟩ := hf conn' hconn'
  exact h.setConn hconn haddress hrequest

theorem released_append (w : UpsWorld) (e : UpsRelease) (pool : Pool) (lent : Nat → Option Nat)
    (handles : List UpsHandle) (k : Nat) :
    UpsWorld.released { w with
      pool := pool
      lent := lent
      handles := handles
      releases := w.releases ++ [e] } k =
        w.released k + if e.lease = some k then 1 else 0 := by
  unfold UpsWorld.released
  rw [List.countP_append, List.countP_singleton]
  simp

/-- The collector releases the connection of a handle. -/
theorem UpsInv.collect {k : Nat} (h : UpsInv w) (hget : w.handles[k]? = some handle)
    (hopen : handle.collected = false) (hudata : handle.udata = some c)
    (hlent : w.lent c = some k) (hconn : w.pool.conns c = some conn)
    (hrequest : conn.request = some handle.owner) (howner : w.freed handle.owner = false) :
    UpsInv (UpsWorld.release idleMax
      { w with handles := w.handles.set k { handle with collected := true } } k c false) := by
  obtain ⟨hlt, -⟩ := List.getElem?_eq_some_iff.mp hget
  have hself : (w.handles.set k { handle with collected := true })[k]? =
      some { handle with collected := true } := List.getElem?_set_self hlt
  have hother : ∀ k', k' ≠ k → (w.handles.set k { handle with collected := true })[k']? =
      w.handles[k']? := fun k' hne => List.getElem?_set_ne (Ne.symm hne)
  obtain ⟨pool, hpool⟩ : ∃ pool, w.pool.phlUpstreamReleaseConnection idleMax c false = some pool :=
    Option.isSome_iff_exists.mp (h.ok.release_isSome hconn (by rw [hrequest]; exact nofun))
  obtain ⟨hok, hspared, -, -⟩ := h.ok.release hconn hpool
  unfold UpsWorld.release UpsWorld.noteUse
  rw [if_pos hlent]
  dsimp only
  rw [hconn, hpool, hlent]
  dsimp only
  rw [hrequest]
  refine ⟨hok, h.alive, h.unused, ?_, ?_, ?_, ?_⟩
  · intro k' other hget' hcollected
    dsimp only at hget' ⊢
    have hne : k' ≠ k := by
      intro heq
      rw [heq, hself] at hget'
      cases hget'
      cases hcollected
    rw [hother k' hne] at hget'
    obtain ⟨c', conn', hudata', hlent', hconn', hrequest'⟩ := h.held k' other hget' hcollected
    have hc : c' ≠ c := by
      intro heq
      rw [heq, hlent] at hlent'
      exact hne (Option.some.inj hlent').symm
    refine ⟨c', conn', hudata', (Function.update_of_ne hc _ _).trans hlent', ?_, hrequest'⟩
    rcases hspared c' hc with hsame | ⟨-, old, hold, hnone⟩
    · exact hsame.trans hconn'
    · rw [hconn'] at hold
      cases hold
      rw [hrequest'] at hnone
      cases hnone
  · intro c' k' hlent'
    dsimp only at hlent' ⊢
    by_cases hc : c' = c
    · rw [hc, Function.update_self] at hlent'
      cases hlent'
    · rw [Function.update_of_ne hc] at hlent'
      obtain ⟨other, hget', hcollected, hudata'⟩ := h.lent c' k' hlent'
      have hne : k' ≠ k := by
        intro heq
        rw [heq, hget] at hget'
        cases hget'
        rw [hudata] at hudata'
        exact hc (Option.some.inj hudata').symm
      exact ⟨other, (hother k' hne).trans hget', hcollected, hudata'⟩
  · intro k' other hget'
    dsimp only at hget'
    rw [released_append]
    by_cases hk : k' = k
    · rw [hk] at hget' ⊢
      rw [hself] at hget'
      cases hget'
      rw [h.once k handle hget, hopen]
      simp
    · rw [hother k' hk] at hget'
      rw [h.once k' other hget', if_neg (fun heq => hk (Option.some.inj heq).symm), Nat.add_zero]
  · intro e he
    dsimp only at he ⊢
    rw [List.mem_append, List.mem_singleton] at he
    rcases he with he | rfl
    · obtain ⟨hfreed, k', other, hlease, hget', hrequest'⟩ := h.own e he
      refine ⟨hfreed, ?_⟩
      by_cases hk : k' = k
      · rw [hk, hget] at hget'
        cases hget'
        rw [hk] at hlease
        exact ⟨k, _, hlease, hself, hrequest'⟩
      · exact ⟨k', other, hlease, (hother k' hk).trans hget', hrequest'⟩
    · exact ⟨howner, k, _, rfl, hself, rfl⟩

theorem upsStep_keeps (h : UpsInv w) (hok : LeftToCollector w a)
    (hstep : upsStep idleMax w a = some w') : UpsInv w' := by
  unfold upsStep at hstep
  obtain ⟨-, hstep⟩ := Option.ite_none_left_eq_some.mp hstep
  cases a with
  | getc r picked =>
    obtain ⟨-, hstep⟩ := Option.ite_none_left_eq_some.mp hstep
    cases hstep
    exact h.getc
  | send k dataLen io =>
    obtain ⟨handle, c, conn, -, -, -, hlent, hconn, -, hact⟩ := withHandle_some h hstep
    refine h.onConn hlent hconn (fun conn' hconn' => ?_) hact
    cases io with
    | blocked =>
      cases hconn'
      exact ⟨rfl, rfl⟩
    | fails =>
      cases hconn'
      exact ⟨rfl, rfl⟩
    | bytes n =>
      obtain ⟨x, hwrite, hx⟩ := Option.map_eq_some_iff.mp hconn'
      unfold phlUpstreamConnectionWrite at hwrite
      obtain ⟨-, hwrite⟩ := Option.ite_none_right_eq_some.mp hwrite
      cases hwrite
      rw [← hx]
      exact ⟨rfl, rfl⟩
  | recvSize k size io =>
    obtain ⟨handle, c, conn, -, -, -, hlent, hconn, -, hact⟩ := withHandle_some h hstep
    refine h.onConn hlent hconn (fun conn' hconn' => ?_) hact
    cases io with
    | blocked =>
      cases hconn'
      exact ⟨rfl, rfl⟩
    | fails =>
      cases hconn'
      exact ⟨rfl, rfl⟩
    | bytes n =>
      cases hconn'
      exact ⟨rfl, rfl⟩
  | keepalive k => exact hok.elim
  | close k => exact hok.elim
  | collect k =>
    obtain ⟨handle, c, conn, hget, hopen, hudata, hlent, hconn, hrequest, hact⟩ :=
      withHandle_some h hstep
    cases hact
    exact h.collect hget hopen hudata hlent hconn hrequest (hok handle hget)
  | free r =>
    cases hstep
    exact ⟨h.ok, h.alive, h.unused, h.held, h.lent, h.once, h.own⟩
  | hangup c =>
    obtain ⟨conn, hconn, hw'⟩ := Option.map_eq_some_iff.mp hstep
    rw [← hw']
    exact h.setConn hconn rfl rfl
  | active c =>
    obtain ⟨conn, hconn, hw'⟩ := Option.bind_eq_some_iff.mp hstep
    obtain ⟨hrequest, hw'⟩ := Option.ite_none_right_eq_some.mp hw'
    cases hw'
    exact h.closeIdle hconn hrequest

theorem upsStart_inv (h : UpsStart w) : UpsInv w := by
  refine ⟨⟨?_, ?_, ?_, ?_, ?_, fun c _ => h.conns c⟩, h.alive, h.stale, ?_, ?_, ?_, ?_⟩
  · simp [h.lists, h.conns]
  · simp [h.lists, h.conns]
  · simp [h.lists]
  · simp [h.lists]
  · simp [h.lists]
  · simp [h.handles]
  · simp [h.lent]
  · simp [h.handles]
  · simp [h.releases]

/-- Scripts that leave the release to the collector have each connection released once, by the
request that has obtained it. -/
theorem released_once (h : Reachable UpsStart (ActStep (upsStep idleMax) LeftToCollector) w) :
    ReleasedOnce w := by
  have hinv : UpsInv w :=
    h.invariant (fun _ => upsStart_inv) fun _ _ hs ⟨_, hok, hstep⟩ => upsStep_keeps hs hok hstep
  exact hinv.releasedOnce

end Steps

def noHandles : UpsWorld :=
  ⟨⟨fun _ => none, 0, fun _ => [], fun _ => [], fun _ => 0⟩, fun _ => false, [], fun _ => none,
    [], [], false⟩

theorem start_noHandles : UpsStart noHandles :=
  ⟨fun _ => rfl, fun _ => ⟨rfl, rfl, rfl⟩, rfl, fun _ => rfl, rfl, rfl, rfl⟩

/-- A request asks, and its handle is collected. -/
theorem released_once_collected : ∃ w,
    Reachable UpsStart (ActStep (upsStep 100) LeftToCollector) w ∧
      w.releases = [⟨some 0, some 0, false⟩] ∧ ReleasedOnce w := by
  have hreach : Reachable UpsStart (ActStep (upsStep 100) LeftToCollector) _ :=
    .next (.next (.next (.start start_noHandles) ⟨.getc 0 (.address 0 true), trivial, rfl⟩)
      ⟨.send 0 5 (.bytes 5), trivial, rfl⟩) ⟨.collect 0, fun _ _ => rfl, rfl⟩
  exact ⟨_, hreach, rfl, released_once hreach⟩

/-- A connection that was kept alive is closed under the next request when the handle of the first
is collected; and one that was closed is used again. -/
theorem released_twice :
    (∃ w, Reachable UpsStart (ActStep (upsStep 100) fun _ _ => True) w ∧
      w.releases = [⟨some 0, some 0, false⟩, ⟨some 1, some 1, false⟩] ∧ w.stale = [0] ∧
      ¬ReleasedOnce w) ∧
    ∃ w, Reachable UpsStart (ActStep (upsStep 100) fun _ _ => True) w ∧ w.aborted = true ∧
      ¬ReleasedOnce w := by
  constructor
  · refine ⟨_, .next (.next (.next (.next (.start start_noHandles)
      ⟨.getc 0 (.address 0 true), trivial, rfl⟩)
      ⟨.keepalive 0, trivial, rfl⟩) ⟨.getc 1 (.address 0 false), trivial, rfl⟩)
      ⟨.collect 0, trivial, rfl⟩, rfl, rfl, fun h => ?_⟩
    exact List.cons_ne_nil _ _ h.unused
  · refine ⟨_, .next (.next (.next (.start start_noHandles)
      ⟨.getc 0 (.address 0 true), trivial, rfl⟩)
      ⟨.close 0, trivial, rfl⟩) ⟨.collect 0, trivial, rfl⟩, rfl, fun h => ?_⟩
    exact Bool.noConfusion h.alive

end Phorklift
