import Phorklift.PoolLists

/-! The connections that the content modules hold, and the ones that are idle. -/

namespace Phorklift

open PoolWorld

/-- The idle connections satisfy `Idle`; a connection in `ctx->upc` of a request is the request's
and satisfies `Held`. -/
structure PoolHolds {D : Type} (Idle : UpstreamConnection → Prop)
    (Held : Nat → UpstreamRequest D → UpstreamConnection → Prop) (w : PoolWorld D) : Prop where
  pool : w.pool.Ok
  idle : ∀ c conn, w.pool.conns c = some conn → conn.request = none → Idle conn
  held : ∀ r c, (w.requests r).upc = .connection c → ∃ conn, w.pool.conns c = some conn ∧
    conn.request = some r ∧ Held r (w.requests r) conn

section Holds

variable {D : Type} {Idle : UpstreamConnection → Prop}
  {Held : Nat → UpstreamRequest D → UpstreamConnection → Prop} {w w' : PoolWorld D} {p p' : Pool}
  {r c idleMax : Nat} {conn conn' : UpstreamConnection} {q q' : UpstreamRequest D}
  {log : List UpstreamRead} {picked : Picked} {isClean : Bool}

namespace PoolHolds

/-- A connection is held by the request that it belongs to. -/
theorem request_eq (h : PoolHolds Idle Held w) (hconn : w.pool.conns c = some conn)
    (hupc : (w.requests r).upc = .connection c) : conn.request = some r := by
  obtain ⟨conn', hconn', hrequest, -⟩ := h.held r c hupc
  rw [hconn] at hconn'
  cases hconn'
  exact hrequest

/-- The other requests keep their connections. -/
theorem others (h : PoolHolds Idle Held w) (hc : ∀ conn, w.pool.conns c = some conn →
      conn.request = none ∨ conn.request = some r)
    (hconns : ∀ c', c' ≠ c → p.conns c' = w.pool.conns c' ∨
      p.conns c' = none ∧ ∃ conn, w.pool.conns c' = some conn ∧ conn.request = none)
    (hself : ∀ c', q'.upc = .connection c' → ∃ conn, p.conns c' = some conn ∧
      conn.request = some r ∧ Held r q' conn) :
    ∀ r' c', (Function.update w.requests r q' r').upc = .connection c' →
      ∃ conn, p.conns c' = some conn ∧ conn.request = some r' ∧
        Held r' (Function.update w.requests r q' r') conn := by
  intro r' c' hupc
  by_cases hr : r' = r
  · rw [hr] at hupc ⊢
    rw [Function.update_self] at hupc ⊢
    exact hself c' hupc
  · rw [Function.update_of_ne hr] at hupc ⊢
    obtain ⟨conn, hconn, hrequest, hheld⟩ := h.held r' c' hupc
    have hne : c' ≠ c := by
      intro heq
      rw [heq] at hconn
      rcases hc conn hconn with hnone | hsome
      · rw [hrequest] at hnone
        cases hnone
      · rw [hrequest] at hsome
        cases hsome
        exact hr rfl
    rcases hconns c' hne with hsame | ⟨-, old, hold, hnone⟩
    · rw [hsame]
      exact ⟨conn, hconn, hrequest, hheld⟩
    · rw [hconn] at hold
      cases hold
      rw [hrequest] at hnone
      cases hnone

/-- A request that works on its connection. -/
theorem update (h : PoolHolds Idle Held w) (q' : UpstreamRequest D)
    (log : List UpstreamRead) (hupc : (w.requests r).upc = .connection c)
    (hconn : w.pool.conns c = some conn) (hupc' : q'.upc = .connection c)
    (haddress : conn'.address = conn.address) (hrequest : conn'.request = some r)
    (hheld : Held r q' conn') :
    PoolHolds Idle Held ⟨w.pool.setConn c (some conn'), Function.update w.requests r q', log⟩ := by
  have hold := h.request_eq hconn hupc
  have hself : (w.pool.setConn c (some conn')).conns c = some conn' := Function.update_self _ _ _
  have hother : ∀ c', c' ≠ c → (w.pool.setConn c (some conn')).conns c' = w.pool.conns c' :=
    fun c' hne => Function.update_of_ne hne _ _
  refine ⟨h.pool.setConn hconn haddress (by simp [hrequest, hold]), ?_, ?_⟩
  · intro c' x hx hnone
    dsimp only at hx
    by_cases hc : c' = c
    · rw [hc, hself] at hx
      cases hx
      rw [hrequest] at hnone
      cases hnone
    · rw [hother c' hc] at hx
      exact h.idle c' x hx hnone
  · refine h.others (c := c) ?_ ?_ ?_
    · intro x hx
      exact .inr (h.request_eq hx hupc)
    · exact fun c' hne => .inl (hother c' hne)
    · intro c' hc'
      rw [hupc'] at hc'
      cases hc'
      exact ⟨conn', hself, hrequest, hheld⟩

/-- A request that works on no connection. -/
theorem setRequest (h : PoolHolds Idle Held w) (hupc : ∀ c, q'.upc ≠ .connection c) :
    PoolHolds Idle Held (w.setRequest r q') := by
  refine ⟨h.pool, h.idle, ?_⟩
  intro r' c' hupc'
  by_cases hr : r' = r
  · rw [hr] at hupc'
    simp only [PoolWorld.setRequest, Function.update_self] at hupc'
    exact absurd hupc' (hupc c')
  · simp only [PoolWorld.setRequest, Function.update_of_ne hr] at hupc' ⊢
    exact h.held r' c' hupc'

/-- A request that works on its connection, and leaves it as it is. -/
theorem setRequestOf (h : PoolHolds Idle Held w) (hupc : (w.requests r).upc = .connection c)
    (hupc' : q'.upc = .connection c)
    (hheld : ∀ conn, w.pool.conns c = some conn → Held r (w.requests r) conn → Held r q' conn) :
    PoolHolds Idle Held (w.setRequest r q') := by
  obtain ⟨conn, hconn, hrequest, hold⟩ := h.held r c hupc
  have hupdate : PoolHolds Idle Held ⟨w.pool.setConn c (some conn),
      Function.update w.requests r q', w.log⟩ :=
    h.update q' w.log hupc hconn hupc' rfl hrequest (hheld conn hconn hold)
  have hself : w.pool.setConn c (some conn) = w.pool := by
    rw [Pool.setConn, ← hconn, Function.update_eq_self]
  rw [hself] at hupdate
  exact hupdate

/-- A change of a connection that its request does not see. -/
theorem setConn (h : PoolHolds Idle Held w) (hconn : w.pool.conns c = some conn)
    (haddress : conn'.address = conn.address) (hrequest : conn'.request = conn.request)
    (hidle : Idle conn → Idle conn')
    (hheld : ∀ r, Held r (w.requests r) conn → Held r (w.requests r) conn') :
    PoolHolds Idle Held { w with pool := w.pool.setConn c (some conn') } := by
  have hself : (w.pool.setConn c (some conn')).conns c = some conn' := Function.update_self _ _ _
  have hother : ∀ c', c' ≠ c → (w.pool.setConn c (some conn')).conns c' = w.pool.conns c' :=
    fun c' hne => Function.update_of_ne hne _ _
  refine ⟨h.pool.setConn hconn haddress (by rw [hrequest]), ?_, ?_⟩
  · intro c' x hx hnone
    dsimp only at hx
    by_cases hc : c' = c
    · rw [hc, hself] at hx
      cases hx
      rw [hrequest] at hnone
      exact hidle (h.idle c conn hconn hnone)
    · rw [hother c' hc] at hx
      exact h.idle c' x hx hnone
  · intro r c' hupc
    obtain ⟨x, hx, hxr, hxh⟩ := h.held r c' hupc
    dsimp only
    by_cases hc : c' = c
    · rw [hc, hconn] at hx
      cases hx
      rw [hc, hself]
      exact ⟨conn', rfl, hrequest.trans hxr, hheld r hxh⟩
    · rw [hother c' hc]
      exact ⟨x, hx, hxr, hxh⟩

theorem closeIdle (h : PoolHolds Idle Held w) (hconn : w.pool.conns c = some conn)
    (hrequest : conn.request = none) :
    PoolHolds Idle Held { w with pool := w.pool.phlUpstreamConnectionClose c } := by
  have hconns := (Pool.close_conns hconn).1
  refine ⟨h.pool.close hconn, ?_, ?_⟩
  · intro c' x hx hnone
    dsimp only at hx
    rw [hconns] at hx
    by_cases hc : c' = c
    · rw [hc, Function.update_self] at hx
      cases hx
    · rw [Function.update_of_ne hc] at hx
      exact h.idle c' x hx hnone
  · intro r c' hupc
    obtain ⟨x, hx, hxr, hxh⟩ := h.held r c' hupc
    have hne : c' ≠ c := by
      intro heq
      rw [heq, hconn] at hx
      cases hx
      rw [hrequest] at hxr
      cases hxr
    dsimp only
    rw [hconns, Function.update_of_ne hne]
    exact ⟨x, hx, hxr, hxh⟩

/-- A request that gives its connection back. -/
theorem release (h : PoolHolds Idle Held w) (q' : UpstreamRequest D)
    (log : List UpstreamRead) (hupc : (w.requests r).upc = .connection c)
    (hconn : w.pool.conns c = some conn)
    (hidle : conn.error = false → isClean = true → conn.closed = false →
      Idle { conn with request := none })
    (hrelease : w.pool.phlUpstreamReleaseConnection idleMax c isClean = some p')
    (hupc' : ∀ c, q'.upc ≠ .connection c) :
    PoolHolds Idle Held ⟨p', Function.update w.requests r q', log⟩ := by
  obtain ⟨hok, hspared, hreleased, -⟩ := h.pool.release hconn hrelease
  refine ⟨hok, ?_, ?_⟩
  · intro c' x hx hnone
    dsimp only at hx
    by_cases hc : c' = c
    · rw [hc] at hx
      rw [hx] at hreleased
      cases hreleased with
      | idle herror hclean hclosed => exact hidle herror hclean hclosed
    · rcases hspared c' hc with hsame | ⟨hgone, -⟩
      · rw [hsame] at hx
        exact h.idle c' x hx hnone
      · rw [hgone] at hx
        cases hx
  · refine h.others (c := c) ?_ hspared ?_
    · exact fun x hx => .inr (h.request_eq hx hupc)
    · exact fun c' hc' => absurd hc' (hupc' c')

/-- What a retry gets its connection from. -/
theorem retry {upc : UpcPointer} (h : PoolHolds Idle Held w) (q' : UpstreamRequest D)
    (log : List UpstreamRead)
    (hupc : (w.requests r).upc = .connection c) (hconn : w.pool.conns c = some conn)
    (hretry : w.pool.phlUpstreamRetryConnection idleMax c picked = some (p', upc))
    (hupc' : ∀ c, q'.upc ≠ .connection c) :
    ∃ p1, PoolHolds Idle Held ⟨p1, Function.update w.requests r q', log⟩ ∧
      p1.idle = w.pool.idle ∧ p1.phlUpstreamGetConnection r picked = (p', upc) := by
  obtain ⟨p1, hok, hconns, hlists, hget⟩ := h.pool.retry hconn (h.request_eq hconn hupc) hretry
  refine ⟨p1, ⟨hok, ?_, ?_⟩, hlists, hget⟩
  · intro c' x hx hnone
    dsimp only at hx
    rw [hconns] at hx
    by_cases hc : c' = c
    · rw [hc, Function.update_self] at hx
      cases hx
    · rw [Function.update_of_ne hc] at hx
      exact h.idle c' x hx hnone
  · refine h.others (c := c) ?_ ?_ ?_
    · exact fun x hx => .inr (h.request_eq hx hupc)
    · intro c' hne
      rw [hconns]
      exact .inl (Function.update_of_ne hne _ _)
    · exact fun c' hc' => absurd hc' (hupc' c')

/-- What holds of the connections of all requests but one. -/
theorem except (h : PoolHolds Idle Held w) (r : Nat) :
    PoolHolds Idle (fun r' q conn => r' ≠ r → Held r' q conn) w := by
  refine ⟨h.pool, h.idle, fun r' c hupc => ?_⟩
  obtain ⟨conn, hconn, hrequest, hheld⟩ := h.held r' c hupc
  exact ⟨conn, hconn, hrequest, fun _ => hheld⟩

theorem of_except (h : PoolHolds Idle (fun r' q conn => r' ≠ r → Held r' q conn) w)
    (hupc : ∀ c, (w.requests r).upc ≠ .connection c) : PoolHolds Idle Held w := by
  refine ⟨h.pool, h.idle, fun r' c hc => ?_⟩
  obtain ⟨conn, hconn, hrequest, hheld⟩ := h.held r' c hc
  refine ⟨conn, hconn, hrequest, hheld ?_⟩
  intro hr
  rw [hr] at hc
  exact hupc c hc

/-- A request that has no connection gets one. -/
theorem get (h : PoolHolds Idle Held w)
    (hget : w.pool.phlUpstreamGetConnection r picked = (p', .connection c))
    (hupc : q'.upc = .connection c)
    (hheld : ∀ conn, Idle conn → Held r q' { conn with request := some r })
    (hnew : ∀ a, Held r q' ⟨a, false, ⟨none, []⟩, 0, false, some r, none, []⟩) :
    PoolHolds Idle Held ⟨p', Function.update w.requests r q', log⟩ := by
  have hok : p'.Ok := h.pool.get hget
  obtain ⟨a, conn, hgets, hconns, -⟩ := Pool.get_connection h.pool hget
  have hfree : ∀ x, w.pool.conns c = some x → x.request = none := by
    intro x hx
    cases hgets with
    | reuse hconn _ hnone =>
      rw [hx] at hconn
      cases hconn
      exact hnone
    | new hnone =>
      rw [hx] at hnone
      cases hnone
  refine ⟨hok, ?_, ?_⟩
  · intro c' x hx hnone
    dsimp only at hx
    rw [hconns] at hx
    by_cases hc : c' = c
    · rw [hc, Function.update_self] at hx
      cases hx
      rw [hgets.request] at hnone
      cases hnone
    · rw [Function.update_of_ne hc] at hx
      exact h.idle c' x hx hnone
  · refine h.others (c := c) ?_ ?_ ?_
    · exact fun x hx => .inl (hfree x hx)
    · intro c' hne
      rw [hconns]
      exact .inl (Function.update_of_ne hne _ _)
    · intro c' hc'
      rw [hupc] at hc'
      cases hc'
      refine ⟨conn, by rw [hconns, Function.update_self], hgets.request, ?_⟩
      cases hgets with
      | reuse hconn _ hnone => exact hheld _ (h.idle c _ hconn hnone)
      | new => exact hnew a

end PoolHolds

theorem onConnection_some {act : Nat → UpstreamConnection → Option (PoolWorld D)}
    (h : onConnection w r act = some w') : ∃ c conn, (w.requests r).upc = .connection c ∧
      w.pool.conns c = some conn ∧ act c conn = some w' := by
  unfold onConnection at h
  split at h
  next c hupc =>
    obtain ⟨conn, hconn, hact⟩ := Option.bind_eq_some_iff.mp h
    exact ⟨c, conn, hupc, hconn, hact⟩
  next => cases h

end Holds

end Phorklift
