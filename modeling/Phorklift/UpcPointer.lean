import Phorklift.UpstreamClean

/-! What the content modules have in `ctx->upc`. -/

namespace Phorklift

open Transition PoolWorld

/-- A connection comes of what the load balance picks. -/
def Connects (p : Pool) : Picked → Prop
  | .address a connects => connects = true ∨ p.idle a ≠ []
  | _ => False

/-- What would be picked for a retry gives a connection. -/
def RetryConnects {D : Type} (w : PoolWorld D) : PoolAct → Prop
  | .write _ _ picked | .headers _ _ picked => Connects w.pool picked
  | _ => True

/-- `ctx->upc` is NULL or a connection that is open and the request's own. -/
def UpcLive {D : Type} (w : PoolWorld D) (r : Nat) : Prop :=
  (w.requests r).upc = .null ∨ ∃ c conn, (w.requests r).upc = .connection c ∧
    w.pool.conns c = some conn ∧ conn.request = some r

section UpcSteps

variable {D : Type} {conf : ContentConf D} {w w' : PoolWorld D} {p p' : Pool} {r c : Nat}
  {conn conn' : UpstreamConnection} {q q' : UpstreamRequest D} {log : List UpstreamRead}
  {picked : Picked} {io : StreamIo}

/-- No result that is not a connection is kept. -/
structure UpcInv (w : PoolWorld D) : Prop extends
    PoolHolds (fun _ => True) (fun _ _ _ => True) w where
  fine : ∀ r, (w.requests r).upc ≠ .ptrAgain ∧ (w.requests r).upc ≠ .ptrError

theorem fine_update (h : ∀ r, (w.requests r).upc ≠ .ptrAgain ∧ (w.requests r).upc ≠ .ptrError)
    (hq : q'.upc ≠ .ptrAgain ∧ q'.upc ≠ .ptrError) (r' : Nat) :
    (Function.update w.requests r q' r').upc ≠ .ptrAgain ∧
      (Function.update w.requests r q' r').upc ≠ .ptrError := by
  by_cases hr : r' = r
  · rw [hr, Function.update_self]
    exact hq
  · rw [Function.update_of_ne hr]
    exact h r'

theorem UpcInv.update (h : UpcInv w) (q' : UpstreamRequest D)
    (conn' : UpstreamConnection) (log : List UpstreamRead) (hupc : (w.requests r).upc = .connection c)
    (hconn : w.pool.conns c = some conn) (hupc' : q'.upc = .connection c)
    (haddress : conn'.address = conn.address) (hrequest : conn'.request = conn.request) :
    UpcInv ⟨w.pool.setConn c (some conn'), Function.update w.requests r q', log⟩ := by
  refine ⟨h.toPoolHolds.update q' log hupc hconn hupc' haddress ?_ trivial, fine_update h.fine ?_⟩
  · exact hrequest.trans (h.request_eq hconn hupc)
  · rw [hupc']
    exact ⟨nofun, nofun⟩

/-- A request that leaves its pointer as it is. -/
theorem UpcInv.touch (h : UpcInv w) (hupc : q'.upc = (w.requests r).upc) :
    UpcInv (w.setRequest r q') := by
  have hfine : q'.upc ≠ .ptrAgain ∧ q'.upc ≠ .ptrError := by
    rw [hupc]
    exact h.fine r
  by_cases hheld : ∃ c, (w.requests r).upc = .connection c
  · obtain ⟨c, hc⟩ := hheld
    refine ⟨h.toPoolHolds.setRequestOf hc (hupc.trans hc) fun _ _ _ => trivial, ?_⟩
    exact fine_update h.fine hfine
  · refine ⟨h.toPoolHolds.setRequest ?_, fine_update h.fine hfine⟩
    intro c hc
    exact hheld ⟨c, hupc.symm.trans hc⟩

theorem UpcInv.setConn (h : UpcInv w) (conn' : UpstreamConnection)
    (hconn : w.pool.conns c = some conn)
    (haddress : conn'.address = conn.address) (hrequest : conn'.request = conn.request) :
    UpcInv { w with pool := w.pool.setConn c (some conn') } :=
  ⟨h.toPoolHolds.setConn hconn haddress hrequest (fun _ => trivial) fun _ _ => trivial, h.fine⟩

theorem UpcInv.get (h : UpcInv w) (q' : UpstreamRequest D) (log : List UpstreamRead)
    (hget : w.pool.phlUpstreamGetConnection r picked = (p', .connection c))
    (hupc : q'.upc = .connection c) :
    UpcInv ⟨p', Function.update w.requests r q', log⟩ := by
  refine ⟨h.toPoolHolds.get hget hupc (fun _ _ => trivial) fun _ => trivial, fine_update h.fine ?_⟩
  rw [hupc]
  exact ⟨nofun, nofun⟩

theorem connects_get (h : Connects p picked) :
    ∃ p' c, p.phlUpstreamGetConnection r picked = (p', .connection c) := by
  cases picked with
  | again => cases h
  | error => cases h
  | address a connects =>
    simp only [Pool.phlUpstreamGetConnection]
    split
    next => exact ⟨_, _, rfl⟩
    next hnil =>
      rcases h with hconnects | hidle
      · rw [hconnects, if_pos rfl]
        exact ⟨_, _, rfl⟩
      · exact absurd hnil hidle

/-- A retry that gets a connection keeps it. -/
theorem fail_upc (conn : UpstreamConnection)
    (h : UpcInv { w with pool := w.pool.setConn c (some { conn with error := true }) })
    (hupc : (w.requests r).upc = .connection c) (hconnects : Connects w.pool picked)
    (hfail : w.phlUpstreamContentFail conf r c conn picked = some w') : UpcInv w' := by
  unfold PoolWorld.phlUpstreamContentFail at hfail
  dsimp only at hfail
  split at hfail
  next =>
    cases hfail
    exact h.touch rfl
  next =>
    obtain ⟨⟨got, upc⟩, hretry, hw'⟩ := Option.bind_eq_some_iff.mp hfail
    obtain ⟨p1, hleft, hidle, hget⟩ := h.toPoolHolds.retry
      { w.requests r with upc := .null } w.log hupc (Function.update_self c _ w.pool.conns) hretry
      nofun
    have hinv : UpcInv ⟨p1, Function.update w.requests r { w.requests r with upc := .null },
        w.log⟩ := ⟨hleft, fine_update h.fine ⟨nofun, nofun⟩⟩
    have hconnects' : Connects p1 picked := by
      cases picked with
      | again => exact hconnects
      | error => exact hconnects
      | address a connects =>
        rw [Connects, hidle]
        exact hconnects
    obtain ⟨p2, c', hgot⟩ := connects_get (r := r) hconnects'
    rw [hget] at hgot
    cases hgot
    cases hw'
    have hjoin := hinv.get { w.requests r with
      retries := (w.requests r).retries + 1
      state := (w.requests r).state.reset
      upc := .connection c'
      hasSentRequest := false } w.log hget rfl
    dsimp only at hjoin
    rw [Function.update_idem] at hjoin
    exact hjoin

theorem write_upc (h : UpcInv w) (hupc : (w.requests r).upc = .connection c)
    (hconn : w.pool.conns c = some conn) (hconnects : Connects w.pool picked)
    (hstep : writeStep conf w r io picked c conn = some w') : UpcInv w' := by
  cases io with
  | blocked =>
    cases hstep
    exact h
  | fails =>
    exact fail_upc { conn with closed := true } (h.setConn _ hconn rfl rfl) hupc hconnects hstep
  | bytes n =>
    obtain ⟨x, hwrite, hw'⟩ := Option.map_eq_some_iff.mp hstep
    rw [← hw']
    unfold phlUpstreamConnectionWrite at hwrite
    simp only [Option.ite_none_right_eq_some, Option.some.injEq] at hwrite
    obtain ⟨-, hx⟩ := hwrite
    refine h.update _ _ _ hupc hconn hupc ?_ ?_
    · rw [← hx]
    · rw [← hx]

theorem headers_upc (h : UpcInv w) (hupc : (w.requests r).upc = .connection c)
    (hconn : w.pool.conns c = some conn) (hconnects : Connects w.pool picked)
    (hstep : headersStep conf w r io picked c conn = some w') : UpcInv w' := by
  cases io with
  | blocked => cases hstep
  | fails =>
    simp only [headersStep] at hstep
    split at hstep
    next => cases hstep
    next =>
      exact fail_upc { conn with
        closed := true
        input := { conn.input with preread := none } } (h.setConn _ hconn rfl rfl) hupc hconnects
        hstep
  | bytes k =>
    obtain ⟨round, -, hw'⟩ := Option.bind_eq_some_iff.mp hstep
    dsimp only at hw'
    split at hw'
    next =>
      have hw := h.update { w.requests r with state := round.state }
        { conn with error := true, input := round.input } (w.log ++ [⟨r, round.got⟩]) hupc hconn hupc
        rfl rfl
      refine fail_upc { conn with input := round.input } (r := r) ?_ ?_ ?_ hw'
      · dsimp only [Pool.setConn]
        rw [Function.update_idem]
        exact hw
      · dsimp only
        rw [Function.update_self]
        exact hupc
      · exact hconnects
    next =>
      cases hw'
      exact h.update _ _ _ hupc hconn hupc rfl rfl

/-- A request that gives back what it has. -/
theorem ctxFree_upc {isDone : Bool} (h : UpcInv w)
    (hfree : w.phlUpstreamContentCtxFree conf r isDone = some w') (hupc : q'.upc = .null) :
    UpcInv (w'.setRequest r q') := by
  have hfine : q'.upc ≠ .ptrAgain ∧ q'.upc ≠ .ptrError := by
    rw [hupc]
    exact ⟨nofun, nofun⟩
  have hnone : ∀ c, q'.upc ≠ .connection c := by
    intro c
    rw [hupc]
    exact nofun
  unfold PoolWorld.phlUpstreamContentCtxFree at hfree
  split at hfree
  next =>
    cases hfree
    exact ⟨h.toPoolHolds.setRequest hnone, fine_update h.fine hfine⟩
  next c hold =>
    obtain ⟨pool, hrelease, hw'⟩ := Option.map_eq_some_iff.mp hfree
    obtain ⟨conn, hconn, -, -⟩ := h.held r c hold
    rw [← hw']
    exact ⟨h.toPoolHolds.release q' w.log hold hconn (fun _ _ _ => trivial) hrelease hnone,
      fine_update h.fine hfine⟩
  next => cases hfree

theorem bodyFails_upc (h : UpcInv w) (hfails : w.bodyFails conf r = some w') : UpcInv w' := by
  unfold PoolWorld.bodyFails at hfails
  dsimp only at hfails
  split at hfails
  next =>
    obtain ⟨w1, hfree, hw'⟩ := Option.map_eq_some_iff.mp hfails
    rw [← hw']
    exact ctxFree_upc h hfree rfl
  next =>
    cases hfails
    exact h.touch rfl

theorem body_upc {bufLen : Nat} (h : UpcInv w) (hupc : (w.requests r).upc = .connection c)
    (hconn : w.pool.conns c = some conn)
    (hstep : bodyStep conf w r bufLen io c conn = some w') : UpcInv w' := by
  cases io with
  | blocked => cases hstep
  | fails =>
    simp only [bodyStep] at hstep
    split at hstep
    next => cases hstep
    next =>
      exact bodyFails_upc (h.setConn { conn with
        closed := true
        input := { conn.input with preread := none } } hconn rfl rfl) hstep
  | bytes k =>
    simp only [bodyStep] at hstep
    have hw := h.update { w.requests r with
        state := (bodyRound conf (w.requests r).state conn.input bufLen k).state }
      { conn with input := (bodyRound conf (w.requests r).state conn.input bufLen k).input }
      (w.log ++ [⟨r, (bodyRound conf (w.requests r).state conn.input bufLen k).got⟩])
      hupc hconn hupc rfl rfl
    split at hstep
    next => exact bodyFails_upc hw hstep
    next =>
      cases hstep
      exact hw

theorem poolStep_upc {a : PoolAct} (h : UpcInv w) (hok : RetryConnects w a)
    (hstep : poolStep conf w a = some w') : UpcInv w' := by
  cases a with
  | start r reqLen retries =>
    simp only [poolStep] at hstep
    split at hstep
    next => cases hstep
    next =>
      cases hstep
      exact h.touch rfl
  | get r picked =>
    simp only [poolStep, Option.ite_none_right_eq_some] at hstep
    obtain ⟨-, hstep⟩ := hstep
    cases hgot : w.pool.phlUpstreamGetConnection r picked with
    | mk got upc =>
      rw [hgot] at hstep
      cases upc with
      | connection c =>
        cases hstep
        exact h.get _ _ hgot rfl
      | ptrError =>
        cases hstep
        exact h.touch rfl
      | null =>
        cases hstep
        exact h
      | ptrAgain =>
        cases hstep
        exact h
  | write r io picked =>
    simp only [poolStep, Option.ite_none_right_eq_some] at hstep
    obtain ⟨c, conn, hupc, hconn, hact⟩ := onConnection_some hstep.2
    exact write_upc h hupc hconn hok hact
  | headers r io picked =>
    simp only [poolStep, Option.ite_none_right_eq_some] at hstep
    obtain ⟨c, conn, hupc, hconn, hact⟩ := onConnection_some hstep.2
    exact headers_upc h hupc hconn hok hact
  | body r bufLen io =>
    simp only [poolStep, Option.ite_none_right_eq_some] at hstep
    obtain ⟨c, conn, hupc, hconn, hact⟩ := onConnection_some hstep.2
    exact body_upc h hupc hconn hact
  | breaks r =>
    simp only [poolStep, Option.ite_none_right_eq_some] at hstep
    obtain ⟨-, hw'⟩ := hstep
    cases hw'
    exact h.touch rfl
  | finish r =>
    simp only [poolStep, Option.ite_none_right_eq_some] at hstep
    obtain ⟨w1, hfree, hw'⟩ := Option.map_eq_some_iff.mp hstep.2
    rw [← hw']
    exact ctxFree_upc h hfree rfl
  | abort r =>
    simp only [poolStep, Option.ite_none_right_eq_some] at hstep
    obtain ⟨w1, hfree, hw'⟩ := Option.map_eq_some_iff.mp hstep.2
    rw [← hw']
    exact ctxFree_upc h hfree rfl
  | answer c data =>
    obtain ⟨conn, hconn, hw'⟩ := Option.map_eq_some_iff.mp hstep
    rw [← hw']
    exact h.setConn _ hconn rfl rfl
  | hangup c =>
    obtain ⟨conn, hconn, hw'⟩ := Option.map_eq_some_iff.mp hstep
    rw [← hw']
    exact h.setConn _ hconn rfl rfl
  | active c =>
    obtain ⟨conn, hconn, hw'⟩ := Option.bind_eq_some_iff.mp hstep
    simp only [Option.ite_none_right_eq_some] at hw'
    obtain ⟨hrequest, hw'⟩ := hw'
    cases hw'
    exact ⟨h.toPoolHolds.closeIdle hconn hrequest, h.fine⟩

theorem poolStart_upc (h : PoolStart w) : UpcInv w := by
  refine ⟨⟨⟨?_, ?_, ?_, ?_, ?_, fun c _ => h.conns c⟩, fun _ _ _ _ => trivial, ?_⟩, ?_⟩
  · simp [h.idle, h.conns]
  · simp [h.idle, h.conns]
  · simp [h.idle]
  · simp [h.idle]
  · simp [h.idle]
  · intro r c hupc
    rw [h.requests r] at hupc
    cases hupc
  · intro r
    rw [h.requests r]
    exact ⟨nofun, nofun⟩

/-- Where every retry gets a connection, the pointer is NULL or the request's own connection, and
freeing the context releases nothing else. -/
theorem upc_live (h : Reachable PoolStart (ActStep (poolStep conf) RetryConnects) w) :
    (∀ r, UpcLive w r) ∧
      ∀ r isDone, (w.phlUpstreamContentCtxFree conf r isDone).isSome := by
  have hinv : UpcInv w :=
    h.invariant (fun _ => poolStart_upc) fun _ _ hs ⟨_, hok, hstep⟩ => poolStep_upc hs hok hstep
  constructor
  · intro r
    cases hupc : (w.requests r).upc with
    | null => exact .inl hupc
    | ptrAgain => exact absurd hupc (hinv.fine r).1
    | ptrError => exact absurd hupc (hinv.fine r).2
    | connection c =>
      obtain ⟨conn, hconn, hrequest, -⟩ := hinv.held r c hupc
      exact .inr ⟨c, conn, hupc, hconn, hrequest⟩
  · intro r isDone
    unfold PoolWorld.phlUpstreamContentCtxFree
    split
    next => rfl
    next c hupc =>
      obtain ⟨conn, hconn, hrequest, -⟩ := hinv.held r c hupc
      rw [Option.isSome_map]
      refine hinv.pool.release_isSome hconn ?_
      rw [hrequest]
      exact nofun
    next hnull hconn =>
      cases hupc : (w.requests r).upc with
      | null => exact absurd hupc hnull
      | ptrAgain => exact absurd hupc (hinv.fine r).1
      | ptrError => exact absurd hupc (hinv.fine r).2
      | connection c => exact absurd hupc (hconn c)

end UpcSteps

/-- One retry is made. -/
def retryConf : ContentConf Unit := ⟨100, 1, [], phlRedisUpstreamOps⟩

def RetryConnects.check (w : PoolWorld Unit) : PoolAct → Bool
  | .write _ _ (.address a connects) | .headers _ _ (.address a connects) =>
    connects || !(w.pool.idle a).isEmpty
  | .write _ _ _ | .headers _ _ _ => false
  | _ => true

theorem retryConnects_of_check {w : PoolWorld Unit} {a : PoolAct}
    (h : RetryConnects.check w a = true) : RetryConnects w a := by
  have haddress : ∀ {picked : Picked}, (match picked with
      | .address a connects => connects || !(w.pool.idle a).isEmpty
      | _ => false) = true → Connects w.pool picked := by
    intro picked hpicked
    cases picked with
    | again => cases hpicked
    | error => cases hpicked
    | address a connects => simpa [Connects] using hpicked
  cases a with
  | write r io picked =>
    apply haddress
    cases picked <;> exact h
  | headers r io picked =>
    apply haddress
    cases picked <;> exact h
  | _ => trivial

/-- The first connection fails, and the retry makes another one. -/
theorem upc_live_retried : ∃ w,
    Reachable PoolStart (ActStep (poolStep retryConf) RetryConnects) w ∧
    (w.requests 0).upc = .connection 1 ∧ (w.pool.conns 0).isNone ∧
    ((∀ r, UpcLive w r) ∧
      ∀ r isDone, (w.phlUpstreamContentCtxFree retryConf r isDone).isSome) := by
  let acts : List PoolAct := [.start 0 5 0, .get 0 (.address 0 true),
    .write 0 .fails (.address 1 true)]
  have hrun : (runActs (poolStep retryConf) acts noConnections).map (fun w =>
      ((w.requests 0).upc, (w.pool.conns 0).isNone)) = some (.connection 1, true) := by
    decide
  obtain ⟨w, hw, hstate⟩ := Option.map_eq_some_iff.mp hrun
  simp only [Prod.mk.injEq] at hstate
  have hok : ActsMeet (poolStep retryConf) RetryConnects acts noConnections :=
    actsMeet_of_check (fun _ _ => retryConnects_of_check) (by decide)
  have hreach := (Reachable.start start_noConnections).runActs hok hw
  exact ⟨w, hreach, hstate.1, hstate.2, upc_live hreach⟩

/-- The retry gets `PHL_PTR_ERROR`, which stays in the context when it is freed. -/
theorem retry_keeps_error : ∃ w,
    Reachable PoolStart (ActStep (poolStep retryConf) fun _ _ => True) w ∧
    (w.requests 0).upc = .ptrError ∧ ¬UpcLive w 0 ∧
    w.phlUpstreamContentCtxFree retryConf 0 true = none := by
  let acts : List PoolAct := [.start 0 5 0, .get 0 (.address 0 true), .write 0 .fails .error]
  have hrun : (runActs (poolStep retryConf) acts noConnections).map (fun w =>
      (w.requests 0).upc) = some .ptrError := by
    decide
  obtain ⟨w, hw, hupc⟩ := Option.map_eq_some_iff.mp hrun
  have hreach := (Reachable.start start_noConnections).runActs
    (actsMeet_of_forall acts noConnections fun _ _ => trivial) hw
  refine ⟨w, hreach, hupc, ?_, ?_⟩
  · rintro (hnull | ⟨c, conn, hc, -⟩)
    · rw [hupc] at hnull
      cases hnull
    · rw [hupc] at hc
      cases hc
  · unfold PoolWorld.phlUpstreamContentCtxFree
    rw [hupc]

end Phorklift
