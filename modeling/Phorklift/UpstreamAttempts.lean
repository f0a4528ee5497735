import Phorklift.Proxy
import Phorklift.UpcPointer

/-! What a step of the upstream pool does to a request, and the connections that it is sent on. -/

namespace Phorklift

open Transition PoolWorld

section Moves

variable {D : Type} {conf : ContentConf D} {w w' : PoolWorld D} {r c : Nat}
  {conn : UpstreamConnection} {q q' : UpstreamRequest D} {picked : Picked} {io : StreamIo}

/-- The end of `phl_upstream_content_fail` where there is no retry. -/
def ContentState.noRetry (s : ContentState D) : ContentState D :=
  if s.resp.statusCode ≠ 0 then { s with phase := .body, originalLength := s.resp.contentLength }
  else { s with phase := .over, resp := { s.resp with statusCode := 502 } }

/-- What the handlers make of `r->resp`. -/
inductive RespFrom (conf : ContentConf D) : UpstreamResp D → UpstreamResp D → Prop
  | same (resp : UpstreamResp D) : RespFrom conf resp resp
  | parsed {parse : UpstreamResp D → Bytes → UpstreamResp D × Int × Bool} (resp : UpstreamResp D)
      (data : Bytes) : conf.ops.parseResponseHeaders = some parse →
      RespFrom conf resp (parse resp data).1
  | built (resp : UpstreamResp D) (data : Bytes) (bufLen : Nat) :
      RespFrom conf resp (conf.ops.build resp data bufLen).1
  | coded (resp : UpstreamResp D) {code : Int} : code ≠ 0 →
      RespFrom conf resp { resp with statusCode := code }
  | reset (s : ContentState D) : RespFrom conf s.resp s.reset.resp
  | cleared (resp : UpstreamResp D) : RespFrom conf resp { resp with data := none }
  | trans {x y z : UpstreamResp D} : RespFrom conf x y → RespFrom conf y z → RespFrom conf x z

/-- What the step `a` does to the request `r`, where it does not start it. -/
inductive RequestMove (conf : ContentConf D) (w : PoolWorld D) (a : PoolAct) (r : Nat) :
    UpstreamRequest D → Prop
  | same : (∀ io picked, a ≠ .headers r io picked) → RequestMove conf w a r (w.requests r)
  | connects {picked : Picked} (c : Nat) : a = .get r picked → (w.requests r).started →
      (w.requests r).upc = .null → RequestMove conf w a r { w.requests r with upc := .connection c }
  | sends {io : StreamIo} {picked : Picked} (sent : Bool) : a = .write r io picked →
      (w.requests r).hasSentRequest = false →
      RequestMove conf w a r { w.requests r with hasSentRequest := sent }
  | reads {k c : Nat} {picked : Picked} {conn : UpstreamConnection} {round : ContentRound D} :
      a = .headers r (.bytes k) picked → (w.requests r).hasSentRequest →
      (w.requests r).state.phase = .headers → (w.requests r).upc = .connection c →
      w.pool.conns c = some conn →
      headersRound conf (w.requests r).state conn.input k = some round → round.failed = false →
      RequestMove conf w a r { w.requests r with state := round.state }
  | retries (state : ContentState D) (upc : UpcPointer) (sent : Bool) :
      (w.requests r).upc ≠ .null → (w.requests r).state.phase = .headers →
      0 ≤ (w.requests r).retries → (w.requests r).retries < conf.maxRetries →
      RespFrom conf (w.requests r).state.resp state.resp →
      (state.phase = .headers → state.resp.statusCode = 0 ∧ sent = false) →
      RequestMove conf w a r { w.requests r with
        retries := (w.requests r).retries + 1
        state := state
        upc := upc
        hasSentRequest := sent }
  | leaves {q : UpstreamRequest D} : q.started = (w.requests r).started →
      q.state.phase ≠ .headers → (q.upc = (w.requests r).upc ∨ q.upc = .null) →
      ((w.requests r).retries < 0 → q.retries < 0) →
      RespFrom conf (w.requests r).state.resp q.state.resp → RequestMove conf w a r q
  | aborts {q : UpstreamRequest D} : q.started = false → q.upc = .null →
      q.hasSentRequest = false → q.state.resp.statusCode = 0 →
      RespFrom conf (w.requests r).state.resp q.state.resp → RequestMove conf w a r q

theorem reset_statusCode (s : ContentState D) : s.reset.resp.statusCode = 0 := by
  unfold ContentState.reset
  split
  next h => exact h
  next => rfl

theorem noRetry_phase (s : ContentState D) : s.noRetry.phase ≠ .headers := by
  unfold ContentState.noRetry
  split
  next => exact nofun
  next => exact nofun

theorem noRetry_resp (s : ContentState D) : RespFrom conf s.resp s.noRetry.resp := by
  unfold ContentState.noRetry
  split
  next => exact .same _
  next => exact .coded _ (by decide)

theorem headersRound_resp {s : ContentState D} {i : UpstreamInput} {k : Nat}
    {round : ContentRound D} (h : headersRound conf s i k = some round) :
    RespFrom conf s.resp round.state.resp := by
  unfold headersRound at h
  split at h
  next =>
    cases h
    exact .coded _ (by decide)
  next parse hparse =>
    dsimp only at h
    split at h
    next =>
      cases h
      exact .same _
    next =>
      split at h
      next =>
        cases h
        exact .parsed _ _ hparse
      next =>
        obtain ⟨left, -, hround⟩ := Option.map_eq_some_iff.mp h
        rw [← hround]
        split
        next => exact .parsed _ _ hparse
        next =>
          split
          next => exact .parsed _ _ hparse
          next => exact .parsed _ _ hparse

theorem bodyEnd_phase (s : ContentState D) (made : Bytes) (len : Nat) :
    (bodyEnd s made len).phase ≠ .headers := by
  unfold bodyEnd
  dsimp only
  split
  next =>
    split
    next => exact nofun
    next => exact nofun
  next =>
    split
    next => exact nofun
    next => exact nofun

theorem bodyRound_leaves (conf : ContentConf D) {s : ContentState D}
    (hphase : s.phase ≠ .headers) (i : UpstreamInput) (bufLen k : Nat) :
    (bodyRound conf s i bufLen k).state.phase ≠ .headers ∧
      RespFrom conf s.resp (bodyRound conf s i bufLen k).state.resp := by
  unfold bodyRound
  split
  next => exact ⟨nofun, .same _⟩
  next =>
    split
    next => exact ⟨bodyEnd_phase _ _ _, .same _⟩
    next =>
      dsimp only
      split
      next => exact ⟨hphase, .same _⟩
      next =>
        split
        next => exact ⟨hphase, .built _ _ _⟩
        next =>
          split
          next => exact ⟨hphase, .built _ _ _⟩
          next => exact ⟨bodyEnd_phase _ _ _, .built _ _ _⟩

/-- What `phl_upstream_content_fail` does: there is no retry, or there is one, which gets a
connection or an error. -/
theorem fail_cases (h : w.phlUpstreamContentFail conf r c conn picked = some w') :
    ∃ q', w'.requests = Function.update w.requests r q' ∧
      (((w.requests r).retries < 0 ∨ conf.maxRetries ≤ (w.requests r).retries) ∧
          q' = { w.requests r with
            retries := if (w.requests r).retries < 0 then (w.requests r).retries
              else (w.requests r).retries + 1
            state := (w.requests r).state.noRetry } ∨
        0 ≤ (w.requests r).retries ∧ (w.requests r).retries < conf.maxRetries ∧
          ∃ state upc sent, RespFrom conf (w.requests r).state.resp state.resp ∧
            (state.phase = .headers → state.resp.statusCode = 0 ∧ sent = false) ∧
            q' = { w.requests r with
              retries := (w.requests r).retries + 1
              state := state
              upc := upc
              hasSentRequest := sent }) := by
  unfold PoolWorld.phlUpstreamContentFail at h
  dsimp only at h
  split at h
  next hno =>
    cases h
    exact ⟨_, rfl, .inl ⟨hno, rfl⟩⟩
  next hretry =>
    rw [not_or, Int.not_lt, Int.not_le] at hretry
    obtain ⟨got, -, h⟩ := Option.bind_eq_some_iff.mp h
    split at h
    next =>
      cases h
      refine ⟨_, rfl, .inr ⟨hretry.1, hretry.2, _, _, _, ?_, ?_, rfl⟩⟩
      · exact .reset _
      · exact fun _ => ⟨reset_statusCode _, rfl⟩
    next =>
      cases h
      refine ⟨_, rfl, .inr ⟨hretry.1, hretry.2, _, _, _, ?_, ?_, rfl⟩⟩
      · exact .trans (.reset _) (.coded _ (by decide))
      · exact nofun
    next => cases h

/-- A step that changes one request. -/
def MovesOne (conf : ContentConf D) (w w' : PoolWorld D) (a : PoolAct) (r : Nat) : Prop :=
  ∃ q', w'.requests = Function.update w.requests r q' ∧ RequestMove conf w a r q'

theorem MovesOne.move {a : PoolAct} (h : MovesOne conf w w' a r)
    (ha : ∀ r' io picked, a = .headers r' io picked → r' = r) (r' : Nat) :
    RequestMove conf w a r' (w'.requests r') := by
  obtain ⟨q', hw', hmove⟩ := h
  rw [hw']
  by_cases hr : r' = r
  · rw [hr, Function.update_self]
    exact hmove
  · rw [Function.update_of_ne hr]
    exact .same fun io picked heq => hr (ha r' io picked heq)

/-- The handler fails, and it may have worked on the response before. -/
theorem fail_moves {a : PoolAct} {w₁ : PoolWorld D} {state : ContentState D}
    (hw₁ : w₁.requests = Function.update w.requests r { w.requests r with state := state })
    (hresp : RespFrom conf (w.requests r).state.resp state.resp)
    (hupc : (w.requests r).upc = .connection c) (hphase : (w.requests r).state.phase = .headers)
    (h : w₁.phlUpstreamContentFail conf r c conn picked = some w') : MovesOne conf w w' a r := by
  obtain ⟨q', hw', hcases⟩ := fail_cases h
  rw [hw₁, Function.update_idem] at hw'
  refine ⟨q', hw', ?_⟩
  have hq : w₁.requests r = { w.requests r with state := state } := by
    rw [hw₁, Function.update_self]
  rw [hq] at hcases
  rcases hcases with ⟨-, hq'⟩ | ⟨hpos, hlt, state', upc, sent, hreset, hheaders, hq'⟩
  · rw [hq']
    refine .leaves rfl (noRetry_phase state) (.inl rfl) (fun hneg => ?_)
      (hresp.trans (noRetry_resp state))
    dsimp only
    rw [if_pos hneg]
    exact hneg
  · rw [hq']
    refine .retries state' upc sent ?_ hphase hpos hlt (hresp.trans hreset) hheaders
    rw [hupc]
    intro heq
    cases heq

theorem write_moves (hupc : (w.requests r).upc = .connection c)
    (hphase : (w.requests r).state.phase = .headers)
    (hunsent : (w.requests r).hasSentRequest = false)
    (h : writeStep conf w r io picked c conn = some w') :
    MovesOne conf w w' (.write r io picked) r := by
  cases io with
  | blocked =>
    cases h
    refine ⟨w.requests r, (Function.update_eq_self r w.requests).symm, .same fun _ _ heq => ?_⟩
    cases heq
  | fails => exact fail_moves (Function.update_eq_self r w.requests).symm (.same _) hupc hphase h
  | bytes n =>
    obtain ⟨x, -, hw'⟩ := Option.map_eq_some_iff.mp h
    rw [← hw']
    exact ⟨_, rfl, .sends x.2 rfl hunsent⟩

theorem headers_moves (hupc : (w.requests r).upc = .connection c)
    (hconn : w.pool.conns c = some conn) (hphase : (w.requests r).state.phase = .headers)
    (hsent : (w.requests r).hasSentRequest)
    (h : headersStep conf w r io picked c conn = some w') :
    MovesOne conf w w' (.headers r io picked) r := by
  cases io with
  | blocked => cases h
  | fails =>
    obtain ⟨-, h⟩ := Option.ite_none_left_eq_some.mp h
    exact fail_moves (Function.update_eq_self r w.requests).symm (.same _) hupc hphase h
  | bytes k =>
    obtain ⟨round, hround, hw'⟩ := Option.bind_eq_some_iff.mp h
    dsimp only at hw'
    split at hw'
    next => exact fail_moves rfl (headersRound_resp hround) hupc hphase hw'
    next hgoes =>
      cases hw'
      exact ⟨_, rfl, .reads rfl hsent hphase hupc hconn hround (by simpa using hgoes)⟩

/-- Freeing the context does nothing to the requests. -/
theorem ctxFree_requests {isDone : Bool}
    (h : w.phlUpstreamContentCtxFree conf r isDone = some w') : w'.requests = w.requests := by
  unfold PoolWorld.phlUpstreamContentCtxFree at h
  split at h
  next =>
    cases h
    rfl
  next =>
    obtain ⟨pool, -, hw'⟩ := Option.map_eq_some_iff.mp h
    rw [← hw']
  next => cases h

theorem bodyFails_moves {a : PoolAct} {w₁ : PoolWorld D} {state : ContentState D}
    (hw₁ : w₁.requests = Function.update w.requests r { w.requests r with state := state })
    (hresp : RespFrom conf (w.requests r).state.resp state.resp) (hphase : state.phase ≠ .headers)
    (h : w₁.bodyFails conf r = some w') : MovesOne conf w w' a r := by
  have hq : w₁.requests r = { w.requests r with state := state } := by
    rw [hw₁, Function.update_self]
  unfold PoolWorld.bodyFails at h
  rw [hq] at h
  dsimp only at h
  split at h
  next =>
    obtain ⟨w₂, hfree, hw'⟩ := Option.map_eq_some_iff.mp h
    rw [← hw', MovesOne, PoolWorld.setRequest, ctxFree_requests hfree, hw₁, Function.update_idem]
    exact ⟨_, rfl, .leaves rfl hphase (.inr rfl) id hresp⟩
  next =>
    cases h
    rw [MovesOne, PoolWorld.setRequest, hw₁, Function.update_idem]
    refine ⟨_, rfl, .leaves rfl ?_ (.inl rfl) id hresp⟩
    intro heq
    cases heq

theorem body_moves {a : PoolAct} {bufLen : Nat} (hphase : (w.requests r).state.phase ≠ .headers)
    (h : bodyStep conf w r bufLen io c conn = some w') : MovesOne conf w w' a r := by
  cases io with
  | blocked => cases h
  | fails =>
    obtain ⟨-, h⟩ := Option.ite_none_left_eq_some.mp h
    refine bodyFails_moves ?_ (.same _) hphase h
    exact (Function.update_eq_self r w.requests).symm
  | bytes k =>
    obtain ⟨hround, hresp⟩ := bodyRound_leaves conf hphase conn.input bufLen k
    simp only [bodyStep] at h
    split at h
    next => exact bodyFails_moves rfl hresp hround h
    next =>
      cases h
      exact ⟨_, rfl, .leaves rfl hround (.inl rfl) id hresp⟩

/-- A request needs nothing more of its upstream. -/
theorem over_moves (w : PoolWorld D) (a : PoolAct) (r : Nat) :
    MovesOne conf w (w.setRequest r { w.requests r with
      state := { (w.requests r).state with phase := .over } }) a r := by
  refine ⟨_, rfl, .leaves rfl ?_ (.inl rfl) id (.same _)⟩
  intro heq
  cases heq

/-- What a step does to each request, where it does not start one. -/
theorem poolStep_move {a : PoolAct} (h : poolStep conf w a = some w')
    (hstart : ∀ r reqLen retries, a ≠ .start r reqLen retries) (r : Nat) :
    RequestMove conf w a r (w'.requests r) := by
  cases a with
  | start r reqLen retries => exact absurd rfl (hstart r reqLen retries)
  | get r₀ picked =>
    simp only [poolStep, Option.ite_none_right_eq_some] at h
    obtain ⟨⟨hstarted, -, -, hnull⟩, h⟩ := h
    split at h
    next c hgot =>
      cases h
      refine MovesOne.move (r := r₀) ⟨_, rfl, ?_⟩ (fun _ _ _ heq => by cases heq) r
      rw [hgot]
      exact .connects c rfl hstarted hnull
    next =>
      cases h
      exact (over_moves w _ r₀).move (fun _ _ _ heq => by cases heq) r
    next =>
      cases h
      exact .same fun _ _ heq => by cases heq
  | write r₀ io picked =>
    simp only [poolStep, Option.ite_none_right_eq_some] at h
    obtain ⟨c, conn, hupc, -, hact⟩ := onConnection_some h.2
    exact (write_moves hupc h.1.2.1 h.1.2.2 hact).move (fun _ _ _ heq => by cases heq) r
  | headers r₀ io picked =>
    simp only [poolStep, Option.ite_none_right_eq_some] at h
    obtain ⟨c, conn, hupc, hconn, hact⟩ := onConnection_some h.2
    refine (headers_moves hupc hconn h.1.2.1 h.1.2.2 hact).move ?_ r
    intro r' io' picked' heq
    cases heq
    rfl
  | body r₀ bufLen io =>
    simp only [poolStep, Option.ite_none_right_eq_some] at h
    obtain ⟨⟨-, hphase⟩, h⟩ := h
    obtain ⟨c, conn, -, -, hact⟩ := onConnection_some h
    refine (body_moves ?_ hact).move (fun _ _ _ heq => by cases heq) r
    rw [hphase]
    intro heq
    cases heq
  | breaks r₀ =>
    simp only [poolStep, Option.ite_none_right_eq_some] at h
    obtain ⟨-, h⟩ := h
    cases h
    exact (over_moves w _ r₀).move (fun _ _ _ heq => by cases heq) r
  | finish r₀ =>
    simp only [poolStep, Option.ite_none_right_eq_some] at h
    obtain ⟨⟨-, -, hphase⟩, h⟩ := h
    obtain ⟨w1, hfree, hw'⟩ := Option.map_eq_some_iff.mp h
    refine MovesOne.move (r := r₀) ?_ (fun _ _ _ heq => by cases heq) r
    rw [← hw', MovesOne, PoolWorld.setRequest, ctxFree_requests hfree]
    refine ⟨_, rfl, .leaves rfl ?_ (.inr rfl) id (.same _)⟩
    rw [hphase]
    intro heq
    cases heq
  | abort r₀ =>
    simp only [poolStep, Option.ite_none_right_eq_some] at h
    obtain ⟨w1, hfree, hw'⟩ := Option.map_eq_some_iff.mp h.2
    refine MovesOne.move (r := r₀) ?_ (fun _ _ _ heq => by cases heq) r
    rw [← hw', MovesOne, PoolWorld.setRequest, ctxFree_requests hfree]
    exact ⟨_, rfl, .aborts rfl rfl rfl (reset_statusCode _) (.trans (.reset _) (.cleared _))⟩
  | answer c data =>
    obtain ⟨conn, -, hw'⟩ := Option.map_eq_some_iff.mp h
    rw [← hw']
    exact .same fun _ _ heq => by cases heq
  | hangup c =>
    obtain ⟨conn, -, hw'⟩ := Option.map_eq_some_iff.mp h
    rw [← hw']
    exact .same fun _ _ heq => by cases heq
  | active c =>
    obtain ⟨conn, -, hw'⟩ := Option.bind_eq_some_iff.mp h
    obtain ⟨-, hw'⟩ := Option.ite_none_right_eq_some.mp hw'
    cases hw'
    exact .same fun _ _ heq => by cases heq

end Moves

structure SendWorld (D : Type) where
  pool : PoolWorld D
  /-- what the content context was made for -/
  req : Nat → Req
  /-- the connections that a request has been sent on since its context was made -/
  sent : Nat → List Nat

inductive SendAct
  | start (r reqLen : Nat) (req : Req)
  | act (a : PoolAct)

def PoolAct.isStart : PoolAct → Bool
  | .start _ _ _ => true
  | _ => false

/-- A write that fails may have sent a part. -/
def StreamIo.maySend : StreamIo → Bool
  | .blocked => false
  | .fails => true
  | .bytes n => decide (0 < n)

def noteSent (sent : List Nat) : UpcPointer → List Nat
  | .connection c => if c ∈ sent then sent else sent ++ [c]
  | _ => sent

section Sends

variable {D : Type}

/-- The steps of the pool for requests of the `proxy` module. -/
def sendStep (conf : ContentConf D) (w : SendWorld D) : SendAct → Option (SendWorld D)
  | .start r reqLen req =>
    (poolStep conf w.pool (.start r reqLen (phlProxyRetries req))).map fun pool =>
      ⟨pool, Function.update w.req r req, Function.update w.sent r []⟩
  | .act a =>
    if a.isStart then none
    else (poolStep conf w.pool a).map fun pool =>
      { w with
        pool := pool
        sent := match a with
          | .write r io _ =>
            if io.maySend then
              Function.update w.sent r (noteSent (w.sent r) (w.pool.requests r).upc)
            else w.sent
          | _ => w.sent }

structure SendStart (w : SendWorld D) : Prop where
  pool : PoolStart w.pool
  sent : ∀ r, w.sent r = []

/-- The connections of the attempts before this one. -/
def earlier (upc : UpcPointer) (sent : List Nat) : List Nat :=
  sent.filter fun c => upc ≠ .connection c

structure SendInv (conf : ContentConf D) (req : Req) (q : UpstreamRequest D)
    (sent : List Nat) : Prop where
  held : q.started = false → q.upc = .null
  bound : sent.length ≤ 1 + conf.maxRetries.toNat
  single : phlProxyRetries req < 0 → sent.length ≤ 1 ∧ (q.started → q.retries < 0)
  headers : q.started → q.state.phase = .headers → q.retries ≤ conf.maxRetries ∧
    sent.length ≤ 1 + q.retries.toNat ∧ (earlier q.upc sent).length ≤ q.retries.toNat

variable {conf : ContentConf D} {w w' : SendWorld D} {req : Req} {q q' : UpstreamRequest D}
  {sent : List Nat} {c r : Nat}

theorem SendInv.move {p : PoolWorld D} {a : PoolAct}
    (h : SendInv conf req (p.requests r) sent) (hmove : RequestMove conf p a r q') :
    SendInv conf req q' sent := by
  have hfilter : ∀ upc, (earlier upc sent).length ≤ sent.length :=
    fun upc => List.length_filter_le _ _
  cases hmove with
  | same => exact h
  | connects c _ hstarted hnull =>
    refine ⟨fun hnot => ?_, h.bound, h.single, fun _ hphase => ?_⟩
    · rw [hstarted] at hnot
      cases hnot
    · obtain ⟨hmax, hlen, hearlier⟩ := h.headers hstarted hphase
      have hall : earlier .null sent = sent := List.filter_eq_self.mpr fun c _ => by simp
      rw [hnull, hall] at hearlier
      exact ⟨hmax, hlen, (hfilter _).trans hearlier⟩
  | sends => exact ⟨h.held, h.bound, h.single, h.headers⟩
  | reads _ _ hphase =>
    exact ⟨h.held, h.bound, h.single, fun hstarted _ => h.headers hstarted hphase⟩
  | retries state upc hassent hupc hphase hpos hlt =>
    refine ⟨fun hnot => absurd (h.held hnot) hupc, h.bound,
      fun hneg => ⟨(h.single hneg).1, fun hstarted => ?_⟩, fun hstarted _ => ?_⟩
    · have hnever := (h.single hneg).2 hstarted
      omega
    · obtain ⟨hmax, hlen, hearlier⟩ := h.headers hstarted hphase
      have := hfilter upc
      dsimp only
      omega
  | leaves hstarted hphase hupc hneg =>
    refine ⟨fun hnot => ?_, h.bound, fun hsingle => ⟨(h.single hsingle).1, fun hnew => ?_⟩,
      fun _ hnew => absurd hnew hphase⟩
    · rw [hstarted] at hnot
      rcases hupc with hsame | hnull
      · exact hsame.trans (h.held hnot)
      · exact hnull
    · rw [hstarted] at hnew
      exact hneg ((h.single hsingle).2 hnew)
  | aborts hstarted hnull =>
    refine ⟨fun _ => hnull, h.bound, fun hsingle => ⟨(h.single hsingle).1, fun hnew => ?_⟩,
      fun hnew => ?_⟩
    · rw [hstarted] at hnew
      cases hnew
    · rw [hstarted] at hnew
      cases hnew

/-- The request is sent on its connection. -/
theorem SendInv.note (h : SendInv conf req q sent) (hupc : q.upc = .connection c)
    (hphase : q.state.phase = .headers) :
    SendInv conf req q (noteSent sent q.upc) := by
  rw [hupc, noteSent]
  split
  next => exact h
  next hnew =>
    have hstarted : q.started = true := by
      by_contra hnot
      have hnull := h.held (by simpa using hnot)
      rw [hupc] at hnull
      cases hnull
    obtain ⟨hmax, hlen, hearlier⟩ := h.headers hstarted hphase
    -- none of the connections so far is the one of this attempt
    have hall : earlier q.upc sent = sent := by
      apply List.filter_eq_self.mpr
      intro c' hc'
      rw [hupc]
      simp only [ne_eq, UpcPointer.connection.injEq, decide_eq_true_eq]
      intro heq
      rw [← heq] at hc'
      exact hnew hc'
    have hsame : earlier q.upc (sent ++ [c]) = sent := by
      unfold earlier at hall ⊢
      rw [List.filter_append, hall, hupc]
      simp
    rw [hall] at hearlier
    have hone : (sent ++ [c]).length = sent.length + 1 := List.length_append
    refine ⟨h.held, by omega, fun hsingle => ⟨?_, (h.single hsingle).2⟩,
      fun _ _ => ⟨hmax, by omega, by rw [hsame]; exact hearlier⟩⟩
    have hnever := (h.single hsingle).2 hstarted
    omega

theorem SendInv.start (hmax : 0 ≤ conf.maxRetries) (req : Req) (q : UpstreamRequest D) :
    SendInv conf req { q with started := true, retries := phlProxyRetries req } [] := by
  refine ⟨nofun, Nat.zero_le _, fun hneg => ⟨Nat.zero_le _, fun _ => hneg⟩, fun _ _ => ⟨?_, ?_⟩⟩
  · dsimp only
    unfold phlProxyRetries
    split
    next => omega
    next => exact hmax
  · exact ⟨Nat.zero_le _, Nat.zero_le _⟩

theorem sendStep_keeps {a : SendAct} (hmax : 0 ≤ conf.maxRetries)
    (h : ∀ r, SendInv conf (w.req r) (w.pool.requests r) (w.sent r))
    (hstep : sendStep conf w a = some w') (r : Nat) :
    SendInv conf (w'.req r) (w'.pool.requests r) (w'.sent r) := by
  cases a with
  | start r₀ reqLen req =>
    obtain ⟨pool, hpool, hw'⟩ := Option.map_eq_some_iff.mp hstep
    simp only [poolStep, Option.ite_none_left_eq_some] at hpool
    obtain ⟨-, hpool⟩ := hpool
    cases hpool
    rw [← hw']
    by_cases hr : r = r₀
    · simp only [hr, PoolWorld.setRequest, Function.update_self]
      exact SendInv.start hmax req { w.pool.requests r₀ with reqLen := reqLen }
    · simp only [PoolWorld.setRequest, Function.update_of_ne hr]
      exact h r
  | act a =>
    obtain ⟨hstart, hstep⟩ := Option.ite_none_left_eq_some.mp hstep
    obtain ⟨pool, hpool, hw'⟩ := Option.map_eq_some_iff.mp hstep
    have hmove := poolStep_move hpool (fun r reqLen retries heq => hstart (by rw [heq]; rfl)) r
    rw [← hw']
    dsimp only
    refine SendInv.move ?_ hmove
    cases a with
    | write r₀ io picked =>
      simp only [poolStep, Option.ite_none_right_eq_some] at hpool
      obtain ⟨⟨-, hphase, -⟩, hpool⟩ := hpool
      obtain ⟨c, conn, hupc, -, -⟩ := onConnection_some hpool
      dsimp only
      by_cases hsends : io.maySend = true
      · rw [if_pos hsends]
        by_cases hr : r = r₀
        · rw [hr, Function.update_self]
          exact (h r₀).note hupc hphase
        · rw [Function.update_of_ne hr]
          exact h r
      · rw [if_neg hsends]
        exact h r
    | _ => exact h r

/-- A request is sent on at most one connection and on one more for each retry, and on one
connection at most if it is neither GET nor HEAD. -/
theorem sends_bounded (hmax : 0 ≤ conf.maxRetries)
    (h : Reachable SendStart (ActStep (sendStep conf) fun _ _ => True) w) (r : Nat) :
    ((w.sent r).length : Int) ≤ 1 + conf.maxRetries ∧
      ((w.req r).method ≠ some (bytes "GET") → (w.req r).method ≠ some (bytes "HEAD") →
        (w.sent r).length ≤ 1) := by
  have hinv : ∀ r, SendInv conf (w.req r) (w.pool.requests r) (w.sent r) := by
    refine h.invariant (I := fun w => ∀ r, SendInv conf (w.req r) (w.pool.requests r) (w.sent r))
      ?_ ?_
    · intro w hw r
      rw [hw.sent r, hw.pool.requests r]
      exact ⟨fun _ => rfl, Nat.zero_le _, fun _ => ⟨Nat.zero_le _, nofun⟩, nofun⟩
    · rintro w w' hw ⟨a, -, hstep⟩
      exact sendStep_keeps hmax hw hstep
  have hbound := (hinv r).bound
  refine ⟨by omega, fun hget hhead => ((hinv r).single ?_).1⟩
  unfold phlProxyRetries
  rw [if_pos ⟨hget, hhead⟩]
  decide

end Sends

def noneSent : SendWorld Unit := ⟨noConnections, fun _ => .init, fun _ => []⟩

theorem start_noneSent : SendStart noneSent := ⟨start_noConnections, fun _ => rfl⟩

/-- The first connection fails behind two bytes, and the request is sent again on another one. -/
theorem sends_bounded_retried : ∃ w,
    Reachable SendStart (ActStep (sendStep retryConf) fun _ _ => True) w ∧ w.sent 0 = [0, 1] ∧
    (((w.sent 0).length : Int) ≤ 1 + retryConf.maxRetries ∧
      ((w.req 0).method ≠ some (bytes "GET") → (w.req 0).method ≠ some (bytes "HEAD") →
        (w.sent 0).length ≤ 1)) := by
  let acts : List SendAct := [.start 0 5 { Req.init with method := some (bytes "GET") },
    .act (.get 0 (.address 0 true)),
    .act (.write 0 (.bytes 2) .error), .act (.write 0 .fails (.address 1 true)),
    .act (.write 0 (.bytes 5) .error)]
  have hrun : (runActs (sendStep retryConf) acts noneSent).map (fun w => w.sent 0) =
      some [0, 1] := by
    decide
  obtain ⟨w, hw, hsent⟩ := Option.map_eq_some_iff.mp hrun
  have hreach := (Reachable.start start_noneSent).runActs
    (actsMeet_of_forall acts noneSent fun _ _ => trivial) hw
  exact ⟨w, hreach, hsent, sends_bounded (by decide) hreach 0⟩

end Phorklift
