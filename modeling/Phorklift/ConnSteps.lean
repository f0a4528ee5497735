import Phorklift.RequestBuffer

/-! The requests that a client sends on one HTTP/1.1 connection, and what `phl_request_run` makes
of each. -/

namespace Phorklift

open Transition

variable {W V : Type}

/-- A connection and its client: `unsent` is what has not arrived of the request being sent, and
`taken` what has been parsed of the head of the request being received. -/
structure Conn (W V : Type) where
  w : World W V
  requests : List WireRequest
  next : Nat
  unsent : Bytes
  taken : Bytes
  parsed : List Bytes

namespace Conn

/-- The body of the request being sent. -/
def body (c : Conn W V) : Bytes :=
  (c.requests[c.next - 1]?.map (·.body)).getD []

/-- The heads of the first requests. -/
def heads (c : Conn W V) (n : Nat) : List Bytes :=
  (c.requests.take n).map WireRequest.head

/-- `phl_http1_on_readable` -/
def phlHttp1OnReadable (env : Env W V) (data rest : Bytes) (c : Conn W V) : Conn W V :=
  let c := { c with w.recv := c.w.recv ++ data, w.ctl := .running, unsent := rest }
  if c.w.r.closed then { c with w.r := phlRequestNew env false, taken := [] } else c

/-- Notes what `phl_http1_request_headers` has taken from the buffer. -/
def ran (c : Conn W V) (w : World W V) : Conn W V :=
  let now := c.w.recv.take (c.w.recv.length - w.recv.length)
  if c.w.r.closed = false ∧ c.w.r.state = .receiveHeaders then
    if w.r.state = .locateConfHost then
      { c with w := w, taken := [], parsed := c.parsed ++ [c.taken ++ now] }
    else { c with w := w, taken := c.taken ++ now }
  else { c with w := w }

end Conn

/-- A client sends its next request when the last one has been answered: `phl_http1_request_close`
leaves the connection open only in `DONE`. -/
inductive ConnStep (env : Env W V) : Conn W V → Conn W V → Prop
  | send {c q} : c.unsent = [] → c.w.r.closed = true → c.w.connClosed = false →
      c.requests[c.next]? = some q →
      ConnStep env c { c with next := c.next + 1, unsent := q.bytes }
  | readable {c} (data rest : Bytes) : c.w.ctl = .idle → c.w.connClosed = false → data ≠ [] →
      c.unsent = data ++ rest → ConnStep env c (c.phlHttp1OnReadable env data rest)
  | call {c} : c.w.ctl = .idle → ConnStep env c { c with w.ctl := .running }
  | run {c w} : c.w.ctl = .running → phlRequestRun env c.w = some w → ConnStep env c (c.ran w)
  | elsewhere {c} {e : W} : c.w.ctl = .idle → env.elsewhere c.w.env e →
      ConnStep env c { c with w.env := e }
  | close {c w} : c.w.ctl = .idle → phlRequestClose env { c.w with connClosed := true } = some w →
      ConnStep env c { c with w := w }

/-- A new connection, whose client has some requests to send. -/
structure ConnInit (requests : List WireRequest) (c : Conn W V) : Prop where
  requests : c.requests = requests
  idle : c.w.r.closed = true
  recv : c.w.recv = []
  next : c.next = 0
  unsent : c.unsent = []
  taken : c.taken = []
  parsed : c.parsed = []

/-- From the path `q` the loop at `dynamic_get` suspends, or it leads to a path that waits for the
body and takes its length. -/
def awaitsBody (env : Env W V) (w : World W V) (q : PathId) : Bool :=
  let d := env.dynamicGet q { w.r with confPath := some q } w.env
  d.ret == .again || d.ret == .found && (env.path d.path).reqBodySync &&
    ((env.path d.path).reqBodyMax == 0 ||
      decide (w.r.req.contentLength ≤ (env.path d.path).reqBodyMax))

/-- A step in `LOCATE_CONF_HOST` or `LOCATE_CONF_PATH` does not answer the request, and leads to a
path that waits for the body. -/
def locatesBodySync (env : Env W V) (w : World W V) : Bool :=
  match w.r.state, w.r.confHost, w.r.confPath with
  | .locateConfHost, host, _ =>
    host != some env.defaultHost || (env.confHostLocate w.r.req.host).isSome
  | .locateConfPath, some host, some p =>
    if p ≠ env.defaultPath host then awaitsBody env w p
    else ((w.r.namedPath.or w.r.req.uri.path).bind (env.confPathLocate host)).any
      (awaitsBody env w)
  | _, _, _ => true

/-- Where a request with a body is located, it is not answered. -/
def Conn.ok (env : Env W V) (c : Conn W V) : Bool :=
  c.w.r.closed || c.w.r.isBroken || c.body.isEmpty || locatesBodySync env c.w

/-- Runs in which the condition holds whenever `phl_request_run` is activated. -/
abbrev ConnStepIf (env : Env W V) (ok : Conn W V → Bool) : Conn W V → Conn W V → Prop :=
  guarded (ConnStep env) fun c _ => c.w.ctl = .running → ok c = true

/-- The activations that follow on one event, as long as `ok` holds before each. -/
def Conn.runs (env : Env W V) (ok : Conn W V → Bool) : Nat → Conn W V → Option (Conn W V)
  | 0, c => some c
  | n + 1, c =>
    if c.w.ctl = .running ∧ ok c = true then
      (phlRequestRun env c.w).bind fun w => Conn.runs env ok n (c.ran w)
    else none

/-- The next request arrives at once and is answered. -/
def Conn.exchange (env : Env W V) (ok : Conn W V → Bool) (n : Nat) (c : Conn W V) :
    Option (Conn W V) := do
  let q ← c.requests[c.next]?
  if c.unsent = [] ∧ c.w.r.closed = true ∧ c.w.connClosed = false ∧ c.w.ctl = .idle ∧
      q.bytes ≠ [] then
    Conn.runs env ok n
      (Conn.phlHttp1OnReadable env q.bytes [] { c with next := c.next + 1, unsent := q.bytes })
  else none

/-- An open request that nothing has gone wrong with. -/
structure World.Sound (w : World W V) : Prop where
  closed : w.r.closed = false
  isHttp2 : w.r.isHttp2 = false
  isBroken : w.r.isBroken = false

/-- The states before the body has been received. -/
structure BodyAt (env : Env W V) (body unsent : Bytes) (w : World W V) : Prop where
  sound : w.Sound
  state : w.r.state = .locateConfHost ∨ w.r.state = .locateConfPath ∨
    (w.r.state = .receiveBodySync ∧
      ∀ p, w.r.confPath = some p → (env.path p).reqBodySync = true)
  req : BodyReq body unsent w.recv w.r.req

/-- Nothing is left to receive for the request. -/
structure Received (w : World W V) : Prop where
  past : w.r.closed = true ∨ w.r.state ≠ .receiveHeaders
  recv : w.recv = []

section Run

variable {env : Env W V} {w w' : World W V} {ret : Int}

theorem Conn.reachable_runs {init : Conn W V → Prop} {ok : Conn W V → Bool} {n : Nat}
    {c c' : Conn W V} (hc : Reachable init (ConnStepIf env ok) c)
    (h : Conn.runs env ok n c = some c') : Reachable init (ConnStepIf env ok) c' := by
  induction n generalizing c with
  | zero =>
    cases Option.some.inj h
    exact hc
  | succ n ih =>
    unfold Conn.runs at h
    split at h
    next hok =>
      obtain ⟨w, hw, h⟩ := Option.bind_eq_some_iff.mp h
      exact ih (hc.next ⟨.run hok.1 hw, fun _ => hok.2⟩) h
    next => cases h

theorem Conn.reachable_exchange {init : Conn W V → Prop} {ok : Conn W V → Bool} {n : Nat}
    {c c' : Conn W V} (hc : Reachable init (ConnStepIf env ok) c)
    (h : Conn.exchange env ok n c = some c') : Reachable init (ConnStepIf env ok) c' := by
  obtain ⟨q, hq, h⟩ := Option.bind_eq_some_iff.mp h
  split at h
  next hall =>
    obtain ⟨hunsent, hclosed, hopen, hidle, hne⟩ := hall
    have hrest : q.bytes = q.bytes ++ [] := (List.append_nil _).symm
    have hnot : c.w.ctl = .running → ok c = true := by
      rw [hidle]
      exact nofun
    have hsent := hc.next ⟨.send hunsent hclosed hopen hq, hnot⟩
    refine Conn.reachable_runs (hsent.next ⟨.readable _ [] hidle hopen hne hrest, ?_⟩) h
    dsimp only
    rw [hidle]
    exact nofun
  next => cases h

theorem phlRequestRunReturn_ok (h : phlRequestRunReturn env phlOk w = some w') :
    w' = { w with r.state := w.r.state.next } := by
  unfold phlRequestRunReturn at h
  split at h
  next => cases h
  next =>
    rw [if_pos (.inl rfl)] at h
    exact (Option.some.inj h).symm

theorem phlRequestRunReturn_again (h : phlRequestRunReturn env phlAgain w = some w') :
    w' = { w with ctl := .idle } := by
  unfold phlRequestRunReturn at h
  split at h
  next => cases h
  next =>
    rw [if_neg (by decide), if_pos rfl] at h
    exact (Option.some.inj h).symm

theorem phlRequestRun_step (h : phlRequestRun env w = some w') (hopen : w.r.closed = false)
    (hs : w.r.state ≠ .done) : ∃ p ret w1, w.r.confPath = some p ∧
      phlRequestStep env p w = some (ret, w1) ∧
      ∀ n, ret = some n → phlRequestRunReturn env n w1 = some w' := by
  unfold phlRequestRun at h
  rw [if_neg (by simp [hopen])] at h
  obtain ⟨p, hp, h⟩ := Option.bind_eq_some_iff.mp h
  rw [if_neg hs] at h
  obtain ⟨⟨ret, w1⟩, hstep, h⟩ := Option.bind_eq_some_iff.mp h
  refine ⟨p, ret, w1, hp, hstep, ?_⟩
  rintro n rfl
  exact h

theorem phlRequestStep_recv_nil {p : PathId} {ret : Option Int}
    (h : phlRequestStep env p w = some (ret, w')) (hs : w.r.state ≠ .receiveHeaders)
    (hrecv : w.recv = []) : w'.recv = [] := by
  by_cases hbody : w.r.state = .receiveBodySync
  · unfold phlRequestStep at h
    simp only [hbody, Option.some.injEq, Prod.mk.injEq] at h
    obtain ⟨-, rfl⟩ := h
    unfold phlRequestReceiveBodySync
    split
    next => exact hrecv
    next =>
      split
      next => exact hrecv
      next =>
        dsimp only
        rw [hrecv]
        exact phlHttp1RequestBody_nil
  · rw [phlRequestStep_recv h hs hbody, hrecv]

theorem RequestState.next_ne_receiveHeaders (s : RequestState) : s.next ≠ .receiveHeaders := by
  cases s <;> decide

/-- A request that has been received stays so. -/
theorem phlRequestRun_received (h : phlRequestRun env w = some w') (hw : Received w) :
    Received w' := by
  have hclose : ∀ {w1 w2 : World W V}, phlRequestClose env w1 = some w2 → w1.recv = [] →
      Received { w2 with ctl := .idle } := by
    intro w1 w2 hc hrecv
    have hkept := phlRequestClose_kept (P := fun _ => True) (L := True) (K := fun _ => True)
      (fun _ => trivial) trivial trivial hc
    refine ⟨.inl hkept.2, ?_⟩
    dsimp only
    rw [phlRequestClose_recv hc, hrecv]
  have hstate : w.r.closed = false → w.r.state ≠ .receiveHeaders := by
    intro hopen
    rcases hw.past with hc | hs
    · rw [hopen] at hc
      cases hc
    · exact hs
  cases phlRequestRun_ran h with
  | closed hc => exact ⟨.inl hc, hw.recv⟩
  | done hopen hs hc => exact hclose hc hw.recv
  | round hopen hdone hp hstep =>
    have hs := hstate hopen
    have hkept := phlRequestStep_kept hstep (by simp)
    refine ⟨.inr ?_, phlRequestStep_recv_nil hstep hs hw.recv⟩
    rw [hkept.state]
    exact hs
  | next hopen hdone hp hstep =>
    have hrecv := phlRequestStep_recv_nil hstep (hstate hopen) hw.recv
    exact ⟨.inr (RequestState.next_ne_receiveHeaders _), hrecv⟩
  | again hopen hdone hp hstep hp1 =>
    have hs := hstate hopen
    have hkept := phlRequestStep_kept hstep fun _ => hp1
    have hrecv := phlRequestStep_recv_nil hstep hs hw.recv
    refine ⟨.inr ?_, hrecv⟩
    dsimp only
    rw [hkept.state]
    exact hs
  | close hopen hdone hp hstep hp1 h0 hlt hc =>
    exact hclose hc (phlRequestStep_recv_nil hstep (hstate hopen) hw.recv)
  | broken code hopen hdone hp hstep =>
    have hrecv := phlRequestStep_recv_nil hstep (hstate hopen) hw.recv
    refine ⟨.inr ?_, hrecv⟩
    intro hs
    cases hs

/-- What an activation makes of the head of a plain request. -/
inductive HeadRan (q : WireRequest) (taken left : Bytes) (w : World W V) : World W V → Prop
  | again {now later rest : Bytes} {r : Req} : w.recv = now ++ rest → left = now ++ later →
      HeadAt q (taken ++ now) later r →
      HeadRan q taken left w { w with r.req := r, recv := rest, ctl := .idle }
  | ended {rest : Bytes} {r : Req} : w.recv = left ++ rest → HeadReq [] q.body r →
      HeadRan q taken left w { w with r.req := r, recv := rest, r.state := .locateConfHost }

theorem phlRequestReceiveHeaders_http1 (h : w.r.isHttp2 = false) :
    phlRequestReceiveHeaders env w = ((phlHttp1RequestHeaders env.lib w.r.req w.recv).1,
      { w with
        r.req := (phlHttp1RequestHeaders env.lib w.r.req w.recv).2.1
        recv := (phlHttp1RequestHeaders env.lib w.r.req w.recv).2.2 }) := by
  unfold phlRequestReceiveHeaders
  rw [if_neg (by simp [h])]

theorem phlRequestRun_head {q : WireRequest} {taken left unsent : Bytes}
    (h : phlRequestRun env w = some w') (hw : w.Sound) (hs : w.r.state = .receiveHeaders)
    (hwf : q.WellFormed env.lib) (hplain : q.Plain env.lib) (hat : HeadAt q taken left w.r.req)
    (hdata : w.recv ++ unsent = left ++ q.body) : HeadRan q taken left w w' := by
  have htaken := phlHttp1RequestHeaders_takes hwf hplain hat hdata
  obtain ⟨p, ret, w1, hp, hstep, hret⟩ := phlRequestRun_step h hw.closed (by simp [hs])
  unfold phlRequestStep at hstep
  simp only [hs] at hstep
  rw [phlRequestReceiveHeaders_http1 hw.isHttp2] at hstep
  cases hstep
  generalize phlHttp1RequestHeaders env.lib w.r.req w.recv = out at htaken hret
  cases htaken with
  | again hrecv hleft hat' =>
    rw [phlRequestRunReturn_again (hret _ rfl)]
    exact .again hrecv hleft hat'
  | ended hrecv hr =>
    rw [phlRequestRunReturn_ok (hret _ rfl)]
    dsimp only
    rw [hs]
    exact .ended hrecv hr

theorem HeadReq.bodyReq {body unsent recv : Bytes} {r : Req} (h : HeadReq [] body r)
    (hbody : body ≠ []) (hdata : recv ++ unsent = body) : BodyReq body unsent recv r := by
  refine ⟨?_, ?_, ?_⟩
  · rw [h.bodyBuf, List.nil_append, hdata]
  · rcases h.length with hl | ⟨-, hex⟩
    · exact hl
    · obtain ⟨g, hg, -⟩ := hex hbody
      cases hg
  · rw [h.bodyFinished]
    exact fun hf => by cases hf

theorem BodyAt.keep {body unsent : Bytes} (hw : BodyAt env body unsent w) (hreq : w'.r.req = w.r.req)
    (hrecv : w'.recv = w.recv) (hkept : w'.Sound)
    (hs : w'.r.state = .locateConfHost ∨ w'.r.state = .locateConfPath ∨
      (w'.r.state = .receiveBodySync ∧
        ∀ p, w'.r.confPath = some p → (env.path p).reqBodySync = true)) :
    BodyAt env body unsent w' := by
  refine ⟨hkept, hs, ?_⟩
  rw [hreq, hrecv]
  exact hw.req

theorem phlRequestRun_locateConfHost {body unsent : Bytes} (h : phlRequestRun env w = some w')
    (hs : w.r.state = .locateConfHost) (hok : locatesBodySync env w = true)
    (hw : BodyAt env body unsent w) : BodyAt env body unsent w' := by
  obtain ⟨p, ret, w1, hp, hstep, hret⟩ := phlRequestRun_step h hw.sound.closed (by simp [hs])
  unfold phlRequestStep at hstep
  simp only [hs] at hstep
  cases hstep
  unfold locatesBodySync at hok
  simp only [hs, Bool.or_eq_true, bne_iff_ne] at hok
  have hret := hret _ rfl
  unfold phlRequestLocateConfHost at hret
  have hsound := hw.sound
  split at hret
  next =>
    rw [phlRequestRunReturn_ok hret]
    refine hw.keep rfl rfl ⟨hsound.closed, hsound.isHttp2, hsound.isBroken⟩ (.inr (.inl ?_))
    exact congrArg RequestState.next hs
  next hhost =>
    obtain ⟨host, hlocate⟩ := Option.isSome_iff_exists.mp (hok.resolve_left hhost)
    rw [hlocate] at hret
    rw [phlRequestRunReturn_ok hret]
    refine hw.keep rfl rfl ⟨hsound.closed, hsound.isHttp2, hsound.isBroken⟩ (.inr (.inl ?_))
    exact congrArg RequestState.next hs

theorem phlRequestDynamicGet_awaits {body unsent : Bytes} {q : PathId}
    (h : phlRequestRunReturn env (phlRequestDynamicGet env q w).1 (phlRequestDynamicGet env q w).2 =
      some w') (hs : w.r.state = .locateConfPath) (hq : w.r.confPath = some q)
    (hok : awaitsBody env w q = true) (hw : BodyAt env body unsent w) :
    BodyAt env body unsent w' := by
  have hsound := hw.sound
  have hsame : { w.r with confPath := some q } = w.r := by rw [← hq]
  unfold awaitsBody at hok
  rw [hsame] at hok
  simp only [Bool.or_eq_true, Bool.and_eq_true, beq_iff_eq, decide_eq_true_eq] at hok
  unfold phlRequestDynamicGet at h
  dsimp only at h
  generalize env.dynamicGet q w.r w.env = d at hok h
  rcases hok with hd | ⟨⟨hd, hsync⟩, hmax⟩
  · rw [hd, if_pos (by decide)] at h
    rw [phlRequestRunReturn_again h]
    exact hw.keep rfl rfl ⟨hsound.closed, hsound.isHttp2, hsound.isBroken⟩ (.inr (.inl hs))
  · have hroom : ¬((env.path d.path).reqBodyMax ≠ 0 ∧
        w.r.req.contentLength ≠ phlContentLengthInit ∧
        (env.path d.path).reqBodyMax < w.r.req.contentLength) := by
      rintro ⟨hne, -, hlt⟩
      rcases hmax with h0 | hle
      · exact hne h0
      · omega
    rw [if_neg (not_not_intro hd), World.emit_r, if_neg hroom] at h
    rw [phlRequestRunReturn_ok h]
    refine hw.keep rfl rfl ⟨hsound.closed, hsound.isHttp2, hsound.isBroken⟩ (.inr (.inr ⟨?_, ?_⟩))
    · exact congrArg RequestState.next hs
    · intro p hp
      cases hp
      exact hsync

theorem phlRequestRun_locateConfPath {body unsent : Bytes} (h : phlRequestRun env w = some w')
    (hs : w.r.state = .locateConfPath) (hok : locatesBodySync env w = true)
    (hw : BodyAt env body unsent w) : BodyAt env body unsent w' := by
  obtain ⟨p, ret, w1, hp, hstep, hret⟩ := phlRequestRun_step h hw.sound.closed (by simp [hs])
  unfold phlRequestStep at hstep
  simp only [hs] at hstep
  obtain ⟨x, hx, hout⟩ := Option.map_eq_some_iff.mp hstep
  cases hout
  have hret := hret _ rfl
  obtain ⟨host, hhost, hx⟩ := Option.bind_eq_some_iff.mp hx
  unfold locatesBodySync at hok
  simp only [hs, hhost, hp] at hok
  split at hx
  next hne =>
    cases hx
    rw [if_pos hne] at hok
    exact phlRequestDynamicGet_awaits hret hs hp hok hw
  next hdefault =>
    rw [if_neg hdefault] at hok
    cases hpath : w.r.namedPath.or w.r.req.uri.path with
    | none =>
      rw [hpath] at hok
      cases hok
    | some uriPath =>
      simp only [hpath, Option.bind_some] at hok hx
      cases hlocate : env.confPathLocate host uriPath with
      | none =>
        rw [hlocate] at hok
        cases hok
      | some q =>
        simp only [hlocate, Option.any_some] at hok hx
        cases hx
        have hat : BodyAt env body unsent { w with r.confPath := some q } :=
          ⟨⟨hw.sound.closed, hw.sound.isHttp2, hw.sound.isBroken⟩, .inr (.inl hs), hw.req⟩
        exact phlRequestDynamicGet_awaits hret hs rfl hok hat

theorem phlRequestReceiveBodySync_http1 {p : PathId} (h : w.r.isHttp2 = false)
    (hsync : (env.path p).reqBodySync = true) :
    phlRequestReceiveBodySync env p w =
      ((phlHttp1RequestBody env.lib (env.path p).reqBodyMax w.r.req w.recv).1,
        { w with
          r.req := (phlHttp1RequestBody env.lib (env.path p).reqBodyMax w.r.req w.recv).2.1
          recv := (phlHttp1RequestBody env.lib (env.path p).reqBodyMax w.r.req w.recv).2.2 }) := by
  unfold phlRequestReceiveBodySync
  rw [if_neg (by simp [hsync]), if_neg (by simp [h])]

theorem phlRequestRun_receiveBodySync {body unsent : Bytes} (h : phlRequestRun env w = some w')
    (hs : w.r.state = .receiveBodySync) (hsmall : body.length < 2 ^ 63)
    (hsync : ∀ p, w.r.confPath = some p → (env.path p).reqBodySync = true)
    (hw : BodyAt env body unsent w) :
    BodyAt env body unsent w' ∨ Received w' ∧ unsent = [] := by
  have hsound := hw.sound
  obtain ⟨p, ret, w1, hp, hstep, hret⟩ := phlRequestRun_step h hsound.closed (by simp [hs])
  obtain ⟨n, r', hbody, hn, hreq⟩ := @phlHttp1RequestBody_takes env.lib body unsent w.recv w.r.req
    (env.path p).reqBodyMax hsmall hw.req
  unfold phlRequestStep at hstep
  simp only [hs] at hstep
  rw [phlRequestReceiveBodySync_http1 hsound.isHttp2 (hsync p hp), hbody] at hstep
  cases hstep
  rcases hn with rfl | ⟨rfl, hfull⟩
  · rw [phlRequestRunReturn_again (hret _ rfl)]
    exact .inl ⟨⟨hsound.closed, hsound.isHttp2, hsound.isBroken⟩, .inr (.inr ⟨hs, hsync⟩), hreq⟩
  · rw [phlRequestRunReturn_ok (hret _ rfl)]
    have hdata := hreq.data
    rw [hfull, List.append_nil, List.append_right_eq_self] at hdata
    have hpast := RequestState.next_ne_receiveHeaders w.r.state
    exact .inr ⟨⟨.inr hpast, rfl⟩, hdata⟩

/-- What an activation makes of a request that is being located or whose body is being received. -/
theorem phlRequestRun_body {body unsent : Bytes} (h : phlRequestRun env w = some w')
    (hsmall : body.length < 2 ^ 63) (hok : locatesBodySync env w = true)
    (hw : BodyAt env body unsent w) :
    BodyAt env body unsent w' ∨ Received w' ∧ unsent = [] := by
  rcases hw.state with hs | hs | ⟨hs, hsync⟩
  · exact .inl (phlRequestRun_locateConfHost h hs hok hw)
  · exact .inl (phlRequestRun_locateConfPath h hs hok hw)
  · exact phlRequestRun_receiveBodySync h hs hsmall hsync hw

end Run

end Phorklift
