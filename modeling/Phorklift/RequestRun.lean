import Phorklift.RequestSteps
import Phorklift.Transition

/-! `phl_request_run` and the events that call it. -/

namespace Phorklift

open Transition

variable {W V : Type}

/-- What `phl_request_run` makes of a step's return value. The line it logs first reads
`conf_path->error_log`. At `PHL_AGAIN` it also runs the subrequests, which are requests of their
own. -/
def phlRequestRunReturn (env : Env W V) (ret : Int) (w : World W V) : Option (World W V) :=
  if w.r.confPath = none then none
  else if ret = phlOk ∨ ret = phlBreak then some { w with r.state := w.r.state.next }
  else if ret = phlAgain then some { w with ctl := .idle }
  else if ret = phlError ∧ w.r.resp.statusCode = 0 ∧
      RequestState.responseHeaders1.index < w.r.state.index then do
    let w ← phlRequestClose env w
    some { w with ctl := .idle }
  else
    let code := if ret = phlError then
      if w.r.resp.statusCode ≠ 0 then w.r.resp.statusCode else 500
      else ret
    some ({ w with
      r.isBroken := true
      r.resp.statusCode := code
      r.state := .responseHeaders1 }.emit [.broken code])

/-- One activation of `phl_request_run`, or one more round of `phl_request_response_body`; `none`
where the first log line finds `conf_path` NULL. -/
def phlRequestRun (env : Env W V) (w : World W V) : Option (World W V) :=
  if w.r.closed then some { w with ctl := .idle }
  else do
    let p ← w.r.confPath
    if w.r.state = .done then
      let w ← phlRequestClose env w
      some { w with ctl := .idle }
    else
      let stepped ← phlRequestStep env p w
      match stepped.1 with
      | none => some stepped.2
      | some ret => phlRequestRunReturn env ret stepped.2

/-- One header that is not the end of the headers. -/
def phlHttp2HookStreamHeader (lib : Libwuya) (r : Req) (nameStr valueStr : Bytes) : Bool × Req :=
  if nameStr.head? = some 58 then
    if nameStr = bytes ":path" then phlRequestSetUri lib r valueStr
    else if nameStr = bytes ":authority" then phlRequestSetHost r valueStr
    else if nameStr = bytes ":scheme" then (true, r)
    else if nameStr = bytes ":method" then
      match lib.httpMethod valueStr with
      | none => (false, r)
      | some method => (true, { r with method := some method })
    else (false, r)
  else if nameStr = bytes "content-length" then
    let n := strtol valueStr
    -- both results are `true` to the library: the source returns the status code as a bool
    (true, { r with contentLength := toSize n.value })
  else (true, { r with headers := r.headers ++ [⟨nameStr, valueStr⟩] })

/-- The end of the headers, which moves the request on from outside `phl_request_run`. -/
def phlHttp2HookStreamHeadersEnd (endStream : Bool) (r : Request) : Bool × Request :=
  let r := { r with req.bodyFinished := endStream || r.req.bodyFinished }
  if endStream ∧ r.req.contentLength ≠ phlContentLengthInit ∧ r.req.contentLength ≠ 0 then
    (false, r)
  else (true, { r with state := r.state.next })

/-- A piece of body, or `none` at the end of the stream. -/
def phlHttp2HookStreamBody (reqBodyMax : Nat) (r : Request) : Option Bytes → Bool × Request
  | none => (true, { r with req.bodyFinished := true })
  | some buf =>
    let appended := phlRequestAppendBody reqBodyMax r.req buf
    let r := { r with req := appended.2 }
    if appended.1 ≠ phlOk then (false, { r with resp.statusCode := appended.1 }) else (true, r)

/-- Steps of a request. Between two activations of `phl_request_run` bytes arrive, the HTTP/2
hooks are called, the outside changes and the connection or the stream may be closed. -/
inductive Step (env : Env W V) : World W V → World W V → Prop
  | call {w} : w.ctl = .idle → Step env w { w with ctl := .running }
  | run {w w'} : w.ctl = .running → phlRequestRun env w = some w' → Step env w w'
  | receive {w} (data : Bytes) : w.ctl = .idle → Step env w { w with recv := w.recv ++ data }
  | header {w} (name value : Bytes) : w.ctl = .idle → w.r.isHttp2 = true →
      w.r.state = .receiveHeaders →
      Step env w { w with r.req := (phlHttp2HookStreamHeader env.lib w.r.req name value).2 }
  | headersEnd {w} (endStream : Bool) : w.ctl = .idle → w.r.isHttp2 = true →
      w.r.state = .receiveHeaders → w.r.closed = false →
      Step env w { w with r := (phlHttp2HookStreamHeadersEnd endStream w.r).2 }
  | body {w} (p : PathId) (buf : Option Bytes) : w.ctl = .idle → w.r.isHttp2 = true →
      w.r.confPath = some p →
      Step env w { w with r := (phlHttp2HookStreamBody (env.path p).reqBodyMax w.r buf).2 }
  | elsewhere {w} {e : W} : w.ctl = .idle → env.elsewhere w.env e → Step env w { w with env := e }
  | close {w w'} (connection : Bool) : w.ctl = .idle →
      phlRequestClose env { w with connClosed := w.connClosed || connection } = some w' →
      Step env w w'

/-- A request of a client on an open connection, or a subrequest of one. -/
def Init (env : Env W V) (w : World W V) : Prop :=
  w.trace = [] ∧ w.ctl = .idle ∧
  ((∃ isHttp2, w.r = phlRequestNew env isHttp2) ∨
    ∃ father host req named, father ≠ Father.none ∧ w.r = { phlRequestNew env false with
      state := .locateConfHost
      father := father
      confHost := some host
      confPath := some (env.defaultPath host)
      namedPath := named
      req := req })

/-- The activations of one run, as long as `ok` holds before each. -/
def runs (env : Env W V) (ok : World W V → Bool) : Nat → World W V → Option (World W V)
  | 0, w => some w
  | n + 1, w =>
    if w.ctl = .running ∧ ok w = true then (phlRequestRun env w).bind (runs env ok n) else none

/-- Runs in which `ok` holds whenever `phl_request_run` is activated. -/
abbrev StepOk (env : Env W V) (ok : World W V → Bool) : World W V → World W V → Prop :=
  guarded (Step env) fun w _ => w.ctl = .running → ok w = true

theorem headersEnd_of_no_length {r : Request} (h : r.req.contentLength = phlContentLengthInit) :
    (phlHttp2HookStreamHeadersEnd true r).2 =
      { r with req.bodyFinished := true, state := r.state.next } := by
  unfold phlHttp2HookStreamHeadersEnd
  dsimp only
  rw [if_neg (by simp [h])]
  simp

def phlHttp2HookStreamHeaders (lib : Libwuya) (headers : List (Bytes × Bytes)) (r : Req) : Req :=
  headers.foldl (fun r h => (phlHttp2HookStreamHeader lib r h.1 h.2).2) r

/-- A stream of which nothing has arrived. -/
def newStream (env : Env W V) (e : W) : World W V where
  r := phlRequestNew env true
  recv := []
  connClosed := false
  ctl := .idle
  env := e
  trace := []

/-- A stream that has ended after some headers. -/
def streamWorld (env : Env W V) (headers : List (Bytes × Bytes)) (e : W) : World W V where
  r := { phlRequestNew env true with
    state := .locateConfHost
    req := { phlHttp2HookStreamHeaders env.lib headers .init with bodyFinished := true } }
  recv := []
  connClosed := false
  ctl := .running
  env := e
  trace := []

theorem init_new (env : Env W V) (e : W) : Init env (newStream env e) :=
  ⟨rfl, rfl, .inl ⟨true, rfl⟩⟩

variable {env : Env W V} {init : World W V → Prop} {ok : World W V → Bool}
  {step : World W V → World W V → Prop}

/-- A step relation with the activations before which `ok` holds and the idle steps that close
nothing. -/
structure Admits (env : Env W V) (ok : World W V → Bool)
    (step : World W V → World W V → Prop) : Prop where
  run : ∀ {w w'}, w.ctl = .running → ok w = true → phlRequestRun env w = some w' → step w w'
  idle : ∀ {w w'}, w.ctl = .idle → w'.r.closed = w.r.closed → Step env w w' → step w w'

theorem admits_stepOk : Admits env ok (StepOk env ok) := by
  refine ⟨fun hrun hok h => ⟨.run hrun h, fun _ => hok⟩, fun hidle _ hstep => ⟨hstep, fun hc => ?_⟩⟩
  rw [hidle] at hc
  cases hc

theorem Admits.call {w : World W V} (ha : Admits env ok step) (hidle : w.ctl = .idle) :
    step w { w with ctl := .running } :=
  ha.idle hidle rfl (.call hidle)

theorem Admits.runs {n : Nat} {w w' : World W V} (ha : Admits env ok step)
    (hw : Reachable init step w) (h : runs env ok n w = some w') : Reachable init step w' := by
  induction n generalizing w with
  | zero => cases Option.some.inj h; exact hw
  | succ n ih =>
    unfold Phorklift.runs at h
    split at h
    next hok =>
      obtain ⟨w1, h1, h⟩ := Option.bind_eq_some_iff.mp h
      exact ih (hw.next (ha.run hok.1 hok.2 h1)) h
    next => cases h

theorem Admits.headers {w : World W V} (ha : Admits env ok step) (hw : Reachable init step w)
    (hidle : w.ctl = .idle) (h2 : w.r.isHttp2 = true) (hs : w.r.state = .receiveHeaders)
    (headers : List (Bytes × Bytes)) : Reachable init step
      { w with r.req := phlHttp2HookStreamHeaders env.lib headers w.r.req } := by
  induction headers generalizing w with
  | nil => exact hw
  | cons h headers ih =>
    exact ih (w := { w with r.req := (phlHttp2HookStreamHeader env.lib w.r.req h.1 h.2).2 })
      (hw.next (ha.idle hidle rfl (.header h.1 h.2 hidle h2 hs))) hidle h2 hs

theorem Admits.stream {n : Nat} {headers : List (Bytes × Bytes)} {e : W} {w : World W V}
    (ha : Admits env ok step) (h0 : init (newStream env e))
    (hlen : (phlHttp2HookStreamHeaders env.lib headers .init).contentLength = phlContentLengthInit)
    (h : Phorklift.runs env ok n (streamWorld env headers e) = some w) :
    Reachable init step w := by
  have hnew : Reachable init step (newStream env e) := .start h0
  have h1 := ha.headers hnew rfl rfl rfl headers
  have hend := headersEnd_of_no_length (r := { (newStream env e).r with
    req := phlHttp2HookStreamHeaders env.lib headers (newStream env e).r.req }) hlen
  have h2 := h1.next (ha.idle rfl (by rw [hend]) (.headersEnd true rfl rfl rfl rfl))
  have h3 := h2.next (ha.call rfl)
  refine ha.runs ?_ h
  rw [hend] at h3
  exact h3

theorem reachable_runs {n : Nat} {w w' : World W V} (hw : Reachable init (StepOk env ok) w)
    (h : runs env ok n w = some w') : Reachable init (StepOk env ok) w' :=
  admits_stepOk.runs hw h

theorem reachable_headers {w : World W V} (hw : Reachable init (StepOk env ok) w)
    (hidle : w.ctl = .idle) (h2 : w.r.isHttp2 = true) (hs : w.r.state = .receiveHeaders)
    (headers : List (Bytes × Bytes)) : Reachable init (StepOk env ok)
      { w with r.req := phlHttp2HookStreamHeaders env.lib headers w.r.req } :=
  admits_stepOk.headers hw hidle h2 hs headers

theorem reachable_stream {n : Nat} {headers : List (Bytes × Bytes)} {e : W} {w : World W V}
    (h0 : init (newStream env e))
    (hlen : (phlHttp2HookStreamHeaders env.lib headers .init).contentLength = phlContentLengthInit)
    (h : runs env ok n (streamWorld env headers e) = some w) :
    Reachable init (StepOk env ok) w :=
  admits_stepOk.stream h0 hlen h

/-- Parsers that take a `:path` as it comes. -/
def Libwuya.plain : Libwuya where
  httpRequestLine := fun _ => ⟨0, ⟨[], [], 0⟩⟩
  httpHeader := fun _ => ⟨0, ⟨0, 0, 0⟩⟩
  httpUri := fun uri => some ⟨none, uri, none⟩
  httpDecodePath := some
  httpMethod := some
  httpChunkedDecode := fun _ _ => .none
  httpChunkedIsFinished := fun _ => true
  httpStringStatusCode := fun _ => []

/-- One Host with one Path, on connections that take all that is sent. -/
def Env.single (path : ConfPath W V) : Env W V where
  path := fun _ => path
  defaultHost := 0
  defaultPath := fun _ => 0
  confHostLocate := fun _ => some 0
  confPathLocate := fun _ _ => some 1
  dynamicGet := fun p r e => ⟨p, .found, r.resp.statusCode, e, []⟩
  lib := .plain
  makeSpace := fun size e => (.space size, e)
  streamWindow := fun _ => 65535
  readFd := fun _ _ e => (.ok [], e)
  stale := fun _ => 0
  moduleCtxFree := fun _ e => (e, [])
  elsewhere := Eq

end Phorklift
