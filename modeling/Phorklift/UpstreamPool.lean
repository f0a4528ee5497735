import Phorklift.Request
import Phorklift.Transition
import Mathlib.Logic.Function.Basic
import Mathlib.Logic.Relation

/-! The connections to the addresses of an upstream, and the content modules that answer requests
from them. -/

namespace Phorklift

open Transition

/-- A byte from an upstream with the request that it answers, `none` where it answers none. -/
abbrev UpstreamByte := Option Nat × UInt8

structure UpstreamInput where
  /-- `none` where `preread_buf` is NULL -/
  preread : Option (List UpstreamByte)
  /-- what the upstream has sent and `loop_stream_read` has not returned -/
  unread : List UpstreamByte

structure UpstreamConnection where
  address : Nat
  /-- `loop_stream_is_closed` -/
  closed : Bool
  input : UpstreamInput
  prewriteLen : Nat
  error : Bool
  /-- `none` in idle state -/
  request : Option Nat
  /-- the last request that has written here -/
  writer : Option Nat
  /-- the requests that the upstream still has to answer -/
  asked : List Nat

/-- Fields of `r->resp`, and `ctx->data`. -/
structure UpstreamResp (D : Type) where
  statusCode : Int
  version : Int
  headers : List Header
  /-- `none` for `PHL_CONTENT_LENGTH_INIT` -/
  contentLength : Option Nat
  data : Option D

structure UpstreamOps (D : Type) where
  /-- what it returns, and `*is_done` -/
  parseResponseHeaders : Option (UpstreamResp D → Bytes → UpstreamResp D × Int × Bool)
  isResponseBodyDone : Option (UpstreamResp D → Bool)
  /-- what it returns, and the bytes that it leaves in the buffer -/
  buildResponseBody : Option (UpstreamResp D → Bytes → Nat → UpstreamResp D × Int × Bytes)

structure ContentConf (D : Type) where
  idleMax : Nat
  maxRetries : Int
  retryStatusCodes : List Int
  ops : UpstreamOps D

/-- What a request still needs of its upstream. -/
inductive ContentPhase
  | headers
  | body
  /-- the rest comes from elsewhere, or there is none -/
  | over
  deriving DecidableEq

structure ContentState (D : Type) where
  resp : UpstreamResp D
  phase : ContentPhase
  originalLength : Option Nat
  generatedLength : Nat
  /-- the body that the module has made -/
  body : Bytes

inductive UpcPointer
  | null
  | ptrAgain
  | ptrError
  | connection (c : Nat)
  deriving DecidableEq

structure UpstreamRequest (D : Type) where
  /-- the context of the content module is there -/
  started : Bool
  reqLen : Nat
  upc : UpcPointer
  hasSentRequest : Bool
  retries : Int
  state : ContentState D
  closed : Bool

structure Pool where
  /-- `none` where there is no such connection, or no more -/
  conns : Nat → Option UpstreamConnection
  next : Nat
  /-- `idle_head` of each address -/
  idle : Nat → List Nat
  /-- `active_head` -/
  active : Nat → List Nat
  idleNum : Nat → Int

structure UpstreamRead where
  request : Nat
  got : List UpstreamByte
  deriving DecidableEq

structure PoolWorld (D : Type) where
  pool : Pool
  requests : Nat → UpstreamRequest D
  log : List UpstreamRead

/-- What the loop's stream does in a call. -/
inductive StreamIo
  | blocked
  | fails
  | bytes (n : Nat)

/-- What the load balance picks, and whether a connection to it can be made. -/
inductive Picked
  /-- a dynamic upstream that is not there yet -/
  | again
  | error
  | address (a : Nat) (connects : Bool)

inductive PoolAct
  | start (r reqLen : Nat) (retries : Int)
  | get (r : Nat) (picked : Picked)
  | write (r : Nat) (io : StreamIo) (picked : Picked)
  | headers (r : Nat) (io : StreamIo) (picked : Picked)
  | body (r bufLen : Nat) (io : StreamIo)
  /-- a filter fails, or another body takes the place of the upstream's -/
  | breaks (r : Nat)
  /-- the request is closed in state `PHL_REQUEST_STATE_DONE` -/
  | finish (r : Nat)
  /-- the request is closed in another state, or redirected -/
  | abort (r : Nat)
  /-- the upstream answers the oldest request that waits for it -/
  | answer (c : Nat) (data : Bytes)
  | hangup (c : Nat)
  /-- `phl_upstream_on_active` on an idle connection -/
  | active (c : Nat)

namespace UpstreamInput

def all (i : UpstreamInput) : List UpstreamByte := i.preread.getD [] ++ i.unread

/-- `phl_upstream_connection_read`, where the stream returns `k` bytes if it has and may. -/
def read (i : UpstreamInput) (bufLen k : Nat) : List UpstreamByte × UpstreamInput :=
  match i.preread with
  | some pre =>
    if bufLen < pre.length then (pre.take bufLen, { i with preread := some (pre.drop bufLen) })
    else
      let n := min k (bufLen - pre.length)
      (pre ++ i.unread.take n, ⟨none, i.unread.drop n⟩)
  | none => (i.unread.take (min k bufLen), ⟨none, i.unread.drop (min k bufLen)⟩)

/-- `phl_upstream_connection_read_notfinish`, `none` where its assertion fails. -/
def readNotfinish (i : UpstreamInput) (left : List UpstreamByte) : Option UpstreamInput :=
  if left = [] then some i
  else if i.preread = none then some { i with preread := some left }
  else none

end UpstreamInput

section Rounds

variable {D : Type}

/-- What a call of a content handler comes to, and the bytes that it has read. -/
structure ContentRound (D : Type) where
  state : ContentState D
  input : UpstreamInput
  got : List UpstreamByte
  failed : Bool

/-- `phl_upstream_content_generate_response_headers` after the request has been sent. -/
def headersRound (conf : ContentConf D) (s : ContentState D) (i : UpstreamInput) (k : Nat) :
    Option (ContentRound D) :=
  match conf.ops.parseResponseHeaders with
  | none =>
    some ⟨{ s with
      resp := { s.resp with statusCode := 200 }
      phase := .body
      originalLength := s.resp.contentLength }, i, [], false⟩
  | some parse =>
    let read := i.read 4096 k
    if read.1 = [] then some ⟨s, read.2, [], false⟩
    else
      let parsed := parse s.resp (read.1.map Prod.snd)
      if parsed.2.1 < 0 then some ⟨{ s with resp := parsed.1 }, read.2, read.1, true⟩
      else (read.2.readNotfinish (read.1.drop parsed.2.1.toNat)).map fun left =>
        if parsed.2.2 = false then ⟨{ s with resp := parsed.1 }, left, read.1, false⟩
        else if parsed.1.statusCode ∈ conf.retryStatusCodes then
          ⟨{ s with resp := parsed.1 }, left, read.1, true⟩
        else ⟨{ s with
          resp := parsed.1
          phase := .body
          originalLength := parsed.1.contentLength }, left, read.1, false⟩

/-- The end of a round of `phl_request_response_body` that has made `len` bytes. -/
def bodyEnd (s : ContentState D) (made : Bytes) (len : Nat) : ContentState D :=
  let isLast := match s.originalLength with
    | some n => decide (n ≤ s.generatedLength + len)
    | none => decide (len = 0)
  { s with
    generatedLength := s.generatedLength + len
    body := s.body ++ made
    phase := if isLast then .over else .body }

/-- All of the original length has been generated. -/
def ContentState.skipsGenerate (s : ContentState D) : Bool :=
  s.originalLength.any fun n => decide (n ≤ s.generatedLength)

def UpstreamOps.bodyDone (ops : UpstreamOps D) (s : ContentState D) : Bool :=
  ops.isResponseBodyDone.any fun done => done s.resp

/-- What the module makes of `data`, which is in the buffer. -/
def UpstreamOps.build (ops : UpstreamOps D) (resp : UpstreamResp D) (data : Bytes) (bufLen : Nat) :
    UpstreamResp D × Int × Bytes :=
  match ops.buildResponseBody with
  | none => (resp, data.length, data)
  | some buildResponseBody => buildResponseBody resp data bufLen

/-- A round of `phl_request_response_body` over
`phl_upstream_content_generate_response_body`. -/
def bodyRound (conf : ContentConf D) (s : ContentState D) (i : UpstreamInput) (bufLen k : Nat) :
    ContentRound D :=
  if s.skipsGenerate then ⟨{ s with phase := .over }, i, [], false⟩
  else if conf.ops.bodyDone s then ⟨bodyEnd s [] 0, i, [], false⟩
  else
    let read := i.read bufLen k
    if read.1 = [] then ⟨s, read.2, [], false⟩
    else
      let built := conf.ops.build s.resp (read.1.map Prod.snd) bufLen
      if built.2.1 = -2 then ⟨{ s with resp := built.1 }, read.2, read.1, false⟩
      else if built.2.1 < 0 then ⟨{ s with resp := built.1 }, read.2, read.1, true⟩
      else ⟨bodyEnd { s with resp := built.1 } built.2.2 built.2.1.toNat, read.2, read.1, false⟩

/-- `phl_request_reset_response` -/
def ContentState.reset (s : ContentState D) : ContentState D :=
  if s.resp.statusCode = 0 then s
  else { s with
    resp := { s.resp with statusCode := 0, contentLength := none, headers := [] }
    generatedLength := 0 }

end Rounds

/-- `*is_done` is always set. -/
def phlRedisParseResponseHeaders (resp : UpstreamResp Unit) (data : Bytes) :
    UpstreamResp Unit × Int × Bool :=
  if data.head? = some 45 then ({ resp with statusCode := 500 }, 1, true)
  else if data.take 5 = bytes "$-1\r\n" then ({ resp with statusCode := 404 }, 5, true)
  else ({ resp with statusCode := 200 }, 0, true)

def phlRedisUpstreamOps : UpstreamOps Unit where
  parseResponseHeaders := some phlRedisParseResponseHeaders
  isResponseBodyDone := none
  buildResponseBody := none

namespace Pool

def setConn (p : Pool) (c : Nat) (conn : Option UpstreamConnection) : Pool :=
  { p with conns := Function.update p.conns c conn }

def setIdle (p : Pool) (a : Nat) (l : List Nat) (num : Int) : Pool :=
  { p with idle := Function.update p.idle a l, idleNum := Function.update p.idleNum a num }

def setActive (p : Pool) (a : Nat) (l : List Nat) : Pool :=
  { p with active := Function.update p.active a l }

/-- Its node is taken off the list that it is on. -/
def unlink (p : Pool) (a c : Nat) : Pool :=
  (p.setIdle a ((p.idle a).erase c) (p.idleNum a)).setActive a ((p.active a).erase c)

def phlUpstreamConnectionClose (p : Pool) (c : Nat) : Pool :=
  match p.conns c with
  | none => p
  | some conn =>
    let a := conn.address
    let p := p.unlink a c
    let p := if conn.request = none then p.setIdle a (p.idle a) (p.idleNum a - 1) else p
    p.setConn c none

/-- The rest of `phl_upstream_get_connection`, once the load balance has picked. -/
def phlUpstreamGetConnection (p : Pool) (r : Nat) : Picked → Pool × UpcPointer
  | .again => (p, .ptrAgain)
  | .error => (p, .ptrError)
  | .address a connects =>
    match p.idle a with
    | c :: rest =>
      (((p.setIdle a rest (p.idleNum a - 1)).setActive a (p.active a ++ [c])).setConn c
        ((p.conns c).map fun conn => { conn with request := some r }), .connection c)
    | [] =>
      if connects then
        ({ (p.setActive a (p.active a ++ [p.next])).setConn p.next
            (some ⟨a, false, ⟨none, []⟩, 0, false, some r, none, []⟩) with
          next := p.next + 1 }, .connection p.next)
      else (p, .ptrError)

/-- The end of `phl_upstream_release_connection` of a connection that is kept. -/
def keepalive (p : Pool) (c : Nat) (conn : UpstreamConnection) : Pool :=
  let a := conn.address
  let p := (p.setConn c (some { conn with request := none })).setIdle a (p.idle a)
    (p.idleNum a + 1)
  let p := p.unlink a c
  p.setIdle a (p.idle a ++ [c]) (p.idleNum a)

/-- It closes the oldest idle connection where there are too many. `none` where an assertion
fails. -/
def phlUpstreamReleaseConnection (idleMax : Nat) (p : Pool) (c : Nat) (isClean : Bool) :
    Option Pool :=
  (p.conns c).bind fun conn =>
    if conn.request = none then none
    else if conn.error ∨ isClean = false ∨ conn.closed then some (p.phlUpstreamConnectionClose c)
    else if idleMax < p.idleNum conn.address then
      match p.idle conn.address with
      | oldest :: _ => some ((p.phlUpstreamConnectionClose oldest).keepalive c conn)
      | [] => none
    else some (p.keepalive c conn)

/-- The old connection is closed. -/
def phlUpstreamRetryConnection (idleMax : Nat) (p : Pool) (old : Nat) (picked : Picked) :
    Option (Pool × UpcPointer) :=
  (p.conns old).bind fun conn => conn.request.bind fun r =>
    (p.phlUpstreamReleaseConnection idleMax old false).map fun p =>
      p.phlUpstreamGetConnection r picked

end Pool

/-- `phl_upstream_connection_write` of the rest of `dataLen` bytes, of which the stream takes `n`;
and whether all is sent. -/
def phlUpstreamConnectionWrite (conn : UpstreamConnection) (r dataLen n : Nat) :
    Option (UpstreamConnection × Bool) :=
  let left := dataLen - conn.prewriteLen
  let asks := 0 < n ∧ conn.writer ≠ some r
  if n ≤ left then
    some ({ conn with
      prewriteLen := if n = left then 0 else n
      writer := if asks then some r else conn.writer
      asked := if asks then conn.asked ++ [r] else conn.asked }, decide (n = left))
  else none

section World

variable {D : Type}

def UpstreamRequest.init : UpstreamRequest D where
  started := false
  reqLen := 0
  upc := .null
  hasSentRequest := false
  retries := 0
  state := ⟨⟨0, 0, [], none, none⟩, .headers, none, 0, []⟩
  closed := false

namespace PoolWorld

def setRequest (w : PoolWorld D) (r : Nat) (q : UpstreamRequest D) : PoolWorld D :=
  { w with requests := Function.update w.requests r q }

/-- `none` where the source takes a pointer that is none. -/
def phlUpstreamContentFail (conf : ContentConf D) (w : PoolWorld D) (r c : Nat)
    (conn : UpstreamConnection) (picked : Picked) : Option (PoolWorld D) :=
  let q := w.requests r
  let pool := w.pool.setConn c (some { conn with error := true })
  if q.retries < 0 ∨ conf.maxRetries ≤ q.retries then
    let state := if q.state.resp.statusCode ≠ 0 then
        { q.state with phase := .body, originalLength := q.state.resp.contentLength }
      else { q.state with phase := .over, resp := { q.state.resp with statusCode := 502 } }
    some ({ w with pool := pool }.setRequest r { q with
      retries := if q.retries < 0 then q.retries else q.retries + 1
      state := state })
  else
    (pool.phlUpstreamRetryConnection conf.idleMax c picked).bind fun got =>
      let q := { q with retries := q.retries + 1, state := q.state.reset, upc := got.2 }
      match got.2 with
      | .connection _ =>
        some ({ w with pool := got.1 }.setRequest r { q with hasSentRequest := false })
      | .ptrError =>
        some ({ w with pool := got.1 }.setRequest r { q with
          state := { q.state with phase := .over, resp := { q.state.resp with statusCode := 500 } } })
      | _ => none

/-- `phl_upstream_content_ctx_free` -/
def phlUpstreamContentCtxFree (conf : ContentConf D) (w : PoolWorld D) (r : Nat) (isDone : Bool) :
    Option (PoolWorld D) :=
  match (w.requests r).upc with
  | .null => some w
  | .connection c =>
    (w.pool.phlUpstreamReleaseConnection conf.idleMax c isDone).map fun pool =>
      { w with pool := pool }
  | _ => none

/-- `phl_request_run` after `PHL_ERROR` of the body, and of `phl_upstream_connection_read` there. -/
def bodyFails (conf : ContentConf D) (w : PoolWorld D) (r : Nat) : Option (PoolWorld D) :=
  let q := w.requests r
  if q.state.resp.statusCode = 0 then
    (w.phlUpstreamContentCtxFree conf r false).map fun w =>
      w.setRequest r { q with upc := .null, hasSentRequest := false, closed := true }
  else some (w.setRequest r { q with state := { q.state with phase := .over } })

end PoolWorld

open PoolWorld

/-- A call of a handler on the connection of a request. -/
def onConnection (w : PoolWorld D) (r : Nat)
    (act : Nat → UpstreamConnection → Option (PoolWorld D)) : Option (PoolWorld D) :=
  match (w.requests r).upc with
  | .connection c => (w.pool.conns c).bind (act c)
  | _ => none

def writeStep (conf : ContentConf D) (w : PoolWorld D) (r : Nat) (io : StreamIo)
    (picked : Picked) (c : Nat) (conn : UpstreamConnection) : Option (PoolWorld D) :=
  let q := w.requests r
  match io with
  | .blocked => some w
  | .fails => w.phlUpstreamContentFail conf r c { conn with closed := true } picked
  | .bytes n =>
    (phlUpstreamConnectionWrite conn r q.reqLen n).map fun x =>
      { w with pool := w.pool.setConn c (some x.1) }.setRequest r
        { q with hasSentRequest := x.2 }

def headersStep (conf : ContentConf D) (w : PoolWorld D) (r : Nat) (io : StreamIo)
    (picked : Picked) (c : Nat) (conn : UpstreamConnection) : Option (PoolWorld D) :=
  let q := w.requests r
  match io with
  | .blocked => none
  | .fails =>
    if conf.ops.parseResponseHeaders.isNone then none
    else w.phlUpstreamContentFail conf r c
      { conn with closed := true, input := { conn.input with preread := none } } picked
  | .bytes k =>
    (headersRound conf q.state conn.input k).bind fun round =>
      let conn := { conn with input := round.input }
      let w : PoolWorld D := ⟨w.pool.setConn c (some conn),
        Function.update w.requests r { q with state := round.state }, w.log ++ [⟨r, round.got⟩]⟩
      if round.failed then w.phlUpstreamContentFail conf r c conn picked else some w

def bodyStep (conf : ContentConf D) (w : PoolWorld D) (r bufLen : Nat) (io : StreamIo) (c : Nat)
    (conn : UpstreamConnection) : Option (PoolWorld D) :=
  let q := w.requests r
  match io with
  | .blocked => none
  | .fails =>
    if q.state.skipsGenerate ∨ conf.ops.bodyDone q.state then none
    else
      let conn := { conn with closed := true, input := { conn.input with preread := none } }
      { w with pool := w.pool.setConn c (some conn) }.bodyFails conf r
  | .bytes k =>
    let round := bodyRound conf q.state conn.input bufLen k
    let w : PoolWorld D := ⟨w.pool.setConn c (some { conn with input := round.input }),
      Function.update w.requests r { q with state := round.state }, w.log ++ [⟨r, round.got⟩]⟩
    if round.failed then w.bodyFails conf r else some w

def poolStep (conf : ContentConf D) (w : PoolWorld D) : PoolAct → Option (PoolWorld D)
  | .start r reqLen retries =>
    let q := w.requests r
    if q.started ∨ q.closed then none
    else some (w.setRequest r { q with started := true, reqLen := reqLen, retries := retries })
  | .get r picked =>
    let q := w.requests r
    if q.started ∧ q.closed = false ∧ q.state.phase = .headers ∧ q.upc = .null then
      let got := w.pool.phlUpstreamGetConnection r picked
      match got.2 with
      | .connection _ => some ({ w with pool := got.1 }.setRequest r { q with upc := got.2 })
      | .ptrError => some (w.setRequest r { q with state := { q.state with phase := .over } })
      | _ => some w
    else none
  | .write r io picked =>
    let q := w.requests r
    if q.closed = false ∧ q.state.phase = .headers ∧ q.hasSentRequest = false then
      onConnection w r (writeStep conf w r io picked)
    else none
  | .headers r io picked =>
    let q := w.requests r
    if q.closed = false ∧ q.state.phase = .headers ∧ q.hasSentRequest then
      onConnection w r (headersStep conf w r io picked)
    else none
  | .body r bufLen io =>
    let q := w.requests r
    if q.closed = false ∧ q.state.phase = .body then
      onConnection w r (bodyStep conf w r bufLen io)
    else none
  | .breaks r =>
    let q := w.requests r
    if q.closed = false ∧ q.state.phase = .body then
      some (w.setRequest r { q with state := { q.state with phase := .over } })
    else none
  | .finish r =>
    let q := w.requests r
    if q.started ∧ q.closed = false ∧ q.state.phase = .over then
      (w.phlUpstreamContentCtxFree conf r true).map fun w =>
        w.setRequest r { q with upc := .null, hasSentRequest := false, closed := true }
    else none
  | .abort r =>
    let q := w.requests r
    if q.started ∧ q.closed = false then
      (w.phlUpstreamContentCtxFree conf r false).map fun w =>
        w.setRequest r { (.init : UpstreamRequest D) with
          state := { q.state.reset with
            resp := { q.state.reset.resp with data := none }
            phase := .headers } }
    else none
  | .answer c data =>
    (w.pool.conns c).map fun conn =>
      { w with pool := w.pool.setConn c (some { conn with
        input := { conn.input with
          unread := conn.input.unread ++ data.map fun b => (conn.asked.head?, b) }
        asked := conn.asked.tail }) }
  | .hangup c =>
    (w.pool.conns c).map fun conn =>
      { w with pool := w.pool.setConn c (some { conn with closed := true }) }
  | .active c =>
    (w.pool.conns c).bind fun conn =>
      if conn.request = none then
        some { w with pool := w.pool.phlUpstreamConnectionClose c }
      else none

structure PoolStart (w : PoolWorld D) : Prop where
  conns : ∀ c, w.pool.conns c = none
  idle : ∀ a, w.pool.idle a = [] ∧ w.pool.active a = [] ∧ w.pool.idleNum a = 0
  requests : ∀ r, w.requests r = .init
  log : w.log = []

end World

/-- Nothing is left on the connection of what was there before. -/
structure UpstreamConnection.Clean (conn : UpstreamConnection) : Prop where
  preread : conn.input.preread = none
  prewrite : conn.prewriteLen = 0
  error : conn.error = false
  /-- the response of the last request was read to its end -/
  unread : conn.input.unread = []
  asked : conn.asked = []

/-- What was read is part of the request's own response. -/
def UpstreamRead.Own (e : UpstreamRead) : Prop := ∀ x ∈ e.got, x.1 = some e.request

end Phorklift
