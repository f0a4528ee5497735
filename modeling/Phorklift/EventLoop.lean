import Phorklift.Connection
import Phorklift.Transition
import Mathlib.Logic.Function.Basic

/-! The event loop with its HTTP/1 connections and their requests, one frame of the C stack at a
time. -/

namespace Phorklift
namespace EventLoop

abbrev ConnId := Nat
abbrev ReqId := Nat
abbrev ListenId := Nat

structure Conn where
  listen : ListenId
  state : ConnectionState
  /-- `u.request` -/
  request : Option ReqId
  /-- `send_buf_len`, `none` where there is no send buffer -/
  sendBufLen : Option Nat
  freed : Bool
  deriving DecidableEq

structure Req where
  conn : ConnId
  state : RequestState
  version : Nat
  statusCode : Int
  isBroken : Bool
  closed : Bool
  freed : Bool
  deriving DecidableEq

/-- A function on the C stack, or what is left of it after a call. -/
inductive Frame
  /-- `phl_request_run` -/
  | run (r : ReqId)
  /-- `phl_request_steps[r->state]` -/
  | step (r : ReqId)
  /-- `phl_request_run_post` -/
  | runPost (r : ReqId)
  /-- `phl_request_close` -/
  | requestClose (r : ReqId)
  /-- `phl_request_do_close`, before it logs -/
  | doClose (r : ReqId)
  /-- `phl_request_do_close`, after it has logged -/
  | clearStuff (r : ReqId)
  /-- `phl_connection_close` -/
  | connectionClose (c : ConnId)
  /-- `phl_connection_close`, after `phl_request_close` -/
  | connectionClosed (c : ConnId)
  /-- `phl_http1_set_state` -/
  | http1SetState (c : ConnId)
  /-- the loop of `phl_connection_on_readable` -/
  | onReadable (c : ConnId)
  /-- the loop of `phl_connection_defer_routine` -/
  | deferRoutine
  /-- the loop of `phl_request_defer_free` -/
  | deferFree
  deriving DecidableEq

inductive Event
  | accepted (c : ConnId) (l : ListenId)
  | stepped (r : ReqId)
  /-- the request is marked closed -/
  | closed (r : ReqId)
  /-- `phl_request_access_log` and `phl_request_stats` -/
  | logged (r : ReqId)
  /-- the request is put on `phl_request_defer_list` -/
  | deferred (r : ReqId)
  | destroyed (r : ReqId)
  /-- the connection leaves `stats->connections` of its listener -/
  | decremented (c : ConnId) (l : ListenId)
  | freed (c : ConnId)
  deriving DecidableEq

structure World where
  conns : ConnId → Option Conn
  reqs : ReqId → Option Req
  /-- `stats->connections` -/
  connections : ListenId → Int
  /-- `phl_connection_defer_list` -/
  connDefer : List ConnId
  /-- `phl_request_defer_list` -/
  reqDefer : List ReqId
  /-- innermost call first -/
  stack : List Frame
  trace : List Event

/-- What the library does where the source does not look. -/
structure LoopLib where
  /-- `loop_stream_read` of a stream after `loop_stream_close` -/
  readClosed : Int

/-- A closed stream has no bytes to give: a result below 0 says why it is closed. -/
structure LoopLib.Lawful (lib : LoopLib) : Prop where
  readClosed : lib.readClosed ≤ 0

namespace World

def setConn (c : ConnId) (x : Conn) (w : World) : World :=
  { w with conns := Function.update w.conns c (some x) }

def setReq (r : ReqId) (q : Req) (w : World) : World :=
  { w with reqs := Function.update w.reqs r (some q) }

def push (fs : List Frame) (w : World) : World := { w with stack := fs ++ w.stack }

def emit (e : Event) (w : World) : World := { w with trace := w.trace ++ [e] }

/-- `atomic_fetch_add` of `stats->connections` -/
def addConnections (l : ListenId) (n : Int) (w : World) : World :=
  { w with connections := Function.update w.connections l (w.connections l + n) }

end World

def phlConnectionPutDefer (c : ConnId) (w : World) : World :=
  if c ∈ w.connDefer then w else { w with connDefer := w.connDefer ++ [c] }

def phlConnectionSetState (state : ConnectionState) (c : ConnId) (w : World) : Option World := do
  let x ← w.conns c
  if x.state = .closed then some w else some (w.setConn c { x with state := state })

def phlConnectionClose (c : ConnId) (w : World) : Option World := do
  let x ← w.conns c
  if x.state = .closed then some w
  else
    let w := w.setConn c { x with state := .closed }
    match x.request with
    | none => some (w.push [.connectionClosed c])
    | some r => some (w.push [.requestClose r, .connectionClosed c])

/-- `phl_connection_close` from the counter on; the send buffer is freed. -/
def phlConnectionClosed (c : ConnId) (w : World) : Option World := do
  let x ← w.conns c
  let w := (w.addConnections x.listen (-1)).emit (.decremented c x.listen)
  some (phlConnectionPutDefer c (w.setConn c { x with sendBufLen := none }))

/-- What the socket takes of the send buffer; `writeLen` is `none` for an error. -/
def written (writeLen : Option Nat) (x : Conn) : FlushRet × Conn :=
  match x.sendBufLen with
  | none | some 0 => (.ok, x)
  | some len =>
    match writeLen with
    | none => (.error, x)
    | some n =>
      if n < len then (.again, { x with sendBufLen := some (len - n) })
      else (.ok, { x with sendBufLen := some 0 })

def phlConnectionFlush (writeLen : Option Nat) (c : ConnId) (w : World) :
    Option (FlushRet × World) := do
  let x ← w.conns c
  if x.state = .closed then some (.error, w)
  else
    let flushed := written writeLen x
    let w := w.setConn c flushed.2
    some (flushed.1, if flushed.1 = .error then w.push [.connectionClose c] else w)

/-- The space that the caller gets is left to the caller's acts. -/
def phlConnectionMakeSpace (bufSize size : Nat) (writeLen : Option Nat) (c : ConnId) (w : World) :
    Option World := do
  let x ← w.conns c
  if x.state = .closed then some w
  else if bufSize < size then some w
  else
    let w := phlConnectionPutDefer c w
    match x.sendBufLen with
    | none => some (w.setConn c { x with sendBufLen := some 0 })
    | some len =>
      if size ≤ bufSize - len then some w
      else (phlConnectionFlush writeLen c w).map Prod.snd

/-- What a step appends to the send buffer. -/
def appendSent (bufSize n : Nat) (c : ConnId) (w : World) : Option World := do
  let x ← w.conns c
  let len ← x.sendBufLen
  if x.state ≠ .closed ∧ len + n ≤ bufSize then
    some (w.setConn c { x with sendBufLen := some (len + n) })
  else none

def phlRequestNew (c : ConnId) : Req := ⟨c, .receiveHeaders, 0, 0, false, false, false⟩

/-- `none` where the assertion fails. -/
def phlHttp1RequestClose (r : ReqId) (w : World) : Option World := do
  let q ← w.reqs r
  let x ← w.conns q.conn
  if x.request ≠ some r then none
  else
    let w := w.setConn q.conn { x with request := none }
    if q.state ≠ .done ∨ q.version = 0 then some (w.push [.connectionClose q.conn])
    else phlConnectionSetState .idle q.conn w

def phlRequestClose (r : ReqId) (w : World) : Option World := do
  let q ← w.reqs r
  if q.closed then some w
  else
    let w := (w.setReq r { q with closed := true }).emit (.closed r)
    phlHttp1RequestClose r (w.push [.doClose r])

def phlRequestDoClose (r : ReqId) (w : World) : World :=
  (w.emit (.logged r)).push [.clearStuff r]

/-- The end of `phl_request_do_close`. -/
def phlRequestClearStuff (r : ReqId) (w : World) : World :=
  { w with reqDefer := w.reqDefer ++ [r] }.emit (.deferred r)

def phlRequestRun (r : ReqId) (w : World) : Option World := do
  let q ← w.reqs r
  if q.closed then some w
  else if q.state = .done then some (w.push [.requestClose r])
  else some ((w.emit (.stepped r)).push [.step r])

/-- What `phl_request_run` makes of a step's return value. -/
def phlRequestRunReturn (ret : Int) (r : ReqId) (w : World) : Option World := do
  let q ← w.reqs r
  if ret = phlOk ∨ ret = phlBreak then
    some ((w.setReq r { q with state := q.state.next }).push [.run r])
  else if ret = phlAgain then some (w.push [.runPost r])
  else if ret = phlError ∧ q.statusCode = 0 ∧
      RequestState.responseHeaders1.index < q.state.index then
    some (w.push [.requestClose r])
  else
    let code := if ret = phlError then if q.statusCode ≠ 0 then q.statusCode else 500 else ret
    some ((w.setReq r { q with
      isBroken := true, statusCode := code, state := .responseHeaders1 }).push [.run r])

def phlHttp1SetState (c : ConnId) (w : World) : Option World := do
  let x ← w.conns c
  match x.request with
  | none => phlConnectionSetState .idle c w
  | some r =>
    let q ← w.reqs r
    if q.state.index < RequestState.responseHeaders1.index then
      phlConnectionSetState .reading c w
    else phlConnectionSetState .writing c w

/-- A new request is at `r`. -/
def phlHttp1OnReadable (r : ReqId) (c : ConnId) (w : World) : Option World := do
  let x ← w.conns c
  match x.request with
  | some r => some (w.push [.run r, .http1SetState c])
  | none =>
    if w.reqs r = none then
      let w := (w.setReq r (phlRequestNew c)).setConn c { x with request := some r }
      some (w.push [.run r, .http1SetState c])
    else none

def phlHttp1OnWritable (c : ConnId) (w : World) : Option World := do
  let x ← w.conns c
  match x.request with
  | none => some w
  | some r => some (w.push [.run r, .http1SetState c])

/-- One round of the loop of `phl_connection_on_readable`. -/
def phlConnectionOnReadable (lib : LoopLib) (readLen : Int) (r : ReqId) (c : ConnId) (w : World) :
    Option World := do
  let x ← w.conns c
  if x.state = .closed ∧ readLen ≠ lib.readClosed then none
  else if readLen < 0 then some (w.push [.connectionClose c])
  else if readLen = 0 then some w
  else phlHttp1OnReadable r c (w.push [.onReadable c])

def phlConnectionOnWritable (writeLen : Option Nat) (c : ConnId) (w : World) : Option World := do
  let flushed ← phlConnectionFlush writeLen c w
  if flushed.1 ≠ .ok then some flushed.2 else phlHttp1OnWritable c flushed.2

/-- One round of the loop of `phl_connection_defer_routine`. -/
def phlConnectionDeferRoutine (writeLen : Option Nat) (w : World) : Option World :=
  match w.connDefer with
  | [] => none
  | c :: rest => do
    let w := { w with connDefer := rest }.push [.deferRoutine]
    let x ← w.conns c
    if x.state = .closed then some ((w.setConn c { x with freed := true }).emit (.freed c))
    else
      let flushed ← phlConnectionFlush writeLen c w
      if flushed.1 = .ok then
        let x ← flushed.2.conns c
        some (flushed.2.setConn c { x with sendBufLen := none })
      else some flushed.2

/-- One round of the loop of `phl_request_defer_free`. -/
def phlRequestDeferFree (w : World) : Option World :=
  match w.reqDefer with
  | [] => some w
  | r :: rest => do
    let w := { w with reqDefer := rest }.push [.deferFree]
    let q ← w.reqs r
    some ((w.setReq r { q with freed := true }).emit (.destroyed r))

/-- Code of modules, Lua and subrequests, which may call `phl_request_run` of any request. -/
def Frame.callsOut : Frame → Bool
  | .step _ | .runPost _ | .doClose _ | .clearStuff _ | .deferRoutine => true
  | _ => false

inductive Act
  /-- `phl_connection_on_accept` -/
  | accept (c : ConnId) (l : ListenId)
  | readable (c : ConnId)
  | writable (c : ConnId) (writeLen : Option Nat)
  /-- `phl_connection_recv_timedout` or `phl_connection_send_timedout` -/
  | timedout (c : ConnId)
  /-- the deferred routines, in the order of their ranks -/
  | defers
  /-- a call of `phl_request_run` from elsewhere -/
  | wake (r : ReqId)
  | read (readLen : Int) (r : ReqId)
  | makeSpace (size : Nat) (writeLen : Option Nat)
  | append (n : Nat)
  /-- the step writes the request -/
  | write (version : Nat) (statusCode : Int)
  /-- the step returns -/
  | ret (n : Int)
  | flush (writeLen : Option Nat)
  /-- the function goes on by itself -/
  | go
  deriving DecidableEq

/-- The connection that an event of the loop is about. -/
def live (c : ConnId) (w : World) : Option Conn := do
  let x ← w.conns c
  if w.stack = [] ∧ x.freed = false then some x else none

/-- The rest of the function on top of the stack, which `w` has no more. -/
def goOn (w : World) : Frame → Option World
  | .run r => phlRequestRun r w
  | .runPost _ => some w
  | .requestClose r => phlRequestClose r w
  | .doClose r => some (phlRequestDoClose r w)
  | .clearStuff r => some (phlRequestClearStuff r w)
  | .connectionClose c => phlConnectionClose c w
  | .connectionClosed c => phlConnectionClosed c w
  | .http1SetState c => phlHttp1SetState c w
  | .deferRoutine => if w.connDefer = [] then some w else none
  | .deferFree => phlRequestDeferFree w
  | .step _ | .onReadable _ => none

def loopStep (lib : LoopLib) (bufSize : Nat) (w : World) : Act → Option World
  | .accept c l =>
    if w.stack = [] ∧ w.conns c = none then
      let w := (w.addConnections l 1).emit (.accepted c l)
      some (w.setConn c ⟨l, .reading, none, none, false⟩)
    else none
  | .readable c => (live c w).map fun _ => w.push [.onReadable c]
  | .writable c writeLen => (live c w).bind fun _ => phlConnectionOnWritable writeLen c w
  | .timedout c => (live c w).map fun _ => w.push [.connectionClose c]
  | .defers => if w.stack = [] then some (w.push [.deferRoutine, .deferFree]) else none
  | .wake r => do
    let q ← w.reqs r
    if q.freed = false ∧ w.stack.head?.all Frame.callsOut then some (w.push [.run r]) else none
  | act =>
    match w.stack with
    | [] => none
    | f :: rest =>
      match act, f with
      | .read readLen r, .onReadable c =>
        phlConnectionOnReadable lib readLen r c { w with stack := rest }
      | .makeSpace size writeLen, .step r => do
        let q ← w.reqs r
        phlConnectionMakeSpace bufSize size writeLen q.conn w
      | .append n, .step r => do
        let q ← w.reqs r
        appendSent bufSize n q.conn w
      | .write version statusCode, .step r => do
        let q ← w.reqs r
        some (w.setReq r { q with version := version, statusCode := statusCode })
      | .ret n, .step r => phlRequestRunReturn n r { w with stack := rest }
      | .flush writeLen, .deferRoutine => phlConnectionDeferRoutine writeLen { w with stack := rest }
      | .go, f => goOn { w with stack := rest } f
      | _, _ => none

/-- A worker before its first connection. -/
structure Started (w : World) : Prop where
  conns : w.conns = fun _ => none
  reqs : w.reqs = fun _ => none
  connDefer : w.connDefer = []
  reqDefer : w.reqDefer = []
  stack : w.stack = []
  trace : w.trace = []
  connections : w.connections = fun _ => 0

end EventLoop
end Phorklift
