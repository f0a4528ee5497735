import Phorklift.Bytes

/-! The request, its configuration and the world that its state machine runs in. -/

namespace Phorklift

abbrev phlOk : Int := 0
abbrev phlError : Int := -1
abbrev phlAgain : Int := -2
abbrev phlBreak : Int := -3

/-- `PHL_CONTENT_LENGTH_INIT`, which is `SIZE_MAX`. -/
def phlContentLengthInit : Nat := 2 ^ 64 - 1

structure Header where
  name : Bytes
  value : Bytes
  deriving DecidableEq, Repr

/-- `phl_header_get` -/
def phlHeaderGet (hs : List Header) (name : Bytes) : Option Header :=
  hs.find? fun h => strcasecmp (cstr h.name) name

/-- `phl_header_estimate_size` -/
def phlHeaderEstimateSize (hs : List Header) : Nat :=
  (hs.map fun h => h.name.length + h.value.length + 4).sum

structure Uri where
  raw : Bytes
  path : Option Bytes
  isRewrited : Bool
  query : Option Bytes
  deriving DecidableEq, Repr

structure Req where
  /-- `none` where the source has 0 -/
  method : Option Bytes
  version : Nat
  contentLength : Nat
  uri : Uri
  host : Option Bytes
  headers : List Header
  /-- the bytes the chunked decoder has been given, `none` where it is not enabled -/
  chunked : Option Bytes
  bodyBuf : Bytes
  bodyFinished : Bool
  deriving DecidableEq, Repr

def Req.init : Req where
  method := none
  version := 0
  contentLength := phlContentLengthInit
  uri := ⟨[], none, false, none⟩
  host := none
  headers := []
  chunked := none
  bodyBuf := []
  bodyFinished := false

structure Resp where
  /-- 0 until something sets it -/
  statusCode : Int
  headers : List Header
  contentLength : Nat
  contentOriginalLength : Nat
  contentGeneratedLength : Nat
  easyString : Bytes
  easyStrLen : Nat
  easyFd : Nat
  deriving DecidableEq, Repr

def Resp.init : Resp where
  statusCode := 0
  headers := []
  contentLength := phlContentLengthInit
  contentOriginalLength := 0
  contentGeneratedLength := 0
  easyString := []
  easyStrLen := 0
  easyFd := 0

inductive RequestState
  | receiveHeaders
  | locateConfHost
  | locateConfPath
  | receiveBodySync
  | processHeaders
  | processBody
  | responseHeaders1
  | responseHeaders2
  | responseHeaders3
  | responseBody
  | done
  deriving DecidableEq, Repr

namespace RequestState

/-- The value of the C enumerator. -/
def index : RequestState → Nat
  | receiveHeaders => 0
  | locateConfHost => 1
  | locateConfPath => 2
  | receiveBodySync => 3
  | processHeaders => 4
  | processBody => 5
  | responseHeaders1 => 6
  | responseHeaders2 => 7
  | responseHeaders3 => 8
  | responseBody => 9
  | done => 10

/-- `r->state++` -/
def next : RequestState → RequestState
  | receiveHeaders => locateConfHost
  | locateConfHost => locateConfPath
  | locateConfPath => receiveBodySync
  | receiveBodySync => processHeaders
  | processHeaders => processBody
  | processBody => responseHeaders1
  | responseHeaders1 => responseHeaders2
  | responseHeaders2 => responseHeaders3
  | responseHeaders3 => responseBody
  | responseBody => done
  | done => done

theorem index_next {s : RequestState} (h : s ≠ done) : s.next.index = s.index + 1 := by
  cases s <;> simp_all [next, index]

end RequestState

/-- The filter arrays that `phl_module_filter_run` K. -/
inductive FilterKind
  | processHeaders
  | processBody
  | responseHeaders
  deriving DecidableEq, Repr

/-- The handlers of a content module. -/
inductive ContentKind
  | processHeaders
  | processBody
  | responseHeaders
  | responseBody
  deriving DecidableEq, Repr

inductive Father
  | none
  | attached
  | detached
  deriving DecidableEq, Repr

abbrev HostId := Nat
abbrev PathId := Nat

structure Request where
  req : Req
  resp : Resp
  state : RequestState
  closed : Bool
  isBroken : Bool
  redirects : Nat
  filterIndexs : FilterKind → Nat
  namedPath : Option Bytes
  father : Father
  isHttp2 : Bool
  confHost : Option HostId
  confPath : Option PathId

/-- A body source or filter fails with one of these. -/
abbrev Failure := {n : Int // n < 0}

/-- What a handler does: `redirect` stands for a call of `phl_request_redirect` whose result
the handler returns. -/
structure Answer (W V : Type) where
  ret : Int
  req : Req
  resp : Resp
  redirect : Option Bytes
  env : W
  emit : List V

abbrev Handler (W V : Type) := Request → W → Answer W V

structure Piece (W V : Type) where
  data : Except Failure Bytes
  isLast : Bool
  env : W
  emit : List V

/-- `content.response_body(r, buf, len)` -/
abbrev BodySource (W V : Type) := Request → Nat → W → Piece W V

/-- `filters.response_body(r, data, data_len, buf_len, p_is_last)` -/
abbrev BodyFilter (W V : Type) := Request → Bytes → Nat → Bool → W → Piece W V

/-- The content handlers of a `phl_module`; `none` where the pointer is NULL. -/
structure ContentModule (W V : Type) where
  processHeaders : Option (Handler W V)
  processBody : Option (Handler W V)
  responseHeaders : Handler W V
  responseBody : Option (BodySource W V)

structure ConfPath (W V : Type) where
  reqBodyMax : Nat
  reqBodySync : Bool
  filters : FilterKind → List (Handler W V)
  bodyFilters : List (BodyFilter W V)
  content : Option (ContentModule W V)

/-- What happens to a request, in order. -/
inductive Event (V : Type)
  | located (p : PathId)
  | filter (k : FilterKind) (i : Nat) (ret : Int)
  | content (k : ContentKind) (p : PathId) (ret : Int)
  | redirected
  | broken (code : Int)
  | headers (code : Int) (contentLength : Nat) (hs : List Header)
  | source (data : Bytes)
  | body (data : Bytes) (isLast : Bool)
  | endStream
  | closed
  | env (v : V)
  deriving DecidableEq

/-- Whether `phl_request_run` is on the stack. -/
inductive Ctl
  | idle
  | running
  deriving DecidableEq

structure World (W V : Type) where
  r : Request
  /-- `recv_buffer[recv_buf_pos..recv_buf_end]` -/
  recv : Bytes
  connClosed : Bool
  ctl : Ctl
  env : W
  trace : List (Event V)

namespace World

variable {W V : Type}

def emit (w : World W V) (es : List (Event V)) : World W V :=
  { w with trace := w.trace ++ es }

@[simp] theorem emit_r (w : World W V) (es : List (Event V)) : (w.emit es).r = w.r := rfl
@[simp] theorem emit_recv (w : World W V) (es : List (Event V)) : (w.emit es).recv = w.recv := rfl
@[simp] theorem emit_env (w : World W V) (es : List (Event V)) : (w.emit es).env = w.env := rfl
@[simp] theorem emit_ctl (w : World W V) (es : List (Event V)) : (w.emit es).ctl = w.ctl := rfl
@[simp] theorem emit_connClosed (w : World W V) (es : List (Event V)) :
    (w.emit es).connClosed = w.connClosed := rfl
@[simp] theorem emit_trace (w : World W V) (es : List (Event V)) :
    (w.emit es).trace = w.trace ++ es := rfl

end World

/-- What `phl_connection_make_space` comes to on an open connection. -/
inductive Space
  | space (n : Nat)
  | again
  | error
  /-- the flush failed and closed the connection -/
  | flushFailed
  deriving DecidableEq

/-- A parser's answer on the bytes received so far: negative for an error, 0 to wait for more,
else the number of bytes it used. -/
structure Parsed (α : Type) where
  procLen : Int
  value : α

structure RequestLine where
  method : Bytes
  url : Bytes
  version : Nat

/-- A header line: `valuePos` is where its value begins. -/
structure HeaderLine where
  nameLen : Nat
  valuePos : Nat
  valueLen : Nat

structure UriParts where
  host : Option Bytes
  path : Bytes
  query : Option Bytes

/-- One call of `wuy_http_chunked_decode`: `data` skips `skip` bytes to `len` bytes of data. -/
inductive Chunk
  | error
  | data (skip len : Nat)
  | none

/-- The parsers of the library. -/
structure Libwuya where
  httpRequestLine : Bytes → Parsed RequestLine
  httpHeader : Bytes → Parsed HeaderLine
  httpUri : Bytes → Option UriParts
  httpDecodePath : Bytes → Option Bytes
  httpMethod : Bytes → Option Bytes
  /-- the decoder's past input, then its present one -/
  httpChunkedDecode : Bytes → Bytes → Chunk
  httpChunkedIsFinished : Bytes → Bool
  httpStringStatusCode : Int → Bytes

/-- How the `while` loop over `phl_dynamic_get` ends. -/
inductive DynamicRet
  | found
  | error
  | again
  deriving DecidableEq

/-- `PHL_PTR2RET` of the last call, `PHL_OK` where the loop went through. -/
def DynamicRet.toRet : DynamicRet → Int
  | .found => phlOk
  | .error => phlError
  | .again => phlAgain

/-- What the `while` loop over `phl_dynamic_get` leaves: the path it reached and the status code
that the last call may have set. -/
structure DynamicGet (W V : Type) where
  path : PathId
  ret : DynamicRet
  statusCode : Int
  env : W
  emit : List V

/-- The configuration of a listener and what lies outside the request. -/
structure Env (W V : Type) where
  path : PathId → ConfPath W V
  defaultHost : HostId
  defaultPath : HostId → PathId
  confHostLocate : Option Bytes → Option HostId
  confPathLocate : HostId → Bytes → Option PathId
  dynamicGet : PathId → Request → W → DynamicGet W V
  lib : Libwuya
  makeSpace : Nat → W → Space × W
  streamWindow : W → Nat
  /-- `read(easy_fd, buf, len)` -/
  readFd : Nat → Int → W → Except Failure Bytes × W
  /-- the memory past what was written into the send buffer -/
  stale : Nat → UInt8
  moduleCtxFree : Request → W → W × List V
  /-- what other requests, timers and peers do to the outside -/
  elsewhere : W → W → Prop

/-- `phl_request_new`, in memory that is zeroed. -/
def phlRequestNew {W V : Type} (env : Env W V) (isHttp2 : Bool) : Request where
  req := .init
  resp := .init
  state := .receiveHeaders
  closed := false
  isBroken := false
  redirects := 0
  filterIndexs := fun _ => 0
  namedPath := none
  father := .none
  isHttp2 := isHttp2
  confHost := some env.defaultHost
  confPath := some (env.defaultPath env.defaultHost)

end Phorklift
