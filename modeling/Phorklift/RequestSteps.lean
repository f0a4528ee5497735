import Phorklift.Request

/-! The steps of `phl_request_steps` and what they call. -/

namespace Phorklift

variable {W V : Type}

def phlRequestSetHost (r : Req) (hostStr : Bytes) : Bool × Req :=
  match r.host with
  | some host => (strncasecmp host hostStr hostStr.length, r)
  | none => (true, { r with host := some (lower (cstr hostStr)) })

def phlRequestSetUri (lib : Libwuya) (r : Req) (uriStr : Bytes) : Bool × Req :=
  let r := { r with uri.raw := uriStr }
  match lib.httpUri uriStr with
  | none => (false, r)
  | some parts =>
    let r := { r with uri.query := parts.query }
    let hosted := match parts.host with
      | none => (true, r)
      | some host => phlRequestSetHost r host
    if hosted.1 then
      match lib.httpDecodePath parts.path with
      | none => (false, hosted.2)
      | some path => (true, { hosted.2 with uri.path := some path })
    else (false, hosted.2)

def phlRequestAppendBody (reqBodyMax : Nat) (r : Req) (buf : Bytes) : Int × Req :=
  let bodyLen := r.bodyBuf.length + buf.length
  if buf.length = 0 then (phlOk, r)
  else if r.contentLength ≠ phlContentLengthInit then
    if r.contentLength < bodyLen then (400, r)
    else (phlOk, { r with
      bodyBuf := r.bodyBuf ++ buf
      bodyFinished := decide (r.contentLength ≤ bodyLen) })
  else if reqBodyMax ≠ 0 ∧ reqBodyMax < bodyLen then (413, r)
  else (phlOk, { r with bodyBuf := r.bodyBuf ++ buf })

/-- One header line that is not the end of the headers: `line` is the buffer from its name on. -/
def phlHttp1RequestHeader (h : HeaderLine) (line : Bytes) (r : Req) : Int × Req :=
  let valueStr := line.drop h.valuePos
  if (bytes "Content-Length").isPrefixOf line then
    let n := strtol valueStr
    let r := { r with contentLength := toSize n.value }
    if n.used ≠ h.valueLen then (400, r) else (phlOk, r)
  else if (bytes "Host").isPrefixOf line then
    let hosted := phlRequestSetHost r (valueStr.take h.valueLen)
    if hosted.1 then (phlOk, hosted.2) else (phlError, hosted.2)
  else if (bytes "Connection").isPrefixOf line then (phlOk, r)
  else if (bytes "Transfer-Encoding").isPrefixOf line then
    (phlOk, { r with chunked := some (r.chunked.getD []) })
  else
    (phlOk, { r with headers := r.headers ++ [⟨line.take h.nameLen, valueStr.take h.valueLen⟩] })

/-- The loop over header lines; every line uses at least one byte of the buffer. -/
def phlHttp1RequestHeaderLines (lib : Libwuya) : Nat → Req → Bytes → Int × Req × Bytes
  | 0, r, recv => (phlAgain, r, recv)
  | fuel + 1, r, recv =>
    let h := lib.httpHeader recv
    if h.procLen < 0 then (phlError, r, recv)
    else if h.procLen = 0 then (phlAgain, r, recv)
    else
      let rest := recv.drop h.procLen.toNat
      if h.procLen = 2 then (phlOk, r, rest)
      else
        let line := phlHttp1RequestHeader h.value recv r
        if line.1 ≠ phlOk then (line.1, line.2, rest)
        else phlHttp1RequestHeaderLines lib fuel line.2 rest

def phlHttp1RequestHeaders (lib : Libwuya) (r : Req) (recv : Bytes) : Int × Req × Bytes :=
  match r.method with
  | some _ => phlHttp1RequestHeaderLines lib (recv.length + 1) r recv
  | none =>
    let line := lib.httpRequestLine recv
    if line.procLen < 0 then (phlError, r, recv)
    else if line.procLen = 0 then (phlAgain, r, recv)
    else
      let r := { r with method := some line.value.method, version := line.value.version }
      let uri := phlRequestSetUri lib r line.value.url
      if uri.1 then
        let rest := recv.drop line.procLen.toNat
        phlHttp1RequestHeaderLines lib (rest.length + 1) uri.2 rest
      else (phlError, uri.2, recv)

/-- The loop over the chunked decoder; `past` is what the decoder has read before `buf`. -/
def phlHttp1RequestChunks (lib : Libwuya) (reqBodyMax : Nat) :
    Nat → Req → Bytes → Bytes → Int × Req
  | 0, r, _, _ => (phlOk, r)
  | fuel + 1, r, past, buf =>
    if buf = [] then (phlOk, r)
    else match lib.httpChunkedDecode past buf with
    | .error => (400, r)
    | .none => (phlOk, r)
    | .data skip len =>
      let appended := phlRequestAppendBody reqBodyMax r ((buf.drop skip).take len)
      if appended.1 ≠ phlOk then appended
      else phlHttp1RequestChunks lib reqBodyMax fuel appended.2
        (past ++ buf.take (skip + len)) (buf.drop (skip + len))

/-- All that is in the buffer is taken as body. -/
def phlHttp1RequestBody (lib : Libwuya) (reqBodyMax : Nat) (r : Req) (recv : Bytes) :
    Int × Req × Bytes :=
  if r.contentLength = phlContentLengthInit ∧ r.chunked = none then (phlOk, r, recv)
  else if r.contentLength ≠ phlContentLengthInit then
    let appended := phlRequestAppendBody reqBodyMax r recv
    if appended.1 ≠ phlOk then (appended.1, appended.2, [])
    else (if appended.2.bodyFinished then phlOk else phlAgain, appended.2, [])
  else
    let past := r.chunked.getD []
    let decoded := phlHttp1RequestChunks lib reqBodyMax recv.length r past recv
    let r := { decoded.2 with chunked := some (past ++ recv) }
    if decoded.1 ≠ phlOk then (decoded.1, r, [])
    else if lib.httpChunkedIsFinished (past ++ recv) then
      (phlOk, { r with bodyFinished := true }, [])
    else (phlAgain, r, [])

def phlRequestResetResponse (r : Resp) : Resp :=
  if r.statusCode = 0 then r
  else { r with
    statusCode := 0
    contentGeneratedLength := 0
    contentLength := phlContentLengthInit
    headers := [] }

/-- `phl_request_clear_stuff` -/
def phlRequestClearStuff (env : Env W V) (w : World W V) : World W V :=
  let freed := env.moduleCtxFree w.r w.env
  { w with env := freed.1 }.emit (freed.2.map .env)

/-- Closes a request; the line it logs reads `conf_path`. -/
def phlRequestClose (env : Env W V) (w : World W V) : Option (World W V) :=
  if w.r.closed then some w
  else if w.r.confPath = none then none
  else
    let w := { w with r.closed := true }.emit [.closed]
    if w.r.father = .attached then some w  -- its father closes it later
    else if w.r.father = .detached then some (phlRequestClearStuff env w)
    else if w.r.isHttp2 then
      if w.r.state ≠ .done ∧ w.connClosed = false then
        let made := env.makeSpace 9 w.env
        let w := { w with env := made.2 }
        match made.1 with
        | .space _ => some (phlRequestClearStuff env (w.emit [.endStream]))
        | .flushFailed => some (phlRequestClearStuff env { w with connClosed := true })
        | _ => some (phlRequestClearStuff env w)
      else some (phlRequestClearStuff env w)
    else if w.r.state ≠ .done ∨ w.r.req.version = 0 then
      some (phlRequestClearStuff env { w with connClosed := true })
    else some (phlRequestClearStuff env w)

def phlConnectionMakeSpace (env : Env W V) (size : Nat) (w : World W V) :
    Option (Int × World W V) :=
  if w.connClosed then some (phlError, w)
  else
    let made := env.makeSpace size w.env
    let w := { w with env := made.2 }
    match made.1 with
    | .space n => some (n, w)
    | .again => some (phlAgain, w)
    | .error => some (phlError, w)
    | .flushFailed => do
      let w ← phlRequestClose env { w with connClosed := true }
      some (phlError, w)

def phlRequestRedirect (env : Env W V) (path : Bytes) (w : World W V) : Int × World W V :=
  let tooMany := 10 < w.r.redirects
  let w := { w with r.redirects := w.r.redirects + 1 }
  if tooMany then (phlError, w)
  else
    let start (w : World W V) : Int × World W V :=
      let w := phlRequestClearStuff env { w with r.resp := phlRequestResetResponse w.r.resp }
      (phlBreak, { w with
        r.confPath := none
        r.state := .receiveHeaders
        r.filterIndexs := fun _ => 0
        r.isBroken := false })
    match path with
    | 64 :: _ => start { w with r.namedPath := some path }
    | 47 :: _ => start { w with r.req := (phlRequestSetUri env.lib w.r.req path).2 }
    | _ => (phlError, w)

/-- A call of a handler, logged as `ev` of the value it returns. -/
def callHandler (env : Env W V) (f : Handler W V) (ev : Int → Event V) (w : World W V) :
    Int × World W V :=
  let a := f w.r w.env
  let w := { w with r.req := a.req, r.resp := a.resp, env := a.env }.emit (a.emit.map .env)
  match a.redirect with
  | none => (a.ret, w.emit [ev a.ret])
  | some path =>
    let redirected := phlRequestRedirect env path w
    let fresh := if redirected.1 = phlBreak then [.redirected] else []
    (redirected.1, redirected.2.emit (ev redirected.1 :: fresh))

/-- `filter_indexs[index]` counts the filters that have returned `PHL_OK`. -/
def phlModuleFilterRun (env : Env W V) (k : FilterKind) :
    List (Handler W V) → World W V → Int × World W V
  | [], w => (phlOk, w)
  | m :: modules, w =>
    let i := w.r.filterIndexs k
    let called := callHandler env m (.filter k i) w
    if called.1 ≠ phlOk then called
    else phlModuleFilterRun env k modules
      { called.2 with r.filterIndexs := Function.update called.2.r.filterIndexs k (i + 1) }

/-- The filters of one kind from the first one that has not returned `PHL_OK` yet. -/
def phlModuleFilter (env : Env W V) (p : PathId) (k : FilterKind) (w : World W V) :
    Int × World W V :=
  phlModuleFilterRun env k (((env.path p).filters k).drop (w.r.filterIndexs k)) w

def phlModuleFilterResponseBody (r : Request) (bufLen : Nat) :
    List (BodyFilter W V) → Bytes → Bool → W → List V → Piece W V
  | [], data, isLast, e, es => ⟨.ok data, isLast, e, es⟩
  | m :: modules, data, isLast, e, es =>
    let piece := m r data bufLen isLast e
    match piece.data with
    | .error n => ⟨.error n, piece.isLast, piece.env, es ++ piece.emit⟩
    | .ok data =>
      phlModuleFilterResponseBody r bufLen modules data piece.isLast piece.env (es ++ piece.emit)

def phlRequestReceiveHeaders (env : Env W V) (w : World W V) : Int × World W V :=
  if w.r.isHttp2 then (phlAgain, w)
  else
    let parsed := phlHttp1RequestHeaders env.lib w.r.req w.recv
    (parsed.1, { w with r.req := parsed.2.1, recv := parsed.2.2 })

def phlRequestLocateConfHost (env : Env W V) (w : World W V) : Int × World W V :=
  if w.r.confHost ≠ some env.defaultHost then (phlOk, w)
  else match env.confHostLocate w.r.req.host with
  | none => (phlError, { w with r.confHost := none })
  | some host =>
    (phlOk, { w with r.confHost := some host, r.confPath := some (env.defaultPath host) })

/-- The loop at `dynamic_get` and the checks after it. -/
def phlRequestDynamicGet (env : Env W V) (p : PathId) (w : World W V) : Int × World W V :=
  let d := env.dynamicGet p w.r w.env
  let w := { w with r.confPath := some d.path, r.resp.statusCode := d.statusCode, env := d.env }.emit
    (d.emit.map .env)
  let reqBodyMax := (env.path d.path).reqBodyMax
  if d.ret ≠ .found then (d.ret.toRet, w)
  else if reqBodyMax ≠ 0 ∧ w.r.req.contentLength ≠ phlContentLengthInit ∧
      reqBodyMax < w.r.req.contentLength then (413, w)
  else (phlOk, w.emit [.located d.path])

def phlRequestLocateConfPath (env : Env W V) (p : PathId) (w : World W V) :
    Option (Int × World W V) := do
  let host ← w.r.confHost
  if p ≠ env.defaultPath host then some (phlRequestDynamicGet env p w)
  else match w.r.namedPath.or w.r.req.uri.path with
  | none => some (phlError, w)
  | some uriPath =>
    match env.confPathLocate host uriPath with
    | none => some (404, w)
    | some q => some (phlRequestDynamicGet env q { w with r.confPath := some q })

def phlRequestReceiveBodySync (env : Env W V) (p : PathId) (w : World W V) : Int × World W V :=
  if (env.path p).reqBodySync = false then (phlOk, w)
  else if w.r.isHttp2 then (if w.r.req.bodyFinished then phlOk else phlAgain, w)
  else
    let received := phlHttp1RequestBody env.lib (env.path p).reqBodyMax w.r.req w.recv
    (received.1, { w with r.req := received.2.1, recv := received.2.2 })

def phlRequestProcessHeaders (env : Env W V) (p : PathId) (w : World W V) :
    Option (Int × World W V) :=
  let filtered := phlModuleFilter env p .processHeaders w
  if filtered.1 ≠ phlOk then some filtered
  else do
    let content ← (env.path p).content
    match content.processHeaders with
    | none => some (phlOk, filtered.2)
    | some f => some (callHandler env f (.content .processHeaders p) filtered.2)

def phlRequestProcessBody (env : Env W V) (p : PathId) (w : World W V) :
    Option (Int × World W V) :=
  if w.r.isBroken then some (phlOk, w)
  else if w.r.req.contentLength = phlContentLengthInit ∧ w.r.req.chunked = none then
    some (phlOk, w)
  else if w.r.req.contentLength = 0 then some (phlOk, w)
  else
    let filtered := phlModuleFilter env p .processBody w
    if filtered.1 ≠ phlOk then some filtered
    else do
      let content ← (env.path p).content
      match content.processBody with
      | none => some (phlOk, filtered.2)
      | some f => some (callHandler env f (.content .processBody p) filtered.2)

/-- The status code page. -/
def phlStatusCodeResponseBody (lib : Libwuya) (code : Int) : Bytes :=
  let line := decimal code.toNat ++ [32] ++ lib.httpStringStatusCode code
  bytes "<html>\n<head><title>" ++ line ++ bytes "</title></head>\n<body>\n<h1>" ++ line ++
    bytes "</h1>\n<hr><p><em>by phorklift</em></p>\n</body>\n</html>\n"

/-- The text that `phl_request_simple_response_body` prints; it returns its length. -/
def phlRequestSimpleResponseBody (lib : Libwuya) (code : Int) : Bytes :=
  if code < 400 then [] else phlStatusCodeResponseBody lib code

/-- The bytes in a buffer of `len` after `snprintf` printed `text` there, as many as it returns. -/
def snprintf (stale : Nat → UInt8) (len : Nat) (text : Bytes) : Bytes :=
  if text.length < len then text
  else text.mapIdx fun i c => if i + 1 < len then c else if i + 1 = len then 0 else stale i

def phlRequestResponseHeaders1 (env : Env W V) (p : PathId) (w : World W V) :
    Option (Int × World W V) :=
  let answered :=
    if w.r.isBroken = false then (env.path p).content.map fun content =>
      callHandler env content.responseHeaders (.content .responseHeaders p) w
    else if w.r.resp.easyStrLen = 0 ∧ w.r.resp.easyFd = 0 then
      let page := phlRequestSimpleResponseBody env.lib w.r.resp.statusCode
      some (phlOk, { w with r.resp.contentLength := page.length })
    else some (phlOk, w)
  answered.map fun (ret, w) =>
    (ret, { w with r.resp.contentOriginalLength := w.r.resp.contentLength })

def phlRequestResponseHeaders2 (env : Env W V) (p : PathId) (w : World W V) :
    Int × World W V :=
  phlModuleFilter env p .responseHeaders w

/-- `phl_http1_response_headers` or `phl_http2_response_headers` -/
def phlRequestResponseHeaders3 (env : Env W V) (w : World W V) : Option (Int × World W V) :=
  if w.r.father ≠ .none then some (phlOk, w)
  else do
    let made ← phlConnectionMakeSpace env (phlHeaderEstimateSize w.r.resp.headers + 100) w
    if made.1 < 0 then some made
    else
      let resp := made.2.r.resp
      some (phlOk, made.2.emit [.headers resp.statusCode resp.contentLength resp.headers])

def phlHttp1ResponseIsChunked (r : Request) : Bool :=
  r.req.version ≠ 0 && r.resp.contentLength == phlContentLengthInit

/-- The buffer left for the body by `phl_http2_response_body_packfix` and the window, or by
`phl_http1_response_body_packfix`. -/
def responseBodyRoom (env : Env W V) (bufLen : Nat) (w : World W V) : Nat :=
  if w.r.isHttp2 then min (bufLen - 9) (env.streamWindow w.env)
  else if phlHttp1ResponseIsChunked w.r then bufLen - 17
  else bufLen

/-- The piece of body that the request generates into a buffer of `bufLen`. -/
def generateBody (env : Env W V) (p : PathId) (bufLen : Nat) (w : World W V) :
    Option (Except Failure Bytes × World W V) :=
  let resp := w.r.resp
  if 0 < resp.easyStrLen then
    let len := min (resp.easyStrLen - resp.contentGeneratedLength) bufLen
    some (.ok ((resp.easyString.drop resp.contentGeneratedLength).take len), w)
  else if resp.easyFd ≠ 0 then
    let len := min (toInt (resp.contentLength - resp.contentGeneratedLength)) bufLen
    let read := env.readFd resp.easyFd len w.env
    some (read.1.mapError fun _ => ⟨phlError, by decide⟩, { w with env := read.2 })
  else if w.r.isBroken = false then do
    let content ← (env.path p).content
    let source ← content.responseBody
    let piece := source w.r bufLen w.env
    let ret : Int := match piece.data with
      | .error n => n.1
      | .ok data => data.length
    let w := { w with env := piece.env }.emit (piece.emit.map .env)
    some (piece.data, w.emit [.content .responseBody p ret])
  else
    some (.ok (snprintf env.stale bufLen
      (phlRequestSimpleResponseBody env.lib resp.statusCode)), w)

/-- The second half of `phl_request_response_body`: the filters and the packing. -/
def filterAndPack (env : Env W V) (p : PathId) (bufLen : Nat) (data : Bytes) (isLast : Bool)
    (w : World W V) : Option Int × World W V :=
  let piece := phlModuleFilterResponseBody w.r bufLen (env.path p).bodyFilters data isLast w.env []
  let w := { w with env := piece.env }.emit (piece.emit.map .env)
  match piece.data with
  | .error n => (some n, w)
  | .ok data =>
    (if piece.isLast then some phlOk else none, w.emit [.body data piece.isLast])

/-- One round of `phl_request_response_body`, `none` where it calls itself. -/
def phlRequestResponseBody (env : Env W V) (p : PathId) (w : World W V) :
    Option (Option Int × World W V) := do
  let made ← phlConnectionMakeSpace env 4096 w
  let w := made.2
  if made.1 < 0 then some (some made.1, w)
  else if w.r.isHttp2 ∧ env.streamWindow w.env = 0 then some (some phlAgain, w)
  else
    let bufLen := responseBodyRoom env made.1.toNat w
    if w.r.resp.contentOriginalLength ≤ w.r.resp.contentGeneratedLength then
      some (filterAndPack env p bufLen [] true w)
    else do
      let generated ← generateBody env p bufLen w
      match generated.1 with
      | .error n => some (some n, generated.2)
      | .ok data =>
        let length := w.r.resp.contentGeneratedLength + data.length
        let isLast := if w.r.resp.contentOriginalLength ≠ phlContentLengthInit then
          decide (w.r.resp.contentOriginalLength ≤ length) else data.length == 0
        some (filterAndPack env p bufLen data isLast
          ({ generated.2 with r.resp.contentGeneratedLength := length }.emit [.source data]))

/-- `phl_request_steps[r->state](r)` -/
def phlRequestStep (env : Env W V) (p : PathId) (w : World W V) :
    Option (Option Int × World W V) :=
  let ret (x : Int × World W V) : Option Int × World W V := (some x.1, x.2)
  match w.r.state with
  | .receiveHeaders => some (ret (phlRequestReceiveHeaders env w))
  | .locateConfHost => some (ret (phlRequestLocateConfHost env w))
  | .locateConfPath => (phlRequestLocateConfPath env p w).map ret
  | .receiveBodySync => some (ret (phlRequestReceiveBodySync env p w))
  | .processHeaders => (phlRequestProcessHeaders env p w).map ret
  | .processBody => (phlRequestProcessBody env p w).map ret
  | .responseHeaders1 => (phlRequestResponseHeaders1 env p w).map ret
  | .responseHeaders2 => some (ret (phlRequestResponseHeaders2 env p w))
  | .responseHeaders3 => (phlRequestResponseHeaders3 env w).map ret
  | .responseBody => phlRequestResponseBody env p w
  | .done => none

end Phorklift
