import Phorklift.Request

/-! The file cache module: what it does with the item file of a response. -/

namespace Phorklift

variable {E : Type}

/-- `sizeof(struct phl_file_cache_item)` -/
def fileCacheItemSize : Nat := 32

structure FileCacheItem where
  contentLength : Nat
  expireAt : Int
  statusCode : Int
  headerNum : Nat
  headerTotalLength : Nat
  deriving DecidableEq

/-- `fd` is `none` where `openat` failed. -/
structure FileCacheCtx where
  fd : Option Nat
  newFilename : Option Bytes
  newLength : Nat
  deriving DecidableEq

/-- `key` is `none` where no function is set. -/
structure FileCacheConf where
  dirName : Option Bytes
  key : Option (Request → Option Bytes)
  defaultExpire : Nat
  dirLevel : Nat

/-- What is handed to `write` at once: the item with the records of the headers, a piece of body,
or the `content_length` of the item. -/
inductive Buffer
  | item (i : FileCacheItem) (headers : List Header)
  | piece (data : Bytes) (isLast : Bool)
  | length (n : Nat)
  deriving DecidableEq

def Buffer.size : Buffer → Nat
  | .item i _ => fileCacheItemSize + i.headerTotalLength
  | .piece data _ => data.length
  | .length _ => 8

inductive FileOp
  | opened (fd : Nat)
  | created (fd : Nat)
  /-- `store_headers` was written past its end -/
  | overran
  | wrote (fd : Option Nat) (b : Buffer) (ret : Int)
  | sought (fd : Option Nat)
  | closed (fd : Nat)
  | unlinked (filename : Bytes)
  deriving DecidableEq

/-- The request's context of the module, and all that is not the module's. -/
structure CacheWorld (E : Type) where
  ctx : Option FileCacheCtx
  outside : E

inductive Errno
  | noent
  | exist
  | other
  deriving DecidableEq

inductive CacheDir
  | current
  | last
  deriving DecidableEq

/-- The system and library calls of the module. -/
structure FileSys (E : Type) where
  now : E → Int
  /-- whether `last_dirfd` is set -/
  hasLastDir : E → Bool
  openRead : CacheDir → Bytes → E → Except Errno Nat × E
  openCreate : Bytes → E → Except Errno Nat × E
  mkdirat : Bytes → E → Option Errno × E
  renameat : Bytes → E → Option Errno × E
  unlinkat : Bytes → E → E
  close : Nat → E → E
  seek : Nat → E → E
  write : Nat → Buffer → E → Int × E
  /-- what `read` returns and finds -/
  readItem : Nat → E → (Int × FileCacheItem) × E
  /-- the records in the bytes after the item -/
  readHeaders : Nat → FileCacheItem → E → Option (List Header) × E
  httpDateParse : Bytes → Int
  vhash128 : Bytes → Nat × Nat

/-- A descriptor of -1 is refused. -/
def FileSys.writeTo (fs : FileSys E) (fd : Option Nat) (b : Buffer) (e : E) : Int × E :=
  match fd with
  | none => (-1, e)
  | some fd => fs.write fd b e

def FileSys.seekTo (fs : FileSys E) (fd : Option Nat) (e : E) : E :=
  match fd with
  | none => e
  | some fd => fs.seek fd e

/-- `phl_file_cache_mkdir` -/
def phlFileCacheMkdir (fs : FileSys E) (pathname : Bytes) (e : E) : Option Errno × E :=
  let made := fs.mkdirat pathname e
  (if made.1 = some .exist then none else made.1, made.2)

def phlFileCacheDoPreparePrefix (fs : FileSys E) (filename : Bytes) : Nat → E → Bool × E
  | 0, e => (false, e)
  | level + 1, e =>
    let made := phlFileCacheMkdir fs (filename.take ((level + 1) * 3)) e
    match made.1 with
    | none => (true, made.2)
    | some .noent =>
      let parent := phlFileCacheDoPreparePrefix fs filename level made.2
      if parent.1 then
        let again := phlFileCacheMkdir fs (filename.take ((level + 1) * 3)) parent.2
        (again.1.isNone, again.2)
      else parent
    | some _ => (false, made.2)

def phlFileCachePreparePrefix (fs : FileSys E) (conf : FileCacheConf) (filename : Bytes) (e : E) :
    E :=
  if conf.dirLevel = 0 then e else (phlFileCacheDoPreparePrefix fs filename conf.dirLevel e).2

/-- Moves an item from the last directory to the current one; its caller ignores the result. -/
def phlFileCacheRenameFile (fs : FileSys E) (conf : FileCacheConf) (filename : Bytes) (e : E) : E :=
  let renamed := fs.renameat filename e
  if renamed.1 = some .noent then
    (fs.renameat filename (phlFileCachePreparePrefix fs conf filename renamed.2)).2
  else renamed.2

def phlFileCacheCreateFile (fs : FileSys E) (conf : FileCacheConf) (filename : Bytes) (e : E) :
    Option Nat × E :=
  let created := fs.openCreate filename e
  match created.1 with
  | .ok fd => (some fd, created.2)
  | .error .noent =>
    let again := fs.openCreate filename (phlFileCachePreparePrefix fs conf filename created.2)
    (again.1.toOption, again.2)
  | .error _ => (none, created.2)

/-- The calls of `phl_file_cache_ctx_free`. -/
def FileCacheCtx.free (ctx : FileCacheCtx) : List FileOp :=
  (ctx.fd.map .closed).toList ++ (ctx.newFilename.map .unlinked).toList

def phlFileCacheCtxFree (fs : FileSys E) (ctx : FileCacheCtx) (e : E) : E :=
  let e := match ctx.fd with
    | none => e
    | some fd => fs.close fd e
  match ctx.newFilename with
  | none => e
  | some filename => fs.unlinkat filename e

/-- `phl_file_cache_abort` -/
def phlFileCacheAbort (fs : FileSys E) (ctx : FileCacheCtx) (e : E) : CacheWorld E :=
  ⟨none, phlFileCacheCtxFree fs ctx e⟩

/-- `%0*lx` -/
def hex (width n : Nat) : Bytes :=
  let digits := (Nat.toDigits 16 n).map fun c => UInt8.ofNat c.toNat
  List.replicate (width - digits.length) 48 ++ digits

def fileCacheFilename (dirLevel : Nat) (hash : Nat × Nat) : Bytes :=
  ((List.range dirLevel).flatMap fun i => hex 2 (hash.2 / 256 ^ i % 256) ++ [47]) ++
    hex 16 hash.1 ++ hex 16 hash.2

/-- A handler that leaves the request alone. -/
def answer {W V : Type} (r : Request) (ret : Int) (e : W) (es : List V) : Answer W V :=
  ⟨ret, r.req, r.resp, none, e, es⟩

/-- An item file was opened. -/
def fileCacheHit (fs : FileSys E) (filename : Bytes) (fd : Nat) (r : Request) (e : E) :
    Answer (CacheWorld E) FileOp :=
  let ctx : FileCacheCtx := ⟨some fd, none, 0⟩
  let read := fs.readItem fd e
  let item := read.1.2
  if read.1.1 < 0 then answer r phlError ⟨some ctx, read.2⟩ [.opened fd]
  else if read.1.1 < fileCacheItemSize ∨ item.contentLength = phlContentLengthInit then
    answer r phlOk (phlFileCacheAbort fs ctx read.2) (.opened fd :: ctx.free)
  else if item.expireAt < fs.now read.2 then
    answer r phlOk ⟨some ⟨none, some filename, 0⟩, fs.unlinkat filename (fs.close fd read.2)⟩
      [.opened fd, .closed fd, .unlinked filename]
  else
    let headers := fs.readHeaders fd item read.2
    match headers.1 with
    | none => answer r phlError ⟨some ctx, headers.2⟩ [.opened fd]
    | some hs =>
      { ret := item.statusCode
        req := r.req
        resp := { r.resp with
          headers := r.resp.headers ++ hs
          contentLength := item.contentLength
          easyFd := fd }
        redirect := none
        env := ⟨some ctx, headers.2⟩
        emit := [.opened fd] }

def phlFileCacheFilterProcessHeaders (fs : FileSys E) (conf : FileCacheConf) :
    Handler (CacheWorld E) FileOp := fun r w =>
  if conf.dirName = none then answer r phlOk w []
  else if r.req.method ≠ some (bytes "GET") ∧ r.req.method ≠ some (bytes "HEAD") then
    answer r phlOk w []
  else
    let key := match conf.key with
      | none => some r.req.uri.raw
      | some f => f r
    match key with
    | none => answer r phlOk w []
    | some key =>
      let filename := fileCacheFilename conf.dirLevel (fs.vhash128 key)
      let miss (e : E) := answer r phlOk ⟨some ⟨none, some filename, 0⟩, e⟩ []
      let current := fs.openRead .current filename w.outside
      match current.1 with
      | .ok fd => fileCacheHit fs filename fd r current.2
      | .error _ =>
        if fs.hasLastDir current.2 then
          let last := fs.openRead .last filename current.2
          match last.1 with
          | .ok fd =>
            fileCacheHit fs filename fd r (phlFileCacheRenameFile fs conf filename last.2)
          | .error _ => miss last.2
        else miss current.2

/-- The loop over the response headers: `expire_after`, or `none` where the response is not to be
stored. -/
def fileCacheExpireAfter (fs : FileSys E) (now : Int) : List Header → Int → Option Int
  | [], expireAfter => some expireAfter
  | h :: hs, expireAfter =>
    if strcasecmp (cstr h.name) (bytes "Cache-Control") then
      if (bytes "max-age=").isPrefixOf h.value then
        fileCacheExpireAfter fs now hs (toInt (strtol (h.value.drop 8)).value)
      else none
    else if strcasecmp (cstr h.name) (bytes "Expires") then
      fileCacheExpireAfter fs now hs (fs.httpDateParse h.value - now)
    else fileCacheExpireAfter fs now hs expireAfter

/-- `phl_header_dump_length` -/
def phlHeaderDumpLength (h : Header) : Nat :=
  let len := 4 + h.name.length + h.value.length + 2
  if len % 2 ≠ 0 then len + 1 else len

/-- An answer of `PHL_OK` after `phl_file_cache_abort`. -/
def abortAnswer (fs : FileSys E) (r : Request) (ctx : FileCacheCtx) (e : E) (es : List FileOp) :
    Answer (CacheWorld E) FileOp :=
  answer r phlOk (phlFileCacheAbort fs ctx e) (es ++ ctx.free)

/-- The part of `phl_file_cache_filter_response_headers` that creates the item. -/
def fileCacheCreateItem (fs : FileSys E) (conf : FileCacheConf) (r : Request) (ctx : FileCacheCtx)
    (filename : Bytes) (expireAt : Int) (e : E) (es : List FileOp) :
    Answer (CacheWorld E) FileOp :=
  let created := phlFileCacheCreateFile fs conf filename e
  match created.1 with
  | none => abortAnswer fs r { ctx with fd := none } created.2 es
  | some fd =>
    let ctx := { ctx with fd := some fd }
    let item : FileCacheItem :=
      ⟨phlContentLengthInit, expireAt, r.resp.statusCode, r.resp.headers.length,
        (r.resp.headers.map phlHeaderDumpLength).sum⟩
    let written := fs.write fd (.item item r.resp.headers) created.2
    let es := es ++ [.created fd, .wrote (some fd) (.item item r.resp.headers) written.1]
    if written.1 < 0 then abortAnswer fs r ctx written.2 es
    else answer r phlOk ⟨some ctx, written.2⟩ es

def phlFileCacheFilterResponseHeaders (fs : FileSys E) (conf : FileCacheConf) :
    Handler (CacheWorld E) FileOp := fun r w =>
  match w.ctx with
  | none => answer r phlOk w []
  | some ctx =>
    match ctx.newFilename with
    | none => answer r phlOk w []
    | some filename =>
      let now := fs.now w.outside
      let hs := r.resp.headers
      let overrun : List FileOp :=
        if 100 < hs.length ∧ (fileCacheExpireAfter fs now (hs.take 101) (-1)).isSome then [.overran]
        else []
      if r.resp.statusCode ≠ 200 then abortAnswer fs r ctx w.outside []
      else match fileCacheExpireAfter fs now hs (-1) with
      | none => abortAnswer fs r ctx w.outside overrun
      | some expireAfter =>
        let expireAfter := if expireAfter = -1 then (conf.defaultExpire : Int) else expireAfter
        if expireAfter ≤ 0 then abortAnswer fs r ctx w.outside overrun
        else fileCacheCreateItem fs conf r ctx filename (expireAfter + now) w.outside overrun

/-- A piece of body; after `phl_file_cache_abort` it goes on with the ctx it has. -/
def phlFileCacheFilterResponseBody (fs : FileSys E) : BodyFilter (CacheWorld E) FileOp :=
  fun _ data _ isLast w =>
    match w.ctx with
    | none => ⟨.ok data, isLast, w, []⟩
    | some ctx =>
      if ctx.newFilename = none then ⟨.ok data, isLast, w, []⟩
      else
        let written := fs.writeTo ctx.fd (.piece data isLast) w.outside
        let op : FileOp := .wrote ctx.fd (.piece data isLast) written.1
        let failed := written.1 ≠ data.length
        let w : CacheWorld E := if failed then phlFileCacheAbort fs ctx written.2
          else ⟨some ctx, written.2⟩
        let es := if failed then op :: ctx.free else [op]
        let newLength := ctx.newLength + data.length
        if isLast then
          let sought := fs.seekTo ctx.fd w.outside
          let marked := fs.writeTo ctx.fd (.length newLength) sought
          let left := w.ctx.map fun ctx => { ctx with newLength := newLength, newFilename := none }
          ⟨.ok data, isLast, ⟨left, marked.2⟩,
            es ++ [.sought ctx.fd, .wrote ctx.fd (.length newLength) marked.1]⟩
        else
          let left := w.ctx.map fun ctx => { ctx with newLength := newLength }
          ⟨.ok data, isLast, ⟨left, w.outside⟩, es⟩

end Phorklift
