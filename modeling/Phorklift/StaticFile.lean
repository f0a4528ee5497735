import Phorklift.BodyProducers
import Phorklift.DirListing

/-! The static module, and what a request asks it for. -/

namespace Phorklift.Static

/-- The functions of libwuya that the module calls. -/
structure WuyHttp where
  /-- of a value and a size; `none` where the result is negative -/
  rangeParse : Bytes → Nat → Option (List (Nat × Nat))
  dateParse : Bytes → Int
  dateMake : Int → Bytes

/-- A range that is parsed is inside of the file. -/
def WuyHttp.RangesInside (http : WuyHttp) : Prop :=
  ∀ value size ranges, http.rangeParse value size = some ranges →
    ∀ range ∈ ranges, range.1 ≤ range.2 ∧ range.2 < size

inductive FileType
  | directory
  | regular
  | link
  | other
  deriving DecidableEq

/-- What `fstat` tells of a file that is open, and what `read` and `readdir` find in it. -/
structure Inode where
  ftype : FileType
  mtime : Int
  content : Bytes
  entries : List DirEntry
  size_lt : content.length < 2 ^ 63
  names : ∀ e ∈ entries, (0 : UInt8) ∉ e.name

theorem names_nil : ∀ e ∈ ([] : List DirEntry), (0 : UInt8) ∉ e.name := nofun

/-- The files, and what `openat` finds of a name in a directory. -/
structure Disk where
  openat : Nat → Bytes → Option Nat
  inode : Nat → Inode

/-- `phl_static_conf`, with the inode of the directory that `dirfd` is open on. -/
structure PhlStaticConf where
  dir : Nat
  index : Option Bytes
  listDir : Bool

/-- What `openat` has given, and what `close` was called with. -/
structure Descriptors where
  opened : Nat
  closed : List Nat

def Descriptors.open (fds : Descriptors) : Nat × Descriptors :=
  (fds.opened + 1, { fds with opened := fds.opened + 1 })

def Descriptors.close (fds : Descriptors) (fd : Nat) : Descriptors :=
  { fds with closed := fds.closed ++ [fd] }

/-- What the handler returns and leaves: `ctx` is in `module_ctxs`, and `left` is behind
`easy_fd`. -/
structure StaticAnswer where
  ret : Int
  resp : Resp
  ctx : Nat
  fds : Descriptors
  left : Bytes

def phlStaticMimeType (_filename : Bytes) : Bytes := bytes "TODO"

def phlStaticProcessRequestHeaders (req : Req) : Int :=
  if req.method ≠ some (bytes "GET") ∧ req.method ≠ some (bytes "HEAD") then 405 else phlOk

/-- `phl_static_dir_headers`, with the bytes of its buffer that `wuy_pool_strndup` copies. -/
def phlStaticDirHeaders (stale : Nat → UInt8) (entries : List DirEntry) (resp : Resp) : Resp :=
  let length := (dirLength entries).toNat
  { resp with
    headers := resp.headers ++ [⟨bytes "Content-Type", bytes "application/text"⟩]
    easyStrLen := length
    easyString := (List.range length).map fun i => ((dirLoop entries).mem i).getD (stale i)
    statusCode := 200
    contentLength := length }

/-- The text of `Content-Range`. -/
def contentRange (first last size : Nat) : Bytes :=
  bytes "bytes " ++ decimal first ++ bytes "-" ++ decimal last ++ bytes "/" ++ decimal size

/-- What is returned, the response, and where `lseek` has set the descriptor. -/
def phlStaticRangeHeaders (http : WuyHttp) (req : Req) (range : Header) (file : Inode)
    (resp : Resp) : Int × Resp × Nat :=
  match http.rangeParse range.value file.content.length with
  | none => (416, resp, 0)
  | some [(first, last)] =>
    let whole := (phlHeaderGet req.headers (bytes "If-Range")).any fun h =>
      http.dateParse (cstr h.value) ≠ file.mtime
    if whole then (200, resp, 0)
    else
      (phlOk, { resp with
        statusCode := 206
        contentLength := last - first + 1
        headers := resp.headers ++
          [⟨bytes "Content-Range", contentRange first last file.content.length⟩] }, first)
  | some _ => (200, resp, 0)

/-- From where the descriptor is in `module_ctxs` on. -/
def phlStaticOpened (http : WuyHttp) (req : Req) (filename : Bytes) (file : Inode) (fd : Nat)
    (fds : Descriptors) (resp : Resp) : StaticAnswer :=
  if file.ftype ≠ .regular ∧ file.ftype ≠ .link then ⟨404, resp, fd, fds, []⟩
  else
    let unchanged := (phlHeaderGet req.headers (bytes "If-Modified-Since")).any fun h =>
      http.dateParse (cstr h.value) = file.mtime
    if unchanged then ⟨304, resp, fd, fds, []⟩
    else
      let resp := { resp with
        easyFd := fd
        headers := resp.headers ++ [⟨bytes "Last-Modified", http.dateMake file.mtime⟩,
          ⟨bytes "Content-Type", phlStaticMimeType filename⟩] }
      let whole : Resp := { resp with statusCode := 200, contentLength := file.content.length }
      if req.method = some (bytes "GET") then
        match phlHeaderGet req.headers (bytes "Range") with
        | none => ⟨phlOk, whole, fd, fds, file.content⟩
        | some range =>
          let (ret, resp, offset) := phlStaticRangeHeaders http req range file resp
          if ret ≠ 200 then ⟨ret, resp, fd, fds, file.content.drop offset⟩
          else ⟨phlOk, whole, fd, fds, file.content⟩
      else ⟨phlOk, whole, fd, fds, file.content⟩

/-- `r->req.uri.path + 1`, or `.` where that is empty. -/
def staticFilename (req : Req) : Bytes :=
  let filename := (cstr (req.uri.path.getD [])).drop 1
  if filename = [] then bytes "." else filename

def phlStaticGenerateResponseHeaders (http : WuyHttp) (stale : Nat → UInt8) (conf : PhlStaticConf)
    (disk : Disk) (req : Req) (resp : Resp) (fds : Descriptors) : StaticAnswer :=
  let resp := { resp with headers := resp.headers ++ [phorkliftServer] }
  let filename := staticFilename req
  match disk.openat conf.dir filename with
  | none => ⟨404, resp, 0, fds, []⟩
  | some dir =>
    let (fd, fds) := fds.open
    if (disk.inode dir).ftype = .directory then
      if conf.listDir then
        -- `closedir` closes the descriptor
        ⟨phlOk, phlStaticDirHeaders stale (disk.inode dir).entries resp, 0, fds.close fd, []⟩
      else match conf.index with
      -- the descriptor is neither closed nor kept here
      | none => ⟨404, resp, 0, fds, []⟩
      | some index =>
        match disk.openat dir index with
        | none => ⟨404, resp, 0, fds.close fd, []⟩
        | some file =>
          let (indexFd, fds) := fds.open
          phlStaticOpened http req filename (disk.inode file) indexFd (fds.close fd) resp
    else phlStaticOpened http req filename (disk.inode dir) fd fds resp

/-- `phl_static_ctx_free`, where `module_ctxs` has a context. -/
def phlStaticCtxFree (ctx : Nat) (fds : Descriptors) : Descriptors :=
  if ctx ≠ 0 then fds.close ctx else fds

/-- What a request asks the module for. -/
inductive Served
  | refused
  | missing
  | listing (dir : Inode)
  | notModified
  | whole (file : Inode)
  | part (file : Inode) (first last : Nat)
  | badRange (file : Inode)

/-- The directory to list, or the file to send. -/
inductive Resource
  | listing (dir : Inode)
  | file (file : Inode)

def Inode.resource (node : Inode) : Option Resource :=
  if node.ftype = .regular ∨ node.ftype = .link then some (.file node) else none

def resource (conf : PhlStaticConf) (disk : Disk) (req : Req) : Option Resource := do
  let dir ← disk.openat conf.dir (staticFilename req)
  if (disk.inode dir).ftype = .directory then
    if conf.listDir then some (.listing (disk.inode dir))
    else
      let file ← disk.openat dir (← conf.index)
      (disk.inode file).resource
  else (disk.inode dir).resource

/-- The date of a header is that of the file. -/
def SameDate (http : WuyHttp) (req : Req) (name : Bytes) (file : Inode) : Prop :=
  ∃ h, phlHeaderGet req.headers name = some h ∧ http.dateParse (cstr h.value) = file.mtime

instance (http : WuyHttp) (req : Req) (name : Bytes) (file : Inode) :
    Decidable (SameDate http req name file) :=
  decidable_of_iff ((phlHeaderGet req.headers name).any fun h =>
    http.dateParse (cstr h.value) = file.mtime) (by simp [SameDate, Option.any_eq_true])

/-- One range is sent, of a file that is what `If-Range` says; several are not. -/
def servedRange (http : WuyHttp) (req : Req) (file : Inode) : Served :=
  match (phlHeaderGet req.headers (bytes "Range")).map fun range =>
    http.rangeParse range.value file.content.length with
  | some none => .badRange file
  | some (some [(first, last)]) =>
    if phlHeaderGet req.headers (bytes "If-Range") = none ∨
        SameDate http req (bytes "If-Range") file then .part file first last
    else .whole file
  | _ => .whole file

def served (http : WuyHttp) (conf : PhlStaticConf) (disk : Disk) (req : Req) : Served :=
  if req.method ≠ some (bytes "GET") ∧ req.method ≠ some (bytes "HEAD") then .refused
  else match resource conf disk req with
  | none => .missing
  | some (.listing dir) => .listing dir
  | some (.file file) =>
    if SameDate http req (bytes "If-Modified-Since") file then .notModified
    else if req.method = some (bytes "GET") then servedRange http req file
    else .whole file

namespace Served

def status : Served → Int
  | refused => 405
  | missing => 404
  | listing _ => 200
  | notModified => 304
  | whole _ => 200
  | part _ _ _ => 206
  | badRange _ => 416

def fileHeaders (http : WuyHttp) (file : Inode) : List Header :=
  [phorkliftServer, ⟨bytes "Last-Modified", http.dateMake file.mtime⟩,
    ⟨bytes "Content-Type", bytes "TODO"⟩]

def headers (http : WuyHttp) : Served → List Header
  | refused => []
  | missing => [phorkliftServer]
  | listing _ => [phorkliftServer, ⟨bytes "Content-Type", bytes "application/text"⟩]
  | notModified => [phorkliftServer]
  | whole file => fileHeaders http file
  | part file first last => fileHeaders http file ++
    [⟨bytes "Content-Range", contentRange first last file.content.length⟩]
  | badRange file => fileHeaders http file

/-- An answer that the range is not inside of the file comes with the file. -/
def bytes (lib : Libwuya) : Served → Bytes
  | refused => phlRequestSimpleResponseBody lib 405
  | missing => phlRequestSimpleResponseBody lib 404
  | listing dir => dirText dir.entries
  | notModified => []
  | whole file => file.content
  | part file first last => (file.content.drop first).take (last - first + 1)
  | badRange file => file.content

/-- What `content_original_length` says. -/
def announced (lib : Libwuya) : Served → Nat
  | badRange _ => phlContentLengthInit
  | listing dir => (dirLength dir.entries).toNat
  | answer => (answer.bytes lib).length

/-- What the handler returns. -/
def ret : Served → Int
  | refused => 405
  | missing => 404
  | notModified => 304
  | badRange _ => 416
  | _ => phlOk

def fileResp (http : WuyHttp) (fd : Nat) (file : Inode) : Resp :=
  { Resp.init with easyFd := fd, headers := fileHeaders http file }

/-- What the handler leaves of a new response. -/
def resp (http : WuyHttp) (stale : Nat → UInt8) (fd : Nat) : Served → Resp
  | refused => .init
  | listing dir =>
    phlStaticDirHeaders stale dir.entries { Resp.init with headers := [phorkliftServer] }
  | whole file =>
    { fileResp http fd file with statusCode := 200, contentLength := file.content.length }
  | part file first last =>
    { fileResp http fd file with
      statusCode := 206
      contentLength := last - first + 1
      headers := (part file first last).headers http }
  | badRange file => fileResp http fd file
  | answer => { Resp.init with headers := answer.headers http }

/-- What is left behind the descriptor. -/
def left : Served → Bytes
  | whole file => file.content
  | part file first _ => file.content.drop first
  | badRange file => file.content
  | _ => []

/-- The response when the filters get it. -/
def final (http : WuyHttp) (lib : Libwuya) (stale : Nat → UInt8) (fd : Nat) (asked : Served) :
    Resp :=
  let resp := asked.resp http stale fd
  if asked.ret = phlOk then { resp with contentOriginalLength := resp.contentLength }
  else if resp.easyFd = 0 then
    let page := phlRequestSimpleResponseBody lib asked.ret
    { resp with
      statusCode := asked.ret
      contentLength := page.length
      contentOriginalLength := page.length }
  else { resp with statusCode := asked.ret, contentOriginalLength := resp.contentLength }

/-- The answers that come whole where the first buffer is so long. -/
def ComesWhole (lib : Libwuya) (first : Nat) : Served → Prop
  | listing dir => (dirText dir.entries).length < listBufferSize
  | whole file => file.content.length < 2 ^ 31
  | part _ first last => last - first + 1 < 2 ^ 31
  | badRange file => file.content.length ≤ first
  | notModified => True
  | refused => (phlRequestSimpleResponseBody lib 405).length < first
  | missing => (phlRequestSimpleResponseBody lib 404).length < first

end Served

/-- What the module answers from, and the descriptors so far. -/
structure Server where
  http : WuyHttp
  lib : Libwuya
  stale : Nat → UInt8
  conf : PhlStaticConf
  disk : Disk
  fds : Descriptors

namespace Server

variable (s : Server)

def answer (req : Req) (resp : Resp) : StaticAnswer :=
  phlStaticGenerateResponseHeaders s.http s.stale s.conf s.disk req resp s.fds

def served (req : Req) : Served := Static.served s.http s.conf s.disk req

def content : ContentModule Places Unit where
  processHeaders := some fun r e =>
    ⟨phlStaticProcessRequestHeaders r.req, r.req, r.resp, none, e, []⟩
  processBody := none
  responseHeaders := fun r e =>
    let answer := s.answer r.req r.resp
    ⟨answer.ret, r.req, answer.resp, none, { e with left := answer.left }, []⟩
  responseBody := none

/-- A Path that has the module and no filters. -/
def env : Env Places Unit :=
  { Env.single ⟨0, false, fun _ => [], [], some s.content⟩ with
    lib := s.lib
    stale := s.stale
    readFd := fun _ => Body.readLeft }

theorem noText_lt : ([] : Bytes).length < 2 ^ 31 := by decide

/-- A request that has been received, located and passed by the filters. -/
def asked (isHttp2 : Bool) (req : Req) : World Places Unit where
  r := { phlRequestNew s.env isHttp2 with
    state := .processHeaders
    req := req }
  recv := []
  connClosed := false
  ctl := .running
  env := ⟨[], ⟨⟨[], noText_lt⟩, 0⟩⟩
  trace := []

end Server

section Answer

variable {http : WuyHttp} {stale : Nat → UInt8} {conf : PhlStaticConf} {disk : Disk} {req : Req}
  {filename : Bytes} {file : Inode} {fd : Nat} {fds : Descriptors}

/-- The handler does what the request asks for. -/
def StaticAnswer.Serves (http : WuyHttp) (stale : Nat → UInt8) (answer : StaticAnswer)
    (asked : Served) : Prop :=
  ∃ fd, fd ≠ 0 ∧ answer.ret = asked.ret ∧ answer.resp = asked.resp http stale fd ∧
    answer.left = asked.left

theorem any_sameDate (name : Bytes) :
    ((phlHeaderGet req.headers name).any fun h =>
      decide (http.dateParse (cstr h.value) = file.mtime)) =
        decide (SameDate http req name file) := by
  rw [Bool.eq_iff_iff, decide_eq_true_iff, SameDate, Option.any_eq_true]
  simp only [decide_eq_true_iff]

/-- A range is ignored where `If-Range` has another date. -/
theorem any_otherDate (name : Bytes) :
    ((phlHeaderGet req.headers name).any fun h =>
      decide (http.dateParse (cstr h.value) ≠ file.mtime)) =
        !decide (phlHeaderGet req.headers name = none ∨ SameDate http req name file) := by
  rw [Bool.eq_iff_iff, Bool.not_eq_true', decide_eq_false_iff_not, Option.any_eq_true]
  simp only [decide_eq_true_iff]
  unfold SameDate
  rcases Option.eq_none_or_eq_some (phlHeaderGet req.headers name) with h | ⟨h, hget⟩
  · simp [h]
  · simp [hget]

theorem range_serves (hfd : fd ≠ 0) (range : Header)
    (hrange : phlHeaderGet req.headers (bytes "Range") = some range) :
    (if (phlStaticRangeHeaders http req range file (Served.fileResp http fd file)).1 ≠ 200 then
      StaticAnswer.mk (phlStaticRangeHeaders http req range file (Served.fileResp http fd file)).1
        (phlStaticRangeHeaders http req range file (Served.fileResp http fd file)).2.1 fd fds
        (file.content.drop
          (phlStaticRangeHeaders http req range file (Served.fileResp http fd file)).2.2)
    else ⟨phlOk, (Served.whole file).resp http stale fd, fd, fds, file.content⟩).Serves http stale
      (servedRange http req file) := by
  unfold phlStaticRangeHeaders servedRange
  rw [hrange, Option.map_some]
  match http.rangeParse range.value file.content.length with
  | none => exact ⟨fd, hfd, rfl, rfl, rfl⟩
  | some [] => exact ⟨fd, hfd, rfl, rfl, rfl⟩
  | some [(first, last)] =>
    dsimp only
    rw [any_otherDate]
    by_cases hsame : phlHeaderGet req.headers (bytes "If-Range") = none ∨
        SameDate http req (bytes "If-Range") file
    · rw [if_pos hsame, decide_eq_true hsame]
      exact ⟨fd, hfd, rfl, rfl, rfl⟩
    · rw [if_neg hsame, decide_eq_false hsame]
      exact ⟨fd, hfd, rfl, rfl, rfl⟩
  | some (_ :: _ :: _) => exact ⟨fd, hfd, rfl, rfl, rfl⟩

/-- The answers to a request for a file. -/
def servedFile (http : WuyHttp) (req : Req) (file : Inode) : Served :=
  if SameDate http req (bytes "If-Modified-Since") file then .notModified
  else if req.method = some (bytes "GET") then servedRange http req file
  else .whole file

def servedResource (http : WuyHttp) (req : Req) : Option Resource → Served
  | none => .missing
  | some (.listing dir) => .listing dir
  | some (.file file) => servedFile http req file

theorem served_eq (hmethod : phlStaticProcessRequestHeaders req = phlOk) :
    served http conf disk req = servedResource http req (resource conf disk req) := by
  have hallowed : ¬(req.method ≠ some (bytes "GET") ∧ req.method ≠ some (bytes "HEAD")) := by
    intro hother
    unfold phlStaticProcessRequestHeaders at hmethod
    rw [if_pos hother] at hmethod
    exact absurd hmethod (by decide)
  unfold served
  rw [if_neg hallowed]
  rfl

theorem opened_serves (hfd : fd ≠ 0) :
    (phlStaticOpened http req filename file fd fds
      { Resp.init with headers := [phorkliftServer] }).Serves http stale
      (servedResource http req file.resource) := by
  unfold phlStaticOpened Inode.resource
  by_cases htype : file.ftype = .regular ∨ file.ftype = .link
  · have hread : ¬(file.ftype ≠ .regular ∧ file.ftype ≠ .link) := by
      intro h
      exact htype.elim h.1 h.2
    rw [if_neg hread, if_pos htype]
    dsimp only [servedResource]
    unfold servedFile
    rw [any_sameDate]
    by_cases hsame : SameDate http req (bytes "If-Modified-Since") file
    · rw [decide_eq_true hsame, if_pos rfl, if_pos hsame]
      exact ⟨fd, hfd, rfl, rfl, rfl⟩
    · rw [decide_eq_false hsame, if_neg Bool.false_ne_true, if_neg hsame]
      by_cases hget : req.method = some (bytes "GET")
      · rw [if_pos hget, if_pos hget]
        cases hrange : phlHeaderGet req.headers (bytes "Range") with
        | none =>
          unfold servedRange
          rw [hrange]
          exact ⟨fd, hfd, rfl, rfl, rfl⟩
        | some range => exact range_serves hfd range hrange
      · rw [if_neg hget, if_neg hget]
        exact ⟨fd, hfd, rfl, rfl, rfl⟩
  · have hskip : file.ftype ≠ .regular ∧ file.ftype ≠ .link := not_or.mp htype
    rw [if_pos hskip, if_neg htype]
    exact ⟨fd, hfd, rfl, rfl, rfl⟩

theorem generate_serves (hmethod : phlStaticProcessRequestHeaders req = phlOk) :
    (phlStaticGenerateResponseHeaders http stale conf disk req .init fds).Serves http stale
      (served http conf disk req) := by
  have hopen : ∀ fds : Descriptors, fds.open.1 ≠ 0 := fun fds => Nat.succ_ne_zero _
  rw [served_eq hmethod]
  unfold phlStaticGenerateResponseHeaders resource
  cases hdir : disk.openat conf.dir (staticFilename req) with
  | none =>
    simp only [hdir]
    exact ⟨1, Nat.one_ne_zero, rfl, rfl, rfl⟩
  | some dir =>
    simp only [hdir, Option.bind_eq_bind, Option.bind_some]
    by_cases htype : (disk.inode dir).ftype = .directory
    · rw [if_pos htype, if_pos htype]
      cases conf.listDir with
      | true => exact ⟨1, Nat.one_ne_zero, rfl, rfl, rfl⟩
      | false =>
        cases conf.index with
        | none => exact ⟨1, Nat.one_ne_zero, rfl, rfl, rfl⟩
        | some index =>
          simp only [Option.bind_some]
          cases disk.openat dir index with
          | none => exact ⟨1, Nat.one_ne_zero, rfl, rfl, rfl⟩
          | some file => exact opened_serves (hopen _)
    · rw [if_neg htype, if_neg htype]
      exact opened_serves (hopen _)

end Answer

end Phorklift.Static
