import Phorklift.ItemBytes
import Mathlib.Logic.Function.Basic

/-! What the file cache stores of a response, and what a later request finds. -/

namespace Phorklift

structure OpenFile where
  inode : Nat
  offset : Nat
  deriving DecidableEq

/-- A file system on which every write is full, with all prefix directories there. -/
structure Disk where
  clock : Int
  hasLastDir : Bool
  names : CacheDir → Bytes → Option Nat
  inodes : Nat → Bytes
  nextInode : Nat
  fds : Nat → Option OpenFile
  nextFd : Nat

def writeAt (file : Bytes) (offset : Nat) (data : Bytes) : Bytes :=
  file.take offset ++ List.replicate (offset - file.length) 0 ++ data ++
    file.drop (offset + data.length)

namespace Disk

def setFd (d : Disk) (fd : Nat) (f : Option OpenFile) : Disk :=
  { d with fds := Function.update d.fds fd f }

def setName (d : Disk) (dir : CacheDir) (name : Bytes) (inode : Option Nat) : Disk :=
  { d with names := Function.update d.names dir (Function.update (d.names dir) name inode) }

/-- A new descriptor of an inode. -/
def openInode (d : Disk) (inode : Nat) : Nat × Disk :=
  (d.nextFd, { d.setFd d.nextFd (some ⟨inode, 0⟩) with nextFd := d.nextFd + 1 })

/-- A descriptor of a new file. -/
def createFile (d : Disk) (name : Bytes) : Nat × Disk :=
  openInode
    { d.setName .current name (some d.nextInode) with
      inodes := Function.update d.inodes d.nextInode []
      nextInode := d.nextInode + 1 } d.nextInode

/-- The next bytes of an open file. -/
def readFd (d : Disk) (fd len : Nat) : Option (Bytes × Disk) := do
  let f ← d.fds fd
  let data := ((d.inodes f.inode).drop f.offset).take len
  some (data, d.setFd fd (some { f with offset := f.offset + data.length }))

def writeFd (d : Disk) (fd : Nat) (data : Bytes) : Option Disk := do
  let f ← d.fds fd
  let d := d.setFd fd (some { f with offset := f.offset + data.length })
  some { d with
    inodes := Function.update d.inodes f.inode (writeAt (d.inodes f.inode) f.offset data) }

/-- The library calls over a disk; the date parser and the hash are libwuya's. -/
def fileSys (httpDateParse : Bytes → Int) (vhash128 : Bytes → Nat × Nat) : FileSys Disk where
  now d := d.clock
  hasLastDir d := d.hasLastDir
  openRead dir name d :=
    match d.names dir name with
    | none => (.error .noent, d)
    | some inode => (.ok (d.openInode inode).1, (d.openInode inode).2)
  openCreate name d :=
    match d.names .current name with
    | some _ => (.error .exist, d)
    | none => (.ok (d.createFile name).1, (d.createFile name).2)
  mkdirat _ d := (some .exist, d)
  renameat name d :=
    match d.names .last name with
    | none => (some .noent, d)
    | some inode => (none, (d.setName .last name none).setName .current name (some inode))
  unlinkat name d := d.setName .current name none
  close fd d := d.setFd fd none
  seek fd d := d.setFd fd ((d.fds fd).map fun f => { f with offset := 0 })
  write fd b d :=
    match d.writeFd fd b.bytes with
    | none => (-1, d)
    | some d => (b.bytes.length, d)
  readItem fd d :=
    match d.readFd fd fileCacheItemSize with
    | none => ((-1, itemOfBytes []), d)
    | some (data, d) => ((data.length, itemOfBytes data), d)
  readHeaders fd item d :=
    match d.readFd fd item.headerTotalLength with
    | none => (none, d)
    | some (data, d) => (loadHeaders item.headerNum data, d)
  httpDateParse := httpDateParse
  vhash128 := vhash128

end Disk

/-- Whether a call belongs to the creation of an item. -/
def FileOp.storesItem : FileOp → Bool
  | .created _ | .overran | .wrote _ (.item _ _) _ => true
  | _ => false

section Store

variable {E : Type} (fs : FileSys E) (conf : FileCacheConf)

/-- The key of a request, if there is one. -/
def fileCacheKey (r : Request) : Option Bytes :=
  match conf.key with
  | none => some r.req.uri.raw
  | some f => f r

/-- `phl_file_cache_filter_process_headers` from the file name on. -/
def fileCacheLookup (filename : Bytes) (r : Request) (e : E) : Answer (CacheWorld E) FileOp :=
  let miss (e : E) := answer r phlOk ⟨some ⟨none, some filename, 0⟩, e⟩ []
  let current := fs.openRead .current filename e
  match current.1 with
  | .ok fd => fileCacheHit fs filename fd r current.2
  | .error _ =>
    if fs.hasLastDir current.2 then
      let last := fs.openRead .last filename current.2
      match last.1 with
      | .ok fd => fileCacheHit fs filename fd r (phlFileCacheRenameFile fs conf filename last.2)
      | .error _ => miss last.2
    else miss current.2

/-- The body filter on some pieces. -/
def cachePieces (r : Request) (isLast : Bool) :
    List Bytes → CacheWorld E → CacheWorld E × List FileOp
  | [], w => (w, [])
  | data :: pieces, w =>
    let p := phlFileCacheFilterResponseBody fs r data data.length isLast w
    let rest := cachePieces r isLast pieces p.env
    (rest.1, p.emit ++ rest.2)

/-- The filters on one request, whose response is that of `r'`, and the close of its ctx. -/
def cacheStore (r r' : Request) (pieces : List Bytes) (last : Bytes) (e : E) : E × List FileOp :=
  let looked := phlFileCacheFilterProcessHeaders fs conf r ⟨none, e⟩
  let headers := phlFileCacheFilterResponseHeaders fs conf r' looked.env
  let body := cachePieces fs r' false pieces headers.env
  let done := cachePieces fs r' true [last] body.1
  (match done.1.ctx with
    | none => done.1.outside
    | some ctx => phlFileCacheCtxFree fs ctx done.1.outside,
    looked.emit ++ headers.emit ++ body.2 ++ done.2)

end Store

/-- The stored file is still there, in the current directory or in the last one. -/
def StillThere (filename : Bytes) (d d' : Disk) : Prop :=
  ∃ inode, d.names .current filename = some inode ∧ d'.inodes inode = d.inodes inode ∧
    (d'.names .current filename = some inode ∨
      d'.names .current filename = none ∧ d'.hasLastDir = true ∧
        d'.names .last filename = some inode)

/-- A request finds the response as it was stored, with the descriptor at its body. -/
structure Finds (resp : Resp) (body : Bytes) (r : Request)
    (a : Answer (CacheWorld Disk) FileOp) : Prop where
  status : a.ret = resp.statusCode
  headers : a.resp.headers = r.resp.headers ++ resp.headers
  contentLength : a.resp.contentLength = body.length
  body : ∃ f, a.env.outside.fds a.resp.easyFd = some f ∧
    (a.env.outside.inodes f.inode).drop f.offset = body

section Disk

open Disk

variable {d : Disk} {fd inode : Nat} {data file : Bytes}

theorem writeAt_end : writeAt file file.length data = file ++ data := by
  simp [writeAt]

theorem writeAt_start : writeAt file 0 data = data ++ file.drop data.length := by
  simp [writeAt]

theorem writeFd_end (hfd : d.fds fd = some ⟨inode, file.length⟩) (hfile : d.inodes inode = file) :
    ∃ d', d.writeFd fd data = some d' ∧ d'.fds fd = some ⟨inode, (file ++ data).length⟩ ∧
      d'.inodes inode = file ++ data ∧ d'.names = d.names := by
  unfold writeFd
  rw [hfd]
  refine ⟨_, rfl, ?_, ?_, rfl⟩
  · simp [setFd]
  · simp [setFd, hfile, writeAt_end]

theorem writeFd_start (hfile : d.inodes inode = file) :
    ∃ d', (d.setFd fd (some ⟨inode, 0⟩)).writeFd fd data = some d' ∧
      d'.inodes inode = data ++ file.drop data.length ∧ d'.names = d.names := by
  have hget : (d.setFd fd (some ⟨inode, 0⟩)).fds fd = some ⟨inode, 0⟩ := by
    simp [setFd]
  unfold writeFd
  rw [hget]
  refine ⟨_, rfl, ?_, rfl⟩
  simp [setFd, hfile, writeAt_start]

theorem readFd_next {offset len : Nat} (hfd : d.fds fd = some ⟨inode, offset⟩)
    (hfile : ((d.inodes inode).drop offset).take len = data) :
    ∃ d', d.readFd fd len = some (data, d') ∧ d'.fds fd = some ⟨inode, offset + data.length⟩ ∧
      d'.inodes = d.inodes ∧ d'.clock = d.clock := by
  unfold readFd
  rw [hfd]
  simp only [Option.bind_eq_bind, Option.bind_some, hfile]
  exact ⟨_, rfl, by simp [setFd], rfl, rfl⟩

end Disk

section Lookup

open Disk

variable {date : Bytes → Int} {vhash : Bytes → Nat × Nat} {conf : FileCacheConf}
  {filename body : Bytes} {item : FileCacheItem} {hs : List Header} {fd inode : Nat} {r : Request}
  {d : Disk}

/-- A finished and unexpired item file that has been opened is a hit. -/
theorem fileCacheHit_finds (hfd : d.fds fd = some ⟨inode, 0⟩)
    (hfile : d.inodes inode = item.bytes ++ (hs.flatMap Header.record ++ body))
    (hshort : ∀ h ∈ hs, h.Short) (hread : itemOfBytes item.bytes = item)
    (hnum : item.headerNum = hs.length)
    (htotal : item.headerTotalLength = (hs.map phlHeaderDumpLength).sum)
    (hfinished : item.contentLength ≠ phlContentLengthInit) (hexpire : d.clock ≤ item.expireAt) :
    let a := fileCacheHit (fileSys date vhash) filename fd r d
    a.ret = item.statusCode ∧ a.resp.headers = r.resp.headers ++ hs ∧
      a.resp.contentLength = item.contentLength ∧
      ∃ f, a.env.outside.fds a.resp.easyFd = some f ∧
        (a.env.outside.inodes f.inode).drop f.offset = body := by
  have hlen := length_itemBytes item
  obtain ⟨d1, hitem, hfd1, hinodes1, hclock1⟩ :=
    @readFd_next d fd inode item.bytes 0 fileCacheItemSize hfd
      (by rw [List.drop_zero, hfile, List.take_left' hlen])
  rw [hlen, Nat.zero_add] at hfd1
  have hrecords : ((d1.inodes inode).drop fileCacheItemSize).take item.headerTotalLength =
      hs.flatMap Header.record := by
    rw [hinodes1, hfile, List.drop_left' hlen, List.take_left' (by rw [htotal, length_records])]
  obtain ⟨d2, hheaders, hfd2, hinodes2, -⟩ := readFd_next hfd1 hrecords
  have hload := loadHeaders_records hshort []
  rw [List.append_nil] at hload
  unfold fileCacheHit
  simp only [fileSys, hitem, hread, hlen]
  have hlookup : ¬ ((fileCacheItemSize : Int) < 0) := by simp [fileCacheItemSize]
  rw [if_neg hlookup, if_neg (by simp [hfinished]), if_neg (by rw [hclock1]; omega)]
  simp only [hheaders, hnum, hload, true_and]
  refine ⟨_, hfd2, ?_⟩
  rw [hinodes2, hinodes1, hfile, ← hlen, ← List.length_append, ← List.append_assoc,
    List.drop_left]

end Lookup

/-- The item file of `filename` is open and holds `file`, after `n` bytes of body. -/
structure Writing (filename : Bytes) (fd inode : Nat) (file : Bytes) (n : Nat)
    (w : CacheWorld Disk) : Prop where
  ctx : w.ctx = some ⟨some fd, some filename, n⟩
  fd : w.outside.fds fd = some ⟨inode, file.length⟩
  file : w.outside.inodes inode = file
  name : w.outside.names .current filename = some inode

section Storing

open Disk

variable {date : Bytes → Int} {vhash : Bytes → Nat × Nat} {conf : FileCacheConf}
  {filename file data : Bytes} {fd inode n : Nat} {r : Request} {d : Disk} {w : CacheWorld Disk}

theorem expireAfter_take {E : Type} {fs : FileSys E} {now : Int} {hs : List Header}
    {before after : Int} (h : fileCacheExpireAfter fs now hs before = some after) (k : Nat) :
    (fileCacheExpireAfter fs now (hs.take k) before).isSome = true := by
  induction hs generalizing before k with
  | nil =>
    rw [List.take_nil]
    rfl
  | cons hd hs ih =>
    cases k with
    | zero => rfl
    | succ k =>
      rw [List.take_succ_cons]
      unfold fileCacheExpireAfter at h ⊢
      by_cases hcontrol : strcasecmp (cstr hd.name) (bytes "Cache-Control") = true
      · rw [if_pos hcontrol] at h ⊢
        split at h
        next hage =>
          rw [if_pos hage]
          exact ih h k
        next => cases h
      · rw [if_neg hcontrol] at h ⊢
        split at h
        next hexpires =>
          rw [if_pos hexpires]
          exact ih h k
        next hexpires =>
          rw [if_neg hexpires]
          exact ih h k

/-- The item as it is written before the body. -/
def newItem (resp : Resp) (expireAt : Int) : FileCacheItem where
  contentLength := phlContentLengthInit
  expireAt := expireAt
  statusCode := resp.statusCode
  headerNum := resp.headers.length
  headerTotalLength := (resp.headers.map phlHeaderDumpLength).sum

theorem createFile_new (hnone : d.names .current filename = none) :
    ∃ d', phlFileCacheCreateFile (fileSys date vhash) conf filename d = (some d.nextFd, d') ∧
      d'.fds d.nextFd = some ⟨d.nextInode, 0⟩ ∧ d'.inodes d.nextInode = [] ∧
      d'.names .current filename = some d.nextInode := by
  have hopen : (fileSys date vhash).openCreate filename d =
      (.ok d.nextFd, (d.createFile filename).2) := by
    simp only [fileSys, hnone]
    rfl
  refine ⟨(d.createFile filename).2, ?_, ?_, ?_, ?_⟩
  · unfold phlFileCacheCreateFile
    simp only [hopen]
  · simp [createFile, openInode, setFd, setName]
  · simp [createFile, openInode, setFd]
  · simp [createFile, openInode, setFd, setName]

theorem createItem_writing {expireAt : Int} {es : List FileOp}
    (hnone : d.names .current filename = none) :
    let a := fileCacheCreateItem (fileSys date vhash) conf r ⟨none, some filename, 0⟩ filename
      expireAt d es
    ∃ fd inode, Writing filename fd inode
        ((newItem r.resp expireAt).bytes ++ r.resp.headers.flatMap Header.record) 0 a.env ∧
      a.emit = es ++ [.created fd, .wrote (some fd) (.item (newItem r.resp expireAt) r.resp.headers)
        (Buffer.item (newItem r.resp expireAt) r.resp.headers).bytes.length] := by
  obtain ⟨d1, hcreate, hfd, hfile, hname⟩ := @createFile_new date vhash conf filename d hnone
  obtain ⟨d2, hwrite, hfd2, hfile2, hnames2⟩ :=
    @writeFd_end d1 d.nextFd d.nextInode
      (Buffer.item (newItem r.resp expireAt) r.resp.headers).bytes [] hfd hfile
  have hwritten : (fileSys date vhash).write d.nextFd
      (.item (newItem r.resp expireAt) r.resp.headers) d1 =
      (((Buffer.item (newItem r.resp expireAt) r.resp.headers).bytes.length : Int), d2) := by
    simp only [fileSys, hwrite]
  refine ⟨d.nextFd, d.nextInode, ?_⟩
  unfold fileCacheCreateItem
  simp only [hcreate]
  rw [show (⟨phlContentLengthInit, expireAt, r.resp.statusCode, r.resp.headers.length,
    (r.resp.headers.map phlHeaderDumpLength).sum⟩ : FileCacheItem) = newItem r.resp expireAt from rfl,
    hwritten]
  have hpos : ¬ (((Buffer.item (newItem r.resp expireAt) r.resp.headers).bytes.length : Nat) :
      Int) < 0 := by omega
  simp only [if_neg hpos]
  exact ⟨⟨rfl, hfd2, hfile2, (congrFun (congrFun hnames2 .current) filename).trans hname⟩, rfl⟩

/-- A response of which an item is created is a 200 of a miss. -/
theorem responseHeaders_created (hctx : w.ctx = some ⟨none, some filename, 0⟩)
    (h : ∃ fd, .created fd ∈ (phlFileCacheFilterResponseHeaders (fileSys date vhash) conf r w).emit) :
    r.resp.statusCode = 200 ∧ ∃ fd inode expireAt,
      Writing filename fd inode
        ((newItem r.resp expireAt).bytes ++ r.resp.headers.flatMap Header.record) 0
        (phlFileCacheFilterResponseHeaders (fileSys date vhash) conf r w).env ∧
      (phlFileCacheFilterResponseHeaders (fileSys date vhash) conf r w).emit =
        (if 100 < r.resp.headers.length then [.overran] else []) ++
          [.created fd, .wrote (some fd) (.item (newItem r.resp expireAt) r.resp.headers)
            (Buffer.item (newItem r.resp expireAt) r.resp.headers).bytes.length] := by
  have hfree : ∀ fd, FileOp.created fd ∉ FileCacheCtx.free ⟨none, some filename, 0⟩ := by
    intro fd hmem
    simp [FileCacheCtx.free] at hmem
  obtain ⟨fd, hfd⟩ := h
  unfold phlFileCacheFilterResponseHeaders at hfd ⊢
  simp only [hctx] at hfd ⊢
  by_cases hstatus : r.resp.statusCode = 200
  · rw [if_neg (not_not.mpr hstatus)] at hfd ⊢
    split at hfd
    next hnone =>
      have hover : FileOp.created fd ∉ (if 100 < r.resp.headers.length ∧
          (fileCacheExpireAfter (fileSys date vhash) ((fileSys date vhash).now w.outside)
            (r.resp.headers.take 101) (-1)).isSome = true then [FileOp.overran] else []) := by
        split <;> simp
      exact absurd hfd (by simp [abortAnswer, answer, hfree, hover])
    next expireAfter hexpire =>
      have hover : (if 100 < r.resp.headers.length ∧
          (fileCacheExpireAfter (fileSys date vhash) ((fileSys date vhash).now w.outside)
            (r.resp.headers.take 101) (-1)).isSome = true then [FileOp.overran] else []) =
          if 100 < r.resp.headers.length then [FileOp.overran] else [] := by
        rw [expireAfter_take hexpire 101]
        simp
      rw [hover] at hfd ⊢
      generalize (if expireAfter = -1 then (conf.defaultExpire : Int) else expireAfter) = after at hfd ⊢
      have hnot : FileOp.created fd ∉
          if 100 < r.resp.headers.length then [FileOp.overran] else [] := by
        split <;> simp
      by_cases hpos : after ≤ 0
      · rw [if_pos hpos] at hfd
        exact absurd hfd (by simp [abortAnswer, answer, hfree, hnot])
      · rw [if_neg hpos] at hfd ⊢
        cases hname : w.outside.names .current filename with
        | none =>
          obtain ⟨fd', inode, hwriting, hemit⟩ := createItem_writing hname
          exact ⟨hstatus, fd', inode, _, hwriting, hemit⟩
        | some inode =>
          have hexist : phlFileCacheCreateFile (fileSys date vhash) conf filename w.outside =
              (none, w.outside) := by
            unfold phlFileCacheCreateFile
            simp only [fileSys, hname]
          unfold fileCacheCreateItem at hfd
          rw [hexist] at hfd
          exact absurd hfd (by simp [abortAnswer, answer, FileCacheCtx.free, hnot])
  · rw [if_pos hstatus] at hfd
    exact absurd hfd (hfree fd)

theorem write_piece {isLast : Bool} (hw : Writing filename fd inode file n w) :
    ∃ d, (fileSys date vhash).writeTo (some fd) (.piece data isLast) w.outside =
        ((data.length : Int), d) ∧ d.fds fd = some ⟨inode, (file ++ data).length⟩ ∧
      d.inodes inode = file ++ data ∧ d.names .current filename = some inode := by
  obtain ⟨d, hwrite, hfd, hfile, hnames⟩ := @writeFd_end w.outside fd inode data file hw.fd hw.file
  refine ⟨d, ?_, hfd, hfile, by rw [hnames, hw.name]⟩
  simp only [FileSys.writeTo, fileSys, Buffer.bytes, hwrite]

theorem piece_writing {len : Nat} (hw : Writing filename fd inode file n w) :
    Writing filename fd inode (file ++ data) (n + data.length)
      (phlFileCacheFilterResponseBody (fileSys date vhash) r data len false w).env := by
  obtain ⟨d, hwrite, hfd, hfile, hname⟩ := @write_piece date vhash _ _ data _ _ _ _ false hw
  unfold phlFileCacheFilterResponseBody
  simp only [hw.ctx]
  rw [if_neg (by simp)]
  simp only [hwrite, ne_eq, not_true_eq_false, if_false, Bool.false_eq_true]
  exact ⟨rfl, hfd, hfile, hname⟩

theorem pieces_writing {pieces : List Bytes} (hw : Writing filename fd inode file n w) :
    Writing filename fd inode (file ++ pieces.flatten) (n + pieces.flatten.length)
      (cachePieces (fileSys date vhash) r false pieces w).1 := by
  induction pieces generalizing w file n with
  | nil => simpa [cachePieces] using hw
  | cons data pieces ih =>
    have hrest := ih (@piece_writing date vhash _ _ data _ _ _ r _ data.length hw)
    rw [List.append_assoc, Nat.add_assoc, ← List.length_append, ← List.flatten_cons] at hrest
    exact hrest

/-- The last piece is followed by the length of the body in the place of the mark. -/
theorem last_marks {len : Nat} (hw : Writing filename fd inode file n w) :
    let p := phlFileCacheFilterResponseBody (fileSys date vhash) r data len true w
    p.env.ctx = some ⟨some fd, none, n + data.length⟩ ∧
      p.env.outside.inodes inode = leBytes 8 (n + data.length) ++ (file ++ data).drop 8 ∧
      p.env.outside.names .current filename = some inode := by
  obtain ⟨d, hwrite, hfd, hdata, hname⟩ := @write_piece date vhash _ _ data _ _ _ _ true hw
  obtain ⟨d', hmark, hmarked, hnames⟩ :=
    @writeFd_start d fd inode (leBytes 8 (n + data.length)) _ hdata
  have hsought : (fileSys date vhash).seekTo (some fd) d =
      d.setFd fd (some ⟨inode, 0⟩) := by
    simp only [FileSys.seekTo, fileSys, hfd, Option.map_some]
  have hwritten : (fileSys date vhash).writeTo (some fd) (.length (n + data.length))
      (d.setFd fd (some ⟨inode, 0⟩)) = ((8 : Int), d') := by
    simp only [FileSys.writeTo, fileSys, Buffer.bytes, hmark, length_leBytes]
    rfl
  unfold phlFileCacheFilterResponseBody
  simp only [hw.ctx]
  rw [if_neg (by simp)]
  simp only [hwrite, ne_eq, not_true_eq_false, if_false, if_true, hsought, hwritten]
  refine ⟨rfl, ?_, ?_⟩
  · rw [hmarked, length_leBytes]
  · rw [hnames]
    exact hname

theorem free_not_item (ctx : FileCacheCtx) : ∀ op ∈ ctx.free, op.storesItem = false := by
  unfold FileCacheCtx.free
  cases ctx.fd <;> cases ctx.newFilename <;> simp [FileOp.storesItem]

theorem pieces_not_item {E : Type} {fs : FileSys E} {isLast : Bool} {pieces : List Bytes}
    {w : CacheWorld E} : ∀ op ∈ (cachePieces fs r isLast pieces w).2, op.storesItem = false := by
  have hone : ∀ (data : Bytes) (len : Nat) (w : CacheWorld E),
      ∀ op ∈ (phlFileCacheFilterResponseBody fs r data len isLast w).emit,
        op.storesItem = false := by
    intro data len w
    unfold phlFileCacheFilterResponseBody
    split
    next => simp
    next ctx _ =>
      have hfree := free_not_item ctx
      split
      next => simp
      next =>
        have hwrote : ∀ (failed : Prop) [Decidable failed] (ret : Int),
            ∀ op ∈ (if failed then .wrote ctx.fd (.piece data isLast) ret :: ctx.free
              else [.wrote ctx.fd (.piece data isLast) ret]), op.storesItem = false := by
          intro failed _ ret
          split
          next => exact List.forall_mem_cons.mpr ⟨rfl, hfree⟩
          next => exact List.forall_mem_cons.mpr ⟨rfl, nofun⟩
        dsimp only
        split
        next =>
          refine List.forall_mem_append.mpr ⟨hwrote _ _, ?_⟩
          exact List.forall_mem_cons.mpr ⟨rfl, List.forall_mem_cons.mpr ⟨rfl, nofun⟩⟩
        next => exact hwrote _ _
  induction pieces generalizing w with
  | nil => simp [cachePieces]
  | cons data pieces ih =>
    intro op hop
    simp only [cachePieces, List.mem_append] at hop
    rcases hop with hop | hop
    · exact hone _ _ _ op hop
    · exact ih op hop

theorem processHeaders_eq {E : Type} (fs : FileSys E) (conf : FileCacheConf) (r : Request)
    (w : CacheWorld E) : phlFileCacheFilterProcessHeaders fs conf r w =
      if conf.dirName = none then answer r phlOk w []
      else if r.req.method ≠ some (bytes "GET") ∧ r.req.method ≠ some (bytes "HEAD") then
        answer r phlOk w []
      else match fileCacheKey conf r with
        | none => answer r phlOk w []
        | some key =>
          fileCacheLookup fs conf (fileCacheFilename conf.dirLevel (fs.vhash128 key)) r
            w.outside := by
  unfold phlFileCacheFilterProcessHeaders fileCacheKey
  rfl

/-- What a lookup does: it hits, or the response is to be stored. -/
theorem fileCacheLookup_cases {E : Type} (fs : FileSys E) (conf : FileCacheConf) (filename : Bytes)
    (r : Request) (e : E) :
    (∃ fd e', fileCacheLookup fs conf filename r e = fileCacheHit fs filename fd r e') ∨
      ∃ e', fileCacheLookup fs conf filename r e =
        answer r phlOk ⟨some ⟨none, some filename, 0⟩, e'⟩ [] := by
  unfold fileCacheLookup
  dsimp only
  split
  next fd _ => exact .inl ⟨fd, _, rfl⟩
  next =>
    split
    next =>
      split
      next fd _ => exact .inl ⟨fd, _, rfl⟩
      next => exact .inr ⟨_, rfl⟩
    next => exact .inr ⟨_, rfl⟩

theorem fileCacheHit_ctx {E : Type} {fs : FileSys E} {e : E} {ctx : FileCacheCtx}
    {name : Bytes} (hctx : (fileCacheHit fs filename fd r e).env.ctx = some ctx)
    (hnew : ctx.newFilename = some name) : ctx = ⟨none, some filename, 0⟩ ∧ name = filename := by
  unfold fileCacheHit at hctx
  dsimp only at hctx
  split at hctx
  next =>
    cases hctx
    cases hnew
  next =>
    split at hctx
    next => cases hctx
    next =>
      split at hctx
      next =>
        cases hctx
        cases hnew
        exact ⟨rfl, rfl⟩
      next =>
        split at hctx
        next =>
          cases hctx
          cases hnew
        next =>
          cases hctx
          cases hnew

theorem fileCacheHit_not_item {E : Type} {fs : FileSys E} {e : E} :
    ∀ op ∈ (fileCacheHit fs filename fd r e).emit, op.storesItem = false := by
  unfold fileCacheHit
  dsimp only
  split
  next => simp [answer, FileOp.storesItem]
  next =>
    split
    next => exact List.forall_mem_cons.mpr ⟨rfl, free_not_item _⟩
    next =>
      split
      next => simp [answer, FileOp.storesItem]
      next => split <;> simp [answer, FileOp.storesItem]

/-- A request that is to store its response has missed. -/
theorem processHeaders_miss {E : Type} {fs : FileSys E} {e : E} {ctx : FileCacheCtx}
    (hctx : (phlFileCacheFilterProcessHeaders fs conf r ⟨none, e⟩).env.ctx = some ctx)
    (hnew : ctx.newFilename = some filename) :
    ctx = ⟨none, some filename, 0⟩ ∧ conf.dirName ≠ none ∧ ∃ key, fileCacheKey conf r = some key ∧
      filename = fileCacheFilename conf.dirLevel (fs.vhash128 key) := by
  rw [processHeaders_eq] at hctx
  split at hctx
  next => cases hctx
  next hdir =>
    split at hctx
    next => cases hctx
    next =>
      split at hctx
      next => cases hctx
      next key hkey =>
        rcases fileCacheLookup_cases fs conf (fileCacheFilename conf.dirLevel (fs.vhash128 key)) r e
          with ⟨fd, e', h⟩ | ⟨e', h⟩
        · rw [h] at hctx
          obtain ⟨hctx, hname⟩ := fileCacheHit_ctx hctx hnew
          rw [hctx, hname]
          exact ⟨rfl, hdir, key, hkey, rfl⟩
        · rw [h] at hctx
          cases hctx
          cases hnew
          exact ⟨rfl, hdir, key, hkey, rfl⟩

theorem processHeaders_not_item {E : Type} {fs : FileSys E} {w : CacheWorld E} :
    ∀ op ∈ (phlFileCacheFilterProcessHeaders fs conf r w).emit, op.storesItem = false := by
  rw [processHeaders_eq]
  split
  next => exact nofun
  next =>
    split
    next => exact nofun
    next =>
      split
      next => exact nofun
      next key _ =>
        rcases fileCacheLookup_cases fs conf (fileCacheFilename conf.dirLevel (fs.vhash128 key)) r
          w.outside with ⟨fd, e', h⟩ | ⟨e', h⟩
        · rw [h]
          exact fileCacheHit_not_item
        · rw [h]
          exact nofun

/-- A file that is there is opened, from the last directory after it is moved. -/
theorem lookup_opens (hthere : d.names .current filename = some inode ∨
      d.names .current filename = none ∧ d.hasLastDir = true ∧
        d.names .last filename = some inode) :
    ∃ fd d', fileCacheLookup (fileSys date vhash) conf filename r d =
        fileCacheHit (fileSys date vhash) filename fd r d' ∧
      d'.fds fd = some ⟨inode, 0⟩ ∧ d'.inodes = d.inodes ∧ d'.clock = d.clock := by
  unfold fileCacheLookup
  rcases hthere with hname | ⟨hnone, hlast, hname⟩
  · refine ⟨(d.openInode inode).1, (d.openInode inode).2, ?_, ?_, rfl, rfl⟩
    · simp only [fileSys, hname]
    · simp [openInode, setFd]
  · have hrename : phlFileCacheRenameFile (fileSys date vhash) conf filename (d.openInode inode).2 =
        ((d.openInode inode).2.setName .last filename none).setName .current filename
          (some inode) := by
      have hname' : (d.openInode inode).2.names .last filename = some inode := hname
      unfold phlFileCacheRenameFile
      simp only [fileSys, hname', reduceCtorEq, if_false]
    refine ⟨(d.openInode inode).1, ((d.openInode inode).2.setName .last filename none).setName
      .current filename (some inode), ?_, ?_, rfl, rfl⟩
    · simp only [fileSys, hnone, hlast, hname, if_true]
      exact congrArg (fileCacheHit _ filename _ r) hrename
    · simp [openInode, setFd, setName]

end Storing

/-- What is meant by storing a response and finding it again. -/
structure RoundTrip (date : Bytes → Int) (vhash : Bytes → Nat × Nat) (conf : FileCacheConf)
    (r r' : Request) (body : Bytes) (stored : Disk × List FileOp) : Prop where
  /-- `store_headers` is large enough -/
  inBounds : .overran ∉ stored.2
  /-- the item and its records fill the buffer that is written -/
  fills : ∀ fd i hs ret, .wrote fd (.item i hs) ret ∈ stored.2 →
    (Buffer.item i hs).bytes.length = (Buffer.item i hs).size
  finds : ∀ (later : Disk) (s : Request) (key : Bytes), fileCacheKey conf r = some key →
    fileCacheKey conf s = some key →
    s.req.method = some (bytes "GET") ∨ s.req.method = some (bytes "HEAD") →
    StillThere (fileCacheFilename conf.dirLevel (vhash key)) stored.1 later →
    (∀ fd i hs ret, .wrote fd (.item i hs) ret ∈ stored.2 → later.clock ≤ i.expireAt) →
    Finds r'.resp body s
      (phlFileCacheFilterProcessHeaders (Disk.fileSys date vhash) conf s ⟨none, later⟩)

/-- The item of a response whose body is at hand. -/
def finishedItem (resp : Resp) (expireAt : Int) (body : Bytes) : FileCacheItem :=
  { newItem resp expireAt with contentLength := body.length }

section RoundTrip

variable {date : Bytes → Int} {vhash : Bytes → Nat × Nat} {conf : FileCacheConf} {r r' : Request}
  {pieces : List Bytes} {last : Bytes} {d : Disk} {expireAt : Int}

theorem finishedItem_bytes (resp : Resp) (expireAt : Int) (body : Bytes) :
    leBytes 8 body.length ++ (newItem resp expireAt).bytes.drop 8 =
      (finishedItem resp expireAt body).bytes := by
  unfold finishedItem FileCacheItem.bytes
  simp only [List.append_assoc]
  rw [List.drop_left' (length_leBytes _ _)]

theorem dumpLengths_le {hs : List Header} (hshort : ∀ h ∈ hs, h.Short) :
    (hs.map phlHeaderDumpLength).sum ≤ hs.length * 65542 := by
  induction hs with
  | nil => simp
  | cons h hs ih =>
    obtain ⟨hname, hvalue⟩ := hshort h List.mem_cons_self
    have hrest := ih fun h' hh => hshort h' (List.mem_cons_of_mem h hh)
    have hone : phlHeaderDumpLength h ≤ 65542 := by
      unfold phlHeaderDumpLength
      dsimp only
      split <;> omega
    rw [List.map_cons, List.sum_cons, List.length_cons]
    omega

/-- Only the response filter may create an item, and only after a miss. -/
theorem created_miss (hstored : ∃ fd,
      .created fd ∈ (cacheStore (Disk.fileSys date vhash) conf r r' pieces last d).2) :
    ∃ key, fileCacheKey conf r = some key ∧ conf.dirName ≠ none ∧
      (phlFileCacheFilterProcessHeaders (Disk.fileSys date vhash) conf r ⟨none, d⟩).env.ctx =
        some ⟨none, some (fileCacheFilename conf.dirLevel (vhash key)), 0⟩ ∧
      ∃ fd, .created fd ∈ (phlFileCacheFilterResponseHeaders (Disk.fileSys date vhash) conf r'
        (phlFileCacheFilterProcessHeaders (Disk.fileSys date vhash) conf r ⟨none, d⟩).env).emit := by
  obtain ⟨fd, hfd⟩ := hstored
  simp only [cacheStore, List.mem_append] at hfd
  have hin : FileOp.created fd ∈ (phlFileCacheFilterResponseHeaders (Disk.fileSys date vhash) conf r'
      (phlFileCacheFilterProcessHeaders (Disk.fileSys date vhash) conf r ⟨none, d⟩).env).emit := by
    rcases hfd with ((hfd | hfd) | hfd) | hfd
    · exact absurd (processHeaders_not_item _ hfd) (by simp [FileOp.storesItem])
    · exact hfd
    · exact absurd (pieces_not_item _ hfd) (by simp [FileOp.storesItem])
    · exact absurd (pieces_not_item _ hfd) (by simp [FileOp.storesItem])
  cases hctx : (phlFileCacheFilterProcessHeaders (Disk.fileSys date vhash) conf r ⟨none, d⟩).env.ctx
    with
  | none =>
    unfold phlFileCacheFilterResponseHeaders at hin
    rw [hctx] at hin
    cases hin
  | some ctx =>
    cases hnew : ctx.newFilename with
    | none =>
      unfold phlFileCacheFilterResponseHeaders at hin
      rw [hctx] at hin
      simp only [hnew] at hin
      cases hin
    | some filename =>
      obtain ⟨hmiss, hdir, key, hkey, hname⟩ := processHeaders_miss hctx hnew
      rw [hname] at hmiss
      exact ⟨key, hkey, hdir, by rw [hmiss]; rfl, fd, hin⟩

/-- The response whose item was created is in its file after the last piece. -/
theorem cacheStore_file (hstored : ∃ fd,
      .created fd ∈ (cacheStore (Disk.fileSys date vhash) conf r r' pieces last d).2) :
    ∃ key fd inode expireAt, fileCacheKey conf r = some key ∧ conf.dirName ≠ none ∧
      r'.resp.statusCode = 200 ∧
      (∀ op, op.storesItem = true →
        (op ∈ (cacheStore (Disk.fileSys date vhash) conf r r' pieces last d).2 ↔
          op ∈ (if 100 < r'.resp.headers.length then [FileOp.overran] else []) ++
            [.created fd, .wrote (some fd) (.item (newItem r'.resp expireAt) r'.resp.headers)
              (Buffer.item (newItem r'.resp expireAt) r'.resp.headers).bytes.length])) ∧
      (cacheStore (Disk.fileSys date vhash) conf r r' pieces last d).1.names .current
        (fileCacheFilename conf.dirLevel (vhash key)) = some inode ∧
      (cacheStore (Disk.fileSys date vhash) conf r r' pieces last d).1.inodes inode =
        (finishedItem r'.resp expireAt (pieces.flatten ++ last)).bytes ++
          (r'.resp.headers.flatMap Header.record ++ (pieces.flatten ++ last)) := by
  obtain ⟨key, hkey, hdir, hctx, hcreated⟩ := created_miss hstored
  obtain ⟨hstatus, fd, inode, expireAt, hwriting, hemit⟩ := responseHeaders_created hctx hcreated
  have hbody := @pieces_writing date vhash _ _ _ _ _ r' _ pieces hwriting
  rw [Nat.zero_add] at hbody
  obtain ⟨hdone, hfile, hname⟩ := @last_marks date vhash _ _ last _ _ _ r' _ last.length hbody
  refine ⟨key, fd, inode, expireAt, hkey, hdir, hstatus, ?_, ?_, ?_⟩
  · intro op hop
    simp only [cacheStore, List.mem_append]
    rw [hemit]
    constructor
    · rintro (((h | h) | h) | h)
      · rw [processHeaders_not_item op h] at hop
        cases hop
      · exact List.mem_append.mp h
      · rw [pieces_not_item op h] at hop
        cases hop
      · rw [pieces_not_item op h] at hop
        cases hop
    · intro h
      exact .inl (.inl (.inr (List.mem_append.mpr h)))
  · simp only [cacheStore, cachePieces, hdone, phlFileCacheCtxFree]
    exact hname
  · simp only [cacheStore, cachePieces, hdone, phlFileCacheCtxFree]
    have hdrop : ((newItem r'.resp expireAt).bytes ++ r'.resp.headers.flatMap Header.record ++
        pieces.flatten ++ last).drop 8 = (newItem r'.resp expireAt).bytes.drop 8 ++
          (r'.resp.headers.flatMap Header.record ++ (pieces.flatten ++ last)) := by
      simp only [List.append_assoc]
      rw [List.drop_append_of_le_length]
      rw [length_itemBytes, fileCacheItemSize]
      omega
    rw [← finishedItem_bytes, List.append_assoc, ← hdrop, List.length_append]
    exact hfile

/-- What is in a finished item file is what a lookup of its key gives. -/
theorem item_found {later : Disk} {s : Request} {key body : Bytes} {inode : Nat} {resp : Resp}
    (hdir : conf.dirName ≠ none) (hkey : fileCacheKey conf s = some key)
    (hmethod : s.req.method = some (bytes "GET") ∨ s.req.method = some (bytes "HEAD"))
    (hthere : later.names .current (fileCacheFilename conf.dirLevel (vhash key)) = some inode ∨
      later.names .current (fileCacheFilename conf.dirLevel (vhash key)) = none ∧
        later.hasLastDir = true ∧
          later.names .last (fileCacheFilename conf.dirLevel (vhash key)) = some inode)
    (hfile : later.inodes inode = (finishedItem resp expireAt body).bytes ++
      (resp.headers.flatMap Header.record ++ body))
    (hread : itemOfBytes (finishedItem resp expireAt body).bytes = finishedItem resp expireAt body)
    (hshort : ∀ h ∈ resp.headers, h.Short) (hbody : body.length < 2 ^ 63)
    (hexpire : later.clock ≤ expireAt) :
    Finds resp body s
      (phlFileCacheFilterProcessHeaders (Disk.fileSys date vhash) conf s ⟨none, later⟩) := by
  rw [processHeaders_eq, if_neg hdir, if_neg (by tauto), hkey]
  change Finds _ _ _ (fileCacheLookup (Disk.fileSys date vhash) conf
    (fileCacheFilename conf.dirLevel (vhash key)) s later)
  obtain ⟨fd, d', hlookup, hfd, hinodes, hclock⟩ := @lookup_opens date vhash conf _ inode s later hthere
  rw [← hinodes] at hfile
  rw [← hclock] at hexpire
  have hfinished : body.length ≠ phlContentLengthInit := by
    unfold phlContentLengthInit
    omega
  obtain ⟨hret, hheaders, hlength, hat⟩ := @fileCacheHit_finds date vhash
    (fileCacheFilename conf.dirLevel (vhash key)) _ _ _ _ _ s _ hfd hfile hshort hread rfl rfl
    hfinished hexpire
  rw [hlookup]
  exact ⟨hret, hheaders, hlength, hat⟩

end RoundTrip

theorem cache_round_trip_iff {date : Bytes → Int} {vhash : Bytes → Nat × Nat} {conf : FileCacheConf}
    {r r' : Request} {pieces : List Bytes} {last : Bytes} {d : Disk}
    (hstored : ∃ fd,
      .created fd ∈ (cacheStore (Disk.fileSys date vhash) conf r r' pieces last d).2)
    (hshort : ∀ h ∈ r'.resp.headers, h.Short)
    (htime : ∀ fd i hs ret,
      .wrote fd (.item i hs) ret ∈ (cacheStore (Disk.fileSys date vhash) conf r r' pieces last d).2 →
        -2 ^ 63 ≤ i.expireAt ∧ i.expireAt < 2 ^ 63)
    (hbody : (pieces.flatten ++ last).length < 2 ^ 63) :
    RoundTrip date vhash conf r r' (pieces.flatten ++ last)
        (cacheStore (Disk.fileSys date vhash) conf r r' pieces last d) ↔
      r'.resp.headers.length ≤ 100 := by
  obtain ⟨key, fd, inode, expireAt, hkey, hdir, hstatus, hops, hname, hfile⟩ :=
    cacheStore_file hstored
  constructor
  · intro h
    by_contra hover
    apply h.inBounds
    rw [hops _ rfl, if_pos (by omega)]
    simp
  · intro hnum
    have hwrote : ∀ fd' i hs ret, .wrote fd' (.item i hs) ret ∈
        (cacheStore (Disk.fileSys date vhash) conf r r' pieces last d).2 →
          i = newItem r'.resp expireAt ∧ hs = r'.resp.headers := by
      intro fd' i hs ret h
      rw [hops _ rfl, if_neg (by omega)] at h
      simp only [List.nil_append, List.mem_cons, reduceCtorEq, List.not_mem_nil, or_false,
        false_or, FileOp.wrote.injEq, Buffer.item.injEq] at h
      exact h.2.1
    refine ⟨?_, ?_, ?_⟩
    · rw [hops _ rfl, if_neg (by omega)]
      simp
    · intro fd' i hs ret h
      obtain ⟨hi, hhs⟩ := hwrote fd' i hs ret h
      rw [hi, hhs, Buffer.bytes, Buffer.size, List.length_append, length_itemBytes, length_records]
      rfl
    · intro later s key' hkey' hskey hmethod hthere hexpire
      rw [hkey] at hkey'
      cases hkey'
      have hmem : FileOp.wrote (some fd) (.item (newItem r'.resp expireAt) r'.resp.headers)
          (Buffer.item (newItem r'.resp expireAt) r'.resp.headers).bytes.length ∈
          (cacheStore (Disk.fileSys date vhash) conf r r' pieces last d).2 := by
        rw [hops _ rfl]
        simp
      have hread : itemOfBytes (finishedItem r'.resp expireAt (pieces.flatten ++ last)).bytes =
          finishedItem r'.resp expireAt (pieces.flatten ++ last) := by
        have htotal := dumpLengths_le hshort
        apply itemOfBytes_bytes
        · exact hbody.trans (by norm_num)
        · have hexpireAt := htime _ _ _ _ hmem
          exact hexpireAt
        · change -2 ^ 31 ≤ r'.resp.statusCode ∧ r'.resp.statusCode < 2 ^ 31
          rw [hstatus]
          norm_num
        · change r'.resp.headers.length < 2 ^ 32
          omega
        · change (r'.resp.headers.map phlHeaderDumpLength).sum < 2 ^ 32
          omega
      obtain ⟨inode', hname', hsame, hthere⟩ := hthere
      rw [hname] at hname'
      cases hname'
      have hunexpired : later.clock ≤ expireAt := hexpire _ _ _ _ hmem
      exact item_found hdir hskey hmethod hthere (hsame.trans hfile) hread hshort hbody hunexpired

/-- A GET, and a response of so many headers. -/
def manyHeaders (method : Option Bytes) (n : Nat) : Request where
  req := { Req.init with method := method }
  resp := { Resp.init with
    statusCode := 200
    headers := List.replicate n ⟨bytes "X", bytes "y"⟩ }
  state := .responseHeaders1
  closed := false
  isBroken := false
  redirects := 0
  filterIndexs := fun _ => 0
  namedPath := none
  father := .none
  isHttp2 := false
  confHost := none
  confPath := none

def emptyDisk : Disk where
  clock := 0
  hasLastDir := false
  names := fun _ _ => none
  inodes := fun _ => []
  nextInode := 0
  fds := fun _ => none
  nextFd := 3

def minuteCache : FileCacheConf := ⟨some [], none, 60, 0⟩

/-- A response of `n` headers and three bytes of body is stored. -/
def storedHeaders (n : Nat) : Disk × List FileOp :=
  cacheStore (Disk.fileSys (fun _ => 0) fun _ => (0, 0)) minuteCache
    (manyHeaders (some (bytes "GET")) 0) (manyHeaders none n) [bytes "ab"] (bytes "c") emptyDisk

theorem manyHeaders_short (method : Option Bytes) (n : Nat) :
    ∀ h ∈ (manyHeaders method n).resp.headers, h.Short := by
  intro h hmem
  rw [List.eq_of_mem_replicate hmem]
  exact ⟨by decide, by decide⟩

theorem storedHeaders_one : (storedHeaders 1).2 =
    [.created 3, .wrote (some 3)
        (.item ⟨phlContentLengthInit, 60, 200, 1, 8⟩ [⟨bytes "X", bytes "y"⟩]) 40,
      .wrote (some 3) (.piece (bytes "ab") false) 2, .wrote (some 3) (.piece (bytes "c") true) 1,
      .sought (some 3), .wrote (some 3) (.length 3) 8] := by
  decide

theorem cache_round_trip_oneHeader :
    RoundTrip (fun _ => 0) (fun _ => (0, 0)) minuteCache (manyHeaders (some (bytes "GET")) 0)
      (manyHeaders none 1) ([bytes "ab"].flatten ++ bytes "c") (storedHeaders 1) := by
  have hbody : ([bytes "ab"].flatten ++ bytes "c").length < 2 ^ 63 := by decide
  refine (cache_round_trip_iff ⟨3, ?_⟩ (manyHeaders_short none 1) ?_ hbody).mpr (by decide)
  · exact storedHeaders_one ▸ List.mem_cons_self
  · intro fd i hs ret h
    change _ ∈ (storedHeaders 1).2 at h
    rw [storedHeaders_one] at h
    simp only [List.mem_cons, reduceCtorEq, FileOp.wrote.injEq, Buffer.item.injEq,
      List.not_mem_nil, or_false, false_or, and_false, false_and] at h
    rw [h.2.1.1]
    decide

set_option maxRecDepth 4096 in
/-- The headers beyond the hundredth are stored behind `store_headers`. -/
theorem store_headers_overrun :
    (.created 3 ∈ (storedHeaders 101).2 ∧ ∀ h ∈ (manyHeaders none 101).resp.headers, h.Short) ∧
      ¬ RoundTrip (fun _ => 0) (fun _ => (0, 0)) minuteCache (manyHeaders (some (bytes "GET")) 0)
        (manyHeaders none 101) ([bytes "ab"].flatten ++ bytes "c") (storedHeaders 101) := by
  refine ⟨⟨?_, manyHeaders_short none 101⟩, ?_⟩
  · decide
  · intro h
    apply h.inBounds
    decide

end Phorklift
