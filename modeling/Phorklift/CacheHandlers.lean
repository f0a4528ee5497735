import Phorklift.CacheUnlink

/-! The handlers of the file cache, run without interruption, are runs of its system calls. -/

namespace Phorklift

/-- The stage of a request that has come out of a handler. -/
def ctxStage : Option FileCacheCtx → CacheStage
  | some ⟨none, some _, _⟩ => .missed
  | some ⟨some fd, some _, newLength⟩ => .storing fd newLength
  | _ => .out

/-- The same names and files. -/
structure SameFiles (d d' : Disk) : Prop where
  names : d.names = d'.names
  inodes : d.inodes = d'.inodes

/-- A handler of one request does what some steps of that request do. -/
def Simulates {ι : Type} [DecidableEq ι] (filename : ι → Bytes) (s : CacheSystem ι) (i : ι) (w : CacheWorld Disk) : Prop :=
  ∃ acts s', cacheRun filename acts s = some s' ∧ SameFiles s'.disk w.outside ∧
    s'.stage i = ctxStage w.ctx

section Handlers

variable {ι : Type} [DecidableEq ι] {filename : ι → Bytes} {s s' : CacheSystem ι} {i : ι}
  {date : Bytes → Int} {vhash : Bytes → Nat × Nat} {conf : FileCacheConf} {r : Request}
  {w : CacheWorld Disk} {fd : Nat}

theorem Simulates.cons {a : CacheAct ι} (hstep : cacheStep filename s a = some s')
    (h : Simulates filename s' i w) : Simulates filename s i w := by
  obtain ⟨acts, t, hrun, hsame⟩ := h
  refine ⟨a :: acts, t, ?_, hsame⟩
  rw [cacheRun, hstep]
  exact hrun

theorem Simulates.same {w' : CacheWorld Disk} (h : Simulates filename s i w)
    (hsame : SameFiles w.outside w'.outside) (hctx : w'.ctx = w.ctx) :
    Simulates filename s i w' := by
  obtain ⟨acts, t, hrun, hfiles, hstage⟩ := h
  exact ⟨acts, t, hrun, ⟨hfiles.names.trans hsame.names, hfiles.inodes.trans hsame.inodes⟩,
    by rw [hctx]; exact hstage⟩

theorem Simulates.done (hsame : SameFiles s.disk w.outside) (hstage : s.stage i = ctxStage w.ctx) :
    Simulates filename s i w := ⟨[], s, rfl, hsame, hstage⟩

@[simp] theorem goto_stage {stage : CacheStage} {d : Disk} {es : List (CacheEvent ι)} :
    (s.goto i stage d es).stage i = stage := Function.update_self _ _ _

theorem step_unlinkExpired (hstage : s.stage i = .expired fd) :
    cacheStep filename s (.unlinkExpired i) = some (s.goto i .missed
      (Disk.calls.unlinkat (filename i) (Disk.calls.close fd s.disk)) (s.unlinked filename i)) := by
  simp only [cacheStep, hstage]

theorem step_openLast {inode : Nat} (hstage : s.stage i = .openLast)
    (hlast : s.disk.names .last (filename i) = some inode) :
    cacheStep filename s (.openLast i false) =
      some (s.goto i (.moving (s.disk.openInode inode).1 false) (s.disk.openInode inode).2 []) := by
  simp only [cacheStep, hstage, Bool.false_eq_true, if_false, Disk.calls, Disk.fileSys, hlast]

theorem step_rename {inode : Nat} {again : Bool} (hstage : s.stage i = .moving fd again)
    (hlast : s.disk.names .last (filename i) = some inode) :
    cacheStep filename s (.rename i false) = some (s.goto i (.reading fd)
      ((s.disk.setName .last (filename i) none).setName .current (filename i) (some inode)) []) := by
  simp only [cacheStep, hstage, Bool.false_eq_true, if_false, Disk.calls, Disk.fileSys, hlast,
    reduceCtorEq, false_and]

theorem readHeaders_same (date : Bytes → Int) (vhash : Bytes → Nat × Nat) (fd : Nat)
    (item : FileCacheItem) (d : Disk) :
    SameFiles d ((Disk.fileSys date vhash).readHeaders fd item d).2 := by
  simp only [Disk.fileSys]
  split
  next => exact ⟨rfl, rfl⟩
  next data d' hread =>
    unfold Disk.readFd at hread
    obtain ⟨file, -, heq⟩ := Option.bind_eq_some_iff.mp hread
    cases heq
    exact ⟨rfl, rfl⟩

theorem hit_simulates (hstage : s.stage i = .reading fd) :
    Simulates filename s i
      (fileCacheHit (Disk.fileSys date vhash) (filename i) fd r s.disk).env := by
  have hstep : cacheStep filename s (.readItem i false) = some (readItemStep s i fd) := by
    simp only [cacheStep, hstage, Bool.false_eq_true, if_false]
  apply Simulates.cons hstep
  unfold readItemStep fileCacheHit
  dsimp only
  have hread : (Disk.fileSys date vhash).readItem fd s.disk = Disk.calls.readItem fd s.disk := rfl
  have hnow : ∀ d, (Disk.fileSys date vhash).now d = Disk.calls.now d := fun _ => rfl
  simp only [hread, hnow]
  split
  next => exact .done ⟨rfl, rfl⟩ goto_stage
  next =>
    split
    next => exact .done ⟨rfl, rfl⟩ goto_stage
    next =>
      split
      next =>
        apply Simulates.cons (step_unlinkExpired goto_stage)
        exact .done ⟨rfl, rfl⟩ goto_stage
      next =>
        have hsame := readHeaders_same date vhash fd
          (Disk.calls.readItem fd s.disk).1.2
          (Disk.calls.readItem fd s.disk).2
        split
        next => exact .done hsame goto_stage
        next => exact .done hsame goto_stage

theorem lookup_simulates (hidle : s.stage i = .idle) :
    Simulates filename s i
      (fileCacheLookup (Disk.fileSys date vhash) conf (filename i) r s.disk).env := by
  have hcalls : ∀ dir, (Disk.fileSys date vhash).openRead dir (filename i) s.disk =
      Disk.calls.openRead dir (filename i) s.disk := fun _ => rfl
  unfold fileCacheLookup
  cases hcurrent : s.disk.names .current (filename i) with
  | some inode =>
    have hopen : Disk.calls.openRead .current (filename i) s.disk =
        (.ok (s.disk.openInode inode).1, (s.disk.openInode inode).2) := by
      simp only [Disk.calls, Disk.fileSys, hcurrent]
    have hstep : cacheStep filename s (.openCurrent i false) =
        some (s.goto i (.reading (s.disk.openInode inode).1) (s.disk.openInode inode).2 []) := by
      simp only [cacheStep, hidle, Bool.false_eq_true, if_false, hopen]
    simp only [hcalls, hopen]
    exact Simulates.cons hstep (hit_simulates goto_stage)
  | none =>
    have hopen : Disk.calls.openRead .current (filename i) s.disk = (.error .noent, s.disk) := by
      simp only [Disk.calls, Disk.fileSys, hcurrent]
    have hstep : cacheStep filename s (.openCurrent i false) = some (s.goto i
        (if Disk.calls.hasLastDir s.disk then .openLast else .missed) s.disk []) := by
      simp only [cacheStep, hidle, Bool.false_eq_true, if_false, hopen]
    have hdir : (Disk.fileSys date vhash).hasLastDir s.disk = Disk.calls.hasLastDir s.disk := rfl
    simp only [hcalls, hopen, hdir]
    apply Simulates.cons hstep
    split
    next =>
      cases hlast : s.disk.names .last (filename i) with
      | some inode =>
        have hopened : Disk.calls.openRead .last (filename i) s.disk =
            (.ok (s.disk.openInode inode).1, (s.disk.openInode inode).2) := by
          simp only [Disk.calls, Disk.fileSys, hlast]
        have hlast' : (s.disk.openInode inode).2.names .last (filename i) = some inode := hlast
        have hrename : phlFileCacheRenameFile (Disk.fileSys date vhash) conf (filename i)
            (s.disk.openInode inode).2 = ((s.disk.openInode inode).2.setName .last (filename i)
              none).setName .current (filename i) (some inode) := by
          unfold phlFileCacheRenameFile
          simp only [Disk.fileSys, hlast', reduceCtorEq, if_false]
        have hlastDisk : (s.goto i .openLast s.disk []).disk.names .last (filename i) = some inode := hlast
        simp only [hopened, hrename]
        apply Simulates.cons (step_openLast goto_stage hlastDisk)
        apply Simulates.cons (step_rename goto_stage hlast')
        exact hit_simulates goto_stage
      | none =>
        have hopened : Disk.calls.openRead .last (filename i) s.disk = (.error .noent, s.disk) := by
          simp only [Disk.calls, Disk.fileSys, hlast]
        have hstep : cacheStep filename (s.goto i .openLast s.disk []) (.openLast i false) =
            some ((s.goto i .openLast s.disk []).goto i .missed s.disk []) := by
          simp only [cacheStep, goto_stage, Bool.false_eq_true, if_false]
          simp only [CacheSystem.goto, hopened]
        simp only [hopened]
        exact Simulates.cons hstep (.done ⟨rfl, rfl⟩ goto_stage)
    next => exact .done ⟨rfl, rfl⟩ goto_stage

theorem processHeaders_simulates {key : Bytes} (hidle : s.stage i = .idle)
    (hdir : conf.dirName ≠ none)
    (hmethod : r.req.method = some (bytes "GET") ∨ r.req.method = some (bytes "HEAD"))
    (hkey : fileCacheKey conf r = some key)
    (hname : filename i = fileCacheFilename conf.dirLevel (vhash key)) :
    Simulates filename s i
      (phlFileCacheFilterProcessHeaders (Disk.fileSys date vhash) conf r ⟨none, s.disk⟩).env := by
  rw [processHeaders_eq, if_neg hdir, if_neg (by tauto), hkey]
  have hlookup := @lookup_simulates ι _ filename s i date vhash conf r hidle
  rw [hname] at hlookup
  exact hlookup

theorem abort_simulates {ctx : FileCacheCtx} (hctx : ctx.newFilename = some (filename i))
    (hstage : s.stage i = .aborting ctx.fd) :
    Simulates filename s i (phlFileCacheAbort (Disk.fileSys date vhash) ctx s.disk) := by
  obtain ⟨fd, newFilename, newLength⟩ := ctx
  cases hctx
  have hstep : cacheStep filename s (.abort i) = some (s.goto i .out
      (phlFileCacheCtxFree Disk.calls ⟨fd, some (filename i), 0⟩ s.disk)
        (s.unlinked filename i)) := by
    simp only [cacheStep, hstage]
  apply Simulates.cons hstep
  exact .done ⟨by cases fd <;> rfl, by cases fd <;> rfl⟩ goto_stage

/-- The close of a request, and `phl_file_cache_abort`. -/
theorem ctxFree_simulates {ctx : FileCacheCtx} (hctx : ctx.newFilename = some (filename i))
    (hstage : s.stage i = ctxStage (some ctx)) :
    Simulates filename s i (phlFileCacheAbort (Disk.fileSys date vhash) ctx s.disk) := by
  have hstep : cacheStep filename s (.giveUp i) =
      some (s.goto i (.aborting ctx.fd) s.disk []) := by
    obtain ⟨fd, newFilename, newLength⟩ := ctx
    cases hctx
    cases fd <;> simp only [cacheStep, hstage, ctxStage]
  exact Simulates.cons hstep (abort_simulates hctx goto_stage)

theorem writePart_whole {d d' : Disk} {data : Bytes} (h : d.writeFd fd data = some d') :
    d.writePart fd data (some data.length) = some d' := by
  simp only [Disk.writePart, le_refl, if_true, List.take_length, h]

theorem step_writeItem {d : Disk} {expireAt : Int} {resp : Resp} {written : Option Nat}
    (hstage : s.stage i = .created fd)
    (hwrite : s.disk.writePart fd (Buffer.item (newItem resp expireAt) resp.headers).bytes
      written = some d) :
    cacheStep filename s (.writeItem i resp expireAt written) =
      some (s.goto i (if written = none then .aborting (some fd) else .storing fd 0) d []) := by
  simp only [cacheStep, hstage, hwrite, Option.bind_eq_bind, Option.bind_some]

theorem step_writePiece {d : Disk} {data : Bytes} {isLast : Bool} {newLength : Nat}
    {written : Option Nat} (hstage : s.stage i = .storing fd newLength)
    (hwrite : s.disk.writePart fd data written = some d) :
    cacheStep filename s (.writePiece i data isLast written) =
      some (s.goto i (if written ≠ some data.length then .aborting (some fd)
        else if isLast then .marking fd (newLength + data.length)
        else .storing fd (newLength + data.length)) d []) := by
  simp only [cacheStep, hstage, hwrite, Option.bind_eq_bind, Option.bind_some]

theorem step_mark {d : Disk} {newLength : Nat} {written : Option Nat}
    (hstage : s.stage i = .marking fd newLength)
    (hwrite : (Disk.calls.seek fd s.disk).writePart fd (leBytes 8 newLength) written = some d) :
    cacheStep filename s (.mark i written) =
      some (s.goto i .out d ((s.disk.inodeOf fd).map (CacheEvent.finished i)).toList) := by
  simp only [cacheStep, hstage, hwrite, Option.bind_eq_bind, Option.bind_some]

theorem createItem_simulates {expireAt : Int} {es : List FileOp} (hstage : s.stage i = .missed) :
    Simulates filename s i (fileCacheCreateItem (Disk.fileSys date vhash) conf r
      ⟨none, some (filename i), 0⟩ (filename i) expireAt s.disk es).env := by
  unfold fileCacheCreateItem
  cases hname : s.disk.names .current (filename i) with
  | some inode =>
    have hcreate : phlFileCacheCreateFile (Disk.fileSys date vhash) conf (filename i) s.disk =
        (none, s.disk) := by
      unfold phlFileCacheCreateFile
      simp only [Disk.fileSys, hname]
    have hstep : cacheStep filename s (.create i false) =
        some (s.goto i (.aborting none) s.disk []) := by
      simp only [cacheStep, hstage, Bool.false_eq_true, if_false, Disk.calls, Disk.fileSys, hname]
    rw [hcreate]
    exact Simulates.cons hstep (abort_simulates rfl goto_stage)
  | none =>
    obtain ⟨fd, d, hmade⟩ : ∃ fd d, s.disk.createFile (filename i) = (fd, d) := ⟨_, _, rfl⟩
    have hcreate : phlFileCacheCreateFile (Disk.fileSys date vhash) conf (filename i) s.disk =
        (some fd, d) := by
      unfold phlFileCacheCreateFile
      simp only [Disk.fileSys, hname, hmade]
    have hstep : cacheStep filename s (.create i false) = some (s.goto i (.created fd) d
        ((d.inodeOf fd).map (CacheEvent.created i)).toList) := by
      simp only [cacheStep, hstage, Bool.false_eq_true, if_false, Disk.calls, Disk.fileSys, hname,
        hmade]
    rw [hcreate]
    apply Simulates.cons hstep
    generalize hitem : (⟨phlContentLengthInit, expireAt, r.resp.statusCode, r.resp.headers.length,
      (r.resp.headers.map phlHeaderDumpLength).sum⟩ : FileCacheItem) = item
    have hnew : newItem r.resp expireAt = item := hitem
    cases hwrite : d.writeFd fd (Buffer.item item r.resp.headers).bytes with
    | none =>
      have hwritten : (Disk.fileSys date vhash).write fd (.item item r.resp.headers) d = (-1, d) := by
        simp only [Disk.fileSys, hwrite]
      simp only [hwritten]
      rw [if_pos (by decide)]
      have hfails : cacheStep filename (s.goto i (.created fd) d
          ((d.inodeOf fd).map (CacheEvent.created i)).toList) (.writeItem i r.resp expireAt none) =
          some (CacheSystem.goto _ i (.aborting (some fd)) d []) := step_writeItem goto_stage rfl
      exact Simulates.cons hfails (abort_simulates rfl goto_stage)
    | some d' =>
      have hwritten : (Disk.fileSys date vhash).write fd (.item item r.resp.headers) d =
          (((Buffer.item item r.resp.headers).bytes.length : Int), d') := by
        simp only [Disk.fileSys, hwrite]
      simp only [hwritten]
      rw [if_neg (by omega)]
      rw [← hnew] at hwrite
      exact Simulates.cons (step_writeItem goto_stage (writePart_whole hwrite))
        (.done ⟨rfl, rfl⟩ goto_stage)

theorem responseHeaders_simulates (hstage : s.stage i = .missed) :
    Simulates filename s i (phlFileCacheFilterResponseHeaders (Disk.fileSys date vhash) conf r
      ⟨some ⟨none, some (filename i), 0⟩, s.disk⟩).env := by
  have habort : Simulates filename s i (phlFileCacheAbort (Disk.fileSys date vhash)
      ⟨none, some (filename i), 0⟩ s.disk) := ctxFree_simulates rfl hstage
  unfold phlFileCacheFilterResponseHeaders
  dsimp only
  split
  next => exact habort
  next =>
    split
    next => exact habort
    next expireAfter _ =>
      generalize (if expireAfter = -1 then (conf.defaultExpire : Int) else expireAfter) = after
      split
      next => exact habort
      next => exact createItem_simulates hstage

theorem responseBody_simulates {data : Bytes} {len newLength : Nat} {isLast : Bool}
    (hstage : s.stage i = .storing fd newLength) :
    Simulates filename s i (phlFileCacheFilterResponseBody (Disk.fileSys date vhash) r data len
      isLast ⟨some ⟨some fd, some (filename i), newLength⟩, s.disk⟩).env := by
  unfold phlFileCacheFilterResponseBody
  dsimp only
  rw [if_neg (by simp)]
  cases hwrite : s.disk.writeFd fd data with
  | none =>
    have hwritten : (Disk.fileSys date vhash).writeTo (some fd) (.piece data isLast) s.disk =
        (-1, s.disk) := by
      simp only [FileSys.writeTo, Disk.fileSys, Buffer.bytes, hwrite]
    have hfailed : (-1 : Int) ≠ data.length := by omega
    have habort : Simulates filename s i (phlFileCacheAbort (Disk.fileSys date vhash)
        ⟨some fd, some (filename i), newLength⟩ s.disk) := by
      have hfails : cacheStep filename s (.writePiece i data isLast none) =
          some (s.goto i (.aborting (some fd)) s.disk []) := step_writePiece hstage rfl
      exact Simulates.cons hfails (abort_simulates rfl goto_stage)
    simp only [hwritten, if_pos hfailed]
    cases isLast with
    | false => exact habort
    | true =>
      -- the descriptor is closed, and nothing more is written
      have hclosed : (Disk.fileSys date vhash).writeTo (some fd)
          (.length (newLength + data.length)) ((Disk.fileSys date vhash).seekTo (some fd)
            (phlFileCacheAbort (Disk.fileSys date vhash)
              ⟨some fd, some (filename i), newLength⟩ s.disk).outside) =
          (-1, (Disk.fileSys date vhash).seekTo (some fd)
            (phlFileCacheAbort (Disk.fileSys date vhash)
              ⟨some fd, some (filename i), newLength⟩ s.disk).outside) := by
        simp [FileSys.writeTo, FileSys.seekTo, Disk.fileSys, phlFileCacheAbort, phlFileCacheCtxFree,
          Disk.writeFd, Disk.setFd, Disk.setName]
      simp only [if_true]
      rw [hclosed]
      exact habort.same ⟨rfl, rfl⟩ rfl
  | some d =>
    have hwritten : (Disk.fileSys date vhash).writeTo (some fd) (.piece data isLast) s.disk =
        ((data.length : Int), d) := by
      simp only [FileSys.writeTo, Disk.fileSys, Buffer.bytes, hwrite]
    simp only [hwritten, ne_eq, not_true_eq_false, if_false]
    have hstep := @step_writePiece ι _ filename s i fd d data isLast newLength _ hstage
      (writePart_whole hwrite)
    rw [if_neg (by simp)] at hstep
    apply Simulates.cons hstep
    cases isLast with
    | false => exact .done ⟨rfl, rfl⟩ goto_stage
    | true =>
      simp only [if_true]
      have hseek : (Disk.fileSys date vhash).seekTo (some fd) d = Disk.calls.seek fd d := rfl
      rw [hseek]
      cases hmark : (Disk.calls.seek fd d).writeFd fd (leBytes 8 (newLength + data.length)) with
      | none =>
        have hmarked : (Disk.fileSys date vhash).writeTo (some fd)
            (.length (newLength + data.length)) (Disk.calls.seek fd d) =
            (-1, Disk.calls.seek fd d) := by
          simp only [FileSys.writeTo, Disk.fileSys, Buffer.bytes, hmark]
        have hstep := @step_mark ι _ filename (s.goto i (.marking fd (newLength + data.length)) d [])
          i fd _ _ none goto_stage rfl
        rw [hmarked]
        exact Simulates.cons hstep (.done ⟨rfl, rfl⟩ goto_stage)
      | some d' =>
        have hmarked : (Disk.fileSys date vhash).writeTo (some fd)
            (.length (newLength + data.length)) (Disk.calls.seek fd d) = ((8 : Int), d') := by
          simp only [FileSys.writeTo, Disk.fileSys, Buffer.bytes, hmark, length_leBytes]
          rfl
        have hstep := @step_mark ι _ filename (s.goto i (.marking fd (newLength + data.length)) d [])
          i fd _ _ _ goto_stage (writePart_whole hmark)
        rw [hmarked]
        exact Simulates.cons hstep (.done ⟨rfl, rfl⟩ goto_stage)

end Handlers

end Phorklift
