import Phorklift.CacheRoundTrip
import Phorklift.Transition

/-! Requests that share a cache directory, and the item files they unlink. Between two system calls
of a request any other may run. -/

namespace Phorklift

open Transition

/-- Where a request is in the handlers of the module. -/
inductive CacheStage
  | idle
  | openLast
  /-- an item of the last directory is open; the rename may be tried again -/
  | moving (fd : Nat) (again : Bool)
  | reading (fd : Nat)
  /-- the item that was read has expired -/
  | expired (fd : Nat)
  /-- `new_filename` is set, and `fd` is -1 -/
  | missed
  | created (fd : Nat)
  | storing (fd newLength : Nat)
  /-- the last piece is written -/
  | marking (fd newLength : Nat)
  /-- before `phl_file_cache_ctx_free`, with `new_filename` set -/
  | aborting (fd : Option Nat)
  /-- there is no ctx, or no `new_filename` any more -/
  | out
  deriving DecidableEq

inductive CacheEvent (ι : Type)
  | created (i : ι) (inode : Nat)
  | finished (i : ι) (inode : Nat)
  | expired (i : ι) (inode : Nat)
  /-- an `unlinkat` of the request took the name of a file away -/
  | removed (i : ι) (inode : Nat)
  deriving DecidableEq

def CacheEvent.inode {ι : Type} : CacheEvent ι → Nat
  | .created _ inode | .finished _ inode | .expired _ inode | .removed _ inode => inode

structure CacheSystem (ι : Type) where
  disk : Disk
  stage : ι → CacheStage
  log : List (CacheEvent ι)

/-- `fails` stands for a call that fails for a reason of its own; `written` is what `write` returns,
`none` for -1. -/
inductive CacheAct (ι : Type)
  | openCurrent (i : ι) (fails : Bool)
  | openLast (i : ι) (fails : Bool)
  | rename (i : ι) (fails : Bool)
  | readItem (i : ι) (fails : Bool)
  | unlinkExpired (i : ι)
  /-- the response is not to be stored, or the request is closed -/
  | giveUp (i : ι)
  | create (i : ι) (fails : Bool)
  | writeItem (i : ι) (resp : Resp) (expireAt : Int) (written : Option Nat)
  | writePiece (i : ι) (data : Bytes) (isLast : Bool) (written : Option Nat)
  | mark (i : ι) (written : Option Nat)
  | abort (i : ι)
  | tick (now : Int)
  /-- `phl_file_cache_new_dir` -/
  | renew

/-- The system calls; no date is parsed and nothing is hashed here. -/
def Disk.calls : FileSys Disk := Disk.fileSys (fun _ => 0) fun _ => (0, 0)

def Disk.inodeOf (d : Disk) (fd : Nat) : Option Nat := (d.fds fd).map (·.inode)

/-- A `write` that takes some of the bytes. -/
def Disk.writePart (d : Disk) (fd : Nat) (data : Bytes) : Option Nat → Option Disk
  | none => some d
  | some n => if n ≤ data.length then d.writeFd fd (data.take n) else none

section Steps

variable {ι : Type} [DecidableEq ι] (filename : ι → Bytes)

/-- The request goes on to a stage. -/
def CacheSystem.goto (s : CacheSystem ι) (i : ι) (stage : CacheStage) (d : Disk)
    (es : List (CacheEvent ι)) : CacheSystem ι :=
  ⟨d, Function.update s.stage i stage, s.log ++ es⟩

/-- The file that an `unlinkat` of the request takes away. -/
def CacheSystem.unlinked (s : CacheSystem ι) (i : ι) : List (CacheEvent ι) :=
  ((s.disk.names .current (filename i)).map (CacheEvent.removed i)).toList

def readItemStep (s : CacheSystem ι) (i : ι) (fd : Nat) : CacheSystem ι :=
  let read := Disk.calls.readItem fd s.disk
  let item := read.1.2
  if read.1.1 < 0 then s.goto i .out read.2 []
  else if read.1.1 < fileCacheItemSize ∨ item.contentLength = phlContentLengthInit then
    s.goto i .out (Disk.calls.close fd read.2) []
  else if item.expireAt < Disk.calls.now read.2 then
    s.goto i (.expired fd) read.2 ((s.disk.inodeOf fd).map (CacheEvent.expired i)).toList
  else s.goto i .out read.2 []

def cacheStep (s : CacheSystem ι) : CacheAct ι → Option (CacheSystem ι)
  | .openCurrent i fails =>
    match s.stage i with
    | .idle =>
      let current := if fails then (.error .other, s.disk)
        else Disk.calls.openRead .current (filename i) s.disk
      match current.1 with
      | .ok fd => some (s.goto i (.reading fd) current.2 [])
      | .error _ =>
        some (s.goto i (if Disk.calls.hasLastDir s.disk then .openLast else .missed) current.2 [])
    | _ => none
  | .openLast i fails =>
    match s.stage i with
    | .openLast =>
      let last := if fails then (.error .other, s.disk)
        else Disk.calls.openRead .last (filename i) s.disk
      match last.1 with
      | .ok fd => some (s.goto i (.moving fd false) last.2 [])
      | .error _ => some (s.goto i .missed last.2 [])
    | _ => none
  | .rename i fails =>
    match s.stage i with
    | .moving fd again =>
      let renamed := if fails then (some .other, s.disk)
        else Disk.calls.renameat (filename i) s.disk
      if renamed.1 = some .noent ∧ again = false then some (s.goto i (.moving fd true) renamed.2 [])
      else some (s.goto i (.reading fd) renamed.2 [])
    | _ => none
  | .readItem i fails =>
    match s.stage i with
    | .reading fd =>
      some (if fails then s.goto i .out s.disk [] else readItemStep s i fd)
    | _ => none
  | .unlinkExpired i =>
    match s.stage i with
    | .expired fd =>
      some (s.goto i .missed (Disk.calls.unlinkat (filename i) (Disk.calls.close fd s.disk))
        (s.unlinked filename i))
    | _ => none
  | .giveUp i =>
    match s.stage i with
    | .missed => some (s.goto i (.aborting none) s.disk [])
    | .storing fd _ => some (s.goto i (.aborting (some fd)) s.disk [])
    | _ => none
  | .create i fails =>
    match s.stage i with
    | .missed =>
      let made := if fails then (.error .other, s.disk)
        else Disk.calls.openCreate (filename i) s.disk
      match made.1 with
      | .ok fd => some (s.goto i (.created fd) made.2
          ((made.2.inodeOf fd).map (CacheEvent.created i)).toList)
      | .error _ => some (s.goto i (.aborting none) made.2 [])
    | _ => none
  | .writeItem i resp expireAt written =>
    match s.stage i with
    | .created fd => do
      let d ← s.disk.writePart fd (Buffer.item (newItem resp expireAt) resp.headers).bytes written
      some (s.goto i (if written = none then .aborting (some fd) else .storing fd 0) d [])
    | _ => none
  | .writePiece i data isLast written =>
    match s.stage i with
    | .storing fd newLength => do
      let d ← s.disk.writePart fd data written
      let newLength := newLength + data.length
      some (s.goto i (if written ≠ some data.length then .aborting (some fd)
        else if isLast then .marking fd newLength else .storing fd newLength) d [])
    | _ => none
  | .mark i written =>
    match s.stage i with
    | .marking fd newLength => do
      let d ← (Disk.calls.seek fd s.disk).writePart fd (leBytes 8 newLength) written
      some (s.goto i .out d ((s.disk.inodeOf fd).map (CacheEvent.finished i)).toList)
    | _ => none
  | .abort i =>
    match s.stage i with
    | .aborting fd =>
      some (s.goto i .out (phlFileCacheCtxFree Disk.calls ⟨fd, some (filename i), 0⟩ s.disk)
        (s.unlinked filename i))
    | _ => none
  | .tick now =>
    if s.disk.clock ≤ now then some { s with disk := { s.disk with clock := now } } else none
  | .renew =>
    some { s with
      disk := { s.disk with
        hasLastDir := true
        names := fun
          | .current => fun _ => none
          | .last => s.disk.names .current } }

end Steps

theorem setName_names (d : Disk) (dir dir' : CacheDir) (name name' : Bytes) (inode : Option Nat) :
    (d.setName dir name inode).names dir' name' =
      if dir' = dir ∧ name' = name then inode else d.names dir' name' := by
  unfold Disk.setName
  by_cases hdir : dir' = dir
  · rw [hdir]
    by_cases hname : name' = name
    · simp [hname]
    · simp [hname]
  · simp [hdir]

/-- The descriptor that a request has open. -/
def CacheStage.fd : CacheStage → Option Nat
  | .moving fd _ | .reading fd | .expired fd => some fd
  | .created fd | .storing fd _ | .marking fd _ => some fd
  | .aborting fd => fd
  | _ => none

/-- The descriptor of an item that the request created and has not finished. -/
def CacheStage.held : CacheStage → Option Nat
  | .created fd | .storing fd _ => some fd
  | .aborting fd => fd
  | _ => none

/-- The descriptor of an item that is still to be read. -/
def CacheStage.unread : CacheStage → Option Nat
  | .moving fd _ | .reading fd => some fd
  | _ => none

section Ownership

variable {ι : Type} (filename : ι → Bytes)

/-- What may be unlinked: what the request created and no one finished, and what it found
expired. -/
def ownedAfter (pre : List (CacheEvent ι)) : CacheEvent ι → Prop
  | .removed i inode =>
    .created i inode ∈ pre ∧ (∀ j, .finished j inode ∉ pre) ∨ .expired i inode ∈ pre
  | _ => True

/-- The branches in which a request meets a file of another one are not taken. -/
def Solitary (s : CacheSystem ι) : CacheAct ι → Prop
  | .rename i _ =>
    s.disk.names .current (filename i) = none ∨ s.disk.names .last (filename i) = none
  | .unlinkExpired i => ∀ fd, s.stage i = .expired fd →
    s.disk.names .current (filename i) = none ∨
      s.disk.names .current (filename i) = s.disk.inodeOf fd
  | .writeItem _ resp expireAt written => written = none ∨
    written = some (Buffer.item (newItem resp expireAt) resp.headers).bytes.length
  | .abort i => s.stage i = .aborting none → s.disk.names .current (filename i) = none
  | .renew => ∀ i, (s.stage i).held = none
  | _ => True

structure CacheStart (s : CacheSystem ι) : Prop where
  idle : ∀ i, s.stage i = .idle
  log : s.log = []
  bound : ∀ dir name inode, s.disk.names dir name = some inode → inode < s.disk.nextInode

/-- The first bytes of an item that is not finished. -/
def Started (file : Bytes) : Prop := leBytes 8 phlContentLengthInit <+: file

/-- The item of a request that may still abort: it has its name, and no other request meets it. -/
structure Held (d : Disk) (log : List (CacheEvent ι)) (i : ι) (stage : CacheStage)
    (fd inode : Nat) : Prop where
  file : d.fds fd = some ⟨inode, (d.inodes inode).length⟩
  name : d.names .current (filename i) = some inode
  created : .created i inode ∈ log
  unfinished : ∀ j, .finished j inode ∉ log
  unexpired : ∀ j, .expired j inode ∉ log
  unmarked : d.inodes inode = [] ∨ Started (d.inodes inode)
  started : (∃ newLength, stage = .storing fd newLength) → Started (d.inodes inode)
  empty : stage = .created fd → d.inodes inode = []

structure ReqInv (d : Disk) (log : List (CacheEvent ι)) (i : ι) (stage : CacheStage) : Prop where
  opened : ∀ fd, stage.fd = some fd →
    fd < d.nextFd ∧ ∃ file, d.fds fd = some file ∧ file.inode < d.nextInode
  held : ∀ fd, stage.held = some fd → ∃ inode, Held filename d log i stage fd inode
  expired : ∀ fd, stage = .expired fd →
    ∃ inode, d.inodeOf fd = some inode ∧ .expired i inode ∈ log
  unread : ∀ fd, stage.unread = some fd → ∃ inode, d.fds fd = some ⟨inode, 0⟩
  marking : ∀ fd newLength, stage = .marking fd newLength →
    ∃ inode, d.inodeOf fd = some inode ∧ .created i inode ∈ log

structure UnlinkInv (s : CacheSystem ι) : Prop where
  bound : ∀ dir name inode, s.disk.names dir name = some inode → inode < s.disk.nextInode
  logged : ∀ e ∈ s.log, e.inode < s.disk.nextInode
  unique : ∀ i j inode, .created i inode ∈ s.log → .created j inode ∈ s.log → i = j
  apart : ∀ i j fd, (s.stage i).fd = some fd → (s.stage j).fd = some fd → i = j
  request : ∀ i, ReqInv filename s.disk s.log i (s.stage i)
  owned : Each ownedAfter s.log

/-- What a step of one request leaves to the others. -/
structure Spares (s : CacheSystem ι) (i : ι) (d : Disk) (es : List (CacheEvent ι)) : Prop where
  bound : ∀ dir name inode, d.names dir name = some inode → inode < d.nextInode
  nextInode : s.disk.nextInode ≤ d.nextInode
  nextFd : s.disk.nextFd ≤ d.nextFd
  fds : ∀ fd, fd < s.disk.nextFd → (s.stage i).fd ≠ some fd → d.fds fd = s.disk.fds fd
  held : ∀ j fd inode, j ≠ i → (s.stage j).held = some fd →
    Held filename s.disk s.log j (s.stage j) fd inode →
      d.names .current (filename j) = some inode ∧ d.inodes inode = s.disk.inodes inode ∧
        ∀ k, .finished k inode ∉ es ∧ .expired k inode ∉ es
  logged : ∀ e ∈ es, e.inode < d.nextInode
  created : ∀ j inode, .created j inode ∈ es → j = i ∧ inode = s.disk.nextInode

variable {filename} {s : CacheSystem ι} {d d' : Disk} {log es : List (CacheEvent ι)} {i j : ι}
  {stage : CacheStage} {fd inode : Nat}

theorem held_fd (h : stage.held = some fd) : stage.fd = some fd := by
  cases stage with
  | created | storing | aborting => exact h
  | _ => cases h

theorem unread_fd (h : stage.unread = some fd) : stage.fd = some fd := by
  cases stage with
  | moving | reading => exact h
  | _ => cases h

theorem ReqInv.keep (h : ReqInv filename d log j stage) (hinode : d.nextInode ≤ d'.nextInode)
    (hfd : d.nextFd ≤ d'.nextFd) (hfds : ∀ fd, stage.fd = some fd → d'.fds fd = d.fds fd)
    (hheld : ∀ fd inode, stage.held = some fd → Held filename d log j stage fd inode →
      d'.names .current (filename j) = some inode ∧ d'.inodes inode = d.inodes inode ∧
        ∀ k, .finished k inode ∉ es ∧ .expired k inode ∉ es) :
    ReqInv filename d' (log ++ es) j stage where
  opened := by
    intro fd hst
    obtain ⟨hlt, file, hfile, hin⟩ := h.opened fd hst
    exact ⟨by omega, file, (hfds fd hst).trans hfile, by omega⟩
  held := by
    intro fd hst
    obtain ⟨inode, hh⟩ := h.held fd hst
    obtain ⟨hname, hsame, hes⟩ := hheld fd inode hst hh
    refine ⟨inode, ?_, hname, List.mem_append_left es hh.created, ?_, ?_, ?_, ?_, ?_⟩
    · rw [hfds fd (held_fd hst), hsame]
      exact hh.file
    · intro k hk
      exact (List.mem_append.mp hk).elim (hh.unfinished k) (hes k).1
    · intro k hk
      exact (List.mem_append.mp hk).elim (hh.unexpired k) (hes k).2
    · rw [hsame]
      exact hh.unmarked
    · rw [hsame]
      exact hh.started
    · rw [hsame]
      exact hh.empty
  expired := by
    intro fd hst
    obtain ⟨inode, hin, hmem⟩ := h.expired fd hst
    refine ⟨inode, ?_, List.mem_append_left es hmem⟩
    have hstage : stage.fd = some fd := by rw [hst]; rfl
    rw [Disk.inodeOf, hfds fd hstage]
    exact hin
  unread := by
    intro fd hst
    rw [hfds fd (unread_fd hst)]
    exact h.unread fd hst
  marking := by
    intro fd newLength hst
    obtain ⟨inode, hin, hmem⟩ := h.marking fd newLength hst
    refine ⟨inode, ?_, List.mem_append_left es hmem⟩
    have hstage : stage.fd = some fd := by rw [hst]; rfl
    rw [Disk.inodeOf, hfds fd hstage]
    exact hin

theorem mem_unlinked {e : CacheEvent ι} (h : e ∈ s.unlinked filename i) :
    ∃ inode, s.disk.names .current (filename i) = some inode ∧ e = .removed i inode := by
  unfold CacheSystem.unlinked at h
  rw [Option.mem_toList] at h
  obtain ⟨inode, hname, heq⟩ := Option.map_eq_some_iff.mp h
  exact ⟨inode, hname, heq.symm⟩

theorem owned_unlinked (h : ∀ inode, s.disk.names .current (filename i) = some inode →
      ownedAfter s.log (.removed i inode)) :
    Each (fun pre => ownedAfter (s.log ++ pre)) (s.unlinked filename i) := by
  unfold CacheSystem.unlinked
  cases hname : s.disk.names .current (filename i) with
  | none => exact each_nil
  | some inode =>
    rw [Option.map_some, Option.toList_some, each_singleton, List.append_nil]
    exact h inode hname

theorem ReqInv.closed (hfd : stage.fd = none) : ReqInv filename d log i stage where
  opened := by
    intro fd hst
    rw [hfd] at hst
    cases hst
  held := by
    intro fd hst
    have hopen := held_fd hst
    rw [hfd] at hopen
    cases hopen
  expired := by
    intro fd hst
    rw [hst] at hfd
    cases hfd
  unread := by
    intro fd hst
    have hopen := unread_fd hst
    rw [hfd] at hopen
    cases hopen
  marking := by
    intro fd newLength hst
    rw [hst] at hfd
    cases hfd

theorem ReqInv.fresh (hstage : stage.unread = some fd) (hfd : fd < d.nextFd)
    (hfile : d.fds fd = some ⟨inode, 0⟩) (hinode : inode < d.nextInode) :
    ReqInv filename d log i stage := by
  have hopen := unread_fd hstage
  constructor
  · intro fd' hst
    rw [hopen] at hst
    cases hst
    exact ⟨hfd, _, hfile, hinode⟩
  · intro fd' hst
    cases stage with
    | moving | reading => cases hst
    | _ => cases hstage
  · intro fd' hst
    rw [hst] at hstage
    cases hstage
  · intro fd' hst
    rw [hstage] at hst
    cases hst
    exact ⟨inode, hfile⟩
  · intro fd' newLength hst
    rw [hst] at hstage
    cases hstage

theorem ReqInv.hold (hstage : stage.held = some fd) (hfd : fd < d.nextFd)
    (hinode : inode < d.nextInode) (hh : Held filename d log i stage fd inode) :
    ReqInv filename d log i stage := by
  have hopen := held_fd hstage
  constructor
  · intro fd' hst
    rw [hopen] at hst
    cases hst
    exact ⟨hfd, _, hh.file, hinode⟩
  · intro fd' hst
    rw [hstage] at hst
    cases hst
    exact ⟨inode, hh⟩
  · intro fd' hst
    rw [hst] at hstage
    cases hstage
  · intro fd' hst
    cases stage with
    | moving | reading => cases hstage
    | _ => cases hst
  · intro fd' newLength hst
    rw [hst] at hstage
    cases hstage

/-- A step that leaves all files and names as they are. -/
theorem UnlinkInv.spares (h : UnlinkInv filename s) (hnames : d.names = s.disk.names)
    (hinodes : d.inodes = s.disk.inodes) (hinode : d.nextInode = s.disk.nextInode)
    (hfd : s.disk.nextFd ≤ d.nextFd)
    (hfds : ∀ fd, fd < s.disk.nextFd → (s.stage i).fd ≠ some fd → d.fds fd = s.disk.fds fd) :
    Spares filename s i d [] where
  bound := by
    rw [hnames, hinode]
    exact h.bound
  nextInode := hinode.ge
  nextFd := hfd
  fds := hfds
  held := by
    intro j fd inode _ _ hh
    rw [hnames, hinodes]
    exact ⟨hh.name, rfl, by simp⟩
  logged := by simp
  created := by simp

/-- An `unlinkat` of a name that no other request holds. -/
theorem Spares.unlink (hd : Spares filename s i d []) (hnames : d.names = s.disk.names)
    (hinodes : d.inodes = s.disk.inodes)
    (hother : ∀ j fd inode, j ≠ i → Held filename s.disk s.log j (s.stage j) fd inode →
      s.disk.names .current (filename i) ≠ some inode) :
    Spares filename s i (d.setName .current (filename i) none) (s.unlinked filename i) where
  bound := by
    intro dir name inode hnew
    rw [setName_names] at hnew
    split at hnew
    next => cases hnew
    next => exact hd.bound dir name inode hnew
  nextInode := hd.nextInode
  nextFd := hd.nextFd
  fds := hd.fds
  held := by
    intro j fd inode hj _ hh
    refine ⟨?_, congrFun hinodes inode, fun k => ⟨?_, ?_⟩⟩
    · have hne : filename j ≠ filename i := by
        intro heq
        have hname := hh.name
        rw [heq] at hname
        exact hother j fd inode hj hh hname
      rw [setName_names, if_neg (by simp [hne]), hnames]
      exact hh.name
    · intro hk
      obtain ⟨_, _, heq⟩ := mem_unlinked hk
      cases heq
    · intro hk
      obtain ⟨_, _, heq⟩ := mem_unlinked hk
      cases heq
  logged := by
    intro e hmem
    obtain ⟨inode, hname, heq⟩ := mem_unlinked hmem
    rw [heq]
    rw [← hnames] at hname
    exact hd.bound _ _ _ hname
  created := by
    intro j inode hmem
    obtain ⟨_, _, heq⟩ := mem_unlinked hmem
    cases heq

/-- What a write on the file of an inode leaves to the others, if only the request has created it. -/
theorem UnlinkInv.write_spares (h : UnlinkInv filename s) (hopen : (s.stage i).fd = some fd)
    (hcreated : .created i inode ∈ s.log) (hnames : d.names = s.disk.names)
    (hnext : d.nextInode = s.disk.nextInode) (hnextFd : d.nextFd = s.disk.nextFd)
    (hfds : ∀ fd', fd' ≠ fd → d.fds fd' = s.disk.fds fd')
    (hinodes : ∀ inode', inode' ≠ inode → d.inodes inode' = s.disk.inodes inode')
    (hes : ∀ e ∈ es, e = .finished i inode) : Spares filename s i d es where
  bound := by
    rw [hnames, hnext]
    exact h.bound
  nextInode := hnext.ge
  nextFd := hnextFd.ge
  fds := by
    intro fd' _ hne
    apply hfds
    intro heq
    rw [heq] at hne
    exact hne hopen
  held := by
    intro j fd' inode' hj _ hh
    have hne : inode' ≠ inode := by
      intro heq
      rw [← heq] at hcreated
      exact hj (h.unique j i inode' hh.created hcreated)
    rw [hnames]
    refine ⟨hh.name, hinodes inode' hne, fun k => ⟨?_, ?_⟩⟩
    · intro hmem
      have heq := hes _ hmem
      cases heq
      exact hne rfl
    · intro hmem
      have heq := hes _ hmem
      cases heq
  logged := by
    intro e hmem
    have hlt : inode < s.disk.nextInode := h.logged _ hcreated
    rw [hes e hmem, hnext]
    exact hlt
  created := by
    intro j inode' hmem
    have heq := hes _ hmem
    cases heq

theorem UnlinkInv.same (h : UnlinkInv filename s) : Spares filename s i s.disk [] :=
  h.spares rfl rfl rfl le_rfl fun _ _ _ => rfl

theorem close_spares (h : UnlinkInv filename s) (hopen : (s.stage i).fd = some fd) :
    Spares filename s i (s.disk.setFd fd none) [] := by
  refine h.spares rfl rfl rfl le_rfl fun fd' _ hne => ?_
  have hne' : fd' ≠ fd := by
    intro heq
    rw [heq] at hne
    exact hne hopen
  simp [Disk.setFd, hne']

theorem start_keeps (h : CacheStart s) : UnlinkInv filename s where
  bound := h.bound
  logged := by
    intro e hmem
    rw [h.log] at hmem
    cases hmem
  unique := by
    intro i j inode hmem
    rw [h.log] at hmem
    cases hmem
  apart := by
    intro i j fd hst
    rw [h.idle i] at hst
    cases hst
  request := by
    intro i
    rw [h.idle i]
    exact .closed rfl
  owned := by
    rw [h.log]
    exact each_nil

variable [DecidableEq ι]

theorem UnlinkInv.goto (h : UnlinkInv filename s) (hd : Spares filename s i d es)
    (hfd : ∀ fd, stage.fd = some fd → (s.stage i).fd = some fd ∨ fd = s.disk.nextFd)
    (hself : ReqInv filename d (s.log ++ es) i stage)
    (howned : Each (fun pre => ownedAfter (s.log ++ pre)) es) :
    UnlinkInv filename (s.goto i stage d es) where
  bound := hd.bound
  logged := by
    intro e hmem
    rcases List.mem_append.mp hmem with hmem | hmem
    · exact (h.logged e hmem).trans_le hd.nextInode
    · exact hd.logged e hmem
  unique := by
    intro j k inode hj hk
    rcases List.mem_append.mp hj with hj | hj <;> rcases List.mem_append.mp hk with hk | hk
    · exact h.unique j k inode hj hk
    · have hlt := h.logged _ hj
      rw [(hd.created k inode hk).2] at hlt
      exact absurd hlt (lt_irrefl _)
    · have hlt := h.logged _ hk
      rw [(hd.created j inode hj).2] at hlt
      exact absurd hlt (lt_irrefl _)
    · rw [(hd.created j inode hj).1, (hd.created k inode hk).1]
  apart := by
    -- a descriptor of `i` is one that it had, or the next one, which no request has
    have hother : ∀ j fd, j ≠ i → stage.fd = some fd → (s.stage j).fd ≠ some fd := by
      intro j fd hj hst hst'
      rcases hfd fd hst with hold | hnew
      · exact hj (h.apart j i fd hst' hold)
      · have hlt := ((h.request j).opened fd hst').1
        omega
    intro j k fd hj hk
    simp only [CacheSystem.goto] at hj hk
    by_cases hji : j = i
    · by_cases hki : k = i
      · rw [hji, hki]
      · rw [hji, Function.update_self] at hj
        rw [Function.update_of_ne hki] at hk
        exact absurd hk (hother k fd hki hj)
    · rw [Function.update_of_ne hji] at hj
      by_cases hki : k = i
      · rw [hki, Function.update_self] at hk
        exact absurd hj (hother j fd hji hk)
      · rw [Function.update_of_ne hki] at hk
        exact h.apart j k fd hj hk
  request := by
    intro j
    simp only [CacheSystem.goto]
    by_cases hji : j = i
    · rw [hji, Function.update_self]
      exact hself
    · rw [Function.update_of_ne hji]
      apply (h.request j).keep hd.nextInode hd.nextFd
      · intro fd hst
        apply hd.fds fd ((h.request j).opened fd hst).1
        exact fun hst' => hji (h.apart j i fd hst hst')
      · intro fd inode hst hh
        exact hd.held j fd inode hji hst hh
  owned := each_append.mpr ⟨h.owned, howned⟩

/-- A step to a stage in which nothing is open, with the files and names as they are. -/
theorem UnlinkInv.leave (h : UnlinkInv filename s) (hd : Spares filename s i d [])
    (hstage : stage.fd = none) : UnlinkInv filename (s.goto i stage d []) := by
  apply h.goto hd
  · intro fd hst
    rw [hstage] at hst
    cases hst
  · exact .closed hstage
  · exact each_nil

theorem UnlinkInv.opens {dir : CacheDir} {name : Bytes} (h : UnlinkInv filename s)
    (hname : s.disk.names dir name = some inode) (hstage : stage.unread = some s.disk.nextFd) :
    UnlinkInv filename (s.goto i stage (s.disk.openInode inode).2 []) := by
  have hspare : Spares filename s i (s.disk.openInode inode).2 [] := by
    refine h.spares rfl rfl rfl (Nat.le_succ _) ?_
    intro fd hlt _
    have hne : fd ≠ s.disk.nextFd := by omega
    simp [Disk.openInode, Disk.setFd, hne]
  apply h.goto hspare
  · intro fd hst
    rw [unread_fd hstage] at hst
    exact .inr (Option.some.inj hst).symm
  · have hfile : (s.disk.openInode inode).2.fds s.disk.nextFd = some ⟨inode, 0⟩ := by
      simp [Disk.openInode, Disk.setFd]
    exact .fresh hstage (Nat.lt_succ_self _) hfile (h.bound dir name inode hname)
  · exact each_nil

theorem openCurrent_keeps {fails : Bool} {s' : CacheSystem ι} (h : UnlinkInv filename s)
    (hstep : cacheStep filename s (.openCurrent i fails) = some s') : UnlinkInv filename s' := by
  simp only [cacheStep] at hstep
  split at hstep
  next =>
    have hmiss : (if Disk.calls.hasLastDir s.disk = true then CacheStage.openLast
        else .missed).fd = none := by
      split <;> rfl
    cases fails with
    | true =>
      cases hstep
      exact h.leave h.same hmiss
    | false =>
      cases hname : s.disk.names .current (filename i) with
      | none =>
        simp only [Disk.calls, Disk.fileSys, hname, Bool.false_eq_true, if_false] at hstep
        cases hstep
        exact h.leave h.same hmiss
      | some inode =>
        simp only [Disk.calls, Disk.fileSys, hname, Bool.false_eq_true, if_false] at hstep
        cases hstep
        exact h.opens hname rfl
  next => cases hstep

theorem openLast_keeps {fails : Bool} {s' : CacheSystem ι} (h : UnlinkInv filename s)
    (hstep : cacheStep filename s (.openLast i fails) = some s') : UnlinkInv filename s' := by
  simp only [cacheStep] at hstep
  split at hstep
  next =>
    cases fails with
    | true =>
      cases hstep
      exact h.leave h.same rfl
    | false =>
      cases hname : s.disk.names .last (filename i) with
      | none =>
        simp only [Disk.calls, Disk.fileSys, hname, Bool.false_eq_true, if_false] at hstep
        cases hstep
        exact h.leave h.same rfl
      | some inode =>
        simp only [Disk.calls, Disk.fileSys, hname, Bool.false_eq_true, if_false] at hstep
        cases hstep
        exact h.opens hname rfl
  next => cases hstep

/-- A step to a stage in which the item that is open is still to be read. -/
theorem UnlinkInv.stay (h : UnlinkInv filename s) (hd : Spares filename s i d [])
    (hstage : stage.unread = some fd) (hold : (s.stage i).unread = some fd)
    (hfd : d.fds fd = s.disk.fds fd) : UnlinkInv filename (s.goto i stage d []) := by
  obtain ⟨inode, hfile⟩ := (h.request i).unread fd hold
  obtain ⟨hlt, file, hfile', hin⟩ := (h.request i).opened fd (unread_fd hold)
  rw [hfile] at hfile'
  cases hfile'
  apply h.goto hd
  · intro fd' hst
    rw [unread_fd hstage] at hst
    cases hst
    exact .inl (unread_fd hold)
  · exact .fresh hstage (hlt.trans_le hd.nextFd) (hfd.trans hfile) (hin.trans_le hd.nextInode)
  · exact each_nil

theorem rename_keeps {fails : Bool} {s' : CacheSystem ι} (h : UnlinkInv filename s)
    (hok : Solitary filename s (.rename i fails))
    (hstep : cacheStep filename s (.rename i fails) = some s') : UnlinkInv filename s' := by
  simp only [cacheStep] at hstep
  split at hstep
  next fd again hstage =>
    have hfd : (s.stage i).unread = some fd := by rw [hstage]; rfl
    cases fails with
    | true =>
      cases hstep
      exact h.stay h.same rfl hfd rfl
    | false =>
      cases hname : s.disk.names .last (filename i) with
      | none =>
        simp only [Disk.calls, Disk.fileSys, hname, Bool.false_eq_true, if_false] at hstep
        split at hstep <;> cases hstep <;> exact h.stay h.same rfl hfd rfl
      | some inode =>
        simp only [Disk.calls, Disk.fileSys, hname, Bool.false_eq_true, if_false, reduceCtorEq,
          false_and] at hstep
        cases hstep
        -- no file of that name is there to be replaced
        have hfree : s.disk.names .current (filename i) = none := by
          rcases hok with hok | hok
          · exact hok
          · rw [hname] at hok
            cases hok
        refine h.stay ⟨?_, le_rfl, le_rfl, fun _ _ _ => rfl, ?_, by simp, by simp⟩ rfl hfd rfl
        · intro dir name inode' hnew
          rw [setName_names, setName_names] at hnew
          split at hnew
          next =>
            cases hnew
            exact h.bound _ _ _ hname
          next =>
            split at hnew
            next => cases hnew
            next => exact h.bound _ _ _ hnew
        · intro j fd' inode' _ _ hh
          refine ⟨?_, rfl, by simp⟩
          have hne : filename j ≠ filename i := by
            intro heq
            have hbound := hh.name
            rw [heq, hfree] at hbound
            cases hbound
          rw [setName_names, setName_names, if_neg (by simp [hne]), if_neg (by simp)]
          exact hh.name
  next => cases hstep

theorem started_not_finished {file : Bytes} (h : file = [] ∨ Started file) :
    (file.take fileCacheItemSize).length < fileCacheItemSize ∨
      (itemOfBytes (file.take fileCacheItemSize)).contentLength = phlContentLengthInit := by
  rcases h with h | ⟨tail, h⟩
  · left
    rw [h]
    decide
  · right
    have htake : (file.take fileCacheItemSize).take 8 = leBytes 8 phlContentLengthInit := by
      rw [List.take_take, ← h]
      exact List.take_left' (length_leBytes _ _)
    rw [itemOfBytes, htake]
    exact leNat_leBytes (by decide)

theorem readItemStep_keeps (h : UnlinkInv filename s) (hunread : (s.stage i).unread = some fd)
    (hspare : ∀ file, Spares filename s i (s.disk.setFd fd file) []) :
    UnlinkInv filename (readItemStep s i fd) := by
  obtain ⟨inode, hfile⟩ := (h.request i).unread fd hunread
  obtain ⟨hlt, file, hfile', hin⟩ := (h.request i).opened fd (unread_fd hunread)
  rw [hfile] at hfile'
  cases hfile'
  have hread : Disk.calls.readItem fd s.disk =
      (((((s.disk.inodes inode).take fileCacheItemSize).length : Int),
        itemOfBytes ((s.disk.inodes inode).take fileCacheItemSize)),
        s.disk.setFd fd (some ⟨inode, 0 + ((s.disk.inodes inode).take fileCacheItemSize).length⟩)) := by
    simp only [Disk.calls, Disk.fileSys, Disk.readFd, hfile, Option.bind_eq_bind, Option.bind_some,
      List.drop_zero]
  unfold readItemStep
  rw [hread]
  dsimp only
  split
  next => exact h.leave (hspare _) rfl
  next =>
    split
    next =>
      have hclose : Disk.calls.close fd (s.disk.setFd fd (some ⟨inode,
          0 + ((s.disk.inodes inode).take fileCacheItemSize).length⟩)) = s.disk.setFd fd none := by
        simp [Disk.calls, Disk.fileSys, Disk.setFd]
      rw [hclose]
      exact h.leave (hspare none) rfl
    next hfinished =>
      split
      next =>
        have hevent : ((s.disk.inodeOf fd).map (CacheEvent.expired i)).toList =
            [CacheEvent.expired i inode] := by
          rw [Disk.inodeOf, hfile]
          rfl
        rw [hevent]
        refine h.goto ⟨h.bound, le_rfl, le_rfl, (hspare _).fds, ?_, ?_, by simp⟩ ?_ ?_
          (each_singleton.mpr trivial)
        · intro j fd' inode' hj hst hh
          refine ⟨hh.name, rfl, fun k => ⟨by simp, ?_⟩⟩
          -- an item that is being stored does not look finished
          intro hk
          rw [List.mem_singleton] at hk
          cases hk
          apply hfinished
          exact_mod_cast started_not_finished hh.unmarked
        · intro e hmem
          rw [List.mem_singleton.mp hmem]
          exact hin
        · intro fd' hst
          cases hst
          exact .inl (unread_fd hunread)
        · constructor
          · intro fd' hst
            cases hst
            exact ⟨hlt, _, Function.update_self _ _ _, hin⟩
          · intro fd' hst
            cases hst
          · intro fd' hst
            cases hst
            exact ⟨inode, by simp [Disk.inodeOf, Disk.setFd], by simp⟩
          · intro fd' hst
            cases hst
          · intro fd' newLength hst
            cases hst
      next => exact h.leave (hspare _) rfl

theorem readItem_keeps {fails : Bool} {s' : CacheSystem ι} (h : UnlinkInv filename s)
    (hstep : cacheStep filename s (.readItem i fails) = some s') : UnlinkInv filename s' := by
  simp only [cacheStep] at hstep
  split at hstep
  next fd hstage =>
    have hunread : (s.stage i).unread = some fd := by rw [hstage]; rfl
    have hspare : ∀ file, Spares filename s i (s.disk.setFd fd file) [] := by
      intro file
      refine h.spares rfl rfl rfl le_rfl fun fd' _ hne => ?_
      have hne' : fd' ≠ fd := by
        intro heq
        rw [heq] at hne
        exact hne (unread_fd hunread)
      simp [Disk.setFd, hne']
    cases fails with
    | true =>
      cases hstep
      exact h.leave h.same rfl
    | false =>
      cases hstep
      simp only [Bool.false_eq_true, if_false]
      exact readItemStep_keeps h hunread hspare
  next => cases hstep

theorem giveUp_keeps {s' : CacheSystem ι} (h : UnlinkInv filename s)
    (hstep : cacheStep filename s (.giveUp i) = some s') : UnlinkInv filename s' := by
  simp only [cacheStep] at hstep
  split at hstep
  next =>
    cases hstep
    exact h.leave h.same rfl
  next fd newLength hstage =>
    cases hstep
    have hopen : (s.stage i).fd = some fd := by rw [hstage]; rfl
    have hheld : (s.stage i).held = some fd := by rw [hstage]; rfl
    apply h.goto h.same
    · intro fd' hst
      cases hst
      exact .inl hopen
    · obtain ⟨inode, hh⟩ := (h.request i).held fd hheld
      obtain ⟨hlt, file, hfile, hin⟩ := (h.request i).opened fd hopen
      rw [hh.file] at hfile
      cases hfile
      apply ReqInv.hold rfl hlt hin
      rw [List.append_nil]
      exact ⟨hh.file, hh.name, hh.created, hh.unfinished, hh.unexpired, hh.unmarked, by simp, by simp⟩
    · exact each_nil
  next => cases hstep

theorem unlinkExpired_keeps {s' : CacheSystem ι} (h : UnlinkInv filename s)
    (hok : Solitary filename s (.unlinkExpired i))
    (hstep : cacheStep filename s (.unlinkExpired i) = some s') : UnlinkInv filename s' := by
  simp only [cacheStep] at hstep
  split at hstep
  next fd hstage =>
    cases hstep
    have hopen : (s.stage i).fd = some fd := by rw [hstage]; rfl
    obtain ⟨inode, hinode, hexpired⟩ := (h.request i).expired fd hstage
    have hname : ∀ inode', s.disk.names .current (filename i) = some inode' → inode' = inode := by
      intro inode' hname
      rcases hok fd hstage with hok | hok
      · rw [hname] at hok
        cases hok
      · rw [hname, hinode] at hok
        exact Option.some.inj hok
    refine h.goto ((close_spares h hopen).unlink rfl rfl ?_) nofun (.closed rfl) (owned_unlinked ?_)
    · intro j fd' inode' _ hh hname'
      rw [hname inode' hname'] at hh
      exact hh.unexpired i hexpired
    · intro inode' hname'
      rw [hname inode' hname']
      exact .inr hexpired
  next => cases hstep

theorem abort_keeps {s' : CacheSystem ι} (h : UnlinkInv filename s)
    (hok : Solitary filename s (.abort i))
    (hstep : cacheStep filename s (.abort i) = some s') : UnlinkInv filename s' := by
  simp only [cacheStep] at hstep
  split at hstep
  next fd hstage =>
    cases hstep
    cases fd with
    | none =>
      have hfree := hok hstage
      refine h.goto (h.same.unlink rfl rfl ?_) nofun (.closed rfl) (owned_unlinked ?_)
      · intro j fd inode _ _ hname
        rw [hfree] at hname
        cases hname
      · intro inode hname
        rw [hfree] at hname
        cases hname
    | some fd =>
      have hopen : (s.stage i).fd = some fd := by rw [hstage]; rfl
      have hheld : (s.stage i).held = some fd := by rw [hstage]; rfl
      obtain ⟨inode, hh⟩ := (h.request i).held fd hheld
      refine h.goto ((close_spares h hopen).unlink rfl rfl ?_) nofun (.closed rfl)
        (owned_unlinked ?_)
      · intro j fd' inode' hj hh' hname
        rw [hh.name] at hname
        cases hname
        exact hj (h.unique j i inode hh'.created hh.created)
      · intro inode' hname
        rw [hh.name] at hname
        cases hname
        exact .inl ⟨hh.created, hh.unfinished⟩
  next => cases hstep

theorem create_keeps {fails : Bool} {s' : CacheSystem ι} (h : UnlinkInv filename s)
    (hstep : cacheStep filename s (.create i fails) = some s') : UnlinkInv filename s' := by
  simp only [cacheStep] at hstep
  split at hstep
  next hstage =>
    cases fails with
    | true =>
      cases hstep
      exact h.leave h.same rfl
    | false =>
      cases hname : s.disk.names .current (filename i) with
      | some inode =>
        simp only [Disk.calls, Disk.fileSys, hname, Bool.false_eq_true, if_false] at hstep
        cases hstep
        exact h.leave h.same rfl
      | none =>
        simp only [Disk.calls, Disk.fileSys, hname, Bool.false_eq_true, if_false] at hstep
        cases hstep
        have hfile : (s.disk.createFile (filename i)).2.fds s.disk.nextFd =
            some ⟨s.disk.nextInode, 0⟩ := by
          exact Function.update_self _ _ _
        have hempty : (s.disk.createFile (filename i)).2.inodes s.disk.nextInode = [] := by
          simp [Disk.createFile, Disk.openInode, Disk.setFd]
        have hevent : (((s.disk.createFile (filename i)).2.inodeOf
            (s.disk.createFile (filename i)).1).map (CacheEvent.created i)).toList =
            [CacheEvent.created i s.disk.nextInode] := by
          rw [Disk.inodeOf]
          change ((((s.disk.createFile (filename i)).2.fds s.disk.nextFd).map _).map _).toList = _
          rw [hfile]
          rfl
        have hnames : ∀ dir name, (s.disk.createFile (filename i)).2.names dir name =
            if dir = .current ∧ name = filename i then some s.disk.nextInode
            else s.disk.names dir name := fun dir name => setName_names _ _ _ _ _ _
        have hnew : ∀ e ∈ s.log, e.inode ≠ s.disk.nextInode := fun e hmem => (h.logged e hmem).ne
        rw [hevent]
        refine h.goto ⟨?_, Nat.le_succ _, Nat.le_succ _, ?_, ?_, ?_, ?_⟩ ?_ ?_
          (each_singleton.mpr trivial)
        · intro dir name inode hnew
          rw [hnames] at hnew
          split at hnew
          next =>
            cases hnew
            exact Nat.lt_succ_self _
          next => exact (h.bound dir name inode hnew).trans (Nat.lt_succ_self _)
        · intro fd hlt _
          have hne : fd ≠ s.disk.nextFd := by omega
          simp [Disk.createFile, Disk.openInode, Disk.setFd, Disk.setName, hne]
        · intro j fd inode hj _ hh
          have hlt : inode < s.disk.nextInode := h.logged _ hh.created
          have hne : inode ≠ s.disk.nextInode := by omega
          have hne' : filename j ≠ filename i := by
            intro heq
            have hbound := hh.name
            rw [heq, hname] at hbound
            cases hbound
          refine ⟨?_, ?_, by simp⟩
          · rw [hnames, if_neg (by simp [hne'])]
            exact hh.name
          · simp [Disk.createFile, Disk.openInode, Disk.setFd, hne]
        · intro e hmem
          rw [List.mem_singleton] at hmem
          rw [hmem]
          exact Nat.lt_succ_self _
        · intro j inode hmem
          rw [List.mem_singleton] at hmem
          cases hmem
          exact ⟨rfl, rfl⟩
        · intro fd hst
          cases hst
          exact .inr rfl
        · apply ReqInv.hold rfl (Nat.lt_succ_self _) (Nat.lt_succ_self _)
          constructor
          · rw [hempty]
            exact hfile
          · rw [hnames, if_pos ⟨rfl, rfl⟩]
          · simp
          · exact fun j hmem => hnew _ (by simpa using hmem) rfl
          · exact fun j hmem => hnew _ (by simpa using hmem) rfl
          · exact .inl hempty
          · simp
          · exact fun _ => hempty
  next => cases hstep

/-- A write at the end of a held file. -/
theorem writePart_appends {data : Bytes} {written : Option Nat}
    (hfile : d.fds fd = some ⟨inode, (d.inodes inode).length⟩)
    (h : d.writePart fd data written = some d') :
    ∃ part, part = data.take (written.getD 0) ∧ d'.inodes inode = d.inodes inode ++ part ∧
      d'.fds fd = some ⟨inode, (d.inodes inode ++ part).length⟩ ∧ d'.names = d.names ∧
      d'.nextInode = d.nextInode ∧ d'.nextFd = d.nextFd ∧
      (∀ fd', fd' ≠ fd → d'.fds fd' = d.fds fd') ∧
      ∀ inode', inode' ≠ inode → d'.inodes inode' = d.inodes inode' := by
  cases written with
  | none =>
    cases h
    refine ⟨[], by simp, by simp, ?_, rfl, rfl, rfl, fun _ _ => rfl, fun _ _ => rfl⟩
    rw [List.append_nil]
    exact hfile
  | some n =>
    simp only [Disk.writePart] at h
    split at h
    next =>
      unfold Disk.writeFd at h
      rw [hfile] at h
      cases h
      refine ⟨data.take n, rfl, ?_, ?_, rfl, rfl, rfl, ?_, ?_⟩
      · simp [Disk.setFd, writeAt_end]
      · simp [Disk.setFd]
      · intro fd' hne
        simp [Disk.setFd, hne]
      · intro inode' hne
        simp [Disk.setFd, hne]
    next => cases h

/-- A write on the item that a request holds. -/
theorem UnlinkInv.append (h : UnlinkInv filename s) (hheld : (s.stage i).held = some fd)
    (hh : Held filename s.disk s.log i (s.stage i) fd inode) {data : Bytes} {written : Option Nat}
    (hwrite : s.disk.writePart fd data written = some d) (hstage : stage.held = some fd)
    (hunmarked : s.disk.inodes inode ++ data.take (written.getD 0) = [] ∨
      Started (s.disk.inodes inode ++ data.take (written.getD 0)))
    (hstarted : (∃ newLength, stage = .storing fd newLength) →
      Started (s.disk.inodes inode ++ data.take (written.getD 0)))
    (hempty : stage ≠ .created fd) : UnlinkInv filename (s.goto i stage d []) := by
  obtain ⟨part, hpart, hfile, hfd, hnames, hnext, hnextFd, hfds, hinodes⟩ :=
    writePart_appends hh.file hwrite
  rw [← hpart, ← hfile] at hunmarked hstarted
  obtain ⟨hlt, file, hold, hin⟩ := (h.request i).opened fd (held_fd hheld)
  rw [hh.file] at hold
  cases hold
  apply h.goto (h.write_spares (held_fd hheld) hh.created hnames hnext hnextFd hfds hinodes (by simp))
  · intro fd' hst
    rw [held_fd hstage] at hst
    cases hst
    exact .inl (held_fd hheld)
  · rw [List.append_nil]
    apply ReqInv.hold hstage (hlt.trans_le hnextFd.ge) (hin.trans_le hnext.ge)
    refine ⟨?_, ?_, hh.created, hh.unfinished, hh.unexpired, hunmarked, hstarted, ?_⟩
    · rw [hfile]
      exact hfd
    · rw [hnames]
      exact hh.name
    · exact fun heq => absurd heq hempty
  · exact each_nil

theorem writeItem_keeps {resp : Resp} {expireAt : Int} {written : Option Nat} {s' : CacheSystem ι}
    (h : UnlinkInv filename s) (hok : Solitary filename s (.writeItem i resp expireAt written))
    (hstep : cacheStep filename s (.writeItem i resp expireAt written) = some s') :
    UnlinkInv filename s' := by
  simp only [cacheStep] at hstep
  split at hstep
  next fd hstage =>
    obtain ⟨d, hwrite, hs'⟩ := Option.bind_eq_some_iff.mp hstep
    cases hs'
    have hheld : (s.stage i).held = some fd := by rw [hstage]; rfl
    obtain ⟨inode, hh⟩ := (h.request i).held fd hheld
    have hempty := hh.empty hstage
    rcases hok with hok | hok
    · rw [hok, if_pos rfl]
      refine h.append hheld hh hwrite rfl (.inl ?_) (by simp) nofun
      rw [hempty, hok]
      simp
    · have hstarted : Started (s.disk.inodes inode ++
          (Buffer.item (newItem resp expireAt) resp.headers).bytes.take (written.getD 0)) := by
        rw [hempty, hok, Option.getD_some, List.take_length, List.nil_append]
        unfold Started Buffer.bytes FileCacheItem.bytes
        simp only [List.append_assoc]
        exact List.prefix_append _ _
      rw [if_neg (by simp [hok])]
      exact h.append hheld hh hwrite rfl (.inr hstarted) (fun _ => hstarted) nofun
  next => cases hstep

theorem writePiece_keeps {data : Bytes} {isLast : Bool} {written : Option Nat} {s' : CacheSystem ι}
    (h : UnlinkInv filename s)
    (hstep : cacheStep filename s (.writePiece i data isLast written) = some s') :
    UnlinkInv filename s' := by
  simp only [cacheStep] at hstep
  split at hstep
  next fd newLength hstage =>
    obtain ⟨d, hwrite, hs'⟩ := Option.bind_eq_some_iff.mp hstep
    cases hs'
    have hheld : (s.stage i).held = some fd := by rw [hstage]; rfl
    obtain ⟨inode, hh⟩ := (h.request i).held fd hheld
    have hstarted : Started (s.disk.inodes inode ++ data.take (written.getD 0)) :=
      (hh.started ⟨newLength, hstage⟩).trans (List.prefix_append _ _)
    by_cases hfull : written ≠ some data.length
    · rw [if_pos hfull]
      exact h.append hheld hh hwrite rfl (.inr hstarted) (fun _ => hstarted) nofun
    · rw [if_neg hfull]
      cases isLast with
      | false => exact h.append hheld hh hwrite rfl (.inr hstarted) (fun _ => hstarted) nofun
      | true =>
        obtain ⟨part, -, hfile, hfd, hnames, hnext, hnextFd, hfds, hinodes⟩ :=
          writePart_appends hh.file hwrite
        obtain ⟨hlt, file, hold, hin⟩ := (h.request i).opened fd (held_fd hheld)
        rw [hh.file] at hold
        cases hold
        apply h.goto
          (h.write_spares (held_fd hheld) hh.created hnames hnext hnextFd hfds hinodes (by simp))
        · intro fd' hst
          cases hst
          exact .inl (held_fd hheld)
        · rw [List.append_nil]
          constructor
          · intro fd' hst
            cases hst
            exact ⟨hlt.trans_le hnextFd.ge, _, hfd, hin.trans_le hnext.ge⟩
          · exact nofun
          · exact nofun
          · exact nofun
          · intro fd' newLength' hst
            cases hst
            exact ⟨inode, by rw [Disk.inodeOf, hfd]; rfl, hh.created⟩
        · exact each_nil
  next => cases hstep

/-- Whatever is written of the length, no other file is touched. -/
theorem mark_keeps {written : Option Nat} {s' : CacheSystem ι} (h : UnlinkInv filename s)
    (hstep : cacheStep filename s (.mark i written) = some s') : UnlinkInv filename s' := by
  simp only [cacheStep] at hstep
  split at hstep
  next fd newLength hstage =>
    obtain ⟨d, hwrite, hs'⟩ := Option.bind_eq_some_iff.mp hstep
    cases hs'
    have hopen : (s.stage i).fd = some fd := by rw [hstage]; rfl
    obtain ⟨inode, hinode, hcreated⟩ := (h.request i).marking fd newLength hstage
    obtain ⟨file, hfile, rfl⟩ := Option.map_eq_some_iff.mp hinode
    have hevent : ((s.disk.inodeOf fd).map (CacheEvent.finished i)).toList =
        [CacheEvent.finished i file.inode] := by
      rw [hinode]
      rfl
    have hsought : Disk.calls.seek fd s.disk = s.disk.setFd fd (some ⟨file.inode, 0⟩) := by
      simp [Disk.calls, Disk.fileSys, hfile]
    rw [hsought] at hwrite
    rw [hevent]
    have hout : ∀ fd', CacheStage.out.fd = some fd' →
        (s.stage i).fd = some fd' ∨ fd' = s.disk.nextFd := by
      intro fd' hst
      cases hst
    refine h.goto ?_ hout (.closed rfl) (each_singleton.mpr trivial)
    cases written with
    | none =>
      cases hwrite
      refine h.write_spares hopen hcreated rfl rfl rfl ?_ ?_ ?_
      · intro fd' hne
        simp [Disk.setFd, hne]
      · exact fun _ _ => rfl
      · simp
    | some n =>
      simp only [Disk.writePart] at hwrite
      split at hwrite
      next =>
        have hget : (s.disk.setFd fd (some ⟨file.inode, 0⟩)).fds fd = some ⟨file.inode, 0⟩ := by
          simp [Disk.setFd]
        unfold Disk.writeFd at hwrite
        rw [hget] at hwrite
        cases hwrite
        refine h.write_spares hopen hcreated rfl rfl rfl ?_ ?_ ?_
        · intro fd' hne
          simp [Disk.setFd, hne]
        · intro inode' hne
          simp [Disk.setFd, hne]
        · simp
      next => cases hwrite
  next => cases hstep

theorem cacheStep_keeps {s' : CacheSystem ι} {a : CacheAct ι} (h : UnlinkInv filename s)
    (hok : Solitary filename s a) (hstep : cacheStep filename s a = some s') :
    UnlinkInv filename s' := by
  cases a with
  | openCurrent i fails => exact openCurrent_keeps h hstep
  | openLast i fails => exact openLast_keeps h hstep
  | rename i fails => exact rename_keeps h hok hstep
  | readItem i fails => exact readItem_keeps h hstep
  | unlinkExpired i => exact unlinkExpired_keeps h hok hstep
  | giveUp i => exact giveUp_keeps h hstep
  | create i fails => exact create_keeps h hstep
  | writeItem i resp expireAt written => exact writeItem_keeps h hok hstep
  | writePiece i data isLast written => exact writePiece_keeps h hstep
  | mark i written => exact mark_keeps h hstep
  | abort i => exact abort_keeps h hok hstep
  | tick now =>
    simp only [cacheStep] at hstep
    split at hstep
    next =>
      cases hstep
      refine ⟨h.bound, h.logged, h.unique, h.apart, fun i => ?_, h.owned⟩
      have hkeep : ReqInv filename { s.disk with clock := now } (s.log ++ []) i (s.stage i) :=
        (h.request i).keep le_rfl le_rfl (fun _ _ => rfl) fun _ _ _ hh => ⟨hh.name, rfl, by simp⟩
      rw [List.append_nil] at hkeep
      exact hkeep
    next => cases hstep
  | renew =>
    cases hstep
    refine ⟨?_, h.logged, h.unique, h.apart, fun i => ?_, h.owned⟩
    · intro dir name inode hname
      cases dir with
      | current => cases hname
      | last => exact h.bound .current name inode hname
    · obtain ⟨hopened, -, hexpired, hunread, hmarking⟩ := h.request i
      refine ⟨hopened, ?_, hexpired, hunread, hmarking⟩
      intro fd hst
      have hnone := hok i
      simp only at hst
      rw [hst] at hnone
      cases hnone

/-- A step of the requests that meets `ok`. -/
def CacheStep (filename : ι → Bytes) (ok : CacheSystem ι → CacheAct ι → Prop)
    (s s' : CacheSystem ι) : Prop :=
  ∃ a, ok s a ∧ cacheStep filename s a = some s'

def cacheRun (filename : ι → Bytes) : List (CacheAct ι) → CacheSystem ι → Option (CacheSystem ι)
  | [], s => some s
  | a :: acts, s => (cacheStep filename s a).bind (cacheRun filename acts)

/-- Every step of a run meets `ok`. -/
def RunOk (filename : ι → Bytes) (ok : CacheSystem ι → CacheAct ι → Prop) :
    List (CacheAct ι) → CacheSystem ι → Prop
  | [], _ => True
  | a :: acts, s => ok s a ∧ ∀ s', cacheStep filename s a = some s' → RunOk filename ok acts s'

theorem runOk_of_forall {ok : CacheSystem ι → CacheAct ι → Prop} (acts : List (CacheAct ι))
    (s : CacheSystem ι) (h : ∀ s a, ok s a) : RunOk filename ok acts s := by
  induction acts generalizing s with
  | nil => trivial
  | cons a acts ih => exact ⟨h s a, fun s' _ => ih s'⟩

theorem reachable_cacheRun {ok : CacheSystem ι → CacheAct ι → Prop} {acts : List (CacheAct ι)}
    {s' : CacheSystem ι} (hs : Reachable CacheStart (CacheStep filename ok) s)
    (hok : RunOk filename ok acts s) (h : cacheRun filename acts s = some s') :
    Reachable CacheStart (CacheStep filename ok) s' := by
  induction acts generalizing s with
  | nil =>
    cases h
    exact hs
  | cons a acts ih =>
    obtain ⟨t, hstep, h⟩ := Option.bind_eq_some_iff.mp h
    exact ih (hs.next ⟨a, hok.1, hstep⟩) (hok.2 t hstep) h

end Ownership

/-- Two requests on one key, and an empty cache. -/
def sameName : Bool → Bytes := fun _ => bytes "a"

def twoRequests : CacheSystem Bool := ⟨emptyDisk, fun _ => .idle, []⟩

theorem start_twoRequests : CacheStart twoRequests := ⟨fun _ => rfl, rfl, nofun⟩

def okResponse : Resp := { Resp.init with statusCode := 200 }

end Phorklift
