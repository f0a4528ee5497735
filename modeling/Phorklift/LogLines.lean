import Phorklift.LogBuffer
import Phorklift.Outbox

/-! The lines of the log files, over all the processes that hold copies of the buffers. -/

namespace Phorklift.LogLines

open Transition Outbox

/-- A log file as a process has it, and the lines that its buffer holds. The lines are numbered in
the order in which they are written. -/
structure LineFile where
  file : LogFile
  lines : List Nat

/-- A process and its `phl_log_file_list`. -/
structure Process where
  files : List LineFile
  running : Bool

/-- A line is put into a buffer; a buffer is given to `write`, or freed, or lost with its process;
and a process is copied with its buffers. -/
inductive LineEvent
  | wrote (p : Nat) (name : Bytes) (line : Nat)
  | handed (p : Nat) (name : Bytes) (lines : List Nat)
  | dropped (p : Nat) (name : Bytes) (lines : List Nat)
  | forked (p q : Nat) (files : List LineFile)

structure LineWorld where
  procs : List Process
  next : Nat
  trace : List LineEvent

/-- The master, before it has read its configuration. -/
def LineWorld.start : LineWorld := ⟨[⟨[], true⟩], 0, []⟩

def LineFile.ref (f : LineFile) : LineFile := { f with file.refs := f.file.refs + 1 }

def LineFile.unref (f : LineFile) : LineFile := { f with file.refs := f.file.refs - 1 }

/-- `phl_log_file_open`; `canOpen` is what `open` says. -/
def phlLogFileOpen (files : List LineFile) (filename : Bytes) (bufSize : Int) (canOpen : Bool) :
    List LineFile :=
  match files.findIdx? (·.file.name = filename) with
  | some i => files.modify i LineFile.ref
  | none => if canOpen then files ++ [⟨⟨filename, 1, 0, bufSize, [], []⟩, []⟩] else files

/-- `phl_log_file_close` of the file at `i`. -/
def phlLogFileClose (p i : Nat) (f : LineFile) (files : List LineFile) :
    List LineFile × List LineEvent :=
  if f.file.refs - 1 > 0 then (files.modify i LineFile.unref, [])
  else (files.eraseIdx i, [.dropped p f.file.name f.lines])

/-- `phl_log_file_vwrite` of the line of this number. -/
def phlLogFileVwrite (p : Nat) (maxLine : Int) (stamp : TimeStamp) (len line : Nat) (f : LineFile) :
    LineFile × List LineEvent :=
  let file := Phorklift.phlLogFileVwrite f.file maxLine stamp len
  if f.file.bufSize - f.file.pos < maxLine then
    (⟨file, [line]⟩, [.handed p f.file.name f.lines, .wrote p f.file.name line])
  else (⟨file, f.lines ++ [line]⟩, [.wrote p f.file.name line])

def LineFile.unflushed (f : LineFile) : Bool := f.file.pos > 0

/-- `phl_log_routine` for one file. -/
def LineFile.flushed (f : LineFile) : LineFile :=
  ⟨Phorklift.phlLogRoutine f.file, if f.unflushed then [] else f.lines⟩

def phlLogRoutine (p : Nat) (files : List LineFile) : List LineFile × List LineEvent :=
  (files.map LineFile.flushed,
    (files.filter LineFile.unflushed).map fun f => .handed p f.file.name f.lines)

/-- What the processes do: the configurations that are read and freed open and close files, a line
is written, the event loop comes to its deferred `phl_log_routine`, a process forks, and a process
ends, which flushes nothing. The sizes are those that the post functions take. -/
inductive LineAct
  | openFile (p : Nat) (filename : Bytes) (bufSize : Int) (canOpen : Bool)
  | close (p i : Nat)
  | write (p i : Nat) (maxLine : Int) (stamp : TimeStamp) (len : Nat)
  | routine (p : Nat)
  | fork (p : Nat)
  | exit (p : Nat)

def LineAct.process : LineAct → Nat
  | .openFile p .. => p
  | .close p _ => p
  | .write p .. => p
  | .routine p => p
  | .fork p => p
  | .exit p => p

def LineWorld.setFiles (w : LineWorld) (p : Nat) (r : List LineFile × List LineEvent) : LineWorld :=
  { w with
    procs := w.procs.set p ⟨r.1, true⟩
    trace := w.trace ++ r.2 }

def processAct (w : LineWorld) (pr : Process) : LineAct → Option LineWorld
  | .openFile p filename bufSize canOpen =>
    if 80 ≤ bufSize then
      some (w.setFiles p (phlLogFileOpen pr.files filename bufSize canOpen, []))
    else none
  | .close p i => pr.files[i]?.map fun f => w.setFiles p (phlLogFileClose p i f pr.files)
  | .write p i maxLine stamp len => pr.files[i]?.map fun f =>
    let written := phlLogFileVwrite p maxLine stamp len w.next f
    { w.setFiles p (pr.files.set i written.1, written.2) with next := w.next + 1 }
  | .routine p => some (w.setFiles p (phlLogRoutine p pr.files))
  | .fork p => some { w with
      procs := w.procs ++ [pr]
      trace := w.trace ++ [.forked p w.procs.length pr.files] }
  | .exit p => some { w with
      procs := w.procs.set p ⟨[], false⟩
      trace := w.trace ++ pr.files.map fun f => .dropped p f.file.name f.lines }

def lineAct (w : LineWorld) (a : LineAct) : Option LineWorld :=
  w.procs[a.process]?.bind fun pr => if pr.running then processAct w pr a else none

/-- The file of a name. -/
def fileOf (name : Bytes) (files : List LineFile) : Option LineFile :=
  files.find? (·.file.name = name)

/-- The lines that wait in the buffer of a file. -/
def pending (name : Bytes) (files : List LineFile) : List Nat :=
  ((fileOf name files).map LineFile.lines).getD []

/-- What an event says of the buffers of a file, one for each process. -/
def LineEvent.entries (name : Bytes) : LineEvent → List (Entry Nat)
  | .wrote p n line => if n = name then [.put p line] else []
  | .handed p n lines => if n = name then [.took p lines] else []
  | .dropped p n lines => if n = name then [.took p lines] else []
  | .forked p q files => [.copied p q (pending name files)]

def ledger (name : Bytes) (trace : List LineEvent) : List (Entry Nat) :=
  trace.flatMap (LineEvent.entries name)

def LineWorld.boxes (w : LineWorld) (name : Bytes) : List (List Nat) :=
  w.procs.map fun pr => pending name pr.files

/-- A copy of a line ends here. -/
def LineEvent.ends (name : Bytes) (line : Nat) : LineEvent → Bool
  | .handed _ n lines => n = name ∧ line ∈ lines
  | .dropped _ n lines => n = name ∧ line ∈ lines
  | _ => false

/-- A process is copied that holds the line. -/
def LineEvent.doubles (name : Bytes) (line : Nat) : LineEvent → Bool
  | .forked _ _ files => line ∈ pending name files
  | _ => false

def Process.holds (name : Bytes) (line : Nat) (pr : Process) : Bool := line ∈ pending name pr.files

section Files

variable {files : List LineFile} {f : LineFile}

/-- No two files of a process have one name. -/
def Distinct (files : List LineFile) : Prop := (files.map (·.file.name)).Nodup

theorem fileOf_cons (name : Bytes) (f : LineFile) (files : List LineFile) :
    fileOf name (f :: files) = if f.file.name = name then some f else fileOf name files := by
  unfold fileOf
  rw [List.find?_cons]
  by_cases h : f.file.name = name
  · simp only [h, decide_true, if_true]
  · simp only [h, decide_false, if_false]

theorem pending_cons (name : Bytes) (f : LineFile) (files : List LineFile) :
    pending name (f :: files) = if f.file.name = name then f.lines else pending name files := by
  unfold pending
  rw [fileOf_cons]
  split <;> rfl

theorem pending_of_ne {name : Bytes} (h : ∀ f ∈ files, f.file.name ≠ name) :
    pending name files = [] := by
  have hnone : fileOf name files = none :=
    List.find?_eq_none.mpr fun f hf => by simpa using h f hf
  unfold pending
  rw [hnone]
  rfl

theorem Distinct.ne (h : Distinct (f :: files)) : ∀ g ∈ files, g.file.name ≠ f.file.name := by
  intro g hg heq
  exact (List.nodup_cons.mp h).1 (List.mem_map.mpr ⟨g, hg, heq⟩)

theorem Distinct.tail (h : Distinct (f :: files)) : Distinct files := (List.nodup_cons.mp h).2

/-- Of the files of one name there is at most one. -/
theorem Distinct.filter_name (h : Distinct files) (name : Bytes) :
    files.filter (·.file.name = name) = (fileOf name files).toList := by
  induction files with
  | nil => rfl
  | cons f files ih =>
    rw [fileOf_cons, List.filter_cons]
    by_cases hname : f.file.name = name
    · have hnone : files.filter (·.file.name = name) = [] := by
        apply List.filter_eq_nil_iff.mpr
        intro g hg
        have hne := h.ne g hg
        rw [hname] at hne
        simpa using hne
      rw [hnone, if_pos hname, if_pos (decide_eq_true hname)]
      rfl
    · rw [if_neg hname, if_neg (by simpa using hname)]
      exact ih h.tail

theorem pending_modify {g : LineFile → LineFile} (hname : ∀ f, (g f).file.name = f.file.name)
    (hlines : ∀ f, (g f).lines = f.lines) (i : Nat) (name : Bytes) :
    pending name (files.modify i g) = pending name files := by
  induction files generalizing i with
  | nil => rw [List.modify_nil]
  | cons f files ih =>
    cases i with
    | zero =>
      rw [List.modify_zero_cons, pending_cons, pending_cons, hname, hlines]
    | succ i =>
      rw [List.modify_succ_cons, pending_cons, pending_cons, ih]

theorem pending_set {f' : LineFile} {i : Nat} (h : Distinct files) (hi : files[i]? = some f)
    (hname : f'.file.name = f.file.name) (name : Bytes) :
    pending name (files.set i f') =
      if f.file.name = name then f'.lines else pending name files := by
  induction files generalizing i with
  | nil => cases hi
  | cons g files ih =>
    cases i with
    | zero =>
      obtain rfl := Option.some.inj hi
      rw [List.set_cons_zero, pending_cons, pending_cons, hname]
      split <;> rfl
    | succ i =>
      have hmem : f ∈ files := List.mem_of_getElem? hi
      rw [List.set_cons_succ, pending_cons, pending_cons, ih h.tail hi]
      by_cases hg : g.file.name = name
      · have hne : f.file.name ≠ name := by
          rw [← hg]
          exact h.ne f hmem
        rw [if_pos hg, if_neg hne, if_pos hg]
      · rw [if_neg hg, if_neg hg]

theorem pending_eraseIdx {i : Nat} (h : Distinct files) (hi : files[i]? = some f) (name : Bytes) :
    pending name (files.eraseIdx i) =
      if f.file.name = name then [] else pending name files := by
  induction files generalizing i with
  | nil => cases hi
  | cons g files ih =>
    cases i with
    | zero =>
      obtain rfl := Option.some.inj hi
      rw [List.eraseIdx_cons_zero, pending_cons]
      by_cases hg : g.file.name = name
      · rw [if_pos hg]
        apply pending_of_ne
        rw [← hg]
        exact h.ne
      · rw [if_neg hg, if_neg hg]
    | succ i =>
      have hmem : f ∈ files := List.mem_of_getElem? hi
      rw [List.eraseIdx_cons_succ, pending_cons, pending_cons, ih h.tail hi]
      by_cases hg : g.file.name = name
      · have hne : f.file.name ≠ name := by
          rw [← hg]
          exact h.ne f hmem
        rw [if_pos hg, if_neg hne, if_pos hg]
      · rw [if_neg hg, if_neg hg]

/-- What waits in a file's buffer, in terms of any of the file's places. -/
theorem pending_of_getElem? {i : Nat} (h : Distinct files) (hi : files[i]? = some f) :
    pending f.file.name files = f.lines := by
  have hset := pending_set h hi rfl f.file.name
  obtain ⟨hlt, rfl⟩ := List.getElem?_eq_some_iff.mp hi
  rwa [if_pos rfl, List.set_getElem_self hlt] at hset

end Files

section Functions

variable {files : List LineFile} {f : LineFile} {p i : Nat} {name : Bytes}

theorem ledger_append (name : Bytes) (trace events : List LineEvent) :
    ledger name (trace ++ events) = ledger name trace ++ ledger name events :=
  List.flatMap_append

theorem pending_open (files : List LineFile) (filename : Bytes) (bufSize : Int) (canOpen : Bool)
    (name : Bytes) :
    pending name (phlLogFileOpen files filename bufSize canOpen) = pending name files := by
  unfold phlLogFileOpen
  split
  next i hi => exact pending_modify (g := LineFile.ref) (fun _ => rfl) (fun _ => rfl) i name
  next hnone =>
    split
    · induction files with
      | nil =>
        rw [List.nil_append, pending_cons]
        split <;> rfl
      | cons f files ih =>
        rw [List.cons_append, pending_cons, pending_cons]
        rw [List.findIdx?_cons] at hnone
        split at hnone
        · cases hnone
        · rw [ih (Option.map_eq_none_iff.mp hnone)]
    · rfl

/-- Without the lines it is the list of files of the model of the buffers. -/
theorem open_files (sys : LogSystem) (files : List LineFile) (filename : Bytes) (bufSize : Int) :
    ((phlLogFileOpen files filename bufSize (sys.canOpen filename)).map LineFile.file) =
      ((Phorklift.phlLogFileOpen sys (files.map LineFile.file) filename bufSize).map
        Prod.snd).getD (files.map LineFile.file) := by
  unfold phlLogFileOpen Phorklift.phlLogFileOpen
  rw [List.findIdx?_map]
  show _ = ((match files.findIdx? (·.file.name = filename) with
    | some i => _
    | none => _ : Option (Nat × List LogFile)).map Prod.snd).getD _
  cases files.findIdx? (·.file.name = filename) with
  | some i =>
    apply List.ext_getElem?
    intro j
    simp only [Option.map_some, Option.getD_some, List.getElem?_map, List.getElem?_modify]
    cases files[j]? with
    | none => rfl
    | some f =>
      show some (if i = j then f.ref else f).file = some (if i = j then _ else f.file)
      split <;> rfl
  | none =>
    dsimp only
    split
    · exact List.map_append
    · rfl

theorem close_moves (h : Distinct files) (hi : files[i]? = some f) :
    Moves p (pending name files) (ledger name (phlLogFileClose p i f files).2)
      (pending name (phlLogFileClose p i f files).1) := by
  unfold phlLogFileClose
  split
  · dsimp only
    rw [pending_modify (g := LineFile.unref) (fun _ => rfl) (fun _ => rfl)]
    exact .nil _
  · have hledger : ledger name [.dropped p f.file.name f.lines] =
        if f.file.name = name then [.took p f.lines] else [] := List.append_nil _
    dsimp only
    rw [pending_eraseIdx h hi, hledger]
    by_cases hname : f.file.name = name
    · subst hname
      rw [if_pos rfl, if_pos rfl, pending_of_getElem? h hi]
      exact .take (.nil _)
    · rw [if_neg hname, if_neg hname]
      exact .nil _

theorem vwrite_name (p : Nat) (maxLine : Int) (stamp : TimeStamp) (len line : Nat) (f : LineFile) :
    (phlLogFileVwrite p maxLine stamp len line f).1.file.name = f.file.name := by
  have hname : (Phorklift.phlLogFileVwrite f.file maxLine stamp len).name = f.file.name := by
    unfold Phorklift.phlLogFileVwrite
    split <;> rfl
  unfold phlLogFileVwrite
  split
  · exact hname
  · exact hname

theorem write_moves (h : Distinct files) (hi : files[i]? = some f) (maxLine : Int)
    (stamp : TimeStamp) (len line : Nat) :
    Moves p (pending name files) (ledger name (phlLogFileVwrite p maxLine stamp len line f).2)
      (pending name (files.set i (phlLogFileVwrite p maxLine stamp len line f).1)) := by
  rw [pending_set h hi (vwrite_name p maxLine stamp len line f)]
  unfold phlLogFileVwrite
  by_cases hname : f.file.name = name
  · subst hname
    rw [if_pos rfl, pending_of_getElem? h hi]
    split
    · have hledger : ledger f.file.name
          [.handed p f.file.name f.lines, .wrote p f.file.name line] =
            [.took p f.lines, .put p line] := by
        simp [ledger, LineEvent.entries]
      dsimp only
      rw [hledger]
      exact .take (.put line (.nil _))
    · have hledger : ledger f.file.name [.wrote p f.file.name line] = [.put p line] := by
        simp [ledger, LineEvent.entries]
      dsimp only
      rw [hledger]
      exact .put line (.nil _)
  · rw [if_neg hname]
    split
    · have hledger : ledger name
          [.handed p f.file.name f.lines, .wrote p f.file.name line] = [] := by
        simp [ledger, LineEvent.entries, hname]
      dsimp only
      rw [hledger]
      exact .nil _
    · have hledger : ledger name [.wrote p f.file.name line] = [] := by
        simp [ledger, LineEvent.entries, hname]
      dsimp only
      rw [hledger]
      exact .nil _

/-- What is said of the buffers of some files, one event for each. -/
theorem ledger_map {event : LineFile → LineEvent} (name : Bytes)
    (hevent : ∀ f, (event f).entries name = if f.file.name = name then [.took p f.lines] else [])
    (files : List LineFile) :
    ledger name (files.map event) =
      (files.filter (·.file.name = name)).map fun f => .took p f.lines := by
  induction files with
  | nil => rfl
  | cons f files ih =>
    unfold ledger at ih ⊢
    rw [List.map_cons, List.flatMap_cons, ih, hevent, List.filter_cons]
    by_cases hname : f.file.name = name
    · rw [if_pos hname, if_pos (decide_eq_true hname)]
      rfl
    · rw [if_neg hname, if_neg (by simpa using hname)]
      rfl

theorem flushed_name (f : LineFile) : f.flushed.file.name = f.file.name := by
  unfold LineFile.flushed Phorklift.phlLogRoutine phlLogFileFlush
  split <;> rfl

theorem fileOf_flushed (name : Bytes) (files : List LineFile) :
    fileOf name (files.map LineFile.flushed) = (fileOf name files).map LineFile.flushed := by
  induction files with
  | nil => rfl
  | cons f files ih =>
    rw [List.map_cons, fileOf_cons, fileOf_cons, flushed_name, ih]
    split <;> rfl

theorem routine_moves (h : Distinct files) :
    Moves p (pending name files) (ledger name (phlLogRoutine p files).2)
      (pending name (phlLogRoutine p files).1) := by
  unfold phlLogRoutine
  dsimp only
  rw [ledger_map name (fun f => rfl), List.filter_comm, h.filter_name]
  unfold pending
  rw [fileOf_flushed]
  cases fileOf name files with
  | none => exact .nil _
  | some f =>
    have hfilter : [f].filter LineFile.unflushed = if f.unflushed then [f] else [] := by
      rw [List.filter_cons]
      rfl
    simp only [Option.toList_some, hfilter, Option.map_some, Option.getD_some, LineFile.flushed]
    split
    · exact .take (.nil _)
    · exact .nil _

theorem exit_moves (h : Distinct files) :
    Moves p (pending name files) (ledger name (files.map fun f => .dropped p f.file.name f.lines))
      (pending name []) := by
  rw [ledger_map name (fun f => rfl), h.filter_name]
  unfold pending
  cases fileOf name files with
  | none => exact .nil _
  | some f => exact .take (.nil _)

end Functions

/-- A file whose lines are apart from each other and from those to come, with an empty buffer where
`pos` is at its start. -/
structure LineFile.Ok (next : Nat) (f : LineFile) : Prop where
  nodup : f.lines.Nodup
  below : ∀ l ∈ f.lines, l < next
  size : 1 ≤ f.file.bufSize
  pos : 0 ≤ f.file.pos
  empty : f.file.pos ≤ 0 → f.lines = []

/-- No buffer that an event speaks of has a line twice. -/
def LineEvent.Ok : LineEvent → Prop
  | .wrote .. => True
  | .handed _ _ lines => lines.Nodup
  | .dropped _ _ lines => lines.Nodup
  | .forked _ _ files => ∀ name, (pending name files).Nodup

section Ok

variable {files : List LineFile} {f : LineFile} {p i next : Nat}

theorem LineFile.Ok.mono {next' : Nat} (h : f.Ok next) (hle : next ≤ next') : f.Ok next' :=
  { h with below := fun l hl => Nat.lt_of_lt_of_le (h.below l hl) hle }

theorem pending_nodup (h : ∀ f ∈ files, f.Ok next) (name : Bytes) : (pending name files).Nodup := by
  unfold pending
  cases hf : fileOf name files with
  | none => exact List.nodup_nil
  | some f => exact (h f (List.mem_of_find?_eq_some hf)).nodup

theorem vwrite_pos {file : LogFile} (hsize : 1 ≤ file.bufSize) (hpos : 0 ≤ file.pos) (maxLine : Int)
    (stamp : TimeStamp) (len : Nat) :
    1 ≤ (Phorklift.phlLogFileVwrite file maxLine stamp len).pos ∧
      (Phorklift.phlLogFileVwrite file maxLine stamp len).bufSize = file.bufSize := by
  have hret := (vsnprintfResult_bounds len).1
  unfold Phorklift.phlLogFileVwrite phlLogFileFlush
  split
  · dsimp only
    refine ⟨?_, rfl⟩
    split <;> omega
  · dsimp only
    refine ⟨?_, rfl⟩
    split <;> omega

theorem LineFile.Ok.vwrite (h : f.Ok next) (p : Nat) (maxLine : Int) (stamp : TimeStamp)
    (len : Nat) : (phlLogFileVwrite p maxLine stamp len next f).1.Ok (next + 1) := by
  obtain ⟨hpos, hsize⟩ := vwrite_pos h.size h.pos maxLine stamp len
  unfold phlLogFileVwrite
  split
  · constructor
    · exact List.nodup_singleton next
    · intro l hl
      obtain rfl := List.mem_singleton.mp hl
      exact Nat.lt_succ_self _
    · rw [hsize]
      exact h.size
    · exact Int.le_trans (by decide) hpos
    · intro hle
      exact absurd hpos (by dsimp only at hle; omega)
  · constructor
    · apply List.Nodup.append h.nodup (List.nodup_singleton next)
      intro l hl hnew
      obtain rfl := List.mem_singleton.mp hnew
      exact Nat.lt_irrefl _ (h.below _ hl)
    · intro l hl
      rcases List.mem_append.mp hl with hold | hnew
      · exact Nat.lt_succ_of_lt (h.below l hold)
      · obtain rfl := List.mem_singleton.mp hnew
        exact Nat.lt_succ_self _
    · rw [hsize]
      exact h.size
    · exact Int.le_trans (by decide) hpos
    · intro hle
      exact absurd hpos (by dsimp only at hle; omega)

/-- A file that has been flushed holds nothing. -/
theorem LineFile.Ok.flushed_lines (h : f.Ok next) : f.flushed.lines = [] := by
  by_cases hpos : f.file.pos > 0
  · exact if_pos (decide_eq_true hpos)
  · have hunflushed : f.unflushed = false := decide_eq_false hpos
    unfold LineFile.flushed
    rw [hunflushed]
    exact h.empty (Int.not_lt.mp hpos)

theorem LineFile.Ok.flushed (h : f.Ok next) : f.flushed.Ok next where
  nodup := by
    rw [h.flushed_lines]
    exact List.nodup_nil
  below := by
    rw [h.flushed_lines]
    exact nofun
  size := by
    unfold LineFile.flushed Phorklift.phlLogRoutine phlLogFileFlush
    split <;> exact h.size
  pos := by
    unfold LineFile.flushed Phorklift.phlLogRoutine phlLogFileFlush
    split
    · exact Int.le_refl 0
    · exact h.pos
  empty := fun _ => h.flushed_lines

theorem distinct_modify {g : LineFile → LineFile} (hname : ∀ f, (g f).file.name = f.file.name)
    (h : Distinct files) (i : Nat) : Distinct (files.modify i g) := by
  have hmap : (files.modify i g).map (·.file.name) = files.map (·.file.name) := by
    apply List.ext_getElem?
    intro j
    rw [List.getElem?_map, List.getElem?_map, List.getElem?_modify]
    cases files[j]? with
    | none => rfl
    | some f =>
      show some (if i = j then g f else f).file.name = some f.file.name
      split
      · rw [hname]
      · rfl
  unfold Distinct
  rw [hmap]
  exact h

theorem distinct_open (h : Distinct files) (filename : Bytes) (bufSize : Int) (canOpen : Bool) :
    Distinct (phlLogFileOpen files filename bufSize canOpen) := by
  unfold phlLogFileOpen
  split
  next i hi => exact distinct_modify (g := LineFile.ref) (fun _ => rfl) h i
  next hnone =>
    split
    · unfold Distinct
      rw [List.map_append]
      apply List.Nodup.append h (List.nodup_singleton _)
      intro name hname hnew
      obtain ⟨f, hf, rfl⟩ := List.mem_map.mp hname
      have hne := List.findIdx?_eq_none_iff.mp hnone f hf
      exact of_decide_eq_false hne (List.mem_singleton.mp hnew)
    · exact h

theorem ok_open (h : ∀ f ∈ files, f.Ok next) (filename : Bytes) {bufSize : Int}
    (hsize : 80 ≤ bufSize) (canOpen : Bool) :
    ∀ f ∈ phlLogFileOpen files filename bufSize canOpen, f.Ok next := by
  unfold phlLogFileOpen
  split
  next i hi =>
    refine forall_modify i h fun f hf => ?_
    exact ⟨hf.nodup, hf.below, hf.size, hf.pos, hf.empty⟩
  next =>
    split
    · intro f hf
      rcases List.mem_append.mp hf with hold | hnew
      · exact h f hold
      · obtain rfl := List.mem_singleton.mp hnew
        exact ⟨List.nodup_nil, nofun, Int.le_trans (by decide) hsize, Int.le_refl 0, fun _ => rfl⟩
    · exact h

end Ok

/-- What holds of all the processes: the trace accounts for the lines in their buffers. -/
structure Sound (w : LineWorld) : Prop where
  distinct : ∀ pr ∈ w.procs, Distinct pr.files
  files : ∀ pr ∈ w.procs, ∀ f ∈ pr.files, f.Ok w.next
  balanced : ∀ name, Balanced (w.boxes name) (ledger name w.trace)
  events : ∀ e ∈ w.trace, e.Ok
  puts : ∀ name, (puts (ledger name w.trace)).Nodup ∧
    ∀ l ∈ puts (ledger name w.trace), l < w.next

theorem start_sound : Sound .start where
  distinct := by
    intro pr hpr
    obtain rfl := List.mem_singleton.mp hpr
    exact List.nodup_nil
  files := by
    intro pr hpr
    obtain rfl := List.mem_singleton.mp hpr
    exact nofun
  balanced := by
    intro name
    apply Balanced.empty
    intro items hitems
    exact List.mem_singleton.mp hitems
  events := nofun
  puts := fun name => ⟨List.nodup_nil, nofun⟩

section Step

variable {w : LineWorld} {pr : Process} {p : Nat}

theorem box (hp : w.procs[p]? = some pr) (name : Bytes) :
    (w.boxes name)[p]? = some (pending name pr.files) := by
  unfold LineWorld.boxes
  rw [List.getElem?_map, hp]
  rfl

theorem forall_mem_set {α : Type*} {P : α → Prop} {l : List α} (h : ∀ b ∈ l, P b) {b : α}
    (hb : P b) (i : Nat) : ∀ c ∈ l.set i b, P c := by
  intro c hc
  rcases List.mem_or_eq_of_mem_set hc with hold | rfl
  · exact h c hold
  · exact hb

theorem puts_append (ledger more : List (Entry Nat)) :
    puts (ledger ++ more) = puts ledger ++ puts more := List.flatMap_append

/-- What a process does to its own files keeps the account, where each of its buffers changes as
its events say and the lines it writes are new. -/
theorem Sound.set (h : Sound w) (hp : w.procs[p]? = some pr) {next : Nat} (pr' : Process)
    (events : List LineEvent) (hnext : w.next ≤ next) (hdistinct : Distinct pr'.files)
    (hfiles : ∀ f ∈ pr'.files, f.Ok next) (hevents : ∀ e ∈ events, e.Ok)
    (hmoves : ∀ name, Moves p (pending name pr.files) (ledger name events) (pending name pr'.files))
    (hputs : ∀ name, (Outbox.puts (ledger name events)).Nodup ∧
      ∀ l ∈ Outbox.puts (ledger name events), w.next ≤ l ∧ l < next) :
    Sound ⟨w.procs.set p pr', next, w.trace ++ events⟩ where
  distinct := forall_mem_set h.distinct hdistinct p
  files := by
    refine forall_mem_set ?_ hfiles p
    exact fun q hq f hf => (h.files q hq f hf).mono hnext
  balanced := by
    intro name
    have hboxes : (⟨w.procs.set p pr', next, w.trace ++ events⟩ : LineWorld).boxes name =
        (w.boxes name).set p (pending name pr'.files) := List.map_set
    rw [hboxes, ledger_append]
    exact (h.balanced name).moves (hmoves name) (box hp name)
  events := List.forall_mem_append.mpr ⟨h.events, hevents⟩
  puts := by
    intro name
    obtain ⟨hold, hbelow⟩ := h.puts name
    obtain ⟨hnew, hfresh⟩ := hputs name
    dsimp only
    rw [ledger_append, puts_append]
    constructor
    · apply hold.append hnew
      intro l hl hl'
      exact Nat.lt_irrefl l (Nat.lt_of_lt_of_le (hbelow l hl) (hfresh l hl').1)
    · intro l hl
      rcases List.mem_append.mp hl with hl | hl
      · exact Nat.lt_of_lt_of_le (hbelow l hl) hnext
      · exact (hfresh l hl).2

/-- As `Sound.set`, where nothing is written. -/
theorem Sound.keep (h : Sound w) (hp : w.procs[p]? = some pr) (pr' : Process)
    (events : List LineEvent) (hdistinct : Distinct pr'.files)
    (hfiles : ∀ f ∈ pr'.files, f.Ok w.next)
    (hevents : ∀ e ∈ events, e.Ok)
    (hmoves : ∀ name, Moves p (pending name pr.files) (ledger name events) (pending name pr'.files))
    (hputs : ∀ name, Outbox.puts (ledger name events) = []) :
    Sound ⟨w.procs.set p pr', w.next, w.trace ++ events⟩ := by
  apply h.set hp pr' events (Nat.le_refl _) hdistinct hfiles hevents hmoves
  intro name
  rw [hputs name]
  exact ⟨List.nodup_nil, nofun⟩

theorem Sound.fork (h : Sound w) (hp : w.procs[p]? = some pr) :
    Sound ⟨w.procs ++ [pr], w.next, w.trace ++ [.forked p w.procs.length pr.files]⟩ where
  distinct := by
    have hpr := h.distinct pr (List.mem_of_getElem? hp)
    exact List.forall_mem_append.mpr ⟨h.distinct, List.forall_mem_singleton.mpr hpr⟩
  files := by
    have hpr := h.files pr (List.mem_of_getElem? hp)
    exact List.forall_mem_append.mpr ⟨h.files, List.forall_mem_singleton.mpr hpr⟩
  balanced := by
    intro name
    have hcopy := (h.balanced name).copy (box hp name)
    unfold LineWorld.boxes at hcopy ⊢
    rw [List.length_map] at hcopy
    rw [ledger_append, List.map_append]
    exact hcopy
  events := by
    have hpr := h.files pr (List.mem_of_getElem? hp)
    refine List.forall_mem_append.mpr ⟨h.events, List.forall_mem_singleton.mpr ?_⟩
    exact fun name => pending_nodup hpr name
  puts := by
    intro name
    have hnone : Outbox.puts (ledger name [.forked p w.procs.length pr.files]) = [] := rfl
    dsimp only
    rw [ledger_append, puts_append, hnone, List.append_nil]
    exact h.puts name

end Step

section Run

variable {w s t : LineWorld} {pr : Process} {p line : Nat} {a : LineAct} {name : Bytes}

theorem puts_handed {event : LineFile → LineEvent}
    (hevent : ∀ f, (event f).entries name = if f.file.name = name then [.took p f.lines] else [])
    (files : List LineFile) : Outbox.puts (ledger name (files.map event)) = [] := by
  rw [ledger_map name hevent]
  apply List.flatMap_eq_nil_iff.mpr
  intro e he
  obtain ⟨f, -, rfl⟩ := List.mem_map.mp he
  rfl

/-- A line that is written comes into one buffer, with the number that is next. -/
theorem puts_write (maxLine : Int) (stamp : TimeStamp) (len : Nat) (f : LineFile) :
    Outbox.puts (ledger name (phlLogFileVwrite p maxLine stamp len line f).2) =
      if f.file.name = name then [line] else [] := by
  unfold phlLogFileVwrite
  by_cases hname : f.file.name = name
  · split <;> simp [ledger, LineEvent.entries, Outbox.puts, Entry.puts, hname]
  · split <;> simp [ledger, LineEvent.entries, Outbox.puts, hname]

theorem Sound.act (h : Sound w) (hp : w.procs[a.process]? = some pr)
    (ha : processAct w pr a = some t) : Sound t := by
  have hpr := List.mem_of_getElem? hp
  have hdistinct := h.distinct pr hpr
  have hfiles := h.files pr hpr
  cases a with
  | openFile p filename bufSize canOpen =>
    obtain ⟨hsize, ht⟩ := Option.ite_none_right_eq_some.mp ha
    obtain rfl := Option.some.inj ht
    apply h.keep hp ⟨phlLogFileOpen pr.files filename bufSize canOpen, true⟩ []
    · exact distinct_open hdistinct filename bufSize canOpen
    · exact ok_open hfiles filename hsize canOpen
    · exact fun e he => absurd he List.not_mem_nil
    · intro name
      dsimp only
      rw [pending_open]
      exact .nil _
    · exact fun name => rfl
  | close p i =>
    obtain ⟨f, hf, rfl⟩ := Option.map_eq_some_iff.mp ha
    have hok := hfiles f (List.mem_of_getElem? hf)
    apply h.keep hp ⟨(phlLogFileClose p i f pr.files).1, true⟩ (phlLogFileClose p i f pr.files).2
    · unfold phlLogFileClose
      split
      · exact distinct_modify (g := LineFile.unref) (fun _ => rfl) hdistinct i
      · exact hdistinct.sublist ((List.eraseIdx_sublist _ i).map _)
    · unfold phlLogFileClose
      split
      · refine forall_modify i hfiles fun f hf => ?_
        exact ⟨hf.nodup, hf.below, hf.size, hf.pos, hf.empty⟩
      · exact fun g hg => hfiles g (List.mem_of_mem_eraseIdx hg)
    · unfold phlLogFileClose
      split
      · exact nofun
      · exact List.forall_mem_singleton.mpr hok.nodup
    · exact fun name => close_moves hdistinct hf
    · intro name
      unfold phlLogFileClose
      split
      · rfl
      · have hevent : ∀ g : LineFile, (LineEvent.dropped p g.file.name g.lines).entries name =
            if g.file.name = name then [.took p g.lines] else [] := fun _ => rfl
        exact puts_handed hevent [f]
  | write p i maxLine stamp len =>
    obtain ⟨f, hf, rfl⟩ := Option.map_eq_some_iff.mp ha
    have hok := hfiles f (List.mem_of_getElem? hf)
    have hname := vwrite_name p maxLine stamp len w.next f
    apply h.set hp ⟨pr.files.set i (phlLogFileVwrite p maxLine stamp len w.next f).1, true⟩
      (phlLogFileVwrite p maxLine stamp len w.next f).2 (Nat.le_succ _)
    · unfold Distinct
      rw [List.map_set, hname]
      obtain ⟨hlt, rfl⟩ := List.getElem?_eq_some_iff.mp hf
      have hset : (pr.files.map (·.file.name)).set i pr.files[i].file.name =
          pr.files.map (·.file.name) := by
        rw [← List.map_set, List.set_getElem_self]
      rw [hset]
      exact hdistinct
    · exact forall_mem_set (fun g hg => (hfiles g hg).mono (Nat.le_succ _))
        (hok.vwrite p maxLine stamp len) i
    · unfold phlLogFileVwrite
      split
      · exact List.forall_mem_cons.mpr ⟨hok.nodup, List.forall_mem_singleton.mpr trivial⟩
      · exact List.forall_mem_singleton.mpr trivial
    · exact fun name => write_moves hdistinct hf maxLine stamp len w.next
    · intro name
      rw [puts_write]
      split
      · exact ⟨List.nodup_singleton _, List.forall_mem_singleton.mpr
          ⟨Nat.le_refl _, Nat.lt_succ_self _⟩⟩
      · exact ⟨List.nodup_nil, nofun⟩
  | routine p =>
    obtain rfl := Option.some.inj ha
    apply h.keep hp ⟨(phlLogRoutine p pr.files).1, true⟩ (phlLogRoutine p pr.files).2
    · have hmap : (pr.files.map LineFile.flushed).map (·.file.name) =
          pr.files.map (·.file.name) := by
        rw [List.map_map]
        exact List.map_congr_left fun f _ => flushed_name f
      unfold Distinct phlLogRoutine
      rw [hmap]
      exact hdistinct
    · exact List.forall_mem_map.mpr fun f hf => (hfiles f hf).flushed
    · refine List.forall_mem_map.mpr fun f hf => ?_
      exact (hfiles f (List.mem_of_mem_filter hf)).nodup
    · exact fun name => routine_moves hdistinct
    · exact fun name => puts_handed (fun _ => rfl) _
  | fork p =>
    obtain rfl := Option.some.inj ha
    exact h.fork hp
  | exit p =>
    obtain rfl := Option.some.inj ha
    apply h.keep hp ⟨[], false⟩ (pr.files.map fun f => .dropped p f.file.name f.lines)
    · exact List.nodup_nil
    · exact fun f hf => absurd hf List.not_mem_nil
    · exact List.forall_mem_map.mpr fun f hf => (hfiles f hf).nodup
    · exact fun name => exit_moves hdistinct
    · exact fun name => puts_handed (fun _ => rfl) _

theorem Sound.step (h : Sound w) (ha : lineAct w a = some t) : Sound t := by
  obtain ⟨pr, hp, hrest⟩ := Option.bind_eq_some_iff.mp ha
  obtain ⟨-, hact⟩ := Option.ite_none_right_eq_some.mp hrest
  exact h.act hp hact

theorem Sound.runActs {acts : List LineAct} (h : Sound w) (hrun : runActs lineAct acts w = some s) :
    Sound s := by
  induction acts generalizing w with
  | nil =>
    obtain rfl := Option.some.inj hrun
    exact h
  | cons a acts ih =>
    obtain ⟨u, ha, hrest⟩ := Option.bind_eq_some_iff.mp hrun
    exact ih (h.step ha) hrest

/-- Of each event that may speak of a line, the ledger has as many copies as the event says. -/
theorem outs_count {trace : List LineEvent} (h : ∀ e ∈ trace, e.Ok) (name : Bytes) (line : Nat) :
    (outs (ledger name trace)).count line = trace.countP (·.ends name line) := by
  induction trace with
  | nil => rfl
  | cons e trace ih =>
    obtain ⟨he, hrest⟩ := List.forall_mem_cons.mp h
    have hone : (outs (e.entries name)).count line = if e.ends name line then 1 else 0 := by
      cases e with
      | wrote p n l =>
        by_cases hn : n = name
        · simp [LineEvent.entries, LineEvent.ends, outs, Entry.outs, hn]
        · simp [LineEvent.entries, LineEvent.ends, outs, hn]
      | handed p n lines =>
        have hcount := List.Nodup.count he (a := line)
        by_cases hn : n = name
        · simpa [LineEvent.entries, LineEvent.ends, outs, Entry.outs, hn] using hcount
        · simp [LineEvent.entries, LineEvent.ends, outs, hn]
      | dropped p n lines =>
        have hcount := List.Nodup.count he (a := line)
        by_cases hn : n = name
        · simpa [LineEvent.entries, LineEvent.ends, outs, Entry.outs, hn] using hcount
        · simp [LineEvent.entries, LineEvent.ends, outs, hn]
      | forked p q files => rfl
    have happend : outs (ledger name (e :: trace)) =
        outs (e.entries name) ++ outs (ledger name trace) := by
      unfold ledger outs
      rw [List.flatMap_cons, List.flatMap_append]
    rw [happend, List.count_append, hone, ih hrest, List.countP_cons, Nat.add_comm]

theorem copies_count {trace : List LineEvent} (h : ∀ e ∈ trace, e.Ok) (name : Bytes) (line : Nat) :
    (copies (ledger name trace)).count line = trace.countP (·.doubles name line) := by
  induction trace with
  | nil => rfl
  | cons e trace ih =>
    obtain ⟨he, hrest⟩ := List.forall_mem_cons.mp h
    have hone : (copies (e.entries name)).count line = if e.doubles name line then 1 else 0 := by
      cases e with
      | wrote p n l =>
        by_cases hn : n = name
        · simp [LineEvent.entries, LineEvent.doubles, copies, Entry.copies, hn]
        · simp [LineEvent.entries, LineEvent.doubles, copies, hn]
      | handed p n lines =>
        by_cases hn : n = name
        · simp [LineEvent.entries, LineEvent.doubles, copies, Entry.copies, hn]
        · simp [LineEvent.entries, LineEvent.doubles, copies, hn]
      | dropped p n lines =>
        by_cases hn : n = name
        · simp [LineEvent.entries, LineEvent.doubles, copies, Entry.copies, hn]
        · simp [LineEvent.entries, LineEvent.doubles, copies, hn]
      | forked p q files =>
        have hcount := List.Nodup.count (he name) (a := line)
        simpa [LineEvent.entries, LineEvent.doubles, copies, Entry.copies] using hcount
    have happend : copies (ledger name (e :: trace)) =
        copies (e.entries name) ++ copies (ledger name trace) := by
      unfold ledger copies
      rw [List.flatMap_cons, List.flatMap_append]
    rw [happend, List.count_append, hone, ih hrest, List.countP_cons, Nat.add_comm]

theorem held_count {procs : List Process}
    (h : ∀ pr ∈ procs, (pending name pr.files).Nodup) (line : Nat) :
    (procs.map fun pr => pending name pr.files).flatten.count line =
      procs.countP (·.holds name line) := by
  induction procs with
  | nil => rfl
  | cons pr procs ih =>
    obtain ⟨hpr, hrest⟩ := List.forall_mem_cons.mp h
    rw [List.map_cons, List.flatten_cons, List.count_append, ih hrest, hpr.count, List.countP_cons,
      Nat.add_comm]
    simp [Process.holds]

/-- A line is put into a buffer once. -/
theorem Sound.puts_count (h : Sound s) (hwrote : .wrote p name line ∈ s.trace) :
    (Outbox.puts (ledger name s.trace)).count line = 1 := by
  apply List.count_eq_one_of_mem (h.puts name).1
  refine List.mem_flatMap.mpr ⟨.put p line, ?_, List.mem_singleton_self line⟩
  have hentries : (LineEvent.wrote p name line).entries name = [.put p line] := if_pos rfl
  refine List.mem_flatMap.mpr ⟨_, hwrote, ?_⟩
  rw [hentries]
  exact List.mem_singleton_self _

/-- Whatever the processes do, each copy of a line that a log file's buffers held has been given to
`write` once, or dropped once, or is still waiting in the buffer of one process; and there are as
many copies as processes were forked while the forking one held the line, and one more. -/
theorem log_lines_counted {acts : List LineAct} (hrun : runActs lineAct acts .start = some s)
    (hwrote : .wrote p name line ∈ s.trace) :
    s.trace.countP (·.ends name line) + s.procs.countP (·.holds name line) =
      1 + s.trace.countP (·.doubles name line) := by
  have hs := start_sound.runActs hrun
  have hcount := (hs.balanced name).count_eq line
  have hheld := held_count (fun pr hpr => pending_nodup (hs.files pr hpr) name) line
  rw [outs_count hs.events, copies_count hs.events, hs.puts_count hwrote] at hcount
  unfold LineWorld.boxes at hcount
  rwa [hheld] at hcount

/-- The master writes a line before it forks two workers, and one of them comes to its routine. -/
def startLine : List LineAct :=
  [.openFile 0 (bytes "error.log") 4096 true, .write 0 0 80 shortStamp 6, .fork 0, .fork 0,
    .routine 1, .exit 2]

def startedWorkers : LineWorld :=
  (runActs lineAct startLine .start).getD .start

theorem log_lines_counted_start :
    startedWorkers.trace.countP (·.ends (bytes "error.log") 0) +
      startedWorkers.procs.countP (·.holds (bytes "error.log") 0) =
        1 + startedWorkers.trace.countP (·.doubles (bytes "error.log") 0) := by
  have hrun : runActs lineAct startLine .start = some startedWorkers := by
    with_unfolding_all rfl
  refine log_lines_counted (p := 0) hrun ?_
  exact List.mem_cons_self

/-- What has gone from a process's buffer of a file, and then what waits there, are in order the
lines that it was forked with and those that it has written since; and a round of
`phl_log_routine` leaves nothing waiting. -/
theorem log_lines_in_order {acts : List LineAct} (hrun : runActs lineAct acts .start = some s)
    (name : Bytes) :
    (∀ p pr, s.procs[p]? = some pr → brought p (ledger name s.trace) =
      gone p (ledger name s.trace) ++ pending name pr.files) ∧
    ∀ p t, lineAct s (.routine p) = some t →
      gone p (ledger name t.trace) = brought p (ledger name t.trace) := by
  have hs := start_sound.runActs hrun
  constructor
  · exact fun p pr hp => (hs.balanced name).order p _ (box hp name)
  · intro p t ht
    have hsound := hs.step ht
    obtain ⟨pr, hp, hrest⟩ := Option.bind_eq_some_iff.mp ht
    obtain ⟨-, hact⟩ := Option.ite_none_right_eq_some.mp hrest
    obtain rfl := Option.some.inj hact
    have hget : (s.setFiles p (phlLogRoutine p pr.files)).procs[p]? =
        some ⟨pr.files.map LineFile.flushed, true⟩ :=
      List.getElem?_set_self (List.getElem?_eq_some_iff.mp hp).1
    have hnone : pending name (pr.files.map LineFile.flushed) = [] := by
      unfold pending
      rw [fileOf_flushed]
      cases hf : fileOf name pr.files with
      | none => rfl
      | some f =>
        have hok := hs.files pr (List.mem_of_getElem? hp) f (List.mem_of_find?_eq_some hf)
        exact hok.flushed_lines
    have horder := (hsound.balanced name).order p _ (box hget name)
    rw [hnone, List.append_nil] at horder
    exact horder.symm

theorem log_lines_in_order_start : ∃ t, lineAct startedWorkers (.routine 0) = some t ∧
    gone 0 (ledger (bytes "error.log") t.trace) =
      brought 0 (ledger (bytes "error.log") t.trace) := by
  have hrun : runActs lineAct startLine .start = some startedWorkers := by
    with_unfolding_all rfl
  obtain ⟨t, ht⟩ : ∃ t, lineAct startedWorkers (.routine 0) = some t :=
    Option.isSome_iff_exists.mp (by with_unfolding_all rfl)
  exact ⟨t, ht, (log_lines_in_order hrun (bytes "error.log")).2 0 t ht⟩

end Run

end Phorklift.LogLines
