import Phorklift.Arena
import Phorklift.Bytes
import Phorklift.Transition

/-! The buffers of the log files. -/

namespace Phorklift

open Arena Transition

/-- `phl_log_file`, with the sizes that were passed to `vsnprintf` and the stores that were made,
both counted from `buffer` on. -/
structure LogFile where
  name : Bytes
  refs : Nat
  pos : Int
  bufSize : Int
  sizes : List Int
  stores : List Span
  deriving DecidableEq

/-- What `wuy_time_rfc3339` does: the bytes it stores and the length it returns. -/
structure TimeStamp where
  stored : Nat
  length : Nat
  length_le : length ≤ stored
  stored_le : stored ≤ 40

def phlLogFileFlush (file : LogFile) : LogFile := { file with pos := 0 }

/-- What `vsnprintf` returns for a line of `len` bytes. -/
def vsnprintfResult (len : Nat) : Int := if len < 2 ^ 31 then len else -1

def phlLogFileVwrite (file : LogFile) (maxLine : Int) (stamp : TimeStamp) (len : Nat) : LogFile :=
  let file := if file.bufSize - file.pos < maxLine then phlLogFileFlush file else file
  let blank := file.pos + stamp.length
  let text := blank + 1
  let size := file.bufSize - text - 1
  let pos := text + vsnprintfResult len
  let newline := if pos > file.bufSize - 1 then file.bufSize - 1 else pos
  { file with
    pos := newline + 1
    sizes := file.sizes ++ [size]
    stores := file.stores ++ [⟨file.pos, stamp.stored⟩, ⟨blank, 1⟩,
      ⟨text, (min (len + 1) (toSize size) : Nat)⟩, ⟨newline, 1⟩] }

/-- `phl_log_routine` for one file. -/
def phlLogRoutine (file : LogFile) : LogFile := if file.pos > 0 then phlLogFileFlush file else file

/-- The names in `PHL_LOG_LEVEL_TABLE`. -/
def phlLogLevels : List Bytes :=
  [bytes "debug", bytes "info", bytes "warn", bytes "error", bytes "fatal"]

def phlLogParseLevel (str : Bytes) : Option Nat := phlLogLevels.findIdx? (· = str)

/-- A log that is written: its file in the list of them, and its `max_line`. -/
structure Log where
  file : Nat
  maxLine : Int

structure OpenLogs where
  files : List LogFile
  logs : List Log

inductive LogTable
  | errorLog (levelStr : Bytes)
  | accessLog

structure LogConf where
  table : LogTable
  filename : Option Bytes
  bufSize : Int
  maxLine : Int
  bufSize_lt : bufSize < 2 ^ 31

/-- The file of the runtime's `error_log`, if there is a runtime, and what `open` creates. -/
structure LogSystem where
  runtimeErrorLog : Option Bytes
  canOpen : Bytes → Bool

def phlLogFileOpen (sys : LogSystem) (files : List LogFile) (filename : Bytes) (bufSize : Int) :
    Option (Nat × List LogFile) :=
  match files.findIdx? (·.name = filename) with
  | some i => some (i, files.modify i fun file => { file with refs := file.refs + 1 })
  | none =>
    if sys.canOpen filename then
      some (files.length, files ++ [⟨filename, 1, 0, bufSize, [], []⟩])
    else none

/-- What `phl_log_conf_post` makes of the `buffer_size`. -/
def logConfBufSize (log : LogConf) : Option Int :=
  if log.bufSize = 0 then some (16 * 1024)
  else if log.maxLine > log.bufSize then none
  else some log.bufSize

def phlLogConfPost (sys : LogSystem) (files : List LogFile) (levelStr : Bytes) (log : LogConf) :
    Option (Nat × List LogFile) := do
  let _ ← phlLogParseLevel levelStr
  let bufSize ← logConfBufSize log
  let filename := log.filename.getD (sys.runtimeErrorLog.getD (bytes "error.log"))
  phlLogFileOpen sys files filename bufSize

def phlConfPathAccessLogPost (sys : LogSystem) (files : List LogFile) (log : LogConf) :
    Option (Nat × List LogFile) :=
  if log.maxLine > log.bufSize then none
  else phlLogFileOpen sys files (log.filename.getD (bytes "access.log")) log.bufSize

/-- The limits of the table's commands, and then its `post`. -/
def LogConf.post (sys : LogSystem) (files : List LogFile) (log : LogConf) :
    Option (Nat × List LogFile) :=
  match log.table with
  | .errorLog levelStr =>
    if 0 ≤ log.bufSize ∧ 80 ≤ log.maxLine then phlLogConfPost sys files levelStr log else none
  | .accessLog => if 4 * 1024 ≤ log.bufSize then phlConfPathAccessLogPost sys files log else none

def openLog (sys : LogSystem) (s : OpenLogs) (log : LogConf) : Option OpenLogs :=
  (log.post sys s.files).map fun (file, files) => ⟨files, s.logs ++ [⟨file, log.maxLine⟩]⟩

inductive LogAct
  | write (log : Nat) (stamp : TimeStamp) (len : Nat)
  | flush

def logAct (s : OpenLogs) : LogAct → Option OpenLogs
  | .write i stamp len => s.logs[i]?.map fun log =>
    { s with
      files := s.files.modify log.file fun file => phlLogFileVwrite file log.maxLine stamp len }
  | .flush => some { s with files := s.files.map phlLogRoutine }

/-- `pos` is between the ends of the buffer, no size was negative and no store went outside. -/
structure LogFile.Fits (file : LogFile) : Prop where
  pos_nonneg : 0 ≤ file.pos
  pos_le : file.pos ≤ file.bufSize
  sizes : ∀ size ∈ file.sizes, 0 ≤ size
  stores : ∀ store ∈ file.stores, store.Within ⟨0, file.bufSize⟩

def OpenLogs.Fit (s : OpenLogs) : Prop := ∀ file ∈ s.files, file.Fits

/-- The bytes that are left for a line. -/
def LogFile.room (file : LogFile) (maxLine : Int) : Int :=
  if file.bufSize - file.pos < maxLine then file.bufSize else file.bufSize - file.pos

section Write

variable {file : LogFile} {maxLine : Int} {stamp : TimeStamp} {len : Nat}

theorem phlLogFileFlush_fits (h : file.Fits) : (phlLogFileFlush file).Fits where
  pos_nonneg := Int.le_refl 0
  pos_le := Int.le_trans h.pos_nonneg h.pos_le
  sizes := h.sizes
  stores := h.stores

theorem phlLogRoutine_fits (h : file.Fits) : (phlLogRoutine file).Fits := by
  unfold phlLogRoutine
  split
  · exact phlLogFileFlush_fits h
  · exact h

theorem vsnprintfResult_bounds (len : Nat) :
    -1 ≤ vsnprintfResult len ∧ vsnprintfResult len ≤ len := by
  unfold vsnprintfResult
  split
  · omega
  · omega

theorem toSize_le {size : Int} (h : 0 ≤ size) : (toSize size : Int) ≤ size := by
  unfold toSize
  have hmod : size % 2 ^ 64 ≤ size := by omega
  have hnonneg : 0 ≤ size % 2 ^ 64 := by omega
  omega

/-- A write stays in its buffer where the stamp, the blank and the line's end find room. -/
theorem phlLogFileVwrite_fits_iff (h : file.Fits) :
    (phlLogFileVwrite file maxLine stamp len).Fits ↔
      stamp.stored ≤ file.room maxLine ∧ stamp.length + 2 ≤ file.room maxLine := by
  have hroom : file.room maxLine =
      (if file.bufSize - file.pos < maxLine then phlLogFileFlush file else file).bufSize -
        (if file.bufSize - file.pos < maxLine then phlLogFileFlush file else file).pos := by
    unfold LogFile.room phlLogFileFlush
    split
    · simp
    · rfl
  have hfits : (if file.bufSize - file.pos < maxLine then phlLogFileFlush file else file).Fits := by
    split
    · exact phlLogFileFlush_fits h
    · exact h
  rw [hroom]
  unfold phlLogFileVwrite
  generalize (if file.bufSize - file.pos < maxLine then phlLogFileFlush file else file) = file
    at hfits ⊢
  have hlow := hfits.pos_nonneg
  have hret := vsnprintfResult_bounds len
  have hle := stamp.length_le
  dsimp only
  constructor
  · intro hafter
    have hsize := hafter.sizes _ (List.mem_append_right _ List.mem_cons_self)
    have hstamp := (hafter.stores _ (List.mem_append_right _ List.mem_cons_self)).2
    dsimp only at hsize hstamp
    omega
  · rintro ⟨hstored, hlength⟩
    have hnonneg : 0 ≤ file.bufSize - (file.pos + stamp.length + 1) - 1 := by omega
    have htext := toSize_le hnonneg
    constructor
    · dsimp only
      split <;> omega
    · dsimp only
      split <;> omega
    · intro size hmem
      rcases List.mem_append.mp hmem with hold | hnew
      · exact hfits.sizes size hold
      · obtain rfl := List.mem_singleton.mp hnew
        exact hnonneg
    · intro store hmem
      rcases List.mem_append.mp hmem with hold | hnew
      · exact hfits.stores store hold
      simp only [List.mem_cons, List.not_mem_nil, or_false] at hnew
      unfold Span.Within
      rcases hnew with rfl | rfl | rfl | rfl
      · dsimp only
        omega
      · dsimp only
        omega
      · dsimp only
        omega
      · dsimp only
        split <;> omega

end Write

/-- As `phl_log_file_open` leaves it, with a size that a post function takes. -/
structure LogFile.Fresh (file : LogFile) : Prop where
  pos : file.pos = 0
  sizes : file.sizes = []
  stores : file.stores = []
  size_le : 80 ≤ file.bufSize
  size_lt : file.bufSize < 2 ^ 31

theorem LogFile.Fresh.fits {file : LogFile} (h : file.Fresh) : file.Fits where
  pos_nonneg := by
    have hpos := h.pos
    omega
  pos_le := by
    have hpos := h.pos
    have hsize := h.size_le
    omega
  sizes := by
    rw [h.sizes]
    exact nofun
  stores := by
    rw [h.stores]
    exact nofun

structure OpenLogs.Fresh (s : OpenLogs) : Prop where
  files : ∀ file ∈ s.files, file.Fresh
  logs : ∀ log ∈ s.logs, log.file < s.files.length

section Open

variable {sys : LogSystem} {files files' : List LogFile} {filename : Bytes} {bufSize : Int} {i : Nat}

theorem forall_modify {α : Type*} {p : α → Prop} {f : α → α} {l : List α} (i : Nat)
    (h : ∀ a ∈ l, p a) (hf : ∀ a, p a → p (f a)) : ∀ a ∈ l.modify i f, p a := by
  induction l generalizing i with
  | nil =>
    rw [List.modify_nil]
    exact h
  | cons a l ih =>
    have hhead := h a List.mem_cons_self
    have htail : ∀ b ∈ l, p b := fun b hb => h b (List.mem_cons_of_mem a hb)
    intro b hb
    cases i with
    | zero =>
      rcases List.mem_cons.mp hb with rfl | hb
      · exact hf a hhead
      · exact htail b hb
    | succ i =>
      rcases List.mem_cons.mp hb with rfl | hb
      · exact hhead
      · exact ih i htail b hb

theorem phlLogFileOpen_fresh (h : phlLogFileOpen sys files filename bufSize = some (i, files'))
    (hsize : 80 ≤ bufSize ∧ bufSize < 2 ^ 31) (hfiles : ∀ file ∈ files, file.Fresh) :
    (∀ file ∈ files', file.Fresh) ∧ i < files'.length ∧ files.length ≤ files'.length := by
  unfold phlLogFileOpen at h
  split at h
  next j hj =>
    cases h
    obtain ⟨hlt, -, -⟩ := List.findIdx?_eq_some_iff_getElem.mp hj
    rw [List.length_modify]
    refine ⟨forall_modify i hfiles fun file hfile => ?_, hlt, Nat.le_refl _⟩
    exact ⟨hfile.pos, hfile.sizes, hfile.stores, hfile.size_le, hfile.size_lt⟩
  next =>
    split at h
    next =>
      cases h
      rw [List.length_append]
      refine ⟨fun file hfile => ?_, Nat.lt_add_one _, Nat.le_add_right _ _⟩
      rcases List.mem_append.mp hfile with hold | hnew
      · exact hfiles file hold
      · obtain rfl := List.mem_singleton.mp hnew
        exact ⟨rfl, rfl, rfl, hsize.1, hsize.2⟩
    next => cases h

/-- A table that is accepted opens a file of a size in the limits. -/
theorem post_opens {log : LogConf} (h : log.post sys files = some (i, files')) :
    (∃ filename bufSize, phlLogFileOpen sys files filename bufSize = some (i, files') ∧
      80 ≤ bufSize ∧ bufSize < 2 ^ 31) ∧ (log.table = .accessLog ∨ 80 ≤ log.maxLine) := by
  have hlt := log.bufSize_lt
  unfold LogConf.post at h
  split at h
  next levelStr _ =>
    split at h
    next hlimits =>
      refine ⟨?_, .inr hlimits.2⟩
      obtain ⟨-, -, h⟩ := Option.bind_eq_some_iff.mp h
      obtain ⟨size, hsize, hopen⟩ := Option.bind_eq_some_iff.mp h
      refine ⟨_, size, hopen, ?_⟩
      unfold logConfBufSize at hsize
      split at hsize
      · cases hsize
        omega
      · split at hsize
        · cases hsize
        · cases hsize
          omega
    next => cases h
  next htable =>
    refine ⟨?_, .inl htable⟩
    split at h
    next hlimits =>
      unfold phlConfPathAccessLogPost at h
      split at h
      · cases h
      · exact ⟨_, _, h, by omega, hlt⟩
    next => cases h

theorem openLog_fresh {s t : OpenLogs} {log : LogConf} (h : openLog sys s log = some t)
    (hs : s.Fresh) :
    t.Fresh ∧ (∃ i, t.logs = s.logs ++ [⟨i, log.maxLine⟩]) ∧
      (log.table = .accessLog ∨ 80 ≤ log.maxLine) := by
  unfold openLog at h
  obtain ⟨⟨i, files⟩, hpost, rfl⟩ := Option.map_eq_some_iff.mp h
  obtain ⟨⟨filename, bufSize, hopen, hsize⟩, htable⟩ := post_opens hpost
  obtain ⟨hfresh, hi, hlen⟩ := phlLogFileOpen_fresh hopen hsize hs.files
  refine ⟨⟨hfresh, fun l hl => ?_⟩, ⟨i, rfl⟩, htable⟩
  rcases List.mem_append.mp hl with hold | hnew
  · exact Nat.lt_of_lt_of_le (hs.logs l hold) hlen
  · obtain rfl := List.mem_singleton.mp hnew
    exact hi

/-- The logs that are opened have the `max_line` of their tables. -/
theorem openLogs_fresh {confs : List LogConf} {s t : OpenLogs}
    (h : runActs (openLog sys) confs s = some t) (hs : s.Fresh) :
    t.Fresh ∧ t.logs.map Log.maxLine = s.logs.map Log.maxLine ++ confs.map LogConf.maxLine ∧
      ∀ conf ∈ confs, conf.table = .accessLog ∨ 80 ≤ conf.maxLine := by
  induction confs generalizing s with
  | nil =>
    obtain rfl := Option.some.inj h
    refine ⟨hs, (List.append_nil _).symm, ?_⟩
    exact fun conf hconf => absurd hconf List.not_mem_nil
  | cons conf confs ih =>
    obtain ⟨u, hopen, hrest⟩ := Option.bind_eq_some_iff.mp h
    obtain ⟨hu, ⟨i, hlogs⟩, htable⟩ := openLog_fresh hopen hs
    obtain ⟨ht, hmap, htables⟩ := ih hrest hu
    refine ⟨ht, ?_, List.forall_mem_cons.mpr ⟨htable, htables⟩⟩
    rw [hmap, hlogs, List.map_append, List.append_assoc]
    rfl

end Open

theorem logAct_keeps {s t : OpenLogs} {a : LogAct} (h : logAct s a = some t)
    (hfiles : ∀ file ∈ s.files, 80 ≤ file.bufSize ∧ file.Fits)
    (hlogs : ∀ log ∈ s.logs, 42 ≤ log.maxLine) :
    (∀ file ∈ t.files, 80 ≤ file.bufSize ∧ file.Fits) ∧ ∀ log ∈ t.logs, 42 ≤ log.maxLine := by
  cases a with
  | write i stamp len =>
    obtain ⟨log, hlog, rfl⟩ := Option.map_eq_some_iff.mp h
    have hline := hlogs log (List.mem_of_getElem? hlog)
    refine ⟨forall_modify _ hfiles fun file ⟨hsize, hfits⟩ => ?_, hlogs⟩
    have hroom : 42 ≤ file.room log.maxLine := by
      unfold LogFile.room
      split <;> omega
    have hstored := stamp.stored_le
    have hlength := stamp.length_le
    constructor
    · unfold phlLogFileVwrite phlLogFileFlush
      split <;> exact hsize
    · exact (phlLogFileVwrite_fits_iff hfits).mpr (by omega)
  | flush =>
    cases h
    refine ⟨List.forall_mem_map.mpr fun file hfile => ?_, hlogs⟩
    obtain ⟨hsize, hfits⟩ := hfiles file hfile
    constructor
    · unfold phlLogRoutine phlLogFileFlush
      split <;> exact hsize
    · exact phlLogRoutine_fits hfits

theorem logAct_write {s : OpenLogs} {log : Log} {file : LogFile} {i : Nat}
    (hlog : s.logs[i]? = some log) (hfile : s.files[log.file]? = some file) (stamp : TimeStamp)
    (len : Nat) :
    ∃ t, logAct s (.write i stamp len) = some t ∧ t.logs = s.logs ∧
      t.files[log.file]? = some (phlLogFileVwrite file log.maxLine stamp len) := by
  refine ⟨_, Option.map_eq_some_iff.mpr ⟨log, hlog, rfl⟩, rfl, ?_⟩
  rw [List.getElem?_modify_eq, hfile]
  rfl

/-- A log with a smaller `max_line` leaves room for fewer bytes than a stamp needs. -/
theorem write_overruns {s : OpenLogs} {log : Log} {i : Nat} (hs : s.Fresh)
    (hlog : s.logs[i]? = some log) (hline : log.maxLine < 42) :
    ∃ acts, ¬ActsKeep logAct OpenLogs.Fit acts s := by
  obtain ⟨file, hfile⟩ : ∃ file, s.files[log.file]? = some file :=
    ⟨_, List.getElem?_eq_getElem (hs.logs log (List.mem_of_getElem? hlog))⟩
  have hfresh := hs.files file (List.mem_of_getElem? hfile)
  have hpos := hfresh.pos
  have hsize := hfresh.size_le
  have hlt := hfresh.size_lt
  -- The first line leaves 41 bytes.
  have hlen : ∃ len : Nat, (len : Int) = file.bufSize - 68 := ⟨_, Int.toNat_of_nonneg (by omega)⟩
  obtain ⟨len, hlen⟩ := hlen
  let first : TimeStamp := ⟨26, 25, by decide, by decide⟩
  let second : TimeStamp := ⟨40, 40, by decide, by decide⟩
  refine ⟨[.write i first len, .write i second 0], fun hkeep => ?_⟩
  obtain ⟨t, ht, htlogs, htfile⟩ := logAct_write hlog hfile first len
  rw [← htlogs] at hlog
  obtain ⟨u, hu, -, hufile⟩ := logAct_write hlog htfile second 0
  have hfirst := (hkeep.2 t ht).1 _ (List.mem_of_getElem? htfile)
  have hsecond := (hkeep.2 t ht).2 u hu _ (List.mem_of_getElem? hufile)
  have hroom : (phlLogFileVwrite file log.maxLine first len).room log.maxLine = 41 := by
    have hresult : vsnprintfResult len = len := if_pos (by omega)
    have hflush : ¬file.bufSize - file.pos < log.maxLine := by omega
    unfold LogFile.room phlLogFileVwrite
    rw [if_neg hflush, hresult]
    dsimp only [first]
    split <;> split <;> omega
  have hfit := ((phlLogFileVwrite_fits_iff hfirst).mp hsecond).2
  rw [hroom] at hfit
  exact absurd hfit (by decide)

theorem logs_keep_iff {s : OpenLogs} (hs : s.Fresh) :
    (∀ acts, ActsKeep logAct OpenLogs.Fit acts s) ↔ ∀ log ∈ s.logs, 42 ≤ log.maxLine := by
  constructor
  · intro hkeep log hlog
    obtain ⟨i, hi⟩ := List.getElem?_of_mem hlog
    apply Int.not_lt.mp
    intro hline
    obtain ⟨acts, hacts⟩ := write_overruns hs hi hline
    exact hacts (hkeep acts)
  · intro hlogs acts
    have hstart : (∀ file ∈ s.files, 80 ≤ file.bufSize ∧ file.Fits) ∧
        ∀ log ∈ s.logs, 42 ≤ log.maxLine :=
      ⟨fun file hfile => ⟨(hs.files file hfile).size_le, (hs.files file hfile).fits⟩, hlogs⟩
    exact actsKeep_of_invariant (fun s hs file hfile => (hs.1 file hfile).2)
      (fun s a t hs h => logAct_keeps h hs.1 hs.2) acts hstart

theorem noLogs_fresh : OpenLogs.Fresh ⟨[], []⟩ where
  files := nofun
  logs := nofun

/-- Every run of the logs of a configuration stays in the buffers exactly where each `access_log`
keeps room for a stamp, as the limit on `max_line` does for an `error_log`. -/
theorem log_buffers_iff {sys : LogSystem} {confs : List LogConf} {s : OpenLogs}
    (h : runActs (openLog sys) confs ⟨[], []⟩ = some s) :
    (∀ acts, ActsKeep logAct OpenLogs.Fit acts s) ↔
      ∀ conf ∈ confs, conf.table = .accessLog → 42 ≤ conf.maxLine := by
  obtain ⟨hfresh, hmap, htables⟩ := openLogs_fresh h noLogs_fresh
  have hlogs : (∀ log ∈ s.logs, 42 ≤ log.maxLine) ↔ ∀ conf ∈ confs, 42 ≤ conf.maxLine := by
    rw [← List.forall_mem_map (f := Log.maxLine) (P := fun n => 42 ≤ n), hmap]
    exact List.forall_mem_map
  rw [logs_keep_iff hfresh, hlogs]
  refine forall₂_congr fun conf hconf => ⟨fun hline _ => hline, fun hline => ?_⟩
  rcases htables conf hconf with haccess | herror
  · exact hline haccess
  · omega

theorem bufferSize_lt : (16 * 1024 : Int) < 2 ^ 31 := by decide

/-- An `error_log` with its defaults, and an `access_log` with the `max_line` in the same file. -/
def sharedLogs (maxLine : Int) : List LogConf :=
  [⟨.errorLog (bytes "error"), none, 16 * 1024, 4 * 1024, bufferSize_lt⟩,
    ⟨.accessLog, some (bytes "error.log"), 16 * 1024, maxLine, bufferSize_lt⟩]

theorem log_buffers_iff_shared :
    (∀ acts, ActsKeep logAct OpenLogs.Fit acts
      ⟨[⟨bytes "error.log", 2, 0, 16 * 1024, [], []⟩], [⟨0, 4 * 1024⟩, ⟨0, 2 * 1024⟩]⟩) ↔
      ∀ conf ∈ sharedLogs (2 * 1024), conf.table = .accessLog → 42 ≤ conf.maxLine :=
  @log_buffers_iff ⟨none, fun _ => true⟩ (sharedLogs (2 * 1024)) _ (by with_unfolding_all rfl)

def shortStamp : TimeStamp := ⟨26, 25, Nat.le_succ 25, Nat.le_add_right 26 14⟩

/-- With a `max_line` of 0 a full buffer is not flushed, and the second line is stored behind it. -/
theorem zero_max_line_overruns :
    ∃ s t, runActs (openLog ⟨none, fun _ => true⟩) (sharedLogs 0) ⟨[], []⟩ = some s ∧
      runActs logAct [.write 1 shortStamp 16332, .write 1 shortStamp 100] s = some t ∧
      (∃ file ∈ t.files, ⟨16385, 101⟩ ∈ file.stores ∧ file.bufSize = 16384) ∧ ¬t.Fit := by
  have hopen : runActs (openLog ⟨none, fun _ => true⟩) (sharedLogs 0) ⟨[], []⟩ =
      some ⟨[⟨bytes "error.log", 2, 0, 16384, [], []⟩], [⟨0, 4 * 1024⟩, ⟨0, 0⟩]⟩ := by
    with_unfolding_all rfl
  have hrun : runActs logAct [.write 1 shortStamp 16332, .write 1 shortStamp 100]
      ⟨[⟨bytes "error.log", 2, 0, 16384, [], []⟩], [⟨0, 4 * 1024⟩, ⟨0, 0⟩]⟩ =
      some ⟨[⟨bytes "error.log", 2, 16384, 16384, [16357, -2],
        [⟨0, 26⟩, ⟨25, 1⟩, ⟨26, 16333⟩, ⟨16358, 1⟩,
          ⟨16359, 26⟩, ⟨16384, 1⟩, ⟨16385, 101⟩, ⟨16383, 1⟩]⟩],
        [⟨0, 4 * 1024⟩, ⟨0, 0⟩]⟩ := by
    with_unfolding_all rfl
  refine ⟨_, _, hopen, hrun, ⟨_, List.mem_cons_self, by simp, rfl⟩, fun hfit => ?_⟩
  have hsizes := (hfit _ List.mem_cons_self).sizes (-2) (by simp)
  exact absurd hsizes (by decide)

end Phorklift
