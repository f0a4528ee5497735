import Phorklift.CacheDirs
import Phorklift.Generations
import Phorklift.Transition

/-! A cache directory over the renewals of its current subdirectory, and over restarts that scan it
again. -/

namespace Phorklift

open Transition TopTwo Generations

deriving instance DecidableEq for CacheEntry

/-- The subdirectory that `phl_file_cache_new_dir` makes. -/
def newDirEntry (ts : Nat) : CacheEntry := ⟨bytes "P_" ++ decimal ts, 4, true, by simp⟩

/-- `phl_file_cache_new_dir`, once `mkdirat` and `openat` have succeeded -/
def phlFileCacheNewDir (ts : Nat) (s : CacheScan) : CacheScan :=
  { s.deleteLastDir with
    opened := s.opened ++ [newDirEntry ts]
    lastDirfd := s.currentDirfd
    currentDirfd := s.opened.length + 1
    lastDirname := s.currentDirname
    currentDirname := s.names + 1
    names := s.names + 1 }

/-- The cache directory and the configuration that uses it. -/
structure CacheHome where
  /-- `time(NULL)` -/
  now : Nat
  /-- the timestamps of its subdirectories -/
  dirs : List Nat
  /-- the inode of a name in a subdirectory -/
  files : Nat → Bytes → Option Nat
  nextInode : Nat
  scan : CacheScan

inductive DirAct
  | tick (now : Nat)
  /-- `phl_file_cache_renew_period`; `fails` where a call fails -/
  | renew (fails : Bool)
  /-- the look-up of `phl_file_cache_filter_process_headers`; `moves` is the result of
  `phl_file_cache_rename_file` -/
  | lookup (filename : Bytes) (moves : Bool)
  /-- `phl_file_cache_create_file` -/
  | store (filename : Bytes) (fails : Bool)
  /-- `unlinkat` of an expired or an aborted item -/
  | unlink (filename : Bytes)
  /-- `phl_file_cache_conf_post` of the next configuration, with what `readdir` yields -/
  | restart (es : List CacheEntry)

namespace CacheHome

/-- The timestamp of the subdirectory that a descriptor refers to. -/
def dirOf (s : CacheHome) (fd : Nat) : Option Nat :=
  (s.scan.refers fd).map fun e => e.timestamp.toNat

def current (s : CacheHome) : Option Nat := s.dirOf s.scan.currentDirfd

/-- No subdirectory for `last_dirfd` 0. -/
def last (s : CacheHome) : Option Nat := s.dirOf s.scan.lastDirfd

def file (s : CacheHome) (dir : Option Nat) (filename : Bytes) : Option Nat :=
  dir.bind fun ts => s.files ts filename

def setFile (dir : Option Nat) (filename : Bytes) (inode : Option Nat) (s : CacheHome) :
    CacheHome :=
  match dir with
  | none => s
  | some ts =>
    { s with files := Function.update s.files ts (Function.update (s.files ts) filename inode) }

/-- `phl_file_cache_new_dir` in a directory where the subdirectory may exist already -/
def newDir (s : CacheHome) : CacheHome :=
  { s with
    dirs := if s.now ∈ s.dirs then s.dirs else s.dirs ++ [s.now]
    scan := phlFileCacheNewDir s.now s.scan }

/-- An empty cache directory after `phl_file_cache_conf_post`. -/
def start (now : Nat) : CacheHome := newDir ⟨now, [], fun _ _ => none, 0, .init⟩

/-- What the look-up finds. -/
def Hits (s : CacheHome) (filename : Bytes) : Prop :=
  (s.file s.current filename).isSome = true ∨ (s.file s.last filename).isSome = true

end CacheHome

def dirAct (s : CacheHome) : DirAct → Option CacheHome
  | .tick now => if s.now ≤ now ∧ (now : Int) ≤ longMax then some { s with now := now } else none
  | .renew fails => some (if fails then s else s.newDir)
  | .lookup filename moves =>
    if (s.file s.current filename).isSome = false ∧ (s.file s.last filename).isSome = true ∧
        moves = true then
      some ((s.setFile s.last filename none).setFile s.current filename (s.file s.last filename))
    else some s
  | .store filename fails =>
    if fails = true ∨ (s.file s.current filename).isSome = true then some s
    else some { s.setFile s.current filename (some s.nextInode) with nextInode := s.nextInode + 1 }
  | .unlink filename => some (s.setFile s.current filename none)
  | .restart es =>
    if (es.filter CacheEntry.taken).Perm (s.dirs.map newDirEntry) then
      (cacheScan es).map fun scan =>
        let s := { s with scan := scan }
        if scan.currentDirfd = 0 then s.newDir else s
    else none

namespace CacheHome

/-- The timer comes in a later second than the last renewal. -/
def Later (s : CacheHome) : DirAct → Prop
  | .renew false => ∀ ts, s.current = some ts → ts < s.now
  | _ => True

instance (s : CacheHome) : (a : DirAct) → Decidable (s.Later a)
  | .renew false => inferInstanceAs (Decidable (∀ ts ∈ s.current, ts < s.now))
  | .renew true | .tick _ | .lookup _ _ | .store _ _ | .unlink _ | .restart _ =>
    inferInstanceAs (Decidable True)

/-- The descriptors refer to the two subdirectories with the largest timestamps. -/
def Newest (s : CacheHome) : Prop :=
  Leaders CacheEntry.timestamp (s.dirs.map newDirEntry) s.scan.dirs

structure Sound (s : CacheHome) : Prop where
  valid : s.scan.Valid
  nodup : s.dirs.Nodup
  nonempty : s.dirs ≠ []
  pos : ∀ ts ∈ s.dirs, 0 < ts ∧ ts ≤ s.now
  bound : (s.now : Int) ≤ longMax
  files : ∀ ts, ts ∉ s.dirs → ∀ filename, s.files ts filename = none
  current_mem : ∃ ts ∈ s.dirs, s.scan.dirs.1 = some (newDirEntry ts)
  last_mem : ∀ e, s.scan.dirs.2 = some e → ∃ ts ∈ s.dirs, e = newDirEntry ts

end CacheHome

theorem newDirEntry_timestamp {ts : Nat} (h : (ts : Int) ≤ longMax) :
    (newDirEntry ts).timestamp = ts := by
  unfold CacheEntry.timestamp newDirEntry
  rw [scanTimestamp_decimal h]
  rfl

namespace CacheScan

variable {s : CacheScan} {ts : Nat}

theorem newDir_valid (h : s.Valid) (ts : Nat) : (phlFileCacheNewDir ts s).Valid := by
  have hshift := h.shift (newDirEntry ts)
  exact ⟨hshift.names, hshift.freed, hshift.current_name, hshift.last_name, hshift.current_le,
    hshift.last_le, hshift.apart, hshift.closed, hshift.count⟩

theorem newDir_dirs (h : s.Valid) (ts : Nat) :
    (phlFileCacheNewDir ts s).dirs = (some (newDirEntry ts), s.dirs.1) := by
  have hlast : (phlFileCacheNewDir ts s).refers s.currentDirfd = s.refers s.currentDirfd :=
    refers_append (newDirEntry ts) h.current_le rfl
  have hcurrent : (phlFileCacheNewDir ts s).refers (s.opened.length + 1) = some (newDirEntry ts) :=
    refers_new (newDirEntry ts) rfl
  exact Prod.ext hcurrent hlast

end CacheScan

namespace CacheHome

variable {s t : CacheHome} {a : DirAct} {es : List CacheEntry} {scan : CacheScan}

theorem current_eq : s.current = s.scan.dirs.1.map fun e => e.timestamp.toNat := rfl

theorem last_eq : s.last = s.scan.dirs.2.map fun e => e.timestamp.toNat := rfl

theorem Sound.le_longMax (h : s.Sound) {ts : Nat} (hts : ts ∈ s.dirs) : (ts : Int) ≤ longMax := by
  have hpos := (h.pos ts hts).2
  have hbound := h.bound
  omega

theorem Sound.timestamp (h : s.Sound) {ts : Nat} (hts : ts ∈ s.dirs) :
    (newDirEntry ts).timestamp = ts := newDirEntry_timestamp (h.le_longMax hts)

/-- The subdirectories differ by their timestamps. -/
theorem Sound.injective (h : s.Sound) : ∀ a ∈ s.dirs.map newDirEntry, ∀ b ∈ s.dirs.map newDirEntry,
    a.timestamp = b.timestamp → a = b := by
  intro a ha b hb heq
  obtain ⟨ts, hts, rfl⟩ := List.mem_map.mp ha
  obtain ⟨ts', hts', rfl⟩ := List.mem_map.mp hb
  rw [h.timestamp hts, h.timestamp hts'] at heq
  rw [Int.natCast_inj.mp heq]

theorem Sound.entries_nodup (h : s.Sound) : (s.dirs.map newDirEntry).Nodup := by
  apply List.Nodup.map_on _ h.nodup
  intro ts hts ts' hts' heq
  have htimestamp := congrArg CacheEntry.timestamp heq
  rw [h.timestamp hts, h.timestamp hts'] at htimestamp
  exact Int.natCast_inj.mp htimestamp

theorem Sound.current (h : s.Sound) : ∃ ts ∈ s.dirs, s.current = some ts := by
  obtain ⟨ts, hts, hdirs⟩ := h.current_mem
  refine ⟨ts, hts, ?_⟩
  rw [current_eq, hdirs, Option.map_some, h.timestamp hts, Int.toNat_natCast]

theorem Sound.last (h : s.Sound) {ts : Nat} (hlast : s.last = some ts) : ts ∈ s.dirs := by
  rw [last_eq, Option.map_eq_some_iff] at hlast
  obtain ⟨e, he, rfl⟩ := hlast
  obtain ⟨ts, hts, rfl⟩ := h.last_mem e he
  rw [h.timestamp hts, Int.toNat_natCast]
  exact hts

/-- A scan finds the two newest subdirectories in any order of the entries. -/
theorem scan_newest (h : s.Sound)
    (hperm : (es.filter CacheEntry.taken).Perm (s.dirs.map newDirEntry))
    (hscan : cacheScan es = some scan) :
    scan.Valid ∧ Leaders CacheEntry.timestamp (s.dirs.map newDirEntry) scan.dirs := by
  have htracks := CacheScan.cacheScan_tracks hscan
  refine ⟨htracks.valid, ?_⟩
  rw [htracks.dirs]
  exact (lead_leaders (hperm.nodup_iff.mpr h.entries_nodup)
    fun e he => CacheScan.taken_pos (List.mem_filter.mp he).2).perm hperm

/-- A scan is not stopped where all that it takes are subdirectories. -/
theorem scan_ends (hperm : (es.filter CacheEntry.taken).Perm (s.dirs.map newDirEntry)) :
    ∃ scan, cacheScan es = some scan := by
  apply (CacheScan.cacheScan_iff es).mpr
  rintro pre e post rfl he hdir
  have hmem : e ∈ s.dirs.map newDirEntry := hperm.mem_iff.mp (List.mem_filter.mpr ⟨by simp, he⟩)
  obtain ⟨ts, -, rfl⟩ := List.mem_map.mp hmem
  cases hdir

theorem setFile_scan (dir : Option Nat) (filename : Bytes) (inode : Option Nat) :
    (s.setFile dir filename inode).scan = s.scan ∧ (s.setFile dir filename inode).dirs = s.dirs ∧
      (s.setFile dir filename inode).now = s.now := by
  cases dir with
  | none => exact ⟨rfl, rfl, rfl⟩
  | some ts => exact ⟨rfl, rfl, rfl⟩

theorem setFile_current (dir : Option Nat) (filename : Bytes) (inode : Option Nat) :
    (s.setFile dir filename inode).current = s.current := by
  rw [current_eq, (setFile_scan dir filename inode).1]
  rfl

theorem setFile_last (dir : Option Nat) (filename : Bytes) (inode : Option Nat) :
    (s.setFile dir filename inode).last = s.last := by
  rw [last_eq, (setFile_scan dir filename inode).1]
  rfl

theorem setFile_files {dir : Option Nat} {ts : Nat} (hdir : dir ≠ some ts) (filename : Bytes)
    (inode : Option Nat) (name : Bytes) :
    (s.setFile dir filename inode).files ts name = s.files ts name := by
  cases dir with
  | none => rfl
  | some ts' =>
    have hne : ts ≠ ts' := fun heq => hdir (by rw [heq])
    simp [setFile, Function.update_of_ne hne]

theorem Sound.setFile (h : s.Sound) {dir : Option Nat} (hdir : ∀ ts, dir = some ts → ts ∈ s.dirs)
    (filename : Bytes) (inode : Option Nat) : (s.setFile dir filename inode).Sound := by
  obtain ⟨hscan, hdirs, hnow⟩ := @setFile_scan s dir filename inode
  constructor
  · rw [hscan]
    exact h.valid
  · rw [hdirs]
    exact h.nodup
  · rw [hdirs]
    exact h.nonempty
  · rw [hdirs, hnow]
    exact h.pos
  · rw [hnow]
    exact h.bound
  · intro ts hts name
    rw [hdirs] at hts
    have hne : dir ≠ some ts := fun heq => hts (hdir ts heq)
    rw [setFile_files hne]
    exact h.files ts hts name
  · rw [hscan, hdirs]
    exact h.current_mem
  · rw [hscan, hdirs]
    exact h.last_mem

/-- A renewal, also one in the second of the last one. -/
theorem newDir_sound (hvalid : s.scan.Valid) (hnodup : s.dirs.Nodup)
    (hpos : ∀ ts ∈ s.dirs, 0 < ts ∧ ts ≤ s.now) (hnow : 0 < s.now)
    (hbound : (s.now : Int) ≤ longMax)
    (hfiles : ∀ ts, ts ∉ s.dirs → ∀ filename, s.files ts filename = none)
    (hcurrent : ∀ e, s.scan.dirs.1 = some e → ∃ ts ∈ s.dirs, e = newDirEntry ts) :
    s.newDir.Sound := by
  have hdirs : s.newDir.scan.dirs = (some (newDirEntry s.now), s.scan.dirs.1) :=
    CacheScan.newDir_dirs hvalid s.now
  have hmem : ∀ ts, ts ∈ s.newDir.dirs ↔ ts = s.now ∨ ts ∈ s.dirs := by
    intro ts
    by_cases hin : s.now ∈ s.dirs
    · have heq : s.newDir.dirs = s.dirs := if_pos hin
      rw [heq]
      exact ⟨.inr, fun h => h.elim (fun heq => heq ▸ hin) id⟩
    · have heq : s.newDir.dirs = s.dirs ++ [s.now] := if_neg hin
      rw [heq, List.mem_append, List.mem_singleton, or_comm]
  constructor
  · exact CacheScan.newDir_valid hvalid s.now
  · by_cases hin : s.now ∈ s.dirs
    · have heq : s.newDir.dirs = s.dirs := if_pos hin
      rw [heq]
      exact hnodup
    · have heq : s.newDir.dirs = s.dirs ++ [s.now] := if_neg hin
      rw [heq, ← List.concat_eq_append]
      exact hnodup.concat hin
  · exact List.ne_nil_of_mem ((hmem s.now).mpr (.inl rfl))
  · intro ts hts
    rcases (hmem ts).mp hts with rfl | hold
    · exact ⟨hnow, le_rfl⟩
    · exact hpos ts hold
  · exact hbound
  · intro ts hts filename
    exact hfiles ts (fun hold => hts ((hmem ts).mpr (.inr hold))) filename
  · exact ⟨s.now, (hmem s.now).mpr (.inl rfl), by rw [hdirs]⟩
  · intro e he
    rw [hdirs] at he
    obtain ⟨ts, hts, rfl⟩ := hcurrent e he
    exact ⟨ts, (hmem ts).mpr (.inr hts), rfl⟩

theorem start_sound {now : Nat} (hnow : 0 < now) (hbound : (now : Int) ≤ longMax) :
    (start now).Sound :=
  newDir_sound CacheScan.init_valid List.nodup_nil nofun hnow hbound (fun _ _ _ => rfl) nofun

theorem Sound.newDir (h : s.Sound) : s.newDir.Sound := by
  obtain ⟨ts, hts, hcurrent⟩ := h.current_mem
  have hpos := h.pos ts hts
  apply newDir_sound h.valid h.nodup h.pos (by omega) h.bound h.files
  intro e he
  rw [hcurrent] at he
  exact ⟨ts, hts, (Option.some.inj he).symm⟩

/-- Another scan of the same subdirectories. -/
theorem Sound.restart (h : s.Sound) (hvalid : scan.Valid)
    (hnewest : Leaders CacheEntry.timestamp (s.dirs.map newDirEntry) scan.dirs) :
    scan.currentDirfd ≠ 0 ∧ ({ s with scan := scan } : CacheHome).Sound := by
  have hmem : ∀ e, e ∈ s.dirs.map newDirEntry → ∃ ts ∈ s.dirs, e = newDirEntry ts := by
    intro e he
    obtain ⟨ts, hts, rfl⟩ := List.mem_map.mp he
    exact ⟨ts, hts, rfl⟩
  cases hfirst : scan.dirs.1 with
  | none =>
    have hnil := List.map_eq_nil_iff.mp (hnewest.first_none hfirst)
    exact absurd hnil h.nonempty
  | some e =>
    obtain ⟨ts, hts, rfl⟩ := hmem e (hnewest.first e hfirst).1
    constructor
    · intro hzero
      have hnone : scan.dirs.1 = none := by
        show scan.refers scan.currentDirfd = none
        rw [hzero]
        rfl
      rw [hfirst] at hnone
      cases hnone
    · exact ⟨hvalid, h.nodup, h.nonempty, h.pos, h.bound, h.files, ⟨ts, hts, hfirst⟩,
        fun e he => hmem e (hnewest.second e he).1⟩

theorem Sound.act (h : s.Sound) (hact : dirAct s a = some t) : t.Sound := by
  obtain ⟨c, hc, hcurrent⟩ := h.current
  have hdir : ∀ ts, s.current = some ts → ts ∈ s.dirs := by
    intro ts hts
    rw [hcurrent] at hts
    cases hts
    exact hc
  cases a with
  | tick now =>
    simp only [dirAct] at hact
    split at hact
    next hnow =>
      cases hact
      exact ⟨h.valid, h.nodup, h.nonempty, fun ts hts => ⟨(h.pos ts hts).1,
        (h.pos ts hts).2.trans hnow.1⟩, hnow.2, h.files, h.current_mem, h.last_mem⟩
    next => cases hact
  | renew fails =>
    cases fails with
    | true =>
      cases hact
      exact h
    | false =>
      cases hact
      exact h.newDir
  | lookup filename moves =>
    simp only [dirAct] at hact
    split at hact
    next =>
      cases hact
      have hlast : (s.setFile s.last filename none).Sound :=
        h.setFile (fun ts hts => h.last hts) filename none
      apply hlast.setFile
      rw [(setFile_scan s.last filename none).2.1]
      exact hdir
    next =>
      cases hact
      exact h
  | store filename fails =>
    simp only [dirAct] at hact
    split at hact
    next =>
      cases hact
      exact h
    next =>
      cases hact
      have hset := h.setFile hdir filename (some s.nextInode)
      exact ⟨hset.valid, hset.nodup, hset.nonempty, hset.pos, hset.bound, hset.files,
        hset.current_mem, hset.last_mem⟩
  | unlink filename =>
    cases hact
    exact h.setFile hdir filename none
  | restart es =>
    simp only [dirAct] at hact
    split at hact
    next hperm =>
      obtain ⟨scan, hscan, rfl⟩ := Option.map_eq_some_iff.mp hact
      obtain ⟨hvalid, hnewest⟩ := scan_newest h hperm hscan
      obtain ⟨hfd, hsound⟩ := h.restart hvalid hnewest
      rw [if_neg hfd]
      exact hsound
    next => cases hact

/-- What a descriptor refers to is the largest timestamp there is. -/
theorem Sound.le_current (h : s.Sound) (hs : s.Newest) {c ts : Nat} (hc : s.current = some c)
    (hts : ts ∈ s.dirs) : ts ≤ c := by
  obtain ⟨c', hc', hdirs⟩ := h.current_mem
  have hmax := (hs.first _ hdirs).2 (newDirEntry ts) (List.mem_map_of_mem hts)
  rw [h.timestamp hts, h.timestamp hc'] at hmax
  rw [current_eq, hdirs, Option.map_some, h.timestamp hc', Int.toNat_natCast] at hc
  cases hc
  omega

theorem newDir_newest_iff (h : s.Sound) (hs : s.Newest) :
    s.newDir.Newest ↔ ∀ ts, s.current = some ts → ts < s.now := by
  obtain ⟨c, hc, hdirs⟩ := h.current_mem
  have hcurrent : s.current = some c := by
    rw [current_eq, hdirs, Option.map_some, h.timestamp hc, Int.toNat_natCast]
  have hnew : s.newDir.scan.dirs = (some (newDirEntry s.now), s.scan.dirs.1) :=
    CacheScan.newDir_dirs h.valid s.now
  have hnow := newDirEntry_timestamp h.bound
  constructor
  · intro hnewest ts hts
    rw [hcurrent] at hts
    cases hts
    have hle := (h.pos c hc).2
    have hne : c ≠ s.now := by
      rintro heq
      have hsecond := hnewest.second (newDirEntry c) (by rw [hnew, hdirs])
      apply hsecond.2.1
      rw [hnew, heq]
    omega
  · intro hlater
    have hlt := hlater c hcurrent
    have hout : s.now ∉ s.dirs := by
      intro hin
      have hle := h.le_current hs hcurrent hin
      omega
    have hlist : s.newDir.dirs = s.dirs ++ [s.now] := if_neg hout
    unfold Newest
    rw [hlist, List.map_append, hnew]
    apply Leaders.concat hs
    intro e he
    obtain ⟨ts, hts, rfl⟩ := List.mem_map.mp he
    have hle := h.le_current hs hcurrent hts
    rw [h.timestamp hts, hnow]
    omega

/-- The one action that may lose a subdirectory is a renewal in the second of the last one. -/
theorem act_newest_iff (h : s.Sound) (hs : s.Newest) (hact : dirAct s a = some t) :
    t.Newest ↔ s.Later a := by
  have hset : ∀ dir filename inode, (s.setFile dir filename inode).Newest := by
    intro dir filename inode
    obtain ⟨hscan, hdirs, -⟩ := @setFile_scan s dir filename inode
    unfold Newest
    rw [hscan, hdirs]
    exact hs
  cases a with
  | tick now =>
    simp only [dirAct] at hact
    split at hact
    next =>
      cases hact
      exact iff_of_true hs trivial
    next => cases hact
  | renew fails =>
    cases fails with
    | true =>
      cases hact
      exact iff_of_true hs trivial
    | false =>
      cases hact
      exact newDir_newest_iff h hs
  | lookup filename moves =>
    simp only [dirAct] at hact
    split at hact
    next =>
      cases hact
      refine iff_of_true ?_ trivial
      obtain ⟨hscan, hdirs, -⟩ :=
        @setFile_scan (s.setFile s.last filename none) s.current filename (s.file s.last filename)
      unfold Newest
      rw [hscan, hdirs]
      exact hset s.last filename none
    next =>
      cases hact
      exact iff_of_true hs trivial
  | store filename fails =>
    simp only [dirAct] at hact
    split at hact
    next =>
      cases hact
      exact iff_of_true hs trivial
    next =>
      cases hact
      exact iff_of_true (hset s.current filename (some s.nextInode)) trivial
  | unlink filename =>
    cases hact
    exact iff_of_true (hset s.current filename none) trivial
  | restart es =>
    simp only [dirAct] at hact
    split at hact
    next hperm =>
      obtain ⟨scan, hscan, rfl⟩ := Option.map_eq_some_iff.mp hact
      obtain ⟨hvalid, hnewest⟩ := scan_newest h hperm hscan
      rw [if_neg (h.restart hvalid hnewest).1]
      exact iff_of_true hnewest trivial
    next => cases hact

theorem start_newest {now : Nat} : (start now).Newest := by
  have hdirs : (start now).scan.dirs = (some (newDirEntry now), none) :=
    CacheScan.newDir_dirs CacheScan.init_valid now
  have hempty : Leaders CacheEntry.timestamp []
      ((none, none) : Option CacheEntry × Option CacheEntry) :=
    ⟨nofun, fun _ => rfl, nofun, nofun⟩
  unfold Newest
  rw [hdirs]
  exact hempty.concat (e := newDirEntry now) nofun

/-- The names in the current subdirectory and those in the last one. -/
def view (s : CacheHome) : TwoGen Bytes where
  current filename := (s.file s.current filename).isSome
  last filename := (s.file s.last filename).isSome

/-- What an action does to the names of the two subdirectories. -/
def op : DirAct → Op Bytes
  | .renew false => .turn
  | .lookup filename moves => .find filename moves
  | .store filename false => .put filename
  | .unlink filename => .drop filename
  | _ => .stay

theorem file_setFile (ts : Nat) (filename : Bytes) (inode : Option Nat) :
    (s.setFile (some ts) filename inode).file (some ts) =
      Function.update (s.file (some ts)) filename inode := by
  funext name
  by_cases hname : name = filename
  · simp [setFile, file, hname]
  · simp [setFile, file, Function.update_of_ne hname]

theorem file_setFile_of_ne {ts : Nat} {dir : Option Nat} (hdir : dir ≠ some ts) (filename : Bytes)
    (inode : Option Nat) : (s.setFile (some ts) filename inode).file dir = s.file dir := by
  funext name
  cases dir with
  | none => rfl
  | some ts' =>
    have hne : ts' ≠ ts := fun heq => hdir (by rw [heq])
    simp [setFile, file, Function.update_of_ne hne]

theorem Sound.last_ne_current (h : s.Sound) (hs : s.Newest) : s.last ≠ s.current := by
  obtain ⟨c, hc, hdirs⟩ := h.current_mem
  intro heq
  rw [current_eq, hdirs, Option.map_some, h.timestamp hc, last_eq, Option.map_eq_some_iff] at heq
  obtain ⟨e, he, hts⟩ := heq
  obtain ⟨l, hl, rfl⟩ := h.last_mem e he
  rw [h.timestamp hl, Int.toNat_natCast, Int.toNat_natCast] at hts
  subst hts
  have hother := (hs.second _ he).2.1
  exact hother hdirs

theorem isSome_update (f : Bytes → Option Nat) (name : Bytes) (inode : Option Nat) :
    (fun n => (Function.update f name inode n).isSome) =
      Function.update (fun n => (f n).isSome) name inode.isSome := by
  funext n
  by_cases hn : n = name
  · simp [hn]
  · simp [Function.update_of_ne hn]

/-- A name that is set or removed in the current subdirectory. -/
theorem setFile_view (h : s.Sound) (hs : s.Newest) (filename : Bytes) (inode : Option Nat) :
    (s.setFile s.current filename inode).view =
      ⟨Function.update s.view.current filename inode.isSome, s.view.last⟩ := by
  obtain ⟨c, -, hcurrent⟩ := h.current
  have hlast := h.last_ne_current hs
  rw [hcurrent] at hlast
  apply TwoGen.ext
  · show (fun name => (((s.setFile s.current filename inode).file
      (s.setFile s.current filename inode).current name).isSome)) = _
    rw [setFile_current, hcurrent, file_setFile, isSome_update]
    unfold view
    rw [hcurrent]
  · show (fun name => (((s.setFile s.current filename inode).file
      (s.setFile s.current filename inode).last name).isSome)) = _
    rw [setFile_last, hcurrent, file_setFile_of_ne hlast]
    rfl

/-- A name that moves from the last subdirectory to the current one. -/
theorem move_view (h : s.Sound) (hs : s.Newest) {filename : Bytes}
    (hfile : (s.file s.last filename).isSome = true) :
    ((s.setFile s.last filename none).setFile s.current filename (s.file s.last filename)).view =
      ⟨Function.update s.view.current filename true,
        Function.update s.view.last filename false⟩ := by
  cases hlast : s.last with
  | none =>
    rw [hlast] at hfile
    cases hfile
  | some l =>
    have hne := h.last_ne_current hs
    rw [hlast] at hne hfile
    have hsound : (s.setFile (some l) filename none).Sound :=
      h.setFile (fun ts hts => h.last (hlast.trans hts)) filename none
    have hnewest : (s.setFile (some l) filename none).Newest := hs
    have hview := setFile_view hsound hnewest filename (s.file (some l) filename)
    rw [setFile_current] at hview
    rw [hview, hfile]
    apply TwoGen.ext
    · show Function.update (fun name => ((s.setFile (some l) filename none).file
        (s.setFile (some l) filename none).current name).isSome) filename true = _
      rw [setFile_current, file_setFile_of_ne (Ne.symm hne)]
      rfl
    · show (fun name => ((s.setFile (some l) filename none).file
        (s.setFile (some l) filename none).last name).isSome) = _
      rw [setFile_last, hlast, file_setFile, isSome_update]
      unfold view
      rw [hlast]
      rfl

theorem newDir_view (h : s.Sound) (hs : s.Newest)
    (hlater : ∀ ts, s.current = some ts → ts < s.now) :
    s.newDir.view = s.view.step .turn := by
  obtain ⟨c, -, hcurrent⟩ := h.current
  have hlt := hlater c hcurrent
  have hout : s.now ∉ s.dirs := by
    intro hin
    have hle := h.le_current hs hcurrent hin
    omega
  have hdirs : s.newDir.scan.dirs = (some (newDirEntry s.now), s.scan.dirs.1) :=
    CacheScan.newDir_dirs h.valid s.now
  have hnew : s.newDir.current = some s.now := by
    rw [current_eq, hdirs, Option.map_some, newDirEntry_timestamp h.bound, Int.toNat_natCast]
  have hlast : s.newDir.last = s.current := by
    rw [last_eq, hdirs]
    rfl
  rw [step_turn]
  apply TwoGen.ext
  · funext filename
    show (s.newDir.file s.newDir.current filename).isSome = false
    rw [hnew]
    show (s.files s.now filename).isSome = false
    rw [h.files s.now hout filename]
    rfl
  · funext filename
    show (s.newDir.file s.newDir.last filename).isSome = (s.file s.current filename).isSome
    rw [hlast]
    rfl

/-- The subdirectories with their names are the two generations of a store. -/
theorem act_view (h : s.Sound) (hs : s.Newest) (hlater : s.Later a) (hact : dirAct s a = some t) :
    t.view = s.view.step (op a) := by
  cases a with
  | tick now =>
    simp only [dirAct] at hact
    split at hact
    next =>
      cases hact
      rfl
    next => cases hact
  | renew fails =>
    cases fails with
    | true =>
      cases hact
      rfl
    | false =>
      cases hact
      exact newDir_view h hs hlater
  | lookup filename moves =>
    simp only [dirAct] at hact
    split at hact
    next hmove =>
      cases hact
      rw [move_view h hs hmove.2.1]
      exact (step_find hmove).symm
    next hstay =>
      cases hact
      exact (step_find_same hstay).symm
  | store filename fails =>
    simp only [dirAct] at hact
    split at hact
    next hsame =>
      cases hact
      cases fails with
      | true => rfl
      | false =>
        have hfile : s.view.current filename = true := hsame.resolve_left Bool.false_ne_true
        show s.view = ⟨Function.update s.view.current filename true, s.view.last⟩
        rw [← hfile, Function.update_eq_self]
    next hnew =>
      cases hact
      cases fails with
      | true => exact absurd (.inl rfl) hnew
      | false => exact setFile_view h hs filename (some s.nextInode)
  | unlink filename =>
    cases hact
    exact setFile_view h hs filename none
  | restart es =>
    simp only [dirAct] at hact
    split at hact
    next hperm =>
      obtain ⟨scan, hscan, rfl⟩ := Option.map_eq_some_iff.mp hact
      obtain ⟨hvalid, hnewest⟩ := scan_newest h hperm hscan
      have hdirs : scan.dirs = s.scan.dirs := Leaders.unique h.injective hnewest hs
      have hcurrent : scan.refers scan.currentDirfd = s.scan.dirs.1 := congrArg Prod.fst hdirs
      have hlast : scan.refers scan.lastDirfd = s.scan.dirs.2 := congrArg Prod.snd hdirs
      rw [if_neg (h.restart hvalid hnewest).1]
      show (⟨_, _⟩ : TwoGen Bytes) = s.view
      simp only [file, current, last, dirOf, hcurrent, hlast]
      rfl
    next => cases hact

/-- What brings a name to the current subdirectory, or finds it there. -/
def Uses (s : CacheHome) (filename : Bytes) : DirAct → Prop
  | .store name fails => name = filename ∧ fails = false
  | .lookup name moves => name = filename ∧ ((s.file s.current filename).isSome = true ∨
      (s.file s.last filename).isSome = true ∧ moves = true)
  | _ => False

/-- The renewals that succeed. -/
def renewals (acts : List DirAct) : Nat := acts.countP fun a => (op a).isTurn

theorem uses_iff (filename : Bytes) (a : DirAct) :
    s.Uses filename a ↔ s.view.Uses filename (op a) := by
  cases a with
  | store name fails =>
    cases fails with
    | true => exact iff_of_false (fun h => Bool.noConfusion h.2) id
    | false => exact and_iff_left rfl
  | lookup name moves => exact Iff.rfl
  | renew fails =>
    cases fails with
    | true | false => exact Iff.rfl
  | tick | unlink | restart => exact Iff.rfl

theorem op_eq_drop {filename : Bytes} (h : op a = .drop filename) : a = .unlink filename := by
  cases a with
  | unlink name =>
    cases h
    rfl
  | renew fails | store name fails =>
    cases fails with
    | true | false => cases h
  | tick | lookup | restart => cases h

/-- A run of the cache directory is a run of the two generations. -/
theorem run_view {now : Nat} {acts : List DirAct} (hnow : 0 < now) (hbound : (now : Int) ≤ longMax)
    (hlater : ActsMeet dirAct Later acts (start now))
    (hrun : runActs dirAct acts (start now) = some t) : t.view = TwoGen.run (acts.map op) := by
  have hstep {acts : List DirAct} {s : CacheHome} (hs : s.Sound) (hnewest : s.Newest)
      (hlater : ActsMeet dirAct Later acts s) (hrun : runActs dirAct acts s = some t) :
      t.view = (acts.map op).foldl TwoGen.step s.view := by
    induction acts generalizing s with
    | nil =>
      cases hrun
      rfl
    | cons a acts ih =>
      obtain ⟨u, hact, hrun⟩ := Option.bind_eq_some_iff.mp hrun
      have hnewest' := (act_newest_iff hs hnewest hact).mpr hlater.1
      rw [ih (hs.act hact) hnewest' (hlater.2 u hact) hrun, act_view hs hnewest hlater.1 hact]
      rfl
  have hdirs : (start now).scan.dirs = (some (newDirEntry now), none) :=
    CacheScan.newDir_dirs CacheScan.init_valid now
  have hempty : (start now).view = TwoGen.empty := by
    have hfile : ∀ dir filename, (start now).file dir filename = none := by
      intro dir filename
      cases dir with
      | none => rfl
      | some ts => rfl
    unfold view
    simp only [hfile]
    rfl
  rw [hstep (start_sound hnow hbound) start_newest hlater hrun, hempty]
  rfl

theorem hits_iff (filename : Bytes) : t.Hits filename ↔ t.view.Held filename := Iff.rfl

theorem turns_op (acts : List DirAct) : turns (acts.map op) = renewals acts := by
  unfold turns renewals
  rw [List.countP_map]
  rfl

end CacheHome

end Phorklift
