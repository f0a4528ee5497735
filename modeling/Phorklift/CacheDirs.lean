import Phorklift.HeaderReserve
import Phorklift.RequestSplit
import Phorklift.TopTwo

/-! The scan of a cache directory for its current and its last subdirectory. -/

namespace Phorklift

open TopTwo

/-- What `readdir` yields. `d_type` is 0 (`DT_UNKNOWN`) where the file system does not tell. -/
structure CacheEntry where
  name : Bytes
  dType : UInt8
  isDir : Bool
  told : dType ≠ 0 → (isDir = true ↔ dType = 4)

/-- What `sscanf(name, "P_%ld", &ts)` stores. -/
def scanTimestamp (name : Bytes) : Option Int :=
  if name.take 2 = bytes "P_" ∧ (strtol (name.drop 2)).used ≠ 0 then
    some (strtol (name.drop 2)).value
  else none

/-- The local and the configuration's variables of the scan. The descriptors and the names that are
allocated are numbered from 1 on, the `n`-th ones being of the `n`-th entry in `opened`; 0 is no
descriptor, and NULL. -/
structure CacheScan where
  lastTs : Int
  currentTs : Int
  lastDirname : Nat
  currentDirname : Nat
  lastDirfd : Nat
  currentDirfd : Nat
  opened : List CacheEntry
  names : Nat
  closed : List Nat
  freed : List Nat

namespace CacheScan

def init : CacheScan := ⟨0, 0, 0, 0, 0, 0, [], 0, [], []⟩

/-- `phl_file_cache_delete_last_dir` -/
def deleteLastDir (s : CacheScan) : CacheScan :=
  if s.lastDirfd = 0 then s
  else { s with closed := s.closed ++ [s.lastDirfd], freed := s.freed ++ [s.lastDirname] }

/-- The entry a descriptor refers to. -/
def refers (s : CacheScan) : Nat → Option CacheEntry
  | 0 => none
  | fd + 1 => s.opened[fd]?

end CacheScan

/-- `openat` with `O_DIRECTORY`. -/
def openDir (s : CacheScan) (e : CacheEntry) : Option (Nat × CacheScan) :=
  if e.isDir then some (s.opened.length + 1, { s with opened := s.opened ++ [e] }) else none

/-- A round of the loop; `none` is the return with "fail to open sub dir". -/
def cacheScanRound (s : CacheScan) (e : CacheEntry) : Option CacheScan :=
  if e.dType &&& 4 = 0 then some s
  else
    match scanTimestamp e.name with
    | none => some s
    | some ts =>
      if ts > s.currentTs then
        let s := s.deleteLastDir
        let s := { s with
          lastTs := s.currentTs
          currentTs := ts
          lastDirname := s.currentDirname
          currentDirname := s.names + 1
          names := s.names + 1
          lastDirfd := s.currentDirfd }
        (openDir s e).map fun (fd, s) => { s with currentDirfd := fd }
      else if ts > s.lastTs then
        let s := s.deleteLastDir
        let s := { s with
          lastTs := ts
          lastDirname := s.names + 1
          names := s.names + 1 }
        (openDir s e).map fun (fd, s) => { s with lastDirfd := fd }
      else some s

def cacheScan (es : List CacheEntry) : Option CacheScan := es.foldlM cacheScanRound .init

/-- The timestamp in a name, as the scan reads it. -/
def CacheEntry.timestamp (e : CacheEntry) : Int := (scanTimestamp e.name).getD 0

/-- What the scan takes for a subdirectory with a positive timestamp. -/
def CacheEntry.taken (e : CacheEntry) : Bool := e.dType &&& 4 ≠ 0 ∧ 0 < e.timestamp

/-- A subdirectory that is named by a positive timestamp. -/
def CacheEntry.isCacheDir (e : CacheEntry) : Bool :=
  e.isDir ∧ 0 < e.timestamp ∧ e.name = bytes "P_" ++ decimal e.timestamp.toNat

/-- What `current_dirfd` and `last_dirfd` refer to. -/
def CacheScan.dirs (s : CacheScan) : Option CacheEntry × Option CacheEntry :=
  (s.refers s.currentDirfd, s.refers s.lastDirfd)

/-- `current_dirfd` refers to the subdirectory with the largest timestamp and `last_dirfd` to the one
with the second largest, and a descriptor is 0 where there is none. -/
structure CacheScan.Finds (s : CacheScan) (es : List CacheEntry) : Prop where
  leaders : Leaders CacheEntry.timestamp (es.filter CacheEntry.isCacheDir) s.dirs
  current_zero : s.dirs.1 = none → s.currentDirfd = 0
  last_zero : s.dirs.2 = none → s.lastDirfd = 0

/-- All that was allocated is released once, but for what is current and last. -/
structure CacheScan.Releases (s : CacheScan) : Prop where
  fds : ∀ fd, 1 ≤ fd → fd ≤ s.opened.length →
    s.closed.count fd = if fd = s.currentDirfd ∨ fd = s.lastDirfd then 0 else 1
  names : ∀ p, 1 ≤ p → p ≤ s.names →
    s.freed.count p = if p = s.currentDirname ∨ p = s.lastDirname then 0 else 1
  closed : ∀ fd ∈ s.closed, 1 ≤ fd ∧ fd ≤ s.opened.length
  freed : ∀ p ∈ s.freed, 1 ≤ p ∧ p ≤ s.names

/-- Two entries that were taken have no smaller timestamp. -/
def Outnumbered (done : List CacheEntry) (e : CacheEntry) : Prop :=
  2 ≤ (done.filter fun c => c.taken ∧ e.timestamp ≤ c.timestamp).length

/-- What is taken and no directory is outnumbered by what comes before it. -/
def OpensAll (done es : List CacheEntry) : Prop :=
  ∀ pre e post, es = pre ++ e :: post → e.taken = true → e.isDir = false →
    Outnumbered (done ++ pre) e

/-- What is taken and no such subdirectory, or such a one and not taken, is outdone by two
subdirectories that are taken: they have larger timestamps, or equal ones and come before it. -/
def TakesCacheDirs (es : List CacheEntry) : Prop :=
  ∀ pre e post, es = pre ++ e :: post → e.taken ≠ e.isCacheDir →
    2 ≤ (outdoers CacheEntry.timestamp (pre.filter fun c => c.taken && c.isCacheDir)
      (post.filter fun c => c.taken && c.isCacheDir) e).length

section Names

variable {e : CacheEntry} {ts : Nat}

theorem scanTimestamp_decimal (hts : (ts : Int) ≤ longMax) :
    scanTimestamp (bytes "P_" ++ decimal ts) = some ts := by
  have hdigits : ∀ c ∈ decimal ts, isDigit c = true := fun c hc => isDigit_of_mem_decimal hc
  have hparts : strtolParts (decimal ts) = ⟨[], [], decimal ts⟩ := by
    have hwhole := @strtolParts_numeral [] [] [] (decimal ts) nofun (.inl rfl) (decimal_ne_nil ts)
      hdigits nofun
    rw [List.append_nil] at hwhole
    exact hwhole
  have hlen := List.length_pos_iff.mpr (decimal_ne_nil ts)
  have hused : (strtol (decimal ts)).used ≠ 0 := by
    rw [strtol_used, hparts, if_neg (decimal_ne_nil ts)]
    unfold StrtolParts.length
    dsimp only
    omega
  have hnumber : (StrtolParts.mk [] [] (decimal ts)).number = digitsValue (decimal ts) :=
    if_neg nofun
  have hvalue : (strtol (decimal ts)).value = ts := by
    rw [strtol_value, hparts, hnumber, digitsValue_decimal]
    unfold longOf longMin
    omega
  have hdrop : (bytes "P_" ++ decimal ts).drop 2 = decimal ts := rfl
  unfold scanTimestamp
  rw [hdrop, hvalue]
  exact if_pos ⟨rfl, hused⟩

/-- The subdirectories are those named as `phl_file_cache_new_dir` does it. -/
theorem isCacheDir_iff : e.isCacheDir = true ↔
    e.isDir = true ∧ ∃ ts : Nat, 0 < ts ∧ (ts : Int) ≤ longMax ∧
      e.name = bytes "P_" ++ decimal ts := by
  unfold CacheEntry.isCacheDir
  rw [decide_eq_true_iff]
  refine and_congr_right fun _ => ?_
  constructor
  · rintro ⟨hpos, hname⟩
    have hle : e.timestamp ≤ longMax := by
      unfold CacheEntry.timestamp scanTimestamp
      split
      · rw [Option.getD_some, strtol_value]
        unfold longOf longMin longMax
        omega
      · decide
    exact ⟨e.timestamp.toNat, by omega, by omega, hname⟩
  · rintro ⟨ts, hpos, hle, hname⟩
    have htimestamp : e.timestamp = ts := by
      unfold CacheEntry.timestamp
      rw [hname, scanTimestamp_decimal hle]
      rfl
    rw [htimestamp]
    exact ⟨Int.natCast_pos.mpr hpos, hname⟩

end Names

namespace CacheScan

/-- The descriptors and the names are numbered together, and released together. -/
structure Valid (s : CacheScan) : Prop where
  names : s.names = s.opened.length
  freed : s.freed = s.closed
  current_name : s.currentDirname = s.currentDirfd
  last_name : s.lastDirname = s.lastDirfd
  current_le : s.currentDirfd ≤ s.opened.length
  last_le : s.lastDirfd ≤ s.opened.length
  apart : s.currentDirfd = s.lastDirfd → s.lastDirfd = 0
  closed : ∀ fd ∈ s.closed, 1 ≤ fd ∧ fd ≤ s.opened.length
  count : ∀ fd, 1 ≤ fd → fd ≤ s.opened.length →
    s.closed.count fd = if fd = s.currentDirfd ∨ fd = s.lastDirfd then 0 else 1

variable {s t : CacheScan} {e : CacheEntry} {done : List CacheEntry} {fd : Nat}

theorem Valid.releases (h : s.Valid) : s.Releases where
  fds := h.count
  names := by
    rw [h.names, h.freed, h.current_name, h.last_name]
    exact h.count
  closed := h.closed
  freed := by
    rw [h.names, h.freed]
    exact h.closed

theorem init_valid : init.Valid where
  names := rfl
  freed := rfl
  current_name := rfl
  last_name := rfl
  current_le := Nat.le_refl 0
  last_le := Nat.le_refl 0
  apart _ := rfl
  closed := nofun
  count _ hpos hle := absurd (Nat.lt_of_lt_of_le hpos hle) (Nat.lt_irrefl 0)

theorem deleteLastDir_closed (s : CacheScan) :
    s.deleteLastDir.closed = s.closed ++ if s.lastDirfd = 0 then [] else [s.lastDirfd] := by
  unfold deleteLastDir
  split
  · exact (List.append_nil _).symm
  · rfl

theorem Valid.deleteLastDir_freed (h : s.Valid) : s.deleteLastDir.freed = s.deleteLastDir.closed := by
  unfold deleteLastDir
  split
  · exact h.freed
  · show s.freed ++ [s.lastDirname] = s.closed ++ [s.lastDirfd]
    rw [h.freed, h.last_name]

/-- Once the last one is released only the current one is not. -/
theorem Valid.deleteLastDir_count (h : s.Valid) (hpos : 1 ≤ fd) (hle : fd ≤ s.opened.length + 1) :
    s.deleteLastDir.closed.count fd =
      if fd = s.currentDirfd ∨ fd = s.opened.length + 1 then 0 else 1 := by
  have hlast := h.last_le
  have hcurrent := h.current_le
  have hone : (if s.lastDirfd = 0 then [] else [s.lastDirfd]).count fd =
      if fd = s.lastDirfd then 1 else 0 := by
    split
    next hzero =>
      rw [if_neg (by omega)]
      rfl
    next =>
      by_cases hl : fd = s.lastDirfd
      · rw [if_pos hl, hl, List.count_singleton_self]
      · rw [if_neg hl]
        exact List.count_eq_zero.mpr fun hmem => hl (List.mem_singleton.mp hmem)
  rw [deleteLastDir_closed, List.count_append, hone]
  rcases Nat.lt_or_eq_of_le hle with hlt | hnew
  · rw [h.count fd hpos (Nat.lt_succ_iff.mp hlt)]
    have hapart := h.apart
    by_cases hc : fd = s.currentDirfd
    · have hne : fd ≠ s.lastDirfd := by omega
      rw [if_pos (.inl hc), if_neg hne, if_pos (.inl hc)]
    · by_cases hl : fd = s.lastDirfd
      · rw [if_pos (.inr hl), if_pos hl, if_neg (by omega)]
      · rw [if_neg (by omega), if_neg hl, if_neg (by omega)]
  · have hnone : s.closed.count fd = 0 := by
      apply List.count_eq_zero.mpr
      intro hmem
      have hbound := (h.closed fd hmem).2
      omega
    rw [hnone, if_neg (by omega), if_pos (.inr hnew)]

theorem Valid.deleteLastDir_closed_le (h : s.Valid) :
    ∀ fd ∈ s.deleteLastDir.closed, 1 ≤ fd ∧ fd ≤ s.opened.length + 1 := by
  intro fd hmem
  have hlast := h.last_le
  rw [deleteLastDir_closed] at hmem
  rcases List.mem_append.mp hmem with hold | hnew
  · have hbound := h.closed fd hold
    omega
  · split at hnew
    · cases hnew
    · obtain rfl := List.mem_singleton.mp hnew
      omega

/-- The state after a directory is opened as the current one. -/
def shift (s : CacheScan) (e : CacheEntry) : CacheScan where
  lastTs := s.currentTs
  currentTs := e.timestamp
  lastDirname := s.currentDirname
  currentDirname := s.names + 1
  lastDirfd := s.currentDirfd
  currentDirfd := s.opened.length + 1
  opened := s.opened ++ [e]
  names := s.names + 1
  closed := s.deleteLastDir.closed
  freed := s.deleteLastDir.freed

/-- The state after a directory is opened as the last one. -/
def replaceLast (s : CacheScan) (e : CacheEntry) : CacheScan where
  lastTs := e.timestamp
  currentTs := s.currentTs
  lastDirname := s.names + 1
  currentDirname := s.currentDirname
  lastDirfd := s.opened.length + 1
  currentDirfd := s.currentDirfd
  opened := s.opened ++ [e]
  names := s.names + 1
  closed := s.deleteLastDir.closed
  freed := s.deleteLastDir.freed

theorem Valid.shift (h : s.Valid) (e : CacheEntry) : (s.shift e).Valid := by
  have hcurrent := h.current_le
  have hlen : (s.opened ++ [e]).length = s.opened.length + 1 := List.length_append
  unfold CacheScan.shift
  constructor
  · dsimp only
    rw [hlen, h.names]
  · exact h.deleteLastDir_freed
  · dsimp only
    rw [h.names]
  · exact h.current_name
  · dsimp only
    omega
  · dsimp only
    omega
  · dsimp only
    omega
  · dsimp only
    rw [hlen]
    exact h.deleteLastDir_closed_le
  · dsimp only
    rw [hlen]
    intro fd hpos hle
    rw [h.deleteLastDir_count hpos hle]
    simp only [or_comm]

theorem Valid.replaceLast (h : s.Valid) (e : CacheEntry) : (s.replaceLast e).Valid := by
  have hcurrent := h.current_le
  have hlen : (s.opened ++ [e]).length = s.opened.length + 1 := List.length_append
  unfold CacheScan.replaceLast
  constructor
  · dsimp only
    rw [hlen, h.names]
  · exact h.deleteLastDir_freed
  · exact h.current_name
  · dsimp only
    rw [h.names]
  · dsimp only
    omega
  · dsimp only
    omega
  · dsimp only
    omega
  · dsimp only
    rw [hlen]
    exact h.deleteLastDir_closed_le
  · dsimp only
    rw [hlen]
    intro fd hpos hle
    exact h.deleteLastDir_count hpos hle

theorem refers_append (e : CacheEntry) (h : fd ≤ s.opened.length) (ht : t.opened = s.opened ++ [e]) :
    t.refers fd = s.refers fd := by
  cases fd with
  | zero => rfl
  | succ fd =>
    show t.opened[fd]? = s.opened[fd]?
    rw [ht, List.getElem?_append_left h]

theorem refers_new (e : CacheEntry) (ht : t.opened = s.opened ++ [e]) :
    t.refers (s.opened.length + 1) = some e := by
  show t.opened[s.opened.length]? = some e
  rw [ht]
  exact List.getElem?_concat_length

theorem Valid.refers_eq_none (h : fd ≤ s.opened.length) (hnone : s.refers fd = none) : fd = 0 := by
  cases fd with
  | zero => rfl
  | succ fd =>
    have hlen : s.opened.length ≤ fd := List.getElem?_eq_none_iff.mp hnone
    omega

/-- The scan is at the leaders of what it took. -/
structure Tracks (s : CacheScan) (done : List CacheEntry) : Prop where
  valid : s.Valid
  dirs : s.dirs = lead CacheEntry.timestamp 0 (done.filter CacheEntry.taken)
  currentTs : s.currentTs = keyOf CacheEntry.timestamp 0 s.dirs.1
  lastTs : s.lastTs = keyOf CacheEntry.timestamp 0 s.dirs.2
  currentTs_nonneg : 0 ≤ s.currentTs
  lastTs_nonneg : 0 ≤ s.lastTs

theorem init_tracks : init.Tracks [] where
  valid := init_valid
  dirs := rfl
  currentTs := rfl
  lastTs := rfl
  currentTs_nonneg := Int.le_refl 0
  lastTs_nonneg := Int.le_refl 0

/-- An entry with another type or without a positive timestamp is passed. -/
theorem cacheScanRound_passed (h : s.Tracks done) (he : e.taken = false) :
    cacheScanRound s e = some s := by
  have hcurrent := h.currentTs_nonneg
  have hlast := h.lastTs_nonneg
  unfold CacheEntry.taken CacheEntry.timestamp at he
  rw [decide_eq_false_iff_not] at he
  unfold cacheScanRound
  by_cases htype : e.dType &&& 4 = 0
  · exact if_pos htype
  · rw [if_neg htype]
    cases hname : scanTimestamp e.name with
    | none => rfl
    | some ts =>
      rw [hname, Option.getD_some] at he
      have hle : ¬0 < ts := fun hpos => he ⟨htype, hpos⟩
      dsimp only
      rw [if_neg (by omega), if_neg (by omega)]

/-- What the round does with the others. -/
theorem cacheScanRound_taken (he : e.taken = true) :
    cacheScanRound s e =
      if e.timestamp > s.currentTs then if e.isDir then some (s.shift e) else none
      else if e.timestamp > s.lastTs then if e.isDir then some (s.replaceLast e) else none
      else some s := by
  unfold CacheEntry.taken CacheEntry.timestamp at he
  obtain ⟨htype, hpos⟩ := of_decide_eq_true he
  have hkept : s.deleteLastDir = { s with
      closed := s.deleteLastDir.closed
      freed := s.deleteLastDir.freed } := by
    unfold deleteLastDir
    split <;> rfl
  unfold cacheScanRound CacheEntry.timestamp
  rw [if_neg htype]
  cases hname : scanTimestamp e.name with
  | none =>
    rw [hname] at hpos
    exact absurd hpos (by decide)
  | some ts =>
    have htimestamp : e.timestamp = ts := by
      unfold CacheEntry.timestamp
      rw [hname]
      rfl
    dsimp only [Option.getD_some]
    unfold openDir shift replaceLast
    rw [htimestamp, hkept]
    split
    · split <;> rfl
    · split
      · split <;> rfl
      · rfl

theorem Tracks.lead_concat (h : s.Tracks done) (he : e.taken = true) :
    lead CacheEntry.timestamp 0 ((done ++ [e]).filter CacheEntry.taken) =
      step CacheEntry.timestamp 0 s.dirs e := by
  have hnew : [e].filter CacheEntry.taken = [e] := by
    rw [List.filter_cons_of_pos he]
    rfl
  rw [List.filter_append, hnew, TopTwo.lead_concat, h.dirs]

theorem taken_pos (he : e.taken = true) : 0 < e.timestamp := (of_decide_eq_true he).2

theorem Tracks.shift (h : s.Tracks done) (he : e.taken = true) (hlt : s.currentTs < e.timestamp) :
    (s.shift e).Tracks (done ++ [e]) := by
  have hpos := taken_pos he
  have hdirs : (s.shift e).dirs = (some e, s.dirs.1) := by
    unfold CacheScan.dirs
    exact Prod.ext (refers_new e rfl) (refers_append e h.valid.current_le rfl)
  have hkey : keyOf CacheEntry.timestamp 0 s.dirs.1 < e.timestamp := by
    rw [← h.currentTs]
    exact hlt
  constructor
  · exact h.valid.shift e
  · rw [h.lead_concat he, step_first hkey, hdirs]
  · rw [hdirs]
    rfl
  · rw [hdirs]
    exact h.currentTs
  · exact Int.le_of_lt hpos
  · exact h.currentTs_nonneg

theorem Tracks.replaceLast (h : s.Tracks done) (he : e.taken = true)
    (hle : ¬s.currentTs < e.timestamp) (hlt : s.lastTs < e.timestamp) :
    (s.replaceLast e).Tracks (done ++ [e]) := by
  have hpos := taken_pos he
  have hdirs : (s.replaceLast e).dirs = (s.dirs.1, some e) := by
    unfold CacheScan.dirs
    exact Prod.ext (refers_append e h.valid.current_le rfl) (refers_new e rfl)
  have hkey : ¬keyOf CacheEntry.timestamp 0 s.dirs.1 < e.timestamp := by
    rw [← h.currentTs]
    exact hle
  have hkey' : keyOf CacheEntry.timestamp 0 s.dirs.2 < e.timestamp := by
    rw [← h.lastTs]
    exact hlt
  constructor
  · exact h.valid.replaceLast e
  · rw [h.lead_concat he, step_second hkey hkey', hdirs]
  · rw [hdirs]
    exact h.currentTs
  · rw [hdirs]
    rfl
  · exact h.currentTs_nonneg
  · exact Int.le_of_lt hpos

theorem Tracks.same (h : s.Tracks done) (hlead : lead CacheEntry.timestamp 0
    ((done ++ [e]).filter CacheEntry.taken) = s.dirs) : s.Tracks (done ++ [e]) where
  valid := h.valid
  dirs := hlead.symm
  currentTs := h.currentTs
  lastTs := h.lastTs
  currentTs_nonneg := h.currentTs_nonneg
  lastTs_nonneg := h.lastTs_nonneg

/-- An entry is opened unless it is outnumbered. -/
theorem Tracks.lastTs_lt_iff (h : s.Tracks done) (he : e.taken = true) :
    s.lastTs < e.timestamp ↔ ¬Outnumbered done e := by
  have hlead := (@le_lead _ _ _ CacheEntry.timestamp 0 e.timestamp (taken_pos he)
    (done.filter CacheEntry.taken)).2
  rw [← h.dirs, ← h.lastTs, List.filter_filter] at hlead
  have hfilter : (fun c : CacheEntry => decide (e.timestamp ≤ c.timestamp) && c.taken) =
      fun c => decide (c.taken = true ∧ e.timestamp ≤ c.timestamp) := by
    funext c
    rw [Bool.decide_and, Bool.decide_eq_true, Bool.and_comm]
  rw [hfilter] at hlead
  unfold Outnumbered
  rw [← hlead]
  omega

theorem Tracks.round (h : s.Tracks done)
    (hopens : e.taken = true → e.isDir = false → Outnumbered done e) :
    ∃ t, cacheScanRound s e = some t ∧ t.Tracks (done ++ [e]) := by
  cases he : e.taken with
  | false =>
    refine ⟨s, cacheScanRound_passed h he, h.same ?_⟩
    rw [List.filter_append, List.filter_cons_of_neg (by simp [he]), List.filter_nil,
      List.append_nil, h.dirs]
  | true =>
    have hlt := h.lastTs_lt_iff he
    rw [cacheScanRound_taken he]
    by_cases hout : Outnumbered done e
    · have hlast : ¬s.lastTs < e.timestamp := fun hlast => hlt.mp hlast hout
      have hordered : s.lastTs ≤ s.currentTs := by
        rw [h.lastTs, h.currentTs, h.dirs]
        exact lead_ordered _
      have hcurrent : ¬s.currentTs < e.timestamp := by omega
      refine ⟨s, by rw [if_neg hcurrent, if_neg hlast], h.same ?_⟩
      rw [h.lastTs] at hlast
      rw [h.currentTs] at hcurrent
      rw [h.lead_concat he, step_none hcurrent hlast]
    · have hdir : e.isDir = true := by
        cases hdir : e.isDir with
        | true => rfl
        | false => exact absurd (hopens he hdir) hout
      by_cases hcurrent : s.currentTs < e.timestamp
      · refine ⟨s.shift e, ?_, h.shift he hcurrent⟩
        rw [if_pos hcurrent, if_pos hdir]
      · have hlast := hlt.mpr hout
        refine ⟨s.replaceLast e, ?_, h.replaceLast he hcurrent hlast⟩
        rw [if_neg hcurrent, if_pos hlast, if_pos hdir]

theorem Tracks.outnumbered (h : s.Tracks done) (hround : cacheScanRound s e = some t)
    (he : e.taken = true) (hdir : e.isDir = false) : Outnumbered done e := by
  apply Classical.not_not.mp
  intro hout
  have hlast := (h.lastTs_lt_iff he).mpr hout
  rw [cacheScanRound_taken he, hdir] at hround
  by_cases hcurrent : s.currentTs < e.timestamp
  · rw [if_pos hcurrent, if_neg Bool.false_ne_true] at hround
    cases hround
  · rw [if_neg hcurrent, if_pos hlast, if_neg Bool.false_ne_true] at hround
    cases hround

variable {es : List CacheEntry}

theorem Tracks.run (h : s.Tracks done) (hopens : OpensAll done es) :
    ∃ t, es.foldlM cacheScanRound s = some t ∧ t.Tracks (done ++ es) := by
  induction es generalizing s done with
  | nil => exact ⟨s, rfl, (List.append_nil done).symm ▸ h⟩
  | cons e es ih =>
    have hhead : e.taken = true → e.isDir = false → Outnumbered done e := by
      intro he hdir
      have hout := hopens [] e es rfl he hdir
      rw [List.append_nil] at hout
      exact hout
    obtain ⟨t, hround, ht⟩ := h.round hhead
    have htail : OpensAll (done ++ [e]) es := by
      intro pre e' post hes he hdir
      rw [List.append_assoc]
      exact hopens (e :: pre) e' post (congrArg _ hes) he hdir
    obtain ⟨u, hrun, hu⟩ := ih ht htail
    rw [List.append_assoc] at hu
    refine ⟨u, ?_, hu⟩
    rw [List.foldlM_cons, hround]
    exact hrun

theorem Tracks.opensAll (h : s.Tracks done) (hrun : es.foldlM cacheScanRound s = some t) :
    OpensAll done es := by
  induction es generalizing s done with
  | nil =>
    intro pre e post hes
    exact absurd hes.symm (List.append_ne_nil_of_right_ne_nil pre (List.cons_ne_nil e post))
  | cons e es ih =>
    rw [List.foldlM_cons] at hrun
    obtain ⟨u, hround, hrun⟩ := Option.bind_eq_some_iff.mp hrun
    obtain ⟨u', hround', hu⟩ := h.round (h.outnumbered hround)
    obtain rfl := Option.some.inj (hround.symm.trans hround')
    have htail := ih hu hrun
    intro pre e' post hes he hdir
    cases pre with
    | nil =>
      obtain ⟨rfl, -⟩ := List.cons.inj hes
      rw [List.append_nil]
      exact h.outnumbered hround he hdir
    | cons c pre =>
      obtain ⟨rfl, hrest⟩ := List.cons.inj hes
      have hout := htail pre e' post hrest he hdir
      rw [List.append_assoc] at hout
      exact hout

/-- The scan ends where all that it opens are directories, at the leaders of what it took. -/
theorem cacheScan_iff (es : List CacheEntry) :
    (∃ s, cacheScan es = some s) ↔ OpensAll [] es := by
  constructor
  · rintro ⟨s, hs⟩
    exact init_tracks.opensAll hs
  · intro hopens
    obtain ⟨s, hs, -⟩ := init_tracks.run hopens
    exact ⟨s, hs⟩

theorem cacheScan_tracks (hs : cacheScan es = some s) : s.Tracks es := by
  obtain ⟨t, ht, htracks⟩ := init_tracks.run (init_tracks.opensAll hs)
  obtain rfl := Option.some.inj (hs.symm.trans ht)
  exact htracks

theorem Tracks.finds_iff (h : s.Tracks es) (hnames : (es.map CacheEntry.name).Nodup) :
    s.Finds es ↔ TakesCacheDirs es := by
  have hnodup : es.Nodup := List.Nodup.of_map _ hnames
  have hpos : ∀ e ∈ es, e.taken = true ∨ e.isCacheDir = true → 0 < e.timestamp := by
    rintro e - (htaken | hdir)
    · exact taken_pos htaken
    · exact (of_decide_eq_true hdir).2.1
  have hdirs : Leaders CacheEntry.timestamp (es.filter CacheEntry.isCacheDir)
      (lead CacheEntry.timestamp 0 (es.filter CacheEntry.isCacheDir)) := by
    apply lead_leaders (hnodup.filter _)
    intro e he
    obtain ⟨hmem, hdir⟩ := List.mem_filter.mp he
    exact hpos e hmem (.inr hdir)
  have hinj : ∀ a ∈ es.filter CacheEntry.isCacheDir, ∀ b ∈ es.filter CacheEntry.isCacheDir,
      a.timestamp = b.timestamp → a = b := by
    intro a ha b hb heq
    obtain ⟨ha, hadir⟩ := List.mem_filter.mp ha
    obtain ⟨hb, hbdir⟩ := List.mem_filter.mp hb
    apply List.inj_on_of_nodup_map hnames ha hb
    rw [(of_decide_eq_true hadir).2.2, (of_decide_eq_true hbdir).2.2, heq]
  have hsame : Leaders CacheEntry.timestamp (es.filter CacheEntry.isCacheDir) s.dirs ↔
      lead CacheEntry.timestamp 0 (es.filter CacheEntry.taken) =
        lead CacheEntry.timestamp 0 (es.filter CacheEntry.isCacheDir) := by
    rw [← h.dirs]
    constructor
    · intro hleaders
      exact hleaders.unique hinj hdirs
    · intro heq
      rw [heq]
      exact hdirs
  unfold TakesCacheDirs
  rw [← lead_filter_eq_iff hnodup hpos, ← hsame]
  constructor
  · exact Finds.leaders
  · intro hleaders
    exact ⟨hleaders, Valid.refers_eq_none h.valid.current_le, Valid.refers_eq_none h.valid.last_le⟩

end CacheScan

/-- The scan of a directory ends, finds its two latest subdirectories and releases the others,
exactly where nothing that it takes for one and is not gets among them. -/
theorem cache_scan_iff {es : List CacheEntry} (hnames : (es.map CacheEntry.name).Nodup) :
    (∃ s, cacheScan es = some s ∧ s.Finds es ∧ s.Releases) ↔
      OpensAll [] es ∧ TakesCacheDirs es := by
  rw [← CacheScan.cacheScan_iff]
  constructor
  · rintro ⟨s, hs, hfinds, -⟩
    have htracks := CacheScan.cacheScan_tracks hs
    exact ⟨⟨s, hs⟩, (htracks.finds_iff hnames).mp hfinds⟩
  · rintro ⟨⟨s, hs⟩, htakes⟩
    have htracks := CacheScan.cacheScan_tracks hs
    exact ⟨s, hs, (htracks.finds_iff hnames).mpr htakes, htracks.valid.releases⟩

/-- A directory where the scan takes the subdirectories and nothing else. -/
theorem meets_of_taken {es : List CacheEntry} (h : ∀ e ∈ es, e.taken = e.isCacheDir) :
    OpensAll [] es ∧ TakesCacheDirs es := by
  constructor
  · intro pre e post hes htaken hdir
    have he : e ∈ es := hes ▸ List.mem_append_right pre List.mem_cons_self
    have hcache := (h e he).symm.trans htaken
    rw [(of_decide_eq_true hcache).1] at hdir
    cases hdir
  · intro pre e post hes hne
    have he : e ∈ es := hes ▸ List.mem_append_right pre List.mem_cons_self
    exact absurd (h e he) hne

theorem dir_told : (4 : UInt8) ≠ 0 → (true = true ↔ (4 : UInt8) = 4) :=
  fun _ => iff_of_true rfl rfl

theorem socket_told : (12 : UInt8) ≠ 0 → (false = true ↔ (12 : UInt8) = 4) := by decide

def subdirectory (name : Bytes) : CacheEntry := ⟨name, 4, true, dir_told⟩

/-- `DT_SOCK` is 12. -/
def unixSocket (name : Bytes) : CacheEntry := ⟨name, 12, false, socket_told⟩

def cacheEntries : List CacheEntry :=
  [subdirectory (bytes "P_7"), unixSocket (bytes "control"), subdirectory (bytes "P_9"),
    subdirectory (bytes ".."), subdirectory (bytes "P_8")]

theorem cache_scan_entries :
    ∃ s, cacheScan cacheEntries = some s ∧ s.Finds cacheEntries ∧ s.Releases :=
  (cache_scan_iff (by decide)).mpr (meets_of_taken (by decide +kernel))

/-- The bit of `DT_DIR` is also in `DT_SOCK`. -/
theorem socket_taken :
    ([subdirectory (bytes "P_5"), unixSocket (bytes "P_9")].map CacheEntry.name).Nodup ∧
      cacheScan [subdirectory (bytes "P_5"), unixSocket (bytes "P_9")] = none ∧
      ¬∃ s, cacheScan [subdirectory (bytes "P_5"), unixSocket (bytes "P_9")] = some s ∧
        s.Finds [subdirectory (bytes "P_5"), unixSocket (bytes "P_9")] ∧ s.Releases := by
  have hnone : cacheScan [subdirectory (bytes "P_5"), unixSocket (bytes "P_9")] = none := by
    with_unfolding_all rfl
  refine ⟨by decide, hnone, ?_⟩
  rintro ⟨s, hs, -⟩
  rw [hnone] at hs
  cases hs

end Phorklift
