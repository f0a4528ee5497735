import Phorklift.EntryCalls
import Phorklift.HostnameSpec

/-! The tables `module_filters` and `jump_if` of a Path, of which the parser gives each entry to a
callback that stores it in an array. -/

namespace Phorklift

open EntryCalls

/-- A key or a value as the callbacks see it. -/
inductive LuaArg
  | number (x : Double)
  | string (s : Bytes)
  | boolean (b : Bool)
  | other

/-- `nan(...)`, which is a number for `strtod` too. -/
def nanSubject (s : Bytes) : Bool :=
  let body := if s.take 1 == [45] || s.take 1 == [43] then s.drop 1 else s
  let chars := (body.drop 4).dropLast
  lower (body.take 4) == bytes "nan(" && (body.drop 4).getLast? == some 41 &&
    chars.all fun c => isDigit c || 97 ≤ tolower c && tolower c ≤ 122 || c == 95

/-- The number that Lua takes a string for. -/
def stringNumber (s : Bytes) : Option Double :=
  let t := ((cstr s).dropWhile isSpace).reverse.dropWhile isSpace |>.reverse
  if nanSubject t then some .nan else strtodSubject t

/-- The cast to an integer of 64 bits. -/
def Double.toInteger : Double → Int
  | .finite x =>
    let n := luaInteger x
    if -2 ^ 63 ≤ n ∧ n < 2 ^ 63 then n else -2 ^ 63
  | .inf _ => -2 ^ 63
  | .nan => -2 ^ 63

namespace LuaArg

/-- `lua_tonumber`, where `lua_isnumber` -/
def toNumber : LuaArg → Option Double
  | number x => some x
  | string s => stringNumber s
  | boolean _ => none
  | other => none

/-- `(int)lua_tointeger` -/
def toIndex (v : LuaArg) : Int := toInt (v.toNumber.elim 0 Double.toInteger)

example : (number (.finite 4294967295)).toIndex = -1 := by decide +kernel

/-- `lua_tostring`, as a C string. What it prints for a number is `numberText`. -/
def toText (numberText : Double → Bytes) : LuaArg → Option Bytes
  | number x => some (cstr (numberText x))
  | string s => some (cstr s)
  | boolean _ => none
  | other => none

end LuaArg

/-- The names of the modules, by index. -/
structure ModuleNames where
  statics : List Bytes
  dynamics : List Bytes

namespace ModuleNames

/-- `PHL_MODULE_MAX` -/
def max (M : ModuleNames) : Nat := M.statics.length + 20

/-- The index of the first module of the name, in the order of `phl_module_next`. -/
def indexOf (M : ModuleNames) (name : Bytes) : Option Nat :=
  (M.statics ++ M.dynamics).findIdx? fun m => m == name

end ModuleNames

/-- The modules in the directory, as the build lists them. -/
def phlModuleStatics : List Bytes :=
  ["acl", "auth_basic", "auth_request", "echo", "file_cache", "gzip", "jump_if", "limit_req",
    "proxy", "redis", "rewrite", "save_to", "script", "static", "stats"].map bytes

/-- `ranks[row][module] = rank` -/
structure RankStore where
  row : Int
  module : Nat
  rank : Double
  deriving DecidableEq

structure RankEntry where
  key : LuaArg
  value : LuaArg

/-- An entry of `module_filters`; `ranks` where its value is a table. -/
structure FilterEntry where
  key : LuaArg
  ranks : Option (List RankEntry)

section Filters

variable (numberText : Double → Bytes) (M : ModuleNames)

/-- The loop over the ranks of a module. -/
def storeRanks (module : Nat) : List RankStore → List RankEntry → Except String (List RankStore)
  | conf, [] => .ok conf
  | conf, e :: entries =>
    let index := e.key.toIndex
    if index = 0 ∨ 4 < index then .error "invalid key"
    else
      match e.value.toNumber with
      | none => .error "invalid rank value"
      | some rank => storeRanks module (conf ++ [⟨index - 1, module, rank⟩]) entries

/-- The names are compared by `strcmp`, of which NULL is no argument. -/
def phlModuleFiltersArbitrary (conf : List RankStore) (e : FilterEntry) :
    CallResult (List RankStore) String :=
  match e.ranks with
  | none => .refused "expect array"
  | some ranks =>
    match e.key.toText numberText with
    | none => .crashed
    | some name =>
      match M.indexOf name with
      | none => .refused "unknown module name"
      | some module =>
        match storeRanks module conf ranks with
        | .error err => .refused err
        | .ok conf => .accepted conf

end Filters

/-- `status_codes[index] = statusCode`, and the same of `pathnames`. -/
structure JumpStore where
  index : Nat
  statusCode : Int
  pathname : Bytes
  deriving DecidableEq

structure JumpIfConf where
  num : Nat
  stores : List JumpStore

structure JumpEntry where
  key : LuaArg
  value : LuaArg

def phlJumpIfArbitrary (numberText : Double → Bytes) (conf : JumpIfConf) (e : JumpEntry) :
    CallResult JumpIfConf String :=
  let statusCode := e.key.toIndex
  if statusCode < 200 ∨ 599 < statusCode then .refused "invalid status code"
  else
    match e.value.toText numberText with
    | none => .refused "invalid pathname"
    | some pathname => .accepted ⟨conf.num + 1, conf.stores ++ [⟨conf.num, statusCode, pathname⟩]⟩

namespace RankEntry

def accepts (e : RankEntry) : Bool :=
  e.key.toIndex ≠ 0 && e.key.toIndex ≤ 4 && e.value.toNumber.isSome

/-- What is stored for an entry that is accepted. -/
def store (module : Nat) (e : RankEntry) : Option RankStore :=
  e.value.toNumber.map fun rank => ⟨e.key.toIndex - 1, module, rank⟩

theorem accepts_iff (e : RankEntry) :
    e.accepts = true ↔
      e.key.toIndex ≠ 0 ∧ e.key.toIndex ≤ 4 ∧ ∃ rank, e.value.toNumber = some rank := by
  unfold accepts
  rw [Bool.and_eq_true, Bool.and_eq_true, decide_eq_true_eq, decide_eq_true_eq,
    Option.isSome_iff_exists, and_assoc]

theorem store_eq {e : RankEntry} {rank : Double} (h : e.value.toNumber = some rank)
    (module : Nat) : e.store module = some ⟨e.key.toIndex - 1, module, rank⟩ := by
  unfold store
  rw [h]
  rfl

end RankEntry

section Ranks

variable {module : Nat} {e : RankEntry}

theorem storeRanks_accepted (h : e.accepts = true) (conf : List RankStore)
    (entries : List RankEntry) :
    storeRanks module conf (e :: entries) =
      storeRanks module (conf ++ (e.store module).toList) entries := by
  obtain ⟨hne, hle, rank, hrank⟩ := e.accepts_iff.mp h
  have hkey : ¬(e.key.toIndex = 0 ∨ 4 < e.key.toIndex) := by omega
  rw [RankEntry.store_eq hrank]
  simp only [storeRanks, if_neg hkey, hrank]
  rfl

theorem storeRanks_refused (h : e.accepts = false) (conf : List RankStore)
    (entries : List RankEntry) : ∃ err, storeRanks module conf (e :: entries) = .error err := by
  by_cases hkey : e.key.toIndex = 0 ∨ 4 < e.key.toIndex
  · exact ⟨"invalid key", by simp only [storeRanks, if_pos hkey]⟩
  · cases hrank : e.value.toNumber with
    | none => exact ⟨"invalid rank value", by simp only [storeRanks, if_neg hkey, hrank]⟩
    | some rank =>
      have haccepts : e.accepts = true := by
        apply e.accepts_iff.mpr
        refine ⟨?_, ?_, rank, hrank⟩
        · omega
        · omega
      rw [h] at haccepts
      cases haccepts

theorem storeRanks_ok {entries : List RankEntry} (h : entries.all RankEntry.accepts = true)
    (conf : List RankStore) :
    storeRanks module conf entries = .ok (conf ++ entries.filterMap (RankEntry.store module)) := by
  induction entries generalizing conf with
  | nil => exact congrArg Except.ok (List.append_nil conf).symm
  | cons e entries ih =>
    rw [List.all_cons, Bool.and_eq_true] at h
    rw [storeRanks_accepted h.1, ih h.2, List.append_assoc]
    cases hstore : e.store module with
    | none =>
      rw [List.filterMap_cons_none hstore]
      rfl
    | some s =>
      rw [List.filterMap_cons_some hstore]
      rfl

theorem storeRanks_error {entries : List RankEntry} (h : entries.all RankEntry.accepts = false)
    (conf : List RankStore) : ∃ err, storeRanks module conf entries = .error err := by
  induction entries generalizing conf with
  | nil => cases h
  | cons e entries ih =>
    cases he : e.accepts with
    | false => exact storeRanks_refused he conf entries
    | true =>
      rw [List.all_cons, he, Bool.true_and] at h
      rw [storeRanks_accepted he]
      exact ih h _

end Ranks

section Table

variable (numberText : Double → Bytes) (M : ModuleNames)

namespace FilterEntry

/-- The index of the module that the entry names. -/
def module (e : FilterEntry) : Option Nat := (e.key.toText numberText).bind M.indexOf

def accepts (e : FilterEntry) : Bool :=
  (e.module numberText M).isSome && e.ranks.any fun ranks => ranks.all RankEntry.accepts

/-- A table under what is no name. -/
def crashes (e : FilterEntry) : Bool := e.ranks.isSome && (e.key.toText numberText).isNone

/-- What is stored for an entry that is accepted. -/
def stores (e : FilterEntry) : List RankStore :=
  match e.module numberText M, e.ranks with
  | some module, some ranks => ranks.filterMap (RankEntry.store module)
  | _, _ => []

/-- No index is negative, and the module is one that the arrays have room for. -/
def Fits (e : FilterEntry) : Prop :=
  ∀ ranks ∈ e.ranks, ∀ r ∈ ranks,
    0 < r.key.toIndex ∧ ∀ module ∈ e.module numberText M, module < M.max

theorem accepts_iff (e : FilterEntry) :
    e.accepts numberText M = true ↔ ∃ module ranks, e.module numberText M = some module ∧
      e.ranks = some ranks ∧ ranks.all RankEntry.accepts = true := by
  unfold accepts
  rw [Bool.and_eq_true, Option.any_eq_true, Option.isSome_iff_exists]
  constructor
  · rintro ⟨⟨module, hmodule⟩, ranks, hranks, hall⟩
    exact ⟨module, ranks, hmodule, hranks, hall⟩
  · rintro ⟨module, ranks, hmodule, hranks, hall⟩
    exact ⟨⟨module, hmodule⟩, ranks, hranks, hall⟩

theorem stores_eq {e : FilterEntry} {module : Nat} {ranks : List RankEntry}
    (hmodule : e.module numberText M = some module) (hranks : e.ranks = some ranks) :
    e.stores numberText M = ranks.filterMap (RankEntry.store module) := by
  simp only [stores, hmodule, hranks]

end FilterEntry

/-- The index is one of `ranks[0..3][PHL_MODULE_MAX]`. -/
structure RankStore.Inside (s : RankStore) : Prop where
  row_nonneg : 0 ≤ s.row
  row_lt : s.row < 4
  module_lt : s.module < M.max

theorem filters_rule :
    EntryRule (phlModuleFiltersArbitrary numberText M) (FilterEntry.accepts numberText M)
      (FilterEntry.crashes numberText) fun conf e => conf ++ e.stores numberText M where
  accepted conf e h := by
    obtain ⟨module, ranks, hmodule, hranks, hall⟩ := (e.accepts_iff numberText M).mp h
    obtain ⟨name, hname, hindex⟩ := Option.bind_eq_some_iff.mp hmodule
    rw [FilterEntry.stores_eq numberText M hmodule hranks]
    simp only [phlModuleFiltersArbitrary, hranks, hname, hindex, storeRanks_ok hall]
  crashed conf e _ h := by
    unfold FilterEntry.crashes at h
    rw [Bool.and_eq_true, Option.isSome_iff_exists, Option.isNone_iff_eq_none] at h
    obtain ⟨⟨ranks, hranks⟩, hname⟩ := h
    simp only [phlModuleFiltersArbitrary, hranks, hname]
  refused conf e haccepts hcrashes := by
    cases hranks : e.ranks with
    | none => exact ⟨"expect array", by simp only [phlModuleFiltersArbitrary, hranks]⟩
    | some ranks =>
      cases hname : e.key.toText numberText with
      | none =>
        have hcrash : e.crashes numberText = true := by
          unfold FilterEntry.crashes
          rw [hranks, hname]
          rfl
        rw [hcrash] at hcrashes
        cases hcrashes
      | some name =>
        cases hindex : M.indexOf name with
        | none =>
          exact ⟨"unknown module name",
            by simp only [phlModuleFiltersArbitrary, hranks, hname, hindex]⟩
        | some module =>
          have hmodule : e.module numberText M = some module := by
            unfold FilterEntry.module
            rw [hname]
            exact hindex
          have hall : ranks.all RankEntry.accepts = false := by
            rw [← Bool.not_eq_true] at haccepts ⊢
            intro hall
            exact haccepts ((e.accepts_iff numberText M).mpr ⟨module, ranks, hmodule, hranks, hall⟩)
          have herror : ∃ err, storeRanks module conf ranks = .error err :=
            storeRanks_error hall conf
          obtain ⟨err, herr⟩ := herror
          exact ⟨err, by simp only [phlModuleFiltersArbitrary, hranks, hname, hindex, herr]⟩

/-- A store for an entry that is accepted is inside where its index is no negative one. -/
theorem store_inside_iff {module : Nat} {r : RankEntry} (h : r.accepts = true) :
    (∀ s ∈ r.store module, s.Inside M) ↔ 0 < r.key.toIndex ∧ module < M.max := by
  obtain ⟨hne, hle, rank, hrank⟩ := r.accepts_iff.mp h
  rw [RankEntry.store_eq hrank]
  constructor
  · intro hs
    have hinside := hs _ rfl
    have hnonneg := hinside.row_nonneg
    dsimp only at hnonneg
    exact ⟨by omega, hinside.module_lt⟩
  · rintro ⟨hpos, hmodule⟩ s hs
    cases hs
    refine ⟨?_, ?_, hmodule⟩
    · show 0 ≤ r.key.toIndex - 1
      omega
    · show r.key.toIndex - 1 < 4
      omega

theorem stores_inside_iff {e : FilterEntry} (h : e.accepts numberText M = true) :
    (∀ s ∈ e.stores numberText M, s.Inside M) ↔ e.Fits numberText M := by
  obtain ⟨module, ranks, hmodule, hranks, hall⟩ := (e.accepts_iff numberText M).mp h
  rw [List.all_eq_true] at hall
  rw [FilterEntry.stores_eq numberText M hmodule hranks]
  unfold FilterEntry.Fits
  rw [hmodule, hranks]
  constructor
  · intro hinside ranks' hranks' r hr
    cases hranks'
    have hstore : ∀ s ∈ r.store module, s.Inside M := by
      intro s hs
      exact hinside s (List.mem_filterMap.mpr ⟨r, hr, hs⟩)
    have hfits := (store_inside_iff M (hall r hr)).mp hstore
    refine ⟨hfits.1, ?_⟩
    intro module' hmodule'
    cases hmodule'
    exact hfits.2
  · intro hfits s hs
    obtain ⟨r, hr, hstore⟩ := List.mem_filterMap.mp hs
    have hr' := hfits ranks rfl r hr
    exact (store_inside_iff M (hall r hr)).mpr ⟨hr'.1, hr'.2 module rfl⟩ s hstore

theorem foldl_append_stores (entries : List FilterEntry) (conf : List RankStore) :
    entries.foldl (fun conf e => conf ++ e.stores numberText M) conf =
      conf ++ entries.flatMap (FilterEntry.stores numberText M) := by
  induction entries generalizing conf with
  | nil => exact (List.append_nil conf).symm
  | cons e entries ih => rw [List.foldl_cons, ih, List.append_assoc, List.flatMap_cons]

theorem filters_inside_iff (filters : List FilterEntry) :
    StaysInside (phlModuleFiltersArbitrary numberText M) [] filters
        (fun conf => ∀ s ∈ conf, s.Inside M) ↔
      (∀ e ∈ filters.takeWhile (FilterEntry.accepts numberText M), e.Fits numberText M) ∧
        ∀ e ∈ (filters.dropWhile (FilterEntry.accepts numberText M)).head?,
          e.crashes numberText = false := by
  have hnil : ∀ s ∈ ([] : List RankStore), s.Inside M := by
    intro s hs
    cases hs
  rw [staysInside_iff (filters_rule numberText M)
    (fun conf e h s hs => h s (List.mem_append_left _ hs)) filters hnil,
    foldl_append_stores, List.nil_append]
  apply and_congr_left'
  constructor
  · intro h e he
    have haccepts := List.mem_takeWhile_imp he
    apply (stores_inside_iff numberText M haccepts).mp
    intro s hs
    exact h s (List.mem_flatMap.mpr ⟨e, he, hs⟩)
  · intro h s hs
    obtain ⟨e, he, hstore⟩ := List.mem_flatMap.mp hs
    have haccepts := List.mem_takeWhile_imp he
    exact (stores_inside_iff numberText M haccepts).mpr (h e he) s hstore

end Table

section Jumps

variable (numberText : Double → Bytes)

def JumpEntry.accepts (e : JumpEntry) : Bool :=
  200 ≤ e.key.toIndex && e.key.toIndex ≤ 599 && (e.value.toText numberText).isSome

/-- Every store is at one of the `PHL_JUMP_IF_MAX` places. -/
def JumpIfConf.Inside (conf : JumpIfConf) : Prop := ∀ s ∈ conf.stores, s.index < 10

/-- `num` counts what is stored. -/
def JumpIfConf.Counts (conf : JumpIfConf) : Prop :=
  conf.stores.map JumpStore.index = List.range conf.num

/-- The configuration after an entry that is accepted. -/
def JumpIfConf.add (conf : JumpIfConf) (e : JumpEntry) : JumpIfConf :=
  ⟨conf.num + 1,
    conf.stores ++ [⟨conf.num, e.key.toIndex, (e.value.toText numberText).getD []⟩]⟩

theorem jumps_rule :
    EntryRule (phlJumpIfArbitrary numberText) (JumpEntry.accepts numberText) (fun _ => false)
      (JumpIfConf.add numberText) where
  accepted conf e h := by
    unfold JumpEntry.accepts at h
    rw [Bool.and_eq_true, Bool.and_eq_true, decide_eq_true_eq, decide_eq_true_eq,
      Option.isSome_iff_exists] at h
    obtain ⟨⟨hlow, hhigh⟩, pathname, hpathname⟩ := h
    have hstatus : ¬(e.key.toIndex < 200 ∨ 599 < e.key.toIndex) := by omega
    unfold JumpIfConf.add
    rw [hpathname]
    simp only [phlJumpIfArbitrary, if_neg hstatus, hpathname]
    rfl
  crashed conf e _ h := by cases h
  refused conf e h _ := by
    by_cases hstatus : e.key.toIndex < 200 ∨ 599 < e.key.toIndex
    · exact ⟨"invalid status code", by simp only [phlJumpIfArbitrary, if_pos hstatus]⟩
    · cases hpathname : e.value.toText numberText with
      | none =>
        exact ⟨"invalid pathname", by simp only [phlJumpIfArbitrary, if_neg hstatus, hpathname]⟩
      | some pathname =>
        have hlow : 200 ≤ e.key.toIndex := by omega
        have hhigh : e.key.toIndex ≤ 599 := by omega
        unfold JumpEntry.accepts at h
        rw [hpathname, decide_eq_true hlow, decide_eq_true hhigh] at h
        cases h

theorem JumpIfConf.Counts.foldl (entries : List JumpEntry) {conf : JumpIfConf} (h : conf.Counts) :
    (entries.foldl (JumpIfConf.add numberText) conf).Counts ∧
      (entries.foldl (JumpIfConf.add numberText) conf).num = conf.num + entries.length := by
  induction entries generalizing conf with
  | nil => exact ⟨h, rfl⟩
  | cons e entries ih =>
    have hadd : (conf.add numberText e).Counts := by
      unfold JumpIfConf.Counts at h ⊢
      show (conf.stores ++ [_]).map JumpStore.index = List.range (conf.num + 1)
      rw [List.map_append, h, List.range_succ]
      rfl
    obtain ⟨hcounts, hnum⟩ := ih hadd
    refine ⟨hcounts, ?_⟩
    rw [List.foldl_cons, hnum, List.length_cons]
    show conf.num + 1 + entries.length = _
    omega

theorem JumpIfConf.Counts.inside_iff {conf : JumpIfConf} (h : conf.Counts) :
    conf.Inside ↔ conf.num ≤ 10 := by
  have hindex : conf.Inside ↔ ∀ n ∈ conf.stores.map JumpStore.index, n < 10 := by
    unfold JumpIfConf.Inside
    rw [List.forall_mem_map]
  rw [hindex, h]
  constructor
  · intro hlt
    by_contra hnum
    have hten := hlt 10 (List.mem_range.mpr (by omega))
    omega
  · intro hnum n hn
    have hlt := List.mem_range.mp hn
    omega

theorem jumps_inside_iff (jumps : List JumpEntry) :
    StaysInside (phlJumpIfArbitrary numberText) ⟨0, []⟩ jumps JumpIfConf.Inside ↔
      (jumps.takeWhile (JumpEntry.accepts numberText)).length ≤ 10 := by
  have hcounts : JumpIfConf.Counts ⟨0, []⟩ := rfl
  have hinside : JumpIfConf.Inside ⟨0, []⟩ := hcounts.inside_iff.mpr (Nat.zero_le 10)
  obtain ⟨hfold, hnum⟩ :=
    hcounts.foldl numberText (jumps.takeWhile (JumpEntry.accepts numberText))
  rw [staysInside_iff (jumps_rule numberText)
    (fun conf e h s hs => h s (List.mem_append_left _ hs)) jumps hinside, hfold.inside_iff, hnum,
    Nat.zero_add]
  apply and_iff_left
  intro e he
  rfl

end Jumps

/-- No call stores outside of the arrays exactly where, up to the first entry that is not accepted,
no index of a rank is negative, every module is one that there is room for, a table is not under a
key that is no name, and there are at most 10 jumps. -/
theorem arbitrary_inside_iff (numberText : Double → Bytes) (M : ModuleNames)
    (filters : List FilterEntry) (jumps : List JumpEntry) :
    (StaysInside (phlModuleFiltersArbitrary numberText M) [] filters
        (fun conf => ∀ s ∈ conf, s.Inside M) ↔
      (∀ e ∈ filters.takeWhile (FilterEntry.accepts numberText M), e.Fits numberText M) ∧
        ∀ e ∈ (filters.dropWhile (FilterEntry.accepts numberText M)).head?,
          e.crashes numberText = false) ∧
    (StaysInside (phlJumpIfArbitrary numberText) ⟨0, []⟩ jumps JumpIfConf.Inside ↔
      (jumps.takeWhile (JumpEntry.accepts numberText)).length ≤ 10) := by
  constructor
  · exact filters_inside_iff numberText M filters
  · exact jumps_inside_iff numberText jumps

/-- `static = {[-1] = 1}` -/
def negativeRank : FilterEntry :=
  ⟨.string (bytes "static"), some [⟨.number (.finite (-1)), .number (.finite 1)⟩]⟩

/-- `[400 + n] = "/error"` for `n` up to 10. -/
def elevenJumps : List JumpEntry :=
  (List.range 11).map fun n => ⟨.number (.finite (400 + n)), .string (bytes "/error")⟩

theorem negative_rank_stored :
    parse (phlModuleFiltersArbitrary (fun _ => bytes "1") ⟨phlModuleStatics, []⟩) []
        [negativeRank] = .accepted [⟨-2, 13, .finite 1⟩] ∧
      ¬StaysInside (phlModuleFiltersArbitrary (fun _ => bytes "1") ⟨phlModuleStatics, []⟩) []
        [negativeRank] (fun conf => ∀ s ∈ conf, s.Inside ⟨phlModuleStatics, []⟩) ∧
      ¬StaysInside (phlJumpIfArbitrary fun _ => bytes "1") ⟨0, []⟩ elevenJumps
        JumpIfConf.Inside := by
  have hparse : parse (phlModuleFiltersArbitrary (fun _ => bytes "1") ⟨phlModuleStatics, []⟩) []
      [negativeRank] = .accepted [⟨-2, 13, .finite 1⟩] := by
    with_unfolding_all rfl
  refine ⟨hparse, ?_, ?_⟩
  · intro h
    have hsafe := h.parse
    rw [hparse] at hsafe
    have hinside := hsafe ⟨-2, 13, .finite 1⟩ (List.mem_singleton_self _)
    exact absurd hinside.row_nonneg (by decide)
  · intro h
    have hlength := (jumps_inside_iff _ _).mp h
    have htake : elevenJumps.takeWhile (JumpEntry.accepts fun _ => bytes "1") = elevenJumps := by
      with_unfolding_all rfl
    rw [htake] at hlength
    exact absurd hlength (by decide)

end Phorklift
