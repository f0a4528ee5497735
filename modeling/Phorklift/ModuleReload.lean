import Phorklift.Bytes
import Mathlib.Data.List.Nodup
import Mathlib.Logic.Function.Basic

/-! The dynamic modules of a configuration, and what a failed reload leaves of them. -/

namespace Phorklift

/-- Modules of one kind: the static ones, and the fields of a module that are set from its
position. -/
structure ModuleKind (O : Type) where
  staticNumber : Nat
  fixAt : Nat → O
  index : O → Nat
  index_fixAt : ∀ i, index (fixAt i) = i
  static_pos : 0 < staticNumber

inductive ModuleRef
  | static (i : Nat)
  | dynamic (filename : Bytes)
  deriving DecidableEq, Repr

structure ModuleFields where
  index : Nat
  commandListenOffset : Nat
  commandHostOffset : Nat
  commandPathOffset : Nat
  inheritCountOffset : Nat
  deriving DecidableEq

structure LoadbalanceFields where
  index : Nat
  commandOffset : Nat
  deriving DecidableEq

/-- Where the arrays of the modules' configurations begin, and the numbers of static modules. -/
structure ModuleLayout where
  listenConfs : Nat
  hostConfs : Nat
  pathConfs : Nat
  contentInheritCounts : Nat
  lbConfs : Nat
  moduleStaticNumber : Nat
  loadbalanceStaticNumber : Nat
  module_pos : 0 < moduleStaticNumber
  loadbalance_pos : 0 < loadbalanceStaticNumber

/-- `phl_module_fix` -/
def phlModuleFix (layout : ModuleLayout) (i : Nat) : ModuleFields :=
  ⟨i, layout.listenConfs + 8 * i, layout.hostConfs + 8 * i, layout.pathConfs + 8 * i,
    layout.contentInheritCounts + 4 * i⟩

/-- `phl_upstream_loadbalance_module_fix` -/
def phlUpstreamLoadbalanceModuleFix (layout : ModuleLayout) (i : Nat) : LoadbalanceFields :=
  ⟨i, layout.lbConfs + 8 * i⟩

def requestModules (layout : ModuleLayout) : ModuleKind ModuleFields where
  staticNumber := layout.moduleStaticNumber
  fixAt := phlModuleFix layout
  index := ModuleFields.index
  index_fixAt _ := rfl
  static_pos := layout.module_pos

def loadbalanceModules (layout : ModuleLayout) : ModuleKind LoadbalanceFields where
  staticNumber := layout.loadbalanceStaticNumber
  fixAt := phlUpstreamLoadbalanceModuleFix layout
  index := LoadbalanceFields.index
  index_fixAt _ := rfl
  static_pos := layout.loadbalance_pos

namespace ModuleKind

variable {O : Type} (k : ModuleKind O)

/-- `phl_module_next` and `phl_upstream_loadbalance_next`; `none` is NULL, and the list of the
runtime is empty where a pointer on the way to it is NULL. -/
def next (names : List Bytes) (objs : Bytes → O) : Option ModuleRef → Option ModuleRef
  | none => some (.static 0)
  | some m =>
    let index := match m with
      | .static i => i
      | .dynamic f => k.index (objs f)
    if index + 1 < k.staticNumber then some (.static (index + 1))
    else names[index + 1 - k.staticNumber]?.map .dynamic

/-- The loop of `phl_module_dynamic_post` and of `phl_module_dynamic_upstream_post`, from the
position `i` on. -/
def dynamicPost : Nat → List Bytes → (Bytes → O) → Bytes → O
  | _, [], objs => objs
  | i, f :: names, objs =>
    dynamicPost (i + 1) names (Function.update objs f (k.fixAt (k.staticNumber + i)))

/-- The loop of `phl_module_worker_init`, `none` where it takes more than `fuel` turns. A static
module is never met behind the others. -/
def workerInit (names : List Bytes) :
    Nat → Nat → Option ModuleRef → (Bytes → O) → Option (Bytes → O)
  | 0, _, _, _ => none
  | fuel + 1, number, m, objs =>
    match k.next names objs m with
    | none => some objs
    | some (.static i) => workerInit names fuel (number + 1) (some (.static i)) objs
    | some (.dynamic f) =>
      let objs := if k.staticNumber < number + 1 then Function.update objs f (k.fixAt number)
        else objs
      workerInit names fuel (number + 1) (some (.dynamic f)) objs

/-- The `n`-th module of `while ((m = next(m)) != NULL)`. -/
def visited (names : List Bytes) (objs : Bytes → O) : Nat → Option ModuleRef
  | 0 => k.next names objs none
  | n + 1 => (visited names objs n).bind fun m => k.next names objs (some m)

/-- The static modules and then those of the list. -/
def refs (names : List Bytes) : List ModuleRef :=
  (List.range k.staticNumber).map .static ++ names.map .dynamic

/-- Each module of the list has the fields of its position. -/
def InPlace (names : List Bytes) (objs : Bytes → O) : Prop :=
  ∀ i f, names[i]? = some f → objs f = k.fixAt (k.staticNumber + i)

/-- The modules are visited in order, each with the fields of its position. -/
structure Iterates (names : List Bytes) (objs : Bytes → O) : Prop where
  inPlace : k.InPlace names objs
  visits : ∀ n, k.visited names objs n = (k.refs names)[n]?

end ModuleKind

structure Runtime where
  dynamicModules : List Bytes
  dynamicUpstreamModules : List Bytes
  deriving DecidableEq

/-- How the parse of a configuration ends. In the Runtime it fails behind the first modules of its
lists, which have been loaded. -/
inductive Parsing
  | scriptError
  | runtimeError (modules loadbalances : List Bytes)
  | listenError (runtime : Runtime)
  | noListen (runtime : Runtime)
  | succeeds (runtime : Runtime)

/-- The configuration of the master process, whose parts are told by the parse they are from, and
the modules in its memory. -/
structure MasterWorld where
  confRuntime : Option Runtime
  confListens : Option Nat
  confPool : Option Nat
  lua : Option Nat
  reloadCount : Nat
  modules : Bytes → ModuleFields
  loadbalances : Bytes → LoadbalanceFields

def MasterWorld.load (layout : ModuleLayout) (modules loadbalances : List Bytes)
    (w : MasterWorld) : MasterWorld :=
  { w with
    modules := (requestModules layout).dynamicPost 0 modules w.modules
    loadbalances := (loadbalanceModules layout).dynamicPost 0 loadbalances w.loadbalances }

/-- `phl_conf_parse`, as far as the globals and the modules go. -/
def masterParse (layout : ModuleLayout) (parsing : Parsing) (w : MasterWorld) : MasterWorld :=
  let w := { w with reloadCount := w.reloadCount + 1 }
  match parsing with
  | .scriptError => w
  | .runtimeError modules loadbalances => w.load layout modules loadbalances
  | .listenError runtime | .noListen runtime =>
    let backupRuntime := w.confRuntime
    let w := { w.load layout runtime.dynamicModules runtime.dynamicUpstreamModules with
      confRuntime := some runtime }
    { w with confRuntime := backupRuntime }
  | .succeeds runtime =>
    { w.load layout runtime.dynamicModules runtime.dynamicUpstreamModules with
      confRuntime := some runtime
      confListens := some w.reloadCount
      confPool := some w.reloadCount
      lua := some w.reloadCount }

/-- The load balance modules that the parse has loaded and fixed. -/
def Parsing.loadbalances : Parsing → List Bytes
  | .scriptError => []
  | .runtimeError _ loadbalances => loadbalances
  | .listenError runtime | .noListen runtime | .succeeds runtime => runtime.dynamicUpstreamModules

def Parsing.Fails (parsing : Parsing) : Prop := ∀ runtime, parsing ≠ .succeeds runtime

/-- A worker that is forked iterates all modules of the runtime, the request modules after
`phl_module_worker_init`. -/
def WorkerIterates (layout : ModuleLayout) (runtime : Runtime) (w : MasterWorld) : Prop :=
  (∃ modules, (requestModules layout).workerInit runtime.dynamicModules
      (layout.moduleStaticNumber + runtime.dynamicModules.length + 1) 0 none w.modules =
        some modules ∧ (requestModules layout).Iterates runtime.dynamicModules modules) ∧
    (loadbalanceModules layout).Iterates runtime.dynamicUpstreamModules w.loadbalances

/-- The module stands last at `i` in the list. -/
def LastAt (names : List Bytes) (f : Bytes) (i : Nat) : Prop :=
  names[i]? = some f ∧ ∀ j, i < j → names[j]? ≠ some f

/-- The old runtime has no request module twice, and the failed configuration has its load balance
modules at their positions, or not at all where they were in place before. -/
structure KeepsPlaces (layout : ModuleLayout) (runtime : Runtime) (parsing : Parsing)
    (w : MasterWorld) : Prop where
  modules : runtime.dynamicModules.Nodup
  loadbalances : ∀ i f, runtime.dynamicUpstreamModules[i]? = some f →
    LastAt parsing.loadbalances f i ∨ f ∉ parsing.loadbalances ∧ w.loadbalances f =
      phlUpstreamLoadbalanceModuleFix layout (layout.loadbalanceStaticNumber + i)

section Modules

variable {O : Type} {k : ModuleKind O} {names : List Bytes} {objs : Bytes → O} {f : Bytes}
  {i : Nat}

theorem ModuleKind.fixAt_inj {j : Nat} (h : k.fixAt i = k.fixAt j) : i = j := by
  have hindex := congrArg k.index h
  rwa [k.index_fixAt, k.index_fixAt] at hindex

theorem ModuleKind.next_static (h : i + 1 < k.staticNumber) :
    k.next names objs (some (.static i)) = some (.static (i + 1)) := by
  unfold ModuleKind.next
  dsimp only
  rw [if_pos h]

theorem ModuleKind.next_last_static (h : i + 1 = k.staticNumber) :
    k.next names objs (some (.static i)) = names[0]?.map .dynamic := by
  unfold ModuleKind.next
  dsimp only
  rw [if_neg (by omega), h, Nat.sub_self]

theorem ModuleKind.next_dynamic (h : objs f = k.fixAt (k.staticNumber + i)) :
    k.next names objs (some (.dynamic f)) = names[i + 1]?.map .dynamic := by
  have hindex : k.index (objs f) = k.staticNumber + i := by rw [h, k.index_fixAt]
  have hnext : k.staticNumber + i + 1 - k.staticNumber = i + 1 := by omega
  unfold ModuleKind.next
  simp only [hindex]
  rw [if_neg (by omega), hnext]

theorem ModuleKind.refs_static (h : i < k.staticNumber) :
    (k.refs names)[i]? = some (.static i) := by
  unfold ModuleKind.refs
  rw [List.getElem?_append_left (by simpa using h), List.getElem?_map, List.getElem?_range h]
  rfl

theorem ModuleKind.refs_dynamic (i : Nat) :
    (k.refs names)[k.staticNumber + i]? = names[i]?.map .dynamic := by
  unfold ModuleKind.refs
  rw [List.getElem?_append_right (by simp), List.getElem?_map]
  simp

/-- Modules that are in place are visited in order. -/
theorem ModuleKind.InPlace.visits (h : k.InPlace names objs) (n : Nat) :
    k.visited names objs n = (k.refs names)[n]? := by
  induction n with
  | zero => exact (k.refs_static k.static_pos).symm
  | succ n ih =>
    unfold ModuleKind.visited
    rw [ih]
    by_cases hstatic : n < k.staticNumber
    · rw [k.refs_static hstatic, Option.bind_some]
      by_cases hlast : n + 1 < k.staticNumber
      · rw [k.next_static hlast, k.refs_static hlast]
      · have heq : n + 1 = k.staticNumber := by omega
        rw [k.next_last_static heq, heq]
        exact (k.refs_dynamic 0).symm
    · obtain ⟨i, rfl⟩ := Nat.exists_eq_add_of_le (Nat.not_lt.mp hstatic)
      rw [k.refs_dynamic, Nat.add_assoc, k.refs_dynamic]
      cases hget : names[i]? with
      | none =>
        have hlen := List.getElem?_eq_none_iff.mp hget
        rw [List.getElem?_eq_none (by omega)]
        rfl
      | some f => exact k.next_dynamic (h i f hget)

theorem ModuleKind.InPlace.iterates (h : k.InPlace names objs) : k.Iterates names objs :=
  ⟨h, h.visits⟩

theorem ModuleKind.InPlace.nodup (h : k.InPlace names objs) : names.Nodup := by
  rw [List.nodup_iff_getElem?_ne_getElem?]
  intro i j hij hlt heq
  have hget : names[j]? = some names[j] := List.getElem?_eq_getElem hlt
  have hi := h i names[j] (heq.trans hget)
  have hplace := k.fixAt_inj (hi.symm.trans (h j names[j] hget))
  omega

theorem ModuleKind.dynamicPost_of_notMem {n : Nat} (h : f ∉ names) :
    k.dynamicPost n names objs f = objs f := by
  induction names generalizing n objs with
  | nil => rfl
  | cons g names ih =>
    rw [List.mem_cons, not_or] at h
    unfold ModuleKind.dynamicPost
    rw [ih h.2, Function.update_of_ne h.1]

/-- The last fix of a module counts. -/
theorem ModuleKind.dynamicPost_of_lastAt {n : Nat} (h : LastAt names f i) :
    k.dynamicPost n names objs f = k.fixAt (k.staticNumber + (n + i)) := by
  induction names generalizing n i objs with
  | nil =>
    have hget := h.1
    cases hget
  | cons g names ih =>
    unfold ModuleKind.dynamicPost
    cases i with
    | zero =>
      have hg : g = f := Option.some.inj h.1
      have hnot : f ∉ names := by
        intro hmem
        obtain ⟨j, hj⟩ := List.mem_iff_getElem?.mp hmem
        exact h.2 (j + 1) (Nat.succ_pos j) hj
      rw [k.dynamicPost_of_notMem hnot, hg, Function.update_self]
      rfl
    | succ i =>
      have hlast : LastAt names f i := ⟨h.1, fun j hij => h.2 (j + 1) (by omega)⟩
      rw [ih hlast]
      congr 1
      omega

theorem exists_lastAt (h : f ∈ names) : ∃ i, LastAt names f i := by
  induction names with
  | nil => cases h
  | cons g names ih =>
    by_cases hmem : f ∈ names
    · obtain ⟨i, hget, hlater⟩ := ih hmem
      refine ⟨i + 1, hget, fun j hij => ?_⟩
      obtain ⟨j, rfl⟩ := Nat.exists_eq_add_of_le' (Nat.one_le_of_lt hij)
      exact hlater j (by omega)
    · refine ⟨0, ?_, fun j hj hget => ?_⟩
      · rw [(List.mem_cons.mp h).resolve_right hmem]
        rfl
      · obtain ⟨j, rfl⟩ := Nat.exists_eq_add_of_le' hj
        exact hmem (List.mem_of_getElem? hget)

/-- The turns of `phl_module_worker_init` on dynamic modules: the one that is in place at `i` has
been passed, and so have those before it. -/
theorem ModuleKind.workerInit_dynamic (hnodup : names.Nodup) {fuel : Nat}
    (hget : names[i]? = some f)
    (hplace : ∀ j g, j ≤ i → names[j]? = some g → objs g = k.fixAt (k.staticNumber + j))
    (hfuel : names.length ≤ i + fuel) :
    ∃ objs', k.workerInit names fuel (k.staticNumber + i + 1) (some (.dynamic f)) objs =
      some objs' ∧ k.InPlace names objs' := by
  induction fuel generalizing i f objs with
  | zero =>
    obtain ⟨hlt, -⟩ := List.getElem?_eq_some_iff.mp hget
    omega
  | succ fuel ih =>
    unfold ModuleKind.workerInit
    rw [k.next_dynamic (hplace i f le_rfl hget)]
    cases hnext : names[i + 1]? with
    | none =>
      have hlen := List.getElem?_eq_none_iff.mp hnext
      refine ⟨objs, rfl, fun j g hj => hplace j g ?_ hj⟩
      obtain ⟨hlt, -⟩ := List.getElem?_eq_some_iff.mp hj
      omega
    | some g =>
      have hlt : k.staticNumber < k.staticNumber + i + 1 + 1 := by omega
      dsimp only [Option.map_some]
      rw [if_pos hlt]
      refine ih hnext ?_ (by omega)
      intro j g' hj hg'
      by_cases hlast : j = i + 1
      · rw [hlast, hnext] at hg'
        rw [← Option.some.inj hg', Function.update_self, hlast]
        rfl
      · have hne : g' ≠ g := by
          intro heq
          rw [heq] at hg'
          obtain ⟨hj, -⟩ := List.getElem?_eq_some_iff.mp hg'
          exact hlast ((List.getElem?_inj hj hnodup).mp (hg'.trans hnext.symm))
        rw [Function.update_of_ne hne]
        exact hplace j g' (by omega) hg'

/-- The turns of `phl_module_worker_init` from a static module on. -/
theorem ModuleKind.workerInit_static (hnodup : names.Nodup) {fuel : Nat}
    (hi : i < k.staticNumber) (hfuel : k.staticNumber + names.length ≤ i + fuel) :
    ∃ objs', k.workerInit names fuel (i + 1) (some (.static i)) objs = some objs' ∧
      k.InPlace names objs' := by
  induction fuel generalizing i with
  | zero => omega
  | succ fuel ih =>
    unfold ModuleKind.workerInit
    by_cases hlast : i + 1 < k.staticNumber
    · rw [k.next_static hlast]
      exact ih hlast (by omega)
    · have heq : i + 1 = k.staticNumber := by omega
      rw [k.next_last_static heq]
      cases hnext : names[0]? with
      | none =>
        have hlen := List.getElem?_eq_none_iff.mp hnext
        refine ⟨objs, rfl, fun j g hj => ?_⟩
        obtain ⟨hlt, -⟩ := List.getElem?_eq_some_iff.mp hj
        omega
      | some g =>
        dsimp only [Option.map_some]
        rw [heq, if_pos (Nat.lt_succ_self _)]
        apply k.workerInit_dynamic hnodup hnext
        · intro j g' hj hg'
          obtain rfl := Nat.le_zero.mp hj
          rw [hnext] at hg'
          rw [← Option.some.inj hg', Function.update_self]
          rfl
        · omega

/-- `phl_module_worker_init` puts every module in place, wherever it was before. -/
theorem ModuleKind.workerInit_inPlace (hnodup : names.Nodup) (objs : Bytes → O) :
    ∃ objs', k.workerInit names (k.staticNumber + names.length + 1) 0 none objs = some objs' ∧
      k.InPlace names objs' := by
  have hpos := k.static_pos
  unfold ModuleKind.workerInit
  exact k.workerInit_static hnodup hpos (by omega)

/-- What a parse has fixed is in place in another list exactly for the modules that stand last at
the same position in both, or that it did not touch. -/
theorem ModuleKind.inPlace_dynamicPost {loaded : List Bytes} :
    k.InPlace names (k.dynamicPost 0 loaded objs) ↔ ∀ i f, names[i]? = some f →
      LastAt loaded f i ∨ f ∉ loaded ∧ objs f = k.fixAt (k.staticNumber + i) := by
  constructor
  · intro h i f hget
    have hplace := h i f hget
    by_cases hmem : f ∈ loaded
    · obtain ⟨j, hlast⟩ := exists_lastAt hmem
      rw [k.dynamicPost_of_lastAt hlast] at hplace
      have hij := k.fixAt_inj hplace
      have heq : j = i := by omega
      exact .inl (heq ▸ hlast)
    · rw [k.dynamicPost_of_notMem hmem] at hplace
      exact .inr ⟨hmem, hplace⟩
  · intro h i f hget
    rcases h i f hget with hlast | ⟨hmem, hplace⟩
    · rw [k.dynamicPost_of_lastAt hlast, Nat.zero_add]
    · rw [k.dynamicPost_of_notMem hmem, hplace]

end Modules

section Reload

variable {layout : ModuleLayout} {parsing : Parsing} {w : MasterWorld}

/-- A parse that fails gives the globals back, and leaves the load balance modules that it met
where they stand in its own list. -/
theorem masterParse_fails (layout : ModuleLayout) (w : MasterWorld) (h : parsing.Fails) :
    (masterParse layout parsing w).confRuntime = w.confRuntime ∧
      (masterParse layout parsing w).confListens = w.confListens ∧
      (masterParse layout parsing w).confPool = w.confPool ∧
      (masterParse layout parsing w).lua = w.lua ∧
      (masterParse layout parsing w).loadbalances =
        (loadbalanceModules layout).dynamicPost 0 parsing.loadbalances w.loadbalances := by
  cases parsing with
  | succeeds runtime => exact absurd rfl (h runtime)
  | scriptError => exact ⟨rfl, rfl, rfl, rfl, rfl⟩
  | runtimeError modules loadbalances => exact ⟨rfl, rfl, rfl, rfl, rfl⟩
  | listenError runtime => exact ⟨rfl, rfl, rfl, rfl, rfl⟩
  | noListen runtime => exact ⟨rfl, rfl, rfl, rfl, rfl⟩

/-- The request modules are repaired by the worker, so that only their list counts. -/
theorem workerIterates_iff {runtime : Runtime} :
    WorkerIterates layout runtime w ↔ runtime.dynamicModules.Nodup ∧
      (loadbalanceModules layout).InPlace runtime.dynamicUpstreamModules w.loadbalances := by
  constructor
  · rintro ⟨⟨modules, -, hmodules⟩, hlbs⟩
    exact ⟨hmodules.inPlace.nodup, hlbs.inPlace⟩
  · rintro ⟨hnodup, hlbs⟩
    obtain ⟨modules, hinit, hmodules⟩ :=
      (requestModules layout).workerInit_inPlace hnodup w.modules
    exact ⟨⟨modules, hinit, hmodules.iterates⟩, hlbs.iterates⟩

/-- A failed reload gives the globals back, and a worker that is forked afterwards iterates the
modules of the old runtime exactly where the load balance modules have kept their places. -/
theorem masterParse_failed_iff {runtime : Runtime} (h : parsing.Fails)
    (hruntime : w.confRuntime = some runtime) :
    ((masterParse layout parsing w).confRuntime = some runtime ∧
      (masterParse layout parsing w).confListens = w.confListens ∧
      (masterParse layout parsing w).confPool = w.confPool ∧
      (masterParse layout parsing w).lua = w.lua) ∧
    (WorkerIterates layout runtime (masterParse layout parsing w) ↔
      KeepsPlaces layout runtime parsing w) := by
  obtain ⟨hrt, hlistens, hpool, hlua, hlbs⟩ := masterParse_fails layout w h
  refine ⟨⟨hrt.trans hruntime, hlistens, hpool, hlua⟩, ?_⟩
  rw [workerIterates_iff, hlbs, ModuleKind.inPlace_dynamicPost]
  constructor
  · rintro ⟨hnodup, hplaces⟩
    exact ⟨hnodup, hplaces⟩
  · intro hkeeps
    exact ⟨hkeeps.modules, hkeeps.loadbalances⟩

end Reload

/-- One load balance module is loaded, behind two static ones. -/
def leastLayout : ModuleLayout := ⟨100, 200, 300, 400, 500, 15, 2, by decide, by decide⟩

def leastMaster : MasterWorld :=
  masterParse leastLayout (.succeeds ⟨[bytes "phl_m.so"], [bytes "phl_a.so"]⟩)
    ⟨none, none, none, none, 0, fun _ => ⟨0, 0, 0, 0, 0⟩, fun _ => ⟨0, 0⟩⟩

/-- The failed configuration has another request module, and no load balance module. -/
theorem masterParse_failed_other :
    ((masterParse leastLayout (.noListen ⟨[bytes "phl_n.so"], []⟩) leastMaster).confRuntime =
        some ⟨[bytes "phl_m.so"], [bytes "phl_a.so"]⟩ ∧
      (masterParse leastLayout (.noListen ⟨[bytes "phl_n.so"], []⟩) leastMaster).confListens =
        some 1 ∧
      (masterParse leastLayout (.noListen ⟨[bytes "phl_n.so"], []⟩) leastMaster).confPool =
        some 1 ∧
      (masterParse leastLayout (.noListen ⟨[bytes "phl_n.so"], []⟩) leastMaster).lua = some 1) ∧
    (WorkerIterates leastLayout ⟨[bytes "phl_m.so"], [bytes "phl_a.so"]⟩
        (masterParse leastLayout (.noListen ⟨[bytes "phl_n.so"], []⟩) leastMaster) ↔
      KeepsPlaces leastLayout ⟨[bytes "phl_m.so"], [bytes "phl_a.so"]⟩
        (.noListen ⟨[bytes "phl_n.so"], []⟩) leastMaster) :=
  masterParse_failed_iff nofun rfl

/-- A configuration without Listen that has another load balance module before the running one
moves the latter, and the worker misses it. -/
theorem loadbalance_displaced :
    WorkerIterates leastLayout ⟨[bytes "phl_m.so"], [bytes "phl_a.so"]⟩ leastMaster ∧
      leastMaster.loadbalances (bytes "phl_a.so") = ⟨2, 516⟩ ∧
      (masterParse leastLayout (.noListen ⟨[], [bytes "phl_b.so", bytes "phl_a.so"]⟩)
        leastMaster).loadbalances (bytes "phl_a.so") = ⟨3, 524⟩ ∧
      ¬WorkerIterates leastLayout ⟨[bytes "phl_m.so"], [bytes "phl_a.so"]⟩
        (masterParse leastLayout (.noListen ⟨[], [bytes "phl_b.so", bytes "phl_a.so"]⟩)
          leastMaster) := by
  refine ⟨workerIterates_iff.mpr ⟨by decide, fun i f hget => ?_⟩, by decide, by decide,
    fun h => ?_⟩
  · obtain ⟨hlt, -⟩ := List.getElem?_eq_some_iff.mp hget
    have hi : i = 0 := Nat.lt_one_iff.mp hlt
    rw [hi] at hget ⊢
    rw [← Option.some.inj hget]
    decide
  · have hplace := h.2.inPlace 0 (bytes "phl_a.so") rfl
    revert hplace
    decide

end Phorklift
