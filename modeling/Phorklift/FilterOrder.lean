import Phorklift.HostnameSpec
import Phorklift.ModuleReload
import Phorklift.PointerArray
import Mathlib.Data.Prod.Lex
import Mathlib.Order.WithBot

/-! The arrays of the filters of a Path, and the order of the modules in them. -/

namespace Phorklift

open PointerArray

/-- `x == y` -/
def Double.equals : Double → Double → Bool
  | .nan, _ => false
  | _, .nan => false
  | x, y => decide (x = y)

/-- `x < y` -/
def Double.less : Double → Double → Bool
  | .finite x, .finite y => decide (x < y)
  | .finite _, .inf negative => !negative
  | .inf negative, .finite _ => negative
  | .inf negative, .inf negative' => negative && !negative'
  | .nan, _ => false
  | _, .nan => false

/-- `PHL_MODULE_FILTER_PROCESS_HEADERS` and so on. -/
inductive ModuleFilter
  | processHeaders
  | processBody
  | responseHeaders
  | responseBody
  deriving DecidableEq, Repr

/-- The indices up to `PHL_MODULE_FILTER_NUM`. -/
def ModuleFilter.all : List ModuleFilter :=
  [.processHeaders, .processBody, .responseHeaders, .responseBody]

/-- `m->filters`: which handlers are not NULL, and the ranks, none of which is NaN. -/
structure ModuleFilters where
  defines : ModuleFilter → Bool
  ranks : ModuleFilter → Double
  ranks_ne : ∀ k, ranks k ≠ .nan

/-- `conf->modules` and `counts` -/
structure FilterRows where
  modules : ModuleFilter → List (Option ModuleRef)
  counts : ModuleFilter → Nat

/-- `phl_module_filters_rank_index` and `phl_module_filters_ranks` -/
structure RankGlobals where
  rankIndex : ModuleFilter
  ranks : Nat → Double

/-- `m->index` -/
def ModuleRef.index (objs : Bytes → ModuleFields) : ModuleRef → Nat
  | .static i => i
  | .dynamic f => (objs f).index

/-- `PHL_MODULE_MAX` -/
def phlModuleMax (layout : ModuleLayout) : Nat := layout.moduleStaticNumber + 20

section Post

variable (layout : ModuleLayout) (names : List Bytes) (objs : Bytes → ModuleFields)
  (filters : ModuleRef → ModuleFilters)

/-- `conf->modules[k][counts[k]++] = m`, `none` where this is outside of the array. -/
def storeFilter (m : ModuleRef) (s : FilterRows) (k : ModuleFilter) : Option FilterRows :=
  if (filters m).defines k then
    if s.counts k < (s.modules k).length then
      some ⟨Function.update s.modules k ((s.modules k).set (s.counts k) (some m)),
        Function.update s.counts k (s.counts k + 1)⟩
    else none
  else some s

/-- The loop over the modules, `none` where it takes more than `fuel` turns. -/
def collectFilters : Nat → Option ModuleRef → FilterRows → Option FilterRows
  | 0, _, _ => none
  | fuel + 1, m, s =>
    match (requestModules layout).next names objs m with
    | none => some s
    | some m =>
      (ModuleFilter.all.foldlM (storeFilter filters m) s).bind (collectFilters fuel (some m))

def phlModuleFilterGetRank (g : RankGlobals) (m : ModuleRef) : Double :=
  let rank := g.ranks (m.index objs)
  if rank ≠ .nan then rank else (filters m).ranks g.rankIndex

def phlModuleFilterCmp (g : RankGlobals) (ma mb : ModuleRef) : Int :=
  let ranka := phlModuleFilterGetRank objs filters g ma
  let rankb := phlModuleFilterGetRank objs filters g mb
  if ranka.equals rankb then (ma.index objs : Int) - mb.index objs
  else if ranka.less rankb then -1
  else 1

/-- A round of the loop that sorts the arrays. -/
def sortFilters (ranks : ModuleFilter → Nat → Double) (counts : ModuleFilter → Nat)
    (s : RankGlobals × (ModuleFilter → List (Option ModuleRef))) (k : ModuleFilter) :
    RankGlobals × (ModuleFilter → List (Option ModuleRef)) :=
  let g : RankGlobals := ⟨k, ranks k⟩
  (g, Function.update s.2 k
    (qsort (phlModuleFilterCmp objs filters g) (counts k) (s.2 k)))

/-- The arrays that it leaves; `conf->ranks` has NaN for a module that no rank is configured for, and
the rest of `conf` is zero before. -/
def phlModuleFiltersPost (fuel : Nat) (ranks : ModuleFilter → Nat → Double) (g : RankGlobals) :
    Option (ModuleFilter → List (Option ModuleRef)) :=
  (collectFilters layout names objs filters fuel none
    ⟨fun _ => List.replicate (phlModuleMax layout) none, fun _ => 0⟩).map fun s =>
      (ModuleFilter.all.foldl (sortFilters objs filters ranks s.counts) (g, s.modules)).2

end Post

/-- A configured rank counts if it is a number, and else the module's own. -/
def filterRank (objs : Bytes → ModuleFields) (filters : ModuleRef → ModuleFilters)
    (ranks : ModuleFilter → Nat → Double) (k : ModuleFilter) (m : ModuleRef) : Double :=
  match ranks k (m.index objs) with
  | .nan => (filters m).ranks k
  | rank => rank

/-- The module `a` goes before `b`: by rank, and then by index. -/
def FilterBefore (objs : Bytes → ModuleFields) (filters : ModuleRef → ModuleFilters)
    (ranks : ModuleFilter → Nat → Double) (k : ModuleFilter) (a b : ModuleRef) : Prop :=
  (filterRank objs filters ranks k a).less (filterRank objs filters ranks k b) = true ∨
    (filterRank objs filters ranks k a).equals (filterRank objs filters ranks k b) = true ∧
      a.index objs < b.index objs

/-- The modules that define a filter. -/
def definers (filters : ModuleRef → ModuleFilters) (k : ModuleFilter) (modules : List ModuleRef) :
    List ModuleRef :=
  modules.filter fun m => (filters m).defines k

/-- The array holds the modules that define the filter, in order, and a NULL behind them. -/
def OrderedFilters (objs : Bytes → ModuleFields) (filters : ModuleRef → ModuleFilters)
    (ranks : ModuleFilter → Nat → Double) (modules : List ModuleRef) (k : ModuleFilter)
    (row : List (Option ModuleRef)) : Prop :=
  ∃ l, Terminated row l ∧ l.Perm (definers filters k modules) ∧
    l.Pairwise (FilterBefore objs filters ranks k)

section Ranks

/-- The number that is no NaN, among the rationals and the infinities. -/
def Double.extended : Double → WithBot (WithTop ℚ)
  | .finite x => ((x : WithTop ℚ) : WithBot (WithTop ℚ))
  | .inf true => ⊥
  | .inf false => ((⊤ : WithTop ℚ) : WithBot (WithTop ℚ))
  | .nan => ⊥

theorem equals_iff {x y : Double} (hx : x ≠ .nan) (hy : y ≠ .nan) :
    x.equals y = true ↔ x.extended = y.extended := by
  cases x with
  | nan => exact absurd rfl hx
  | finite x =>
    cases y with
    | nan => exact absurd rfl hy
    | finite y => simp [Double.equals, Double.extended]
    | inf b => cases b <;> simp [Double.equals, Double.extended]
  | inf a =>
    cases y with
    | nan => exact absurd rfl hy
    | finite y => cases a <;> simp [Double.equals, Double.extended]
    | inf b => cases a <;> cases b <;> simp [Double.equals, Double.extended]

theorem less_iff {x y : Double} (hx : x ≠ .nan) (hy : y ≠ .nan) :
    x.less y = true ↔ x.extended < y.extended := by
  cases x with
  | nan => exact absurd rfl hx
  | finite x =>
    cases y with
    | nan => exact absurd rfl hy
    | finite y => simp [Double.less, Double.extended]
    | inf b =>
      cases b with
      | false => exact iff_of_true rfl (WithBot.coe_lt_coe.mpr (WithTop.coe_lt_top x))
      | true => simp [Double.less, Double.extended]
  | inf a =>
    cases y with
    | nan => exact absurd rfl hy
    | finite y => cases a <;> simp [Double.less, Double.extended]
    | inf b => cases a <;> cases b <;> simp [Double.less, Double.extended]

variable {objs : Bytes → ModuleFields} {filters : ModuleRef → ModuleFilters}
  {ranks : ModuleFilter → Nat → Double} {k : ModuleFilter}

theorem filterRank_eq (m : ModuleRef) :
    phlModuleFilterGetRank objs filters ⟨k, ranks k⟩ m = filterRank objs filters ranks k m := by
  unfold phlModuleFilterGetRank filterRank
  dsimp only
  cases ranks k (m.index objs) with
  | nan => rfl
  | finite x => rfl
  | inf b => rfl

theorem filterRank_ne (m : ModuleRef) : filterRank objs filters ranks k m ≠ .nan := by
  unfold filterRank
  split
  next => exact (filters m).ranks_ne k
  next hne => exact hne

/-- What the modules are sorted by. -/
def filterKey (objs : Bytes → ModuleFields) (filters : ModuleRef → ModuleFilters)
    (ranks : ModuleFilter → Nat → Double) (k : ModuleFilter) (m : ModuleRef) :
    WithBot (WithTop ℚ) ×ₗ Nat :=
  toLex ((filterRank objs filters ranks k m).extended, m.index objs)

theorem comparesBy_filterKey :
    ComparesBy (phlModuleFilterCmp objs filters ⟨k, ranks k⟩) (filterKey objs filters ranks k) := by
  intro a b
  have ha := @filterRank_ne objs filters ranks k a
  have hb := @filterRank_ne objs filters ranks k b
  unfold phlModuleFilterCmp filterKey
  rw [filterRank_eq, filterRank_eq, Prod.Lex.toLex_le_toLex]
  dsimp only
  generalize filterRank objs filters ranks k a = x at ha
  generalize filterRank objs filters ranks k b = y at hb
  split
  next heq =>
    have hext := (equals_iff ha hb).mp heq
    rw [hext]
    constructor
    · intro hle
      exact .inr ⟨rfl, by omega⟩
    · rintro (hlt | ⟨-, hle⟩)
      · exact absurd hlt (lt_irrefl _)
      · omega
  next hne =>
    have hext := mt (equals_iff ha hb).mpr hne
    split
    next hless => exact iff_of_true (by decide) (.inl ((less_iff ha hb).mp hless))
    next hnot =>
      have hnlt := mt (less_iff ha hb).mpr hnot
      refine iff_of_false (by decide) ?_
      rintro (hlt | ⟨heq, -⟩)
      · exact hnlt hlt
      · exact hext heq

theorem filterKey_lt_iff (a b : ModuleRef) : filterKey objs filters ranks k a <
    filterKey objs filters ranks k b ↔ FilterBefore objs filters ranks k a b := by
  have ha := @filterRank_ne objs filters ranks k a
  have hb := @filterRank_ne objs filters ranks k b
  unfold filterKey FilterBefore
  rw [Prod.Lex.toLex_lt_toLex, less_iff ha hb, equals_iff ha hb]

end Ranks

section Collect

variable {layout : ModuleLayout} {names : List Bytes} {objs : Bytes → ModuleFields}
  {filters : ModuleRef → ModuleFilters} {s : FilterRows} {lists : ModuleFilter → List ModuleRef}
  {size : Nat}

/-- The arrays hold the modules of the lists, which are counted. -/
structure FilterRows.Hold (s : FilterRows) (size : Nat) (lists : ModuleFilter → List ModuleRef) :
    Prop where
  modules : ∀ k, s.modules k = filled size (lists k)
  counts : ∀ k, s.counts k = (lists k).length
  fits : ∀ k, (lists k).length ≤ size

/-- The lists with a module that is stored for the filters `ks`. -/
def addModule (filters : ModuleRef → ModuleFilters) (m : ModuleRef) (ks : List ModuleFilter)
    (lists : ModuleFilter → List ModuleRef) (k : ModuleFilter) : List ModuleRef :=
  if k ∈ ks ∧ (filters m).defines k = true then lists k ++ [m] else lists k

theorem storeFilter_hold (h : s.Hold size lists) (m : ModuleRef) (k : ModuleFilter)
    (hroom : (lists k).length < size) :
    ∃ t, storeFilter filters m s k = some t ∧ t.Hold size (addModule filters m [k] lists) := by
  cases hdef : (filters m).defines k with
  | false =>
    have hstore : storeFilter filters m s k = some s := by
      unfold storeFilter
      rw [hdef]
      rfl
    have hsame : addModule filters m [k] lists = lists := by
      funext j
      apply if_neg
      rintro ⟨hj, hdefj⟩
      rw [List.mem_singleton.mp hj, hdef] at hdefj
      cases hdefj
    rw [hsame]
    exact ⟨s, hstore, h⟩
  | true =>
    have hself : addModule filters m [k] lists k = lists k ++ [m] :=
      if_pos ⟨List.mem_singleton_self k, hdef⟩
    have hother : ∀ j, j ≠ k → addModule filters m [k] lists j = lists j := by
      intro j hj
      exact if_neg fun hmem => hj (List.mem_singleton.mp hmem.1)
    have hlt : s.counts k < (s.modules k).length := by
      rw [h.counts, h.modules, length_filled (h.fits k)]
      exact hroom
    have hstore : storeFilter filters m s k = some
        ⟨Function.update s.modules k ((s.modules k).set (s.counts k) (some m)),
          Function.update s.counts k (s.counts k + 1)⟩ := by
      unfold storeFilter
      rw [hdef, if_pos rfl, if_pos hlt]
    refine ⟨_, hstore, ?_, ?_, ?_⟩
    · intro j
      dsimp only
      by_cases hj : j = k
      · rw [hj, Function.update_self, hself, h.modules, h.counts, filled_set hroom]
      · rw [Function.update_of_ne hj, hother j hj, h.modules]
    · intro j
      dsimp only
      by_cases hj : j = k
      · rw [hj, Function.update_self, hself, h.counts, List.length_append, List.length_singleton]
      · rw [Function.update_of_ne hj, hother j hj, h.counts]
    · intro j
      by_cases hj : j = k
      · rw [hj, hself, List.length_append, List.length_singleton]
        omega
      · rw [hother j hj]
        exact h.fits j

theorem addModule_cons {m : ModuleRef} {k : ModuleFilter} {ks : List ModuleFilter} (hk : k ∉ ks) :
    addModule filters m ks (addModule filters m [k] lists) = addModule filters m (k :: ks) lists := by
  funext j
  by_cases hj : j = k
  · subst hj
    unfold addModule
    simp [hk]
  · unfold addModule
    simp [hj]

theorem storeFilters_hold (m : ModuleRef) {ks : List ModuleFilter} (hks : ks.Nodup)
    (h : s.Hold size lists) (hroom : ∀ k ∈ ks, (lists k).length < size) :
    ∃ t, ks.foldlM (storeFilter filters m) s = some t ∧
      t.Hold size (addModule filters m ks lists) := by
  induction ks generalizing s lists with
  | nil =>
    have hsame : addModule filters m [] lists = lists := by
      funext j
      exact if_neg fun hmem => List.not_mem_nil hmem.1
    rw [hsame]
    exact ⟨s, rfl, h⟩
  | cons k ks ih =>
    obtain ⟨hk, hrest⟩ := List.nodup_cons.mp hks
    obtain ⟨t, hstore, ht⟩ : ∃ t, storeFilter filters m s k = some t ∧
        t.Hold size (addModule filters m [k] lists) :=
      storeFilter_hold h m k (hroom k List.mem_cons_self)
    have hroom' : ∀ j ∈ ks, (addModule filters m [k] lists j).length < size := by
      intro j hj
      have hne : j ≠ k := by
        rintro rfl
        exact hk hj
      have hsame : addModule filters m [k] lists j = lists j :=
        if_neg fun hmem => hne (List.mem_singleton.mp hmem.1)
      rw [hsame]
      exact hroom j (List.mem_cons_of_mem k hj)
    obtain ⟨t', hstores, ht'⟩ := ih hrest ht hroom'
    refine ⟨t', ?_, ?_⟩
    · rw [List.foldlM_cons, hstore]
      exact hstores
    · rw [addModule_cons hk] at ht'
      exact ht'

theorem definers_cons (k : ModuleFilter) (m : ModuleRef) (modules : List ModuleRef) :
    definers filters k (m :: modules) =
      if (filters m).defines k then m :: definers filters k modules
      else definers filters k modules :=
  List.filter_cons

theorem storeModules_hold (modules : List ModuleRef) (h : s.Hold size lists)
    (hroom : ∀ k, (lists k).length + modules.length ≤ size) :
    ∃ t, modules.foldlM (fun s m => ModuleFilter.all.foldlM (storeFilter filters m) s) s = some t ∧
      t.Hold size fun k => lists k ++ definers filters k modules := by
  induction modules generalizing s lists with
  | nil =>
    have hsame : (fun k => lists k ++ definers filters k []) = lists := by
      funext k
      exact List.append_nil _
    rw [hsame]
    exact ⟨s, rfl, h⟩
  | cons m modules ih =>
    have hmem : ∀ k : ModuleFilter, k ∈ ModuleFilter.all := by
      intro k
      cases k <;> decide
    obtain ⟨t, hstore, ht⟩ : ∃ t, ModuleFilter.all.foldlM (storeFilter filters m) s = some t ∧
        t.Hold size (addModule filters m ModuleFilter.all lists) := by
      apply storeFilters_hold m (by decide) h
      intro k _
      have hk := hroom k
      rw [List.length_cons] at hk
      omega
    have hadd : ∀ k, addModule filters m ModuleFilter.all lists k =
        if (filters m).defines k then lists k ++ [m] else lists k := by
      intro k
      exact if_congr (and_iff_right (hmem k)) rfl rfl
    have hroom' : ∀ k, (addModule filters m ModuleFilter.all lists k).length + modules.length ≤
        size := by
      intro k
      have hk := hroom k
      rw [List.length_cons] at hk
      rw [hadd]
      split
      · rw [List.length_append, List.length_singleton]
        omega
      · omega
    have hlists : (fun k => addModule filters m ModuleFilter.all lists k ++
        definers filters k modules) = fun k => lists k ++ definers filters k (m :: modules) := by
      funext k
      rw [hadd, definers_cons]
      split
      · rw [List.append_assoc]
        rfl
      · rfl
    obtain ⟨t', hstores, ht'⟩ := ih ht hroom'
    refine ⟨t', ?_, ?_⟩
    · rw [List.foldlM_cons, hstore]
      exact hstores
    · rw [hlists] at ht'
      exact ht'

/-- The loop takes the modules in the order of their places. -/
theorem collectFilters_eq (h : (requestModules layout).InPlace names objs) {fuel n : Nat}
    {p : Option ModuleRef}
    (hp : (requestModules layout).next names objs p = ((requestModules layout).refs names)[n]?)
    (hn : n ≤ ((requestModules layout).refs names).length)
    (hfuel : ((requestModules layout).refs names).length < n + fuel) (s : FilterRows) :
    collectFilters layout names objs filters fuel p s =
      (((requestModules layout).refs names).drop n).foldlM
        (fun s m => ModuleFilter.all.foldlM (storeFilter filters m) s) s := by
  induction fuel generalizing n p s with
  | zero => omega
  | succ fuel ih =>
    unfold collectFilters
    rw [hp]
    cases hget : ((requestModules layout).refs names)[n]? with
    | none =>
      rw [List.drop_eq_nil_of_le (List.getElem?_eq_none_iff.mp hget)]
      rfl
    | some m =>
      obtain ⟨hlt, hm⟩ := List.getElem?_eq_some_iff.mp hget
      have hnext : (requestModules layout).next names objs (some m) =
          ((requestModules layout).refs names)[n + 1]? := by
        have hvisit := h.visits (n + 1)
        unfold ModuleKind.visited at hvisit
        rw [h.visits, hget] at hvisit
        exact hvisit
      rw [List.drop_eq_getElem_cons hlt, hm, List.foldlM_cons]
      dsimp only
      exact bind_congr fun t => ih hnext hlt (by omega) t

end Collect

section Sorting

variable {layout : ModuleLayout} {names : List Bytes} {objs : Bytes → ModuleFields}
  {filters : ModuleRef → ModuleFilters} {ranks : ModuleFilter → Nat → Double}
  {counts : ModuleFilter → Nat}

/-- Each array is sorted by its own ranks, and the others are left as they are. -/
theorem sortFilters_fold {ks : List ModuleFilter} (hks : ks.Nodup)
    (s : RankGlobals × (ModuleFilter → List (Option ModuleRef))) (k : ModuleFilter) :
    (ks.foldl (sortFilters objs filters ranks counts) s).2 k =
      if k ∈ ks then qsort (phlModuleFilterCmp objs filters ⟨k, ranks k⟩) (counts k) (s.2 k)
      else s.2 k := by
  induction ks generalizing s with
  | nil => rfl
  | cons j ks ih =>
    obtain ⟨hj, hrest⟩ := List.nodup_cons.mp hks
    rw [List.foldl_cons, ih hrest]
    unfold sortFilters
    dsimp only
    by_cases hk : k = j
    · subst hk
      rw [if_neg hj, if_pos List.mem_cons_self, Function.update_self]
    · rw [Function.update_of_ne hk]
      apply if_congr _ rfl rfl
      rw [List.mem_cons, or_iff_right hk]

/-- A module that is in place has the index of its place. -/
theorem refs_index (h : (requestModules layout).InPlace names objs) {n : Nat} {m : ModuleRef}
    (hm : ((requestModules layout).refs names)[n]? = some m) : m.index objs = n := by
  by_cases hstatic : n < (requestModules layout).staticNumber
  · rw [ModuleKind.refs_static hstatic] at hm
    rw [← Option.some.inj hm]
    rfl
  · obtain ⟨i, rfl⟩ := Nat.exists_eq_add_of_le (Nat.not_lt.mp hstatic)
    rw [ModuleKind.refs_dynamic] at hm
    obtain ⟨f, hf, rfl⟩ := Option.map_eq_some_iff.mp hm
    show (objs f).index = _
    rw [h i f hf]
    rfl

theorem refs_index_nodup (h : (requestModules layout).InPlace names objs) :
    (((requestModules layout).refs names).map (ModuleRef.index objs)).Nodup := by
  have hrange : ((requestModules layout).refs names).map (ModuleRef.index objs) =
      List.range ((requestModules layout).refs names).length := by
    apply List.ext_getElem?
    intro n
    rw [List.getElem?_map]
    cases hget : ((requestModules layout).refs names)[n]? with
    | none =>
      have hlen := List.getElem?_eq_none_iff.mp hget
      rw [List.getElem?_eq_none (by rw [List.length_range]; exact hlen)]
      rfl
    | some m =>
      obtain ⟨hlt, -⟩ := List.getElem?_eq_some_iff.mp hget
      rw [List.getElem?_range hlt, Option.map_some, refs_index h hget]
  rw [hrange]
  exact List.nodup_range

variable (layout) in
theorem length_refs_le (hmax : names.length ≤ 20) :
    ((requestModules layout).refs names).length ≤ phlModuleMax layout := by
  unfold ModuleKind.refs phlModuleMax
  rw [List.length_append, List.length_map, List.length_range, List.length_map]
  exact Nat.add_le_add_left hmax _

/-- The loop over the modules ends, and each array begins with the modules that define its filter. -/
theorem collectFilters_hold (h : (requestModules layout).InPlace names objs)
    (hmax : names.length ≤ 20) {fuel : Nat}
    (hfuel : ((requestModules layout).refs names).length < fuel) :
    ∃ s, collectFilters layout names objs filters fuel none
        ⟨fun _ => List.replicate (phlModuleMax layout) none, fun _ => 0⟩ = some s ∧
      s.Hold (phlModuleMax layout)
        fun k => definers filters k ((requestModules layout).refs names) := by
  have hlen := length_refs_le layout hmax
  have hstart : (⟨fun _ => List.replicate (phlModuleMax layout) none, fun _ => 0⟩ : FilterRows).Hold
      (phlModuleMax layout) fun _ => [] :=
    ⟨fun _ => rfl, fun _ => rfl, fun _ => Nat.zero_le _⟩
  have hroom : ∀ k : ModuleFilter, ((fun _ => []) k : List ModuleRef).length +
      ((requestModules layout).refs names).length ≤ phlModuleMax layout := by
    intro k
    rw [List.length_nil, Nat.zero_add]
    exact hlen
  rw [collectFilters_eq h (h.visits 0) (Nat.zero_le _) (by omega), List.drop_zero]
  exact storeModules_hold _ hstart hroom

theorem definers_keys_nodup (h : (requestModules layout).InPlace names objs) (k : ModuleFilter) :
    ((definers filters k ((requestModules layout).refs names)).map
      (filterKey objs filters ranks k)).Nodup := by
  have hindices : ((definers filters k ((requestModules layout).refs names)).map
      (ModuleRef.index objs)).Nodup :=
    (refs_index_nodup h).sublist (List.filter_sublist.map _)
  have hsnd : ((definers filters k ((requestModules layout).refs names)).map
      (filterKey objs filters ranks k)).map (fun key => (ofLex key).2) =
        (definers filters k ((requestModules layout).refs names)).map (ModuleRef.index objs) := by
    rw [List.map_map]
    rfl
  rw [← hsnd] at hindices
  exact hindices.of_map _

/-- A sorted array is as it should be where a NULL is left. -/
theorem sorted_ordered_iff {size : Nat} {modules : List ModuleRef} {k : ModuleFilter}
    (hkeys : ((definers filters k modules).map (filterKey objs filters ranks k)).Nodup)
    (hfits : (definers filters k modules).length ≤ size) :
    OrderedFilters objs filters ranks modules k
        (qsort (phlModuleFilterCmp objs filters ⟨k, ranks k⟩) (definers filters k modules).length
          (filled size (definers filters k modules))) ↔
      (definers filters k modules).length < size := by
  have hperm := List.mergeSort_perm (definers filters k modules)
    fun a b => decide (phlModuleFilterCmp objs filters ⟨k, ranks k⟩ a b ≤ 0)
  have hlen := hperm.length_eq
  rw [qsort_filled, ← hlen]
  rw [← hlen] at hfits
  constructor
  · rintro ⟨l, hrow, -⟩
    exact ((filled_terminated_iff hfits).mp hrow).2
  · intro hroom
    refine ⟨_, filled_terminated hroom, hperm, ?_⟩
    apply (mergeSort_strict comparesBy_filterKey hkeys).imp
    intro a b hab
    exact (filterKey_lt_iff a b).mp hab

/-- The arrays after the sorts. -/
theorem phlModuleFiltersPost_ordered (h : (requestModules layout).InPlace names objs)
    (hmax : names.length ≤ 20) {fuel : Nat}
    (hfuel : ((requestModules layout).refs names).length < fuel)
    (ranks : ModuleFilter → Nat → Double) (g : RankGlobals) :
    ∃ arrays, phlModuleFiltersPost layout names objs filters fuel ranks g = some arrays ∧
      ∀ k, (OrderedFilters objs filters ranks ((requestModules layout).refs names) k (arrays k) ↔
        (definers filters k ((requestModules layout).refs names)).length < phlModuleMax layout) := by
  obtain ⟨s, hcollect, hs⟩ := @collectFilters_hold layout names objs filters h hmax fuel hfuel
  refine ⟨_, by unfold phlModuleFiltersPost; rw [hcollect]; rfl, ?_⟩
  intro k
  have hk : k ∈ ModuleFilter.all := by cases k <;> decide
  dsimp only
  rw [sortFilters_fold (by decide), if_pos hk]
  dsimp only
  rw [hs.modules, hs.counts]
  exact sorted_ordered_iff (definers_keys_nodup h k) (hs.fits k)

/-- An array is full where there are all the dynamic modules that there is room for, and no module is
without the filter. -/
theorem definers_length_iff (hmax : names.length ≤ 20) (k : ModuleFilter) :
    (definers filters k ((requestModules layout).refs names)).length < phlModuleMax layout ↔
      (names.length = 20 →
        ∃ m ∈ (requestModules layout).refs names, (filters m).defines k = false) := by
  have hlen : ((requestModules layout).refs names).length =
      layout.moduleStaticNumber + names.length := by
    unfold ModuleKind.refs
    rw [List.length_append, List.length_map, List.length_range, List.length_map]
    rfl
  have hle : (definers filters k ((requestModules layout).refs names)).length ≤
      ((requestModules layout).refs names).length := List.length_filter_le _ _
  unfold phlModuleMax
  by_cases hfull : names.length = 20
  · rw [hlen] at hle
    constructor
    · intro hlt _
      by_contra hnone
      have hall : definers filters k ((requestModules layout).refs names) =
          (requestModules layout).refs names := by
        apply List.filter_eq_self.mpr
        intro m hm
        by_contra hdef
        exact hnone ⟨m, hm, Bool.not_eq_true _ ▸ hdef⟩
      rw [hall, hlen] at hlt
      omega
    · intro hlacks
      obtain ⟨m, hm, hdef⟩ := hlacks hfull
      have hnot : ¬(filters m).defines k = true := by
        rw [hdef]
        exact Bool.false_ne_true
      have hlt : (definers filters k ((requestModules layout).refs names)).length <
          ((requestModules layout).refs names).length :=
        List.length_filter_lt_length_iff_exists.mpr ⟨m, hm, hnot⟩
      omega
  · exact iff_of_true (by omega) fun h => absurd h hfull

/-- Modules that are loaded once each are in place. -/
theorem inPlace_loaded (objs : Bytes → ModuleFields) (hnames : names.Nodup) :
    (requestModules layout).InPlace names ((requestModules layout).dynamicPost 0 names objs) := by
  apply ModuleKind.inPlace_dynamicPost.mpr
  intro i f hget
  refine .inl ⟨hget, ?_⟩
  intro j hij hj
  have hlt := (List.getElem?_eq_some_iff.mp hj).1
  exact List.nodup_iff_getElem?_ne_getElem?.mp hnames i j hij hlt (hget.trans hj.symm)

/-- The four arrays are in order, and end with a NULL, exactly where no filter is defined by all of
the modules that there is room for. -/
theorem filter_order_iff (hnames : names.Nodup) (hmax : names.length ≤ 20) {fuel : Nat}
    (hfuel : ((requestModules layout).refs names).length < fuel) (objs : Bytes → ModuleFields)
    (filters : ModuleRef → ModuleFilters) (ranks : ModuleFilter → Nat → Double) (g : RankGlobals) :
    (∃ arrays, phlModuleFiltersPost layout names
        ((requestModules layout).dynamicPost 0 names objs) filters fuel ranks g = some arrays ∧
      ∀ k, OrderedFilters ((requestModules layout).dynamicPost 0 names objs) filters ranks
        ((requestModules layout).refs names) k (arrays k)) ↔
      ∀ k, names.length = 20 →
        ∃ m ∈ (requestModules layout).refs names, (filters m).defines k = false := by
  have hplace : (requestModules layout).InPlace names
      ((requestModules layout).dynamicPost 0 names objs) := inPlace_loaded objs hnames
  obtain ⟨arrays, hpost, hordered⟩ :=
    @phlModuleFiltersPost_ordered layout names _ filters hplace hmax fuel hfuel ranks g
  constructor
  · rintro ⟨arrays', hpost', hall⟩ k
    have heq := Option.some.inj (hpost.symm.trans hpost')
    subst heq
    exact (definers_length_iff hmax k).mp ((hordered k).mp (hall k))
  · intro hlacks
    refine ⟨arrays, hpost, fun k => ?_⟩
    exact (hordered k).mpr ((definers_length_iff hmax k).mpr (hlacks k))

/-- A build of one static module. -/
def oneStatic : ModuleLayout :=
  ⟨100, 200, 300, 400, 500, 1, 2, Nat.one_pos, Nat.two_pos⟩

def dynamicNames (n : Nat) : List Bytes :=
  (List.range n).map fun i => bytes "phl_m" ++ decimal i ++ bytes ".so"

/-- Every module filters the headers of requests. -/
def headerFilters (_ : ModuleRef) : ModuleFilters where
  defines k := k == .processHeaders
  ranks _ := .finite 0
  ranks_ne _ := nofun

theorem filter_order_two : ∃ arrays, phlModuleFiltersPost oneStatic (dynamicNames 2)
      ((requestModules oneStatic).dynamicPost 0 (dynamicNames 2) fun _ => ⟨0, 0, 0, 0, 0⟩)
      headerFilters 4 (fun _ _ => .nan) ⟨.processHeaders, fun _ => .nan⟩ = some arrays ∧
    ∀ k, OrderedFilters
      ((requestModules oneStatic).dynamicPost 0 (dynamicNames 2) fun _ => ⟨0, 0, 0, 0, 0⟩)
      headerFilters (fun _ _ => .nan) ((requestModules oneStatic).refs (dynamicNames 2)) k
      (arrays k) :=
  (filter_order_iff (by decide) (by decide) (by decide) _ _ _ _).mpr
    fun _ hfull => absurd hfull (by decide)

/-- With 20 dynamic modules the array of the 21 filters has no room for a NULL. -/
theorem full_array_unterminated : (dynamicNames 20).Nodup ∧ (dynamicNames 20).length = 20 ∧
    ¬∃ arrays, phlModuleFiltersPost oneStatic (dynamicNames 20)
        ((requestModules oneStatic).dynamicPost 0 (dynamicNames 20) fun _ => ⟨0, 0, 0, 0, 0⟩)
        headerFilters 22 (fun _ _ => .nan) ⟨.processHeaders, fun _ => .nan⟩ = some arrays ∧
      ∀ k, OrderedFilters
        ((requestModules oneStatic).dynamicPost 0 (dynamicNames 20) fun _ => ⟨0, 0, 0, 0, 0⟩)
        headerFilters (fun _ _ => .nan) ((requestModules oneStatic).refs (dynamicNames 20)) k
        (arrays k) := by
  have hnodup : (dynamicNames 20).Nodup := by decide
  have hlen : (dynamicNames 20).length = 20 := rfl
  refine ⟨hnodup, hlen, ?_⟩
  rintro ⟨arrays', hpost', hall⟩
  have hplace : (requestModules oneStatic).InPlace (dynamicNames 20)
      ((requestModules oneStatic).dynamicPost 0 (dynamicNames 20) fun _ => ⟨0, 0, 0, 0, 0⟩) :=
    inPlace_loaded _ hnodup
  have hfuel : ((requestModules oneStatic).refs (dynamicNames 20)).length < 22 := by decide
  obtain ⟨arrays, hpost, hordered⟩ := @phlModuleFiltersPost_ordered oneStatic (dynamicNames 20) _
    headerFilters hplace hlen.le 22 hfuel (fun _ _ => .nan) ⟨.processHeaders, fun _ => .nan⟩
  have heq := Option.some.inj (hpost.symm.trans hpost')
  subst heq
  have hroom := (hordered .processHeaders).mp (hall .processHeaders)
  exact absurd hroom (by decide)

end Sorting

end Phorklift
