import Phorklift.Transition
import Phorklift.Bytes
import Mathlib.Data.List.Count

/-! The statistics of resolved addresses that the workers share. -/

namespace Phorklift

open Transition

/-- `struct phl_upstream_address_stats`, but for the counters. -/
structure StatsSlot where
  key : Nat
  refs : Int
  deriving DecidableEq

/-- `stats` is an index of `address_stats_start`, or none for `fake_stats`. -/
structure StatsAddress where
  name : Bytes
  stats : Option Nat
  deriving DecidableEq

inductive StatsFound
  | hit (i : Nat)
  | idle (first : Option Nat)
  deriving DecidableEq

/-- The loop of `phl_upstream_alloc_stats` from the index `i` on. -/
def statsScan (key : Nat) : List StatsSlot → Nat → Option Nat → StatsFound
  | [], _, firstIdle => .idle firstIdle
  | stats :: rest, i, firstIdle =>
    if stats.refs = 0 then
      -- the first one that has not been touched ends the loop
      if stats.key = 0 then .idle (firstIdle.or (some i))
      else statsScan key rest (i + 1) (firstIdle.or (some i))
    else if stats.key = key then .hit i
    else statsScan key rest (i + 1) firstIdle

def phlUpstreamAllocStats (workerNum : Int) (inWorker : Bool) (key : Nat)
    (slots : List StatsSlot) : List StatsSlot × Option Nat :=
  match statsScan key slots 0 none with
  | .hit i => (slots.modify i fun stats => { stats with refs := stats.refs + 1 }, some i)
  | .idle (some i) => (slots.set i ⟨key, if inWorker then 1 else workerNum⟩, some i)
  | .idle none => (slots, none)

/-- The processes that serve: the workers, or the master itself where there are none. -/
def processNum (workerNum : Int) : Nat := if workerNum < 0 then 1 else workerNum.toNat

/-- `pairs` are the processes with the addresses that each of them has, or gets from the master at
the fork. -/
structure StatsState where
  slots : List StatsSlot
  forked : Bool
  pairs : List (Nat × StatsAddress)
  deriving DecidableEq

/-- Memory of the pool that nobody has used. -/
def StatsState.init (resolvedAddressesMax : Nat) : StatsState :=
  ⟨List.replicate (resolvedAddressesMax * 2) ⟨0, 0⟩, false, []⟩

inductive StatsAct
  /-- the master adds an address of a hostname -/
  | masterAdd (name : Bytes)
  | fork
  | workerAdd (process : Nat) (name : Bytes)
  /-- `phl_upstream_address_defer_free` -/
  | free (process : Nat) (address : StatsAddress)
  deriving DecidableEq

namespace StatsState

/-- The addresses that use a slot. -/
def users (s : StatsState) (i : Nat) : Nat :=
  s.pairs.countP fun pair => decide (pair.2.stats = some i)

/-- `phl_upstream_address_add`, for some processes at once. -/
def add (vhash64 : Bytes → Nat) (workerNum : Int) (inWorker : Bool) (processes : List Nat)
    (name : Bytes) (s : StatsState) : StatsState :=
  let (slots, stats) := phlUpstreamAllocStats workerNum inWorker (vhash64 name) s.slots
  { s with
    slots := slots
    pairs := s.pairs ++ processes.map fun process => (process, ⟨name, stats⟩) }

end StatsState

def statsStep (vhash64 : Bytes → Nat) (workerNum : Int) (s : StatsState) :
    StatsAct → Option StatsState
  | .masterAdd name =>
    if s.forked then none
    else some (s.add vhash64 workerNum false (List.range (processNum workerNum)) name)
  | .fork => if s.forked then none else some { s with forked := true }
  | .workerAdd process name =>
    if s.forked ∧ process < processNum workerNum then
      some (s.add vhash64 workerNum true [process] name)
    else none
  | .free process address =>
    if s.forked ∧ (process, address) ∈ s.pairs then
      some { s with
        slots := match address.stats with
          | some i => s.slots.modify i fun stats => { stats with refs := stats.refs - 1 }
          | none => s.slots
        pairs := s.pairs.erase (process, address) }
    else none

/-- Every slot counts its users, no two slots in use have one key, and the addresses that share a
slot are one. -/
structure StatsCounted (s : StatsState) : Prop where
  refs : ∀ i stats, s.slots[i]? = some stats → stats.refs = (s.users i : Int)
  keys : ∀ i j stats stats', s.slots[i]? = some stats → s.slots[j]? = some stats' →
    0 < s.users i → 0 < s.users j → stats.key = stats'.key → i = j
  names : ∀ pair ∈ s.pairs, ∀ pair' ∈ s.pairs, ∀ i,
    pair.2.stats = some i → pair'.2.stats = some i → pair.2.name = pair'.2.name

/-- What may be added: an address found in a slot is the one that uses it, and is counted once;
for a new one no slot in use has its key, and it is counted for every process. -/
def StatsAddOk (vhash64 : Bytes → Nat) (workerNum : Int) (inWorker : Bool) (name : Bytes)
    (s : StatsState) : Prop :=
  match statsScan (vhash64 name) s.slots 0 none with
  | .hit i => (inWorker = true ∨ processNum workerNum = 1) ∧
      ∀ pair ∈ s.pairs, pair.2.stats = some i → pair.2.name = name
  | .idle (some _) => (inWorker = true ∨ 0 < workerNum) ∧
      ∀ stats ∈ s.slots, stats.refs ≠ 0 → stats.key ≠ vhash64 name
  | .idle none => True

def StatsStepOk (vhash64 : Bytes → Nat) (workerNum : Int) (s : StatsState) : StatsAct → Prop
  | .masterAdd name => StatsAddOk vhash64 workerNum false name s
  | .workerAdd _ name => StatsAddOk vhash64 workerNum true name s
  | _ => True

instance (vhash64 : Bytes → Nat) (workerNum : Int) (inWorker : Bool) (name : Bytes)
    (s : StatsState) : Decidable (StatsAddOk vhash64 workerNum inWorker name s) := by
  unfold StatsAddOk
  split <;> infer_instance

instance (vhash64 : Bytes → Nat) (workerNum : Int) (s : StatsState) (act : StatsAct) :
    Decidable (StatsStepOk vhash64 workerNum s act) := by
  unfold StatsStepOk
  split <;> infer_instance

section Scan

variable {key i j : Nat} {slots : List StatsSlot} {firstIdle first : Option Nat}

theorem statsScan_hit (h : statsScan key slots i firstIdle = .hit j) :
    ∃ stats, i ≤ j ∧ slots[j - i]? = some stats ∧ stats.refs ≠ 0 ∧ stats.key = key := by
  induction slots generalizing i firstIdle with
  | nil => cases h
  | cons stats rest ih =>
    have hnext : ∀ firstIdle, statsScan key rest (i + 1) firstIdle = .hit j →
        ∃ stats', i ≤ j ∧ (stats :: rest)[j - i]? = some stats' ∧ stats'.refs ≠ 0 ∧
          stats'.key = key := by
      intro firstIdle hrest
      obtain ⟨stats', hle, hget, hfound⟩ := ih hrest
      refine ⟨stats', by omega, ?_, hfound⟩
      rw [show j - i = j - (i + 1) + 1 by omega, List.getElem?_cons_succ]
      exact hget
    unfold statsScan at h
    split at h
    next =>
      split at h
      next => cases h
      next => exact hnext _ h
    next hused =>
      split at h
      next hkey =>
        rw [← StatsFound.hit.inj h, Nat.sub_self, List.getElem?_cons_zero]
        exact ⟨stats, Nat.le_refl i, rfl, hused, hkey⟩
      next => exact hnext _ h

theorem statsScan_idle (h : statsScan key slots i firstIdle = .idle (some j)) :
    firstIdle = some j ∨ ∃ stats, i ≤ j ∧ slots[j - i]? = some stats ∧ stats.refs = 0 := by
  induction slots generalizing i firstIdle with
  | nil =>
    cases h
    exact .inl rfl
  | cons stats rest ih =>
    have hnext : ∀ firstIdle, statsScan key rest (i + 1) firstIdle = .idle (some j) →
        firstIdle = some j ∨ ∃ stats', i ≤ j ∧ (stats :: rest)[j - i]? = some stats' ∧
          stats'.refs = 0 := by
      intro firstIdle hrest
      rcases ih hrest with hfirst | ⟨stats', hle, hget, hidle⟩
      · exact .inl hfirst
      · refine .inr ⟨stats', by omega, ?_, hidle⟩
        rw [show j - i = j - (i + 1) + 1 by omega, List.getElem?_cons_succ]
        exact hget
    have hhere : stats.refs = 0 → firstIdle.or (some i) = some j →
        firstIdle = some j ∨ ∃ stats', i ≤ j ∧ (stats :: rest)[j - i]? = some stats' ∧
          stats'.refs = 0 := by
      intro hidle hor
      cases firstIdle with
      | some first => exact .inl hor
      | none =>
        have heq : i = j := Option.some.inj hor
        rw [← heq, Nat.sub_self, List.getElem?_cons_zero]
        exact .inr ⟨stats, Nat.le_refl i, rfl, hidle⟩
    unfold statsScan at h
    split at h
    next hidle =>
      split at h
      next =>
        exact hhere hidle (StatsFound.idle.inj h)
      next =>
        rcases hnext _ h with hfirst | hlater
        · exact hhere hidle hfirst
        · exact .inr hlater
    next =>
      split at h
      next => cases h
      next => exact hnext _ h

end Scan

section Counted

variable {vhash64 : Bytes → Nat} {workerNum : Int} {inWorker : Bool} {processes : List Nat}
  {name : Bytes} {s t : StatsState} {i : Nat}

theorem users_pos_iff : 0 < s.users i ↔ ∃ pair ∈ s.pairs, pair.2.stats = some i := by
  unfold StatsState.users
  rw [List.countP_pos_iff]
  simp

/-- As many users as processes come to the slot that is found. -/
theorem users_added {pairs : List (Nat × StatsAddress)} {stats : Option Nat} :
    (pairs ++ processes.map fun process => (process, (⟨name, stats⟩ : StatsAddress))).countP
        (fun pair => decide (pair.2.stats = some i)) =
      pairs.countP (fun pair => decide (pair.2.stats = some i)) +
        if stats = some i then processes.length else 0 := by
  rw [List.countP_append, List.countP_map]
  congr 1
  split
  next h => simp [Function.comp_def, h]
  next h => simp [Function.comp_def, h]

/-- The addresses of one slot stay one if the new one is. -/
theorem names_added {pairs : List (Nat × StatsAddress)} {stats : Option Nat}
    (hnames : ∀ pair ∈ pairs, ∀ pair' ∈ pairs, ∀ i, pair.2.stats = some i →
      pair'.2.stats = some i → pair.2.name = pair'.2.name)
    (hnew : ∀ i, stats = some i → ∀ pair ∈ pairs, pair.2.stats = some i → pair.2.name = name) :
    ∀ pair ∈ pairs ++ processes.map fun process => (process, (⟨name, stats⟩ : StatsAddress)),
      ∀ pair' ∈ pairs ++ processes.map fun process => (process, (⟨name, stats⟩ : StatsAddress)),
      ∀ i, pair.2.stats = some i → pair'.2.stats = some i → pair.2.name = pair'.2.name := by
  intro pair hpair pair' hpair' i hi hi'
  rcases List.mem_append.mp hpair with hold | hadded
  · rcases List.mem_append.mp hpair' with hold' | hadded'
    · exact hnames pair hold pair' hold' i hi hi'
    · obtain ⟨process, -, rfl⟩ := List.mem_map.mp hadded'
      exact hnew i hi' pair hold hi
  · obtain ⟨process, -, rfl⟩ := List.mem_map.mp hadded
    rcases List.mem_append.mp hpair' with hold' | hadded'
    · exact (hnew i hi pair' hold' hi').symm
    · obtain ⟨process', -, rfl⟩ := List.mem_map.mp hadded'
      rfl

/-- A change of the references of one slot. -/
theorem modify_refs {slots : List StatsSlot} {f : StatsSlot → StatsSlot} {d : Int}
    (hf : ∀ stats, (f stats).key = stats.key ∧ (f stats).refs = stats.refs + d) {j : Nat}
    {stats : StatsSlot} (h : (slots.modify i f)[j]? = some stats) :
    ∃ before, slots[j]? = some before ∧ stats.key = before.key ∧
      stats.refs = before.refs + if i = j then d else 0 := by
  rw [List.getElem?_modify] at h
  obtain ⟨before, hbefore, heq⟩ := Option.map_eq_some_iff.mp h
  refine ⟨before, hbefore, ?_⟩
  rw [← heq]
  split
  next => exact hf before
  next => exact ⟨rfl, (Int.add_zero _).symm⟩

/-- One more reference to a slot in use counts its new users where they are one. -/
theorem hit_counted_iff (hs : StatsCounted s) {stats : StatsSlot} (hget : s.slots[i]? = some stats)
    (hused : stats.refs ≠ 0) (hne : 0 < processes.length) :
    StatsCounted ⟨s.slots.modify i fun stats => { stats with refs := stats.refs + 1 }, s.forked,
        s.pairs ++ processes.map fun process => (process, ⟨name, some i⟩)⟩ ↔
      processes.length = 1 ∧ ∀ pair ∈ s.pairs, pair.2.stats = some i → pair.2.name = name := by
  have hrefs := hs.refs i stats hget
  have husers : 0 < s.users i := by omega
  obtain ⟨process, hprocess⟩ := List.exists_mem_of_length_pos hne
  constructor
  · intro ht
    constructor
    · have hafter := ht.refs i { stats with refs := stats.refs + 1 } (by
        rw [List.getElem?_modify, hget]
        simp)
      unfold StatsState.users at hafter hrefs
      rw [users_added, if_pos rfl] at hafter
      dsimp only at hafter
      omega
    · intro pair hpair hstats
      exact ht.names pair (List.mem_append_left _ hpair) (process, ⟨name, some i⟩)
        (List.mem_append_right _ (List.mem_map.mpr ⟨process, hprocess, rfl⟩)) i hstats rfl
  · rintro ⟨hone, hnames⟩
    have hcount : ∀ j, (StatsState.users ⟨s.slots.modify i fun stats =>
          { stats with refs := stats.refs + 1 }, s.forked,
        s.pairs ++ processes.map fun process => (process, ⟨name, some i⟩)⟩ j) =
        s.users j + if i = j then 1 else 0 := by
      intro j
      unfold StatsState.users
      rw [users_added, hone]
      simp
    have hpos : ∀ j, 0 < s.users j + (if i = j then 1 else 0) → 0 < s.users j := by
      intro j hj
      by_cases hij : i = j
      · rw [← hij]
        exact husers
      · rw [if_neg hij] at hj
        exact hj
    have hchange : ∀ j stats', (s.slots.modify i fun stats =>
        { stats with refs := stats.refs + 1 })[j]? = some stats' →
        ∃ before, s.slots[j]? = some before ∧ stats'.key = before.key ∧
          stats'.refs = before.refs + if i = j then 1 else 0 := fun j stats' h =>
      modify_refs (f := fun stats => { stats with refs := stats.refs + 1 }) (fun _ => ⟨rfl, rfl⟩) h
    refine ⟨fun j stats' hstats' => ?_, fun j k st st' hst hst' hj hk hkey => ?_,
      names_added hs.names fun j hj => ?_⟩
    · obtain ⟨before, hbefore, -, hrefs'⟩ := hchange j stats' hstats'
      have hcounted := hs.refs j before hbefore
      rw [hcount, hrefs', hcounted]
      split <;> simp
    · obtain ⟨before, hbefore, hkey1, -⟩ := hchange j st hst
      obtain ⟨before', hbefore', hkey2, -⟩ := hchange k st' hst'
      rw [hcount] at hj hk
      exact hs.keys j k before before' hbefore hbefore' (hpos j hj) (hpos k hk)
        (hkey1.symm.trans (hkey.trans hkey2))
    · rw [← Option.some.inj hj]
      exact hnames

/-- The users of the slots once all processes have taken the one at `i`. -/
theorem users_taken (j : Nat) (stats : StatsSlot) :
    StatsState.users ⟨s.slots.set i stats, s.forked,
        s.pairs ++ processes.map fun process => (process, ⟨name, some i⟩)⟩ j =
      s.users j + if i = j then processes.length else 0 := by
  unfold StatsState.users
  rw [users_added]
  simp

/-- Counted after an idle slot is taken, the slot has all its users and its key is its own. -/
theorem taken_of_counted (hs : StatsCounted s) {stats : StatsSlot} {key : Nat} {refs : Int}
    (hget : s.slots[i]? = some stats) (hidle : stats.refs = 0) (hne : 0 < processes.length)
    (ht : StatsCounted ⟨s.slots.set i ⟨key, refs⟩, s.forked,
        s.pairs ++ processes.map fun process => (process, ⟨name, some i⟩)⟩) :
    refs = processes.length ∧ ∀ stats ∈ s.slots, stats.refs ≠ 0 → stats.key ≠ key := by
  have hlt := (List.getElem?_eq_some_iff.mp hget).1
  have hrefs := hs.refs i stats hget
  have hzero : s.users i = 0 := by omega
  have hself : (s.slots.set i ⟨key, refs⟩)[i]? = some ⟨key, refs⟩ := List.getElem?_set_self hlt
  constructor
  · have hafter := ht.refs i ⟨key, refs⟩ hself
    rw [users_taken, if_pos rfl, hzero, Nat.zero_add] at hafter
    exact hafter
  · intro other hother hused hkey
    obtain ⟨j, hj, hother⟩ := List.getElem_of_mem hother
    have hgetj : s.slots[j]? = some other := by rw [List.getElem?_eq_getElem hj, hother]
    have hrefsj := hs.refs j other hgetj
    by_cases hij : i = j
    · rw [← hij, hget] at hgetj
      rw [← Option.some.inj hgetj] at hused
      exact hused hidle
    · have hstays : (s.slots.set i ⟨key, refs⟩)[j]? = some other := by
        rw [List.getElem?_set_ne hij]
        exact hgetj
      have hsame := ht.keys i j ⟨key, refs⟩ other hself hstays
        (by rw [users_taken, if_pos rfl]; omega) (by rw [users_taken]; omega) hkey.symm
      exact hij hsame

/-- An idle slot is taken with all its users, under a key that no slot in use has. -/
theorem counted_of_taken (hs : StatsCounted s) {stats : StatsSlot} {key : Nat} {refs : Int}
    (hget : s.slots[i]? = some stats) (hidle : stats.refs = 0) (hall : refs = processes.length)
    (hkeys : ∀ stats ∈ s.slots, stats.refs ≠ 0 → stats.key ≠ key) :
    StatsCounted ⟨s.slots.set i ⟨key, refs⟩, s.forked,
        s.pairs ++ processes.map fun process => (process, ⟨name, some i⟩)⟩ := by
  have hlt := (List.getElem?_eq_some_iff.mp hget).1
  have hrefs := hs.refs i stats hget
  have hzero : s.users i = 0 := by omega
  have hself : (s.slots.set i ⟨key, refs⟩)[i]? = some ⟨key, refs⟩ := List.getElem?_set_self hlt
  have hother : ∀ j stats', i ≠ j → (s.slots.set i ⟨key, refs⟩)[j]? = some stats' →
      s.slots[j]? = some stats' := by
    intro j stats' hij h
    rw [List.getElem?_set_ne hij] at h
    exact h
  have hapart : ∀ j stats', i ≠ j → s.slots[j]? = some stats' → 0 < s.users j →
      stats'.key ≠ key := by
    intro j stats' hij h hj
    have users_takened := hs.refs j stats' h
    exact hkeys stats' (List.mem_of_getElem? h) (by omega)
  refine ⟨fun j stats' hstats' => ?_, fun j k st st' hst hst' hj hk hkey => ?_,
    names_added hs.names fun j hj => ?_⟩
  · rw [users_taken]
    by_cases hij : i = j
    · rw [← hij, hself] at hstats'
      rw [← Option.some.inj hstats', ← hij, if_pos rfl, hzero, Nat.zero_add]
      exact hall
    · rw [if_neg hij]
      exact hs.refs j stats' (hother j stats' hij hstats')
  · rw [users_taken] at hj hk
    by_cases hij : i = j
    · by_cases hik : i = k
      · rw [← hij, ← hik]
      · rw [if_neg hik] at hk
        rw [← hij, hself] at hst
        have hne := hapart k st' hik (hother k st' hik hst') hk
        rw [← Option.some.inj hst] at hkey
        exact absurd hkey.symm hne
    · rw [if_neg hij] at hj
      have hst1 := hother j st hij hst
      by_cases hik : i = k
      · rw [← hik, hself] at hst'
        rw [← Option.some.inj hst'] at hkey
        exact absurd hkey (hapart j st hij hst1 hj)
      · rw [if_neg hik] at hk
        exact hs.keys j k st st' hst1 (hother k st' hik hst') hj hk hkey
  · rw [← Option.some.inj hj]
    intro pair hpair hstats
    have hpos := users_pos_iff.mpr ⟨pair, hpair, hstats⟩
    omega

/-- A slot that nobody uses counts its users where it is given as many references, and has a key of
its own where none in use has it. -/
theorem idle_counted_iff (hs : StatsCounted s) {stats : StatsSlot} {key : Nat} {refs : Int}
    (hget : s.slots[i]? = some stats) (hidle : stats.refs = 0) (hne : 0 < processes.length) :
    StatsCounted ⟨s.slots.set i ⟨key, refs⟩, s.forked,
        s.pairs ++ processes.map fun process => (process, ⟨name, some i⟩)⟩ ↔
      refs = processes.length ∧ ∀ stats ∈ s.slots, stats.refs ≠ 0 → stats.key ≠ key :=
  ⟨taken_of_counted hs hget hidle hne, fun h => counted_of_taken hs hget hidle h.1 h.2⟩

/-- Addresses that find no slot are counted nowhere. -/
theorem fake_counted (hs : StatsCounted s) :
    StatsCounted ⟨s.slots, s.forked,
      s.pairs ++ processes.map fun process => (process, ⟨name, none⟩)⟩ := by
  have hcount : ∀ j, (StatsState.users ⟨s.slots, s.forked,
      s.pairs ++ processes.map fun process => (process, ⟨name, none⟩)⟩ j) = s.users j := by
    intro j
    unfold StatsState.users
    rw [users_added]
    simp
  refine ⟨fun j stats hstats => ?_, fun j k st st' hst hst' hj hk hkey => ?_,
    names_added hs.names fun j hj => ?_⟩
  · rw [hcount]
    exact hs.refs j stats hstats
  · rw [hcount] at hj hk
    exact hs.keys j k st st' hst hst' hj hk hkey
  · cases hj

/-- A freed address takes its reference with it. -/
theorem free_counted (hs : StatsCounted s) {pair : Nat × StatsAddress} (hpair : pair ∈ s.pairs) :
    StatsCounted ⟨match pair.2.stats with
        | some i => s.slots.modify i fun stats => { stats with refs := stats.refs - 1 }
        | none => s.slots, s.forked, s.pairs.erase pair⟩ := by
  have hnames : ∀ pair1 ∈ s.pairs.erase pair, ∀ pair2 ∈ s.pairs.erase pair, ∀ i,
      pair1.2.stats = some i → pair2.2.stats = some i → pair1.2.name = pair2.2.name :=
    fun pair1 h1 pair2 h2 => hs.names pair1 (List.mem_of_mem_erase h1) pair2
      (List.mem_of_mem_erase h2)
  have hcount : ∀ j, ((s.pairs.erase pair).countP fun pair => decide (pair.2.stats = some j)) =
      s.users j - if pair.2.stats = some j then 1 else 0 := by
    intro j
    rw [List.countP_erase]
    simp [hpair, StatsState.users]
  cases hstats : pair.2.stats with
  | none =>
    refine ⟨fun j stats h => ?_, fun j k st st' hst hst' hj hk hkey => ?_, hnames⟩
    · have hrefs := hs.refs j stats h
      unfold StatsState.users
      rw [hcount, hstats]
      simpa using hrefs
    · unfold StatsState.users at hj hk
      rw [hcount] at hj hk
      exact hs.keys j k st st' hst hst' (by omega) (by omega) hkey
  | some i =>
    have hused : 0 < s.users i := users_pos_iff.mpr ⟨pair, hpair, hstats⟩
    have hchange : ∀ j stats', (s.slots.modify i fun stats =>
        { stats with refs := stats.refs - 1 })[j]? = some stats' →
        ∃ before, s.slots[j]? = some before ∧ stats'.key = before.key ∧
          stats'.refs = before.refs + if i = j then -1 else 0 := fun j stats' h =>
      modify_refs (f := fun stats => { stats with refs := stats.refs - 1 }) (fun _ => ⟨rfl, rfl⟩) h
    refine ⟨fun j stats h => ?_, fun j k st st' hst hst' hj hk hkey => ?_, hnames⟩
    · obtain ⟨before, hbefore, -, hrefs'⟩ := hchange j stats h
      have hrefs := hs.refs j before hbefore
      unfold StatsState.users
      rw [hcount, hstats, hrefs', hrefs]
      by_cases hij : i = j
      · rw [if_pos hij, if_pos (by rw [hij]), ← hij]
        omega
      · rw [if_neg hij, if_neg (by simpa using hij)]
        omega
    · obtain ⟨before, hbefore, hkey1, -⟩ := hchange j st hst
      obtain ⟨before', hbefore', hkey2, -⟩ := hchange k st' hst'
      unfold StatsState.users at hj hk
      rw [hcount] at hj hk
      exact hs.keys j k before before' hbefore hbefore' (by omega) (by omega)
        (hkey1.symm.trans (hkey.trans hkey2))

/-- An addition keeps the count exactly where it may be made. -/
theorem add_counted_iff (hs : StatsCounted s) (hnum : workerNum ≠ 0)
    (hprocesses : processes.length = if inWorker then 1 else processNum workerNum) :
    StatsCounted (s.add vhash64 workerNum inWorker processes name) ↔
      StatsAddOk vhash64 workerNum inWorker name s := by
  have hne : 0 < processes.length := by
    rw [hprocesses]
    unfold processNum
    split
    next => omega
    next => split <;> omega
  unfold StatsState.add phlUpstreamAllocStats StatsAddOk
  cases hfound : statsScan (vhash64 name) s.slots 0 none with
  | hit i =>
    obtain ⟨stats, -, hget, hused, -⟩ := statsScan_hit hfound
    rw [Nat.sub_zero] at hget
    have hiff := @hit_counted_iff processes name s i hs stats hget hused hne
    dsimp only
    rw [hiff, hprocesses]
    cases inWorker <;> simp
  | idle first =>
    cases first with
    | none => exact iff_of_true (fake_counted hs) trivial
    | some i =>
      have hidle := (statsScan_idle hfound).resolve_left (by simp)
      obtain ⟨stats, -, hget, hzero⟩ := hidle
      rw [Nat.sub_zero] at hget
      have hiff := @idle_counted_iff processes name s i hs stats (vhash64 name)
        (if inWorker then 1 else workerNum) hget hzero hne
      have hrefs : ((if inWorker then 1 else workerNum : Int) = (processes.length : Int)) ↔
          inWorker = true ∨ 0 < workerNum := by
        rw [hprocesses]
        unfold processNum
        cases inWorker with
        | true => simp
        | false =>
          simp only [Bool.false_eq_true, if_false, false_or]
          split <;> omega
      dsimp only
      rw [hiff, hrefs]

theorem statsStep_counted_iff {act : StatsAct} (hnum : workerNum ≠ 0) (hs : StatsCounted s)
    (h : statsStep vhash64 workerNum s act = some t) :
    StatsCounted t ↔ StatsStepOk vhash64 workerNum s act := by
  unfold statsStep at h
  cases act with
  | masterAdd name =>
    dsimp only at h
    split at h
    next => cases h
    next =>
      cases h
      exact add_counted_iff hs hnum (by simp)
  | fork =>
    dsimp only at h
    split at h
    next => cases h
    next =>
      cases h
      exact iff_of_true ⟨hs.refs, hs.keys, hs.names⟩ trivial
  | workerAdd process name =>
    dsimp only at h
    split at h
    next =>
      cases h
      exact add_counted_iff hs hnum rfl
    next => cases h
  | free process address =>
    dsimp only at h
    split at h
    next hpair =>
      cases h
      exact iff_of_true (free_counted hs hpair.2) trivial
    next => cases h

theorem init_counted (resolvedAddressesMax : Nat) :
    StatsCounted (.init resolvedAddressesMax) where
  refs := by
    intro i stats h
    have hmem := List.mem_of_getElem? h
    rw [(List.mem_replicate.mp hmem).2]
    rfl
  keys := by
    intro i j stats stats' _ _ hi
    obtain ⟨pair, hpair, -⟩ := users_pos_iff.mp hi
    cases hpair
  names := by
    intro pair hpair
    cases hpair

end Counted

/-- A hash that is the first byte of the name. -/
def nameHash (name : Bytes) : Nat := (name.headD 0).toNat

/-- One worker: the master adds an address for two hostnames, the worker another one, and frees the
first of them once. -/
def oneWorker : List StatsAct :=
  [.masterAdd [97], .masterAdd [97], .fork, .workerAdd 0 [98], .free 0 ⟨[97], some 0⟩]

end Phorklift
