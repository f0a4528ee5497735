import Phorklift.HostLocate
import Mathlib.Data.List.Nodup

/-! Which lists of hostnames are registered. -/

namespace Phorklift

def HostList.hostnames (hosts : HostList) : List Bytes := hosts.entries.map (·.2)

/-- `.` -/
def dotName : Bytes := [46]

/-- `*.` -/
def starDotName : Bytes := [42, 46]

/-- A hostname in lower case and without its tail dot, that is `*` or has its wildcard, if any, at
one end next to a dot. -/
def Grammatical (n : Bytes) : Prop := n ≠ [] ∧ (n = [42] ∨ WildcardOk n)

/-- The hostnames are well formed and differ, in lower case and without their tail dots. -/
def FollowsGrammar (names : List Bytes) : Prop :=
  (∀ s ∈ names, Grammatical (hostSearchName s)) ∧ (names.map hostSearchName).Nodup

/-- The table is that of the hostnames in lower case and without their tail dots. -/
structure Describes (es : List (HostId × Bytes)) (t : HostTable) : Prop where
  dict : ∀ n h, t.hostDict.lookup n = some h ↔
    n ≠ [42] ∧ ∃ s, (h, s) ∈ es ∧ hostSearchName s = n
  wildcard : ∀ h, t.hostWildcard = some h ↔ ∃ s, (h, s) ∈ es ∧ hostSearchName s = [42]
  leading : t.anyPrefixHostname = true ↔
    ∃ e ∈ es, hostSearchName e.2 ≠ [42] ∧ isLeading (hostSearchName e.2) = true
  tail : t.anySubfixHostname = true ↔
    ∃ e ∈ es, hostSearchName e.2 ≠ [42] ∧ isTail (hostSearchName e.2) = true

structure RegistersGrammar (hosts : HostList) : Prop where
  accepts : (∃ t, phlConfHostRegister hosts = .ok t) ↔ FollowsGrammar hosts.hostnames
  describes : ∀ t, phlConfHostRegister hosts = .ok t → Describes hosts.entries t

/-- Neither is `.` the only thing wrong with the hostnames, nor `*.` among hostnames with nothing
wrong. -/
def NoOddName (names : List Bytes) : Prop :=
  ¬(dotName ∈ names ∧ starDotName ∉ names ∧ FollowsGrammar (names.erase dotName)) ∧
    ¬(starDotName ∈ names ∧ FollowsGrammar names)

section Register

variable {hosts : HostList} {t : HostTable} {s : Bytes} {names : List Bytes}

theorem searchName_eq_nil : hostSearchName s = [] ↔ s = [] ∨ s = dotName := by
  constructor
  · intro h
    have hkey := lower_eq_key s
    rw [h] at hkey
    rcases hkey with hlower | hlower
    · exact .inl ((lower_eq_iff (by simp)).mp hlower)
    · exact .inr ((lower_eq_iff (by decide)).mp hlower)
  · rintro (rfl | rfl) <;> rfl

theorem searchName_eq_star : hostSearchName s = [42] ↔ s = [42] ∨ s = starDotName := by
  constructor
  · intro h
    have hkey := lower_eq_key s
    rw [h] at hkey
    rcases hkey with hlower | hlower
    · exact .inl ((lower_eq_iff (by decide)).mp hlower)
    · exact .inr ((lower_eq_iff (by decide)).mp hlower)
  · rintro (rfl | rfl) <;> rfl

theorem searchName_ne_star (h : starDotName ∉ names) (hs : s ∈ names) :
    hostSearchName s ≠ [42] ↔ s ≠ [42] := by
  rw [ne_eq, searchName_eq_star, or_iff_left]
  rintro rfl
  exact h hs

theorem not_wildcardOk_star : ¬WildcardOk [42] := by
  rintro (hnone | ⟨s, hs, -⟩ | ⟨p, hp, -⟩)
  · exact hnone (List.mem_singleton.mpr rfl)
  · cases hs
  · have hlength := congrArg List.length hp
    rw [List.length_append] at hlength
    have htwo : p.length + 2 = 1 := hlength.symm
    omega

/-- What the code takes. -/
def Accepted (names : List Bytes) : Prop :=
  (∀ s ∈ names, s ≠ [] ∧ (s ≠ [42] → WildcardOk (hostSearchName s))) ∧
    (names.map hostKey).Nodup

theorem register_accepts : (∃ t, phlConfHostRegister hosts = .ok t) ↔ Accepted hosts.hostnames := by
  have hkeys : hosts.hostnames.map hostKey = hosts.entries.map fun e => hostKey e.2 := List.map_map
  unfold Accepted
  rw [hkeys]
  constructor
  · rintro ⟨t, ht⟩
    have hreg := registered_of_register ht
    exact ⟨List.forall_mem_map.mpr hreg.valid, hreg.nodup⟩
  · rintro ⟨hvalid, hnodup⟩
    exact registered_nil.fold_exists (List.forall_mem_map.mp hvalid) hnodup

theorem Accepted.not_starDot (h : Accepted names) : starDotName ∉ names := by
  intro hmem
  have hok : WildcardOk (hostSearchName starDotName) := (h.1 starDotName hmem).2 (by decide)
  exact not_wildcardOk_star hok

/-- Without `*.` the code tells names apart by their form without the dot. -/
theorem hostKey_nodup (h : starDotName ∉ names) :
    (names.map hostKey).Nodup ↔ (names.map hostSearchName).Nodup := by
  have hkey : names.map hostKey =
      (names.map hostSearchName).map fun n => if n = [42] then none else some n := by
    rw [List.map_map]
    apply List.map_congr_left
    intro s hs
    show hostKey s = if hostSearchName s = [42] then none else some (hostSearchName s)
    unfold hostKey
    by_cases hstar : s = [42]
    · rw [if_pos hstar, hstar]
      rfl
    · rw [if_neg hstar, if_neg ((searchName_ne_star h hs).mpr hstar)]
  rw [hkey]
  apply List.nodup_map_iff
  intro n n' hnn
  dsimp only at hnn
  split at hnn
  next hn =>
    split at hnn
    next hn' => rw [hn, hn']
    next => cases hnn
  next =>
    split at hnn
    next => cases hnn
    next => exact Option.some.inj hnn

theorem Registered.describes (h : Registered hosts.entries t)
    (hstar : starDotName ∉ hosts.hostnames) : Describes hosts.entries t := by
  have hne : ∀ e ∈ hosts.entries, hostSearchName e.2 ≠ [42] ↔ e.2 ≠ [42] :=
    fun e he => searchName_ne_star hstar (List.mem_map_of_mem he)
  refine ⟨fun n g => ?_, fun g => ?_, ?_, ?_⟩
  · rw [h.dict n g]
    constructor
    · rintro ⟨s, hs, hs42, rfl⟩
      exact ⟨(hne _ hs).mpr hs42, s, hs, rfl⟩
    · rintro ⟨hn, s, hs, rfl⟩
      exact ⟨s, hs, (hne _ hs).mp hn, rfl⟩
  · rw [h.wildcard g]
    constructor
    · exact fun hs => ⟨[42], hs, rfl⟩
    · rintro ⟨s, hs, hn⟩
      have hs42 : s = [42] := not_not.mp fun hs42 => (hne _ hs).mpr hs42 hn
      exact hs42 ▸ hs
  · rw [h.leading]
    exact exists_congr fun e => and_congr_right fun he => and_congr_left fun _ => (hne e he).symm
  · rw [h.tail]
    exact exists_congr fun e => and_congr_right fun he => and_congr_left fun _ => (hne e he).symm

theorem FollowsGrammar.not_dot (h : FollowsGrammar names) : dotName ∉ names :=
  fun hmem => (h.1 dotName hmem).1 rfl

/-- With neither odd name the code follows the grammar. -/
theorem accepted_iff (hdot : dotName ∉ names) (hstar : starDotName ∉ names) :
    Accepted names ↔ FollowsGrammar names := by
  unfold Accepted FollowsGrammar
  rw [hostKey_nodup hstar]
  apply and_congr_left
  intro _
  apply forall₂_congr
  intro s hs
  unfold Grammatical
  rw [ne_eq (hostSearchName s), searchName_eq_nil, not_or, and_assoc]
  apply and_congr_right
  intro _
  have hne : s ≠ dotName := fun h => hdot (h ▸ hs)
  rw [and_iff_right hne]
  constructor
  · intro hok
    by_cases hn : hostSearchName s = [42]
    · exact .inl hn
    · exact .inr (hok ((searchName_ne_star hstar hs).mp hn))
  · rintro (hn | hok) hs42
    · exact absurd hn ((searchName_ne_star hstar hs).mpr hs42)
    · exact hok

/-- The code takes a `.` among hostnames that follow the grammar without it. -/
theorem accepted_dot (hdot : dotName ∈ names) (hstar : starDotName ∉ names) :
    Accepted names ↔ FollowsGrammar (names.erase dotName) := by
  have hrest : starDotName ∉ names.erase dotName := fun h => hstar (List.mem_of_mem_erase h)
  have hperm := List.perm_cons_erase hdot
  have hall : Accepted names ↔ Accepted (dotName :: names.erase dotName) := by
    unfold Accepted
    rw [(hperm.map hostKey).nodup_iff]
    exact and_congr_left fun _ => forall_congr' fun s => imp_congr_left hperm.mem_iff
  rw [hall]
  constructor
  · rintro ⟨hvalid, hnodup⟩
    rw [List.map_cons, List.nodup_cons] at hnodup
    have honce : dotName ∉ names.erase dotName :=
      fun h => hnodup.1 (List.mem_map_of_mem h)
    exact (accepted_iff honce hrest).mp ⟨(List.forall_mem_cons.mp hvalid).2, hnodup.2⟩
  · intro h
    obtain ⟨hvalid, hnodup⟩ := (accepted_iff h.not_dot hrest).mpr h
    have hempty : WildcardOk (hostSearchName dotName) := .inl List.not_mem_nil
    refine ⟨List.forall_mem_cons.mpr ⟨⟨by decide, fun _ => hempty⟩, hvalid⟩, ?_⟩
    rw [List.map_cons, List.nodup_cons]
    refine ⟨fun hmem => ?_, hnodup⟩
    obtain ⟨s, hs, hkey⟩ := List.mem_map.mp hmem
    exact (h.1 s hs).1 (hostKey_eq_some.mp hkey).2

/-- The registration follows the grammar, and the table is that of the registered hostnames,
exactly where neither `.` nor `*.` decides it. -/
theorem host_register_iff (hosts : HostList) :
    RegistersGrammar hosts ↔ NoOddName hosts.hostnames := by
  have hdescribes : ∀ t, phlConfHostRegister hosts = .ok t → Describes hosts.entries t :=
    fun t ht => (registered_of_register ht).describes (register_accepts.mp ⟨t, ht⟩).not_starDot
  have hgrammar : RegistersGrammar hosts ↔
      (Accepted hosts.hostnames ↔ FollowsGrammar hosts.hostnames) := by
    rw [← register_accepts]
    exact ⟨fun h => h.accepts, fun h => ⟨h, hdescribes⟩⟩
  rw [hgrammar]
  generalize hosts.hostnames = names
  unfold NoOddName
  by_cases hstar : starDotName ∈ names
  · have hnot : ¬Accepted names := fun h => h.not_starDot hstar
    rw [iff_false_left hnot, and_iff_right fun h => h.2.1 hstar, not_and, forall_prop_of_true hstar]
  · rw [and_iff_left fun h => hstar h.1]
    by_cases hdot : dotName ∈ names
    · have hnot : ¬FollowsGrammar names := fun h => h.not_dot hdot
      rw [accepted_dot hdot hstar, iff_false_right hnot, and_iff_right hdot, and_iff_right hstar]
    · exact iff_of_true (accepted_iff hdot hstar) fun h => hdot h.1

/-- A Host named `.` is registered, under the empty name. -/
theorem host_register_dot :
    phlConfHostRegister [(0, [dotName])] = .ok ⟨[([], 0)], none, false, false⟩ ∧
      ¬FollowsGrammar (HostList.hostnames [(0, [dotName])]) ∧
      ¬RegistersGrammar [(0, [dotName])] := by
  have hnot : ¬FollowsGrammar (HostList.hostnames [(0, [dotName])]) :=
    fun h => h.not_dot (List.mem_singleton.mpr rfl)
  exact ⟨rfl, hnot, fun h => hnot (h.accepts.mp ⟨_, rfl⟩)⟩

/-- One named `*.` is not, though its form without the dot is `*`. -/
example : (phlConfHostRegister [(0, [starDotName])]).toBool = false := by decide

end Register

end Phorklift
