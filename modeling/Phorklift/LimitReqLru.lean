import Phorklift.LimitReq
import Phorklift.Recency
import Phorklift.Transition
import Mathlib.Data.List.Nodup

/-! Which node the rate limit recycles, and which expired nodes it leaves. -/

namespace Phorklift

open Recency Transition

section Model

/-- The shared memory and the requests so far, newest first. -/
structure LimitReqHistory (M : Type) where
  shared : LimitReqShared M
  past : List LimitReqRequest
  deriving DecidableEq

def LimitReqHistory.start {M : Type} (nodes : Nat) : LimitReqHistory M := ⟨⟨[], 0, nodes⟩, []⟩

variable {M : Type} (conf : LimitReqConf M)

/-- `phl_limit_req_process_headers` on the next request. -/
def limitReqStep (h : LimitReqHistory M) (r : LimitReqRequest) : Option (LimitReqHistory M) := do
  let (_, shared) ← phlLimitReqProcessHeaders conf r.time (some r.key) (some h.shared)
  let shared ← shared
  some ⟨shared, r :: h.past⟩

/-- The requests that come to a node. -/
def LimitReqConf.comesTo (node : LimitReqNode M) (r : LimitReqRequest) : Bool :=
  decide (r.key.length < conf.keyMaxLen) && conf.isFor r.key node

/-- The number of requests since the last one of the node's client. -/
def LimitReqHistory.idle (h : LimitReqHistory M) (node : LimitReqNode M) : Nat :=
  age h.past (conf.comesTo node)

/-- What tells the nodes of the list apart. -/
def LimitReqNode.client (node : LimitReqNode M) : Nat × Bytes := (node.bucket, node.key)

def LimitReqHistory.clients (h : LimitReqHistory M) : List (Nat × Bytes) :=
  h.shared.lruList.map LimitReqNode.client

/-- A request for which a node is allocated. -/
def LimitReqConf.New (shared : LimitReqShared M) (r : LimitReqRequest) : Prop :=
  r.key.length < conf.keyMaxLen ∧ shared.lruList.find? (conf.isFor r.key) = none

/-- No expired node stays on the LRU list, a node that is taken from it belongs to the client whose
last request is the oldest, and so no client loses its meter while one that is idle for longer keeps
its own. -/
structure EvictsOldest (h : LimitReqHistory M) (r : LimitReqRequest) : Prop where
  expired : conf.New h.shared r → ∀ node ∈ (phlLimitReqExpire conf r.time h.shared).lruList,
    conf.meter.isExpired node.meter r.time = false
  oldest : conf.New h.shared r → ∀ taken, phlLimitReqAllocNode conf r.time h.shared = some taken →
    ∀ node ∈ (phlLimitReqExpire conf r.time h.shared).lruList, node ∉ taken.lruList →
      ∀ other ∈ (phlLimitReqExpire conf r.time h.shared).lruList,
        h.idle conf other ≤ h.idle conf node
  active : ∀ h', limitReqStep conf h r = some h' →
    ∀ node ∈ h.shared.lruList, ∀ other ∈ h.shared.lruList,
      conf.meter.isExpired node.meter r.time = false →
      node.client ∉ h'.clients → other.client ∈ h'.clients →
        h.idle conf other ≤ h.idle conf node

/-- When a node is allocated, no expired one lies behind one that is not expired; and when there is
none but those of the list, all clients but the newest sent a request since its last one, or the
newest is expired. -/
structure NewestIdle (h : LimitReqHistory M) (r : LimitReqRequest) : Prop where
  expired : conf.New h.shared r → h.shared.lruList.Pairwise fun a b =>
    conf.meter.isExpired b.meter r.time = true → conf.meter.isExpired a.meter r.time = true
  heard : conf.New h.shared r → h.shared.freeNum = 0 → h.shared.unusedNum = 0 →
    ∀ newest ∈ h.shared.lruList.head?, conf.meter.isExpired newest.meter r.time = false →
      ∀ node ∈ h.shared.lruList.tail,
        ∃ q ∈ since h.past (conf.comesTo newest), conf.comesTo node q = true

instance [DecidableEq M] (shared : LimitReqShared M) (r : LimitReqRequest) :
    Decidable (conf.New shared r) := by
  unfold LimitReqConf.New
  infer_instance

instance [DecidableEq M] (h : LimitReqHistory M) (r : LimitReqRequest) :
    Decidable (NewestIdle conf h r) :=
  decidable_of_iff
    ((conf.New h.shared r → h.shared.lruList.Pairwise fun a b =>
        conf.meter.isExpired b.meter r.time = true → conf.meter.isExpired a.meter r.time = true) ∧
      (conf.New h.shared r → h.shared.freeNum = 0 → h.shared.unusedNum = 0 →
        ∀ newest ∈ h.shared.lruList.head?, conf.meter.isExpired newest.meter r.time = false →
          ∀ node ∈ h.shared.lruList.tail,
            ∃ q ∈ since h.past (conf.comesTo newest), conf.comesTo node q = true))
    ⟨fun hboth => ⟨hboth.1, hboth.2⟩, fun hidle => ⟨hidle.expired, hidle.heard⟩⟩

end Model

section Steps

variable {M : Type} {conf : LimitReqConf M} {nodes : Nat} {h : LimitReqHistory M}
  {r : LimitReqRequest}

/-- The nodes there are stay the same, and the client of each has sent a request. -/
structure LimitReqHistory.Valid (conf : LimitReqConf M) (h : LimitReqHistory M) (nodes : Nat) :
    Prop where
  shared : h.shared.Valid nodes
  known : ∀ node ∈ h.shared.lruList, ∃ q ∈ h.past, conf.comesTo node q = true

/-- Each request is served, and its client is known if it has a node then. -/
theorem limitReqStep_valid (hv : h.Valid conf nodes) (hnodes : 0 < nodes) :
    ∃ h', limitReqStep conf h r = some h' ∧ h'.Valid conf nodes := by
  have hlater : ∀ node ∈ h.shared.lruList, ∃ q ∈ r :: h.past, conf.comesTo node q = true := by
    intro node hnode
    obtain ⟨q, hq, hcomes⟩ := hv.known node hnode
    exact ⟨q, List.mem_cons_of_mem _ hq, hcomes⟩
  unfold limitReqStep
  by_cases hshort : r.key.length < conf.keyMaxLen
  · cases hm : conf.meterOf r.key h.shared with
    | some m =>
      obtain ⟨shared', hlocked, hvalid, -, -, hsame⟩ := locked_found (t := r.time) hv.shared hm
      rw [process_short hshort hlocked]
      refine ⟨⟨shared', r :: h.past⟩, rfl, hvalid, fun node hnode => ?_⟩
      obtain ⟨old, hold, hbucket, hkey⟩ := hsame node hnode
      obtain ⟨q, hq, hcomes⟩ := hlater old hold
      refine ⟨q, hq, ?_⟩
      unfold LimitReqConf.comesTo LimitReqConf.isFor at *
      rw [hbucket, hkey]
      exact hcomes
    | none =>
      obtain ⟨taken, halloc, hlocked, hvalid⟩ :=
        locked_fresh (t := r.time) hv.shared hnodes (Option.map_eq_none_iff.mp hm)
      rw [process_short hshort hlocked]
      refine ⟨⟨_, r :: h.past⟩, rfl, hvalid, fun node hnode => ?_⟩
      rcases List.mem_cons.mp hnode with rfl | hnode
      · refine ⟨r, List.mem_cons_self, ?_⟩
        unfold LimitReqConf.comesTo LimitReqConf.isFor
        simp [hshort]
      · exact hlater node (expire_sublist.subset ((alloc_sublist hv.shared halloc).subset hnode))
  · rw [process_long hshort]
    exact ⟨⟨h.shared, r :: h.past⟩, rfl, hv.shared, hlater⟩

theorem start_valid : (LimitReqHistory.start nodes : LimitReqHistory M).Valid conf nodes := by
  refine ⟨⟨List.nodup_nil, ?_⟩, fun node hnode => ?_⟩
  · unfold LimitReqHistory.start
    simp
  · cases hnode

end Steps

section Eviction

variable {M : Type} {conf : LimitReqConf M} {t nodes : Nat} {shared taken : LimitReqShared M}
  {h h' : LimitReqHistory M} {r : LimitReqRequest}

theorem comesTo_apart {a b : LimitReqNode M} (hab : a.client ≠ b.client)
    (q : LimitReqRequest) (hq : conf.comesTo a q = true) : conf.comesTo b q = false := by
  rw [Bool.eq_false_iff]
  intro hq'
  unfold LimitReqConf.comesTo LimitReqConf.isFor at hq hq'
  simp only [Bool.and_eq_true, beq_iff_eq] at hq hq'
  apply hab
  unfold LimitReqNode.client
  rw [hq.2.1, hq.2.2, hq'.2.1, hq'.2.2]

theorem newest_client (hv : h.Valid conf nodes) {newest : LimitReqNode M}
    {rest : List (LimitReqNode M)} (hlist : h.shared.lruList = newest :: rest) :
    newest.client ∉ rest.map LimitReqNode.client := by
  have hdistinct := hv.shared.distinct
  unfold Distinct at hdistinct
  rw [hlist, List.map_cons, List.nodup_cons] at hdistinct
  exact hdistinct.1

/-- Of two nodes of a list one was sought later. -/
theorem idle_le_iff (hv : h.Valid conf nodes) {newest : LimitReqNode M}
    {rest : List (LimitReqNode M)} (hlist : h.shared.lruList = newest :: rest)
    {node : LimitReqNode M} (hnode : node ∈ rest) :
    h.idle conf node ≤ h.idle conf newest ↔
      ∃ q ∈ since h.past (conf.comesTo newest), conf.comesTo node q = true := by
  have happart : newest.client ≠ node.client := by
    intro heq
    exact newest_client hv hlist (List.mem_map.mpr ⟨node, hnode, heq.symm⟩)
  have hknown := hv.known newest (by rw [hlist]; exact List.mem_cons_self)
  have hne := age_ne (comesTo_apart happart) hknown
  have hiff := @age_lt_iff _ (conf.comesTo newest) (conf.comesTo node) h.past
  unfold LimitReqHistory.idle
  rw [← hiff]
  omega

/-- The list is as it was where no node was expired at its head. -/
theorem expire_unexpired (hfirst : ∀ newest ∈ shared.lruList.head?,
    conf.meter.isExpired newest.meter t = false) : phlLimitReqExpire conf t shared = shared := by
  have hlist : shared.lruList.dropWhile (fun n => conf.meter.isExpired n.meter t) =
      shared.lruList := by
    cases hl : shared.lruList with
    | nil => rfl
    | cons newest rest =>
      have hnewest := hfirst newest (by rw [hl]; rfl)
      exact List.dropWhile_cons_of_neg (by rw [hnewest]; simp)
  unfold phlLimitReqExpire
  dsimp only
  rw [hlist, Nat.sub_self, Nat.add_zero]

/-- The list is not touched by the expiry that leaves no free node. -/
theorem unexpired_of_none_free (hfree : (phlLimitReqExpire conf t shared).freeNum = 0) :
    ∀ newest ∈ shared.lruList.head?, conf.meter.isExpired newest.meter t = false := by
  intro newest hnewest
  cases hl : shared.lruList with
  | nil =>
    rw [hl] at hnewest
    cases hnewest
  | cons first rest =>
    rw [hl] at hnewest
    cases hnewest
    rw [Bool.eq_false_iff]
    intro hexpired
    have hdrop : (newest :: rest).dropWhile (fun n => conf.meter.isExpired n.meter t) =
        rest.dropWhile fun n => conf.meter.isExpired n.meter t :=
      List.dropWhile_cons_of_pos hexpired
    have hshort := (List.dropWhile_sublist (l := rest)
      fun n => conf.meter.isExpired n.meter t).length_le
    unfold phlLimitReqExpire at hfree
    dsimp only at hfree
    rw [hl, hdrop, List.length_cons] at hfree
    omega

/-- The oldest client's node is taken where all others were heard since the newest. -/
theorem oldest_iff (hv : h.Valid conf nodes) (hnodes : 0 < nodes) :
    (∀ taken, phlLimitReqAllocNode conf t h.shared = some taken →
      ∀ node ∈ (phlLimitReqExpire conf t h.shared).lruList, node ∉ taken.lruList →
        ∀ other ∈ (phlLimitReqExpire conf t h.shared).lruList,
          h.idle conf other ≤ h.idle conf node) ↔
    (h.shared.freeNum = 0 → h.shared.unusedNum = 0 →
      ∀ newest ∈ h.shared.lruList.head?, conf.meter.isExpired newest.meter t = false →
        ∀ node ∈ h.shared.lruList.tail,
          ∃ q ∈ since h.past (conf.comesTo newest), conf.comesTo node q = true) := by
  obtain ⟨taken, halloc⟩ := @alloc_some M conf t nodes h.shared hv.shared hnodes
  rcases alloc_cases hv.shared halloc with ⟨hkept, -, hfree⟩ | ⟨hfree, hunused, newest, hlist, -⟩
  · -- a free node is taken, and none of the list
    constructor
    · intro _ hnone hunused newest hnewest hlive node hnode
      have hsame : phlLimitReqExpire conf t h.shared = h.shared := by
        refine expire_unexpired fun first hfirst => ?_
        rw [Option.mem_def] at hfirst hnewest
        rw [hnewest] at hfirst
        cases hfirst
        exact hlive
      rw [hsame] at hfree
      omega
    · intro _ taken' halloc' node hnode hgone
      rw [halloc] at halloc'
      cases halloc'
      rw [hkept] at hgone
      exact absurd hnode hgone
  · -- the newest node is taken
    have hsame := expire_unexpired (unexpired_of_none_free hfree)
    have hlive := unexpired_of_none_free hfree
    rw [hsame] at hfree hunused hlist
    have hnewest : newest ∈ h.shared.lruList.head? := by
      rw [hlist]
      rfl
    have hnot : newest ∉ taken.lruList := fun hmem =>
      newest_client hv hlist (List.mem_map_of_mem hmem)
    rw [hsame]
    constructor
    · intro hold _ _ first hfirst _ node hnode
      rw [hlist] at hfirst hnode
      cases hfirst
      have hmem : node ∈ h.shared.lruList := by
        rw [hlist]
        exact List.mem_cons_of_mem _ hnode
      have hle := hold taken halloc newest (List.mem_of_mem_head? hnewest) hnot node hmem
      exact (idle_le_iff hv hlist hnode).mp hle
    · intro hheard taken' halloc' node hnode hgone other hother
      rw [halloc] at halloc'
      cases halloc'
      rw [hlist] at hnode hother
      have hnode' : node = newest := (List.mem_cons.mp hnode).resolve_right hgone
      rw [hnode']
      rcases List.mem_cons.mp hother with rfl | hother
      · exact Nat.le_refl _
      · have hq := hheard hfree hunused newest hnewest (hlive newest hnewest) other
          (by rw [hlist]; exact hother)
        exact (idle_le_iff hv hlist hother).mpr hq

theorem clients_of_step (hv : h.Valid conf nodes) (hnodes : 0 < nodes)
    (hstep : limitReqStep conf h r = some h') :
    h'.clients = h.clients ∨ conf.New h.shared r ∧
      ∃ taken, phlLimitReqAllocNode conf r.time h.shared = some taken ∧
        h'.clients = (conf.bucket r.key, cstr r.key) :: taken.lruList.map LimitReqNode.client := by
  unfold limitReqStep at hstep
  by_cases hshort : r.key.length < conf.keyMaxLen
  · cases hfind : h.shared.lruList.find? (conf.isFor r.key) with
    | some node =>
      have hlocked : conf.locked r.time r.key h.shared =
          some (if (conf.meter.check node.meter r.time).1 then .ok else .limited,
            { h.shared with
              lruList := setMeter (conf.isFor r.key) (conf.meter.check node.meter r.time).2
                h.shared.lruList }) := by
        unfold LimitReqConf.locked
        rw [hfind]
      rw [process_short hshort hlocked] at hstep
      cases hstep
      exact .inl map_setMeter
    | none =>
      obtain ⟨taken, halloc, hlocked, -⟩ := locked_fresh (t := r.time) hv.shared hnodes hfind
      rw [process_short hshort hlocked] at hstep
      cases hstep
      exact .inr ⟨⟨hshort, hfind⟩, taken, halloc, rfl⟩
  · rw [process_long hshort] at hstep
    cases hstep
    exact .inl rfl

/-- A client keeps its meter by its requests if the nodes are taken from the oldest. -/
theorem active_of_oldest (hv : h.Valid conf nodes) (hnodes : 0 < nodes)
    (hold : conf.New h.shared r → ∀ taken,
      phlLimitReqAllocNode conf r.time h.shared = some taken →
        ∀ node ∈ (phlLimitReqExpire conf r.time h.shared).lruList, node ∉ taken.lruList →
          ∀ other ∈ (phlLimitReqExpire conf r.time h.shared).lruList,
            h.idle conf other ≤ h.idle conf node)
    (hstep : limitReqStep conf h r = some h') {node other : LimitReqNode M}
    (hnode : node ∈ h.shared.lruList) (hother : other ∈ h.shared.lruList)
    (hlive : conf.meter.isExpired node.meter r.time = false)
    (hlost : node.client ∉ h'.clients) (hkept : other.client ∈ h'.clients) :
    h.idle conf other ≤ h.idle conf node := by
  rcases clients_of_step hv hnodes hstep with hsame | ⟨hnew, taken, halloc, hclients⟩
  · rw [hsame] at hlost
    exact absurd (List.mem_map_of_mem hnode) hlost
  · rw [hclients] at hlost hkept
    have hgone : node ∉ taken.lruList := fun hmem =>
      hlost (List.mem_cons_of_mem _ (List.mem_map_of_mem hmem))
    have hstays : node ∈ (phlLimitReqExpire conf r.time h.shared).lruList :=
      mem_dropWhile_of_not hnode hlive
    refine hold hnew taken halloc node hstays hgone other ?_
    rcases List.mem_cons.mp hkept with heq | hmem
    · -- the new client has no node before
      exfalso
      refine List.find?_eq_none.mp hnew.2 other hother ?_
      unfold LimitReqNode.client at heq
      unfold LimitReqConf.isFor
      simp only [Prod.mk.injEq] at heq
      simp [heq.1, heq.2]
    · obtain ⟨same, hsame, heq⟩ := List.mem_map.mp hmem
      have hmem' := (alloc_sublist hv.shared halloc).subset hsame
      have heq' : same = other :=
        List.inj_on_of_nodup_map hv.shared.distinct (expire_sublist.subset hmem') hother heq
      rw [← heq']
      exact hmem'

theorem evictsOldest_iff (hv : h.Valid conf nodes) (hnodes : 0 < nodes) :
    EvictsOldest conf h r ↔ NewestIdle conf h r := by
  have hclears := @dropWhile_clears_iff _ (fun n => conf.meter.isExpired n.meter r.time)
    h.shared.lruList
  have holdest := @oldest_iff M conf r.time nodes h hv hnodes
  constructor
  · rintro ⟨hexpired, hold, -⟩
    refine ⟨fun hnew => hclears.mp (hexpired hnew), fun hnew => holdest.mp (hold hnew)⟩
  · rintro ⟨horder, hheard⟩
    have hold := fun hnew => holdest.mpr (hheard hnew)
    refine ⟨fun hnew => hclears.mpr (horder hnew), hold, ?_⟩
    intro h' hstep node hnode other hother hlive hlost hkept
    exact active_of_oldest hv hnodes hold hstep hnode hother hlive hlost hkept

end Eviction

/-- A meter expires ten seconds after the last request that passed. -/
def tenSeconds : LimitReqConf Nat :=
  { oneASecond with meter := { oneASecond.meter with isExpired m t := decide (m + 10 ≤ t) } }

/-- The expired node of 97 stays behind the one of 98. -/
example : (phlLimitReqExpire tenSeconds 10 ⟨[⟨5, [98], 1⟩, ⟨0, [97], 1⟩], 0, 1⟩).lruList =
    [⟨5, [98], 1⟩, ⟨0, [97], 1⟩] := by
  decide

end Phorklift
