import Phorklift.Bytes
import Mathlib.Data.List.Basic

/-! The request rate limit, and the sources that share a meter. -/

namespace Phorklift

/-- The meters of libwuya under one configuration; each function is given the time it reads. -/
structure WuyMeter (M : Type) where
  init : Nat → M
  isExpired : M → Nat → Bool
  check : M → Nat → Bool × M

/-- An expired meter stays so and is as good as a new one, and checks at some times are denied. -/
structure WuyMeter.Sound {M : Type} (w : WuyMeter M) : Prop where
  expired_later : ∀ {m t t'}, t ≤ t' → w.isExpired m t = true → w.isExpired m t' = true
  check_expired : ∀ {m t}, w.isExpired m t = true → w.check m t = (true, w.init t)
  limits : ∃ t ts t', (t :: (ts ++ [t'])).Pairwise (· ≤ ·) ∧
    (w.check (ts.foldl (fun m t => (w.check m t).2) (w.init t)) t').1 = false

/-- `bucket` is the bucket of `hash_node`. -/
structure LimitReqNode (M : Type) where
  meter : M
  key : Bytes
  bucket : Nat
  deriving DecidableEq

/-- The nodes of the LRU list are those of the buckets, newest first in both; `freeNum` is the
length of the free list and `unusedNum` the number of nodes between `used_pos` and `nodes_end`. -/
structure LimitReqShared (M : Type) where
  lruList : List (LimitReqNode M)
  freeNum : Nat
  unusedNum : Nat
  deriving DecidableEq

structure LimitReqConf (M : Type) where
  keyMaxLen : Nat
  hashBuckets : Nat
  vhash64 : Bytes → Nat
  meter : WuyMeter M

inductive LimitReqResult where
  | ok
  | error
  | limited
  deriving DecidableEq

/-- The key of an IPv4 address is its four bytes. -/
def addrKey (a b c d : UInt8) : Bytes := [a, b, c, d]

section Code

variable {M : Type} (conf : LimitReqConf M)

def LimitReqConf.bucket (key : Bytes) : Nat := conf.vhash64 key % conf.hashBuckets

/-- The node found for a key. -/
def LimitReqConf.isFor (key : Bytes) (node : LimitReqNode M) : Bool :=
  node.bucket == conf.bucket key && node.key == cstr key

def phlLimitReqExpire (t : Nat) (shared : LimitReqShared M) : LimitReqShared M :=
  let rest := shared.lruList.dropWhile fun node => conf.meter.isExpired node.meter t
  { shared with
    lruList := rest
    freeNum := shared.freeNum + (shared.lruList.length - rest.length) }

/-- The state without the node that is taken; without any node NULL is read. -/
def phlLimitReqAllocNode (t : Nat) (shared : LimitReqShared M) : Option (LimitReqShared M) :=
  let shared := phlLimitReqExpire conf t shared
  if 0 < shared.freeNum then some { shared with freeNum := shared.freeNum - 1 }
  else if 0 < shared.unusedNum then some { shared with unusedNum := shared.unusedNum - 1 }
  else match shared.lruList with
    | [] => none
    | _ :: rest => some { shared with lruList := rest }

/-- The first node that is sought gets a meter. -/
def setMeter (sought : LimitReqNode M → Bool) (meter : M) :
    List (LimitReqNode M) → List (LimitReqNode M)
  | [] => []
  | node :: nodes =>
    if sought node then { node with meter } :: nodes else node :: setMeter sought meter nodes

/-- The part under the lock. -/
def LimitReqConf.locked (t : Nat) (key : Bytes) (shared : LimitReqShared M) :
    Option (LimitReqResult × LimitReqShared M) :=
  match shared.lruList.find? (conf.isFor key) with
  | none => do
    let shared ← phlLimitReqAllocNode conf t shared
    let node := ⟨conf.meter.init t, cstr key, conf.bucket key⟩
    some (.ok, { shared with lruList := node :: shared.lruList })
  | some node =>
    let (allowed, meter) := conf.meter.check node.meter t
    some (if allowed then .ok else .limited,
      { shared with lruList := setMeter (conf.isFor key) meter shared.lruList })

/-- `key` is what the key function returns, or the bytes of the address; `shared` is NULL where the
rate is 0. -/
def phlLimitReqProcessHeaders (t : Nat) (key : Option Bytes) (shared : Option (LimitReqShared M)) :
    Option (LimitReqResult × Option (LimitReqShared M)) :=
  match shared, key with
  | none, _ => some (.ok, none)
  | some shared, none => some (.error, some shared)
  | some shared, some key =>
    if conf.keyMaxLen ≤ key.length then some (.error, some shared)
    else (conf.locked t key shared).map fun (res, shared) => (res, some shared)

/-- `phl_limit_req_conf_post` with room for this many nodes. -/
def limitReqInit (nodes : Nat) : Option (LimitReqShared M) := some ⟨[], 0, nodes⟩

end Code

structure LimitReqRequest where
  time : Nat
  key : Bytes
  deriving DecidableEq

section Run

variable {M : Type} (conf : LimitReqConf M)

/-- The decisions on the requests of one source, in order. -/
def decisions (source : Bytes) :
    Option (LimitReqShared M) → List LimitReqRequest → Option (List LimitReqResult)
  | _, [] => some []
  | shared, r :: run => do
    let (res, shared) ← phlLimitReqProcessHeaders conf r.time (some r.key) shared
    let later ← decisions source shared run
    some (if r.key = source then res :: later else later)

/-- A node that is needed is a free one. -/
def FreeNodes : Option (LimitReqShared M) → List LimitReqRequest → Prop
  | _, [] => True
  | shared, r :: run =>
    (∀ sh, shared = some sh → r.key.length < conf.keyMaxLen →
      sh.lruList.find? (conf.isFor r.key) = none →
      0 < (phlLimitReqExpire conf r.time sh).freeNum ∨
        0 < (phlLimitReqExpire conf r.time sh).unusedNum) ∧
    ∀ res shared', phlLimitReqProcessHeaders conf r.time (some r.key) shared = some (res, shared') →
      FreeNodes shared' run

/-- Both sources get to one node. -/
def SameMeter (key1 key2 : Bytes) : Prop :=
  key1.length < conf.keyMaxLen ∧ key2.length < conf.keyMaxLen ∧
    cstr key1 = cstr key2 ∧ conf.bucket key1 = conf.bucket key2

end Run

section Nodes

variable {M : Type} {p q : LimitReqNode M → Bool} {meter : M} {nodes : List (LimitReqNode M)}

/-- A predicate that does not look at the meter. -/
def Steady (p : LimitReqNode M → Bool) : Prop :=
  ∀ (node : LimitReqNode M) (meter : M), p { node with meter } = p node

theorem find_setMeter (hp : Steady p) {node : LimitReqNode M} (h : nodes.find? p = some node) :
    (setMeter p meter nodes).find? p = some { node with meter } := by
  induction nodes with
  | nil => simp at h
  | cons n nodes ih =>
    unfold setMeter
    by_cases hn : p n = true
    · rw [List.find?_cons_of_pos hn, Option.some.injEq] at h
      rw [if_pos hn, List.find?_cons_of_pos (by rw [hp]; exact hn), h]
    · rw [List.find?_cons_of_neg hn] at h
      rw [if_neg hn, List.find?_cons_of_neg hn, ih h]

theorem find_setMeter_other (hq : Steady q)
    (hapart : ∀ n, p n = true → q n = false) :
    (setMeter p meter nodes).find? q = nodes.find? q := by
  induction nodes with
  | nil => rfl
  | cons n nodes ih =>
    unfold setMeter
    by_cases hn : p n = true
    · have hqn : ¬ q n = true := by simp [hapart n hn]
      rw [if_pos hn, List.find?_cons_of_neg (by rw [hq]; exact hqn), List.find?_cons_of_neg hqn]
    · rw [if_neg hn, List.find?_cons, List.find?_cons, ih]

theorem length_setMeter : (setMeter p meter nodes).length = nodes.length := by
  induction nodes with
  | nil => rfl
  | cons n nodes ih =>
    unfold setMeter
    split
    next => rfl
    next => rw [List.length_cons, List.length_cons, ih]

/-- The bucket and key of each node stay as they are. -/
theorem map_setMeter :
    (setMeter p meter nodes).map (fun n => (n.bucket, n.key)) =
      nodes.map fun n => (n.bucket, n.key) := by
  induction nodes with
  | nil => rfl
  | cons n nodes ih =>
    unfold setMeter
    split
    next => rfl
    next => rw [List.map_cons, List.map_cons, ih]

/-- No two nodes in use have one bucket and key. -/
def Distinct (nodes : List (LimitReqNode M)) : Prop :=
  (nodes.map fun n => (n.bucket, n.key)).Nodup

/-- From nodes of which one at most is sought, the first ones are dropped: the sought one stays or
is dropped with them. -/
theorem find_dropWhile {e : LimitReqNode M → Bool}
    (honce : nodes.Pairwise fun a b => p a = true → p b = false) {node : LimitReqNode M}
    (h : nodes.find? p = some node) :
    (nodes.dropWhile e).find? p = some node ∨
      (e node = true ∧ (nodes.dropWhile e).find? p = none) := by
  induction nodes with
  | nil => simp at h
  | cons n nodes ih =>
    obtain ⟨hfirst, hrest⟩ := List.pairwise_cons.mp honce
    by_cases he : e n = true
    · rw [List.dropWhile_cons_of_pos he]
      by_cases hn : p n = true
      · rw [List.find?_cons_of_pos hn, Option.some.injEq] at h
        refine .inr ⟨by rw [← h]; exact he, List.find?_eq_none.mpr fun b hb => ?_⟩
        simp [hfirst b ((List.dropWhile_sublist e).subset hb) hn]
      · rw [List.find?_cons_of_neg hn] at h
        exact ih hrest h
    · rw [List.dropWhile_cons_of_neg he]
      exact .inl h

end Nodes

section Meters

variable {M : Type} {conf : LimitReqConf M} {key key' : Bytes} {t nodes : Nat}
  {shared taken : LimitReqShared M} {m : M}

/-- The meter found for a key. -/
def LimitReqConf.meterOf (conf : LimitReqConf M) (key : Bytes) (shared : LimitReqShared M) :
    Option M :=
  (shared.lruList.find? (conf.isFor key)).map (·.meter)

/-- Each node is the only one of its bucket and key, and the nodes there are stay the same. -/
structure LimitReqShared.Valid (shared : LimitReqShared M) (nodes : Nat) : Prop where
  distinct : Distinct shared.lruList
  count : shared.lruList.length + shared.freeNum + shared.unusedNum = nodes

theorem isFor_steady (conf : LimitReqConf M) (key : Bytes) : Steady (conf.isFor key) :=
  fun _ _ => rfl

theorem isFor_apart (hapart : ¬ (cstr key' = cstr key ∧ conf.bucket key' = conf.bucket key))
    (n : LimitReqNode M) (hn : conf.isFor key n = true) : conf.isFor key' n = false := by
  unfold LimitReqConf.isFor at *
  simp only [Bool.and_eq_true, beq_iff_eq] at hn
  rw [hn.1, hn.2, Bool.and_eq_false_iff, beq_eq_false_iff_ne, beq_eq_false_iff_ne]
  by_cases hkey : cstr key' = cstr key
  · exact .inl fun h => hapart ⟨hkey, h.symm⟩
  · exact .inr fun h => hkey h.symm

theorem isFor_once {l : List (LimitReqNode M)} (hdistinct : Distinct l) :
    l.Pairwise fun a b => conf.isFor key a = true → conf.isFor key b = false := by
  refine (List.pairwise_map.mp hdistinct).imp fun {a b} hab ha => ?_
  rw [Bool.eq_false_iff]
  intro hb
  unfold LimitReqConf.isFor at ha hb
  simp only [Bool.and_eq_true, beq_iff_eq] at ha hb
  exact hab (by rw [ha.1, ha.2, hb.1, hb.2])

theorem expire_valid (hv : shared.Valid nodes) : (phlLimitReqExpire conf t shared).Valid nodes := by
  have hsub := List.dropWhile_sublist (l := shared.lruList)
    fun node => conf.meter.isExpired node.meter t
  have hlen := hsub.length_le
  have hcount := hv.count
  unfold phlLimitReqExpire
  exact ⟨hv.distinct.sublist (hsub.map _), by dsimp only; omega⟩

/-- A meter goes away only when it is expired. -/
theorem expire_meterOf (hv : shared.Valid nodes) :
    conf.meterOf key (phlLimitReqExpire conf t shared) = conf.meterOf key shared ∨
      (conf.meterOf key (phlLimitReqExpire conf t shared) = none ∧
        ∃ m, conf.meterOf key shared = some m ∧ conf.meter.isExpired m t = true) := by
  unfold LimitReqConf.meterOf phlLimitReqExpire
  cases h : shared.lruList.find? (conf.isFor key) with
  | none =>
    have hnone := List.find?_eq_none.mp h
    refine .inl ?_
    rw [List.find?_eq_none.mpr fun n hn => hnone n ((List.dropWhile_sublist _).subset hn)]
  | some node =>
    rcases find_dropWhile (isFor_once hv.distinct) h with hkept | ⟨hexpired, hgone⟩
    · exact .inl (by rw [hkept])
    · exact .inr ⟨by rw [hgone]; rfl, node.meter, rfl, hexpired⟩

theorem locked_found (hv : shared.Valid nodes) (hfound : conf.meterOf key shared = some m) :
    ∃ shared', conf.locked t key shared =
        some (if (conf.meter.check m t).1 then .ok else .limited, shared') ∧
      shared'.Valid nodes ∧ conf.meterOf key shared' = some (conf.meter.check m t).2 ∧
      (∀ key', ¬ (cstr key' = cstr key ∧ conf.bucket key' = conf.bucket key) →
        conf.meterOf key' shared' = conf.meterOf key' shared) ∧
      ∀ n' ∈ shared'.lruList, ∃ n ∈ shared.lruList, n'.bucket = n.bucket ∧ n'.key = n.key := by
  obtain ⟨node, hnode, rfl⟩ := Option.map_eq_some_iff.mp hfound
  unfold LimitReqConf.locked
  rw [hnode]
  refine ⟨_, rfl, ⟨?_, ?_⟩, ?_, fun key' hapart => ?_, fun n' hn' => ?_⟩
  · have hdistinct := hv.distinct
    unfold Distinct at *
    rw [map_setMeter]
    exact hdistinct
  · have hcount := hv.count
    dsimp only
    rw [length_setMeter]
    exact hcount
  · unfold LimitReqConf.meterOf
    rw [find_setMeter (isFor_steady conf key) hnode]
    rfl
  · unfold LimitReqConf.meterOf
    rw [find_setMeter_other (isFor_steady conf key') (isFor_apart hapart)]
  · have hmem := List.mem_map_of_mem (f := fun n : LimitReqNode M => (n.bucket, n.key)) hn'
    rw [map_setMeter] at hmem
    obtain ⟨n, hn, heq⟩ := List.mem_map.mp hmem
    exact ⟨n, hn, (congrArg Prod.fst heq).symm, (congrArg Prod.snd heq).symm⟩

/-- The node of a key that is not found is none of those there are. -/
theorem distinct_new {old rest : List (LimitReqNode M)} (hsub : rest.Sublist old)
    (hdistinct : Distinct rest) (hnone : old.find? (conf.isFor key) = none) :
    Distinct (⟨m, cstr key, conf.bucket key⟩ :: rest) := by
  unfold Distinct
  rw [List.map_cons, List.nodup_cons]
  refine ⟨fun hmem => ?_, hdistinct⟩
  obtain ⟨n, hn, heq⟩ := List.mem_map.mp hmem
  refine List.find?_eq_none.mp hnone n (hsub.subset hn) ?_
  unfold LimitReqConf.isFor
  simp only [Prod.mk.injEq] at heq
  simp [heq.1, heq.2]

/-- A node is taken from the list only when there is no other. -/
theorem alloc_cases (hv : shared.Valid nodes)
    (h : phlLimitReqAllocNode conf t shared = some taken) :
    (taken.lruList = (phlLimitReqExpire conf t shared).lruList ∧
      taken.lruList.length + taken.freeNum + taken.unusedNum + 1 = nodes ∧
      (0 < (phlLimitReqExpire conf t shared).freeNum ∨
        0 < (phlLimitReqExpire conf t shared).unusedNum)) ∨
    ((phlLimitReqExpire conf t shared).freeNum = 0 ∧
      (phlLimitReqExpire conf t shared).unusedNum = 0 ∧
      ∃ newest, (phlLimitReqExpire conf t shared).lruList = newest :: taken.lruList ∧
        taken.lruList.length + taken.freeNum + taken.unusedNum + 1 = nodes) := by
  have hcount := (@expire_valid M conf t nodes shared hv).count
  unfold phlLimitReqAllocNode at h
  dsimp only at h
  generalize phlLimitReqExpire conf t shared = e at *
  split at h
  next hfree =>
    cases h
    refine .inl ⟨rfl, ?_, .inl hfree⟩
    dsimp only
    omega
  next hfree =>
    split at h
    next hunused =>
      cases h
      refine .inl ⟨rfl, ?_, .inr hunused⟩
      dsimp only
      omega
    next hunused =>
      cases hlist : e.lruList with
      | nil =>
        rw [hlist] at h
        cases h
      | cons newest rest =>
        rw [hlist] at h hcount
        cases h
        rw [List.length_cons] at hcount
        refine .inr ⟨by omega, by omega, newest, rfl, ?_⟩
        dsimp only
        omega

theorem alloc_some (hv : shared.Valid nodes) (hnodes : 0 < nodes) :
    ∃ taken, phlLimitReqAllocNode conf t shared = some taken := by
  have hcount := (@expire_valid M conf t nodes shared hv).count
  unfold phlLimitReqAllocNode
  dsimp only
  generalize phlLimitReqExpire conf t shared = e at *
  by_cases hfree : 0 < e.freeNum
  · rw [if_pos hfree]
    exact ⟨_, rfl⟩
  · by_cases hunused : 0 < e.unusedNum
    · rw [if_neg hfree, if_pos hunused]
      exact ⟨_, rfl⟩
    · rw [if_neg hfree, if_neg hunused]
      cases hlist : e.lruList with
      | nil =>
        rw [hlist, List.length_nil] at hcount
        omega
      | cons newest rest => exact ⟨_, rfl⟩

theorem alloc_sublist (hv : shared.Valid nodes)
    (h : phlLimitReqAllocNode conf t shared = some taken) :
    taken.lruList.Sublist (phlLimitReqExpire conf t shared).lruList := by
  rcases alloc_cases hv h with ⟨heq, -⟩ | ⟨-, -, newest, heq, -⟩
  · rw [heq]
  · rw [heq]
    exact List.sublist_cons_self _ _

theorem expire_sublist : (phlLimitReqExpire conf t shared).lruList.Sublist shared.lruList :=
  List.dropWhile_sublist _

theorem alloc_count (hv : shared.Valid nodes)
    (h : phlLimitReqAllocNode conf t shared = some taken) :
    taken.lruList.length + taken.freeNum + taken.unusedNum + 1 = nodes := by
  rcases alloc_cases hv h with ⟨-, hcount, -⟩ | ⟨-, -, _, -, hcount⟩ <;> exact hcount

/-- A new client's node goes to the head of the list. -/
theorem locked_fresh (hv : shared.Valid nodes) (hnodes : 0 < nodes)
    (hnew : shared.lruList.find? (conf.isFor key) = none) :
    ∃ taken, phlLimitReqAllocNode conf t shared = some taken ∧
      conf.locked t key shared = some (.ok,
        { taken with lruList :=
            ⟨conf.meter.init t, cstr key, conf.bucket key⟩ :: taken.lruList }) ∧
      LimitReqShared.Valid { taken with lruList :=
        ⟨conf.meter.init t, cstr key, conf.bucket key⟩ :: taken.lruList } nodes := by
  obtain ⟨taken, halloc⟩ := @alloc_some M conf t nodes shared hv hnodes
  have hsub := (alloc_sublist hv halloc).trans expire_sublist
  have hcount := alloc_count hv halloc
  refine ⟨taken, halloc, ?_, ?_, ?_⟩
  · unfold LimitReqConf.locked
    rw [hnew]
    dsimp only
    rw [halloc]
    rfl
  · exact distinct_new hsub (hv.distinct.sublist (hsub.map _)) hnew
  · dsimp only
    rw [List.length_cons]
    omega

/-- With a free node the new meter takes it, and only expired meters go away. -/
theorem locked_new (hv : shared.Valid nodes) (hnew : conf.meterOf key shared = none)
    (hfree : 0 < (phlLimitReqExpire conf t shared).freeNum ∨
      0 < (phlLimitReqExpire conf t shared).unusedNum) :
    ∃ shared', conf.locked t key shared = some (.ok, shared') ∧ shared'.Valid nodes ∧
      conf.meterOf key shared' = some (conf.meter.init t) ∧
      (∀ key', ¬ (cstr key' = cstr key ∧ conf.bucket key' = conf.bucket key) →
        conf.meterOf key' shared' = conf.meterOf key' (phlLimitReqExpire conf t shared)) ∧
      shared'.lruList = ⟨conf.meter.init t, cstr key, conf.bucket key⟩ ::
        (phlLimitReqExpire conf t shared).lruList := by
  have hnone := Option.map_eq_none_iff.mp hnew
  have hcount := (@expire_valid M conf t nodes shared hv).count
  have hnodes : 0 < nodes := by omega
  obtain ⟨taken, halloc, hlocked, hvalid⟩ := @locked_fresh M conf key t nodes shared hv hnodes hnone
  have hlist : taken.lruList = (phlLimitReqExpire conf t shared).lruList := by
    rcases alloc_cases hv halloc with ⟨heq, -⟩ | ⟨hnofree, hnounused, -⟩
    · exact heq
    · omega
  have hfor : conf.isFor key ⟨conf.meter.init t, cstr key, conf.bucket key⟩ = true := by
    unfold LimitReqConf.isFor
    simp
  refine ⟨_, hlocked, hvalid, ?_, fun key' hapart => ?_, by rw [hlist]⟩
  · unfold LimitReqConf.meterOf
    dsimp only
    rw [List.find?_cons_of_pos hfor]
    rfl
  · have hother := isFor_apart hapart _ hfor
    unfold LimitReqConf.meterOf
    dsimp only
    rw [List.find?_cons_of_neg (by rw [hother]; simp), hlist]

theorem locked_some (hv : shared.Valid nodes)
    (hfree : shared.lruList.find? (conf.isFor key) = none →
      0 < (phlLimitReqExpire conf t shared).freeNum ∨
        0 < (phlLimitReqExpire conf t shared).unusedNum) :
    ∃ res shared', conf.locked t key shared = some (res, shared') ∧ shared'.Valid nodes := by
  cases hm : conf.meterOf key shared with
  | none =>
    obtain ⟨shared', hlocked, hvalid, -⟩ :=
      locked_new hv hm (hfree (Option.map_eq_none_iff.mp hm))
    exact ⟨_, shared', hlocked, hvalid⟩
  | some m =>
    obtain ⟨shared', hlocked, hvalid, -⟩ := locked_found (t := t) hv hm
    exact ⟨_, shared', hlocked, hvalid⟩

end Meters

section Isolation

variable {M : Type} {conf : LimitReqConf M} {key1 key2 source : Bytes} {nodes : Nat}

theorem decisions_cons {shared shared' : Option (LimitReqShared M)} {r : LimitReqRequest}
    {run : List LimitReqRequest} {res : LimitReqResult}
    (h : phlLimitReqProcessHeaders conf r.time (some r.key) shared = some (res, shared')) :
    decisions conf source shared (r :: run) =
      (decisions conf source shared' run).map fun later =>
        if r.key = source then res :: later else later := by
  rw [decisions]
  simp only [h, Option.bind_eq_bind, Option.bind_some]
  rw [Option.map_eq_bind]
  rfl

theorem process_short {t : Nat} {key : Bytes} {shared shared' : LimitReqShared M}
    {res : LimitReqResult} (hshort : key.length < conf.keyMaxLen)
    (h : conf.locked t key shared = some (res, shared')) :
    phlLimitReqProcessHeaders conf t (some key) (some shared) = some (res, some shared') := by
  unfold phlLimitReqProcessHeaders
  dsimp only
  rw [if_neg (by omega), h]
  rfl

theorem process_long {t : Nat} {key : Bytes} {shared : LimitReqShared M}
    (hlong : ¬ key.length < conf.keyMaxLen) :
    phlLimitReqProcessHeaders conf t (some key) (some shared) = some (.error, some shared) := by
  unfold phlLimitReqProcessHeaders
  dsimp only
  rw [if_pos (by omega)]

/-- The source's meters in the run of both sources and in its own run are one, or only the second
is still there and has expired. -/
def Agree (conf : LimitReqConf M) (key : Bytes) (t : Nat) (both own : LimitReqShared M) : Prop :=
  conf.meterOf key both = conf.meterOf key own ∨
    (conf.meterOf key both = none ∧
      ∃ m, conf.meterOf key own = some m ∧ conf.meter.isExpired m t = true)

/-- In a run of one source every node in use is its own. -/
def Own (conf : LimitReqConf M) (key : Bytes) (own : LimitReqShared M) : Prop :=
  ∀ n ∈ own.lruList, conf.isFor key n = true

theorem own_free {own : LimitReqShared M} {t : Nat} (hv : own.Valid nodes) (hnodes : 0 < nodes)
    (hown : Own conf key1 own) (hnew : conf.meterOf key1 own = none) :
    0 < (phlLimitReqExpire conf t own).freeNum ∨ 0 < (phlLimitReqExpire conf t own).unusedNum := by
  have hnone := List.find?_eq_none.mp (Option.map_eq_none_iff.mp hnew)
  have hnil : own.lruList = [] :=
    List.eq_nil_iff_forall_not_mem.mpr fun n hn => hnone n hn (hown n hn)
  have hcount := hv.count
  unfold phlLimitReqExpire
  rw [hnil] at hcount ⊢
  dsimp only [List.length_nil, List.dropWhile_nil] at *
  omega

/-- A request of the source is decided in both runs alike. -/
theorem agree_step {both own : LimitReqShared M} {t : Nat} (hw : conf.meter.Sound)
    (hnodes : 0 < nodes) (hvb : both.Valid nodes) (hvo : own.Valid nodes)
    (hown : Own conf key1 own) (hagree : Agree conf key1 t both own)
    (hfree : both.lruList.find? (conf.isFor key1) = none →
      0 < (phlLimitReqExpire conf t both).freeNum ∨
        0 < (phlLimitReqExpire conf t both).unusedNum) :
    ∃ res both' own', conf.locked t key1 both = some (res, both') ∧
      conf.locked t key1 own = some (res, own') ∧ both'.Valid nodes ∧ own'.Valid nodes ∧
      Own conf key1 own' ∧ conf.meterOf key1 both' = conf.meterOf key1 own' := by
  have hsame : ∀ n : LimitReqNode M, n.bucket = conf.bucket key1 → n.key = cstr key1 →
      conf.isFor key1 n = true := by
    intro n hbucket hkey
    unfold LimitReqConf.isFor
    simp [hbucket, hkey]
  have hfound : ∀ m, conf.meterOf key1 own = some m →
      ∃ own', conf.locked t key1 own =
          some (if (conf.meter.check m t).1 then .ok else .limited, own') ∧ own'.Valid nodes ∧
        Own conf key1 own' ∧ conf.meterOf key1 own' = some (conf.meter.check m t).2 := by
    intro m hm
    obtain ⟨own', hlocked, hvalid, hmeter, -, hmem⟩ := locked_found (t := t) hvo hm
    refine ⟨own', hlocked, hvalid, fun n' hn' => ?_, hmeter⟩
    obtain ⟨n, hn, hbucket, hkey⟩ := hmem n' hn'
    have hfor := hown n hn
    unfold LimitReqConf.isFor at *
    rw [hbucket, hkey]
    exact hfor
  have hnewBoth : conf.meterOf key1 both = none →
      ∃ both', conf.locked t key1 both = some (.ok, both') ∧ both'.Valid nodes ∧
        conf.meterOf key1 both' = some (conf.meter.init t) := by
    intro hnew
    obtain ⟨both', hlocked, hvalid, hmeter, -⟩ :=
      locked_new hvb hnew (hfree (Option.map_eq_none_iff.mp hnew))
    exact ⟨both', hlocked, hvalid, hmeter⟩
  rcases hagree with heq | ⟨hnone, m, hm, hexpired⟩
  · cases hm : conf.meterOf key1 own with
    | none =>
      rw [hm] at heq
      obtain ⟨both', hboth, hvalid, hmeter⟩ := hnewBoth heq
      obtain ⟨own', hlocked, hvalid', hmeter', -, hlist⟩ :=
        locked_new hvo hm (own_free hvo hnodes hown hm)
      refine ⟨.ok, both', own', hboth, hlocked, hvalid, hvalid', fun n hn => ?_,
        hmeter.trans hmeter'.symm⟩
      rw [hlist, List.mem_cons] at hn
      rcases hn with rfl | hn
      · exact hsame _ rfl rfl
      · exact hown n ((List.dropWhile_sublist _).subset hn)
    | some m =>
      rw [hm] at heq
      obtain ⟨both', hboth, hvalid, hmeter, -⟩ := locked_found (t := t) hvb heq
      obtain ⟨own', hlocked, hvalid', hown', hmeter'⟩ := hfound m hm
      exact ⟨_, both', own', hboth, hlocked, hvalid, hvalid', hown', hmeter.trans hmeter'.symm⟩
  · obtain ⟨both', hboth, hvalid, hmeter⟩ := hnewBoth hnone
    obtain ⟨own', hlocked, hvalid', hown', hmeter'⟩ := hfound m hm
    -- an expired meter lets the request pass and becomes a new one
    rw [hw.check_expired hexpired] at hlocked hmeter'
    exact ⟨.ok, both', own', hboth, hlocked, hvalid, hvalid', hown', hmeter.trans hmeter'.symm⟩

/-- A request of a source apart takes at most an expired meter away. -/
theorem agree_other {both own : LimitReqShared M} {t : Nat}
    (hapart : ¬ (cstr key1 = cstr key2 ∧ conf.bucket key1 = conf.bucket key2))
    (hvb : both.Valid nodes) (hagree : Agree conf key1 t both own)
    (hfree : both.lruList.find? (conf.isFor key2) = none →
      0 < (phlLimitReqExpire conf t both).freeNum ∨
        0 < (phlLimitReqExpire conf t both).unusedNum) :
    ∃ res both', conf.locked t key2 both = some (res, both') ∧ both'.Valid nodes ∧
      Agree conf key1 t both' own := by
  cases hm : conf.meterOf key2 both with
  | none =>
    obtain ⟨both', hlocked, hvalid, -, hother, -⟩ :=
      locked_new hvb hm (hfree (Option.map_eq_none_iff.mp hm))
    refine ⟨.ok, both', hlocked, hvalid, ?_⟩
    unfold Agree at *
    rw [hother key1 hapart]
    rcases @expire_meterOf M conf key1 t nodes both hvb with hkept | ⟨hgone, m, hmeter, hexpired⟩
    · rw [hkept]
      exact hagree
    · rcases hagree with heq | ⟨hnone, -⟩
      · exact .inr ⟨hgone, m, heq.symm.trans hmeter, hexpired⟩
      · rw [hnone] at hmeter
        cases hmeter
  | some m =>
    obtain ⟨both', hlocked, hvalid, -, hother, -⟩ := locked_found (t := t) hvb hm
    refine ⟨_, both', hlocked, hvalid, ?_⟩
    unfold Agree at *
    rw [hother key1 hapart]
    exact hagree

theorem agree_later {both own : LimitReqShared M} {t t' : Nat} (hw : conf.meter.Sound)
    (ht : t ≤ t') (hagree : Agree conf key1 t both own) : Agree conf key1 t' both own := by
  rcases hagree with heq | ⟨hnone, m, hm, hexpired⟩
  · exact .inl heq
  · exact .inr ⟨hnone, m, hm, hw.expired_later ht hexpired⟩

/-- Sources without a common meter do not change each other's decisions. -/
theorem decisions_apart (hw : conf.meter.Sound) (hnodes : 0 < nodes)
    (hapart : ¬ SameMeter conf key1 key2) {run : List LimitReqRequest}
    {both own : LimitReqShared M} {t : Nat} (htimes : run.Pairwise fun a b => a.time ≤ b.time)
    (ht : ∀ r ∈ run, t ≤ r.time) (hkeys : ∀ r ∈ run, r.key = key1 ∨ r.key = key2)
    (hfree : FreeNodes conf (some both) run) (hvb : both.Valid nodes) (hvo : own.Valid nodes)
    (hown : Own conf key1 own) (hagree : key1.length < conf.keyMaxLen → Agree conf key1 t both own) :
    decisions conf key1 (some both) run =
      decisions conf key1 (some own) (run.filter fun r => decide (r.key = key1)) := by
  induction run generalizing both own t with
  | nil => rfl
  | cons r run ih =>
    obtain ⟨hfirst, htimes⟩ := List.pairwise_cons.mp htimes
    obtain ⟨hneed, hfree⟩ := hfree
    have hkeys' : ∀ r ∈ run, r.key = key1 ∨ r.key = key2 :=
      fun r hr => hkeys r (List.mem_cons_of_mem _ hr)
    have hnow := fun hshort => agree_later hw (ht r List.mem_cons_self) (hagree hshort)
    by_cases hkey : r.key = key1
    · rw [List.filter_cons_of_pos (by simpa using hkey)]
      by_cases hshort : r.key.length < conf.keyMaxLen
      · rw [hkey] at hshort hneed
        obtain ⟨res, both', own', hboth, hlocked, hvalid, hvalid', hown', hsame⟩ :=
          agree_step hw hnodes hvb hvo hown (hnow hshort) (hneed both rfl hshort)
        rw [← hkey] at hshort hboth hlocked
        have hb := process_short hshort hboth
        rw [decisions_cons hb, decisions_cons (process_short hshort hlocked),
          ih htimes hfirst hkeys' (hfree _ _ hb) hvalid hvalid' hown' fun _ => .inl hsame]
      · have hb := @process_long M conf r.time r.key both hshort
        rw [decisions_cons hb, decisions_cons (process_long hshort),
          ih htimes hfirst hkeys' (hfree _ _ hb) hvb hvo hown hnow]
    · have hkey2 := (hkeys r List.mem_cons_self).resolve_left hkey
      rw [List.filter_cons_of_neg (by simpa using hkey)]
      have hlater : ∀ both' : LimitReqShared M, ∀ res,
          phlLimitReqProcessHeaders conf r.time (some r.key) (some both) =
            some (res, some both') → both'.Valid nodes →
          (key1.length < conf.keyMaxLen → Agree conf key1 r.time both' own) →
          decisions conf key1 (some both) (r :: run) =
            decisions conf key1 (some own) (run.filter fun r => decide (r.key = key1)) := by
        intro both' res hb hvalid hagree'
        rw [decisions_cons hb, ← ih htimes hfirst hkeys' (hfree _ _ hb) hvalid hvo hown hagree']
        simp [hkey]
      by_cases hshort : r.key.length < conf.keyMaxLen
      · by_cases hmeter : cstr key1 = cstr key2 ∧ conf.bucket key1 = conf.bucket key2
        · -- the first source's key is too long to come to the meter
          have hlong : ¬ key1.length < conf.keyMaxLen := by
            intro hshort1
            rw [hkey2] at hshort
            exact hapart ⟨hshort1, hshort, hmeter⟩
          obtain ⟨res, both', hboth, hvalid⟩ :=
            locked_some (t := r.time) hvb (hneed both rfl hshort)
          exact hlater both' res (process_short hshort hboth) hvalid fun h => absurd h hlong
        · have hneed2 := hneed both rfl hshort
          rw [hkey2] at hneed2
          by_cases hshort1 : key1.length < conf.keyMaxLen
          · obtain ⟨res, both', hboth, hvalid, hagree'⟩ :=
              agree_other hmeter hvb (hnow hshort1) hneed2
            rw [← hkey2] at hboth
            exact hlater both' res (process_short hshort hboth) hvalid fun _ => hagree'
          · obtain ⟨res, both', hboth, hvalid⟩ :=
              locked_some (t := r.time) hvb (hneed both rfl hshort)
            exact hlater both' res (process_short hshort hboth) hvalid fun h => absurd h hshort1
      · exact hlater both .error (process_long hshort) hvb hnow

theorem decisions_none {source : Bytes} {shared : Option (LimitReqShared M)}
    {run : List LimitReqRequest} {r : LimitReqRequest} {res : LimitReqResult}
    {shared' : Option (LimitReqShared M)} (hne : r.key ≠ source)
    (h : phlLimitReqProcessHeaders conf r.time (some r.key) shared = some (res, shared')) :
    decisions conf source shared (r :: run) = decisions conf source shared' run := by
  rw [decisions_cons h]
  simp [hne]

theorem freeNodes_cons {shared shared' : LimitReqShared M} {run : List LimitReqRequest}
    {r : LimitReqRequest} {res : LimitReqResult}
    (hneed : shared.lruList.find? (conf.isFor r.key) = none →
      0 < (phlLimitReqExpire conf r.time shared).freeNum ∨
        0 < (phlLimitReqExpire conf r.time shared).unusedNum)
    (h : phlLimitReqProcessHeaders conf r.time (some r.key) (some shared) =
      some (res, some shared'))
    (hfree : FreeNodes conf (some shared') run) : FreeNodes conf (some shared) (r :: run) := by
  refine ⟨fun sh hsh _ hnone => ?_, fun res' shared'' hstep => ?_⟩
  · cases hsh
    exact hneed hnone
  · rw [h] at hstep
    cases hstep
    exact hfree

/-- Requests of another source that is found check its meter, one after the other. -/
theorem decisions_found {shared : LimitReqShared M} {m : M} {ts : List Nat}
    {rest : List LimitReqRequest} (hv : shared.Valid nodes) (hne : key2 ≠ key1)
    (hshort : key2.length < conf.keyMaxLen) (hm : conf.meterOf key2 shared = some m) :
    ∃ shared', shared'.Valid nodes ∧
      conf.meterOf key2 shared' = some (ts.foldl (fun m t => (conf.meter.check m t).2) m) ∧
      decisions conf key1 (some shared) (ts.map (⟨·, key2⟩) ++ rest) =
        decisions conf key1 (some shared') rest ∧
      (FreeNodes conf (some shared') rest →
        FreeNodes conf (some shared) (ts.map (⟨·, key2⟩) ++ rest)) := by
  induction ts generalizing shared m with
  | nil => exact ⟨shared, hv, hm, rfl, id⟩
  | cons t ts ih =>
    obtain ⟨shared1, hlocked, hvalid, hmeter, -⟩ := locked_found (t := t) hv hm
    obtain ⟨shared', hvalid', hmeter', hsame, hfree⟩ := ih hvalid hmeter
    have hstep := process_short hshort hlocked
    refine ⟨shared', hvalid', hmeter', ?_, fun hrest => ?_⟩
    · rw [List.map_cons, List.cons_append, ← hsame]
      exact @decisions_none M conf key1 _ _ ⟨t, key2⟩ _ _ hne hstep
    · refine @freeNodes_cons M conf shared shared1 _ ⟨t, key2⟩ _ (fun hnone => ?_) hstep
        (hfree hrest)
      rw [LimitReqConf.meterOf, hnone] at hm
      cases hm

/-- A source that comes to the meter of another is denied for the other's requests. -/
theorem decisions_shared (hw : conf.meter.Sound) (hnodes : 0 < nodes) (hne : key1 ≠ key2)
    (hsame : SameMeter conf key1 key2) :
    ∃ run, (run.Pairwise fun a b => a.time ≤ b.time) ∧ (∀ r ∈ run, r.key = key1 ∨ r.key = key2) ∧
      FreeNodes conf (limitReqInit nodes) run ∧
      decisions conf key1 (limitReqInit nodes) run ≠
        decisions conf key1 (limitReqInit nodes) (run.filter fun r => decide (r.key = key1)) := by
  obtain ⟨hshort1, hshort2, hkey, hbucket⟩ := hsame
  obtain ⟨t, ts, t', htimes, hdeny⟩ := hw.limits
  have hfor : conf.isFor key1 = conf.isFor key2 := by
    funext n
    unfold LimitReqConf.isFor
    rw [hkey, hbucket]
  have hinit : LimitReqShared.Valid (⟨[], 0, nodes⟩ : LimitReqShared M) nodes :=
    ⟨List.nodup_nil, by simp⟩
  have hroom : ∀ time, 0 < (phlLimitReqExpire conf time (⟨[], 0, nodes⟩ :
      LimitReqShared M)).unusedNum := fun _ => hnodes
  obtain ⟨first, hfirst, hvalid, hmeter, -⟩ :=
    @locked_new M conf key2 t nodes _ hinit rfl (.inr (hroom t))
  obtain ⟨before, hvalid', hmeter', hdecisions, hfree⟩ :=
    @decisions_found M conf key1 key2 nodes first _ ts [⟨t', key1⟩] hvalid (Ne.symm hne) hshort2
      hmeter
  have hmeter1 : conf.meterOf key1 before =
      some (ts.foldl (fun m t => (conf.meter.check m t).2) (conf.meter.init t)) := by
    unfold LimitReqConf.meterOf at *
    rw [hfor]
    exact hmeter'
  obtain ⟨after, hlast, -⟩ := locked_found (t := t') hvalid' hmeter1
  rw [hdeny] at hlast
  obtain ⟨alone, halone, -⟩ := @locked_new M conf key1 t' nodes _ hinit rfl (.inr (hroom t'))
  have hstep := process_short hshort2 hfirst
  have hstep' := process_short hshort1 hlast
  have hown := process_short hshort1 halone
  refine ⟨⟨t, key2⟩ :: (ts.map (⟨·, key2⟩) ++ [⟨t', key1⟩]), ?_, ?_, ?_, ?_⟩
  · have hmap : (⟨t, key2⟩ :: (ts.map (⟨·, key2⟩) ++ [⟨t', key1⟩]) : List LimitReqRequest).map
        (·.time) = t :: (ts ++ [t']) := by
      rw [List.map_cons, List.map_append, List.map_map]
      simp [Function.comp_def]
    rw [← hmap] at htimes
    exact List.pairwise_map.mp htimes
  · intro r hr
    simp only [List.mem_cons, List.mem_append, List.mem_map, List.not_mem_nil, or_false] at hr
    rcases hr with rfl | ⟨_, _, rfl⟩ | rfl
    · exact .inr rfl
    · exact .inr rfl
    · exact .inl rfl
  · refine @freeNodes_cons M conf _ first _ ⟨t, key2⟩ _ (fun _ => .inr (hroom t)) hstep (hfree ?_)
    refine @freeNodes_cons M conf before after _ ⟨t', key1⟩ _ (fun hnone => ?_) hstep' trivial
    rw [LimitReqConf.meterOf, hnone] at hmeter1
    cases hmeter1
  · have hall : decisions conf key1 (limitReqInit nodes)
        (⟨t, key2⟩ :: (ts.map (⟨·, key2⟩) ++ [⟨t', key1⟩])) = some [.limited] := by
      have h := @decisions_none M conf key1 _ (ts.map (⟨·, key2⟩) ++ [⟨t', key1⟩]) ⟨t, key2⟩ _ _
        (Ne.symm hne) hstep
      have h' := @decisions_cons M conf key1 _ _ ⟨t', key1⟩ [] _ hstep'
      rw [limitReqInit, h, hdecisions, h']
      simp [decisions]
    have hfilter : (⟨t, key2⟩ :: (ts.map (⟨·, key2⟩) ++ [⟨t', key1⟩]) :
        List LimitReqRequest).filter (fun r => decide (r.key = key1)) = [⟨t', key1⟩] := by
      rw [List.filter_cons_of_neg (by simpa using Ne.symm hne), List.filter_append,
        List.filter_map]
      simp [Function.comp_def, Ne.symm hne]
    have h := @decisions_cons M conf key1 _ _ ⟨t', key1⟩ [] _ hown
    rw [hall, hfilter, limitReqInit, h]
    simp [decisions]

end Isolation

/-- One request a second; the meter is the time of the last one that passed. -/
def oneASecond : LimitReqConf Nat where
  keyMaxLen := 40
  hashBuckets := 1024
  vhash64 key := key.length
  meter :=
    { init := id
      isExpired m t := decide (m + 1 ≤ t)
      check m t := if m + 1 ≤ t then (true, t) else (false, m) }

theorem oneASecond_sound : oneASecond.meter.Sound where
  expired_later := by
    intro m t t' ht h
    simp only [oneASecond, decide_eq_true_eq] at *
    omega
  check_expired := by
    intro m t h
    simp only [oneASecond, decide_eq_true_eq] at *
    rw [if_pos h]
    rfl
  limits := ⟨0, [], 0, by decide, by decide⟩

end Phorklift
