import Phorklift.Arena
import Phorklift.LimitReq
import Phorklift.Transition
import Mathlib.Data.List.Forall2

/-! The shared memory of the rate limit: its header, buckets and nodes. -/

namespace Phorklift

open Arena Transition

section Model

/-- The sizes and offsets the compiler gives the structures. -/
structure LimitReqSizes where
  /-- `sizeof(struct phl_limit_req_node)` -/
  node : Nat
  /-- `offsetof(struct phl_limit_req_node, key)` -/
  key : Nat
  /-- `sizeof(struct phl_limit_req_shared)` -/
  shared : Nat
  /-- `offsetof(struct phl_limit_req_shared, hash_buckets)` -/
  buckets : Nat
  /-- `sizeof(wuy_nop_hlist_t)` -/
  hlist : Nat
  key_le : key ≤ node
  buckets_pos : 0 < buckets
  buckets_le : buckets ≤ shared

/-- Positions are counted from the start of the memory. -/
structure LimitReqRegion where
  usedPos : Int
  nodesEnd : Int
  freeList : List Int
  lruList : List Int
  /-- the nodes that were taken at `used_pos`, in order -/
  fresh : List Int
  /-- the nodes that a key was written to, with the key -/
  writes : List (Int × Bytes)
  deriving DecidableEq

/-- The options are within the limits of the commands. -/
structure LimitReqSetting where
  rate : Int
  burst : Int
  keyMaxLen : Int
  size : Int
  hashBuckets : Int
  keyMaxLen_limits : 8 ≤ keyMaxLen ∧ keyMaxLen ≤ 255
  size_limits : 16 * 1024 ≤ size
  hashBuckets_limits : 64 ≤ hashBuckets

/-- A request that comes to the rate limit. `sought` and `expired` are what the memory tells of a
node: that it is of this key, and that its meter is expired. -/
structure LimitReqUse where
  key : Bytes
  sought : Int → Bool
  expired : Int → Bool

variable (sizes : LimitReqSizes) (conf : LimitReqSetting)

/-- The configuration and its `shared`; `memory` is what the pool has there, if it was used
before. -/
def phlLimitReqConfPost (memory : Option LimitReqRegion) :
    Except String (LimitReqSetting × Option LimitReqRegion) :=
  if conf.rate = 0 then .ok (conf, none)
  else if conf.burst ≠ 0 ∧ conf.burst < conf.rate then .error "expect burst >= rate"
  else
    let conf := { conf with burst := if conf.burst = 0 then conf.rate else conf.burst }
    match memory with
    | some shared => .ok (conf, some shared)
    | none =>
      let usedPos : Int := sizes.hlist * conf.hashBuckets
      let nodesEnd : Int := conf.size - (sizes.node + conf.keyMaxLen)
      if nodesEnd ≤ usedPos then .error "too small size"
      else .ok (conf, some ⟨usedPos, nodesEnd, [], [], [], []⟩)

namespace LimitReqRegion

def phlLimitReqExpire (expired : Int → Bool) (shared : LimitReqRegion) : LimitReqRegion :=
  { shared with
    lruList := shared.lruList.dropWhile expired
    freeList := shared.freeList ++ shared.lruList.takeWhile expired }

/-- Without any node NULL is read. -/
def phlLimitReqAllocNode (expired : Int → Bool) (shared : LimitReqRegion) :
    Option (Int × LimitReqRegion) :=
  let shared := shared.phlLimitReqExpire expired
  match shared.freeList with
  | node :: rest => some (node, { shared with freeList := rest })
  | [] =>
    if shared.usedPos < shared.nodesEnd then
      some (shared.usedPos, { shared with
        usedPos := shared.usedPos + sizes.node + conf.keyMaxLen
        fresh := shared.fresh ++ [shared.usedPos] })
    else
      match shared.lruList with
      | node :: rest => some (node, { shared with lruList := rest })
      | [] => none

/-- The key of an IPv4 address is its four bytes; the nodes of the buckets are those of the LRU
list. -/
def phlLimitReqProcessHeaders (shared : LimitReqRegion) (use : LimitReqUse) :
    Option LimitReqRegion :=
  if conf.keyMaxLen ≤ use.key.length then some shared
  else if shared.lruList.any use.sought then some shared
  else do
    let (node, shared) ← shared.phlLimitReqAllocNode sizes conf use.expired
    some { shared with
      lruList := node :: shared.lruList
      writes := shared.writes ++ [(node, cstr use.key)] }

end LimitReqRegion

end Model

section Layout

variable (sizes : LimitReqSizes) (conf : LimitReqSetting)

/-- The bytes of a node and its key. -/
def nodeSpan (node : Int) : Span := ⟨node, sizes.node + conf.keyMaxLen⟩

/-- The bytes of a key and its terminator. -/
def keySpan (node : Int) (key : Bytes) : Span := ⟨node + sizes.key, key.length + 1⟩

def headerSpan : Span := ⟨0, sizes.shared⟩

def bucketSpan (i : Nat) : Span := entry sizes.buckets sizes.hlist i

/-- The nodes lie in the memory and apart, and the keys in their nodes. -/
structure LimitReqRegion.Carved (shared : LimitReqRegion) : Prop where
  disjoint : (shared.fresh.map (nodeSpan sizes conf)).Pairwise Span.Apart
  inside : ∀ node ∈ shared.fresh, (nodeSpan sizes conf node).Within ⟨0, conf.size⟩
  keys : ∀ w ∈ shared.writes, (keySpan sizes w.1 w.2).Within (nodeSpan sizes conf w.1)

/-- The nodes lie apart from the header and the buckets, too. -/
structure LimitReqRegion.LaidOut (shared : LimitReqRegion) : Prop
    extends shared.Carved sizes conf where
  header : ∀ node ∈ shared.fresh, (nodeSpan sizes conf node).Apart (headerSpan sizes)
  buckets : ∀ node ∈ shared.fresh, ∀ i : Nat, i < conf.hashBuckets →
    (nodeSpan sizes conf node).Apart (bucketSpan sizes i)

end Layout

section Carving

variable {sizes : LimitReqSizes} {conf : LimitReqSetting} {shared : LimitReqRegion}

/-- Where the first node is taken. -/
def nodesStart (sizes : LimitReqSizes) (conf : LimitReqSetting) : Int :=
  sizes.hlist * conf.hashBuckets

def nodeStride (sizes : LimitReqSizes) (conf : LimitReqSetting) : Int :=
  sizes.node + conf.keyMaxLen

/-- The nodes taken so far are the first ones of a row, and each node in a list is one of them. -/
structure LimitReqRegion.Row (sizes : LimitReqSizes) (conf : LimitReqSetting)
    (shared : LimitReqRegion) : Prop where
  nodes : shared.fresh.map (nodeSpan sizes conf) =
    carve (nodesStart sizes conf) (nodeStride sizes conf) shared.fresh.length
  used : shared.usedPos =
    nodesStart sizes conf + shared.fresh.length * nodeStride sizes conf
  stop : shared.nodesEnd = conf.size - nodeStride sizes conf
  room : nodesStart sizes conf < shared.nodesEnd
  last : shared.usedPos < conf.size
  listed : ∀ node, node ∈ shared.freeList ∨ node ∈ shared.lruList → node ∈ shared.fresh
  some_listed : shared.fresh ≠ [] → shared.freeList ≠ [] ∨ shared.lruList ≠ []
  keys : ∀ w ∈ shared.writes, w.2.length < conf.keyMaxLen

theorem nodeStride_pos : 0 < nodeStride sizes conf := by
  have hlimits := conf.keyMaxLen_limits
  unfold nodeStride
  omega

theorem nodesStart_nonneg : 0 ≤ nodesStart sizes conf := by
  have hlimits := conf.hashBuckets_limits
  exact Int.mul_nonneg (Int.natCast_nonneg _) (by omega)

theorem LimitReqRegion.Row.carved (h : shared.Row sizes conf) : shared.Carved sizes conf := by
  have hstride := @nodeStride_pos sizes conf
  have hstart := @nodesStart_nonneg sizes conf
  have hle : 0 ≤ nodeStride sizes conf := by omega
  refine ⟨?_, fun node hnode => ?_, fun w hw => ?_⟩
  · rw [h.nodes]
    exact carve_apart hle _
  · have hmem : nodeSpan sizes conf node ∈
        carve (nodesStart sizes conf) (nodeStride sizes conf) shared.fresh.length := by
      rw [← h.nodes]
      exact List.mem_map_of_mem hnode
    have hbounds := carve_bounds hle _ hmem
    have hused := h.used
    have hlast := h.last
    unfold Span.Within
    dsimp only
    omega
  · have hkey := h.keys w hw
    have hat := sizes.key_le
    unfold Span.Within keySpan nodeSpan
    dsimp only
    omega

/-- A node is clear of the header and the buckets where it starts behind them. -/
theorem clear_iff {node : Int} (hnode : 0 ≤ node) :
    ((nodeSpan sizes conf node).Apart (headerSpan sizes) ∧
      ∀ i : Nat, i < conf.hashBuckets → (nodeSpan sizes conf node).Apart (bucketSpan sizes i)) ↔
      sizes.shared ≤ node ∧ sizes.buckets + nodesStart sizes conf ≤ node := by
  have hstride := @nodeStride_pos sizes conf
  have hlimits := conf.hashBuckets_limits
  have hcast : (conf.hashBuckets.toNat : Int) = conf.hashBuckets := Int.toNat_of_nonneg (by omega)
  have hrow := @apart_row_iff sizes.buckets sizes.hlist (nodeSpan sizes conf node) hstride
    (Int.natCast_nonneg _) conf.hashBuckets.toNat (by omega)
  have hbuckets : (∀ i : Nat, i < conf.hashBuckets →
      (nodeSpan sizes conf node).Apart (bucketSpan sizes i)) ↔
      (nodeSpan sizes conf node).Apart ⟨sizes.buckets, nodesStart sizes conf⟩ := by
    rw [hcast, Int.mul_comm] at hrow
    refine Iff.trans ?_ hrow
    exact forall_congr' fun i => imp_congr (by omega) Iff.rfl
  have hpos := sizes.buckets_pos
  have hle := sizes.buckets_le
  have hspan : (nodeSpan sizes conf node).size = nodeStride sizes conf := rfl
  have hat : (nodeSpan sizes conf node).start = node := rfl
  rw [hbuckets]
  unfold Span.Apart headerSpan
  rw [hspan, hat]
  dsimp only
  omega

/-- The first node is taken over the buckets, or over the header. -/
theorem LimitReqRegion.Row.laidOut_iff (h : shared.Row sizes conf) :
    shared.LaidOut sizes conf ↔ shared.fresh = [] := by
  constructor
  · intro hlaid
    cases hfresh : shared.fresh with
    | nil => rfl
    | cons node nodes =>
      have hmem : node ∈ shared.fresh := by
        rw [hfresh]
        exact List.mem_cons_self
      have hnodes := h.nodes
      rw [hfresh, List.length_cons] at hnodes
      unfold carve at hnodes
      rw [List.range_succ_eq_map, List.map_cons, List.map_cons, List.cons.injEq] at hnodes
      have hat : node = nodesStart sizes conf := by
        have heq := congrArg Span.start hnodes.1
        unfold nodeSpan entry at heq
        simpa using heq
      have hstart := @nodesStart_nonneg sizes conf
      have hclear := (clear_iff (by omega)).mp ⟨hlaid.header node hmem, hlaid.buckets node hmem⟩
      have hpos := sizes.buckets_pos
      omega
  · intro hfresh
    have hnone : ∀ node, node ∉ shared.fresh := by
      rw [hfresh]
      exact fun _ => List.not_mem_nil
    exact ⟨h.carved, fun node hnode => absurd hnode (hnone node),
      fun node hnode => absurd hnode (hnone node)⟩

theorem LimitReqRegion.Row.expire (h : shared.Row sizes conf) (expired : Int → Bool) :
    (shared.phlLimitReqExpire expired).Row sizes conf := by
  have hsplit := @List.takeWhile_append_dropWhile _ expired shared.lruList
  refine ⟨h.nodes, h.used, h.stop, h.room, h.last, fun node hnode => ?_, fun hfresh => ?_, h.keys⟩
  · apply h.listed node
    unfold phlLimitReqExpire at hnode
    rw [← hsplit, List.mem_append]
    rw [List.mem_append, or_assoc] at hnode
    exact hnode
  · have hsome := h.some_listed hfresh
    unfold phlLimitReqExpire
    dsimp only
    rw [← hsplit] at hsome
    simp only [ne_eq, List.append_eq_nil_iff, not_and_or] at *
    rw [or_assoc]
    exact hsome

theorem keys_append {writes : List (Int × Bytes)} {node : Int} {key : Bytes}
    (h : ∀ w ∈ writes, w.2.length < conf.keyMaxLen) (hkey : key.length < conf.keyMaxLen) :
    ∀ w ∈ writes ++ [(node, key)], w.2.length < conf.keyMaxLen := by
  intro w hw
  rcases List.mem_append.mp hw with hw | hw
  · exact h w hw
  · rw [List.mem_singleton.mp hw]
    exact hkey

/-- What is taken at `used_pos` is the next node of the row. -/
theorem LimitReqRegion.Row.carve (h : shared.Row sizes conf)
    (hroom : shared.usedPos < shared.nodesEnd) {key : Bytes} (hkey : key.length < conf.keyMaxLen) :
    { shared with
      usedPos := shared.usedPos + sizes.node + conf.keyMaxLen
      fresh := shared.fresh ++ [shared.usedPos]
      lruList := shared.usedPos :: shared.lruList
      writes := shared.writes ++ [(shared.usedPos, key)] : LimitReqRegion }.Row sizes conf := by
  have hused := h.used
  have hstop := h.stop
  have hstride : nodeStride sizes conf = sizes.node + conf.keyMaxLen := rfl
  have hmul := @stride_succ (nodeStride sizes conf) shared.fresh.length
  refine ⟨?_, ?_, hstop, h.room, ?_, fun node hnode => ?_, fun _ => .inr (List.cons_ne_nil _ _),
    keys_append h.keys hkey⟩
  · dsimp only
    rw [List.map_append, h.nodes, List.length_append, List.length_singleton, carve_succ]
    have hnode : nodeSpan sizes conf shared.usedPos =
        entry (nodesStart sizes conf) (nodeStride sizes conf) shared.fresh.length := by
      rw [hused]
      rfl
    rw [← hnode]
    rfl
  · dsimp only
    rw [List.length_append, List.length_singleton]
    omega
  · dsimp only
    omega
  · rw [List.mem_append, List.mem_singleton]
    rcases hnode with hnode | hnode
    · exact .inl (h.listed node (.inl hnode))
    · rcases List.mem_cons.mp hnode with hnode | hnode
      · exact .inr hnode
      · exact .inl (h.listed node (.inr hnode))

/-- A node of one of the lists goes to the head of the LRU list. -/
theorem LimitReqRegion.Row.relist (h : shared.Row sizes conf) {node : Int} {free lru : List Int}
    (hnode : node ∈ shared.fresh)
    (hlisted : ∀ node, node ∈ free ∨ node ∈ lru → node ∈ shared.fresh) {key : Bytes}
    (hkey : key.length < conf.keyMaxLen) :
    { shared with
      freeList := free
      lruList := node :: lru
      writes := shared.writes ++ [(node, key)] : LimitReqRegion }.Row sizes conf := by
  refine ⟨h.nodes, h.used, h.stop, h.room, h.last, fun n hn => ?_,
    fun _ => .inr (List.cons_ne_nil _ _), keys_append h.keys hkey⟩
  rcases hn with hn | hn
  · exact hlisted n (.inl hn)
  · rcases List.mem_cons.mp hn with rfl | hn
    · exact hnode
    · exact hlisted n (.inr hn)

/-- A node is found, also when there is none yet. -/
theorem LimitReqRegion.Row.allocNode (h : shared.Row sizes conf) (expired : Int → Bool)
    {key : Bytes} (hkey : key.length < conf.keyMaxLen) :
    ∃ node shared', shared.phlLimitReqAllocNode sizes conf expired = some (node, shared') ∧
      shared'.fresh ≠ [] ∧
      { shared' with
        lruList := node :: shared'.lruList
        writes := shared'.writes ++ [(node, key)] : LimitReqRegion }.Row sizes conf := by
  have he := h.expire expired
  unfold phlLimitReqAllocNode
  dsimp only
  generalize shared.phlLimitReqExpire expired = s at *
  cases hfree : s.freeList with
  | cons node rest =>
    have hnode := he.listed node (.inl (by rw [hfree]; exact List.mem_cons_self))
    have hlisted : ∀ n, n ∈ rest ∨ n ∈ s.lruList → n ∈ s.fresh := by
      intro n hn
      apply he.listed n
      rw [hfree]
      exact hn.imp_left (List.mem_cons_of_mem _)
    exact ⟨node, _, rfl, List.ne_nil_of_mem hnode, he.relist hnode hlisted hkey⟩
  | nil =>
    dsimp only
    by_cases hroom : s.usedPos < s.nodesEnd
    · rw [if_pos hroom]
      have hcarve := he.carve hroom hkey
      rw [hfree] at hcarve
      exact ⟨s.usedPos, _, rfl, by simp, hcarve⟩
    · rw [if_neg hroom]
      -- past the end, some node was taken before
      have htaken : s.fresh ≠ [] := by
        intro hnil
        have hused := he.used
        have hstart := he.room
        rw [hnil, List.length_nil] at hused
        omega
      have hlru := (he.some_listed htaken).resolve_left (not_not.mpr hfree)
      cases hl : s.lruList with
      | nil => exact absurd hl hlru
      | cons node rest =>
        have hnode := he.listed node (.inr (by rw [hl]; exact List.mem_cons_self))
        have hlisted : ∀ n, n ∈ s.freeList ∨ n ∈ rest → n ∈ s.fresh := by
          intro n hn
          apply he.listed n
          rw [hl]
          exact hn.imp_right (List.mem_cons_of_mem _)
        have hrow := he.relist hnode hlisted hkey
        rw [hfree] at hrow
        exact ⟨node, _, rfl, htaken, hrow⟩

/-- The first request whose key is short enough is given a new node. -/
theorem LimitReqRegion.Row.processHeaders (h : shared.Row sizes conf) (use : LimitReqUse) :
    ∃ shared', shared.phlLimitReqProcessHeaders sizes conf use = some shared' ∧
      shared'.Row sizes conf ∧
      (shared'.fresh = [] ↔ shared.fresh = [] ∧ conf.keyMaxLen ≤ use.key.length) := by
  unfold phlLimitReqProcessHeaders
  by_cases hlong : conf.keyMaxLen ≤ use.key.length
  · rw [if_pos hlong]
    exact ⟨shared, rfl, h, (and_iff_left hlong).symm⟩
  · rw [if_neg hlong]
    by_cases hfound : shared.lruList.any use.sought = true
    · rw [if_pos hfound]
      obtain ⟨node, hnode, -⟩ := List.any_eq_true.mp hfound
      have htaken := List.ne_nil_of_mem (h.listed node (.inr hnode))
      exact ⟨shared, rfl, h, iff_of_false htaken fun hnil => htaken hnil.1⟩
    · rw [if_neg hfound]
      have hkey : ((cstr use.key).length : Int) < conf.keyMaxLen := by
        have hle : (cstr use.key).length ≤ use.key.length :=
          (List.takeWhile_sublist _).length_le
        omega
      obtain ⟨node, taken, halloc, htaken, hrow⟩ := h.allocNode use.expired hkey
      rw [halloc]
      exact ⟨_, rfl, hrow, iff_of_false htaken fun hnil => hlong hnil.2⟩

theorem LimitReqRegion.Row.run (h : shared.Row sizes conf) (uses : List LimitReqUse) :
    ∃ shared', runActs (phlLimitReqProcessHeaders sizes conf) uses shared = some shared' ∧
      shared'.Row sizes conf ∧
      (shared'.fresh = [] ↔
        shared.fresh = [] ∧ ∀ use ∈ uses, conf.keyMaxLen ≤ use.key.length) := by
  induction uses generalizing shared with
  | nil =>
    refine ⟨shared, rfl, h, ?_⟩
    simp
  | cons use uses ih =>
    obtain ⟨next, hstep, hnext, hiff⟩ := h.processHeaders use
    obtain ⟨shared', hrun, hrow, hiff'⟩ := ih hnext
    refine ⟨shared', ?_, hrow, ?_⟩
    · rw [runActs, hstep]
      exact hrun
    · rw [hiff', hiff, List.forall_mem_cons, and_assoc]

theorem row_of_confPost {posted : LimitReqSetting}
    (h : phlLimitReqConfPost sizes conf none = .ok (posted, some shared)) :
    shared.Row sizes posted ∧ shared.fresh = [] := by
  unfold phlLimitReqConfPost at h
  split at h
  next => cases h
  next =>
    split at h
    next => cases h
    next =>
      dsimp only at h
      split at h
      next => cases h
      next hroom =>
        cases h
        have hstart : nodesStart sizes conf = sizes.hlist * conf.hashBuckets := rfl
        have hstride := @nodeStride_pos sizes conf
        refine ⟨⟨rfl, ?_, rfl, ?_, ?_, ?_, fun hne => absurd rfl hne, ?_⟩, rfl⟩
        · simp [nodesStart]
        · show (sizes.hlist * conf.hashBuckets : Int) < conf.size - (sizes.node + conf.keyMaxLen)
          omega
        · show (sizes.hlist * conf.hashBuckets : Int) < conf.size
          have hroom' : ¬ conf.size - (sizes.node + conf.keyMaxLen) ≤
            (sizes.hlist * conf.hashBuckets : Int) := hroom
          have hlimits := conf.keyMaxLen_limits
          omega
        · intro node hnode
          simp at hnode
        · intro w hw
          simp at hw

end Carving

section Counted

variable {M : Type} {counted : LimitReqConf M} {t : Nat} {R : Int → LimitReqNode M → Prop}
  {sizes : LimitReqSizes} {conf : LimitReqSetting} {region : LimitReqRegion}
  {shared : LimitReqShared M} {expired : Int → Bool}

/-- The lists and counts of nodes, with `R` for the node at a position. -/
structure LimitReqRegion.Counts (R : Int → LimitReqNode M → Prop) (sizes : LimitReqSizes)
    (conf : LimitReqSetting) (region : LimitReqRegion) (shared : LimitReqShared M) : Prop where
  lru : List.Forall₂ R region.lruList shared.lruList
  free : shared.freeNum = region.freeList.length
  unused : ∀ k : Nat,
    k < shared.unusedNum ↔ region.usedPos + k * nodeStride sizes conf < region.nodesEnd

theorem forall₂_dropWhile {α β : Type} {R : α → β → Prop} {p : α → Bool} {q : β → Bool}
    (hpq : ∀ a b, R a b → p a = q b) {as : List α} {bs : List β} (h : List.Forall₂ R as bs) :
    List.Forall₂ R (as.dropWhile p) (bs.dropWhile q) ∧
      (as.takeWhile p).length + (bs.dropWhile q).length = bs.length := by
  induction h with
  | nil => exact ⟨List.Forall₂.nil, rfl⟩
  | @cons a b as bs hab hrest ih =>
    have heq := hpq a b hab
    have hlen := hrest.length_eq
    by_cases hp : p a = true
    · rw [List.dropWhile_cons_of_pos hp, List.takeWhile_cons_of_pos hp,
        List.dropWhile_cons_of_pos (heq ▸ hp)]
      refine ⟨ih.1, ?_⟩
      rw [List.length_cons, List.length_cons]
      omega
    · rw [List.dropWhile_cons_of_neg hp, List.takeWhile_cons_of_neg hp,
        List.dropWhile_cons_of_neg (heq ▸ hp)]
      refine ⟨.cons hab hrest, ?_⟩
      rw [List.length_nil]
      omega

theorem LimitReqRegion.Counts.expire (h : region.Counts R sizes conf shared)
    (hexpired : ∀ node n, R node n → expired node = counted.meter.isExpired n.meter t) :
    (region.phlLimitReqExpire expired).Counts R sizes conf
      (Phorklift.phlLimitReqExpire counted t shared) := by
  obtain ⟨hlru, hlen⟩ :=
    @forall₂_dropWhile _ _ R expired (fun n => counted.meter.isExpired n.meter t) hexpired _ _ h.lru
  refine ⟨hlru, ?_, h.unused⟩
  have hfree := h.free
  unfold Phorklift.phlLimitReqExpire phlLimitReqExpire
  dsimp only
  rw [List.length_append]
  omega

/-- The pointers take a node where the counts do. -/
theorem LimitReqRegion.Counts.allocNode (h : region.Counts R sizes conf shared)
    (hexpired : ∀ node n, R node n → expired node = counted.meter.isExpired n.meter t) :
    (region.phlLimitReqAllocNode sizes conf expired = none ∧
      Phorklift.phlLimitReqAllocNode counted t shared = none) ∨
    ∃ node region' shared',
      region.phlLimitReqAllocNode sizes conf expired = some (node, region') ∧
      Phorklift.phlLimitReqAllocNode counted t shared = some shared' ∧
      region'.Counts R sizes conf shared' := by
  have he := h.expire hexpired
  unfold phlLimitReqAllocNode Phorklift.phlLimitReqAllocNode
  dsimp only
  generalize region.phlLimitReqExpire expired = s at *
  generalize Phorklift.phlLimitReqExpire counted t shared = c at *
  have hfree := he.free
  have hroom := he.unused 0
  rw [Int.natCast_zero, Int.zero_mul, Int.add_zero] at hroom
  cases hlist : s.freeList with
  | cons node rest =>
    rw [hlist, List.length_cons] at hfree
    rw [if_pos (show 0 < c.freeNum by omega)]
    refine .inr ⟨node, _, _, rfl, rfl, he.lru, ?_, he.unused⟩
    dsimp only
    omega
  | nil =>
    rw [hlist, List.length_nil] at hfree
    rw [if_neg (show ¬ 0 < c.freeNum by omega)]
    dsimp only
    by_cases hunused : s.usedPos < s.nodesEnd
    · rw [if_pos hunused, if_pos (hroom.mpr hunused)]
      refine .inr ⟨s.usedPos, _, _, rfl, rfl, he.lru, hfree, fun k => ?_⟩
      have hnext := he.unused (k + 1)
      have hmul := @stride_succ (nodeStride sizes conf) k
      have hstride : nodeStride sizes conf = sizes.node + conf.keyMaxLen := rfl
      dsimp only
      omega
    · rw [if_neg hunused, if_neg (fun hpos => hunused (hroom.mp hpos))]
      have hlru := he.lru
      cases hs : s.lruList with
      | nil =>
        rw [hs] at hlru
        cases hc : c.lruList with
        | nil => exact .inl ⟨rfl, rfl⟩
        | cons n rest =>
          rw [hc] at hlru
          cases hlru
      | cons node rest =>
        rw [hs] at hlru
        cases hc : c.lruList with
        | nil =>
          rw [hc] at hlru
          cases hlru
        | cons n rest' =>
          rw [hc] at hlru
          cases hlru with
          | cons hnode hrest =>
            exact .inr ⟨node, _, _, rfl, rfl, hrest, hfree, he.unused⟩

end Counted

theorem limit_req_layout_iff {sizes : LimitReqSizes} {conf posted : LimitReqSetting}
    {shared : LimitReqRegion}
    (hpost : phlLimitReqConfPost sizes conf none = .ok (posted, some shared))
    (uses : List LimitReqUse) :
    ∃ shared', runActs (LimitReqRegion.phlLimitReqProcessHeaders sizes posted) uses shared =
        some shared' ∧
      shared'.Carved sizes posted ∧
      (shared'.LaidOut sizes posted ↔ ∀ use ∈ uses, posted.keyMaxLen ≤ use.key.length) := by
  obtain ⟨hrow, hnone⟩ := row_of_confPost hpost
  obtain ⟨shared', hrun, hrow', hiff⟩ := hrow.run uses
  refine ⟨shared', hrun, hrow'.carved, ?_⟩
  rw [hrow'.laidOut_iff, hiff]
  exact and_iff_right hnone

/-- 1024 buckets of eight bytes behind a header of 112 bytes. -/
def usualSizes : LimitReqSizes := ⟨56, 56, 112, 112, 8, by decide, by decide, by decide⟩

/-- Ten requests a second, with the defaults for the rest. -/
def tenASecond : LimitReqSetting :=
  ⟨10, 10, 40, 1024 * 1024, 1024, by decide, by decide, by decide⟩

theorem limit_req_layout_long_key :
    phlLimitReqConfPost usualSizes tenASecond none =
      .ok (tenASecond, some ⟨8192, 1048480, [], [], [], []⟩) ∧
    ∃ shared',
      runActs (LimitReqRegion.phlLimitReqProcessHeaders usualSizes tenASecond)
        [⟨List.replicate 40 97, fun _ => false, fun _ => false⟩]
        ⟨8192, 1048480, [], [], [], []⟩ = some shared' ∧
      shared'.LaidOut usualSizes tenASecond := by
  have hpost : phlLimitReqConfPost usualSizes tenASecond none =
      .ok (tenASecond, some ⟨8192, 1048480, [], [], [], []⟩) := rfl
  obtain ⟨shared', hrun, -, hiff⟩ := limit_req_layout_iff hpost
    [⟨List.replicate 40 97, fun _ => false, fun _ => false⟩]
  exact ⟨hpost, shared', hrun, hiff.mpr (by decide)⟩

/-- The first node is taken over the bucket 1010. -/
theorem first_node_over_bucket :
    phlLimitReqConfPost usualSizes tenASecond none =
      .ok (tenASecond, some ⟨8192, 1048480, [], [], [], []⟩) ∧
    ∃ shared',
      runActs (LimitReqRegion.phlLimitReqProcessHeaders usualSizes tenASecond)
        [⟨[97], fun _ => false, fun _ => false⟩] ⟨8192, 1048480, [], [], [], []⟩ = some shared' ∧
      shared'.fresh = [8192] ∧
      ¬ (nodeSpan usualSizes tenASecond 8192).Apart (bucketSpan usualSizes 1010) ∧
      ¬ shared'.LaidOut usualSizes tenASecond := by
  refine ⟨rfl, _, rfl, rfl, by decide, fun hlaid => ?_⟩
  have hapart := hlaid.buckets 8192 List.mem_cons_self 1010 (by decide)
  exact absurd hapart (by decide)

end Phorklift
