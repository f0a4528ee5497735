import Phorklift.Bisect
import Phorklift.Bytes
import Mathlib.Data.List.Sort
import Mathlib.Data.Rat.Floor

/-! The consistent hashing of upstream addresses, and the addresses it moves keys between. -/

namespace Phorklift

/-- An address of an upstream; `id` is its pointer. -/
structure UpstreamAddress where
  id : Nat
  sockaddr : Bytes
  weight : ℚ
  deriving DecidableEq

structure Vnode where
  hash : Nat
  address : UpstreamAddress
  deriving DecidableEq

/-- The order of `phl_upstream_hash_vnode_cmp`. -/
def VnodeLE (a b : Vnode) : Prop := a.hash ≤ b.hash

instance : DecidableRel VnodeLE := fun a b => inferInstanceAs (Decidable (a.hash ≤ b.hash))

instance : Std.Total VnodeLE := ⟨fun a b => Nat.le_total a.hash b.hash⟩

instance : IsTrans Vnode VnodeLE := ⟨fun _ _ _ hab hbc => Nat.le_trans hab hbc⟩

/-- The bytes of an `int`. -/
def intBytes (n : Nat) : Bytes := (List.range 4).map fun k => UInt8.ofNat (n / 256 ^ k)

/-- A weight is not negative here: the array would be too short for it. -/
def phlUpstreamHashAddressVnodeNum (addressVnodes : Nat) (a : UpstreamAddress) : Nat :=
  if a.weight = 0 then addressVnodes
  else ⌊a.weight * addressVnodes + 1 / 2⌋.toNat

section Ring

variable (vhash64 : Bytes → Nat) (addressVnodes : Nat)

def addressVnodeList (a : UpstreamAddress) : List Vnode :=
  (List.range (phlUpstreamHashAddressVnodeNum addressVnodes a)).map fun i =>
    ⟨vhash64 a.sockaddr ^^^ vhash64 (intBytes i), a⟩

def phlUpstreamHashUpdate (addresses : List UpstreamAddress) : List Vnode :=
  (addresses.flatMap (addressVnodeList vhash64 addressVnodes)).insertionSort VnodeLE

/-- The comparison of the search; it looks at no index past the end. -/
def vnodeCmp (vnodes : List Vnode) (hash : Nat) (i : Nat) : Ordering :=
  match vnodes[i]? with
  | none => .gt
  | some v => compare v.hash hash

/-- `key` is `none` where the function fails; an empty ring is read through NULL. -/
def phlUpstreamHashPick (pickable : UpstreamAddress → Bool) (vnodes : List Vnode)
    (key : Option Bytes) : Option UpstreamAddress := do
  let key ← key
  let vnode ← Bisect.stop (vnodeCmp vnodes (vhash64 key)) vnodes.length
  match (vnodes.drop vnode).find? fun v => pickable v.address with
  | some v => some v.address
  | none =>
    match (vnodes.take vnode).find? fun v => pickable v.address with
    | some v => some v.address
    | none => vnodes[vnode]?.map (·.address)

end Ring

/-- The nodes below a hash. -/
def below (vnodes : List Vnode) (hash : Nat) : List Vnode :=
  vnodes.filter fun v => decide (v.hash < hash)

/-- The nodes above a hash. -/
def above (vnodes : List Vnode) (hash : Nat) : List Vnode :=
  vnodes.filter fun v => decide (hash < v.hash)

/-- The next node on one side of a hash. -/
def neighbour (vnodes : List Vnode) (hash : Nat) (isBelow : Bool) : Option Vnode :=
  if isBelow then (below vnodes hash).getLast? else (above vnodes hash).head?

/-- The side of a missing hash on which the search stops: it depends on the number of nodes and on
the number of those below only. -/
def side (vnodes : List Vnode) (hash : Nat) : Bool :=
  Bisect.stopsBelow vnodes.length (below vnodes hash).length

/-- The hash is a node's, or both searches stop on one side of it, or the one among the new nodes
stops at the added address, or one address is on both sides. -/
def Undisturbed (old new : List Vnode) (added : UpstreamAddress) (hash : Nat) : Prop :=
  (∃ v ∈ new, v.hash = hash) ∨ side old hash = side new hash ∨
    (neighbour new hash (side new hash)).map (·.address) = some added ∨
    (neighbour old hash true).map (·.address) = (neighbour old hash false).map (·.address)

section Sorted

variable {vnodes : List Vnode} {hash : Nat}

/-- In a sorted ring without the hash the nodes below it come first. -/
theorem below_append_above (hsorted : vnodes.Pairwise fun a b => a.hash < b.hash)
    (hmissing : ∀ v ∈ vnodes, v.hash ≠ hash) : below vnodes hash ++ above vnodes hash = vnodes := by
  induction vnodes with
  | nil => rfl
  | cons v vnodes ih =>
    obtain ⟨hv, hsorted⟩ := List.pairwise_cons.mp hsorted
    have hih := ih hsorted fun u hu => hmissing u (List.mem_cons_of_mem v hu)
    have hne := hmissing v List.mem_cons_self
    unfold below above at *
    by_cases hlt : v.hash < hash
    · rw [List.filter_cons_of_pos (by simpa using hlt),
        List.filter_cons_of_neg (by simp; omega), List.cons_append, hih]
    · have hnone : vnodes.filter (fun u => decide (u.hash < hash)) = [] := by
        rw [List.filter_eq_nil_iff]
        intro u hu
        have hvu := hv u hu
        simp
        omega
      rw [hnone, List.nil_append] at hih
      rw [List.filter_cons_of_neg (by simpa using hlt), hnone,
        List.filter_cons_of_pos (by simp; omega), List.nil_append, hih]

theorem vnodeCmp_ranked (hsorted : vnodes.Pairwise fun a b => a.hash < b.hash)
    (hmissing : ∀ v ∈ vnodes, v.hash ≠ hash) {i : Nat} (hi : i < vnodes.length) :
    vnodeCmp vnodes hash i = Bisect.ranked (below vnodes hash).length i := by
  have hsplit := below_append_above hsorted hmissing
  unfold vnodeCmp Bisect.ranked
  rw [List.getElem?_eq_getElem hi]
  dsimp only
  by_cases hlt : i < (below vnodes hash).length
  · have hmem : vnodes[i] ∈ below vnodes hash := by
      have hlen : i < (below vnodes hash ++ above vnodes hash).length := by rwa [hsplit]
      have hget : vnodes[i] = (below vnodes hash ++ above vnodes hash)[i] := by
        simp only [hsplit]
      rw [hget, List.getElem_append_left hlt]
      exact List.getElem_mem hlt
    have hless := (List.mem_filter.mp hmem).2
    rw [if_pos hlt, Nat.compare_eq_lt]
    simpa using hless
  · have hmem : vnodes[i] ∈ above vnodes hash := by
      have hlen : i < (below vnodes hash ++ above vnodes hash).length := by rwa [hsplit]
      have hget : vnodes[i] = (below vnodes hash ++ above vnodes hash)[i] := by
        simp only [hsplit]
      rw [hget, List.getElem_append_right (by omega)]
      exact List.getElem_mem _
    have hgreater := (List.mem_filter.mp hmem).2
    rw [if_neg hlt, Nat.compare_eq_gt]
    simpa using hgreater

variable {vhash64 : Bytes → Nat} {pickable : UpstreamAddress → Bool} {key : Bytes}

/-- Where everything is pickable the node of the search is picked. -/
theorem phlUpstreamHashPick_of_stop {i : Nat} (hall : ∀ v ∈ vnodes, pickable v.address = true)
    (hstop : Bisect.stop (vnodeCmp vnodes (vhash64 key)) vnodes.length = some i)
    (hi : i < vnodes.length) :
    phlUpstreamHashPick vhash64 pickable vnodes (some key) = vnodes[i]?.map (·.address) := by
  have hcons := List.drop_eq_getElem_cons hi
  have hpick := hall vnodes[i] (List.getElem_mem hi)
  unfold phlUpstreamHashPick
  simp only [Option.bind_eq_bind, Option.bind_some, hstop, hcons, List.find?_cons, hpick,
    List.getElem?_eq_getElem hi, Option.map_some]

theorem phlUpstreamHashPick_present (hsorted : vnodes.Pairwise fun a b => a.hash < b.hash)
    (hall : ∀ v ∈ vnodes, pickable v.address = true) {v : Vnode} (hv : v ∈ vnodes)
    (hhash : v.hash = vhash64 key) :
    phlUpstreamHashPick vhash64 pickable vnodes (some key) = some v.address := by
  obtain ⟨m, hm, rfl⟩ := List.getElem_of_mem hv
  have hcmp : ∀ {i : Nat} (hi : i < vnodes.length),
      vnodeCmp vnodes (vhash64 key) i = compare vnodes[i].hash (vhash64 key) := by
    intro i hi
    unfold vnodeCmp
    rw [List.getElem?_eq_getElem hi]
  have hless := List.pairwise_iff_getElem.mp hsorted
  have hstop : Bisect.stop (vnodeCmp vnodes (vhash64 key)) vnodes.length = some m := by
    refine Bisect.stop_found hm ?_ (fun i hi => ?_) fun i hi hn => ?_
    · rw [hcmp hm, hhash, Nat.compare_eq_eq]
    · rw [hcmp (by omega), Nat.compare_eq_lt, ← hhash]
      exact hless i m (by omega) hm hi
    · rw [hcmp hn, Nat.compare_eq_gt, ← hhash]
      exact hless m i hm hn hi
  rw [phlUpstreamHashPick_of_stop hall hstop hm, List.getElem?_eq_getElem hm]
  rfl

theorem phlUpstreamHashPick_missing (hsorted : vnodes.Pairwise fun a b => a.hash < b.hash)
    (hall : ∀ v ∈ vnodes, pickable v.address = true)
    (hmissing : ∀ v ∈ vnodes, v.hash ≠ vhash64 key) :
    phlUpstreamHashPick vhash64 pickable vnodes (some key) =
      (neighbour vnodes (vhash64 key) (side vnodes (vhash64 key))).map (·.address) := by
  have hsplit := below_append_above hsorted hmissing
  have hlen := congrArg List.length hsplit
  rw [List.length_append] at hlen
  have hat : ∀ i : Nat, vnodes[i]? =
      (below vnodes (vhash64 key) ++ above vnodes (vhash64 key))[i]? := by
    intro i
    rw [hsplit]
  have hstop := Bisect.stop_congr fun i hi => vnodeCmp_ranked hsorted hmissing hi
  by_cases hempty : vnodes.length = 0
  · have hnil := List.eq_nil_of_length_eq_zero hempty
    subst hnil
    unfold neighbour
    split <;> rfl
  · have hbeside := Bisect.stop_ranked (Nat.pos_of_ne_zero hempty)
      (show (below vnodes (vhash64 key)).length ≤ vnodes.length by omega)
    rw [hbeside] at hstop
    unfold side neighbour
    by_cases hside : Bisect.stopsBelow vnodes.length (below vnodes (vhash64 key)).length = true
    · have hpos := Bisect.stopsBelow_pos hside
      rw [hside, if_pos rfl] at hstop
      rw [phlUpstreamHashPick_of_stop hall hstop (by omega), hside, if_pos rfl,
        List.getLast?_eq_getElem?]
      rw [hat, List.getElem?_append_left (by omega)]
    · have hside' : Bisect.stopsBelow vnodes.length (below vnodes (vhash64 key)).length = false := by
        simpa using hside
      have hroom := Bisect.rank_lt_of_stopsAbove (Nat.pos_of_ne_zero hempty) (by omega) hside'
      rw [hside', if_neg (by simp)] at hstop
      rw [phlUpstreamHashPick_of_stop hall hstop hroom, hside', if_neg (by simp),
        List.head?_eq_getElem?]
      rw [hat, List.getElem?_append_right (Nat.le_refl _), Nat.sub_self]

end Sorted

section Add

variable {vhash64 : Bytes → Nat} {addressVnodes : Nat} {l l' : List UpstreamAddress}
  {added : UpstreamAddress} {hash : Nat}

theorem update_perm (addresses : List UpstreamAddress) :
    (phlUpstreamHashUpdate vhash64 addressVnodes addresses).Perm
      (addresses.flatMap (addressVnodeList vhash64 addressVnodes)) :=
  List.perm_insertionSort VnodeLE _

theorem update_sorted (hdistinct : ((phlUpstreamHashUpdate vhash64 addressVnodes l).map
    (·.hash)).Nodup) :
    (phlUpstreamHashUpdate vhash64 addressVnodes l).Pairwise fun a b => a.hash < b.hash := by
  have hle : (phlUpstreamHashUpdate vhash64 addressVnodes l).Pairwise VnodeLE :=
    List.pairwise_insertionSort VnodeLE _
  have hne := List.pairwise_map.mp hdistinct
  refine (hle.and hne).imp ?_
  rintro a b ⟨hab, hne⟩
  exact Nat.lt_of_le_of_ne hab hne

theorem mem_update {v : Vnode} (hv : v ∈ phlUpstreamHashUpdate vhash64 addressVnodes l) :
    v.address ∈ l := by
  obtain ⟨a, ha, hmem⟩ := List.mem_flatMap.mp ((update_perm l).mem_iff.mp hv)
  unfold addressVnodeList at hmem
  obtain ⟨i, -, rfl⟩ := List.mem_map.mp hmem
  exact ha

theorem addressVnodeList_address {a : UpstreamAddress} {v : Vnode}
    (hv : v ∈ addressVnodeList vhash64 addressVnodes a) : v.address = a := by
  unfold addressVnodeList at hv
  obtain ⟨i, -, rfl⟩ := List.mem_map.mp hv
  rfl

/-- The nodes of the added address are new, so they hold none of the old ring. -/
theorem update_added_perm (hadd : l'.Perm (added :: l)) :
    (phlUpstreamHashUpdate vhash64 addressVnodes l').Perm
      (addressVnodeList vhash64 addressVnodes added ++
        phlUpstreamHashUpdate vhash64 addressVnodes l) := by
  have hnew := (@update_perm vhash64 addressVnodes l').trans
    (hadd.flatMap_right (addressVnodeList vhash64 addressVnodes))
  rw [List.flatMap_cons] at hnew
  exact hnew.trans ((List.Perm.refl _).append (update_perm l).symm)

/-- The ring before is the ring after without the added address's nodes. -/
theorem update_eq_filter (hadd : l'.Perm (added :: l))
    (hdistinct : ((phlUpstreamHashUpdate vhash64 addressVnodes l').map (·.hash)).Nodup) :
    phlUpstreamHashUpdate vhash64 addressVnodes l =
      (phlUpstreamHashUpdate vhash64 addressVnodes l').filter
        fun v => decide (v.address ≠ added) := by
  have hperm := @update_added_perm vhash64 addressVnodes _ _ _ hadd
  have hnodup := (hperm.map (·.hash)).nodup_iff.mp hdistinct
  rw [List.map_append, List.nodup_append] at hnodup
  obtain ⟨-, hold, hapart⟩ := hnodup
  have hkept : ∀ v ∈ phlUpstreamHashUpdate vhash64 addressVnodes l, v.address ≠ added := by
    intro v hv haddress
    have hmem := (update_perm l).mem_iff.mp hv
    obtain ⟨a, ha, hva⟩ := List.mem_flatMap.mp hmem
    rw [← addressVnodeList_address hva, haddress] at hva
    exact hapart _ (List.mem_map_of_mem hva) _ (List.mem_map_of_mem hv) rfl
  have hgone : (addressVnodeList vhash64 addressVnodes added).filter
      (fun v => decide (v.address ≠ added)) = [] := by
    rw [List.filter_eq_nil_iff]
    intro v hv
    simp [addressVnodeList_address hv]
  have hstay := List.filter_eq_self.mpr fun v hv => decide_eq_true (hkept v hv)
  have hfilter := hperm.filter fun v => decide (v.address ≠ added)
  rw [List.filter_append, hgone, List.nil_append, hstay] at hfilter
  refine hfilter.symm.eq_of_pairwise (fun a b _ _ hab hba => ?_) (update_sorted hold)
    ((update_sorted hdistinct).filter _)
  omega

end Add

section Side

variable {vnodes : List Vnode} {hash : Nat} {p : Vnode → Bool} {v : Vnode}

theorem filter_neighbour {isBelow : Bool} (h : neighbour vnodes hash isBelow = some v)
    (hp : p v = true) : neighbour (vnodes.filter p) hash isBelow = some v := by
  unfold neighbour below above at *
  simp only [List.filter_comm _ p]
  split at h
  next =>
    obtain ⟨init, hinit⟩ := List.getLast?_eq_some_iff.mp h
    rw [if_pos ‹_›, hinit, List.filter_append, List.filter_cons_of_pos hp, List.filter_nil,
      List.getLast?_concat]
  next =>
    obtain ⟨tail, htail⟩ := List.head?_eq_some_iff.mp h
    rw [if_neg ‹_›, htail, List.filter_cons_of_pos hp, List.head?_cons]

/-- A search in a ring that is not empty stops at some node. -/
theorem neighbour_isSome (hsorted : vnodes.Pairwise fun a b => a.hash < b.hash)
    (hmissing : ∀ v ∈ vnodes, v.hash ≠ hash) (hne : vnodes ≠ []) :
    ∃ v ∈ vnodes, neighbour vnodes hash (side vnodes hash) = some v := by
  have hlen := congrArg List.length (below_append_above hsorted hmissing)
  rw [List.length_append] at hlen
  have hpos := List.length_pos_of_ne_nil hne
  unfold neighbour
  by_cases hside : side vnodes hash = true
  · have hbelow : below vnodes hash ≠ [] :=
      List.ne_nil_of_length_pos (Bisect.stopsBelow_pos hside)
    refine ⟨(below vnodes hash).getLast hbelow, ?_, ?_⟩
    · exact List.mem_of_mem_filter (List.getLast_mem hbelow)
    · rw [if_pos hside, List.getLast?_eq_some_getLast hbelow]
  · have hroom := Bisect.rank_lt_of_stopsAbove hpos (by omega) (Bool.eq_false_iff.mpr hside)
    have habove : above vnodes hash ≠ [] := List.ne_nil_of_length_pos (by omega)
    refine ⟨(above vnodes hash).head habove, ?_, ?_⟩
    · exact List.mem_of_mem_filter (List.head_mem habove)
    · rw [if_neg hside, List.head?_eq_some_head habove]

end Side

/-- One virtual node for each address, at the number its first byte says. -/
def firstByte (b : Bytes) : Nat :=
  match b with
  | [n] => n.toNat
  | _ => 0

end Phorklift
