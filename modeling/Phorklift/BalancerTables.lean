import Phorklift.RandomDraw
import Mathlib.Algebra.Order.BigOperators.Group.List

/-! The tables of the hash and the random balancer, in the sizes of the code's integers, for the
weights that the configuration accepts. -/

namespace Phorklift

/-- What is read of a hostname in `phl_upstream_conf_resolve_init`. -/
structure HostnameConf where
  name : Bytes
  needResolved : Bool
  hostLen : Nat
  port : Nat
  weight : ℚ
  deriving DecidableEq

/-- `strchr(s, c)`, from the byte found on. -/
def strchr (s : Bytes) (c : UInt8) : Option Bytes :=
  if c ∈ s then some (s.dropWhile (· ≠ c)) else none

section ResolveInit

variable (atof : Bytes → ℚ) (loads : Bytes → Bool) (defaultPort : Nat)

/-- `host_len` and the weight, marked by `#`. -/
def hostnameWeight (name : Bytes) : Except String (Nat × ℚ) :=
  match strchr name 35 with
  | some pweight =>
    if atof (pweight.drop 1) = 0 then .error "invalid weight"
    else .ok (name.length - pweight.length, atof (pweight.drop 1))
  | none => .ok (name.length, 1)

/-- `loads` says whether the name is a static address; else the port is parsed. -/
def hostnamePort (name : Bytes) (hostLen : Nat) (weight : ℚ) : Except String HostnameConf :=
  if loads name then .ok ⟨name, false, hostLen, 0, weight⟩
  else
    match strchr name 58 with
    | some pport =>
      let port := ((strtol (pport.drop 1)).value % 2 ^ 16).toNat
      if port = 0 then .error "invalid port"
      else .ok ⟨name, true, name.length - pport.length, port, weight⟩
    | none => .ok ⟨name, true, hostLen, defaultPort, weight⟩

def phlUpstreamHostnameInit (name : Bytes) : Except String HostnameConf :=
  if 4096 < name.length then .error "too long hostname"
  else do
    let (hostLen, weight) ← hostnameWeight atof name
    hostnamePort loads defaultPort name hostLen weight

def phlUpstreamConfResolveInit (hostnamesStr : List Bytes) : Except String (List HostnameConf) :=
  hostnamesStr.mapM (phlUpstreamHostnameInit atof loads defaultPort)

end ResolveInit

/-- The conversion to an `int`; out of its range as on x86-64. -/
def doubleToInt (x : ℚ) : ℤ :=
  let n := if 0 ≤ x then ⌊x⌋ else ⌈x⌉
  if -2 ^ 31 ≤ n ∧ n < 2 ^ 31 then n else -2 ^ 31

namespace Sized

def phlUpstreamHashAddressVnodeNum (addressVnodes : Nat) (a : UpstreamAddress) : ℤ :=
  if a.weight = 0 then addressVnodes else doubleToInt (a.weight * addressVnodes + 1 / 2)

def vnodeNum (addressVnodes : Nat) (addresses : List UpstreamAddress) : ℤ :=
  addresses.foldl (fun num a => toInt (num + phlUpstreamHashAddressVnodeNum addressVnodes a)) 0

def addressVnodeList (vhash64 : Bytes → Nat) (addressVnodes : Nat) (a : UpstreamAddress) :
    List Vnode :=
  (List.range (phlUpstreamHashAddressVnodeNum addressVnodes a).toNat).map fun i =>
    ⟨vhash64 a.sockaddr ^^^ vhash64 (intBytes i), a⟩

/-- `none` where the nodes do not fill the array of `vnode_num`, or do not fit in it. -/
def phlUpstreamHashUpdate (vhash64 : Bytes → Nat) (addressVnodes : Nat)
    (addresses : List UpstreamAddress) : Option (List Vnode) :=
  let vnodes := addresses.flatMap (addressVnodeList vhash64 addressVnodes)
  if (vnodes.length : ℤ) = vnodeNum addressVnodes addresses then
    some (vnodes.insertionSort VnodeLE)
  else none

end Sized

/-- `(low + high) / 2`, where the window is one longer than `high`. -/
def intMid (w : Nat × Nat) : ℤ := (toInt (w.1 + w.2 - 1)).tdiv 2

/-- A search looks at no index out of its table. -/
def InTable (cmp : Nat → Ordering) (n : Nat) : Prop :=
  toInt n = n ∧ ∀ w ∈ Bisect.windows cmp n 0 n, 0 ≤ intMid w ∧ intMid w < n

/-- For every hash function and key the table can be built and a pick finds a node in it, and every
address owns one. -/
def HashSafe (addressVnodes : Nat) (l : List UpstreamAddress) : Prop :=
  ∀ vhash64 : Bytes → Nat, (∀ b, vhash64 b < 2 ^ 64) →
    ∃ vnodes, Sized.phlUpstreamHashUpdate vhash64 addressVnodes l = some vnodes ∧
      (∀ a ∈ l, ∃ v ∈ vnodes, v.address = a) ∧
      ∀ pickable key, InTable (vnodeCmp vnodes (vhash64 key)) vnodes.length ∧
        (phlUpstreamHashPick vhash64 pickable vnodes (some key)).isSome

/-- After any picks every address owns an interval, every search ends in the table, and a pick
fails no assertion. -/
def RandomSafe (l : List UpstreamAddress) : Prop :=
  ∀ ctx, RandomReachable l ctx →
    (∀ a ∈ l, ∃ i < ctx.totalNum, ctx.addresses[i]? = some a ∧ ctx.hash i < ctx.hash (i + 1)) ∧
    (∀ limit draw, 0 < limit → limit ≤ ctx.totalNum → 0 ≤ draw ∧ draw < 1 →
      InTable (ctx.cmp (draw * ctx.hash limit)) limit ∧
        (phlUpstreamRandomRandom ctx limit draw).isSome) ∧
    ∀ st draws, Draws draws → (phlUpstreamRandomPick st ctx draws).isSome

/-- The number of virtual nodes that a weight stands for. -/
def rounded (addressVnodes : Nat) (a : UpstreamAddress) : ℤ := ⌊a.weight * addressVnodes + 1 / 2⌋

section InTable

variable {cmp : Nat → Ordering} {n : Nat}

theorem lt_of_toInt (h : toInt n = n) : n < 2 ^ 31 := by
  unfold toInt at h
  rw [Int.bmod_def] at h
  omega

theorem inTable_of_le (hn : n ≤ 2 ^ 30) : InTable cmp n := by
  refine ⟨toInt_of_lt (by omega), fun w hw => ?_⟩
  obtain ⟨-, hlt, hle⟩ := Bisect.mem_windows hw
  have hmid : toInt (w.1 + w.2 - 1) = (w.1 + w.2 - 1 : Nat) := by
    rw [← toInt_of_lt (show w.1 + w.2 - 1 < 2 ^ 31 by omega)]
    congr 1
    omega
  unfold intMid
  rw [hmid, Int.tdiv_eq_ediv_of_nonneg (by omega)]
  omega

/-- A search that comes down to the last entry of a longer table adds up more than an `int`
holds. -/
theorem le_of_inTable (hless : ∀ i, i + 1 < n → cmp i = .lt) (h : InTable cmp n) : n ≤ 2 ^ 30 := by
  by_contra hlong
  obtain ⟨hint, hall⟩ := h
  have hlt := lt_of_toInt hint
  have hlast := @Bisect.last_mem_windows cmp n 0 n (show n ≤ 0 + n by omega)
    (show 0 < n by omega) fun i _ => hless i
  have hmid := (hall _ hlast).1
  unfold intMid toInt at hmid
  dsimp only at hmid
  rw [Int.bmod_def] at hmid
  have hsum : ((n - 1 : Nat) : ℤ) + n - 1 = 2 * n - 2 := by omega
  rw [hsum, if_neg (by omega)] at hmid
  have hneg : (2 * (n : ℤ) - 2) % ↑(2 ^ 32 : Nat) - ↑(2 ^ 32 : Nat) ≤ -2 := by omega
  rw [← neg_neg ((2 * (n : ℤ) - 2) % ↑(2 ^ 32 : Nat) - ↑(2 ^ 32 : Nat)), Int.neg_tdiv,
    Int.tdiv_eq_ediv_of_nonneg (by omega)] at hmid
  omega

end InTable

section Hash

variable {addressVnodes : Nat} {l : List UpstreamAddress} {a : UpstreamAddress}
  {vhash64 : Bytes → Nat}

/-- The number of nodes of an address is positive where the weight makes up half of one, or more,
and the number is its size then, if it fits. -/
theorem vnodeNum_pos_iff (hweight : a.weight ≠ 0) :
    0 < Sized.phlUpstreamHashAddressVnodeNum addressVnodes a ↔
      1 / 2 ≤ a.weight * addressVnodes ∧ rounded addressVnodes a < 2 ^ 31 := by
  unfold Sized.phlUpstreamHashAddressVnodeNum rounded
  rw [if_neg hweight]
  unfold doubleToInt
  generalize a.weight * (addressVnodes : ℚ) = x
  by_cases hneg : 0 ≤ x + 1 / 2
  · have hfloor : 0 < ⌊x + 1 / 2⌋ ↔ 1 / 2 ≤ x := by
      rw [Int.floor_pos]
      constructor <;> intro h <;> linarith
    have hnonneg := Int.floor_nonneg.mpr hneg
    rw [if_pos hneg, ← hfloor]
    dsimp only
    split
    next hrange => omega
    next hrange => omega
  · have hceil : ⌈x + 1 / 2⌉ ≤ 0 := Int.ceil_le.mpr (by push_cast; linarith)
    rw [if_neg hneg]
    dsimp only
    constructor
    · intro h
      split at h
      next => omega
      next => omega
    · rintro ⟨hhalf, -⟩
      linarith

theorem vnodeNum_eq_floor (hpos : 0 < Sized.phlUpstreamHashAddressVnodeNum addressVnodes a)
    (hweight : a.weight ≠ 0) :
    Sized.phlUpstreamHashAddressVnodeNum addressVnodes a = rounded addressVnodes a := by
  obtain ⟨hhalf, hlt⟩ := (vnodeNum_pos_iff hweight).mp hpos
  have hnonneg : (0 : ℚ) ≤ a.weight * addressVnodes + 1 / 2 := by linarith
  have hfloor := Int.floor_nonneg.mpr hnonneg
  unfold rounded at hlt
  unfold Sized.phlUpstreamHashAddressVnodeNum doubleToInt rounded
  rw [if_neg hweight, if_pos hnonneg]
  exact if_pos ⟨by omega, hlt⟩

theorem vnodeNum_eq_toInt :
    Sized.vnodeNum addressVnodes l =
      toInt (l.map (Sized.phlUpstreamHashAddressVnodeNum addressVnodes)).sum := by
  suffices hfold : ∀ num : ℤ, l.foldl (fun num a =>
      toInt (num + Sized.phlUpstreamHashAddressVnodeNum addressVnodes a)) (toInt num) =
        toInt (num + (l.map (Sized.phlUpstreamHashAddressVnodeNum addressVnodes)).sum) by
    have hzero := hfold 0
    rw [Int.zero_add] at hzero
    exact hzero
  induction l with
  | nil =>
    intro num
    rw [List.map_nil, List.sum_nil, Int.add_zero]
    rfl
  | cons a l ih =>
    intro num
    have hadd : toInt (toInt num + Sized.phlUpstreamHashAddressVnodeNum addressVnodes a) =
        toInt (num + Sized.phlUpstreamHashAddressVnodeNum addressVnodes a) :=
      Int.bmod_add_bmod
    rw [List.foldl_cons, hadd, ih, List.map_cons, List.sum_cons, Int.add_assoc]

/-- As many nodes are written as the numbers of the addresses make together, if none is
negative. -/
theorem vnodes_length
    (hpos : ∀ a ∈ l, 0 < Sized.phlUpstreamHashAddressVnodeNum addressVnodes a) :
    ((l.flatMap (Sized.addressVnodeList vhash64 addressVnodes)).length : ℤ) =
      (l.map (Sized.phlUpstreamHashAddressVnodeNum addressVnodes)).sum := by
  induction l with
  | nil => rfl
  | cons a l ih =>
    have ha := hpos a List.mem_cons_self
    have hrest := ih fun b hb => hpos b (List.mem_cons_of_mem a hb)
    rw [List.flatMap_cons, List.length_append, List.map_cons, List.sum_cons]
    unfold Sized.addressVnodeList at hrest ⊢
    rw [List.length_map, List.length_range]
    omega

theorem sized_update_spec {vnodes : List Vnode}
    (h : Sized.phlUpstreamHashUpdate vhash64 addressVnodes l = some vnodes) :
    vnodes.Perm (l.flatMap (Sized.addressVnodeList vhash64 addressVnodes)) ∧
      (vnodes.length : ℤ) = Sized.vnodeNum addressVnodes l := by
  unfold Sized.phlUpstreamHashUpdate at h
  dsimp only at h
  split at h
  next hfill =>
    have hperm := List.perm_insertionSort VnodeLE
      (l.flatMap (Sized.addressVnodeList vhash64 addressVnodes))
    rw [Option.some.inj h] at hperm
    exact ⟨hperm, by rw [hperm.length_eq, hfill]⟩
  next => cases h

theorem owned_iff {vnodes : List Vnode}
    (h : Sized.phlUpstreamHashUpdate vhash64 addressVnodes l = some vnodes) (ha : a ∈ l) :
    (∃ v ∈ vnodes, v.address = a) ↔
      0 < Sized.phlUpstreamHashAddressVnodeNum addressVnodes a := by
  have hmem : ∀ v, v ∈ vnodes ↔ _ := fun v => (sized_update_spec h).1.mem_iff
  constructor
  · rintro ⟨v, hv, rfl⟩
    obtain ⟨b, -, hvb⟩ := List.mem_flatMap.mp ((hmem v).mp hv)
    obtain ⟨i, hi, hnode⟩ := List.mem_map.mp hvb
    have hlt := List.mem_range.mp hi
    rw [← hnode]
    dsimp only
    omega
  · intro hpos
    refine ⟨⟨vhash64 a.sockaddr ^^^ vhash64 (intBytes 0), a⟩, (hmem _).mpr ?_, rfl⟩
    exact List.mem_flatMap.mpr ⟨a, ha, List.mem_map.mpr ⟨0, List.mem_range.mpr (by omega), rfl⟩⟩

theorem hash_pick_isSome {vnodes : List Vnode} (pickable : UpstreamAddress → Bool) (key : Bytes)
    (hne : 0 < vnodes.length) : (phlUpstreamHashPick vhash64 pickable vnodes (some key)).isSome := by
  obtain ⟨i, hi⟩ := Option.isSome_iff_exists.mp
    (@Bisect.stop_isSome (vnodeCmp vnodes (vhash64 key)) vnodes.length hne)
  have hlt := Bisect.stop_lt hi
  unfold phlUpstreamHashPick
  simp only [Option.bind_eq_bind, Option.bind_some, hi]
  split
  next => rfl
  next =>
    split
    next => rfl
    next => rw [List.getElem?_eq_getElem hlt, Option.map_some, Option.isSome_some]

/-- A hash that tells long keys from short ones only. -/
def longer (m : Nat) (b : Bytes) : Nat := if m < b.length then 1 else 0

/-- Each address has a node at 0, and the search for a long key goes to the last. -/
theorem long_key_less {vnodes : List Vnode} {m : Nat}
    (h : Sized.phlUpstreamHashUpdate (longer m) addressVnodes l = some vnodes)
    (hm : 4 ≤ m ∧ ∀ a ∈ l, a.sockaddr.length ≤ m) {key : Bytes} (hkey : m < key.length) {i : Nat}
    (hi : i < vnodes.length) : vnodeCmp vnodes (longer m key) i = .lt := by
  obtain ⟨b, hb, hvb⟩ := List.mem_flatMap.mp
    ((sized_update_spec h).1.mem_iff.mp (List.getElem_mem hi))
  obtain ⟨k, -, hnode⟩ := List.mem_map.mp hvb
  have hbytes : (intBytes k).length = 4 := by
    unfold intBytes
    rw [List.length_map, List.length_range]
  have hsockaddr := hm.2 b hb
  unfold vnodeCmp
  rw [List.getElem?_eq_getElem hi, ← hnode]
  unfold longer
  rw [if_neg (by omega), if_neg (by omega), if_pos hkey]
  rfl

theorem hashSafe_iff (hweight : ∀ a ∈ l, a.weight ≠ 0) (hne : l ≠ []) :
    HashSafe addressVnodes l ↔ (∀ a ∈ l, 1 / 2 ≤ a.weight * addressVnodes) ∧
      (l.map (rounded addressVnodes)).sum ≤ 2 ^ 30 := by
  have hsum (hpos : ∀ a ∈ l, 0 < Sized.phlUpstreamHashAddressVnodeNum addressVnodes a) :
      l.map (Sized.phlUpstreamHashAddressVnodeNum addressVnodes) =
        l.map (rounded addressVnodes) :=
    List.map_congr_left fun a ha => vnodeNum_eq_floor (hpos a ha) (hweight a ha)
  constructor
  · intro hsafe
    have hlong : ∀ a ∈ l, a.sockaddr.length ≤ (l.map (·.sockaddr.length)).sum + 4 := by
      intro a ha
      have hle := List.single_le_sum (fun _ _ => Nat.zero_le _) _
        (List.mem_map_of_mem (f := fun a : UpstreamAddress => a.sockaddr.length) ha)
      omega
    generalize hm : (l.map (·.sockaddr.length)).sum + 4 = m at hlong
    obtain ⟨vnodes, htable, howned, hpick⟩ := hsafe (longer m) (by
      intro b
      unfold longer
      split <;> omega)
    have hpos : ∀ a ∈ l, 0 < Sized.phlUpstreamHashAddressVnodeNum addressVnodes a :=
      fun a ha => (owned_iff htable ha).mp (howned a ha)
    have hlength := @vnodes_length addressVnodes l (longer m) hpos
    rw [hsum hpos, ← (sized_update_spec htable).1.length_eq] at hlength
    have hkey : m < (List.replicate (m + 1) (0 : UInt8)).length := by
      rw [List.length_replicate]
      exact Nat.lt_succ_self m
    have hle := le_of_inTable (fun i hi => long_key_less htable ⟨by omega, hlong⟩ hkey (by omega))
      (hpick (fun _ => true) (List.replicate (m + 1) 0)).1
    refine ⟨fun a ha => ((vnodeNum_pos_iff (hweight a ha)).mp (hpos a ha)).1, ?_⟩
    rw [← hlength]
    exact_mod_cast hle
  · rintro ⟨hhalf, htotal⟩ vhash64 -
    have hround : ∀ a ∈ l, 0 < rounded addressVnodes a := by
      intro a ha
      have h := hhalf a ha
      exact Int.floor_pos.mpr (by linarith)
    have hpos : ∀ a ∈ l, 0 < Sized.phlUpstreamHashAddressVnodeNum addressVnodes a := by
      intro a ha
      refine (vnodeNum_pos_iff (hweight a ha)).mpr ⟨hhalf a ha, ?_⟩
      have hle := List.single_le_sum (l := l.map (rounded addressVnodes)) (by
        intro n hn
        obtain ⟨b, hb, rfl⟩ := List.mem_map.mp hn
        exact (hround b hb).le) _ (List.mem_map_of_mem ha)
      omega
    have hlength := @vnodes_length addressVnodes l vhash64 hpos
    have hnum := @vnodeNum_eq_toInt addressVnodes l
    rw [hsum hpos] at hlength hnum
    rw [← hlength] at htotal hnum
    rw [toInt_of_lt (by omega)] at hnum
    have htable : Sized.phlUpstreamHashUpdate vhash64 addressVnodes l =
        some ((l.flatMap (Sized.addressVnodeList vhash64 addressVnodes)).insertionSort VnodeLE) :=
      if_pos hnum.symm
    have howned := fun a (ha : a ∈ l) => (owned_iff htable ha).mpr (hpos a ha)
    have hlen := (sized_update_spec htable).1.length_eq
    refine ⟨_, htable, howned, fun pickable key => ⟨inTable_of_le ?_, hash_pick_isSome _ _ ?_⟩⟩
    · rw [hlen]
      exact_mod_cast htotal
    · obtain ⟨a, ha⟩ := List.exists_mem_of_ne_nil l hne
      obtain ⟨v, hv, -⟩ := howned a ha
      exact List.length_pos_of_mem hv

/-- Where the balancer is safe its table is that of exact numbers. -/
theorem sized_update_eq (hweight : ∀ a ∈ l, a.weight ≠ 0)
    (hpos : ∀ a ∈ l, 0 < Sized.phlUpstreamHashAddressVnodeNum addressVnodes a)
    {vnodes : List Vnode}
    (h : Sized.phlUpstreamHashUpdate vhash64 addressVnodes l = some vnodes) :
    vnodes = phlUpstreamHashUpdate vhash64 addressVnodes l := by
  have hlist : l.flatMap (Sized.addressVnodeList vhash64 addressVnodes) =
      l.flatMap (addressVnodeList vhash64 addressVnodes) := by
    refine List.flatMap_congr fun a ha => ?_
    have hnum := vnodeNum_eq_floor (hpos a ha) (hweight a ha)
    unfold Sized.addressVnodeList addressVnodeList
    rw [hnum]
    unfold phlUpstreamHashAddressVnodeNum
    rw [if_neg (hweight a ha)]
    rfl
  unfold Sized.phlUpstreamHashUpdate at h
  dsimp only at h
  split at h
  next =>
    rw [← Option.some.inj h, hlist]
    rfl
  next => cases h

end Hash

section Random

variable {l : List UpstreamAddress} {ctx : RandomCtx} {n : Nat}

/-- The search for a draw of the last entry comes down to it. -/
theorem last_draw (hv : ctx.Valid l) (hpos : ∀ a ∈ l, 0 < a.weight)
    (hn : n + 1 ≤ ctx.addresses.length) :
    ∃ draw : ℚ, (0 ≤ draw ∧ draw < 1) ∧
      ∀ i, i + 1 < n + 1 → ctx.cmp (draw * ctx.hash (n + 1)) i = .lt := by
  have hless := hash_lt hv hpos (Nat.lt_succ_self n) hn
  have hnonneg := hash_nonneg hv hpos (show n ≤ ctx.addresses.length by omega)
  have htotal : 0 < ctx.hash (n + 1) := hnonneg.trans_lt hless
  refine ⟨ctx.hash n / ctx.hash (n + 1), ⟨by positivity, (div_lt_one htotal).mpr hless⟩, ?_⟩
  intro i hi
  have hle : ctx.hash (i + 1) ≤ ctx.hash n := by
    by_cases h : i + 1 = n
    · rw [h]
    · exact (hash_lt hv hpos (show i + 1 < n by omega) (by omega)).le
  rw [div_mul_cancel₀ _ htotal.ne']
  unfold RandomCtx.cmp
  exact if_pos hle

theorem randomSafe_iff (hne : l ≠ []) :
    RandomSafe l ↔ (∀ a ∈ l, 0 < a.weight) ∧ l.length ≤ 2 ^ 30 := by
  constructor
  · intro hsafe
    obtain ⟨howned, hsearch, -⟩ := hsafe _ .update
    have hv := update_valid l
    have hpos : ∀ a ∈ l, 0 < a.weight := by
      intro a ha
      obtain ⟨i, hi, hget, hlt⟩ := howned a ha
      rw [hv.step hget] at hlt
      exact pos_of_lt_add_right hlt
    refine ⟨hpos, ?_⟩
    obtain ⟨n, hn⟩ := Nat.exists_eq_succ_of_ne_zero (List.length_pos_of_ne_nil hne).ne'
    obtain ⟨draw, hdraw, hless⟩ := last_draw (n := n) hv hpos hn.ge
    rw [hn]
    exact le_of_inTable hless (hsearch (n + 1) draw (Nat.succ_pos n) hn.ge hdraw).1
  · rintro ⟨hpos, hlength⟩ ctx hreach
    have hv := reachable_valid hpos hreach
    have htotal := hv.total
    have hperm := hv.perm.length_eq
    refine ⟨fun a ha => ?_, fun limit draw hlimit hle hdraw => ⟨inTable_of_le (by omega), ?_⟩,
      fun st draws hdraws => ?_⟩
    · obtain ⟨i, hi, hget⟩ := List.getElem_of_mem (hv.perm.mem_iff.mpr ha)
      refine ⟨i, by omega, ?_, hash_lt hv hpos (Nat.lt_succ_self i) hi⟩
      rw [List.getElem?_eq_getElem hi, hget]
    · obtain ⟨m, -, hm⟩ := random_some hv hpos (by omega) hlimit hdraw
      rw [hm]
      rfl
    · obtain ⟨a, ctx', hpick, -⟩ := pick_isSome st hv hpos hne hdraws
      rw [hpick]
      rfl

end Random

section Accepted

variable {atof : Bytes → ℚ} {loads : Bytes → Bool} {defaultPort : Nat}

theorem hostnameWeight_ne {name : Bytes} {hostLen : Nat} {weight : ℚ}
    (h : hostnameWeight atof name = .ok (hostLen, weight)) : weight ≠ 0 := by
  unfold hostnameWeight at h
  split at h
  next =>
    split at h
    next => cases h
    next hne =>
      cases h
      exact hne
  next =>
    cases h
    exact one_ne_zero

theorem hostnamePort_weight {name : Bytes} {hostLen : Nat} {weight : ℚ} {hostname : HostnameConf}
    (h : hostnamePort loads defaultPort name hostLen weight = .ok hostname) :
    hostname.weight = weight := by
  unfold hostnamePort at h
  split at h
  next =>
    cases h
    rfl
  next =>
    split at h
    next =>
      dsimp only at h
      split at h
      next => cases h
      next =>
        cases h
        rfl
    next =>
      cases h
      rfl

theorem hostname_weight_ne {name : Bytes} {hostname : HostnameConf}
    (h : phlUpstreamHostnameInit atof loads defaultPort name = .ok hostname) :
    hostname.weight ≠ 0 := by
  unfold phlUpstreamHostnameInit at h
  split at h
  next => cases h
  next =>
    cases hweight : hostnameWeight atof name with
    | error e =>
      rw [hweight] at h
      cases h
    | ok found =>
      obtain ⟨hostLen, weight⟩ := found
      rw [hweight] at h
      rw [hostnamePort_weight h]
      exact hostnameWeight_ne hweight

/-- No accepted weight is 0. -/
theorem accepted_weight_ne {names : List Bytes} {hostnames : List HostnameConf}
    (h : phlUpstreamConfResolveInit atof loads defaultPort names = .ok hostnames) :
    ∀ hostname ∈ hostnames, hostname.weight ≠ 0 := by
  unfold phlUpstreamConfResolveInit at h
  induction names generalizing hostnames with
  | nil =>
    cases h
    intro hostname hmem
    cases hmem
  | cons name names ih =>
    rw [List.mapM_cons] at h
    cases hfirst : phlUpstreamHostnameInit atof loads defaultPort name with
    | error e =>
      rw [hfirst] at h
      cases h
    | ok first =>
      rw [hfirst] at h
      cases hrest : names.mapM (phlUpstreamHostnameInit atof loads defaultPort) with
      | error e =>
        rw [hrest] at h
        cases h
      | ok rest =>
        rw [hrest] at h
        cases h
        intro hostname hmem
        rcases List.mem_cons.mp hmem with rfl | hmem
        · exact hostname_weight_ne hfirst
        · exact ih hrest hostname hmem

/-- With the weights of an accepted configuration the hash balancer is safe where each weight makes
up half a virtual node and they make 2^30 together at most, and the random one where each is
positive. -/
theorem balancers_safe_iff {names : List Bytes} {hostnames : List HostnameConf}
    {addressVnodes : Nat} {l : List UpstreamAddress}
    (haccept : phlUpstreamConfResolveInit atof loads defaultPort names = .ok hostnames)
    (hl : ∀ a ∈ l, ∃ hostname ∈ hostnames, a.weight = hostname.weight) (hne : l ≠ []) :
    (HashSafe addressVnodes l ↔ (∀ a ∈ l, 1 / 2 ≤ a.weight * addressVnodes) ∧
      (l.map (rounded addressVnodes)).sum ≤ 2 ^ 30) ∧
    (RandomSafe l ↔ (∀ a ∈ l, 0 < a.weight) ∧ l.length ≤ 2 ^ 30) := by
  have hweight : ∀ a ∈ l, a.weight ≠ 0 := by
    intro a ha
    obtain ⟨hostname, hmem, heq⟩ := hl a ha
    rw [heq]
    exact accepted_weight_ne haccept hostname hmem
  exact ⟨hashSafe_iff hweight hne, randomSafe_iff hne⟩

end Accepted

/-- `atof` at the weights below. -/
def someAtof (b : Bytes) : ℚ :=
  if b = bytes "0.004" then 1 / 250
  else if b = bytes "-0.5" then -1 / 2
  else if b = bytes "-1" then -1
  else if b = bytes "3" then 3 else 0

theorem balancers_safe_weights :
    HashSafe 100 [⟨0, [1], 3⟩, ⟨1, [2], 1⟩] ∧ RandomSafe [⟨0, [1], 3⟩, ⟨1, [2], 1⟩] := by
  have hall := @balancers_safe_iff someAtof (fun _ => true) 80
    [bytes "10.0.0.1#3", bytes "10.0.0.2"] _ 100 [⟨0, [1], 3⟩, ⟨1, [2], 1⟩] rfl
    (by decide +kernel) (by decide)
  exact ⟨hall.1.mpr (by decide +kernel), hall.2.mpr (by decide +kernel)⟩

/-- A weight that makes up less than half a node leaves the hash table without any, and a pick reads
NULL; with a negative one after another more nodes are written than the table has room for; a
negative one alone fails the assertion of the random balancer. -/
theorem balancers_unsafe :
    (phlUpstreamConfResolveInit someAtof (fun _ => true) 80 [bytes "10.0.0.1#0.004"] =
        .ok [⟨bytes "10.0.0.1#0.004", false, 8, 0, 1 / 250⟩] ∧
      Sized.phlUpstreamHashUpdate firstByte 100 [⟨0, [1], 1 / 250⟩] = some [] ∧
      phlUpstreamHashPick firstByte (fun _ => true) [] (some [5]) = none ∧
      ¬ HashSafe 100 [⟨0, [1], 1 / 250⟩]) ∧
    (phlUpstreamConfResolveInit someAtof (fun _ => true) 80
        [bytes "10.0.0.1", bytes "10.0.0.2#-0.5"] =
        .ok [⟨bytes "10.0.0.1", false, 8, 0, 1⟩, ⟨bytes "10.0.0.2#-0.5", false, 8, 0, -1 / 2⟩] ∧
      Sized.vnodeNum 100 [⟨0, [1], 1⟩, ⟨1, [2], -1 / 2⟩] = 51 ∧
      Sized.phlUpstreamHashUpdate firstByte 100 [⟨0, [1], 1⟩, ⟨1, [2], -1 / 2⟩] = none ∧
      ¬ HashSafe 100 [⟨0, [1], 1⟩, ⟨1, [2], -1 / 2⟩]) ∧
    (phlUpstreamConfResolveInit someAtof (fun _ => true) 80 [bytes "10.0.0.1#-1"] =
        .ok [⟨bytes "10.0.0.1#-1", false, 8, 0, -1⟩] ∧
      phlUpstreamRandomPick (onlyDown 1) (phlUpstreamRandomUpdate [⟨0, [1], -1⟩])
        (fun _ => 1 / 2) = none ∧
      ¬ RandomSafe [⟨0, [1], -1⟩]) := by
  refine ⟨⟨by decide +kernel, by decide +kernel, by decide, ?_⟩,
    ⟨by decide +kernel, by decide +kernel, by decide +kernel, ?_⟩,
    ⟨by decide +kernel, by decide +kernel, ?_⟩⟩
  · rw [hashSafe_iff (by decide +kernel) (by decide)]
    decide +kernel
  · rw [hashSafe_iff (by decide +kernel) (by decide)]
    decide +kernel
  · rw [randomSafe_iff (by decide)]
    decide +kernel

end Phorklift
