import Phorklift.HashRing

/-! The random balancer, and the pickable addresses that a pick can miss. -/

namespace Phorklift

/-- What `phl_upstream_address_is_pickable` reads; `filter` is what the function returns if set. -/
structure AddressStatus where
  failureDownTime : Nat
  healthcheckDownTime : Nat
  active : Bool
  filter : Option Int
  deriving DecidableEq

/-- The clock and `failure.timeout`, and the status of each address, as one pick finds them. -/
structure Statuses where
  now : Nat
  timeout : Nat
  status : UpstreamAddress → AddressStatus

def Statuses.isUp (st : Statuses) (a : UpstreamAddress) : Bool :=
  (st.status a).failureDownTime == 0 && (st.status a).healthcheckDownTime == 0

def phlUpstreamAddressIsPickable (st : Statuses) (a : UpstreamAddress) : Bool :=
  if (st.status a).healthcheckDownTime ≠ 0 then false
  else if (st.status a).failureDownTime = 0 then true
  else if st.now < (st.status a).failureDownTime + st.timeout then false
  else if (st.status a).active then false
  else match (st.status a).filter with
    | some result => result != 0
    | none => true

/-- The array has one hash more than addresses, the sentinel's. -/
structure RandomCtx where
  totalNum : Nat
  availableNum : Nat
  addresses : List UpstreamAddress
  hashes : List ℚ
  deriving DecidableEq

def RandomCtx.hash (ctx : RandomCtx) (i : Nat) : ℚ := ctx.hashes.getD i 0

def cumulative (hash : ℚ) : List UpstreamAddress → List ℚ
  | [] => [hash]
  | a :: addresses => hash :: cumulative (hash + a.weight) addresses

def phlUpstreamRandomUpdate (addresses : List UpstreamAddress) : RandomCtx where
  totalNum := addresses.length
  availableNum := addresses.length
  addresses := addresses
  hashes := cumulative 0 addresses

/-- `none` where the assertion fails. -/
def phlUpstreamRandomExchange (ctx : RandomCtx) (index1 index2 : Nat) : Option RandomCtx :=
  if index1 = index2 then some ctx
  else if index1 < index2 then
    match ctx.addresses[index1]?, ctx.addresses[index2]? with
    | some addr1, some addr2 =>
      let diff := addr2.weight - addr1.weight
      some { ctx with
        addresses := (ctx.addresses.set index1 addr2).set index2 addr1
        hashes := ctx.hashes.mapIdx fun i hash =>
          if index1 < i ∧ i ≤ index2 then hash + diff else hash }
    | _, _ => none
  else none

def phlUpstreamRandomExpire (ctx : RandomCtx) (down : Nat) : Option RandomCtx :=
  phlUpstreamRandomExchange { ctx with availableNum := ctx.availableNum - 1 } down
    (ctx.availableNum - 1)

def phlUpstreamRandomRecover (ctx : RandomCtx) (recov : Nat) : Option RandomCtx :=
  phlUpstreamRandomExchange { ctx with availableNum := ctx.availableNum + 1 } ctx.availableNum
    recov

def RandomCtx.cmp (ctx : RandomCtx) (hash : ℚ) (mid : Nat) : Ordering :=
  if ctx.hash (mid + 1) ≤ hash then .lt
  else if hash < ctx.hash mid then .gt
  else .eq

/-- `none` where the assertion fails. -/
def phlUpstreamRandomRandom (ctx : RandomCtx) (limit : Nat) (draw : ℚ) : Option Nat := do
  let hash := draw * ctx.hash limit
  let mid ← Bisect.stop (ctx.cmp hash) limit
  if ctx.cmp hash mid = .eq then some mid else none

/-- The code from the label `retry` on. -/
def phlUpstreamRandomRetry (st : Statuses) :
    Nat → RandomCtx → UpstreamAddress → (Nat → ℚ) → Option (UpstreamAddress × RandomCtx)
  | 0, _, _, _ => none
  | fuel + 1, ctx, address, draws =>
    if ctx.availableNum = 0 then some (address, ctx)
    else do
      let picked ← phlUpstreamRandomRandom ctx ctx.availableNum (draws 0)
      let address ← ctx.addresses[picked]?
      if phlUpstreamAddressIsPickable st address then some (address, ctx)
      else
        let ctx ← phlUpstreamRandomExpire ctx picked
        phlUpstreamRandomRetry st fuel ctx address fun i => draws (i + 1)

/-- `draws` are the results of `wuy_rand_double`. -/
def phlUpstreamRandomPick (st : Statuses) (ctx : RandomCtx) (draws : Nat → ℚ) :
    Option (UpstreamAddress × RandomCtx) := do
  let picked ← phlUpstreamRandomRandom ctx ctx.totalNum (draws 0)
  let address ← ctx.addresses[picked]?
  let later := fun i => draws (i + 1)
  if ctx.availableNum ≤ picked then
    if st.isUp address then
      let ctx ← phlUpstreamRandomRecover ctx picked
      some (address, ctx)
    else if phlUpstreamAddressIsPickable st address then some (address, ctx)
    else phlUpstreamRandomRetry st (ctx.availableNum + 1) ctx address later
  else if phlUpstreamAddressIsPickable st address then some (address, ctx)
  else
    let ctx ← phlUpstreamRandomExpire ctx picked
    phlUpstreamRandomRetry st (ctx.availableNum + 1) ctx address later

def Draws (draws : Nat → ℚ) : Prop := ∀ i, 0 ≤ draws i ∧ draws i < 1

/-- The states of the balancer of an upstream with these addresses. -/
inductive RandomReachable (l : List UpstreamAddress) : RandomCtx → Prop
  | update : RandomReachable l (phlUpstreamRandomUpdate l)
  | pick {ctx ctx' : RandomCtx} {st : Statuses} {draws : Nat → ℚ} {a : UpstreamAddress} :
    RandomReachable l ctx → Draws draws → phlUpstreamRandomPick st ctx draws = some (a, ctx') →
    RandomReachable l ctx'

/-- The hashes are the sums of the weights before each address. -/
structure RandomCtx.Valid (l : List UpstreamAddress) (ctx : RandomCtx) : Prop where
  perm : ctx.addresses.Perm l
  total : ctx.totalNum = ctx.addresses.length
  available : ctx.availableNum ≤ ctx.addresses.length
  length : ctx.hashes.length = ctx.addresses.length + 1
  zero : ctx.hash 0 = 0
  step : ∀ {i a}, ctx.addresses[i]? = some a → ctx.hash (i + 1) = ctx.hash i + a.weight

section Update

theorem cumulative_length (hash : ℚ) (l : List UpstreamAddress) :
    (cumulative hash l).length = l.length + 1 := by
  induction l generalizing hash with
  | nil => rfl
  | cons a l ih => simp [cumulative, ih]

theorem cumulative_zero (hash : ℚ) (l : List UpstreamAddress) :
    (cumulative hash l).getD 0 0 = hash := by
  cases l <;> rfl

theorem cumulative_step {hash : ℚ} {l : List UpstreamAddress} {i : Nat} {a : UpstreamAddress}
    (ha : l[i]? = some a) :
    (cumulative hash l).getD (i + 1) 0 = (cumulative hash l).getD i 0 + a.weight := by
  induction l generalizing hash i with
  | nil => simp at ha
  | cons b l ih =>
    cases i with
    | zero =>
      have hb : b = a := by simpa using ha
      subst hb
      have hzero := cumulative_zero (hash + b.weight) l
      simpa [cumulative] using hzero
    | succ i =>
      have ha' : l[i]? = some a := by simpa using ha
      simpa [cumulative] using @ih (hash + b.weight) i ha'

theorem update_valid (l : List UpstreamAddress) : (phlUpstreamRandomUpdate l).Valid l where
  perm := .refl l
  total := rfl
  available := Nat.le_refl _
  length := cumulative_length 0 l
  zero := cumulative_zero 0 l
  step := cumulative_step

end Update

section Exchange

variable {l : List UpstreamAddress} {ctx ctx' : RandomCtx} {i j : Nat}

theorem exchange_hash (diff : ℚ) {hashes : List ℚ} {k : Nat} (hk : k < hashes.length) :
    (hashes.mapIdx fun n hash => if i < n ∧ n ≤ j then hash + diff else hash).getD k 0 =
      if i < k ∧ k ≤ j then hashes.getD k 0 + diff else hashes.getD k 0 := by
  simp [List.getD_eq_getElem?_getD, List.getElem?_mapIdx, List.getElem?_eq_getElem hk]

/-- The two addresses change places, and the hashes follow. -/
theorem exchange_spec (hv : ctx.Valid l) (hij : i ≤ j) (hj : j < ctx.addresses.length) :
    ∃ ctx', phlUpstreamRandomExchange ctx i j = some ctx' ∧ ctx'.Valid l ∧
      ctx'.availableNum = ctx.availableNum ∧
      ∀ k : Nat, ctx'.addresses[k]? = if k = i then ctx.addresses[j]?
        else if k = j then ctx.addresses[i]? else ctx.addresses[k]? := by
  by_cases heq : i = j
  · subst heq
    refine ⟨ctx, if_pos rfl, hv, rfl, fun k => ?_⟩
    split
    next h => rw [h]
    next => rfl
  · have hlt : i < j := by omega
    have hi : i < ctx.addresses.length := by omega
    have hget : ∀ k : Nat, ((ctx.addresses.set i ctx.addresses[j]).set j ctx.addresses[i])[k]? =
        if k = i then ctx.addresses[j]? else if k = j then ctx.addresses[i]?
          else ctx.addresses[k]? := by
      intro k
      by_cases hkj : k = j
      · subst hkj
        rw [List.getElem?_set_self (by simpa using hj), if_neg (Ne.symm heq), if_pos rfl,
          List.getElem?_eq_getElem hi]
      · rw [List.getElem?_set_ne (Ne.symm hkj), if_neg hkj]
        by_cases hki : k = i
        · subst hki
          rw [List.getElem?_set_self hi, if_pos rfl, List.getElem?_eq_getElem hj]
        · rw [List.getElem?_set_ne (Ne.symm hki), if_neg hki]
    have hstepi := hv.step (List.getElem?_eq_getElem hi)
    have hstepj := hv.step (List.getElem?_eq_getElem hj)
    have hlength := hv.length
    unfold phlUpstreamRandomExchange
    rw [if_neg heq, if_pos hlt, List.getElem?_eq_getElem hi, List.getElem?_eq_getElem hj]
    refine ⟨_, rfl, ?_, rfl, ?_⟩
    · refine ⟨(List.set_set_perm hi hj).trans hv.perm, ?_, ?_, ?_, ?_, ?_⟩
      · simpa using hv.total
      · simpa using hv.available
      · simpa using hv.length
      · have hzero := hv.zero
        unfold RandomCtx.hash at *
        rw [exchange_hash _ (by omega), if_neg (by omega), hzero]
      · intro k a ha
        have hk : k < ctx.addresses.length := by
          have hsome := (List.getElem?_eq_some_iff.mp ha).1
          simpa using hsome
        dsimp only at ha
        rw [hget] at ha
        unfold RandomCtx.hash at *
        rw [exchange_hash _ (by omega), exchange_hash _ (by omega)]
        split at ha
        next h =>
          subst h
          rw [List.getElem?_eq_getElem hj, Option.some.injEq] at ha
          rw [if_pos (by omega), if_neg (by omega), hstepi, ha]
          ring
        next hki =>
          split at ha
          next h =>
            subst h
            rw [List.getElem?_eq_getElem hi, Option.some.injEq] at ha
            rw [if_neg (by omega), if_pos (by omega), hstepj, ha]
            ring
          next hkj =>
            have hstep := hv.step ha
            unfold RandomCtx.hash at hstep
            rw [hstep]
            by_cases hmid : i < k ∧ k < j
            · rw [if_pos (by omega), if_pos (by omega)]
              ring
            · rw [if_neg (by omega), if_neg (by omega)]
    · intro k
      dsimp only
      rw [hget, List.getElem?_eq_getElem hi, List.getElem?_eq_getElem hj]

/-- The available part loses the address that is expired, and no other. -/
theorem expire_spec (hv : ctx.Valid l) (hi : i < ctx.availableNum) :
    ∃ ctx', phlUpstreamRandomExpire ctx i = some ctx' ∧ ctx'.Valid l ∧
      ctx'.availableNum + 1 = ctx.availableNum ∧
      (∀ a ∈ ctx'.addresses.take ctx'.availableNum, a ∈ ctx.addresses.take ctx.availableNum) ∧
      ∀ a ∈ ctx.addresses.take ctx.availableNum, ctx.addresses[i]? = some a ∨
        a ∈ ctx'.addresses.take ctx'.availableNum := by
  have havail := hv.available
  have hv' : RandomCtx.Valid l { ctx with availableNum := ctx.availableNum - 1 } :=
    { hv with available := by dsimp only; omega }
  obtain ⟨ctx', hctx, hvalid, hnum, hget⟩ := exchange_spec (j := ctx.availableNum - 1) hv'
    (show i ≤ ctx.availableNum - 1 by omega) (by dsimp only; omega)
  dsimp only at hnum hget
  refine ⟨ctx', hctx, hvalid, by omega, fun a ha => ?_, fun a ha => ?_⟩
  · obtain ⟨k, hk⟩ := List.mem_iff_getElem?.mp ha
    rw [List.getElem?_take, hget] at hk
    rw [List.mem_iff_getElem?]
    split at hk
    next hlt =>
      split at hk
      next => exact ⟨ctx.availableNum - 1, by rw [List.getElem?_take, if_pos (by omega), hk]⟩
      next =>
        rw [if_neg (by omega)] at hk
        exact ⟨k, by rw [List.getElem?_take, if_pos (by omega), hk]⟩
    next => cases hk
  · obtain ⟨k, hk⟩ := List.mem_iff_getElem?.mp ha
    rw [List.getElem?_take] at hk
    split at hk
    next hlt =>
      by_cases hki : k = i
      · exact .inl (by rw [← hki, hk])
      · refine .inr (List.mem_iff_getElem?.mpr ?_)
        by_cases hlast : k = ctx.availableNum - 1
        · refine ⟨i, ?_⟩
          rw [List.getElem?_take, if_pos (by omega), hget, if_pos rfl, ← hlast, hk]
        · refine ⟨k, ?_⟩
          rw [List.getElem?_take, if_pos (by omega), hget, if_neg hki, if_neg hlast, hk]
    next => cases hk

theorem recover_spec (hv : ctx.Valid l) (hi : ctx.availableNum ≤ i)
    (hlen : i < ctx.addresses.length) :
    ∃ ctx', phlUpstreamRandomRecover ctx i = some ctx' ∧ ctx'.Valid l := by
  have hv' : RandomCtx.Valid l { ctx with availableNum := ctx.availableNum + 1 } :=
    { hv with available := by dsimp only; omega }
  obtain ⟨ctx', hctx, hvalid, -⟩ := exchange_spec hv' hi hlen
  exact ⟨ctx', hctx, hvalid⟩

end Exchange

section Random

variable {l : List UpstreamAddress} {ctx : RandomCtx} {limit m n : Nat} {x draw : ℚ}

theorem hash_lt (hv : ctx.Valid l) (hpos : ∀ a ∈ l, 0 < a.weight) (hmn : m < n)
    (hn : n ≤ ctx.addresses.length) : ctx.hash m < ctx.hash n := by
  induction n with
  | zero => omega
  | succ n ih =>
    have ha := List.getElem?_eq_getElem (l := ctx.addresses) (show n < _ by omega)
    have hweight := hpos _ (hv.perm.mem_iff.mp (List.mem_of_getElem? ha))
    rw [hv.step ha]
    by_cases hm : m = n
    · rw [hm]
      exact lt_add_of_pos_right _ hweight
    · have hless := ih (by omega) (by omega)
      linarith

theorem hash_nonneg (hv : ctx.Valid l) (hpos : ∀ a ∈ l, 0 < a.weight)
    (hm : m ≤ ctx.addresses.length) : 0 ≤ ctx.hash m := by
  have hzero := hv.zero
  by_cases h : m = 0
  · rw [h, hzero]
  · have hless := hash_lt hv hpos (Nat.pos_of_ne_zero h) hm
    linarith

/-- Every hash below the limit's falls to one address. -/
theorem hash_locate (hv : ctx.Valid l) (hx : 0 ≤ x) (hlimit : x < ctx.hash limit) :
    ∃ m < limit, ctx.hash m ≤ x ∧ x < ctx.hash (m + 1) := by
  induction limit with
  | zero =>
    rw [hv.zero] at hlimit
    linarith
  | succ limit ih =>
    by_cases h : x < ctx.hash limit
    · obtain ⟨m, hm, hbetween⟩ := ih h
      exact ⟨m, by omega, hbetween⟩
    · exact ⟨limit, by omega, not_lt.mp h, hlimit⟩

/-- The search finds the address to which the hash falls. -/
theorem random_eq (hv : ctx.Valid l) (hpos : ∀ a ∈ l, 0 < a.weight)
    (hlimit : limit ≤ ctx.addresses.length) (hm : m < limit)
    (hlow : ctx.hash m ≤ draw * ctx.hash limit) (hhigh : draw * ctx.hash limit < ctx.hash (m + 1)) :
    phlUpstreamRandomRandom ctx limit draw = some m := by
  have heq : ctx.cmp (draw * ctx.hash limit) m = .eq := by
    unfold RandomCtx.cmp
    rw [if_neg (not_le.mpr hhigh), if_neg (not_lt.mpr hlow)]
  have hstop : Bisect.stop (ctx.cmp (draw * ctx.hash limit)) limit = some m := by
    refine Bisect.stop_found hm heq (fun i hi => ?_) fun i hi hn => ?_
    · have hle : ctx.hash (i + 1) ≤ ctx.hash m := by
        by_cases h : i + 1 = m
        · rw [h]
        · exact (hash_lt hv hpos (show i + 1 < m by omega) (by omega)).le
      unfold RandomCtx.cmp
      rw [if_pos (hle.trans hlow)]
    · have hge : ctx.hash (m + 1) ≤ ctx.hash i := by
        by_cases h : m + 1 = i
        · rw [h]
        · exact (hash_lt hv hpos (show m + 1 < i by omega) (by omega)).le
      have hnext := hash_lt hv hpos (show i < i + 1 by omega) (by omega)
      unfold RandomCtx.cmp
      rw [if_neg (by linarith), if_pos (by linarith)]
  unfold phlUpstreamRandomRandom
  simp only [Option.bind_eq_bind, hstop, Option.bind_some, heq, if_pos]

theorem random_some (hv : ctx.Valid l) (hpos : ∀ a ∈ l, 0 < a.weight)
    (hlimit : limit ≤ ctx.addresses.length) (hne : 0 < limit) (hdraw : 0 ≤ draw ∧ draw < 1) :
    ∃ m < limit, phlUpstreamRandomRandom ctx limit draw = some m := by
  have htotal := hash_lt hv hpos hne hlimit
  rw [hv.zero] at htotal
  obtain ⟨m, hm, hlow, hhigh⟩ := hash_locate hv (mul_nonneg hdraw.1 htotal.le)
    (mul_lt_of_lt_one_left htotal hdraw.2)
  exact ⟨m, hm, random_eq hv hpos hlimit hm hlow hhigh⟩

/-- Every address below the limit is the result of some draw. -/
theorem random_reaches (hv : ctx.Valid l) (hpos : ∀ a ∈ l, 0 < a.weight)
    (hlimit : limit ≤ ctx.addresses.length) (hm : m < limit) :
    ∃ draw : ℚ, (0 ≤ draw ∧ draw < 1) ∧ phlUpstreamRandomRandom ctx limit draw = some m := by
  have hless := hash_lt hv hpos hm hlimit
  have hnonneg := hash_nonneg hv hpos (show m ≤ ctx.addresses.length by omega)
  have htotal : 0 < ctx.hash limit := by linarith
  have hback : ctx.hash m / ctx.hash limit * ctx.hash limit = ctx.hash m :=
    div_mul_cancel₀ _ htotal.ne'
  refine ⟨ctx.hash m / ctx.hash limit, ⟨by positivity, (div_lt_one htotal).mpr hless⟩, ?_⟩
  have hnext := hash_lt hv hpos (show m < m + 1 by omega) (by omega)
  exact random_eq hv hpos hlimit hm hback.ge (by rw [hback]; exact hnext)

end Random

section Retry

variable {l : List UpstreamAddress} {st : Statuses}

/-- The retries end in the available part: with an address of it, pickable if one there is, or with
the address they began with. -/
theorem retry_spec {fuel : Nat} {ctx : RandomCtx} {address : UpstreamAddress} {draws : Nat → ℚ}
    (hv : ctx.Valid l) (hpos : ∀ a ∈ l, 0 < a.weight) (hdraws : Draws draws)
    (hfuel : ctx.availableNum < fuel) (haddress : phlUpstreamAddressIsPickable st address = false) :
    ∃ a ctx', phlUpstreamRandomRetry st fuel ctx address draws = some (a, ctx') ∧ ctx'.Valid l ∧
      (phlUpstreamAddressIsPickable st a = true ↔
        ∃ b ∈ ctx.addresses.take ctx.availableNum, phlUpstreamAddressIsPickable st b = true) := by
  induction fuel generalizing ctx address draws with
  | zero => omega
  | succ fuel ih =>
    unfold phlUpstreamRandomRetry
    by_cases hnone : ctx.availableNum = 0
    · refine ⟨address, ctx, if_pos hnone, hv, ?_⟩
      rw [hnone, haddress]
      simp
    · have havail := hv.available
      obtain ⟨m, hm, hrandom⟩ := random_some hv hpos havail (Nat.pos_of_ne_zero hnone) (hdraws 0)
      have hget := List.getElem?_eq_getElem (show m < ctx.addresses.length by omega)
      simp only [if_neg hnone, hrandom, Option.bind_eq_bind, Option.bind_some, hget]
      by_cases hpick : phlUpstreamAddressIsPickable st ctx.addresses[m] = true
      · refine ⟨ctx.addresses[m], ctx, if_pos hpick, hv, iff_of_true hpick ?_⟩
        refine ⟨ctx.addresses[m], List.mem_iff_getElem?.mpr ⟨m, ?_⟩, hpick⟩
        rw [List.getElem?_take, if_pos hm, hget]
      · obtain ⟨ctx', hctx, hv', hnum, hsub, hrest⟩ := expire_spec hv hm
        obtain ⟨a, ctx'', hretry, hvalid, hiff⟩ :=
          ih hv' (fun i => hdraws (i + 1)) (by omega) (Bool.eq_false_iff.mpr hpick)
        refine ⟨a, ctx'', ?_, hvalid, hiff.trans ⟨?_, ?_⟩⟩
        · rw [if_neg hpick, hctx]
          exact hretry
        · rintro ⟨b, hb, hbpick⟩
          exact ⟨b, hsub b hb, hbpick⟩
        · rintro ⟨b, hb, hbpick⟩
          rcases hrest b hb with h | h
          · rw [hget, Option.some.injEq] at h
            rw [h] at hpick
            exact absurd hbpick hpick
          · exact ⟨b, h, hbpick⟩

end Retry

section Pick

variable {l : List UpstreamAddress} {ctx : RandomCtx} {draws : Nat → ℚ}

theorem isUp_pickable {st : Statuses} {a : UpstreamAddress} (h : st.isUp a = true) :
    phlUpstreamAddressIsPickable st a = true := by
  unfold Statuses.isUp at h
  simp only [Bool.and_eq_true, beq_iff_eq] at h
  unfold phlUpstreamAddressIsPickable
  rw [if_neg (by simp [h.2]), if_pos h.1]

/-- A pick ends with the address drawn first if it is pickable, else in the available part. -/
theorem pick_spec (st : Statuses) (hv : ctx.Valid l) (hpos : ∀ a ∈ l, 0 < a.weight) (hdraws : Draws draws) {m : Nat}
    {first : UpstreamAddress} (hrandom : phlUpstreamRandomRandom ctx ctx.totalNum (draws 0) = some m)
    (hfirst : ctx.addresses[m]? = some first) :
    ∃ a ctx', phlUpstreamRandomPick st ctx draws = some (a, ctx') ∧ ctx'.Valid l ∧
      (phlUpstreamAddressIsPickable st a = true ↔
        phlUpstreamAddressIsPickable st first = true ∨
        ∃ b ∈ ctx.addresses.take ctx.availableNum, phlUpstreamAddressIsPickable st b = true) := by
  have hm := (List.getElem?_eq_some_iff.mp hfirst).1
  have hlater : Draws fun i => draws (i + 1) := fun i => hdraws (i + 1)
  unfold phlUpstreamRandomPick
  simp only [hrandom, Option.bind_eq_bind, Option.bind_some, hfirst]
  by_cases hpick : phlUpstreamAddressIsPickable st first = true
  · have hiff := iff_of_true hpick (Or.inl hpick :
      phlUpstreamAddressIsPickable st first = true ∨
        ∃ b ∈ ctx.addresses.take ctx.availableNum, phlUpstreamAddressIsPickable st b = true)
    split
    next havail =>
      split
      next =>
        obtain ⟨ctx', hctx, hvalid⟩ := recover_spec hv havail hm
        exact ⟨first, ctx', by rw [hctx]; rfl, hvalid, hiff⟩
      next => exact ⟨first, ctx, rfl, hv, hiff⟩
    next => exact ⟨first, ctx, rfl, hv, hiff⟩
  · have hnot := Bool.eq_false_iff.mpr hpick
    have hdown : ¬ st.isUp first = true := fun h => hpick (isUp_pickable h)
    simp only [if_neg hdown, hnot, Bool.false_eq_true, false_or]
    split
    next => exact retry_spec hv hpos hlater (Nat.lt_succ_self _) hnot
    next havail =>
      obtain ⟨ctx', hctx, hv', hnum, hsub, hrest⟩ := expire_spec hv (show m < _ by omega)
      obtain ⟨a, ctx'', hretry, hvalid, hiff⟩ :=
        retry_spec hv' hpos hlater (Nat.lt_succ_self _) hnot
      refine ⟨a, ctx'', by rw [hctx]; exact hretry, hvalid, hiff.trans ⟨?_, ?_⟩⟩
      · rintro ⟨b, hb, hbpick⟩
        exact ⟨b, hsub b hb, hbpick⟩
      · rintro ⟨b, hb, hbpick⟩
        rcases hrest b hb with h | h
        · rw [hfirst, Option.some.injEq] at h
          rw [h] at hpick
          exact absurd hbpick hpick
        · exact ⟨b, h, hbpick⟩

theorem reachable_valid (hpos : ∀ a ∈ l, 0 < a.weight) (h : RandomReachable l ctx) :
    ctx.Valid l := by
  induction h with
  | update => exact update_valid l
  | @pick ctx ctx' st draws a _ hdraws hpick hv =>
    by_cases hempty : ctx.totalNum = 0
    · unfold phlUpstreamRandomPick phlUpstreamRandomRandom at hpick
      rw [hempty] at hpick
      cases hpick
    · have htotal := hv.total
      obtain ⟨m, hm, hrandom⟩ := random_some hv hpos htotal.le (Nat.pos_of_ne_zero hempty)
        (hdraws 0)
      have hget := List.getElem?_eq_getElem (show m < ctx.addresses.length by omega)
      obtain ⟨b, ctx'', hpick', hvalid, -⟩ := pick_spec st hv hpos hdraws hrandom hget
      rw [hpick'] at hpick
      cases hpick
      exact hvalid

end Pick

/-- `down` is not pickable; the others are. -/
def onlyDown (down : Nat) : Statuses where
  now := 105
  timeout := 10
  status a := ⟨if a.id = down then 100 else 0, 0, false, none⟩

end Phorklift
