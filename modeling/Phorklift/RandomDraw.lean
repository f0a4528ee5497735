import Phorklift.RandomPick

/-! The weights of the random balancer: the table after any picks, and what each address is drawn
for. -/

namespace Phorklift

/-- The table is one of the upstream's addresses, with the sums of the weights before each. -/
structure RandomCtx.Weighted (l : List UpstreamAddress) (ctx : RandomCtx) : Prop where
  total : ctx.totalNum = l.length
  perm : (ctx.addresses.take ctx.totalNum).Perm l
  available : ctx.availableNum ≤ ctx.totalNum
  hash : ∀ i ≤ ctx.totalNum, ctx.hash i = ((ctx.addresses.take i).map (·.weight)).sum

/-- The draw falls to the entry. -/
def RandomCtx.FallsTo (ctx : RandomCtx) (n : Nat) (draw : ℚ) (i : Nat) : Prop :=
  i < n ∧ ctx.hash i ≤ draw * ctx.hash n ∧ draw * ctx.hash n < ctx.hash (i + 1)

section Draw

variable {l : List UpstreamAddress} {ctx : RandomCtx} {a : UpstreamAddress} {i j n : Nat} {draw : ℚ}
  {draws : Nat → ℚ}

theorem hash_eq_sum (hv : ctx.Valid l) (hi : i ≤ ctx.addresses.length) :
    ctx.hash i = ((ctx.addresses.take i).map (·.weight)).sum := by
  induction i with
  | zero => rw [hv.zero, List.take_zero, List.map_nil, List.sum_nil]
  | succ i ih =>
    have hget := List.getElem?_eq_getElem (show i < ctx.addresses.length by omega)
    have hsum := ih (by omega)
    rw [hv.step hget, hsum, List.take_add_one, hget, List.map_append, List.sum_append]
    simp

theorem RandomCtx.Valid.weighted (hv : ctx.Valid l) : ctx.Weighted l where
  total := hv.total.trans hv.perm.length_eq
  perm := by
    rw [hv.total, List.take_length]
    exact hv.perm
  available := by
    have havail := hv.available
    have htotal := hv.total
    omega
  hash := by
    intro i hi
    have htotal := hv.total
    exact hash_eq_sum hv (by omega)

theorem fallsTo_unique (hv : ctx.Valid l) (hpos : ∀ a ∈ l, 0 < a.weight)
    (hn : n ≤ ctx.addresses.length) (hi : ctx.FallsTo n draw i) (hj : ctx.FallsTo n draw j) :
    i = j := by
  obtain ⟨hin, hilow, hihigh⟩ := hi
  obtain ⟨hjn, hjlow, hjhigh⟩ := hj
  by_contra hne
  -- the one that comes first ends where the other begins, or before
  rcases Nat.lt_or_gt_of_ne hne with hlt | hlt
  · have hle : ctx.hash (i + 1) ≤ ctx.hash j := by
      by_cases heq : i + 1 = j
      · rw [heq]
      · exact (hash_lt hv hpos (show i + 1 < j by omega) (by omega)).le
    linarith
  · have hle : ctx.hash (j + 1) ≤ ctx.hash i := by
      by_cases heq : j + 1 = i
      · rw [heq]
      · exact (hash_lt hv hpos (show j + 1 < i by omega) (by omega)).le
    linarith

/-- The search returns the one entry to which the draw falls. -/
theorem random_eq_some_iff (hv : ctx.Valid l) (hpos : ∀ a ∈ l, 0 < a.weight)
    (hn : n ≤ ctx.addresses.length) (hne : 0 < n) (hdraw : 0 ≤ draw ∧ draw < 1) :
    (∃! i, ctx.FallsTo n draw i) ∧
      ∀ i, phlUpstreamRandomRandom ctx n draw = some i ↔ ctx.FallsTo n draw i := by
  have htotal := hash_lt hv hpos hne hn
  rw [hv.zero] at htotal
  obtain ⟨m, hm, hlow, hhigh⟩ := hash_locate hv (mul_nonneg hdraw.1 htotal.le)
    (mul_lt_of_lt_one_left htotal hdraw.2)
  have hfalls : ctx.FallsTo n draw m := ⟨hm, hlow, hhigh⟩
  have hfound := random_eq hv hpos hn hm hlow hhigh
  refine ⟨⟨m, hfalls, fun i hi => fallsTo_unique hv hpos hn hi hfalls⟩, fun i => ?_⟩
  rw [hfound, Option.some.injEq]
  constructor
  · intro heq
    rw [← heq]
    exact hfalls
  · exact fun hi => fallsTo_unique hv hpos hn hfalls hi

/-- The draws that fall to an entry are an interval, as long as the entry's part of the weights. -/
theorem fallsTo_iff_share (hv : ctx.Valid l) (hpos : ∀ a ∈ l, 0 < a.weight)
    (hn : n ≤ ctx.addresses.length) (hi : i < n) (ha : ctx.addresses[i]? = some a) :
    (ctx.FallsTo n draw i ↔ ctx.hash i / ctx.hash n ≤ draw ∧ draw < ctx.hash (i + 1) / ctx.hash n) ∧
      ctx.hash (i + 1) / ctx.hash n - ctx.hash i / ctx.hash n =
        a.weight / ((ctx.addresses.take n).map (·.weight)).sum := by
  have htotal := hash_lt hv hpos (show 0 < n by omega) hn
  rw [hv.zero] at htotal
  constructor
  · unfold RandomCtx.FallsTo
    rw [div_le_iff₀ htotal, lt_div_iff₀ htotal]
    exact and_iff_right hi
  · rw [← hash_eq_sum hv hn, hv.step ha, ← sub_div, add_sub_cancel_left]

/-- A pick comes to an end, and no assertion fails. -/
theorem pick_isSome (st : Statuses) (hv : ctx.Valid l) (hpos : ∀ a ∈ l, 0 < a.weight)
    (hne : l ≠ []) (hdraws : Draws draws) :
    ∃ a ctx', phlUpstreamRandomPick st ctx draws = some (a, ctx') ∧ ctx'.Valid l := by
  have htotal := hv.total
  have hlength : 0 < ctx.addresses.length := by
    rw [hv.perm.length_eq]
    exact List.length_pos_iff.mpr hne
  obtain ⟨m, hm, hrandom⟩ := random_some hv hpos htotal.le (by omega) (hdraws 0)
  have hget := List.getElem?_eq_getElem (show m < ctx.addresses.length by omega)
  obtain ⟨a, ctx', hpick, hvalid, -⟩ := pick_spec st hv hpos hdraws hrandom hget
  exact ⟨a, ctx', hpick, hvalid⟩

/-- After any picks the table is a weighted one of the upstream's addresses, the next pick comes
to an end, and a draw among the first entries falls to each of them for its weight. -/
theorem random_balancer_weighted (hpos : ∀ a ∈ l, 0 < a.weight) (h : RandomReachable l ctx) :
    ctx.Weighted l ∧
    (l ≠ [] → ∀ st draws, Draws draws →
      ∃ a ctx', phlUpstreamRandomPick st ctx draws = some (a, ctx') ∧ ctx'.Weighted l) ∧
    (∀ n draw, 0 < n → n ≤ ctx.totalNum → 0 ≤ draw ∧ draw < 1 →
      (∃! i, ctx.FallsTo n draw i) ∧
        ∀ i, phlUpstreamRandomRandom ctx n draw = some i ↔ ctx.FallsTo n draw i) ∧
    ∀ n i a draw, n ≤ ctx.totalNum → i < n → ctx.addresses[i]? = some a →
      (ctx.FallsTo n draw i ↔
        ctx.hash i / ctx.hash n ≤ draw ∧ draw < ctx.hash (i + 1) / ctx.hash n) ∧
      ctx.hash (i + 1) / ctx.hash n - ctx.hash i / ctx.hash n =
        a.weight / ((ctx.addresses.take n).map (·.weight)).sum := by
  have hv := reachable_valid hpos h
  have htotal := hv.total
  refine ⟨hv.weighted, fun hne st draws hdraws => ?_, fun n draw hn hle hdraw => ?_,
    fun n i a draw hle hi ha => ?_⟩
  · obtain ⟨a, ctx', hpick, hvalid⟩ := pick_isSome st hv hpos hne hdraws
    exact ⟨a, ctx', hpick, hvalid.weighted⟩
  · exact random_eq_some_iff hv hpos (by omega) hn hdraw
  · exact fallsTo_iff_share hv hpos (by omega) hi ha

end Draw

/-- The first of two addresses is down at a pick and has changed places with the second: a draw
falls to it for a quarter. -/
theorem random_balancer_weighted_exchanged :
    let l : List UpstreamAddress := [⟨0, [1], 1⟩, ⟨1, [2], 3⟩]
    let ctx : RandomCtx := ⟨2, 1, [⟨1, [2], 3⟩, ⟨0, [1], 1⟩], [0, 3, 4]⟩
    RandomReachable l ctx ∧ ctx.Weighted l ∧
      ctx.hash 2 / ctx.hash 2 - ctx.hash 1 / ctx.hash 2 = 1 / 4 := by
  intro l ctx
  have hreach : RandomReachable l ctx :=
    @RandomReachable.pick l _ ctx (onlyDown 0) (fun _ => 0) ⟨1, [2], 3⟩ .update
      (fun _ => ⟨by norm_num, by norm_num⟩) (by decide +kernel)
  have hall := random_balancer_weighted (l := l) (by decide +kernel) hreach
  refine ⟨hreach, hall.1, ?_⟩
  have hshare := (hall.2.2.2 2 1 ⟨0, [1], 1⟩ 0 (by decide) (by decide) rfl).2
  refine hshare.trans ?_
  norm_num [ctx]

end Phorklift
