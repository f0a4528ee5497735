import Mathlib.Order.Basic
import Mathlib.Tactic.Common

/-! Binary search, and the place where it stops when it finds nothing. -/

namespace Bisect

/-- The loop `while (low <= high)`, where `high` is one more than the last index; `cmp i` compares
the element at `i` with the target. The result is the index looked at last. -/
def probe (cmp : Nat → Ordering) : Nat → Nat → Nat → Option Nat → Option Nat
  | 0, _, _, last => last
  | fuel + 1, low, high, last =>
    if low < high then
      let mid := (low + high - 1) / 2
      match cmp mid with
      | .eq => some mid
      | .lt => probe cmp fuel (mid + 1) high (some mid)
      | .gt => probe cmp fuel low mid (some mid)
    else last

/-- The index where a search among `n` elements stops. -/
def stop (cmp : Nat → Ordering) (n : Nat) : Option Nat := probe cmp n 0 n none

/-- The windows that a search goes through; it looks at the middle of each. -/
def windows (cmp : Nat → Ordering) : Nat → Nat → Nat → List (Nat × Nat)
  | 0, _, _ => []
  | fuel + 1, low, high =>
    if low < high then
      let mid := (low + high - 1) / 2
      (low, high) :: match cmp mid with
        | .eq => []
        | .lt => windows cmp fuel (mid + 1) high
        | .gt => windows cmp fuel low mid
    else []

/-- `rank` elements are less than the target and the others greater. -/
def ranked (rank : Nat) (i : Nat) : Ordering := if i < rank then .lt else .gt

/-- Whether a search for a missing target of the rank stops at the element before its place. -/
def stopsBelow (n rank : Nat) : Bool := (stop (ranked rank) n).map (· + 1) == some rank

section Probe

variable {cmp cmp' : Nat → Ordering} {fuel low high n rank m : Nat} {last : Option Nat}

theorem probe_congr (h : ∀ i, low ≤ i → i < high → cmp i = cmp' i) :
    probe cmp fuel low high last = probe cmp' fuel low high last := by
  induction fuel generalizing low high last with
  | zero => rfl
  | succ fuel ih =>
    unfold probe
    split
    next hlt =>
      dsimp only
      rw [h ((low + high - 1) / 2) (by omega) (by omega)]
      cases cmp' ((low + high - 1) / 2) with
      | eq => rfl
      | lt => exact ih fun i hl hh => h i (by omega) hh
      | gt => exact ih fun i hl hh => h i hl (by omega)
    next => rfl

theorem stop_congr (h : ∀ i < n, cmp i = cmp' i) : stop cmp n = stop cmp' n :=
  probe_congr fun i _ hi => h i hi

/-- What is there is found. -/
theorem probe_found (hfuel : high ≤ low + fuel) (hlow : low ≤ m) (hhigh : m < high)
    (heq : cmp m = .eq) (hlt : ∀ i, low ≤ i → i < m → cmp i = .lt)
    (hgt : ∀ i, m < i → i < high → cmp i = .gt) : probe cmp fuel low high last = some m := by
  induction fuel generalizing low high last with
  | zero => omega
  | succ fuel ih =>
    unfold probe
    rw [if_pos (by omega)]
    dsimp only
    generalize hmid : (low + high - 1) / 2 = mid
    rcases Nat.lt_trichotomy mid m with h | h | h
    · rw [hlt mid (by omega) h]
      exact ih (by omega) (by omega) hhigh (fun i hl hi => hlt i (by omega) hi) hgt
    · rw [h, heq]
    · rw [hgt mid h (by omega)]
      exact ih (by omega) hlow (by omega) hlt fun i hl hi => hgt i hl (by omega)

theorem stop_found (hm : m < n) (heq : cmp m = .eq) (hlt : ∀ i < m, cmp i = .lt)
    (hgt : ∀ i, m < i → i < n → cmp i = .gt) : stop cmp n = some m :=
  probe_found (by omega) (Nat.zero_le m) hm heq (fun i _ => hlt i) hgt

/-- The window closes on the rank, and one of its ends is what was looked at last. -/
theorem probe_ranked (hfuel : high ≤ low + fuel) (hlow : low ≤ rank) (hhigh : rank ≤ high)
    (hlast : low < high ∨ last = some rank ∨ last.map (· + 1) = some rank) :
    probe (ranked rank) fuel low high last = some rank ∨
      (probe (ranked rank) fuel low high last).map (· + 1) = some rank := by
  induction fuel generalizing low high last with
  | zero =>
    rcases hlast with h | h
    · omega
    · exact h
  | succ fuel ih =>
    unfold probe
    split
    next hlt =>
      dsimp only
      generalize hmid : (low + high - 1) / 2 = mid
      by_cases h : mid < rank
      · rw [ranked, if_pos h]
        refine ih (by omega) (by omega) hhigh ?_
        by_cases hmore : mid + 1 < high
        · exact .inl hmore
        · refine .inr (.inr ?_)
          rw [Option.map_some, Option.some.injEq]
          omega
      · rw [ranked, if_neg h]
        refine ih (by omega) hlow (by omega) ?_
        by_cases hmore : low < mid
        · exact .inl hmore
        · refine .inr (.inl ?_)
          rw [Option.some.injEq]
          omega
    next hge => exact hlast.resolve_left hge

/-- A search for a missing target stops beside its place. -/
theorem stop_ranked (hn : 0 < n) (hrank : rank ≤ n) :
    stop (ranked rank) n = if stopsBelow n rank then some (rank - 1) else some rank := by
  have hside := @probe_ranked n 0 n rank none (by omega) (Nat.zero_le _) hrank (.inl hn)
  change stop (ranked rank) n = some rank ∨ (stop (ranked rank) n).map (· + 1) = some rank at hside
  unfold stopsBelow
  rcases hside with h | h
  · rw [h]
    have hne : (Option.map (· + 1) (some rank) == some rank) = false := by simp
    rw [hne]
    rfl
  · rw [h, beq_self_eq_true, if_pos rfl]
    obtain ⟨i, hi, hrank⟩ := Option.map_eq_some_iff.mp h
    rw [hi, ← hrank, Nat.add_sub_cancel]

theorem probe_lt {i : Nat} (h : probe cmp fuel low high last = some i) (hhigh : high ≤ n)
    (hlast : ∀ j, last = some j → j < n) : i < n := by
  induction fuel generalizing low high last with
  | zero => exact hlast i h
  | succ fuel ih =>
    unfold probe at h
    split at h
    next hlt =>
      dsimp only at h
      have hmid : (low + high - 1) / 2 < n := by omega
      have hnew : ∀ j, some ((low + high - 1) / 2) = some j → j < n := by
        intro j hj
        cases hj
        exact hmid
      split at h
      next => exact hnew i h
      next => exact ih h hhigh hnew
      next => exact ih h (by omega) hnew
    next => exact hlast i h

theorem stop_lt {i : Nat} (h : stop cmp n = some i) : i < n :=
  probe_lt h (Nat.le_refl n) nofun

theorem probe_isSome (h : last.isSome ∨ low < high ∧ 0 < fuel) :
    (probe cmp fuel low high last).isSome := by
  induction fuel generalizing low high last with
  | zero => exact h.resolve_right fun hlt => Nat.lt_irrefl 0 hlt.2
  | succ fuel ih =>
    unfold probe
    split
    next =>
      dsimp only
      split
      next => rfl
      next => exact ih (.inl rfl)
      next => exact ih (.inl rfl)
    next hge => exact h.resolve_right fun hlt => hge hlt.1

theorem stop_isSome (hn : 0 < n) : (stop cmp n).isSome := probe_isSome (.inr ⟨hn, hn⟩)

theorem mem_windows {w : Nat × Nat} (h : w ∈ windows cmp fuel low high) :
    low ≤ w.1 ∧ w.1 < w.2 ∧ w.2 ≤ high := by
  induction fuel generalizing low high with
  | zero => cases h
  | succ fuel ih =>
    unfold windows at h
    split at h
    next hlt =>
      dsimp only at h
      rcases List.mem_cons.mp h with rfl | h
      · exact ⟨Nat.le_refl _, hlt, Nat.le_refl _⟩
      · split at h
        next => cases h
        next =>
          have hw := ih h
          omega
        next =>
          have hw := ih h
          omega
    next => cases h

/-- A search for what is greater than all but the last comes down to the last. -/
theorem last_mem_windows (hfuel : high ≤ low + fuel) (hlt : low < high)
    (hless : ∀ i, low ≤ i → i + 1 < high → cmp i = .lt) :
    (high - 1, high) ∈ windows cmp fuel low high := by
  induction fuel generalizing low with
  | zero => omega
  | succ fuel ih =>
    unfold windows
    rw [if_pos hlt]
    by_cases hlast : low = high - 1
    · rw [← hlast]
      exact List.mem_cons_self
    · have hmid := hless ((low + high - 1) / 2) (by omega) (by omega)
      dsimp only
      rw [hmid]
      exact List.mem_cons_of_mem _ (ih (by omega) (by omega) fun i hi => hless i (by omega))

theorem stopsBelow_pos (h : stopsBelow n rank = true) : 0 < rank := by
  unfold stopsBelow at h
  obtain ⟨i, -, hi⟩ := Option.map_eq_some_iff.mp (beq_iff_eq.mp h)
  omega

theorem rank_lt_of_stopsAbove (hn : 0 < n) (hrank : rank ≤ n) (h : stopsBelow n rank = false) :
    rank < n := by
  have hstop := stop_ranked hn hrank
  rw [h] at hstop
  exact stop_lt hstop

end Probe

end Bisect
