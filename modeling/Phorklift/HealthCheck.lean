import Phorklift.Hysteresis
import Mathlib.Algebra.GroupWithZero.Nat
import Mathlib.Tactic.Common

/-! The counters of the passive and of the active health check of an upstream address. -/

namespace Phorklift

open Hysteresis

/-- `fails` and `passes` of a `failure` or a `healthcheck` table, as their limits allow them. -/
structure HealthLimits where
  fails : Nat
  passes : Nat
  fails_lt : fails < 2 ^ 31
  passes_pos : 0 < passes
  passes_lt : passes < 2 ^ 31

/-- `address->failure` or `address->healthcheck` -/
structure HealthState where
  downTime : Nat
  fails : BitVec 32
  passes : BitVec 32
  deriving DecidableEq

def HealthState.init : HealthState := ⟨0, 0, 0⟩

/-- What a request or a probe has come to, and `time(NULL)` at that time. -/
structure CheckOutcome where
  pass : Bool
  now : Nat
  now_ne : now ≠ 0

/-- The counters wrap around. -/
def HealthState.count (limits : HealthLimits) (s : HealthState) (o : CheckOutcome) : HealthState :=
  if o.pass then
    let s := { s with fails := 0, passes := s.passes + 1 }
    if s.downTime ≠ 0 ∧ s.passes = BitVec.ofNat 32 limits.passes then { s with downTime := 0 }
    else s
  else
    let s := { s with passes := 0, fails := s.fails + 1 }
    if s.downTime = 0 ∧ s.fails = BitVec.ofNat 32 limits.fails then { s with downTime := o.now }
    else s

/-- What `phl_upstream_release_connection` does to `address->failure`: the outcome is
`!upc->error`. -/
def phlUpstreamReleaseConnectionCount (limits : HealthLimits) (failure : HealthState)
    (o : CheckOutcome) : HealthState :=
  failure.count limits o

/-- `phl_upstream_healthcheck_done` -/
def phlUpstreamHealthcheckDone (limits : HealthLimits) (healthcheck : HealthState)
    (o : CheckOutcome) : HealthState :=
  healthcheck.count limits o

/-- The failures have come in a row, and the successes have not since. -/
def MarkedDown (limits : HealthLimits) (outcomes : List CheckOutcome) : Prop :=
  0 < limits.fails ∧ Raised limits.fails limits.passes (outcomes.map CheckOutcome.pass)

/-- A check marks the address down after these outcomes exactly as its limits say. -/
def DownAsConfigured (count : HealthLimits → HealthState → CheckOutcome → HealthState)
    (limits : HealthLimits) (outcomes : List CheckOutcome) : Prop :=
  (outcomes.foldl (count limits) .init).downTime ≠ 0 ↔ MarkedDown limits outcomes

/-- The check is not disabled, or its counter has not come back to zero. -/
def CountsToLimit (limits : HealthLimits) (outcomes : List CheckOutcome) : Prop :=
  0 < limits.fails ∨ ¬Raised (2 ^ 32) limits.passes (outcomes.map CheckOutcome.pass)

/-- The number of failures at which the counter is equal to `fails`. -/
def HealthLimits.threshold (limits : HealthLimits) : Nat :=
  if limits.fails = 0 then 2 ^ 32 else limits.fails

section Counters

variable {limits : HealthLimits} {s : HealthState} {l : List Bool} {t : Nat}

theorem threshold_pos (limits : HealthLimits) : 0 < limits.threshold := by
  unfold HealthLimits.threshold
  split <;> omega

theorem ofNat_eq_fails (hpos : 0 < t) (hle : t ≤ limits.threshold) :
    BitVec.ofNat 32 t = BitVec.ofNat 32 limits.fails ↔ limits.threshold ≤ t := by
  have hfails := limits.fails_lt
  unfold HealthLimits.threshold at hle ⊢
  rw [← BitVec.toNat_inj, BitVec.toNat_ofNat, BitVec.toNat_ofNat]
  split at hle
  next hzero =>
    rw [if_pos hzero, hzero]
    omega
  next hne =>
    rw [if_neg hne]
    omega

theorem ofNat_eq_passes (hle : t ≤ limits.passes) :
    BitVec.ofNat 32 t = BitVec.ofNat 32 limits.passes ↔ ¬t < limits.passes := by
  have hpasses := limits.passes_lt
  rw [← BitVec.toNat_inj, BitVec.toNat_ofNat, BitVec.toNat_ofNat]
  omega

/-- The state after a history: each counter has the length of the run at its end. -/
structure Counted (limits : HealthLimits) (s : HealthState) (l : List Bool) : Prop where
  fails : s.fails = BitVec.ofNat 32 (trailing false l)
  passes : s.passes = BitVec.ofNat 32 (trailing true l)
  down : s.downTime ≠ 0 ↔ Raised limits.threshold limits.passes l

theorem counted_init : Counted limits .init [] where
  fails := rfl
  passes := rfl
  down := iff_of_false (fun h => h rfl) (not_raised_nil (threshold_pos limits))

theorem Counted.count_pass (h : Counted limits s l) {o : CheckOutcome} (hpass : o.pass = true) :
    Counted limits (s.count limits o) (l ++ [true]) := by
  have hpos := threshold_pos limits
  have hfails : (0 : BitVec 32) = BitVec.ofNat 32 (trailing false (l ++ [true])) := by
    rw [trailing_snoc_of_ne (by simp)]
    rfl
  have hpassed : s.passes + 1 = BitVec.ofNat 32 (trailing true (l ++ [true])) := by
    rw [trailing_snoc_self, h.passes, BitVec.ofNat_add]
    rfl
  unfold HealthState.count
  rw [hpass, if_pos rfl]
  dsimp only
  by_cases hraised : Raised limits.threshold limits.passes l
  · have hlt := hraised.trailing_lt hpos
    have hlast : trailing true (l ++ [true]) = trailing true l + 1 := trailing_snoc_self
    have heq : BitVec.ofNat 32 (trailing true (l ++ [true])) = BitVec.ofNat 32 limits.passes ↔
        ¬trailing true (l ++ [true]) < limits.passes :=
      ofNat_eq_passes (by omega)
    rw [← hpassed] at heq
    have hdown := h.down.mpr hraised
    split
    next hup =>
      refine ⟨hfails, hpassed, iff_of_false (fun hne => hne rfl) fun hafter => ?_⟩
      exact heq.mp hup.2 ((raised_snoc_true hpos).mp hafter).2
    next hstays =>
      refine ⟨hfails, hpassed, iff_of_true hdown ((raised_snoc_true hpos).mpr ⟨hraised, ?_⟩)⟩
      by_contra hge
      exact hstays ⟨hdown, heq.mpr hge⟩
  · have hup : ¬s.downTime ≠ 0 := fun hne => hraised (h.down.mp hne)
    rw [if_neg fun hand => hup hand.1]
    exact ⟨hfails, hpassed, iff_of_false hup fun hafter =>
      hraised ((raised_snoc_true hpos).mp hafter).1⟩

theorem Counted.count_fail (h : Counted limits s l) {o : CheckOutcome} (hpass : o.pass = false) :
    Counted limits (s.count limits o) (l ++ [false]) := by
  have hpasses := limits.passes_pos
  have hpassed : (0 : BitVec 32) = BitVec.ofNat 32 (trailing true (l ++ [false])) := by
    rw [trailing_snoc_of_ne (by simp)]
    rfl
  have hfails : s.fails + 1 = BitVec.ofNat 32 (trailing false (l ++ [false])) := by
    rw [trailing_snoc_self, h.fails, BitVec.ofNat_add]
    rfl
  unfold HealthState.count
  rw [hpass, if_neg (by simp)]
  dsimp only
  by_cases hraised : Raised limits.threshold limits.passes l
  · have hdown := h.down.mpr hraised
    rw [if_neg fun hand => hdown hand.1]
    exact ⟨hfails, hpassed, iff_of_true hdown ((raised_snoc_false hpasses).mpr (.inl hraised))⟩
  · have hup : ¬s.downTime ≠ 0 := fun hne => hraised (h.down.mp hne)
    have hlt : trailing false l < limits.threshold := by
      by_contra hge
      exact hraised (raised_of_trailing hpasses (by omega))
    have hlast : trailing false (l ++ [false]) = trailing false l + 1 := trailing_snoc_self
    have heq : BitVec.ofNat 32 (trailing false (l ++ [false])) = BitVec.ofNat 32 limits.fails ↔
        limits.threshold ≤ trailing false (l ++ [false]) :=
      ofNat_eq_fails (by omega) (by omega)
    rw [← hfails] at heq
    split
    next hdown =>
      refine ⟨hfails, hpassed, iff_of_true o.now_ne ?_⟩
      exact (raised_snoc_false hpasses).mpr (.inr (heq.mp hdown.2))
    next hstays =>
      refine ⟨hfails, hpassed, iff_of_false hup fun hafter => ?_⟩
      rcases (raised_snoc_false hpasses).mp hafter with hbefore | hrun
      · exact hraised hbefore
      · exact hstays ⟨not_not.mp hup, heq.mpr hrun⟩

theorem Counted.count (h : Counted limits s l) (o : CheckOutcome) :
    Counted limits (s.count limits o) (l ++ [o.pass]) := by
  cases hpass : o.pass with
  | true => exact h.count_pass hpass
  | false => exact h.count_fail hpass

theorem counted_foldl (limits : HealthLimits) (outcomes : List CheckOutcome) :
    Counted limits (outcomes.foldl (HealthState.count limits) .init)
      (outcomes.map CheckOutcome.pass) := by
  induction outcomes using List.reverseRecOn with
  | nil => exact counted_init
  | append_singleton outcomes o ih =>
    rw [List.foldl_append, List.map_append]
    exact ih.count o

theorem count_down_iff (limits : HealthLimits) (outcomes : List CheckOutcome) :
    DownAsConfigured HealthState.count limits outcomes ↔ CountsToLimit limits outcomes := by
  unfold DownAsConfigured CountsToLimit MarkedDown
  rw [(counted_foldl limits outcomes).down]
  unfold HealthLimits.threshold
  by_cases hzero : limits.fails = 0
  · simp [hzero]
  · have hpos : 0 < limits.fails := Nat.pos_of_ne_zero hzero
    simp [hzero, hpos]

/-- Each check marks the address down as configured, but for a disabled one whose counter has come
back to zero. -/
theorem down_as_configured_iff (limits : HealthLimits) (outcomes : List CheckOutcome) :
    (DownAsConfigured phlUpstreamReleaseConnectionCount limits outcomes ↔
      CountsToLimit limits outcomes) ∧
    (DownAsConfigured phlUpstreamHealthcheckDone limits outcomes ↔
      CountsToLimit limits outcomes) :=
  ⟨count_down_iff limits outcomes, count_down_iff limits outcomes⟩

end Counters

/-- `fails = 0`, and as many failures in a row as an `int` has values. -/
theorem disabled_marks_down :
    let limits : HealthLimits := ⟨0, 3, by decide, by decide, by decide⟩
    let outcomes : List CheckOutcome := List.replicate (2 ^ 32) ⟨false, 1, by decide⟩
    (outcomes.foldl (phlUpstreamReleaseConnectionCount limits) .init).downTime ≠ 0 ∧
      ¬MarkedDown limits outcomes ∧
      ¬DownAsConfigured phlUpstreamReleaseConnectionCount limits outcomes := by
  intro limits outcomes
  have hnot : ¬MarkedDown limits outcomes := fun h => absurd h.1 (lt_irrefl 0)
  have hpasses : outcomes.map CheckOutcome.pass = List.replicate (2 ^ 32) false := by
    rw [List.map_replicate]
  have hraised : Raised limits.threshold limits.passes (outcomes.map CheckOutcome.pass) := by
    refine raised_of_trailing limits.passes_pos (le_trailing_iff.mpr ?_)
    rw [hpasses]
    exact List.suffix_rfl
  have hdown := (counted_foldl limits outcomes).down.mpr hraised
  exact ⟨hdown, hnot, fun h => hnot (h.mp hdown)⟩

end Phorklift
