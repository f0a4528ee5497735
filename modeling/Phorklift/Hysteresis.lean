import Mathlib.Data.List.DropRight
import Mathlib.Data.List.Infix

/-! Alarms that so many failures in a row raise and so many successes in a row clear. -/

namespace Hysteresis

variable {b x : Bool} {l : List Bool} {fails passes n : Nat}

/-- The length of the run of `b` that a history ends with. -/
def trailing (b : Bool) (l : List Bool) : Nat := (l.rtakeWhile (· == b)).length

@[simp] theorem trailing_nil : trailing b [] = 0 := rfl

theorem trailing_snoc : trailing b (l ++ [x]) = if x = b then trailing b l + 1 else 0 := by
  unfold trailing
  rw [List.rtakeWhile_concat]
  by_cases hx : x = b
  · simp [hx]
  · simp [hx]

@[simp] theorem trailing_snoc_self : trailing b (l ++ [b]) = trailing b l + 1 := by
  rw [trailing_snoc, if_pos rfl]

theorem trailing_snoc_of_ne (hx : x ≠ b) : trailing b (l ++ [x]) = 0 := by
  rw [trailing_snoc, if_neg hx]

theorem le_trailing_iff : n ≤ trailing b l ↔ List.replicate n b <:+ l := by
  induction l using List.reverseRecOn generalizing n with
  | nil => simp
  | append_singleton l x ih =>
    cases n with
    | zero => simp
    | succ n =>
      rw [List.replicate_succ', List.suffix_concat_iff, trailing_snoc]
      by_cases hx : x = b
      · subst hx
        have hih := ih (n := n)
        simpa using hih
      · simp [hx, Ne.symm hx]

/-- What stands before another value is no part of the run. -/
theorem trailing_append_of_ne (hx : x ≠ b) (pre post : List Bool) :
    trailing b (pre ++ [x] ++ post) = trailing b post := by
  induction post using List.reverseRecOn with
  | nil => rw [List.append_nil, trailing_snoc_of_ne hx, trailing_nil]
  | append_singleton post y ih => rw [← List.append_assoc, trailing_snoc, trailing_snoc, ih]

/-- After `fails` failures in a row there have not been `passes` successes in a row. -/
def Raised (fails passes : Nat) (l : List Bool) : Prop :=
  ∃ pre post, l = pre ++ List.replicate fails false ++ post ∧
    ¬List.replicate passes true <:+: post

theorem not_raised_nil (hfails : 0 < fails) : ¬Raised fails passes [] := by
  rintro ⟨pre, post, hl, -⟩
  have hlen := congrArg List.length hl
  simp only [List.length_nil, List.length_append, List.length_replicate] at hlen
  omega

/-- The run of successes at the end is one after the failures. -/
theorem trailing_after_fails (hfails : 0 < fails) (pre post : List Bool) :
    trailing true (pre ++ List.replicate fails false ++ post) = trailing true post := by
  obtain ⟨n, rfl⟩ := Nat.exists_eq_succ_of_ne_zero (by omega : fails ≠ 0)
  rw [List.replicate_succ', ← List.append_assoc]
  exact trailing_append_of_ne (by simp) _ _

theorem Raised.trailing_lt (hfails : 0 < fails) (h : Raised fails passes l) :
    trailing true l < passes := by
  obtain ⟨pre, post, rfl, hnone⟩ := h
  rw [trailing_after_fails hfails]
  by_contra hle
  exact hnone (le_trailing_iff.mp (by omega)).isInfix

theorem raised_of_trailing (hpasses : 0 < passes) (h : fails ≤ trailing false l) :
    Raised fails passes l := by
  obtain ⟨pre, rfl⟩ := le_trailing_iff.mp h
  refine ⟨pre, [], by rw [List.append_nil], fun hrun => ?_⟩
  have hlen := hrun.length_le
  rw [List.length_replicate, List.length_nil] at hlen
  omega

/-- A failure raises the alarm where it completes the run. -/
theorem raised_snoc_false (hpasses : 0 < passes) :
    Raised fails passes (l ++ [false]) ↔
      Raised fails passes l ∨ fails ≤ trailing false (l ++ [false]) := by
  constructor
  · rintro ⟨pre, post, hl, hnone⟩
    rcases List.eq_nil_or_concat' post with rfl | ⟨post, x, rfl⟩
    · right
      rw [le_trailing_iff, hl, List.append_nil]
      exact List.suffix_append _ _
    · left
      rw [← List.append_assoc] at hl
      obtain ⟨hl, -⟩ := List.append_inj' hl rfl
      exact ⟨pre, post, hl, fun hrun => hnone (hrun.trans (List.prefix_append _ _).isInfix)⟩
  · rintro (⟨pre, post, rfl, hnone⟩ | hrun)
    · refine ⟨pre, post ++ [false], by rw [List.append_assoc], fun hrun => ?_⟩
      rcases List.infix_concat_iff.mp hrun with hend | hrun
      · have hle := le_trailing_iff.mpr hend
        rw [trailing_snoc_of_ne (by simp)] at hle
        omega
      · exact hnone hrun
    · exact raised_of_trailing hpasses hrun

/-- A success leaves the alarm raised where it does not complete the run. -/
theorem raised_snoc_true (hfails : 0 < fails) :
    Raised fails passes (l ++ [true]) ↔
      Raised fails passes l ∧ trailing true (l ++ [true]) < passes := by
  constructor
  · intro h
    refine ⟨?_, h.trailing_lt hfails⟩
    obtain ⟨pre, post, hl, hnone⟩ := h
    rcases List.eq_nil_or_concat' post with rfl | ⟨post, x, rfl⟩
    · have hsuffix : List.replicate fails false <:+ l ++ [true] := by
        rw [hl, List.append_nil]
        exact List.suffix_append _ _
      have hle := le_trailing_iff.mpr hsuffix
      rw [trailing_snoc_of_ne (by simp)] at hle
      omega
    · rw [← List.append_assoc] at hl
      obtain ⟨hl, -⟩ := List.append_inj' hl rfl
      exact ⟨pre, post, hl, fun hrun => hnone (hrun.trans (List.prefix_append _ _).isInfix)⟩
  · rintro ⟨⟨pre, post, rfl, hnone⟩, hlt⟩
    refine ⟨pre, post ++ [true], by rw [List.append_assoc], fun hrun => ?_⟩
    rcases List.infix_concat_iff.mp hrun with hend | hrun
    · have hle := le_trailing_iff.mpr hend
      rw [List.append_assoc, trailing_after_fails hfails] at hlt
      omega
    · exact hnone hrun

end Hysteresis
