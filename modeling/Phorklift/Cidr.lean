import Mathlib.Data.Set.Basic

/-! Blocks of addresses that agree on their first bits. -/

namespace Cidr

variable {w : Nat}

/-- The addresses that agree with `a` on the first `m` bits. -/
def block (m : Nat) (a : BitVec w) : Set (BitVec w) :=
  {x | ∀ i < m, x.getMsbD i = a.getMsbD i}

instance (m : Nat) (a x : BitVec w) : Decidable (x ∈ block m a) :=
  inferInstanceAs (Decidable (∀ i < m, x.getMsbD i = a.getMsbD i))

theorem mem_block_self (m : Nat) (a : BitVec w) : a ∈ block m a :=
  fun _ _ => rfl

theorem mem_block_full {a x : BitVec w} : x ∈ block w a ↔ x = a := by
  constructor
  · intro h
    refine BitVec.eq_of_getMsbD_eq fun i hi => h i hi
  · rintro rfl
    exact mem_block_self w x

/-- The bits of `a` past the first `m` are zero. -/
def Aligned (m : Nat) (a : BitVec w) : Prop :=
  ∀ i < w, m ≤ i → a.getMsbD i = false

instance (m : Nat) (a : BitVec w) : Decidable (Aligned m a) :=
  inferInstanceAs (Decidable (∀ i < w, m ≤ i → a.getMsbD i = false))

theorem aligned_full (a : BitVec w) : Aligned w a := by
  intro i hi hw
  omega

theorem getMsbD_mask {m i : Nat} (hm : m ≤ w) :
    (BitVec.allOnes w <<< (w - m)).getMsbD i = decide (i < m) := by
  rw [BitVec.getMsbD_shiftLeft, BitVec.getMsbD_allOnes]
  by_cases h : i < m
  · simp [h]
    omega
  · simp [h]
    omega

theorem and_mask_eq_self {m : Nat} (hm : m ≤ w) (a : BitVec w) :
    a &&& BitVec.allOnes w <<< (w - m) = a ↔ Aligned m a := by
  constructor
  · intro h i hi hmi
    have hbit := congrArg (fun x => BitVec.getMsbD x i) h
    simp only [BitVec.getMsbD_and, getMsbD_mask hm, show ¬i < m by omega, decide_false,
      Bool.and_false] at hbit
    exact hbit.symm
  · intro h
    refine BitVec.eq_of_getMsbD_eq fun i hi => ?_
    rw [BitVec.getMsbD_and, getMsbD_mask hm]
    by_cases hmi : i < m
    · simp [hmi]
    · rw [h i hi (by omega), Bool.false_and]

/-- An interval that ends at its beginning with some bits cleared. -/
theorem mem_interval_and {a s x : BitVec w} :
    a ≤ x ∧ x ≤ a &&& s ↔ x = a ∧ a &&& s = a := by
  have hle : a &&& s ≤ a := by
    rw [BitVec.le_def, BitVec.toNat_and]
    exact Nat.and_le_left
  constructor
  · rintro ⟨hax, hxs⟩
    have hxa : x = a := BitVec.le_antisymm (BitVec.le_trans hxs hle) hax
    subst hxa
    exact ⟨rfl, BitVec.le_antisymm hle hxs⟩
  · rintro ⟨rfl, hs⟩
    rw [hs]
    exact ⟨BitVec.le_refl _, BitVec.le_refl _⟩

end Cidr
