import Mathlib.Data.List.Basic
import Mathlib.Data.List.Range

/-! Spans of a region of memory, and the nodes carved off it one after another. -/

namespace Arena

/-- `size` bytes from `start` on. -/
structure Span where
  start : Int
  size : Int
  deriving DecidableEq

namespace Span

/-- The two spans have no byte in common. -/
def Apart (a b : Span) : Prop := a.start + a.size ≤ b.start ∨ b.start + b.size ≤ a.start

def Within (a b : Span) : Prop := b.start ≤ a.start ∧ a.start + a.size ≤ b.start + b.size

instance (a b : Span) : Decidable (a.Apart b) := by
  unfold Apart
  infer_instance

instance (a b : Span) : Decidable (a.Within b) := by
  unfold Within
  infer_instance

end Span

/-- The entry of a row. -/
def entry (start stride : Int) (i : Nat) : Span := ⟨start + i * stride, stride⟩

/-- The first entries of a row. -/
def carve (start stride : Int) (n : Nat) : List Span := (List.range n).map (entry start stride)

variable {start stride : Int}

theorem carve_succ (n : Nat) :
    carve start stride (n + 1) = carve start stride n ++ [entry start stride n] := by
  unfold carve
  rw [List.range_succ, List.map_append]
  rfl

theorem stride_succ (n : Nat) : ((n + 1 : Nat) : Int) * stride = n * stride + stride := by
  rw [Int.natCast_add, Int.add_mul]
  omega

theorem entry_end (i : Nat) :
    (entry start stride i).start + (entry start stride i).size =
      start + (i + 1 : Nat) * stride := by
  have hmul := @stride_succ stride i
  unfold entry
  dsimp only
  omega

/-- What is carved off ends where the next entry starts. -/
theorem carve_bounds (hs : 0 ≤ stride) (n : Nat) {a : Span} (ha : a ∈ carve start stride n) :
    start ≤ a.start ∧ a.start + a.size ≤ start + n * stride := by
  induction n with
  | zero => cases ha
  | succ n ih =>
    have hend := @entry_end start stride n
    have hmul := @stride_succ stride n
    rw [carve_succ, List.mem_append, List.mem_singleton] at ha
    rcases ha with ha | rfl
    · have hbounds := ih ha
      omega
    · have hpos : 0 ≤ (n : Int) * stride := Int.mul_nonneg (Int.natCast_nonneg n) hs
      refine ⟨?_, by omega⟩
      show start ≤ start + n * stride
      omega

theorem carve_apart (hs : 0 ≤ stride) (n : Nat) : (carve start stride n).Pairwise Span.Apart := by
  induction n with
  | zero => exact List.Pairwise.nil
  | succ n ih =>
    rw [carve_succ, List.pairwise_append]
    refine ⟨ih, List.pairwise_singleton _ _, fun a ha b hb => ?_⟩
    have hbounds := carve_bounds hs n ha
    rw [List.mem_singleton.mp hb]
    exact .inl hbounds.2

/-- A span is apart from every entry of a row where it is apart from the row. -/
theorem apart_row_iff {a : Span} (ha : 0 < a.size) (hs : 0 ≤ stride) {n : Nat} (hn : 0 < n) :
    (∀ i < n, a.Apart (entry start stride i)) ↔ a.Apart ⟨start, n * stride⟩ := by
  induction n with
  | zero => omega
  | succ n ih =>
    have hend := @entry_end start stride n
    have hmul := @stride_succ stride n
    have hlast : a.Apart (entry start stride n) ↔
        a.start + a.size ≤ start + n * stride ∨ start + (n + 1 : Nat) * stride ≤ a.start := by
      unfold Span.Apart
      rw [hend]
      rfl
    have hsplit : (∀ i < n + 1, a.Apart (entry start stride i)) ↔
        (∀ i < n, a.Apart (entry start stride i)) ∧ a.Apart (entry start stride n) := by
      constructor
      · intro h
        exact ⟨fun i hi => h i (by omega), h n (by omega)⟩
      · intro h i hi
        by_cases heq : i = n
        · rw [heq]
          exact h.2
        · exact h.1 i (by omega)
    rw [hsplit, hlast]
    by_cases hzero : n = 0
    · subst hzero
      unfold Span.Apart
      simp
    · have hpos : 0 ≤ (n : Int) * stride := Int.mul_nonneg (Int.natCast_nonneg n) hs
      rw [ih (by omega)]
      unfold Span.Apart
      dsimp only
      omega

end Arena
