import Mathlib.Algebra.BigOperators.Group.Finset.Piecewise
import Mathlib.Data.Fintype.Card
import Phorklift.Transition

/-! A counter that parties compare with a limit before they add to it, in two steps that others may
come between. -/

namespace Admission

open Transition

variable {ι : Type*} [DecidableEq ι]

/-- `pending` are the parties that have passed the comparison and have not added yet. -/
@[ext]
structure Gate (ι : Type*) where
  count : Nat
  pending : Finset ι

/-- What a sum gains where one of its terms changes. -/
theorem sum_update_add [Fintype ι] (f : ι → Nat) (i : ι) (n : Nat) :
    ∑ j, Function.update f i n j + f i = ∑ j, f j + n := by
  have hupdate := Finset.sum_update_of_mem (Finset.mem_univ i) f n
  have hsplit := Finset.add_sum_erase Finset.univ f (Finset.mem_univ i)
  rw [hupdate, Finset.sdiff_singleton_eq_erase]
  omega

namespace Gate

/-- `trade` passes without a comparison, for one that is taken off the counter. -/
inductive Step (limit : Nat) : Gate ι → Gate ι → Prop
  | pass {g : Gate ι} (i : ι) (h : g.count < limit) : Step limit g ⟨g.count, insert i g.pending⟩
  | trade {g : Gate ι} (i : ι) (h : 0 < g.count) : Step limit g ⟨g.count - 1, insert i g.pending⟩
  | add {g : Gate ι} (i : ι) (h : i ∈ g.pending) : Step limit g ⟨g.count + 1, g.pending.erase i⟩
  | sub {g : Gate ι} : Step limit g ⟨g.count - 1, g.pending⟩
  | abandon {g : Gate ι} (i : ι) : Step limit g ⟨g.count, g.pending.erase i⟩
  | stay {g : Gate ι} : Step limit g g

variable {limit k : Nat} {g g' : Gate ι}

/-- Each of `k` parties counts once beside the last one that the comparison lets pass. -/
def Bounded (limit k : Nat) (g : Gate ι) : Prop :=
  g.count + g.pending.card + 1 ≤ limit + k

/-- The bound is kept as long as no more than `k` parties are pending at a time. -/
theorem Bounded.step (h : Bounded limit k g) (hstep : Step limit g g')
    (hk : g'.pending.card ≤ k) : Bounded limit k g' := by
  unfold Bounded at h ⊢
  cases hstep with
  | pass i hlt =>
    have hcard : (insert i g.pending).card ≤ k := hk
    show g.count + (insert i g.pending).card + 1 ≤ limit + k
    omega
  | trade i hpos =>
    have hcard : (insert i g.pending).card ≤ g.pending.card + 1 := Finset.card_insert_le _ _
    show g.count - 1 + (insert i g.pending).card + 1 ≤ limit + k
    omega
  | add i hi =>
    have hcard : (g.pending.erase i).card + 1 = g.pending.card := Finset.card_erase_add_one hi
    show g.count + 1 + (g.pending.erase i).card + 1 ≤ limit + k
    omega
  | sub =>
    show g.count - 1 + g.pending.card + 1 ≤ limit + k
    omega
  | abandon i =>
    have hcard : (g.pending.erase i).card ≤ g.pending.card := Finset.card_erase_le
    show g.count + (g.pending.erase i).card + 1 ≤ limit + k
    omega
  | stay => exact h

omit [DecidableEq ι] in
theorem bounded_start (hlimit : 0 < limit) :
    Bounded limit k (⟨0, ∅⟩ : Gate ι) := by
  show 0 + (∅ : Finset ι).card + 1 ≤ limit + k
  rw [Finset.card_empty]
  omega

end Gate

end Admission
