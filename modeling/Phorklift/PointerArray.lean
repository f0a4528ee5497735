import Mathlib.Data.List.ReduceOption
import Mathlib.Data.List.Nodup
import Mathlib.Order.Lattice

/-! An array of pointers that is filled from its front, sorted, and read up to the first NULL. -/

namespace PointerArray

variable {α β : Type*}

section Fill

variable {size : Nat} {l l' : List α}

/-- The array of `size` entries that begins with `l`, with NULL behind. -/
def filled (size : Nat) (l : List α) : List (Option α) :=
  l.map some ++ List.replicate (size - l.length) none

/-- The entries before the first NULL are those of `l`. -/
def Terminated (row : List (Option α)) (l : List α) : Prop :=
  ∃ rest, row = l.map some ++ none :: rest

theorem filled_nil (size : Nat) : filled size ([] : List α) = List.replicate size none := rfl

theorem length_filled (h : l.length ≤ size) : (filled size l).length = size := by
  unfold filled
  rw [List.length_append, List.length_map, List.length_replicate]
  omega

theorem take_filled (size : Nat) (l : List α) : (filled size l).take l.length = l.map some := by
  unfold filled
  exact List.take_left' (List.length_map some)

theorem drop_filled (size : Nat) (l : List α) :
    (filled size l).drop l.length = List.replicate (size - l.length) none := by
  unfold filled
  exact List.drop_left' (List.length_map some)

/-- A pointer is stored in the first entry that is NULL. -/
theorem filled_set (h : l.length < size) (a : α) :
    (filled size l).set l.length (some a) = filled size (l ++ [a]) := by
  have hroom : size - l.length = size - (l ++ [a]).length + 1 := by
    rw [List.length_append, List.length_singleton]
    omega
  have hlen : (l.map some).length = l.length := List.length_map some
  unfold filled
  rw [List.set_append_right _ _ (by omega), hlen, Nat.sub_self, hroom, List.replicate_succ,
    List.set_cons_zero, List.map_append, List.append_assoc]
  rfl

theorem Terminated.unique {row : List (Option α)} (h : Terminated row l) (h' : Terminated row l') :
    l = l' := by
  obtain ⟨rest, rfl⟩ := h
  obtain ⟨rest', heq⟩ := h'
  induction l generalizing l' with
  | nil =>
    cases l' with
    | nil => rfl
    | cons b l' => cases heq
  | cons a l ih =>
    cases l' with
    | nil => cases heq
    | cons b l' =>
      obtain ⟨hhead, htail⟩ := List.cons.inj heq
      rw [Option.some.inj hhead, ih htail]

theorem filled_terminated (h : l.length < size) : Terminated (filled size l) l := by
  have hroom : size - l.length = size - l.length - 1 + 1 := by omega
  refine ⟨List.replicate (size - l.length - 1) none, ?_⟩
  unfold filled
  rw [← List.replicate_succ, ← hroom]

/-- There is a NULL where the array is not full. -/
theorem filled_terminated_iff (h : l.length ≤ size) : Terminated (filled size l) l' ↔
    l' = l ∧ l.length < size := by
  constructor
  · rintro ⟨rest, heq⟩
    have hlt : l.length < size := by
      by_contra hfull
      have hlen : size - l.length = 0 := by omega
      have hmem : none ∈ filled size l := by
        rw [heq]
        exact List.mem_append_right _ List.mem_cons_self
      unfold filled at hmem
      rw [hlen, List.replicate_zero, List.append_nil, List.mem_map] at hmem
      obtain ⟨a, -, ha⟩ := hmem
      cases ha
    have hrow : Terminated (filled size l) l' := ⟨rest, heq⟩
    exact ⟨hrow.unique (filled_terminated hlt), hlt⟩
  · rintro ⟨rfl, hlt⟩
    exact filled_terminated hlt

end Fill

section Sorting

variable [LinearOrder β] {key : α → β} {cmp : α → α → Int} {l : List α}

/-- `qsort` of the first `n` entries. -/
def qsort (cmp : α → α → Int) (n : Nat) (row : List (Option α)) : List (Option α) :=
  ((row.take n).reduceOption.mergeSort fun a b => decide (cmp a b ≤ 0)).map some ++ row.drop n

/-- The comparison is that of the keys. -/
def ComparesBy (cmp : α → α → Int) (key : α → β) : Prop :=
  ∀ a b, cmp a b ≤ 0 ↔ key a ≤ key b

theorem reduceOption_map_some (l : List α) : (l.map some).reduceOption = l := by
  induction l with
  | nil => rfl
  | cons a l ih =>
    rw [List.map_cons, List.reduceOption_cons_of_some, ih]

theorem qsort_filled (size : Nat) (l : List α) : qsort cmp l.length (filled size l) =
    filled size (l.mergeSort fun a b => decide (cmp a b ≤ 0)) := by
  unfold qsort
  rw [take_filled, drop_filled, reduceOption_map_some]
  unfold filled
  rw [List.length_mergeSort]

/-- Members with keys of their own are sorted strictly. -/
theorem mergeSort_strict (h : ComparesBy cmp key) (hkeys : (l.map key).Nodup) :
    (l.mergeSort fun a b => decide (cmp a b ≤ 0)).Pairwise fun a b => key a < key b := by
  have htrans : ∀ a b c : α, decide (cmp a b ≤ 0) = true → decide (cmp b c ≤ 0) = true →
      decide (cmp a c ≤ 0) = true := by
    intro a b c hab hbc
    have hle := (h a b).mp (of_decide_eq_true hab)
    have hle' := (h b c).mp (of_decide_eq_true hbc)
    exact decide_eq_true ((h a c).mpr (le_trans hle hle'))
  have htotal : ∀ a b : α, (decide (cmp a b ≤ 0) || decide (cmp b a ≤ 0)) = true := by
    intro a b
    rw [Bool.or_eq_true, decide_eq_true_eq, decide_eq_true_eq, h, h]
    exact le_total (key a) (key b)
  have hsorted := List.pairwise_mergeSort htrans htotal l
  have hperm := (List.mergeSort_perm l fun a b => decide (cmp a b ≤ 0)).map key
  have hne := List.pairwise_map.mp (hperm.nodup_iff.mpr hkeys)
  refine (hsorted.and hne).imp ?_
  intro a b hab
  have hle := (h a b).mp (of_decide_eq_true hab.1)
  exact lt_of_le_of_ne hle hab.2

end Sorting

end PointerArray
