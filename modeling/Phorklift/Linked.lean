import Mathlib.Data.List.Nodup
import Mathlib.Logic.Function.Basic

/-! Lists whose items bring one node each, so that an item can be on one list only. -/

namespace Linked

/-- What is on each list, and whether each item's node tells that it is on one. -/
structure Nodes (L ι : Type*) where
  items : L → List ι
  linked : ι → Bool

namespace Nodes

variable {L ι : Type*}

/-- Every item is on one list at most, and there once. -/
structure OneList (s : Nodes L ι) : Prop where
  nodup : ∀ l, (s.items l).Nodup
  one : ∀ i l m, i ∈ s.items l → i ∈ s.items m → l = m

/-- The nodes tell the truth about it. -/
structure Disciplined (s : Nodes L ι) : Prop extends s.OneList where
  linked : ∀ i, s.linked i = true ↔ ∃ l, i ∈ s.items l

section Operations

variable [DecidableEq L] [DecidableEq ι] (s : Nodes L ι)

def append (l : L) (i : ι) : Nodes L ι where
  items := Function.update s.items l (s.items l ++ [i])
  linked := Function.update s.linked i true

def insert (l : L) (i : ι) : Nodes L ι where
  items := Function.update s.items l (i :: s.items l)
  linked := Function.update s.linked i true

def delete (i : ι) : Nodes L ι where
  items := fun l => (s.items l).erase i
  linked := Function.update s.linked i false

def deleteIf (i : ι) : Nodes L ι :=
  if s.linked i then s.delete i else s

def pop (l : L) : Option (ι × Nodes L ι) :=
  match s.items l with
  | [] => none
  | i :: rest =>
    some (i, ⟨Function.update s.items l rest, Function.update s.linked i false⟩)

end Operations

variable {s s' : Nodes L ι} {l m : L} {i j : ι}

theorem Disciplined.not_mem (h : s.Disciplined) (hi : s.linked i = false) : i ∉ s.items l := by
  intro hmem
  have hlinked := (h.linked i).mpr ⟨l, hmem⟩
  rw [hi] at hlinked
  cases hlinked

section Items

variable [DecidableEq ι]

theorem OneList.mem_delete (h : s.OneList) :
    j ∈ (s.delete i).items m ↔ j ≠ i ∧ j ∈ s.items m :=
  (h.nodup m).mem_erase_iff

theorem linked_delete_self : (s.delete i).linked i = false := by
  simp only [delete, Function.update_self]

theorem linked_delete_of_ne (hj : j ≠ i) : (s.delete i).linked j = s.linked j := by
  simp only [delete, Function.update_of_ne hj]

theorem Disciplined.delete (h : s.Disciplined) : (s.delete i).Disciplined := by
  refine ⟨⟨fun l => (h.nodup l).erase i, ?_⟩, ?_⟩
  · intro j l m hl hm
    exact h.one j l m (h.mem_delete.mp hl).2 (h.mem_delete.mp hm).2
  · intro j
    by_cases hj : j = i
    · subst hj
      rw [linked_delete_self]
      refine ⟨fun hfalse => absurd hfalse (by simp), ?_⟩
      rintro ⟨l, hl⟩
      exact absurd rfl (h.mem_delete.mp hl).1
    · rw [linked_delete_of_ne hj, h.linked j]
      refine exists_congr fun l => ?_
      have hl := h.mem_delete (i := i) (j := j) (m := l)
      exact ⟨fun hmem => hl.mpr ⟨hj, hmem⟩, fun hmem => (hl.mp hmem).2⟩

/-- The item goes on one list more, wherever that puts it. -/
theorem Disciplined.link (h : s.Disciplined) (hi : s.linked i = false)
    (hmem : ∀ j m, j ∈ s'.items m ↔ j ∈ s.items m ∨ j = i ∧ m = l)
    (hnodup : ∀ m, (s'.items m).Nodup) (hlinked : s'.linked = Function.update s.linked i true) :
    s'.Disciplined := by
  refine ⟨⟨hnodup, ?_⟩, ?_⟩
  · intro j m m' hm hm'
    rcases (hmem j m).mp hm with hm | ⟨rfl, rfl⟩
    · rcases (hmem j m').mp hm' with hm' | ⟨rfl, rfl⟩
      · exact h.one j m m' hm hm'
      · exact absurd hm (h.not_mem hi)
    · rcases (hmem j m').mp hm' with hm' | ⟨_, rfl⟩
      · exact absurd hm' (h.not_mem hi)
      · trivial
  · intro j
    rw [hlinked]
    by_cases hj : j = i
    · subst hj
      rw [Function.update_self]
      exact ⟨fun _ => ⟨l, (hmem j l).mpr (.inr ⟨rfl, rfl⟩)⟩, fun _ => rfl⟩
    · rw [Function.update_of_ne hj, h.linked j]
      refine exists_congr fun m => ?_
      rw [hmem]
      exact ⟨.inl, fun hm => hm.resolve_right fun hji => hj hji.1⟩

/-- Where no list has the item, there is nothing to take off. -/
theorem Disciplined.deleteIf_eq (h : s.Disciplined) : s.deleteIf i = s.delete i := by
  unfold deleteIf
  by_cases hi : s.linked i = true
  · rw [if_pos hi]
  · rw [if_neg hi]
    have hi' : s.linked i = false := Bool.eq_false_iff.mpr hi
    have hitems : s.items = fun l => (s.items l).erase i := by
      funext l
      exact (List.erase_of_not_mem (h.not_mem hi')).symm
    have hlinked : s.linked = Function.update s.linked i false := by
      rw [← hi', Function.update_eq_self]
    unfold Nodes.delete
    rw [← hitems, ← hlinked]

end Items

variable [DecidableEq L] [DecidableEq ι]

theorem items_append_self : (s.append l i).items l = s.items l ++ [i] := by
  simp only [append, Function.update_self]

theorem items_append_of_ne (hm : m ≠ l) : (s.append l i).items m = s.items m := by
  simp only [append, Function.update_of_ne hm]

theorem items_insert_self : (s.insert l i).items l = i :: s.items l := by
  simp only [insert, Function.update_self]

theorem items_insert_of_ne (hm : m ≠ l) : (s.insert l i).items m = s.items m := by
  simp only [insert, Function.update_of_ne hm]

theorem mem_append : j ∈ (s.append l i).items m ↔ j ∈ s.items m ∨ j = i ∧ m = l := by
  by_cases hm : m = l
  · subst hm
    simp [items_append_self]
  · simp [items_append_of_ne hm, hm]

theorem mem_insert : j ∈ (s.insert l i).items m ↔ j ∈ s.items m ∨ j = i ∧ m = l := by
  by_cases hm : m = l
  · subst hm
    simp [items_insert_self, or_comm]
  · simp [items_insert_of_ne hm, hm]

theorem Disciplined.append (h : s.Disciplined) (hi : s.linked i = false) :
    (s.append l i).Disciplined := by
  refine h.link hi (fun j m => mem_append) (fun m => ?_) rfl
  by_cases hm : m = l
  · subst hm
    rw [items_append_self]
    refine List.nodup_append.mpr ⟨h.nodup m, List.nodup_singleton i, ?_⟩
    rintro a ha b hb rfl
    rw [List.mem_singleton] at hb
    subst hb
    exact h.not_mem hi ha
  · rw [items_append_of_ne hm]
    exact h.nodup m

theorem Disciplined.insert (h : s.Disciplined) (hi : s.linked i = false) :
    (s.insert l i).Disciplined := by
  refine h.link hi (fun j m => mem_insert) (fun m => ?_) rfl
  by_cases hm : m = l
  · subst hm
    rw [items_insert_self]
    exact List.nodup_cons.mpr ⟨h.not_mem hi, h.nodup m⟩
  · rw [items_insert_of_ne hm]
    exact h.nodup m

/-- What is popped is on no other list, so this takes it off wherever it is. -/
theorem Disciplined.pop_eq (h : s.Disciplined) (hpop : s.pop l = some (i, s')) :
    i ∈ s.items l ∧ s' = s.delete i := by
  unfold pop at hpop
  cases hl : s.items l with
  | nil =>
    rw [hl] at hpop
    cases hpop
  | cons a rest =>
    rw [hl, Option.some.injEq, Prod.mk.injEq] at hpop
    obtain ⟨rfl, rfl⟩ := hpop
    have hi : a ∈ s.items l := by
      rw [hl]
      exact List.mem_cons_self
    have hitems : Function.update s.items l rest = fun m => (s.items m).erase a := by
      funext m
      by_cases hm : m = l
      · subst hm
        rw [Function.update_self, hl, List.erase_cons_head]
      · rw [Function.update_of_ne hm, List.erase_of_not_mem]
        exact fun hmem => hm (h.one a m l hmem hi)
    refine ⟨List.mem_cons_self, ?_⟩
    unfold Nodes.delete
    rw [hitems]

/-- An item that is on a list already is not to be appended. -/
theorem Disciplined.not_oneList_append (h : s.Disciplined) (hi : s.linked i = true) :
    ¬(s.append l i).OneList := by
  intro hone
  obtain ⟨m, hm⟩ := (h.linked i).mp hi
  have hboth := hone.one i m l (mem_append.mpr (.inl hm)) (mem_append.mpr (.inr ⟨rfl, rfl⟩))
  subst hboth
  have hnodup := hone.nodup m
  rw [items_append_self] at hnodup
  exact (List.nodup_append.mp hnodup).2.2 i hm i List.mem_cons_self rfl

end Nodes

end Linked
