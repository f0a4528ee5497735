import Mathlib.Algebra.BigOperators.Group.Finset.Piecewise

/-! Boxes that items are put into and taken out of, and that are copied with all they hold: what has
come into a box is what has gone from it and what it holds, and each copy of an item is accounted
for. -/

namespace Outbox

/-- What happens to the boxes, which are numbered. -/
inductive Entry (α : Type*)
  | put (box : Nat) (a : α)
  | took (box : Nat) (items : List α)
  | copied (box new : Nat) (items : List α)

variable {α : Type*}

/-- What an entry brings into a box. -/
def Entry.brings (o : Nat) : Entry α → List α
  | .put box a => if box = o then [a] else []
  | .took _ _ => []
  | .copied _ new items => if new = o then items else []

def Entry.takes (o : Nat) : Entry α → List α
  | .took box items => if box = o then items else []
  | _ => []

/-- The items that come from outside, those that a copy adds, and those that go. -/
def Entry.puts : Entry α → List α
  | .put _ a => [a]
  | _ => []

def Entry.copies : Entry α → List α
  | .copied _ _ items => items
  | _ => []

def Entry.outs : Entry α → List α
  | .took _ items => items
  | _ => []

/-- The boxes that an entry writes of are among the first `n`. -/
def Entry.Below (n : Nat) : Entry α → Prop
  | .put box _ => box < n
  | .took box _ => box < n
  | .copied box new _ => box < n ∧ new < n

def brought (o : Nat) (ledger : List (Entry α)) : List α := ledger.flatMap (Entry.brings o)

def gone (o : Nat) (ledger : List (Entry α)) : List α := ledger.flatMap (Entry.takes o)

def puts (ledger : List (Entry α)) : List α := ledger.flatMap Entry.puts

def copies (ledger : List (Entry α)) : List α := ledger.flatMap Entry.copies

def outs (ledger : List (Entry α)) : List α := ledger.flatMap Entry.outs

/-- The ledger accounts for what each box holds. -/
structure Balanced (boxes : List (List α)) (ledger : List (Entry α)) : Prop where
  below : ∀ e ∈ ledger, e.Below boxes.length
  order : ∀ o items, boxes[o]? = some items → brought o ledger = gone o ledger ++ items

/-- What a box holds after a number of entries that are about it alone. -/
inductive Moves (o : Nat) : List α → List (Entry α) → List α → Prop
  | nil (items : List α) : Moves o items [] items
  | put {items items' : List α} {es : List (Entry α)} (a : α) :
      Moves o (items ++ [a]) es items' → Moves o items (.put o a :: es) items'
  | take {items items' : List α} {es : List (Entry α)} :
      Moves o [] es items' → Moves o items (.took o items :: es) items'

variable {boxes : List (List α)} {ledger : List (Entry α)} {o : Nat}

theorem brought_append (o : Nat) (ledger more : List (Entry α)) :
    brought o (ledger ++ more) = brought o ledger ++ brought o more := List.flatMap_append

theorem gone_append (o : Nat) (ledger more : List (Entry α)) :
    gone o (ledger ++ more) = gone o ledger ++ gone o more := List.flatMap_append

theorem Entry.Below.mono {e : Entry α} {n m : Nat} (h : e.Below n) (hle : n ≤ m) : e.Below m := by
  cases e with
  | put box a => exact Nat.lt_of_lt_of_le h hle
  | took box items => exact Nat.lt_of_lt_of_le h hle
  | copied box new items =>
    exact ⟨Nat.lt_of_lt_of_le h.1 hle, Nat.lt_of_lt_of_le h.2 hle⟩

/-- Nothing has come into a box that there is not. -/
theorem brought_of_below (h : ∀ e ∈ ledger, e.Below o) : brought o ledger = [] := by
  apply List.flatMap_eq_nil_iff.mpr
  intro e he
  have hbelow := h e he
  cases e with
  | put box a => exact if_neg (Nat.ne_of_lt hbelow)
  | took box items => rfl
  | copied box new items => exact if_neg (Nat.ne_of_lt hbelow.2)

theorem gone_of_below (h : ∀ e ∈ ledger, e.Below o) : gone o ledger = [] := by
  apply List.flatMap_eq_nil_iff.mpr
  intro e he
  have hbelow := h e he
  cases e with
  | put box a => rfl
  | took box items => exact if_neg (Nat.ne_of_lt hbelow)
  | copied box new items => rfl

namespace Balanced

theorem empty (boxes : List (List α)) (h : ∀ items ∈ boxes, items = []) :
    Balanced boxes ([] : List (Entry α)) where
  below := nofun
  order := by
    intro o items hitems
    obtain rfl := h items (List.mem_of_getElem? hitems)
    rfl

/-- An entry about one box changes what that box holds. -/
theorem set (h : Balanced boxes ledger) {e : Entry α} {items items' : List α}
    (ho : boxes[o]? = some items) (hbelow : e.Below boxes.length)
    (hself : items ++ e.brings o = e.takes o ++ items')
    (hother : ∀ p, p ≠ o → e.brings p = [] ∧ e.takes p = []) :
    Balanced (boxes.set o items') (ledger ++ [e]) where
  below := by
    rw [List.length_set]
    intro e' he'
    rcases List.mem_append.mp he' with hold | hnew
    · exact h.below e' hold
    · obtain rfl := List.mem_singleton.mp hnew
      exact hbelow
  order := by
    intro p held hheld
    have hsingle : brought p [e] = e.brings p ∧ gone p [e] = e.takes p :=
      ⟨List.flatMap_singleton .., List.flatMap_singleton ..⟩
    rw [brought_append, gone_append, hsingle.1, hsingle.2]
    by_cases hp : p = o
    · subst hp
      rw [List.getElem?_set_self (List.getElem?_eq_some_iff.mp ho).1] at hheld
      obtain rfl := Option.some.inj hheld
      rw [h.order p items ho, List.append_assoc, hself, List.append_assoc]
    · rw [List.getElem?_set_ne (Ne.symm hp)] at hheld
      rw [(hother p hp).1, (hother p hp).2, List.append_nil, List.append_nil]
      exact h.order p held hheld

theorem put (h : Balanced boxes ledger) {items : List α} (ho : boxes[o]? = some items) (a : α) :
    Balanced (boxes.set o (items ++ [a])) (ledger ++ [.put o a]) := by
  have hbelow : (Entry.put o a).Below boxes.length := (List.getElem?_eq_some_iff.mp ho).1
  apply h.set ho hbelow
  · exact congrArg (items ++ ·) (if_pos rfl)
  · intro p hp
    exact ⟨if_neg (Ne.symm hp), rfl⟩

theorem take (h : Balanced boxes ledger) {items : List α} (ho : boxes[o]? = some items) :
    Balanced (boxes.set o []) (ledger ++ [.took o items]) := by
  have hbelow : (Entry.took o items).Below boxes.length := (List.getElem?_eq_some_iff.mp ho).1
  apply h.set ho hbelow
  · have htakes : (Entry.took o items).takes o = items := if_pos rfl
    rw [htakes]
    rfl
  · intro p hp
    exact ⟨rfl, if_neg (Ne.symm hp)⟩

theorem moves (h : Balanced boxes ledger) {items items' : List α} {es : List (Entry α)}
    (hmoves : Moves o items es items') (ho : boxes[o]? = some items) :
    Balanced (boxes.set o items') (ledger ++ es) := by
  induction hmoves generalizing boxes ledger with
  | nil items =>
    obtain ⟨hlt, rfl⟩ := List.getElem?_eq_some_iff.mp ho
    rwa [List.set_getElem_self, List.append_nil]
  | put a _ ih =>
    have hlt := (List.getElem?_eq_some_iff.mp ho).1
    have hrest := ih (h.put ho a) (List.getElem?_set_self hlt)
    rwa [List.set_set, List.append_assoc] at hrest
  | take _ ih =>
    have hlt := (List.getElem?_eq_some_iff.mp ho).1
    have hrest := ih (h.take ho) (List.getElem?_set_self hlt)
    rwa [List.set_set, List.append_assoc] at hrest

/-- A copy is a box of its own, which comes with all that the copied one holds. -/
theorem copy (h : Balanced boxes ledger) {items : List α} (ho : boxes[o]? = some items) :
    Balanced (boxes ++ [items]) (ledger ++ [.copied o boxes.length items]) where
  below := by
    have hlt : o < boxes.length := (List.getElem?_eq_some_iff.mp ho).1
    rw [List.length_append, List.length_singleton]
    intro e he
    rcases List.mem_append.mp he with hold | hnew
    · exact (h.below e hold).mono (Nat.le_succ _)
    · obtain rfl := List.mem_singleton.mp hnew
      exact ⟨Nat.lt_succ_of_lt hlt, Nat.lt_succ_self _⟩
  order := by
    intro p held hheld
    have htakes : gone p [Entry.copied o boxes.length items] = [] := rfl
    have hbrings : brought p [Entry.copied o boxes.length items] =
        if boxes.length = p then items else [] := List.append_nil _
    rw [brought_append, gone_append, htakes, hbrings, List.append_nil]
    by_cases hp : boxes.length = p
    · subst hp
      rw [List.getElem?_concat_length] at hheld
      obtain rfl := Option.some.inj hheld
      rw [if_pos rfl, brought_of_below h.below, gone_of_below h.below]
    · rw [if_neg hp, List.append_nil]
      apply h.order p held
      rcases Nat.lt_or_ge p boxes.length with hlt | hge
      · rwa [List.getElem?_append_left hlt] at hheld
      · rw [List.getElem?_eq_none] at hheld
        · cases hheld
        · rw [List.length_append, List.length_singleton]
          omega

section Count

open Finset

variable [DecidableEq α]

theorem sum_at {box n : Nat} (h : box < n) (items : List α) (a : α) :
    ∑ o ∈ range n, (if box = o then items else []).count a = items.count a := by
  have hone : ∀ o, (if box = o then items else []).count a =
      if box = o then items.count a else 0 := by
    intro o
    split <;> rfl
  simp only [hone, sum_ite_eq, mem_range]
  exact if_pos h

/-- What an entry brings is counted once over all the boxes. -/
theorem sum_brings {e : Entry α} {n : Nat} (h : e.Below n) (a : α) :
    ∑ o ∈ range n, (e.brings o).count a = e.puts.count a + e.copies.count a := by
  cases e with
  | put box b => exact sum_at h [b] a
  | took box items => exact sum_const_zero
  | copied box new items =>
    have hcopy : ∑ o ∈ range n, ((Entry.copied box new items).brings o).count a =
        items.count a := sum_at h.2 items a
    rw [hcopy]
    exact (Nat.zero_add _).symm

theorem sum_takes {e : Entry α} {n : Nat} (h : e.Below n) (a : α) :
    ∑ o ∈ range n, (e.takes o).count a = e.outs.count a := by
  cases e with
  | put box b => exact sum_const_zero
  | took box items => exact sum_at h items a
  | copied box new items => exact sum_const_zero

theorem sum_brought {n : Nat} (h : ∀ e ∈ ledger, e.Below n) (a : α) :
    ∑ o ∈ range n, (brought o ledger).count a =
      (puts ledger).count a + (copies ledger).count a := by
  induction ledger with
  | nil => exact sum_const_zero
  | cons e ledger ih =>
    obtain ⟨he, hrest⟩ := List.forall_mem_cons.mp h
    unfold brought puts copies at ih ⊢
    simp only [List.flatMap_cons, List.count_append, sum_add_distrib]
    rw [sum_brings he, ih hrest]
    omega

theorem sum_gone {n : Nat} (h : ∀ e ∈ ledger, e.Below n) (a : α) :
    ∑ o ∈ range n, (gone o ledger).count a = (outs ledger).count a := by
  induction ledger with
  | nil => exact sum_const_zero
  | cons e ledger ih =>
    obtain ⟨he, hrest⟩ := List.forall_mem_cons.mp h
    unfold gone outs at ih ⊢
    simp only [List.flatMap_cons, List.count_append, sum_add_distrib]
    rw [sum_takes he, ih hrest]

theorem sum_held (boxes : List (List α)) (a : α) :
    ∑ o ∈ range boxes.length, (boxes[o]?.getD []).count a = boxes.flatten.count a := by
  induction boxes with
  | nil => rfl
  | cons items boxes ih =>
    rw [List.length_cons, sum_range_succ', List.flatten_cons, List.count_append, ← ih, Nat.add_comm]
    rfl

/-- Every copy of an item has gone or is held; there is one for each time it was put and one for
each copy that was made of a box that held it. -/
theorem count_eq (h : Balanced boxes ledger) (a : α) :
    (outs ledger).count a + boxes.flatten.count a =
      (puts ledger).count a + (copies ledger).count a := by
  rw [← sum_brought h.below, ← sum_gone h.below, ← sum_held, ← sum_add_distrib]
  apply sum_congr rfl
  intro o ho
  have hget := List.getElem?_eq_getElem (mem_range.mp ho)
  rw [h.order o _ hget, List.count_append, hget]
  rfl

end Count

end Balanced

end Outbox
