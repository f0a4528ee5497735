import Mathlib.Data.List.Induction
import Mathlib.Order.Lattice

/-! The members of a list with the least key, and one pass that keeps the first of them and the last
one that ties with it. -/

namespace Least

variable {α β : Type*} [LinearOrder β] (key : α → β)

def least (l : List α) : List α := l.filter fun a => ∀ b ∈ l, key a ≤ key b

/-- The leader and the last one with the same key, before and after a member. -/
def track (s : Option α × Option α) (x : α) : Option α × Option α :=
  match s.1 with
  | none => (some x, s.2)
  | some a =>
    if key x = key a then (some a, some x)
    else if key x < key a then (some x, none)
    else s

variable {key} {l : List α} {a x : α}

theorem mem_least : a ∈ least key l ↔ a ∈ l ∧ ∀ b ∈ l, key a ≤ key b := by
  unfold least
  rw [List.mem_filter, decide_eq_true_iff]

theorem least_singleton (x : α) : least key [x] = [x] := by
  apply List.filter_eq_self.mpr
  intro a ha
  obtain rfl := List.mem_singleton.mp ha
  apply decide_eq_true
  intro b hb
  rw [List.mem_singleton.mp hb]

theorem least_concat (l : List α) (x : α) :
    least key (l ++ [x]) = (l.filter fun c => (∀ b ∈ l, key c ≤ key b) ∧ key c ≤ key x) ++
      if ∀ b ∈ l, key x ≤ key b then [x] else [] := by
  have hall (c : α) : (∀ b ∈ l ++ [x], key c ≤ key b) ↔
      (∀ b ∈ l, key c ≤ key b) ∧ key c ≤ key x := by
    rw [List.forall_mem_append]
    exact and_congr_right fun _ => List.forall_mem_singleton
  unfold least
  simp only [hall]
  rw [List.filter_append, List.filter_cons, List.filter_nil]
  congr 1
  by_cases h : ∀ b ∈ l, key x ≤ key b
  · rw [if_pos h, if_pos (decide_eq_true ⟨h, le_refl _⟩)]
  · rw [if_neg h, if_neg fun hx => h (of_decide_eq_true hx).1]

theorem least_concat_eq (ha : a ∈ least key l) (h : key x = key a) :
    least key (l ++ [x]) = least key l ++ [x] := by
  obtain ⟨hal, hmin⟩ := mem_least.mp ha
  have hx : ∀ b ∈ l, key x ≤ key b := fun b hb => h ▸ hmin b hb
  rw [least_concat, if_pos hx]
  unfold least
  congr 1
  apply List.filter_congr
  intro c _
  apply decide_eq_decide.mpr
  exact and_iff_left_of_imp fun hc => h ▸ hc a hal

theorem least_concat_lt (ha : a ∈ least key l) (h : key x < key a) :
    least key (l ++ [x]) = [x] := by
  obtain ⟨-, hmin⟩ := mem_least.mp ha
  have hx : ∀ b ∈ l, key x ≤ key b := fun b hb => le_of_lt (lt_of_lt_of_le h (hmin b hb))
  have hnone : (l.filter fun c => (∀ b ∈ l, key c ≤ key b) ∧ key c ≤ key x) = [] := by
    apply List.filter_eq_nil_iff.mpr
    intro c hc hkeys
    have hle := (of_decide_eq_true hkeys).2
    exact absurd (lt_of_le_of_lt hle h) (not_lt_of_ge (hmin c hc))
  rw [least_concat, if_pos hx, hnone]
  rfl

theorem least_concat_gt (ha : a ∈ least key l) (h : key a < key x) :
    least key (l ++ [x]) = least key l := by
  obtain ⟨hal, -⟩ := mem_least.mp ha
  have hx : ¬∀ b ∈ l, key x ≤ key b := fun hx => absurd h (not_lt_of_ge (hx a hal))
  rw [least_concat, if_neg hx, List.append_nil]
  unfold least
  apply List.filter_congr
  intro c _
  apply decide_eq_decide.mpr
  exact and_iff_left_of_imp fun hc => le_of_lt (lt_of_le_of_lt (hc a hal) h)

theorem least_eq_nil : least key l = [] ↔ l = [] := by
  constructor
  · induction l using List.reverseRecOn with
    | nil => exact fun _ => rfl
    | append_singleton l x ih =>
      intro hnil
      cases hleast : least key l with
      | nil =>
        rw [ih hleast, List.nil_append, least_singleton] at hnil
        exact absurd hnil (List.cons_ne_nil x [])
      | cons a rest =>
        have ha : a ∈ least key l := hleast ▸ List.mem_cons_self
        rcases lt_trichotomy (key x) (key a) with hlt | heq | hgt
        · rw [least_concat_lt ha hlt] at hnil
          exact absurd hnil (List.cons_ne_nil x [])
        · rw [least_concat_eq ha heq] at hnil
          exact absurd hnil (List.concat_ne_nil x _)
        · rw [least_concat_gt ha hgt, hleast] at hnil
          exact absurd hnil (List.cons_ne_nil a rest)
  · rintro rfl
    rfl

/-- A pass has the first one with the least key, and the last one of the others with that key. -/
theorem foldl_track (l : List α) :
    l.foldl (track key) (none, none) =
      ((least key l).head?, (least key l).tail.getLast?) := by
  induction l using List.reverseRecOn with
  | nil => rfl
  | append_singleton l x ih =>
    rw [List.foldl_append, ih]
    show track key _ x = _
    cases hleast : least key l with
    | nil =>
      rw [least_eq_nil.mp hleast, List.nil_append, least_singleton]
      rfl
    | cons a rest =>
      have ha : a ∈ least key l := hleast ▸ List.mem_cons_self
      unfold track
      dsimp only [List.head?_cons]
      rcases lt_trichotomy (key x) (key a) with hlt | heq | hgt
      · rw [if_neg (ne_of_lt hlt), if_pos hlt, least_concat_lt ha hlt]
        rfl
      · rw [if_pos heq, least_concat_eq ha heq, hleast]
        simp
      · rw [if_neg (ne_of_gt hgt), if_neg (not_lt_of_gt hgt), least_concat_gt ha hgt, hleast]
        rfl

end Least
