import Mathlib.Data.List.Basic
import Mathlib.Data.List.TakeWhile

/-! How long ago an event last had a property, and queues that are cleared from their head. -/

namespace Recency

section Events

variable {α : Type} {p q : α → Bool} {past : List α}

/-- The number of events, newest first, since the last one with the property. -/
def age (past : List α) (p : α → Bool) : Nat := past.findIdx p

/-- The events since the last one with the property. -/
def since (past : List α) (p : α → Bool) : List α := past.takeWhile fun a => !p a

theorem age_cons_pos {a : α} (h : p a = true) : age (a :: past) p = 0 := by
  unfold age
  rw [List.findIdx_cons, h]
  rfl

theorem age_cons_neg {a : α} (h : p a = false) : age (a :: past) p = age past p + 1 := by
  unfold age
  rw [List.findIdx_cons, h]
  rfl

theorem age_lt_iff : age past q < age past p ↔ ∃ a ∈ since past p, q a = true := by
  induction past with
  | nil => simp [age, since]
  | cons a past ih =>
    cases hp : p a with
    | true =>
      rw [age_cons_pos hp]
      simp [since, hp]
    | false =>
      rw [age_cons_neg hp]
      have hsince : since (a :: past) p = a :: since past p := by simp [since, hp]
      rw [hsince]
      cases hq : q a with
      | true =>
        rw [age_cons_pos hq]
        have hlt : 0 < age past p + 1 := by omega
        exact iff_of_true hlt ⟨a, List.mem_cons_self, hq⟩
      | false =>
        rw [age_cons_neg hq]
        simp only [List.mem_cons, exists_eq_or_imp, hq, Bool.false_eq_true, false_or]
        rw [← ih]
        omega

/-- Two properties that no event has both were not met last at one time. -/
theorem age_ne (hapart : ∀ a, p a = true → q a = false) (h : ∃ a ∈ past, p a = true) :
    age past q ≠ age past p := by
  induction past with
  | nil => simp at h
  | cons a past ih =>
    cases hp : p a with
    | true =>
      rw [age_cons_pos hp, age_cons_neg (hapart a hp)]
      omega
    | false =>
      rw [age_cons_neg hp]
      cases hq : q a with
      | true =>
        rw [age_cons_pos hq]
        omega
      | false =>
        have hrest : ∃ a ∈ past, p a = true := by
          obtain ⟨b, hb, hpb⟩ := h
          rcases List.mem_cons.mp hb with rfl | hb
          · rw [hp] at hpb
            cases hpb
          · exact ⟨b, hb, hpb⟩
        have hne := ih hrest
        rw [age_cons_neg hq]
        omega

end Events

section Queue

variable {α : Type} {p : α → Bool} {l : List α}

/-- What is to be kept stays. -/
theorem mem_dropWhile_of_not {a : α} (ha : a ∈ l) (hp : p a = false) : a ∈ l.dropWhile p := by
  rw [← @List.takeWhile_append_dropWhile _ p l, List.mem_append] at ha
  rcases ha with ha | ha
  · have htrue := List.mem_takeWhile_imp ha
    rw [hp] at htrue
    cases htrue
  · exact ha

/-- Clearing a queue from its head clears all of it where nothing to be cleared stands behind
something to be kept. -/
theorem dropWhile_clears_iff :
    (∀ a ∈ l.dropWhile p, p a = false) ↔ l.Pairwise fun a b => p b = true → p a = true := by
  induction l with
  | nil => simp
  | cons a l ih =>
    rw [List.pairwise_cons]
    by_cases ha : p a = true
    · rw [List.dropWhile_cons_of_pos ha, ih]
      exact (and_iff_right fun _ _ _ => ha).symm
    · rw [List.dropWhile_cons_of_neg ha]
      have hfalse : p a = false := by simpa using ha
      constructor
      · intro h
        have hnone : ∀ b ∈ l, p b = false := fun b hb => h b (List.mem_cons_of_mem _ hb)
        refine ⟨fun b hb hpb => ?_, ih.mp fun b hb => ?_⟩
        · rw [hnone b hb] at hpb
          cases hpb
        · exact hnone b ((List.dropWhile_sublist p).subset hb)
      · rintro ⟨hfirst, -⟩ b hb
        rcases List.mem_cons.mp hb with rfl | hb
        · exact hfalse
        · rw [Bool.eq_false_iff]
          exact fun hpb => ha (hfirst b hb hpb)

end Queue

end Recency
