import Mathlib.Data.List.Infix

/-! Parsers that are called again with what they have left and what has come since. -/

namespace Resumable

/-- What a parser comes to on the items at hand, and how many of them it has used. -/
inductive Verdict (S : Type*)
  | failed (s : S)
  | waiting (s : S) (used : Nat)
  | finished (s : S) (used : Nat)

namespace Verdict

variable {S : Type*}

def Ends : Verdict S → Prop
  | waiting _ _ => False
  | _ => True

instance (v : Verdict S) : Decidable v.Ends :=
  match v with
  | failed _ => .isTrue trivial
  | waiting _ _ => .isFalse not_false
  | finished _ _ => .isTrue trivial

def state : Verdict S → S
  | failed s => s
  | waiting s _ => s
  | finished s _ => s

/-- `n` more items have been used before. -/
def after (n : Nat) : Verdict S → Verdict S
  | failed s => failed s
  | waiting s used => waiting s (n + used)
  | finished s used => finished s (n + used)

theorem after_after (m n : Nat) (v : Verdict S) : (v.after n).after m = v.after (m + n) := by
  cases v with
  | failed => rfl
  | waiting => simp only [after, Nat.add_assoc]
  | finished => simp only [after, Nat.add_assoc]

theorem after_zero (v : Verdict S) : v.after 0 = v := by
  cases v with
  | failed => rfl
  | waiting => simp only [after, Nat.zero_add]
  | finished => simp only [after, Nat.zero_add]

theorem after_eq_waiting {v : Verdict S} {m n : Nat} {s : S} (h : v.after m = waiting s n) :
    ∃ k, v = waiting s k ∧ n = m + k := by
  cases v with
  | failed => cases h
  | waiting s k =>
    cases h
    exact ⟨k, rfl, rfl⟩
  | finished => cases h

theorem state_after (n : Nat) (v : Verdict S) : (v.after n).state = v.state := by
  cases v <;> rfl

theorem ends_after {n : Nat} {v : Verdict S} : (v.after n).Ends ↔ v.Ends := by
  cases v <;> exact Iff.rfl

theorem waiting_of_not_ends {v : Verdict S} (h : ¬v.Ends) : ∃ s n, v = waiting s n := by
  cases v with
  | failed => exact (h trivial).elim
  | waiting s n => exact ⟨s, n, rfl⟩
  | finished => exact (h trivial).elim

end Verdict

variable {S β : Type*} {parse : S → List β → Verdict S} {Good : S → List β → Prop}

/-- Whatever comes later, the parser stays with what it has said; and where it waits, it goes on
as if it had been given all at once. -/
structure Resumes (parse : S → List β → Verdict S) (Good : S → List β → Prop) : Prop where
  settled : ∀ {s xs}, Good s xs → (parse s xs).Ends → ∀ ys, parse s (xs ++ ys) = parse s xs
  resumed : ∀ {s s' xs n}, Good s xs → parse s xs = .waiting s' n →
    n ≤ xs.length ∧ ∀ ys, parse s (xs ++ ys) = (parse s' (xs.drop n ++ ys)).after n
  goes : ∀ {s s' xs ys n}, Good s xs → Good s (xs ++ ys) → parse s xs = .waiting s' n →
    Good s' (xs.drop n ++ ys)

/-- A first part of the whole that the parser comes to an end on, whatever follows. -/
structure Block (parse : S → List β → Verdict S) (s : S) (whole block : List β) : Prop where
  isPrefix : block <+: whole
  ends : (parse s block).Ends
  settled : ∀ ys, parse s (block ++ ys) = parse s block

namespace Block

variable {s s' : S} {whole block xs ys : List β} {n : Nat}

theorem whole_eq (h : Block parse s whole block) : parse s whole = parse s block := by
  obtain ⟨rest, hrest⟩ := h.isPrefix
  rw [← hrest]
  exact h.settled rest

/-- All that holds the block ends as the block does. -/
theorem of_le (h : Block parse s whole block) (hxs : xs <+: whole)
    (hlen : block.length ≤ xs.length) : parse s xs = parse s block := by
  obtain ⟨rest, hrest⟩ := List.prefix_of_prefix_length_le h.isPrefix hxs hlen
  rw [← hrest]
  exact h.settled rest

theorem of_ends (hparse : Resumes parse Good) (h : Block parse s whole block)
    (hxs : xs <+: whole) (hgood : Good s xs) (hends : (parse s xs).Ends) :
    parse s xs = parse s block := by
  obtain ⟨rest, hrest⟩ := hxs
  have hwhole := hparse.settled hgood hends rest
  rw [hrest, h.whole_eq] at hwhole
  exact hwhole.symm

/-- Where the parser waits the block goes on, and its rest is a block of what is left. -/
theorem of_waiting (hparse : Resumes parse Good) (h : Block parse s (xs ++ ys) block)
    (hgood : Good s xs) (hwaits : parse s xs = .waiting s' n) :
    ∃ rest, block = xs ++ rest ∧ rest ≠ [] ∧ Block parse s' (xs.drop n ++ ys) (xs.drop n ++ rest) ∧
      parse s block = (parse s' (xs.drop n ++ rest)).after n := by
  have hlt : xs.length < block.length := by
    by_contra hle
    have hends := h.ends
    rw [← h.of_le (List.prefix_append xs ys) (by omega), hwaits] at hends
    exact hends
  obtain ⟨rest, hrest⟩ :=
    List.prefix_of_prefix_length_le (List.prefix_append xs ys) h.isPrefix (by omega)
  subst hrest
  obtain ⟨hle, hresumed⟩ := hparse.resumed hgood hwaits
  have hne : rest ≠ [] := by
    intro hnil
    rw [hnil, List.append_nil] at hlt
    omega
  refine ⟨rest, rfl, hne, ⟨?_, ?_, ?_⟩, hresumed rest⟩
  · have hrest : rest <+: ys := (List.prefix_append_right_inj xs).mp h.isPrefix
    exact (List.prefix_append_right_inj _).mpr hrest
  · have hends := h.ends
    rw [hresumed] at hends
    exact Verdict.ends_after.mp hends
  · intro more
    have hsettled := h.settled more
    rw [List.append_assoc, hresumed, hresumed] at hsettled
    rw [List.append_assoc]
    generalize parse s' (xs.drop n ++ (rest ++ more)) = v at hsettled
    generalize parse s' (xs.drop n ++ rest) = v' at hsettled
    cases v <;> cases v' <;> simp_all [Verdict.after]

end Block

end Resumable
