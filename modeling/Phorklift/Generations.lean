import Mathlib.Data.List.Induction
import Mathlib.Logic.Function.Basic

/-! Keys that are held in two generations, and which of them were used since the turn before the
last one. -/

namespace Generations

variable {κ : Type*} [DecidableEq κ]

@[ext]
structure TwoGen (κ : Type*) where
  current : κ → Bool
  last : κ → Bool

/-- `find` moves a key from the last generation to the current one, where it can. -/
inductive Op (κ : Type*)
  | put (k : κ)
  | find (k : κ) (moves : Bool)
  | drop (k : κ)
  | turn
  | stay

namespace TwoGen

def empty : TwoGen κ := ⟨fun _ => false, fun _ => false⟩

def step (s : TwoGen κ) : Op κ → TwoGen κ
  | .put k => { s with current := Function.update s.current k true }
  | .find k moves =>
    if s.current k = false ∧ s.last k = true ∧ moves = true then
      ⟨Function.update s.current k true, Function.update s.last k false⟩
    else s
  | .drop k => { s with current := Function.update s.current k false }
  | .turn => ⟨fun _ => false, s.current⟩
  | .stay => s

def run (word : List (Op κ)) : TwoGen κ := word.foldl step empty

def Held (s : TwoGen κ) (k : κ) : Prop := s.current k = true ∨ s.last k = true

/-- What brings a key to the current generation, or finds it there. -/
def Uses (s : TwoGen κ) (k : κ) : Op κ → Prop
  | .put k' => k' = k
  | .find k' moves => k' = k ∧ (s.current k = true ∨ s.last k = true ∧ moves = true)
  | _ => False

end TwoGen

def Op.isTurn : Op κ → Bool
  | .turn => true
  | _ => false

def turns (word : List (Op κ)) : Nat := word.countP Op.isTurn

/-- The key is used with at most `n` turns after it. -/
def UsedWithin (n : Nat) (k : κ) (word : List (Op κ)) : Prop :=
  ∃ pre op post, word = pre ++ op :: post ∧ (TwoGen.run pre).Uses k op ∧ turns post ≤ n

variable {k : κ} {s : TwoGen κ} {op : Op κ} {word post : List (Op κ)} {n : Nat}

theorem step_put (s : TwoGen κ) (k : κ) :
    s.step (.put k) = ⟨Function.update s.current k true, s.last⟩ := rfl

theorem step_drop (s : TwoGen κ) (k : κ) :
    s.step (.drop k) = ⟨Function.update s.current k false, s.last⟩ := rfl

theorem step_turn (s : TwoGen κ) : s.step .turn = ⟨fun _ => false, s.current⟩ := rfl

theorem step_find {moves : Bool} (h : s.current k = false ∧ s.last k = true ∧ moves = true) :
    s.step (.find k moves) = ⟨Function.update s.current k true, Function.update s.last k false⟩ :=
  if_pos h

theorem step_find_same {moves : Bool}
    (h : ¬(s.current k = false ∧ s.last k = true ∧ moves = true)) :
    s.step (.find k moves) = s := if_neg h

theorem run_concat (word : List (Op κ)) (op : Op κ) :
    TwoGen.run (word ++ [op]) = (TwoGen.run word).step op := by
  unfold TwoGen.run
  rw [List.foldl_append]
  rfl

omit [DecidableEq κ] in
theorem turns_concat (word : List (Op κ)) (op : Op κ) :
    turns (word ++ [op]) = turns word + if op.isTurn = true then 1 else 0 := by
  unfold turns
  rw [List.countP_append, List.countP_singleton]

theorem UsedWithin.concat (h : UsedWithin n k word) (op : Op κ) :
    UsedWithin (n + if op.isTurn = true then 1 else 0) k (word ++ [op]) := by
  obtain ⟨pre, first, post, rfl, huse, hturns⟩ := h
  refine ⟨pre, first, post ++ [op], by simp, huse, ?_⟩
  rw [turns_concat]
  omega

theorem UsedWithin.last (h : (TwoGen.run word).Uses k op) : UsedWithin n k (word ++ [op]) :=
  ⟨word, op, [], rfl, h, Nat.zero_le n⟩

theorem UsedWithin.mono {m : Nat} (h : UsedWithin n k word) (hle : n ≤ m) :
    UsedWithin m k word := by
  obtain ⟨pre, op, post, hword, huse, hturns⟩ := h
  exact ⟨pre, op, post, hword, huse, Nat.le_trans hturns hle⟩

/-- An operation that is no turn puts nothing into the current generation but what it uses. -/
theorem step_current (hop : op.isTurn = false) (h : (s.step op).current k = true) :
    s.current k = true ∨ s.Uses k op := by
  cases op with
  | put k' =>
    by_cases hk : k = k'
    · exact .inr hk.symm
    · rw [step_put] at h
      simp only [Function.update_of_ne hk] at h
      exact .inl h
  | find k' moves =>
    by_cases hmove : s.current k' = false ∧ s.last k' = true ∧ moves = true
    · rw [step_find hmove] at h
      by_cases hk : k = k'
      · subst hk
        exact .inr ⟨rfl, .inr hmove.2⟩
      · simp only [Function.update_of_ne hk] at h
        exact .inl h
    · rw [step_find_same hmove] at h
      exact .inl h
  | drop k' =>
    rw [step_drop] at h
    by_cases hk : k = k'
    · subst hk
      simp at h
    · simp only [Function.update_of_ne hk] at h
      exact .inl h
  | turn => cases hop
  | stay => exact .inl h

theorem step_last (hop : op.isTurn = false) (h : (s.step op).last k = true) : s.last k = true := by
  cases op with
  | put | drop | stay => exact h
  | turn => cases hop
  | find k' moves =>
    by_cases hmove : s.current k' = false ∧ s.last k' = true ∧ moves = true
    · rw [step_find hmove] at h
      by_cases hk : k = k'
      · subst hk
        simp at h
      · simp only [Function.update_of_ne hk] at h
        exact h
    · rw [step_find_same hmove] at h
      exact h

/-- What is in the current generation was used since the last turn, what is in the last one since
the turn before it. -/
theorem run_used (word : List (Op κ)) (k : κ) :
    ((TwoGen.run word).current k = true → UsedWithin 0 k word) ∧
      ((TwoGen.run word).last k = true → UsedWithin 1 k word) := by
  induction word using List.reverseRecOn with
  | nil => exact ⟨nofun, nofun⟩
  | append_singleton word op ih =>
    rw [run_concat]
    cases hop : op.isTurn with
    | true =>
      cases op with
      | turn => exact ⟨nofun, fun h => (ih.1 h).concat .turn⟩
      | put | find | drop | stay => cases hop
    | false =>
      have hkeep {n : Nat} (h : UsedWithin n k word) : UsedWithin n k (word ++ [op]) := by
        have hconcat := h.concat op
        rw [hop] at hconcat
        exact hconcat
      refine ⟨fun h => ?_, fun h => hkeep (ih.2 (step_last hop h))⟩
      rcases step_current hop h with hold | huse
      · exact hkeep (ih.1 hold)
      · exact .last huse

theorem used_of_held (h : (TwoGen.run word).Held k) : UsedWithin 1 k word := by
  rcases h with hcurrent | hlast
  · exact ((run_used word k).1 hcurrent).mono (Nat.zero_le 1)
  · exact (run_used word k).2 hlast

theorem uses_current (h : s.Uses k op) : (s.step op).current k = true := by
  cases op with
  | put k' =>
    cases h
    rw [step_put]
    simp
  | find k' moves =>
    obtain ⟨rfl, h⟩ := h
    by_cases hmove : s.current k' = false ∧ s.last k' = true ∧ moves = true
    · rw [step_find hmove]
      simp
    · rw [step_find_same hmove]
      rcases h with hcurrent | hlast
      · exact hcurrent
      · cases hc : s.current k' with
        | true => rfl
        | false => exact absurd ⟨hc, hlast⟩ hmove
  | drop | turn | stay => exact h.elim

theorem current_step (hop : op.isTurn = false) (hdrop : op ≠ .drop k) (h : s.current k = true) :
    (s.step op).current k = true := by
  cases op with
  | put k' =>
    rw [step_put]
    by_cases hk : k = k'
    · simp [hk]
    · simp [Function.update_of_ne hk, h]
  | find k' moves =>
    by_cases hmove : s.current k' = false ∧ s.last k' = true ∧ moves = true
    · rw [step_find hmove]
      by_cases hk : k = k'
      · simp [hk]
      · simp [Function.update_of_ne hk, h]
    · rw [step_find_same hmove]
      exact h
  | drop k' =>
    have hk : k ≠ k' := fun hk => hdrop (by rw [hk])
    rw [step_drop]
    simp [Function.update_of_ne hk, h]
  | turn => cases hop
  | stay => exact h

theorem held_step (hop : op.isTurn = false) (hdrop : op ≠ .drop k) (h : s.Held k) :
    (s.step op).Held k := by
  rcases h with hcurrent | hlast
  · exact .inl (current_step hop hdrop hcurrent)
  · cases op with
    | put | drop | stay => exact .inr hlast
    | turn => cases hop
    | find k' moves =>
      by_cases hmove : s.current k' = false ∧ s.last k' = true ∧ moves = true
      · rw [step_find hmove]
        by_cases hk : k = k'
        · exact .inl (by simp [hk])
        · exact .inr (by simp [Function.update_of_ne hk, hlast])
      · rw [step_find_same hmove]
        exact .inr hlast

theorem foldl_held (hdrop : .drop k ∉ post) (h : s.current k = true) :
    (turns post = 0 → (post.foldl TwoGen.step s).current k = true) ∧
      (turns post ≤ 1 → (post.foldl TwoGen.step s).Held k) := by
  induction post using List.reverseRecOn with
  | nil => exact ⟨fun _ => h, fun _ => .inl h⟩
  | append_singleton post op ih =>
    rw [List.mem_append, not_or, List.mem_singleton] at hdrop
    obtain ⟨hcurrent, hheld⟩ := ih hdrop.1
    rw [turns_concat, List.foldl_append]
    show (_ → (((post.foldl TwoGen.step s).step op).current k = true)) ∧
      (_ → ((post.foldl TwoGen.step s).step op).Held k)
    cases hop : op.isTurn with
    | false =>
      exact ⟨fun h => current_step hop (Ne.symm hdrop.2) (hcurrent (by simpa using h)),
        fun h => held_step hop (Ne.symm hdrop.2) (hheld (by simpa using h))⟩
    | true =>
      refine ⟨fun h => absurd h (by simp), fun h => ?_⟩
      have hzero : turns post = 0 := by simpa using h
      cases op with
      | turn => exact .inr (hcurrent hzero)
      | put | find | drop | stay => cases hop

/-- A key stays held over one turn after its use, unless it is dropped. -/
theorem held_of_used {pre : List (Op κ)} (h : (TwoGen.run pre).Uses k op) (hturns : turns post ≤ 1)
    (hdrop : .drop k ∉ post) : (TwoGen.run (pre ++ op :: post)).Held k := by
  have hrun : TwoGen.run (pre ++ op :: post) =
      post.foldl TwoGen.step ((TwoGen.run pre).step op) := by
    unfold TwoGen.run
    rw [List.foldl_append, List.foldl_cons]
  rw [hrun]
  exact (foldl_held hdrop (uses_current h)).2 hturns

end Generations
