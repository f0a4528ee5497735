import Mathlib.Algebra.BigOperators.Group.List.Basic
import Mathlib.Tactic.Abel
import Phorklift.Transition

/-! A total that several agents add to, one addition at a time, by a plan for each task. -/

namespace Tally

open Transition

/-- Each agent has what it still has to add. -/
structure World (G ε ρ : Type*) where
  total : G
  rests : List (List ε)
  /-- what the agents that have ended did not add -/
  lost : List (List ε)
  tasks : List ρ

inductive Act (ρ : Type*)
  | join
  | take (i : Nat) (task : ρ)
  | add (i : Nat)
  | leave (i : Nat)

section Act

variable {G ε ρ : Type*} [AddCommMonoid G]

def act (val : ε → G) (plan : ρ → List ε) (w : World G ε ρ) : Act ρ → Option (World G ε ρ)
  | .join => some { w with rests := w.rests ++ [[]] }
  | .take i task =>
    match w.rests[i]? with
    | some [] => some { w with rests := w.rests.set i (plan task), tasks := w.tasks ++ [task] }
    | _ => none
  | .add i =>
    match w.rests[i]? with
    | some (e :: rest) => some { w with total := w.total + val e, rests := w.rests.set i rest }
    | _ => none
  | .leave i =>
    match w.rests[i]? with
    | some rest => some { w with rests := w.rests.eraseIdx i, lost := w.lost ++ [rest] }
    | none => none

def World.start : World G ε ρ := ⟨0, [], [], []⟩

/-- What is not added yet, or never will be. -/
def World.pending (w : World G ε ρ) : List (List ε) := w.rests ++ w.lost

/-- No agent is in a task, and none has ended in one. -/
def World.AtRest (w : World G ε ρ) : Prop := ∀ rest ∈ w.pending, rest = []

/-- What is left of a task, if anything is. -/
def Part (plan : ρ → List ε) (tasks : List ρ) (rest : List ε) : Prop :=
  rest = [] ∨ ∃ t ∈ tasks, rest <:+ plan t

def weight (val : ε → G) (adds : List ε) : G := (adds.map val).sum

/-- What has been added and what is open make up the tasks. -/
structure Balanced (val : ε → G) (plan : ρ → List ε) (w : World G ε ρ) : Prop where
  total : w.total + (w.pending.map (weight val)).sum =
    (w.tasks.map fun t => weight val (plan t)).sum
  parts : ∀ rest ∈ w.pending, Part plan w.tasks rest

end Act

section Balance

variable {G ε ρ : Type*} [AddCommMonoid G] {val : ε → G} {plan : ρ → List ε} {w w' : World G ε ρ}
  {acts : List (Act ρ)} {rests : List (List ε)} {rest : List ε} {i : Nat}

theorem weight_cons (e : ε) (adds : List ε) : weight val (e :: adds) = val e + weight val adds :=
  List.sum_cons

theorem weight_append (adds more : List ε) :
    weight val (adds ++ more) = weight val adds + weight val more := by
  rw [weight, List.map_append, List.sum_append]
  rfl

/-- An agent among the others. -/
theorem exists_others (h : rests[i]? = some rest) : ∃ before after,
    rests = before ++ rest :: after ∧ (∀ new, rests.set i new = before ++ new :: after) ∧
      rests.eraseIdx i = before ++ after := by
  obtain ⟨hlt, hget⟩ := List.getElem?_eq_some_iff.mp h
  refine ⟨rests.take i, rests.drop (i + 1), ?_, fun new => ?_, ?_⟩
  · rw [← hget, List.getElem_cons_drop, List.take_append_drop]
  · rw [List.set_eq_take_append_cons_drop, if_pos hlt]
  · exact List.eraseIdx_eq_take_drop_succ rests i

theorem Part.snoc {tasks : List ρ} (h : Part plan tasks rest) (task : ρ) :
    Part plan (tasks ++ [task]) rest := by
  rcases h with hnil | ⟨t, ht, hpart⟩
  · exact .inl hnil
  · exact .inr ⟨t, List.mem_append_left _ ht, hpart⟩

theorem Part.tail {tasks : List ρ} {e : ε} (h : Part plan tasks (e :: rest)) :
    Part plan tasks rest := by
  rcases h with hnil | ⟨t, ht, hpart⟩
  · cases hnil
  · exact .inr ⟨t, ht, (List.suffix_cons e rest).trans hpart⟩

/-- A new rest of an agent among the others. -/
theorem forall_mem_others {P : List ε → Prop} {before after lost : List (List ε)} {new : List ε}
    (h : ∀ r ∈ before ++ rest :: after ++ lost, P r) (hnew : P new) :
    ∀ r ∈ before ++ new :: after ++ lost, P r := by
  intro r hr
  simp only [List.append_assoc, List.cons_append, List.mem_append, List.mem_cons] at hr
  rcases hr with hr | rfl | hr | hr
  · exact h r (by simp [hr])
  · exact hnew
  · exact h r (by simp [hr])
  · exact h r (by simp [hr])

/-- Whatever agents do, each in its own time. -/
theorem balanced_act (h : Balanced val plan w) (a : Act ρ) (hact : act val plan w a = some w') :
    Balanced val plan w' := by
  have htotal := h.total
  have hparts := h.parts
  unfold World.pending at htotal hparts
  cases a with
  | join =>
    cases hact
    refine ⟨?_, fun rest hrest => ?_⟩
    · simpa [World.pending, weight] using htotal
    · simp only [World.pending, List.append_assoc, List.mem_append, List.mem_singleton] at hrest
      rcases hrest with hrest | rfl | hrest
      · exact hparts rest (List.mem_append_left _ hrest)
      · exact .inl rfl
      · exact hparts rest (List.mem_append_right _ hrest)
  | take i task =>
    simp only [act] at hact
    split at hact
    next hi =>
      cases hact
      obtain ⟨before, after, hrests, hset, -⟩ := exists_others hi
      rw [hrests] at htotal hparts
      refine ⟨?_, ?_⟩
      · simp only [World.pending, hset, List.map_append, List.map_cons, List.map_nil,
          List.sum_append, List.sum_cons, List.sum_nil, add_zero] at htotal ⊢
        have hnil : weight val [] = 0 := rfl
        rw [← htotal, hnil]
        abel
      · simp only [World.pending, hset]
        have hmore := fun r hr => (hparts r hr).snoc task
        exact forall_mem_others hmore (.inr ⟨task, by simp, List.suffix_refl _⟩)
    next => cases hact
  | add i =>
    simp only [act] at hact
    split at hact
    next e rest hi =>
      cases hact
      obtain ⟨before, after, hrests, hset, -⟩ := exists_others hi
      rw [hrests] at htotal hparts
      refine ⟨?_, ?_⟩
      · simp only [World.pending, hset, List.map_append, List.map_cons, List.sum_append,
          List.sum_cons] at htotal ⊢
        rw [← htotal, weight_cons]
        abel
      · simp only [World.pending, hset]
        exact forall_mem_others hparts (hparts (e :: rest) (by simp)).tail
    next => cases hact
  | leave i =>
    simp only [act] at hact
    split at hact
    next rest hi =>
      cases hact
      obtain ⟨before, after, hrests, -, herase⟩ := exists_others hi
      have hperm : (before ++ after ++ (w.lost ++ [rest])).Perm (w.rests ++ w.lost) := by
        rw [hrests]
        simp only [List.append_assoc, List.cons_append]
        refine List.Perm.append_left before ?_
        rw [← List.append_assoc]
        exact List.perm_append_singleton rest (after ++ w.lost)
      refine ⟨?_, fun r hr => ?_⟩
      · simp only [World.pending, herase]
        rw [(hperm.map _).sum_eq]
        exact htotal
      · simp only [World.pending, herase] at hr
        exact hparts r (hperm.mem_iff.mp hr)
    next => cases hact

theorem balanced_start : Balanced val plan (World.start : World G ε ρ) where
  total := by simp [World.start, World.pending]
  parts := by simp [World.start, World.pending]

theorem balanced_run (hw : Balanced val plan w) (h : runActs (act val plan) acts w = some w') :
    Balanced val plan w' := by
  induction acts generalizing w with
  | nil =>
    cases h
    exact hw
  | cons a acts ih =>
    obtain ⟨u, hact, h⟩ := Option.bind_eq_some_iff.mp h
    exact ih (balanced_act hw a hact) h

end Balance

section Measure

variable {G H ε ρ : Type*} [AddCommMonoid G] [AddCommMonoid H] {val : ε → G} {plan : ρ → List ε}
  {w : World G ε ρ}

theorem map_weight (f : G →+ H) (adds : List ε) :
    f (weight val adds) = (adds.map fun e => f (val e)).sum := by
  rw [weight, map_list_sum, List.map_map]
  rfl

theorem map_weight_zero (f : G →+ H) {adds : List ε} (h : ∀ e ∈ adds, f (val e) = 0) :
    f (weight val adds) = 0 := by
  rw [map_weight]
  apply List.sum_eq_zero
  intro x hx
  obtain ⟨e, he, rfl⟩ := List.mem_map.mp hx
  exact h e he

/-- A measure of the total and of what is pending is that of the tasks. -/
theorem Balanced.measure (h : Balanced val plan w) (f : G →+ H) :
    f w.total + (w.pending.map fun rest => f (weight val rest)).sum =
      (w.tasks.map fun t => f (weight val (plan t))).sum := by
  have hsum := congrArg f h.total
  rw [map_add, map_list_sum, map_list_sum, List.map_map, List.map_map] at hsum
  exact hsum

/-- At rest nothing is pending. -/
theorem Balanced.measure_rest (h : Balanced val plan w) (hrest : w.AtRest) (f : G →+ H) :
    f w.total = (w.tasks.map fun t => f (weight val (plan t))).sum := by
  have hsum := h.measure f
  have hzero : (w.pending.map fun rest => f (weight val rest)).sum = 0 := by
    apply List.sum_eq_zero
    intro x hx
    obtain ⟨rest, hr, rfl⟩ := List.mem_map.mp hx
    rw [hrest rest hr]
    exact map_zero f
  rwa [hzero, add_zero] at hsum

end Measure

end Tally
