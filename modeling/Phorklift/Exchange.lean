import Mathlib.Data.List.Basic
import Mathlib.Data.List.Perm.Basic

/-! Clients that ask a server one question at a time, and the messages that are on their way. A
message may be lost; none is doubled. -/

namespace Exchange

/-- The questions in the order in which the server takes them, and the answers, each with the
question that it is for. -/
structure Post (ι Q R : Type*) where
  questions : List (ι × Q)
  answers : List (ι × Q × R)

variable {ι Q R : Type*} [DecidableEq ι]

namespace Post

def empty : Post ι Q R := ⟨[], []⟩

/-- What the messages between a client and the server are about. -/
def about (p : Post ι Q R) (i : ι) : List Q :=
  (p.questions.filter (·.1 = i)).map Prod.snd ++ (p.answers.filter (·.1 = i)).map fun m => m.2.1

def ask (p : Post ι Q R) (i : ι) (q : Q) : Post ι Q R :=
  { p with questions := p.questions ++ [(i, q)] }

/-- The first answer that has come for a client. -/
def receive (p : Post ι Q R) (i : ι) : Option ((Q × R) × Post ι Q R) :=
  (p.answers.find? (·.1 = i)).map fun m =>
    (m.2, { p with answers := p.answers.eraseP (·.1 = i) })

/-- There is one message at most about each client, on what the client waits for. -/
def InStep (waiting : ι → Option Q) (p : Post ι Q R) : Prop :=
  ∀ i, p.about i = [] ∨ ∃ q, waiting i = some q ∧ p.about i = [q]

variable {p p' : Post ι Q R} {waiting waiting' : ι → Option Q} {i j : ι} {q : Q} {r : R}

theorem inStep_empty (waiting : ι → Option Q) : InStep waiting (empty : Post ι Q R) :=
  fun _ => .inl rfl

/-- What happens between one client and the server does not matter to the others. -/
theorem InStep.change (h : InStep waiting p)
    (hother : ∀ j, j ≠ i → waiting' j = waiting j ∧ p'.about j = p.about j)
    (hself : p'.about i = [] ∨ ∃ q, waiting' i = some q ∧ p'.about i = [q]) :
    InStep waiting' p' := by
  intro j
  by_cases hj : j = i
  · subst hj
    exact hself
  · obtain ⟨hwaiting, habout⟩ := hother j hj
    rw [hwaiting, habout]
    exact h j

theorem about_ask_self (h : p.about i = []) (q : Q) : (p.ask i q).about i = [q] := by
  obtain ⟨hquestions, hanswers⟩ := List.append_eq_nil_iff.mp h
  unfold about ask
  dsimp only
  rw [List.filter_append, List.map_append, hquestions, hanswers]
  simp

theorem about_ask_ne (h : j ≠ i) (p : Post ι Q R) (q : Q) : (p.ask i q).about j = p.about j := by
  have hnone : [(i, q)].filter (·.1 = j) = [] := by simp [Ne.symm h]
  unfold about ask
  dsimp only
  rw [List.filter_append, hnone, List.append_nil]

/-- The server has taken the first question, and has answered it or not. -/
theorem about_served_ne {rest : List (ι × Q)} (hp : p.questions = (i, q) :: rest) (hj : j ≠ i)
    (sent : Bool) (r : R) :
    (⟨rest, p.answers ++ if sent then [(i, q, r)] else []⟩ : Post ι Q R).about j = p.about j := by
  have hquestions : p.questions.filter (·.1 = j) = rest.filter (·.1 = j) := by
    rw [hp, List.filter_cons]
    simp [Ne.symm hj]
  have hanswers : (if sent then [(i, q, r)] else []).filter (·.1 = j) = [] := by
    cases sent with
    | false => rfl
    | true => simp [Ne.symm hj]
  unfold about
  dsimp only
  rw [hquestions, List.filter_append, hanswers, List.append_nil]

theorem about_served_self {rest : List (ι × Q)} (hp : p.questions = (i, q) :: rest)
    (h : InStep waiting p) (sent : Bool) (r : R) :
    waiting i = some q ∧
      (⟨rest, p.answers ++ if sent then [(i, q, r)] else []⟩ : Post ι Q R).about i =
        if sent then [q] else [] := by
  have habout : p.about i = q :: ((rest.filter (·.1 = i)).map Prod.snd ++
      (p.answers.filter (·.1 = i)).map fun m => m.2.1) := by
    unfold about
    rw [hp, List.filter_cons]
    simp
  rcases h i with hnone | ⟨q', hwaiting, hone⟩
  · rw [habout] at hnone
    cases hnone
  · rw [habout] at hone
    obtain ⟨rfl, hrest⟩ := List.cons.inj hone
    obtain ⟨hquestions, hanswers⟩ := List.append_eq_nil_iff.mp hrest
    refine ⟨hwaiting, ?_⟩
    unfold about
    dsimp only
    rw [List.filter_append, List.map_append, hquestions, hanswers]
    cases sent with
    | false => rfl
    | true => simp

/-- A served question leaves everyone in step, whether its answer is sent or not. -/
theorem InStep.served {rest : List (ι × Q)} (h : InStep waiting p)
    (hp : p.questions = (i, q) :: rest) (sent : Bool) (r : R) :
    InStep waiting ⟨rest, p.answers ++ if sent then [(i, q, r)] else []⟩ := by
  obtain ⟨hwaiting, habout⟩ := about_served_self hp h sent r
  apply h.change (i := i)
  · exact fun j hj => ⟨rfl, about_served_ne hp hj sent r⟩
  · rw [habout]
    cases sent with
    | false => exact .inl rfl
    | true => exact .inr ⟨q, hwaiting, rfl⟩

theorem about_received_ne (h : p.receive i = some ((q, r), p')) (hj : j ≠ i) :
    p'.about j = p.about j := by
  obtain ⟨m, -, heq⟩ := Option.map_eq_some_iff.mp h
  obtain ⟨-, rfl⟩ := Prod.mk.inj heq
  have hfilter : ∀ l : List (ι × Q × R), (l.eraseP (·.1 = i)).filter (·.1 = j) =
      l.filter (·.1 = j) := by
    intro l
    induction l with
    | nil => rfl
    | cons m l ih =>
      rw [List.eraseP_cons]
      by_cases hm : m.1 = i
      · simp [hm, Ne.symm hj]
      · rw [decide_eq_false hm, cond_false, List.filter_cons, List.filter_cons, ih]
  unfold about
  dsimp only
  rw [hfilter]

/-- An answer that a client receives is for the question that it waits for, and nothing more is on
its way. -/
theorem InStep.received (h : InStep waiting p) (hp : p.receive i = some ((q, r), p')) :
    waiting i = some q ∧ p'.about i = [] := by
  obtain ⟨⟨k, q, r⟩, hm, heq⟩ := Option.map_eq_some_iff.mp hp
  cases heq
  obtain ⟨hmi, before, after, hanswers, hbefore⟩ := List.find?_eq_some_iff_append.mp hm
  obtain rfl : k = i := of_decide_eq_true hmi
  have herase : p.answers.eraseP (·.1 = k) = before ++ after := by
    rw [hanswers, List.eraseP_append_right _ (fun b hb => by simpa using hbefore b hb),
      List.eraseP_cons, decide_eq_true rfl, cond_true]
  have hfilter : p.answers.filter (·.1 = k) = (k, q, r) :: after.filter (·.1 = k) := by
    have hnone : before.filter (·.1 = k) = [] :=
      List.filter_eq_nil_iff.mpr fun b hb => by simpa using hbefore b hb
    rw [hanswers, List.filter_append, hnone, List.nil_append, List.filter_cons,
      if_pos (decide_eq_true rfl)]
  have hbefore' : (before ++ after).filter (·.1 = k) = after.filter (·.1 = k) := by
    have hnone : before.filter (·.1 = k) = [] :=
      List.filter_eq_nil_iff.mpr fun b hb => by simpa using hbefore b hb
    rw [List.filter_append, hnone, List.nil_append]
  rcases h k with hnone | ⟨q', hwaiting, hone⟩
  · unfold about at hnone
    rw [hfilter] at hnone
    cases (List.append_eq_nil_iff.mp hnone).2
  · unfold about at hone ⊢
    dsimp only
    rw [hfilter, List.map_cons] at hone
    rw [herase, hbefore']
    rcases List.append_eq_singleton_iff.mp hone with ⟨hquestions, hrest⟩ | ⟨-, hrest⟩
    · obtain ⟨rfl, hafter⟩ := List.cons.inj hrest
      rw [hquestions, hafter]
      exact ⟨hwaiting, rfl⟩
    · cases hrest

end Post

end Exchange
