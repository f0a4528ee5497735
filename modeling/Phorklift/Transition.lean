import Mathlib.Logic.Function.Iterate
import Mathlib.Order.WellFounded

/-! States reached by a step relation, and words accepted by a partial automaton. -/

namespace Transition

section Reachable

variable {σ : Type*} {init : σ → Prop} {step : σ → σ → Prop}

inductive Reachable (init : σ → Prop) (step : σ → σ → Prop) : σ → Prop
  | start {s} : init s → Reachable init step s
  | next {s t} : Reachable init step s → step s t → Reachable init step t

theorem Reachable.invariant {I : σ → Prop} (base : ∀ s, init s → I s)
    (keep : ∀ s t, I s → step s t → I t) {s : σ} (h : Reachable init step s) : I s := by
  induction h with
  | start h0 => exact base _ h0
  | next _ hs ih => exact keep _ _ ih hs

theorem Reachable.mono {step' : σ → σ → Prop} (hstep : ∀ s t, step s t → step' s t) {s : σ}
    (h : Reachable init step s) : Reachable init step' s := by
  induction h with
  | start h0 => exact .start h0
  | next _ hs ih => exact .next ih (hstep _ _ hs)

/-- The steps of a run that all satisfy a side condition. -/
def guarded (step ok : σ → σ → Prop) (s t : σ) : Prop :=
  step s t ∧ ok s t

end Reachable

section Acts

variable {σ α : Type*} {init : σ → Prop} {act : σ → α → Option σ} {ok : σ → α → Prop} {s t : σ}

/-- A step by an action that meets `ok`. -/
def ActStep (act : σ → α → Option σ) (ok : σ → α → Prop) (s t : σ) : Prop :=
  ∃ a, ok s a ∧ act s a = some t

def runActs (act : σ → α → Option σ) : List α → σ → Option σ
  | [], s => some s
  | a :: acts, s => (act s a).bind (runActs act acts)

theorem runActs_append (acts more : List α) (s : σ) :
    runActs act (acts ++ more) s = (runActs act acts s).bind (runActs act more) := by
  induction acts generalizing s with
  | nil => rfl
  | cons a acts ih =>
    show (act s a).bind (runActs act (acts ++ more)) = ((act s a).bind (runActs act acts)).bind _
    rw [Option.bind_assoc]
    exact congrArg _ (funext ih)

/-- Every action of a run meets `ok`. -/
def ActsMeet (act : σ → α → Option σ) (ok : σ → α → Prop) : List α → σ → Prop
  | [], _ => True
  | a :: acts, s => ok s a ∧ ∀ t, act s a = some t → ActsMeet act ok acts t

theorem actsMeet_of_forall (acts : List α) (s : σ) (h : ∀ s a, ok s a) : ActsMeet act ok acts s := by
  induction acts generalizing s with
  | nil => trivial
  | cons a acts ih => exact ⟨h s a, fun t _ => ih t⟩

theorem ActsMeet.left {acts more : List α} (h : ActsMeet act ok (acts ++ more) s) :
    ActsMeet act ok acts s := by
  induction acts generalizing s with
  | nil => trivial
  | cons a acts ih => exact ⟨h.1, fun t ht => ih (h.2 t ht)⟩

/-- A test of every action of a run. -/
def checkActs (act : σ → α → Option σ) (check : σ → α → Bool) : List α → σ → Bool
  | [], _ => true
  | a :: acts, s => check s a && (act s a).all (checkActs act check acts)

theorem actsMeet_of_check {check : σ → α → Bool} (hcheck : ∀ s a, check s a = true → ok s a)
    {acts : List α} (h : checkActs act check acts s = true) : ActsMeet act ok acts s := by
  induction acts generalizing s with
  | nil => trivial
  | cons a acts ih =>
    rw [checkActs, Bool.and_eq_true] at h
    refine ⟨hcheck s a h.1, fun t ht => ih ?_⟩
    have hrest := h.2
    rw [ht, Option.all_some] at hrest
    exact hrest

/-- A property that an action keeps exactly where it meets `ok` holds at the end of a run exactly
where every action meets it. -/
theorem actsMeet_iff_of_step {I P : σ → Prop}
    (keep : ∀ s a t, I s → act s a = some t → I t ∧ (P t ↔ P s ∧ ok s a)) {acts : List α}
    (hs : I s) (h : runActs act acts s = some t) : P t ↔ P s ∧ ActsMeet act ok acts s := by
  induction acts generalizing s with
  | nil =>
    cases h
    exact (and_iff_left trivial).symm
  | cons a acts ih =>
    obtain ⟨u, hstep, h⟩ := Option.bind_eq_some_iff.mp h
    obtain ⟨hu, hiff⟩ := keep s a u hs hstep
    rw [ih hu h, hiff, and_assoc]
    have hrest : ActsMeet act ok acts u ↔ ∀ t, act s a = some t → ActsMeet act ok acts t := by
      rw [hstep]
      exact ⟨fun hmeet _ ht => Option.some.inj ht ▸ hmeet, fun hmeet => hmeet u rfl⟩
    rw [hrest]
    rfl

/-- Where no action is stuck no run is. -/
theorem exists_runActs {I : σ → Prop} (hstep : ∀ s a, I s → ∃ t, act s a = some t ∧ I t)
    (acts : List α) (hs : I s) : ∃ t, runActs act acts s = some t ∧ I t := by
  induction acts generalizing s with
  | nil => exact ⟨s, rfl, hs⟩
  | cons a acts ih =>
    obtain ⟨u, hact, hu⟩ := hstep s a hs
    obtain ⟨t, hrun, ht⟩ := ih hu
    refine ⟨t, ?_, ht⟩
    rw [runActs, hact]
    exact hrun

/-- Two conditions on the actions that agree under an invariant are met by the same runs. -/
theorem actsMeet_congr {ok' : σ → α → Prop} {I : σ → Prop}
    (keep : ∀ s a t, I s → act s a = some t → I t) (hiff : ∀ s a, I s → (ok s a ↔ ok' s a))
    {acts : List α} (hs : I s) : ActsMeet act ok acts s ↔ ActsMeet act ok' acts s := by
  induction acts generalizing s with
  | nil => exact Iff.rfl
  | cons a acts ih =>
    rw [ActsMeet, ActsMeet, hiff s a hs]
    exact and_congr_right fun _ =>
      forall_congr' fun t => forall_congr' fun hstep => ih (keep s a t hs hstep)

/-- Every state of a run has a property. -/
def ActsKeep (act : σ → α → Option σ) (P : σ → Prop) : List α → σ → Prop
  | [], s => P s
  | a :: acts, s => P s ∧ ∀ t, act s a = some t → ActsKeep act P acts t

theorem ActsKeep.head {P : σ → Prop} {acts : List α} (h : ActsKeep act P acts s) : P s := by
  cases acts with
  | nil => exact h
  | cons a acts => exact h.1

/-- What an invariant gives holds all along every run. -/
theorem actsKeep_of_invariant {I P : σ → Prop} (hP : ∀ s, I s → P s)
    (keep : ∀ s a t, I s → act s a = some t → I t) (acts : List α) (hs : I s) :
    ActsKeep act P acts s := by
  induction acts generalizing s with
  | nil => exact hP s hs
  | cons a acts ih => exact ⟨hP s hs, fun t hstep => ih (keep s a t hs hstep)⟩

/-- A property that an action keeps exactly where it meets `ok` holds all along a run exactly where
every action meets it. -/
theorem actsKeep_iff_of_step {I P : σ → Prop}
    (keep : ∀ s a t, I s → P s → act s a = some t → I t ∧ (P t ↔ ok s a)) {acts : List α}
    (hI : I s) (hP : P s) (h : runActs act acts s = some t) :
    ActsKeep act P acts s ↔ ActsMeet act ok acts s := by
  induction acts generalizing s with
  | nil => exact iff_of_true hP trivial
  | cons a acts ih =>
    obtain ⟨u, hact, h⟩ := Option.bind_eq_some_iff.mp h
    obtain ⟨hI', hiff⟩ := keep s a u hI hP hact
    rw [ActsKeep, ActsMeet, and_iff_right hP, hact]
    constructor
    · intro hkeep
      have hu := hkeep u rfl
      refine ⟨hiff.mp hu.head, fun v hv => ?_⟩
      cases hv
      exact (ih hI' hu.head h).mp hu
    · rintro ⟨hok, hmeet⟩ v hv
      cases hv
      exact (ih hI' (hiff.mpr hok) h).mpr (hmeet u rfl)

theorem Reachable.runActs {acts : List α} (hs : Reachable init (ActStep act ok) s)
    (hok : ActsMeet act ok acts s) (h : runActs act acts s = some t) :
    Reachable init (ActStep act ok) t := by
  induction acts generalizing s with
  | nil =>
    cases h
    exact hs
  | cons a acts ih =>
    obtain ⟨u, hstep, h⟩ := Option.bind_eq_some_iff.mp h
    exact ih (hs.next ⟨a, hok.1, hstep⟩) (hok.2 u hstep) h

end Acts

section Iterate

variable {σ α : Type*} [Preorder α] [WellFoundedLT α]

/-- A rank that falls at every iterate where the loop goes on bounds the number of iterates. -/
theorem exists_stop_of_rank {f : σ → σ} {s : σ} (stop : σ → Prop) (rank : σ → α)
    (fall : ∀ n, ¬stop (f^[n] s) → rank (f^[n + 1] s) < rank (f^[n] s)) :
    ∃ n, stop (f^[n] s) := by
  by_contra hn
  push Not at hn
  have hfall : ∀ n, rank (f^[n + 1] s) < rank (f^[n] s) := fun n => fall n (hn n)
  have hinf := (wellFounded_lt (α := α)).has_min (Set.range fun n => rank (f^[n] s)) ⟨_, 0, rfl⟩
  obtain ⟨_, ⟨n, rfl⟩, hmin⟩ := hinf
  exact hmin _ ⟨n + 1, rfl⟩ (hfall n)

end Iterate

section Monitor

variable {S ε : Type*}

/-- The state of a monitor after a word, `none` once a letter was forbidden. -/
def monitor (next : S → ε → Option S) (s : S) (word : List ε) : Option S :=
  word.foldlM next s

variable {next : S → ε → Option S}

@[simp] theorem monitor_nil (s : S) : monitor next s [] = some s := rfl

@[simp] theorem monitor_cons (s : S) (e : ε) (word : List ε) :
    monitor next s (e :: word) = (next s e).bind fun t => monitor next t word := rfl

theorem monitor_append (s : S) (u v : List ε) :
    monitor next s (u ++ v) = (monitor next s u).bind fun t => monitor next t v :=
  List.foldlM_append

theorem monitor_snoc {s t : S} {word : List ε} {e : ε} (h : monitor next s word = some t) :
    monitor next s (word ++ [e]) = next t e := by
  rw [monitor_append, h]
  simp

/-- Letters that leave a monitor's state alone can be appended freely. -/
theorem monitor_append_of_fixed {s t : S} {u v : List ε} (h : monitor next s u = some t)
    (fixed : ∀ e ∈ v, next t e = some t) : monitor next s (u ++ v) = some t := by
  rw [monitor_append, h, Option.bind_some]
  induction v with
  | nil => rfl
  | cons e v ih =>
    rw [monitor_cons, fixed e (by simp), Option.bind_some]
    exact ih fun e' he' => fixed e' (by simp [he'])

end Monitor

section Each

variable {ε : Type*} {ok : List ε → ε → Prop} {u v : List ε} {e : ε}

/-- Every letter of a word is admissible after the letters before it. -/
def Each (ok : List ε → ε → Prop) (word : List ε) : Prop :=
  ∀ pre e post, word = pre ++ e :: post → ok pre e

theorem each_nil : Each ok [] := by
  intro pre e post h
  simp at h

theorem each_append : Each ok (u ++ v) ↔ Each ok u ∧ Each (fun pre => ok (u ++ pre)) v := by
  constructor
  · intro h
    refine ⟨fun pre e post hu => h pre e (post ++ v) ?_, fun pre e post hv => h _ e post ?_⟩
    · rw [hu, List.append_assoc, List.cons_append]
    · rw [hv, List.append_assoc]
  · rintro ⟨hu, hv⟩ pre e post h
    rcases List.append_eq_append_iff.mp h with ⟨w, rfl, hw⟩ | ⟨w, rfl, hw⟩
    · exact hv w e post hw
    · cases w with
      | nil =>
        have h0 := hv [] e post (by simpa using hw.symm)
        simpa using h0
      | cons c w =>
        cases hw
        exact hu pre e w rfl

theorem each_singleton : Each ok [e] ↔ ok [] e := by
  constructor
  · exact fun h => h [] e [] rfl
  · intro h pre c post hp
    cases pre with
    | nil => cases hp; exact h
    | cons b pre => simp at hp

theorem each_snoc : Each ok (u ++ [e]) ↔ Each ok u ∧ ok u e := by
  rw [each_append, each_singleton, List.append_nil]

theorem Each.append_of_forall (h : Each ok u) (hv : ∀ e ∈ v, ∀ pre, ok pre e) :
    Each ok (u ++ v) := by
  refine each_append.mpr ⟨h, fun pre e post hp => ?_⟩
  exact hv e (by rw [hp]; simp) _

/-- `Each` of a word that follows the letters `pre`. -/
def eachFrom (ok : List ε → ε → Prop) [∀ pre e, Decidable (ok pre e)] :
    List ε → List ε → Bool
  | _, [] => true
  | pre, e :: word => decide (ok pre e) && eachFrom ok (pre ++ [e]) word

theorem eachFrom_iff [∀ pre e, Decidable (ok pre e)] {pre word : List ε} :
    eachFrom ok pre word = true ↔ Each (fun u => ok (pre ++ u)) word := by
  induction word generalizing pre with
  | nil => exact ⟨fun _ => each_nil, fun _ => rfl⟩
  | cons e word ih =>
    have hcons : Each (fun u => ok (pre ++ u)) ([e] ++ word) ↔ _ := each_append
    rw [List.singleton_append, each_singleton, List.append_nil] at hcons
    rw [hcons, eachFrom, Bool.and_eq_true, decide_eq_true_iff, ih]
    simp only [List.append_assoc]

instance [∀ pre e, Decidable (ok pre e)] (word : List ε) : Decidable (Each ok word) :=
  decidable_of_iff (eachFrom ok [] word = true) eachFrom_iff

end Each

end Transition
