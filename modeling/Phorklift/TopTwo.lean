import Mathlib.Data.List.Induction
import Mathlib.Data.List.Nodup
import Mathlib.Tactic.Order

/-! One pass over a list that keeps the member with the largest key above a floor and the one with
the second largest, the first ones among equals. -/

namespace TopTwo

variable {α β : Type*} [LinearOrder β] (key : α → β) (zero : β)

/-- The key of a leader, or the floor without one. -/
def keyOf (o : Option α) : β := o.elim zero key

def step (s : Option α × Option α) (x : α) : Option α × Option α :=
  if keyOf key zero s.1 < key x then (some x, s.1)
  else if keyOf key zero s.2 < key x then (s.1, some x)
  else s

def lead (l : List α) : Option α × Option α := l.foldl (step key zero) (none, none)

variable {key zero} {l pre post : List α} {s : Option α × Option α} {e x : α} {v : β}

theorem step_first (h : keyOf key zero s.1 < key x) : step key zero s x = (some x, s.1) := if_pos h

theorem step_second (h : ¬keyOf key zero s.1 < key x) (h' : keyOf key zero s.2 < key x) :
    step key zero s x = (s.1, some x) := by
  unfold step
  rw [if_neg h, if_pos h']

theorem step_none (h : ¬keyOf key zero s.1 < key x) (h' : ¬keyOf key zero s.2 < key x) :
    step key zero s x = s := by
  unfold step
  rw [if_neg h, if_neg h']

theorem lead_concat (l : List α) (x : α) :
    lead key zero (l ++ [x]) = step key zero (lead key zero l) x := by
  unfold lead
  rw [List.foldl_append]
  rfl

/-- The second is not before the first. -/
def Ordered (key : α → β) (zero : β) (s : Option α × Option α) : Prop :=
  keyOf key zero s.2 ≤ keyOf key zero s.1

theorem Ordered.step (h : Ordered key zero s) (x : α) : Ordered key zero (step key zero s x) := by
  unfold Ordered at h ⊢
  by_cases hfirst : keyOf key zero s.1 < key x
  · rw [step_first hfirst]
    exact le_of_lt hfirst
  · by_cases hsecond : keyOf key zero s.2 < key x
    · rw [step_second hfirst hsecond]
      exact le_of_not_gt hfirst
    · rw [step_none hfirst hsecond]
      exact h

theorem Ordered.foldl (h : Ordered key zero s) (l : List α) :
    Ordered key zero (l.foldl (TopTwo.step key zero) s) := by
  induction l generalizing s with
  | nil => exact h
  | cons x l ih => exact ih (h.step x)

theorem lead_ordered (l : List α) : Ordered key zero (lead key zero l) :=
  Ordered.foldl (s := (none, none)) (le_refl zero) l

/-- How many members have a key of `v` or more tells how the leaders compare with it. -/
theorem le_lead (hv : zero < v) (l : List α) :
    (v ≤ keyOf key zero (lead key zero l).1 ↔ 1 ≤ (l.filter (v ≤ key ·)).length) ∧
      (v ≤ keyOf key zero (lead key zero l).2 ↔ 2 ≤ (l.filter (v ≤ key ·)).length) := by
  induction l using List.reverseRecOn with
  | nil =>
    have hlt : ¬v ≤ zero := not_le_of_gt hv
    exact ⟨iff_of_false hlt (by simp), iff_of_false hlt (by simp)⟩
  | append_singleton l x ih =>
    obtain ⟨hone, htwo⟩ := ih
    have hordered : keyOf key zero (lead key zero l).2 ≤ keyOf key zero (lead key zero l).1 :=
      lead_ordered l
    have hkey : keyOf key zero (some x) = key x := rfl
    rw [lead_concat, List.filter_append, List.length_append]
    generalize lead key zero l = s at hone htwo hordered ⊢
    by_cases hx : v ≤ key x
    · have hcount : ([x].filter (v ≤ key ·)).length = 1 := by simp [hx]
      rw [hcount]
      by_cases hfirst : keyOf key zero s.1 < key x
      · rw [step_first hfirst, hkey]
        refine ⟨iff_of_true hx (by omega), ?_⟩
        rw [hone]
        omega
      · have hle : v ≤ keyOf key zero s.1 := by order
        have hsome := hone.mp hle
        by_cases hsecond : keyOf key zero s.2 < key x
        · rw [step_second hfirst hsecond, hkey]
          exact ⟨iff_of_true hle (by omega), iff_of_true hx (by omega)⟩
        · have hle' : v ≤ keyOf key zero s.2 := by order
          rw [step_none hfirst hsecond]
          exact ⟨iff_of_true hle (by omega), iff_of_true hle' (by omega)⟩
    · have hcount : ([x].filter (v ≤ key ·)).length = 0 := by simp [hx]
      rw [hcount, Nat.add_zero]
      by_cases hfirst : keyOf key zero s.1 < key x
      · have hnot : ¬v ≤ keyOf key zero s.1 := by order
        have hnot' : ¬v ≤ keyOf key zero s.2 := by order
        rw [step_first hfirst, hkey]
        exact ⟨iff_of_false hx (mt hone.mpr hnot), iff_of_false hnot (mt htwo.mpr hnot')⟩
      · by_cases hsecond : keyOf key zero s.2 < key x
        · have hnot' : ¬v ≤ keyOf key zero s.2 := by order
          rw [step_second hfirst hsecond, hkey]
          exact ⟨hone, iff_of_false hx (mt htwo.mpr hnot')⟩
        · rw [step_none hfirst hsecond]
          exact ⟨hone, htwo⟩

/-- The members that come before `e` in a ranking. -/
def outdoers (key : α → β) (pre post : List α) (e : α) : List α :=
  pre.filter (key e ≤ key ·) ++ post.filter (key e < key ·)

section Drop

variable {a b : Option α}

/-- A second leader is forgotten behind one larger member. -/
theorem foldl_between (hb : keyOf key zero b ≤ key e) (ha : key e ≤ keyOf key zero a)
    (hcount : 1 ≤ (post.filter (key e < key ·)).length) :
    post.foldl (step key zero) (a, some e) = post.foldl (step key zero) (a, b) := by
  induction post generalizing b with
  | nil => exact absurd hcount (by simp)
  | cons y post ih =>
    rw [List.foldl_cons, List.foldl_cons]
    have hkey : keyOf key zero (some e) = key e := rfl
    by_cases hy : key e < key y
    · by_cases hfirst : keyOf key zero a < key y
      · rw [step_first hfirst, step_first hfirst]
      · have hsecond : keyOf key zero b < key y := by order
        rw [step_second hfirst hy, step_second hfirst hsecond]
    · have hfirst : ¬keyOf key zero a < key y := by order
      rw [List.filter_cons_of_neg (by simpa using hy)] at hcount
      rw [step_none hfirst hy]
      by_cases hsecond : keyOf key zero b < key y
      · rw [step_second hfirst hsecond]
        exact ih (le_of_not_gt hy) hcount
      · rw [step_none hfirst hsecond]
        exact ih hb hcount

/-- A first leader is forgotten behind two larger members. -/
theorem foldl_above (ha : keyOf key zero a ≤ key e)
    (hcount : 2 ≤ (post.filter (key e < key ·)).length) :
    post.foldl (step key zero) (some e, a) = post.foldl (step key zero) (a, b) := by
  induction post generalizing a b with
  | nil => exact absurd hcount (by simp)
  | cons y post ih =>
    rw [List.foldl_cons, List.foldl_cons]
    by_cases hy : key e < key y
    · have hfirst : keyOf key zero a < key y := by order
      rw [List.filter_cons_of_pos (by simpa using hy), List.length_cons] at hcount
      rw [step_first (s := (some e, a)) hy, step_first hfirst]
      exact foldl_between ha (le_of_lt hy) (by omega)
    · rw [List.filter_cons_of_neg (by simpa using hy)] at hcount
      by_cases hfirst : keyOf key zero a < key y
      · rw [step_second (s := (some e, a)) hy hfirst, step_first hfirst]
        exact ih (le_of_not_gt hy) hcount
      · rw [step_none (s := (some e, a)) hy hfirst]
        by_cases hsecond : keyOf key zero b < key y
        · rw [step_second hfirst hsecond]
          exact ih ha hcount
        · rw [step_none hfirst hsecond]
          exact ih ha hcount

/-- A member that two others outdo can be left out. -/
theorem lead_drop (he : zero < key e) (h : 2 ≤ (outdoers key pre post e).length) :
    lead key zero (pre ++ e :: post) = lead key zero (pre ++ post) := by
  obtain ⟨hone, htwo⟩ := @le_lead _ _ _ key zero (key e) he pre
  unfold outdoers at h
  rw [List.length_append] at h
  have hfold (l : List α) :
      lead key zero (pre ++ l) = l.foldl (step key zero) (lead key zero pre) :=
    List.foldl_append
  rw [hfold, hfold, List.foldl_cons]
  generalize lead key zero pre = s at hone htwo ⊢
  obtain ⟨a, b⟩ := s
  by_cases hfirst : keyOf key zero a < key e
  · have hnone := mt hone.mpr (not_le_of_gt hfirst)
    rw [step_first hfirst]
    exact foldl_above (le_of_lt hfirst) (by omega)
  · by_cases hsecond : keyOf key zero b < key e
    · have hfew := mt htwo.mpr (not_le_of_gt hsecond)
      rw [step_second hfirst hsecond]
      exact foldl_between (le_of_lt hsecond) (le_of_not_gt hfirst) (by omega)
    · rw [step_none hfirst hsecond]

/-- Members that two of the others outdo can be left out of a selection. -/
theorem lead_filter {p keep : α → Bool} (hpos : ∀ e ∈ l, p e = true → zero < key e)
    (h : ∀ pre e post, l = pre ++ e :: post → p e = true → keep e = false →
      2 ≤ (outdoers key (pre.filter fun c => p c && keep c) (post.filter fun c => p c && keep c)
        e).length) :
    lead key zero (l.filter p) = lead key zero (l.filter fun c => p c && keep c) := by
  -- The induction leaves them out from the left on.
  have hleft : ∀ done rest, l = done ++ rest → lead key zero (l.filter p) =
      lead key zero (done.filter (fun c => p c && keep c) ++ rest.filter p) := by
    intro done
    induction done using List.reverseRecOn with
    | nil =>
      rintro rest rfl
      rfl
    | append_singleton done e ih =>
      intro rest hl
      rw [List.append_assoc, List.singleton_append] at hl
      rw [ih (e :: rest) hl, List.filter_append, List.append_assoc]
      cases hp : p e with
      | false =>
        rw [List.filter_cons_of_neg (by simp [hp]), List.filter_cons_of_neg (by simp [hp])]
        rfl
      | true =>
        rw [List.filter_cons_of_pos hp]
        cases hkeep : keep e with
        | false =>
          rw [List.filter_cons_of_neg (by simp [hkeep])]
          apply lead_drop (hpos e (hl ▸ List.mem_append_right done List.mem_cons_self) hp)
          have htwo := h done e rest hl hp hkeep
          have hsub : (rest.filter fun c => p c && keep c).Sublist (rest.filter p) :=
            List.monotone_filter_right rest fun c hc => (Bool.and_eq_true_iff.mp hc).1
          have hle := (hsub.filter (key e < key ·)).length_le
          unfold outdoers at htwo ⊢
          rw [List.length_append] at htwo ⊢
          omega
        | true =>
          rw [List.filter_cons_of_pos (by simp [hp, hkeep])]
          rfl
  have hall := hleft l [] (List.append_nil l).symm
  rw [List.filter_nil, List.append_nil] at hall
  exact hall

end Drop

section Stays

variable {B : α → Prop}

/-- `e` leads, or is second to one that comes before it, or two of these lead. -/
def Stays (B : α → Prop) (e : α) (s : Option α × Option α) : Prop :=
  s.1 = some e ∨ (∃ a, B a ∧ s = (some a, some e)) ∨ ∃ a b, B a ∧ B b ∧ s = (some a, some b)

theorem Stays.step (hB : ∀ a, B a → key e ≤ key a) (hx : key e < key x → B x)
    (h : Stays B e s) : Stays B e (TopTwo.step key zero s x) := by
  obtain ⟨first, second⟩ := s
  rcases h with hlead | ⟨a, ha, hs⟩ | ⟨a, b, ha, hb, hs⟩
  · obtain rfl : first = some e := hlead
    by_cases hfirst : key e < key x
    · rw [step_first (s := (some e, second)) hfirst]
      exact .inr (.inl ⟨x, hx hfirst, rfl⟩)
    · by_cases hsecond : keyOf key zero second < key x
      · rw [step_second (s := (some e, second)) hfirst hsecond]
        exact .inl rfl
      · rw [step_none (s := (some e, second)) hfirst hsecond]
        exact .inl rfl
  · cases hs
    have hle := hB a ha
    by_cases hfirst : key a < key x
    · rw [step_first (s := (some a, some e)) hfirst]
      exact .inr (.inr ⟨x, a, hx (lt_of_le_of_lt hle hfirst), ha, rfl⟩)
    · by_cases hsecond : key e < key x
      · rw [step_second (s := (some a, some e)) hfirst hsecond]
        exact .inr (.inr ⟨a, x, ha, hx hsecond, rfl⟩)
      · rw [step_none (s := (some a, some e)) hfirst hsecond]
        exact .inr (.inl ⟨a, ha, rfl⟩)
  · cases hs
    have hle := hB a ha
    have hle' := hB b hb
    by_cases hfirst : key a < key x
    · rw [step_first (s := (some a, some b)) hfirst]
      exact .inr (.inr ⟨x, a, hx (lt_of_le_of_lt hle hfirst), ha, rfl⟩)
    · by_cases hsecond : key b < key x
      · rw [step_second (s := (some a, some b)) hfirst hsecond]
        exact .inr (.inr ⟨a, x, ha, hx (lt_of_le_of_lt hle' hsecond), rfl⟩)
      · rw [step_none (s := (some a, some b)) hfirst hsecond]
        exact .inr (.inr ⟨a, b, ha, hb, rfl⟩)

theorem Stays.foldl (hB : ∀ a, B a → key e ≤ key a) (hl : ∀ x ∈ l, key e < key x → B x)
    (h : Stays B e s) : Stays B e (l.foldl (TopTwo.step key zero) s) := by
  induction l generalizing s with
  | nil => exact h
  | cons x l ih =>
    obtain ⟨hx, hl⟩ := List.forall_mem_cons.mp hl
    exact ih hl (h.step hB hx)

theorem lead_mem (l : List α) :
    (∀ a ∈ (lead key zero l).1, a ∈ l) ∧ ∀ a ∈ (lead key zero l).2, a ∈ l := by
  induction l using List.reverseRecOn with
  | nil => exact ⟨nofun, nofun⟩
  | append_singleton l x ih =>
    obtain ⟨hone, htwo⟩ := ih
    have hx : x ∈ l ++ [x] := List.mem_append_right l List.mem_cons_self
    rw [lead_concat]
    generalize lead key zero l = s at hone htwo ⊢
    by_cases hfirst : keyOf key zero s.1 < key x
    · rw [step_first hfirst]
      exact ⟨fun a ha => Option.some.inj ha ▸ hx, fun a ha => List.mem_append_left _ (hone a ha)⟩
    · by_cases hsecond : keyOf key zero s.2 < key x
      · rw [step_second hfirst hsecond]
        exact ⟨fun a ha => List.mem_append_left _ (hone a ha), fun a ha => Option.some.inj ha ▸ hx⟩
      · rw [step_none hfirst hsecond]
        exact ⟨fun a ha => List.mem_append_left _ (hone a ha),
          fun a ha => List.mem_append_left _ (htwo a ha)⟩

/-- A member above the floor leads, or the leaders outdo it. -/
theorem lead_stays (he : zero < key e) (pre post : List α) :
    Stays (· ∈ outdoers key pre post e) e (lead key zero (pre ++ e :: post)) := by
  have hB : ∀ a, a ∈ outdoers key pre post e → key e ≤ key a := by
    intro a ha
    rcases List.mem_append.mp ha with hpre | hpost
    · exact of_decide_eq_true (List.mem_filter.mp hpre).2
    · exact le_of_lt (of_decide_eq_true (List.mem_filter.mp hpost).2)
  have hpre {a : α} (hmem : a ∈ pre) (hle : key e ≤ key a) : a ∈ outdoers key pre post e :=
    List.mem_append_left _ (List.mem_filter.mpr ⟨hmem, decide_eq_true hle⟩)
  have hpost : ∀ a ∈ post, key e < key a → a ∈ outdoers key pre post e := fun a hmem hlt =>
    List.mem_append_right _ (List.mem_filter.mpr ⟨hmem, decide_eq_true hlt⟩)
  have hfold : lead key zero (pre ++ e :: post) =
      post.foldl (TopTwo.step key zero) (TopTwo.step key zero (lead key zero pre) e) :=
    List.foldl_append
  rw [hfold]
  apply Stays.foldl hB hpost
  obtain ⟨hone, htwo⟩ := @lead_mem _ _ _ key zero pre
  have hordered : Ordered key zero (lead key zero pre) := lead_ordered pre
  unfold Ordered at hordered
  generalize lead key zero pre = s at hone htwo hordered ⊢
  obtain ⟨first, second⟩ := s
  by_cases hfirst : keyOf key zero first < key e
  · rw [step_first (s := (first, second)) hfirst]
    exact .inl rfl
  · cases first with
    | none => exact absurd he hfirst
    | some a =>
      have ha := hpre (hone a rfl) (le_of_not_gt hfirst)
      by_cases hsecond : keyOf key zero second < key e
      · rw [step_second (s := (some a, second)) hfirst hsecond]
        exact .inr (.inl ⟨a, ha, rfl⟩)
      · cases second with
        | none => exact absurd he hsecond
        | some b =>
          have hb := hpre (htwo b rfl) (le_of_not_gt hsecond)
          rw [step_none (s := (some a, some b)) hfirst hsecond]
          exact .inr (.inr ⟨a, b, ha, hb, rfl⟩)

end Stays

/-- The first has the largest key in the list, the second the largest of the others. -/
structure Leaders (key : α → β) (l : List α) (s : Option α × Option α) : Prop where
  first : ∀ a, s.1 = some a → a ∈ l ∧ ∀ b ∈ l, key b ≤ key a
  first_none : s.1 = none → l = []
  second : ∀ b, s.2 = some b → b ∈ l ∧ s.1 ≠ some b ∧ ∀ c ∈ l, s.1 ≠ some c → key c ≤ key b
  second_none : s.2 = none → ∀ c ∈ l, s.1 = some c

theorem lead_ne (hl : l.Nodup) {b : α} (hb : (lead key zero l).2 = some b) :
    (lead key zero l).1 ≠ some b := by
  induction l using List.reverseRecOn generalizing b with
  | nil => cases hb
  | append_singleton l x ih =>
    obtain ⟨hl, -, hdisjoint⟩ := List.nodup_append.mp hl
    have hx {a : α} (ha : a ∈ l) : a ≠ x := hdisjoint a ha x List.mem_cons_self
    obtain ⟨hone, htwo⟩ := @lead_mem _ _ _ key zero l
    have ih := @ih hl
    rw [lead_concat] at hb ⊢
    generalize lead key zero l = s at hone htwo ih hb ⊢
    by_cases hfirst : keyOf key zero s.1 < key x
    · rw [step_first hfirst] at hb ⊢
      exact fun heq => hx (hone b hb) (Option.some.inj heq).symm
    · by_cases hsecond : keyOf key zero s.2 < key x
      · rw [step_second hfirst hsecond] at hb ⊢
        intro heq
        exact hx (hone b heq) (Option.some.inj hb).symm
      · rw [step_none hfirst hsecond] at hb ⊢
        exact ih hb

theorem lead_leaders (hl : l.Nodup) (hpos : ∀ a ∈ l, zero < key a) :
    Leaders key l (lead key zero l) := by
  obtain ⟨hone, htwo⟩ := @lead_mem _ _ _ key zero l
  have hordered : Ordered key zero (lead key zero l) := lead_ordered l
  unfold Ordered at hordered
  have hne {b : α} := @lead_ne _ _ _ key zero l hl b
  have hmember {e : α} (he : e ∈ l) : (lead key zero l).1 = some e ∨ (lead key zero l).2 = some e ∨
      ∃ a b, key e ≤ key a ∧ key e ≤ key b ∧ lead key zero l = (some a, some b) := by
    obtain ⟨pre, post, rfl⟩ := List.append_of_mem he
    have hkey {a : α} (ha : a ∈ outdoers key pre post e) : key e ≤ key a := by
      rcases List.mem_append.mp ha with hpre | hpost
      · exact of_decide_eq_true (List.mem_filter.mp hpre).2
      · exact le_of_lt (of_decide_eq_true (List.mem_filter.mp hpost).2)
    rcases @lead_stays _ _ _ key zero e (hpos e he) pre post with
      hfirst | ⟨a, -, hs⟩ | ⟨a, b, ha, hb, hs⟩
    · exact .inl hfirst
    · exact .inr (.inl (congrArg Prod.snd hs))
    · exact .inr (.inr ⟨a, b, hkey ha, hkey hb, hs⟩)
  generalize lead key zero l = s at hone htwo hordered hne hmember ⊢
  constructor
  · intro a ha
    refine ⟨hone a ha, fun b hb => ?_⟩
    rcases hmember hb with hfirst | hsecond | ⟨a', b', hle, -, hs⟩
    · rw [Option.some.inj (ha.symm.trans hfirst)]
    · rw [ha, hsecond] at hordered
      exact hordered
    · rw [hs] at ha
      rw [← Option.some.inj ha]
      exact hle
  · intro hnone
    apply List.eq_nil_iff_forall_not_mem.mpr
    intro e he
    rcases hmember he with hfirst | hsecond | ⟨a, b, -, -, hs⟩
    · rw [hnone] at hfirst
      cases hfirst
    · rw [hnone, hsecond] at hordered
      exact absurd (hpos e he) (not_lt_of_ge hordered)
    · rw [hs] at hnone
      cases hnone
  · intro b hb
    refine ⟨htwo b hb, hne hb, fun c hc hother => ?_⟩
    rcases hmember hc with hfirst | hsecond | ⟨a', b', -, hle, hs⟩
    · exact absurd hfirst hother
    · rw [Option.some.inj (hb.symm.trans hsecond)]
    · rw [hs] at hb
      rw [← Option.some.inj hb]
      exact hle
  · intro hnone c hc
    rcases hmember hc with hfirst | hsecond | ⟨a, b, -, -, hs⟩
    · exact hfirst
    · rw [hnone] at hsecond
      cases hsecond
    · rw [hs] at hnone
      cases hnone

/-- Where no two keys are equal there is only one choice. -/
theorem Leaders.unique {t : Option α × Option α} (hinj : ∀ a ∈ l, ∀ b ∈ l, key a = key b → a = b)
    (hs : Leaders key l s) (ht : Leaders key l t) : s = t := by
  have hfirst : s.1 = t.1 := by
    cases hsa : s.1 with
    | none =>
      cases hta : t.1 with
      | none => rfl
      | some b =>
        have hb := (ht.first b hta).1
        rw [hs.first_none hsa] at hb
        cases hb
    | some a =>
      obtain ⟨ha, hmax⟩ := hs.first a hsa
      cases hta : t.1 with
      | none =>
        rw [ht.first_none hta] at ha
        cases ha
      | some b =>
        obtain ⟨hb, hmax'⟩ := ht.first b hta
        rw [hinj a ha b hb (le_antisymm (hmax' a ha) (hmax b hb))]
  have hsecond : s.2 = t.2 := by
    cases hsb : s.2 with
    | none =>
      cases htb : t.2 with
      | none => rfl
      | some b =>
        obtain ⟨hb, hother, -⟩ := ht.second b htb
        rw [← hfirst] at hother
        exact absurd (hs.second_none hsb b hb) hother
    | some a =>
      obtain ⟨ha, hother, hmax⟩ := hs.second a hsb
      cases htb : t.2 with
      | none =>
        rw [hfirst] at hother
        exact absurd (ht.second_none htb a ha) hother
      | some b =>
        obtain ⟨hb, hother', hmax'⟩ := ht.second b htb
        rw [hfirst] at hother
        have hle := hmax' a ha hother
        rw [← hfirst] at hother'
        rw [hinj a ha b hb (le_antisymm hle (hmax b hb hother'))]
  exact Prod.ext hfirst hsecond

/-- A new leader before all others. -/
theorem Leaders.concat (h : Leaders key l s) (he : ∀ a ∈ l, key a < key e) :
    Leaders key (l ++ [e]) (some e, s.1) := by
  have hne : e ∉ l := fun hmem => lt_irrefl _ (he e hmem)
  constructor
  · intro a ha
    cases ha
    refine ⟨by simp, fun b hb => ?_⟩
    rcases List.mem_append.mp hb with hold | hnew
    · exact le_of_lt (he b hold)
    · rw [List.mem_singleton.mp hnew]
  · exact nofun
  · intro b hb
    obtain ⟨hmem, hmax⟩ := h.first b hb
    refine ⟨List.mem_append_left _ hmem, fun heq => hne (Option.some.inj heq ▸ hmem), ?_⟩
    intro c hc hother
    rcases List.mem_append.mp hc with hold | hnew
    · exact hmax c hold
    · exact absurd (congrArg some (List.mem_singleton.mp hnew).symm) hother
  · intro hnone c hc
    rw [h.first_none hnone, List.nil_append] at hc
    rw [List.mem_singleton.mp hc]

theorem Leaders.perm {l' : List α} (h : Leaders key l s) (hperm : l.Perm l') : Leaders key l' s where
  first a ha := ⟨hperm.mem_iff.mp (h.first a ha).1, fun b hb => (h.first a ha).2 b (hperm.mem_iff.mpr hb)⟩
  first_none hnone := by
    have hnil := h.first_none hnone
    rw [hnil] at hperm
    exact hperm.symm.eq_nil
  second b hb := by
    obtain ⟨hmem, hne, hmax⟩ := h.second b hb
    exact ⟨hperm.mem_iff.mp hmem, hne, fun c hc => hmax c (hperm.mem_iff.mpr hc)⟩
  second_none hnone c hc := h.second_none hnone c (hperm.mem_iff.mpr hc)

section Filters

variable {p q : α → Bool}

theorem mem_outdoers_filter {a : α} (ha : a ∈ outdoers key (pre.filter p) (post.filter p) e)
    (hq : q a = true) :
    a ∈ outdoers key (pre.filter fun c => p c && q c) (post.filter fun c => p c && q c) e := by
  have hboth {l : List α} (hmem : a ∈ l.filter p) : a ∈ l.filter fun c => p c && q c := by
    obtain ⟨hal, hp⟩ := List.mem_filter.mp hmem
    exact List.mem_filter.mpr ⟨hal, Bool.and_eq_true_iff.mpr ⟨hp, hq⟩⟩
  rcases List.mem_append.mp ha with hpre | hpost
  · obtain ⟨hmem, hkey⟩ := List.mem_filter.mp hpre
    exact List.mem_append_left _ (List.mem_filter.mpr ⟨hboth hmem, hkey⟩)
  · obtain ⟨hmem, hkey⟩ := List.mem_filter.mp hpost
    exact List.mem_append_right _ (List.mem_filter.mpr ⟨hboth hmem, hkey⟩)

theorem two_le_length {a b : α} (ha : a ∈ l) (hb : b ∈ l) (hne : a ≠ b) : 2 ≤ l.length := by
  match l, ha, hb with
  | [c], ha, hb =>
    rw [List.mem_singleton] at ha hb
    exact absurd (ha.trans hb.symm) hne
  | c :: d :: l, _, _ => exact Nat.le_add_left 2 l.length

/-- Where two selections have the same leaders, these outdo what only the first one has. -/
theorem outdoers_of_lead_eq (hl : l.Nodup)
    (heq : lead key zero (l.filter p) = lead key zero (l.filter q)) (hsplit : l = pre ++ e :: post)
    (hp : p e = true) (hq : q e = false) (he : zero < key e) :
    2 ≤ (outdoers key (pre.filter fun c => p c && q c) (post.filter fun c => p c && q c)
      e).length := by
  obtain ⟨hone, htwo⟩ := @lead_mem _ _ _ key zero (l.filter q)
  have hne {b : α} := @lead_ne _ _ _ key zero (l.filter q) (hl.filter q) b
  have hfilter : l.filter p = pre.filter p ++ e :: post.filter p := by
    rw [hsplit, List.filter_append, List.filter_cons_of_pos hp]
  have hstays := @lead_stays _ _ _ key zero e he (pre.filter p) (post.filter p)
  rw [← hfilter, heq] at hstays
  rcases hstays with hfirst | ⟨a, -, hs⟩ | ⟨a, b, ha, hb, hs⟩
  · have hmem := (List.mem_filter.mp (hone e hfirst)).2
    rw [hq] at hmem
    cases hmem
  · have hmem := (List.mem_filter.mp (htwo e (congrArg Prod.snd hs))).2
    rw [hq] at hmem
    cases hmem
  · rw [hs] at hone htwo hne
    have hqa := (List.mem_filter.mp (hone a rfl)).2
    have hqb := (List.mem_filter.mp (htwo b rfl)).2
    have hdiffer : a ≠ b := fun hab => hne rfl (congrArg some hab)
    exact two_le_length (mem_outdoers_filter ha hqa) (mem_outdoers_filter hb hqb) hdiffer

/-- Two selections have the same leaders exactly where two members of both outdo each member that
only one of them has. -/
theorem lead_filter_eq_iff (hl : l.Nodup) (hpos : ∀ e ∈ l, p e = true ∨ q e = true → zero < key e) :
    lead key zero (l.filter p) = lead key zero (l.filter q) ↔
      ∀ pre e post, l = pre ++ e :: post → p e ≠ q e →
        2 ≤ (outdoers key (pre.filter fun c => p c && q c) (post.filter fun c => p c && q c)
          e).length := by
  have hcomm : (fun c => q c && p c) = fun c => p c && q c := funext fun c => Bool.and_comm _ _
  constructor
  · intro heq pre e post hsplit hne
    have he : e ∈ l := hsplit ▸ List.mem_append_right pre List.mem_cons_self
    cases hp : p e with
    | true =>
      have hq : q e = false := by
        rw [hp] at hne
        simpa using hne.symm
      exact outdoers_of_lead_eq hl heq hsplit hp hq (hpos e he (.inl hp))
    | false =>
      have hq : q e = true := by
        rw [hp] at hne
        simpa using hne.symm
      have htwo := outdoers_of_lead_eq hl heq.symm hsplit hq hp (hpos e he (.inr hq))
      rw [hcomm] at htwo
      exact htwo
  · intro h
    have hp := @lead_filter _ _ _ key zero l p q (fun e he hpe => hpos e he (.inl hpe))
      fun pre e post hsplit hpe hqe => h pre e post hsplit (by rw [hpe, hqe]; decide)
    have hq := @lead_filter _ _ _ key zero l q p (fun e he hqe => hpos e he (.inr hqe))
      fun pre e post hsplit hqe hpe => by
        rw [hcomm]
        exact h pre e post hsplit (by rw [hpe, hqe]; decide)
    rw [hcomm] at hq
    rw [hp, hq]

end Filters

end TopTwo
