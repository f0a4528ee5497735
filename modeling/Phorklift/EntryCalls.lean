import Mathlib.Data.List.Basic

/-! A callback that is run for one entry of a table after the other, with a configuration that it
adds to, until it refuses one. -/

namespace EntryCalls

variable {σ α ε : Type*}

inductive CallResult (σ ε : Type*)
  | accepted (conf : σ)
  | refused (e : ε)
  | crashed

/-- The outcomes of the calls that are made for the entries. -/
def calls (call : σ → α → CallResult σ ε) : σ → List α → List (CallResult σ ε)
  | _, [] => []
  | conf, a :: entries =>
    match call conf a with
    | .accepted next => .accepted next :: calls call next entries
    | .refused e => [.refused e]
    | .crashed => [.crashed]

/-- The outcome for the table as a whole. -/
def parse (call : σ → α → CallResult σ ε) : σ → List α → CallResult σ ε
  | conf, [] => .accepted conf
  | conf, a :: entries =>
    match call conf a with
    | .accepted next => parse call next entries
    | .refused e => .refused e
    | .crashed => .crashed

/-- A call returns, and what it accepts is left `Inside`. -/
def CallResult.Safe (Inside : σ → Prop) : CallResult σ ε → Prop
  | .accepted conf => Inside conf
  | .refused _ => True
  | .crashed => False

/-- What a call does with an entry, whatever the configuration it adds to. -/
structure EntryRule (call : σ → α → CallResult σ ε) (accepts crashes : α → Bool)
    (next : σ → α → σ) : Prop where
  accepted : ∀ conf a, accepts a = true → call conf a = .accepted (next conf a)
  crashed : ∀ conf a, accepts a = false → crashes a = true → call conf a = .crashed
  refused : ∀ conf a, accepts a = false → crashes a = false → ∃ e, call conf a = .refused e

/-- The calls for a table refuse an entry or leave the configuration `Inside`, and so does a table
that is accepted. -/
structure StaysInside (call : σ → α → CallResult σ ε) (conf : σ) (entries : List α)
    (Inside : σ → Prop) : Prop where
  calls : ∀ r ∈ calls call conf entries, r.Safe Inside
  parse : (parse call conf entries).Safe Inside

variable {call : σ → α → CallResult σ ε} {accepts crashes : α → Bool} {next : σ → α → σ}
  {Inside : σ → Prop}

theorem calls_accepted {conf conf' : σ} {a : α} (h : call conf a = .accepted conf')
    (entries : List α) :
    calls call conf (a :: entries) = .accepted conf' :: calls call conf' entries := by
  simp only [calls, h]

theorem calls_refused {conf : σ} {a : α} {e : ε} (h : call conf a = .refused e)
    (entries : List α) : calls call conf (a :: entries) = [.refused e] := by
  simp only [calls, h]

theorem calls_crashed {conf : σ} {a : α} (h : call conf a = .crashed) (entries : List α) :
    calls call conf (a :: entries) = [.crashed] := by
  simp only [calls, h]

/-- A configuration that is `Inside` at the end was so all along. -/
theorem inside_of_foldl (keep : ∀ conf a, Inside (next conf a) → Inside conf) (entries : List α)
    {conf : σ} (h : Inside (entries.foldl next conf)) : Inside conf := by
  induction entries generalizing conf with
  | nil => exact h
  | cons a entries ih =>
    have hnext := ih h
    exact keep _ _ hnext

/-- Every call is safe exactly where the entries before the first one that is not accepted leave
the configuration `Inside`, and that one is refused. -/
theorem calls_safe_iff (h : EntryRule call accepts crashes next)
    (keep : ∀ conf a, Inside (next conf a) → Inside conf) (entries : List α) {conf : σ}
    (hconf : Inside conf) :
    (∀ r ∈ calls call conf entries, r.Safe Inside) ↔
      Inside ((entries.takeWhile accepts).foldl next conf) ∧
        ∀ a ∈ (entries.dropWhile accepts).head?, crashes a = false := by
  induction entries generalizing conf with
  | nil =>
    have hnone : ∀ r ∈ calls call conf [], r.Safe Inside := by
      intro r hr
      cases hr
    have hhead : ∀ a ∈ (([] : List α).dropWhile accepts).head?, crashes a = false := by
      intro a ha
      cases ha
    exact iff_of_true hnone ⟨hconf, hhead⟩
  | cons a entries ih =>
    cases ha : accepts a with
    | true =>
      rw [calls_accepted (h.accepted conf a ha), List.takeWhile_cons_of_pos ha,
        List.dropWhile_cons_of_pos ha, List.foldl_cons, List.forall_mem_cons]
      constructor
      · rintro ⟨hhead, hrest⟩
        exact (ih hhead).mp hrest
      · rintro ⟨hinside, hcrash⟩
        have hhead := inside_of_foldl keep _ hinside
        exact ⟨hhead, (ih hhead).mpr ⟨hinside, hcrash⟩⟩
    | false =>
      have hne : ¬accepts a = true := by
        rw [ha]
        exact Bool.false_ne_true
      rw [List.takeWhile_cons_of_neg hne, List.dropWhile_cons_of_neg hne]
      have hhead : (∀ b ∈ (a :: entries).head?, crashes b = false) ↔ crashes a = false := by
        constructor
        · intro hb
          exact hb a rfl
        · intro hb c hc
          cases hc
          exact hb
      rw [hhead]
      cases hcrash : crashes a with
      | true =>
        rw [calls_crashed (h.crashed conf a ha hcrash)]
        constructor
        · intro hsafe
          exact (hsafe _ (List.mem_singleton_self _)).elim
        · intro hsafe
          cases hsafe.2
      | false =>
        obtain ⟨e, he⟩ := h.refused conf a ha hcrash
        rw [calls_refused he]
        refine iff_of_true ?_ ⟨hconf, rfl⟩
        intro r hr
        rw [List.mem_singleton.mp hr]
        trivial

/-- Where every call is safe, the table as a whole is. -/
theorem parse_safe (entries : List α) {conf : σ} (hconf : Inside conf)
    (h : ∀ r ∈ calls call conf entries, r.Safe Inside) : (parse call conf entries).Safe Inside := by
  induction entries generalizing conf with
  | nil => exact hconf
  | cons a entries ih =>
    cases ha : call conf a with
    | accepted conf' =>
      rw [calls_accepted ha, List.forall_mem_cons] at h
      simp only [parse, ha]
      exact ih h.1 h.2
    | refused e =>
      simp only [parse, ha]
      trivial
    | crashed =>
      rw [calls_crashed ha] at h
      exact (h _ (List.mem_singleton_self _)).elim

theorem staysInside_iff (h : EntryRule call accepts crashes next)
    (keep : ∀ conf a, Inside (next conf a) → Inside conf) (entries : List α) {conf : σ}
    (hconf : Inside conf) :
    StaysInside call conf entries Inside ↔
      Inside ((entries.takeWhile accepts).foldl next conf) ∧
        ∀ a ∈ (entries.dropWhile accepts).head?, crashes a = false := by
  rw [← calls_safe_iff h keep entries hconf]
  constructor
  · intro hstays
    exact hstays.calls
  · intro hcalls
    exact ⟨hcalls, parse_safe entries hconf hcalls⟩

end EntryCalls
