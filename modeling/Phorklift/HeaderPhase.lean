import Mathlib.Algebra.Order.Group.Nat
import Phorklift.RequestFrame

/-! How long one call of `phl_request_run` stays before the response body. -/

namespace Phorklift

open Transition

variable {W V : Type}

/-- `phl_request_run` is going on with an open request whose body has not been started. -/
def inHeaderPhase (w : World W V) : Bool :=
  w.ctl = .running && !w.r.closed && w.r.state.index < 9

/-- The next activation of a call, as long as it is in its header phase. -/
def activate (env : Env W V) (w : World W V) : Option (World W V) :=
  if inHeaderPhase w then phlRequestRun env w else some w

def activations (env : Env W V) (w : World W V) (n : Nat) : Option (World W V) :=
  (fun s => s.bind (activate env))^[n] (some w)

/-- After finitely many steps the call has returned, closed the request or reached its body. -/
def LeavesHeaderPhase (env : Env W V) (w : World W V) : Prop :=
  ∃ n, ∀ w', activations env w n = some w' → inHeaderPhase w' = false

/-- The step about to be taken, if it is `RESPONSE_HEADERS_2` or `RESPONSE_HEADERS_3` of a request
that is already broken, returns `PHL_OK`, `PHL_AGAIN` or `PHL_BREAK`. -/
def headerStepOk (env : Env W V) (w : World W V) : Bool :=
  match w.r.confPath with
  | none => true
  | some p =>
    if w.r.isBroken = true ∧ (w.r.state = .responseHeaders2 ∨ w.r.state = .responseHeaders3) then
      match phlRequestStep env p w with
      | some (some n, _) => n == phlOk || n == phlAgain || n == phlBreak
      | _ => true
    else true

/-- Falls with every step in the header phase: an error can break a request once, and then the
states before `RESPONSE_HEADERS_2` do not come back. -/
def headerRank : Option (World W V) → Nat
  | none => 0
  | some w =>
    if inHeaderPhase w then (if w.r.isBroken then 0 else 10) + (9 - w.r.state.index) else 0

theorem headerRank_of_inHeaderPhase {w : World W V} (h : inHeaderPhase w = true) :
    headerRank (some w) = (if w.r.isBroken then 0 else 10) + (9 - w.r.state.index) ∧
      w.r.state.index < 9 := by
  refine ⟨by simp [headerRank, h], ?_⟩
  simp only [inHeaderPhase, Bool.and_eq_true, decide_eq_true_eq] at h
  exact h.2

theorem headerRank_le (w : World W V) :
    headerRank (some w) ≤ (if w.r.isBroken then 0 else 10) + (9 - w.r.state.index) := by
  unfold headerRank
  dsimp only
  split
  next => exact Nat.le_refl _
  next => exact Nat.zero_le _

/-- Only the body step calls itself. -/
theorem state_of_round {env : Env W V} {p : PathId} {w w' : World W V}
    (h : phlRequestStep env p w = some (none, w')) : w.r.state = .responseBody := by
  cases hs : w.r.state with
  | responseBody => rfl
  | _ => simp [phlRequestStep, hs] at h

/-- A broken request answers `RESPONSE_HEADERS_1` by itself. -/
theorem responseHeaders1_of_broken {env : Env W V} {p : PathId} {w w' : World W V} {n : Int}
    (hs : w.r.state = .responseHeaders1) (hb : w.r.isBroken = true)
    (h : phlRequestStep env p w = some (some n, w')) : n = phlOk := by
  simp only [phlRequestStep, hs] at h
  obtain ⟨⟨m, w1⟩, hx, he⟩ := Option.map_eq_some_iff.mp h
  cases he
  obtain ⟨⟨m', w2⟩, ha, he⟩ := Option.map_eq_some_iff.mp hx
  cases he
  simp only [hb, Bool.true_eq_false, if_false] at ha
  split at ha
  next => cases ha; rfl
  next => cases ha; rfl

theorem headerRank_falls {env : Env W V} {w : World W V} (hin : inHeaderPhase w = true)
    (hok : headerStepOk env w = true) :
    headerRank ((some w).bind (activate env)) < headerRank (some w) := by
  obtain ⟨hrank, hlt⟩ := headerRank_of_inHeaderPhase hin
  have hpos : 0 < headerRank (some w) := by
    rw [hrank]
    omega
  have hact : (some w).bind (activate env) = phlRequestRun env w := by simp [activate, hin]
  rw [hact]
  cases hrun : phlRequestRun env w with
  | none => exact hpos
  | some w' =>
    have hidle : ∀ v : World W V, v.ctl = .idle → headerRank (some v) = 0 := by
      intro v hv
      simp [headerRank, inHeaderPhase, hv]
    cases phlRequestRun_ran hrun with
    | closed hc => rw [hidle _ rfl]; exact hpos
    | done hc hs hcl => rw [hidle _ rfl]; exact hpos
    | round hc hd hp hstep => simp [state_of_round hstep, RequestState.index] at hlt
    | @next p n w1 hc hd hp hstep hp1 hn =>
      have hk := phlRequestStep_kept hstep (fun _ => hp1)
      have hnext : w1.r.state.next.index = w.r.state.index + 1 := by
        rw [hk.state, RequestState.index_next hd]
      refine lt_of_le_of_lt (headerRank_le _) ?_
      rw [hrank]
      simp only [hnext, hk.isBroken]
      omega
    | again hc hd hp hstep hp1 => rw [hidle _ rfl]; exact hpos
    | close hc hd hp hstep hp1 hz hlt2 hcl => rw [hidle _ rfl]; exact hpos
    | @broken p n w1 code hc hd hp hstep hp1 hno hnb hna hcl =>
      refine lt_of_le_of_lt (headerRank_le _) ?_
      rw [hrank]
      change 0 + (9 - 6) < _
      cases hb : w.r.isBroken with
      | false =>
        simp only [Bool.false_eq_true, if_false]
        omega
      | true =>
        -- the side condition and the step of RESPONSE_HEADERS_1 leave only earlier states
        have h1 : w.r.state ≠ .responseHeaders1 := fun hs =>
          hno (responseHeaders1_of_broken hs hb hstep)
        have h23 : ¬(w.r.state = .responseHeaders2 ∨ w.r.state = .responseHeaders3) := by
          intro hs
          unfold headerStepOk at hok
          simp only [hp, hb, hs, and_self, if_true, hstep] at hok
          simp [hno, hnb, hna] at hok
        have hidx : w.r.state.index < 6 := by
          cases hs : w.r.state <;> simp_all [RequestState.index]
        simp only [if_true]
        omega

theorem activations_succ (env : Env W V) (w : World W V) (n : Nat) :
    activations env w (n + 1) = (activations env w n).bind (activate env) :=
  Function.iterate_succ_apply' _ n _

/-- A call that has left its header phase stays where it is. -/
theorem activations_stay {env : Env W V} {w : World W V} {m : Nat}
    (h : ∀ w', activations env w m = some w' → inHeaderPhase w' = false) (k : Nat) :
    ∀ w', activations env w (m + k) = some w' → inHeaderPhase w' = false := by
  induction k with
  | zero => exact h
  | succ k ih =>
    intro w' hw'
    rw [← Nat.add_assoc, activations_succ] at hw'
    obtain ⟨v, hv, hact⟩ := Option.bind_eq_some_iff.mp hw'
    have hout := ih v hv
    simp only [activate, hout, Bool.false_eq_true, if_false] at hact
    cases Option.some.inj hact
    exact hout

theorem leavesHeaderPhase_iff {env : Env W V} {w : World W V} :
    LeavesHeaderPhase env w ↔ ∃ m, ∀ n, m ≤ n → ∀ w', activations env w n = some w' →
      inHeaderPhase w' = true → headerStepOk env w' = true := by
  constructor
  · rintro ⟨m, hm⟩
    refine ⟨m, fun n hn w' hw' hin => ?_⟩
    obtain ⟨k, rfl⟩ := Nat.exists_eq_add_of_le hn
    rw [activations_stay hm k w' hw'] at hin
    cases hin
  · rintro ⟨m, hm⟩
    have hstop := exists_stop_of_rank (f := fun s : Option (World W V) => s.bind (activate env))
      (s := activations env w m) (fun s => ∀ w', s = some w' → inHeaderPhase w' = false)
      headerRank ?_
    · obtain ⟨n, hn⟩ := hstop
      refine ⟨n + m, fun w' hw' => hn w' ?_⟩
      unfold activations at hw' ⊢
      rw [← hw', ← Function.iterate_add_apply]
    · intro n hgo
      have hgo' : ∃ w', activations env w (n + m) = some w' ∧ inHeaderPhase w' = true := by
        by_contra hnone
        refine hgo fun w' hw' => ?_
        by_contra hin
        refine hnone ⟨w', ?_, by simpa using hin⟩
        rw [← hw']
        unfold activations
        rw [← Function.iterate_add_apply]
      obtain ⟨w', hw', hin⟩ := hgo'
      have hiter : (fun s : Option (World W V) => s.bind (activate env))^[n] (activations env w m) =
          some w' := by
        rw [← hw']
        unfold activations
        rw [← Function.iterate_add_apply]
      rw [Function.iterate_succ_apply', hiter]
      exact headerRank_falls hin (hm (n + m) (Nat.le_add_left m n) w' hw' hin)

/-- A `response_headers` filter that answers a status code every time. -/
def refusingPath : ConfPath Unit Unit where
  reqBodyMax := 0
  reqBodySync := true
  filters := fun
    | .responseHeaders => [fun r e => ⟨500, r.req, r.resp, none, e, []⟩]
    | _ => []
  bodyFilters := []
  content := some {
    processHeaders := none
    processBody := none
    responseHeaders := fun r e =>
      ⟨phlOk, r.req, { r.resp with statusCode := 200, contentLength := 0 }, none, e, []⟩
    responseBody := none }

/-- The two states of a broken request between which that filter keeps it. -/
def Spins (w : World Unit Unit) : Prop :=
  w.ctl = .running ∧ w.r.closed = false ∧ w.r.isBroken = true ∧ w.r.confPath = some 1 ∧
    w.r.filterIndexs .responseHeaders = 0 ∧
    (w.r.state = .responseHeaders1 ∨ w.r.state = .responseHeaders2)

instance (w : World Unit Unit) : Decidable (Spins w) :=
  inferInstanceAs (Decidable (_ ∧ _))

theorem spins_activate {w : World Unit Unit} (h : Spins w) :
    ∃ w', activate (Env.single refusingPath) w = some w' ∧ Spins w' := by
  obtain ⟨hrun, hopen, hb, hp, hi, hs | hs⟩ := h
  · have hin : inHeaderPhase w = true := by
      simp [inHeaderPhase, hrun, hopen, hs, RequestState.index]
    simp only [activate, hin, if_true]
    by_cases heasy : w.r.resp.easyStrLen = 0 ∧ w.r.resp.easyFd = 0
    · simp [phlRequestRun, phlRequestStep, phlRequestResponseHeaders1, phlRequestRunReturn, hopen,
        hs, hb, hp, heasy, Spins, hrun, hi, RequestState.next]
    · simp [phlRequestRun, phlRequestStep, phlRequestResponseHeaders1, phlRequestRunReturn, hopen,
        hs, hb, hp, heasy, Spins, hrun, hi, RequestState.next]
  · have hin : inHeaderPhase w = true := by
      simp [inHeaderPhase, hrun, hopen, hs, RequestState.index]
    simp only [activate, hin, if_true]
    have hbreak : (500 : Int) ≠ phlBreak := by decide
    have hagain : (500 : Int) ≠ phlAgain := by decide
    have herror : (500 : Int) ≠ phlError := by decide
    simp [phlRequestRun, phlRequestStep, phlRequestResponseHeaders2, phlRequestRunReturn, hopen, hs,
      hp, Spins, hrun, hi, phlModuleFilter, Env.single, refusingPath, phlModuleFilterRun,
      callHandler, hbreak, hagain, herror]

/-- Every error answer is refused again. -/
theorem header_phase_endless : ¬LeavesHeaderPhase (Env.single refusingPath)
    (streamWorld (Env.single refusingPath) [(bytes ":path", bytes "/")] ()) := by
  have hfirst : (activations (Env.single refusingPath)
      (streamWorld (Env.single refusingPath) [(bytes ":path", bytes "/")] ()) 7).map
        (fun w => decide (Spins w)) = some true := by decide
  obtain ⟨w, hw, hspins⟩ := Option.map_eq_some_iff.mp hfirst
  have hforever : ∀ k, ∃ w', activations (Env.single refusingPath)
      (streamWorld (Env.single refusingPath) [(bytes ":path", bytes "/")] ()) (7 + k) = some w' ∧
        Spins w' := by
    intro k
    induction k with
    | zero => exact ⟨w, hw, by simpa using hspins⟩
    | succ k ih =>
      obtain ⟨v, hv, hs⟩ := ih
      obtain ⟨v', hact, hs'⟩ := spins_activate hs
      exact ⟨v', by rw [← Nat.add_assoc, activations_succ, hv]; exact hact, hs'⟩
  rintro ⟨m, hm⟩
  obtain ⟨v, hv, hrun, hopen, -, -, -, hs⟩ := hforever m
  have hout := activations_stay hm 7 v (by rw [Nat.add_comm]; exact hv)
  rcases hs with hs | hs <;> simp [inHeaderPhase, hrun, hopen, hs, RequestState.index] at hout

end Phorklift
