import Phorklift.StreamBody

/-! The states of a request on an HTTP/2 stream whose headers may end a second time. -/

namespace Phorklift

open Transition

variable {W V : Type}

/-- A stream, and how often its request has left `PHL_REQUEST_STATE_RECEIVE_HEADERS`. -/
structure HookedStream (W V : Type) where
  w : World W V
  left : Nat

/-- The hooks of an open stream in any order; trailers are headers, and their end is an end of
headers. Past `PHL_REQUEST_STATE_DONE` the assertion of `phl_request_run` fails. -/
def hookWorld (env : Env W V) (w : World W V) : StreamAct W → Option (World W V)
  | .header name value =>
    if w.ctl = .idle ∧ w.r.closed = false then
      some { w with r.req := (phlHttp2HookStreamHeader env.lib w.r.req name value).2 }
    else none
  | .headersEnd endStream =>
    if w.ctl = .idle ∧ w.r.closed = false ∧ w.r.state ≠ .done then
      some { w with r := (phlHttp2HookStreamHeadersEnd endStream w.r).2 }
    else none
  | .body buf =>
    w.r.confPath.bind fun p =>
      if w.ctl = .idle ∧ w.r.closed = false then
        some { w with r := (phlHttp2HookStreamBody (env.path p).reqBodyMax w.r buf).2 }
      else none
  | .call => if w.ctl = .idle then some { w with ctl := .running } else none
  | .run => if w.ctl = .running then phlRequestRun env w else none
  | .elsewhere e => if w.ctl = .idle then some { w with env := e } else none
  | .close connection =>
    if w.ctl = .idle then
      phlRequestClose env { w with connClosed := w.connClosed || connection }
    else none

def hookStep (env : Env W V) (s : HookedStream W V) (a : StreamAct W) :
    Option (HookedStream W V) :=
  (hookWorld env s.w a).map fun w =>
    ⟨w, if s.w.r.state = .receiveHeaders ∧ w.r.state ≠ .receiveHeaders then s.left + 1 else s.left⟩

def HookedStart (env : Env W V) (s : HookedStream W V) : Prop :=
  ∃ e, s = ⟨newStream env e, 0⟩

/-- The headers end while the request receives them, or their end is refused. -/
def HeadersEndFirst (s : HookedStream W V) (a : StreamAct W) : Prop :=
  ∀ endStream, a = .headersEnd endStream → s.w.r.state = .receiveHeaders ∨
    (endStream = true ∧ s.w.r.req.contentLength ≠ phlContentLengthInit ∧
      s.w.r.req.contentLength ≠ 0)

/-- A state after the headers is left by what its step has returned to `phl_request_run`. -/
inductive LeavesState (env : Env W V) (w : World W V) : StreamAct W → World W V → Prop
  | stays {a w'} : w'.r.state = w.r.state → LeavesState env w a w'
  | headersEnd {endStream w'} : w.r.state = .receiveHeaders → w'.r.state = .locateConfHost →
      LeavesState env w (.headersEnd endStream) w'
  | returned {p ret w1 w'} : w.r.state ≠ .receiveHeaders → w.r.confPath = some p →
      phlRequestStep env p w = some (some ret, w1) → phlRequestRunReturn env ret w1 = some w' →
      LeavesState env w .run w'

section Steps

variable {env : Env W V} {w w' : World W V} {s s' : HookedStream W V} {a : StreamAct W}

theorem phlRequestRun_leaves (h2 : w.r.isHttp2 = true) (h : phlRequestRun env w = some w') :
    LeavesState env w .run w' := by
  have hran := phlRequestRun_stream h2 h
  by_cases hs : w.r.state = .receiveHeaders
  · exact .stays (by rw [hran.headers.mp hs, hs])
  unfold phlRequestRun at h
  split at h
  next =>
    cases Option.some.inj h
    exact .stays rfl
  next =>
    obtain ⟨p, hp, h⟩ := Option.bind_eq_some_iff.mp h
    split at h
    next =>
      obtain ⟨w1, h1, h⟩ := Option.bind_eq_some_iff.mp h
      cases Option.some.inj h
      exact .stays (phlRequestClose_frame h1).1
    next =>
      obtain ⟨⟨ret, w1⟩, hstep, h⟩ := Option.bind_eq_some_iff.mp h
      cases ret with
      | none =>
        cases Option.some.inj h
        exact .stays (phlRequestStep_kept hstep (by simp)).state
      | some ret => exact .returned hs hp hstep h

/-- The end of the headers, where it is not refused, moves a request on from any state. -/
theorem headersEnd_state (endStream : Bool) (r : Request) :
    (phlHttp2HookStreamHeadersEnd endStream r).2.state =
      if endStream = true ∧ r.req.contentLength ≠ phlContentLengthInit ∧ r.req.contentLength ≠ 0
      then r.state else r.state.next := by
  unfold phlHttp2HookStreamHeadersEnd
  dsimp only
  split <;> rfl

theorem phlHttp2HookStreamBody_frame (reqBodyMax : Nat) (r : Request) (buf : Option Bytes) :
    (phlHttp2HookStreamBody reqBodyMax r buf).2.state = r.state ∧
      (phlHttp2HookStreamBody reqBodyMax r buf).2.isHttp2 = r.isHttp2 := by
  cases buf with
  | none => exact ⟨rfl, rfl⟩
  | some buf =>
    unfold phlHttp2HookStreamBody
    dsimp only
    split <;> exact ⟨rfl, rfl⟩

theorem hookWorld_isHttp2 (h2 : w.r.isHttp2 = true) (h : hookWorld env w a = some w') :
    w'.r.isHttp2 = true := by
  cases a with
  | run =>
    obtain ⟨-, h⟩ := Option.ite_none_right_eq_some.mp h
    exact (phlRequestRun_stream h2 h).isHttp2
  | close connection =>
    obtain ⟨-, h⟩ := Option.ite_none_right_eq_some.mp h
    exact (phlRequestClose_frame h).2.1.trans h2
  | body buf =>
    obtain ⟨p, -, h⟩ := Option.bind_eq_some_iff.mp h
    obtain ⟨-, h⟩ := Option.ite_none_right_eq_some.mp h
    cases h
    exact (phlHttp2HookStreamBody_frame _ _ _).2.trans h2
  | headersEnd endStream =>
    obtain ⟨-, h⟩ := Option.ite_none_right_eq_some.mp h
    cases h
    unfold phlHttp2HookStreamHeadersEnd
    dsimp only
    split <;> exact h2
  | _ =>
    obtain ⟨-, h⟩ := Option.ite_none_right_eq_some.mp h
    cases h
    exact h2

/-- All but the end of the headers leave the state to `phl_request_run`. -/
theorem hookWorld_leaves (h2 : w.r.isHttp2 = true) (h : hookWorld env w a = some w') :
    LeavesState env w a w' ↔ HeadersEndFirst ⟨w, 0⟩ a := by
  cases a with
  | headersEnd endStream =>
    obtain ⟨⟨-, -, hdone⟩, h⟩ := Option.ite_none_right_eq_some.mp h
    cases h
    have hstate := headersEnd_state endStream w.r
    constructor
    · intro hleaves e he
      cases he
      by_contra hcon
      rw [not_or] at hcon
      rw [if_neg hcon.2] at hstate
      cases hleaves with
      | stays hstays =>
        have hidx := RequestState.index_next hdone
        rw [← hstate, hstays] at hidx
        omega
      | headersEnd hrecv => exact hcon.1 hrecv
    · intro hfirst
      by_cases hrefused : endStream = true ∧ w.r.req.contentLength ≠ phlContentLengthInit ∧
          w.r.req.contentLength ≠ 0
      · rw [if_pos hrefused] at hstate
        exact .stays hstate
      · have hrecv : w.r.state = .receiveHeaders := (hfirst endStream rfl).resolve_right hrefused
        rw [if_neg hrefused, hrecv] at hstate
        exact .headersEnd hrecv hstate
  | run =>
    obtain ⟨-, h⟩ := Option.ite_none_right_eq_some.mp h
    exact iff_of_true (phlRequestRun_leaves h2 h) fun _ he => by cases he
  | close connection =>
    obtain ⟨-, h⟩ := Option.ite_none_right_eq_some.mp h
    exact iff_of_true (.stays (phlRequestClose_frame h).1) fun _ he => by cases he
  | body buf =>
    obtain ⟨p, -, h⟩ := Option.bind_eq_some_iff.mp h
    obtain ⟨-, h⟩ := Option.ite_none_right_eq_some.mp h
    cases h
    exact iff_of_true (.stays (phlHttp2HookStreamBody_frame _ _ _).1) fun _ he => by cases he
  | _ =>
    obtain ⟨-, h⟩ := Option.ite_none_right_eq_some.mp h
    cases h
    exact iff_of_true (.stays rfl) fun _ he => by cases he

/-- `PHL_REQUEST_STATE_RECEIVE_HEADERS` is not entered again. -/
theorem hookWorld_receiveHeaders (h2 : w.r.isHttp2 = true) (h : hookWorld env w a = some w')
    (hs : w'.r.state = .receiveHeaders) : w.r.state = .receiveHeaders := by
  cases a with
  | headersEnd endStream =>
    obtain ⟨⟨-, -, hdone⟩, h⟩ := Option.ite_none_right_eq_some.mp h
    cases h
    have hstate := headersEnd_state endStream w.r
    split at hstate
    next => exact hstate.symm.trans hs
    next =>
      have hidx := RequestState.index_next hdone
      rw [← hstate, hs] at hidx
      cases hidx
  | run =>
    obtain ⟨-, h⟩ := Option.ite_none_right_eq_some.mp h
    exact (phlRequestRun_stream h2 h).headers.mpr hs
  | _ =>
    have hleaves := (hookWorld_leaves h2 h).mpr fun _ he => by cases he
    cases hleaves with
    | stays hstays => exact hstays.symm.trans hs

structure HookedInv (s : HookedStream W V) : Prop where
  isHttp2 : s.w.r.isHttp2 = true
  left : s.left = if s.w.r.state = .receiveHeaders then 0 else 1

theorem hookStep_keeps (hinv : HookedInv s) (h : hookStep env s a = some s') : HookedInv s' := by
  obtain ⟨w, hw, rfl⟩ := Option.map_eq_some_iff.mp h
  refine ⟨hookWorld_isHttp2 hinv.isHttp2 hw, ?_⟩
  have hback := hookWorld_receiveHeaders hinv.isHttp2 hw
  have hleft := hinv.left
  dsimp only
  by_cases hs : s.w.r.state = .receiveHeaders
  · rw [if_pos hs] at hleft
    by_cases hs' : w.r.state = .receiveHeaders
    · rw [if_neg (fun hand => hand.2 hs'), if_pos hs', hleft]
    · rw [if_pos ⟨hs, hs'⟩, if_neg hs', hleft]
  · rw [if_neg hs] at hleft
    have hs' : w.r.state ≠ .receiveHeaders := fun hs' => hs (hback hs')
    rw [if_neg (fun hand => hs hand.1), if_neg hs', hleft]

end Steps

/-- In runs whose headers end once, RECEIVE_HEADERS is left once, and each later state by its own
step. -/
theorem states_left_by_steps {env : Env W V} {s : HookedStream W V}
    (h : Reachable (HookedStart env) (ActStep (hookStep env) HeadersEndFirst) s) :
    s.left ≤ 1 ∧ ∀ a s', hookStep env s a = some s' →
      (LeavesState env s.w a s'.w ↔ HeadersEndFirst s a) := by
  have hinv : HookedInv s := by
    refine h.invariant ?_ ?_
    · rintro _ ⟨e, rfl⟩
      exact ⟨rfl, rfl⟩
    · rintro t u ht ⟨a, -, hstep⟩
      exact hookStep_keeps ht hstep
  constructor
  · rw [hinv.left]
    split <;> omega
  · intro a s' hstep
    obtain ⟨w, hw, rfl⟩ := Option.map_eq_some_iff.mp hstep
    exact hookWorld_leaves hinv.isHttp2 hw

/-- A Path whose filter waits for something, and whose content answers 200. -/
def waitingPath : ConfPath Unit Unit where
  reqBodyMax := 0
  reqBodySync := false
  filters
    | .processHeaders => [fun r e => ⟨phlAgain, r.req, r.resp, none, e, []⟩]
    | _ => []
  bodyFilters := []
  content := some {
    processHeaders := none
    processBody := none
    responseHeaders := fun r e =>
      ⟨phlOk, r.req, { r.resp with statusCode := 200, contentLength := 0 }, none, e, []⟩
    responseBody := none }

/-- A request that has come to its filter. -/
def waitingActs : List (StreamAct Unit) :=
  [.header (bytes ":path") (bytes "/"), .headersEnd false, .call, .run, .run, .run, .run]

def headersEndFirst (s : HookedStream W V) : StreamAct W → Bool
  | .headersEnd _ => decide (s.w.r.state = .receiveHeaders)
  | _ => true

theorem headersEndFirst_ok {s : HookedStream W V} {a : StreamAct W}
    (h : headersEndFirst s a = true) : HeadersEndFirst s a := by
  rintro endStream rfl
  exact .inl (of_decide_eq_true h)

theorem states_left_by_steps_waiting : ∃ s : HookedStream Unit Unit,
    runActs (hookStep (.single waitingPath)) waitingActs ⟨newStream (.single waitingPath) (), 0⟩ =
      some s ∧ s.w.r.state = .processHeaders ∧ s.left ≤ 1 := by
  have hrun : (runActs (hookStep (.single waitingPath)) waitingActs
      ⟨newStream (.single waitingPath) (), 0⟩).map (fun s => s.w.r.state) =
      some .processHeaders := by decide +kernel
  obtain ⟨s, hs, hstate⟩ := Option.map_eq_some_iff.mp hrun
  have hok : ActsMeet (hookStep (.single waitingPath)) HeadersEndFirst waitingActs
      ⟨newStream (.single waitingPath) (), 0⟩ := by
    have hcheck : checkActs (hookStep (.single waitingPath)) headersEndFirst waitingActs
        ⟨newStream (.single waitingPath) (), 0⟩ = true := by decide +kernel
    exact actsMeet_of_check (fun _ _ => headersEndFirst_ok) hcheck
  exact ⟨s, hs, hstate, (states_left_by_steps (.runActs (.start ⟨(), rfl⟩) hok hs)).1⟩

/-- The end of the trailers takes the place of the filter: the content answers behind a filter
that has let nothing through. -/
theorem trailers_skip_filter : ∃ s s' : HookedStream Unit Unit,
    Reachable (HookedStart (.single waitingPath))
      (ActStep (hookStep (.single waitingPath)) fun _ _ => True) s ∧
    hookStep (.single waitingPath) s (.headersEnd true) = some s' ∧
    ¬LeavesState (.single waitingPath) s.w (.headersEnd true) s'.w ∧
    ∃ t, runActs (hookStep (.single waitingPath)) [.call, .run, .run] s' = some t ∧
      Event.content .responseHeaders 1 phlOk ∈ t.w.trace ∧
      Event.filter .processHeaders 0 phlOk ∉ t.w.trace := by
  have hrun : (runActs (hookStep (.single waitingPath)) waitingActs
      ⟨newStream (.single waitingPath) (), 0⟩).bind (fun s =>
        (hookStep (.single waitingPath) s (.headersEnd true)).bind fun s' =>
          (runActs (hookStep (.single waitingPath)) [.call, .run, .run] s').map fun t =>
            (s.w.r.state, s'.w.r.state, t.w.trace)) =
      some (.processHeaders, .processBody, [.located 1, .filter .processHeaders 0 phlAgain,
        .content .responseHeaders 1 phlOk]) := by decide +kernel
  obtain ⟨s, hs, hrun⟩ := Option.bind_eq_some_iff.mp hrun
  obtain ⟨s', hs', hrun⟩ := Option.bind_eq_some_iff.mp hrun
  obtain ⟨t, ht, hfacts⟩ := Option.map_eq_some_iff.mp hrun
  simp only [Prod.mk.injEq] at hfacts
  obtain ⟨hstate, hstate', htrace⟩ := hfacts
  refine ⟨s, s', Reachable.runActs (.start ⟨(), rfl⟩)
    (actsMeet_of_forall _ _ fun _ _ => trivial) hs, hs', fun hleaves => ?_, t, ht, ?_, ?_⟩
  · cases hleaves with
    | stays hstays =>
      rw [hstate, hstate'] at hstays
      cases hstays
    | headersEnd hrecv =>
      rw [hstate] at hrecv
      cases hrecv
  · rw [htrace]
    simp
  · rw [htrace]
    simp [phlOk, phlAgain]

end Phorklift
