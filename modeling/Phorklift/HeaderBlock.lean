import Phorklift.RequestFrame

/-! The header block of a response comes once and before the body. -/

namespace Phorklift

open Transition

variable {W V : Type}

def Event.isHeaders : Event V → Bool
  | .headers .. => true
  | _ => false

/-- A header block or a piece of body. -/
def Event.starts : Event V → Bool
  | .headers .. => true
  | .body .. => true
  | _ => false

/-- No header block follows another one or a piece of body. -/
def HeadersOnce (trace : List (Event V)) : Prop :=
  trace.Pairwise fun a b => b.isHeaders → ¬a.starts

/-- A response that has started has passed its header states. -/
def HeadersInv (w : World W V) : Prop :=
  HeadersOnce w.trace ∧ ((∀ e ∈ w.trace, ¬e.starts) ∨ w.r.state = .responseBody ∨
    w.r.state = .done ∨ w.r.closed = true)

/-- The step about to be taken in `RESPONSE_BODY`, if any, returns `PHL_OK`, `PHL_AGAIN` or
`PHL_BREAK`, or `PHL_ERROR` with `status_code` 0, or closes the request. -/
def bodyStepOk (env : Env W V) (w : World W V) : Bool :=
  match w.r.state, w.r.confPath with
  | .responseBody, some p =>
    match phlRequestStep env p w with
    | some (some n, w1) =>
      w1.r.closed || n == phlOk || n == phlAgain || n == phlBreak ||
        n == phlError && w1.r.resp.statusCode == 0
    | _ => true
  | _, _ => true

theorem headersOnce_append {u v : List (Event V)} (hu : HeadersOnce u)
    (hv : ∀ e ∈ v, e.isHeaders = false) : HeadersOnce (u ++ v) := by
  refine List.pairwise_append.mpr ⟨hu, ?_, ?_⟩
  · refine List.pairwise_of_forall_mem_list fun a _ b hb hh => ?_
    rw [hv b hb] at hh
    cases hh
  · intro a _ b hb hh
    rw [hv b hb] at hh
    cases hh

theorem not_isHeaders_of_not_starts {e : Event V} (h : ¬e.starts) : e.isHeaders = false := by
  cases e <;> simp_all [Event.starts, Event.isHeaders]

theorem headersOnce_of_not_starts {u v : List (Event V)} (hu : ∀ e ∈ u, ¬e.starts)
    (hv : HeadersOnce v) : HeadersOnce (u ++ v) := by
  refine List.pairwise_append.mpr ⟨?_, hv, fun a ha _ _ _ => hu a ha⟩
  exact List.pairwise_of_forall_mem_list fun a ha _ _ _ => hu a ha

/-- In `RESPONSE_HEADERS_3` nothing is appended or one header block, and then the step is over. -/
theorem phlRequestResponseHeaders3_cases {env : Env W V} {w w' : World W V} {ret : Int}
    (h : phlRequestResponseHeaders3 env w = some (ret, w')) :
    (∃ es, w'.trace = w.trace ++ es ∧ ∀ e ∈ es, ¬e.starts) ∨
    (ret = phlOk ∧ ∃ es code n hs, w'.trace = w.trace ++ es ++ [.headers code n hs] ∧
      ∀ e ∈ es, ¬e.starts) := by
  rcases phlRequestResponseHeaders3_inv h with ⟨-, -, hsame⟩ | ⟨n, w1, hm, hmade⟩
  · rw [hsame]
    exact .inl ⟨[], by simp, by simp⟩
  · have hkept := phlConnectionMakeSpace_kept (P := fun e : Event V => ¬e.starts) (L := False)
      (K := fun _ => False) (fun _ => by simp [Event.starts]) (by simp [Event.starts])
      (by simp [Event.starts]) hm
    obtain ⟨es, ht, hes⟩ := hkept.trace
    rcases hmade with ⟨-, -, hw'⟩ | ⟨-, hret, hw'⟩
    · rw [hw']
      exact .inl ⟨es, ht, hes⟩
    · rw [hw']
      exact .inr ⟨hret, es, _, _, _, by rw [World.emit_trace, ht], hes⟩

theorem not_starts_of_ofStep {r : Request} {p : PathId} {e : Event V} (h : e.ofStep r p)
    (h3 : r.state ≠ .responseHeaders3) (hb : r.state ≠ .responseBody) : ¬e.starts := by
  cases e <;> simp_all [Event.ofStep, Event.starts]

theorem not_isHeaders_of_ofStep {r : Request} {p : PathId} {e : Event V} (h : e.ofStep r p)
    (h3 : r.state ≠ .responseHeaders3) : e.isHeaders = false := by
  cases e <;> simp_all [Event.ofStep, Event.isHeaders]

/-- Closing logs no part of a response. -/
theorem headersInv_close {env : Env W V} {w w' : World W V} (hi : HeadersOnce w.trace)
    (h : phlRequestClose env w = some w') : HeadersInv { w' with ctl := .idle } ∧ HeadersInv w' := by
  obtain ⟨hk, hc⟩ := phlRequestClose_kept (P := fun e : Event V => e.isHeaders = false)
    (L := False) (K := fun _ => False) (fun _ => rfl) rfl rfl h
  obtain ⟨es, ht, hes⟩ := hk.trace
  have honce : HeadersOnce w'.trace := by
    rw [ht]
    exact headersOnce_append hi hes
  exact ⟨⟨honce, .inr (.inr (.inr hc))⟩, honce, .inr (.inr (.inr hc))⟩

/-- What a step of an open request does to the invariant, before `phl_request_run` looks at its
return value. -/
theorem headersInv_step {env : Env W V} {p : PathId} {w w1 : World W V} {ret : Option Int}
    (hi : HeadersInv w) (hc : w.r.closed = false) (hd : w.r.state ≠ .done)
    (h : phlRequestStep env p w = some (ret, w1)) (hp : ret ≠ none → w1.r.confPath ≠ none) :
    HeadersOnce w1.trace ∧ ((∀ e ∈ w1.trace, ¬e.starts) ∨ w.r.state = .responseBody ∨
      w.r.state = .responseHeaders3 ∧ ret = some phlOk) := by
  obtain ⟨es, ht, hes⟩ := (phlRequestStep_kept h hp).trace
  by_cases hb : w.r.state = .responseBody
  · refine ⟨?_, .inr (.inl hb)⟩
    rw [ht]
    exact headersOnce_append hi.1 fun e he => not_isHeaders_of_ofStep (hes e he) (by simp [hb])
  · have hfresh : ∀ e ∈ w.trace, ¬e.starts := by
      rcases hi.2 with hf | hs | hs | hs
      · exact hf
      · exact absurd hs hb
      · exact absurd hs hd
      · simp [hc] at hs
    have hquiet : (∀ e ∈ es, ¬e.starts) → HeadersOnce w1.trace ∧ ∀ e ∈ w1.trace, ¬e.starts := by
      intro hq
      rw [ht]
      refine ⟨headersOnce_append hi.1 fun e he => not_isHeaders_of_not_starts (hq e he), ?_⟩
      intro e he
      rcases List.mem_append.mp he with he | he
      · exact hfresh e he
      · exact hq e he
    by_cases h3 : w.r.state = .responseHeaders3
    · simp only [phlRequestStep, h3] at h
      obtain ⟨⟨n, w2⟩, hx, he⟩ := Option.map_eq_some_iff.mp h
      cases he
      rcases phlRequestResponseHeaders3_cases hx with ⟨es', ht', hes'⟩ | ⟨rfl, es', c, m, hs, ht', hes'⟩
      · have : es = es' := List.append_cancel_left (ht.symm.trans ht')
        subst this
        exact ⟨(hquiet hes').1, .inl (hquiet hes').2⟩
      · refine ⟨?_, .inr (.inr ⟨h3, rfl⟩)⟩
        rw [ht', List.append_assoc]
        refine headersOnce_of_not_starts hfresh (headersOnce_of_not_starts hes' ?_)
        exact List.pairwise_singleton _ _
    · have hq := hquiet fun e he => not_starts_of_ofStep (hes e he) h3 hb
      exact ⟨hq.1, .inl hq.2⟩

theorem headersInv_run {env : Env W V} {w w' : World W V} (hi : HeadersInv w)
    (hok : bodyStepOk env w = true) (h : phlRequestRun env w = some w') : HeadersInv w' := by
  cases phlRequestRun_ran h with
  | closed hc => exact ⟨hi.1, .inr (.inr (.inr hc))⟩
  | done hc hs hcl => exact (headersInv_close hi.1 hcl).1
  | round hc hd hp hstep =>
    obtain ⟨honce, hstart⟩ := headersInv_step hi hc hd hstep (by simp)
    have hk := phlRequestStep_kept hstep (by simp)
    refine ⟨honce, ?_⟩
    rcases hstart with hf | hb | ⟨-, hr⟩
    · exact .inl hf
    · exact .inr (.inl (hk.state.trans hb))
    · cases hr
  | @next p n w1 hc hd hp hstep hp1 hn =>
    obtain ⟨honce, hstart⟩ := headersInv_step hi hc hd hstep (fun _ => hp1)
    have hk := phlRequestStep_kept hstep (fun _ => hp1)
    refine ⟨honce, ?_⟩
    rcases hstart with hf | hb | ⟨h3, -⟩
    · exact .inl hf
    · exact .inr (.inr (.inl (by simp [hk.state, hb, RequestState.next])))
    · exact .inr (.inl (by simp [hk.state, h3, RequestState.next]))
  | again hc hd hp hstep hp1 =>
    obtain ⟨honce, hstart⟩ := headersInv_step hi hc hd hstep (fun _ => hp1)
    have hk := phlRequestStep_kept hstep (fun _ => hp1)
    refine ⟨honce, ?_⟩
    rcases hstart with hf | hb | ⟨-, hr⟩
    · exact .inl hf
    · exact .inr (.inl (hk.state.trans hb))
    · cases hr
  | close hc hd hp hstep hp1 hz hlt hcl =>
    exact (headersInv_close (headersInv_step hi hc hd hstep fun _ => hp1).1 hcl).1
  | @broken p n w1 code hc hd hp hstep hp1 hno hnb hna hcl =>
    obtain ⟨honce, hstart⟩ := headersInv_step hi hc hd hstep (fun _ => hp1)
    have hk := phlRequestStep_kept hstep (fun _ => hp1)
    have honce' : HeadersOnce (w1.trace ++ [.broken code]) :=
      headersOnce_append honce (by simp [Event.isHeaders])
    refine ⟨honce', ?_⟩
    rcases hstart with hf | hb | ⟨-, hr⟩
    · refine .inl fun e he => ?_
      rcases List.mem_append.mp he with he | he
      · exact hf e he
      · simp_all [Event.starts]
    · -- in RESPONSE_BODY the side condition leaves only a request that has just been closed
      have hbody : w1.r.closed = true := by
        unfold bodyStepOk at hok
        simp only [hb, hp, hstep] at hok
        by_contra hopen
        have hw1 : w1.r.state = .responseBody := hk.state.trans hb
        simp only [hw1, RequestState.index] at hcl
        simp [hopen, hno, hna, hnb] at hok
        exact hcl ⟨hok.1, hok.2, by decide⟩
      exact .inr (.inr (.inr hbody))
    · cases hr; exact absurd rfl hno

theorem headersInv_keep {env : Env W V} {w w' : World W V} (hi : HeadersInv w)
    (h : StepOk env (bodyStepOk env) w w') : HeadersInv w' := by
  obtain ⟨hs, hok⟩ := h
  cases hs with
  | call hidle => exact hi
  | run hrun hr => exact headersInv_run hi (hok hrun) hr
  | receive data hidle => exact hi
  | header name value hidle h2 hstate => exact hi
  | headersEnd endStream hidle h2 hstate hopen =>
    refine ⟨hi.1, ?_⟩
    rcases hi.2 with hf | hs | hs | hs
    · exact .inl hf
    · simp [hstate] at hs
    · simp [hstate] at hs
    · simp [hopen] at hs
  | body p buf hidle h2 hp =>
    cases buf with
    | none => exact hi
    | some buf =>
      unfold phlHttp2HookStreamBody
      dsimp only
      split
      next => exact hi
      next => exact hi
  | elsewhere hidle he => exact hi
  | @close _ connection hidle hcl =>
    exact (headersInv_close (w := { w with connClosed := w.connClosed || connection }) hi.1 hcl).2

theorem response_headers_once {env : Env W V} {w : World W V}
    (h : Reachable (Init env) (StepOk env (bodyStepOk env)) w) : HeadersOnce w.trace := by
  refine (h.invariant (I := HeadersInv) ?_ fun _ _ hi hs => headersInv_keep hi hs).1
  rintro s ⟨ht, -, -⟩
  exact ⟨by simp [ht, HeadersOnce], .inl (by simp [ht])⟩

/-- A content module that announces ten bytes of body, sends five and then `rest`. -/
def relayPath (rest : Except Failure Bytes) : ConfPath Bool Unit where
  reqBodyMax := 0
  reqBodySync := true
  filters := fun _ => []
  bodyFilters := []
  content := some {
    processHeaders := none
    processBody := none
    responseHeaders := fun r e =>
      ⟨phlOk, r.req, { r.resp with statusCode := 200, contentLength := 10 }, none, e, []⟩
    responseBody := some fun _ _ e =>
      if e then ⟨rest, false, e, []⟩ else ⟨.ok (bytes "hello"), false, true, []⟩ }

def relay (rest : Except Failure Bytes) : World Bool Unit :=
  streamWorld (Env.single (relayPath rest)) [(bytes ":path", bytes "/")] false

instance : DecidablePred (HeadersOnce (V := V)) :=
  fun trace => inferInstanceAs (Decidable (List.Pairwise _ trace))

/-- A body that arrives whole. -/
theorem response_headers_once_relay :
    ∃ w, runs (Env.single (relayPath (.ok (bytes "world"))))
        (bodyStepOk (Env.single (relayPath (.ok (bytes "world"))))) 11
        (relay (.ok (bytes "world"))) = some w ∧
      w.trace.countP Event.isHeaders = 1 ∧ w.r.closed = true ∧ HeadersOnce w.trace := by
  have h : (runs (Env.single (relayPath (.ok (bytes "world"))))
      (bodyStepOk (Env.single (relayPath (.ok (bytes "world"))))) 11
      (relay (.ok (bytes "world")))).map (fun w => (w.trace.countP Event.isHeaders, w.r.closed)) =
        some (1, true) := by decide
  obtain ⟨w, hw, ht⟩ := Option.map_eq_some_iff.mp h
  obtain ⟨hcount, hclosed⟩ := Prod.mk.inj ht
  exact ⟨w, hw, hcount, hclosed, response_headers_once (reachable_stream (init_new _ _) rfl hw)⟩

/-- A body source that fails after five bytes: the request starts again with the status code it
has already sent. -/
theorem response_headers_twice :
    ∃ w, Reachable (Init (Env.single (relayPath (.error ⟨phlError, by decide⟩))))
        (Step (Env.single (relayPath (.error ⟨phlError, by decide⟩)))) w ∧
      ¬HeadersOnce w.trace := by
  have h : (runs (Env.single (relayPath (.error ⟨phlError, by decide⟩))) (fun _ => true) 13
      (relay (.error ⟨phlError, by decide⟩))).map (fun w => decide (HeadersOnce w.trace)) =
        some false := by decide
  obtain ⟨w, hw, ht⟩ := Option.map_eq_some_iff.mp h
  exact ⟨w, (reachable_stream (init_new _ _) rfl hw).mono fun _ _ hs => hs.1, by simpa using ht⟩

end Phorklift
