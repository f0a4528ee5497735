import Phorklift.RequestFrame
import Phorklift.WireRequest

/-! What the steps of a request take out of the receive buffer. -/

namespace Phorklift

section Recv

variable {W V : Type} {env : Env W V} {p : PathId} {w w' : World W V} {ret : Int}

theorem phlRequestClose_recv (h : phlRequestClose env w = some w') : w'.recv = w.recv := by
  cases phlRequestClose_closes h with
  | _ => rfl

theorem phlConnectionMakeSpace_recv {size : Nat}
    (h : phlConnectionMakeSpace env size w = some (ret, w')) : w'.recv = w.recv := by
  cases phlConnectionMakeSpace_makes h with
  | closes h1 =>
    have hclose := phlRequestClose_recv h1
    exact hclose
  | _ => rfl

theorem phlRequestRedirect_recv (path : Bytes) :
    (phlRequestRedirect env path w).2.recv = w.recv := by
  unfold phlRequestRedirect
  dsimp only
  split
  next => rfl
  next => split <;> rfl

theorem callHandler_recv (env : Env W V) (f : Handler W V) (ev : Int → Event V)
    (w : World W V) :
    (callHandler env f ev w).2.recv = w.recv := by
  unfold callHandler
  dsimp only
  split
  next => rfl
  next path _ => exact phlRequestRedirect_recv path

theorem phlModuleFilterRun_recv {k : FilterKind} (modules : List (Handler W V)) :
    (phlModuleFilterRun env k modules w).2.recv = w.recv := by
  induction modules generalizing w with
  | nil => rfl
  | cons m modules ih =>
    have hcall := callHandler_recv env m (.filter k (w.r.filterIndexs k)) w
    unfold phlModuleFilterRun
    dsimp only
    split
    next => exact hcall
    next => rw [ih]; exact hcall

theorem phlRequestDynamicGet_recv : (phlRequestDynamicGet env p w).2.recv = w.recv := by
  unfold phlRequestDynamicGet
  dsimp only
  split
  next => rfl
  next => split <;> rfl

theorem phlRequestLocateConfHost_recv : (phlRequestLocateConfHost env w).2.recv = w.recv := by
  unfold phlRequestLocateConfHost
  split
  next => rfl
  next => split <;> rfl

theorem phlRequestLocateConfPath_recv (h : phlRequestLocateConfPath env p w = some (ret, w')) :
    w'.recv = w.recv := by
  obtain ⟨host, -, h⟩ := Option.bind_eq_some_iff.mp h
  split at h
  next =>
    have hx : _ = w' := congrArg Prod.snd (Option.some.inj h)
    rw [← hx]
    exact phlRequestDynamicGet_recv
  next =>
    split at h
    next => cases h; rfl
    next =>
      split at h
      next => cases h; rfl
      next =>
        have hx : _ = w' := congrArg Prod.snd (Option.some.inj h)
        rw [← hx]
        exact phlRequestDynamicGet_recv

theorem filters_then_content_recv {k : FilterKind} {content : Option (ContentModule W V)}
    {pick : ContentModule W V → Option (Handler W V)} {ck : ContentKind}
    (h : (if (phlModuleFilter env p k w).1 ≠ phlOk then some (phlModuleFilter env p k w)
      else do
        let content ← content
        match pick content with
        | none => some (phlOk, (phlModuleFilter env p k w).2)
        | some f => some (callHandler env f (.content ck p) (phlModuleFilter env p k w).2))
      = some (ret, w')) : w'.recv = w.recv := by
  have hfilters : (phlModuleFilter env p k w).2.recv = w.recv := phlModuleFilterRun_recv _
  split at h
  next =>
    rw [Option.some.inj h] at hfilters
    exact hfilters
  next =>
    obtain ⟨content, -, h⟩ := Option.bind_eq_some_iff.mp h
    split at h
    next => cases h; exact hfilters
    next f _ =>
      have hcall := callHandler_recv env f (.content ck p) (phlModuleFilter env p k w).2
      rw [Option.some.inj h] at hcall
      exact hcall.trans hfilters

theorem phlRequestProcessBody_recv (h : phlRequestProcessBody env p w = some (ret, w')) :
    w'.recv = w.recv := by
  unfold phlRequestProcessBody at h
  split at h
  next => cases h; rfl
  next =>
    split at h
    next => cases h; rfl
    next =>
      split at h
      next => cases h; rfl
      next => exact filters_then_content_recv h

theorem phlRequestResponseHeaders1_recv (h : phlRequestResponseHeaders1 env p w = some (ret, w')) :
    w'.recv = w.recv := by
  obtain ⟨⟨m, w1⟩, ha, h⟩ := Option.map_eq_some_iff.mp h
  cases h
  split at ha
  next =>
    obtain ⟨content, -, ha⟩ := Option.map_eq_some_iff.mp ha
    have hcall := callHandler_recv env content.responseHeaders (.content .responseHeaders p) w
    rw [ha] at hcall
    exact hcall
  next => split at ha <;> cases ha <;> rfl

theorem phlRequestResponseHeaders3_recv (h : phlRequestResponseHeaders3 env w = some (ret, w')) :
    w'.recv = w.recv := by
  rcases phlRequestResponseHeaders3_inv h with ⟨-, -, hsame⟩ | ⟨n, w1, hm, hmade⟩
  · rw [hsame]
  · have hrecv := phlConnectionMakeSpace_recv hm
    rcases hmade with ⟨-, -, hw'⟩ | ⟨-, -, hw'⟩
    · rw [hw']
      exact hrecv
    · rw [hw']
      exact hrecv

theorem generateBody_frame {bufLen : Nat} {data : Except Failure Bytes}
    (h : generateBody env p bufLen w = some (data, w')) :
    w'.recv = w.recv ∧ w'.connClosed = w.connClosed := by
  cases generateBody_made h with
  | same => exact ⟨rfl, rfl⟩
  | read len => exact ⟨rfl, rfl⟩
  | source ret hcontent hsource hbroken => exact ⟨rfl, rfl⟩

theorem filterAndPack_recv {bufLen : Nat} {data : Bytes} {isLast : Bool} :
    (filterAndPack env p bufLen data isLast w).2.recv = w.recv := by
  unfold filterAndPack
  dsimp only
  split <;> rfl

theorem phlRequestResponseBody_recv {ret : Option Int}
    (h : phlRequestResponseBody env p w = some (ret, w')) : w'.recv = w.recv := by
  obtain ⟨made, hm, h⟩ := Option.bind_eq_some_iff.mp h
  have hmade := phlConnectionMakeSpace_recv hm
  dsimp only at h
  split at h
  next => cases h; exact hmade
  next =>
    split at h
    next => cases h; exact hmade
    next =>
      split at h
      next =>
        have hx : _ = w' := congrArg Prod.snd (Option.some.inj h)
        rw [← hx]
        exact filterAndPack_recv.trans hmade
      next =>
        obtain ⟨⟨data, w1⟩, hg, h⟩ := Option.bind_eq_some_iff.mp h
        have hgen := (generateBody_frame hg).1.trans hmade
        dsimp only at h
        split at h
        next => cases h; exact hgen
        next =>
          have hx : _ = w' := congrArg Prod.snd (Option.some.inj h)
          rw [← hx]
          exact filterAndPack_recv.trans hgen

/-- Only two of the steps read the buffer. -/
theorem phlRequestStep_recv {ret : Option Int} (h : phlRequestStep env p w = some (ret, w'))
    (hhead : w.r.state ≠ .receiveHeaders) (hbody : w.r.state ≠ .receiveBodySync) :
    w'.recv = w.recv := by
  unfold phlRequestStep at h
  dsimp only at h
  cases hs : w.r.state with
  | receiveHeaders => exact absurd hs hhead
  | locateConfHost =>
    simp only [hs] at h
    cases h
    exact phlRequestLocateConfHost_recv
  | locateConfPath =>
    simp only [hs] at h
    obtain ⟨x, hx, he⟩ := Option.map_eq_some_iff.mp h
    cases he
    exact phlRequestLocateConfPath_recv hx
  | receiveBodySync => exact absurd hs hbody
  | processHeaders =>
    simp only [hs] at h
    obtain ⟨x, hx, he⟩ := Option.map_eq_some_iff.mp h
    cases he
    exact filters_then_content_recv hx
  | processBody =>
    simp only [hs] at h
    obtain ⟨x, hx, he⟩ := Option.map_eq_some_iff.mp h
    cases he
    exact phlRequestProcessBody_recv hx
  | responseHeaders1 =>
    simp only [hs] at h
    obtain ⟨x, hx, he⟩ := Option.map_eq_some_iff.mp h
    cases he
    exact phlRequestResponseHeaders1_recv hx
  | responseHeaders2 =>
    simp only [hs] at h
    cases h
    exact phlModuleFilterRun_recv _
  | responseHeaders3 =>
    simp only [hs] at h
    obtain ⟨x, hx, he⟩ := Option.map_eq_some_iff.mp h
    cases he
    exact phlRequestResponseHeaders3_recv hx
  | responseBody =>
    simp only [hs] at h
    exact phlRequestResponseBody_recv h
  | done => simp [hs] at h

end Recv

section Body

variable {lib : Libwuya} {body unsent recv : Bytes} {r : Req}

/-- Of the request while its body arrives. -/
structure BodyReq (body unsent recv : Bytes) (r : Req) : Prop where
  data : r.bodyBuf ++ recv ++ unsent = body
  length : r.contentLength = body.length
  finished : r.bodyFinished = true → r.bodyBuf = body

/-- `phl_request_append_body` takes what is no more than announced. -/
theorem phlRequestAppendBody_takes {reqBodyMax : Nat} (hsmall : body.length < 2 ^ 63)
    (h : BodyReq body unsent recv r) : ∃ r', phlRequestAppendBody reqBodyMax r recv = (phlOk, r') ∧
      BodyReq body unsent [] r' := by
  have hlen := congrArg List.length h.data
  simp only [List.length_append] at hlen
  have hinit : r.contentLength ≠ phlContentLengthInit := by
    rw [h.length]
    unfold phlContentLengthInit
    omega
  unfold phlRequestAppendBody
  dsimp only
  split
  next hempty =>
    have hnone := List.eq_nil_of_length_eq_zero hempty
    subst hnone
    exact ⟨r, rfl, h⟩
  next =>
    rw [if_neg (by rw [h.length]; omega)]
    refine ⟨_, rfl, by simpa using h.data, h.length, fun hf => ?_⟩
    have hfull : body.length ≤ r.bodyBuf.length + recv.length := by
      rw [← h.length]
      simpa using hf
    have hrest : unsent = [] := List.eq_nil_of_length_eq_zero (by omega)
    have hdata := h.data
    rwa [hrest, List.append_nil] at hdata

/-- The body has been read when the step is over. -/
theorem phlHttp1RequestBody_takes {reqBodyMax : Nat} (hsmall : body.length < 2 ^ 63)
    (h : BodyReq body unsent recv r) :
    ∃ ret r', phlHttp1RequestBody lib reqBodyMax r recv = (ret, r', []) ∧
      (ret = phlAgain ∨ ret = phlOk ∧ r'.bodyBuf = body) ∧ BodyReq body unsent [] r' := by
  have hinit : r.contentLength ≠ phlContentLengthInit := by
    rw [h.length]
    unfold phlContentLengthInit
    omega
  obtain ⟨r', happend, hr'⟩ := @phlRequestAppendBody_takes _ _ _ _ reqBodyMax hsmall h
  unfold phlHttp1RequestBody
  rw [if_neg (fun hboth => hinit hboth.1), if_pos hinit]
  dsimp only
  rw [happend, if_neg (by simp)]
  refine ⟨_, r', rfl, ?_, hr'⟩
  dsimp only
  split
  next hf => exact .inr ⟨rfl, hr'.finished hf⟩
  next => exact .inl rfl

/-- Without anything in the buffer nothing is left in it. -/
theorem phlHttp1RequestBody_nil {reqBodyMax : Nat} :
    (phlHttp1RequestBody lib reqBodyMax r []).2.2 = [] := by
  unfold phlHttp1RequestBody
  dsimp only
  repeat' split
  all_goals rfl

end Body

end Phorklift
