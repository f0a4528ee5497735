import Phorklift.RequestFrame

/-! The body of a request on an HTTP/2 stream: its declared length and its limit. -/

namespace Phorklift

open Transition

variable {W V : Type}

/-- A stream and what its client has sent. -/
structure BodyStream (W V : Type) where
  w : World W V
  /-- the length that the last content-length header gives -/
  declared : Option Nat
  /-- the bytes that the body hook was given -/
  received : Nat
  ended : Bool
  /-- the status code that a hook set before it returned false, 0 for none -/
  refused : Option Int

def BodyStream.new (env : Env W V) (e : W) : BodyStream W V :=
  ⟨newStream env e, none, 0, false, none⟩

inductive StreamAct (W : Type)
  | header (name value : Bytes)
  | headersEnd (endStream : Bool)
  | body (buf : Option Bytes)
  | call
  | run
  | elsewhere (e : W)
  | close (connection : Bool)

/-- What `strtol` reads is stored as a `size_t`, and one value of it stands for no length. -/
def declaredLength (value : Bytes) : Option Nat :=
  if toSize (strtol value).value = phlContentLengthInit then none
  else some (toSize (strtol value).value)

/-- The library calls hooks while `phl_request_run` is not on the stack, and none on a stream that
is closed or that a hook has refused. -/
def BodyStream.hooked (b : BodyStream W V) : Bool :=
  b.refused.isNone && b.w.ctl == .idle && !b.w.r.closed

/-- The hooks in the order of HTTP/2: headers, their end, body, the end of the stream. -/
def streamStep (env : Env W V) (b : BodyStream W V) : StreamAct W → Option (BodyStream W V)
  | .header name value =>
    if b.hooked ∧ b.w.r.state = .receiveHeaders then
      let called := phlHttp2HookStreamHeader env.lib b.w.r.req name value
      some { b with
        w := { b.w with r.req := called.2 }
        declared := if name = bytes "content-length" then declaredLength value else b.declared
        refused := if called.1 then none else some 0 }
    else none
  | .headersEnd endStream =>
    if b.hooked ∧ b.w.r.state = .receiveHeaders then
      let called := phlHttp2HookStreamHeadersEnd endStream b.w.r
      some { b with
        w := { b.w with r := called.2 }
        ended := endStream
        refused := if called.1 then none else some 0 }
    else none
  | .body buf =>
    match b.w.r.confPath with
    | none => none
    | some p =>
      if b.hooked ∧ b.w.r.state ≠ .receiveHeaders ∧ b.ended = false then
        let called := phlHttp2HookStreamBody (env.path p).reqBodyMax b.w.r buf
        some { b with
          w := { b.w with r := called.2 }
          received := b.received + (buf.getD []).length
          ended := buf.isNone
          refused := if called.1 then none else some called.2.resp.statusCode }
      else none
  | .call => if b.hooked then some { b with w := { b.w with ctl := .running } } else none
  | .run =>
    if b.w.ctl = .running then (phlRequestRun env b.w).map fun w => { b with w := w } else none
  | .elsewhere e => if b.w.ctl = .idle then some { b with w := { b.w with env := e } } else none
  | .close connection =>
    if b.w.ctl = .idle then
      (phlRequestClose env { b.w with connClosed := b.w.connClosed || connection }).map
        fun w => { b with w := w }
    else none

def StreamStart (env : Env W V) (b : BodyStream W V) : Prop :=
  ∃ e, b = .new env e

section Steps

variable {env : Env W V} {w w' : World W V}

theorem phlRequestClose_req (h : phlRequestClose env w = some w') : w'.r.req = w.r.req := by
  cases phlRequestClose_closes h with
  | _ => rfl

theorem phlRequestClose_frame (h : phlRequestClose env w = some w') :
    w'.r.state = w.r.state ∧ w'.r.isHttp2 = w.r.isHttp2 ∧ w'.ctl = w.ctl := by
  have hkept := (phlRequestClose_kept (P := fun _ => True) (L := True) (K := fun _ => True)
    (fun _ => trivial) trivial trivial h).1
  exact ⟨hkept.state, hkept.isHttp2, hkept.ctl⟩

theorem phlRequestDynamicGet_req (p : PathId) (w : World W V) :
    (phlRequestDynamicGet env p w).2.r.req = w.r.req := by
  unfold phlRequestDynamicGet
  dsimp only
  split
  next => rfl
  next => split <;> rfl

/-- The steps before `phl_request_process_headers` leave the request of a stream alone. -/
theorem phlRequestStep_req {p : PathId} {ret : Option Int} (h2 : w.r.isHttp2 = true)
    (hs : w.r.state.index ≤ 3) (h : phlRequestStep env p w = some (ret, w')) :
    w'.r.req = w.r.req ∧ (w.r.state = .receiveBodySync → ret ≠ some phlAgain →
      (env.path p).reqBodySync = true → w.r.req.bodyFinished = true) ∧
      (w.r.state = .receiveHeaders → ret = some phlAgain) := by
  unfold phlRequestStep at h
  dsimp only at h
  cases hst : w.r.state with
  | receiveHeaders =>
    simp only [hst, phlRequestReceiveHeaders, h2, if_true] at h
    cases h
    exact ⟨rfl, (fun hne => by cases hne), fun _ => rfl⟩
  | locateConfHost =>
    simp only [hst] at h
    cases h
    refine ⟨?_, (fun hne => by cases hne), fun hne => by cases hne⟩
    unfold phlRequestLocateConfHost
    split
    next => rfl
    next => split <;> rfl
  | locateConfPath =>
    simp only [hst] at h
    refine ⟨?_, (fun hne => by cases hne), fun hne => by cases hne⟩
    obtain ⟨x, hx, he⟩ := Option.map_eq_some_iff.mp h
    cases he
    obtain ⟨host, -, hx⟩ := Option.bind_eq_some_iff.mp hx
    split at hx
    next => cases Option.some.inj hx; exact phlRequestDynamicGet_req p w
    next =>
      split at hx
      next => cases Option.some.inj hx; rfl
      next =>
        split at hx
        next => cases Option.some.inj hx; rfl
        next q _ => cases Option.some.inj hx; exact phlRequestDynamicGet_req q _
  | receiveBodySync =>
    simp only [hst, phlRequestReceiveBodySync, h2, if_true] at h
    split at h
    next hsync =>
      cases h
      exact ⟨rfl, fun _ _ hon => by simp [hsync] at hon, fun hne => by cases hne⟩
    next =>
      cases h
      refine ⟨rfl, fun _ hret _ => ?_, fun hne => by cases hne⟩
      by_contra hn
      exact hret (by rw [if_neg hn])
  | _ => simp [hst, RequestState.index] at hs

/-- An activation of `phl_request_run` on a stream, seen from the request's body. -/
structure StreamRan (env : Env W V) (w w' : World W V) : Prop where
  isHttp2 : w'.r.isHttp2 = true
  late : 3 < w.r.state.index → 3 < w'.r.state.index
  req : w.r.state.index ≤ 3 → w'.r.req = w.r.req
  headers : w.r.state = .receiveHeaders ↔ w'.r.state = .receiveHeaders
  bodySync : w.r.state = .receiveBodySync → w'.r.state = .processHeaders →
    ∀ p, w.r.confPath = some p → (env.path p).reqBodySync = true → w.r.req.bodyFinished = true

theorem StreamRan.same (h2 : w.r.isHttp2 = true) (h2' : w'.r.isHttp2 = w.r.isHttp2)
    (hs : w'.r.state = w.r.state) (hreq : w.r.state.index ≤ 3 → w'.r.req = w.r.req) :
    StreamRan env w w' := by
  refine ⟨h2'.trans h2, fun h => by rw [hs]; exact h, hreq, by rw [hs], fun hb hp => ?_⟩
  rw [hs, hb] at hp
  cases hp

theorem StreamRan.early (h : StreamRan env w w') (hle : w'.r.state.index ≤ 3) :
    w.r.state.index ≤ 3 := by
  by_contra hlt
  have hlate := h.late (by omega)
  omega

theorem phlRequestRun_stream (h2 : w.r.isHttp2 = true) (h : phlRequestRun env w = some w') :
    StreamRan env w w' := by
  have hkept : ∀ {p ret w1}, phlRequestStep env p w = some (some ret, w1) →
      w1.r.confPath ≠ none → w1.r.state = w.r.state ∧ w1.r.isHttp2 = w.r.isHttp2 := by
    intro p ret w1 hstep hp1
    have hk := phlRequestStep_kept hstep fun _ => hp1
    exact ⟨hk.state, hk.isHttp2⟩
  cases phlRequestRun_ran h with
  | closed => exact .same h2 rfl rfl fun _ => rfl
  | done _ hs h1 =>
    obtain ⟨hstate, hhttp, -⟩ := phlRequestClose_frame h1
    have hreq := phlRequestClose_req h1
    exact .same h2 hhttp hstate fun _ => hreq
  | round _ _ _ hstep =>
    have hk := phlRequestStep_kept hstep (by simp)
    exact .same h2 hk.isHttp2 hk.state fun hle => (phlRequestStep_req h2 hle hstep).1
  | again _ _ _ hstep hp1 =>
    obtain ⟨hstate, hhttp⟩ := hkept hstep hp1
    exact .same h2 hhttp hstate fun hle => (phlRequestStep_req h2 hle hstep).1
  | close _ _ _ hstep hp1 _ hlt h1 =>
    obtain ⟨hstate, hhttp⟩ := hkept hstep hp1
    obtain ⟨hstate', hhttp', -⟩ := phlRequestClose_frame h1
    refine .same h2 (hhttp'.trans hhttp) (hstate'.trans hstate) fun hle => ?_
    have hidx : RequestState.responseHeaders1.index = 6 := rfl
    rw [hstate] at hlt
    omega
  | broken _ _ hs _ hstep hp1 _ _ hagain =>
    obtain ⟨hstate, hhttp⟩ := hkept hstep hp1
    refine ⟨hhttp.trans h2, fun _ => (by decide : 3 < RequestState.responseHeaders1.index),
      fun hle => (phlRequestStep_req h2 hle hstep).1,
      ⟨fun hrecv => ?_, fun hrecv => by cases hrecv⟩, fun _ hp => by cases hp⟩
    have hret := (phlRequestStep_req h2 (by rw [hrecv]; decide) hstep).2.2 hrecv
    exact absurd (Option.some.inj hret) hagain
  | @next p n w1 _ hs hp hstep hp1 hn =>
    obtain ⟨hstate, hhttp⟩ := hkept hstep hp1
    have hidx : w1.r.state.next.index = w.r.state.index + 1 := by
      rw [hstate]
      exact RequestState.index_next hs
    refine ⟨hhttp.trans h2, fun hlt => ?_, fun hle => (phlRequestStep_req h2 hle hstep).1,
      ⟨fun hrecv => ?_, fun hrecv => ?_⟩, fun hb _ q hq hsync => ?_⟩
    · show 3 < w1.r.state.next.index
      omega
    · have hret := (phlRequestStep_req h2 (by rw [hrecv]; decide) hstep).2.2 hrecv
      cases Option.some.inj hret
      rcases hn with hn | hn <;> cases hn
    · have hzero : w1.r.state.next = .receiveHeaders := hrecv
      rw [hzero] at hidx
      cases hidx
    · have hpq : p = q := Option.some.inj (hp.symm.trans hq)
      subst hpq
      refine (phlRequestStep_req h2 (by rw [hb]; decide) hstep).2.1 hb (fun hret => ?_) hsync
      have hagain : n = phlAgain := Option.some.inj hret
      rw [hagain] at hn
      rcases hn with hn | hn <;> cases hn

/-- Two requests with the same body so far. -/
structure SameBody (r r' : Req) : Prop where
  contentLength : r'.contentLength = r.contentLength
  bodyBuf : r'.bodyBuf = r.bodyBuf
  bodyFinished : r'.bodyFinished = r.bodyFinished

theorem SameBody.refl (r : Req) : SameBody r r :=
  ⟨rfl, rfl, rfl⟩

theorem phlRequestSetHost_sameBody (r : Req) (hostStr : Bytes) :
    SameBody r (phlRequestSetHost r hostStr).2 := by
  obtain ⟨host, h⟩ := phlRequestSetHost_writes r hostStr
  rw [h]
  exact ⟨rfl, rfl, rfl⟩

theorem phlRequestSetUri_sameBody (lib : Libwuya) (r : Req) (uriStr : Bytes) :
    SameBody r (phlRequestSetUri lib r uriStr).2 := by
  obtain ⟨uri, host, h⟩ := phlRequestSetUri_writes lib r uriStr
  rw [h]
  exact ⟨rfl, rfl, rfl⟩

/-- A header hook writes the length that it declares, and no body. -/
theorem phlHttp2HookStreamHeader_body (lib : Libwuya) (r : Req) (name value : Bytes) :
    SameBody { r with
      contentLength := (if name = bytes "content-length" then toSize (strtol value).value
        else r.contentLength) }
      (phlHttp2HookStreamHeader lib r name value).2 := by
  unfold phlHttp2HookStreamHeader
  by_cases hcolon : name.head? = some 58
  · have hname : name ≠ bytes "content-length" := by
      rintro rfl
      revert hcolon
      decide
    rw [if_neg hname, if_pos hcolon]
    split
    next => exact phlRequestSetUri_sameBody lib r value
    next =>
      split
      next => exact phlRequestSetHost_sameBody r value
      next =>
        split
        next => exact .refl r
        next =>
          split
          next => split <;> exact ⟨rfl, rfl, rfl⟩
          next => exact .refl r
  · rw [if_neg hcolon]
    by_cases hname : name = bytes "content-length"
    · rw [if_pos hname, if_pos hname]
      exact ⟨rfl, rfl, rfl⟩
    · rw [if_neg hname, if_neg hname]
      exact ⟨rfl, rfl, rfl⟩

end Steps

theorem declaredLength_getD (value : Bytes) :
    (declaredLength value).getD phlContentLengthInit = toSize (strtol value).value := by
  unfold declaredLength
  split
  next h => exact h.symm
  next => rfl

/-- What holds of a stream in every run: up to the receipt of the body the request holds what
the hooks were given. -/
structure StreamInv (b : BodyStream W V) : Prop where
  isHttp2 : b.w.r.isHttp2 = true
  start : b.refused = none → b.w.r.state = .receiveHeaders →
    b.received = 0 ∧ b.ended = false ∧ b.w.r.req.bodyFinished = false
  early : b.refused = none → b.w.r.state.index ≤ 3 →
    b.w.r.req.contentLength = b.declared.getD phlContentLengthInit ∧
      b.w.r.req.bodyBuf.length = b.received
  declared : b.declared ≠ some phlContentLengthInit
  stopped : b.refused ≠ none → b.w.ctl = .idle

variable {env : Env W V} {b c : BodyStream W V}

/-- What a body hook can do. -/
inductive HookedBody (reqBodyMax : Nat) (r : Request) : Option Bytes → Bool × Request → Prop
  | finish : HookedBody reqBodyMax r none (true, { r with req.bodyFinished := true })
  | empty : HookedBody reqBodyMax r (some []) (true, r)
  | exceeds {buf} : r.req.contentLength ≠ phlContentLengthInit →
      r.req.contentLength < r.req.bodyBuf.length + buf.length →
      HookedBody reqBodyMax r (some buf) (false, { r with resp.statusCode := 400 })
  | counted {buf} : r.req.contentLength ≠ phlContentLengthInit →
      r.req.bodyBuf.length + buf.length ≤ r.req.contentLength →
      HookedBody reqBodyMax r (some buf) (true, { r with
        req.bodyBuf := r.req.bodyBuf ++ buf
        req.bodyFinished := decide (r.req.contentLength ≤ r.req.bodyBuf.length + buf.length) })
  | tooLarge {buf} : buf ≠ [] → r.req.contentLength = phlContentLengthInit → reqBodyMax ≠ 0 →
      reqBodyMax < r.req.bodyBuf.length + buf.length →
      HookedBody reqBodyMax r (some buf) (false, { r with resp.statusCode := 413 })
  | taken {buf} : buf ≠ [] → r.req.contentLength = phlContentLengthInit →
      ¬(reqBodyMax ≠ 0 ∧ reqBodyMax < r.req.bodyBuf.length + buf.length) →
      HookedBody reqBodyMax r (some buf) (true, { r with req.bodyBuf := r.req.bodyBuf ++ buf })

theorem phlHttp2HookStreamBody_hooked (reqBodyMax : Nat) (r : Request) (buf : Option Bytes) :
    HookedBody reqBodyMax r buf (phlHttp2HookStreamBody reqBodyMax r buf) := by
  cases buf with
  | none => exact .finish
  | some buf =>
    unfold phlHttp2HookStreamBody phlRequestAppendBody
    dsimp only
    by_cases hempty : buf.length = 0
    · have hnil : buf = [] := List.length_eq_zero_iff.mp hempty
      subst hnil
      exact .empty
    · rw [if_neg hempty]
      by_cases hlen : r.req.contentLength = phlContentLengthInit
      · rw [if_neg (not_not.mpr hlen)]
        have hsome : buf ≠ [] := fun hnil => hempty (by rw [hnil, List.length_nil])
        by_cases hmax : reqBodyMax ≠ 0 ∧ reqBodyMax < r.req.bodyBuf.length + buf.length
        · rw [if_pos hmax]
          exact .tooLarge hsome hlen hmax.1 hmax.2
        · rw [if_neg hmax]
          exact .taken hsome hlen hmax
      · rw [if_pos hlen]
        by_cases hover : r.req.contentLength < r.req.bodyBuf.length + buf.length
        · rw [if_pos hover]
          exact .exceeds hlen hover
        · rw [if_neg hover]
          exact .counted hlen (Nat.le_of_not_lt hover)

theorem hooked_refused (h : b.hooked = true) : b.refused = none ∧ b.w.ctl = .idle := by
  unfold BodyStream.hooked at h
  simp only [Bool.and_eq_true, Option.isNone_iff_eq_none, beq_iff_eq] at h
  exact h.1

/-- What a step of a stream can do. -/
inductive Streamed (env : Env W V) (b : BodyStream W V) : StreamAct W → BodyStream W V → Prop
  | header {name value r} (ok : Bool) : b.refused = none ∧ b.w.ctl = .idle →
      b.w.r.state = .receiveHeaders →
      SameBody { b.w.r.req with
        contentLength := (if name = bytes "content-length" then toSize (strtol value).value
          else b.w.r.req.contentLength) } r →
      Streamed env b (.header name value) { b with
        w := { b.w with r.req := r }
        declared := if name = bytes "content-length" then declaredLength value else b.declared
        refused := if ok then none else some 0 }
  | refusedEnd : b.w.ctl = .idle → b.w.r.req.contentLength ≠ phlContentLengthInit →
      b.w.r.req.contentLength ≠ 0 → Streamed env b (.headersEnd true) { b with
        w := { b.w with r.req.bodyFinished := true }, ended := true, refused := some 0 }
  | headersEnd {endStream} : b.refused = none → b.w.r.state = .receiveHeaders →
      (endStream = true → b.w.r.req.contentLength = phlContentLengthInit ∨
        b.w.r.req.contentLength = 0) →
      Streamed env b (.headersEnd endStream) { b with
        w := { b.w with
          r.req.bodyFinished := endStream || b.w.r.req.bodyFinished
          r.state := .locateConfHost }
        ended := endStream
        refused := none }
  | body {buf p x} : b.refused = none ∧ b.w.ctl = .idle → b.w.r.confPath = some p →
      b.w.r.state ≠ .receiveHeaders → HookedBody (env.path p).reqBodyMax b.w.r buf x →
      Streamed env b (.body buf) { b with
        w := { b.w with r := x.2 }
        received := b.received + (buf.getD []).length
        ended := buf.isNone
        refused := if x.1 then none else some x.2.resp.statusCode }
  | other {a w} : StreamRan env b.w w →
      b.refused = none ∨ b.w.ctl = .running ∨ w.ctl = .idle ∧ w.r.state = b.w.r.state →
      Streamed env b a { b with w := w }

theorem streamStep_streamed {a : StreamAct W} (h2 : b.w.r.isHttp2 = true)
    (h : streamStep env b a = some c) : Streamed env b a c := by
  cases a with
  | header name value =>
    obtain ⟨⟨hhook, hs⟩, h⟩ := Option.ite_none_right_eq_some.mp h
    cases h
    exact .header _ (hooked_refused hhook) hs (phlHttp2HookStreamHeader_body ..)
  | headersEnd endStream =>
    obtain ⟨⟨hhook, hs⟩, h⟩ := Option.ite_none_right_eq_some.mp h
    cases h
    unfold phlHttp2HookStreamHeadersEnd
    dsimp only
    by_cases hbad : endStream = true ∧ b.w.r.req.contentLength ≠ phlContentLengthInit ∧
        b.w.r.req.contentLength ≠ 0
    · rw [if_pos hbad]
      obtain ⟨rfl, hinit, hzero⟩ := hbad
      exact .refusedEnd (hooked_refused hhook).2 hinit hzero
    · rw [if_neg hbad]
      have hend : endStream = true → b.w.r.req.contentLength = phlContentLengthInit ∨
          b.w.r.req.contentLength = 0 := by
        intro hon
        by_contra hn
        exact hbad ⟨hon, not_or.mp hn⟩
      have hdone : Streamed env b (.headersEnd endStream) _ :=
        .headersEnd (hooked_refused hhook).1 hs hend
      simp only [hs]
      exact hdone
  | body buf =>
    unfold streamStep at h
    dsimp only at h
    split at h
    next => cases h
    next p hp =>
      obtain ⟨⟨hhook, hs, -⟩, h⟩ := Option.ite_none_right_eq_some.mp h
      cases h
      exact .body (hooked_refused hhook) hp hs (phlHttp2HookStreamBody_hooked ..)
  | call =>
    obtain ⟨hhook, h⟩ := Option.ite_none_right_eq_some.mp h
    cases h
    exact .other (.same h2 rfl rfl fun _ => rfl) (.inl (hooked_refused hhook).1)
  | run =>
    obtain ⟨hrun, h⟩ := Option.ite_none_right_eq_some.mp h
    obtain ⟨w, hw, rfl⟩ := Option.map_eq_some_iff.mp h
    exact .other (phlRequestRun_stream h2 hw) (.inr (.inl hrun))
  | elsewhere e =>
    obtain ⟨hidle, h⟩ := Option.ite_none_right_eq_some.mp h
    cases h
    exact .other (.same h2 rfl rfl fun _ => rfl) (.inr (.inr ⟨hidle, rfl⟩))
  | close connection =>
    obtain ⟨hidle, h⟩ := Option.ite_none_right_eq_some.mp h
    obtain ⟨w, hw, rfl⟩ := Option.map_eq_some_iff.mp h
    obtain ⟨hstate, hhttp, hctl⟩ := phlRequestClose_frame hw
    have hreq := phlRequestClose_req hw
    exact .other (.same h2 hhttp hstate fun _ => hreq) (.inr (.inr ⟨hctl.trans hidle, hstate⟩))

theorem streamInv_new (env : Env W V) (e : W) : StreamInv (BodyStream.new env e) :=
  ⟨rfl, fun _ _ => ⟨rfl, rfl, rfl⟩, fun _ _ => ⟨rfl, rfl⟩, (by intro h; cases h), fun _ => rfl⟩

theorem declaredLength_ne (value : Bytes) :
    declaredLength value ≠ some phlContentLengthInit := by
  unfold declaredLength
  split
  next => simp
  next h => simpa using h

theorem Streamed.keeps {a : StreamAct W} (hinv : StreamInv b) (h : Streamed env b a c) :
    StreamInv c := by
  cases h with
  | @header name value r ok hhook hs hsame =>
    obtain ⟨hlen, hbuf⟩ := hinv.early hhook.1 (by rw [hs]; decide)
    obtain ⟨hzero, hopen, hfin⟩ := hinv.start hhook.1 hs
    refine ⟨hinv.isHttp2, fun _ _ => ⟨hzero, hopen, hsame.bodyFinished.trans hfin⟩,
      fun _ _ => ⟨?_, (congrArg List.length hsame.bodyBuf).trans hbuf⟩, ?_, fun _ => hhook.2⟩
    · show r.contentLength = _
      rw [hsame.contentLength]
      by_cases hname : name = bytes "content-length"
      · rw [if_pos hname, if_pos hname]
        exact (declaredLength_getD value).symm
      · rw [if_neg hname, if_neg hname]
        exact hlen
    · by_cases hname : name = bytes "content-length"
      · rw [if_pos hname]
        exact declaredLength_ne value
      · rw [if_neg hname]
        exact hinv.declared
  | refusedEnd hidle =>
    exact ⟨hinv.isHttp2, (fun hn => by cases hn), (fun hn => by cases hn), hinv.declared,
      fun _ => hidle⟩
  | headersEnd hnone hs _ =>
    have hearly := hinv.early hnone (by rw [hs]; decide)
    exact ⟨hinv.isHttp2, (fun _ hrecv => by cases hrecv), fun _ _ => hearly, hinv.declared,
      fun hn => absurd rfl hn⟩
  | @body buf p x hhook _ hs hbody =>
    have hearly := hinv.early hhook.1
    cases hbody with
    | finish | empty =>
      exact ⟨hinv.isHttp2, fun _ hrecv => absurd hrecv hs, fun _ => hearly, hinv.declared,
        fun _ => hhook.2⟩
    | exceeds | tooLarge =>
      exact ⟨hinv.isHttp2, (fun hn => by cases hn), (fun hn => by cases hn), hinv.declared,
        fun _ => hhook.2⟩
    | counted | taken =>
      refine ⟨hinv.isHttp2, fun _ hrecv => absurd hrecv hs, fun _ hle => ?_, hinv.declared,
        fun _ => hhook.2⟩
      obtain ⟨hlen, hbuf⟩ := hearly hle
      exact ⟨hlen, by simp [hbuf]⟩
  | other hran hctl =>
    refine ⟨hran.isHttp2, fun hnone hrecv => ?_, fun hnone hle => ?_, hinv.declared,
      fun hn => ?_⟩
    · have hs := hran.headers.mpr hrecv
      obtain ⟨hzero, hopen, hfin⟩ := hinv.start hnone hs
      refine ⟨hzero, hopen, ?_⟩
      rw [hran.req (by rw [hs]; decide)]
      exact hfin
    · have hle0 := hran.early hle
      rw [hran.req hle0]
      exact hinv.early hnone hle0
    · rcases hctl with hnone | hrun | ⟨hidle, -⟩
      · exact absurd hnone hn
      · have hidle := hinv.stopped hn
        rw [hrun] at hidle
        cases hidle
      · exact hidle

/-- The step by which the request goes from the receipt of its body to the content handlers. -/
def ReachesHandlers (env : Env W V) (b : BodyStream W V) (p : PathId) : Prop :=
  b.w.r.state = .receiveBodySync ∧ b.w.r.confPath = some p ∧ (env.path p).reqBodySync = true ∧
    ∃ a c, streamStep env b a = some c ∧ c.w.r.state = .processHeaders

theorem ReachesHandlers.finished {p : PathId} (hinv : StreamInv b)
    (h : ReachesHandlers env b p) : b.refused = none ∧ b.w.r.req.bodyFinished = true := by
  obtain ⟨hs, hp, hsync, a, c, hstep, hc⟩ := h
  have hmoved : c.w.r.state ≠ b.w.r.state := by
    rw [hs, hc]
    decide
  cases streamStep_streamed hinv.isHttp2 hstep with
  | header | refusedEnd => exact absurd rfl hmoved
  | headersEnd => cases hc
  | body _ _ _ hbody => cases hbody <;> exact absurd rfl hmoved
  | other hran hctl =>
    refine ⟨?_, hran.bodySync hs hc p hp hsync⟩
    rcases hctl with hnone | hrun | ⟨-, hstate⟩
    · exact hnone
    · by_contra hn
      have hidle := hinv.stopped hn
      rw [hrun] at hidle
      cases hidle
    · exact absurd hstate hmoved

/-- A request that declared a length is handled with as many bytes, and one that ended short of
them was refused. -/
def MeetsLength (env : Env W V) (b : BodyStream W V) : Prop :=
  ∀ n, b.declared = some n →
    (∀ p, ReachesHandlers env b p → b.received = n) ∧
      (b.ended = true → b.received < n → b.refused ≠ none)

/-- The stream does not end after its headers with less than the declared length. -/
def EndsFull (b : BodyStream W V) (a : StreamAct W) : Prop :=
  a = .body none → ∀ n, b.declared = some n → n ≤ b.received

structure LengthInv (b : BodyStream W V) : Prop extends StreamInv b where
  within : b.refused = none → b.w.r.state.index ≤ 3 → ∀ n, b.declared = some n → b.received ≤ n
  full : b.refused = none → b.w.r.state.index ≤ 3 → b.w.r.req.bodyFinished = true →
    ∀ n, b.declared = some n → n ≤ b.received
  ended : b.refused = none → b.ended = true → ∀ n, b.declared = some n → n ≤ b.received

theorem StreamInv.length_of_declared (hinv : StreamInv b) (hnone : b.refused = none)
    (hle : b.w.r.state.index ≤ 3) {n : Nat} (hn : b.declared = some n) :
    b.w.r.req.contentLength = n ∧ b.w.r.req.contentLength ≠ phlContentLengthInit := by
  have hlen := (hinv.early hnone hle).1
  rw [hn, Option.getD_some] at hlen
  refine ⟨hlen, fun hinit => hinv.declared ?_⟩
  rw [hn, ← hlen, hinit]

/-- The end of the headers ends the stream only where no body was declared. -/
theorem StreamInv.zero_of_end (hinv : StreamInv b) (hnone : b.refused = none)
    (hs : b.w.r.state = .receiveHeaders) (hend : b.w.r.req.contentLength = phlContentLengthInit ∨
      b.w.r.req.contentLength = 0) {n : Nat} (hn : b.declared = some n) : n = 0 := by
  obtain ⟨hlen, hne⟩ := hinv.length_of_declared hnone (by rw [hs]; decide) hn
  rcases hend with hinit | hzero
  · exact absurd hinit hne
  · omega

theorem Streamed.keeps_within {a : StreamAct W} (hinv : LengthInv b) (h : Streamed env b a c)
    (hnone : c.refused = none) (hle : c.w.r.state.index ≤ 3) {n : Nat} (hn : c.declared = some n) :
    c.received ≤ n := by
  cases h with
  | header _ hhook hs =>
    have hzero := (hinv.start hhook.1 hs).1
    show b.received ≤ n
    omega
  | refusedEnd => cases hnone
  | headersEnd hb hs _ =>
    have hzero := (hinv.start hb hs).1
    show b.received ≤ n
    omega
  | body hhook _ _ hbody =>
    cases hbody with
    | finish => exact hinv.within hhook.1 hle n hn
    | empty => exact hinv.within hhook.1 hle n hn
    | exceeds => cases hnone
    | tooLarge => cases hnone
    | counted _ hfits =>
      obtain ⟨hlen, -⟩ := hinv.length_of_declared hhook.1 hle hn
      have hbuf := (hinv.early hhook.1 hle).2
      simp only [Option.getD_some]
      omega
    | taken _ hinit => exact absurd hinit (hinv.length_of_declared hhook.1 hle hn).2
  | other hran => exact hinv.within hnone (hran.early hle) n hn

theorem Streamed.keeps_full {a : StreamAct W} (hinv : LengthInv b) (h : Streamed env b a c)
    (hok : EndsFull b a) (hnone : c.refused = none) (hle : c.w.r.state.index ≤ 3)
    (hfin : c.w.r.req.bodyFinished = true) {n : Nat} (hn : c.declared = some n) :
    n ≤ c.received := by
  cases h with
  | @header _ _ r _ hhook hs hsame =>
    have hopen : r.bodyFinished = false := hsame.bodyFinished.trans (hinv.start hhook.1 hs).2.2
    have hfin' : r.bodyFinished = true := hfin
    rw [hopen] at hfin'
    cases hfin'
  | refusedEnd => cases hnone
  | @headersEnd endStream hb hs hend =>
    have hopen := (hinv.start hb hs).2.2
    have hon : endStream = true := by simpa [hopen] using hfin
    have hzero := hinv.zero_of_end hb hs (hend hon) hn
    omega
  | body hhook _ _ hbody =>
    cases hbody with
    | finish => exact hok rfl n hn
    | empty => exact hinv.full hhook.1 hle hfin n hn
    | exceeds => cases hnone
    | tooLarge => cases hnone
    | counted =>
      obtain ⟨hlen, -⟩ := hinv.length_of_declared hhook.1 hle hn
      have hbuf := (hinv.early hhook.1 hle).2
      have hall := of_decide_eq_true hfin
      simp only [Option.getD_some]
      omega
    | taken _ hinit => exact absurd hinit (hinv.length_of_declared hhook.1 hle hn).2
  | other hran =>
    rw [hran.req (hran.early hle)] at hfin
    exact hinv.full hnone (hran.early hle) hfin n hn

theorem Streamed.keeps_ended {a : StreamAct W} (hinv : LengthInv b) (h : Streamed env b a c)
    (hok : EndsFull b a) (hnone : c.refused = none) (hend : c.ended = true) {n : Nat}
    (hn : c.declared = some n) : n ≤ c.received := by
  cases h with
  | header _ hhook hs =>
    have hopen : b.ended = false := (hinv.start hhook.1 hs).2.1
    have hclosed : b.ended = true := hend
    rw [hopen] at hclosed
    cases hclosed
  | refusedEnd => cases hnone
  | headersEnd hb hs hends =>
    have hzero := hinv.zero_of_end hb hs (hends hend) hn
    omega
  | body hhook _ _ hbody =>
    cases hbody with
    | finish => exact hok rfl n hn
    | _ => cases hend
  | other => exact hinv.ended hnone hend n hn

theorem LengthInv.meets (hinv : LengthInv b) : MeetsLength env b := by
  intro n hn
  refine ⟨fun p hp => ?_, fun hend hshort hnone => ?_⟩
  · obtain ⟨hnone, hfin⟩ := hp.finished hinv.toStreamInv
    have hle : b.w.r.state.index ≤ 3 := by
      rw [hp.1]
      decide
    have hwithin := hinv.within hnone hle n hn
    have hfull := hinv.full hnone hle hfin n hn
    omega
  · have hall := hinv.ended hnone hend n hn
    omega

/-- A request handled in `req_body_sync` mode has exactly the body that it declared, in every run
in which the stream does not end short of it. -/
theorem declared_length_of_endsFull
    (h : Reachable (StreamStart env) (ActStep (streamStep env) EndsFull) b) :
    MeetsLength env b := by
  have hinv : LengthInv b := by
    refine h.invariant ?_ ?_
    · rintro _ ⟨e, rfl⟩
      exact ⟨streamInv_new env e, (fun _ _ _ hn => by cases hn), (fun _ _ hf => by cases hf),
        fun _ he => by cases he⟩
    · rintro s t hs ⟨a, hok, hstep⟩
      have hstreamed := streamStep_streamed hs.isHttp2 hstep
      exact ⟨hstreamed.keeps hs.toStreamInv,
        fun hnone hle n hn => hstreamed.keeps_within hs hnone hle hn,
        fun hnone hle hfin n hn => hstreamed.keeps_full hs hok hnone hle hfin hn,
        fun hnone hend n hn => hstreamed.keeps_ended hs hok hnone hend hn⟩
  exact hinv.meets

/-- A Path that waits for the whole body. -/
def syncPath (reqBodyMax : Nat) : ConfPath Unit Unit :=
  ⟨reqBodyMax, true, fun _ => [], [], none⟩

/-- Five bytes are declared and `pieces` sent; then the request is run up to its body. -/
def fiveDeclared (pieces : List Bytes) : List (StreamAct Unit) :=
  [.header (bytes ":path") (bytes "/"), .header (bytes "content-length") (bytes "5"),
    .headersEnd false] ++ pieces.map (fun buf => .body (some buf)) ++
    [.body none, .call, .run, .run]

def endsFull (b : BodyStream W V) : StreamAct W → Bool
  | .body none => b.declared.all fun n => decide (n ≤ b.received)
  | _ => true

theorem endsFull_ok {a : StreamAct W} (h : endsFull b a = true) : EndsFull b a := by
  rintro rfl n hn
  simpa [endsFull, hn] using h

theorem declared_length_of_endsFull_five : ∃ b : BodyStream Unit Unit,
    runActs (streamStep (.single (syncPath 0))) (fiveDeclared [bytes "abc", bytes "de"])
      (.new (.single (syncPath 0)) ()) = some b ∧
      b.declared = some 5 ∧ MeetsLength (.single (syncPath 0)) b := by
  have hrun : (runActs (streamStep (.single (syncPath 0)))
      (fiveDeclared [bytes "abc", bytes "de"]) (.new (.single (syncPath 0)) ())).map
      (fun b => b.declared) = some (some 5) := by decide +kernel
  obtain ⟨b, hb, hdeclared⟩ := Option.map_eq_some_iff.mp hrun
  have hok : ActsMeet (streamStep (.single (syncPath 0))) EndsFull
      (fiveDeclared [bytes "abc", bytes "de"]) (.new (.single (syncPath 0)) ()) := by
    have hcheck : checkActs (streamStep (.single (syncPath 0))) endsFull
        (fiveDeclared [bytes "abc", bytes "de"]) (.new (.single (syncPath 0)) ()) = true := by
      decide +kernel
    exact actsMeet_of_check (fun _ _ => endsFull_ok) hcheck
  exact ⟨b, hb, hdeclared, declared_length_of_endsFull
    (Reachable.runActs (.start ⟨(), rfl⟩) hok hb)⟩

/-- Two bytes of five are handled: the end of the stream counts nothing. -/
theorem declared_length_short : ∃ b : BodyStream Unit Unit,
    Reachable (StreamStart (.single (syncPath 0)))
      (ActStep (streamStep (.single (syncPath 0))) fun _ _ => True) b ∧
      ReachesHandlers (.single (syncPath 0)) b 1 ∧ ¬MeetsLength (.single (syncPath 0)) b := by
  have hrun : (runActs (streamStep (.single (syncPath 0))) (fiveDeclared [bytes "ab"])
      (.new (.single (syncPath 0)) ())).map
      (fun b => (b.declared, b.received, b.w.r.state, b.w.r.confPath,
        (streamStep (.single (syncPath 0)) b .run).map fun c => c.w.r.state)) =
      some (some 5, 2, .receiveBodySync, some 1, some .processHeaders) := by
    decide +kernel
  obtain ⟨b, hb, hfacts⟩ := Option.map_eq_some_iff.mp hrun
  simp only [Prod.mk.injEq] at hfacts
  obtain ⟨hdeclared, hreceived, hs, hp, hnext⟩ := hfacts
  obtain ⟨c, hc, hhandlers⟩ := Option.map_eq_some_iff.mp hnext
  have hreaches : ReachesHandlers (.single (syncPath 0)) b 1 :=
    ⟨hs, hp, rfl, .run, c, hc, hhandlers⟩
  refine ⟨b, Reachable.runActs (.start ⟨(), rfl⟩) (actsMeet_of_forall _ _ fun _ _ => trivial) hb,
    hreaches, fun hmeets => ?_⟩
  have hfull := (hmeets 5 hdeclared).1 1 hreaches
  omega

end Phorklift
