import Phorklift.HeaderBlock
import Phorklift.HeaderPhase

/-! The frames of a response on its HTTP/2 stream and where END_STREAM stands. -/

namespace Phorklift

open Transition

variable {W V : Type} {env : Env W V} {p : PathId} {w w' : World W V}

inductive StreamFrame
  | headers (endStream : Bool)
  | data (endStream : Bool)
  deriving DecidableEq, Repr

def StreamFrame.endStream : StreamFrame → Bool
  | headers e => e
  | data e => e

/-- The frame that an append makes: `phl_http2_response_headers`, `phl_http2_response_body_pack`
and `phl_http2_response_body_finish`. -/
def Event.frame : Event V → Option StreamFrame
  | .headers _ contentLength _ => some (.headers (contentLength == 0))
  | .body _ isLast => some (.data isLast)
  | .endStream => some (.data true)
  | _ => none

def frames (trace : List (Event V)) : List StreamFrame :=
  trace.filterMap Event.frame

/-- Once the header block is out: one HEADERS frame and then DATA frames, END_STREAM on none but
the last, and on the last one once the request is closed. -/
def MeetsStreamEnd (w : World W V) : Prop :=
  (∃ e, StreamFrame.headers e ∈ frames w.trace) →
    (∃ e, ∃ ds : List Bool, frames w.trace = .headers e :: ds.map .data) ∧
      (∀ f ∈ (frames w.trace).dropLast, f.endStream = false) ∧
      (w.r.closed = true → ∃ f, (frames w.trace).getLast? = some f ∧ f.endStream = true)

/-- The connection is open and takes one more frame header. -/
def hasRoom (env : Env W V) (w : World W V) : Bool :=
  !w.connClosed && match (env.makeSpace 9 w.env).1 with
    | .space _ => true
    | _ => false

/-- The step about to be taken is not the append of a header block with content length 0, and one
of `RESPONSE_BODY` leaves the request open and returns `PHL_OK` or `PHL_AGAIN`, or `PHL_ERROR`
with `status_code` 0 where there is room for the frame that ends the stream. -/
def streamStepOk (env : Env W V) (w : World W V) : Bool :=
  match w.r.state, w.r.confPath with
  | .responseHeaders3, _ => w.r.resp.contentLength != 0
  | .responseBody, some p =>
    match phlRequestStep env p w with
    | some (some n, w1) => !w1.r.closed && (n == phlOk || n == phlAgain ||
        n == phlError && w1.r.resp.statusCode == 0 && hasRoom env w1)
    | _ => true
  | _, _ => true

/-- A request that is closed before its last piece of body leaves an open connection that takes
one more frame. -/
def closeOk (env : Env W V) (w w' : World W V) : Prop :=
  w.ctl = .idle → w.r.state = .responseBody → w.r.closed = false → w'.r.closed = true →
    w'.connClosed = false ∧ hasRoom env w = true

section Frames

variable {trace es : List (Event V)}

theorem frames_append : frames (trace ++ es) = frames trace ++ frames es :=
  List.filterMap_append ..

theorem frames_nil_of_forall (h : ∀ e ∈ es, e.frame = none) : frames es = [] :=
  List.filterMap_eq_nil_iff.mpr h

theorem frames_env (vs : List V) : frames (vs.map Event.env) = [] := by
  apply frames_nil_of_forall
  intro e he
  obtain ⟨v, -, rfl⟩ := List.mem_map.mp he
  rfl

theorem frames_clearStuff : frames (phlRequestClearStuff env w).trace = frames w.trace := by
  show frames (w.trace ++ _) = _
  rw [frames_append, frames_env, List.append_nil]

end Frames

/-- A close before the end of the response appends the frame that ends the stream, if it can. -/
theorem phlRequestClose_frames (hfather : w.r.father = .none) (h2 : w.r.isHttp2 = true)
    (hopen : w.r.closed = false) (h : phlRequestClose env w = some w') :
    frames w'.trace = frames w.trace ++
      (if w.r.state ≠ .done ∧ hasRoom env w = true then [.data true] else []) := by
  have hmark : ∀ w1 : World W V, w1.trace = w.trace ++ [.closed] →
      frames (phlRequestClearStuff env w1).trace = frames w.trace := by
    intro w1 ht
    rw [frames_clearStuff, ht, frames_append]
    exact List.append_nil _
  cases phlRequestClose_closes h with
  | before hclosed => exact absurd (hopen.symm.trans hclosed) (by decide)
  | attached _ hattached => exact absurd (hfather.symm.trans hattached) (by decide)
  | cleared connClosed _ _ hnot =>
    rw [hmark _ rfl, if_neg, List.append_nil]
    rintro ⟨hstate, hroom⟩
    unfold hasRoom at hroom
    rcases hnot hfather h2 with hdone | hconn
    · exact hstate hdone
    · simp [hconn] at hroom
  | ended _ hstate hconn hspace =>
    have hroom : hasRoom env w = true := by simp [hasRoom, hconn, hspace]
    rw [if_pos ⟨hstate, hroom⟩, frames_clearStuff, World.emit_trace, frames_append,
      World.emit_trace, frames_append]
    show frames w.trace ++ [] ++ [.data true] = _
    rw [List.append_nil]
  | unended connClosed _ _ _ hnot =>
    rw [hmark _ rfl, if_neg, List.append_nil]
    rintro ⟨-, hroom⟩
    unfold hasRoom at hroom
    cases hspace : (env.makeSpace 9 w.env).1 with
    | space n => exact hnot n hspace
    | _ => simp [hspace] at hroom

section Steps

variable {ret : Int}

/-- Making space appends nothing and, unless it fails, leaves the request alone. -/
theorem phlConnectionMakeSpace_frames {size : Nat} (hfather : w.r.father = .none)
    (h2 : w.r.isHttp2 = true) (hopen : w.r.closed = false)
    (h : phlConnectionMakeSpace env size w = some (ret, w')) :
    frames w'.trace = frames w.trace ∧
      (0 ≤ ret ∧ w'.r = w.r ∨ ret = phlError ∨ ret = phlAgain) := by
  cases phlConnectionMakeSpace_makes h with
  | refused => exact ⟨rfl, .inr (.inl rfl)⟩
  | made n => exact ⟨rfl, .inl ⟨Int.natCast_nonneg n, rfl⟩⟩
  | waits => exact ⟨rfl, .inr (.inr rfl)⟩
  | fails => exact ⟨rfl, .inr (.inl rfl)⟩
  | closes h1 =>
    refine ⟨?_, .inr (.inl rfl)⟩
    rw [phlRequestClose_frames (w := { w with
      connClosed := true, env := (env.makeSpace size w.env).2 }) hfather h2 hopen h1]
    have hroom : hasRoom env { w with
        connClosed := true, env := (env.makeSpace size w.env).2 } = false := rfl
    rw [if_neg (by simp [hroom]), List.append_nil]

/-- The header step appends one HEADERS frame or nothing. -/
theorem phlRequestResponseHeaders3_frames (hfather : w.r.father = .none)
    (h2 : w.r.isHttp2 = true) (hopen : w.r.closed = false)
    (h : phlRequestResponseHeaders3 env w = some (ret, w')) :
    frames w'.trace = frames w.trace ∧ (ret = phlError ∨ ret = phlAgain) ∨
      ret = phlOk ∧ w'.r = w.r ∧
        frames w'.trace = frames w.trace ++ [.headers (w.r.resp.contentLength == 0)] := by
  rcases phlRequestResponseHeaders3_inv h with ⟨hsub, -⟩ | ⟨n, w1, hm, hmade⟩
  · exact absurd hfather hsub
  · obtain ⟨hframes, hspace⟩ := phlConnectionMakeSpace_frames hfather h2 hopen hm
    rcases hmade with ⟨hneg, hret, hw'⟩ | ⟨hneg, hret, hw'⟩
    · rw [hret, hw']
      refine .inl ⟨hframes, ?_⟩
      rcases hspace with ⟨hpos, -⟩ | hspace
      · omega
      · exact hspace
    · rw [hw']
      rcases hspace with ⟨-, hr⟩ | rfl | rfl
      · refine .inr ⟨hret, hr, ?_⟩
        rw [World.emit_trace, frames_append, hframes, hr]
        rfl
      · exact absurd (by decide) hneg
      · exact absurd (by decide) hneg

theorem generateBody_frames {bufLen : Nat} {data : Except Failure Bytes}
    (h : generateBody env p bufLen w = some (data, w')) :
    frames w'.trace = frames w.trace ∧ w'.r = w.r := by
  cases generateBody_made h with
  | same => exact ⟨rfl, rfl⟩
  | read len => exact ⟨rfl, rfl⟩
  | source ret hcontent hsource hbroken =>
    refine ⟨?_, rfl⟩
    rw [World.emit_trace, World.emit_trace, frames_append, frames_append, frames_env,
      List.append_nil]
    exact List.append_nil _

/-- What a round of the body step appends. -/
inductive BodyRound (w w' : World W V) : Option Int → Prop
  | failed (n : Int) : n < 0 → frames w'.trace = frames w.trace → BodyRound w w' (some n)
  | piece : w'.r.closed = w.r.closed → frames w'.trace = frames w.trace ++ [.data false] →
      BodyRound w w' none
  | last : w'.r.closed = w.r.closed → frames w'.trace = frames w.trace ++ [.data true] →
      BodyRound w w' (some phlOk)

theorem filterAndPack_frames (env : Env W V) (p : PathId) (bufLen : Nat) (data : Bytes) (isLast : Bool)
    (w : World W V) : BodyRound w (filterAndPack env p bufLen data isLast w).2
      (filterAndPack env p bufLen data isLast w).1 := by
  unfold filterAndPack
  dsimp only
  split
  next n _ =>
    refine .failed n n.2 ?_
    rw [World.emit_trace, frames_append, frames_env, List.append_nil]
  next =>
    split
    next hlast =>
      refine .last rfl ?_
      rw [World.emit_trace, World.emit_trace, frames_append, frames_append, frames_env,
        List.append_nil, hlast]
      rfl
    next hlast =>
      refine .piece rfl ?_
      rw [World.emit_trace, World.emit_trace, frames_append, frames_append, frames_env,
        List.append_nil, Bool.eq_false_of_not_eq_true hlast]
      rfl

theorem BodyRound.congr {w0 : World W V} {ret : Option Int} (h : BodyRound w w' ret)
    (ht : frames w.trace = frames w0.trace) (hc : w.r.closed = w0.r.closed) :
    BodyRound w0 w' ret := by
  cases h with
  | failed n hn hframes => exact .failed n hn (hframes.trans ht)
  | piece hclosed hframes => exact .piece (hclosed.trans hc) (by rw [hframes, ht])
  | last hclosed hframes => exact .last (hclosed.trans hc) (by rw [hframes, ht])

theorem phlRequestResponseBody_frames {ret : Option Int} (hfather : w.r.father = .none)
    (h2 : w.r.isHttp2 = true) (hopen : w.r.closed = false)
    (h : phlRequestResponseBody env p w = some (ret, w')) : BodyRound w w' ret := by
  obtain ⟨⟨n, w1⟩, hm, h⟩ := Option.bind_eq_some_iff.mp h
  obtain ⟨hframes, hret⟩ := phlConnectionMakeSpace_frames hfather h2 hopen hm
  dsimp only at h
  split at h
  next hneg => cases h; exact .failed n hneg hframes
  next hneg =>
    have hr : w1.r = w.r := by
      rcases hret with ⟨-, hr⟩ | rfl | rfl
      · exact hr
      · exact absurd (by decide) hneg
      · exact absurd (by decide) hneg
    have hclosed : w1.r.closed = w.r.closed := by rw [hr]
    split at h
    next => cases h; exact .failed phlAgain (by decide) hframes
    next =>
      split at h
      next =>
        have hx := Option.some.inj h
        have hpack := filterAndPack_frames env p (responseBodyRoom env n.toNat w1) [] true w1
        rw [hx] at hpack
        exact hpack.congr hframes hclosed
      next =>
        obtain ⟨⟨data, w2⟩, hg, h⟩ := Option.bind_eq_some_iff.mp h
        obtain ⟨hgen, hr2⟩ := generateBody_frames hg
        have hclosed2 : w2.r.closed = w.r.closed := by rw [hr2, hr]
        dsimp only at h
        split at h
        next m =>
          cases h
          exact .failed m m.2 (hgen.trans hframes)
        next data =>
          have hx := Option.some.inj h
          have hpack := filterAndPack_frames env p (responseBodyRoom env n.toNat w1) data
            (if w1.r.resp.contentOriginalLength ≠ phlContentLengthInit then
              decide (w1.r.resp.contentOriginalLength ≤
                w1.r.resp.contentGeneratedLength + data.length) else data.length == 0)
            ({ w2 with r.resp.contentGeneratedLength :=
              w1.r.resp.contentGeneratedLength + data.length }.emit [.source data])
          rw [hx] at hpack
          refine hpack.congr ?_ hclosed2
          rw [World.emit_trace, frames_append, hgen.trans hframes]
          exact List.append_nil _

end Steps

/-- A response whose last DATA frame, and no frame before it, ends the stream. -/
def StreamClosed (fs : List StreamFrame) : Prop :=
  ∃ ds : List Bool, fs = .headers false :: (ds ++ [true]).map .data ∧ ∀ d ∈ ds, d = false

/-- A response whose stream has not ended yet. -/
def StreamOpen (fs : List StreamFrame) : Prop :=
  ∃ ds : List Bool, fs = .headers false :: ds.map .data ∧ ∀ d ∈ ds, d = false

theorem StreamOpen.piece {fs : List StreamFrame} (h : StreamOpen fs) : StreamOpen (fs ++ [.data false]) := by
  obtain ⟨ds, rfl, hds⟩ := h
  refine ⟨ds ++ [false], by simp, fun d hd => ?_⟩
  rcases List.mem_append.mp hd with hd | hd
  · exact hds d hd
  · simpa using hd

theorem StreamOpen.last {fs : List StreamFrame} (h : StreamOpen fs) : StreamClosed (fs ++ [.data true]) := by
  obtain ⟨ds, rfl, hds⟩ := h
  exact ⟨ds, by simp, hds⟩

/-- What the frames of a stream are at each point of its request. -/
structure EndInv (w : World W V) : Prop where
  father : w.r.father = .none
  isHttp2 : w.r.isHttp2 = true
  before : w.r.closed = false → w.r.state.index ≤ 8 → frames w.trace = []
  body : w.r.closed = false → w.r.state = .responseBody → StreamOpen (frames w.trace)
  done : w.r.closed = false → w.r.state = .done → StreamClosed (frames w.trace)
  closed : w.r.closed = true →
    frames w.trace = [] ∨ frames w.trace = [.data true] ∨ StreamClosed (frames w.trace)

theorem StreamClosed.meets {fs : List StreamFrame} (h : StreamClosed fs) :
    (∃ e, ∃ ds : List Bool, fs = .headers e :: ds.map .data) ∧
      (∀ f ∈ fs.dropLast, f.endStream = false) ∧
      ∃ f, fs.getLast? = some f ∧ f.endStream = true := by
  obtain ⟨ds, rfl, hds⟩ := h
  have hsplit : (StreamFrame.headers false :: (ds ++ [true]).map .data) =
      (.headers false :: ds.map .data) ++ [.data true] := by simp
  refine ⟨⟨false, ds ++ [true], rfl⟩, fun f hf => ?_, .data true, ?_, rfl⟩
  · rw [hsplit, List.dropLast_concat] at hf
    rcases List.mem_cons.mp hf with rfl | hf
    · rfl
    · obtain ⟨d, hd, rfl⟩ := List.mem_map.mp hf
      exact hds d hd
  · rw [hsplit, List.getLast?_concat]

theorem EndInv.meets (hinv : EndInv w) : MeetsStreamEnd w := by
  rintro ⟨e, he⟩
  by_cases hclosed : w.r.closed = true
  · rcases hinv.closed hclosed with hnil | hdata | hend
    · rw [hnil] at he
      cases he
    · rw [hdata] at he
      simp at he
    · obtain ⟨hshape, hno, hlast⟩ := hend.meets
      exact ⟨hshape, hno, fun _ => hlast⟩
  · have hopen : w.r.closed = false := by simpa using hclosed
    by_cases hbefore : w.r.state.index ≤ 8
    · rw [hinv.before hopen hbefore] at he
      cases he
    · have hstate : w.r.state = .responseBody ∨ w.r.state = .done := by
        cases hs : w.r.state <;> simp [hs, RequestState.index] at hbefore ⊢
      rcases hstate with hs | hs
      · obtain ⟨ds, hds, hfalse⟩ := hinv.body hopen hs
        rw [hds]
        refine ⟨⟨false, ds, rfl⟩, fun f hf => ?_, fun hc => absurd hc hclosed⟩
        rcases List.mem_cons.mp (List.dropLast_subset _ hf) with rfl | hf
        · rfl
        · obtain ⟨d, hd, rfl⟩ := List.mem_map.mp hf
          exact hfalse d hd
      · obtain ⟨hshape, hno, hlast⟩ := (hinv.done hopen hs).meets
        exact ⟨hshape, hno, fun _ => hlast⟩

/-- A request of which nothing has been sent. -/
theorem endInv_early (hfather : w.r.father = .none) (h2 : w.r.isHttp2 = true)
    (hle : w.r.state.index ≤ 8) (hnil : frames w.trace = []) : EndInv w := by
  refine ⟨hfather, h2, fun _ _ => hnil, fun _ hs => ?_, fun _ hs => ?_, fun _ => .inl hnil⟩
  · rw [hs] at hle
    exact absurd hle (by decide)
  · rw [hs] at hle
    exact absurd hle (by decide)

theorem endInv_body (hfather : w.r.father = .none) (h2 : w.r.isHttp2 = true)
    (hopen : w.r.closed = false) (hs : w.r.state = .responseBody)
    (hun : StreamOpen (frames w.trace)) : EndInv w := by
  refine ⟨hfather, h2, fun _ hle => ?_, fun _ _ => hun, fun _ hd => ?_, fun hc => ?_⟩
  · rw [hs] at hle
    exact absurd hle (by decide)
  · rw [hs] at hd
    cases hd
  · rw [hopen] at hc
    cases hc

theorem endInv_done (hfather : w.r.father = .none) (h2 : w.r.isHttp2 = true)
    (hopen : w.r.closed = false) (hs : w.r.state = .done)
    (hend : StreamClosed (frames w.trace)) : EndInv w := by
  refine ⟨hfather, h2, fun _ hle => ?_, fun _ hb => ?_, fun _ _ => hend, fun hc => ?_⟩
  · rw [hs] at hle
    exact absurd hle (by decide)
  · rw [hs] at hb
    cases hb
  · rw [hopen] at hc
    cases hc

theorem EndInv.congr (hinv : EndInv w) (hr : w'.r = w.r) (ht : w'.trace = w.trace) :
    EndInv w' := by
  refine ⟨by rw [hr]; exact hinv.father, by rw [hr]; exact hinv.isHttp2, ?_, ?_, ?_, ?_⟩
  · rw [hr, ht]
    exact hinv.before
  · rw [hr, ht]
    exact hinv.body
  · rw [hr, ht]
    exact hinv.done
  · rw [hr, ht]
    exact hinv.closed

theorem EndInv.close (hinv : EndInv w)
    (hroom : w.r.closed = false → w.r.state = .responseBody → hasRoom env w = true)
    (h : phlRequestClose env w = some w') : EndInv w' := by
  by_cases hclosed : w.r.closed = true
  · unfold phlRequestClose at h
    rw [if_pos hclosed] at h
    cases Option.some.inj h
    exact hinv
  · have hopen : w.r.closed = false := by simpa using hclosed
    have hframes := phlRequestClose_frames hinv.father hinv.isHttp2 hopen h
    obtain ⟨hk, hc⟩ := phlRequestClose_kept (P := fun _ => True) (L := True) (K := fun _ => True)
      (fun _ => trivial) trivial trivial h
    have hnot : ¬w'.r.closed = false := by simp [hc]
    refine ⟨hk.father.trans hinv.father, hk.isHttp2.trans hinv.isHttp2, fun hf => absurd hf hnot,
      fun hf => absurd hf hnot, fun hf => absurd hf hnot, fun _ => ?_⟩
    by_cases hle : w.r.state.index ≤ 8
    · rw [hframes, hinv.before hopen hle]
      split
      next => exact .inr (.inl rfl)
      next => exact .inl rfl
    · by_cases hs : w.r.state = .done
      · rw [hframes, if_neg (by simp [hs]), List.append_nil]
        exact .inr (.inr (hinv.done hopen hs))
      · have hbody : w.r.state = .responseBody := by
          cases hw : w.r.state <;> simp [hw, RequestState.index] at hle hs ⊢
        rw [hframes, if_pos ⟨hs, hroom hopen hbody⟩]
        exact .inr (.inr (hinv.body hopen hbody).last)

/-- What a step of an open request leaves, before `phl_request_run` looks at its return value. -/
inductive Stepped (w w1 : World W V) (n : Int) : Prop
  | early : w.r.state.index ≤ 8 → frames w1.trace = [] →
      (n = phlOk ∨ n = phlBreak → w.r.state.index ≤ 7) → Stepped w w1 n
  | headers : w.r.state = .responseHeaders3 → n = phlOk → w1.r.closed = false →
      StreamOpen (frames w1.trace) → Stepped w w1 n
  | waits : w.r.state = .responseBody → n < 0 → StreamOpen (frames w1.trace) → Stepped w w1 n
  | last : w.r.state = .responseBody → n = phlOk → w1.r.closed = false →
      StreamClosed (frames w1.trace) → Stepped w w1 n

theorem frame_none_of_ofStep {r : Request} {e : Event V} (h : e.ofStep r p)
    (hle : r.state.index ≤ 7) : e.frame = none := by
  cases e with
  | headers =>
    have hs : r.state = .responseHeaders3 := h
    rw [hs] at hle
    exact absurd hle (by decide)
  | body =>
    have hs : r.state = .responseBody := h
    rw [hs] at hle
    exact absurd hle (by decide)
  | endStream =>
    rcases (h : r.state = .responseHeaders3 ∨ r.state = .responseBody) with hs | hs
    · rw [hs] at hle
      exact absurd hle (by decide)
    · rw [hs] at hle
      exact absurd hle (by decide)
  | _ => rfl

theorem EndInv.stepped {n : Int} {w1 : World W V} (hinv : EndInv w) (hopen : w.r.closed = false)
    (hs : w.r.state ≠ .done) (hok : streamStepOk env w = true)
    (h : phlRequestStep env p w = some (some n, w1)) (hp1 : w1.r.confPath ≠ none) :
    Stepped w w1 n := by
  by_cases hle : w.r.state.index ≤ 7
  · obtain ⟨es, ht, hes⟩ := (phlRequestStep_kept h fun _ => hp1).trace
    refine .early (by omega) ?_ fun _ => hle
    rw [ht, frames_append, hinv.before hopen (by omega), List.nil_append]
    exact frames_nil_of_forall fun e he => frame_none_of_ofStep (hes e he) hle
  · have hlate : w.r.state = .responseHeaders3 ∨ w.r.state = .responseBody := by
      cases hw : w.r.state <;> simp [hw, RequestState.index] at hle hs ⊢
    rcases hlate with h3 | hb
    · simp only [phlRequestStep, h3] at h
      obtain ⟨⟨m, w2⟩, hx, he⟩ := Option.map_eq_some_iff.mp h
      cases he
      have hnil := hinv.before hopen (by rw [h3]; decide)
      rcases phlRequestResponseHeaders3_frames hinv.father hinv.isHttp2 hopen hx with
        ⟨hframes, hret⟩ | ⟨hret, hr, hframes⟩
      · refine .early (by rw [h3]; decide) (hframes.trans hnil) fun hn => ?_
        rcases hret with rfl | rfl
        · rcases hn with hn | hn <;> cases hn
        · rcases hn with hn | hn <;> cases hn
      · refine .headers h3 hret (by rw [hr]; exact hopen) ?_
        have hlen : (w.r.resp.contentLength == 0) = false := by
          unfold streamStepOk at hok
          simp only [h3] at hok
          simpa using hok
        rw [hframes, hnil, hlen]
        exact ⟨[], rfl, by simp⟩
    · simp only [phlRequestStep, hb] at h
      have hun := hinv.body hopen hb
      cases phlRequestResponseBody_frames hinv.father hinv.isHttp2 hopen h with
      | failed _ hneg hframes => exact .waits hb hneg (by rw [hframes]; exact hun)
      | last hclosed hframes =>
        exact .last hb rfl (hclosed.trans hopen) (by rw [hframes]; exact hun.last)

/-- What the condition says of a step of the body that returns. -/
theorem streamStepOk_body {n : Int} {w1 : World W V} (hok : streamStepOk env w = true)
    (hb : w.r.state = .responseBody) (hp : w.r.confPath = some p)
    (h : phlRequestStep env p w = some (some n, w1)) :
    w1.r.closed = false ∧ (n = phlOk ∨ n = phlAgain ∨
      n = phlError ∧ w1.r.resp.statusCode = 0 ∧ hasRoom env w1 = true) := by
  unfold streamStepOk at hok
  simp only [hb, hp, h, Bool.and_eq_true, Bool.or_eq_true, Bool.not_eq_true', beq_iff_eq] at hok
  obtain ⟨hopen, (hn | hn) | ⟨⟨hn, hzero⟩, hroom⟩⟩ := hok
  · exact ⟨hopen, .inl hn⟩
  · exact ⟨hopen, .inr (.inl hn)⟩
  · exact ⟨hopen, .inr (.inr ⟨hn, hzero, hroom⟩)⟩

theorem EndInv.run (hinv : EndInv w) (hok : streamStepOk env w = true)
    (h : phlRequestRun env w = some w') : EndInv w' := by
  cases phlRequestRun_ran h with
  | closed => exact hinv.congr rfl rfl
  | done _ hs h1 =>
    refine (hinv.close (fun _ hb => ?_) h1).congr rfl rfl
    rw [hs] at hb
    cases hb
  | round hopen _ hp hstep =>
    have hk := phlRequestStep_kept hstep (by simp)
    have hb := state_of_round hstep
    simp only [phlRequestStep, hb] at hstep
    cases phlRequestResponseBody_frames hinv.father hinv.isHttp2 hopen hstep with
    | piece hclosed hframes =>
      refine endInv_body (hk.father.trans hinv.father) (hk.isHttp2.trans hinv.isHttp2)
        (hclosed.trans hopen) (hk.state.trans hb) ?_
      rw [hframes]
      exact (hinv.body hopen hb).piece
  | @next p n w1 hopen hs hp hstep hp1 hn =>
    have hk := phlRequestStep_kept hstep fun _ => hp1
    have hfather := hk.father.trans hinv.father
    have hhttp := hk.isHttp2.trans hinv.isHttp2
    cases hinv.stepped hopen hs hok hstep hp1 with
    | early _ hnil hearly =>
      refine endInv_early hfather hhttp ?_ hnil
      show w1.r.state.next.index ≤ 8
      have hle := hearly hn
      rw [hk.state, RequestState.index_next hs]
      omega
    | headers h3 _ hclosed hun =>
      exact endInv_body hfather hhttp hclosed (by simp [hk.state, h3, RequestState.next]) hun
    | waits hb hneg =>
      obtain ⟨-, hret⟩ := streamStepOk_body hok hb hp hstep
      rcases hn with rfl | rfl
      · exact absurd hneg (by decide)
      · rcases hret with hret | hret | ⟨hret, -⟩ <;> exact absurd hret (by decide)
    | last hb _ hclosed hend =>
      exact endInv_done hfather hhttp hclosed (by simp [hk.state, hb, RequestState.next]) hend
  | @again p w1 hopen hs hp hstep hp1 =>
    have hk := phlRequestStep_kept hstep fun _ => hp1
    have hfather := hk.father.trans hinv.father
    have hhttp := hk.isHttp2.trans hinv.isHttp2
    cases hinv.stepped hopen hs hok hstep hp1 with
    | early hle hnil => exact endInv_early hfather hhttp (by rw [← hk.state] at hle; exact hle) hnil
    | headers _ hn => exact absurd hn (by decide)
    | waits hb _ hun =>
      obtain ⟨hclosed, -⟩ := streamStepOk_body hok hb hp hstep
      exact endInv_body hfather hhttp hclosed (hk.state.trans hb) hun
    | last _ hn => exact absurd hn (by decide)
  | @close p w1 w2 hopen hs hp hstep hp1 hzero hlt h2 =>
    have hk := phlRequestStep_kept hstep fun _ => hp1
    have hfather := hk.father.trans hinv.father
    have hhttp := hk.isHttp2.trans hinv.isHttp2
    cases hinv.stepped hopen hs hok hstep hp1 with
    | early hle hnil =>
      have hle1 : w1.r.state.index ≤ 8 := by
        rw [hk.state]
        exact hle
      refine ((endInv_early hfather hhttp hle1 hnil).close (fun _ hb => ?_) h2).congr rfl rfl
      rw [hb] at hle1
      exact absurd hle1 (by decide)
    | headers _ hn => exact absurd hn (by decide)
    | waits hb _ hun =>
      obtain ⟨hclosed, hret⟩ := streamStepOk_body hok hb hp hstep
      have hroom : hasRoom env w1 = true := by
        rcases hret with hn | hn | ⟨-, -, hroom⟩
        · exact absurd hn (by decide)
        · exact absurd hn (by decide)
        · exact hroom
      have hbody := endInv_body hfather hhttp hclosed (hk.state.trans hb) hun
      exact (hbody.close (fun _ _ => hroom) h2).congr rfl rfl
    | last _ hn => exact absurd hn (by decide)
  | @broken p n w1 code hopen hs hp hstep hp1 hno hnb hna hcl =>
    have hk := phlRequestStep_kept hstep fun _ => hp1
    cases hinv.stepped hopen hs hok hstep hp1 with
    | early _ hnil =>
      refine endInv_early (hk.father.trans hinv.father) (hk.isHttp2.trans hinv.isHttp2)
        (by decide : RequestState.responseHeaders1.index ≤ 8) ?_
      rw [World.emit_trace, frames_append, hnil]
      rfl
    | headers _ hn => exact absurd hn hno
    | waits hb =>
      -- the condition leaves an error with `status_code` 0, which closes the request
      obtain ⟨-, hret⟩ := streamStepOk_body hok hb hp hstep
      rcases hret with hn | hn | ⟨hn, hzero, -⟩
      · exact absurd hn hno
      · exact absurd hn hna
      · refine absurd ⟨hn, hzero, ?_⟩ hcl
        rw [hk.state, hb]
        decide
    | last _ hn => exact absurd hn hno

theorem EndInv.hooked (hinv : EndInv w) {r : Request} (hfather : r.father = w.r.father)
    (h2 : r.isHttp2 = w.r.isHttp2) (hclosed : r.closed = w.r.closed)
    (hs : r.state = w.r.state ∨ w.r.state = .receiveHeaders ∧ r.state = .locateConfHost) :
    EndInv { w with r := r } := by
  refine ⟨hfather.trans hinv.father, h2.trans hinv.isHttp2, fun hc hle => ?_, fun hc hb => ?_,
    fun hc hd => ?_, fun hc => hinv.closed (hclosed.symm.trans hc)⟩
  · have hopen : w.r.closed = false := hclosed.symm.trans hc
    rcases hs with hs | ⟨hs, -⟩
    · exact hinv.before hopen (by rw [← hs]; exact hle)
    · exact hinv.before hopen (by rw [hs]; decide)
  · rcases hs with hs | ⟨-, hs⟩
    · exact hinv.body (hclosed.symm.trans hc) (hs.symm.trans hb)
    · rw [show r.state = .responseBody from hb] at hs
      cases hs
  · rcases hs with hs | ⟨-, hs⟩
    · exact hinv.done (hclosed.symm.trans hc) (hs.symm.trans hd)
    · rw [show r.state = .done from hd] at hs
      cases hs

/-- A step of a run whose activations and closes meet their conditions. -/
abbrev EndStep (env : Env W V) : World W V → World W V → Prop :=
  guarded (Step env) fun w w' => (w.ctl = .running → streamStepOk env w = true) ∧ closeOk env w w'

theorem EndInv.keep (hinv : EndInv w) (h : EndStep env w w') : EndInv w' := by
  obtain ⟨hstep, hok, hclose⟩ := h
  cases hstep with
  | call => exact hinv.congr rfl rfl
  | run hrun h => exact hinv.run (hok hrun) h
  | receive => exact hinv.congr rfl rfl
  | header => exact hinv.hooked rfl rfl rfl (.inl rfl)
  | headersEnd endStream _ _ hs =>
    obtain ⟨finished, h | h⟩ := phlHttp2HookStreamHeadersEnd_cases endStream w.r
    · rw [h]
      exact hinv.hooked rfl rfl rfl (.inl rfl)
    · rw [h]
      exact hinv.hooked rfl rfl rfl (.inr ⟨hs, by rw [hs]; rfl⟩)
  | body q buf =>
    obtain ⟨req, code, h⟩ := phlHttp2HookStreamBody_cases (env.path q).reqBodyMax w.r buf
    rw [h]
    exact hinv.hooked rfl rfl rfl (.inl rfl)
  | elsewhere => exact hinv.congr rfl rfl
  | close connection hidle h =>
    refine EndInv.close (w := { w with connClosed := w.connClosed || connection })
      (hinv.congr rfl rfl) (fun hopen hb => ?_) h
    have hclosed := (phlRequestClose_kept (P := fun _ => True) (L := True) (K := fun _ => True)
      (fun _ => trivial) trivial trivial h).2
    obtain ⟨hconn, hroom⟩ := hclose hidle hb hopen hclosed
    cases connection with
    | false =>
      rw [Bool.or_false]
      exact hroom
    | true =>
      have hlost := phlRequestClose_connClosed h (Bool.or_true w.connClosed)
      rw [hlost] at hconn
      cases hconn

/-- END_STREAM stands on exactly the last frame of every response that is sent on a stream. -/
theorem stream_ends_once {w : World W V}
    (h : Reachable (fun w => ∃ e, w = newStream env e) (EndStep env) w) : MeetsStreamEnd w := by
  refine (h.invariant (I := EndInv) ?_ fun _ _ hinv hstep => hinv.keep hstep).meets
  rintro _ ⟨e, rfl⟩
  exact endInv_early rfl rfl (show RequestState.receiveHeaders.index ≤ 8 by decide) rfl

theorem admits_endStep : Admits env (streamStepOk env) (EndStep env) := by
  refine ⟨fun hrun hok h => ⟨.run hrun h, fun _ => hok, fun hidle => ?_⟩,
    fun hidle hsame hstep => ⟨hstep, fun hrun => ?_, fun _ _ hopen hclosed => ?_⟩⟩
  · rw [hrun] at hidle
    cases hidle
  · rw [hidle] at hrun
    cases hrun
  · rw [hsame, hopen] at hclosed
    cases hclosed

/-- Ten bytes in two pieces. -/
theorem stream_ends_once_relay :
    ∃ w, runs (Env.single (relayPath (.ok (bytes "world"))))
        (streamStepOk (Env.single (relayPath (.ok (bytes "world"))))) 11
        (relay (.ok (bytes "world"))) = some w ∧
      frames w.trace = [.headers false, .data false, .data true] ∧ w.r.closed = true ∧
      MeetsStreamEnd w := by
  have h : (runs (Env.single (relayPath (.ok (bytes "world"))))
      (streamStepOk (Env.single (relayPath (.ok (bytes "world"))))) 11
      (relay (.ok (bytes "world")))).map (fun w => (frames w.trace, w.r.closed)) =
        some ([.headers false, .data false, .data true], true) := by decide
  obtain ⟨w, hw, ht⟩ := Option.map_eq_some_iff.mp h
  obtain ⟨hframes, hclosed⟩ := Prod.mk.inj ht
  exact ⟨w, hw, hframes, hclosed, stream_ends_once (admits_endStep.stream ⟨_, rfl⟩ rfl hw)⟩

/-- A content module that answers 204 with no body. -/
def emptyPath : ConfPath Unit Unit where
  reqBodyMax := 0
  reqBodySync := true
  filters := fun _ => []
  bodyFilters := []
  content := some {
    processHeaders := none
    processBody := none
    responseHeaders := fun r e =>
      ⟨phlOk, r.req, { r.resp with statusCode := 204, contentLength := 0 }, none, e, []⟩
    responseBody := none }

/-- The HEADERS frame of an empty body ends the stream, and the empty last piece ends it again. -/
theorem stream_ends_twice :
    ∃ w, Reachable (fun w => ∃ e, w = newStream (Env.single emptyPath) e)
        (Step (Env.single emptyPath)) w ∧
      frames w.trace = [.headers true, .data true] ∧ w.r.closed = true ∧ ¬MeetsStreamEnd w := by
  have h : (runs (Env.single emptyPath) (fun _ => true) 10
      (streamWorld (Env.single emptyPath) [(bytes ":path", bytes "/")] ())).map
      (fun w => (frames w.trace, w.r.closed)) = some ([.headers true, .data true], true) := by
    decide
  obtain ⟨w, hw, ht⟩ := Option.map_eq_some_iff.mp h
  obtain ⟨hframes, hclosed⟩ := Prod.mk.inj ht
  have hreach : Reachable (fun w => ∃ e, w = newStream (Env.single emptyPath) e)
      (StepOk (Env.single emptyPath) fun _ => true) w := reachable_stream ⟨_, rfl⟩ rfl hw
  refine ⟨w, hreach.mono fun _ _ hs => hs.1, hframes, hclosed, fun hmeets => ?_⟩
  have hno := (hmeets ⟨true, by simp [hframes]⟩).2.1 (.headers true) (by simp [hframes])
  cases hno

end Phorklift
