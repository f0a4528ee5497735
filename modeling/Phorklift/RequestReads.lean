import Phorklift.RequestSplit

/-! The reads of a request head into the receive buffer of its connection. -/

namespace Phorklift

section Left

variable {lib : Libwuya} {r : Req} {data : Bytes}

theorem phlHttp1RequestHeaderLines_suffix (lib : Libwuya) :
    ∀ (fuel : Nat) (r : Req) (data : Bytes),
      (phlHttp1RequestHeaderLines lib fuel r data).2.2 <:+ data := by
  intro fuel
  induction fuel with
  | zero => exact fun _ data => List.suffix_refl data
  | succ fuel ih =>
    intro r data
    have hdrop := List.drop_suffix (lib.httpHeader data).procLen.toNat data
    unfold phlHttp1RequestHeaderLines
    dsimp only
    split
    next => exact List.suffix_refl data
    next =>
      split
      next => exact List.suffix_refl data
      next =>
        split
        next => exact hdrop
        next =>
          split
          next => exact hdrop
          next => exact (ih _ _).trans hdrop

/-- The parse takes bytes from the front alone. -/
theorem head_suffix (lib : Libwuya) (r : Req) (data : Bytes) :
    (phlHttp1RequestHeaders lib r data).2.2 <:+ data := by
  have hdrop := List.drop_suffix (lib.httpRequestLine data).procLen.toNat data
  unfold phlHttp1RequestHeaders
  dsimp only
  split
  next => exact phlHttp1RequestHeaderLines_suffix lib _ _ _
  next =>
    split
    next => exact List.suffix_refl data
    next =>
      split
      next => exact List.suffix_refl data
      next =>
        split
        next => exact (phlHttp1RequestHeaderLines_suffix lib _ _ _).trans hdrop
        next => exact List.suffix_refl data

/-- A loop that waits comes no further with nothing more. By induction on what is left. -/
theorem requestLines_stalled (hlib : Settles lib.httpHeader) :
    ∀ (n : Nat) (r : Req) (data : Bytes), data.length < n →
      (requestLines lib r data).1 = phlAgain →
      requestLines lib (requestLines lib r data).2.1 (requestLines lib r data).2.2 =
        requestLines lib r data := by
  intro n
  induction n with
  | zero => intro r data hlt; omega
  | succ n ih =>
    intro r data hlt hagain
    have hdata := requestLines_eq hlib r data
    dsimp only at hdata
    by_cases hneg : (lib.httpHeader data).procLen < 0
    · rw [if_pos hneg] at hdata
      rw [hdata] at hagain
      cases hagain
    · by_cases hzero : (lib.httpHeader data).procLen = 0
      · rw [linesFed_waits hlib hzero]
        exact linesFed_waits hlib hzero r
      · by_cases htwo : (lib.httpHeader data).procLen = 2
        · rw [if_neg hneg, if_neg hzero, if_pos htwo] at hdata
          rw [hdata] at hagain
          cases hagain
        · by_cases hok : (phlHttp1RequestHeader (lib.httpHeader data).value data r).1 = phlOk
          · rw [if_neg hneg, if_neg hzero, if_neg htwo, if_neg (not_not.mpr hok)] at hdata
            have hpos : 0 < (lib.httpHeader data).procLen := by omega
            have hshort := (hlib.drop_lt hpos).2
            rw [hdata] at hagain ⊢
            exact ih _ _ (by omega) hagain
          · rw [if_neg hneg, if_neg hzero, if_neg htwo, if_pos hok] at hdata
            rw [hdata] at hagain
            exact absurd hagain (phlHttp1RequestHeader_ret _ _ _)

theorem head_stalled (hlib : Settles lib.httpHeader)
    (hagain : (phlHttp1RequestHeaders lib r data).1 = phlAgain) :
    phlHttp1RequestHeaders lib (phlHttp1RequestHeaders lib r data).2.1
        (phlHttp1RequestHeaders lib r data).2.2 = phlHttp1RequestHeaders lib r data := by
  cases hmethod : r.method with
  | some method =>
    rw [head_of_method hmethod] at hagain ⊢
    rw [head_of_method ((requestLines_method lib r data).trans hmethod)]
    exact requestLines_stalled hlib _ _ _ (Nat.lt_succ_self _) hagain
  | none =>
    by_cases hpos : 0 < (lib.httpRequestLine data).procLen
    · have hline := head_of_line hpos hmethod
      dsimp only at hline
      split at hline
      next =>
        rw [hline] at hagain ⊢
        have hkept : (requestLines lib (phlRequestSetUri lib
            { r with
              method := some (lib.httpRequestLine data).value.method
              version := (lib.httpRequestLine data).value.version }
            (lib.httpRequestLine data).value.url).2
            (data.drop (lib.httpRequestLine data).procLen.toNat)).2.1.method =
            some (lib.httpRequestLine data).value.method := by
          rw [requestLines_method, phlRequestSetUri_method]
        rw [head_of_method hkept]
        exact requestLines_stalled hlib _ _ _ (Nat.lt_succ_self _) hagain
      next =>
        rw [hline] at hagain
        cases hagain
    · have hsame : phlHttp1RequestHeaders lib r data = (phlAgain, r, data) := by
        unfold phlHttp1RequestHeaders at hagain ⊢
        rw [hmethod] at hagain ⊢
        dsimp only at hagain ⊢
        by_cases hneg : (lib.httpRequestLine data).procLen < 0
        · rw [if_pos hneg] at hagain
          cases hagain
        · rw [if_neg hneg, if_pos (by omega)]
      rw [hsame]
      exact hsame

end Left

/-- A connection while the head of a request comes in: `recvBufPos` and `recvBufEnd` are places in
`recvBuffer`, and `ret` is what `phl_http1_request_headers` has come to. -/
structure RecvConn where
  recvBufferSize : Nat
  recvBuffer : Option Bytes
  recvBufPos : Nat
  recvBufEnd : Nat
  request : Option Req
  ret : Int

namespace RecvConn

/-- What has been received and not been parsed. -/
def held (c : RecvConn) : Bytes := ((c.recvBuffer.getD []).take c.recvBufEnd).drop c.recvBufPos

/-- What `phl_connection_on_readable` does before a read. -/
def compact (c : RecvConn) : RecvConn :=
  if c.recvBufPos = c.recvBufEnd then { c with recvBufPos := 0, recvBufEnd := 0 }
  else if c.recvBufPos ≠ 0 then
    { c with
      -- `memmove`: what lies behind the moved bytes stays as it is
      recvBuffer := c.recvBuffer.map fun memory => c.held ++ memory.drop c.held.length
      recvBufPos := 0
      recvBufEnd := c.recvBufEnd - c.recvBufPos }
  else c

/-- A read of `piece`, which is no more than there is room for. -/
def fill (piece : Bytes) (c : RecvConn) : RecvConn :=
  { c with
    recvBuffer := c.recvBuffer.map fun memory =>
      memory.take c.recvBufEnd ++ piece ++ memory.drop (c.recvBufEnd + piece.length)
    recvBufEnd := c.recvBufEnd + piece.length }

/-- `phl_request_run` on a request whose head is not complete. -/
def receiveHeaders (lib : Libwuya) (r : Req) (c : RecvConn) : RecvConn :=
  let x := phlHttp1RequestHeaders lib r c.held
  { c with
    recvBufPos := c.recvBufEnd - x.2.2.length
    request := some x.2.1
    ret := x.1 }

def phlHttp1OnReadable (lib : Libwuya) (c : RecvConn) : RecvConn :=
  c.receiveHeaders lib (c.request.getD .init)

def phlHttp1OnWritable (lib : Libwuya) (c : RecvConn) : RecvConn :=
  match c.request with
  | none => c
  | some r => c.receiveHeaders lib r

/-- The loop of `phl_connection_on_readable`, up to the end of the head, and the reads that it
leaves to the next step of the request. -/
def readLoop (lib : Libwuya) : List Bytes → RecvConn → RecvConn × List Bytes
  | [], c =>
    let c := c.compact
    if c.recvBufPos = c.recvBufEnd then ({ c with recvBuffer := none }, []) else (c, [])
  | piece :: pieces, c =>
    let c := (c.compact.fill piece).phlHttp1OnReadable lib
    if c.ret = phlAgain then readLoop lib pieces c else (c, pieces)

/-- `memory` is what `malloc` gives. -/
def allocate (memory : Bytes) (c : RecvConn) : RecvConn :=
  { c with recvBuffer := some (c.recvBuffer.getD memory) }

def phlConnectionOnReadable (lib : Libwuya) (memory : Bytes) (pieces : List Bytes)
    (c : RecvConn) : RecvConn × List Bytes :=
  readLoop lib pieces (c.allocate memory)

/-- The places are in the buffer. -/
structure Sized (c : RecvConn) : Prop where
  ordered : c.recvBufPos ≤ c.recvBufEnd
  inside : c.recvBufEnd ≤ c.recvBufferSize
  freed : c.recvBuffer = none → c.recvBufPos = c.recvBufEnd
  size : ∀ memory, c.recvBuffer = some memory → memory.length = c.recvBufferSize

variable {lib : Libwuya} {c : RecvConn} {piece memory : Bytes}

theorem held_length (h : c.Sized) : c.held.length = c.recvBufEnd - c.recvBufPos := by
  unfold held
  rw [List.length_drop, List.length_take]
  cases hbuffer : c.recvBuffer with
  | none =>
    have hsame := h.freed hbuffer
    rw [Option.getD_none, List.length_nil]
    omega
  | some memory =>
    have hsize := h.size memory hbuffer
    have hinside := h.inside
    rw [Option.getD_some]
    omega

/-- Nothing is held where the places are the same. -/
theorem held_nil (hsame : c.recvBufPos = c.recvBufEnd) : c.held = [] := by
  unfold held
  apply List.drop_of_length_le
  rw [List.length_take]
  omega

/-- What is held may be at another place, and all else is as in `c`. -/
structure Moved (c d : RecvConn) : Prop where
  sized : d.Sized
  size : d.recvBufferSize = c.recvBufferSize
  held : d.held = c.held
  request : d.request = c.request
  ret : d.ret = c.ret

theorem allocate_moved (h : c.Sized) (hmemory : memory.length = c.recvBufferSize) :
    Moved c (c.allocate memory) := by
  unfold allocate
  cases hbuffer : c.recvBuffer with
  | none =>
    have hsame := h.freed hbuffer
    refine ⟨⟨h.ordered, h.inside, fun hnone => ?_, fun given hgiven => ?_⟩, rfl, ?_, rfl, rfl⟩
    · cases hnone
    · cases hgiven
      exact hmemory
    · rw [held_nil hsame]
      exact held_nil hsame
  | some given =>
    rw [Option.getD_some, ← hbuffer]
    exact ⟨h, rfl, rfl, rfl, rfl⟩

/-- What is held goes to the front of the buffer. -/
theorem compact_moved (h : c.Sized) : Moved c c.compact ∧
    c.compact.recvBuffer.isSome = c.recvBuffer.isSome ∧
      c.compact.recvBufEnd = c.held.length := by
  have hlen := held_length h
  have hordered := h.ordered
  unfold compact
  split
  next hsame =>
    have hnil := held_nil hsame
    have hnone : RecvConn.held { c with recvBufPos := 0, recvBufEnd := 0 } = [] := held_nil rfl
    refine ⟨⟨⟨le_refl _, Nat.zero_le _, fun _ => rfl, h.size⟩, rfl, hnone.trans hnil.symm, rfl,
      rfl⟩, rfl, ?_⟩
    rw [hnil]
    rfl
  next hne =>
    cases hbuffer : c.recvBuffer with
    | none => exact absurd (h.freed hbuffer) hne
    | some memory =>
      have hsize := h.size memory hbuffer
      have hinside := h.inside
      split
      next hpos =>
        refine ⟨⟨⟨Nat.zero_le _, ?_, fun hnone => ?_, fun moved hm => ?_⟩, rfl, ?_, rfl, rfl⟩,
          ?_, hlen.symm⟩
        · show c.recvBufEnd - c.recvBufPos ≤ c.recvBufferSize
          omega
        · cases hnone
        · cases hm
          rw [List.length_append, List.length_drop]
          show _ = c.recvBufferSize
          omega
        · show ((c.held ++ memory.drop c.held.length).take
            (c.recvBufEnd - c.recvBufPos)).drop 0 = c.held
          rw [List.drop_zero, ← hlen, List.take_left]
        · rfl
      next hzero =>
        refine ⟨⟨h, rfl, rfl, rfl, rfl⟩, ?_, ?_⟩
        · rw [hbuffer]
        · show c.recvBufEnd = c.held.length
          omega

/-- A read puts the piece behind what is held. -/
theorem fill_held (piece : Bytes) (h : c.Sized) (hbuffer : c.recvBuffer = some memory)
    (hroom : c.recvBufEnd + piece.length ≤ c.recvBufferSize) :
    (c.fill piece).Sized ∧ (c.fill piece).held = c.held ++ piece := by
  have hsize := h.size memory hbuffer
  have hinside := h.inside
  have hordered := h.ordered
  have hfront : (memory.take c.recvBufEnd).length = c.recvBufEnd := by
    rw [List.length_take]
    omega
  unfold fill
  constructor
  · refine ⟨?_, hroom, fun hnone => ?_, fun filled hm => ?_⟩
    · show c.recvBufPos ≤ c.recvBufEnd + piece.length
      omega
    · rw [hbuffer] at hnone
      cases hnone
    · rw [hbuffer] at hm
      cases hm
      rw [List.length_append, List.length_append, List.length_drop, hfront]
      show _ = c.recvBufferSize
      omega
  · unfold held
    rw [hbuffer]
    show ((memory.take c.recvBufEnd ++ piece ++
      memory.drop (c.recvBufEnd + piece.length)).take (c.recvBufEnd + piece.length)).drop
        c.recvBufPos = (memory.take c.recvBufEnd).drop c.recvBufPos ++ piece
    have hlen : (memory.take c.recvBufEnd ++ piece).length = c.recvBufEnd + piece.length := by
      rw [List.length_append, hfront]
    rw [← hlen, List.take_left, List.drop_append_of_le_length (by omega)]

/-- The parse moves `recv_buf_pos` over what it takes. -/
theorem receiveHeaders_held (lib : Libwuya) (h : c.Sized) (r : Req) :
    (c.receiveHeaders lib r).Sized ∧
      (c.receiveHeaders lib r).held = (phlHttp1RequestHeaders lib r c.held).2.2 := by
  obtain ⟨taken, htaken⟩ := head_suffix lib r c.held
  have hlen := held_length h
  have hordered := h.ordered
  have hsplit := congrArg List.length htaken
  rw [List.length_append] at hsplit
  unfold receiveHeaders
  dsimp only
  generalize phlHttp1RequestHeaders lib r c.held = x at htaken hsplit
  constructor
  · refine ⟨?_, h.inside, fun hnone => ?_, h.size⟩
    · show c.recvBufEnd - x.2.2.length ≤ c.recvBufEnd
      omega
    · show c.recvBufEnd - x.2.2.length = c.recvBufEnd
      have hsame := h.freed hnone
      omega
  · show ((c.recvBuffer.getD []).take c.recvBufEnd).drop (c.recvBufEnd - x.2.2.length) = x.2.2
    have hplace : c.recvBufEnd - x.2.2.length = c.recvBufPos + taken.length := by omega
    rw [hplace, ← List.drop_drop]
    show c.held.drop taken.length = x.2.2
    rw [← htaken, List.drop_left]

/-- One read of the loop. -/
structure Reads (lib : Libwuya) (c : RecvConn) (piece : Bytes) (d : RecvConn) : Prop where
  sized : d.Sized
  size : d.recvBufferSize = c.recvBufferSize
  buffer : d.recvBuffer.isSome
  ret : d.ret = (phlHttp1RequestHeaders lib (c.request.getD .init) (c.held ++ piece)).1
  request : d.request =
    some (phlHttp1RequestHeaders lib (c.request.getD .init) (c.held ++ piece)).2.1
  held : d.held = (phlHttp1RequestHeaders lib (c.request.getD .init) (c.held ++ piece)).2.2

theorem read_spec (lib : Libwuya) (piece : Bytes) (h : c.Sized) (hbuffer : c.recvBuffer.isSome)
    (hroom : c.held.length + piece.length ≤ c.recvBufferSize) :
    Reads lib c piece ((c.compact.fill piece).phlHttp1OnReadable lib) := by
  obtain ⟨hmoved, hsome, hend⟩ := compact_moved h
  rw [← hsome] at hbuffer
  obtain ⟨memory, hmemory⟩ := Option.isSome_iff_exists.mp hbuffer
  obtain ⟨hsized, hheld⟩ := fill_held piece hmoved.sized hmemory (by
    rw [hend, hmoved.size]
    exact hroom)
  rw [hmoved.held] at hheld
  have hrequest : (c.compact.fill piece).request = c.request := hmoved.request
  have hsize : (c.compact.fill piece).recvBufferSize = c.recvBufferSize := hmoved.size
  have hfilled : (c.compact.fill piece).recvBuffer.isSome := by
    unfold fill
    rw [Option.isSome_map]
    exact hbuffer
  generalize c.compact.fill piece = d at hsized hheld hrequest hsize hfilled
  unfold phlHttp1OnReadable
  obtain ⟨hparsed, hleft⟩ := receiveHeaders_held lib hsized (d.request.getD .init)
  rw [hheld, hrequest] at hleft
  rw [hrequest] at hparsed ⊢
  refine ⟨hparsed, hsize, hfilled, ?_, ?_, hleft⟩
  · unfold receiveHeaders
    rw [hheld]
  · unfold receiveHeaders
    rw [hheld]

/-- The end of the loop where the stream has no more. -/
theorem readLoop_nil (lib : Libwuya) (h : c.Sized) :
    Moved c (readLoop lib [] c).1 ∧ (readLoop lib [] c).2 = [] := by
  obtain ⟨hmoved, -⟩ := compact_moved h
  unfold readLoop
  dsimp only
  split
  next hsame =>
    refine ⟨⟨⟨hmoved.sized.ordered, hmoved.sized.inside, fun _ => hsame, fun memory hm => ?_⟩,
      hmoved.size, ?_, hmoved.request, hmoved.ret⟩, rfl⟩
    · cases hm
    · rw [← hmoved.held, held_nil hsame]
      exact held_nil hsame
  next => exact ⟨hmoved, rfl⟩

end RecvConn

/-- A call of the loop on the connection. -/
inductive RecvCall
  | readable (memory : Bytes) (pieces : List Bytes)
  | writable

/-- The reads of a call. -/
def RecvCall.pieces : RecvCall → List Bytes
  | .readable _ pieces => pieces
  | .writable => []

/-- The calls up to the end of the head, and the bytes that are left to read. -/
def recvCalls (lib : Libwuya) : List RecvCall → RecvConn → RecvConn × Bytes
  | [], c => (c, [])
  | .readable memory pieces :: calls, c =>
    let x := c.phlConnectionOnReadable lib memory pieces
    if x.1.ret = phlAgain then recvCalls lib calls x.1
    else (x.1, x.2.flatten ++ (calls.flatMap RecvCall.pieces).flatten)
  | .writable :: calls, c =>
    let c := c.phlHttp1OnWritable lib
    if c.ret = phlAgain then recvCalls lib calls c
    else (c, (calls.flatMap RecvCall.pieces).flatten)

/-- The bytes that the calls read. -/
def recvBytes (calls : List RecvCall) : Bytes := (calls.flatMap RecvCall.pieces).flatten

/-- What has come of a head: the result, the request, and the bytes that follow the head. -/
def recvOutcome (x : RecvConn × Bytes) : Int × Option Req × Bytes :=
  (x.1.ret, x.1.request, x.1.held ++ x.2)

def headOutcome (x : Int × Req × Bytes) : Int × Option Req × Bytes := (x.1, some x.2.1, x.2.2)

/-- A connection that waits for `rest`, of a head which comes to `whole` in one read. -/
structure RecvAt (lib : Libwuya) (rest : Bytes) (whole : Int × Req × Bytes) (c : RecvConn) :
    Prop where
  sized : c.Sized
  fits : c.held.length + rest.length ≤ c.recvBufferSize
  told : HeadTold lib (c.request.getD .init) (c.held ++ rest)
  same : phlHttp1RequestHeaders lib (c.request.getD .init) (c.held ++ rest) = whole
  stalled : ∀ r, c.request = some r → phlHttp1RequestHeaders lib r c.held = (phlAgain, r, c.held)
  waits : c.ret = phlAgain

/-- A connection whose head has ended, with `rest` left to read. -/
structure RecvEnd (rest : Bytes) (whole : Int × Req × Bytes) (c : RecvConn) : Prop where
  ret : c.ret = whole.1
  request : c.request = some whole.2.1
  held : c.held ++ rest = whole.2.2

section Calls

variable {lib : Libwuya} {c : RecvConn} {piece rest memory : Bytes} {whole : Int × Req × Bytes}

theorem RecvAt.moved {d : RecvConn} (h : RecvAt lib rest whole c) (hm : RecvConn.Moved c d) :
    RecvAt lib rest whole d := by
  refine ⟨hm.sized, ?_, ?_, ?_, ?_, hm.ret.trans h.waits⟩
  · rw [hm.held, hm.size]
    exact h.fits
  · rw [hm.held, hm.request]
    exact h.told
  · rw [hm.held, hm.request]
    exact h.same
  · rw [hm.held, hm.request]
    exact h.stalled

theorem RecvAt.read (hlib : lib.Lawful) (h : RecvAt lib (piece ++ rest) whole c)
    (hbuffer : c.recvBuffer.isSome) :
    let d := (c.compact.fill piece).phlHttp1OnReadable lib
    if d.ret = phlAgain then RecvAt lib rest whole d else RecvEnd rest whole d := by
  have hfits := h.fits
  rw [List.length_append] at hfits
  have hread := RecvConn.read_spec lib piece h.sized hbuffer (by omega)
  have htold := h.told
  have hsame := h.same
  rw [← List.append_assoc] at htold hsame
  obtain ⟨hfed, hgoes⟩ := headFed_eq hlib htold
  rw [hsame] at hfed
  unfold headFed at hfed
  have hsuffix := (head_suffix lib (c.request.getD .init) (c.held ++ piece)).length_le
  rw [List.length_append] at hsuffix
  dsimp only at hfed ⊢
  rw [hread.ret]
  split
  next hagain =>
    have hstalled := head_stalled hlib.header.toSettles hagain
    rw [if_pos hagain] at hfed
    refine ⟨hread.sized, ?_, ?_, ?_, fun r hr => ?_, hread.ret.trans hagain⟩
    · rw [hread.held, hread.size]
      omega
    · rw [hread.request, hread.held]
      exact hgoes hagain
    · rw [hread.request, hread.held]
      exact hfed
    · rw [hread.request] at hr
      cases hr
      rw [hread.held, hstalled, ← hagain]
  next hend =>
    rw [if_neg hend] at hfed
    rw [← hfed]
    refine ⟨hread.ret, hread.request, ?_⟩
    rw [hread.held]

theorem RecvAt.readLoop (hlib : lib.Lawful) :
    ∀ (pieces : List Bytes) (c : RecvConn), RecvAt lib (pieces.flatten ++ rest) whole c →
      c.recvBuffer.isSome →
      let x := RecvConn.readLoop lib pieces c
      if x.1.ret = phlAgain then RecvAt lib rest whole x.1 ∧
        x.1.recvBufferSize = c.recvBufferSize ∧
          (c.request.isSome ∨ pieces ≠ [] → x.1.request.isSome)
      else RecvEnd (x.2.flatten ++ rest) whole x.1 := by
  intro pieces
  induction pieces with
  | nil =>
    intro c h _
    rw [List.flatten_nil, List.nil_append] at h
    obtain ⟨hmoved, -⟩ := RecvConn.readLoop_nil lib h.sized
    dsimp only
    rw [if_pos (hmoved.ret.trans h.waits)]
    refine ⟨h.moved hmoved, hmoved.size, fun hsome => ?_⟩
    rw [hmoved.request]
    exact hsome.resolve_right (not_not.mpr rfl)
  | cons piece pieces ih =>
    intro c h hbuffer
    rw [List.flatten_cons, List.append_assoc] at h
    have hfits := h.fits
    rw [List.length_append] at hfits
    have hread := RecvConn.read_spec lib piece h.sized hbuffer (by omega)
    have hone := h.read hlib hbuffer
    unfold RecvConn.readLoop
    dsimp only at hone ⊢
    split
    next hagain =>
      rw [if_pos hagain] at hone
      have hmore := ih _ hone hread.buffer
      dsimp only at hmore
      split at hmore
      next hwaits =>
        obtain ⟨hat, hsize, hsome⟩ := hmore
        rw [if_pos hwaits]
        refine ⟨hat, hsize.trans hread.size, fun _ => hsome (.inl ?_)⟩
        rw [hread.request]
        rfl
      next hend =>
        rw [if_neg hend]
        exact hmore
    next hend =>
      rw [if_neg hend] at hone
      exact hone

/-- A parse of what has been parsed changes nothing. -/
theorem RecvAt.writable (h : RecvAt lib rest whole c) :
    RecvConn.Moved c (c.phlHttp1OnWritable lib) := by
  unfold RecvConn.phlHttp1OnWritable
  cases hrequest : c.request with
  | none => exact ⟨h.sized, rfl, rfl, rfl, rfl⟩
  | some r =>
    have hstalled := h.stalled r hrequest
    obtain ⟨hsized, hheld⟩ := RecvConn.receiveHeaders_held lib h.sized r
    rw [hstalled] at hheld
    refine ⟨hsized, rfl, hheld, ?_, ?_⟩
    · show some (phlHttp1RequestHeaders lib r c.held).2.1 = c.request
      rw [hstalled, hrequest]
    · show (phlHttp1RequestHeaders lib r c.held).1 = c.ret
      rw [hstalled, h.waits]

/-- `malloc` gives what it is asked for, and a read that gives nothing ends the loop. -/
def RecvCall.WellFormed (size : Nat) : RecvCall → Prop
  | .readable memory pieces => memory.length = size ∧ ∀ piece ∈ pieces, piece ≠ []
  | .writable => True

/-- However the reads are cut, the head comes to what it comes to in one. By induction on the
calls. -/
theorem recvCalls_eq (hlib : lib.Lawful) :
    ∀ (calls : List RecvCall) (c : RecvConn), RecvAt lib (recvBytes calls) whole c →
      (∀ call ∈ calls, call.WellFormed c.recvBufferSize) →
      c.request.isSome ∨ recvBytes calls ≠ [] →
      recvOutcome (recvCalls lib calls c) = headOutcome whole := by
  intro calls
  induction calls with
  | nil =>
    intro c h _ hsome
    obtain ⟨r, hr⟩ := Option.isSome_iff_exists.mp (hsome.resolve_right (not_not.mpr rfl))
    have hsame := h.same
    have hnone : recvBytes [] = [] := rfl
    rw [hr, hnone, List.append_nil] at hsame
    rw [Option.getD_some, h.stalled r hr] at hsame
    unfold recvOutcome recvCalls headOutcome
    rw [← hsame, h.waits, hr, List.append_nil]
  | cons call calls ih =>
    intro c h hformed hsome
    have hmore : ∀ other ∈ calls, other.WellFormed c.recvBufferSize := by
      intro other hother
      exact hformed other (List.mem_cons_of_mem _ hother)
    cases call with
    | writable =>
      have hmoved := h.writable
      have hafter := h.moved hmoved
      unfold recvCalls
      dsimp only
      rw [if_pos hafter.waits]
      refine ih _ hafter ?_ ?_
      · rw [hmoved.size]
        exact hmore
      · rw [hmoved.request]
        exact hsome
    | readable memory pieces =>
      obtain ⟨hmemory, hpieces⟩ := hformed _ List.mem_cons_self
      have hmoved := RecvConn.allocate_moved h.sized hmemory
      have hbytes : recvBytes (.readable memory pieces :: calls) =
          pieces.flatten ++ recvBytes calls := by
        unfold recvBytes
        rw [List.flatMap_cons, List.flatten_append]
        rfl
      rw [hbytes] at h hsome
      have hloop := (h.moved hmoved).readLoop hlib pieces _ rfl
      unfold recvCalls RecvConn.phlConnectionOnReadable
      dsimp only at hloop ⊢
      split at hloop
      next hagain =>
        obtain ⟨hat, hsize, hrequest⟩ := hloop
        rw [hmoved.size] at hsize
        rw [hmoved.request] at hrequest
        rw [if_pos hagain]
        refine ih _ hat ?_ ?_
        · rw [hsize]
          exact hmore
        · by_cases hnil : pieces = []
          · subst hnil
            rcases hsome with hsome | hsome
            · exact .inl (hrequest (.inl hsome))
            · exact .inr hsome
          · exact .inl (hrequest (.inr hnil))
      next hend =>
        rw [if_neg hend]
        unfold recvOutcome headOutcome
        dsimp only
        rw [hloop.ret, hloop.request]
        exact congrArg _ (congrArg _ hloop.held)

/-- A call whose loop ends with the head still to come has read all. -/
theorem readLoop_rest (lib : Libwuya) :
    ∀ (pieces : List Bytes) (c : RecvConn), (RecvConn.readLoop lib pieces c).1.ret = phlAgain →
      (RecvConn.readLoop lib pieces c).2 = [] := by
  intro pieces
  induction pieces with
  | nil =>
    intro c _
    unfold RecvConn.readLoop
    dsimp only
    split
    next => rfl
    next => rfl
  | cons piece pieces ih =>
    intro c hagain
    unfold RecvConn.readLoop at hagain ⊢
    dsimp only at hagain ⊢
    split at hagain
    next hone =>
      rw [if_pos hone]
      exact ih _ hagain
    next hone => exact absurd hagain hone

theorem recvCalls_readable (lib : Libwuya) (memory : Bytes) (pieces : List Bytes) (c : RecvConn) :
    recvOutcome (recvCalls lib [.readable memory pieces] c) =
      recvOutcome ((RecvConn.readLoop lib pieces (c.allocate memory)).1,
        (RecvConn.readLoop lib pieces (c.allocate memory)).2.flatten) := by
  have hrest := readLoop_rest lib pieces (c.allocate memory)
  unfold recvCalls RecvConn.phlConnectionOnReadable
  dsimp only
  split
  next hagain =>
    rw [hrest hagain]
    rfl
  next =>
    rw [List.flatMap_nil, List.flatten_nil, List.append_nil]

theorem readLoop_cons (lib : Libwuya) (piece : Bytes) (h : c.Sized) (hbuffer : c.recvBuffer.isSome)
    (hroom : c.held.length + piece.length ≤ c.recvBufferSize) (pieces : List Bytes) :
    ∃ d, RecvConn.Reads lib c piece d ∧ RecvConn.readLoop lib (piece :: pieces) c =
      if d.ret = phlAgain then RecvConn.readLoop lib pieces d else (d, pieces) :=
  ⟨_, RecvConn.read_spec lib piece h hbuffer hroom, rfl⟩

/-- One read of all that comes. -/
theorem readLoop_one (h : c.Sized) (hbuffer : c.recvBuffer.isSome)
    (hroom : c.held.length + piece.length ≤ c.recvBufferSize) :
    recvOutcome ((RecvConn.readLoop lib [piece] c).1, (RecvConn.readLoop lib [piece] c).2.flatten) =
      headOutcome (phlHttp1RequestHeaders lib (c.request.getD .init) (c.held ++ piece)) := by
  obtain ⟨d, hread, hloop⟩ := readLoop_cons lib piece h hbuffer hroom []
  rw [hloop]
  unfold headOutcome
  rw [← hread.ret, ← hread.request, ← hread.held]
  split
  next =>
    obtain ⟨hmoved, hnone⟩ := RecvConn.readLoop_nil lib hread.sized
    unfold recvOutcome
    dsimp only
    rw [hnone, hmoved.ret, hmoved.request, hmoved.held, List.flatten_nil, List.append_nil]
  next =>
    unfold recvOutcome
    dsimp only
    rw [List.flatten_nil, List.append_nil]

/-- Two reads in one call. -/
theorem readLoop_two {xs ys : Bytes} (h : c.Sized) (hbuffer : c.recvBuffer.isSome)
    (hroom : c.held.length + (xs.length + ys.length) ≤ c.recvBufferSize) :
    recvOutcome ((RecvConn.readLoop lib [xs, ys] c).1,
        (RecvConn.readLoop lib [xs, ys] c).2.flatten) =
      headOutcome (headFed lib (c.request.getD .init) (c.held ++ xs) ys) := by
  obtain ⟨d, hread, hloop⟩ := readLoop_cons lib xs h hbuffer (by omega) [ys]
  have hsuffix := (head_suffix lib (c.request.getD .init) (c.held ++ xs)).length_le
  rw [List.length_append, ← hread.held] at hsuffix
  rw [hloop]
  unfold headFed
  dsimp only
  rw [← hread.ret, ← hread.held]
  split
  next =>
    have hroom' : d.held.length + ys.length ≤ d.recvBufferSize := by
      rw [hread.size]
      omega
    rw [readLoop_one hread.sized hread.buffer hroom', hread.request, Option.getD_some]
  next =>
    unfold recvOutcome headOutcome
    dsimp only
    rw [← hread.request, List.flatten_singleton]

end Calls

/-- A connection that no request has begun on. It may hold what a read has taken with the end of
the request before. -/
structure RecvConn.AtRest (size : Nat) (c : RecvConn) : Prop where
  sized : c.Sized
  size : c.recvBufferSize = size
  request : c.request = none
  ret : c.ret = phlAgain

def RecvConn.init (size : Nat) : RecvConn where
  recvBufferSize := size
  recvBuffer := none
  recvBufPos := 0
  recvBufEnd := 0
  request := none
  ret := phlAgain

theorem RecvConn.init_atRest (size : Nat) : (RecvConn.init size).AtRest size where
  sized := ⟨le_refl _, Nat.zero_le _, fun _ => rfl, fun _ hnone => by cases hnone⟩
  size := rfl
  request := rfl
  ret := rfl

section Main

variable {lib : Libwuya} {size : Nat} {data memory : Bytes}

theorem RecvConn.AtRest.recvAt {c : RecvConn} {rest : Bytes} (h : c.AtRest size)
    (hdata : c.held ++ rest = data) (hfits : data.length ≤ size)
    (htold : HeadTold lib .init data) :
    RecvAt lib rest (phlHttp1RequestHeaders lib .init data) c := by
  have hlen := congrArg List.length hdata
  rw [List.length_append] at hlen
  refine ⟨h.sized, ?_, ?_, ?_, fun r hr => ?_, h.ret⟩
  · rw [hlen, h.size]
    exact hfits
  · rw [h.request, hdata]
    exact htold
  · rw [h.request, hdata]
    rfl
  · rw [h.request] at hr
    cases hr

end Main

/-- A line that is found is found alone. -/
theorem takeLine_line {s line rest : Bytes} (h : Http.takeLine s = some (line, rest)) :
    Http.takeLine (line ++ crlf) = some (line, []) := by
  fun_induction Http.takeLine s generalizing line rest with
  | case1 rest' =>
    cases h
    rfl
  | case2 c rest' hcr ih =>
    obtain ⟨⟨l, r⟩, hl, hp⟩ := Option.map_eq_some_iff.mp h
    cases hp
    have hrest := takeLine_eq hl
    have hfirst : ∀ more, c = 13 → l ++ crlf = 10 :: more → False := by
      intro more hc hl
      rw [hl] at hrest
      exact hcr _ hc hrest
    rw [List.cons_append, Http.takeLine.eq_2 _ _ hfirst, ih hl]
    rfl
  | case3 => cases h

theorem settlesLines_lineParser {α : Type} (d : α) (f : Bytes → Option α) :
    SettlesLines (lineParser d f) where
  toSettles := settles_lineParser d f
  whole := by
    intro data hpos
    unfold lineParser at hpos ⊢
    cases hfound : Http.takeLine data with
    | none =>
      rw [hfound] at hpos
      exact absurd hpos (lt_irrefl 0)
    | some x =>
      obtain ⟨line, rest⟩ := x
      rw [hfound] at hpos
      dsimp only at hpos ⊢
      cases hv : f line with
      | none =>
        rw [hv] at hpos
        exact absurd hpos (show ¬0 < phlError by decide)
      | some v =>
        have hlen : (line ++ crlf).length = line.length + 2 := by
          rw [List.length_append]
          rfl
        have htake : data.take ((line.length : Int) + 2).toNat = line ++ crlf := by
          rw [takeLine_eq hfound, show ((line.length : Int) + 2).toNat = (line ++ crlf).length by
            omega, List.take_left]
        dsimp only
        rw [htake, takeLine_line hfound]
        dsimp only
        rw [hv]

theorem Libwuya.lines_lawful : Libwuya.lines.Lawful where
  requestLine := settlesLines_lineParser _ _
  header := settlesLines_lineParser _ _
  headerLine := by
    intro data hpos _
    exact lineParser_headerLine hpos

def cutHead : Bytes := bytes "GET / HTTP/1.1\r\nContent-Length: 2\r\n\r\n"

def cutMemory : Bytes := List.replicate 64 0

theorem cutHead_told : HeadTold Libwuya.lines .init cutHead := by
  unfold HeadTold
  dsimp only [Req.init]
  intro _ _
  exact .line (by decide) (by decide) (fun _ => .inl ⟨50, by decide, by decide⟩)
    fun _ => .stop (.inr (by decide))

/-- Three reads of it, in two calls, and a call between them for a connection that can be written
to. -/
def cutCalls : List RecvCall :=
  [.readable cutMemory [cutHead.take 5], .writable,
    .readable cutMemory [(cutHead.drop 5).take 12, cutHead.drop 17]]

theorem cutCalls_formed : ∀ call ∈ cutCalls, call.WellFormed 64 := by
  unfold cutCalls RecvCall.WellFormed
  simp only [List.mem_cons, List.not_mem_nil, or_false, forall_eq_or_imp, forall_eq]
  decide

/-- A head whose length is missing, with a number in its next line. -/
def blankHead : Bytes := bytes "GET / HTTP/1.1\r\nContent-Length:\r\n"

def numberLine : Bytes := bytes "5: x\r\n\r\n"

end Phorklift
