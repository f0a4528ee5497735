import Phorklift.FileRead
import Phorklift.KeepAlive
import Phorklift.Proxy

/-! The bodies of known length that HTTP/1 requests come with, in any number of reads. -/

namespace Phorklift

/-- The bytes of one read: `recv_buf_end` is an `int`. -/
abbrev BodyRead := {data : Bytes // data.length < 2 ^ 31}

namespace BodyReception

/-- `phl_request_append_body` with `body_len` and `len` added as the `int`s that they are. -/
def phlRequestAppendBody (reqBodyMax : Nat) (r : Req) (buf : Bytes) : Int × Req :=
  let sum := toInt ((r.bodyBuf.length : Int) + buf.length)
  if buf.length = 0 then (phlOk, r)
  else if r.contentLength ≠ phlContentLengthInit then
    if r.contentLength < toSize sum then (400, r)
    else (phlOk, { r with
      bodyBuf := r.bodyBuf ++ buf
      bodyFinished := decide (r.contentLength ≤ toSize sum) })
  else if reqBodyMax ≠ 0 ∧ (reqBodyMax : Int) < sum then (413, r)
  else (phlOk, { r with bodyBuf := r.bodyBuf ++ buf })

/-- `phl_http1_request_body`, whose part for chunks is as before. -/
def phlHttp1RequestBody (lib : Libwuya) (reqBodyMax : Nat) (r : Req) (recv : Bytes) :
    Int × Req × Bytes :=
  if r.contentLength ≠ phlContentLengthInit then
    let appended := phlRequestAppendBody reqBodyMax r recv
    if appended.1 ≠ phlOk then (appended.1, appended.2, [])
    else (if appended.2.bodyFinished then phlOk else phlAgain, appended.2, [])
  else Phorklift.phlHttp1RequestBody lib reqBodyMax r recv

/-- What the calls for the reads return, and the body after each of them. The last one is the first
that does not return `PHL_AGAIN`. -/
def bodyCalls (lib : Libwuya) (reqBodyMax : Nat) : Req → List BodyRead → List (Int × Bytes)
  | _, [] => []
  | r, data :: reads =>
    let x := phlHttp1RequestBody lib reqBodyMax r data.1
    (x.1, x.2.1.bodyBuf) :: if x.1 = phlAgain then bodyCalls lib reqBodyMax x.2.1 reads else []

end BodyReception

/-- What `Content-Length: n` sets `content_length` to. -/
def contentLengthOf (n : Nat) : Nat := toSize (strtol (decimal n)).value

/-- A request whose headers have been received. -/
structure AwaitsBody (n : Nat) (r : Req) : Prop where
  contentLength : r.contentLength = contentLengthOf n
  bodyBuf : r.bodyBuf = []
  bodyFinished : r.bodyFinished = false

/-- What the calls are to come to, with the bytes `got` in the body before them. -/
def announcedCalls (n : Nat) : Bytes → List BodyRead → List (Int × Bytes)
  | _, [] => []
  | got, data :: reads =>
    let body := got ++ data.1
    if body.length < n then (phlAgain, body) :: announcedCalls n body reads
    else if body.length = n then [(phlOk, body)]
    else [(400, got)]

def arrivedBytes (reads : List BodyRead) : Nat := (reads.map (·.1.length)).sum

/-- At no read the bytes that have arrived are so many that an `int` does not hold their number, or
none, when they are no more than announced. -/
def ArrivesCounted (n got : Nat) (reads : List BodyRead) : Prop :=
  ∀ before, before ≠ [] → before <+: reads → got + arrivedBytes before ≤ n →
    0 < n ∧ got + arrivedBytes before < 2 ^ 31

section Call

variable {lib : Libwuya} {reqBodyMax n : Nat} {r : Req} {got : Bytes} {data : BodyRead}
  {reads : List BodyRead}

theorem contentLengthOf_eq (n : Nat) : contentLengthOf n = min n (2 ^ 63 - 1) := by
  have hnumber : strtol (decimal n ++ []) = _ := strtol_number (parseDecimal_decimal n) (by simp)
  rw [List.append_nil] at hnumber
  unfold contentLengthOf
  rw [hnumber]
  unfold longMax toSize
  split
  next hbig =>
    dsimp only
    omega
  next hsmall =>
    dsimp only
    omega

theorem contentLengthOf_ne (n : Nat) : contentLengthOf n ≠ phlContentLengthInit := by
  rw [contentLengthOf_eq]
  unfold phlContentLengthInit
  omega

/-- The number of bytes in the body, as long as an `int` holds it; else it is more than any
`content_length`. -/
theorem toSize_toInt_eq (k : Nat) (h : k < 2 ^ 32) :
    toSize (toInt k) = if k < 2 ^ 31 then k else k + (2 ^ 64 - 2 ^ 32) := by
  rw [toInt_eq]
  unfold toSize
  split
  next hlow =>
    rw [if_pos (by omega)]
    omega
  next hhigh =>
    rw [if_neg (by omega)]
    omega

/-- A request in the middle of its body. -/
structure BodyAwaited (n : Nat) (got : Bytes) (r : Req) : Prop where
  contentLength : r.contentLength = contentLengthOf n
  bodyBuf : r.bodyBuf = got
  bodyFinished : r.bodyFinished = false
  short : got.length ≤ n
  ended : got.length = n → n = 0
  counted : got.length < 2 ^ 31

theorem BodyAwaited.append (h : BodyAwaited n got r) (hsome : data.1.length ≠ 0) :
    BodyReception.phlRequestAppendBody reqBodyMax r data.1 =
      if n < got.length + data.1.length ∨ 2 ^ 31 ≤ got.length + data.1.length then (400, r)
      else (phlOk, { r with
        bodyBuf := got ++ data.1
        bodyFinished := decide (n ≤ got.length + data.1.length) }) := by
  have hinit : r.contentLength ≠ phlContentLengthInit := by
    rw [h.contentLength]
    exact contentLengthOf_ne n
  have hlength : r.contentLength = min n (2 ^ 63 - 1) := by
    rw [h.contentLength]
    exact contentLengthOf_eq n
  have hcounted := h.counted
  have hread := data.2
  have hsum := toSize_toInt_eq (got.length + data.1.length) (by omega)
  rw [Int.natCast_add] at hsum
  unfold BodyReception.phlRequestAppendBody
  dsimp only
  rw [if_neg hsome, if_pos hinit, h.bodyBuf, hsum, hlength]
  by_cases hbig : 2 ^ 31 ≤ got.length + data.1.length
  · have hmore : min n (2 ^ 63 - 1) < got.length + data.1.length + (2 ^ 64 - 2 ^ 32) := by omega
    rw [if_neg (Nat.not_lt.mpr hbig), if_pos hmore, if_pos (.inr hbig)]
  · rw [if_pos (Nat.lt_of_not_le hbig)]
    by_cases hover : n < got.length + data.1.length
    · have hmore : min n (2 ^ 63 - 1) < got.length + data.1.length := by omega
      rw [if_pos hmore, if_pos (.inl hover)]
    · have hless : ¬min n (2 ^ 63 - 1) < got.length + data.1.length := by omega
      have hsame : (min n (2 ^ 63 - 1) ≤ got.length + data.1.length) =
          (n ≤ got.length + data.1.length) := propext (by omega)
      rw [if_neg hless, if_neg (not_or.mpr ⟨hover, hbig⟩)]
      simp only [hsame]

theorem BodyAwaited.call (h : BodyAwaited n got r) :
    BodyReception.phlHttp1RequestBody lib reqBodyMax r data.1 =
      if data.1.length = 0 then (phlAgain, r, [])
      else if n < got.length + data.1.length ∨ 2 ^ 31 ≤ got.length + data.1.length then (400, r, [])
      else (if n ≤ got.length + data.1.length then phlOk else phlAgain,
        { r with
          bodyBuf := got ++ data.1
          bodyFinished := decide (n ≤ got.length + data.1.length) }, []) := by
  have hinit : r.contentLength ≠ phlContentLengthInit := by
    rw [h.contentLength]
    exact contentLengthOf_ne n
  unfold BodyReception.phlHttp1RequestBody
  rw [if_pos hinit]
  dsimp only
  by_cases hempty : data.1.length = 0
  · have hnone : BodyReception.phlRequestAppendBody reqBodyMax r data.1 = (phlOk, r) := by
      unfold BodyReception.phlRequestAppendBody
      dsimp only
      rw [if_pos hempty]
    rw [if_pos hempty, hnone, if_neg (not_not.mpr rfl)]
    dsimp only
    rw [h.bodyFinished]
    rfl
  · rw [if_neg hempty, h.append hempty]
    split
    next => rfl
    next =>
      rw [if_neg (not_not.mpr rfl)]
      dsimp only
      simp only [decide_eq_true_iff]

theorem arrivesCounted_cons {got : Nat} : ArrivesCounted n got (data :: reads) ↔
    (got + data.1.length ≤ n → 0 < n ∧ got + data.1.length < 2 ^ 31) ∧
      ArrivesCounted n (got + data.1.length) reads := by
  have hcons : ∀ before, arrivedBytes (data :: before) = data.1.length + arrivedBytes before :=
    fun _ => List.sum_cons
  have hnil : arrivedBytes [] = 0 := rfl
  constructor
  · intro h
    refine ⟨fun hle => ?_, fun before hne hprefix hle => ?_⟩
    · have hone := h [data] (by simp) (List.prefix_append [data] reads)
      rw [hcons, hnil, Nat.add_zero] at hone
      exact hone hle
    · have hmore := h (data :: before) (by simp) (List.prefix_cons_inj data |>.mpr hprefix)
      rw [hcons, ← Nat.add_assoc] at hmore
      exact hmore hle
  · rintro ⟨hfirst, hrest⟩ before hne hprefix hle
    cases before with
    | nil => exact absurd rfl hne
    | cons first before =>
      obtain ⟨rfl, htail⟩ := List.cons_prefix_cons.mp hprefix
      rw [hcons, ← Nat.add_assoc] at hle ⊢
      cases before with
      | nil =>
        rw [hnil, Nat.add_zero] at hle ⊢
        exact hfirst hle
      | cons second before => exact hrest _ (by simp) htail hle

/-- When all that is announced has arrived, or more, no read changes that. -/
theorem arrivesCounted_of_le {got : Nat} (hle : n ≤ got) (h : got ≤ n → 0 < n ∧ got < 2 ^ 31) :
    ArrivesCounted n got reads := by
  intro before _ _ hmore
  have hfull : got + arrivedBytes before = got := by omega
  rw [hfull]
  exact h (by omega)

/-- A call whose bytes are not counted returns something else. -/
theorem bodyCalls_uncounted (h : BodyAwaited n got r)
    (hcount : ¬(got.length + data.1.length ≤ n → 0 < n ∧ got.length + data.1.length < 2 ^ 31)) :
    BodyReception.bodyCalls lib reqBodyMax r (data :: reads) ≠
      announcedCalls n got (data :: reads) := by
  have hshort := h.short
  have hcounted := h.counted
  have hbad : ¬(400 : Int) = phlAgain := by decide
  have hdone : ¬phlOk = phlAgain := by decide
  obtain ⟨hle, hnot⟩ := Classical.not_imp.mp hcount
  rw [BodyReception.bodyCalls, announcedCalls, h.call, List.length_append]
  by_cases hempty : data.1.length = 0
  · have hless : ¬got.length + data.1.length < n := by omega
    have hfull : got.length + data.1.length = n := by omega
    rw [if_pos hempty, if_neg hless, if_pos hfull]
    intro hcalls
    have hret : phlAgain = phlOk := congrArg Prod.fst (List.cons.inj hcalls).1
    exact hdone hret.symm
  · have hbig : n < got.length + data.1.length ∨ 2 ^ 31 ≤ got.length + data.1.length := by omega
    rw [if_neg hempty, if_pos hbig]
    dsimp only
    intro hcalls
    by_cases hless : got.length + data.1.length < n
    · rw [if_pos hless] at hcalls
      have hret : (400 : Int) = phlAgain := congrArg Prod.fst (List.cons.inj hcalls).1
      exact hbad hret
    · have hfull : got.length + data.1.length = n := by omega
      rw [if_neg hless, if_pos hfull] at hcalls
      have hret : (400 : Int) = phlOk := congrArg Prod.fst (List.cons.inj hcalls).1
      cases hret

/-- The calls are as they are to be exactly where the bytes are counted. By induction on the reads:
a call that returns `PHL_AGAIN` leaves a request in the middle of its body. -/
theorem bodyCalls_iff (h : BodyAwaited n got r) :
    BodyReception.bodyCalls lib reqBodyMax r reads = announcedCalls n got reads ↔
      ArrivesCounted n got.length reads := by
  induction reads generalizing got r with
  | nil =>
    refine iff_of_true rfl fun before hne hprefix _ => ?_
    exact absurd (List.prefix_nil.mp hprefix) hne
  | cons data reads ih =>
    have hshort := h.short
    have hended := h.ended
    have hcounted := h.counted
    have hbad : ¬(400 : Int) = phlAgain := by decide
    have hdone : ¬phlOk = phlAgain := by decide
    rw [arrivesCounted_cons]
    by_cases hcount : got.length + data.1.length ≤ n → 0 < n ∧ got.length + data.1.length < 2 ^ 31
    · rw [and_iff_right hcount, BodyReception.bodyCalls, announcedCalls, h.call, List.length_append]
      by_cases hless : got.length + data.1.length < n
      · obtain ⟨hpos, hsmall⟩ := hcount (by omega)
        rw [if_pos hless]
        by_cases hempty : data.1.length = 0
        · have hnil : data.1 = [] := List.eq_nil_of_length_eq_zero hempty
          rw [if_pos hempty]
          dsimp only
          rw [if_pos rfl, hnil, List.append_nil, List.length_nil, Nat.add_zero, h.bodyBuf,
            List.cons_inj_right]
          exact ih h
        · rw [if_neg hempty, if_neg (by omega), if_neg (by omega)]
          dsimp only
          rw [if_pos rfl, List.cons_inj_right]
          have hnot : decide (n ≤ got.length + data.1.length) = false := decide_eq_false (by omega)
          have hlength : (got ++ data.1).length = got.length + data.1.length := List.length_append
          have hnext : BodyAwaited n (got ++ data.1) { r with
              bodyBuf := got ++ data.1
              bodyFinished := decide (n ≤ got.length + data.1.length) } :=
            ⟨h.contentLength, rfl, hnot, by omega, by omega, by omega⟩
          rw [← hlength] at hnext ⊢
          exact ih hnext
      · have hrest : ArrivesCounted n (got.length + data.1.length) reads :=
          arrivesCounted_of_le (by omega) hcount
        by_cases hfull : got.length + data.1.length = n
        · obtain ⟨hpos, hsmall⟩ := hcount (by omega)
          rw [if_neg (by omega), if_neg (by omega), if_pos (by omega)]
          dsimp only
          rw [if_neg hdone, if_neg (by omega), if_pos hfull]
          exact iff_of_true rfl hrest
        · have hover : n < got.length + data.1.length := by omega
          rw [if_neg (by omega), if_pos (.inl hover)]
          dsimp only
          rw [if_neg hbad, if_neg hless, if_neg hfull, h.bodyBuf]
          exact iff_of_true rfl hrest
    · exact iff_of_false (bodyCalls_uncounted h hcount) fun hboth => hcount hboth.1

theorem AwaitsBody.awaited (h : AwaitsBody n r) : BodyAwaited n [] r :=
  ⟨h.contentLength, h.bodyBuf, h.bodyFinished, Nat.zero_le n, Eq.symm, by decide⟩

/-- The calls return `PHL_AGAIN`, `PHL_OK` and 400 as they are to, with the body that has arrived,
exactly where at every read the number of bytes so far, if it is no more than announced, is below
`2 ^ 31` and something is announced at all. -/
theorem body_reception_iff (lib : Libwuya) (reqBodyMax : Nat) (h : AwaitsBody n r)
    (reads : List BodyRead) :
    BodyReception.bodyCalls lib reqBodyMax r reads = announcedCalls n [] reads ↔
      ArrivesCounted n 0 reads :=
  bodyCalls_iff h.awaited

/-- As long as an `int` holds the sum, the call is the one that the runs of requests are made of. -/
theorem phlHttp1RequestBody_same {recv : Bytes} (h : r.bodyBuf.length + recv.length < 2 ^ 31)
    (hinit : r.contentLength ≠ phlContentLengthInit) :
    BodyReception.phlHttp1RequestBody lib reqBodyMax r recv =
      phlHttp1RequestBody lib reqBodyMax r recv := by
  have hsum := toSize_toInt_eq (r.bodyBuf.length + recv.length) (by omega)
  rw [if_pos h, Int.natCast_add] at hsum
  have happend : BodyReception.phlRequestAppendBody reqBodyMax r recv =
      phlRequestAppendBody reqBodyMax r recv := by
    unfold BodyReception.phlRequestAppendBody phlRequestAppendBody
    dsimp only
    rw [hsum, if_pos hinit, if_pos hinit]
  have hknown : ¬(r.contentLength = phlContentLengthInit ∧ r.chunked = none) :=
    fun hboth => hinit hboth.1
  unfold BodyReception.phlHttp1RequestBody phlHttp1RequestBody
  rw [if_pos hinit, if_neg hknown, if_pos hinit, happend]

end Call

section Examples

/-- The start of a request with a body of `n` bytes. -/
def announced (n : Nat) : Req := { Req.init with contentLength := contentLengthOf n }

def arrives (s : String) (h : (bytes s).length < 2 ^ 31) : BodyRead := ⟨bytes s, h⟩

/-- A body of five bytes that arrives in two reads, the first after an empty one. -/
theorem body_reception_five :
    AwaitsBody 5 (announced 5) ∧
      (BodyReception.bodyCalls .plain 0 (announced 5)
        [arrives "" (by decide), arrives "he" (by decide), arrives "llo" (by decide)] =
          announcedCalls 5 [] [arrives "" (by decide), arrives "he" (by decide),
            arrives "llo" (by decide)] ↔
        ArrivesCounted 5 0 [arrives "" (by decide), arrives "he" (by decide),
          arrives "llo" (by decide)]) :=
  ⟨⟨rfl, rfl, rfl⟩, body_reception_iff .plain 0 ⟨rfl, rfl, rfl⟩ _⟩

/-- A request that announces an empty body, which has arrived with its headers. -/
def bodyless : Bytes :=
  bytes "POST / HTTP/1.1" ++ crlf ++ bytes "Content-Length: 0" ++ crlf ++ crlf

/-- The call for an empty body returns `PHL_AGAIN`, and the request is left waiting. -/
theorem body_reception_empty :
    AwaitsBody 0 (announced 0) ∧
      BodyReception.bodyCalls .plain 0 (announced 0) [arrives "" (by decide)] = [(phlAgain, [])] ∧
      announcedCalls 0 [] [arrives "" (by decide)] = [(phlOk, [])] ∧
      BodyReception.bodyCalls .plain 0 (announced 0) [arrives "" (by decide)] ≠
        announcedCalls 0 [] [arrives "" (by decide)] ∧
      ((Conn.runs answering (fun _ => true) 4
        ((newConn answering []).phlHttp1OnReadable answering bodyless [])).map fun c =>
          (c.w.recv, c.w.ctl, c.w.r.state)) = some ([], .idle, .receiveBodySync) := by
  refine ⟨⟨rfl, rfl, rfl⟩, rfl, rfl, ?_, rfl⟩
  intro h
  have hret : phlAgain = phlOk := congrArg Prod.fst (List.cons.inj h).1
  cases hret

end Examples

end Phorklift
