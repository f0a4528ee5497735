import Phorklift.Resumable
import Phorklift.UpstreamPool

/-! How the `proxy` module takes the responses of its upstreams, and how a content module comes to
the end of the response headers. -/

namespace Phorklift

open Resumable

structure StatusLine where
  statusCode : Int
  version : Int

/-- The parsers of the library that a response needs. -/
structure ResponseLib extends Libwuya where
  httpStatusLine : Bytes → Parsed StatusLine

def atoi (s : Bytes) : Int := toInt (strtol s).value

/-- What `r->resp.content_length` is set to. -/
def respLength (n : Int) : Option Nat :=
  if toSize n = phlContentLengthInit then none else some (toSize n)

/-- One header line that is not the end of the headers: `line` is the buffer from its name on, and
`ctx->data` is what the chunked decoder has read. -/
def phlProxyResponseHeader (h : HeaderLine) (line : Bytes) (resp : UpstreamResp Bytes) :
    UpstreamResp Bytes :=
  let valueStr := line.drop h.valuePos
  if (bytes "Content-Length").isPrefixOf line then
    { resp with contentLength := respLength (atoi valueStr) }
  else if (bytes "Connection").isPrefixOf line then resp
  else if (bytes "Transfer-Encoding").isPrefixOf line then { resp with data := some [] }
  else { resp with
    headers := resp.headers ++ [⟨line.take h.nameLen, valueStr.take h.valueLen⟩] }

/-- The loop over header lines: what is left of the buffer and `*is_done`, or `none` for
`PHL_ERROR`. -/
def phlProxyResponseHeaderLines (lib : ResponseLib) :
    Nat → UpstreamResp Bytes → Bytes → UpstreamResp Bytes × Option (Bytes × Bool)
  | 0, resp, data => (resp, some (data, false))
  | fuel + 1, resp, data =>
    let h := lib.httpHeader data
    if h.procLen < 0 then (resp, none)
    else if h.procLen = 0 then (resp, some (data, false))
    else
      let rest := data.drop h.procLen.toNat
      if h.procLen = 2 then (resp, some (rest, true))
      else phlProxyResponseHeaderLines lib fuel (phlProxyResponseHeader h.value data resp) rest

/-- `phl_proxy_parse_response_headers` from `pos` on. -/
def phlProxyParseHeaderLines (lib : ResponseLib) (resp : UpstreamResp Bytes) (buffer : Bytes)
    (pos : Nat) : UpstreamResp Bytes × Int × Bool :=
  let data := buffer.drop pos
  match phlProxyResponseHeaderLines lib (data.length + 1) resp data with
  | (resp, none) => (resp, phlError, false)
  | (resp, some (left, isDone)) => (resp, (buffer.length - left.length : Nat), isDone)

def phlProxyParseResponseHeaders (lib : ResponseLib) (resp : UpstreamResp Bytes) (buffer : Bytes) :
    UpstreamResp Bytes × Int × Bool :=
  if resp.statusCode = 0 then
    let line := lib.httpStatusLine buffer
    if line.procLen = 0 then (resp, phlAgain, false)
    else if line.procLen < 0 then (resp, phlError, false)
    else
      phlProxyParseHeaderLines lib
        { resp with statusCode := line.value.statusCode, version := line.value.version }
        buffer line.procLen.toNat
  else phlProxyParseHeaderLines lib resp buffer 0

def phlProxyIsResponseBodyDone (lib : ResponseLib) (resp : UpstreamResp Bytes) : Bool :=
  resp.data.any lib.httpChunkedIsFinished

/-- The loop over the chunked decoder; `past` is what the decoder has read before `data`. -/
def phlProxyResponseChunks (lib : ResponseLib) : Nat → Bytes → Bytes → Option Bytes
  | 0, _, _ => some []
  | fuel + 1, past, data =>
    if data = [] then some []
    else match lib.httpChunkedDecode past data with
    | .error => none
    | .none => some []
    | .data skip len =>
      (phlProxyResponseChunks lib fuel (past ++ data.take (skip + len))
        (data.drop (skip + len))).map fun more => (data.drop skip).take len ++ more

def phlProxyBuildResponseBody (lib : ResponseLib) (resp : UpstreamResp Bytes) (data : Bytes)
    (_bufSize : Nat) : UpstreamResp Bytes × Int × Bytes :=
  match resp.data with
  | none => (resp, data.length, data)
  | some past =>
    let resp := { resp with data := some (past ++ data) }
    match phlProxyResponseChunks lib data.length past data with
    | none => (resp, phlError, [])
    | some made =>
      if made = [] ∧ lib.httpChunkedIsFinished (past ++ data) = false then (resp, phlAgain, [])
      else (resp, made.length, made)

def phlProxyUpstreamOps (lib : ResponseLib) : UpstreamOps Bytes where
  parseResponseHeaders := some (phlProxyParseResponseHeaders lib)
  isResponseBodyDone := some (phlProxyIsResponseBodyDone lib)
  buildResponseBody := some (phlProxyBuildResponseBody lib)

section Rounds

variable {D : Type}

/-- `phl_upstream_content_generate_response_headers`, called again as long as it returns
`PHL_AGAIN`, where the stream returns so many bytes at each call. -/
def headersRounds (conf : ContentConf D) :
    List Nat → ContentState D → UpstreamInput → Option (ContentRound D)
  | [], s, i => some ⟨s, i, [], false⟩
  | k :: ks, s, i =>
    (headersRound conf s i k).bind fun round =>
      if round.failed ∨ round.state.phase ≠ .headers then some round
      else headersRounds conf ks round.state round.input

/-- It has failed, or it goes on to the body. -/
def ContentRound.Ended (round : ContentRound D) : Prop :=
  round.failed ∨ round.state.phase = .body

/-- What a parser of response headers comes to. -/
def verdict (parse : UpstreamResp D → Bytes → UpstreamResp D × Int × Bool)
    (resp : UpstreamResp D) (data : Bytes) : Verdict (UpstreamResp D) :=
  let parsed := parse resp data
  if parsed.2.1 < 0 then .failed parsed.1
  else if parsed.2.2 = false then .waiting parsed.1 parsed.2.1.toNat
  else .finished parsed.1 parsed.2.1.toNat

/-- The state after a call that comes to the verdict, and whether it has failed. -/
def headersEnd (conf : ContentConf D) (s : ContentState D) :
    Verdict (UpstreamResp D) → ContentState D × Bool
  | .failed resp => ({ s with resp := resp }, true)
  | .waiting resp _ => ({ s with resp := resp }, false)
  | .finished resp _ =>
    if resp.statusCode ∈ conf.retryStatusCodes then ({ s with resp := resp }, true)
    else ({ s with
      resp := resp
      phase := .body
      originalLength := resp.contentLength }, false)

end Rounds

/-- What the parser says of a line that is there does not change with what follows. -/
structure Settles {α : Type} (parse : Bytes → Parsed α) : Prop where
  le : ∀ data, (parse data).procLen ≤ data.length
  settled : ∀ data, (parse data).procLen ≠ 0 → ∀ more, parse (data ++ more) = parse data

/-- The line that the library has found ends with a line feed, and has its name and value in it. -/
structure HeaderLine.In (h : HeaderLine) (line : Bytes) : Prop where
  feed : line.getLast? = some 10
  name : h.nameLen ≤ line.length
  value : h.valuePos + h.valueLen ≤ line.length

structure ResponseLib.Lawful (lib : ResponseLib) : Prop where
  statusLine : Settles lib.httpStatusLine
  statusCode : ∀ data, 0 < (lib.httpStatusLine data).procLen →
    (lib.httpStatusLine data).value.statusCode ≠ 0
  header : Settles lib.httpHeader
  headerLine : ∀ data, 0 < (lib.httpHeader data).procLen → (lib.httpHeader data).procLen ≠ 2 →
    (lib.httpHeader data).value.In (data.take (lib.httpHeader data).procLen.toNat)

/-- Every `Content-Length` of the header lines has a value, so that `atoi` finds its number, or
that there is none, before the end of the line. -/
inductive LengthsGiven (lib : ResponseLib) : Bytes → Prop
  | stop {data} : (lib.httpHeader data).procLen ≤ 0 ∨ (lib.httpHeader data).procLen = 2 →
      LengthsGiven lib data
  | line {data} : 0 < (lib.httpHeader data).procLen → (lib.httpHeader data).procLen ≠ 2 →
      ((bytes "Content-Length").isPrefixOf data = true →
        ∃ c ∈ (data.take (lib.httpHeader data).procLen.toNat).drop
          (lib.httpHeader data).value.valuePos, isSpace c = false) →
      LengthsGiven lib (data.drop (lib.httpHeader data).procLen.toNat) → LengthsGiven lib data

section Lines

theorem takeWhile_append_of_mem {α : Type} {p : α → Bool} {l : List α} {c : α} (hmem : c ∈ l)
    (hc : p c = false) (x : List α) : (l ++ x).takeWhile p = l.takeWhile p := by
  rw [List.takeWhile_append, if_neg]
  intro hlen
  have hall : l.takeWhile p = l :=
    (List.takeWhile_prefix p).eq_of_length hlen
  rw [← hall] at hmem
  have hp := List.mem_takeWhile_imp hmem
  rw [hc] at hp
  cases hp

/-- `strtol` does not look behind the line feed after something that is not blank. -/
theorem strtol_append {v : Bytes} {c : UInt8} (hmem : c ∈ v) (hc : isSpace c = false)
    (hfeed : v.getLast? = some 10) (x : Bytes) : strtol (v ++ x) = strtol v := by
  have hblank := takeWhile_append_of_mem hmem hc x
  have hsplit := List.takeWhile_append_dropWhile (p := isSpace) (l := v)
  have hlen := congrArg List.length hsplit
  rw [List.length_append] at hlen
  have hdrop : v.drop (v.takeWhile isSpace).length = v.dropWhile isSpace := by
    nth_rewrite 2 [← hsplit]
    exact List.drop_left
  have hdropx : (v ++ x).drop (v.takeWhile isSpace).length = v.dropWhile isSpace ++ x := by
    rw [List.drop_append_of_le_length (by omega), hdrop]
  cases hrest : v.dropWhile isSpace with
  | nil =>
    rw [hrest, List.append_nil] at hsplit
    rw [← hsplit] at hmem
    have hspace := List.mem_takeWhile_imp hmem
    rw [hc] at hspace
    cases hspace
  | cons d t =>
    have hd : isSpace d = false := by
      have hhead := List.head_dropWhile_not (l := v) isSpace (by rw [hrest]; exact nofun)
      simp only [hrest, List.head_cons] at hhead
      exact hhead
    have hlast : (d :: t).getLast? = some 10 := by
      rw [← hsplit, hrest, List.getLast?_append,
        List.getLast?_eq_some_getLast (List.cons_ne_nil d t), Option.some_or] at hfeed
      rw [List.getLast?_eq_some_getLast (List.cons_ne_nil d t), hfeed]
    have hten : (10 : UInt8) ∈ t := by
      cases t with
      | nil =>
        rw [List.getLast?_singleton] at hlast
        cases hlast
        exact absurd hd (by decide)
      | cons e t =>
        rw [List.getLast?_cons_cons] at hlast
        exact List.mem_of_getLast? hlast
    have hbody : (t ++ x).takeWhile isDigit = t.takeWhile isDigit :=
      takeWhile_append_of_mem hten (by decide) x
    have hwhole : (d :: (t ++ x)).takeWhile isDigit = (d :: t).takeWhile isDigit := by
      rw [← List.cons_append]
      exact takeWhile_append_of_mem (List.mem_cons_of_mem d hten) (by decide) x
    unfold strtol
    simp only [hblank, hdropx, hdrop, hrest, List.cons_append, List.take_succ_cons, List.take_zero,
      List.drop_succ_cons, List.drop_zero, apply_ite (List.takeWhile isDigit), hbody, hwhole]

/-- A name without a line feed is looked for in the line only. -/
theorem isPrefixOf_append {name line : Bytes} (hname : (10 : UInt8) ∉ name)
    (hfeed : (10 : UInt8) ∈ line) (x : Bytes) :
    name.isPrefixOf (line ++ x) = name.isPrefixOf line := by
  rw [Bool.eq_iff_iff, List.isPrefixOf_iff_prefix, List.isPrefixOf_iff_prefix]
  refine ⟨fun h => ?_, fun h => h.trans (List.prefix_append line x)⟩
  by_cases hle : name.length ≤ line.length
  · exact List.prefix_of_prefix_length_le h (List.prefix_append line x) hle
  · have hline : line <+: name :=
      List.prefix_of_prefix_length_le (List.prefix_append line x) h (by omega)
    exact absurd (hline.subset hfeed) hname

/-- The header is the line's own, whatever follows in the buffer. -/
theorem phlProxyResponseHeader_append {h : HeaderLine} {line : Bytes} (hin : h.In line)
    (hlength : (bytes "Content-Length").isPrefixOf line = true →
      ∃ c ∈ line.drop h.valuePos, isSpace c = false) (x : Bytes) (resp : UpstreamResp Bytes) :
    phlProxyResponseHeader h (line ++ x) resp = phlProxyResponseHeader h line resp := by
  have hfeed : (10 : UInt8) ∈ line := List.mem_of_getLast? hin.feed
  have hvalue := hin.value
  have hname := hin.name
  unfold phlProxyResponseHeader
  dsimp only
  rw [isPrefixOf_append (by decide) hfeed, isPrefixOf_append (by decide) hfeed,
    isPrefixOf_append (by decide) hfeed, List.drop_append_of_le_length (by omega),
    List.take_append_of_le_length hname,
    List.take_append_of_le_length (by rw [List.length_drop]; omega)]
  by_cases hgiven : (bytes "Content-Length").isPrefixOf line = true
  · obtain ⟨c, hmem, hc⟩ := hlength hgiven
    have hlast : (line.drop h.valuePos).getLast? = some 10 := by
      rw [List.getLast?_drop, if_neg, hin.feed]
      have hpos := List.length_pos_of_mem hmem
      rw [List.length_drop] at hpos
      omega
    rw [if_pos hgiven, if_pos hgiven, atoi, strtol_append hmem hc hlast, atoi]
  · rw [if_neg hgiven, if_neg hgiven]

variable {lib : ResponseLib} {resp resp' : UpstreamResp Bytes} {data : Bytes} {n : Nat}

theorem Settles.drop_lt {α : Type} {parse : Bytes → Parsed α} (h : Settles parse)
    (hpos : 0 < (parse data).procLen) :
    (parse data).procLen.toNat ≤ data.length ∧
      (data.drop (parse data).procLen.toNat).length < data.length := by
  have hle := h.le data
  rw [List.length_drop]
  omega

/-- More fuel than bytes does not matter. -/
theorem headerLines_fuel (hlib : Settles lib.httpHeader) :
    ∀ (fuel fuel' : Nat) (resp : UpstreamResp Bytes) (data : Bytes),
      data.length < fuel → data.length < fuel' →
      phlProxyResponseHeaderLines lib fuel resp data =
        phlProxyResponseHeaderLines lib fuel' resp data := by
  intro fuel
  induction fuel with
  | zero => intro fuel' resp data hlt; omega
  | succ fuel ih =>
    intro fuel' resp data hlt hlt'
    cases fuel' with
    | zero => omega
    | succ fuel' =>
      unfold phlProxyResponseHeaderLines
      dsimp only
      by_cases hneg : (lib.httpHeader data).procLen < 0
      · rw [if_pos hneg, if_pos hneg]
      · by_cases hzero : (lib.httpHeader data).procLen = 0
        · rw [if_neg hneg, if_neg hneg, if_pos hzero, if_pos hzero]
        · have hpos : 0 < (lib.httpHeader data).procLen := by omega
          have hshort := hlib.drop_lt hpos
          rw [if_neg hneg, if_neg hneg, if_neg hzero, if_neg hzero,
            ih fuel' _ _ (by omega) (by omega)]

theorem headerLines_le (lib : ResponseLib) :
    ∀ (fuel : Nat) (resp : UpstreamResp Bytes) (data left : Bytes) (isDone : Bool),
      (phlProxyResponseHeaderLines lib fuel resp data).2 = some (left, isDone) →
      left.length ≤ data.length := by
  intro fuel
  induction fuel with
  | zero =>
    intro resp data left isDone h
    cases h
    exact le_refl _
  | succ fuel ih =>
    intro resp data left isDone h
    unfold phlProxyResponseHeaderLines at h
    dsimp only at h
    split at h
    next => cases h
    next =>
      split at h
      next =>
        cases h
        exact le_refl _
      next =>
        have hdrop : (data.drop (lib.httpHeader data).procLen.toNat).length ≤ data.length := by
          rw [List.length_drop]
          omega
        split at h
        next =>
          cases h
          exact hdrop
        next => exact (ih _ _ _ _ h).trans hdrop

theorem phlProxyResponseHeader_statusCode (h : HeaderLine) (line : Bytes)
    (resp : UpstreamResp Bytes) :
    (phlProxyResponseHeader h line resp).statusCode = resp.statusCode := by
  unfold phlProxyResponseHeader
  dsimp only
  split
  next => rfl
  next =>
    split
    next => rfl
    next => split <;> rfl

theorem headerLines_statusCode (lib : ResponseLib) :
    ∀ (fuel : Nat) (resp : UpstreamResp Bytes) (data : Bytes),
      (phlProxyResponseHeaderLines lib fuel resp data).1.statusCode = resp.statusCode := by
  intro fuel
  induction fuel with
  | zero => exact fun _ _ => rfl
  | succ fuel ih =>
    intro resp data
    unfold phlProxyResponseHeaderLines
    dsimp only
    split
    next => rfl
    next =>
      split
      next => rfl
      next =>
        split
        next => rfl
        next => exact (ih _ _).trans (phlProxyResponseHeader_statusCode _ _ resp)

/-- What the loop over header lines comes to. -/
def linesVerdict (lib : ResponseLib) (resp : UpstreamResp Bytes) (data : Bytes) :
    Verdict (UpstreamResp Bytes) :=
  match phlProxyResponseHeaderLines lib (data.length + 1) resp data with
  | (resp, none) => .failed resp
  | (resp, some (left, false)) => .waiting resp (data.length - left.length)
  | (resp, some (left, true)) => .finished resp (data.length - left.length)

theorem linesVerdict_eq (hlib : Settles lib.httpHeader) (resp : UpstreamResp Bytes)
    (data : Bytes) :
    linesVerdict lib resp data =
      let h := lib.httpHeader data
      if h.procLen < 0 then .failed resp
      else if h.procLen = 0 then .waiting resp 0
      else if h.procLen = 2 then .finished resp 2
      else (linesVerdict lib (phlProxyResponseHeader h.value data resp)
        (data.drop h.procLen.toNat)).after h.procLen.toNat := by
  dsimp only
  conv => lhs; unfold linesVerdict phlProxyResponseHeaderLines
  by_cases hneg : (lib.httpHeader data).procLen < 0
  · simp only [if_pos hneg]
  · by_cases hzero : (lib.httpHeader data).procLen = 0
    · simp only [if_neg hneg, if_pos hzero, Nat.sub_self]
    · have hpos : 0 < (lib.httpHeader data).procLen := by omega
      obtain ⟨hle, hlt⟩ := hlib.drop_lt hpos
      by_cases htwo : (lib.httpHeader data).procLen = 2
      · simp only [if_neg hneg, if_neg hzero, if_pos htwo]
        rw [htwo] at hle ⊢
        rw [List.length_drop]
        congr 1
        omega
      · simp only [if_neg hneg, if_neg hzero, if_neg htwo]
        rw [headerLines_fuel hlib data.length _ _ _ hlt (Nat.lt_succ_self _)]
        unfold linesVerdict
        have hleft := headerLines_le lib
          ((data.drop (lib.httpHeader data).procLen.toNat).length + 1)
          (phlProxyResponseHeader (lib.httpHeader data).value data resp)
          (data.drop (lib.httpHeader data).procLen.toNat)
        rw [List.length_drop] at hleft ⊢
        generalize phlProxyResponseHeaderLines lib _ _ _ = lines at hleft ⊢
        obtain ⟨resp', left⟩ := lines
        cases left with
        | none => rfl
        | some x =>
          obtain ⟨left, isDone⟩ := x
          have hlen := hleft left isDone rfl
          cases isDone with
          | false =>
            simp only [Verdict.after]
            congr 1
            omega
          | true =>
            simp only [Verdict.after]
            congr 1
            omega

theorem linesVerdict_statusCode (lib : ResponseLib) (resp : UpstreamResp Bytes) (data : Bytes) :
    (linesVerdict lib resp data).state.statusCode = resp.statusCode := by
  have h := headerLines_statusCode lib (data.length + 1) resp data
  unfold linesVerdict
  generalize phlProxyResponseHeaderLines lib (data.length + 1) resp data = lines at h
  obtain ⟨resp', left⟩ := lines
  match left with
  | none => exact h
  | some (_, false) => exact h
  | some (_, true) => exact h

/-- A response that has its status keeps it while its lines wait for more. -/
theorem linesVerdict_started {lib : ResponseLib} {resp resp' : UpstreamResp Bytes} {data : Bytes}
    {n : Nat} (hstarted : resp.statusCode ≠ 0)
    (hwaits : linesVerdict lib resp data = .waiting resp' n) : resp'.statusCode ≠ 0 := by
  have hcode := linesVerdict_statusCode lib resp data
  rw [hwaits] at hcode
  rw [show resp'.statusCode = _ from hcode]
  exact hstarted

/-- The first of the lines is taken for itself, whatever follows it. -/
theorem linesVerdict_line (hlib : lib.Lawful) (hpos : 0 < (lib.httpHeader data).procLen)
    (hne : (lib.httpHeader data).procLen ≠ 2)
    (hlength : (bytes "Content-Length").isPrefixOf data = true →
      ∃ c ∈ (data.take (lib.httpHeader data).procLen.toNat).drop
        (lib.httpHeader data).value.valuePos, isSpace c = false)
    (resp : UpstreamResp Bytes) (more : Bytes) :
    linesVerdict lib resp (data ++ more) =
      (linesVerdict lib (phlProxyResponseHeader (lib.httpHeader data).value
        (data.take (lib.httpHeader data).procLen.toNat) resp)
        (data.drop (lib.httpHeader data).procLen.toNat ++ more)).after
          (lib.httpHeader data).procLen.toNat := by
  have hsame := hlib.header.settled data (by omega) more
  have hle := (hlib.header.drop_lt hpos).1
  have hin := hlib.headerLine data hpos hne
  have hheader := phlProxyResponseHeader_append hin
    (fun h => hlength (List.isPrefixOf_iff_prefix.mpr
      ((List.isPrefixOf_iff_prefix.mp h).trans (List.take_prefix _ data))))
    (data.drop (lib.httpHeader data).procLen.toNat ++ more) resp
  rw [← List.append_assoc, List.take_append_drop] at hheader
  rw [linesVerdict_eq hlib.header, hsame]
  dsimp only
  rw [if_neg (by omega), if_neg (by omega), if_neg hne, List.drop_append_of_le_length hle,
    ← hheader]

theorem linesVerdict_settled (hlib : lib.Lawful) (h : LengthsGiven lib data) :
    ∀ resp, (linesVerdict lib resp data).Ends → ∀ more,
      linesVerdict lib resp (data ++ more) = linesVerdict lib resp data := by
  induction h with
  | @stop data hstop =>
    intro resp hends more
    have hdata := linesVerdict_eq hlib.header resp data
    have hmore := linesVerdict_eq hlib.header resp (data ++ more)
    by_cases hzero : (lib.httpHeader data).procLen = 0
    · rw [hdata] at hends
      dsimp only at hends
      rw [if_neg (by omega), if_pos hzero] at hends
      exact hends.elim
    · rw [hlib.header.settled data hzero more] at hmore
      rw [hdata, hmore]
      dsimp only
      rcases hstop with hle | htwo
      · rw [if_pos (by omega), if_pos (by omega)]
      · rw [htwo]
        rfl
  | @line data hpos hne hlength _ ih =>
    intro resp hends more
    have hdata := linesVerdict_line hlib hpos hne hlength resp []
    rw [List.append_nil, List.append_nil] at hdata
    rw [hdata] at hends ⊢
    rw [linesVerdict_line hlib hpos hne hlength resp more,
      ih _ (Verdict.ends_after.mp hends) more]

theorem linesVerdict_resumed (hlib : lib.Lawful) (h : LengthsGiven lib data) :
    ∀ {resp resp' : UpstreamResp Bytes} {n : Nat},
      linesVerdict lib resp data = .waiting resp' n →
      n ≤ data.length ∧ ∀ more, linesVerdict lib resp (data ++ more) =
        (linesVerdict lib resp' (data.drop n ++ more)).after n := by
  induction h with
  | @stop data hstop =>
    intro resp resp' n hwaits
    rw [linesVerdict_eq hlib.header] at hwaits
    dsimp only at hwaits
    split at hwaits
    next => cases hwaits
    next =>
      split at hwaits
      next =>
        cases hwaits
        refine ⟨Nat.zero_le _, fun more => ?_⟩
        rw [List.drop_zero, Verdict.after_zero]
      next =>
        rw [if_pos (by omega)] at hwaits
        cases hwaits
  | @line data hpos hne hlength _ ih =>
    intro resp resp' n hwaits
    have hle := (hlib.header.drop_lt hpos).1
    have hdata := linesVerdict_line hlib hpos hne hlength resp []
    rw [List.append_nil, List.append_nil, hwaits] at hdata
    obtain ⟨m, hrest, hn⟩ := Verdict.after_eq_waiting hdata.symm
    obtain ⟨hm, hresumed⟩ := ih hrest
    rw [List.length_drop] at hm
    subst hn
    refine ⟨by omega, fun more => ?_⟩
    rw [linesVerdict_line hlib hpos hne hlength resp more, hresumed more, Verdict.after_after,
      List.drop_drop]

theorem LengthsGiven.of_append (hlib : lib.Lawful) {whole : Bytes} (h : LengthsGiven lib whole) :
    ∀ {data more : Bytes}, data ++ more = whole → LengthsGiven lib data := by
  induction h with
  | @stop whole hstop =>
    intro data more hwhole
    subst hwhole
    by_cases hzero : (lib.httpHeader data).procLen = 0
    · exact .stop (Or.inl (le_of_eq hzero))
    · rw [hlib.header.settled data hzero more] at hstop
      exact .stop hstop
  | @line whole hpos hne hlength _ ih =>
    intro data more hwhole
    subst hwhole
    by_cases hzero : (lib.httpHeader data).procLen = 0
    · exact .stop (Or.inl (le_of_eq hzero))
    · rw [hlib.header.settled data hzero more] at hpos hne hlength ih
      have hle := (hlib.header.drop_lt hpos).1
      rw [List.take_append_of_le_length hle] at hlength
      refine .line hpos hne (fun hname => hlength ?_)
        (ih (List.drop_append_of_le_length hle).symm)
      exact List.isPrefixOf_iff_prefix.mpr
        ((List.isPrefixOf_iff_prefix.mp hname).trans (List.prefix_append data more))

/-- The lines that are left where the loop waits are lines of the whole. -/
theorem LengthsGiven.goes (hlib : lib.Lawful) (h : LengthsGiven lib data) :
    ∀ {resp resp' : UpstreamResp Bytes} {n : Nat} {more : Bytes},
      linesVerdict lib resp data = .waiting resp' n → LengthsGiven lib (data ++ more) →
      LengthsGiven lib (data.drop n ++ more) := by
  induction h with
  | @stop data hstop =>
    intro resp resp' n more hwaits hmore
    rw [linesVerdict_eq hlib.header] at hwaits
    dsimp only at hwaits
    split at hwaits
    next => cases hwaits
    next =>
      split at hwaits
      next =>
        cases hwaits
        exact hmore
      next =>
        rw [if_pos (by omega)] at hwaits
        cases hwaits
  | @line data hpos hne hlength _ ih =>
    intro resp resp' n more hwaits hmore
    have hle := (hlib.header.drop_lt hpos).1
    have hdata := linesVerdict_line hlib hpos hne hlength resp []
    rw [List.append_nil, List.append_nil, hwaits] at hdata
    obtain ⟨m, hrest, hn⟩ := Verdict.after_eq_waiting hdata.symm
    subst hn
    rw [← List.drop_drop]
    refine ih hrest ?_
    cases hmore with
    | stop hstop =>
      rw [hlib.header.settled data (by omega) more] at hstop
      omega
    | line _ _ _ hrest =>
      rw [hlib.header.settled data (by omega) more, List.drop_append_of_le_length hle] at hrest
      exact hrest

theorem verdict_headerLines (lib : ResponseLib) (resp : UpstreamResp Bytes) {buffer : Bytes}
    {pos : Nat} (hpos : pos ≤ buffer.length)
    {parse : UpstreamResp Bytes → Bytes → UpstreamResp Bytes × Int × Bool}
    {resp₀ : UpstreamResp Bytes}
    (hparse : parse resp₀ buffer = phlProxyParseHeaderLines lib resp buffer pos) :
    verdict parse resp₀ buffer = (linesVerdict lib resp (buffer.drop pos)).after pos := by
  have hleft := headerLines_le lib ((buffer.drop pos).length + 1) resp (buffer.drop pos)
  unfold verdict linesVerdict
  rw [hparse]
  unfold phlProxyParseHeaderLines
  dsimp only
  split
  next resp' hlines =>
    rw [hlines]
    exact if_pos (show phlError < 0 by decide)
  next resp' left isDone hlines =>
    have hlen := hleft left isDone (by rw [hlines])
    rw [List.length_drop] at hlen
    have hused : buffer.length - left.length = pos + (buffer.length - pos - left.length) := by
      omega
    have hnot : ¬((buffer.length - left.length : Nat) : Int) < 0 := by omega
    rw [hlines]
    dsimp only
    cases isDone with
    | false =>
      rw [if_neg hnot, if_pos rfl, Int.toNat_natCast, hused, ← List.length_drop]
      rfl
    | true =>
      rw [if_neg hnot, if_neg nofun, Int.toNat_natCast, hused, ← List.length_drop]
      rfl

/-- The status line has been taken. -/
theorem verdict_started (h : resp.statusCode ≠ 0) :
    verdict (phlProxyParseResponseHeaders lib) resp data = linesVerdict lib resp data := by
  have hparse : phlProxyParseResponseHeaders lib resp data =
      phlProxyParseHeaderLines lib resp data 0 := by
    unfold phlProxyParseResponseHeaders
    rw [if_neg h]
  rw [verdict_headerLines lib resp (Nat.zero_le _) hparse, List.drop_zero, Verdict.after_zero]

def UpstreamResp.start (resp : UpstreamResp Bytes) (line : StatusLine) : UpstreamResp Bytes :=
  { resp with statusCode := line.statusCode, version := line.version }

theorem verdict_statusLine (hlib : lib.Lawful) (h : resp.statusCode = 0)
    (hpos : 0 < (lib.httpStatusLine data).procLen) :
    verdict (phlProxyParseResponseHeaders lib) resp data =
      (linesVerdict lib (resp.start (lib.httpStatusLine data).value)
        (data.drop (lib.httpStatusLine data).procLen.toNat)).after
          (lib.httpStatusLine data).procLen.toNat := by
  refine verdict_headerLines lib _ (hlib.statusLine.drop_lt hpos).1 ?_
  unfold phlProxyParseResponseHeaders
  dsimp only
  rw [if_pos h, if_neg (by omega), if_neg (by omega)]
  rfl

/-- Without a whole status line the parser fails, even where only a part of it has come. -/
theorem parse_no_statusLine (h : resp.statusCode = 0)
    (hle : (lib.httpStatusLine data).procLen ≤ 0) :
    (phlProxyParseResponseHeaders lib resp data).1 = resp ∧
      (phlProxyParseResponseHeaders lib resp data).2.1 < 0 := by
  unfold phlProxyParseResponseHeaders
  dsimp only
  rw [if_pos h]
  by_cases hzero : (lib.httpStatusLine data).procLen = 0
  · rw [if_pos hzero]
    exact ⟨rfl, show phlAgain < 0 by decide⟩
  · have hneg : (lib.httpStatusLine data).procLen < 0 := by omega
    rw [if_neg hzero, if_pos hneg]
    exact ⟨rfl, show phlError < 0 by decide⟩

theorem verdict_no_statusLine (h : resp.statusCode = 0)
    (hle : (lib.httpStatusLine data).procLen ≤ 0) :
    verdict (phlProxyParseResponseHeaders lib) resp data = .failed resp := by
  obtain ⟨hsame, hfails⟩ := parse_no_statusLine h hle
  unfold verdict
  dsimp only
  rw [if_pos hfails, hsame]

/-- The parser can go on after it: the status line is there as a whole. -/
def ProxyReady (lib : ResponseLib) (resp : UpstreamResp Bytes) (data : Bytes) : Prop :=
  if resp.statusCode = 0 then
    (lib.httpStatusLine data).procLen ≠ 0 ∧ (0 < (lib.httpStatusLine data).procLen →
      LengthsGiven lib (data.drop (lib.httpStatusLine data).procLen.toNat))
  else LengthsGiven lib data

theorem proxyReady_between (hlib : lib.Lawful) {xs : Bytes} (ys zs : Bytes)
    (h : ProxyReady lib resp xs) (hwhole : ProxyReady lib resp (xs ++ ys ++ zs)) :
    ProxyReady lib resp (xs ++ ys) := by
  unfold ProxyReady at h hwhole ⊢
  by_cases hzero : resp.statusCode = 0
  · rw [if_pos hzero] at h hwhole ⊢
    have hline := hlib.statusLine.settled xs h.1 ys
    have hmore := hlib.statusLine.settled (xs ++ ys) (by rw [hline]; exact h.1) zs
    rw [hmore, hline] at hwhole
    rw [hline]
    refine ⟨h.1, fun hpos => ?_⟩
    have hle := (hlib.statusLine.drop_lt hpos).1
    have hsplit : (xs ++ ys ++ zs).drop (lib.httpStatusLine xs).procLen.toNat =
        (xs ++ ys).drop (lib.httpStatusLine xs).procLen.toNat ++ zs :=
      List.drop_append_of_le_length (by rw [List.length_append]; omega)
    exact (hwhole.2 hpos).of_append hlib hsplit.symm
  · rw [if_neg hzero] at h hwhole ⊢
    exact hwhole.of_append hlib rfl

theorem start_statusCode (hlib : lib.Lawful) (resp : UpstreamResp Bytes)
    (hpos : 0 < (lib.httpStatusLine data).procLen) :
    (resp.start (lib.httpStatusLine data).value).statusCode ≠ 0 := hlib.statusCode data hpos

/-- Once it has the status line the parser does not depend on where it has to wait. -/
theorem phlProxyParseResponseHeaders_resumes (hlib : lib.Lawful) :
    Resumes (verdict (phlProxyParseResponseHeaders lib)) (ProxyReady lib) where
  settled := by
    intro resp data hready hends more
    unfold ProxyReady at hready
    by_cases hzero : resp.statusCode = 0
    · rw [if_pos hzero] at hready
      have hline := hlib.statusLine.settled data hready.1 more
      by_cases hpos : 0 < (lib.httpStatusLine data).procLen
      · have hle := (hlib.statusLine.drop_lt hpos).1
        have hdata := verdict_statusLine hlib hzero hpos
        have hposMore : 0 < (lib.httpStatusLine (data ++ more)).procLen := by
          rw [hline]
          exact hpos
        have hmore := verdict_statusLine hlib hzero hposMore
        rw [hline, List.drop_append_of_le_length hle] at hmore
        rw [hdata] at hends ⊢
        rw [hmore, linesVerdict_settled hlib (hready.2 hpos) _ (Verdict.ends_after.mp hends) more]
      · have hle : (lib.httpStatusLine data).procLen ≤ 0 := by omega
        have hmore : (lib.httpStatusLine (data ++ more)).procLen ≤ 0 := by
          rw [hline]
          exact hle
        rw [verdict_no_statusLine hzero hle, verdict_no_statusLine hzero hmore]
    · rw [if_neg hzero] at hready
      rw [verdict_started hzero] at hends ⊢
      rw [verdict_started hzero]
      exact linesVerdict_settled hlib hready resp hends more
  resumed := by
    intro resp resp' data n hready hwaits
    unfold ProxyReady at hready
    by_cases hzero : resp.statusCode = 0
    · rw [if_pos hzero] at hready
      by_cases hpos : 0 < (lib.httpStatusLine data).procLen
      · have hle := (hlib.statusLine.drop_lt hpos).1
        rw [verdict_statusLine hlib hzero hpos] at hwaits
        obtain ⟨m, hlines, hn⟩ := Verdict.after_eq_waiting hwaits
        obtain ⟨hm, hresumed⟩ := linesVerdict_resumed hlib (hready.2 hpos) hlines
        have hstarted := linesVerdict_started (start_statusCode hlib resp hpos) hlines
        rw [List.length_drop] at hm
        refine ⟨by omega, fun more => ?_⟩
        have hline := hlib.statusLine.settled data hready.1 more
        rw [verdict_statusLine hlib hzero (by rw [hline]; exact hpos), hline,
          List.drop_append_of_le_length hle, hresumed more, verdict_started hstarted,
          Verdict.after_after, hn, List.drop_drop]
      · rw [verdict_no_statusLine hzero (by omega)] at hwaits
        cases hwaits
    · rw [if_neg hzero] at hready
      rw [verdict_started hzero] at hwaits
      obtain ⟨hn, hresumed⟩ := linesVerdict_resumed hlib hready hwaits
      have hstarted := linesVerdict_started hzero hwaits
      refine ⟨hn, fun more => ?_⟩
      rw [verdict_started hzero, verdict_started hstarted, hresumed more]
  goes := by
    intro resp resp' data more n hready hmore hwaits
    unfold ProxyReady at hready hmore ⊢
    by_cases hzero : resp.statusCode = 0
    · rw [if_pos hzero] at hready hmore
      have hline := hlib.statusLine.settled data hready.1 more
      by_cases hpos : 0 < (lib.httpStatusLine data).procLen
      · have hle := (hlib.statusLine.drop_lt hpos).1
        rw [verdict_statusLine hlib hzero hpos] at hwaits
        obtain ⟨m, hlines, hn⟩ := Verdict.after_eq_waiting hwaits
        have hstarted := linesVerdict_started (start_statusCode hlib resp hpos) hlines
        rw [hline, List.drop_append_of_le_length hle] at hmore
        rw [if_neg hstarted, hn, ← List.drop_drop]
        exact (hready.2 hpos).goes hlib hlines (hmore.2 hpos)
      · rw [verdict_no_statusLine hzero (by omega)] at hwaits
        cases hwaits
    · rw [if_neg hzero] at hready hmore
      rw [verdict_started hzero] at hwaits
      have hstarted := linesVerdict_started hzero hwaits
      rw [if_neg hstarted]
      exact hready.goes hlib hwaits hmore

end Lines

end Phorklift
