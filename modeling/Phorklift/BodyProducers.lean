import Phorklift.FileRead

/-! The bodies that the server generates itself, produced piece by piece into buffers of any
lengths. -/

namespace Phorklift

section Production

variable {W V : Type}

/-- What a round of `phl_request_response_body` has for the filters when it has `bufLen` bytes of
room: the piece, and whether it is the last. -/
def responseBodyPiece (env : Env W V) (p : PathId) (bufLen : Nat) (w : World W V) :
    Option (Except Failure (Bytes × Bool) × World W V) :=
  if w.r.resp.contentOriginalLength ≤ w.r.resp.contentGeneratedLength then some (.ok ([], true), w)
  else do
    let generated ← generateBody env p bufLen w
    match generated.1 with
    | .error n => some (.error n, generated.2)
    | .ok data =>
      let length := w.r.resp.contentGeneratedLength + data.length
      let isLast := if w.r.resp.contentOriginalLength ≠ phlContentLengthInit then
        decide (w.r.resp.contentOriginalLength ≤ length) else data.length == 0
      some (.ok (data, isLast),
        { generated.2 with r.resp.contentGeneratedLength := length }.emit [.source data])

/-- The pieces made into buffers of the lengths `offers`, in at most so many rounds, and whether
the last piece is among them; `none` where a round fails. -/
def produce (env : Env W V) (p : PathId) (offers : Nat → Nat) :
    Nat → World W V → Option (List Bytes × Bool)
  | 0, _ => some ([], false)
  | rounds + 1, w =>
    match responseBodyPiece env p (offers 0) w with
    | some (.ok (data, true), _) => some ([data], true)
    | some (.ok (data, false), w') =>
      (produce env p (fun i => offers (i + 1)) rounds w').map fun rest => (data :: rest.1, rest.2)
    | _ => none

/-- No round fails, one makes the last piece, no piece is longer than the buffer offered for it, and
together they are the body. -/
def ResumesBody (env : Env W V) (p : PathId) (offers : Nat → Nat) (w : World W V) (body : Bytes) :
    Prop :=
  ∃ rounds pieces, produce env p offers rounds w = some (pieces, true) ∧ pieces.flatten = body ∧
    ∀ i piece, pieces[i]? = some piece → piece.length ≤ offers i

variable {env : Env W V} {p : PathId} {offers : Nat → Nat} {w w' : World W V} {body data : Bytes}

/-- The rounds of `phl_request_response_body` are these pieces, filtered and packed. -/
theorem phlRequestResponseBody_eq (env : Env W V) (p : PathId) (w : World W V) :
    phlRequestResponseBody env p w = (phlConnectionMakeSpace env 4096 w).bind fun made =>
      if made.1 < 0 then some (some made.1, made.2)
      else if made.2.r.isHttp2 ∧ env.streamWindow made.2.env = 0 then some (some phlAgain, made.2)
      else
        let bufLen := responseBodyRoom env made.1.toNat made.2
        (responseBodyPiece env p bufLen made.2).map fun piece =>
          match piece.1 with
          | .error n => (some n, piece.2)
          | .ok (data, isLast) => filterAndPack env p bufLen data isLast piece.2 := by
  unfold phlRequestResponseBody responseBodyPiece
  cases phlConnectionMakeSpace env 4096 w with
  | none => rfl
  | some made =>
    simp only [Option.bind_eq_bind, Option.bind_some]
    split
    next => rfl
    next =>
      split
      next => rfl
      next =>
        split
        next => rfl
        next =>
          cases generateBody env p (responseBodyRoom env made.1.toNat made.2) made.2 with
          | none => rfl
          | some generated =>
            obtain ⟨answer, w1⟩ := generated
            cases answer with
            | error => rfl
            | ok => rfl

theorem ResumesBody.last (h : responseBodyPiece env p (offers 0) w = some (.ok (data, true), w'))
    (hfits : data.length ≤ offers 0) : ResumesBody env p offers w data := by
  refine ⟨1, [data], ?_, List.append_nil _, ?_⟩
  · unfold produce
    rw [h]
  · intro i piece hi
    obtain ⟨hlt, rfl⟩ := List.getElem?_eq_some_iff.mp hi
    have h0 : i = 0 := by simpa using hlt
    subst h0
    exact hfits

theorem ResumesBody.more (h : responseBodyPiece env p (offers 0) w = some (.ok (data, false), w'))
    (hfits : data.length ≤ offers 0) (hrest : ResumesBody env p (fun i => offers (i + 1)) w' body) :
    ResumesBody env p offers w (data ++ body) := by
  obtain ⟨rounds, pieces, hmade, hbody, hall⟩ := hrest
  refine ⟨rounds + 1, data :: pieces, ?_, ?_, ?_⟩
  · unfold produce
    rw [h]
    dsimp only
    rw [hmade]
    rfl
  · rw [List.flatten_cons, hbody]
  · intro i piece hi
    cases i with
    | zero =>
      cases hi
      exact hfits
    | succ i => exact hall i piece hi

/-- A production is one piece that is the last, or a piece and a production. -/
theorem ResumesBody.induct
    {motive : ∀ (offers : Nat → Nat) (w : World W V) (body : Bytes),
      ResumesBody env p offers w body → Prop}
    (last : ∀ offers w w' data
      (hpiece : responseBodyPiece env p (offers 0) w = some (.ok (data, true), w'))
      (hfits : data.length ≤ offers 0), motive offers w data (.last hpiece hfits))
    (more : ∀ offers w w' data rest
      (hpiece : responseBodyPiece env p (offers 0) w = some (.ok (data, false), w'))
      (hfits : data.length ≤ offers 0) (hrest : ResumesBody env p (fun i => offers (i + 1)) w' rest),
      motive _ w' rest hrest → motive offers w (data ++ rest) (.more hpiece hfits hrest))
    (h : ResumesBody env p offers w body) : motive offers w body h := by
  obtain ⟨rounds, pieces, hmade, hbody, hall⟩ := h
  induction rounds generalizing offers w pieces body with
  | zero => cases hmade
  | succ rounds ih =>
    have hstep := hmade
    unfold produce at hstep
    split at hstep
    next data w' hpiece =>
      cases hstep
      have heq : data = body := by simpa using hbody
      subst heq
      exact last offers w w' data hpiece (hall 0 data rfl)
    next data w' hpiece =>
      obtain ⟨⟨rest, isLast⟩, hrest, heq⟩ := Option.map_eq_some_iff.mp hstep
      cases heq
      have heq : data ++ rest.flatten = body := by simpa using hbody
      subst heq
      exact more offers w w' data rest.flatten hpiece (hall 0 data rfl) _
        (ih rest hrest rfl fun i => hall (i + 1))
    next => cases hstep

/-- A production begins with a piece that fits and is the body, or the beginning of it. -/
theorem ResumesBody.first (h : ResumesBody env p offers w body) :
    ∃ data isLast w', responseBodyPiece env p (offers 0) w = some (.ok (data, isLast), w') ∧
      data.length ≤ offers 0 ∧ (isLast = true → body = data) := by
  induction h using ResumesBody.induct with
  | last offers w w' data hpiece hfits => exact ⟨data, true, w', hpiece, hfits, fun _ => rfl⟩
  | more offers w w' data rest hpiece hfits =>
    exact ⟨data, false, w', hpiece, hfits, fun h => by cases h⟩

/-- A source that gives what is left of the body as far as there is room, and says that a piece is
the last no sooner than with the rest. -/
def TakesRest (env : Env W V) (p : PathId) (inv : World W V → Bytes → Prop) : Prop :=
  ∀ w rest bufLen, inv w rest → 0 < bufLen → ∃ isLast w',
    responseBodyPiece env p bufLen w = some (.ok (rest.take bufLen, isLast), w') ∧
    (isLast = true → rest.length ≤ bufLen) ∧
    (isLast = false → rest ≠ [] ∧ inv w' (rest.drop bufLen))

theorem TakesRest.resumes {inv : World W V → Bytes → Prop} (htakes : TakesRest env p inv)
    (hpos : ∀ i, 0 < offers i) (hinv : inv w body) : ResumesBody env p offers w body := by
  induction hn : body.length using Nat.strong_induction_on generalizing offers w body with
  | _ n ih =>
    obtain ⟨isLast, w', hpiece, hlast, hmore⟩ := htakes w body (offers 0) hinv (hpos 0)
    have hfits : (body.take (offers 0)).length ≤ offers 0 := by
      rw [List.length_take]
      omega
    cases isLast with
    | true =>
      rw [List.take_of_length_le (hlast rfl)] at hpiece hfits
      exact .last hpiece hfits
    | false =>
      obtain ⟨hne, hinv'⟩ := hmore rfl
      have hbody := List.length_pos_iff.mpr hne
      have hoffer := hpos 0
      have hrest := ih (body.drop (offers 0)).length (by rw [List.length_drop]; omega)
        (fun i => hpos (i + 1)) hinv' rfl
      have hall := ResumesBody.more hpiece hfits hrest
      rwa [List.take_append_drop] at hall

end Production

section Bodies

/-- Bytes whose number is an `int`. -/
abbrev IntBytes := {s : Bytes // s.length < 2 ^ 31}

/-- `struct phl_echo_conf` -/
structure PhlEchoConf where
  str : IntBytes
  statusCode : Int

/-- `struct phl_stats_ctx`; `bodyBuf` is as long as `body_len` says. -/
structure PhlStatsCtx where
  bodyBuf : IntBytes
  bodySent : Nat

/-- Where the bodies are taken from: what is left of the file behind a descriptor, and the context
of the stats module. -/
structure Places where
  left : Bytes
  stats : PhlStatsCtx

/-- `phl_header_add_lite(&r->resp.headers, "Server", "phorklift", 5, r->pool)` -/
def phorkliftServer : Header := ⟨bytes "Server", (bytes "phorklift").take 5⟩

def phlEchoGenerateResponseHeaders (conf : PhlEchoConf) : Handler Places Unit := fun r e =>
  { ret := phlOk
    req := r.req
    resp := { r.resp with
      headers := r.resp.headers ++ [phorkliftServer]
      statusCode := conf.statusCode
      contentLength := conf.str.1.length }
    redirect := none
    env := e
    emit := [] }

theorem phlError_neg : phlError < 0 := by decide

def phlEchoGenerateResponseBody (conf : PhlEchoConf) : BodySource Places Unit := fun _ size e =>
  if size < conf.str.1.length then ⟨.error ⟨phlError, phlError_neg⟩, false, e, []⟩
  else ⟨.ok conf.str.1, false, e, []⟩

/-- `dump` is what `wuy_json` leaves of the counters in `body_buf`, `none` for an invalid scope. -/
def phlStatsGenerateResponseHeaders (dump : Request → Option IntBytes) : Handler Places Unit :=
  fun r e =>
    match dump r with
    | none => ⟨400, r.req, r.resp, none, e, []⟩
    | some text =>
      { ret := phlOk
        req := r.req
        resp := { r.resp with contentLength := text.1.length, statusCode := 200 }
        redirect := none
        env := { e with stats := ⟨text, 0⟩ }
        emit := [] }

def phlStatsGenerateResponseBody : BodySource Places Unit := fun _ bufLen e =>
  let bodyLen := min (e.stats.bodyBuf.1.length - e.stats.bodySent) bufLen
  ⟨.ok ((e.stats.bodyBuf.1.drop e.stats.bodySent).take bodyLen), false,
    { e with stats.bodySent := e.stats.bodySent + bodyLen }, []⟩

/-- `phl_script_generate_response_headers` after its script has returned `str`. -/
def phlScriptGenerateResponseHeaders (statusCode : Int) (str : IntBytes) :
    Handler Places Unit := fun r e =>
  { ret := phlOk
    req := r.req
    resp := { r.resp with
      easyStrLen := str.1.length
      easyString := str.1
      statusCode := statusCode
      contentLength := str.1.length }
    redirect := none
    env := e
    emit := [] }

/-- `phl_static_generate_response_headers` on a regular file: `length` is the size of the file, or
of the range that the descriptor has been set to the beginning of. -/
def phlStaticGenerateResponseHeaders (statusCode : Int) (fd length : Nat) (hs : List Header) :
    Handler Places Unit := fun r e =>
  { ret := phlOk
    req := r.req
    resp := { r.resp with
      headers := r.resp.headers ++ phorkliftServer :: hs
      easyFd := fd
      statusCode := statusCode
      contentLength := length }
    redirect := none
    env := e
    emit := [] }

/-- The bodies the server generates. -/
inductive Body
  /-- a script's answer, or the list of a directory -/
  | easyString (statusCode : Int) (str : IntBytes)
  /-- what `phl.echo` has set before the request is broken off -/
  | brokenString (str : IntBytes) (h : str.1 ≠ [])
  /-- `length` bytes of a file with these bytes from the place of the descriptor on -/
  | file (fd : {n : Nat // n ≠ 0}) (content : Bytes) (length : Nat)
    (h : length ≤ content.length ∧ content.length < 2 ^ 63)
  /-- a file, after a filter such as gzip has taken `content_length` away -/
  | filteredFile (fd : {n : Nat // n ≠ 0}) (content : Bytes) (h : content.length < 2 ^ 63)
  /-- a file that has been opened when the request is broken off -/
  | brokenFile (fd : {n : Nat // n ≠ 0}) (content : Bytes) (h : content.length < 2 ^ 63)
  | echo (conf : PhlEchoConf)
  | stats (text : IntBytes)
  /-- the page of a request that is broken off with this status -/
  | page (code : Int)

namespace Body

variable (lib : Libwuya) (stale : Nat → UInt8) (body : Body)

/-- The body as a whole. -/
def bytes : Body → Bytes
  | easyString _ str => str.1
  | brokenString str _ => str.1
  | file _ content length _ => content.take length
  | filteredFile _ content _ => content
  | brokenFile _ content _ => content
  | echo conf => conf.str.1
  | stats text => text.1
  | page code => phlRequestSimpleResponseBody lib code

/-- The content module of the Path, `none` where the request is broken off. -/
def content : Body → Option (ContentModule Places Unit)
  | easyString statusCode str =>
    some ⟨none, none, phlScriptGenerateResponseHeaders statusCode str, none⟩
  | file fd _ length _ => some ⟨none, none, phlStaticGenerateResponseHeaders 200 fd length [], none⟩
  | filteredFile fd content _ =>
    some ⟨none, none, phlStaticGenerateResponseHeaders 200 fd content.length [], none⟩
  | echo conf => some ⟨none, none, phlEchoGenerateResponseHeaders conf,
      some (phlEchoGenerateResponseBody conf)⟩
  | stats text => some ⟨none, none, phlStatsGenerateResponseHeaders fun _ => some text,
      some phlStatsGenerateResponseBody⟩
  | _ => none

/-- What is left of the file behind the descriptor. -/
def left : Body → Bytes
  | file _ content _ _ => content
  | filteredFile _ content _ => content
  | brokenFile _ content _ => content
  | _ => []

/-- A read of as many bytes as are asked for, or as there are. -/
def readLeft (len : Int) (e : Places) : Except Failure Bytes × Places :=
  (.ok (e.left.take (toSize len)), { e with left := e.left.drop (toSize len) })

def env : Env Places Unit :=
  { Env.single ⟨0, false, fun _ => [], [], body.content⟩ with
    lib := lib
    stale := stale
    readFd := fun _ => readLeft }

/-- The response when the content module is asked for its headers. -/
def resp : Body → Resp
  | brokenString str _ => { Resp.init with
      statusCode := 403, easyString := str.1, easyStrLen := str.1.length }
  | brokenFile fd _ _ => { Resp.init with statusCode := 416, easyFd := fd }
  | page code => { Resp.init with statusCode := code }
  | _ => .init

def asked : World Places Unit where
  r := { phlRequestNew (body.env lib stale) true with
    state := .responseHeaders1
    isBroken := body.content.isNone
    resp := body.resp }
  recv := []
  connClosed := false
  ctl := .running
  env := ⟨body.left, ⟨⟨[], by decide⟩, 0⟩⟩
  trace := []

/-- `r->resp.content_length` after the response-headers filters. -/
def filtered : Body → Nat → Nat
  | filteredFile _ _ _, _ => phlContentLengthInit
  | _, length => length

/-- Where production begins. -/
def start : Option (World Places Unit) :=
  (phlRequestResponseHeaders1 (body.env lib stale) 0 (body.asked lib stale)).map fun answered =>
    { answered.2 with r.resp.contentLength := body.filtered answered.2.r.resp.contentLength }

/-- The bodies that are produced whole where the first buffer is so long. -/
def ComesWhole (first : Nat) : Body → Prop
  | easyString _ _ => True
  | brokenString _ _ => True
  | file _ _ length _ => length < 2 ^ 31
  | filteredFile _ content _ => content.length ≤ first
  | brokenFile _ content _ => content.length ≤ first
  | echo conf => conf.str.1.length ≤ first
  | stats _ => True
  | page code => (phlRequestSimpleResponseBody lib code).length < first

end Body

end Bodies

section Pieces

variable {W V : Type} {env : Env W V} {p : PathId} {bufLen : Nat} {w w' : World W V} {data : Bytes}

theorem responseBodyPiece_done
    (h : w.r.resp.contentOriginalLength ≤ w.r.resp.contentGeneratedLength) :
    responseBodyPiece env p bufLen w = some (.ok ([], true), w) := by
  unfold responseBodyPiece
  rw [if_pos h]

/-- The world after a piece of `n` bytes has been generated. -/
def World.generated (w : World W V) (n : Nat) (data : Bytes) : World W V :=
  { w with r.resp.contentGeneratedLength := n }.emit [.source data]

theorem responseBodyPiece_ok
    (hopen : w.r.resp.contentGeneratedLength < w.r.resp.contentOriginalLength)
    (h : generateBody env p bufLen w = some (.ok data, w')) :
    responseBodyPiece env p bufLen w = some (.ok (data,
        if w.r.resp.contentOriginalLength ≠ phlContentLengthInit then
          decide (w.r.resp.contentOriginalLength ≤ w.r.resp.contentGeneratedLength + data.length)
        else data.length == 0),
      w'.generated (w.r.resp.contentGeneratedLength + data.length) data) := by
  unfold responseBodyPiece
  rw [if_neg (by omega), h]
  rfl

theorem responseBodyPiece_error {n : Failure}
    (hopen : w.r.resp.contentGeneratedLength < w.r.resp.contentOriginalLength)
    (h : generateBody env p bufLen w = some (.error n, w')) :
    responseBodyPiece env p bufLen w = some (.error n, w') := by
  unfold responseBodyPiece
  rw [if_neg (by omega), h]
  rfl

/-- What a source has to do for one step of `TakesRest`. -/
theorem takes_piece {inv : World W V → Bytes → Prop} {rest : Bytes} (hpos : 0 < bufLen)
    (hopen : w.r.resp.contentGeneratedLength < w.r.resp.contentOriginalLength)
    (hannounced : w.r.resp.contentOriginalLength = w.r.resp.contentGeneratedLength + rest.length ∨
      w.r.resp.contentOriginalLength = phlContentLengthInit)
    (hgen : generateBody env p bufLen w = some (.ok (rest.take bufLen), w'))
    (hnext : inv (w'.generated (w.r.resp.contentGeneratedLength + min bufLen rest.length)
      (rest.take bufLen)) (rest.drop bufLen)) :
    ∃ isLast w', responseBodyPiece env p bufLen w = some (.ok (rest.take bufLen, isLast), w') ∧
      (isLast = true → rest.length ≤ bufLen) ∧
      (isLast = false → rest ≠ [] ∧ inv w' (rest.drop bufLen)) := by
  have hlength : (rest.take bufLen).length = min bufLen rest.length := List.length_take
  have hpiece := responseBodyPiece_ok hopen hgen
  rw [hlength] at hpiece
  refine ⟨_, _, hpiece, ?_, ?_⟩
  · intro hlast
    split at hlast
    next hknown =>
      have hle := of_decide_eq_true hlast
      omega
    next =>
      have hzero : min bufLen rest.length = 0 := by simpa using hlast
      omega
  · intro hlast
    refine ⟨?_, hnext⟩
    rintro rfl
    rw [List.length_nil, Nat.min_zero] at hlast
    split at hlast
    next hknown =>
      have hlt := of_decide_eq_false hlast
      rw [List.length_nil] at hannounced
      omega
    next => cases hlast

/-- A source of which nothing is left when as much has been generated as was announced. -/
theorem takes_done {inv : World W V → Bytes → Prop} {rest : Bytes}
    (hdone : w.r.resp.contentOriginalLength ≤ w.r.resp.contentGeneratedLength)
    (hrest : rest.length = 0) :
    ∃ isLast w', responseBodyPiece env p bufLen w = some (.ok (rest.take bufLen, isLast), w') ∧
      (isLast = true → rest.length ≤ bufLen) ∧
      (isLast = false → rest ≠ [] ∧ inv w' (rest.drop bufLen)) := by
  refine ⟨true, w, ?_, fun _ => by omega, fun hlast => by cases hlast⟩
  rw [List.eq_nil_of_length_eq_zero hrest, List.take_nil]
  exact responseBodyPiece_done hdone

theorem phlContentLengthInit_eq : phlContentLengthInit = 2 ^ 64 - 1 := rfl

theorem take_min_length (rest : Bytes) (n : Nat) : rest.take (min rest.length n) = rest.take n := by
  rcases Nat.le_total rest.length n with h | h
  · rw [Nat.min_eq_left h, List.take_length, List.take_of_length_le h]
  · rw [Nat.min_eq_right h]

theorem drop_min_length (rest : Bytes) (n : Nat) : rest.drop (min n rest.length) = rest.drop n := by
  rcases Nat.le_total rest.length n with h | h
  · rw [Nat.min_eq_right h, List.drop_length, List.drop_of_length_le h]
  · rw [Nat.min_eq_left h]

/-- An easy string, from the place up to which it has been sent. -/
structure EasyStringAt (w : World W V) (rest : Bytes) : Prop where
  len : w.r.resp.easyStrLen = w.r.resp.easyString.length
  len_lt : w.r.resp.easyStrLen < 2 ^ 31
  place : w.r.resp.contentGeneratedLength ≤ w.r.resp.easyStrLen
  rest_eq : rest = w.r.resp.easyString.drop w.r.resp.contentGeneratedLength
  announced : w.r.resp.contentOriginalLength = w.r.resp.easyStrLen ∨
    w.r.resp.contentOriginalLength = phlContentLengthInit ∧ 0 < w.r.resp.easyStrLen

theorem easyString_takesRest : TakesRest env p EasyStringAt := by
  intro w rest bufLen hat hpos
  have hinit := phlContentLengthInit_eq
  have hlen := hat.len
  have hlt := hat.len_lt
  have hplace := hat.place
  have hannounced := hat.announced
  have hrest : rest.length = w.r.resp.easyStrLen - w.r.resp.contentGeneratedLength := by
    rw [hat.rest_eq, List.length_drop, hlen]
  rcases Nat.lt_or_ge w.r.resp.contentGeneratedLength w.r.resp.contentOriginalLength with
    hopen | hdone
  · have hsome : 0 < w.r.resp.easyStrLen := by omega
    have hgen : generateBody env p bufLen w = some (.ok (rest.take bufLen), w) := by
      unfold generateBody
      dsimp only
      rw [if_pos hsome, ← hat.rest_eq, ← hrest, take_min_length]
    refine takes_piece hpos hopen (by omega) hgen ⟨hlen, hlt, ?_, ?_, hannounced⟩
    · unfold World.generated
      dsimp only [World.emit]
      omega
    · unfold World.generated
      dsimp only [World.emit]
      rw [← List.drop_drop, ← hat.rest_eq, drop_min_length]
  · exact takes_done hdone (by omega)

/-- The text of the stats module, from the place up to which its context says it has been sent. -/
structure StatsAt (text : IntBytes) (w : World Places Unit) (rest : Bytes) : Prop where
  whole : w.r.isBroken = false
  easyStrLen : w.r.resp.easyStrLen = 0
  easyFd : w.r.resp.easyFd = 0
  ctx : w.env.stats = ⟨text, w.r.resp.contentGeneratedLength⟩
  place : w.r.resp.contentGeneratedLength ≤ text.1.length
  rest_eq : rest = text.1.drop w.r.resp.contentGeneratedLength
  announced : w.r.resp.contentOriginalLength = text.1.length

theorem stats_takesRest {env : Env Places Unit} {content : ContentModule Places Unit}
    {text : IntBytes} (hcontent : (env.path p).content = some content)
    (hbody : content.responseBody = some phlStatsGenerateResponseBody) :
    TakesRest env p (StatsAt text) := by
  intro w rest bufLen hat hpos
  have hplace := hat.place
  have hannounced := hat.announced
  have hrest : rest.length = text.1.length - w.r.resp.contentGeneratedLength := by
    rw [hat.rest_eq, List.length_drop]
  rcases Nat.lt_or_ge w.r.resp.contentGeneratedLength w.r.resp.contentOriginalLength with
    hopen | hdone
  · have hgen : ∃ w', generateBody env p bufLen w = some (.ok (rest.take bufLen), w') ∧ w'.r = w.r ∧
        w'.env.stats = ⟨text, w.r.resp.contentGeneratedLength + min bufLen rest.length⟩ := by
      unfold generateBody
      dsimp only
      rw [if_neg (by rw [hat.easyStrLen]; decide), if_neg (by rw [hat.easyFd]; decide),
        if_pos hat.whole, hcontent]
      simp only [Option.bind_eq_bind, Option.bind_some, hbody]
      unfold phlStatsGenerateResponseBody
      rw [hat.ctx]
      dsimp only
      rw [← hat.rest_eq, ← hrest, take_min_length, Nat.min_comm]
      exact ⟨_, rfl, rfl, rfl⟩
    obtain ⟨w', hgen, hr, hctx⟩ := hgen
    refine takes_piece hpos hopen (by omega) hgen ⟨?_, ?_, ?_, hctx, ?_, ?_, ?_⟩
    · exact (congrArg Request.isBroken hr).trans hat.whole
    · exact (congrArg (·.resp.easyStrLen) hr).trans hat.easyStrLen
    · exact (congrArg (·.resp.easyFd) hr).trans hat.easyFd
    · unfold World.generated
      dsimp only [World.emit]
      omega
    · unfold World.generated
      dsimp only [World.emit]
      rw [← List.drop_drop, ← hat.rest_eq, drop_min_length]
    · exact (congrArg (·.resp.contentOriginalLength) hr).trans hat.announced
  · exact takes_done hdone (by omega)

/-- A file whose descriptor has been read up to what has been generated; `rest` is what is left of
the announced bytes. -/
structure AnnouncedFileAt (length : Nat) (w : World Places Unit) (rest : Bytes) : Prop where
  easyStrLen : w.r.resp.easyStrLen = 0
  easyFd : w.r.resp.easyFd ≠ 0
  contentLength : w.r.resp.contentLength = length
  announced : w.r.resp.contentOriginalLength = length
  rest_eq : rest = w.env.left.take (length - w.r.resp.contentGeneratedLength)
  enough : w.r.resp.contentGeneratedLength ≤ length ∧
    length - w.r.resp.contentGeneratedLength ≤ w.env.left.length

section File

variable {env : Env Places Unit} {w w' : World Places Unit} {rest : Bytes} {length : Nat}

theorem generateBody_readLeft (hread : env.readFd = fun _ => Body.readLeft)
    (hstr : w.r.resp.easyStrLen = 0) (hfd : w.r.resp.easyFd ≠ 0) :
    generateBody env p bufLen w =
      some (.ok (w.env.left.take (toSize (fileReadLength w.r.resp bufLen))),
        { w with env.left := w.env.left.drop (toSize (fileReadLength w.r.resp bufLen)) }) := by
  rw [generateBody_file hstr hfd, hread]
  rfl

theorem fileReadLength_announced (hat : AnnouncedFileAt length w rest) :
    fileReadLength w.r.resp bufLen =
      min (toInt ((length - w.r.resp.contentGeneratedLength : Nat) : Int)) bufLen := by
  unfold fileReadLength
  rw [hat.contentLength, Int.ofNat_sub hat.enough.1]

theorem announcedFile_takesRest (hread : env.readFd = fun _ => Body.readLeft)
    (hlength : length < 2 ^ 31) : TakesRest env p (AnnouncedFileAt length) := by
  intro w rest bufLen hat hpos
  have hrest : rest.length = length - w.r.resp.contentGeneratedLength := by
    rw [hat.rest_eq, List.length_take]
    exact Nat.min_eq_left hat.enough.2
  have hannounced := hat.announced
  rcases Nat.lt_or_ge w.r.resp.contentGeneratedLength w.r.resp.contentOriginalLength with
    hopen | hdone
  · have hcount : toSize (fileReadLength w.r.resp bufLen) = min bufLen rest.length := by
      have hint := toInt_eq ((length - w.r.resp.contentGeneratedLength : Nat) : Int)
      rw [fileReadLength_announced hat]
      have hsize := @toSize_of_nonneg
        (min (toInt ((length - w.r.resp.contentGeneratedLength : Nat) : Int)) bufLen)
        (by omega) (by omega)
      omega
    have hgen := @generateBody_readLeft p bufLen env w hread hat.easyStrLen hat.easyFd
    have htaken : w.env.left.take (min bufLen rest.length) = rest.take bufLen := by
      rw [hrest, hat.rest_eq, List.take_take]
    rw [hcount, htaken] at hgen
    refine takes_piece hpos hopen (by omega) hgen
      ⟨hat.easyStrLen, hat.easyFd, hat.contentLength, hat.announced, ?_, ?_⟩
    · unfold World.generated
      dsimp only [World.emit]
      rw [hat.rest_eq, List.drop_take, ← hat.rest_eq]
      rcases Nat.le_total bufLen rest.length with hle | hle
      · rw [Nat.min_eq_left hle, Nat.sub_sub]
      · have hbefore : length - w.r.resp.contentGeneratedLength - bufLen = 0 := by omega
        have hafter : length - (w.r.resp.contentGeneratedLength + rest.length) = 0 := by omega
        rw [Nat.min_eq_right hle, hbefore, hafter, List.take_zero, List.take_zero]
    · unfold World.generated
      dsimp only [World.emit]
      have henough := hat.enough
      rw [List.length_drop]
      omega
  · exact takes_done hdone (by omega)

/-- The count asked for is above every buffer, or among the low 32 bits of what is left. -/
theorem read_count_low (left : Nat) (hbuf : bufLen < 2 ^ 31) :
    2 ^ 31 ≤ toSize (min (toInt (left : Int)) bufLen) ∨
      toSize (min (toInt (left : Int)) bufLen) ≤ left % 2 ^ 32 ∧ left % 2 ^ 32 < 2 ^ 31 := by
  have hint := toInt_eq (left : Int)
  by_cases hlow : left % 2 ^ 32 < 2 ^ 31
  · have hcount := @toSize_of_nonneg (min (toInt (left : Int)) bufLen) (by omega) (by omega)
    right
    omega
  · have hlarge := @toSize_of_neg (min (toInt (left : Int)) bufLen) (by omega) (by omega)
    exact .inl hlarge

/-- A piece that fits in its buffer leaves 2 GiB or more where so much was left: at least the
multiple of 4 GiB below. -/
theorem announcedFile_long (hread : env.readFd = fun _ => Body.readLeft) {isLast : Bool}
    (hlt : length < 2 ^ 63) (hbuf : bufLen < 2 ^ 31) (hat : AnnouncedFileAt length w rest)
    (hlong : 2 ^ 31 ≤ length - w.r.resp.contentGeneratedLength)
    (hpiece : responseBodyPiece env p bufLen w = some (.ok (data, isLast), w'))
    (hfits : data.length ≤ bufLen) :
    AnnouncedFileAt length w' (w'.env.left.take (length - w'.r.resp.contentGeneratedLength)) ∧
      2 ^ 31 ≤ length - w'.r.resp.contentGeneratedLength ∧ isLast = false := by
  have hannounced := hat.announced
  have hplace := hat.enough
  have hinit := phlContentLengthInit_eq
  have hgen := @generateBody_readLeft p bufLen env w hread hat.easyStrLen hat.easyFd
  have hlow := read_count_low (length - w.r.resp.contentGeneratedLength) hbuf
  rw [fileReadLength_announced hat] at hgen
  generalize toSize (min (toInt ((length - w.r.resp.contentGeneratedLength : Nat) : Int))
    bufLen) = count at hgen hlow
  rw [responseBodyPiece_ok (by omega) hgen, if_pos (by omega)] at hpiece
  have hdata : data.length = min count w.env.left.length := by
    cases hpiece
    exact List.length_take
  have hlast : isLast = decide (w.r.resp.contentOriginalLength ≤
      w.r.resp.contentGeneratedLength + data.length) := by
    cases hpiece
    rfl
  have hw : w'.r.resp = { w.r.resp with
        contentGeneratedLength := w.r.resp.contentGeneratedLength + data.length } ∧
      w'.env.left = w.env.left.drop count := by
    cases hpiece
    exact ⟨rfl, rfl⟩
  have hless : 2 ^ 31 ≤ length - (w.r.resp.contentGeneratedLength + data.length) := by omega
  obtain ⟨hresp, hleft⟩ := hw
  rw [hresp]
  refine ⟨⟨?_, ?_, ?_, ?_, ?_, ?_⟩, hless, ?_⟩
  · rw [hresp]
    exact hat.easyStrLen
  · rw [hresp]
    exact hat.easyFd
  · rw [hresp]
    exact hat.contentLength
  · rw [hresp]
    exact hat.announced
  · rw [hresp]
  · rw [hresp, hleft, List.length_drop]
    dsimp only
    omega
  · rw [hlast]
    exact decide_eq_false (by omega)

/-- While 2 GiB or more are left, a piece is longer than its buffer, or 2 GiB or more are left after
it. -/
theorem announcedFile_never (hread : env.readFd = fun _ => Body.readLeft) {offers : Nat → Nat}
    {body : Bytes} (hlt : length < 2 ^ 63) (hmade : ResumesBody env p offers w body)
    (hoffers : ∀ i, offers i < 2 ^ 31) (hat : AnnouncedFileAt length w rest)
    (hlong : 2 ^ 31 ≤ length - w.r.resp.contentGeneratedLength) : False := by
  induction hmade using ResumesBody.induct generalizing rest with
  | last offers w w' data hpiece hfits =>
    obtain ⟨-, -, hlast⟩ := announcedFile_long hread hlt (hoffers 0) hat hlong hpiece hfits
    cases hlast
  | more offers w w' data rest' hpiece hfits hrest ih =>
    obtain ⟨hat', hlong', -⟩ := announcedFile_long hread hlt (hoffers 0) hat hlong hpiece hfits
    exact ih (fun i => hoffers (i + 1)) hat' hlong'

/-- Where `content_length` has been taken away, all of a file is asked for. -/
theorem generateBody_unknown (hread : env.readFd = fun _ => Body.readLeft)
    (hstr : w.r.resp.easyStrLen = 0) (hfd : w.r.resp.easyFd ≠ 0)
    (hlength : w.r.resp.contentLength = phlContentLengthInit)
    (hzero : w.r.resp.contentGeneratedLength = 0) (hlt : w.env.left.length < 2 ^ 63) :
    generateBody env p bufLen w = some (.ok w.env.left, { w with env.left := [] }) := by
  have hcount : toSize (fileReadLength w.r.resp bufLen) = 2 ^ 64 - 1 := by
    have hinit := phlContentLengthInit_eq
    have hint := toInt_eq ((w.r.resp.contentLength : Int) - w.r.resp.contentGeneratedLength)
    unfold fileReadLength
    rw [show min (toInt ((w.r.resp.contentLength : Int) - w.r.resp.contentGeneratedLength))
      (bufLen : Int) = -1 by omega]
    rfl
  rw [generateBody_readLeft hread hstr hfd, hcount, List.take_of_length_le (by omega),
    List.drop_of_length_le (by omega)]

/-- A file of unknown length is one piece into a buffer that is long enough, and an empty one. -/
theorem unknownFile_resumes {offers : Nat → Nat} (hread : env.readFd = fun _ => Body.readLeft)
    (hoffer : offers 0 < 2 ^ 31) (hstr : w.r.resp.easyStrLen = 0) (hfd : w.r.resp.easyFd ≠ 0)
    (hlength : w.r.resp.contentLength = phlContentLengthInit)
    (horiginal : w.r.resp.contentOriginalLength = phlContentLengthInit)
    (hzero : w.r.resp.contentGeneratedLength = 0) (hfits : w.env.left.length ≤ offers 0) :
    ResumesBody env p offers w w.env.left := by
  have hinit := phlContentLengthInit_eq
  have hgen := @generateBody_unknown p (offers 0) env w hread hstr hfd hlength hzero (by omega)
  have hpiece := responseBodyPiece_ok (by omega) hgen
  rw [if_neg (by rw [horiginal]; exact fun h => h rfl), hzero, Nat.zero_add] at hpiece
  by_cases hne : w.env.left = []
  · rw [hne] at hpiece hfits ⊢
    exact .last hpiece hfits
  · rw [show (w.env.left.length == 0) = false by simpa using hne] at hpiece
    have hend : generateBody env p (offers 1)
        (World.generated { w with env.left := [] } w.env.left.length w.env.left) =
          some (.ok [],
            World.generated { w with env.left := [] } w.env.left.length w.env.left) := by
      rw [generateBody_readLeft hread (by exact hstr) (by exact hfd)]
      unfold World.generated
      dsimp only [World.emit]
      rw [List.take_nil, List.drop_nil]
    have hlast := responseBodyPiece_ok (by
      unfold World.generated
      dsimp only [World.emit]
      omega) hend
    rw [if_neg (fun h => h horiginal)] at hlast
    have hrest : ResumesBody env p (fun i => offers (i + 1))
        (World.generated { w with env.left := [] } w.env.left.length w.env.left) [] :=
      .last hlast (Nat.zero_le _)
    have hall := ResumesBody.more hpiece hfits hrest
    rwa [List.append_nil] at hall

end File

/-- A body that is made as one piece into a first buffer that is long enough. -/
theorem single_resumes {offers : Nat → Nat} {body : Bytes} (hoffer : offers 0 < 2 ^ 31)
    (hzero : w.r.resp.contentGeneratedLength = 0)
    (hannounced : w.r.resp.contentOriginalLength = body.length)
    (hgen : body ≠ [] → ∃ w', generateBody env p (offers 0) w = some (.ok body, w'))
    (hfits : body.length ≤ offers 0) : ResumesBody env p offers w body := by
  by_cases hne : body = []
  · subst hne
    exact .last (responseBodyPiece_done (by rw [hannounced, hzero]; exact Nat.le_refl 0)) hfits
  · have hpos := List.length_pos_iff.mpr hne
    obtain ⟨w', hgen⟩ := hgen hne
    have hpiece := responseBodyPiece_ok (by omega) hgen
    have hinit := phlContentLengthInit_eq
    rw [if_pos (by omega), decide_eq_true (by omega)] at hpiece
    exact .last hpiece hfits

theorem length_snprintf (stale : Nat → UInt8) (len : Nat) (text : Bytes) :
    (snprintf stale len text).length = text.length := by
  unfold snprintf
  split
  next => rfl
  next => exact List.length_mapIdx

/-- A text of exactly the length of the buffer has lost its last byte to the NUL. -/
theorem snprintf_ne {stale : Nat → UInt8} {text : Bytes} {c : UInt8}
    (hlast : text.getLast? = some c) (hc : c ≠ 0) : snprintf stale text.length text ≠ text := by
  intro heq
  have hpos : 0 < text.length := List.length_pos_iff.mpr fun h => by rw [h] at hlast; cases hlast
  have hnul : (snprintf stale text.length text)[text.length - 1]? = some 0 := by
    unfold snprintf
    rw [if_neg (by omega), List.getElem?_mapIdx, List.getElem?_eq_getElem (by omega)]
    dsimp only [Option.map_some]
    rw [if_neg (by omega), if_pos (by omega)]
  rw [heq, ← List.getLast?_eq_getElem?, hlast] at hnul
  exact hc (Option.some.inj hnul)

theorem getLast_statusCodePage (lib : Libwuya) (code : Int) :
    (phlStatusCodeResponseBody lib code).getLast? = some 10 := by
  unfold phlStatusCodeResponseBody
  rw [List.getLast?_append_of_ne_nil _ (by decide)]
  decide

end Pieces

section Main

variable {lib : Libwuya} {stale : Nat → UInt8} {offers : Nat → Nat}

theorem echo_piece {env : Env Places Unit} {p : PathId} {content : ContentModule Places Unit}
    {conf : PhlEchoConf} {w : World Places Unit} {bufLen : Nat}
    (hcontent : (env.path p).content = some content)
    (hbody : content.responseBody = some (phlEchoGenerateResponseBody conf))
    (hwhole : w.r.isBroken = false) (hstr : w.r.resp.easyStrLen = 0) (hfd : w.r.resp.easyFd = 0) :
    ∃ w', generateBody env p bufLen w =
      some (if bufLen < conf.str.1.length then .error ⟨phlError, by decide⟩ else .ok conf.str.1,
        w') := by
  unfold generateBody
  dsimp only
  rw [if_neg (by rw [hstr]; decide), if_neg (by rw [hfd]; decide), if_pos hwhole, hcontent]
  simp only [Option.bind_eq_bind, Option.bind_some, hbody]
  unfold phlEchoGenerateResponseBody
  split
  next => exact ⟨_, rfl⟩
  next => exact ⟨_, rfl⟩

/-- Production from `start` comes to the body under this condition; the length of the body is what
has been announced, or nothing has. -/
def ProducesWhen (lib : Libwuya) (stale : Nat → UInt8) (offers : Nat → Nat) (body : Body)
    (whole : Prop) : Prop :=
  ∃ w, body.start lib stale = some w ∧
    (w.r.resp.contentOriginalLength = (body.bytes lib).length ∨
      w.r.resp.contentOriginalLength = phlContentLengthInit) ∧
    (ResumesBody (body.env lib stale) 0 offers w (body.bytes lib) ↔ whole)

theorem easyString_produces (hpos : ∀ i, 0 < offers i) (statusCode : Int) (str : IntBytes) :
    ProducesWhen lib stale offers (.easyString statusCode str) True := by
  refine ⟨_, rfl, .inl rfl, iff_true_intro ?_⟩
  exact easyString_takesRest.resumes hpos ⟨rfl, str.2, Nat.zero_le _, rfl, .inl rfl⟩

theorem brokenString_produces (hpos : ∀ i, 0 < offers i) (str : IntBytes) (h : str.1 ≠ []) :
    ProducesWhen lib stale offers (.brokenString str h) True := by
  have hlength : str.1.length ≠ 0 := by simpa using h
  have hask : phlRequestResponseHeaders1 ((Body.brokenString str h).env lib stale) 0
      ((Body.brokenString str h).asked lib stale) =
        some (phlOk, { (Body.brokenString str h).asked lib stale with
          r.resp.contentOriginalLength := phlContentLengthInit }) := by
    have hstr : ¬(((Body.brokenString str h).asked lib stale).r.resp.easyStrLen = 0 ∧
        ((Body.brokenString str h).asked lib stale).r.resp.easyFd = 0) := fun h => hlength h.1
    unfold phlRequestResponseHeaders1
    rw [if_neg (by rintro ⟨⟩), if_neg hstr]
    rfl
  refine ⟨_, by unfold Body.start; rw [hask]; rfl, .inr rfl, iff_true_intro ?_⟩
  exact easyString_takesRest.resumes hpos
    ⟨rfl, str.2, Nat.zero_le _, rfl, .inr ⟨rfl, Nat.pos_of_ne_zero hlength⟩⟩

theorem stats_produces (hpos : ∀ i, 0 < offers i) (text : IntBytes) :
    ProducesWhen lib stale offers (.stats text) True := by
  refine ⟨_, rfl, .inl rfl, iff_true_intro ?_⟩
  exact (stats_takesRest rfl rfl).resumes hpos ⟨rfl, rfl, rfl, rfl, Nat.zero_le _, rfl, rfl⟩

theorem file_produces (hoffers : ∀ i, 0 < offers i ∧ offers i < 2 ^ 31) (fd : {n : Nat // n ≠ 0})
    {content : Bytes} {length : Nat} (h : length ≤ content.length ∧ content.length < 2 ^ 63) :
    ProducesWhen lib stale offers (.file fd content length h) (length < 2 ^ 31) := by
  obtain ⟨w, hw⟩ : ∃ w, (Body.file fd content length h).start lib stale = some w := ⟨_, rfl⟩
  have hat : AnnouncedFileAt length w (content.take length) := by
    cases hw
    exact ⟨rfl, fd.2, rfl, rfl, rfl, Nat.zero_le _, h.1⟩
  have hstart : w.r.resp.contentGeneratedLength = 0 := by
    cases hw
    rfl
  refine ⟨w, hw, .inl ?_, ?_, ?_⟩
  · exact hat.announced.trans (List.length_take_of_le h.1).symm
  · intro hmade
    by_contra hlong
    refine announcedFile_never rfl (by omega) hmade (fun i => (hoffers i).2) hat ?_
    rw [hstart]
    exact Nat.not_lt.mp hlong
  · intro hlength
    exact (announcedFile_takesRest rfl hlength).resumes (fun i => (hoffers i).1) hat

theorem filteredFile_produces (hoffers : ∀ i, 0 < offers i ∧ offers i < 2 ^ 31)
    (fd : {n : Nat // n ≠ 0}) {content : Bytes} (h : content.length < 2 ^ 63) :
    ProducesWhen lib stale offers (.filteredFile fd content h) (content.length ≤ offers 0) := by
  obtain ⟨w, hw⟩ : ∃ w, (Body.filteredFile fd content h).start lib stale = some w := ⟨_, rfl⟩
  have hannounced : w.r.resp.contentOriginalLength = content.length := by
    cases hw
    rfl
  have hzero : w.r.resp.contentGeneratedLength = 0 := by
    cases hw
    rfl
  have hgen : ∃ w', generateBody ((Body.filteredFile fd content h).env lib stale) 0 (offers 0) w =
      some (.ok content, w') := by
    cases hw
    exact ⟨_, generateBody_unknown rfl rfl fd.2 rfl rfl h⟩
  refine ⟨w, hw, .inl hannounced, ?_, ?_⟩
  · intro hmade
    obtain ⟨data, isLast, w1, hpiece, hfits, -⟩ := hmade.first
    obtain ⟨w', hgen⟩ := hgen
    have hoffer := hoffers 0
    by_contra hlong
    rw [responseBodyPiece_ok (by omega) hgen] at hpiece
    cases hpiece
    exact hlong hfits
  · intro hfits
    exact single_resumes (hoffers 0).2 hzero hannounced (fun _ => hgen) hfits

theorem brokenFile_produces (hoffers : ∀ i, 0 < offers i ∧ offers i < 2 ^ 31)
    (fd : {n : Nat // n ≠ 0}) {content : Bytes} (h : content.length < 2 ^ 63) :
    ProducesWhen lib stale offers (.brokenFile fd content h) (content.length ≤ offers 0) := by
  have hinit := phlContentLengthInit_eq
  have hoffer := hoffers 0
  have hask : phlRequestResponseHeaders1 ((Body.brokenFile fd content h).env lib stale) 0
      ((Body.brokenFile fd content h).asked lib stale) =
        some (phlOk, { (Body.brokenFile fd content h).asked lib stale with
          r.resp.contentOriginalLength := phlContentLengthInit }) := by
    have hfd : ¬(((Body.brokenFile fd content h).asked lib stale).r.resp.easyStrLen = 0 ∧
        ((Body.brokenFile fd content h).asked lib stale).r.resp.easyFd = 0) := fun h => fd.2 h.2
    unfold phlRequestResponseHeaders1
    rw [if_neg (by rintro ⟨⟩), if_neg hfd]
    rfl
  obtain ⟨w, hw, hstr, hfd, hlength, horiginal, hzero, hleft⟩ :
      ∃ w, (Body.brokenFile fd content h).start lib stale = some w ∧
        w.r.resp.easyStrLen = 0 ∧ w.r.resp.easyFd ≠ 0 ∧
        w.r.resp.contentLength = phlContentLengthInit ∧
        w.r.resp.contentOriginalLength = phlContentLengthInit ∧
        w.r.resp.contentGeneratedLength = 0 ∧ w.env.left = content :=
    ⟨_, by unfold Body.start; rw [hask]; rfl, rfl, fd.2, rfl, rfl, rfl, rfl⟩
  have hgen := @generateBody_unknown 0 (offers 0) ((Body.brokenFile fd content h).env lib stale) w
    rfl hstr hfd hlength hzero (by rw [hleft]; exact h)
  have hpiece := responseBodyPiece_ok (by omega) hgen
  rw [hleft, if_neg (by rw [horiginal]; exact fun h => h rfl)] at hpiece
  refine ⟨w, hw, .inr horiginal, ?_, ?_⟩
  · intro hmade
    obtain ⟨data, isLast, w1, hmade, hfits, -⟩ := hmade.first
    rw [hpiece] at hmade
    cases hmade
    exact hfits
  · intro hfits
    have hall := @unknownFile_resumes 0 ((Body.brokenFile fd content h).env lib stale) w offers rfl
      (hoffers 0).2 hstr hfd hlength horiginal hzero (by rw [hleft]; exact hfits)
    rw [hleft] at hall
    exact hall

theorem echo_produces (hoffers : ∀ i, 0 < offers i ∧ offers i < 2 ^ 31) (conf : PhlEchoConf) :
    ProducesWhen lib stale offers (.echo conf) (conf.str.1.length ≤ offers 0) := by
  obtain ⟨w, hw⟩ : ∃ w, (Body.echo conf).start lib stale = some w := ⟨_, rfl⟩
  have hannounced : w.r.resp.contentOriginalLength = conf.str.1.length := by
    cases hw
    rfl
  have hzero : w.r.resp.contentGeneratedLength = 0 := by
    cases hw
    rfl
  have hgen : ∃ w', generateBody ((Body.echo conf).env lib stale) 0 (offers 0) w =
      some (if offers 0 < conf.str.1.length then .error ⟨phlError, by decide⟩ else .ok conf.str.1,
        w') := by
    cases hw
    exact echo_piece rfl rfl rfl rfl rfl
  obtain ⟨w', hgen⟩ := hgen
  refine ⟨w, hw, .inl hannounced, ?_, ?_⟩
  · intro hmade
    obtain ⟨data, isLast, w1, hpiece, -⟩ := hmade.first
    by_contra hlong
    rw [if_pos (by omega)] at hgen
    rw [responseBodyPiece_error (by omega) hgen] at hpiece
    cases hpiece
  · intro hfits
    rw [if_neg (by omega)] at hgen
    exact single_resumes (hoffers 0).2 hzero hannounced (fun _ => ⟨w', hgen⟩) hfits

theorem page_produces (hoffers : ∀ i, 0 < offers i ∧ offers i < 2 ^ 31) (code : Int) :
    ProducesWhen lib stale offers (.page code)
      ((phlRequestSimpleResponseBody lib code).length < offers 0) := by
  obtain ⟨w, hw⟩ : ∃ w, (Body.page code).start lib stale = some w := ⟨_, rfl⟩
  have hannounced : w.r.resp.contentOriginalLength =
      (phlRequestSimpleResponseBody lib code).length := by
    cases hw
    rfl
  have hzero : w.r.resp.contentGeneratedLength = 0 := by
    cases hw
    rfl
  have hgen : generateBody ((Body.page code).env lib stale) 0 (offers 0) w =
      some (.ok (snprintf stale (offers 0) (phlRequestSimpleResponseBody lib code)), w) := by
    cases hw
    rfl
  have hinit := phlContentLengthInit_eq
  have hoffer := hoffers 0
  refine ⟨w, hw, .inl hannounced, ?_, ?_⟩
  · intro hmade
    obtain ⟨data, isLast, w1, hpiece, hfits, hlast⟩ := hmade.first
    by_contra hlong
    rw [responseBodyPiece_ok (by omega) hgen] at hpiece
    cases hpiece
    rw [length_snprintf] at hfits hlast
    have hexact : offers 0 = (phlRequestSimpleResponseBody lib code).length := by omega
    rw [if_pos (by omega)] at hlast
    have hbody : phlRequestSimpleResponseBody lib code = _ := hlast (decide_eq_true (by omega))
    rw [hexact] at hbody
    refine snprintf_ne ?_ (show (10 : UInt8) ≠ 0 by decide) hbody.symm
    unfold phlRequestSimpleResponseBody
    split
    next hcode =>
      unfold phlRequestSimpleResponseBody at hexact
      rw [if_pos hcode, List.length_nil] at hexact
      omega
    next => exact getLast_statusCodePage lib code
  · intro hfits
    refine single_resumes (hoffers 0).2 hzero hannounced (fun _ => ⟨w, ?_⟩) (Nat.le_of_lt hfits)
    rw [hgen]
    unfold snprintf
    rw [if_pos hfits]
    rfl

end Main

end Phorklift
