import Phorklift.StaticFile

/-! The answers of the static module, up to the last byte of their bodies. -/

namespace Phorklift.Static

section Run

variable {W V : Type} {env : Env W V} {p : PathId} {w w' : World W V}

theorem run_next (hopen : w.r.closed = false) (hp : w.r.confPath = some p)
    (hstate : w.r.state ≠ .done) (hstep : phlRequestStep env p w = some (some phlOk, w'))
    (hpath : w'.r.confPath ≠ none) :
    phlRequestRun env w = some { w' with r.state := w'.r.state.next } := by
  unfold phlRequestRun
  rw [if_neg (by rw [hopen]; decide), hp]
  simp only [Option.bind_eq_bind, Option.bind_some]
  rw [if_neg hstate, hstep]
  simp only [Option.bind_some]
  unfold phlRequestRunReturn
  rw [if_neg hpath, if_pos (.inl rfl)]

theorem run_break {code : Int} (hcode : 0 < code) (hopen : w.r.closed = false)
    (hp : w.r.confPath = some p) (hstate : w.r.state ≠ .done)
    (hstep : phlRequestStep env p w = some (some code, w')) (hpath : w'.r.confPath ≠ none) :
    phlRequestRun env w = some ({ w' with
      r.isBroken := true
      r.resp.statusCode := code
      r.state := .responseHeaders1 }.emit [.broken code]) := by
  have hok : ¬(code = phlOk ∨ code = phlBreak) := by
    unfold phlOk phlBreak
    omega
  have hagain : code ≠ phlAgain := by
    unfold phlAgain
    omega
  have herror : code ≠ phlError := by
    unfold phlError
    omega
  unfold phlRequestRun
  rw [if_neg (by rw [hopen]; decide), hp]
  simp only [Option.bind_eq_bind, Option.bind_some]
  rw [if_neg hstate, hstep]
  simp only [Option.bind_some]
  unfold phlRequestRunReturn
  rw [if_neg hpath, if_neg hok, if_neg hagain, if_neg (fun h => herror h.1)]
  dsimp only
  rw [if_neg herror]

/-- The response when the headers of a broken request are asked for, without a body of its own. -/
theorem headers1_page (hstate : w.r.state = .responseHeaders1) (hbroken : w.r.isBroken = true)
    (hstr : w.r.resp.easyStrLen = 0) (hfd : w.r.resp.easyFd = 0) :
    phlRequestStep env p w = some (some phlOk, { w with
      r.resp.contentLength := (phlRequestSimpleResponseBody env.lib w.r.resp.statusCode).length
      r.resp.contentOriginalLength :=
        (phlRequestSimpleResponseBody env.lib w.r.resp.statusCode).length }) := by
  unfold phlRequestStep
  rw [hstate]
  dsimp only
  unfold phlRequestResponseHeaders1
  rw [if_neg (by rw [hbroken]; decide), if_pos ⟨hstr, hfd⟩]
  rfl

theorem headers1_fd (hstate : w.r.state = .responseHeaders1) (hbroken : w.r.isBroken = true)
    (hfd : w.r.resp.easyFd ≠ 0) :
    phlRequestStep env p w = some (some phlOk,
      { w with r.resp.contentOriginalLength := w.r.resp.contentLength }) := by
  unfold phlRequestStep
  rw [hstate]
  dsimp only
  unfold phlRequestResponseHeaders1
  rw [if_neg (by rw [hbroken]; decide), if_neg (fun h => hfd h.2)]
  rfl

end Run

/-- The request in a state of its own, with its response and what is left behind the descriptor. -/
structure At (req : Req) (state : RequestState) (broken : Bool) (resp : Resp) (left : Bytes)
    (w : World Places Unit) : Prop where
  ctl : w.ctl = .running
  closed : w.r.closed = false
  confPath : w.r.confPath = some 0
  state : w.r.state = state
  isBroken : w.r.isBroken = broken
  req : w.r.req = req
  resp : w.r.resp = resp
  left : w.env.left = left

section Start

variable {s : Server} {isHttp2 : Bool} {req : Req} {resp : Resp} {left : Bytes} {code : Int}
  {w : World Places Unit}

theorem asked_at : At req .processHeaders false .init [] (s.asked isHttp2 req) :=
  ⟨rfl, rfl, rfl, rfl, rfl, rfl, rfl, rfl⟩

theorem At.notDone {state : RequestState} {broken : Bool} (h : At req state broken resp left w)
    (hstate : state ≠ .done) : w.r.state ≠ .done := by
  rw [h.state]
  exact hstate

theorem processHeaders_step (h : At req .processHeaders false resp left w) :
    phlRequestStep s.env 0 w = some (some (phlStaticProcessRequestHeaders req),
      w.emit [.content .processHeaders 0 (phlStaticProcessRequestHeaders req)]) := by
  unfold phlRequestStep
  rw [h.state, ← h.req]
  simp [phlRequestProcessHeaders, phlModuleFilter, phlModuleFilterRun, Server.env, Env.single,
    Server.content, callHandler, World.emit]

theorem At.processHeaders (h : At req .processHeaders false resp left w)
    (hmethod : phlStaticProcessRequestHeaders req = phlOk) :
    ∃ w', phlRequestRun s.env w = some w' ∧ At req .processBody false resp left w' := by
  have hstep := @processHeaders_step s req resp left w h
  rw [hmethod] at hstep
  exact ⟨_, run_next h.closed h.confPath (h.notDone (by decide)) hstep
    (by rw [World.emit, h.confPath]; exact Option.some_ne_none 0),
    h.ctl, h.closed, h.confPath, by rw [World.emit, h.state]; rfl, h.isBroken, h.req, h.resp,
    h.left⟩

theorem At.refused (h : At req .processHeaders false resp left w)
    (hmethod : phlStaticProcessRequestHeaders req = 405) :
    ∃ w', phlRequestRun s.env w = some w' ∧
      At req .responseHeaders1 true { resp with statusCode := 405 } left w' := by
  have hstep := @processHeaders_step s req resp left w h
  rw [hmethod] at hstep
  exact ⟨_, run_break (by decide) h.closed h.confPath (h.notDone (by decide)) hstep
    (by rw [World.emit, h.confPath]; exact Option.some_ne_none 0),
    h.ctl, h.closed, h.confPath, rfl, rfl, h.req, by rw [← h.resp]; rfl, h.left⟩

/-- The module does not read the body. -/
theorem At.processBody (h : At req .processBody false resp left w) :
    ∃ w', phlRequestRun s.env w = some w' ∧ At req .responseHeaders1 false resp left w' := by
  have hstep : phlRequestStep s.env 0 w = some (some phlOk, w) := by
    unfold phlRequestStep
    rw [h.state]
    dsimp only
    unfold phlRequestProcessBody
    simp [h.isBroken, phlModuleFilter, phlModuleFilterRun, Server.env, Env.single, Server.content]
  exact ⟨_, run_next h.closed h.confPath (h.notDone (by decide)) hstep
    (by rw [h.confPath]; exact Option.some_ne_none 0),
    h.ctl, h.closed, h.confPath, by rw [h.state]; rfl, h.isBroken, h.req, h.resp, h.left⟩

theorem headers1_step (h : At req .responseHeaders1 false resp left w) :
    phlRequestStep s.env 0 w = some (some (s.answer req resp).ret,
      { w with
        r.resp := { (s.answer req resp).resp with
          contentOriginalLength := (s.answer req resp).resp.contentLength }
        env.left := (s.answer req resp).left
        trace := w.trace ++ [.content .responseHeaders 0 (s.answer req resp).ret] }) := by
  unfold phlRequestStep
  rw [h.state]
  dsimp only
  unfold phlRequestResponseHeaders1
  rw [if_pos h.isBroken, ← h.req, ← h.resp]
  simp [Server.env, Env.single, Server.content, callHandler, World.emit]

theorem At.answered (h : At req .responseHeaders1 false resp left w)
    (hret : (s.answer req resp).ret = phlOk) :
    ∃ w', phlRequestRun s.env w = some w' ∧ At req .responseHeaders2 false
      { (s.answer req resp).resp with
        contentOriginalLength := (s.answer req resp).resp.contentLength }
      (s.answer req resp).left w' := by
  have hstep := @headers1_step s req resp left w h
  rw [hret] at hstep
  exact ⟨_, run_next h.closed h.confPath (h.notDone (by decide)) hstep
    (by rw [h.confPath]; exact Option.some_ne_none 0),
    h.ctl, h.closed, h.confPath, by rw [h.state]; rfl, h.isBroken, h.req, rfl, rfl⟩

theorem At.broken (h : At req .responseHeaders1 false resp left w) (hcode : 0 < code)
    (hret : (s.answer req resp).ret = code) :
    ∃ w', phlRequestRun s.env w = some w' ∧ At req .responseHeaders1 true
      { (s.answer req resp).resp with
        statusCode := code
        contentOriginalLength := (s.answer req resp).resp.contentLength }
      (s.answer req resp).left w' := by
  have hstep := @headers1_step s req resp left w h
  rw [hret] at hstep
  exact ⟨_, run_break hcode h.closed h.confPath (h.notDone (by decide)) hstep
    (by rw [h.confPath]; exact Option.some_ne_none 0),
    h.ctl, h.closed, h.confPath, rfl, rfl, h.req, rfl, rfl⟩

theorem At.page (h : At req .responseHeaders1 true resp left w) (hstr : resp.easyStrLen = 0)
    (hfd : resp.easyFd = 0) :
    ∃ w', phlRequestRun s.env w = some w' ∧ At req .responseHeaders2 true
      { resp with
        contentLength := (phlRequestSimpleResponseBody s.lib resp.statusCode).length
        contentOriginalLength := (phlRequestSimpleResponseBody s.lib resp.statusCode).length }
      left w' := by
  have hstep := @headers1_page _ _ s.env 0 w h.state h.isBroken (by rw [h.resp]; exact hstr)
    (by rw [h.resp]; exact hfd)
  exact ⟨_, run_next h.closed h.confPath (h.notDone (by decide)) hstep
    (by rw [h.confPath]; exact Option.some_ne_none 0),
    h.ctl, h.closed, h.confPath, by rw [h.state]; rfl, h.isBroken, h.req, by rw [← h.resp]; rfl,
    h.left⟩

theorem At.fd (h : At req .responseHeaders1 true resp left w) (hfd : resp.easyFd ≠ 0) :
    ∃ w', phlRequestRun s.env w = some w' ∧ At req .responseHeaders2 true
      { resp with contentOriginalLength := resp.contentLength } left w' := by
  have hstep := @headers1_fd _ _ s.env 0 w h.state h.isBroken (by rw [h.resp]; exact hfd)
  exact ⟨_, run_next h.closed h.confPath (h.notDone (by decide)) hstep
    (by rw [h.confPath]; exact Option.some_ne_none 0),
    h.ctl, h.closed, h.confPath, by rw [h.state]; rfl, h.isBroken, h.req, by rw [← h.resp], h.left⟩

end Start

section Production

variable {W V : Type} {env : Env W V} {p : PathId} {w : World W V} {offers : Nat → Nat}
  {body other : Bytes}

/-- Production does not come to two bodies. -/
theorem resumes_unique (h : ResumesBody env p offers w body)
    (hother : ResumesBody env p offers w other) : body = other := by
  induction h using ResumesBody.induct generalizing other with
  | last offers w w' data hpiece hfits =>
    obtain ⟨data', isLast, w'', hpiece', -, hlast⟩ := hother.first
    rw [hpiece] at hpiece'
    cases hpiece'
    exact (hlast rfl).symm
  | more offers w w' data rest hpiece hfits hrest ih =>
    obtain ⟨rounds, pieces, hmade, rfl, hall⟩ := hother
    cases rounds with
    | zero => cases hmade
    | succ rounds =>
      unfold produce at hmade
      rw [hpiece] at hmade
      obtain ⟨⟨pieces', isLast⟩, hmade', heq⟩ := Option.map_eq_some_iff.mp hmade
      cases heq
      rw [List.flatten_cons, ih ⟨rounds, pieces', hmade', rfl, fun i => hall (i + 1)⟩]

/-- The page of a status code comes whole where it leaves room for the NUL. -/
theorem page_resumes_iff (hoffers : ∀ i, 0 < offers i ∧ offers i < 2 ^ 31)
    (hbroken : w.r.isBroken = true) (hstr : w.r.resp.easyStrLen = 0) (hfd : w.r.resp.easyFd = 0)
    (hzero : w.r.resp.contentGeneratedLength = 0)
    (hannounced : w.r.resp.contentOriginalLength =
      (phlRequestSimpleResponseBody env.lib w.r.resp.statusCode).length) :
    ResumesBody env p offers w (phlRequestSimpleResponseBody env.lib w.r.resp.statusCode) ↔
      (phlRequestSimpleResponseBody env.lib w.r.resp.statusCode).length < offers 0 := by
  have hgen : generateBody env p (offers 0) w = some (.ok (snprintf env.stale (offers 0)
      (phlRequestSimpleResponseBody env.lib w.r.resp.statusCode)), w) := by
    unfold generateBody
    dsimp only
    rw [if_neg (by rw [hstr]; decide), if_neg (by rw [hfd]; decide),
      if_neg (by rw [hbroken]; decide)]
  have hinit := phlContentLengthInit_eq
  have hoffer := hoffers 0
  constructor
  · intro hmade
    obtain ⟨data, isLast, w1, hpiece, hfits, hlast⟩ := hmade.first
    by_contra hlong
    rw [responseBodyPiece_ok (by omega) hgen] at hpiece
    cases hpiece
    rw [length_snprintf] at hfits hlast
    have hexact : offers 0 =
        (phlRequestSimpleResponseBody env.lib w.r.resp.statusCode).length := by omega
    rw [if_pos (by omega)] at hlast
    have hbody : phlRequestSimpleResponseBody env.lib w.r.resp.statusCode = _ :=
      hlast (decide_eq_true (by omega))
    rw [hexact] at hbody
    refine snprintf_ne ?_ (show (10 : UInt8) ≠ 0 by decide) hbody.symm
    by_cases hcode : w.r.resp.statusCode < 400
    · unfold phlRequestSimpleResponseBody at hexact
      rw [if_pos hcode, List.length_nil] at hexact
      omega
    · unfold phlRequestSimpleResponseBody
      rw [if_neg hcode]
      exact getLast_statusCodePage env.lib _
  · intro hfits
    refine single_resumes hoffer.2 hzero hannounced (fun _ => ⟨w, ?_⟩) (Nat.le_of_lt hfits)
    rw [hgen]
    unfold snprintf
    rw [if_pos hfits]

end Production

section Files

variable {env : Env Places Unit} {p : PathId} {w : World Places Unit} {offers : Nat → Nat}
  {length : Nat} {body : Bytes}

theorem announced_resumes_iff (hread : env.readFd = fun _ => Body.readLeft)
    (hoffers : ∀ i, 0 < offers i ∧ offers i < 2 ^ 31) (hlt : length < 2 ^ 63)
    (hat : AnnouncedFileAt length w body) (hzero : w.r.resp.contentGeneratedLength = 0) :
    ResumesBody env p offers w body ↔ length < 2 ^ 31 := by
  constructor
  · intro hmade
    by_contra hlong
    refine announcedFile_never hread hlt hmade (fun i => (hoffers i).2) hat ?_
    rw [hzero]
    exact Nat.not_lt.mp hlong
  · intro hlength
    exact (announcedFile_takesRest hread hlength).resumes (fun i => (hoffers i).1) hat

/-- A file that is sent without a length is asked for at once. -/
theorem unknown_resumes_iff (hread : env.readFd = fun _ => Body.readLeft)
    (hoffer : offers 0 < 2 ^ 31) (hstr : w.r.resp.easyStrLen = 0) (hfd : w.r.resp.easyFd ≠ 0)
    (hlength : w.r.resp.contentLength = phlContentLengthInit)
    (horiginal : w.r.resp.contentOriginalLength = phlContentLengthInit)
    (hzero : w.r.resp.contentGeneratedLength = 0) (hlt : w.env.left.length < 2 ^ 63) :
    ResumesBody env p offers w w.env.left ↔ w.env.left.length ≤ offers 0 := by
  have hinit := phlContentLengthInit_eq
  constructor
  · intro hmade
    obtain ⟨data, isLast, w1, hpiece, hfits, -⟩ := hmade.first
    have hgen := @generateBody_unknown p (offers 0) env w hread hstr hfd hlength hzero hlt
    rw [responseBodyPiece_ok (by omega) hgen] at hpiece
    cases hpiece
    exact hfits
  · intro hfits
    exact unknownFile_resumes hread hoffer hstr hfd hlength horiginal hzero hfits

end Files

section Listing

variable {es : List DirEntry} {e : DirEntry}

/-- The line that reaches the end of the buffer ends with the NUL of its `snprintf`, which no later
line writes over. -/
theorem dirLoop_nul (h : listBufferSize ≤ (dirText es).length) :
    (dirLoop es).mem (listBufferSize - 1) = some 0 := by
  have hbuffer : listBufferSize = 40960 := rfl
  induction es using List.reverseRecOn with
  | nil => exact absurd h (by decide)
  | append_singleton es e ih =>
    rw [dirText_snoc, List.length_append] at h
    rw [dirLoop_snoc]
    have hp := dirLoop_p es
    by_cases hlisted : e.listed
    · rw [if_pos hlisted] at h
      rw [dirRound_listed _ hlisted]
      unfold DirBuffer.snprintf DirBuffer.store
      dsimp only
      by_cases hfull : listBufferSize ≤ (dirText es).length
      · rw [if_neg (by omega)]
        exact ih hfull
      · have hsize : ((listBufferSize : Int) - (dirLoop es).p) =
            ((listBufferSize - (dirText es).length : Nat) : Int) := by omega
        have htake : (e.line.take (listBufferSize - (dirText es).length - 1)).length =
            listBufferSize - 1 - (dirText es).length := by
          rw [List.length_take]
          omega
        have hstored : DirBuffer.stored (listBufferSize - (dirText es).length) e.line =
            e.line.take (listBufferSize - (dirText es).length - 1) ++ [0] := if_neg (by omega)
        rw [hsize, toSize_natCast (by omega), hp, hstored, List.length_append, htake,
          List.length_singleton, if_pos ⟨by omega, by omega⟩, ← htake, List.getElem?_concat_length]
    · rw [if_neg hlisted, List.length_nil] at h
      rw [dirRound_skipped _ hlisted]
      exact ih h

theorem nul_free_dirText (h : ∀ e ∈ es, (0 : UInt8) ∉ e.name) : (0 : UInt8) ∉ dirText es := by
  unfold dirText DirEntry.line
  intro hmem
  obtain ⟨e, he, hin⟩ := List.mem_flatMap.mp hmem
  rcases List.mem_append.mp hin with hname | hnewline
  · exact h e (List.mem_filter.mp he).1 hname
  · exact absurd (List.mem_singleton.mp hnewline) (by decide)

/-- What is copied of the buffer. -/
def listed (stale : Nat → UInt8) (es : List DirEntry) : Bytes :=
  (List.range (dirLength es).toNat).map fun i => ((dirLoop es).mem i).getD (stale i)

theorem listed_length (stale : Nat → UInt8) (es : List DirEntry) :
    (listed stale es).length = (dirLength es).toNat := by
  unfold listed
  rw [List.length_map, List.length_range]

theorem dirLength_lt (es : List DirEntry) : (dirLength es).toNat < 2 ^ 31 := by
  have hint := toInt_eq ((dirLoop es).p : Int)
  unfold dirLength
  omega

/-- The lines are copied as they are where they are shorter than the buffer. -/
theorem listed_eq_iff (stale : Nat → UInt8) (h : ∀ e ∈ es, (0 : UInt8) ∉ e.name) :
    listed stale es = dirText es ↔ (dirText es).length < listBufferSize := by
  constructor
  · intro heq
    by_contra hlong
    have hfull := Nat.not_lt.mp hlong
    have hnul := dirLoop_nul hfull
    have hlast : listBufferSize - 1 < (dirText es).length :=
      Nat.lt_of_lt_of_le (by decide) hfull
    have hat : (dirText es)[listBufferSize - 1]? = some 0 := by
      rw [← heq] at hlast ⊢
      unfold listed at hlast ⊢
      rw [List.length_map] at hlast
      rw [List.getElem?_map, List.getElem?_eq_getElem hlast, Option.map_some, List.getElem_range,
        hnul, Option.getD_some]
    exact nul_free_dirText h (List.mem_of_getElem? hat)
  · intro hfits
    have hlisted := (dirListed_iff_text es).mpr hfits
    have hlength : (dirLength es).toNat = (dirText es).length := by
      rw [hlisted.length, Int.toNat_natCast]
    apply List.ext_getElem?
    intro i
    by_cases hi : i < (dirText es).length
    · unfold listed
      rw [hlength, List.getElem?_map, List.getElem?_range hi, Option.map_some,
        hlisted.complete i hi, List.getElem?_eq_getElem hi, Option.getD_some]
    · have hout : (listed stale es).length ≤ i := by
        rw [listed_length, hlength]
        exact Nat.not_lt.mp hi
      rw [List.getElem?_eq_none hout, List.getElem?_eq_none (Nat.not_lt.mp hi)]

theorem listing_resumes_iff {W V : Type} {env : Env W V} {p : PathId} {w : World W V}
    {offers : Nat → Nat} {stale : Nat → UInt8} (hoffers : ∀ i, 0 < offers i)
    (h : ∀ e ∈ es, (0 : UInt8) ∉ e.name) (hstring : w.r.resp.easyString = listed stale es)
    (hstr : w.r.resp.easyStrLen = (dirLength es).toNat)
    (hannounced : w.r.resp.contentOriginalLength = (dirLength es).toNat)
    (hzero : w.r.resp.contentGeneratedLength = 0) :
    ResumesBody env p offers w (dirText es) ↔ (dirText es).length < listBufferSize := by
  have hmade : ResumesBody env p offers w (listed stale es) := by
    refine easyString_takesRest.resumes hoffers ⟨?_, ?_, ?_, ?_, .inl ?_⟩
    · rw [hstring, hstr, listed_length]
    · rw [hstr]
      exact dirLength_lt es
    · rw [hzero]
      exact Nat.zero_le _
    · rw [hstring, hzero, List.drop_zero]
    · rw [hannounced, hstr]
  rw [← listed_eq_iff stale h]
  constructor
  · exact fun hother => resumes_unique hmade hother
  · intro heq
    rwa [← heq]

end Listing

section Main

variable {s : Server} {isHttp2 : Bool} {req : Req} {w w1 w2 : World Places Unit}

theorem runs_cons {n : Nat} (hctl : w.ctl = .running) (hrun : phlRequestRun s.env w = some w1)
    (h : runs s.env (fun _ => true) n w1 = some w2) :
    runs s.env (fun _ => true) (n + 1) w = some w2 := by
  unfold runs
  rw [if_pos ⟨hctl, rfl⟩, hrun]
  exact h

/-- The run up to the filters of the response. -/
def Answered (s : Server) (isHttp2 : Bool) (req : Req) (asked : Served) : Prop :=
  ∃ fd n w, fd ≠ 0 ∧ runs s.env (fun _ => true) n (s.asked isHttp2 req) = some w ∧
    At req .responseHeaders2 (decide (asked.ret ≠ phlOk)) (asked.final s.http s.lib s.stale fd)
      asked.left w

theorem answered_refused (hmethod : phlStaticProcessRequestHeaders req = 405) :
    Answered s isHttp2 req .refused := by
  obtain ⟨w1, hrun1, hat1⟩ := (@asked_at s isHttp2 req).refused (s := s) hmethod
  obtain ⟨w2, hrun2, hat2⟩ := hat1.page (s := s) rfl rfl
  refine ⟨1, 2, w2, Nat.one_ne_zero, ?_, hat2⟩
  exact runs_cons rfl hrun1 (runs_cons hat1.ctl hrun2 rfl)

theorem answered_served (hmethod : phlStaticProcessRequestHeaders req = phlOk) :
    Answered s isHttp2 req (s.served req) := by
  obtain ⟨fd, hfd, hret, hresp, hleft⟩ :=
    @generate_serves s.http s.stale s.conf s.disk req s.fds hmethod
  have hserved : Static.served s.http s.conf s.disk req = s.served req := rfl
  have hanswer : phlStaticGenerateResponseHeaders s.http s.stale s.conf s.disk req .init s.fds =
    s.answer req .init := rfl
  rw [hserved, hanswer] at hret hresp hleft
  obtain ⟨w1, hrun1, hat1⟩ := (@asked_at s isHttp2 req).processHeaders (s := s) hmethod
  obtain ⟨w2, hrun2, hat2⟩ := hat1.processBody (s := s)
  by_cases hok : (s.served req).ret = phlOk
  · obtain ⟨w3, hrun3, hat3⟩ := hat2.answered (s := s) (hret.trans hok)
    refine ⟨fd, 3, w3, hfd, ?_, ?_⟩
    · exact runs_cons rfl hrun1 (runs_cons hat1.ctl hrun2 (runs_cons hat2.ctl hrun3 rfl))
    · rw [hresp, hleft] at hat3
      unfold Served.final
      rw [if_pos hok, decide_eq_false (not_not.mpr hok)]
      exact hat3
  · have hpos : 0 < (s.served req).ret := by
      cases hcase : s.served req with
      | missing => decide
      | notModified => decide
      | badRange file => exact show (0 : Int) < 416 by decide
      | refused => decide
      | _ =>
        rw [hcase] at hok
        exact absurd rfl hok
    obtain ⟨w3, hrun3, hat3⟩ := hat2.broken (s := s) hpos hret
    rw [hresp, hleft] at hat3
    unfold Answered
    rw [decide_eq_true hok]
    by_cases hfile : ((s.served req).resp s.http s.stale fd).easyFd = 0
    · have hstr : ((s.served req).resp s.http s.stale fd).easyStrLen = 0 := by
        cases hcase : s.served req with
        | listing =>
          rw [hcase] at hok
          exact absurd rfl hok
        | _ => rfl
      obtain ⟨w4, hrun4, hat4⟩ := hat3.page (s := s) hstr hfile
      refine ⟨fd, 4, w4, hfd, ?_, ?_⟩
      · exact runs_cons rfl hrun1 (runs_cons hat1.ctl hrun2
          (runs_cons hat2.ctl hrun3 (runs_cons hat3.ctl hrun4 rfl)))
      · unfold Served.final
        dsimp only
        rw [if_neg hok, if_pos hfile]
        exact hat4
    · obtain ⟨w4, hrun4, hat4⟩ := hat3.fd (s := s) hfile
      refine ⟨fd, 4, w4, hfd, ?_, ?_⟩
      · exact runs_cons rfl hrun1 (runs_cons hat1.ctl hrun2
          (runs_cons hat2.ctl hrun3 (runs_cons hat3.ctl hrun4 rfl)))
      · unfold Served.final
        dsimp only
        rw [if_neg hok, if_neg hfile]
        exact hat4

theorem exists_answered : Answered s isHttp2 req (s.served req) := by
  by_cases hmethod : req.method ≠ some (bytes "GET") ∧ req.method ≠ some (bytes "HEAD")
  · have hserved : s.served req = .refused := if_pos hmethod
    rw [hserved]
    exact answered_refused (if_pos hmethod)
  · exact answered_served (if_neg hmethod)

/-- A part is inside of its file. -/
theorem part_inside (hranges : s.http.RangesInside) {file : Inode} {first last : Nat}
    (h : s.served req = .part file first last) :
    first ≤ last ∧ last < file.content.length := by
  have hrange : ∀ other, servedRange s.http req other = .part file first last →
      first ≤ last ∧ last < file.content.length := by
    intro other hpart
    unfold servedRange at hpart
    split at hpart
    next => cases hpart
    next first' last' hparse =>
      split at hpart
      next =>
        cases hpart
        obtain ⟨range, -, hparse⟩ := Option.map_eq_some_iff.mp hparse
        exact hranges _ _ _ hparse _ (List.mem_singleton.mpr rfl)
      next => cases hpart
    next => cases hpart
  unfold Server.served Static.served at h
  split at h
  next => cases h
  next =>
    split at h
    next => cases h
    next => cases h
    next =>
      split at h
      next => cases h
      next =>
        split at h
        next => exact hrange _ h
        next => cases h

theorem final_ok {fd : Nat} {asked : Served} (hok : asked.ret = phlOk) :
    asked.final s.http s.lib s.stale fd = { asked.resp s.http s.stale fd with
      contentOriginalLength := (asked.resp s.http s.stale fd).contentLength } := if_pos hok

theorem final_page {fd : Nat} {asked : Served} (hok : asked.ret ≠ phlOk)
    (hfile : (asked.resp s.http s.stale fd).easyFd = 0) :
    asked.final s.http s.lib s.stale fd = { asked.resp s.http s.stale fd with
      statusCode := asked.ret
      contentLength := (phlRequestSimpleResponseBody s.lib asked.ret).length
      contentOriginalLength := (phlRequestSimpleResponseBody s.lib asked.ret).length } := by
  unfold Served.final
  dsimp only
  rw [if_neg hok, if_pos hfile]

theorem final_badRange {fd : Nat} {file : Inode} (hfd : fd ≠ 0) :
    (Served.badRange file).final s.http s.lib s.stale fd = { Served.fileResp s.http fd file with
      statusCode := 416
      contentOriginalLength := phlContentLengthInit } := by
  have hok : (Served.badRange file).ret ≠ phlOk := show (416 : Int) ≠ 0 by decide
  have hfile : ((Served.badRange file).resp s.http s.stale fd).easyFd ≠ 0 := hfd
  unfold Served.final
  dsimp only
  rw [if_neg hok, if_neg hfile]
  rfl

theorem final_listing {fd : Nat} {dir : Inode} :
    (Served.listing dir).final s.http s.lib s.stale fd = { Resp.init with
      headers := (Served.listing dir).headers s.http
      easyStrLen := (dirLength dir.entries).toNat
      easyString := listed s.stale dir.entries
      statusCode := 200
      contentLength := (dirLength dir.entries).toNat
      contentOriginalLength := (dirLength dir.entries).toNat } := by
  rw [final_ok rfl]
  simp only [Served.resp, phlStaticDirHeaders, listed, Served.headers, Resp.init,
    List.nil_append, List.cons_append]

theorem served_resumes {offers : Nat → Nat} {fd : Nat} {asked : Served} (hfd : fd ≠ 0)
    (hoffers : ∀ i, 0 < offers i ∧ offers i < 2 ^ 31)
    (hpart : ∀ file first last, asked = .part file first last →
      first ≤ last ∧ last < file.content.length)
    (hat : At req .responseHeaders2 (decide (asked.ret ≠ phlOk))
      (asked.final s.http s.lib s.stale fd) asked.left w) :
    ResumesBody s.env 0 offers w (asked.bytes s.lib) ↔ asked.ComesWhole s.lib (offers 0) := by
  have hread : s.env.readFd = fun _ => Body.readLeft := rfl
  have hresp := hat.resp
  have hleft := hat.left
  have hbroken := hat.isBroken
  cases asked with
  | refused =>
    rw [@final_page s fd .refused (by decide) rfl] at hresp
    have hpage := @page_resumes_iff _ _ s.env 0 w offers hoffers hbroken (by rw [hresp]; rfl)
      (by rw [hresp]; rfl) (by rw [hresp]; rfl) (by rw [hresp]; rfl)
    rw [hresp] at hpage
    exact hpage
  | missing =>
    rw [@final_page s fd .missing (by decide) rfl] at hresp
    have hpage := @page_resumes_iff _ _ s.env 0 w offers hoffers hbroken (by rw [hresp]; rfl)
      (by rw [hresp]; rfl) (by rw [hresp]; rfl) (by rw [hresp]; rfl)
    rw [hresp] at hpage
    exact hpage
  | listing dir =>
    rw [final_listing] at hresp
    exact listing_resumes_iff (fun i => (hoffers i).1) dir.names (by rw [hresp]) (by rw [hresp])
      (by rw [hresp]) (by rw [hresp]; rfl)
  | notModified =>
    rw [@final_page s fd .notModified (by decide) rfl] at hresp
    have hdone : w.r.resp.contentOriginalLength ≤ w.r.resp.contentGeneratedLength := by
      rw [hresp]
      exact Nat.le_refl 0
    exact iff_true_intro (ResumesBody.last (responseBodyPiece_done hdone) (Nat.zero_le _))
  | whole file =>
    rw [final_ok rfl] at hresp
    refine announced_resumes_iff hread hoffers file.size_lt ⟨?_, ?_, ?_, ?_, ?_, ?_⟩
      (by rw [hresp]; rfl)
    · rw [hresp]
      rfl
    · rw [hresp]
      exact hfd
    · rw [hresp]
      rfl
    · rw [hresp]
      rfl
    · rw [hleft, hresp]
      exact (List.take_length).symm
    · rw [hleft, hresp]
      exact ⟨Nat.zero_le _, Nat.le_refl _⟩
  | part file first last =>
    rw [final_ok rfl] at hresp
    obtain ⟨hle, hlt⟩ := hpart file first last rfl
    have hsize := file.size_lt
    refine announced_resumes_iff hread hoffers (by omega) ⟨?_, ?_, ?_, ?_, ?_, ?_⟩
      (by rw [hresp]; rfl)
    · rw [hresp]
      rfl
    · rw [hresp]
      exact hfd
    · rw [hresp]
      rfl
    · rw [hresp]
      rfl
    · rw [hleft, hresp]
      rfl
    · rw [hleft, hresp]
      refine ⟨Nat.zero_le _, ?_⟩
      show last - first + 1 - 0 ≤ (file.content.drop first).length
      rw [List.length_drop]
      omega
  | badRange file =>
    rw [final_badRange hfd] at hresp
    have hall := @unknown_resumes_iff s.env 0 w offers hread (hoffers 0).2 (by rw [hresp]; rfl)
      (by rw [hresp]; exact hfd) (by rw [hresp]; rfl) (by rw [hresp]) (by rw [hresp]; rfl)
      (by rw [hleft]; exact file.size_lt)
    rw [hleft] at hall
    exact hall

/-- The response says what is sent. -/
theorem final_fields {fd : Nat} {asked : Served} (hfd : fd ≠ 0)
    (hpart : ∀ file first last, asked = .part file first last →
      first ≤ last ∧ last < file.content.length) :
    (asked.final s.http s.lib s.stale fd).statusCode = asked.status ∧
      (asked.final s.http s.lib s.stale fd).headers = asked.headers s.http ∧
      (asked.final s.http s.lib s.stale fd).contentOriginalLength = asked.announced s.lib := by
  cases asked with
  | refused =>
    rw [@final_page s fd .refused (by decide) rfl]
    exact ⟨rfl, rfl, rfl⟩
  | missing =>
    rw [@final_page s fd .missing (by decide) rfl]
    exact ⟨rfl, rfl, rfl⟩
  | notModified =>
    rw [@final_page s fd .notModified (by decide) rfl]
    exact ⟨rfl, rfl, rfl⟩
  | listing dir =>
    rw [final_listing]
    exact ⟨rfl, rfl, by simp only [Served.announced]⟩
  | whole file =>
    rw [final_ok rfl]
    exact ⟨rfl, rfl, rfl⟩
  | part file first last =>
    obtain ⟨hle, hlt⟩ := hpart file first last rfl
    rw [final_ok rfl]
    refine ⟨rfl, rfl, ?_⟩
    show last - first + 1 = ((file.content.drop first).take (last - first + 1)).length
    rw [List.length_take, List.length_drop]
    omega
  | badRange file =>
    rw [final_badRange hfd]
    exact ⟨rfl, rfl, rfl⟩

end Main

section Witness

theorem sixBytes_lt : (bytes "abcdef").length < 2 ^ 63 := by decide

/-- A directory with a file of six bytes, asked for bytes 1 to 3. -/
def sixBytes : Server where
  http := ⟨fun _ size => if 3 < size then some [(1, 3)] else none, fun _ => 0, fun _ => []⟩
  lib := .plain
  stale := fun _ => 0
  conf := ⟨0, none, false⟩
  disk := ⟨fun _ name => if name = bytes "f" then some 1 else none,
    fun _ => ⟨.regular, 5, bytes "abcdef", [], sixBytes_lt, names_nil⟩⟩
  fds := ⟨0, []⟩

def rangeRequest : Req :=
  { Req.init with
    method := some (bytes "GET")
    uri := ⟨bytes "/f", some (bytes "/f"), false, none⟩
    headers := [⟨bytes "Range", bytes "bytes=1-3"⟩] }

example : (sixBytes.served rangeRequest).bytes .plain = bytes "bcd" := by with_unfolding_all rfl

end Witness

end Phorklift.Static
