import Phorklift.UpstreamAttempts
import Phorklift.UpstreamRetry

/-! What the client is answered where the header block of the last upstream fails. -/

namespace Phorklift

open Transition PoolWorld

/-- What a call reads into its buffer for the parser. -/
def PoolWorld.readBytes {D : Type} (w : PoolWorld D) (r k : Nat) : Bytes :=
  match (w.requests r).upc with
  | .connection c =>
    ((w.pool.conns c).map fun conn => (conn.input.read 4096 k).1.map Prod.snd).getD []
  | _ => []

structure HeadWorld where
  pool : PoolWorld Bytes
  /-- what the first read behind the request has returned, in this attempt -/
  first : Nat → Bytes

def noteFirst (w : HeadWorld) (a : PoolAct) (r : Nat) : Bytes :=
  match a with
  | .headers r' (.bytes k) _ =>
    if r' = r ∧ w.first r = [] then w.pool.readBytes r k else w.first r
  | _ => w.first r

/-- The steps of the pool, with the first read of each attempt. -/
def headStep (conf : ContentConf Bytes) (w : HeadWorld) (a : PoolAct) : Option HeadWorld :=
  (poolStep conf w.pool a).map fun pool =>
    ⟨pool, fun r => if (pool.requests r).hasSentRequest then noteFirst w a r else []⟩

structure HeadStart (w : HeadWorld) : Prop where
  pool : PoolStart w.pool
  first : ∀ r, w.first r = []

/-- The read fails, or the parser does on what it gets. -/
def HeadersFail (lib : ResponseLib) (w : PoolWorld Bytes) (r : Nat) : StreamIo → Prop
  | .blocked => False
  | .fails => True
  | .bytes k => w.readBytes r k ≠ [] ∧
    (phlProxyParseResponseHeaders lib (w.requests r).state.resp (w.readBytes r k)).2.1 < 0

def NoRetryLeft {D : Type} (conf : ContentConf D) (q : UpstreamRequest D) : Prop :=
  q.retries < 0 ∨ conf.maxRetries ≤ q.retries

/-- The client gets an error of the proxy, and nothing of the upstream. -/
structure AnsweredByProxy {D : Type} (s : ContentState D) : Prop where
  phase : s.phase = .over
  statusCode : s.resp.statusCode = 502 ∨ s.resp.statusCode = 500
  headers : s.resp.headers = []

/-- Nothing of the response is there before its status code. -/
def Untold (resp : UpstreamResp Bytes) : Prop := resp.statusCode = 0 → resp.headers = []

/-- The status code is there as soon as the first read has had a whole status line. -/
def HeadBegun (lib : ResponseLib) (resp : UpstreamResp Bytes) (first : Bytes) : Prop :=
  resp.statusCode = 0 ∧ first = [] ∨
    resp.statusCode ≠ 0 ∧ 0 < (lib.httpStatusLine first).procLen

structure HeadInv (lib : ResponseLib) (q : UpstreamRequest Bytes) (first : Bytes) : Prop where
  untold : Untold q.state.resp
  unsent : q.hasSentRequest = false →
    first = [] ∧ (q.state.phase = .headers → q.state.resp.statusCode = 0)
  sent : q.hasSentRequest → q.state.phase = .headers → HeadBegun lib q.state.resp first

section Proxy

variable {lib : ResponseLib} {conf : ContentConf Bytes} {resp resp' : UpstreamResp Bytes}
  {data : Bytes}

theorem parse_statusLine (resp : UpstreamResp Bytes) (hlib : lib.Lawful)
    (hpos : 0 < (lib.httpStatusLine data).procLen) :
    (phlProxyParseResponseHeaders lib resp data).1.statusCode ≠ 0 := by
  unfold phlProxyParseResponseHeaders
  by_cases hzero : resp.statusCode = 0
  · have hnot : ¬(lib.httpStatusLine data).procLen = 0 := by omega
    have hnotNeg : ¬(lib.httpStatusLine data).procLen < 0 := by omega
    dsimp only
    rw [if_pos hzero, if_neg hnot, if_neg hnotNeg, parseHeaderLines_statusCode]
    exact hlib.statusCode data hpos
  · rw [if_neg hzero, parseHeaderLines_statusCode]
    exact hzero

theorem parse_started (lib : ResponseLib) (data : Bytes) (h : resp.statusCode ≠ 0) :
    (phlProxyParseResponseHeaders lib resp data).1.statusCode ≠ 0 := by
  unfold phlProxyParseResponseHeaders
  rw [if_neg h, parseHeaderLines_statusCode]
  exact h

theorem statusLine_nil (hlib : lib.Lawful) : (lib.httpStatusLine []).procLen ≤ 0 := by
  have hle := hlib.statusLine.le []
  rw [List.length_nil] at hle
  omega

/-- What the parser makes of a read. -/
theorem HeadBegun.read {first : Bytes} (hlib : lib.Lawful) (h : HeadBegun lib resp first)
    (data : Bytes) :
    ((phlProxyParseResponseHeaders lib resp data).1.statusCode = 0 ↔
      (lib.httpStatusLine (if first = [] then data else first)).procLen ≤ 0) ∧
    (0 ≤ (phlProxyParseResponseHeaders lib resp data).2.1 →
      (phlProxyParseResponseHeaders lib resp data).1.statusCode ≠ 0) := by
  rcases h with ⟨hzero, hempty⟩ | ⟨hstarted, hline⟩
  · rw [if_pos hempty]
    by_cases hle : (lib.httpStatusLine data).procLen ≤ 0
    · obtain ⟨hsame, hfails⟩ := parse_no_statusLine hzero hle
      rw [hsame]
      exact ⟨iff_of_true hzero hle, fun hret => by omega⟩
    · have hcode := parse_statusLine resp hlib (Int.not_le.mp hle)
      exact ⟨iff_of_false hcode hle, fun _ => hcode⟩
  · have hsome : first ≠ [] := by
      intro hempty
      have hle := statusLine_nil hlib
      rw [hempty] at hline
      omega
    have hcode := parse_started lib data hstarted
    rw [if_neg hsome]
    exact ⟨iff_of_false hcode (by omega), fun _ => hcode⟩

theorem Untold.parse (hlib : lib.Lawful) (h : Untold resp) :
    Untold (phlProxyParseResponseHeaders lib resp data).1 := by
  intro hzero
  by_cases hstarted : resp.statusCode = 0
  · by_cases hle : (lib.httpStatusLine data).procLen ≤ 0
    · rw [(parse_no_statusLine hstarted hle).1]
      exact h hstarted
    · exact absurd hzero (parse_statusLine resp hlib (by omega))
  · exact absurd hzero (parse_started lib data hstarted)

theorem build_resp (lib : ResponseLib) (resp : UpstreamResp Bytes) (data : Bytes) (bufLen : Nat) :
    ∃ d, ((phlProxyUpstreamOps lib).build resp data bufLen).1 = { resp with data := d } := by
  unfold UpstreamOps.build
  dsimp only [phlProxyUpstreamOps]
  unfold phlProxyBuildResponseBody
  split
  next => exact ⟨resp.data, rfl⟩
  next =>
    dsimp only
    split
    next => exact ⟨_, rfl⟩
    next =>
      split
      next => exact ⟨_, rfl⟩
      next => exact ⟨_, rfl⟩

/-- No handler gives the response headers without a status code. -/
theorem Untold.from (hlib : lib.Lawful) (hops : conf.ops = phlProxyUpstreamOps lib)
    (hfrom : RespFrom conf resp resp') : Untold resp → Untold resp' := by
  induction hfrom with
  | same => exact id
  | parsed resp data hparse =>
    intro h
    rw [hops] at hparse
    cases hparse
    exact h.parse hlib
  | built resp data bufLen =>
    intro h
    rw [hops]
    obtain ⟨d, hd⟩ := build_resp lib resp data bufLen
    rw [hd]
    exact h
  | coded resp hcode => exact fun _ hzero => absurd hzero hcode
  | reset s =>
    intro h
    unfold ContentState.reset
    split
    next => exact h
    next => exact fun _ => rfl
  | cleared => exact id
  | trans _ _ ih ih' => exact fun h => ih' (ih h)

end Proxy

section Rounds

variable {lib : ResponseLib} {conf : ContentConf Bytes} {s : ContentState Bytes}
  {i : UpstreamInput} {k : Nat} {round : ContentRound Bytes}

/-- What a call that does not fail has made of what it has read. -/
theorem headersRound_reads (hops : conf.ops = phlProxyUpstreamOps lib)
    (h : headersRound conf s i k = some round) (hgoes : round.failed = false) :
    (i.read 4096 k).1 = [] ∧ round.state = s ∨
      (i.read 4096 k).1 ≠ [] ∧
        0 ≤ (phlProxyParseResponseHeaders lib s.resp ((i.read 4096 k).1.map Prod.snd)).2.1 ∧
        round.state.resp =
          (phlProxyParseResponseHeaders lib s.resp ((i.read 4096 k).1.map Prod.snd)).1 := by
  unfold headersRound at h
  rw [hops] at h
  dsimp only [phlProxyUpstreamOps] at h
  split at h
  next hnil =>
    cases h
    exact .inl ⟨hnil, rfl⟩
  next hne =>
    refine .inr ⟨hne, ?_⟩
    split at h
    next =>
      cases h
      cases hgoes
    next hpos =>
      refine ⟨by omega, ?_⟩
      obtain ⟨left, -, hround⟩ := Option.map_eq_some_iff.mp h
      rw [← hround]
      split
      next => rfl
      next =>
        split
        next => rfl
        next => rfl

/-- What a call comes to where the parser fails. -/
theorem headersRound_parser_fails (hops : conf.ops = phlProxyUpstreamOps lib)
    (h : headersRound conf s i k = some round) (hne : (i.read 4096 k).1 ≠ [])
    (hfails : (phlProxyParseResponseHeaders lib s.resp
      ((i.read 4096 k).1.map Prod.snd)).2.1 < 0) :
    round.failed = true ∧ round.state.resp =
      (phlProxyParseResponseHeaders lib s.resp ((i.read 4096 k).1.map Prod.snd)).1 := by
  unfold headersRound at h
  rw [hops] at h
  dsimp only [phlProxyUpstreamOps] at h
  rw [if_neg hne, if_pos hfails] at h
  cases h
  exact ⟨rfl, rfl⟩

end Rounds

section Runs

variable {lib : ResponseLib} {conf : ContentConf Bytes} {w w' : HeadWorld} {a : PoolAct} {r : Nat}
  {picked : Picked} {io : StreamIo}

theorem readBytes_eq {p : PoolWorld Bytes} {c k : Nat} {conn : UpstreamConnection}
    (hupc : (p.requests r).upc = .connection c) (hconn : p.pool.conns c = some conn) :
    p.readBytes r k = (conn.input.read 4096 k).1.map Prod.snd := by
  unfold PoolWorld.readBytes
  rw [hupc]
  dsimp only
  rw [hconn]
  rfl

theorem noteFirst_other (h : ∀ io picked, a ≠ .headers r io picked) :
    noteFirst w a r = w.first r := by
  unfold noteFirst
  split
  next r' k picked =>
    rw [if_neg]
    rintro ⟨heq, -⟩
    exact h (.bytes k) picked (by rw [heq])
  next => rfl

theorem noteFirst_headers (k : Nat) :
    noteFirst w (.headers r (.bytes k) picked) r =
      if w.first r = [] then w.pool.readBytes r k else w.first r := by
  unfold noteFirst
  simp only [true_and]

/-- A request that has left the header phase, or has still to be sent. -/
theorem HeadInv.of_not_sent {q : UpstreamRequest Bytes} {first : Bytes} (h : Untold q.state.resp)
    (hphase : q.state.phase = .headers → q.state.resp.statusCode = 0 ∧ q.hasSentRequest = false) :
    HeadInv lib q (if q.hasSentRequest then first else []) := by
  refine ⟨h, fun hunsent => ⟨?_, fun hheaders => (hphase hheaders).1⟩, fun hsent hheaders => ?_⟩
  · rw [hunsent]
    rfl
  · rw [(hphase hheaders).2] at hsent
    cases hsent

theorem HeadInv.move {q' : UpstreamRequest Bytes} (hlib : lib.Lawful)
    (hops : conf.ops = phlProxyUpstreamOps lib)
    (h : HeadInv lib (w.pool.requests r) (w.first r)) (hmove : RequestMove conf w.pool a r q') :
    HeadInv lib q' (if q'.hasSentRequest then noteFirst w a r else []) := by
  have hfirst : (w.pool.requests r).hasSentRequest = false → w.first r = [] :=
    fun hunsent => (h.unsent hunsent).1
  have hkept : (∀ io picked, a ≠ .headers r io picked) →
      (if (w.pool.requests r).hasSentRequest then noteFirst w a r else []) = w.first r := by
    intro hother
    rw [noteFirst_other hother]
    split
    next => rfl
    next hunsent => exact (hfirst (by simpa using hunsent)).symm
  cases hmove with
  | same hother =>
    rw [hkept hother]
    exact h
  | connects c hget =>
    rw [hkept (by rw [hget]; exact nofun)]
    exact ⟨h.untold, h.unsent, h.sent⟩
  | sends sent hwrite hunsent =>
    refine ⟨h.untold, fun hno => ⟨if_neg (by rw [hno]; exact nofun), (h.unsent hunsent).2⟩,
      fun hyes hphase => .inl ⟨(h.unsent hunsent).2 hphase, ?_⟩⟩
    dsimp only at hyes ⊢
    rw [hyes, if_pos rfl, noteFirst_other (by rw [hwrite]; exact nofun), hfirst hunsent]
  | @reads k c picked conn round ha hsent hphase hupc hconn hround hgoes =>
    rw [ha, noteFirst_headers, readBytes_eq hupc hconn]
    dsimp only
    rw [if_pos hsent]
    refine ⟨Untold.from hlib hops (headersRound_resp hround) h.untold, fun hno => ?_, fun _ _ => ?_⟩
    · rw [hsent] at hno
      cases hno
    · rcases headersRound_reads hops hround hgoes with ⟨hnil, hsame⟩ | ⟨hne, hret, hresp⟩
      · have hfirst' : (if w.first r = [] then [] else w.first r) = w.first r := by
          split
          next hempty => exact hempty.symm
          next => rfl
        rw [hnil, List.map_nil, hfirst', hsame]
        exact h.sent hsent hphase
      · have hbegun := h.sent hsent hphase
        obtain ⟨hiff, hgone⟩ := hbegun.read hlib ((conn.input.read 4096 k).1.map Prod.snd)
        have hcode := hgone hret
        have hline := fun hle => hcode (hiff.mpr hle)
        rw [HeadBegun, hresp]
        exact .inr ⟨hcode, Int.not_le.mp hline⟩
  | retries state upc sent _ _ _ _ hresp hheaders =>
    exact .of_not_sent (Untold.from hlib hops hresp h.untold) hheaders
  | leaves _ hphase _ _ hresp =>
    exact .of_not_sent (Untold.from hlib hops hresp h.untold) fun hheaders => absurd hheaders hphase
  | aborts _ _ hsent hzero hresp =>
    exact .of_not_sent (Untold.from hlib hops hresp h.untold) fun _ => ⟨hzero, hsent⟩

theorem headStep_keeps (hlib : lib.Lawful) (hops : conf.ops = phlProxyUpstreamOps lib)
    (h : ∀ r, HeadInv lib (w.pool.requests r) (w.first r)) (hstep : headStep conf w a = some w')
    (r : Nat) : HeadInv lib (w'.pool.requests r) (w'.first r) := by
  obtain ⟨pool, hpool, hw'⟩ := Option.map_eq_some_iff.mp hstep
  rw [← hw']
  dsimp only
  by_cases hstart : ∃ r reqLen retries, a = .start r reqLen retries
  · obtain ⟨r₀, reqLen, retries, rfl⟩ := hstart
    have hkept : (if (w.pool.requests r).hasSentRequest then w.first r else []) = w.first r := by
      split
      next => rfl
      next hunsent => exact ((h r).unsent (by simpa using hunsent)).1.symm
    simp only [poolStep, Option.ite_none_left_eq_some] at hpool
    obtain ⟨-, hpool⟩ := hpool
    cases hpool
    have hnote : noteFirst w (.start r₀ reqLen retries) r = w.first r := rfl
    rw [hnote]
    by_cases hr : r = r₀
    · rw [hr] at hkept ⊢
      simp only [PoolWorld.setRequest, Function.update_self, hkept]
      exact ⟨(h r₀).untold, (h r₀).unsent, (h r₀).sent⟩
    · simp only [PoolWorld.setRequest, Function.update_of_ne hr, hkept]
      exact h r
  · exact (h r).move hlib hops
      (poolStep_move hpool (fun r reqLen retries heq => hstart ⟨r, reqLen, retries, heq⟩) r)

theorem head_inv (hlib : lib.Lawful) (hops : conf.ops = phlProxyUpstreamOps lib)
    (h : Reachable HeadStart (ActStep (headStep conf) fun _ _ => True) w) (r : Nat) :
    HeadInv lib (w.pool.requests r) (w.first r) := by
  refine h.invariant (I := fun w => ∀ r, HeadInv lib (w.pool.requests r) (w.first r)) ?_ ?_ r
  · intro w hw r
    rw [hw.first r, hw.pool.requests r]
    exact ⟨fun _ => rfl, fun _ => ⟨rfl, fun _ => rfl⟩, nofun⟩
  · rintro w w' hw ⟨a, -, hstep⟩
    exact headStep_keeps hlib hops hw hstep

theorem answeredByProxy_noRetry {s : ContentState Bytes} (h : Untold s.resp) :
    AnsweredByProxy s.noRetry ↔ s.resp.statusCode = 0 := by
  unfold ContentState.noRetry
  by_cases hzero : s.resp.statusCode = 0
  · rw [if_neg (not_not.mpr hzero)]
    exact ⟨fun _ => hzero, fun _ => ⟨rfl, .inl rfl, h hzero⟩⟩
  · rw [if_pos hzero]
    exact ⟨fun hanswered => (nomatch hanswered.phase), fun hcode => absurd hcode hzero⟩

theorem fail_noRetry {p p' : PoolWorld Bytes} {c : Nat} {conn : UpstreamConnection}
    (hlast : NoRetryLeft conf (p.requests r))
    (h : p.phlUpstreamContentFail conf r c conn picked = some p') :
    (p'.requests r).state = (p.requests r).state.noRetry ∧
      (p'.requests r).hasSentRequest = (p.requests r).hasSentRequest := by
  obtain ⟨q', hp', hcases⟩ := fail_cases h
  rw [hp', Function.update_self]
  rcases hcases with ⟨-, hq'⟩ | ⟨hpos, hlt, -⟩
  · rw [hq']
    exact ⟨rfl, rfl⟩
  · rcases hlast with hneg | hmax
    · omega
    · omega

theorem HeadBegun.zero_iff {resp : UpstreamResp Bytes} {first : Bytes} (hlib : lib.Lawful)
    (h : HeadBegun lib resp first) :
    resp.statusCode = 0 ↔ (lib.httpStatusLine first).procLen ≤ 0 := by
  rcases h with ⟨hzero, hempty⟩ | ⟨hstarted, hline⟩
  · rw [hempty]
    exact iff_of_true hzero (statusLine_nil hlib)
  · exact iff_of_false hstarted (by omega)

/-- Where the headers of the last upstream fail, the client is answered by the proxy exactly where
no whole status line had come. -/
theorem last_failure_answered_iff (hlib : lib.Lawful) (hops : conf.ops = phlProxyUpstreamOps lib)
    (h : Reachable HeadStart (ActStep (headStep conf) fun _ _ => True) w)
    (hfail : HeadersFail lib w.pool r io) (hlast : NoRetryLeft conf (w.pool.requests r))
    (hstep : headStep conf w (.headers r io picked) = some w') :
    AnsweredByProxy (w'.pool.requests r).state ↔ (lib.httpStatusLine (w'.first r)).procLen ≤ 0 := by
  have hinv := head_inv hlib hops h r
  obtain ⟨pool, hpool, hw'⟩ := Option.map_eq_some_iff.mp hstep
  simp only [poolStep, Option.ite_none_right_eq_some] at hpool
  obtain ⟨⟨-, hphase, hsent⟩, hpool⟩ := hpool
  obtain ⟨c, conn, hupc, hconn, hact⟩ := onConnection_some hpool
  have hbegun := hinv.sent hsent hphase
  rw [← hw']
  cases io with
  | blocked => exact hfail.elim
  | fails =>
    obtain ⟨-, hact⟩ := Option.ite_none_left_eq_some.mp hact
    obtain ⟨hstate, hsent'⟩ := fail_noRetry hlast hact
    dsimp only
    rw [hstate, hsent', if_pos hsent, answeredByProxy_noRetry hinv.untold]
    exact hbegun.zero_iff hlib
  | bytes k =>
    obtain ⟨hne, hfails⟩ := hfail
    rw [readBytes_eq hupc hconn] at hne hfails
    obtain ⟨round, hround, hact⟩ := Option.bind_eq_some_iff.mp hact
    obtain ⟨hfailed, hresp⟩ := headersRound_parser_fails hops hround
      (fun hnil => hne (by rw [hnil]; rfl)) hfails
    have huntold := Untold.from hlib hops (headersRound_resp hround) hinv.untold
    dsimp only at hact
    rw [if_pos hfailed] at hact
    obtain ⟨hstate, hsent'⟩ := fail_noRetry (by simpa [NoRetryLeft] using hlast) hact
    dsimp only at hstate hsent' ⊢
    rw [Function.update_self] at hstate hsent'
    dsimp only at hstate hsent'
    rw [hstate, hsent', if_pos hsent, answeredByProxy_noRetry huntold, hresp, noteFirst_headers,
      readBytes_eq hupc hconn]
    exact (hbegun.read hlib _).1

end Runs

def proxyOnce : ContentConf Bytes := askedOnce (phlProxyUpstreamOps ResponseLib.lines)

def noHeads : HeadWorld :=
  ⟨⟨⟨fun _ => none, 0, fun _ => [], fun _ => [], fun _ => 0⟩, fun _ => .init, []⟩, fun _ => []⟩

theorem start_noHeads : HeadStart noHeads :=
  ⟨⟨fun _ => rfl, fun _ => ⟨rfl, rfl, rfl⟩, fun _ => rfl, rfl⟩, fun _ => rfl⟩

/-- A request is sent, and the upstream answers so much before it closes. -/
def answerActs (data : Bytes) : List PoolAct :=
  [.start 0 5 0, .get 0 (.address 0 true), .write 0 (.bytes 5) .error, .answer 0 data,
    .headers 0 (.bytes 99) .error]

theorem reachable_answered {w : HeadWorld} {acts : List PoolAct}
    (h : runActs (headStep proxyOnce) acts noHeads = some w) :
    Reachable HeadStart (ActStep (headStep proxyOnce) fun _ _ => True) w :=
  (Reachable.start start_noHeads).runActs (actsMeet_of_forall acts noHeads fun _ _ => trivial) h

/-- The upstream closes without an answer. -/
theorem last_failure_answered_closed : ∃ w w',
    Reachable HeadStart (ActStep (headStep proxyOnce) fun _ _ => True) w ∧
    headStep proxyOnce w (.headers 0 .fails .error) = some w' ∧
    AnsweredByProxy (w'.pool.requests 0).state := by
  have hrun : ((runActs (headStep proxyOnce) (answerActs []) noHeads).bind fun w =>
      (headStep proxyOnce w (.headers 0 .fails .error)).map fun w' =>
        (w'.first 0, decide ((w.pool.requests 0).retries = 0))) = some ([], true) := by
    decide
  obtain ⟨w, hw, hrun⟩ := Option.bind_eq_some_iff.mp hrun
  obtain ⟨w', hw', hfirst⟩ := Option.map_eq_some_iff.mp hrun
  obtain ⟨hfirst, hretries⟩ := Prod.mk.inj hfirst
  refine ⟨w, w', reachable_answered hw, hw', ?_⟩
  have hfails : HeadersFail ResponseLib.lines w.pool 0 .fails := trivial
  apply (last_failure_answered_iff ResponseLib.lines_lawful rfl (reachable_answered hw) hfails
    ?_ hw').mpr
  · rw [hfirst]
    decide
  · exact .inr (of_decide_eq_true hretries).symm.le

/-- The upstream closes behind its first header line, which is delivered with the status code. -/
theorem last_failure_relayed : ∃ w w',
    Reachable HeadStart (ActStep (headStep proxyOnce) fun _ _ => True) w ∧
    headStep proxyOnce w (.headers 0 .fails .error) = some w' ∧
    (w'.pool.requests 0).state.phase = .body ∧ (w'.pool.requests 0).state.resp.statusCode = 200 ∧
    (w'.pool.requests 0).state.resp.headers = [⟨bytes "A", bytes "b"⟩] ∧
    ¬AnsweredByProxy (w'.pool.requests 0).state := by
  have hrun : ((runActs (headStep proxyOnce) (answerActs (bytes "HTTP/1.1 200 OK\r\nA: b\r\n"))
      noHeads).bind fun w => (headStep proxyOnce w (.headers 0 .fails .error)).map fun w' =>
        ((w'.pool.requests 0).state.phase, (w'.pool.requests 0).state.resp.statusCode,
          (w'.pool.requests 0).state.resp.headers)) =
      some (.body, 200, [⟨bytes "A", bytes "b"⟩]) := by
    decide +kernel
  obtain ⟨w, hw, hrun⟩ := Option.bind_eq_some_iff.mp hrun
  obtain ⟨w', hw', hstate⟩ := Option.map_eq_some_iff.mp hrun
  obtain ⟨hphase, hstate⟩ := Prod.mk.inj hstate
  obtain ⟨hcode, hheaders⟩ := Prod.mk.inj hstate
  refine ⟨w, w', reachable_answered hw, hw', hphase, hcode, hheaders, fun h => ?_⟩
  have hover := h.phase
  rw [hphase] at hover
  cases hover

end Phorklift
