import Phorklift.UpstreamClean
import Phorklift.UpstreamSplit

/-! What failed attempts at upstreams leave behind for the one that succeeds. -/

namespace Phorklift

open Resumable

/-- A connection to an upstream, and what its stream returns call by call. -/
structure UpstreamAttempt where
  input : UpstreamInput
  reads : List Nat

/-- It goes on to the body, which is read in so many bytes into buffers of so many. -/
structure UpstreamAnswer extends UpstreamAttempt where
  bodyReads : List (Nat × Nat)

section Retry

variable {D : Type}

/-- The state after an attempt that fails and is followed by another: the parser fails, or the
status code is one to retry for, or the stream fails after these reads. -/
def failedAttempt (conf : ContentConf D) (s : ContentState D) (a : UpstreamAttempt) :
    Option (ContentState D) :=
  (headersRounds conf a.reads s a.input).bind fun round =>
    if round.failed ∨ round.state.phase = .headers then some round.state.reset else none

def failedAttempts (conf : ContentConf D) (s : ContentState D) (failed : List UpstreamAttempt) :
    Option (ContentState D) :=
  failed.foldlM (failedAttempt conf) s

def bodyRounds (conf : ContentConf D) :
    List (Nat × Nat) → ContentState D → UpstreamInput → ContentRound D
  | [], s, i => ⟨s, i, [], false⟩
  | (bufLen, k) :: ks, s, i =>
    let round := bodyRound conf s i bufLen k
    if round.failed ∨ round.state.phase ≠ .body then round
    else bodyRounds conf ks round.state round.input

/-- What is delivered to the client. -/
structure Delivered where
  statusCode : Int
  headers : List Header
  contentLength : Option Nat
  body : Bytes

def ContentState.delivered (s : ContentState D) : Delivered :=
  ⟨s.resp.statusCode, s.resp.headers, s.resp.contentLength, s.body⟩

/-- The response that the request gets of the answer. -/
def answered (conf : ContentConf D) (s : ContentState D) (a : UpstreamAnswer) :
    Option (ContentRound D) :=
  (headersRounds conf a.reads s a.input).map fun round =>
    if round.failed ∨ round.state.phase ≠ .body then round
    else bodyRounds conf a.bodyReads round.state round.input

/-- A fresh request gets the answer, with `head` at the end of its headers, and reads all of it. -/
structure Succeeds (conf : ContentConf D) (a : UpstreamAnswer) (head direct : ContentRound D) :
    Prop where
  headers : headersRounds conf a.reads freshContent a.input = some head
  success : head.failed = false ∧ head.state.phase = .body
  body : direct = bodyRounds conf a.bodyReads head.state head.input
  goes : direct.failed = false
  complete : direct.input.all = []

/-- The answer is delivered as to a fresh request. -/
def DeliversAlike (conf : ContentConf D) (s : ContentState D) (a : UpstreamAnswer)
    (direct : ContentRound D) : Prop :=
  ∃ round, answered conf s a = some round ∧ round.failed = false ∧
    round.state.delivered = direct.state.delivered

/-- A fresh request that reads so much of it has something in `ctx->data`. -/
def UpstreamAttempt.LeavesData (conf : ContentConf D) (a : UpstreamAttempt) : Prop :=
  ∀ round, headersRounds conf a.reads freshContent a.input = some round →
    round.state.resp.data ≠ none

/-- The second is the first as far as the response goes, with `d` in `ctx->data` where the first
has nothing there. -/
structure RespLike (d : Option D) (a b : UpstreamResp D) : Prop where
  statusCode : b.statusCode = a.statusCode
  headers : b.headers = a.headers
  contentLength : b.contentLength = a.contentLength
  data : b.data = a.data.or d

structure StateLike (d : Option D) (s t : ContentState D) : Prop where
  resp : RespLike d s.resp t.resp
  phase : t.phase = s.phase
  original : t.originalLength = s.originalLength
  generated : t.generatedLength = s.generatedLength
  body : t.body = s.body

structure RoundLike (d : Option D) (x y : ContentRound D) : Prop where
  state : StateLike d x.state y.state
  input : y.input = x.input
  failed : y.failed = x.failed

/-- What the handlers of a module do depends on the response and on `ctx->data` only. -/
structure UpstreamOps.Alike (ops : UpstreamOps D) : Prop where
  parse : ∀ parse, ops.parseResponseHeaders = some parse → ∀ {d a b}, RespLike d a b → ∀ data,
    RespLike d (parse a data).1 (parse b data).1 ∧ (parse b data).2 = (parse a data).2
  /-- nothing is there before the status code -/
  unset : ∀ parse, ops.parseResponseHeaders = some parse → ∀ {a : UpstreamResp D} (data),
    (a.statusCode = 0 → a.headers = [] ∧ a.contentLength = none) →
    (parse a data).1.statusCode = 0 →
    (parse a data).1.headers = [] ∧ (parse a data).1.contentLength = none
  bodyDone : ∀ {a b}, RespLike none a b → ∀ done, ops.isResponseBodyDone = some done →
    done b = done a
  build : ∀ {a b}, RespLike none a b → ∀ build, ops.buildResponseBody = some build →
    ∀ data bufLen, RespLike none (build a data bufLen).1 (build b data bufLen).1 ∧
      (build b data bufLen).2 = (build a data bufLen).2

section Alike

variable {conf : ContentConf D} {d d' : Option D} {s t u : ContentState D} {i : UpstreamInput}
  {k : Nat}

theorem StateLike.reset (h : StateLike d s t) : StateLike d s.reset t.reset := by
  have hcode := h.resp.statusCode
  unfold ContentState.reset
  by_cases hzero : s.resp.statusCode = 0
  · rw [if_pos hzero, if_pos (hcode.trans hzero)]
    exact h
  · rw [if_neg hzero, if_neg (fun ht => hzero (hcode.symm.trans ht))]
    exact ⟨⟨rfl, rfl, rfl, h.resp.data⟩, h.phase, h.original, rfl, h.body⟩

theorem StateLike.trans (h : StateLike d s t) (h' : StateLike d' t u) :
    StateLike (d.or d') s u := by
  refine ⟨⟨?_, ?_, ?_, ?_⟩, ?_, ?_, ?_, ?_⟩
  · exact h'.resp.statusCode.trans h.resp.statusCode
  · exact h'.resp.headers.trans h.resp.headers
  · exact h'.resp.contentLength.trans h.resp.contentLength
  · rw [h'.resp.data, h.resp.data, Option.or_assoc]
  · exact h'.phase.trans h.phase
  · exact h'.original.trans h.original
  · exact h'.generated.trans h.generated
  · exact h'.body.trans h.body

theorem headersRound_like (hops : conf.ops.Alike) (h : StateLike d s t) :
    Option.Rel (RoundLike d) (headersRound conf s i k) (headersRound conf t i k) := by
  unfold headersRound
  cases hparse : conf.ops.parseResponseHeaders with
  | none =>
    exact .some ⟨⟨⟨rfl, h.resp.headers, h.resp.contentLength, h.resp.data⟩, rfl,
      h.resp.contentLength, h.generated, h.body⟩, rfl, rfl⟩
  | some parse =>
    dsimp only
    by_cases hnil : (i.read 4096 k).1 = []
    · rw [if_pos hnil, if_pos hnil]
      exact .some ⟨h, rfl, rfl⟩
    · rw [if_neg hnil, if_neg hnil]
      obtain ⟨hresp, hsame⟩ := hops.parse parse hparse h.resp ((i.read 4096 k).1.map Prod.snd)
      have hstate : StateLike d { s with resp := (parse s.resp ((i.read 4096 k).1.map Prod.snd)).1 }
          { t with resp := (parse t.resp ((i.read 4096 k).1.map Prod.snd)).1 } :=
        ⟨hresp, h.phase, h.original, h.generated, h.body⟩
      rw [hsame, hresp.statusCode]
      by_cases hneg : (parse s.resp ((i.read 4096 k).1.map Prod.snd)).2.1 < 0
      · rw [if_pos hneg, if_pos hneg]
        exact .some ⟨hstate, rfl, rfl⟩
      · rw [if_neg hneg, if_neg hneg]
        cases (i.read 4096 k).2.readNotfinish
          ((i.read 4096 k).1.drop (parse s.resp ((i.read 4096 k).1.map Prod.snd)).2.1.toNat) with
        | none => exact .none
        | some left =>
          refine .some ?_
          split
          next => exact ⟨hstate, rfl, rfl⟩
          next =>
            split
            next => exact ⟨hstate, rfl, rfl⟩
            next => exact ⟨⟨hresp, rfl, hresp.contentLength, h.generated, h.body⟩, rfl, rfl⟩

theorem headersRounds_like (hops : conf.ops.Alike) :
    ∀ (ks : List Nat) {s t : ContentState D} {i : UpstreamInput}, StateLike d s t →
      Option.Rel (RoundLike d) (headersRounds conf ks s i) (headersRounds conf ks t i) := by
  intro ks
  induction ks with
  | nil => exact fun h => .some ⟨h, rfl, rfl⟩
  | cons k ks ih =>
    intro s t i h
    have hround := headersRound_like (i := i) (k := k) hops h
    unfold headersRounds
    generalize headersRound conf s i k = x at hround ⊢
    generalize headersRound conf t i k = y at hround ⊢
    cases hround with
    | none => exact .none
    | some hlike =>
      rw [Option.bind_some, Option.bind_some, hlike.failed, hlike.state.phase]
      split
      next => exact .some hlike
      next =>
        rw [hlike.input]
        exact ih hlike.state

/-- Nothing of the response is there but what is in `ctx->data`. -/
structure Unset (s : ContentState D) : Prop where
  original : s.originalLength = none
  generated : s.generatedLength = 0
  body : s.body = []
  resp : s.resp.statusCode = 0 → s.resp.headers = [] ∧ s.resp.contentLength = none

/-- The headers leave the body alone, and a failure leaves the request where it was. -/
structure Begun (round : ContentRound D) : Prop where
  generated : round.state.generatedLength = 0
  body : round.state.body = []
  unset : round.failed = true ∨ round.state.phase = .headers →
    Unset round.state ∧ round.state.phase = .headers

theorem headersRound_begun (hops : conf.ops.Alike) (h : Unset s) (hphase : s.phase = .headers)
    {round : ContentRound D} (hround : headersRound conf s i k = some round) : Begun round := by
  unfold headersRound at hround
  cases hparse : conf.ops.parseResponseHeaders with
  | none =>
    rw [hparse] at hround
    cases hround
    exact ⟨h.generated, h.body, nofun⟩
  | some parse =>
    rw [hparse] at hround
    dsimp only at hround
    split at hround
    next =>
      cases hround
      exact ⟨h.generated, h.body, fun _ => ⟨h, hphase⟩⟩
    next =>
      have hunset : Unset { s with resp := (parse s.resp ((i.read 4096 k).1.map Prod.snd)).1 } :=
        ⟨h.original, h.generated, h.body, hops.unset parse hparse _ h.resp⟩
      split at hround
      next =>
        cases hround
        exact ⟨h.generated, h.body, fun _ => ⟨hunset, hphase⟩⟩
      next =>
        obtain ⟨left, -, hleft⟩ := Option.map_eq_some_iff.mp hround
        subst hleft
        split
        next => exact ⟨h.generated, h.body, fun _ => ⟨hunset, hphase⟩⟩
        next =>
          split
          next => exact ⟨h.generated, h.body, fun _ => ⟨hunset, hphase⟩⟩
          next => exact ⟨h.generated, h.body, nofun⟩

theorem headersRounds_begun (hops : conf.ops.Alike) :
    ∀ (ks : List Nat) {s : ContentState D} {i : UpstreamInput} {round : ContentRound D},
      Unset s → s.phase = .headers → headersRounds conf ks s i = some round → Begun round := by
  intro ks
  induction ks with
  | nil =>
    intro s i round h hphase hround
    cases hround
    exact ⟨h.generated, h.body, fun _ => ⟨h, hphase⟩⟩
  | cons k ks ih =>
    intro s i round h hphase hround
    unfold headersRounds at hround
    obtain ⟨first, hfirst, hround⟩ := Option.bind_eq_some_iff.mp hround
    have hbegun := headersRound_begun hops h hphase hfirst
    split at hround
    next =>
      cases hround
      exact hbegun
    next hgoes =>
      have hheaders : first.state.phase = .headers := by
        by_contra hne
        exact hgoes (Or.inr hne)
      obtain ⟨hunset, -⟩ := hbegun.unset (Or.inr hheaders)
      exact ih hunset hheaders hround

theorem freshContent_unset : Unset (freshContent : ContentState D) :=
  ⟨rfl, rfl, rfl, fun _ => ⟨rfl, rfl⟩⟩

/-- What is left of a response that is reset is in `ctx->data`. -/
theorem Unset.reset (h : Unset s) (hphase : s.phase = .headers) :
    StateLike s.resp.data freshContent s.reset := by
  unfold ContentState.reset
  by_cases hzero : s.resp.statusCode = 0
  · obtain ⟨hheaders, hlength⟩ := h.resp hzero
    rw [if_pos hzero]
    exact ⟨⟨hzero, hheaders, hlength, rfl⟩, hphase, h.original, h.generated, h.body⟩
  · rw [if_neg hzero]
    exact ⟨⟨rfl, rfl, rfl, rfl⟩, hphase, h.original, rfl, h.body⟩

theorem leavesData_iff {a : UpstreamAttempt} {x : ContentRound D}
    (hx : headersRounds conf a.reads freshContent a.input = some x) :
    a.LeavesData conf ↔ x.state.resp.data ≠ none := by
  unfold UpstreamAttempt.LeavesData
  rw [hx]
  exact ⟨fun hall => hall x rfl, fun hne round hround => by cases hround; exact hne⟩

theorem failedAttempt_like (hops : conf.ops.Alike) (h : StateLike d freshContent s)
    {a : UpstreamAttempt} (hfailed : failedAttempt conf s a = some t) :
    ∃ d', StateLike d' freshContent t ∧ (d' ≠ none ↔ d ≠ none ∨ a.LeavesData conf) := by
  unfold failedAttempt at hfailed
  obtain ⟨y, hy, hround⟩ := Option.bind_eq_some_iff.mp hfailed
  have hlike := headersRounds_like hops a.reads (i := a.input) h
  rw [hy] at hlike
  split at hround
  next hends =>
    cases hround
    cases hx : headersRounds conf a.reads freshContent a.input with
    | none =>
      rw [hx] at hlike
      cases hlike
    | some x =>
      rw [hx] at hlike
      cases hlike with
      | some hlike =>
        have hbegun := headersRounds_begun hops a.reads freshContent_unset rfl hx
        rw [hlike.failed, hlike.state.phase] at hends
        obtain ⟨hunset, hphase⟩ := hbegun.unset hends
        refine ⟨_, (hunset.reset hphase).trans hlike.state.reset, ?_⟩
        rw [leavesData_iff hx]
        cases x.state.resp.data with
        | none => simp
        | some => simp
  next => cases hround

theorem failedAttempts_like (hops : conf.ops.Alike) :
    ∀ (failed : List UpstreamAttempt) {d : Option D} {s t : ContentState D},
      StateLike d freshContent s → failedAttempts conf s failed = some t →
      ∃ d', StateLike d' freshContent t ∧
        (d' ≠ none ↔ d ≠ none ∨ ∃ a ∈ failed, a.LeavesData conf) := by
  intro failed
  induction failed with
  | nil =>
    intro d s t h ht
    cases ht
    exact ⟨d, h, by simp⟩
  | cons a failed ih =>
    intro d s t h ht
    unfold failedAttempts at ht
    rw [List.foldlM_cons] at ht
    obtain ⟨u, hu, hrest⟩ := Option.bind_eq_some_iff.mp ht
    obtain ⟨e, hlike, he⟩ := failedAttempt_like hops h hu
    obtain ⟨d', hlike', hd'⟩ := ih hlike hrest
    refine ⟨d', hlike', ?_⟩
    rw [hd', he]
    simp [or_assoc]

theorem StateLike.bodyEnd (h : StateLike d s t) (made : Bytes) (len : Nat) :
    StateLike d (bodyEnd s made len) (bodyEnd t made len) := by
  unfold Phorklift.bodyEnd
  dsimp only
  rw [h.original, h.generated, h.body]
  exact ⟨h.resp, rfl, rfl, rfl, rfl⟩

theorem StateLike.skipsGenerate (h : StateLike d s t) : t.skipsGenerate = s.skipsGenerate := by
  unfold ContentState.skipsGenerate
  rw [h.original, h.generated]

theorem bodyRound_like (hops : conf.ops.Alike) (h : StateLike none s t) (bufLen : Nat) :
    RoundLike none (bodyRound conf s i bufLen k) (bodyRound conf t i bufLen k) := by
  have hdone : conf.ops.bodyDone t = conf.ops.bodyDone s := by
    unfold UpstreamOps.bodyDone
    cases hisDone : conf.ops.isResponseBodyDone with
    | none => rfl
    | some done => exact hops.bodyDone h.resp done hisDone
  have hbuild : ∀ data, RespLike none (conf.ops.build s.resp data bufLen).1
      (conf.ops.build t.resp data bufLen).1 ∧
      (conf.ops.build t.resp data bufLen).2 = (conf.ops.build s.resp data bufLen).2 := by
    intro data
    unfold UpstreamOps.build
    cases hbuild : conf.ops.buildResponseBody with
    | none => exact ⟨h.resp, rfl⟩
    | some build => exact hops.build h.resp build hbuild data bufLen
  unfold bodyRound
  rw [h.skipsGenerate, hdone]
  split
  next => exact ⟨⟨h.resp, rfl, h.original, h.generated, h.body⟩, rfl, rfl⟩
  next =>
    split
    next => exact ⟨h.bodyEnd [] 0, rfl, rfl⟩
    next =>
      dsimp only
      split
      next => exact ⟨h, rfl, rfl⟩
      next =>
        obtain ⟨hresp, hsame⟩ := hbuild ((i.read bufLen k).1.map Prod.snd)
        have hstate : StateLike none
            { s with resp := (conf.ops.build s.resp ((i.read bufLen k).1.map Prod.snd) bufLen).1 }
            { t with resp := (conf.ops.build t.resp ((i.read bufLen k).1.map Prod.snd) bufLen).1 } :=
          ⟨hresp, h.phase, h.original, h.generated, h.body⟩
        rw [hsame]
        split
        next => exact ⟨hstate, rfl, rfl⟩
        next =>
          split
          next => exact ⟨hstate, rfl, rfl⟩
          next => exact ⟨hstate.bodyEnd _ _, rfl, rfl⟩

theorem bodyRounds_like (hops : conf.ops.Alike) :
    ∀ (ks : List (Nat × Nat)) {s t : ContentState D} {i : UpstreamInput}, StateLike none s t →
      RoundLike none (bodyRounds conf ks s i) (bodyRounds conf ks t i) := by
  intro ks
  induction ks with
  | nil => exact fun h => ⟨h, rfl, rfl⟩
  | cons x ks ih =>
    intro s t i h
    have hround := bodyRound_like (i := i) (k := x.2) hops h x.1
    unfold bodyRounds
    dsimp only
    rw [hround.failed, hround.state.phase]
    split
    next => exact hround
    next =>
      rw [hround.input]
      exact ih hround.state

theorem StateLike.delivered (h : StateLike d s t) : t.delivered = s.delivered := by
  unfold ContentState.delivered
  rw [h.resp.statusCode, h.resp.headers, h.resp.contentLength, h.body]

/-- Where nothing is left to read nothing is made. -/
theorem bodyRound_nothing (conf : ContentConf D) (s : ContentState D) (hall : i.all = [])
    (bufLen k : Nat) : (bodyRound conf s i bufLen k).failed = false ∧
      (bodyRound conf s i bufLen k).input.all = [] ∧
      (bodyRound conf s i bufLen k).state.delivered = s.delivered := by
  have hread : (i.read bufLen k).1 ++ (i.read bufLen k).2.all = [] := by
    rw [read_all]
    exact hall
  obtain ⟨hgot, hleft⟩ := List.append_eq_nil_iff.mp hread
  unfold bodyRound
  split
  next => exact ⟨rfl, hall, rfl⟩
  next =>
    split
    next =>
      refine ⟨rfl, hall, ?_⟩
      unfold bodyEnd ContentState.delivered
      dsimp only
      rw [List.append_nil]
    next =>
      dsimp only
      rw [if_pos hgot]
      exact ⟨rfl, hleft, rfl⟩

theorem bodyRounds_nothing (conf : ContentConf D) :
    ∀ (ks : List (Nat × Nat)) (s : ContentState D) {i : UpstreamInput}, i.all = [] →
      (bodyRounds conf ks s i).failed = false ∧
        (bodyRounds conf ks s i).state.delivered = s.delivered := by
  intro ks
  induction ks with
  | nil => exact fun _ _ _ => ⟨rfl, rfl⟩
  | cons x ks ih =>
    intro s i hall
    obtain ⟨hgoes, hleft, hsame⟩ := bodyRound_nothing conf s hall x.1 x.2
    unfold bodyRounds
    dsimp only
    split
    next => exact ⟨hgoes, hsame⟩
    next =>
      obtain ⟨hmore, hrest⟩ := ih (bodyRound conf s i x.1 x.2).state hleft
      exact ⟨hmore, hrest.trans hsame⟩

variable {a : UpstreamAnswer} {head direct : ContentRound D}

/-- The answer goes on to its body after failed attempts as it does to a fresh request. -/
theorem answered_eq (hops : conf.ops.Alike) (hsucceeds : Succeeds conf a head direct)
    (h : StateLike d freshContent t) :
    ∃ y, headersRounds conf a.reads t a.input = some y ∧ RoundLike d head y ∧
      answered conf t a = some (bodyRounds conf a.bodyReads y.state y.input) := by
  have hlike := headersRounds_like hops a.reads (i := a.input) h
  rw [hsucceeds.headers] at hlike
  unfold answered
  generalize headersRounds conf a.reads t a.input = y at hlike ⊢
  cases hlike with
  | @some _ y hlike =>
    refine ⟨y, rfl, hlike, ?_⟩
    rw [Option.map_some, if_neg]
    rw [hlike.failed, hlike.state.phase, hsucceeds.success.1, hsucceeds.success.2]
    simp

/-- Nothing of the failed attempts is seen where `ctx->data` is what it is without them. -/
theorem deliversAlike_of_data (hops : conf.ops.Alike) (hsucceeds : Succeeds conf a head direct)
    (h : StateLike d freshContent t) (hdata : d = none ∨ head.state.resp.data ≠ none) :
    DeliversAlike conf t a direct := by
  obtain ⟨y, -, hlike, hanswered⟩ := answered_eq hops hsucceeds h
  have hsame : head.state.resp.data.or d = head.state.resp.data := by
    rcases hdata with hnone | hsome
    · rw [hnone, Option.or_none]
    · obtain ⟨x, hx⟩ := Option.ne_none_iff_exists'.mp hsome
      rw [hx, Option.some_or]
  have hstate : StateLike none head.state y.state := by
    refine ⟨⟨hlike.state.resp.statusCode, hlike.state.resp.headers,
      hlike.state.resp.contentLength, ?_⟩, hlike.state.phase, hlike.state.original,
      hlike.state.generated, hlike.state.body⟩
    rw [hlike.state.resp.data, hsame, Option.or_none]
  have hbody := bodyRounds_like hops a.bodyReads (i := head.input) hstate
  rw [← hsucceeds.body] at hbody
  refine ⟨_, hanswered, ?_, ?_⟩
  · rw [hlike.input, hbody.failed, hsucceeds.goes]
  · rw [hlike.input]
    exact hbody.state.delivered

/-- An answer without a body has nothing that `ctx->data` could change. -/
theorem deliversAlike_of_nothing (hops : conf.ops.Alike)
    (hsucceeds : Succeeds conf a head direct) (h : StateLike d freshContent t)
    (hall : head.input.all = []) : DeliversAlike conf t a direct := by
  obtain ⟨y, -, hlike, hanswered⟩ := answered_eq hops hsucceeds h
  have hy : y.input.all = [] := by
    rw [hlike.input]
    exact hall
  obtain ⟨hgoes, hsame⟩ := bodyRounds_nothing conf a.bodyReads y.state hy
  obtain ⟨-, hdirect⟩ := bodyRounds_nothing conf a.bodyReads head.state hall
  rw [← hsucceeds.body] at hdirect
  refine ⟨_, hanswered, hgoes, ?_⟩
  rw [hsame, hdirect, hlike.state.delivered]

/-- What the parser keeps is kept in every attempt. -/
structure ParserKeeps (conf : ContentConf D) (P : UpstreamResp D → Prop) : Prop where
  parse : ∃ parse, conf.ops.parseResponseHeaders = some parse ∧
    ∀ resp data, P resp → P (parse resp data).1
  reset : ∀ resp, P resp → P { resp with statusCode := 0, contentLength := none, headers := [] }

variable {P : UpstreamResp D → Prop}

theorem headersRound_keeps (hkeeps : ParserKeeps conf P) (h : P s.resp) {round : ContentRound D}
    (hround : headersRound conf s i k = some round) : P round.state.resp := by
  obtain ⟨parse, hparse, hparsed⟩ := hkeeps.parse
  unfold headersRound at hround
  rw [hparse] at hround
  dsimp only at hround
  split at hround
  next =>
    cases hround
    exact h
  next =>
    split at hround
    next =>
      cases hround
      exact hparsed _ _ h
    next =>
      obtain ⟨left, -, hleft⟩ := Option.map_eq_some_iff.mp hround
      subst hleft
      split
      next => exact hparsed _ _ h
      next => split <;> exact hparsed _ _ h

theorem headersRounds_keeps (hkeeps : ParserKeeps conf P) :
    ∀ (ks : List Nat) {s : ContentState D} {i : UpstreamInput} {round : ContentRound D},
      P s.resp → headersRounds conf ks s i = some round → P round.state.resp := by
  intro ks
  induction ks with
  | nil =>
    intro s i round h hround
    cases hround
    exact h
  | cons k ks ih =>
    intro s i round h hround
    unfold headersRounds at hround
    obtain ⟨first, hfirst, hround⟩ := Option.bind_eq_some_iff.mp hround
    have hkept := headersRound_keeps hkeeps h hfirst
    split at hround
    next =>
      cases hround
      exact hkept
    next => exact ih hkept hround

theorem failedAttempts_keeps (hkeeps : ParserKeeps conf P) :
    ∀ (failed : List UpstreamAttempt) {s t : ContentState D},
      P s.resp → failedAttempts conf s failed = some t → P t.resp := by
  intro failed
  induction failed with
  | nil =>
    intro s t h ht
    cases ht
    exact h
  | cons a failed ih =>
    intro s t h ht
    unfold failedAttempts at ht
    rw [List.foldlM_cons] at ht
    obtain ⟨u, hu, hrest⟩ := Option.bind_eq_some_iff.mp ht
    refine ih ?_ hrest
    unfold failedAttempt at hu
    obtain ⟨y, hy, hround⟩ := Option.bind_eq_some_iff.mp hu
    have hkept := headersRounds_keeps hkeeps a.reads h hy
    split at hround
    next =>
      cases hround
      unfold ContentState.reset
      split
      next => exact hkept
      next => exact hkeeps.reset _ hkept
    next => cases hround

/-- A request that goes on with the headers of another upstream has been reset, as `failedAttempt`
resets it. -/
theorem phlUpstreamContentFail_state {w w' : PoolWorld D} {r c : Nat} {conn : UpstreamConnection}
    {picked : Picked} (h : w.phlUpstreamContentFail conf r c conn picked = some w')
    (hphase : (w'.requests r).state.phase = .headers) :
    (w'.requests r).state = (w.requests r).state.reset := by
  unfold PoolWorld.phlUpstreamContentFail at h
  dsimp only at h
  split at h
  next =>
    cases h
    simp only [PoolWorld.setRequest, Function.update_self] at hphase
    split at hphase <;> cases hphase
  next =>
    obtain ⟨got, -, h⟩ := Option.bind_eq_some_iff.mp h
    split at h
    next =>
      cases h
      simp only [PoolWorld.setRequest, Function.update_self]
    next =>
      cases h
      simp only [PoolWorld.setRequest, Function.update_self] at hphase
      cases hphase
    next => cases h

end Alike

end Retry

section Proxy

variable {lib : ResponseLib} {d : Option Bytes} {a b : UpstreamResp Bytes}
  {conf : ContentConf Bytes} {s t : ContentState Bytes} {i : UpstreamInput} {k : Nat}

theorem phlProxyResponseHeader_like (h : HeaderLine) (line : Bytes) (hlike : RespLike d a b) :
    RespLike d (phlProxyResponseHeader h line a) (phlProxyResponseHeader h line b) := by
  unfold phlProxyResponseHeader
  dsimp only
  rw [hlike.headers]
  split
  next => exact ⟨hlike.statusCode, rfl, rfl, hlike.data⟩
  next =>
    split
    next => exact hlike
    next =>
      split
      next => exact ⟨hlike.statusCode, rfl, hlike.contentLength, rfl⟩
      next => exact ⟨hlike.statusCode, rfl, hlike.contentLength, hlike.data⟩

theorem headerLines_like (lib : ResponseLib) :
    ∀ (fuel : Nat) {a b : UpstreamResp Bytes} (data : Bytes), RespLike d a b →
      RespLike d (phlProxyResponseHeaderLines lib fuel a data).1
          (phlProxyResponseHeaderLines lib fuel b data).1 ∧
        (phlProxyResponseHeaderLines lib fuel b data).2 =
          (phlProxyResponseHeaderLines lib fuel a data).2 := by
  intro fuel
  induction fuel with
  | zero => exact fun _ h => ⟨h, rfl⟩
  | succ fuel ih =>
    intro a b data h
    unfold phlProxyResponseHeaderLines
    dsimp only
    split
    next => exact ⟨h, rfl⟩
    next =>
      split
      next => exact ⟨h, rfl⟩
      next =>
        split
        next => exact ⟨h, rfl⟩
        next => exact ih _ (phlProxyResponseHeader_like _ _ h)

theorem parseHeaderLines_like (h : RespLike d a b) (buffer : Bytes) (pos : Nat) :
    RespLike d (phlProxyParseHeaderLines lib a buffer pos).1
        (phlProxyParseHeaderLines lib b buffer pos).1 ∧
      (phlProxyParseHeaderLines lib b buffer pos).2 =
        (phlProxyParseHeaderLines lib a buffer pos).2 := by
  obtain ⟨hlike, hsame⟩ := headerLines_like lib ((buffer.drop pos).length + 1) (buffer.drop pos) h
  unfold phlProxyParseHeaderLines
  dsimp only
  generalize phlProxyResponseHeaderLines lib _ a _ = x at hlike hsame ⊢
  generalize phlProxyResponseHeaderLines lib _ b _ = y at hlike hsame ⊢
  obtain ⟨x, left⟩ := x
  obtain ⟨y, left'⟩ := y
  cases hsame
  cases left with
  | none => exact ⟨hlike, rfl⟩
  | some => exact ⟨hlike, rfl⟩

theorem parseHeaderLines_statusCode (lib : ResponseLib) (resp : UpstreamResp Bytes)
    (buffer : Bytes) (pos : Nat) :
    (phlProxyParseHeaderLines lib resp buffer pos).1.statusCode = resp.statusCode := by
  have h := headerLines_statusCode lib ((buffer.drop pos).length + 1) resp (buffer.drop pos)
  unfold phlProxyParseHeaderLines
  dsimp only
  split
  next resp' hlines =>
    rw [hlines] at h
    exact h
  next resp' left isDone hlines =>
    rw [hlines] at h
    exact h

/-- A status line has a status code. -/
def ResponseLib.GivesStatus (lib : ResponseLib) : Prop :=
  ∀ data, 0 < (lib.httpStatusLine data).procLen →
    (lib.httpStatusLine data).value.statusCode ≠ 0

theorem phlProxyUpstreamOps_alike (hstatus : lib.GivesStatus) :
    (phlProxyUpstreamOps lib).Alike where
  parse := by
    intro parse hparse d a b h data
    cases hparse
    unfold phlProxyParseResponseHeaders
    rw [h.statusCode]
    split
    next =>
      dsimp only
      split
      next => exact ⟨h, rfl⟩
      next =>
        split
        next => exact ⟨h, rfl⟩
        next =>
          have hstart : RespLike d (a.start (lib.httpStatusLine data).value)
              (b.start (lib.httpStatusLine data).value) :=
            ⟨rfl, h.headers, h.contentLength, h.data⟩
          exact parseHeaderLines_like hstart data _
    next => exact parseHeaderLines_like h data 0
  unset := by
    intro parse hparse a data hunset hzero
    cases hparse
    unfold phlProxyParseResponseHeaders at hzero ⊢
    split at hzero
    next hcode =>
      rw [if_pos hcode]
      dsimp only at hzero ⊢
      split at hzero
      next hagain =>
        rw [if_pos hagain]
        exact hunset hcode
      next hagain =>
        rw [if_neg hagain]
        split at hzero
        next herror =>
          rw [if_pos herror]
          exact hunset hcode
        next herror =>
          rw [parseHeaderLines_statusCode] at hzero
          exact absurd hzero (hstatus data (by omega))
    next hcode =>
      rw [parseHeaderLines_statusCode] at hzero
      exact absurd hzero hcode
  bodyDone := by
    intro a b h done hdone
    cases hdone
    unfold phlProxyIsResponseBodyDone
    rw [h.data, Option.or_none]
  build := by
    intro a b h build hbuild data bufLen
    cases hbuild
    unfold phlProxyBuildResponseBody
    rw [h.data, Option.or_none]
    cases a.data with
    | none => exact ⟨h, rfl⟩
    | some past =>
      have hlike : RespLike none { a with data := some (past ++ data) }
          { b with data := some (past ++ data) } :=
        ⟨h.statusCode, h.headers, h.contentLength, rfl⟩
      dsimp only
      split
      next => exact ⟨hlike, rfl⟩
      next => split <;> exact ⟨hlike, rfl⟩

/-- Without a decoder the body is what the upstream sends. -/
theorem bodyRound_plain (hops : conf.ops = phlProxyUpstreamOps lib) (hdata : s.resp.data = none)
    (bufLen : Nat) :
    (bodyRound conf s i bufLen k).state.resp = s.resp ∧
      (bodyRound conf s i bufLen k).state.body ++
          (bodyRound conf s i bufLen k).input.all.map Prod.snd =
        s.body ++ i.all.map Prod.snd := by
  have hdone : ¬conf.ops.bodyDone s = true := by
    rw [hops]
    simp [UpstreamOps.bodyDone, phlProxyUpstreamOps, phlProxyIsResponseBodyDone, hdata]
  have hbuild : ∀ data, conf.ops.build s.resp data bufLen =
      (s.resp, (data.length : Int), data) := by
    intro data
    rw [hops]
    simp [UpstreamOps.build, phlProxyUpstreamOps, phlProxyBuildResponseBody, hdata]
  have hall : (i.read bufLen k).1 ++ (i.read bufLen k).2.all = i.all := read_all
  have hread := congrArg (List.map Prod.snd) hall
  rw [List.map_append] at hread
  unfold bodyRound
  rw [if_neg hdone]
  split
  next => exact ⟨rfl, rfl⟩
  next =>
    dsimp only
    split
    next hnil =>
      rw [hnil, List.map_nil, List.nil_append] at hread
      exact ⟨rfl, by rw [hread]⟩
    next =>
      rw [hbuild]
      dsimp only
      rw [if_neg (by omega), if_neg (by omega)]
      refine ⟨rfl, ?_⟩
      unfold bodyEnd
      dsimp only
      rw [List.append_assoc, hread]

theorem bodyRounds_plain (hops : conf.ops = phlProxyUpstreamOps lib) :
    ∀ (ks : List (Nat × Nat)) {s : ContentState Bytes} {i : UpstreamInput},
      s.resp.data = none →
      (bodyRounds conf ks s i).state.body ++ (bodyRounds conf ks s i).input.all.map Prod.snd =
        s.body ++ i.all.map Prod.snd := by
  intro ks
  induction ks with
  | nil => exact fun _ => rfl
  | cons x ks ih =>
    intro s i hdata
    obtain ⟨hresp, hbytes⟩ := bodyRound_plain (i := i) (k := x.2) hops hdata x.1
    unfold bodyRounds
    dsimp only
    split
    next => exact hbytes
    next => exact (ih (by rw [hresp]; exact hdata)).trans hbytes

/-- Chunked data begins with the size of a chunk. -/
def ResponseLib.SkipsSize (lib : ResponseLib) : Prop :=
  ∀ data skip len, lib.httpChunkedDecode [] data = .data skip len → 0 < skip

theorem chunks_length (lib : ResponseLib) :
    ∀ (fuel : Nat) (past data : Bytes) {made : Bytes},
      phlProxyResponseChunks lib fuel past data = some made → made.length ≤ data.length := by
  intro fuel
  induction fuel with
  | zero =>
    intro past data made h
    cases h
    exact Nat.zero_le _
  | succ fuel ih =>
    intro past data made h
    unfold phlProxyResponseChunks at h
    split at h
    next =>
      cases h
      exact Nat.zero_le _
    next =>
      split at h
      next => cases h
      next =>
        cases h
        exact Nat.zero_le _
      next skip len _ =>
        obtain ⟨more, hmore, hmade⟩ := Option.map_eq_some_iff.mp h
        have hle := ih _ _ hmore
        rw [← hmade, List.length_append, List.length_take, List.length_drop]
        rw [List.length_drop] at hle
        omega

theorem chunks_shorter (hlib : lib.SkipsSize) {fuel : Nat} {data made : Bytes}
    (h : phlProxyResponseChunks lib fuel [] data = some made) (hne : data ≠ []) :
    made.length < data.length := by
  have hpos : 0 < data.length := List.length_pos_iff.mpr hne
  cases fuel with
  | zero =>
    cases h
    exact hpos
  | succ fuel =>
    unfold phlProxyResponseChunks at h
    rw [if_neg hne] at h
    split at h
    next => cases h
    next =>
      cases h
      exact hpos
    next skip len hdecode =>
      have hskip := hlib data skip len hdecode
      obtain ⟨more, hmore, hmade⟩ := Option.map_eq_some_iff.mp h
      have hle := chunks_length lib _ _ _ hmore
      rw [← hmade, List.length_append, List.length_take, List.length_drop]
      rw [List.length_drop] at hle
      omega

theorem build_shorter (hlib : lib.SkipsSize) {resp : UpstreamResp Bytes} {past data : Bytes}
    (hdata : resp.data = some past) (hne : data ≠ []) (bufSize : Nat) :
    (phlProxyBuildResponseBody lib resp data bufSize).1.data = some (past ++ data) ∧
      (phlProxyBuildResponseBody lib resp data bufSize).2.2.length ≤ data.length ∧
      (past = [] → (phlProxyBuildResponseBody lib resp data bufSize).2.2.length < data.length) := by
  have hpos : 0 < data.length := List.length_pos_iff.mpr hne
  unfold phlProxyBuildResponseBody
  rw [hdata]
  dsimp only
  split
  next => exact ⟨rfl, Nat.zero_le _, fun _ => hpos⟩
  next made hmade =>
    split
    next => exact ⟨rfl, Nat.zero_le _, fun _ => hpos⟩
    next =>
      refine ⟨rfl, chunks_length lib _ _ _ hmade, fun hpast => ?_⟩
      rw [hpast] at hmade
      exact chunks_shorter hlib hmade hne

/-- The decoder makes less than it has read. -/
structure Dechunks (s : ContentState Bytes) (i : UpstreamInput) (total : Nat) : Prop where
  past : ∃ past, s.resp.data = some past ∧ past.length + i.all.length = total ∧
    (s.body.length < past.length ∨ s.body = [] ∧ past = [])

theorem Dechunks.lt {total : Nat} (h : Dechunks s i total) (hpos : 0 < total) :
    s.body.length < total := by
  obtain ⟨past, -, htotal, hlt | ⟨hbody, -⟩⟩ := h.past
  · omega
  · rw [hbody]
    exact hpos

theorem bodyRound_dechunks (hlib : lib.SkipsSize) (hops : conf.ops = phlProxyUpstreamOps lib)
    {total : Nat} (h : Dechunks s i total) (bufLen : Nat) :
    Dechunks (bodyRound conf s i bufLen k).state (bodyRound conf s i bufLen k).input total := by
  obtain ⟨past, hdata, htotal, hbody⟩ := h.past
  have hall : (i.read bufLen k).1 ++ (i.read bufLen k).2.all = i.all := read_all
  have hread := congrArg List.length hall
  rw [List.length_append] at hread
  unfold bodyRound
  split
  next => exact ⟨past, hdata, htotal, hbody⟩
  next =>
    split
    next =>
      refine ⟨past, hdata, htotal, ?_⟩
      unfold bodyEnd
      dsimp only
      rw [List.append_nil]
      exact hbody
    next =>
      dsimp only
      split
      next hnil =>
        rw [hnil, List.length_nil] at hread
        exact ⟨past, hdata, by dsimp only; omega, hbody⟩
      next hne =>
        have hbuild : conf.ops.build s.resp ((i.read bufLen k).1.map Prod.snd) bufLen =
            phlProxyBuildResponseBody lib s.resp ((i.read bufLen k).1.map Prod.snd) bufLen := by
          rw [hops]
          rfl
        have hpos : 0 < (i.read bufLen k).1.length := List.length_pos_iff.mpr hne
        obtain ⟨hpast, hle, hlt⟩ := build_shorter hlib hdata
          (List.map_eq_nil_iff.not.mpr hne) bufLen
        rw [List.length_map] at hle hlt
        rw [hbuild]
        have hlen : (past ++ (i.read bufLen k).1.map Prod.snd).length +
            (i.read bufLen k).2.all.length = total := by
          rw [List.length_append, List.length_map]
          omega
        have hkept : s.body.length < (past ++ (i.read bufLen k).1.map Prod.snd).length := by
          rw [List.length_append, List.length_map]
          rcases hbody with hshort | ⟨hnil, -⟩
          · omega
          · rw [hnil, List.length_nil]
            omega
        split
        next => exact ⟨_, hpast, hlen, Or.inl hkept⟩
        next =>
          split
          next => exact ⟨_, hpast, hlen, Or.inl hkept⟩
          next =>
            refine ⟨_, hpast, hlen, Or.inl ?_⟩
            unfold bodyEnd
            dsimp only
            rw [List.length_append, List.length_append, List.length_map]
            rcases hbody with hshort | ⟨hnil, hpastNil⟩
            · omega
            · have hmade := hlt hpastNil
              rw [hnil, hpastNil, List.length_nil]
              omega

theorem bodyRounds_dechunks (hlib : lib.SkipsSize) (hops : conf.ops = phlProxyUpstreamOps lib)
    {total : Nat} :
    ∀ (ks : List (Nat × Nat)) {s : ContentState Bytes} {i : UpstreamInput}, Dechunks s i total →
      Dechunks (bodyRounds conf ks s i).state (bodyRounds conf ks s i).input total := by
  intro ks
  induction ks with
  | nil => exact fun h => h
  | cons x ks ih =>
    intro s i h
    have hround := bodyRound_dechunks (k := x.2) hlib hops h x.1
    unfold bodyRounds
    dsimp only
    split
    next => exact hround
    next => exact ih hround

/-- The decoder of a response whose headers are being read has read nothing. -/
def EmptyData (resp : UpstreamResp Bytes) : Prop := ∀ past, resp.data = some past → past = []

theorem headerLines_empty (lib : ResponseLib) :
    ∀ (fuel : Nat) {resp : UpstreamResp Bytes} (data : Bytes), EmptyData resp →
      EmptyData (phlProxyResponseHeaderLines lib fuel resp data).1 := by
  intro fuel
  induction fuel with
  | zero => exact fun _ h => h
  | succ fuel ih =>
    intro resp data h
    have hheader : ∀ header line, EmptyData (phlProxyResponseHeader header line resp) := by
      intro header line
      unfold phlProxyResponseHeader
      dsimp only
      split
      next => exact h
      next =>
        split
        next => exact h
        next =>
          split
          next =>
            intro past hpast
            cases hpast
            rfl
          next => exact h
    unfold phlProxyResponseHeaderLines
    dsimp only
    split
    next => exact h
    next =>
      split
      next => exact h
      next =>
        split
        next => exact h
        next => exact ih _ (hheader _ _)

theorem parseHeaderLines_empty {resp : UpstreamResp Bytes} (h : EmptyData resp) (buffer : Bytes)
    (pos : Nat) : EmptyData (phlProxyParseHeaderLines lib resp buffer pos).1 := by
  have hlines := headerLines_empty lib ((buffer.drop pos).length + 1) (buffer.drop pos) h
  unfold phlProxyParseHeaderLines
  dsimp only
  split
  next hleft =>
    rw [hleft] at hlines
    exact hlines
  next hleft =>
    rw [hleft] at hlines
    exact hlines

theorem proxy_keeps_empty (hops : conf.ops = phlProxyUpstreamOps lib) :
    ParserKeeps conf EmptyData where
  parse := by
    refine ⟨phlProxyParseResponseHeaders lib, by rw [hops]; rfl, fun resp data h => ?_⟩
    unfold phlProxyParseResponseHeaders
    split
    next =>
      dsimp only
      split
      next => exact h
      next =>
        split
        next => exact h
        next =>
          have hstart : EmptyData (resp.start (lib.httpStatusLine data).value) := h
          exact parseHeaderLines_empty hstart data _
    next => exact parseHeaderLines_empty h data 0
  reset := fun _ h => h

theorem proxy_deliversAlike_iff (hstatus : lib.GivesStatus) (hskips : lib.SkipsSize)
    (hops : conf.ops = phlProxyUpstreamOps lib) {failed : List UpstreamAttempt}
    {a : UpstreamAnswer} {head direct : ContentRound Bytes}
    (hfailed : failedAttempts conf freshContent failed = some t)
    (hsucceeds : Succeeds conf a head direct) :
    DeliversAlike conf t a direct ↔ (∀ f ∈ failed, ¬f.LeavesData conf) ∨
      a.toUpstreamAttempt.LeavesData conf ∨ head.input.all = [] := by
  have halike : conf.ops.Alike := by
    rw [hops]
    exact phlProxyUpstreamOps_alike hstatus
  have hfresh : StateLike none (freshContent : ContentState Bytes) freshContent :=
    ⟨⟨rfl, rfl, rfl, rfl⟩, rfl, rfl, rfl, rfl⟩
  obtain ⟨d, hlike, hd⟩ := failedAttempts_like halike failed hfresh hfailed
  have hchunked := leavesData_iff (a := a.toUpstreamAttempt) hsucceeds.headers
  constructor
  · intro hdelivers
    by_contra hnot
    have hsome : ∃ f ∈ failed, f.LeavesData conf := by
      by_contra hno
      exact hnot (Or.inl fun f hf hleaves => hno ⟨f, hf, hleaves⟩)
    have hnone : head.state.resp.data = none := by
      by_contra hne
      exact hnot (Or.inr (Or.inl (hchunked.mpr hne)))
    have hleft : head.input.all ≠ [] := fun hnil => hnot (Or.inr (Or.inr hnil))
    obtain ⟨y, hy, hround, hanswered⟩ := answered_eq halike hsucceeds hlike
    have hempty : EmptyData y.state.resp := by
      refine headersRounds_keeps (proxy_keeps_empty hops) a.reads ?_ hy
      refine failedAttempts_keeps (proxy_keeps_empty hops) failed (fun past hpast => ?_) hfailed
      cases hpast
    obtain ⟨past, hpast⟩ := Option.ne_none_iff_exists'.mp (hd.mpr (Or.inr hsome))
    have hdata : y.state.resp.data = some past := by
      rw [hround.state.resp.data, hnone, Option.none_or, hpast]
    have hpastNil := hempty past hdata
    have hheadBody : head.state.body = [] :=
      (headersRounds_begun halike a.reads freshContent_unset rfl hsucceeds.headers).body
    have hstart : Dechunks y.state y.input head.input.all.length := by
      refine ⟨past, hdata, ?_, Or.inr ⟨hround.state.body.trans hheadBody, hpastNil⟩⟩
      rw [hpastNil, hround.input, List.length_nil, Nat.zero_add]
    -- the decoder makes less than all the bytes, which are the body without it
    have hshort := (bodyRounds_dechunks hskips hops a.bodyReads hstart).lt
      (List.length_pos_iff.mpr hleft)
    have hplain := bodyRounds_plain (i := head.input) hops a.bodyReads hnone
    rw [← hsucceeds.body, hsucceeds.complete, hheadBody, List.map_nil, List.append_nil,
      List.nil_append] at hplain
    obtain ⟨round, hrun, -, hsame⟩ := hdelivers
    rw [hanswered] at hrun
    cases hrun
    have hbody := congrArg (fun x => x.body.length) hsame
    have hdirect : direct.state.body.length = head.input.all.length := by
      rw [hplain, List.length_map]
    change (bodyRounds conf a.bodyReads y.state y.input).state.body.length =
      direct.state.body.length at hbody
    omega
  · rintro (hall | hchunks | hnothing)
    · apply deliversAlike_of_data halike hsucceeds hlike
      left
      by_contra hne
      obtain hnone | ⟨f, hf, hleaves⟩ := hd.mp hne
      · exact hnone rfl
      · exact hall f hf hleaves
    · exact deliversAlike_of_data halike hsucceeds hlike (Or.inr (hchunked.mp hchunks))
    · exact deliversAlike_of_nothing halike hsucceeds hlike hnothing

end Proxy

section Redis

variable {conf : ContentConf Unit}

theorem phlRedisUpstreamOps_alike : phlRedisUpstreamOps.Alike where
  parse := by
    intro parse hparse d a b h data
    cases hparse
    unfold phlRedisParseResponseHeaders
    split
    next => exact ⟨⟨rfl, h.headers, h.contentLength, h.data⟩, rfl⟩
    next => split <;> exact ⟨⟨rfl, h.headers, h.contentLength, h.data⟩, rfl⟩
  unset := by
    intro parse hparse a data _ hzero
    cases hparse
    unfold phlRedisParseResponseHeaders at hzero
    split at hzero
    next => cases hzero
    next =>
      split at hzero
      next => cases hzero
      next => cases hzero
  bodyDone := by
    intro a b _ done hdone
    cases hdone
  build := by
    intro a b _ build hbuild
    cases hbuild

theorem redis_keeps_data (hops : conf.ops = phlRedisUpstreamOps) :
    ParserKeeps conf fun resp => resp.data = none where
  parse := by
    refine ⟨phlRedisParseResponseHeaders, by rw [hops]; rfl, fun resp data h => ?_⟩
    unfold phlRedisParseResponseHeaders
    split
    next => exact h
    next => split <;> exact h
  reset := fun _ h => h

theorem redis_deliversAlike (hops : conf.ops = phlRedisUpstreamOps)
    {failed : List UpstreamAttempt} {a : UpstreamAnswer} {t : ContentState Unit}
    {head direct : ContentRound Unit}
    (hfailed : failedAttempts conf freshContent failed = some t)
    (hsucceeds : Succeeds conf a head direct) : DeliversAlike conf t a direct := by
  have halike : conf.ops.Alike := by
    rw [hops]
    exact phlRedisUpstreamOps_alike
  have hfresh : StateLike none (freshContent : ContentState Unit) freshContent :=
    ⟨⟨rfl, rfl, rfl, rfl⟩, rfl, rfl, rfl, rfl⟩
  obtain ⟨d, hlike, -⟩ := failedAttempts_like halike failed hfresh hfailed
  apply deliversAlike_of_data halike hsucceeds hlike
  left
  have hkept := failedAttempts_keeps (redis_keeps_data hops) failed rfl hfailed
  have hdata : t.resp.data = d := hlike.resp.data
  rw [← hdata]
  exact hkept

end Redis

/-- A decoder of the size of the first chunk. -/
def firstSize (past data : Bytes) : Chunk :=
  if past ≠ [] then .none
  else match Http.takeLine data with
    | some (line, _) =>
      match Http.parseHex line with
      | some n => .data (line.length + 2) n
      | none => .error
    | none => if (data.head?.bind Http.hexValue).isNone then .error else .none

def ResponseLib.chunks : ResponseLib :=
  { ResponseLib.lines with
    httpChunkedDecode := firstSize
    httpChunkedIsFinished := fun _ => false }

theorem ResponseLib.chunks_status : ResponseLib.chunks.GivesStatus :=
  ResponseLib.lines_lawful.statusCode

theorem ResponseLib.chunks_skips : ResponseLib.chunks.SkipsSize := by
  intro data skip len h
  change firstSize [] data = .data skip len at h
  unfold firstSize at h
  rw [if_neg (by simp)] at h
  split at h
  next =>
    split at h
    next =>
      cases h
      omega
    next => cases h
  next => split at h <;> cases h

/-- A module that asks another upstream for a 503. -/
def askedTwice {D : Type} (ops : UpstreamOps D) : ContentConf D := ⟨0, 1, [503], ops⟩

def attempt503 (headers : Bytes) : UpstreamAttempt :=
  ⟨⟨none, fromUpstream (bytes "HTTP/1.1 503 No\r\n" ++ headers ++ crlf)⟩, [4096]⟩

def okAnswer : UpstreamAnswer := ⟨⟨⟨none, okWire⟩, [4096]⟩, [(4096, 4096)]⟩

def okResp (data : Option Bytes) : UpstreamResp Bytes := ⟨200, 1, [], some 2, data⟩

def okHeadRound : ContentRound Bytes :=
  ⟨⟨okResp none, .body, some 2, 0, []⟩, ⟨some (fromUpstream (bytes "hi")), []⟩, okWire, false⟩

def okDirect : ContentRound Bytes :=
  ⟨⟨okResp none, .over, some 2, 2, bytes "hi"⟩, ⟨none, []⟩, fromUpstream (bytes "hi"), false⟩

theorem okAnswer_succeeds :
    Succeeds (askedTwice (phlProxyUpstreamOps ResponseLib.chunks)) okAnswer okHeadRound okDirect where
  headers := rfl
  success := ⟨rfl, rfl⟩
  body := rfl
  goes := rfl
  complete := rfl

/-- The request after an attempt that has left `data`. -/
def after503 (data : Option Bytes) : ContentState Bytes :=
  { (freshContent : ContentState Bytes) with resp := ⟨0, 1, [], none, data⟩ }

end Phorklift
