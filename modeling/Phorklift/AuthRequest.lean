import Phorklift.RequestCalls
import Phorklift.UpstreamSplit

/-! The `auth_request` filter, which polls a subrequest of the request that it is to let through. -/

namespace Phorklift

open Transition Relation

/-- What `phl_auth_request_conf_post` lets pass. -/
abbrev AuthPathname := {uri : Bytes // uri.head? = some 47}

structure AuthConf where
  /-- `none` where it is NULL -/
  pathname : Option AuthPathname
  /-- how many of the path's other filters come first -/
  rank : Nat

/-- The outside of a request that has the filter, with the filter's entry of `module_ctxs`. -/
structure AuthEnv (W V : Type) where
  outer : W
  subr : Option (World W V)

inductive AuthEvent (W V : Type)
  | other (v : V)
  /-- what the filter returns, and the subrequest that it has found -/
  | answered (ret : Int) (subr : Option (World W V))

variable {W V : Type}

/-- `phl_request_subr_new`, with the headers of its father. -/
def phlRequestSubrNew (env : Env W V) (father : Request) (uri : AuthPathname) (outer : W) :
    World W V where
  r := { phlRequestNew env false with
    state := .locateConfHost
    father := .attached
    confHost := father.confHost
    confPath := father.confHost.map env.defaultPath
    req := { (phlRequestSetUri env.lib
        { Req.init with host := father.req.host, method := some (bytes "GET") } uri.1).2 with
      headers := father.req.headers } }
  recv := []
  connClosed := false
  ctl := .idle
  env := outer
  trace := []

/-- The steps of a subrequest, whose connection has no stream: it is run, and things happen outside
of it. -/
inductive SubrStep (env : Env W V) : World W V → World W V → Prop
  | call {s} : s.ctl = .idle → SubrStep env s { s with ctl := .running }
  | run {s s'} : s.ctl = .running → phlRequestRun env s = some s' → SubrStep env s s'
  | elsewhere {s} {e : W} : s.ctl = .idle → env.elsewhere s.env e →
      SubrStep env s { s with env := e }

/-- The copy of a header that the client is to see. -/
def wwwAuthenticate (subr : Resp) (resp : Resp) : Resp :=
  match phlHeaderGet subr.headers (bytes "WWW-Authenticate") with
  | none => resp
  | some h => { resp with headers := resp.headers ++ [⟨bytes "WWW-Authenticate", h.value⟩] }

def phlAuthRequestProcessHeaders (env : Env W V) (conf : AuthConf) :
    Handler (AuthEnv W V) (AuthEvent W V) := fun r x =>
  let answer (ret : Int) (resp : Resp) (subr : Option (World W V)) :
      Answer (AuthEnv W V) (AuthEvent W V) :=
    ⟨ret, r.req, resp, none, { x with subr := subr }, [.answered ret x.subr]⟩
  match conf.pathname with
  | none => ⟨phlOk, r.req, r.resp, none, x, []⟩
  | some pathname =>
    match x.subr with
    | none => answer phlAgain r.resp (some (phlRequestSubrNew env r pathname x.outer))
    | some subr =>
      if subr.r.resp.statusCode = 0 then answer phlAgain r.resp x.subr
      else if subr.r.resp.statusCode = 200 then answer phlOk r.resp none
      else if subr.r.resp.statusCode = 401 then
        answer 401 (wwwAuthenticate subr.r.resp r.resp) x.subr
      else if subr.r.resp.statusCode = 403 then answer 403 r.resp x.subr
      else answer phlError r.resp x.subr

section Outer

/-- A handler of another module. -/
def Handler.outer (f : Handler W V) : Handler (AuthEnv W V) (AuthEvent W V) := fun r x =>
  let a := f r x.outer
  ⟨a.ret, a.req, a.resp, a.redirect, { x with outer := a.env }, a.emit.map .other⟩

def Piece.outer (piece : Piece W V) (x : AuthEnv W V) : Piece (AuthEnv W V) (AuthEvent W V) :=
  ⟨piece.data, piece.isLast, { x with outer := piece.env }, piece.emit.map .other⟩

def ContentModule.outer (c : ContentModule W V) :
    ContentModule (AuthEnv W V) (AuthEvent W V) where
  processHeaders := c.processHeaders.map Handler.outer
  processBody := c.processBody.map Handler.outer
  responseHeaders := c.responseHeaders.outer
  responseBody := c.responseBody.map fun f r len x => (f r len x.outer).outer x

/-- The filters of a path with `auth_request` among them. -/
def authFilters (env : Env W V) (conf : AuthConf) (filters : FilterKind → List (Handler W V))
    (k : FilterKind) : List (Handler (AuthEnv W V) (AuthEvent W V)) :=
  let others := (filters k).map Handler.outer
  match k with
  | .processHeaders =>
    others.take conf.rank ++ phlAuthRequestProcessHeaders env conf :: others.drop conf.rank
  | _ => others

def ConfPath.withAuth (path : ConfPath W V) (env : Env W V) (conf : AuthConf) :
    ConfPath (AuthEnv W V) (AuthEvent W V) where
  reqBodyMax := path.reqBodyMax
  reqBodySync := path.reqBodySync
  filters := authFilters env conf path.filters
  bodyFilters := path.bodyFilters.map fun m r data len isLast x =>
    (m r data len isLast x.outer).outer x
  content := path.content.map ContentModule.outer

/-- What happens outside of the father: to the subrequest, and elsewhere. -/
inductive AuthElsewhere (env : Env W V) : AuthEnv W V → AuthEnv W V → Prop
  | other {x e} : env.elsewhere x.outer e → AuthElsewhere env x { x with outer := e }
  | subr {x s s'} : x.subr = some s → SubrStep env s s' →
      AuthElsewhere env x { x with subr := some s' }

/-- The environment of the father. `phl_module_request_ctx_free` sets all entries of `module_ctxs`
to NULL. -/
def authEnv (env : Env W V) (conf : PathId → AuthConf) : Env (AuthEnv W V) (AuthEvent W V) where
  path := fun p => (env.path p).withAuth env (conf p)
  defaultHost := env.defaultHost
  defaultPath := env.defaultPath
  confHostLocate := env.confHostLocate
  confPathLocate := env.confPathLocate
  dynamicGet := fun p r x =>
    let d := env.dynamicGet p r x.outer
    ⟨d.path, d.ret, d.statusCode, { x with outer := d.env }, d.emit.map .other⟩
  lib := env.lib
  makeSpace := fun size x =>
    let made := env.makeSpace size x.outer
    (made.1, { x with outer := made.2 })
  streamWindow := fun x => env.streamWindow x.outer
  readFd := fun fd len x =>
    let read := env.readFd fd len x.outer
    (read.1, { x with outer := read.2 })
  stale := env.stale
  moduleCtxFree := fun r x =>
    let freed := env.moduleCtxFree r x.outer
    (⟨freed.1, none⟩, freed.2.map .other)
  elsewhere := AuthElsewhere env

end Outer

abbrev AuthWorld (W V : Type) := World (AuthEnv W V) (AuthEvent W V)

/-- A request that the filter has not seen yet. -/
structure AuthStart (env : Env W V) (conf : PathId → AuthConf) (w : AuthWorld W V) : Prop where
  init : Init (authEnv env conf) w
  subr : w.env.subr = none

/-- The subrequest was run to its end, and its status code is and stays this. -/
structure EndsWith (env : Env W V) (s : World W V) (code : Int) : Prop where
  closed : s.r.closed = true
  final : ∀ t, ReflTransGen (SubrStep env) s t → t.r.resp.statusCode = code

/-- The filter has returned `PHL_OK` only behind a subrequest that has ended with 200. -/
def LetsAfterEnd (env : Env W V) (trace : List (Event (AuthEvent W V))) : Prop :=
  ∀ subr, .env (.answered phlOk subr) ∈ trace → ∃ s, subr = some s ∧ EndsWith env s 200

/-- The father is not run at its filters while the subrequest has the status code 200 but has not
ended. -/
def wokenAtEnd (w : AuthWorld W V) : Bool :=
  w.r.closed || w.r.state != .processHeaders ||
    w.env.subr.all fun s => s.r.closed || s.r.resp.statusCode != 200

section Subrequest

variable {env : Env W V} {s t : World W V}

/-- A request that was closed does nothing any more. -/
theorem SubrStep.closed (h : SubrStep env s t) (hclosed : s.r.closed = true) : t.r = s.r := by
  cases h with
  | call => rfl
  | run _ hrun =>
    unfold phlRequestRun at hrun
    rw [if_pos hclosed] at hrun
    cases hrun
    rfl
  | elsewhere => rfl

theorem endsWith_of_closed (env : Env W V) {code : Int} (hclosed : s.r.closed = true)
    (hcode : s.r.resp.statusCode = code) : EndsWith env s code := by
  refine ⟨hclosed, fun t hsteps => ?_⟩
  have hsame : t.r = s.r := by
    induction hsteps with
    | refl => rfl
    | tail _ hstep ih =>
      have hthen := hstep.closed (by rw [ih]; exact hclosed)
      exact hthen.trans ih
  rw [hsame]
  exact hcode

/-- A new subrequest has not been answered. -/
theorem subrNew_statusCode (env : Env W V) (father : Request) (uri : AuthPathname) (outer : W) :
    (phlRequestSubrNew env father uri outer).r.resp.statusCode = 0 := rfl

end Subrequest

section Father

variable {env : Env W V} {conf : PathId → AuthConf} {s : RequestState} {x x' : AuthEnv W V}
  {tr es : List (Event (AuthEvent W V))} {w w' : AuthWorld W V}

/-- What the filter does in a call: it is off, it lets the request through, or it does not. -/
theorem phlAuthRequestProcessHeaders_cases (env : Env W V) (conf : AuthConf) (r : Request)
    (x : AuthEnv W V) :
    let a := phlAuthRequestProcessHeaders env conf r x
    (a.env = x ∧ a.emit = []) ∨
    (∃ subr, x.subr = some subr ∧ subr.r.resp.statusCode = 200 ∧ a.env.subr = none ∧
      a.emit = [.answered phlOk (some subr)]) ∨
    ∃ ret, ret ≠ phlOk ∧ a.emit = [.answered ret x.subr] ∧
      (a.env.subr = x.subr ∨
        ∃ subr, a.env.subr = some subr ∧ subr.r.resp.statusCode = 0) := by
  dsimp only
  unfold phlAuthRequestProcessHeaders
  dsimp only
  split
  next => exact .inl ⟨rfl, rfl⟩
  next pathname _ =>
    split
    next hnone =>
      have hnew := subrNew_statusCode env r pathname x.outer
      exact .inr (.inr ⟨phlAgain, by decide, rfl, .inr ⟨_, rfl, hnew⟩⟩)
    next subr hsubr =>
      rw [hsubr]
      split
      next => exact .inr (.inr ⟨phlAgain, by decide, rfl, .inl rfl⟩)
      next =>
        split
        next hcode => exact .inr (.inl ⟨subr, rfl, hcode, rfl, rfl⟩)
        next =>
          split
          next => exact .inr (.inr ⟨401, by decide, rfl, .inl rfl⟩)
          next =>
            split
            next => exact .inr (.inr ⟨403, by decide, rfl, .inl rfl⟩)
            next => exact .inr (.inr ⟨phlError, by decide, rfl, .inl rfl⟩)

theorem LetsAfterEnd.append (h : LetsAfterEnd env tr) (hes : LetsAfterEnd env es) :
    LetsAfterEnd env (tr ++ es) := by
  intro subr hmem
  rcases List.mem_append.mp hmem with hmem | hmem
  · exact h subr hmem
  · exact hes subr hmem

theorem letsAfterEnd_other (vs : List V) :
    LetsAfterEnd env ((vs.map AuthEvent.other).map .env) := by
  intro subr hmem
  simp at hmem

theorem letsAfterEnd_single {e : Event (AuthEvent W V)} (h : ∀ v, e ≠ .env v) :
    LetsAfterEnd env [e] := by
  intro subr hmem
  exact absurd (List.mem_singleton.mp hmem).symm (h _)

theorem mem_authFilters {env : Env W V} {conf : AuthConf}
    {filters : FilterKind → List (Handler W V)} {k : FilterKind}
    {f : Handler (AuthEnv W V) (AuthEvent W V)} (h : f ∈ authFilters env conf filters k) :
    (∃ g : Handler W V, f = g.outer) ∨
      k = .processHeaders ∧ f = phlAuthRequestProcessHeaders env conf := by
  have hothers : ∀ g ∈ (filters k).map Handler.outer, ∃ g' : Handler W V, g = g'.outer := by
    intro g hg
    obtain ⟨g', -, hg'⟩ := List.mem_map.mp hg
    exact ⟨g', hg'.symm⟩
  unfold authFilters at h
  dsimp only at h
  split at h
  next =>
    rcases List.mem_append.mp h with h | h
    · exact .inl (hothers f (List.mem_of_mem_take h))
    · rcases List.mem_cons.mp h with h | h
      · exact .inr ⟨rfl, h⟩
      · exact .inl (hothers f (List.mem_of_mem_drop h))
  next => exact .inl (hothers f h)

/-- What a call can be: one that leaves the subrequest as it is or drops it, or a call of the
filter. -/
theorem authCall_cases {p : PathId} {tr' : List (Event (AuthEvent W V))}
    (hcall : Call (authEnv env conf) p s (x, tr) (x', tr')) :
    (∃ es, tr' = tr ++ es ∧ LetsAfterEnd env es ∧ (x'.subr = x.subr ∨ x'.subr = none)) ∨
    s = .processHeaders ∧ ∃ r, x' = (phlAuthRequestProcessHeaders env (conf p) r x).env ∧
      tr' = tr ++ (phlAuthRequestProcessHeaders env (conf p) r x).emit.map .env := by
  cases hcall with
  | own e he =>
    have hlets : LetsAfterEnd env [e] :=
      letsAfterEnd_single fun v hv => by rw [hv] at he; cases he
    exact .inl ⟨[e], rfl, hlets, .inl rfl⟩
  | filter k f r hf _ hs =>
    rcases mem_authFilters hf with ⟨g, rfl⟩ | ⟨rfl, rfl⟩
    · exact .inl ⟨_, rfl, letsAfterEnd_other _, .inl rfl⟩
    · exact .inr ⟨hs, r, rfl, rfl⟩
  | content c k f r hc hf =>
    obtain ⟨c', -, rfl⟩ := Option.map_eq_some_iff.mp hc
    have houter : ∃ g : Handler W V, f = g.outer := by
      cases k with
      | processHeaders =>
        obtain ⟨g, -, hg⟩ := Option.map_eq_some_iff.mp hf
        exact ⟨g, hg.symm⟩
      | processBody =>
        obtain ⟨g, -, hg⟩ := Option.map_eq_some_iff.mp hf
        exact ⟨g, hg.symm⟩
      | responseHeaders => exact ⟨_, hf.symm⟩
      | responseBody => cases hf
    obtain ⟨g, rfl⟩ := houter
    exact .inl ⟨_, rfl, letsAfterEnd_other _, .inl rfl⟩
  | source c f r len hc hf =>
    obtain ⟨c', -, rfl⟩ := Option.map_eq_some_iff.mp hc
    obtain ⟨g, -, rfl⟩ := Option.map_eq_some_iff.mp hf
    exact .inl ⟨_, rfl, letsAfterEnd_other _, .inl rfl⟩
  | bodyFilter m r data len isLast hm =>
    obtain ⟨g, -, rfl⟩ := List.mem_map.mp hm
    exact .inl ⟨_, rfl, letsAfterEnd_other _, .inl rfl⟩
  | makeSpace n => exact .inl ⟨[], (List.append_nil tr).symm, letsAfterEnd_other [], .inl rfl⟩
  | readFd fd len => exact .inl ⟨[], (List.append_nil tr).symm, letsAfterEnd_other [], .inl rfl⟩
  | dynamicGet q r => exact .inl ⟨_, rfl, letsAfterEnd_other _, .inl rfl⟩
  | ctxFree r => exact .inl ⟨_, rfl, letsAfterEnd_other _, .inr rfl⟩

/-- Before the filters the father has no subrequest. -/
def NoneEarly (s : RequestState) (x : AuthEnv W V) : Prop :=
  s.index < RequestState.processHeaders.index → x.subr = none

theorem NoneEarly.of_none (h : x.subr = none) : NoneEarly s x :=
  fun _ => h

theorem NoneEarly.call {p : PathId} {tr' : List (Event (AuthEvent W V))} (h : NoneEarly s x)
    (hcall : Call (authEnv env conf) p s (x, tr) (x', tr')) : NoneEarly s x' := by
  intro hearly
  rcases authCall_cases hcall with ⟨es, -, -, hsame | hnone⟩ | ⟨rfl, -⟩
  · exact hsame.trans (h hearly)
  · exact hnone
  · exact absurd hearly (Nat.lt_irrefl _)

theorem NoneEarly.next (h : NoneEarly s x) : NoneEarly s.next x := by
  intro hearly
  apply h
  cases s <;> simp_all [RequestState.next, RequestState.index]

theorem noneEarly_reached (h : Reachable (AuthStart env conf) (Step (authEnv env conf)) w) :
    NoneEarly w.r.state w.env := by
  apply reachable_keeps (I := fun s x _ => NoneEarly s x) _ _ _ _ _ h
  · exact fun w hw => .of_none hw.subr
  · exact fun p s x tr x' tr' hcall hi => hi.call hcall
  · exact fun s x tr hi => hi.next
  · exact fun s x tr code _ hearly => absurd hearly (by decide)
  · intro s x x' tr helse hi hearly
    have hnone := hi hearly
    cases helse with
    | other => exact hnone
    | subr hsome =>
      rw [hnone] at hsome
      cases hsome

/-- What holds while the father is run: where it comes to its filters, a subrequest with the status
code 200 has ended. -/
structure RunInv (env : Env W V) (s : RequestState) (x : AuthEnv W V)
    (tr : List (Event (AuthEvent W V))) : Prop where
  lets : LetsAfterEnd env tr
  early : NoneEarly s x
  woken : s = .processHeaders → ∀ subr, x.subr = some subr → subr.r.resp.statusCode = 200 →
    subr.r.closed = true

/-- A call of the filter. -/
theorem RunInv.filter (h : RunInv env .processHeaders x tr) (conf : AuthConf) (r : Request) :
    LetsAfterEnd env ((phlAuthRequestProcessHeaders env conf r x).emit.map .env) ∧
      ∀ subr, (phlAuthRequestProcessHeaders env conf r x).env.subr = some subr →
        subr.r.resp.statusCode = 200 → subr.r.closed = true := by
  rcases phlAuthRequestProcessHeaders_cases env conf r x with
    ⟨henv, hemit⟩ | ⟨subr, hsubr, hcode, hdrop, hemit⟩ | ⟨ret, hret, hemit, hsubr⟩
  · rw [henv, hemit]
    exact ⟨letsAfterEnd_other [], h.woken rfl⟩
  · have hends := endsWith_of_closed env (h.woken rfl subr hsubr hcode) hcode
    rw [hemit, hdrop]
    refine ⟨fun subr' hmem => ?_, fun subr' hsome => by cases hsome⟩
    cases List.mem_singleton.mp hmem
    exact ⟨subr, rfl, hends⟩
  · rw [hemit]
    refine ⟨fun subr' hmem => ?_, fun subr' hsome hcode => ?_⟩
    · cases List.mem_singleton.mp hmem
      exact absurd rfl hret
    · rcases hsubr with hsame | ⟨subr, hnew, hzero⟩
      · exact h.woken rfl subr' (hsame.symm.trans hsome) hcode
      · rw [hnew] at hsome
        cases hsome
        omega

theorem RunInv.call {p : PathId} {tr' : List (Event (AuthEvent W V))} (h : RunInv env s x tr)
    (hcall : Call (authEnv env conf) p s (x, tr) (x', tr')) : RunInv env s x' tr' := by
  have hearly := h.early.call hcall
  rcases authCall_cases hcall with ⟨es, rfl, hes, hsubr⟩ | ⟨rfl, r, rfl, rfl⟩
  · refine ⟨h.lets.append hes, hearly, fun hs subr hsome => ?_⟩
    rcases hsubr with hsame | hnone
    · exact h.woken hs subr (hsame.symm.trans hsome)
    · rw [hnone] at hsome
      cases hsome
  · obtain ⟨hes, hwoken⟩ := h.filter (conf p) r
    exact ⟨h.lets.append hes, hearly, fun _ => hwoken⟩

theorem RunInv.next (h : RunInv env s x tr) : RunInv env s.next x tr := by
  refine ⟨h.lets, h.early.next, fun hnext subr hsome => ?_⟩
  have hnone : x.subr = none := by
    apply h.early
    cases s <;> simp_all [RequestState.next, RequestState.index]
  rw [hnone] at hsome
  cases hsome

theorem RunInv.broken (h : RunInv env s x tr) (code : Int) :
    RunInv env .responseHeaders1 x (tr ++ [.broken code]) := by
  have hcode : LetsAfterEnd env [.broken code] := letsAfterEnd_single fun v hv => by cases hv
  exact ⟨h.lets.append hcode, fun hearly => absurd hearly (by decide), fun hs => by cases hs⟩

/-- Closing a request calls no filter. -/
theorem phlRequestClose_lets (h : phlRequestClose (authEnv env conf) w = some w')
    (hlets : LetsAfterEnd env w.trace) : LetsAfterEnd env w'.trace := by
  have hclosed := hlets.append (letsAfterEnd_single (e := .closed) fun v hv => by cases hv)
  have hclear : ∀ w1 : AuthWorld W V, LetsAfterEnd env w1.trace →
      LetsAfterEnd env (phlRequestClearStuff (authEnv env conf) w1).trace :=
    fun w1 hw1 => hw1.append (letsAfterEnd_other _)
  cases phlRequestClose_closes h with
  | before => exact hlets
  | attached => exact hclosed
  | cleared => exact hclear _ hclosed
  | ended =>
    have hend := hclosed.append (letsAfterEnd_single (e := .endStream) fun v hv => by cases hv)
    exact hclear _ hend
  | unended => exact hclear _ hclosed

theorem lets_step (h : StepOk (authEnv env conf) wokenAtEnd w w')
    (hearly : NoneEarly w.r.state w.env) (hlets : LetsAfterEnd env w.trace) :
    LetsAfterEnd env w'.trace := by
  obtain ⟨hstep, hok⟩ := h
  cases hstep with
  | call => exact hlets
  | run hrunning hrun =>
    by_cases hclosed : w.r.closed
    · unfold phlRequestRun at hrun
      rw [if_pos hclosed] at hrun
      cases hrun
      exact hlets
    · have hi : RunInv env w.r.state w.env w.trace := by
        refine ⟨hlets, hearly, fun hs subr hsome hcode => ?_⟩
        have hwoken := hok hrunning
        simpa [wokenAtEnd, hclosed, hs, hsome, hcode] using hwoken
      exact (phlRequestRun_keeps (I := RunInv env) (fun _ _ _ _ _ _ hcall hi => hi.call hcall)
        (fun _ _ _ hi => hi.next) (fun _ _ _ code hi => hi.broken code) hrun hi).lets
  | receive => exact hlets
  | header => exact hlets
  | headersEnd => exact hlets
  | body => exact hlets
  | elsewhere => exact hlets
  | close _ _ hclose => exact phlRequestClose_lets hclose hlets

/-- As long as the father is not run at its filters between the status code 200 of the subrequest
and its end, the filter lets no request through before its subrequest has ended with 200. -/
theorem lets_after_end
    (h : Reachable (AuthStart env conf) (StepOk (authEnv env conf) wokenAtEnd) w) :
    LetsAfterEnd env w.trace := by
  induction h with
  | start h0 =>
    intro subr hmem
    rw [h0.init.1] at hmem
    cases hmem
  | next hreach hstep ih =>
    have hearly := noneEarly_reached (hreach.mono fun _ _ hs => hs.1)
    exact lets_step hstep hearly ih

end Father

section Scripts

/-- The parts of a run between two events of the loop. -/
inductive AuthAct (W : Type)
  /-- the father is woken, behind some bytes of the client -/
  | wake (data : Bytes)
  /-- activations of the father -/
  | father (n : Nat)
  /-- what is outside of the subrequest has become `outer`, and runs it -/
  | subr (outer : W → W) (n : Nat)

def authAct (env : Env W V) (conf : PathId → AuthConf) (ok : AuthWorld W V → Bool)
    (w : AuthWorld W V) : AuthAct W → Option (AuthWorld W V)
  | .wake data =>
    if w.ctl = .idle then some { w with recv := w.recv ++ data, ctl := .running } else none
  | .father n => runs (authEnv env conf) ok n w
  | .subr outer n => w.env.subr.bind fun s =>
    if w.ctl = .idle ∧ s.ctl = .idle then
      (runs env (fun _ => true) n { s with env := outer s.env, ctl := .running }).map fun s =>
        { w with env.subr := some s }
    else none

variable {env : Env W V} {conf : PathId → AuthConf} {ok : AuthWorld W V → Bool} {s s' : World W V}
  {w w' : AuthWorld W V}

theorem subrSteps_of_runs {n : Nat} (h : runs env (fun _ => true) n s = some s') :
    ReflTransGen (SubrStep env) s s' := by
  induction n generalizing s with
  | zero =>
    cases h
    exact .refl
  | succ n ih =>
    unfold runs at h
    split at h
    next hrunning =>
      obtain ⟨t, ht, h⟩ := Option.bind_eq_some_iff.mp h
      exact (ih h).head (.run hrunning.1 ht)
    next => cases h

/-- A subrequest that something outside of it runs. -/
theorem subrSteps_of_wake {n : Nat} {outer : W} (helse : env.elsewhere s.env outer)
    (hidle : s.ctl = .idle)
    (h : runs env (fun _ => true) n { s with env := outer, ctl := .running } = some s') :
    ReflTransGen (SubrStep env) s s' := by
  have hmoved : ReflTransGen (SubrStep env) s { s with env := outer } :=
    .single (.elsewhere hidle helse)
  exact (hmoved.tail (.call hidle)).trans (subrSteps_of_runs h)

theorem reachable_subr (hw : Reachable (AuthStart env conf) (StepOk (authEnv env conf) ok) w)
    (hidle : w.ctl = .idle) (hsubr : w.env.subr = some s)
    (hsteps : ReflTransGen (SubrStep env) s s') :
    Reachable (AuthStart env conf) (StepOk (authEnv env conf) ok)
      { w with env.subr := some s' } := by
  induction hsteps with
  | refl =>
    rw [← hsubr]
    exact hw
  | tail _ hstep ih =>
    apply ih.next
    exact admits_stepOk.idle hidle rfl (.elsewhere hidle (.subr rfl hstep))

theorem authAct_subr {outer : W → W} {n : Nat} (helse : ∀ x x', env.elsewhere x x')
    (h : authAct env conf ok w (.subr outer n) = some w') : w.ctl = .idle ∧ ∃ s s',
      w.env.subr = some s ∧ ReflTransGen (SubrStep env) s s' ∧
        w' = { w with env.subr := some s' } := by
  obtain ⟨s, hs, h⟩ := Option.bind_eq_some_iff.mp h
  dsimp only at h
  split at h
  next hidle =>
    obtain ⟨s', hs', hw'⟩ := Option.map_eq_some_iff.mp h
    have hsteps := subrSteps_of_wake (helse _ _) hidle.2 hs'
    exact ⟨hidle.1, s, s', hs, hsteps, hw'.symm⟩
  next => cases h

theorem authAct_reachable {act : AuthAct W} (helse : ∀ x x', env.elsewhere x x')
    (hw : Reachable (AuthStart env conf) (StepOk (authEnv env conf) ok) w)
    (h : authAct env conf ok w act = some w') :
    Reachable (AuthStart env conf) (StepOk (authEnv env conf) ok) w' := by
  cases act with
  | wake data =>
    unfold authAct at h
    dsimp only at h
    split at h
    next hidle =>
      cases h
      have hreceive : Step (authEnv env conf) w { w with recv := w.recv ++ data } :=
        .receive data hidle
      have hreceived := hw.next (admits_stepOk.idle hidle (by rfl) hreceive)
      exact hreceived.next (admits_stepOk.call hidle)
    next => cases h
  | father n => exact reachable_runs hw h
  | subr outer n =>
    obtain ⟨hidle, s, s', hs, hsteps, rfl⟩ := authAct_subr helse h
    exact reachable_subr hw hidle hs hsteps

theorem authActs_reachable {acts : List (AuthAct W)} (helse : ∀ x x', env.elsewhere x x')
    (hw : Reachable (AuthStart env conf) (StepOk (authEnv env conf) ok) w)
    (h : runActs (authAct env conf ok) acts w = some w') :
    Reachable (AuthStart env conf) (StepOk (authEnv env conf) ok) w' := by
  induction acts generalizing w with
  | nil =>
    cases h
    exact hw
  | cons act acts ih =>
    obtain ⟨w1, hact, h⟩ := Option.bind_eq_some_iff.mp h
    exact ih (authAct_reachable helse hw hact) h

end Scripts

/-- The response headers of a proxied request, from the reads that are still to come; after an
empty one the next server is asked. -/
def proxiedHeaders : Handler (List Bytes) Unit := fun r reads =>
  match reads with
  | [] => ⟨phlAgain, r.req, r.resp, none, [], []⟩
  | data :: reads =>
    if data = [] then ⟨phlAgain, r.req, phlRequestResetResponse r.resp, none, reads, []⟩
    else
      let parsed := phlProxyParseResponseHeaders ResponseLib.lines
        ⟨r.resp.statusCode, 1, r.resp.headers, none, none⟩ data
      ⟨if parsed.2.1 < 0 then 502 else if parsed.2.2 then phlOk else phlAgain, r.req,
        { r.resp with
          statusCode := parsed.1.statusCode
          headers := parsed.1.headers
          contentLength := 0 }, none, reads, []⟩

def tokenPath (handler : Handler (List Bytes) Unit) : ConfPath (List Bytes) Unit where
  reqBodyMax := 0
  reqBodySync := false
  filters := fun _ => []
  bodyFilters := []
  content := some ⟨none, none, handler, none⟩

/-- A `Path "/auth"` that is proxied, and one that is not and asks it. -/
def tokenEnv : Env (List Bytes) Unit :=
  { Env.single (tokenPath proxiedHeaders) with
    path := fun p => tokenPath (if p = 2 then proxiedHeaders else fun r reads =>
      ⟨phlOk, r.req, { r.resp with statusCode := 200, contentLength := 0 }, none, reads, []⟩)
    confPathLocate := fun _ uri => if uri = bytes "/auth" then some 2 else some 1
    lib := .lines
    elsewhere := fun _ _ => True }

def tokenConf (p : PathId) : AuthConf :=
  ⟨if p = 1 then some ⟨bytes "/auth", rfl⟩ else none, 0⟩

def tokenRequest : AuthWorld (List Bytes) Unit where
  r := phlRequestNew (authEnv tokenEnv tokenConf) false
  recv := []
  connClosed := false
  ctl := .idle
  env := ⟨[], none⟩
  trace := []

theorem start_tokenRequest : AuthStart tokenEnv tokenConf tokenRequest :=
  ⟨⟨rfl, rfl, .inl ⟨false, rfl⟩⟩, rfl⟩

/-- A `GET` that waits for its subrequest. -/
def askToken : List (AuthAct (List Bytes)) :=
  [.wake (bytes "GET / HTTP/1.1" ++ crlf ++ crlf), .father 5]

def okLine : Bytes := bytes "HTTP/1.1 200 OK" ++ crlf

/-- What the filter has returned, with the end and the status code of the subrequest. -/
def answers (w : AuthWorld (List Bytes) Unit) : List (Int × Option (Bool × Int)) :=
  w.trace.filterMap fun
    | .env (.answered ret subr) =>
      some (ret, subr.map fun s => (s.r.closed, s.r.resp.statusCode))
    | _ => none

theorem lets_after_end_token : ∃ w,
    Reachable (AuthStart tokenEnv tokenConf)
      (StepOk (authEnv tokenEnv tokenConf) wokenAtEnd) w ∧
    answers w = [(phlAgain, none), (phlOk, some (true, 200))] ∧
    LetsAfterEnd tokenEnv w.trace := by
  have h : (runActs (authAct tokenEnv tokenConf wokenAtEnd)
      (askToken ++ [.subr (fun _ => [okLine ++ crlf]) 10, .wake [], .father 2])
      tokenRequest).map answers = some [(phlAgain, none), (phlOk, some (true, 200))] := by
    decide +kernel
  obtain ⟨w, hw, hanswers⟩ := Option.map_eq_some_iff.mp h
  have hreach := authActs_reachable (fun _ _ => trivial) (.start start_tokenRequest) hw
  exact ⟨w, hreach, hanswers, lets_after_end hreach⟩

/-- What happens up to the first line of a response for the subrequest. -/
def firstLineActs : List (AuthAct (List Bytes)) :=
  askToken ++ [.subr (fun _ => [okLine]) 6]

/-- The server of the subrequest fails, and the next one answers 403. -/
def refusedActs : List (AuthAct (List Bytes)) :=
  [.subr (fun _ => [[]]) 1, .subr (fun _ => [bytes "HTTP/1.1 403 Forbidden" ++ crlf ++ crlf]) 5]

def runToken : List (AuthAct (List Bytes)) → AuthWorld (List Bytes) Unit →
    Option (AuthWorld (List Bytes) Unit) :=
  runActs (authAct tokenEnv tokenConf fun _ => true)

theorem refused_steps {w w' : AuthWorld (List Bytes) Unit}
    (h : runToken refusedActs w = some w') : ∃ s t, w.env.subr = some s ∧
      ReflTransGen (SubrStep tokenEnv) s t ∧ w'.env.subr = some t := by
  obtain ⟨w1, h1, h⟩ := Option.bind_eq_some_iff.mp h
  obtain ⟨w2, h2, h⟩ := Option.bind_eq_some_iff.mp h
  cases h
  obtain ⟨-, s, s1, hs, hsteps, rfl⟩ := authAct_subr (fun _ _ => trivial) h1
  obtain ⟨-, s1', t, hs1, hsteps', rfl⟩ := authAct_subr (fun _ _ => trivial) h2
  cases hs1
  exact ⟨s, t, hs, hsteps.trans hsteps', rfl⟩

/-- The first line of the response lets the request through. -/
theorem lets_before_end : ∃ w s t,
    Reachable (AuthStart tokenEnv tokenConf) (Step (authEnv tokenEnv tokenConf)) w ∧
    .env (.answered phlOk (some s)) ∈ w.trace ∧ ¬LetsAfterEnd tokenEnv w.trace ∧
    s.r.closed = false ∧ ReflTransGen (SubrStep tokenEnv) s t ∧
    t.r.closed = true ∧ t.r.resp.statusCode = 403 := by
  have hrefused : ((runToken firstLineActs tokenRequest).bind fun w => (runToken refusedActs w).map
      fun w' => (w.env.subr.map fun s => s.r.closed,
        w'.env.subr.map fun s => (s.r.closed, s.r.resp.statusCode))) =
        some (some false, some (true, 403)) := by
    decide +kernel
  have hlets : ((runToken firstLineActs tokenRequest).bind fun w =>
      (runToken [.wake [71], .father 1] w).map fun w' => w'.trace) =
        (runToken firstLineActs tokenRequest).map fun w =>
          w.trace ++ [.env (.answered phlOk w.env.subr), .filter .processHeaders 0 phlOk] := by
    rfl
  obtain ⟨w1, hw1, hrefused⟩ := Option.bind_eq_some_iff.mp hrefused
  obtain ⟨w2, hw2, hfacts⟩ := Option.map_eq_some_iff.mp hrefused
  obtain ⟨s, t, hs, hsteps, ht⟩ := refused_steps hw2
  rw [hs, ht] at hfacts
  obtain ⟨hopen, hends⟩ := Prod.mk.inj hfacts
  obtain ⟨hclosed, hcode⟩ := Prod.mk.inj (Option.some.inj hends)
  rw [hw1] at hlets
  obtain ⟨w3, hw3, htrace⟩ := Option.map_eq_some_iff.mp hlets
  have hmem : .env (.answered phlOk (some s)) ∈ w3.trace := by
    dsimp only at htrace
    rw [htrace, hs]
    simp
  have hreach1 : Reachable (AuthStart tokenEnv tokenConf)
      (StepOk (authEnv tokenEnv tokenConf) fun _ => true) w1 :=
    authActs_reachable (fun _ _ => trivial) (.start start_tokenRequest) hw1
  have hreach3 := authActs_reachable (fun _ _ => trivial) hreach1 hw3
  refine ⟨w3, s, t, hreach3.mono fun _ _ hstep => hstep.1, hmem, fun hall => ?_,
    Option.some.inj hopen, hsteps, hclosed, hcode⟩
  obtain ⟨s', hs', hend⟩ := hall _ hmem
  cases hs'
  have hboth := hend.closed.symm.trans (Option.some.inj hopen)
  cases hboth

end Phorklift
