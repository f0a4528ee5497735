import Mathlib.Logic.Relation
import Phorklift.RequestFrame

/-! The calls that a step makes into the modules and the outside, one after the other. -/

namespace Phorklift

open Relation

variable {W V : Type}

/-- Events that a step logs of itself. -/
def Event.isOwn : Event V → Bool
  | .broken _ => false
  | .env _ => false
  | _ => true

/-- The handlers of a content module that are called with the request alone. -/
def ContentModule.Has (c : ContentModule W V) (f : Handler W V) : ContentKind → Prop
  | .processHeaders => c.processHeaders = some f
  | .processBody => c.processBody = some f
  | .responseHeaders => c.responseHeaders = f
  | .responseBody => False

/-- One call, or one event of the request's own, in a step taken in state `s` under path `p`: what
it does to the outside and to the log. -/
inductive Call (env : Env W V) (p : PathId) (s : RequestState) :
    W × List (Event V) → W × List (Event V) → Prop
  | own (e : Event V) {x : W} {tr : List (Event V)} : e.isOwn = true →
      Call env p s (x, tr) (x, tr ++ [e])
  | filter (k : FilterKind) (f : Handler W V) (r : Request) {x : W} {tr : List (Event V)} :
      f ∈ (env.path p).filters k → r.state = s → s = k.state →
      Call env p s (x, tr) ((f r x).env, tr ++ (f r x).emit.map .env)
  | content (c : ContentModule W V) (k : ContentKind) (f : Handler W V) (r : Request) {x : W}
      {tr : List (Event V)} : (env.path p).content = some c → c.Has f k → r.state = s →
      s = k.state → Call env p s (x, tr) ((f r x).env, tr ++ (f r x).emit.map .env)
  | source (c : ContentModule W V) (f : BodySource W V) (r : Request) (len : Nat) {x : W}
      {tr : List (Event V)} : (env.path p).content = some c → c.responseBody = some f →
      r.state = s → s = .responseBody →
      Call env p s (x, tr) ((f r len x).env, tr ++ (f r len x).emit.map .env)
  | bodyFilter (m : BodyFilter W V) (r : Request) (data : Bytes) (len : Nat) (isLast : Bool)
      {x : W} {tr : List (Event V)} : m ∈ (env.path p).bodyFilters → r.state = s →
      s = .responseBody → Call env p s (x, tr)
        ((m r data len isLast x).env, tr ++ (m r data len isLast x).emit.map .env)
  | makeSpace (n : Nat) {x : W} {tr : List (Event V)} :
      Call env p s (x, tr) ((env.makeSpace n x).2, tr)
  | readFd (fd : Nat) (len : Int) {x : W} {tr : List (Event V)} :
      Call env p s (x, tr) ((env.readFd fd len x).2, tr)
  | dynamicGet (q : PathId) (r : Request) {x : W} {tr : List (Event V)} : Call env p s (x, tr)
      ((env.dynamicGet q r x).env, tr ++ (env.dynamicGet q r x).emit.map .env)
  | ctxFree (r : Request) {x : W} {tr : List (Event V)} : r.state = s → Call env p s (x, tr)
      ((env.moduleCtxFree r x).1, tr ++ (env.moduleCtxFree r x).2.map .env)

/-- Any number of calls. -/
abbrev Calls (env : Env W V) (p : PathId) (s : RequestState) (w w' : World W V) : Prop :=
  ReflTransGen (Call env p s) (w.env, w.trace) (w'.env, w'.trace)

/-- What every call preserves, a step preserves. -/
theorem Calls.keeps {env : Env W V} {p : PathId} {s : RequestState} {w w' : World W V}
    {I : W → List (Event V) → Prop} (h : Calls env p s w w')
    (keep : ∀ x tr x' tr', Call env p s (x, tr) (x', tr') → I x tr → I x' tr')
    (hi : I w.env w.trace) : I w'.env w'.trace := by
  have hgen : ∀ b, ReflTransGen (Call env p s) (w.env, w.trace) b → I b.1 b.2 := by
    intro b hb
    induction hb with
    | refl => exact hi
    | tail _ hcall ih => exact keep _ _ _ _ hcall ih
  exact hgen _ h

section Steps

variable {env : Env W V} {p : PathId} {s : RequestState} {w w' : World W V} {ret : Int}

theorem Calls.own (h : Calls env p s w w') {e : Event V} (he : e.isOwn = true) :
    Calls env p s w (w'.emit [e]) :=
  h.tail (.own e he)

theorem Calls.emit (h : Calls env p s w w') {es : List (Event V)}
    (hes : ∀ e ∈ es, e.isOwn = true) : Calls env p s w (w'.emit es) := by
  induction es generalizing w' with
  | nil =>
    unfold Calls
    rw [World.emit_trace, List.append_nil]
    exact h
  | cons e es ih =>
    have hrest := ih (h.own (hes e (by simp))) fun e' he' => hes e' (by simp [he'])
    simpa [Calls] using hrest

theorem clearStuff_calls (hs : w.r.state = s) : Calls env p s w (phlRequestClearStuff env w) :=
  .single (.ctxFree w.r hs)

theorem phlRequestClose_calls (hs : w.r.state = s) (h : phlRequestClose env w = some w') :
    Calls env p s w w' := by
  have hmark : Calls env p s w ({ w with r.closed := true }.emit [.closed]) :=
    .single (.own .closed rfl)
  have hmade : Calls env p s w
      ({ w with r.closed := true, env := (env.makeSpace 9 w.env).2 }.emit [.closed]) :=
    hmark.tail (.makeSpace 9)
  cases phlRequestClose_closes h with
  | before => exact .refl
  | attached => exact hmark
  | cleared => exact hmark.trans (clearStuff_calls hs)
  | ended =>
    have hend := hmade.own (e := .endStream) rfl
    exact hend.trans (clearStuff_calls hs)
  | unended => exact hmade.trans (clearStuff_calls hs)

theorem phlConnectionMakeSpace_calls {size : Nat} (hs : w.r.state = s)
    (h : phlConnectionMakeSpace env size w = some (ret, w')) : Calls env p s w w' := by
  cases phlConnectionMakeSpace_makes h with
  | refused => exact .refl
  | made => exact .single (.makeSpace size)
  | waits => exact .single (.makeSpace size)
  | fails => exact .single (.makeSpace size)
  | closes h1 =>
    exact .head (.makeSpace size) (phlRequestClose_calls
      (w := { w with connClosed := true, env := (env.makeSpace size w.env).2 }) hs h1)

theorem phlRequestRedirect_calls (path : Bytes) (hs : w.r.state = s) :
    Calls env p s w (phlRequestRedirect env path w).2 := by
  unfold phlRequestRedirect
  dsimp only
  split
  next => exact .refl
  next =>
    split
    next => exact .single (.ctxFree _ hs)
    next => exact .single (.ctxFree _ hs)
    next => exact .refl

/-- The call of a handler, then what a redirect does, then the event of the call. -/
theorem callHandler_calls {f : Handler W V} {ev : Int → Event V} (hev : ∀ n, (ev n).isOwn = true)
    (hs : w.r.state = s) (hcall : Call env p s (w.env, w.trace)
      ((f w.r w.env).env, w.trace ++ (f w.r w.env).emit.map .env)) :
    Calls env p s w (callHandler env f ev w).2 := by
  unfold callHandler
  dsimp only
  have hcalled : Calls env p s w ({ w with
      r.req := (f w.r w.env).req, r.resp := (f w.r w.env).resp, env := (f w.r w.env).env }.emit
        ((f w.r w.env).emit.map .env)) := .single hcall
  split
  next => exact hcalled.own (hev _)
  next path _ =>
    refine Calls.emit (hcalled.trans (phlRequestRedirect_calls path hs)) ?_
    intro e he
    rcases List.mem_cons.mp he with rfl | he
    · exact hev _
    · split at he
      next => simp [List.mem_singleton.mp he, Event.isOwn]
      next => cases he

theorem phlModuleFilterRun_calls {k : FilterKind} (modules : List (Handler W V))
    (hmem : ∀ f ∈ modules, f ∈ (env.path p).filters k) (hk : s = k.state) {w : World W V}
    (hs : w.r.state = s) : Calls env p s w (phlModuleFilterRun env k modules w).2 := by
  induction modules generalizing w with
  | nil => exact .refl
  | cons m modules ih =>
    have hcall : Calls env p s w (callHandler env m (.filter k (w.r.filterIndexs k)) w).2 :=
      callHandler_calls (fun _ => rfl) hs (.filter k m w.r (hmem m (by simp)) hs hk)
    unfold phlModuleFilterRun
    dsimp only
    split
    next => exact hcall
    next hok =>
      simp only [ne_eq, Decidable.not_not] at hok
      have hkept := (callHandler_outcome (P := fun _ => True) (L := False) (K := fun _ => False) env m
        (.filter k (w.r.filterIndexs k)) (fun _ => trivial) (fun _ => trivial) w).kept
          (by rw [hok]; decide)
      let advanced : World W V := { (callHandler env m (.filter k (w.r.filterIndexs k)) w).2 with
        r.filterIndexs := Function.update
          (callHandler env m (.filter k (w.r.filterIndexs k)) w).2.r.filterIndexs k
          (w.r.filterIndexs k + 1) }
      have hrest : Calls env p s advanced (phlModuleFilterRun env k modules advanced).2 :=
        ih (fun f hf => hmem f (by simp [hf])) (hkept.state.trans hs)
      exact hcall.trans hrest

theorem phlModuleFilter_calls {k : FilterKind} (hk : s = k.state) (hs : w.r.state = s) :
    Calls env p s w (phlModuleFilter env p k w).2 :=
  phlModuleFilterRun_calls _ (fun _ hf => List.mem_of_mem_drop hf) hk hs

theorem phlRequestDynamicGet_calls (q : PathId) (w : World W V) :
    Calls env p s w (phlRequestDynamicGet env q w).2 := by
  have hget : Calls env p s w ({ w with
      r.confPath := some (env.dynamicGet q w.r w.env).path
      r.resp.statusCode := (env.dynamicGet q w.r w.env).statusCode
      env := (env.dynamicGet q w.r w.env).env }.emit
        ((env.dynamicGet q w.r w.env).emit.map .env)) := .single (.dynamicGet q w.r)
  unfold phlRequestDynamicGet
  dsimp only
  split
  next => exact hget
  next =>
    split
    next => exact hget
    next => exact hget.own rfl

theorem phlRequestLocateConfPath_calls (h : phlRequestLocateConfPath env p w = some (ret, w')) :
    Calls env p s w w' := by
  obtain ⟨host, -, h⟩ := Option.bind_eq_some_iff.mp h
  split at h
  next =>
    have hx : _ = w' := congrArg Prod.snd (Option.some.inj h)
    rw [← hx]
    exact phlRequestDynamicGet_calls p w
  next =>
    split at h
    next => cases h; exact .refl
    next =>
      split at h
      next => cases h; exact .refl
      next q _ =>
        have hx : _ = w' := congrArg Prod.snd (Option.some.inj h)
        rw [← hx]
        exact phlRequestDynamicGet_calls q { w with r.confPath := some q }

/-- Filters that all returned `PHL_OK` and then a content handler. -/
theorem filters_then_content_calls {k : FilterKind} (ck : ContentKind)
    {pick : ContentModule W V → Option (Handler W V)}
    (hpick : ∀ c f, pick c = some f → c.Has f ck) (hk : s = k.state) (hc : s = ck.state)
    (hs : w.r.state = s)
    (h : (if (phlModuleFilter env p k w).1 ≠ phlOk then some (phlModuleFilter env p k w)
      else do
        let content ← (env.path p).content
        match pick content with
        | none => some (phlOk, (phlModuleFilter env p k w).2)
        | some f => some (callHandler env f (.content ck p) (phlModuleFilter env p k w).2))
      = some (ret, w')) : Calls env p s w w' := by
  have hfilters : Calls env p s w (phlModuleFilter env p k w).2 := phlModuleFilter_calls hk hs
  split at h
  next =>
    rw [Option.some.inj h] at hfilters
    exact hfilters
  next hok =>
    simp only [ne_eq, Decidable.not_not] at hok
    have hkept := (phlModuleFilter_outcome (P := fun _ => True) (L := False) (K := fun _ => True)
      (k := k) env p (fun _ => trivial) (fun _ _ => trivial) trivial w).kept (by rw [hok]; decide)
    obtain ⟨c, hmod, h⟩ := Option.bind_eq_some_iff.mp h
    split at h
    next => cases h; exact hfilters
    next f hf =>
      have hcall : Calls env p s _ (callHandler env f (.content ck p) _).2 :=
        callHandler_calls (fun _ => rfl) (hkept.state.trans hs)
          (.content c ck f _ hmod (hpick c f hf) (hkept.state.trans hs) hc)
      rw [Option.some.inj h] at hcall
      exact hfilters.trans hcall

theorem phlRequestProcessHeaders_calls (hs : w.r.state = .processHeaders)
    (h : phlRequestProcessHeaders env p w = some (ret, w')) :
    Calls env p .processHeaders w w' :=
  filters_then_content_calls .processHeaders (fun _ _ => id) rfl rfl hs h

theorem phlRequestProcessBody_calls (hs : w.r.state = .processBody)
    (h : phlRequestProcessBody env p w = some (ret, w')) : Calls env p .processBody w w' := by
  unfold phlRequestProcessBody at h
  split at h
  next => cases h; exact .refl
  next =>
    split at h
    next => cases h; exact .refl
    next =>
      split at h
      next => cases h; exact .refl
      next => exact filters_then_content_calls .processBody (fun _ _ => id) rfl rfl hs h

theorem phlRequestResponseHeaders1_calls (hs : w.r.state = .responseHeaders1)
    (h : phlRequestResponseHeaders1 env p w = some (ret, w')) :
    Calls env p .responseHeaders1 w w' := by
  obtain ⟨⟨m, w1⟩, ha, h⟩ := Option.map_eq_some_iff.mp h
  cases h
  split at ha
  next =>
    obtain ⟨c, hc, ha⟩ := Option.map_eq_some_iff.mp ha
    have hcall : Calls env p .responseHeaders1 w
        (callHandler env c.responseHeaders (.content .responseHeaders p) w).2 :=
      callHandler_calls (fun _ => rfl) hs
        (.content c .responseHeaders c.responseHeaders _ hc rfl hs rfl)
    rw [ha] at hcall
    exact hcall
  next =>
    split at ha
    next => cases ha; exact .refl
    next => cases ha; exact .refl

theorem phlRequestResponseHeaders3_calls (hs : w.r.state = s)
    (h : phlRequestResponseHeaders3 env w = some (ret, w')) : Calls env p s w w' := by
  rcases phlRequestResponseHeaders3_inv h with ⟨-, -, hsame⟩ | ⟨n, w1, hm, hmade⟩
  · rw [hsame]
  · have hcalls := phlConnectionMakeSpace_calls (p := p) hs hm
    rcases hmade with ⟨-, -, hw'⟩ | ⟨-, -, hw'⟩
    · rw [hw']
      exact hcalls
    · rw [hw']
      exact hcalls.own rfl

theorem generateBody_calls {bufLen : Nat} {data : Except Failure Bytes}
    (hs : w.r.state = .responseBody) (h : generateBody env p bufLen w = some (data, w')) :
    Calls env p .responseBody w w' := by
  cases generateBody_made h with
  | same => exact .refl
  | read len => exact .single (.readFd _ _)
  | @source c f ret hc hf hbroken =>
    have hsource : Calls env p .responseBody w ({ w with env := (f w.r bufLen w.env).env }.emit
        ((f w.r bufLen w.env).emit.map .env)) := .single (.source c f w.r bufLen hc hf hs rfl)
    exact hsource.own rfl

/-- The letters of the filters called so far are those in `es`. -/
theorem phlModuleFilterResponseBody_calls (r : Request) (bufLen : Nat)
    (modules : List (BodyFilter W V)) (hmem : ∀ m ∈ modules, m ∈ (env.path p).bodyFilters)
    (hs : r.state = .responseBody) (data : Bytes) (isLast : Bool) (e : W) (es : List V)
    (tr : List (Event V)) : ReflTransGen (Call env p .responseBody) (e, tr ++ es.map .env)
      ((phlModuleFilterResponseBody r bufLen modules data isLast e es).env,
        tr ++ (phlModuleFilterResponseBody r bufLen modules data isLast e es).emit.map .env) := by
  induction modules generalizing data isLast e es with
  | nil => exact .refl
  | cons m modules ih =>
    have hcall : Call env p .responseBody (e, tr ++ es.map .env) ((m r data bufLen isLast e).env,
        tr ++ (es ++ (m r data bufLen isLast e).emit).map .env) := by
      rw [List.map_append, ← List.append_assoc]
      exact .bodyFilter m r data bufLen isLast (hmem m (by simp)) hs rfl
    unfold phlModuleFilterResponseBody
    dsimp only
    split
    next => exact .single hcall
    next => exact .head hcall (ih (fun m hm => hmem m (by simp [hm])) _ _ _ _)

theorem filterAndPack_calls (bufLen : Nat) (data : Bytes) (isLast : Bool)
    (hs : w.r.state = .responseBody) :
    Calls env p .responseBody w (filterAndPack env p bufLen data isLast w).2 := by
  have hfilters : Calls env p .responseBody w ({ w with env := (phlModuleFilterResponseBody w.r bufLen
      (env.path p).bodyFilters data isLast w.env []).env }.emit
      ((phlModuleFilterResponseBody w.r bufLen (env.path p).bodyFilters data isLast w.env
        []).emit.map .env)) := by
    have hall := phlModuleFilterResponseBody_calls w.r bufLen (env.path p).bodyFilters
      (fun _ => id) hs data isLast w.env [] w.trace
    simpa [Calls] using hall
  unfold filterAndPack
  dsimp only
  split
  next => exact hfilters
  next => exact hfilters.own rfl

theorem phlRequestResponseBody_calls {ret : Option Int} (hs : w.r.state = .responseBody)
    (h : phlRequestResponseBody env p w = some (ret, w')) : Calls env p .responseBody w w' := by
  obtain ⟨made, hm, h⟩ := Option.bind_eq_some_iff.mp h
  have hmade := phlConnectionMakeSpace_calls (p := p) hs hm
  have hkept := phlConnectionMakeSpace_kept (P := fun _ => True) (L := False) (K := fun _ => False)
    (fun _ => trivial) trivial trivial hm
  dsimp only at h
  split at h
  next => cases h; exact hmade
  next =>
    split at h
    next => cases h; exact hmade
    next =>
      split at h
      next =>
        have hx : _ = w' := congrArg Prod.snd (Option.some.inj h)
        rw [← hx]
        exact hmade.trans (filterAndPack_calls _ _ _ (hkept.state.trans hs))
      next =>
        obtain ⟨⟨data, w1⟩, hg, h⟩ := Option.bind_eq_some_iff.mp h
        have hgen : Calls env p .responseBody w w1 :=
          hmade.trans (generateBody_calls (hkept.state.trans hs) hg)
        have hkept1 := hkept.trans (generateBody_kept (fun _ => trivial) (fun _ _ => trivial) hg)
        cases data with
        | error n => cases h; exact hgen
        | ok data =>
          have hx : _ = w' := congrArg Prod.snd (Option.some.inj h)
          rw [← hx]
          refine (hgen.own (e := .source data) rfl).trans ?_
          exact filterAndPack_calls (w := World.emit { w1 with
            r.resp.contentGeneratedLength := made.2.r.resp.contentGeneratedLength + data.length }
              [.source data]) _ _ _ (hkept1.state.trans hs)

/-- A step is a sequence of calls. -/
theorem phlRequestStep_calls {ret : Option Int} (h : phlRequestStep env p w = some (ret, w')) :
    Calls env p w.r.state w w' := by
  unfold phlRequestStep at h
  dsimp only at h
  cases hs : w.r.state with
  | receiveHeaders =>
    simp only [hs] at h
    cases h
    unfold phlRequestReceiveHeaders
    split <;> exact .refl
  | locateConfHost =>
    simp only [hs] at h
    cases h
    unfold phlRequestLocateConfHost
    split
    next => exact .refl
    next => split <;> exact .refl
  | locateConfPath =>
    simp only [hs] at h
    obtain ⟨x, hx, he⟩ := Option.map_eq_some_iff.mp h
    cases he
    exact phlRequestLocateConfPath_calls hx
  | receiveBodySync =>
    simp only [hs] at h
    cases h
    unfold phlRequestReceiveBodySync
    split
    next => exact .refl
    next => split <;> exact .refl
  | processHeaders =>
    simp only [hs] at h
    obtain ⟨x, hx, he⟩ := Option.map_eq_some_iff.mp h
    cases he
    exact phlRequestProcessHeaders_calls hs hx
  | processBody =>
    simp only [hs] at h
    obtain ⟨x, hx, he⟩ := Option.map_eq_some_iff.mp h
    cases he
    exact phlRequestProcessBody_calls hs hx
  | responseHeaders1 =>
    simp only [hs] at h
    obtain ⟨x, hx, he⟩ := Option.map_eq_some_iff.mp h
    cases he
    exact phlRequestResponseHeaders1_calls hs hx
  | responseHeaders2 =>
    simp only [hs] at h
    cases h
    exact phlModuleFilter_calls (k := .responseHeaders) rfl hs
  | responseHeaders3 =>
    simp only [hs] at h
    obtain ⟨x, hx, he⟩ := Option.map_eq_some_iff.mp h
    cases he
    exact phlRequestResponseHeaders3_calls hs hx
  | responseBody =>
    simp only [hs] at h
    exact phlRequestResponseBody_calls hs h
  | done => simp [hs] at h

end Steps

theorem phlRequestClose_keeps {env : Env W V} {w w' : World W V}
    {I : RequestState → W → List (Event V) → Prop}
    (call : ∀ p s x tr x' tr', Call env p s (x, tr) (x', tr') → I s x tr → I s x' tr')
    (h : phlRequestClose env w = some w') (hi : I w.r.state w.env w.trace) :
    I w'.r.state w'.env w'.trace := by
  have hk := (phlRequestClose_kept (P := fun _ => True) (L := False) (K := fun _ => False)
    (fun _ => trivial) trivial trivial h).1
  rw [hk.state]
  exact (phlRequestClose_calls (p := 0) rfl h).keeps (call 0 w.r.state) hi

/-- What every call and every move of the state preserve, an activation preserves. -/
theorem phlRequestRun_keeps {env : Env W V} {w w' : World W V}
    {I : RequestState → W → List (Event V) → Prop}
    (call : ∀ p s x tr x' tr', Call env p s (x, tr) (x', tr') → I s x tr → I s x' tr')
    (next : ∀ s x tr, I s x tr → I s.next x tr)
    (broken : ∀ s x tr code, I s x tr → I .responseHeaders1 x (tr ++ [.broken code]))
    (h : phlRequestRun env w = some w') (hi : I w.r.state w.env w.trace) :
    I w'.r.state w'.env w'.trace := by
  have hstep : ∀ p w' ret, phlRequestStep env p w = some (ret, w') →
      (ret ≠ none → w'.r.confPath ≠ none) → I w'.r.state w'.env w'.trace := by
    intro p w' ret hs hp
    rw [(phlRequestStep_kept hs hp).state]
    exact (phlRequestStep_calls hs).keeps (call p w.r.state) hi
  cases phlRequestRun_ran h with
  | closed => exact hi
  | done _ _ hc =>
    have hclosed := phlRequestClose_keeps call hc hi
    exact hclosed
  | round _ _ _ hs => exact hstep _ _ _ hs (by simp)
  | next _ _ _ hs hp => exact next _ _ _ (hstep _ _ _ hs fun _ => hp)
  | again _ _ _ hs hp =>
    have hagain := hstep _ _ _ hs fun _ => hp
    exact hagain
  | close _ _ _ hs hp _ _ hc =>
    have hclosed := phlRequestClose_keeps call hc (hstep _ _ _ hs fun _ => hp)
    exact hclosed
  | broken code _ _ _ hs hp => exact broken _ _ _ code (hstep _ _ _ hs fun _ => hp)

/-- What every call, every move of the state and everything from outside preserve holds in every
state reached. -/
theorem reachable_keeps {env : Env W V} {init : World W V → Prop}
    {I : RequestState → W → List (Event V) → Prop} (base : ∀ w, init w → I w.r.state w.env w.trace)
    (call : ∀ p s x tr x' tr', Call env p s (x, tr) (x', tr') → I s x tr → I s x' tr')
    (next : ∀ s x tr, I s x tr → I s.next x tr)
    (broken : ∀ s x tr code, I s x tr → I .responseHeaders1 x (tr ++ [.broken code]))
    (elsewhere : ∀ s x x' tr, env.elsewhere x x' → I s x tr → I s x' tr) {w : World W V}
    (h : Transition.Reachable init (Step env) w) : I w.r.state w.env w.trace := by
  induction h with
  | start h0 => exact base _ h0
  | next _ hs ih =>
    cases hs with
    | call => exact ih
    | run _ hr => exact phlRequestRun_keeps call next broken hr ih
    | receive => exact ih
    | header => exact ih
    | headersEnd endStream =>
      obtain ⟨finished, he | he⟩ := phlHttp2HookStreamHeadersEnd_cases endStream _
      · rw [he]; exact ih
      · rw [he]; exact next _ _ _ ih
    | body p buf =>
      obtain ⟨req, code, he⟩ := phlHttp2HookStreamBody_cases _ _ buf
      rw [he]
      exact ih
    | elsewhere _ he => exact elsewhere _ _ _ _ he ih
    | close connection _ hc => exact phlRequestClose_keeps call hc ih

end Phorklift
