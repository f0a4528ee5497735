import Phorklift.RequestRun

/-! What a step of a request leaves alone and which events it may log. -/

namespace Phorklift

variable {W V : Type}

theorem phlRequestSetHost_writes (r : Req) (hostStr : Bytes) :
    ∃ host, (phlRequestSetHost r hostStr).2 = { r with host := host } := by
  unfold phlRequestSetHost
  split
  next => exact ⟨r.host, rfl⟩
  next => exact ⟨_, rfl⟩

theorem phlRequestSetUri_writes (lib : Libwuya) (r : Req) (uriStr : Bytes) :
    ∃ uri host, (phlRequestSetUri lib r uriStr).2 = { r with uri := uri, host := host } := by
  unfold phlRequestSetUri
  dsimp only
  split
  next => exact ⟨_, r.host, rfl⟩
  next parts _ =>
    cases parts.host with
    | none =>
      simp only [if_true]
      split <;> exact ⟨_, r.host, rfl⟩
    | some host =>
      obtain ⟨host', hset⟩ := phlRequestSetHost_writes
        { r with uri := { r.uri with raw := uriStr, query := parts.query } } host
      dsimp only
      rw [hset]
      split
      next => split <;> exact ⟨_, host', rfl⟩
      next => exact ⟨_, host', rfl⟩

def FilterKind.state : FilterKind → RequestState
  | .processHeaders => .processHeaders
  | .processBody => .processBody
  | .responseHeaders => .responseHeaders2

def ContentKind.state : ContentKind → RequestState
  | .processHeaders => .processHeaders
  | .processBody => .processBody
  | .responseHeaders => .responseHeaders1
  | .responseBody => .responseBody

/-- The states that append to the send buffer, where a failing flush closes the request. -/
def RequestState.sends (s : RequestState) : Prop :=
  s = .responseHeaders3 ∨ s = .responseBody

/-- The events that a step of `r`, whose path is `p`, may log as long as nothing redirects it. -/
def Event.ofStep (r : Request) (p : PathId) : Event V → Prop
  | .located _ => r.state = .locateConfPath
  | .filter k _ _ => r.state = k.state
  | .content k q _ => r.state = k.state ∧ q = p ∧ (k = .processHeaders ∨ r.isBroken = false)
  | .redirected => False
  | .broken _ => False
  | .headers .. => r.state = .responseHeaders3
  | .source _ => r.state = .responseBody
  | .body .. => r.state = .responseBody
  | .endStream => r.state.sends
  | .closed => r.state.sends
  | .env _ => True

/-- From `w` to `w'` the request logs letters of `P`, its path changes only if `L` and its
filter indexes only where `K`. The other fields are those that only `phl_request_run`, a
redirect and a close write. -/
structure Kept (P : Event V → Prop) (L : Prop) (K : FilterKind → Prop)
    (w w' : World W V) : Prop where
  trace : ∃ es, w'.trace = w.trace ++ es ∧ ∀ e ∈ es, P e
  ctl : w'.ctl = w.ctl
  state : w'.r.state = w.r.state
  isBroken : w'.r.isBroken = w.r.isBroken
  father : w'.r.father = w.r.father
  isHttp2 : w'.r.isHttp2 = w.r.isHttp2
  closed : w.r.closed = true → w'.r.closed = true
  confPath : ¬L → w'.r.confPath = w.r.confPath
  filterIndexs : ∀ k, ¬K k → w'.r.filterIndexs k = w.r.filterIndexs k

/-- What a successful redirect leaves behind. -/
structure Redirected (w w' : World W V) : Prop where
  ctl : w'.ctl = w.ctl
  state : w'.r.state = .receiveHeaders
  isBroken : w'.r.isBroken = false
  father : w'.r.father = w.r.father
  isHttp2 : w'.r.isHttp2 = w.r.isHttp2
  closed : w.r.closed = true → w'.r.closed = true
  confPath : w'.r.confPath = none
  filterIndexs : ∀ k, w'.r.filterIndexs k = 0

section Kept

variable {P Q : Event V → Prop} {L L' : Prop} {K K' : FilterKind → Prop}
  {w w' w'' : World W V}

theorem Kept.refl (P : Event V → Prop) (L : Prop) (K : FilterKind → Prop)
    (w : World W V) : Kept P L K w w :=
  ⟨⟨[], by simp, by simp⟩, rfl, rfl, rfl, rfl, rfl, id, fun _ => rfl, fun _ _ => rfl⟩

/-- Writes to fields that the frame does not speak of. -/
theorem Kept.set (P : Event V → Prop) (L : Prop) (K : FilterKind → Prop)
    (w : World W V) (req : Req) (resp : Resp) (recv : Bytes) (connClosed : Bool) (e : W) :
    Kept P L K w { w with
      r.req := req, r.resp := resp, recv := recv, connClosed := connClosed, env := e } :=
  ⟨⟨[], by simp, by simp⟩, rfl, rfl, rfl, rfl, rfl, id, fun _ => rfl, fun _ _ => rfl⟩

theorem Kept.mono (h : Kept P L K w w') (hP : ∀ e, P e → Q e)
    (hl : L → L') (hk : ∀ k, K k → K' k) : Kept Q L' K' w w' := by
  obtain ⟨es, ht, hes⟩ := h.trace
  exact ⟨⟨es, ht, fun e he => hP e (hes e he)⟩, h.ctl, h.state, h.isBroken, h.father, h.isHttp2,
    h.closed, fun hn => h.confPath (mt hl hn), fun k hn => h.filterIndexs k (mt (hk k) hn)⟩

theorem Kept.trans (h : Kept P L K w w') (h' : Kept P L K w' w'') :
    Kept P L K w w'' := by
  obtain ⟨es, ht, hes⟩ := h.trace
  obtain ⟨es', ht', hes'⟩ := h'.trace
  refine ⟨⟨es ++ es', by rw [ht', ht, List.append_assoc], ?_⟩, h'.ctl.trans h.ctl,
    h'.state.trans h.state, h'.isBroken.trans h.isBroken, h'.father.trans h.father,
    h'.isHttp2.trans h.isHttp2, fun hc => h'.closed (h.closed hc),
    fun hn => (h'.confPath hn).trans (h.confPath hn),
    fun k hn => (h'.filterIndexs k hn).trans (h.filterIndexs k hn)⟩
  intro e he
  rcases List.mem_append.mp he with he | he
  · exact hes e he
  · exact hes' e he

theorem Kept.emit (h : Kept P L K w w') {es : List (Event V)} (hes : ∀ e ∈ es, P e) :
    Kept P L K w (w'.emit es) :=
  h.trans ⟨⟨es, rfl, hes⟩, rfl, rfl, rfl, rfl, rfl, id, fun _ => rfl, fun _ _ => rfl⟩

theorem Redirected.emit (h : Redirected w w') (es : List (Event V)) : Redirected w (w'.emit es) :=
  ⟨h.ctl, h.state, h.isBroken, h.father, h.isHttp2, h.closed, h.confPath, h.filterIndexs⟩

theorem Kept.redirected (h : Kept P L K w w') (h' : Redirected w' w'') :
    Redirected w w'' :=
  ⟨h'.ctl.trans h.ctl, h'.state, h'.isBroken, h'.father.trans h.father,
    h'.isHttp2.trans h.isHttp2, fun hc => h'.closed (h.closed hc), h'.confPath, h'.filterIndexs⟩

end Kept

/-- A step that returned `ret` kept the control fields or redirected the request. -/
def Outcome (P : Event V → Prop) (L : Prop) (K : FilterKind → Prop) (ret : Int)
    (w w' : World W V) : Prop :=
  Kept P L K w w' ∨ Redirected w w' ∧ ret = phlBreak

section Steps

variable {env : Env W V} {P : Event V → Prop} {L : Prop} {K : FilterKind → Prop}
  {p : PathId} {w w' : World W V} {ret : Int}

theorem Outcome.mono {Q : Event V → Prop} {L' : Prop} {K' : FilterKind → Prop}
    (h : Outcome P L K ret w w') (hP : ∀ e, P e → Q e) (hl : L → L')
    (hk : ∀ k, K k → K' k) : Outcome Q L' K' ret w w' := by
  rcases h with h | ⟨h, hr⟩
  · exact .inl (h.mono hP hl hk)
  · exact .inr ⟨h, hr⟩

theorem kept_clearStuff (henv : ∀ v, P (.env v)) :
    Kept P L K w (phlRequestClearStuff env w) := by
  refine (Kept.set P L K w w.r.req w.r.resp w.recv w.connClosed _).emit fun e he => ?_
  obtain ⟨v, -, rfl⟩ := List.mem_map.mp he
  exact henv v

/-- What closing a request comes to. -/
inductive Closes (env : Env W V) (w : World W V) : World W V → Prop
  | before : w.r.closed = true → Closes env w w
  | attached : w.r.closed = false → w.r.father = .attached →
      Closes env w ({ w with r.closed := true }.emit [.closed])
  | cleared (connClosed : Bool) : w.r.closed = false →
      (connClosed = w.connClosed ∨ connClosed = true) →
      (w.r.father = .none → w.r.isHttp2 = true → w.r.state = .done ∨ w.connClosed = true) →
      Closes env w (phlRequestClearStuff env
        ({ w with r.closed := true, connClosed := connClosed }.emit [.closed]))
  /-- the frame that ends the stream is sent -/
  | ended {n : Nat} : w.r.closed = false → w.r.state ≠ .done → w.connClosed = false →
      (env.makeSpace 9 w.env).1 = .space n →
      Closes env w (phlRequestClearStuff env
        (({ w with r.closed := true, env := (env.makeSpace 9 w.env).2 }.emit [.closed]).emit
          [.endStream]))
  | unended (connClosed : Bool) : w.r.closed = false → w.r.state ≠ .done →
      w.connClosed = false → (∀ n, (env.makeSpace 9 w.env).1 ≠ .space n) →
      Closes env w (phlRequestClearStuff env
        ({ w with r.closed := true, connClosed := connClosed, env := (env.makeSpace 9 w.env).2 }.emit
          [.closed]))

theorem phlRequestClose_closes (h : phlRequestClose env w = some w') : Closes env w w' := by
  unfold phlRequestClose at h
  split at h
  next hclosed => cases h; exact .before hclosed
  next hclosed =>
    have hopen : w.r.closed = false := by simpa using hclosed
    split at h
    next => cases h
    next =>
      dsimp only at h
      split at h
      next hattached => cases h; exact .attached hopen hattached
      next =>
        split at h
        next hdetached =>
          cases h
          refine .cleared w.connClosed hopen (.inl rfl) fun hnone _ => ?_
          exact absurd (hnone.symm.trans hdetached) (by decide)
        next =>
          split at h
          next =>
            split at h
            next hsend =>
              obtain ⟨hstate, hconn⟩ : w.r.state ≠ .done ∧ w.connClosed = false := hsend
              split at h
              next n hspace => cases h; exact .ended hopen hstate hconn hspace
              next hspace =>
                cases h
                refine .unended true hopen hstate hconn fun n hn => ?_
                cases hn.symm.trans hspace
              next hnot _ => cases h; exact .unended w.connClosed hopen hstate hconn hnot
            next hsend =>
              cases h
              refine .cleared w.connClosed hopen (.inl rfl) fun _ _ => ?_
              have hnot : ¬(w.r.state ≠ .done ∧ w.connClosed = false) := hsend
              simpa [Classical.or_iff_not_imp_left] using hnot
          next hhttp1 =>
            have hany : w.r.father = .none → w.r.isHttp2 = true →
                w.r.state = .done ∨ w.connClosed = true := fun _ h2 => absurd h2 hhttp1
            split at h
            next => cases h; exact .cleared true hopen (.inr rfl) hany
            next => cases h; exact .cleared w.connClosed hopen (.inl rfl) hany

theorem phlRequestClose_kept (henv : ∀ v, P (.env v)) (hc : P .closed) (he : P .endStream)
    (h : phlRequestClose env w = some w') :
    Kept P L K w w' ∧ w'.r.closed = true := by
  have hmark : ∀ c e, Kept P L K w
      ({ w with r.closed := true, connClosed := c, env := e }.emit [.closed]) := by
    intro c e
    have hset : Kept P L K w { w with r.closed := true, connClosed := c, env := e } :=
      ⟨⟨[], by simp, by simp⟩, rfl, rfl, rfl, rfl, rfl, fun _ => rfl, fun _ => rfl,
        fun _ _ => rfl⟩
    exact hset.emit (by simpa using hc)
  cases phlRequestClose_closes h with
  | before hclosed => exact ⟨Kept.refl .., hclosed⟩
  | attached => exact ⟨hmark w.connClosed w.env, rfl⟩
  | cleared => exact ⟨(hmark _ w.env).trans (kept_clearStuff henv), rfl⟩
  | ended =>
    have hend : ∀ e ∈ [Event.endStream], P e := by simpa using he
    exact ⟨((hmark _ _).emit hend).trans (kept_clearStuff henv), rfl⟩
  | unended => exact ⟨(hmark _ _).trans (kept_clearStuff henv), rfl⟩

theorem phlRequestClose_connClosed (h : phlRequestClose env w = some w')
    (hc : w.connClosed = true) : w'.connClosed = true := by
  cases phlRequestClose_closes h with
  | before => exact hc
  | attached => exact hc
  | cleared connClosed _ hsame =>
    rcases hsame with hsame | hsame
    · exact hsame.trans hc
    · exact hsame
  | ended _ _ hopen => exact absurd (hc.symm.trans hopen) (by decide)
  | unended _ _ _ hopen => exact absurd (hc.symm.trans hopen) (by decide)

/-- What making space comes to: the value returned and what is left. -/
inductive MakesSpace (env : Env W V) (size : Nat) (w : World W V) : Int → World W V → Prop
  | refused : w.connClosed = true → MakesSpace env size w phlError w
  | made (n : Nat) : MakesSpace env size w n { w with env := (env.makeSpace size w.env).2 }
  | waits : MakesSpace env size w phlAgain { w with env := (env.makeSpace size w.env).2 }
  | fails : MakesSpace env size w phlError { w with env := (env.makeSpace size w.env).2 }
  | closes {w' : World W V} : phlRequestClose env
      { w with connClosed := true, env := (env.makeSpace size w.env).2 } = some w' →
      MakesSpace env size w phlError w'

theorem phlConnectionMakeSpace_makes {size : Nat}
    (h : phlConnectionMakeSpace env size w = some (ret, w')) : MakesSpace env size w ret w' := by
  unfold phlConnectionMakeSpace at h
  split at h
  next hclosed => cases h; exact .refused hclosed
  next =>
    dsimp only at h
    split at h
    next n _ => cases h; exact .made n
    next => cases h; exact .waits
    next => cases h; exact .fails
    next =>
      obtain ⟨w1, h1, h⟩ := Option.bind_eq_some_iff.mp h
      cases h
      exact .closes h1

theorem phlConnectionMakeSpace_kept (henv : ∀ v, P (.env v)) (hc : P .closed) (he : P .endStream)
    {size : Nat} (h : phlConnectionMakeSpace env size w = some (ret, w')) :
    Kept P L K w w' := by
  have hset : ∀ c e, Kept P L K w { w with connClosed := c, env := e } :=
    Kept.set P L K w w.r.req w.r.resp w.recv
  cases phlConnectionMakeSpace_makes h with
  | refused => exact Kept.refl ..
  | made => exact hset _ _
  | waits => exact hset _ _
  | fails => exact hset _ _
  | closes h1 => exact (hset true _).trans (phlRequestClose_kept henv hc he h1).1

theorem phlRequestRedirect_cases (env : Env W V) (path : Bytes) (w : World W V) :
    (Kept P L K w (phlRequestRedirect env path w).2 ∧
      (phlRequestRedirect env path w).2.trace = w.trace ∧
      (phlRequestRedirect env path w).1 = phlError) ∨
    (Redirected w (phlRequestRedirect env path w).2 ∧
      (phlRequestRedirect env path w).1 = phlBreak) := by
  have hcount : Kept P L K w { w with r.redirects := w.r.redirects + 1 } :=
    ⟨⟨[], by simp, by simp⟩, rfl, rfl, rfl, rfl, rfl, id, fun _ => rfl, fun _ _ => rfl⟩
  unfold phlRequestRedirect
  dsimp only
  split
  next => exact .inl ⟨hcount, rfl, rfl⟩
  next =>
    split
    next => exact .inr ⟨⟨rfl, rfl, rfl, rfl, rfl, id, rfl, fun _ => rfl⟩, rfl⟩
    next => exact .inr ⟨⟨rfl, rfl, rfl, rfl, rfl, id, rfl, fun _ => rfl⟩, rfl⟩
    next => exact .inl ⟨hcount, rfl, rfl⟩

/-- A handler's letters and then the event of its call are logged, or it redirects. -/
theorem callHandler_cases (env : Env W V) (f : Handler W V) (ev : Int → Event V)
    (henv : ∀ v, P (.env v)) (hev : ∀ n, P (ev n)) (w : World W V) :
    (Kept P L K w (callHandler env f ev w).2 ∧
      ∃ vs : List V, (callHandler env f ev w).2.trace =
        w.trace ++ vs.map .env ++ [ev (callHandler env f ev w).1]) ∨
    (Redirected w (callHandler env f ev w).2 ∧ (callHandler env f ev w).1 = phlBreak) := by
  have hset : Kept P L K w
      ({ w with r.req := (f w.r w.env).req, r.resp := (f w.r w.env).resp, env := (f w.r w.env).env
        }.emit ((f w.r w.env).emit.map .env)) := by
    refine (Kept.set P L K w _ _ w.recv w.connClosed _).emit fun e he => ?_
    obtain ⟨v, -, rfl⟩ := List.mem_map.mp he
    exact henv v
  unfold callHandler
  dsimp only
  split
  next => exact .inl ⟨hset.emit (by simpa using hev _), _, rfl⟩
  next path _ =>
    rcases phlRequestRedirect_cases (P := P) (L := L) (K := K) env path
      ({ w with r.req := (f w.r w.env).req, r.resp := (f w.r w.env).resp, env := (f w.r w.env).env
        }.emit ((f w.r w.env).emit.map .env)) with ⟨hk, ht, hr⟩ | ⟨hd, hr⟩
    · refine .inl ⟨(hset.trans hk).emit (by simpa [hr] using hev _), (f w.r w.env).emit, ?_⟩
      rw [World.emit_trace, ht, hr]
      rfl
    · exact .inr ⟨(hset.redirected hd).emit _, hr⟩

theorem callHandler_outcome (env : Env W V) (f : Handler W V) (ev : Int → Event V)
    (henv : ∀ v, P (.env v)) (hev : ∀ n, P (ev n)) (w : World W V) :
    Outcome P L K (callHandler env f ev w).1 w (callHandler env f ev w).2 := by
  rcases callHandler_cases (L := L) (K := K) env f ev henv hev w
    with ⟨hk, -⟩ | hd
  · exact .inl hk
  · exact .inr hd

/-- A call of a handler that did not redirect. -/
theorem Outcome.kept (h : Outcome P L K ret w w') (hr : ret ≠ phlBreak) :
    Kept P L K w w' := by
  rcases h with h | ⟨-, hb⟩
  · exact h
  · exact absurd hb hr

theorem phlModuleFilterRun_outcome {k : FilterKind} (henv : ∀ v, P (.env v))
    (hev : ∀ i n, P (.filter k i n)) (hk : K k)
    (modules : List (Handler W V)) (w : World W V) :
    Outcome P L K (phlModuleFilterRun env k modules w).1 w
      (phlModuleFilterRun env k modules w).2 := by
  induction modules generalizing w with
  | nil => exact .inl (Kept.refl ..)
  | cons m modules ih =>
    have hcall := callHandler_outcome (L := L) (K := K) env m _
      henv (hev (w.r.filterIndexs k)) w
    unfold phlModuleFilterRun
    dsimp only
    split
    next => exact hcall
    next hok =>
      simp only [ne_eq, Decidable.not_not] at hok
      have hadvance : Kept P L K w { (callHandler env m (.filter k (w.r.filterIndexs k)) w).2 with
          r.filterIndexs := Function.update
            (callHandler env m (.filter k (w.r.filterIndexs k)) w).2.r.filterIndexs k
            (w.r.filterIndexs k + 1) } := by
        refine (hcall.kept (by rw [hok]; decide)).trans ⟨⟨[], by simp, by simp⟩, rfl, rfl, rfl,
          rfl, rfl, id, fun _ => rfl, fun j hj => Function.update_of_ne ?_ _ _⟩
        rintro rfl
        exact hj hk
      rcases ih _ with h | ⟨h, hr⟩
      · exact .inl (hadvance.trans h)
      · exact .inr ⟨hadvance.redirected h, hr⟩

theorem phlModuleFilter_outcome (env : Env W V) (p : PathId) {k : FilterKind} (henv : ∀ v, P (.env v))
    (hev : ∀ i n, P (.filter k i n)) (hk : K k) (w : World W V) :
    Outcome P L K (phlModuleFilter env p k w).1 w (phlModuleFilter env p k w).2 :=
  phlModuleFilterRun_outcome henv hev hk _ w

theorem phlRequestReceiveHeaders_kept (w : World W V) :
    Kept P L K w (phlRequestReceiveHeaders env w).2 := by
  unfold phlRequestReceiveHeaders
  split
  next => exact Kept.refl ..
  next => exact Kept.set P L K w _ w.r.resp _ w.connClosed w.env

theorem phlRequestLocateConfHost_kept (hl : L) (w : World W V) :
    Kept P L K w (phlRequestLocateConfHost env w).2 := by
  unfold phlRequestLocateConfHost
  split
  next => exact Kept.refl ..
  next =>
    split
    next => exact ⟨⟨[], by simp, by simp⟩, rfl, rfl, rfl, rfl, rfl, id, fun _ => rfl, fun _ _ => rfl⟩
    next =>
      exact ⟨⟨[], by simp, by simp⟩, rfl, rfl, rfl, rfl, rfl, id, fun hn => absurd hl hn,
        fun _ _ => rfl⟩

theorem phlRequestDynamicGet_kept (henv : ∀ v, P (.env v)) (hloc : ∀ q, P (.located q))
    (hl : L) (w : World W V) : Kept P L K w (phlRequestDynamicGet env p w).2 := by
  have hset : Kept P L K w ({ w with
      r.confPath := some (env.dynamicGet p w.r w.env).path
      r.resp.statusCode := (env.dynamicGet p w.r w.env).statusCode
      env := (env.dynamicGet p w.r w.env).env }.emit
        ((env.dynamicGet p w.r w.env).emit.map .env)) := by
    refine ⟨⟨_, rfl, fun e he => ?_⟩, rfl, rfl, rfl, rfl, rfl, id, fun hn => absurd hl hn,
      fun _ _ => rfl⟩
    obtain ⟨v, -, rfl⟩ := List.mem_map.mp he
    exact henv v
  unfold phlRequestDynamicGet
  dsimp only
  split
  next => exact hset
  next =>
    split
    next => exact hset
    next => exact hset.emit (by simpa using hloc _)

theorem phlRequestLocateConfPath_kept (henv : ∀ v, P (.env v)) (hloc : ∀ q, P (.located q))
    (hl : L) (h : phlRequestLocateConfPath env p w = some (ret, w')) :
    Kept P L K w w' := by
  obtain ⟨host, -, h⟩ := Option.bind_eq_some_iff.mp h
  split at h
  next =>
    have hx : _ = w' := congrArg Prod.snd (Option.some.inj h)
    rw [← hx]
    exact phlRequestDynamicGet_kept henv hloc hl w
  next =>
    split at h
    next => cases h; exact Kept.refl ..
    next =>
      split at h
      next => cases h; exact Kept.refl ..
      next q _ =>
        have hx : _ = w' := congrArg Prod.snd (Option.some.inj h)
        rw [← hx]
        have hset : Kept P L K w { w with r.confPath := some q } :=
          ⟨⟨[], by simp, by simp⟩, rfl, rfl, rfl, rfl, rfl, id, fun hn => absurd hl hn,
            fun _ _ => rfl⟩
        exact hset.trans (phlRequestDynamicGet_kept henv hloc hl _)

theorem phlRequestReceiveBodySync_kept (w : World W V) :
    Kept P L K w (phlRequestReceiveBodySync env p w).2 := by
  unfold phlRequestReceiveBodySync
  split
  next => exact Kept.refl ..
  next =>
    split
    next => exact Kept.refl ..
    next => exact Kept.set P L K w _ w.r.resp _ w.connClosed w.env

/-- Filters that all returned `PHL_OK` and then a content handler. -/
theorem filters_then_content_outcome {k : FilterKind} {content : Option (ContentModule W V)}
    {pick : ContentModule W V → Option (Handler W V)} {ck : ContentKind}
    (henv : ∀ v, P (.env v)) (hfil : ∀ i n, P (.filter k i n)) (hcon : ∀ n, P (.content ck p n))
    (hk : K k)
    (h : (if (phlModuleFilter env p k w).1 ≠ phlOk then some (phlModuleFilter env p k w)
      else do
        let content ← content
        match pick content with
        | none => some (phlOk, (phlModuleFilter env p k w).2)
        | some f => some (callHandler env f (.content ck p) (phlModuleFilter env p k w).2))
      = some (ret, w')) : Outcome P L K ret w w' := by
  have hfilters := phlModuleFilter_outcome (L := L) env p henv hfil hk w
  split at h
  next =>
    have hx := Option.some.inj h
    rw [hx] at hfilters
    exact hfilters
  next hok =>
    simp only [ne_eq, Decidable.not_not] at hok
    have hkept := hfilters.kept (by rw [hok]; decide)
    obtain ⟨content, -, h⟩ := Option.bind_eq_some_iff.mp h
    split at h
    next => cases h; exact .inl hkept
    next f _ =>
      have hcall := callHandler_outcome (L := L) (K := K) env f _ henv hcon
        (phlModuleFilter env p k w).2
      rw [Option.some.inj h] at hcall
      rcases hcall with hc | ⟨hc, hr⟩
      · exact .inl (hkept.trans hc)
      · exact .inr ⟨hkept.redirected hc, hr⟩

theorem phlRequestProcessHeaders_outcome (henv : ∀ v, P (.env v))
    (hfil : ∀ i n, P (.filter .processHeaders i n))
    (hcon : ∀ n, P (.content .processHeaders p n))
    (hk : K .processHeaders) (h : phlRequestProcessHeaders env p w = some (ret, w')) :
    Outcome P L K ret w w' :=
  filters_then_content_outcome henv hfil hcon hk h

theorem phlRequestProcessBody_outcome (henv : ∀ v, P (.env v))
    (hfil : ∀ i n, P (.filter .processBody i n))
    (hcon : w.r.isBroken = false → ∀ n, P (.content .processBody p n))
    (hk : K .processBody) (h : phlRequestProcessBody env p w = some (ret, w')) :
    Outcome P L K ret w w' := by
  unfold phlRequestProcessBody at h
  split at h
  next => cases h; exact .inl (Kept.refl ..)
  next hb =>
    split at h
    next => cases h; exact .inl (Kept.refl ..)
    next =>
      split at h
      next => cases h; exact .inl (Kept.refl ..)
      next => exact filters_then_content_outcome henv hfil (hcon (by simpa using hb)) hk h

theorem phlRequestResponseHeaders1_outcome (henv : ∀ v, P (.env v))
    (hcon : w.r.isBroken = false → ∀ n, P (.content .responseHeaders p n))
    (h : phlRequestResponseHeaders1 env p w = some (ret, w')) :
    Outcome P L K ret w w' := by
  obtain ⟨⟨m, w1⟩, ha, h⟩ := Option.map_eq_some_iff.mp h
  cases h
  have hout : Outcome P L K ret w w1 := by
    split at ha
    next hb =>
      obtain ⟨content, -, ha⟩ := Option.map_eq_some_iff.mp ha
      have hcall := callHandler_outcome (L := L) (K := K) env content.responseHeaders _ henv
        (hcon hb) w
      rw [ha] at hcall
      exact hcall
    next =>
      split at ha
      next =>
        cases ha
        exact .inl (Kept.set P L K w w.r.req _ w.recv w.connClosed w.env)
      next => cases ha; exact .inl (Kept.refl ..)
  rcases hout with hk | ⟨hd, hr⟩
  · exact .inl (hk.trans (Kept.set P L K w1 w1.r.req _ w1.recv w1.connClosed w1.env))
  · exact .inr ⟨⟨hd.ctl, hd.state, hd.isBroken, hd.father, hd.isHttp2, hd.closed,
      hd.confPath, hd.filterIndexs⟩, hr⟩

/-- The step is nothing for a subrequest; else there is no space, or the header block is appended. -/
theorem phlRequestResponseHeaders3_inv (h : phlRequestResponseHeaders3 env w = some (ret, w')) :
    (w.r.father ≠ .none ∧ ret = phlOk ∧ w' = w) ∨
    ∃ n w1, phlConnectionMakeSpace env (phlHeaderEstimateSize w.r.resp.headers + 100) w =
        some (n, w1) ∧
      ((n < 0 ∧ ret = n ∧ w' = w1) ∨ (¬ n < 0 ∧ ret = phlOk ∧
        w' = w1.emit [.headers w1.r.resp.statusCode w1.r.resp.contentLength w1.r.resp.headers])) := by
  unfold phlRequestResponseHeaders3 at h
  split at h
  next hfather =>
    cases h
    exact .inl ⟨hfather, rfl, rfl⟩
  next =>
    obtain ⟨⟨n, w1⟩, hm, h⟩ := Option.bind_eq_some_iff.mp h
    dsimp only at h
    refine .inr ⟨n, w1, hm, ?_⟩
    split at h
    next hneg =>
      cases h
      exact .inl ⟨hneg, rfl, rfl⟩
    next hneg =>
      cases h
      exact .inr ⟨hneg, rfl, rfl⟩

theorem phlRequestResponseHeaders3_kept (henv : ∀ v, P (.env v)) (hc : P .closed)
    (he : P .endStream) (hh : ∀ c n hs, P (.headers c n hs))
    (h : phlRequestResponseHeaders3 env w = some (ret, w')) : Kept P L K w w' := by
  rcases phlRequestResponseHeaders3_inv h with ⟨-, -, hsame⟩ | ⟨n, w1, hm, hmade⟩
  · rw [hsame]
    exact Kept.refl ..
  · have hkept := phlConnectionMakeSpace_kept (L := L) (K := K) henv hc he hm
    rcases hmade with ⟨-, -, hw'⟩ | ⟨-, -, hw'⟩
    · rw [hw']
      exact hkept
    · rw [hw']
      exact hkept.emit (by simpa using hh _ _ _)

/-- What the three ways to generate a piece of the body leave. -/
inductive BodyMade (env : Env W V) (p : PathId) (bufLen : Nat) (w : World W V) : World W V → Prop
  | same : BodyMade env p bufLen w w
  | read (len : Int) :
      BodyMade env p bufLen w { w with env := (env.readFd w.r.resp.easyFd len w.env).2 }
  | source {content : ContentModule W V} {source : BodySource W V} (ret : Int) :
      (env.path p).content = some content → content.responseBody = some source →
      w.r.isBroken = false →
      BodyMade env p bufLen w (({ w with env := (source w.r bufLen w.env).env }.emit
        ((source w.r bufLen w.env).emit.map .env)).emit [.content .responseBody p ret])

theorem generateBody_made {bufLen : Nat} {data : Except Failure Bytes}
    (h : generateBody env p bufLen w = some (data, w')) : BodyMade env p bufLen w w' := by
  unfold generateBody at h
  dsimp only at h
  split at h
  next =>
    cases h
    exact .same
  next =>
    split at h
    next =>
      cases h
      exact .read _
    next =>
      split at h
      next hbroken =>
        obtain ⟨content, hcontent, h⟩ := Option.bind_eq_some_iff.mp h
        obtain ⟨source, hsource, h⟩ := Option.bind_eq_some_iff.mp h
        cases h
        exact .source _ hcontent hsource hbroken
      next =>
        cases h
        exact .same

theorem generateBody_kept (henv : ∀ v, P (.env v))
    (hcon : w.r.isBroken = false → ∀ n, P (.content .responseBody p n))
    {bufLen : Nat} {data : Except Failure Bytes} (h : generateBody env p bufLen w = some (data, w')) :
    Kept P L K w w' := by
  cases generateBody_made h with
  | same => exact Kept.refl ..
  | read len => exact Kept.set P L K w w.r.req w.r.resp w.recv w.connClosed _
  | source ret hcontent hsource hbroken =>
    refine ((Kept.set P L K w w.r.req w.r.resp w.recv w.connClosed _).emit
      fun e he => ?_).emit (by simpa using hcon hbroken _)
    obtain ⟨v, -, rfl⟩ := List.mem_map.mp he
    exact henv v

theorem filterAndPack_kept (henv : ∀ v, P (.env v)) (hb : ∀ d l, P (.body d l)) (bufLen : Nat)
    (data : Bytes) (isLast : Bool) (w : World W V) :
    Kept P L K w (filterAndPack env p bufLen data isLast w).2 := by
  have hset : Kept P L K w ({ w with env := (phlModuleFilterResponseBody w.r bufLen
      (env.path p).bodyFilters data isLast w.env []).env }.emit
      ((phlModuleFilterResponseBody w.r bufLen (env.path p).bodyFilters data isLast w.env
        []).emit.map .env)) := by
    refine (Kept.set P L K w w.r.req w.r.resp w.recv w.connClosed _).emit fun e he => ?_
    obtain ⟨v, -, rfl⟩ := List.mem_map.mp he
    exact henv v
  unfold filterAndPack
  dsimp only
  split
  next => exact hset
  next => exact hset.emit (by simpa using hb _ _)

theorem phlRequestResponseBody_kept {ret : Option Int} (henv : ∀ v, P (.env v)) (hc : P .closed)
    (he : P .endStream) (hcon : w.r.isBroken = false → ∀ n, P (.content .responseBody p n)) (hs : ∀ d, P (.source d))
    (hb : ∀ d l, P (.body d l)) (h : phlRequestResponseBody env p w = some (ret, w')) :
    Kept P L K w w' := by
  obtain ⟨made, hm, h⟩ := Option.bind_eq_some_iff.mp h
  have hmade := phlConnectionMakeSpace_kept (L := L) (K := K) henv hc he hm
  dsimp only at h
  split at h
  next => cases h; exact hmade
  next =>
    split at h
    next => cases h; exact hmade
    next =>
      split at h
      next =>
        have hx : _ = w' := congrArg Prod.snd (Option.some.inj h)
        rw [← hx]
        exact hmade.trans (filterAndPack_kept henv hb _ _ _ _)
      next =>
        obtain ⟨⟨data, w1⟩, hg, h⟩ := Option.bind_eq_some_iff.mp h
        have hgen := hmade.trans
          (generateBody_kept henv (fun hb => hcon (hmade.isBroken.symm.trans hb)) hg)
        dsimp only at h
        split at h
        next => cases h; exact hgen
        next =>
          have hx : _ = w' := congrArg Prod.snd (Option.some.inj h)
          rw [← hx]
          refine (hgen.trans ?_).trans (filterAndPack_kept henv hb _ _ _ _)
          exact (Kept.set P L K w1 w1.r.req _ w1.recv w1.connClosed w1.env).emit
            (by simpa using hs _)

end Steps

/-- What one step of `phl_request_steps` can do. -/
theorem phlRequestStep_outcome {env : Env W V} {p : PathId} {w w' : World W V} {ret : Option Int}
    (h : phlRequestStep env p w = some (ret, w')) :
    Kept (Event.ofStep w.r p)
      (w.r.state = .locateConfHost ∨ w.r.state = .locateConfPath) (fun k => k.state = w.r.state)
      w w' ∨
    Redirected w w' ∧ ret = some phlBreak := by
  have hlift : ∀ {n : Int} {w1 : World W V} {L : Prop} {K : FilterKind → Prop},
      Outcome (Event.ofStep w.r p) L K n w w1 →
      Kept (Event.ofStep w.r p) L K w w1 ∨ Redirected w w1 ∧ some n = some phlBreak := by
    rintro n w1 L K (hk | ⟨hd, hr⟩)
    · exact .inl hk
    · exact .inr ⟨hd, congrArg some hr⟩
  unfold phlRequestStep at h
  dsimp only at h
  cases hs : w.r.state with
  | receiveHeaders =>
    simp only [hs] at h
    cases h
    exact .inl (phlRequestReceiveHeaders_kept w)
  | locateConfHost =>
    simp only [hs] at h
    cases h
    exact .inl (phlRequestLocateConfHost_kept (.inl rfl) w)
  | locateConfPath =>
    simp only [hs] at h
    obtain ⟨x, hx, he⟩ := Option.map_eq_some_iff.mp h
    cases he
    exact .inl (phlRequestLocateConfPath_kept (fun _ => trivial) (fun _ => hs) (.inr rfl) hx)
  | receiveBodySync =>
    simp only [hs] at h
    cases h
    exact .inl (phlRequestReceiveBodySync_kept w)
  | processHeaders =>
    simp only [hs] at h
    obtain ⟨x, hx, he⟩ := Option.map_eq_some_iff.mp h
    cases he
    exact hlift (phlRequestProcessHeaders_outcome (K := fun k => k.state = .processHeaders)
      (fun _ => trivial) (fun _ _ => hs) (fun _ => ⟨hs, rfl, .inl rfl⟩) rfl hx)
  | processBody =>
    simp only [hs] at h
    obtain ⟨x, hx, he⟩ := Option.map_eq_some_iff.mp h
    cases he
    exact hlift (phlRequestProcessBody_outcome (K := fun k => k.state = .processBody)
      (fun _ => trivial) (fun _ _ => hs) (fun hb _ => ⟨hs, rfl, .inr hb⟩) rfl hx)
  | responseHeaders1 =>
    simp only [hs] at h
    obtain ⟨x, hx, he⟩ := Option.map_eq_some_iff.mp h
    cases he
    exact hlift (phlRequestResponseHeaders1_outcome (fun _ => trivial)
      (fun hb _ => ⟨hs, rfl, .inr hb⟩) hx)
  | responseHeaders2 =>
    simp only [hs] at h
    cases h
    exact hlift (phlModuleFilter_outcome (K := fun k => k.state = .responseHeaders2)
      (k := .responseHeaders) env p (fun _ => trivial) (fun _ _ => hs) rfl w)
  | responseHeaders3 =>
    simp only [hs] at h
    obtain ⟨x, hx, he⟩ := Option.map_eq_some_iff.mp h
    cases he
    exact .inl (phlRequestResponseHeaders3_kept (fun _ => trivial) (.inl hs) (.inl hs)
      (fun _ _ _ => hs) hx)
  | responseBody =>
    simp only [hs] at h
    exact .inl (phlRequestResponseBody_kept (fun _ => trivial) (.inr hs) (.inr hs)
      (fun hb _ => ⟨hs, rfl, .inr hb⟩) (fun _ => hs) (fun _ _ => hs) h)
  | done => simp [hs] at h

/-- A step after which `phl_request_run` goes on: a redirect leaves no path to go on with. -/
theorem phlRequestStep_kept {env : Env W V} {p : PathId} {w w' : World W V} {ret : Option Int}
    (h : phlRequestStep env p w = some (ret, w')) (hp : ret ≠ none → w'.r.confPath ≠ none) :
    Kept (Event.ofStep w.r p)
      (w.r.state = .locateConfHost ∨ w.r.state = .locateConfPath) (fun k => k.state = w.r.state)
      w w' := by
  rcases phlRequestStep_outcome h with hk | ⟨hd, hr⟩
  · exact hk
  · exact absurd hd.confPath (hp (by simp [hr]))

theorem phlHttp2HookStreamHeadersEnd_cases (endStream : Bool) (r : Request) :
    ∃ finished, (phlHttp2HookStreamHeadersEnd endStream r).2 = { r with req.bodyFinished := finished } ∨
      (phlHttp2HookStreamHeadersEnd endStream r).2 =
        { r with req.bodyFinished := finished, state := r.state.next } := by
  refine ⟨endStream || r.req.bodyFinished, ?_⟩
  unfold phlHttp2HookStreamHeadersEnd
  dsimp only
  split
  next => exact .inl rfl
  next => exact .inr rfl

theorem phlHttp2HookStreamBody_cases (reqBodyMax : Nat) (r : Request) (buf : Option Bytes) :
    ∃ req code, (phlHttp2HookStreamBody reqBodyMax r buf).2 =
      { r with req := req, resp.statusCode := code } := by
  cases buf with
  | none => exact ⟨{ r.req with bodyFinished := true }, r.resp.statusCode, rfl⟩
  | some buf =>
    unfold phlHttp2HookStreamBody
    dsimp only
    split
    next => exact ⟨_, _, rfl⟩
    next => exact ⟨_, r.resp.statusCode, rfl⟩

/-- What one activation of `phl_request_run` can do. -/
inductive Ran (env : Env W V) (w : World W V) : World W V → Prop
  | closed : w.r.closed = true → Ran env w { w with ctl := .idle }
  | done {w1} : w.r.closed = false → w.r.state = .done → phlRequestClose env w = some w1 →
      Ran env w { w1 with ctl := .idle }
  | round {p w1} : w.r.closed = false → w.r.state ≠ .done → w.r.confPath = some p →
      phlRequestStep env p w = some (none, w1) → Ran env w w1
  | next {p n w1} : w.r.closed = false → w.r.state ≠ .done → w.r.confPath = some p →
      phlRequestStep env p w = some (some n, w1) → w1.r.confPath ≠ none →
      n = phlOk ∨ n = phlBreak → Ran env w { w1 with r.state := w1.r.state.next }
  | again {p w1} : w.r.closed = false → w.r.state ≠ .done → w.r.confPath = some p →
      phlRequestStep env p w = some (some phlAgain, w1) → w1.r.confPath ≠ none →
      Ran env w { w1 with ctl := .idle }
  | close {p w1 w2} : w.r.closed = false → w.r.state ≠ .done → w.r.confPath = some p →
      phlRequestStep env p w = some (some phlError, w1) → w1.r.confPath ≠ none →
      w1.r.resp.statusCode = 0 → RequestState.responseHeaders1.index < w1.r.state.index →
      phlRequestClose env w1 = some w2 → Ran env w { w2 with ctl := .idle }
  | broken {p n w1} (code : Int) : w.r.closed = false → w.r.state ≠ .done →
      w.r.confPath = some p → phlRequestStep env p w = some (some n, w1) →
      w1.r.confPath ≠ none → n ≠ phlOk → n ≠ phlBreak → n ≠ phlAgain →
      ¬(n = phlError ∧ w1.r.resp.statusCode = 0 ∧
        RequestState.responseHeaders1.index < w1.r.state.index) →
      Ran env w ({ w1 with
        r.isBroken := true
        r.resp.statusCode := code
        r.state := .responseHeaders1 }.emit [.broken code])

theorem phlRequestRun_ran {env : Env W V} {w w' : World W V} (h : phlRequestRun env w = some w') :
    Ran env w w' := by
  unfold phlRequestRun at h
  split at h
  next hc => cases Option.some.inj h; exact .closed hc
  next hc =>
    have hopen : w.r.closed = false := by simpa using hc
    obtain ⟨p, hp, h⟩ := Option.bind_eq_some_iff.mp h
    split at h
    next hs =>
      obtain ⟨w1, h1, h⟩ := Option.bind_eq_some_iff.mp h
      cases Option.some.inj h
      exact .done hopen hs h1
    next hs =>
      obtain ⟨⟨ret, w1⟩, hstep, h⟩ := Option.bind_eq_some_iff.mp h
      dsimp only at h
      split at h
      next => cases Option.some.inj h; exact .round hopen hs hp hstep
      next n =>
        unfold phlRequestRunReturn at h
        split at h
        next => cases h
        next hp1 =>
          split at h
          next hn => cases Option.some.inj h; exact .next hopen hs hp hstep hp1 hn
          next hn =>
            obtain ⟨hok, hbr⟩ := not_or.mp hn
            split at h
            next hag =>
              cases Option.some.inj h
              subst hag
              exact .again hopen hs hp hstep hp1
            next hag =>
              split at h
              next hcl =>
                obtain ⟨w2, h2, h⟩ := Option.bind_eq_some_iff.mp h
                cases Option.some.inj h
                obtain ⟨rfl, hz, hlt⟩ := hcl
                exact .close hopen hs hp hstep hp1 hz hlt h2
              next hcl =>
                cases Option.some.inj h
                exact .broken _ hopen hs hp hstep hp1 hok hbr hag hcl

end Phorklift
