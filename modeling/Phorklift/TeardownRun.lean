import Phorklift.Teardown

/-! Connections and requests on the event loop are torn down once. -/

namespace Phorklift
namespace EventLoop

open Transition

/-- The teardown of the connection `c`, seen where no function is on the stack. -/
structure ConnTornDown (w : World) (c : ConnId) : Prop where
  decremented : w.decrements c = 1
  /-- from the close on it is on the list, once, until it is freed -/
  deferred : w.connDefer.count c + w.trace.count (.freed c) = 1
  requests : ∀ r q, w.reqs r = some q → q.conn = c → w.trace.count (.closed r) = 1 ∧
    w.trace.count (.logged r) = 1 ∧ w.trace.count (.deferred r) = 1

structure TearsDownOnce (lib : LoopLib) (bufSize : Nat) (w : World) : Prop where
  noStep : NoStepAfterClose w.trace
  conns : ∀ c, w.decrements c ≤ 1 ∧ w.connDefer.count c ≤ 1 ∧ w.trace.count (.freed c) ≤ 1
  reqs : ∀ r, w.trace.count (.closed r) ≤ 1 ∧ w.trace.count (.logged r) ≤ 1 ∧
    w.trace.count (.deferred r) ≤ 1
  counter : ∀ l, w.connections l =
    w.trace.countP (Event.isAccepted l) - w.trace.countP (Event.isLeft l)
  /-- no function on the stack is stuck, at an assertion or elsewhere -/
  goesOn : w.stack ≠ [] → ∃ a w', loopStep lib bufSize w a = some w'
  closed : w.stack = [] → ∀ c x, w.conns c = some x → x.state = .closed → ConnTornDown w c
  opened : w.stack = [] → ∀ c x, w.conns c = some x → x.state ≠ .closed →
    w.decrements c = 0 ∧ w.trace.count (.freed c) = 0

section Frames

variable {w : World} {c : ConnId} {r : ReqId} {x : Conn} {q : Req} {f : Frame} {rest : List Frame}

/-- A frame that neither the counts nor the order of the stack depend on. -/
def Frame.plain : Frame → Bool
  | .connectionClosed _ | .doClose _ | .clearStuff _ | .deferRoutine | .deferFree => false
  | _ => true

theorem pending_of_plain (h : f.plain = true) : f.pending = false := by
  cases f <;> first | rfl | cases h

theorem settled_append {fs : List Frame} (h : Settled rest) (hfs : ∀ g ∈ fs, g.plain = true) :
    Settled (fs ++ rest) := by
  induction fs with
  | nil => exact h
  | cons g fs ih =>
    have htail := ih fun f hf => hfs f (List.mem_cons_of_mem _ hf)
    have hg := hfs g List.mem_cons_self
    cases g with
    | deferRoutine => cases hg
    | deferFree => cases hg
    | _ => exact htail

theorem filter_plain {fs : List Frame} (hfs : ∀ g ∈ fs, g.plain = true) :
    (fs ++ rest).filter Frame.pending = rest.filter Frame.pending := by
  have hnil : fs.filter Frame.pending = [] := by
    refine List.filter_eq_nil_iff.mpr fun g hg => ?_
    simp [pending_of_plain (hfs g hg)]
  rw [List.filter_append, hnil, List.nil_append]

end Frames

section Calls

variable {w w' : World} {c : ConnId} {r : ReqId} {x : Conn} {q : Req} {f : Frame}
  {rest : List Frame}

theorem TeardownInv.pop (h : TeardownInv w) (hnone : w.Unclosing) (hstack : w.stack = f :: rest)
    (hf : f.plain = true) : TeardownInv { w with stack := rest } := by
  refine h.quiet ⟨fun _ => rfl, fun _ => rfl, rfl, rfl, rfl, rfl, ?_, ?_, fun g hg => .inl ?_⟩ hnone
  · show rest.filter Frame.pending = w.stack.filter Frame.pending
    rw [hstack, List.filter_cons_of_neg (by simp [pending_of_plain hf])]
  · refine h.stack.settled_rest hstack ?_ ?_
    · rintro rfl
      cases hf
    · rintro rfl
      cases hf
  · rw [hstack]
    exact List.mem_cons_of_mem _ hg

theorem TeardownInv.push {fs : List Frame} (h : TeardownInv w) (hnone : w.Unclosing)
    (hfs : ∀ g ∈ fs, g.plain = true ∧ g.Known w) : TeardownInv (w.push fs) := by
  refine h.quiet ⟨fun _ => rfl, fun _ => rfl, rfl, rfl, rfl, rfl, ?_, ?_, fun g hg => ?_⟩ hnone
  · exact filter_plain fun g hg => (hfs g hg).1
  · exact settled_append h.stack.settled fun g hg => (hfs g hg).1
  · rcases List.mem_append.mp hg with hg | hg
    · exact .inr ((hfs g hg).2.grow (fun _ x hx => ⟨x, hx⟩) (fun _ q hq => ⟨q, hq⟩))
    · exact .inl hg

theorem TeardownInv.setConn {x' : Conn} (h : TeardownInv w) (hnone : w.Unclosing)
    (hx : w.conns c = some x) (hview : x'.view = x.view) :
    TeardownInv (w.setConn c x') ∧ (w.setConn c x').Unclosing := by
  have hviews : ∀ d, ((w.setConn c x').conns d).map Conn.view = (w.conns d).map Conn.view := by
    intro d
    by_cases hd : d = c
    · rw [hd, conns_setConn_self, hx, Option.map_some, Option.map_some, hview]
    · rw [conns_setConn_of_ne hd]
  have hquiet : Quiet w (w.setConn c x') := ⟨hviews, fun _ => rfl, rfl, rfl, rfl, rfl, rfl,
    h.stack.settled, fun _ hg => .inl hg⟩
  refine ⟨h.quiet hquiet hnone, fun d y s hy hclosed hs => ?_⟩
  obtain ⟨y0, hy0, hyview⟩ := hquiet.conn hy
  have hreq : y.request = y0.request := congrArg (fun v => v.2.2) hyview
  have hstate : decide (y.state = .closed) = decide (y0.state = .closed) := congrArg Prod.fst hyview
  exact hnone d y0 s hy0 (by simpa [hclosed] using hstate) (hreq.symm.trans hs)

theorem TeardownInv.setReq {q' : Req} (h : TeardownInv w) (hnone : w.Unclosing)
    (hq : w.reqs r = some q) (hview : q'.view = q.view) : TeardownInv (w.setReq r q') := by
  refine h.quiet ⟨fun _ => rfl, fun s => ?_, rfl, rfl, rfl, rfl, rfl, h.stack.settled,
    fun _ hg => .inl hg⟩ hnone
  by_cases hs : s = r
  · rw [hs, reqs_setReq_self, hq, Option.map_some, Option.map_some, hview]
  · rw [reqs_setReq_of_ne hs]

theorem written_view (writeLen : Option Nat) (x : Conn) : (written writeLen x).2.view = x.view := by
  unfold written
  split
  next => rfl
  next => rfl
  next =>
    split
    next => rfl
    next => split <;> rfl

theorem TeardownInv.setState {state : ConnectionState} (h : TeardownInv w) (hnone : w.Unclosing)
    (hgo : phlConnectionSetState state c w = some w') (hstate : state ≠ .closed) :
    TeardownInv w' := by
  obtain ⟨x, hx, hgo⟩ := Option.bind_eq_some_iff.mp hgo
  split at hgo
  next => cases hgo; exact h
  next hopen =>
    cases hgo
    refine (h.setConn hnone hx ?_).1
    simp [Conn.view, hopen, hstate]

theorem TeardownInv.flush {writeLen : Option Nat} {ret : FlushRet} (h : TeardownInv w)
    (hnone : w.Unclosing) (hgo : phlConnectionFlush writeLen c w = some (ret, w')) :
    TeardownInv w' ∧ w'.Unclosing := by
  obtain ⟨x, hx, hgo⟩ := Option.bind_eq_some_iff.mp hgo
  split at hgo
  next => cases hgo; exact ⟨h, hnone⟩
  next =>
    cases hgo
    obtain ⟨hset, hunclosing⟩ := h.setConn hnone hx (written_view writeLen x)
    split
    next =>
      refine ⟨hset.push hunclosing fun g hg => ?_, hunclosing⟩
      rw [List.mem_singleton.mp hg]
      exact ⟨rfl, _, conns_setConn_self⟩
    next => exact ⟨hset, hunclosing⟩

theorem TeardownInv.makeSpace {bufSize size : Nat} {writeLen : Option Nat} (h : TeardownInv w)
    (hnone : w.Unclosing) (hgo : phlConnectionMakeSpace bufSize size writeLen c w = some w') :
    TeardownInv w' := by
  obtain ⟨x, hx, hgo⟩ := Option.bind_eq_some_iff.mp hgo
  split at hgo
  next => cases hgo; exact h
  next hopen =>
    split at hgo
    next => cases hgo; exact h
    next =>
      have hput := h.putDefer hx hopen
      have hput_none : (phlConnectionPutDefer c w).Unclosing := by
        obtain ⟨l, hl⟩ := putDefer_eq c w
        rw [hl]
        exact hnone
      have hput_conn : (phlConnectionPutDefer c w).conns c = some x := by
        obtain ⟨l, hl⟩ := putDefer_eq c w
        rw [hl]
        exact hx
      dsimp only at hgo
      split at hgo
      next =>
        cases hgo
        refine (hput.setConn hput_none hput_conn ?_).1
        rfl
      next =>
        split at hgo
        next => cases hgo; exact hput
        next =>
          obtain ⟨⟨ret, w1⟩, hflush, rfl⟩ := Option.map_eq_some_iff.mp hgo
          exact (hput.flush hput_none hflush).1

theorem TeardownInv.requestRuns (h : TeardownInv w) (hnone : w.Unclosing) (hx : w.conns c = some x)
    (hr : x.request = some r) : TeardownInv (w.push [.run r, .http1SetState c]) := by
  refine h.push hnone fun g hg => ?_
  obtain ⟨q, hq, -⟩ := h.link.current c x r hx hr
  simp only [List.mem_cons, List.not_mem_nil, or_false] at hg
  rcases hg with rfl | rfl
  · exact ⟨rfl, q, hq⟩
  · exact ⟨rfl, x, hx⟩

theorem TeardownInv.onWritable {writeLen : Option Nat} (h : TeardownInv w) (hnone : w.Unclosing)
    (hgo : phlConnectionOnWritable writeLen c w = some w') : TeardownInv w' := by
  obtain ⟨⟨ret, w1⟩, hflush, hgo⟩ := Option.bind_eq_some_iff.mp hgo
  obtain ⟨h1, hnone1⟩ := h.flush hnone hflush
  split at hgo
  next => cases hgo; exact h1
  next =>
    obtain ⟨x, hx, hgo⟩ := Option.bind_eq_some_iff.mp hgo
    split at hgo
    next => cases hgo; exact h1
    next r hr => cases hgo; exact h1.requestRuns hnone1 hx hr

theorem TeardownInv.onReadable {lib : LoopLib} {readLen : Int} (h : TeardownInv w)
    (hlib : lib.Lawful) (hstack : w.stack = .onReadable c :: rest)
    (hgo : phlConnectionOnReadable lib readLen r c { w with stack := rest } = some w') :
    TeardownInv w' := by
  have hnone := h.unclosing (by rw [hstack]; exact fun _ _ => nofun)
  have hpop := h.pop hnone hstack rfl
  obtain ⟨x, hx, hgo⟩ := Option.bind_eq_some_iff.mp hgo
  have hknown : ∀ f ∈ ([.connectionClose c] : List Frame), f.plain = true ∧
      f.Known { w with stack := rest } := by
    intro g hg
    rw [List.mem_singleton.mp hg]
    exact ⟨rfl, x, hx⟩
  split at hgo
  next => cases hgo
  next hread =>
    split at hgo
    next => cases hgo; exact hpop.push hnone hknown
    next =>
      split at hgo
      next => cases hgo; exact hpop
      next hneg hzero =>
        -- bytes are read from an open stream only
        have hopen : x.state ≠ .closed := by
          intro hclosed
          by_cases hsame : readLen = lib.readClosed
          · have hnone := hlib.readClosed
            omega
          · exact hread ⟨hclosed, hsame⟩
        have hloop : TeardownInv ({ w with stack := rest }.push [.onReadable c]) := by
          refine hpop.push hnone fun g hg => ?_
          rw [List.mem_singleton.mp hg]
          exact ⟨rfl, x, hx⟩
        obtain ⟨x0, hx0, hgo⟩ := Option.bind_eq_some_iff.mp hgo
        have hsame : x0 = x := Option.some.inj (hx0.symm.trans hx)
        subst hsame
        split at hgo
        next s hs => cases hgo; exact hloop.requestRuns hnone hx hs
        next hreq =>
          split at hgo
          next hfresh =>
            cases hgo
            have hnew := hloop.newRequest hx hopen hreq hfresh
            refine TeardownInv.requestRuns hnew ?_ conns_setConn_self rfl
            intro d y s hy hclosed hs
            rcases setConn_some d hy with ⟨-, rfl⟩ | ⟨-, hy⟩
            · exact hopen hclosed
            · exact hnone d y s hy hclosed hs
          next => cases hgo

theorem TeardownInv.requestRun (h : TeardownInv w) (hstack : w.stack = .run r :: rest)
    (hgo : phlRequestRun r { w with stack := rest } = some w') : TeardownInv w' := by
  have hnone := h.unclosing (by rw [hstack]; exact fun _ _ => nofun)
  obtain ⟨q, hq, hgo⟩ := Option.bind_eq_some_iff.mp hgo
  split at hgo
  next => cases hgo; exact h.pop hnone hstack rfl
  next hopen =>
    split at hgo
    next =>
      cases hgo
      refine (h.pop hnone hstack rfl).push hnone fun g hg => ?_
      rw [List.mem_singleton.mp hg]
      exact ⟨rfl, q, hq⟩
    next =>
      cases hgo
      have hstepped := h.stepped hq (by simpa using hopen)
      refine (hstepped.pop hnone hstack rfl).push hnone fun g hg => ?_
      rw [List.mem_singleton.mp hg]
      exact ⟨rfl, q, hq⟩

theorem TeardownInv.runReturn {n : Int} (h : TeardownInv w) (hstack : w.stack = .step r :: rest)
    (hgo : phlRequestRunReturn n r { w with stack := rest } = some w') : TeardownInv w' := by
  have hnone := h.unclosing (by rw [hstack]; exact fun _ _ => nofun)
  have hpop := h.pop hnone hstack rfl
  obtain ⟨q, hq, hgo⟩ := Option.bind_eq_some_iff.mp hgo
  have hnext : ∀ q' : Req, q'.view = q.view →
      TeardownInv (({ w with stack := rest }.setReq r q').push [.run r]) := by
    intro q' hview
    refine (hpop.setReq hnone hq hview).push hnone fun g hg => ?_
    rw [List.mem_singleton.mp hg]
    exact ⟨rfl, q', reqs_setReq_self⟩
  split at hgo
  next => cases hgo; exact hnext _ rfl
  next =>
    split at hgo
    next =>
      cases hgo
      refine hpop.push hnone fun g hg => ?_
      rw [List.mem_singleton.mp hg]
      exact ⟨rfl, q, hq⟩
    next =>
      split at hgo
      next =>
        cases hgo
        refine hpop.push hnone fun g hg => ?_
        rw [List.mem_singleton.mp hg]
        exact ⟨rfl, q, hq⟩
      next => cases hgo; exact hnext _ rfl

theorem TeardownInv.requestClose (h : TeardownInv w) (hstack : w.stack = .requestClose r :: rest)
    (hgo : phlRequestClose r { w with stack := rest } = some w') : TeardownInv w' := by
  obtain ⟨q, hq, hgo⟩ := Option.bind_eq_some_iff.mp hgo
  split at hgo
  next hclosed =>
    cases hgo
    refine h.pop (fun c x s hx hstate hs => ?_) hstack rfl
    -- a connection between its two closes would have `r`, which is closed
    obtain ⟨more, htop⟩ := h.link.closing c x s hx hstate hs
    rw [hstack] at htop
    cases htop
    obtain ⟨p, hp, -, hopen⟩ := h.link.current c x r hx hs
    rw [show w.reqs r = some q from hq] at hp
    cases Option.some.inj hp
    rw [hclosed] at hopen
    cases hopen
  next hopen =>
    obtain ⟨p, hp, hgo⟩ := Option.bind_eq_some_iff.mp hgo
    have hpq : p = { q with closed := true } :=
      Option.some.inj (hp.symm.trans (reqs_setReq_self (w := { w with stack := rest })))
    obtain ⟨x, hx, hgo⟩ := Option.bind_eq_some_iff.mp hgo
    subst hpq
    split at hgo
    next => cases hgo
    next hr =>
      have hmark := h.markClosed hstack hq (by simpa using hopen) hx (by simpa using hr)
      have hnone := hmark.unclosing (fun _ _ => nofun)
      dsimp only at hgo
      split at hgo
      next =>
        cases hgo
        refine hmark.push hnone fun g hg => ?_
        rw [List.mem_singleton.mp hg]
        exact ⟨rfl, _, conns_setConn_self⟩
      next => exact hmark.setState hnone hgo nofun

theorem TeardownInv.closeConnection (h : TeardownInv w)
    (hstack : w.stack = .connectionClose c :: rest)
    (hgo : phlConnectionClose c { w with stack := rest } = some w') : TeardownInv w' := by
  have hnone := h.unclosing (by rw [hstack]; exact fun _ _ => nofun)
  obtain ⟨x, hx, hgo⟩ := Option.bind_eq_some_iff.mp hgo
  split at hgo
  next => cases hgo; exact h.pop hnone hstack rfl
  next hopen =>
    dsimp only at hgo
    split at hgo
    next hreq => cases hgo; exact h.connectionClose hstack hx hopen (.inl ⟨hreq, rfl⟩)
    next r hreq => cases hgo; exact h.connectionClose hstack hx hopen (.inr ⟨r, hreq, rfl⟩)

theorem TeardownInv.connectionLeaves (h : TeardownInv w)
    (hstack : w.stack = .connectionClosed c :: rest)
    (hgo : phlConnectionClosed c { w with stack := rest } = some w') : TeardownInv w' := by
  obtain ⟨x, hx, hgo⟩ := Option.bind_eq_some_iff.mp hgo
  cases hgo
  exact h.connectionClosed hstack hx rfl

theorem TeardownInv.http1SetState (h : TeardownInv w) (hstack : w.stack = .http1SetState c :: rest)
    (hgo : phlHttp1SetState c { w with stack := rest } = some w') : TeardownInv w' := by
  have hnone := h.unclosing (by rw [hstack]; exact fun _ _ => nofun)
  have hpop := h.pop hnone hstack rfl
  obtain ⟨x, hx, hgo⟩ := Option.bind_eq_some_iff.mp hgo
  split at hgo
  next => exact hpop.setState hnone hgo nofun
  next =>
    obtain ⟨q, hq, hgo⟩ := Option.bind_eq_some_iff.mp hgo
    split at hgo
    next => exact hpop.setState hnone hgo nofun
    next => exact hpop.setState hnone hgo nofun

theorem TeardownInv.deferRoutine {writeLen : Option Nat} (h : TeardownInv w)
    (hstack : w.stack = .deferRoutine :: rest)
    (hgo : phlConnectionDeferRoutine writeLen { w with stack := rest } = some w') :
    TeardownInv w' := by
  have hnone := h.unclosing (by rw [hstack]; exact fun _ _ => nofun)
  unfold phlConnectionDeferRoutine at hgo
  split at hgo
  next => cases hgo
  next c cs hlist =>
    have hloop : ({ w with stack := rest, connDefer := cs }.push [.deferRoutine] : World) =
        { w with connDefer := cs } := by
      unfold World.push
      rw [List.singleton_append, ← hstack]
    dsimp only at hgo
    rw [hloop] at hgo
    obtain ⟨x, hx, hgo⟩ := Option.bind_eq_some_iff.mp hgo
    split at hgo
    next hclosed => cases hgo; exact h.freeConn hstack hlist hx hclosed
    next hopen =>
      have hunlisted := h.unlist hlist hx hopen
      obtain ⟨⟨ret, w1⟩, hflush, hgo⟩ := Option.bind_eq_some_iff.mp hgo
      obtain ⟨h1, hnone1⟩ := hunlisted.flush hnone hflush
      split at hgo
      next =>
        obtain ⟨x1, hx1, hgo⟩ := Option.bind_eq_some_iff.mp hgo
        cases hgo
        refine (h1.setConn hnone1 hx1 ?_).1
        rfl
      next => cases hgo; exact h1

/-- The outermost frame of the deferred routines is left. -/
theorem TeardownInv.popDefer (h : TeardownInv w) (hstack : w.stack = f :: rest)
    (hf : f = .deferRoutine ∨ f = .deferFree) : TeardownInv { w with stack := rest } := by
  have hnone := h.unclosing (by
    rw [hstack]
    rcases hf with rfl | rfl
    · exact fun _ _ => nofun
    · exact fun _ _ => nofun)
  have hpending : f.pending = false := by rcases hf with rfl | rfl <;> rfl
  refine h.quiet ⟨fun _ => rfl, fun _ => rfl, rfl, rfl, rfl, rfl, ?_, ?_, fun g hg => .inl ?_⟩ hnone
  · show rest.filter Frame.pending = w.stack.filter Frame.pending
    rw [hstack, List.filter_cons_of_neg (by simp [hpending])]
  · rcases hf with rfl | rfl
    · show Settled rest
      rw [settled_deferRoutine h.stack hstack]
      rfl
    · show Settled rest
      rw [settled_deferFree h.stack hstack]
      trivial
  · rw [hstack]
    exact List.mem_cons_of_mem _ hg

theorem TeardownInv.deferFree (h : TeardownInv w) (hstack : w.stack = .deferFree :: rest)
    (hgo : phlRequestDeferFree { w with stack := rest } = some w') : TeardownInv w' := by
  unfold phlRequestDeferFree at hgo
  split at hgo
  next => cases hgo; exact h.popDefer hstack (.inr rfl)
  next r rs hlist =>
    have hloop : ({ w with stack := rest, reqDefer := rs }.push [.deferFree] : World) =
        { w with reqDefer := rs } := by
      unfold World.push
      rw [List.singleton_append, ← hstack]
    dsimp only at hgo
    rw [hloop] at hgo
    obtain ⟨q, hq, hgo⟩ := Option.bind_eq_some_iff.mp hgo
    cases hgo
    exact h.destroyReq hlist hq

theorem TeardownInv.goOn (h : TeardownInv w) (hstack : w.stack = f :: rest)
    (hgo : EventLoop.goOn { w with stack := rest } f = some w') : TeardownInv w' := by
  cases f with
  | run r => exact h.requestRun hstack hgo
  | step r => cases hgo
  | runPost r =>
    cases hgo
    exact h.pop (h.unclosing (by rw [hstack]; exact fun _ _ => nofun)) hstack rfl
  | requestClose r => exact h.requestClose hstack hgo
  | doClose r => cases hgo; exact h.doClose hstack
  | clearStuff r => cases hgo; exact h.clearStuff hstack
  | connectionClose c => exact h.closeConnection hstack hgo
  | connectionClosed c => exact h.connectionLeaves hstack hgo
  | http1SetState c => exact h.http1SetState hstack hgo
  | onReadable c => cases hgo
  | deferRoutine =>
    unfold EventLoop.goOn at hgo
    obtain ⟨-, he⟩ := Option.ite_none_right_eq_some.mp hgo
    cases he
    exact h.popDefer hstack (.inl rfl)
  | deferFree => exact h.deferFree hstack hgo

theorem TeardownInv.step {lib : LoopLib} {bufSize : Nat} {a : Act} (h : TeardownInv w)
    (hlib : lib.Lawful) (hstep : loopStep lib bufSize w a = some w') : TeardownInv w' := by
  have hidle : w.stack = [] → w.Unclosing := fun hstack =>
    h.unclosing (by rw [hstack]; exact fun _ _ => nofun)
  have hlive : ∀ {c x}, live c w = some x → w.conns c = some x ∧ w.stack = [] := by
    intro c x hx
    obtain ⟨y, hy, hx⟩ := Option.bind_eq_some_iff.mp hx
    obtain ⟨hguard, he⟩ := Option.ite_none_right_eq_some.mp hx
    cases he
    exact ⟨hy, hguard.1⟩
  unfold loopStep at hstep
  split at hstep
  next c l =>
    obtain ⟨hguard, he⟩ := Option.ite_none_right_eq_some.mp hstep
    cases he
    exact h.accept hguard.2 l
  next c =>
    obtain ⟨x, hx, rfl⟩ := Option.map_eq_some_iff.mp hstep
    obtain ⟨hx, hstack⟩ := hlive hx
    refine h.push (hidle hstack) fun g hg => ?_
    rw [List.mem_singleton.mp hg]
    exact ⟨rfl, x, hx⟩
  next c writeLen =>
    obtain ⟨x, hx, hgo⟩ := Option.bind_eq_some_iff.mp hstep
    exact h.onWritable (hidle (hlive hx).2) hgo
  next c =>
    obtain ⟨x, hx, rfl⟩ := Option.map_eq_some_iff.mp hstep
    obtain ⟨hx, hstack⟩ := hlive hx
    refine h.push (hidle hstack) fun g hg => ?_
    rw [List.mem_singleton.mp hg]
    exact ⟨rfl, x, hx⟩
  next =>
    obtain ⟨hstack, he⟩ := Option.ite_none_right_eq_some.mp hstep
    cases he
    refine h.quiet ⟨fun _ => rfl, fun _ => rfl, rfl, rfl, rfl, rfl, ?_, ?_, ?_⟩ (hidle hstack)
    · show ([Frame.deferRoutine, .deferFree] ++ w.stack).filter Frame.pending = _
      rw [hstack]
      rfl
    · show Settled ([.deferRoutine, .deferFree] ++ w.stack)
      rw [hstack]
      rfl
    · intro g hg
      have hg' : g ∈ ([.deferRoutine, .deferFree] ++ w.stack : List Frame) := hg
      rw [hstack] at hg'
      simp only [List.append_nil, List.mem_cons, List.not_mem_nil, or_false] at hg'
      rcases hg' with rfl | rfl
      · exact .inr trivial
      · exact .inr trivial
  next r =>
    obtain ⟨q, hq, hstep⟩ := Option.bind_eq_some_iff.mp hstep
    obtain ⟨⟨-, hcalls⟩, he⟩ := Option.ite_none_right_eq_some.mp hstep
    cases he
    refine h.push (h.unclosing fun s rest hstack => ?_) fun g hg => ?_
    · rw [hstack] at hcalls
      cases hcalls
    · rw [List.mem_singleton.mp hg]
      exact ⟨rfl, q, hq⟩
  next =>
    split at hstep
    next => cases hstep
    next f rest hstack =>
      have hnone : (∀ r, f ≠ .requestClose r) → w.Unclosing := by
        intro hf
        refine h.unclosing fun r more htop => ?_
        rw [hstack] at htop
        exact hf r (List.cons.inj htop).1
      split at hstep
      next => exact h.onReadable hlib hstack hstep
      next =>
        obtain ⟨q, -, hgo⟩ := Option.bind_eq_some_iff.mp hstep
        exact h.makeSpace (hnone nofun) hgo
      next =>
        obtain ⟨q, -, hgo⟩ := Option.bind_eq_some_iff.mp hstep
        obtain ⟨x, hx, hgo⟩ := Option.bind_eq_some_iff.mp hgo
        obtain ⟨len, -, hgo⟩ := Option.bind_eq_some_iff.mp hgo
        obtain ⟨-, he⟩ := Option.ite_none_right_eq_some.mp hgo
        cases he
        refine (h.setConn (hnone nofun) hx ?_).1
        rfl
      next =>
        obtain ⟨q, hq, hgo⟩ := Option.bind_eq_some_iff.mp hstep
        cases hgo
        refine h.setReq (hnone nofun) hq ?_
        rfl
      next => exact h.runReturn hstack hstep
      next => exact h.deferRoutine hstack hstep
      next => exact h.goOn hstack hstep
      next => cases hstep

end Calls

section Progress

variable {w : World} {c : ConnId} {r : ReqId} {x : Conn} {q : Req}

theorem setState_some (hx : w.conns c = some x) (state : ConnectionState) :
    ∃ w', phlConnectionSetState state c w = some w' := by
  unfold phlConnectionSetState
  rw [hx, Option.bind_eq_bind, Option.bind_some]
  split
  next => exact ⟨w, rfl⟩
  next => exact ⟨_, rfl⟩

theorem flush_some (hx : w.conns c = some x) (writeLen : Option Nat) :
    ∃ ret w' x', phlConnectionFlush writeLen c w = some (ret, w') ∧ w'.conns c = some x' := by
  unfold phlConnectionFlush
  rw [hx, Option.bind_eq_bind, Option.bind_some]
  split
  next => exact ⟨_, w, x, rfl, hx⟩
  next =>
    refine ⟨_, _, (written writeLen x).2, rfl, ?_⟩
    split
    next => exact conns_setConn_self
    next => exact conns_setConn_self

/-- The current request of an open connection is the one that is closed. -/
theorem requestClose_some {w0 : World} (h : LinkInv w0) (hconns : w.conns = w0.conns)
    (hreqs : w.reqs = w0.reqs) (hq : w0.reqs r = some q) :
    ∃ w', phlRequestClose r w = some w' := by
  unfold phlRequestClose
  rw [hreqs, hq, Option.bind_eq_bind, Option.bind_some]
  split
  next => exact ⟨w, rfl⟩
  next hopen =>
    obtain ⟨x, hx, hr⟩ := h.linked r q hq (by simpa using hopen)
    rw [← hconns] at hx
    unfold phlHttp1RequestClose
    dsimp only
    rw [show ((((w.setReq r { q with closed := true }).emit (.closed r)).push [.doClose r]).reqs r) =
      some { q with closed := true } from reqs_setReq_self]
    rw [Option.bind_eq_bind, Option.bind_some]
    rw [show (((w.setReq r { q with closed := true }).emit (.closed r)).push [.doClose r]).conns
      q.conn = some x from hx]
    rw [Option.bind_eq_bind, Option.bind_some, if_neg (by simp [hr])]
    split
    next => exact ⟨_, rfl⟩
    next => exact setState_some conns_setConn_self _

theorem http1SetState_some (h : LinkInv w) {w0 : World} (hconns : w0.conns = w.conns)
    (hreqs : w0.reqs = w.reqs) (hx : w.conns c = some x) :
    ∃ w', phlHttp1SetState c w0 = some w' := by
  have hx0 : w0.conns c = some x := by rw [hconns, hx]
  unfold phlHttp1SetState
  rw [hx0, Option.bind_eq_bind, Option.bind_some]
  split
  next => exact setState_some hx0 _
  next r hr =>
    obtain ⟨q, hq, -⟩ := h.current c x r hx hr
    rw [hreqs, hq, Option.bind_eq_bind, Option.bind_some]
    split
    next => exact setState_some hx0 _
    next => exact setState_some hx0 _

/-- A closed connection is read as the library reads it, an open one without bytes. -/
theorem onReadable_some {lib : LoopLib} (hlib : lib.Lawful) (hx : w.conns c = some x) (r : ReqId) :
    ∃ readLen w', phlConnectionOnReadable lib readLen r c w = some w' := by
  unfold phlConnectionOnReadable
  simp only [hx, Option.bind_eq_bind, Option.bind_some]
  by_cases hclosed : x.state = .closed
  · refine ⟨lib.readClosed, ?_⟩
    rw [if_neg (by simp)]
    by_cases hneg : lib.readClosed < 0
    · rw [if_pos hneg]
      exact ⟨_, rfl⟩
    · have hle := hlib.readClosed
      rw [if_neg hneg, if_pos (by omega)]
      exact ⟨_, rfl⟩
  · refine ⟨0, w, ?_⟩
    rw [if_neg (by simp [hclosed]), if_neg (by decide), if_pos rfl]

theorem deferRoutine_some {cs : List ConnId} (hlist : w.connDefer = c :: cs)
    (hx : w.conns c = some x) : ∃ w', phlConnectionDeferRoutine none w = some w' := by
  have hpopped : (World.push [.deferRoutine] { w with connDefer := cs }).conns c = some x := hx
  unfold phlConnectionDeferRoutine
  rw [hlist]
  dsimp only
  rw [hpopped, Option.bind_eq_bind, Option.bind_some]
  split
  next => exact ⟨_, rfl⟩
  next =>
    obtain ⟨ret, w1, x1, hflush, hx1⟩ := flush_some hpopped none
    rw [hflush, Option.bind_eq_bind, Option.bind_some]
    split
    next =>
      rw [hx1, Option.bind_some]
      exact ⟨_, rfl⟩
    next => exact ⟨_, rfl⟩

theorem deferFree_some (hdeferred : ∀ r ∈ w.reqDefer, ∃ q, w.reqs r = some q) :
    ∃ w', phlRequestDeferFree w = some w' := by
  unfold phlRequestDeferFree
  cases hlist : w.reqDefer with
  | nil => exact ⟨_, rfl⟩
  | cons r rs =>
    obtain ⟨q, hq⟩ := hdeferred r (by rw [hlist]; exact List.mem_cons_self)
    have hpopped : (World.push [.deferFree] { w with reqDefer := rs }).reqs r = some q := hq
    dsimp only
    rw [hpopped, Option.bind_eq_bind, Option.bind_some]
    exact ⟨_, rfl⟩

theorem TeardownInv.goesOn {lib : LoopLib} (h : TeardownInv w) (hlib : lib.Lawful)
    (bufSize : Nat) (hne : w.stack ≠ []) : ∃ a w', loopStep lib bufSize w a = some w' := by
  cases hstack : w.stack with
  | nil => exact absurd hstack hne
  | cons f rest =>
    have hknown : f.Known w := h.stack.known f (by rw [hstack]; exact List.mem_cons_self)
    have hgo : (∃ w', EventLoop.goOn { w with stack := rest } f = some w') →
        ∃ a w', loopStep lib bufSize w a = some w' := by
      rintro ⟨w', hw'⟩
      refine ⟨.go, w', ?_⟩
      unfold loopStep
      dsimp only
      rw [hstack]
      exact hw'
    cases f with
    | run r =>
      obtain ⟨q, hq⟩ := hknown
      apply hgo
      simp only [EventLoop.goOn, phlRequestRun, hq, Option.bind_eq_bind, Option.bind_some]
      split
      next => exact ⟨_, rfl⟩
      next => split <;> exact ⟨_, rfl⟩
    | step r =>
      obtain ⟨q, hq⟩ := hknown
      refine ⟨.ret phlAgain, { w with stack := .runPost r :: rest }, ?_⟩
      unfold loopStep
      dsimp only
      rw [hstack]
      simp only [phlRequestRunReturn, hq, Option.bind_eq_bind, Option.bind_some]
      rfl
    | runPost r => exact hgo ⟨_, rfl⟩
    | requestClose r =>
      obtain ⟨q, hq⟩ := hknown
      exact hgo (requestClose_some h.link rfl rfl hq)
    | doClose r => exact hgo ⟨_, rfl⟩
    | clearStuff r => exact hgo ⟨_, rfl⟩
    | connectionClose c =>
      obtain ⟨x, hx⟩ := hknown
      apply hgo
      simp only [EventLoop.goOn, phlConnectionClose, hx, Option.bind_eq_bind, Option.bind_some]
      split
      next => exact ⟨_, rfl⟩
      next => split <;> exact ⟨_, rfl⟩
    | connectionClosed c =>
      obtain ⟨x, hx⟩ := hknown
      apply hgo
      simp only [EventLoop.goOn, phlConnectionClosed, hx, Option.bind_eq_bind, Option.bind_some]
      exact ⟨_, rfl⟩
    | http1SetState c =>
      obtain ⟨x, hx⟩ := hknown
      exact hgo (http1SetState_some h.link rfl rfl hx)
    | onReadable c =>
      obtain ⟨x, hx⟩ := hknown
      have hpopped : ({ w with stack := rest } : World).conns c = some x := hx
      obtain ⟨readLen, w', hread⟩ := onReadable_some hlib hpopped 0
      refine ⟨.read readLen 0, w', ?_⟩
      unfold loopStep
      dsimp only
      rw [hstack]
      exact hread
    | deferRoutine =>
      cases hlist : w.connDefer with
      | nil =>
        apply hgo
        simp only [EventLoop.goOn, hlist]
        exact ⟨_, rfl⟩
      | cons c cs =>
        obtain ⟨x, hx⟩ := h.stack.listed c (by rw [hlist]; exact List.mem_cons_self)
        have hpopped : ({ w with stack := rest } : World).connDefer = c :: cs := hlist
        obtain ⟨w', hdefer⟩ := deferRoutine_some hpopped hx
        refine ⟨.flush none, w', ?_⟩
        unfold loopStep
        dsimp only
        rw [hstack]
        exact hdefer
    | deferFree => exact hgo (deferFree_some (w := { w with stack := rest }) h.stack.deferred)

end Progress

theorem teardownInv_start {w : World} (h : Started w) : TeardownInv w := by
  obtain ⟨hconns, hreqs, hconnDefer, hreqDefer, hstack, htrace, hconnections⟩ := h
  refine ⟨fun c => ?_, fun r => ?_, ?_, ?_, ?_⟩
  · refine ⟨?_, ?_, ?_, ?_, ?_⟩ <;>
      simp [World.decrements, World.connClosed, World.connFreed, hconns, hconnDefer, hstack, htrace]
  · refine ⟨?_, ?_, ?_, ?_⟩ <;> simp [World.reqClosed, hreqs, hreqDefer, hstack, htrace]
  · refine ⟨?_, ?_, ?_, ?_⟩ <;> simp [hconns, hreqs]
  · refine ⟨?_, ?_, ?_, ?_⟩ <;> simp [hconnDefer, hreqDefer, hstack, Settled]
  · refine ⟨?_, ?_⟩ <;> simp [NoStepAfterClose, htrace, hconnections]

theorem TeardownInv.tearsDownOnce {lib : LoopLib} {w : World} (h : TeardownInv w)
    (hlib : lib.Lawful) (bufSize : Nat) : TearsDownOnce lib bufSize w := by
  have hclosed_le : ∀ c, w.connClosed c ≤ 1 := by
    intro c
    unfold World.connClosed
    split
    next => split <;> omega
    next => omega
  have hreq_le : ∀ r, w.reqClosed r ≤ 1 := by
    intro r
    unfold World.reqClosed
    split
    next => split <;> omega
    next => omega
  refine ⟨h.trace.noStep, fun c => ?_, fun r => ?_, h.trace.counter,
    fun hne => h.goesOn hlib bufSize hne, fun hidle c x hx hclosed => ?_,
    fun hidle c x hx hopen => ?_⟩
  · obtain ⟨hdecremented, -, honce, hfreed, -⟩ := h.conn c
    have hle := hclosed_le c
    omega
  · obtain ⟨hclosed, hlogged, hdeferred, -⟩ := h.req r
    have hle := hreq_le r
    omega
  · obtain ⟨hdecremented, hlisted, honce, hfreed, -⟩ := h.conn c
    rw [hidle, List.count_nil, connClosed_some hx, if_pos hclosed] at hdecremented
    refine ⟨by omega, by omega, fun r q hq hconn => ?_⟩
    have hq_closed : q.closed = true := by
      by_contra hopen
      obtain ⟨y, hy, hr⟩ := h.link.linked r q hq (by simpa using hopen)
      rw [hconn, hx] at hy
      cases Option.some.inj hy
      exact h.unclosing (by rw [hidle]; exact fun _ _ => nofun) c x r hx hclosed hr
    obtain ⟨hcount, hlogged, hdeferred, -⟩ := h.req r
    rw [reqClosed_some hq, if_pos hq_closed] at hcount hlogged hdeferred
    rw [hidle, List.count_nil] at hlogged hdeferred
    exact ⟨by omega, by omega, by simpa using hdeferred⟩
  · obtain ⟨hdecremented, -, -, hfreed, hlast⟩ := h.conn c
    rw [connClosed_some hx, if_neg hopen] at hdecremented
    exact ⟨by omega, by omega⟩

/-- Whatever starts the close of a connection, and whatever the order of its events. -/
theorem teardown_once {lib : LoopLib} {bufSize : Nat} {w : World} (hlib : lib.Lawful)
    (h : Reachable Started (ActStep (loopStep lib bufSize) fun _ _ => True) w) :
    TearsDownOnce lib bufSize w := by
  have hinv : TeardownInv w := by
    refine h.invariant (fun s hs => teardownInv_start hs) fun s t hs hstep => ?_
    obtain ⟨a, -, ha⟩ := hstep
    exact hs.step hlib ha
  exact hinv.tearsDownOnce hlib bufSize

/-- A library that fails on a closed stream. -/
def failingReads : LoopLib := ⟨-1⟩

def started : World where
  conns := fun _ => none
  reqs := fun _ => none
  connections := fun _ => 0
  connDefer := []
  reqDefer := []
  stack := []
  trace := []

/-- A response that does not fit the send buffer, on a socket that fails. -/
def failingFlush : List Act :=
  [.accept 0 0, .readable 0, .read 40 0, .go, .ret phlOk, .go, .write 1 200, .makeSpace 100 none,
    .append 4000, .makeSpace 4096 none, .go, .go, .go, .go, .go, .go, .ret phlError, .go, .go,
    .read (-1) 0, .go, .defers, .flush none, .go, .go, .go]

/-- A write error inside a step closes the connection and with it the request of the step. -/
theorem teardown_once_failing_flush :
    ∃ w, runActs (loopStep failingReads 4096) failingFlush started = some w ∧
      w.stack = [] ∧ w.connections 0 = 0 ∧ w.trace = [.accepted 0 0, .stepped 0, .stepped 0,
        .closed 0, .logged 0, .deferred 0, .decremented 0 0, .freed 0, .destroyed 0] ∧
      TearsDownOnce failingReads 4096 w := by
  have h : (runActs (loopStep failingReads 4096) failingFlush started).map
      (fun w => (w.stack, w.connections 0, w.trace)) = some ([], 0, [.accepted 0 0, .stepped 0,
        .stepped 0, .closed 0, .logged 0, .deferred 0, .decremented 0 0, .freed 0, .destroyed 0]) := by
    decide +kernel
  obtain ⟨w, hw, hfacts⟩ := Option.map_eq_some_iff.mp h
  obtain ⟨hstack, hrest⟩ := Prod.mk.inj hfacts
  obtain ⟨hcounter, htrace⟩ := Prod.mk.inj hrest
  have hstart : Started started := ⟨rfl, rfl, rfl, rfl, rfl, rfl, rfl⟩
  have hreach := (Reachable.start hstart).runActs (actsMeet_of_forall _ _ fun _ _ => trivial) hw
  exact ⟨w, hw, hstack, hcounter, htrace, teardown_once ⟨by decide⟩ hreach⟩

end EventLoop
end Phorklift
