import Phorklift.EventLoop

/-! What the calls of the event loop keep while they tear connections and requests down. -/

namespace Phorklift
namespace EventLoop

open Transition

def Event.isDecrement (c : ConnId) : Event → Bool
  | .decremented d _ => d == c
  | _ => false

def Event.isAccepted (l : ListenId) : Event → Bool
  | .accepted _ k => k == l
  | _ => false

def Event.isLeft (l : ListenId) : Event → Bool
  | .decremented _ k => k == l
  | _ => false

namespace World

/-- How often the connection has been taken from the counter of its listener. -/
def decrements (c : ConnId) (w : World) : Nat := w.trace.countP (Event.isDecrement c)

def connClosed (c : ConnId) (w : World) : Nat :=
  match w.conns c with
  | some x => if x.state = .closed then 1 else 0
  | none => 0

def connFreed (c : ConnId) (w : World) : Nat :=
  match w.conns c with
  | some x => if x.freed then 1 else 0
  | none => 0

def reqClosed (r : ReqId) (w : World) : Nat :=
  match w.reqs r with
  | some q => if q.closed then 1 else 0
  | none => 0

end World

/-- No step of a request after it is marked closed. -/
def NoStepAfterClose (trace : List Event) : Prop :=
  trace.Pairwise fun a b => ∀ r, a = .closed r → b ≠ .stepped r

/-- The loops of the deferred routines are the outermost functions. -/
def Settled : List Frame → Prop
  | [] => True
  | .deferRoutine :: rest => rest = [.deferFree]
  | .deferFree :: rest => rest = []
  | _ :: rest => Settled rest

def Frame.Known (w : World) : Frame → Prop
  | .run r | .step r | .runPost r | .requestClose r | .doClose r | .clearStuff r =>
    ∃ q, w.reqs r = some q
  | .connectionClose c | .connectionClosed c | .http1SetState c | .onReadable c =>
    ∃ x, w.conns c = some x
  | .deferRoutine | .deferFree => True

/-- The counts of a connection. -/
structure ConnInv (w : World) (c : ConnId) : Prop where
  decremented : w.decrements c + w.stack.count (.connectionClosed c) = w.connClosed c
  listed : w.decrements c ≤ w.connDefer.count c + w.connFreed c
  once : w.connDefer.count c + w.connFreed c ≤ 1
  freed : w.trace.count (.freed c) = w.connFreed c
  freedLast : w.connFreed c ≤ w.decrements c

/-- The counts of a request. -/
structure ReqInv (w : World) (r : ReqId) : Prop where
  closed : w.trace.count (.closed r) = w.reqClosed r
  logged : w.trace.count (.logged r) + w.stack.count (.doClose r) = w.reqClosed r
  deferred : w.trace.count (.deferred r) + w.stack.count (.doClose r) +
    w.stack.count (.clearStuff r) = w.reqClosed r
  destroyed : w.reqDefer.count r + w.trace.count (.destroyed r) = w.trace.count (.deferred r)

/-- A connection has one open request at most, and none once it is closed, but for the moment
between the two closes. -/
structure LinkInv (w : World) : Prop where
  current : ∀ c x r, w.conns c = some x → x.request = some r →
    ∃ q, w.reqs r = some q ∧ q.conn = c ∧ q.closed = false
  linked : ∀ r q, w.reqs r = some q → q.closed = false →
    ∃ x, w.conns q.conn = some x ∧ x.request = some r
  owner : ∀ r q, w.reqs r = some q → ∃ x, w.conns q.conn = some x
  closing : ∀ c x r, w.conns c = some x → x.state = .closed → x.request = some r →
    ∃ rest, w.stack = .requestClose r :: .connectionClosed c :: rest

structure StackInv (w : World) : Prop where
  settled : Settled w.stack
  known : ∀ f ∈ w.stack, f.Known w
  listed : ∀ c ∈ w.connDefer, ∃ x, w.conns c = some x
  deferred : ∀ r ∈ w.reqDefer, ∃ q, w.reqs r = some q

structure TraceInv (w : World) : Prop where
  noStep : NoStepAfterClose w.trace
  counter : ∀ l, w.connections l =
    w.trace.countP (Event.isAccepted l) - w.trace.countP (Event.isLeft l)

structure TeardownInv (w : World) : Prop where
  conn : ∀ c, ConnInv w c
  req : ∀ r, ReqInv w r
  link : LinkInv w
  stack : StackInv w
  trace : TraceInv w

section Congr

variable {w w' : World} {c : ConnId} {r : ReqId}

theorem ConnInv.congr (h : ConnInv w c) (hclosed : w'.connClosed c = w.connClosed c)
    (hfreed : w'.connFreed c = w.connFreed c) (hdec : w'.decrements c = w.decrements c)
    (hfree : w'.trace.count (.freed c) = w.trace.count (.freed c))
    (hstack : w'.stack.count (.connectionClosed c) = w.stack.count (.connectionClosed c))
    (hlist : w'.connDefer.count c = w.connDefer.count c) : ConnInv w' c := by
  obtain ⟨hdecremented, hlisted, honce, hcount, hlast⟩ := h
  refine ⟨?_, ?_, ?_, ?_, ?_⟩ <;> omega

theorem ReqInv.congr (h : ReqInv w r) (hclosed : w'.reqClosed r = w.reqClosed r)
    (htrace : ∀ e ∈ [Event.closed r, .logged r, .deferred r, .destroyed r],
      w'.trace.count e = w.trace.count e)
    (hdo : w'.stack.count (.doClose r) = w.stack.count (.doClose r))
    (hclear : w'.stack.count (.clearStuff r) = w.stack.count (.clearStuff r))
    (hlist : w'.reqDefer.count r = w.reqDefer.count r) : ReqInv w' r := by
  obtain ⟨hcount, hlogged, hdeferred, hdestroyed⟩ := h
  have h1 := htrace (.closed r) (by simp)
  have h2 := htrace (.logged r) (by simp)
  have h3 := htrace (.deferred r) (by simp)
  have h4 := htrace (.destroyed r) (by simp)
  refine ⟨?_, ?_, ?_, ?_⟩ <;> omega

theorem LinkInv.congr (h : LinkInv w) (hconns : w'.conns = w.conns) (hreqs : w'.reqs = w.reqs)
    (hstack : w'.stack = w.stack) : LinkInv w' := by
  refine ⟨?_, ?_, ?_, ?_⟩
  · rw [hconns, hreqs]
    exact h.current
  · rw [hconns, hreqs]
    exact h.linked
  · rw [hconns, hreqs]
    exact h.owner
  · rw [hconns, hstack]
    exact h.closing

theorem TraceInv.congr (h : TraceInv w) (hconnections : w'.connections = w.connections)
    (ht : w'.trace = w.trace) : TraceInv w' :=
  ⟨by rw [ht]; exact h.noStep, fun l => by rw [hconnections, ht]; exact h.counter l⟩

/-- Frames stay known as connections and requests are added and changed. -/
theorem Frame.Known.grow {f : Frame} (h : f.Known w)
    (hconns : ∀ c x, w.conns c = some x → ∃ x', w'.conns c = some x')
    (hreqs : ∀ r q, w.reqs r = some q → ∃ q', w'.reqs r = some q') : f.Known w' := by
  cases f with
  | deferRoutine => trivial
  | deferFree => trivial
  | connectionClose c => obtain ⟨x, hx⟩ := h; exact hconns c x hx
  | connectionClosed c => obtain ⟨x, hx⟩ := h; exact hconns c x hx
  | http1SetState c => obtain ⟨x, hx⟩ := h; exact hconns c x hx
  | onReadable c => obtain ⟨x, hx⟩ := h; exact hconns c x hx
  | run r => obtain ⟨q, hq⟩ := h; exact hreqs r q hq
  | step r => obtain ⟨q, hq⟩ := h; exact hreqs r q hq
  | runPost r => obtain ⟨q, hq⟩ := h; exact hreqs r q hq
  | requestClose r => obtain ⟨q, hq⟩ := h; exact hreqs r q hq
  | doClose r => obtain ⟨q, hq⟩ := h; exact hreqs r q hq
  | clearStuff r => obtain ⟨q, hq⟩ := h; exact hreqs r q hq

/-- Lists and frames that only name what is known, before and after. -/
theorem StackInv.grow (h : StackInv w)
    (hconns : ∀ c x, w.conns c = some x → ∃ x', w'.conns c = some x')
    (hreqs : ∀ r q, w.reqs r = some q → ∃ q', w'.reqs r = some q')
    (hsettled : Settled w'.stack) (hknown : ∀ f ∈ w'.stack, f ∈ w.stack ∨ f.Known w')
    (hlisted : ∀ c ∈ w'.connDefer, c ∈ w.connDefer ∨ ∃ x, w'.conns c = some x)
    (hdeferred : ∀ r ∈ w'.reqDefer, r ∈ w.reqDefer ∨ ∃ q, w'.reqs r = some q) : StackInv w' := by
  refine ⟨hsettled, fun f hf => ?_, fun c hc => ?_, fun r hr => ?_⟩
  · rcases hknown f hf with hold | hnew
    · exact (h.known f hold).grow hconns hreqs
    · exact hnew
  · rcases hlisted c hc with hold | hnew
    · obtain ⟨x, hx⟩ := h.listed c hold
      exact hconns c x hx
    · exact hnew
  · rcases hdeferred r hr with hold | hnew
    · obtain ⟨q, hq⟩ := h.deferred r hold
      exact hreqs r q hq
    · exact hnew

end Congr

/-- What the invariant reads of a connection. -/
def Conn.view (x : Conn) : Bool × Bool × Option ReqId :=
  (decide (x.state = .closed), x.freed, x.request)

def Req.view (q : Req) : ConnId × Bool := (q.conn, q.closed)

/-- The frames that the counts are about. -/
def Frame.pending : Frame → Bool
  | .connectionClosed _ | .doClose _ | .clearStuff _ => true
  | _ => false

/-- A change that the counts do not see. -/
structure Quiet (w w' : World) : Prop where
  conns : ∀ c, (w'.conns c).map Conn.view = (w.conns c).map Conn.view
  reqs : ∀ r, (w'.reqs r).map Req.view = (w.reqs r).map Req.view
  connections : w'.connections = w.connections
  connDefer : w'.connDefer = w.connDefer
  reqDefer : w'.reqDefer = w.reqDefer
  trace : w'.trace = w.trace
  pending : w'.stack.filter Frame.pending = w.stack.filter Frame.pending
  settled : Settled w'.stack
  known : ∀ f ∈ w'.stack, f ∈ w.stack ∨ f.Known w'

section Quiet

variable {w w' : World} {c : ConnId} {r : ReqId}

theorem Quiet.count (h : Quiet w w') {f : Frame} (hf : f.pending = true) :
    w'.stack.count f = w.stack.count f := by
  rw [← List.count_filter hf, h.pending, List.count_filter hf]

theorem Quiet.conn (h : Quiet w w') {x' : Conn} (hx : w'.conns c = some x') :
    ∃ x, w.conns c = some x ∧ x'.view = x.view := by
  have hview := h.conns c
  rw [hx, Option.map_some] at hview
  obtain ⟨x, hx, he⟩ := Option.map_eq_some_iff.mp hview.symm
  exact ⟨x, hx, he.symm⟩

theorem Quiet.conn_some (h : Quiet w w') {x : Conn} (hx : w.conns c = some x) :
    ∃ x', w'.conns c = some x' ∧ x'.view = x.view := by
  have hview := h.conns c
  rw [hx, Option.map_some] at hview
  exact Option.map_eq_some_iff.mp hview

theorem Quiet.req (h : Quiet w w') {q' : Req} (hq : w'.reqs r = some q') :
    ∃ q, w.reqs r = some q ∧ q'.view = q.view := by
  have hview := h.reqs r
  rw [hq, Option.map_some] at hview
  obtain ⟨q, hq, he⟩ := Option.map_eq_some_iff.mp hview.symm
  exact ⟨q, hq, he.symm⟩

theorem Quiet.req_some (h : Quiet w w') {q : Req} (hq : w.reqs r = some q) :
    ∃ q', w'.reqs r = some q' ∧ q'.view = q.view := by
  have hview := h.reqs r
  rw [hq, Option.map_some] at hview
  exact Option.map_eq_some_iff.mp hview

theorem connClosed_of_view (h : (w'.conns c).map Conn.view = (w.conns c).map Conn.view) :
    w'.connClosed c = w.connClosed c ∧ w'.connFreed c = w.connFreed c := by
  unfold World.connClosed World.connFreed
  cases hx : w.conns c with
  | none =>
    rw [hx] at h
    cases hx' : w'.conns c with
    | none => exact ⟨rfl, rfl⟩
    | some x' => rw [hx'] at h; cases h
  | some x =>
    rw [hx] at h
    obtain ⟨x', hx', hview⟩ := Option.map_eq_some_iff.mp h
    rw [hx']
    obtain ⟨hstate, hrest⟩ := Prod.mk.inj hview
    obtain ⟨hfreed, -⟩ := Prod.mk.inj hrest
    have hiff : x'.state = .closed ↔ x.state = .closed := by simpa using hstate
    simp [hiff, hfreed]

theorem reqClosed_of_view (h : (w'.reqs r).map Req.view = (w.reqs r).map Req.view) :
    w'.reqClosed r = w.reqClosed r := by
  unfold World.reqClosed
  cases hq : w.reqs r with
  | none =>
    rw [hq] at h
    cases hq' : w'.reqs r with
    | none => rfl
    | some q' => rw [hq'] at h; cases h
  | some q =>
    rw [hq] at h
    obtain ⟨q', hq', hview⟩ := Option.map_eq_some_iff.mp h
    rw [hq']
    have hclosed := (Prod.mk.inj hview).2
    simp [hclosed]

/-- No connection is between the two closes. -/
def World.Unclosing (w : World) : Prop :=
  ∀ c x r, w.conns c = some x → x.state = .closed → x.request ≠ some r

theorem TeardownInv.unclosing (h : TeardownInv w)
    (htop : ∀ r rest, w.stack ≠ .requestClose r :: rest) : w.Unclosing := by
  intro c x r hx hclosed hr
  obtain ⟨rest, hstack⟩ := h.link.closing c x r hx hclosed hr
  exact htop r _ hstack

theorem TeardownInv.quiet (h : TeardownInv w) (hq : Quiet w w') (hnone : w.Unclosing) :
    TeardownInv w' where
  conn c := by
    obtain ⟨hclosed, hfreed⟩ := connClosed_of_view (hq.conns c)
    have hdec : w'.decrements c = w.decrements c := by
      unfold World.decrements
      rw [hq.trace]
    exact (h.conn c).congr hclosed hfreed hdec (by rw [hq.trace]) (hq.count rfl)
      (by rw [hq.connDefer])
  req r := (h.req r).congr (reqClosed_of_view (hq.reqs r)) (fun _ _ => by rw [hq.trace])
    (hq.count rfl) (hq.count rfl) (by rw [hq.reqDefer])
  link := by
    refine ⟨fun c x' r hx' hr => ?_, fun r q' hq' hopen => ?_, fun r q' hq' => ?_,
      fun c x' r hx' hclosed hr => ?_⟩
    · obtain ⟨x, hx, hview⟩ := hq.conn hx'
      have hreq : x'.request = x.request := congrArg (fun v => v.2.2) hview
      obtain ⟨q, hreqs, hconn, hopen⟩ := h.link.current c x r hx (hreq.symm.trans hr)
      obtain ⟨q', hq', hqview⟩ := hq.req_some hreqs
      have hconn' : q'.conn = q.conn := congrArg Prod.fst hqview
      have hclosed' : q'.closed = q.closed := congrArg Prod.snd hqview
      exact ⟨q', hq', hconn'.trans hconn, hclosed'.trans hopen⟩
    · obtain ⟨q, hreqs, hqview⟩ := hq.req hq'
      have hconn' : q'.conn = q.conn := congrArg Prod.fst hqview
      have hclosed' : q'.closed = q.closed := congrArg Prod.snd hqview
      obtain ⟨x, hx, hr⟩ := h.link.linked r q hreqs (hclosed'.symm.trans hopen)
      obtain ⟨x', hx', hview⟩ := hq.conn_some hx
      have hreq : x'.request = x.request := congrArg (fun v => v.2.2) hview
      exact ⟨x', by rw [hconn']; exact hx', hreq.trans hr⟩
    · obtain ⟨q, hreqs, hqview⟩ := hq.req hq'
      have hconn' : q'.conn = q.conn := congrArg Prod.fst hqview
      obtain ⟨x, hx⟩ := h.link.owner r q hreqs
      obtain ⟨x', hx', -⟩ := hq.conn_some hx
      exact ⟨x', by rw [hconn']; exact hx'⟩
    · obtain ⟨x, hx, hview⟩ := hq.conn hx'
      have hreq : x'.request = x.request := congrArg (fun v => v.2.2) hview
      have hstate : decide (x'.state = .closed) = decide (x.state = .closed) :=
        congrArg Prod.fst hview
      have hx_closed : x.state = .closed := by simpa [hclosed] using hstate
      exact absurd (hreq.symm.trans hr) (hnone c x r hx hx_closed)
  stack := by
    refine h.stack.grow (fun c x hx => ?_) (fun r q hreqs => ?_) hq.settled hq.known
      (fun c hc => .inl ?_) (fun r hr => .inl ?_)
    · obtain ⟨x', hx', -⟩ := hq.conn_some hx
      exact ⟨x', hx'⟩
    · obtain ⟨q', hq', -⟩ := hq.req_some hreqs
      exact ⟨q', hq'⟩
    · rw [← hq.connDefer]
      exact hc
    · rw [← hq.reqDefer]
      exact hr
  trace := h.trace.congr hq.connections hq.trace

end Quiet

section Changes

variable {w : World} {c : ConnId} {r : ReqId} {x : Conn} {q : Req} {f : Frame} {rest : List Frame}

theorem decrements_append (e : Event) (es : List Event) :
    (es ++ [e]).countP (Event.isDecrement c) =
      es.countP (Event.isDecrement c) + if e.isDecrement c = true then 1 else 0 := by
  rw [List.countP_append, List.countP_singleton]

theorem count_snoc_of_ne {α : Type} [DecidableEq α] {l : List α} {a b : α} (h : b ≠ a) :
    (l ++ [b]).count a = l.count a := by
  rw [List.count_append, List.count_singleton, if_neg (by simpa using h), Nat.add_zero]

theorem count_snoc_self {α : Type} [DecidableEq α] {l : List α} {a : α} :
    (l ++ [a]).count a = l.count a + 1 := by
  rw [List.count_append, List.count_singleton_self]

theorem count_emit {e e' : Event} (h : e ≠ e') : (w.emit e).trace.count e' = w.trace.count e' :=
  count_snoc_of_ne h

/-- An event that counts for nothing. -/
theorem ConnInv.emit (h : ConnInv w c) {e : Event} (hdec : e.isDecrement c = false)
    (hfreed : e ≠ .freed c) : ConnInv (w.emit e) c := by
  refine h.congr rfl rfl ?_ (count_emit hfreed) rfl rfl
  unfold World.decrements World.emit
  rw [decrements_append, hdec]
  rfl

theorem ReqInv.emit (h : ReqInv w r) {e : Event}
    (he : ∀ e' ∈ [Event.closed r, .logged r, .deferred r, .destroyed r], e ≠ e') :
    ReqInv (w.emit e) r :=
  h.congr rfl (fun e' hmem => count_emit (he e' hmem)) rfl rfl rfl

theorem TraceInv.emit (h : TraceInv w) {e : Event} (hstep : ∀ r, e ≠ .stepped r)
    (haccept : ∀ l, e.isAccepted l = false) (hleft : ∀ l, e.isLeft l = false) :
    TraceInv (w.emit e) := by
  refine ⟨?_, fun l => ?_⟩
  · refine List.pairwise_append.mpr ⟨h.noStep, List.pairwise_singleton _ _, ?_⟩
    intro a _ b hb r _
    rw [List.mem_singleton.mp hb]
    exact hstep r
  · unfold World.emit
    rw [List.countP_append, List.countP_append, List.countP_singleton, List.countP_singleton,
      haccept, hleft]
    exact h.counter l

theorem TeardownInv.stepped (h : TeardownInv w) (hq : w.reqs r = some q) (hopen : q.closed = false) :
    TeardownInv (w.emit (.stepped r)) where
  conn c := (h.conn c).emit rfl nofun
  req r := (h.req r).emit (by simp)
  link := h.link.congr rfl rfl rfl
  stack := ⟨h.stack.settled, h.stack.known, h.stack.listed, h.stack.deferred⟩
  trace := by
    refine ⟨?_, fun l => ?_⟩
    · refine List.pairwise_append.mpr ⟨h.trace.noStep, List.pairwise_singleton _ _, ?_⟩
      intro a ha b hb r' hclosed
      rw [List.mem_singleton.mp hb]
      intro hsame
      obtain rfl : r = r' := Event.stepped.inj hsame
      have hnone : w.trace.count (.closed r) = 0 := by
        rw [(h.req r).closed]
        unfold World.reqClosed
        rw [hq]
        simp [hopen]
      rw [hclosed] at ha
      exact List.count_eq_zero.mp hnone ha
    · unfold World.emit
      rw [List.countP_append, List.countP_append]
      exact h.trace.counter l

/-- The rest of the world is left alone. -/
theorem putDefer_eq (c : ConnId) (w : World) :
    ∃ l, phlConnectionPutDefer c w = { w with connDefer := l } := by
  unfold phlConnectionPutDefer
  by_cases hc : c ∈ w.connDefer
  · rw [if_pos hc]
    exact ⟨w.connDefer, rfl⟩
  · rw [if_neg hc]
    exact ⟨_, rfl⟩

theorem count_putDefer (c d : ConnId) (w : World) : (phlConnectionPutDefer c w).connDefer.count d =
    if d = c then max (w.connDefer.count c) 1 else w.connDefer.count d := by
  unfold phlConnectionPutDefer
  by_cases hd : d = c
  · subst hd
    rw [if_pos rfl]
    by_cases hc : d ∈ w.connDefer
    · have hpos := List.count_pos_iff.mpr hc
      rw [if_pos hc]
      omega
    · have hzero := List.count_eq_zero.mpr hc
      rw [if_neg hc]
      show (w.connDefer ++ [d]).count d = _
      rw [count_snoc_self]
      omega
  · rw [if_neg hd]
    by_cases hc : c ∈ w.connDefer
    · rw [if_pos hc]
    · rw [if_neg hc]
      exact count_snoc_of_ne (Ne.symm hd)

theorem mem_putDefer {d : ConnId} (h : d ∈ (phlConnectionPutDefer c w).connDefer) :
    d ∈ w.connDefer ∨ d = c := by
  have hpos := List.count_pos_iff.mpr h
  rw [count_putDefer] at hpos
  by_cases hd : d = c
  · exact .inr hd
  · rw [if_neg hd] at hpos
    exact .inl (List.count_pos_iff.mp hpos)

/-- An open connection is put on the list. -/
theorem TeardownInv.putDefer (h : TeardownInv w) (hx : w.conns c = some x)
    (hopen : x.state ≠ .closed) : TeardownInv (phlConnectionPutDefer c w) := by
  have hlist := count_putDefer c
  have hmem := fun d => mem_putDefer (c := c) (w := w) (d := d)
  obtain ⟨l, hl⟩ := putDefer_eq c w
  have hcount := fun d => hlist d w
  rw [hl] at hcount hmem ⊢
  refine ⟨fun d => ?_, fun r => (h.req r).congr rfl (fun _ _ => rfl) rfl rfl rfl,
    h.link.congr rfl rfl rfl, ?_, h.trace.congr rfl rfl⟩
  · have hinv := h.conn d
    have hd := hcount d
    dsimp only at hd
    by_cases hdc : d = c
    · subst hdc
      have hclosed : w.connClosed d = 0 := by
        unfold World.connClosed
        rw [hx]
        simp [hopen]
      have hdec := hinv.decremented
      have hlast := hinv.freedLast
      have honce := hinv.once
      rw [if_pos rfl] at hd
      refine ⟨hinv.decremented, ?_, ?_, hinv.freed, hinv.freedLast⟩
      · show w.decrements d ≤ l.count d + w.connFreed d
        omega
      · show l.count d + w.connFreed d ≤ 1
        omega
    · rw [if_neg hdc] at hd
      exact hinv.congr rfl rfl rfl rfl rfl hd
  · refine h.stack.grow (fun _ x hx => ⟨x, hx⟩) (fun _ q hq => ⟨q, hq⟩) h.stack.settled
      (fun f hf => .inl hf) (fun d hd => ?_) (fun r hr => .inl hr)
    rcases hmem d hd with hd | rfl
    · exact .inl hd
    · exact .inr ⟨x, hx⟩

@[simp] theorem connClosed_setConn (d : ConnId) : (w.setConn c x).connClosed d =
    if d = c then if x.state = .closed then 1 else 0 else w.connClosed d := by
  unfold World.connClosed World.setConn
  by_cases hd : d = c
  · subst hd
    simp
  · simp [hd]

@[simp] theorem connFreed_setConn (d : ConnId) : (w.setConn c x).connFreed d =
    if d = c then if x.freed = true then 1 else 0 else w.connFreed d := by
  unfold World.connFreed World.setConn
  by_cases hd : d = c
  · subst hd
    simp
  · simp [hd]

@[simp] theorem reqClosed_setReq (s : ReqId) : (w.setReq r q).reqClosed s =
    if s = r then if q.closed = true then 1 else 0 else w.reqClosed s := by
  unfold World.reqClosed World.setReq
  by_cases hs : s = r
  · subst hs
    simp
  · simp [hs]

theorem connClosed_some (hx : w.conns c = some x) :
    w.connClosed c = if x.state = .closed then 1 else 0 := by
  unfold World.connClosed
  rw [hx]

theorem connFreed_some (hx : w.conns c = some x) :
    w.connFreed c = if x.freed = true then 1 else 0 := by
  unfold World.connFreed
  rw [hx]

/-- A change of a connection that leaves it as closed as it was. -/
theorem connClosed_setConn_same {y : Conn} (d : ConnId) (hy : w.conns c = some y)
    (hsame : x.state = y.state) : (w.setConn c x).connClosed d = w.connClosed d := by
  rw [connClosed_setConn]
  by_cases hd : d = c
  · rw [if_pos hd, hd, hsame, connClosed_some hy]
  · rw [if_neg hd]

/-- A change of a connection that leaves it as freed as it was. -/
theorem connFreed_setConn_same {y : Conn} (d : ConnId) (hy : w.conns c = some y)
    (hsame : x.freed = y.freed) : (w.setConn c x).connFreed d = w.connFreed d := by
  rw [connFreed_setConn]
  by_cases hd : d = c
  · rw [if_pos hd, hd, hsame, connFreed_some hy]
  · rw [if_neg hd]

theorem reqClosed_some (hq : w.reqs r = some q) :
    w.reqClosed r = if q.closed = true then 1 else 0 := by
  unfold World.reqClosed
  rw [hq]

theorem setConn_some (d : ConnId) {y : Conn} (h : (w.setConn c x).conns d = some y) :
    d = c ∧ y = x ∨ d ≠ c ∧ w.conns d = some y := by
  unfold World.setConn at h
  by_cases hd : d = c
  · subst hd
    simp only [Function.update_self, Option.some.injEq] at h
    exact .inl ⟨rfl, h.symm⟩
  · simp only [Function.update_of_ne hd] at h
    exact .inr ⟨hd, h⟩

theorem setReq_some (s : ReqId) {p : Req} (h : (w.setReq r q).reqs s = some p) :
    s = r ∧ p = q ∨ s ≠ r ∧ w.reqs s = some p := by
  unfold World.setReq at h
  by_cases hs : s = r
  · subst hs
    simp only [Function.update_self, Option.some.injEq] at h
    exact .inl ⟨rfl, h.symm⟩
  · simp only [Function.update_of_ne hs] at h
    exact .inr ⟨hs, h⟩

theorem conns_setConn_self : (w.setConn c x).conns c = some x := Function.update_self ..

theorem conns_setConn_of_ne {d : ConnId} (h : d ≠ c) : (w.setConn c x).conns d = w.conns d :=
  Function.update_of_ne h ..

theorem reqs_setReq_self : (w.setReq r q).reqs r = some q := Function.update_self ..

theorem reqs_setReq_of_ne {s : ReqId} (h : s ≠ r) : (w.setReq r q).reqs s = w.reqs s :=
  Function.update_of_ne h ..

theorem conns_grow (d : ConnId) (y : Conn) (h : w.conns d = some y) :
    ∃ y', (w.setConn c x).conns d = some y' := by
  by_cases hd : d = c
  · rw [hd]
    exact ⟨x, conns_setConn_self⟩
  · exact ⟨y, (conns_setConn_of_ne hd).trans h⟩

theorem reqs_grow (s : ReqId) (p : Req) (h : w.reqs s = some p) :
    ∃ p', (w.setReq r q).reqs s = some p' := by
  by_cases hs : s = r
  · rw [hs]
    exact ⟨q, reqs_setReq_self⟩
  · exact ⟨p, (reqs_setReq_of_ne hs).trans h⟩

/-- A change of a connection that keeps its request. -/
theorem LinkInv.setConn {w' : World} (h : LinkInv w) (hx : w.conns c = some x) (x' : Conn)
    (hreq : x'.request = x.request) (hconns : w'.conns = (w.setConn c x').conns)
    (hreqs : w'.reqs = w.reqs)
    (hclosing : ∀ d y s, w'.conns d = some y → y.state = .closed → y.request = some s →
      ∃ rest, w'.stack = .requestClose s :: .connectionClosed d :: rest) : LinkInv w' := by
  refine ⟨fun d y s hy hs => ?_, fun s p hp hsopen => ?_, fun s p hp => ?_, hclosing⟩
  · rw [hconns] at hy
    rw [hreqs]
    rcases setConn_some d hy with ⟨rfl, rfl⟩ | ⟨-, hy⟩
    · exact h.current d x s hx (hreq.symm.trans hs)
    · exact h.current d y s hy hs
  · rw [hreqs] at hp
    rw [hconns]
    obtain ⟨y, hy, hs⟩ := h.linked s p hp hsopen
    by_cases hd : p.conn = c
    · rw [hd, hx] at hy
      cases Option.some.inj hy
      rw [hd]
      exact ⟨x', conns_setConn_self, hreq.trans hs⟩
    · exact ⟨y, (conns_setConn_of_ne hd).trans hy, hs⟩
  · rw [hreqs] at hp
    rw [hconns]
    obtain ⟨y, hy⟩ := h.owner s p hp
    exact conns_grow _ y hy

/-- An event that moves the counter of a listener by `n`. -/
theorem counter_addConnections {l k : ListenId} {n : Int} {e : Event}
    (h : w.connections k = w.trace.countP (Event.isAccepted k) - w.trace.countP (Event.isLeft k))
    (he : (if l = k then n else 0) = (if e.isAccepted k = true then (1 : Int) else 0) -
      (if e.isLeft k = true then 1 else 0)) :
    (w.addConnections l n).connections k =
      ((w.trace ++ [e]).countP (Event.isAccepted k) : Int) -
        (w.trace ++ [e]).countP (Event.isLeft k) := by
  have hmoved : (w.addConnections l n).connections k = w.connections k + if l = k then n else 0 := by
    unfold World.addConnections
    by_cases hk : k = l
    · subst hk
      simp
    · simp [hk, Ne.symm hk]
  rw [List.countP_append, List.countP_append, List.countP_singleton, List.countP_singleton, hmoved,
    he, h]
  push_cast
  omega

theorem TeardownInv.accept (h : TeardownInv w) (hc : w.conns c = none) (l : ListenId) :
    TeardownInv (((w.addConnections l 1).emit (.accepted c l)).setConn c
      ⟨l, .reading, none, none, false⟩) where
  conn d := by
    have hnone : w.connClosed c = 0 ∧ w.connFreed c = 0 := by
      unfold World.connClosed World.connFreed
      rw [hc]
      exact ⟨rfl, rfl⟩
    refine (h.conn d).congr ?_ ?_ ?_ (count_emit nofun) rfl rfl
    · rw [connClosed_setConn]
      by_cases hd : d = c
      · rw [if_pos hd, hd]
        exact hnone.1.symm
      · rw [if_neg hd]
        rfl
    · rw [connFreed_setConn]
      by_cases hd : d = c
      · rw [if_pos hd, hd]
        exact hnone.2.symm
      · rw [if_neg hd]
        rfl
    · show (w.trace ++ [Event.accepted c l]).countP (Event.isDecrement d) = _
      rw [decrements_append]
      rfl
  req r := by
    refine (h.req r).congr rfl (fun e he => count_emit ?_) rfl rfl rfl
    rintro rfl
    simp at he
  link := by
    refine ⟨fun d y r hy hr => ?_, fun r q hq hopen => ?_, fun r q hq => ?_,
      fun d y r hy hclosed hr => ?_⟩
    · rcases setConn_some d hy with ⟨-, rfl⟩ | ⟨-, hy⟩
      · cases hr
      · exact h.link.current d y r hy hr
    · obtain ⟨y, hy, hr⟩ := h.link.linked r q hq hopen
      have hne : q.conn ≠ c := fun he => by
        rw [he, hc] at hy
        cases hy
      exact ⟨y, (conns_setConn_of_ne hne).trans hy, hr⟩
    · obtain ⟨y, hy⟩ := h.link.owner r q hq
      exact conns_grow _ y hy
    · rcases setConn_some d hy with ⟨-, rfl⟩ | ⟨-, hy⟩
      · cases hr
      · exact h.link.closing d y r hy hclosed hr
  stack := h.stack.grow conns_grow (fun _ q hq => ⟨q, hq⟩) h.stack.settled (fun _ hf => .inl hf)
    (fun _ hd => .inl hd) (fun _ hr => .inl hr)
  trace := by
    refine ⟨?_, fun k => ?_⟩
    · refine List.pairwise_append.mpr ⟨h.trace.noStep, List.pairwise_singleton _ _, ?_⟩
      intro a _ b hb r _
      rw [List.mem_singleton.mp hb]
      exact nofun
    · exact counter_addConnections (h.trace.counter k) (by simp [Event.isAccepted, Event.isLeft])

/-- An open connection without a request gets one. -/
theorem TeardownInv.newRequest (h : TeardownInv w) (hx : w.conns c = some x)
    (hopen : x.state ≠ .closed) (hnone : x.request = none) (hr : w.reqs r = none) :
    TeardownInv ((w.setReq r (phlRequestNew c)).setConn c { x with request := some r }) where
  conn d := by
    refine (h.conn d).congr ?_ ?_ rfl rfl rfl rfl
    · exact connClosed_setConn_same d hx rfl
    · exact connFreed_setConn_same d hx rfl
  req s := by
    refine (h.req s).congr ?_ (fun _ _ => rfl) rfl rfl rfl
    show (w.setReq r (phlRequestNew c)).reqClosed s = _
    rw [reqClosed_setReq]
    by_cases hs : s = r
    · rw [if_pos hs, hs]
      unfold World.reqClosed
      rw [hr]
      rfl
    · rw [if_neg hs]
  link := by
    have hother : ∀ s p, w.reqs s = some p → s ≠ r := by
      intro s p hp he
      rw [he, hr] at hp
      cases hp
    refine ⟨fun d y s hy hs => ?_, fun s p hp hsopen => ?_, fun s p hp => ?_,
      fun d y s hy hclosed hs => ?_⟩
    · rcases setConn_some d hy with ⟨rfl, rfl⟩ | ⟨-, hy⟩
      · cases Option.some.inj hs
        exact ⟨phlRequestNew d, reqs_setReq_self, rfl, rfl⟩
      · obtain ⟨p, hp, hconn, hclosed⟩ := h.link.current d y s hy hs
        exact ⟨p, (reqs_setReq_of_ne (hother s p hp)).trans hp, hconn, hclosed⟩
    · rcases setReq_some s hp with ⟨rfl, rfl⟩ | ⟨-, hp⟩
      · exact ⟨_, conns_setConn_self, rfl⟩
      · obtain ⟨y, hy, hs⟩ := h.link.linked s p hp hsopen
        have hne : p.conn ≠ c := fun he => by
          rw [he, hx] at hy
          cases Option.some.inj hy
          rw [hnone] at hs
          cases hs
        exact ⟨y, (conns_setConn_of_ne hne).trans hy, hs⟩
    · rcases setReq_some s hp with ⟨rfl, rfl⟩ | ⟨-, hp⟩
      · exact ⟨_, conns_setConn_self⟩
      · obtain ⟨y, hy⟩ := h.link.owner s p hp
        exact conns_grow _ y hy
    · rcases setConn_some d hy with ⟨rfl, rfl⟩ | ⟨-, hy⟩
      · exact absurd hclosed hopen
      · exact h.link.closing d y s hy hclosed hs
  stack := h.stack.grow conns_grow reqs_grow h.stack.settled (fun _ hf => .inl hf)
    (fun _ hd => .inl hd) (fun _ hs => .inl hs)
  trace := h.trace.congr rfl rfl

/-- The stack after the function on top of it has gone on. -/
theorem StackInv.settled_rest (h : StackInv w) (hstack : w.stack = f :: rest)
    (hroutine : f ≠ .deferRoutine) (hfree : f ≠ .deferFree) : Settled rest := by
  have hsettled := h.settled
  rw [hstack] at hsettled
  cases f with
  | deferRoutine => exact absurd rfl hroutine
  | deferFree => exact absurd rfl hfree
  | _ => exact hsettled

/-- The request is marked closed and leaves its connection, and is yet to be logged. -/
theorem TeardownInv.markClosed (h : TeardownInv w) (hstack : w.stack = .requestClose r :: rest)
    (hq : w.reqs r = some q) (hopen : q.closed = false) (hx : w.conns q.conn = some x)
    (hr : x.request = some r) :
    TeardownInv (((({ w with stack := rest }.setReq r { q with closed := true }).emit
      (.closed r)).push [.doClose r]).setConn q.conn { x with request := none }) where
  conn d := by
    have hcount : w.stack.count (.connectionClosed d) = rest.count (.connectionClosed d) := by
      rw [hstack, List.count_cons_of_ne (by simp)]
    refine (h.conn d).congr ?_ ?_ ?_ (count_emit nofun) ?_ rfl
    · exact connClosed_setConn_same d hx rfl
    · exact connFreed_setConn_same d hx rfl
    · show (w.trace ++ [Event.closed r]).countP (Event.isDecrement d) = _
      rw [decrements_append]
      rfl
    · rw [hcount]
      exact List.count_cons_of_ne (by simp)
  req s := by
    obtain ⟨hclosed, hlogged, hdeferred, hdestroyed⟩ := h.req s
    have hdo : w.stack.count (.doClose s) = rest.count (.doClose s) := by
      rw [hstack, List.count_cons_of_ne (by simp)]
    have hclear : w.stack.count (.clearStuff s) = rest.count (.clearStuff s) := by
      rw [hstack, List.count_cons_of_ne (by simp)]
    by_cases hs : s = r
    · subst hs
      have hzero : w.reqClosed s = 0 := by
        rw [reqClosed_some hq, hopen]
        rfl
      have hone : (w.setReq s { q with closed := true }).reqClosed s = 1 := by simp
      refine ⟨?_, ?_, ?_, ?_⟩
      · show (w.trace ++ [Event.closed s]).count (.closed s) =
          (w.setReq s { q with closed := true }).reqClosed s
        rw [hone, count_snoc_self]
        omega
      · show (w.trace ++ [Event.closed s]).count (.logged s) +
          (Frame.doClose s :: rest).count (.doClose s) =
            (w.setReq s { q with closed := true }).reqClosed s
        rw [hone, count_snoc_of_ne (by simp), List.count_cons_self]
        omega
      · show (w.trace ++ [Event.closed s]).count (.deferred s) +
          (Frame.doClose s :: rest).count (.doClose s) +
            (Frame.doClose s :: rest).count (.clearStuff s) =
              (w.setReq s { q with closed := true }).reqClosed s
        rw [hone, count_snoc_of_ne (by simp), List.count_cons_self, List.count_cons_of_ne (by simp)]
        omega
      · show w.reqDefer.count s + (w.trace ++ [Event.closed s]).count (.destroyed s) =
          (w.trace ++ [Event.closed s]).count (.deferred s)
        rw [count_snoc_of_ne (by simp), count_snoc_of_ne (by simp)]
        omega
    · refine (h.req s).congr ?_ (fun e he => count_emit ?_) ?_ ?_ rfl
      · show (w.setReq r { q with closed := true }).reqClosed s = _
        rw [reqClosed_setReq, if_neg hs]
      · rintro rfl
        simp [Ne.symm hs] at he
      · rw [hdo]
        exact List.count_cons_of_ne (by simpa using Ne.symm hs)
      · rw [hclear]
        exact List.count_cons_of_ne (by simp)
  link := by
    refine ⟨fun d y s hy hs => ?_, fun s p hp hsopen => ?_, fun s p hp => ?_,
      fun d y s hy hclosed hs => ?_⟩
    · rcases setConn_some d hy with ⟨rfl, rfl⟩ | ⟨hd, hy⟩
      · cases hs
      · obtain ⟨p, hp, hconn, hclosed⟩ := h.link.current d y s hy hs
        have hne : s ≠ r := fun he => by
          rw [he, hq] at hp
          cases Option.some.inj hp
          exact hd hconn.symm
        exact ⟨p, (reqs_setReq_of_ne hne).trans hp, hconn, hclosed⟩
    · rcases setReq_some s hp with ⟨-, rfl⟩ | ⟨hne, hp⟩
      · cases hsopen
      · obtain ⟨y, hy, hs⟩ := h.link.linked s p hp hsopen
        have hconn : p.conn ≠ q.conn := fun he => by
          rw [he, hx] at hy
          cases Option.some.inj hy
          exact hne (Option.some.inj (hs.symm.trans hr))
        exact ⟨y, (conns_setConn_of_ne hconn).trans hy, hs⟩
    · rcases setReq_some s hp with ⟨-, rfl⟩ | ⟨-, hp⟩
      · exact ⟨_, conns_setConn_self⟩
      · obtain ⟨y, hy⟩ := h.link.owner s p hp
        exact conns_grow _ y hy
    · rcases setConn_some d hy with ⟨rfl, rfl⟩ | ⟨hd, hy⟩
      · cases hs
      · -- the only connection between its two closes is that of `r`
        obtain ⟨more, htop⟩ := h.link.closing d y s hy hclosed hs
        rw [hstack] at htop
        cases htop
        obtain ⟨p, hp, hconn, -⟩ := h.link.current d y r hy hs
        rw [hq] at hp
        cases Option.some.inj hp
        exact absurd hconn.symm hd
  stack := by
    have hsettled := h.stack.settled_rest hstack nofun nofun
    refine h.stack.grow conns_grow reqs_grow hsettled (fun g hg => ?_) (fun _ hd => .inl hd) (fun _ hs => .inl hs)
    rcases List.mem_cons.mp hg with rfl | hg
    · exact .inr ⟨_, reqs_setReq_self⟩
    · rw [hstack]
      exact .inl (List.mem_cons_of_mem _ hg)
  trace := by
    have htrace := h.trace.emit (e := .closed r) nofun (fun _ => rfl) (fun _ => rfl)
    exact htrace.congr rfl rfl

theorem TeardownInv.doClose (h : TeardownInv w) (hstack : w.stack = .doClose r :: rest) :
    TeardownInv (phlRequestDoClose r { w with stack := rest }) where
  conn d := by
    refine (h.conn d).congr rfl rfl ?_ (count_emit nofun) ?_ rfl
    · show (w.trace ++ [Event.logged r]).countP (Event.isDecrement d) = _
      rw [decrements_append]
      rfl
    · rw [hstack, List.count_cons_of_ne (by simp)]
      exact List.count_cons_of_ne (by simp)
  req s := by
    obtain ⟨hclosed, hlogged, hdeferred, hdestroyed⟩ := h.req s
    rw [hstack] at hlogged hdeferred
    by_cases hs : s = r
    · subst hs
      rw [List.count_cons_self] at hlogged hdeferred
      rw [List.count_cons_of_ne (by simp)] at hdeferred
      refine ⟨?_, ?_, ?_, ?_⟩
      · show (w.trace ++ [Event.logged s]).count (.closed s) = w.reqClosed s
        rw [count_snoc_of_ne (by simp)]
        omega
      · show (w.trace ++ [Event.logged s]).count (.logged s) +
          (Frame.clearStuff s :: rest).count (.doClose s) = w.reqClosed s
        rw [count_snoc_self, List.count_cons_of_ne (by simp)]
        omega
      · show (w.trace ++ [Event.logged s]).count (.deferred s) +
          (Frame.clearStuff s :: rest).count (.doClose s) +
            (Frame.clearStuff s :: rest).count (.clearStuff s) = w.reqClosed s
        rw [count_snoc_of_ne (by simp), List.count_cons_self, List.count_cons_of_ne (by simp)]
        omega
      · show w.reqDefer.count s + (w.trace ++ [Event.logged s]).count (.destroyed s) =
          (w.trace ++ [Event.logged s]).count (.deferred s)
        rw [count_snoc_of_ne (by simp), count_snoc_of_ne (by simp)]
        omega
    · refine (h.req s).congr rfl (fun e he => count_emit ?_) ?_ ?_ rfl
      · rintro rfl
        simp [Ne.symm hs] at he
      · rw [hstack, List.count_cons_of_ne (by simpa using Ne.symm hs)]
        exact List.count_cons_of_ne (by simp)
      · rw [hstack, List.count_cons_of_ne (by simp)]
        exact List.count_cons_of_ne (by simpa using Ne.symm hs)
  link := by
    refine ⟨h.link.current, h.link.linked, h.link.owner, fun d y s hy hclosed hs => ?_⟩
    have hnone := h.unclosing (by rw [hstack]; exact fun _ _ => nofun)
    exact absurd hs (hnone d y s hy hclosed)
  stack := by
    have hsettled := h.stack.settled_rest hstack nofun nofun
    have hknown : Frame.Known w (.doClose r) := h.stack.known _ (by rw [hstack]; simp)
    refine h.stack.grow (fun _ x hx => ⟨x, hx⟩) (fun _ q hq => ⟨q, hq⟩) hsettled
      (fun g hg => ?_) (fun _ hd => .inl hd) (fun _ hs => .inl hs)
    rcases List.mem_cons.mp hg with rfl | hg
    · exact .inr hknown
    · rw [hstack]
      exact .inl (List.mem_cons_of_mem _ hg)
  trace := by
    have htrace := h.trace.emit (e := .logged r) nofun (fun _ => rfl) (fun _ => rfl)
    exact htrace.congr rfl rfl

theorem TeardownInv.clearStuff (h : TeardownInv w) (hstack : w.stack = .clearStuff r :: rest) :
    TeardownInv (phlRequestClearStuff r { w with stack := rest }) where
  conn d := by
    refine (h.conn d).congr rfl rfl ?_ (count_emit nofun) ?_ rfl
    · show (w.trace ++ [Event.deferred r]).countP (Event.isDecrement d) = _
      rw [decrements_append]
      rfl
    · rw [hstack, List.count_cons_of_ne (by simp)]
      rfl
  req s := by
    obtain ⟨hclosed, hlogged, hdeferred, hdestroyed⟩ := h.req s
    rw [hstack] at hlogged hdeferred
    by_cases hs : s = r
    · subst hs
      rw [List.count_cons_self] at hdeferred
      rw [List.count_cons_of_ne (by simp)] at hlogged hdeferred
      refine ⟨?_, ?_, ?_, ?_⟩
      · show (w.trace ++ [Event.deferred s]).count (.closed s) = w.reqClosed s
        rw [count_snoc_of_ne (by simp)]
        omega
      · show (w.trace ++ [Event.deferred s]).count (.logged s) + rest.count (.doClose s) =
          w.reqClosed s
        rw [count_snoc_of_ne (by simp)]
        omega
      · show (w.trace ++ [Event.deferred s]).count (.deferred s) + rest.count (.doClose s) +
          rest.count (.clearStuff s) = w.reqClosed s
        rw [count_snoc_self]
        omega
      · show (w.reqDefer ++ [s]).count s + (w.trace ++ [Event.deferred s]).count (.destroyed s) =
          (w.trace ++ [Event.deferred s]).count (.deferred s)
        rw [count_snoc_self, count_snoc_self, count_snoc_of_ne (by simp)]
        omega
    · refine (h.req s).congr rfl (fun e he => count_emit ?_) ?_ ?_ ?_
      · rintro rfl
        simp [Ne.symm hs] at he
      · rw [hstack, List.count_cons_of_ne (by simp)]
        rfl
      · rw [hstack, List.count_cons_of_ne (by simpa using Ne.symm hs)]
        rfl
      · show (w.reqDefer ++ [r]).count s = _
        exact count_snoc_of_ne (Ne.symm hs)
  link := by
    refine ⟨h.link.current, h.link.linked, h.link.owner, fun d y s hy hclosed hs => ?_⟩
    have hnone := h.unclosing (by rw [hstack]; exact fun _ _ => nofun)
    exact absurd hs (hnone d y s hy hclosed)
  stack := by
    have hsettled := h.stack.settled_rest hstack nofun nofun
    have hknown : Frame.Known w (.clearStuff r) := h.stack.known _ (by rw [hstack]; simp)
    refine h.stack.grow (fun _ x hx => ⟨x, hx⟩) (fun _ q hq => ⟨q, hq⟩) hsettled
      (fun g hg => .inl ?_) (fun _ hd => .inl hd) (fun s hs => ?_)
    · rw [hstack]
      exact List.mem_cons_of_mem _ hg
    · rcases List.mem_append.mp hs with hs | hs
      · exact .inl hs
      · rw [List.mem_singleton.mp hs]
        exact .inr hknown
  trace := by
    have htrace := h.trace.emit (e := .deferred r) nofun (fun _ => rfl) (fun _ => rfl)
    exact htrace.congr rfl rfl

/-- The connection is marked closed and is yet to be taken from the counter; its request, if any,
is about to be closed. -/
theorem TeardownInv.connectionClose {fs : List Frame} (h : TeardownInv w)
    (hstack : w.stack = .connectionClose c :: rest) (hx : w.conns c = some x)
    (hopen : x.state ≠ .closed)
    (hfs : x.request = none ∧ fs = [.connectionClosed c] ∨
      ∃ r, x.request = some r ∧ fs = [.requestClose r, .connectionClosed c]) :
    TeardownInv (({ w with stack := rest }.setConn c { x with state := .closed }).push fs) where
  conn d := by
    have hpop : w.stack.count (.connectionClosed d) = rest.count (.connectionClosed d) := by
      rw [hstack, List.count_cons_of_ne (by simp)]
    have hpush : (fs ++ rest).count (.connectionClosed d) =
        (Frame.connectionClosed c :: rest).count (.connectionClosed d) := by
      rcases hfs with ⟨-, rfl⟩ | ⟨r, -, rfl⟩
      · rfl
      · exact List.count_cons_of_ne (by simp)
    have hfreed : (w.setConn c { x with state := .closed }).connFreed d = w.connFreed d :=
      connFreed_setConn_same d hx rfl
    have hinv := h.conn d
    by_cases hd : d = c
    · subst hd
      have hzero : w.connClosed d = 0 := by
        rw [connClosed_some hx, if_neg hopen]
      have hone : (w.setConn d { x with state := .closed }).connClosed d = 1 := by simp
      have hdec := hinv.decremented
      refine ⟨?_, ?_, ?_, hinv.freed.trans hfreed.symm, ?_⟩
      · show w.decrements d + (fs ++ rest).count (.connectionClosed d) =
          (w.setConn d { x with state := .closed }).connClosed d
        rw [hone, hpush, List.count_cons_self]
        omega
      · exact le_of_le_of_eq hinv.listed (by rw [← hfreed]; rfl)
      · exact le_of_eq_of_le (by rw [← hfreed]; rfl) hinv.once
      · exact le_of_eq_of_le hfreed hinv.freedLast
    · refine hinv.congr ?_ hfreed rfl rfl ?_ rfl
      · show (w.setConn c { x with state := .closed }).connClosed d = _
        rw [connClosed_setConn, if_neg hd]
      · rw [hpop]
        refine hpush.trans (List.count_cons_of_ne ?_)
        simpa using Ne.symm hd
  req s := by
    refine (h.req s).congr rfl (fun _ _ => rfl) ?_ ?_ rfl
    · rw [hstack]
      show (fs ++ rest).count _ = _
      rcases hfs with ⟨-, rfl⟩ | ⟨r, -, rfl⟩
      · simp
      · simp
    · rw [hstack]
      show (fs ++ rest).count _ = _
      rcases hfs with ⟨-, rfl⟩ | ⟨r, -, rfl⟩
      · simp
      · simp
  link := by
    refine h.link.setConn hx { x with state := .closed } rfl rfl rfl fun d y s hy hclosed hs => ?_
    · rcases setConn_some d hy with ⟨rfl, rfl⟩ | ⟨-, hy⟩
      · rcases hfs with ⟨hnone, -⟩ | ⟨r, hr, rfl⟩
        · rw [show x.request = some s from hs] at hnone
          cases hnone
        · rw [show x.request = some s from hs] at hr
          cases hr
          exact ⟨rest, rfl⟩
      · have hnone := h.unclosing (by rw [hstack]; exact fun _ _ => nofun)
        exact absurd hs (hnone d y s hy hclosed)
  stack := by
    have hsettled := h.stack.settled_rest hstack nofun nofun
    refine h.stack.grow conns_grow (fun _ q hq => ⟨q, hq⟩) ?_ (fun g hg => ?_) (fun _ hd => .inl hd)
      (fun _ hs => .inl hs)
    · rcases hfs with ⟨-, rfl⟩ | ⟨r, -, rfl⟩
      · exact hsettled
      · exact hsettled
    · rcases List.mem_append.mp hg with hg | hg
      · right
        rcases hfs with ⟨-, rfl⟩ | ⟨r, hr, rfl⟩
        · rw [List.mem_singleton.mp hg]
          exact ⟨_, conns_setConn_self⟩
        · obtain ⟨q, hq, -⟩ := h.link.current c x r hx hr
          simp only [List.mem_cons, List.not_mem_nil, or_false] at hg
          rcases hg with rfl | rfl
          · exact ⟨q, hq⟩
          · exact ⟨_, conns_setConn_self⟩
      · rw [hstack]
        exact .inl (List.mem_cons_of_mem _ hg)
  trace := h.trace.congr rfl rfl

/-- The connection leaves the counter and waits for the deferred routine. -/
theorem TeardownInv.connectionClosed {w1 : World} (h : TeardownInv w)
    (hstack : w.stack = .connectionClosed c :: rest) (hx : w.conns c = some x)
    (hw1 : w1 = (({ w with stack := rest }.addConnections x.listen (-1)).emit
      (.decremented c x.listen)).setConn c { x with sendBufLen := none }) :
    TeardownInv (phlConnectionPutDefer c w1) := by
  have hcount := fun d => count_putDefer c d w1
  have hmem := fun d => mem_putDefer (c := c) (d := d) (w := w1)
  obtain ⟨l, hl⟩ := putDefer_eq c w1
  rw [hl] at hcount hmem ⊢
  subst hw1
  have hclosed : ∀ d, (w.setConn c { x with sendBufLen := none }).connClosed d = w.connClosed d :=
    fun d => connClosed_setConn_same d hx rfl
  have hfreed : ∀ d, (w.setConn c { x with sendBufLen := none }).connFreed d = w.connFreed d :=
    fun d => connFreed_setConn_same d hx rfl
  have hsnoc := fun d => decrements_append (c := d) (.decremented c x.listen) w.trace
  refine ⟨fun d => ?_, fun s => ?_, ?_, ?_, ?_⟩
  · have hinv := h.conn d
    have hd := hcount d
    have hdec := hsnoc d
    dsimp only at hd
    by_cases hdc : d = c
    · subst hdc
      obtain ⟨hdecremented, hlisted, honce, hfree, hlast⟩ := hinv
      rw [hstack, List.count_cons_self] at hdecremented
      have hle : w.connClosed d ≤ 1 := by
        rw [connClosed_some hx]
        split <;> omega
      rw [if_pos rfl] at hd
      rw [if_pos (by simp [Event.isDecrement])] at hdec
      have hd' : l.count d = max (w.connDefer.count d) 1 := hd
      have hzero : w.decrements d = 0 := by omega
      have hone : (w.trace ++ [Event.decremented d x.listen]).countP (Event.isDecrement d) = 1 := by
        rw [hdec]
        show w.decrements d + 1 = 1
        omega
      refine ⟨?_, ?_, ?_, ?_, ?_⟩
      · refine Eq.trans ?_ (hclosed d).symm
        show (w.trace ++ [Event.decremented d x.listen]).countP (Event.isDecrement d) +
          rest.count (.connectionClosed d) = w.connClosed d
        omega
      · show (w.trace ++ [Event.decremented d x.listen]).countP (Event.isDecrement d) ≤ l.count d +
          (w.setConn d { x with sendBufLen := none }).connFreed d
        omega
      · show l.count d + (w.setConn d { x with sendBufLen := none }).connFreed d ≤ 1
        rw [hfreed d]
        omega
      · have hsame : (w.trace ++ [Event.decremented d x.listen]).count (.freed d) =
            w.trace.count (.freed d) := count_snoc_of_ne nofun
        exact hsame.trans (hfree.trans (hfreed d).symm)
      · refine le_of_eq_of_le (hfreed d) ?_
        show w.connFreed d ≤ (w.trace ++ [Event.decremented d x.listen]).countP (Event.isDecrement d)
        omega
    · rw [if_neg hdc] at hd
      refine hinv.congr (hclosed d) (hfreed d) ?_ (count_snoc_of_ne nofun) ?_ hd
      · refine hdec.trans ?_
        rw [if_neg (by simpa [Event.isDecrement] using Ne.symm hdc), Nat.add_zero]
        rfl
      · rw [hstack, List.count_cons_of_ne (by simpa using Ne.symm hdc)]
        rfl
  · refine (h.req s).congr rfl (fun e he => count_snoc_of_ne ?_) ?_ ?_ rfl
    · rintro rfl
      simp at he
    · rw [hstack, List.count_cons_of_ne (by simp)]
      rfl
    · rw [hstack, List.count_cons_of_ne (by simp)]
      rfl
  · refine h.link.setConn hx { x with sendBufLen := none } rfl rfl rfl fun d y s hy hclosed hs => ?_
    · have hnone := h.unclosing (by rw [hstack]; exact fun _ _ => nofun)
      rcases setConn_some d hy with ⟨rfl, rfl⟩ | ⟨-, hy⟩
      · exact absurd hs (hnone d x s hx hclosed)
      · exact absurd hs (hnone d y s hy hclosed)
  · have hsettled := h.stack.settled_rest hstack nofun nofun
    refine h.stack.grow conns_grow (fun _ q hq => ⟨q, hq⟩) hsettled (fun g hg => .inl ?_)
      (fun d hd => ?_) (fun _ hs => .inl hs)
    · rw [hstack]
      exact List.mem_cons_of_mem _ hg
    · rcases hmem d hd with hd | rfl
      · exact .inl hd
      · exact .inr ⟨_, conns_setConn_self⟩
  · refine ⟨?_, fun k => ?_⟩
    · refine List.pairwise_append.mpr ⟨h.trace.noStep, List.pairwise_singleton _ _, ?_⟩
      intro a _ b hb r _
      rw [List.mem_singleton.mp hb]
      exact nofun
    · refine counter_addConnections (w := w) (h.trace.counter k) ?_
      by_cases hk : x.listen = k <;> simp [Event.isAccepted, Event.isLeft, hk]

theorem settled_deferRoutine (h : StackInv w) (hstack : w.stack = .deferRoutine :: rest) :
    rest = [.deferFree] := by
  have hsettled := h.settled
  rw [hstack] at hsettled
  exact hsettled

theorem settled_deferFree (h : StackInv w) (hstack : w.stack = .deferFree :: rest) : rest = [] := by
  have hsettled := h.settled
  rw [hstack] at hsettled
  exact hsettled

/-- The deferred routine takes an open connection from the list. -/
theorem TeardownInv.unlist {cs : List ConnId} (h : TeardownInv w)
    (hlist : w.connDefer = c :: cs) (hx : w.conns c = some x) (hopen : x.state ≠ .closed) :
    TeardownInv { w with connDefer := cs } where
  conn d := by
    obtain ⟨hdecremented, hlisted, honce, hfree, hlast⟩ := h.conn d
    rw [hlist] at hlisted honce
    have hle : cs.count d ≤ (c :: cs).count d := List.count_le_count_cons
    refine ⟨hdecremented, ?_, ?_, hfree, hlast⟩
    · show w.decrements d ≤ cs.count d + w.connFreed d
      by_cases hd : d = c
      · subst hd
        have hzero : w.connClosed d = 0 := by
          rw [connClosed_some hx, if_neg hopen]
        omega
      · rw [List.count_cons_of_ne (Ne.symm hd)] at hlisted
        exact hlisted
    · show cs.count d + w.connFreed d ≤ 1
      omega
  req s := (h.req s).congr rfl (fun _ _ => rfl) rfl rfl rfl
  link := h.link.congr rfl rfl rfl
  stack := by
    refine h.stack.grow (fun _ x hx => ⟨x, hx⟩) (fun _ q hq => ⟨q, hq⟩) h.stack.settled
      (fun _ hf => .inl hf) (fun d hd => .inl ?_) (fun _ hs => .inl hs)
    rw [hlist]
    exact List.mem_cons_of_mem _ hd
  trace := h.trace.congr rfl rfl

/-- The deferred routine takes a closed connection from the list and frees it. -/
theorem TeardownInv.freeConn {cs : List ConnId} (h : TeardownInv w)
    (hstack : w.stack = .deferRoutine :: rest) (hlist : w.connDefer = c :: cs)
    (hx : w.conns c = some x) (hclosed : x.state = .closed) :
    TeardownInv (({ w with connDefer := cs }.setConn c { x with freed := true }).emit
      (.freed c)) where
  conn d := by
    have hinv := h.conn d
    have hsame : (w.setConn c { x with freed := true }).connClosed d = w.connClosed d := by
      rw [connClosed_setConn]
      by_cases hd : d = c
      · rw [if_pos hd, hd, connClosed_some hx]
      · rw [if_neg hd]
    have hdec : (w.trace ++ [Event.freed c]).countP (Event.isDecrement d) = w.decrements d := by
      rw [decrements_append]
      rfl
    by_cases hd : d = c
    · subst hd
      obtain ⟨hdecremented, hlisted, honce, hfree, hlast⟩ := hinv
      rw [hlist, List.count_cons_self] at hlisted honce
      have hrest := settled_deferRoutine h.stack hstack
      have hzero : w.stack.count (.connectionClosed d) = 0 := by
        rw [hstack, hrest]
        simp
      have hone : w.connClosed d = 1 := by
        rw [connClosed_some hx, if_pos hclosed]
      have hfreed : (w.setConn d { x with freed := true }).connFreed d = 1 := by simp
      refine ⟨?_, ?_, ?_, ?_, ?_⟩
      · show (w.trace ++ [Event.freed d]).countP (Event.isDecrement d) +
          w.stack.count (.connectionClosed d) =
            (w.setConn d { x with freed := true }).connClosed d
        omega
      · show (w.trace ++ [Event.freed d]).countP (Event.isDecrement d) ≤ cs.count d +
          (w.setConn d { x with freed := true }).connFreed d
        omega
      · show cs.count d + (w.setConn d { x with freed := true }).connFreed d ≤ 1
        omega
      · show (w.trace ++ [Event.freed d]).count (.freed d) =
          (w.setConn d { x with freed := true }).connFreed d
        rw [count_snoc_self]
        omega
      · show (w.setConn d { x with freed := true }).connFreed d ≤
          (w.trace ++ [Event.freed d]).countP (Event.isDecrement d)
        omega
    · refine hinv.congr hsame ?_ hdec (count_snoc_of_ne (by simpa using Ne.symm hd)) rfl ?_
      · show (w.setConn c { x with freed := true }).connFreed d = _
        rw [connFreed_setConn, if_neg hd]
      · rw [hlist, List.count_cons_of_ne (Ne.symm hd)]
        rfl
  req s := by
    refine (h.req s).congr rfl (fun e he => count_snoc_of_ne ?_) rfl rfl rfl
    rintro rfl
    simp at he
  link := by
    refine h.link.setConn hx { x with freed := true } rfl rfl rfl fun d y s hy hdclosed hs => ?_
    · have hnone := h.unclosing (by rw [hstack]; exact fun _ _ => nofun)
      rcases setConn_some d hy with ⟨rfl, rfl⟩ | ⟨-, hy⟩
      · exact absurd hs (hnone d x s hx hdclosed)
      · exact absurd hs (hnone d y s hy hdclosed)
  stack := by
    refine h.stack.grow conns_grow (fun _ q hq => ⟨q, hq⟩) h.stack.settled (fun _ hf => .inl hf)
      (fun d hd => .inl ?_) (fun _ hs => .inl hs)
    rw [hlist]
    exact List.mem_cons_of_mem _ hd
  trace := by
    have htrace := h.trace.emit (e := .freed c) nofun (fun _ => rfl) (fun _ => rfl)
    exact htrace.congr rfl rfl

/-- A request that is destroyed. -/
theorem TeardownInv.destroyReq {rs : List ReqId} (h : TeardownInv w)
    (hlist : w.reqDefer = r :: rs) (hq : w.reqs r = some q) :
    TeardownInv (({ w with reqDefer := rs }.setReq r { q with freed := true }).emit
      (.destroyed r)) where
  conn d := by
    refine (h.conn d).congr rfl rfl ?_ (count_snoc_of_ne nofun) rfl rfl
    show (w.trace ++ [Event.destroyed r]).countP (Event.isDecrement d) = _
    rw [decrements_append]
    rfl
  req s := by
    have hsame : (w.setReq r { q with freed := true }).reqClosed s = w.reqClosed s := by
      rw [reqClosed_setReq]
      by_cases hs : s = r
      · rw [if_pos hs, hs, reqClosed_some hq]
      · rw [if_neg hs]
    by_cases hs : s = r
    · subst hs
      obtain ⟨hclosed, hlogged, hdeferred, hdestroyed⟩ := h.req s
      rw [hlist, List.count_cons_self] at hdestroyed
      refine ⟨?_, ?_, ?_, ?_⟩
      · refine Eq.trans ?_ hsame.symm
        show (w.trace ++ [Event.destroyed s]).count (.closed s) = _
        rw [count_snoc_of_ne (by simp)]
        exact hclosed
      · refine Eq.trans ?_ hsame.symm
        show (w.trace ++ [Event.destroyed s]).count (.logged s) + w.stack.count (.doClose s) = _
        rw [count_snoc_of_ne (by simp)]
        exact hlogged
      · refine Eq.trans ?_ hsame.symm
        show (w.trace ++ [Event.destroyed s]).count (.deferred s) + w.stack.count (.doClose s) +
          w.stack.count (.clearStuff s) = _
        rw [count_snoc_of_ne (by simp)]
        exact hdeferred
      · show rs.count s + (w.trace ++ [Event.destroyed s]).count (.destroyed s) =
          (w.trace ++ [Event.destroyed s]).count (.deferred s)
        rw [count_snoc_self, count_snoc_of_ne (by simp)]
        omega
    · refine (h.req s).congr hsame (fun e he => count_snoc_of_ne ?_) rfl rfl ?_
      · rintro rfl
        simp [Ne.symm hs] at he
      · rw [hlist, List.count_cons_of_ne (Ne.symm hs)]
        rfl
  link := by
    refine ⟨fun d y s hy hs => ?_, fun s p hp hsopen => ?_, fun s p hp => ?_, h.link.closing⟩
    · obtain ⟨p, hp, hconn, hopen⟩ := h.link.current d y s hy hs
      by_cases he : s = r
      · subst he
        rw [hq] at hp
        cases Option.some.inj hp
        exact ⟨_, reqs_setReq_self, hconn, hopen⟩
      · exact ⟨p, (reqs_setReq_of_ne he).trans hp, hconn, hopen⟩
    · rcases setReq_some s hp with ⟨rfl, rfl⟩ | ⟨-, hp⟩
      · exact h.link.linked s q hq hsopen
      · exact h.link.linked s p hp hsopen
    · rcases setReq_some s hp with ⟨rfl, rfl⟩ | ⟨-, hp⟩
      · exact h.link.owner s q hq
      · exact h.link.owner s p hp
  stack := by
    refine h.stack.grow (fun _ x hx => ⟨x, hx⟩) reqs_grow h.stack.settled (fun _ hf => .inl hf)
      (fun _ hd => .inl hd) (fun s hs => .inl ?_)
    rw [hlist]
    exact List.mem_cons_of_mem _ hs
  trace := by
    have htrace := h.trace.emit (e := .destroyed r) nofun (fun _ => rfl) (fun _ => rfl)
    exact htrace.congr rfl rfl

end Changes

end EventLoop
end Phorklift
