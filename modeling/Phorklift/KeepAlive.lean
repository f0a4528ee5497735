import Phorklift.ConnSteps

/-! The requests that are parsed on a connection. -/

namespace Phorklift

open Transition

variable {W V : Type}

/-- The requests parsed are the first ones sent, and so is what has been parsed as a head. -/
structure Conn.InOrder (c : Conn W V) : Prop where
  parsed : c.parsed <+: c.requests.map WireRequest.head
  taken : c.parsed.flatten ++ c.taken <+: (c.requests.map WireRequest.head).flatten

/-- Where the connection is in the request that is being sent. -/
inductive Conn.Phase (env : Env W V) (c : Conn W V) : Prop
  | received : Received c.w → c.unsent = [] → c.parsed = c.heads c.next → c.taken = [] → Phase env c
  | waiting {n : Nat} {q : WireRequest} : c.w.r.closed = true → c.w.recv = [] →
      c.next = n + 1 → c.requests[n]? = some q → c.unsent = q.bytes → c.parsed = c.heads n →
      c.taken = [] → Phase env c
  | head {n : Nat} {q : WireRequest} {left : Bytes} : c.w.Sound → c.w.r.state = .receiveHeaders →
      c.next = n + 1 → c.requests[n]? = some q → HeadAt q c.taken left c.w.r.req →
      c.w.recv ++ c.unsent = left ++ q.body → c.parsed = c.heads n → Phase env c
  | body {n : Nat} {q : WireRequest} : c.next = n + 1 → c.requests[n]? = some q → q.body ≠ [] →
      BodyAt env q.body c.unsent c.w → c.parsed = c.heads c.next → c.taken = [] → Phase env c
  | closed : c.w.r.closed = true → c.w.connClosed = true → c.InOrder → Phase env c

section Phase

variable {env : Env W V} {c c' : Conn W V} {n : Nat} {q : WireRequest}

theorem Conn.heads_succ (h : c.requests[n]? = some q) : c.heads (n + 1) = c.heads n ++ [q.head] := by
  unfold Conn.heads
  rw [List.take_add_one, h, List.map_append]
  rfl

theorem Conn.heads_prefix (c : Conn W V) (n : Nat) :
    c.heads n <+: c.requests.map WireRequest.head :=
  (List.take_prefix n c.requests).map WireRequest.head

theorem Conn.body_eq (hn : c.next = n + 1) (h : c.requests[n]? = some q) : c.body = q.body := by
  unfold Conn.body
  rw [hn, Nat.add_sub_cancel, h]
  rfl

theorem prefix_flatten {α : Type} {u v : List (List α)} (h : u <+: v) : u.flatten <+: v.flatten := by
  obtain ⟨rest, rfl⟩ := h
  rw [List.flatten_append]
  exact List.prefix_append _ _

theorem Conn.inOrder_of_heads (hparsed : c.parsed = c.heads n) (htaken : c.taken = []) :
    c.InOrder := by
  have hprefix := c.heads_prefix n
  refine ⟨?_, ?_⟩
  · rw [hparsed]
    exact hprefix
  · rw [hparsed, htaken, List.append_nil]
    exact prefix_flatten hprefix

theorem Conn.Phase.inOrder (h : c.Phase env) : c.InOrder := by
  cases h with
  | received hw hunsent hparsed htaken => exact Conn.inOrder_of_heads hparsed htaken
  | waiting hclosed hrecv hn hq hunsent hparsed htaken => exact Conn.inOrder_of_heads hparsed htaken
  | @head n q left hw hs hn hq hat hdata hparsed =>
    refine ⟨?_, ?_⟩
    · rw [hparsed]
      exact c.heads_prefix n
    · have hnext := prefix_flatten (c.heads_prefix (n + 1))
      rw [Conn.heads_succ hq, List.flatten_append, List.flatten_singleton, ← hat.head,
        ← List.append_assoc] at hnext
      rw [hparsed]
      exact (List.prefix_append _ _).trans hnext
  | body hn hq hne hat hparsed htaken => exact Conn.inOrder_of_heads hparsed htaken
  | closed _ _ h => exact h

theorem World.Sound.set {w : World W V} (h : w.Sound) (recv : Bytes) (ctl : Ctl) (e : W) :
    World.Sound { w with recv := recv, ctl := ctl, env := e } :=
  ⟨h.closed, h.isHttp2, h.isBroken⟩

/-- Outside of `phl_request_run` the phase stays, as long as nothing arrives. -/
theorem Conn.Phase.set (h : c.Phase env) (ctl : Ctl) (e : W) :
    Conn.Phase env { c with w.ctl := ctl, w.env := e } := by
  cases h with
  | received hw hunsent hparsed htaken =>
    exact .received ⟨hw.past, hw.recv⟩ hunsent hparsed htaken
  | waiting hclosed hrecv hn hq hunsent hparsed htaken =>
    exact .waiting hclosed hrecv hn hq hunsent hparsed htaken
  | head hw hs hn hq hat hdata hparsed =>
    exact .head (hw.set _ ctl e) hs hn hq hat hdata hparsed
  | body hn hq hne hat hparsed htaken =>
    exact .body hn hq hne ⟨hat.sound.set _ ctl e, hat.state, hat.req⟩ hparsed htaken
  | closed hclosed hconn h => exact .closed hclosed hconn ⟨h.parsed, h.taken⟩

/-- Requests that the server frames as their client does. -/
def Clients (env : Env W V) (requests : List WireRequest) : Prop :=
  ∀ q ∈ requests, q.WellFormed env.lib ∧ q.Plain env.lib

theorem WireRequest.WellFormed.bytes_ne_nil (h : q.WellFormed env.lib) : q.bytes ≠ [] := by
  intro h0
  have hline : q.line = [] := by
    simp only [WireRequest.bytes, WireRequest.head, List.append_eq_nil_iff] at h0
    exact h0.1.1.1
  exact h.nonempty hline

theorem World.Sound.not_closed {w : World W V} (h : w.Sound) : ¬w.r.closed = true := by
  rw [h.closed]
  exact Bool.false_ne_true

theorem Conn.Phase.send (h : c.Phase env) (hreq : Clients env c.requests) (hunsent : c.unsent = [])
    (hclosed : c.w.r.closed = true) (hopen : c.w.connClosed = false)
    (hq : c.requests[c.next]? = some q) :
    Conn.Phase env { c with next := c.next + 1, unsent := q.bytes } := by
  cases h with
  | received hw hnone hparsed htaken =>
    exact .waiting hclosed hw.recv rfl hq rfl hparsed htaken
  | waiting _ _ _ hlast hbytes =>
    have hwf := (hreq _ (List.mem_of_getElem? hlast)).1
    exact absurd (hbytes.symm.trans hunsent) hwf.bytes_ne_nil
  | head hw => exact absurd hclosed hw.not_closed
  | body _ _ _ hat => exact absurd hclosed hat.sound.not_closed
  | closed _ hconn =>
    rw [hopen] at hconn
    cases hconn

theorem Conn.Phase.readable {data rest : Bytes} (h : c.Phase env) (hopen : c.w.connClosed = false)
    (hne : data ≠ []) (hunsent : c.unsent = data ++ rest) :
    Conn.Phase env (c.phlHttp1OnReadable env data rest) := by
  unfold Conn.phlHttp1OnReadable
  dsimp only
  cases h with
  | received hw hnone =>
    rw [hnone] at hunsent
    exact absurd (List.append_eq_nil_iff.mp hunsent.symm).1 hne
  | waiting hclosed hrecv hn hq hbytes hparsed htaken =>
    rw [if_pos hclosed]
    refine .head ⟨rfl, rfl, rfl⟩ rfl hn hq .line ?_ hparsed
    dsimp only
    rw [hrecv, List.nil_append, ← hunsent, hbytes]
    rfl
  | head hw hs hn hq hat hdata hparsed =>
    rw [if_neg hw.not_closed]
    refine .head (hw.set _ _ _) hs hn hq hat ?_ hparsed
    dsimp only
    rw [List.append_assoc, ← hunsent]
    exact hdata
  | body hn hq hbody hat hparsed htaken =>
    rw [if_neg hat.sound.not_closed]
    refine .body hn hq hbody ⟨hat.sound.set _ _ _, hat.state, ?_, hat.req.length, hat.req.finished⟩
      hparsed htaken
    have hdata := hat.req.data
    rw [hunsent] at hdata
    rw [← hdata]
    simp only [List.append_assoc]
  | closed _ hconn =>
    rw [hopen] at hconn
    cases hconn

theorem take_sub_length {recv now rest : Bytes} (h : recv = now ++ rest) :
    recv.take (recv.length - rest.length) = now := by
  rw [h, List.length_append, Nat.add_sub_cancel, List.take_left]

/-- The head of the request that is being sent is parsed. -/
theorem Conn.Phase.run_head {w : World W V} {left : Bytes} (hw : c.w.Sound)
    (hs : c.w.r.state = .receiveHeaders) (hn : c.next = n + 1) (hq : c.requests[n]? = some q)
    (hat : HeadAt q c.taken left c.w.r.req) (hdata : c.w.recv ++ c.unsent = left ++ q.body)
    (hparsed : c.parsed = c.heads n) (hran : HeadRan q c.taken left c.w w) :
    Conn.Phase env (c.ran w) := by
  unfold Conn.ran
  dsimp only
  rw [if_pos ⟨hw.closed, hs⟩]
  cases hran with
  | again hrecv hleft hat' =>
    rw [if_neg (by simp [hs])]
    dsimp only
    rw [take_sub_length hrecv]
    refine .head ⟨hw.closed, hw.isHttp2, hw.isBroken⟩ hs hn hq hat' ?_ hparsed
    rw [hrecv, hleft, List.append_assoc, List.append_assoc] at hdata
    exact List.append_cancel_left hdata
  | @ended rest r hrecv hr =>
    rw [if_pos rfl]
    dsimp only
    rw [take_sub_length hrecv, hat.head]
    have hparsed' : c.parsed ++ [q.head] = c.heads c.next := by
      rw [hn, Conn.heads_succ hq, hparsed]
    rw [hrecv, List.append_assoc] at hdata
    have hrest := List.append_cancel_left hdata
    by_cases hbody : q.body = []
    · rw [hbody] at hrest
      obtain ⟨h1, h2⟩ := List.append_eq_nil_iff.mp hrest
      exact .received ⟨.inr (by simp), h1⟩ h2 hparsed' rfl
    · exact .body hn hq hbody ⟨⟨hw.closed, hw.isHttp2, hw.isBroken⟩, .inl rfl,
        hr.bodyReq hbody hrest⟩ hparsed' rfl

theorem Conn.ran_past {w : World W V} (h : c.w.r.closed = true ∨ c.w.r.state ≠ .receiveHeaders) :
    c.ran w = { c with w := w } := by
  unfold Conn.ran
  dsimp only
  rw [if_neg]
  rintro ⟨hopen, hs⟩
  rcases h with hc | hne
  · rw [hopen] at hc
    cases hc
  · exact hne hs

theorem phlRequestRun_closed {w w' : World W V} (h : phlRequestRun env w = some w')
    (hc : w.r.closed = true) : w' = { w with ctl := .idle } := by
  unfold phlRequestRun at h
  rw [if_pos hc] at h
  exact (Option.some.inj h).symm

theorem Conn.Phase.run {w : World W V} (h : c.Phase env) (hreq : Clients env c.requests)
    (hok : c.ok env = true) (hrun : phlRequestRun env c.w = some w) :
    Conn.Phase env (c.ran w) := by
  cases h with
  | received hw hunsent hparsed htaken =>
    have hran := phlRequestRun_received hrun hw
    rw [Conn.ran_past hw.past]
    exact .received hran hunsent hparsed htaken
  | waiting hclosed hrecv hn hq hbytes hparsed htaken =>
    have hran := phlRequestRun_closed hrun hclosed
    rw [Conn.ran_past (.inl hclosed), hran]
    exact .waiting hclosed hrecv hn hq hbytes hparsed htaken
  | head hw hs hn hq hat hdata hparsed =>
    obtain ⟨hwf, hplain⟩ := hreq _ (List.mem_of_getElem? hq)
    have hran := phlRequestRun_head hrun hw hs hwf hplain hat hdata
    exact Conn.Phase.run_head hw hs hn hq hat hdata hparsed hran
  | body hn hq hbody hat hparsed htaken =>
    obtain ⟨hwf, hplain⟩ := hreq _ (List.mem_of_getElem? hq)
    have hlocates : locatesBodySync env c.w = true := by
      unfold Conn.ok at hok
      rw [hat.sound.closed, hat.sound.isBroken, Conn.body_eq hn hq] at hok
      simpa [hbody] using hok
    have hpast : c.w.r.state ≠ .receiveHeaders := by
      rcases hat.state with hs | hs | ⟨hs, -⟩ <;> rw [hs] <;> decide
    rw [Conn.ran_past (.inr hpast)]
    rcases phlRequestRun_body hrun hplain.fits hlocates hat with hat' | ⟨hran, hunsent⟩
    · exact .body hn hq hbody hat' hparsed htaken
    · exact .received hran hunsent hparsed htaken
  | closed hclosed hconn h =>
    have hran := phlRequestRun_closed hrun hclosed
    rw [Conn.ran_past (.inl hclosed), hran]
    exact .closed hclosed hconn ⟨h.parsed, h.taken⟩

/-- What one step preserves. -/
theorem ConnStep.phase (h : c.Phase env) (hreq : Clients env c.requests)
    (hs : ConnStepIf env (Conn.ok env) c c') : c'.Phase env ∧ c'.requests = c.requests := by
  obtain ⟨hstep, hok⟩ := hs
  cases hstep with
  | send hunsent hclosed hopen hq => exact ⟨h.send hreq hunsent hclosed hopen hq, rfl⟩
  | readable data rest hidle hopen hne hunsent =>
    refine ⟨h.readable hopen hne hunsent, ?_⟩
    unfold Conn.phlHttp1OnReadable
    dsimp only
    split <;> rfl
  | call hidle => exact ⟨h.set .running c.w.env, rfl⟩
  | run hrunning hrun =>
    refine ⟨h.run hreq (hok hrunning) hrun, ?_⟩
    unfold Conn.ran
    dsimp only
    split
    next => split <;> rfl
    next => rfl
  | elsewhere hidle he => exact ⟨h.set c.w.ctl _, rfl⟩
  | close hidle hclose =>
    have hkept := phlRequestClose_kept (P := fun _ => True) (L := True) (K := fun _ => True)
      (fun _ => trivial) trivial trivial hclose
    have hconn := phlRequestClose_connClosed hclose rfl
    exact ⟨.closed hkept.2 hconn ⟨h.inOrder.parsed, h.inOrder.taken⟩, rfl⟩

theorem Conn.Phase.answered (h : c.Phase env) (hreq : Clients env c.requests)
    (hopen : c.w.connClosed = false) (hclosed : c.w.r.closed = true) (hunsent : c.unsent = []) :
    c.parsed = c.heads c.next := by
  cases h with
  | received _ _ hparsed => exact hparsed
  | waiting _ _ _ hq hbytes =>
    have hwf := (hreq _ (List.mem_of_getElem? hq)).1
    exact absurd (hbytes.symm.trans hunsent) hwf.bytes_ne_nil
  | head hw => exact absurd hclosed hw.not_closed
  | body _ _ _ hat => exact absurd hclosed hat.sound.not_closed
  | closed _ hconn =>
    rw [hopen] at hconn
    cases hconn

/-- Where no request with a body is answered before its body, and every body waits for its path,
the requests that are parsed are the ones that were sent, in order. -/
theorem requests_in_order {requests : List WireRequest} (hreq : Clients env requests)
    (h : Reachable (ConnInit requests) (ConnStepIf env (Conn.ok env)) c) :
    c.requests = requests ∧ c.InOrder ∧ (c.w.connClosed = false → c.w.r.closed = true →
      c.unsent = [] → c.parsed = (requests.take c.next).map WireRequest.head) := by
  have hphase : c.Phase env ∧ c.requests = requests := by
    refine h.invariant (I := fun c => c.Phase env ∧ c.requests = requests)
      (fun c h0 => ⟨?_, h0.requests⟩) fun c c' hc hs => ?_
    · refine .received ⟨.inl h0.idle, h0.recv⟩ h0.unsent ?_ h0.taken
      rw [h0.parsed, h0.next]
      rfl
    · obtain ⟨hphase, rfl⟩ := hc
      exact ConnStep.phase hphase hreq hs
  obtain ⟨hphase, rfl⟩ := hphase
  exact ⟨rfl, hphase.inOrder, hphase.answered hreq⟩

end Phase

/-- A path that answers without a body. -/
def answeringPath : ConfPath Unit Unit where
  reqBodyMax := 0
  reqBodySync := true
  filters := fun _ => []
  bodyFilters := []
  content := some {
    processHeaders := none
    processBody := none
    responseHeaders := fun r e =>
      ⟨phlOk, r.req, { r.resp with statusCode := 200, contentLength := 0 }, none, e, []⟩
    responseBody := none }

def answering : Env Unit Unit := { Env.single answeringPath with lib := .lines }

def newConn (env : Env Unit Unit) (requests : List WireRequest) : Conn Unit Unit where
  w := {
    r := { phlRequestNew env false with closed := true }
    recv := []
    connClosed := false
    ctl := .idle
    env := ()
    trace := [] }
  requests := requests
  next := 0
  unsent := []
  taken := []
  parsed := []

theorem connInit_newConn (env : Env Unit Unit) (requests : List WireRequest) :
    ConnInit requests (newConn env requests) :=
  ⟨rfl, rfl, rfl, rfl, rfl, rfl, rfl⟩

def got : WireRequest where
  line := bytes "GET / HTTP/1.1" ++ crlf
  headers := []
  body := []

/-- A `POST` whose body is of one byte. -/
def posted : WireRequest where
  line := bytes "POST / HTTP/1.1" ++ crlf
  headers := [⟨bytes "Content-Length", [32], bytes "1", []⟩]
  body := bytes "x"

/-- A `POST` whose body reads like a request. -/
def smuggling : WireRequest where
  line := bytes "POST / HTTP/1.1" ++ crlf
  headers := [⟨bytes "Content-Length", [32], bytes "19", []⟩]
  body := bytes "GET /x HTTP/1.1" ++ crlf ++ crlf

theorem wellFormed_got : got.WellFormed Libwuya.lines where
  nonempty := by decide
  line := Libwuya.lines_line (v := ⟨bytes "GET", bytes "/", 1⟩) rfl (by decide)
  headers := nofun
  blank := Libwuya.lines_blank
  framed := rfl

theorem wellFormed_length {value : Bytes}
    (hclean : Http.Field.Clean ⟨bytes "Content-Length", value⟩)
    (hline : headerLine (bytes "Content-Length" ++ 58 :: 32 :: value) = some ⟨14, 16, value.length⟩) :
    WireHeader.WellFormed Libwuya.lines ⟨bytes "Content-Length", [32], value, []⟩ where
  clean := hclean
  pad := by simp [Http.isBlank]
  trail := nofun
  taken := by
    have hcr : 13 ∉ bytes "Content-Length" ++ 58 :: 32 :: value := by
      have hname : 13 ∉ bytes "Content-Length" := by decide
      have hvalue : 13 ∉ value := fun h => (hclean.2.2.2.2 13 h).1 rfl
      simp [hname, hvalue]
    have htakes := takesLine_lineParser (d := (⟨0, 0, 0⟩ : HeaderLine)) hline hcr
    have hsplit : (WireHeader.mk (bytes "Content-Length") [32] value []).line =
        bytes "Content-Length" ++ 58 :: 32 :: value ++ crlf := by
      simp [WireHeader.line]
    rw [hsplit]
    exact htakes

theorem wellFormed_posted : posted.WellFormed Libwuya.lines where
  nonempty := by decide
  line := Libwuya.lines_line (v := ⟨bytes "POST", bytes "/", 1⟩) rfl (by decide)
  headers := by
    intro h hh
    rw [List.mem_singleton.mp hh]
    exact wellFormed_length (by decide) rfl
  blank := Libwuya.lines_blank
  framed := rfl

theorem clients_posted_got : Clients answering [posted, got] := by
  intro q hq
  simp only [List.mem_cons, List.not_mem_nil, or_false] at hq
  rcases hq with rfl | rfl
  · refine ⟨wellFormed_posted,
      ⟨⟨none, bytes "/", none⟩, rfl, by simp [answering, Libwuya.lines, Libwuya.plain], trivial⟩,
      by decide, fun _ => ⟨_, List.mem_singleton.mpr rfl, rfl⟩, ?_⟩
    intro h hh _
    rw [List.mem_singleton.mp hh]
    rfl
  · exact ⟨wellFormed_got,
      ⟨⟨none, bytes "/", none⟩, rfl, by simp [answering, Libwuya.lines, Libwuya.plain], trivial⟩,
      by decide,
      fun h => absurd rfl h, nofun⟩

/-- Both requests are answered, and parsed. -/
theorem requests_in_order_answering :
    ∃ c, Reachable (ConnInit [posted, got]) (ConnStepIf answering (Conn.ok answering)) c ∧
      c.next = 2 ∧ c.InOrder ∧ c.parsed = [posted.head, got.head] := by
  have hrun : (((newConn answering [posted, got]).exchange answering (Conn.ok answering) 11).bind
      (Conn.exchange answering (Conn.ok answering) 11)).map (fun c =>
        (c.next, c.w.connClosed, c.w.r.closed, c.unsent)) = some (2, false, true, []) := by
    rfl
  obtain ⟨c, hc, hfields⟩ := Option.map_eq_some_iff.mp hrun
  obtain ⟨c1, hc1, hc⟩ := Option.bind_eq_some_iff.mp hc
  simp only [Prod.mk.injEq] at hfields
  obtain ⟨hnext, hopen, hclosed, hunsent⟩ := hfields
  have hreach := Conn.reachable_exchange
    (Conn.reachable_exchange (.start (connInit_newConn answering [posted, got])) hc1) hc
  obtain ⟨-, hinOrder, hparsed⟩ := requests_in_order clients_posted_got hreach
  refine ⟨c, hreach, hnext, hinOrder, ?_⟩
  rw [hparsed hopen hclosed hunsent, hnext]
  rfl

/-- No path matches the requests. -/
def unmatching : Env Unit Unit := { answering with confPathLocate := fun _ _ => none }

theorem wellFormed_smuggling : smuggling.WellFormed Libwuya.lines where
  nonempty := by decide
  line := Libwuya.lines_line (v := ⟨bytes "POST", bytes "/", 1⟩) rfl (by decide)
  headers := by
    intro h hh
    rw [List.mem_singleton.mp hh]
    exact wellFormed_length (by decide) rfl
  blank := Libwuya.lines_blank
  framed := rfl

set_option maxRecDepth 4000 in
/-- The body of a request that was answered with 404 is parsed as the next request, on a
connection that stays open. -/
theorem body_parsed_as_request :
    (∀ q ∈ [smuggling, got], q.WellFormed unmatching.lib) ∧
      ∃ c, Reachable (ConnInit [smuggling, got]) (ConnStep unmatching) c ∧
        c.w.connClosed = false ∧ c.parsed = [smuggling.head, smuggling.body] ∧
        ¬c.parsed <+: [smuggling, got].map WireRequest.head := by
  refine ⟨?_, ?_⟩
  · intro q hq
    simp only [List.mem_cons, List.not_mem_nil, or_false] at hq
    rcases hq with rfl | rfl
    · exact wellFormed_smuggling
    · exact wellFormed_got
  · have hrun : (((newConn unmatching [smuggling, got]).exchange unmatching (fun _ => true) 8).bind
        (Conn.exchange unmatching (fun _ => true) 1)).map (fun c => (c.w.connClosed, c.parsed)) =
          some (false, [smuggling.head, smuggling.body]) := by
      rfl
    obtain ⟨c, hc, hfields⟩ := Option.map_eq_some_iff.mp hrun
    obtain ⟨c1, hc1, hc⟩ := Option.bind_eq_some_iff.mp hc
    obtain ⟨hopen, hparsed⟩ := Prod.mk.inj hfields
    have hreach := Conn.reachable_exchange
      (Conn.reachable_exchange (.start (connInit_newConn unmatching [smuggling, got])) hc1) hc
    refine ⟨c, hreach.mono fun _ _ hs => hs.1, hopen, hparsed, ?_⟩
    rw [hparsed]
    decide

end Phorklift
