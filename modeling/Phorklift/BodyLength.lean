import Phorklift.HeaderBlock
import Phorklift.HeaderPhase
import Phorklift.KeepAlive

/-! The length that an HTTP/1 response announces and the length of the body after it. -/

namespace Phorklift

open Transition

variable {W V : Type} {env : Env W V} {p : PathId} {w w' : World W V}

/-- The bytes that an append of body adds where the body is not chunked. -/
def Event.bodyLength : Event V → Nat
  | .body data _ => data.length
  | _ => 0

def bodyLength (trace : List (Event V)) : Nat :=
  (trace.map Event.bodyLength).sum

/-- A header block with content length `n` and `k` bytes of body after it. -/
def Announced (trace : List (Event V)) (n k : Nat) : Prop :=
  ∃ pre code hs post, trace = pre ++ .headers code n hs :: post ∧ bodyLength post = k

/-- A request that sends its response on an HTTP/1 connection, as no subrequest does. -/
structure OnHttp1 (r : Request) : Prop where
  father : r.father = .none
  isHttp2 : r.isHttp2 = false

instance (r : Request) : Decidable (OnHttp1 r) :=
  decidable_of_iff (r.father = .none ∧ r.isHttp2 = false)
    ⟨fun h => ⟨h.1, h.2⟩, fun h => ⟨h.father, h.isHttp2⟩⟩

/-- Once an HTTP/1 request is in `DONE`, every length that it has sent is that of the plain body
that follows. -/
def MeetsBodyLength (w : World W V) : Prop :=
  OnHttp1 w.r → w.r.state = .done → ∀ n k, Announced w.trace n k →
    n ≠ phlContentLengthInit → phlHttp1ResponseIsChunked w.r = false ∧ k = n

/-- `phl_request_run` waits or closes the request where `RESPONSE_BODY` returns `n`. -/
def failureOk (w : World W V) (n : Int) : Bool :=
  n == phlAgain || n == phlError && (w.r.closed || w.r.resp.statusCode == 0)

/-- The filters keep the length of a piece of an announced body and whether it is the last one,
or end the response. -/
def filtersKeep (env : Env W V) (p : PathId) (bufLen : Nat) (data : Bytes) (isLast : Bool)
    (w : World W V) : Bool :=
  let piece := phlModuleFilterResponseBody w.r bufLen (env.path p).bodyFilters data isLast w.env []
  match piece.data with
  | .error n => failureOk w n &&
      (w.r.resp.contentLength == phlContentLengthInit || n.1 != phlAgain)
  | .ok filtered => w.r.resp.contentLength == phlContentLengthInit ||
      filtered.length == data.length && piece.isLast == isLast

/-- A round of `RESPONSE_BODY` fails only in a way that ends the response, and the piece that it
generates for an announced body goes no further than the end of it. -/
def bodyRoundOk (env : Env W V) (p : PathId) (w : World W V) : Bool :=
  match phlConnectionMakeSpace env 4096 w with
  | none => true
  | some (n, w) =>
    if n < 0 then failureOk w n
    else
      let bufLen := responseBodyRoom env n.toNat w
      let resp := w.r.resp
      if resp.contentOriginalLength ≤ resp.contentGeneratedLength then
        filtersKeep env p bufLen [] true w
      else match generateBody env p bufLen w with
        | none => true
        | some (.error n, w) => failureOk w n
        | some (.ok data, w) =>
          let length := resp.contentGeneratedLength + data.length
          (resp.contentLength == phlContentLengthInit ||
              decide (length ≤ resp.contentOriginalLength)) &&
            filtersKeep env p bufLen data
              (if resp.contentOriginalLength ≠ phlContentLengthInit then
                decide (resp.contentOriginalLength ≤ length) else data.length == 0)
              { w with r.resp.contentGeneratedLength := length }

/-- The length that is sent is that of the body to generate, of which nothing has been. -/
def announceOk (r : Request) : Bool :=
  r.resp.contentLength == phlContentLengthInit ||
    r.resp.contentLength == r.resp.contentOriginalLength && r.resp.contentGeneratedLength == 0

/-- The condition on the step about to be taken by an HTTP/1 request. -/
def lengthStepOk (env : Env W V) (w : World W V) : Bool :=
  match w.r.state, w.r.confPath with
  | .responseHeaders3, _ => !decide (OnHttp1 w.r) || announceOk w.r
  | .responseBody, some p => !decide (OnHttp1 w.r) || bodyRoundOk env p w
  | _, _ => true

section Announced

variable {trace es : List (Event V)} {n k : Nat}

theorem bodyLength_append (u v : List (Event V)) :
    bodyLength (u ++ v) = bodyLength u + bodyLength v := by
  simp [bodyLength]

theorem Announced.mem (h : Announced trace n k) : ∃ e ∈ trace, e.isHeaders = true := by
  obtain ⟨pre, code, hs, post, rfl, -⟩ := h
  exact ⟨_, List.mem_append_right _ List.mem_cons_self, rfl⟩

/-- What follows a header block counts. -/
theorem Announced.of_append (h : Announced (trace ++ es) n k)
    (hes : ∀ e ∈ es, e.isHeaders = false) :
    ∃ k', Announced trace n k' ∧ k = k' + bodyLength es := by
  obtain ⟨pre, code, hs, post, ht, hk⟩ := h
  rcases List.append_eq_append_iff.mp ht with ⟨mid, hpre, hmid⟩ | ⟨mid, htrace, hmid⟩
  · have hmem : Event.headers code n hs ∈ es := by
      rw [hmid]
      exact List.mem_append_right _ List.mem_cons_self
    have hno := hes _ hmem
    cases hno
  · cases mid with
    | nil =>
      have hmem : Event.headers code n hs ∈ es := by
        rw [← List.nil_append es, ← hmid]
        exact List.mem_cons_self
      have hno := hes _ hmem
      cases hno
    | cons e mid =>
      obtain ⟨he, hpost⟩ := List.cons.inj hmid
      refine ⟨bodyLength mid, ⟨pre, code, hs, mid, by rw [htrace, he], rfl⟩, ?_⟩
      have hsum : bodyLength (mid ++ es) = bodyLength mid + bodyLength es := bodyLength_append ..
      rw [← hk, hpost]
      exact hsum

/-- The first header block has no body after it yet. -/
theorem Announced.first {code : Int} {m : Nat} {hs : List Header}
    (h : Announced (trace ++ [.headers code m hs]) n k)
    (hno : ∀ e ∈ trace, e.isHeaders = false) : n = m ∧ k = 0 := by
  obtain ⟨pre, code', hs', post, ht, hk⟩ := h
  rcases List.append_eq_append_iff.mp ht with ⟨mid, hpre, hmid⟩ | ⟨mid, htrace, hmid⟩
  · cases mid with
    | nil =>
      obtain ⟨he, hpost⟩ := List.cons.inj hmid
      cases he
      subst hpost
      exact ⟨rfl, hk.symm⟩
    | cons e mid =>
      have hlen := congrArg List.length hmid
      simp at hlen
  · cases mid with
    | nil =>
      obtain ⟨he, hpost⟩ := List.cons.inj hmid
      cases he
      subst hpost
      exact ⟨rfl, hk.symm⟩
    | cons e mid =>
      obtain ⟨he, -⟩ := List.cons.inj hmid
      have hheaders := hno e (by rw [htrace]; simp)
      rw [← he] at hheaders
      cases hheaders

theorem not_announced (hno : ∀ e ∈ trace, e.isHeaders = false) : ¬Announced trace n k := by
  intro h
  obtain ⟨e, he, hheaders⟩ := h.mem
  rw [hno e he] at hheaders
  cases hheaders

end Announced

section Rounds

variable {bufLen : Nat}

theorem bodyLength_of_not_starts {e : Event V} (h : ¬e.starts) : e.bodyLength = 0 := by
  cases e with
  | body => exact absurd rfl h
  | _ => rfl

theorem bodyLength_nil_of_forall {es : List (Event V)} (h : ∀ e ∈ es, ¬e.starts) :
    bodyLength es = 0 := by
  induction es with
  | nil => rfl
  | cons e es ih =>
    have he := bodyLength_of_not_starts (h e List.mem_cons_self)
    have hes := ih fun e he => h e (List.mem_cons_of_mem _ he)
    show e.bodyLength + bodyLength es = 0
    omega

theorem not_starts_env (vs : List V) : ∀ e ∈ vs.map Event.env, ¬e.starts := by
  intro e he
  obtain ⟨v, -, rfl⟩ := List.mem_map.mp he
  simp [Event.starts]

/-- A request is left alone unless the connection fails. -/
theorem phlConnectionMakeSpace_room {size : Nat} {n : Int}
    (h : phlConnectionMakeSpace env size w = some (n, w')) :
    (∃ es, w'.trace = w.trace ++ es ∧ ∀ e ∈ es, ¬e.starts) ∧ (n ≠ phlError → w'.r = w.r) := by
  refine ⟨(phlConnectionMakeSpace_kept (P := fun e : Event V => ¬e.starts) (L := False)
    (K := fun _ => False) (fun _ => by simp [Event.starts]) (by simp [Event.starts])
    (by simp [Event.starts]) h).trace, ?_⟩
  intro hnot
  cases phlConnectionMakeSpace_makes h with
  | closes => exact absurd rfl hnot
  | _ => rfl

theorem generateBody_source {data : Except Failure Bytes}
    (h : generateBody env p bufLen w = some (data, w')) :
    (∃ es, w'.trace = w.trace ++ es ∧ ∀ e ∈ es, ¬e.starts) ∧ w'.r = w.r := by
  have hnone : ∃ es, w.trace = w.trace ++ es ∧ ∀ e ∈ es, ¬e.starts := ⟨[], by simp, by simp⟩
  cases generateBody_made h with
  | same => exact ⟨hnone, rfl⟩
  | read len => exact ⟨hnone, rfl⟩
  | source ret hcontent hsource hbroken =>
    refine ⟨⟨_, List.append_assoc .., fun e he => ?_⟩, rfl⟩
    rcases List.mem_append.mp he with he | he
    · exact not_starts_env _ e he
    · rw [List.mem_singleton.mp he]
      simp [Event.starts]

/-- What the filters and the packing make of `k` bytes. -/
inductive Packed (w w' : World W V) (k : Nat) (isLast : Bool) : Option Int → Prop
  | failed (n : Int) : n < 0 → failureOk w' n = true →
      (w.r.resp.contentLength ≠ phlContentLengthInit → n ≠ phlAgain) →
      Packed w w' k isLast (some n)
  | sent (ret : Option Int) : (ret = some phlOk ∨ ret = none) →
      (w.r.resp.contentLength ≠ phlContentLengthInit → (ret ≠ none → isLast = true) ∧
        ∃ es, w'.trace = w.trace ++ es ∧ bodyLength es = k) → Packed w w' k isLast ret

theorem filterAndPack_r (env : Env W V) (p : PathId) (bufLen : Nat) (data : Bytes)
    (isLast : Bool) (w : World W V) : (filterAndPack env p bufLen data isLast w).2.r = w.r := by
  unfold filterAndPack
  dsimp only
  split
  next => rfl
  next => rfl

theorem filterAndPack_length {data : Bytes} {isLast : Bool}
    (hok : filtersKeep env p bufLen data isLast w = true) :
    Packed w (filterAndPack env p bufLen data isLast w).2 data.length isLast
      (filterAndPack env p bufLen data isLast w).1 := by
  unfold filtersKeep at hok
  dsimp only at hok
  unfold filterAndPack
  dsimp only
  split
  next n hn =>
    rw [hn] at hok
    simp only [Bool.and_eq_true, Bool.or_eq_true, beq_iff_eq, bne_iff_ne] at hok
    exact .failed n n.2 hok.1 hok.2.resolve_left
  next filtered hfiltered =>
    rw [hfiltered] at hok
    refine .sent _ ?_ fun hlength => ?_
    · split
      next => exact .inl rfl
      next => exact .inr rfl
    · simp only [Bool.or_eq_true, Bool.and_eq_true, beq_iff_eq, hlength, false_or] at hok
      obtain ⟨hlen, hlast⟩ := hok
      refine ⟨fun hret => ?_, _, List.append_assoc .., ?_⟩
      · rw [← hlast]
        by_contra hnot
        exact hret (if_neg hnot)
      · rw [bodyLength_append, bodyLength_nil_of_forall (not_starts_env _), Nat.zero_add]
        exact hlen

/-- What a round that sends a piece of an announced body counts, and when it is the last one. -/
def PieceSent (ret : Option Int) (w w' : World W V) : Prop :=
  w.r.resp.contentLength ≠ phlContentLengthInit →
    w'.r.resp.contentLength = w.r.resp.contentLength ∧
    w'.r.resp.contentOriginalLength = w.r.resp.contentOriginalLength ∧
    (w.r.resp.contentGeneratedLength ≤ w.r.resp.contentOriginalLength →
      w'.r.resp.contentGeneratedLength ≤ w.r.resp.contentOriginalLength ∧
      (w.r.resp.contentOriginalLength ≠ phlContentLengthInit → ret ≠ none →
        w'.r.resp.contentGeneratedLength = w.r.resp.contentOriginalLength)) ∧
    ∃ es, w'.trace = w.trace ++ es ∧
      w'.r.resp.contentGeneratedLength = w.r.resp.contentGeneratedLength + bodyLength es

/-- What a round of the body step leaves. -/
inductive BodyPiece (w w' : World W V) : Option Int → Prop
  | failed (n : Int) : n < 0 → failureOk w' n = true →
      (w.r.resp.contentLength ≠ phlContentLengthInit → n = phlAgain →
        w'.r = w.r ∧ ∃ es, w'.trace = w.trace ++ es ∧ bodyLength es = 0) → BodyPiece w w' (some n)
  | sent (ret : Option Int) : (ret = some phlOk ∨ ret = none) → PieceSent ret w w' →
      BodyPiece w w' ret

theorem phlRequestResponseBody_length {ret : Option Int} (h2 : w.r.isHttp2 = false)
    (hok : bodyRoundOk env p w = true) (h : phlRequestResponseBody env p w = some (ret, w')) :
    BodyPiece w w' ret := by
  obtain ⟨⟨n, w1⟩, hm, h⟩ := Option.bind_eq_some_iff.mp h
  obtain ⟨⟨es, ht, hes⟩, hroom⟩ := phlConnectionMakeSpace_room hm
  unfold bodyRoundOk at hok
  rw [hm] at hok
  dsimp only at h hok
  by_cases hneg : n < 0
  · rw [if_pos hneg] at h hok
    cases h
    exact .failed n hneg hok fun _ hagain =>
      ⟨hroom (by rw [hagain]; decide), es, ht, bodyLength_nil_of_forall hes⟩
  · rw [if_neg hneg] at h hok
    have hr := hroom fun h => hneg (by rw [h]; decide)
    rw [if_neg (by simp [hr, h2])] at h
    by_cases hskip : w1.r.resp.contentOriginalLength ≤ w1.r.resp.contentGeneratedLength
    · rw [if_pos hskip] at h hok
      have hx := Option.some.inj h
      have hpack := filterAndPack_length hok
      have hr' := filterAndPack_r env p (responseBodyRoom env n.toNat w1) [] true w1
      rw [hx] at hpack hr'
      cases hpack with
      | failed m hm hfail hnot =>
        rw [hr] at hnot
        exact .failed m hm hfail fun hlength hagain => absurd hagain (hnot hlength)
      | sent _ hret hsent =>
        rw [hr] at hskip hsent
        refine .sent _ hret fun hlength => ?_
        obtain ⟨-, vs, hvs, hk⟩ := hsent hlength
        have hsame : w'.r = w.r := hr'.trans hr
        rw [hsame]
        refine ⟨rfl, rfl, fun hle => ⟨hle, fun _ _ => by omega⟩, es ++ vs, ?_, ?_⟩
        · rw [hvs, ht, List.append_assoc]
        · rw [bodyLength_append, bodyLength_nil_of_forall hes, hk]
          rfl
    · rw [if_neg hskip] at h hok
      obtain ⟨⟨data, w2⟩, hg, h⟩ := Option.bind_eq_some_iff.mp h
      obtain ⟨⟨gs, htg, hgs⟩, hr2⟩ := generateBody_source hg
      rw [hg] at hok
      dsimp only at h hok
      cases data with
      | error m =>
        cases h
        refine .failed m m.2 hok fun _ _ => ⟨hr2.trans hr, es ++ gs, ?_, ?_⟩
        · rw [htg, ht, List.append_assoc]
        · rw [bodyLength_append, bodyLength_nil_of_forall hes, bodyLength_nil_of_forall hgs]
      | ok data =>
        dsimp only at h hok
        rw [Bool.and_eq_true] at hok
        obtain ⟨hle, hkeep⟩ := hok
        have hx := Option.some.inj h
        have hkeep' : filtersKeep env p (responseBodyRoom env n.toNat w1) data
            (if w1.r.resp.contentOriginalLength ≠ phlContentLengthInit then
              decide (w1.r.resp.contentOriginalLength ≤
                w1.r.resp.contentGeneratedLength + data.length) else data.length == 0)
            ({ w2 with r.resp.contentGeneratedLength :=
              w1.r.resp.contentGeneratedLength + data.length }.emit [.source data]) = true := hkeep
        have hpack := filterAndPack_length hkeep'
        have hr' := filterAndPack_r env p (responseBodyRoom env n.toNat w1) data
          (if w1.r.resp.contentOriginalLength ≠ phlContentLengthInit then
              decide (w1.r.resp.contentOriginalLength ≤
                w1.r.resp.contentGeneratedLength + data.length) else data.length == 0)
          ({ w2 with r.resp.contentGeneratedLength :=
              w1.r.resp.contentGeneratedLength + data.length }.emit [.source data])
        rw [hx] at hpack hr'
        cases hpack with
        | failed m hm hfail hnot =>
          have hnot' : w2.r.resp.contentLength ≠ phlContentLengthInit → m ≠ phlAgain := hnot
          rw [hr2, hr] at hnot'
          exact .failed m hm hfail fun hlength hagain => absurd hagain (hnot' hlength)
        | sent _ hret hsent =>
          refine .sent _ hret fun hlength => ?_
          have hsame : w'.r = { w.r with
              resp.contentGeneratedLength := w.r.resp.contentGeneratedLength + data.length } := by
            rw [hr', World.emit_r]
            show { w2.r with resp.contentGeneratedLength :=
              w1.r.resp.contentGeneratedLength + data.length } = _
            rw [hr2, hr]
          have hlength2 : w2.r.resp.contentLength ≠ phlContentLengthInit := by
            rw [hr2, hr]
            exact hlength
          obtain ⟨hlast, vs, hvs, hk⟩ := hsent hlength2
          rw [hr] at hle hlast
          have hbound : w.r.resp.contentGeneratedLength + data.length ≤
              w.r.resp.contentOriginalLength := by
            simpa [hlength] using hle
          rw [hsame]
          refine ⟨rfl, rfl, fun _ => ⟨hbound, fun hinit hnot => ?_⟩,
            es ++ (gs ++ ([.source data] ++ vs)), ?_, ?_⟩
          · have hend := hlast hnot
            rw [if_pos hinit, decide_eq_true_iff] at hend
            exact Nat.le_antisymm hbound hend
          · rw [hvs, World.emit_trace]
            show w2.trace ++ _ ++ _ = _
            rw [htg, ht]
            simp only [List.append_assoc]
          · simp only [bodyLength_append, bodyLength_nil_of_forall hes,
              bodyLength_nil_of_forall hgs, hk]
            simp [bodyLength, Event.bodyLength]

end Rounds

/-- What a request has sent of an announced body, at each point of its response. -/
structure AnnouncedInv (w : World W V) : Prop where
  before : w.r.closed = false → w.r.state.index ≤ 8 → ∀ e ∈ w.trace, e.isHeaders = false
  body : w.r.closed = false → w.r.state = .responseBody → ∀ n k, Announced w.trace n k →
    n ≠ phlContentLengthInit → w.r.resp.contentLength = n ∧ w.r.resp.contentOriginalLength = n ∧
      w.r.resp.contentGeneratedLength = k ∧ k ≤ n
  done : w.r.state = .done → ∀ n k, Announced w.trace n k → n ≠ phlContentLengthInit →
    w.r.resp.contentLength = n ∧ k = n

theorem AnnouncedInv.meets (hinv : OnHttp1 w.r → AnnouncedInv w) : MeetsBodyLength w := by
  intro hhttp hdone n k hsent hinit
  obtain ⟨hlength, hk⟩ := (hinv hhttp).done hdone n k hsent hinit
  refine ⟨?_, hk⟩
  have hplain : (n == phlContentLengthInit) = false := by simpa using hinit
  unfold phlHttp1ResponseIsChunked
  rw [hlength, hplain, Bool.and_false]

theorem AnnouncedInv.congr (hinv : AnnouncedInv w) (hstate : w'.r.state = w.r.state)
    (hclosed : w'.r.closed = w.r.closed) (hresp : w'.r.resp = w.r.resp)
    (ht : w'.trace = w.trace) : AnnouncedInv w' := by
  refine ⟨?_, ?_, ?_⟩
  · rw [hstate, hclosed, ht]
    exact hinv.before
  · rw [hstate, hclosed, ht, hresp]
    exact hinv.body
  · rw [hstate, ht, hresp]
    exact hinv.done

/-- A closed request has nothing more to say unless it is in `DONE`. -/
theorem announcedInv_closed (hclosed : w.r.closed = true) (hs : w.r.state ≠ .done) :
    AnnouncedInv w := by
  refine ⟨fun hopen => ?_, fun hopen => ?_, fun hdone => absurd hdone hs⟩
  · rw [hclosed] at hopen
    cases hopen
  · rw [hclosed] at hopen
    cases hopen

/-- A request that has sent no header block yet. -/
theorem announcedInv_before (hno : ∀ e ∈ w.trace, e.isHeaders = false) : AnnouncedInv w :=
  ⟨fun _ _ => hno, fun _ _ _ _ h => absurd h (not_announced hno),
    fun _ _ _ h => absurd h (not_announced hno)⟩

theorem announcedInv_body (hs : w.r.state = .responseBody) (hbody : ∀ n k, Announced w.trace n k →
    n ≠ phlContentLengthInit → w.r.resp.contentLength = n ∧ w.r.resp.contentOriginalLength = n ∧
      w.r.resp.contentGeneratedLength = k ∧ k ≤ n) : AnnouncedInv w := by
  refine ⟨fun _ hle => ?_, fun _ _ => hbody, fun hdone => ?_⟩
  · rw [hs] at hle
    exact absurd hle (by decide)
  · rw [hs] at hdone
    cases hdone

theorem announcedInv_done (hs : w.r.state = .done) (hdone : ∀ n k, Announced w.trace n k →
    n ≠ phlContentLengthInit → w.r.resp.contentLength = n ∧ k = n) : AnnouncedInv w := by
  refine ⟨fun _ hle => ?_, fun _ hbody => ?_, fun _ => hdone⟩
  · rw [hs] at hle
    exact absurd hle (by decide)
  · rw [hs] at hbody
    cases hbody

theorem phlRequestClose_resp (h : phlRequestClose env w = some w') : w'.r.resp = w.r.resp := by
  cases phlRequestClose_closes h with
  | _ => rfl

theorem AnnouncedInv.close (hinv : AnnouncedInv w) (h : phlRequestClose env w = some w') :
    AnnouncedInv w' := by
  obtain ⟨hk, hclosed⟩ := phlRequestClose_kept (P := fun e : Event V => ¬e.starts) (L := False)
    (K := fun _ => False) (fun _ => by simp [Event.starts]) (by simp [Event.starts])
    (by simp [Event.starts]) h
  by_cases hs : w.r.state = .done
  · obtain ⟨es, ht, hes⟩ := hk.trace
    refine ⟨fun hopen => ?_, fun hopen => ?_, fun _ n k hsent hinit => ?_⟩
    · rw [hclosed] at hopen
      cases hopen
    · rw [hclosed] at hopen
      cases hopen
    · rw [ht] at hsent
      obtain ⟨k', hsent', hk'⟩ :=
        hsent.of_append fun e he => not_isHeaders_of_not_starts (hes e he)
      rw [bodyLength_nil_of_forall hes, Nat.add_zero] at hk'
      rw [phlRequestClose_resp h, hk']
      exact hinv.done hs n k' hsent' hinit
  · exact announcedInv_closed hclosed (by rw [hk.state]; exact hs)

/-- The header step logs no header block or ends with the one that announces the body. -/
theorem phlRequestResponseHeaders3_length {ret : Int}
    (h : phlRequestResponseHeaders3 env w = some (ret, w')) :
    (∃ es, w'.trace = w.trace ++ es ∧ ∀ e ∈ es, e.isHeaders = false) ∨
      ret = phlOk ∧ w'.r = w.r ∧ ∃ es code hs, (∀ e ∈ es, e.isHeaders = false) ∧
        w'.trace = w.trace ++ es ++ [.headers code w.r.resp.contentLength hs] := by
  rcases phlRequestResponseHeaders3_inv h with ⟨-, -, hsame⟩ | ⟨n, w1, hm, hmade⟩
  · rw [hsame]
    exact .inl ⟨[], by simp, by simp⟩
  · obtain ⟨⟨es, ht, hes⟩, hroom⟩ := phlConnectionMakeSpace_room hm
    have hno := fun e he => not_isHeaders_of_not_starts (hes e he)
    rcases hmade with ⟨-, -, hw'⟩ | ⟨hneg, hret, hw'⟩
    · rw [hw']
      exact .inl ⟨es, ht, hno⟩
    · have hr : w1.r = w.r := hroom fun h => hneg (by rw [h]; decide)
      rw [hw']
      refine .inr ⟨hret, hr, es, w1.r.resp.statusCode, w1.r.resp.headers, hno, ?_⟩
      rw [World.emit_trace, ht, hr]

/-- What a step of an open request leaves, before `phl_request_run` looks at its return value. -/
inductive LengthStepped (w w1 : World W V) (n : Int) : Prop
  | before : w.r.state.index ≤ 8 → (∀ e ∈ w1.trace, e.isHeaders = false) → LengthStepped w w1 n
  | headers : w.r.state = .responseHeaders3 → n = phlOk →
      (∀ m k, Announced w1.trace m k → m ≠ phlContentLengthInit → w1.r.resp.contentLength = m ∧
        w1.r.resp.contentOriginalLength = m ∧ w1.r.resp.contentGeneratedLength = k ∧ k ≤ m) →
      LengthStepped w w1 n
  | body : w.r.state = .responseBody → BodyPiece w w1 (some n) → LengthStepped w w1 n

theorem announceOk_iff (r : Request) : announceOk r = true ↔
    r.resp.contentLength = phlContentLengthInit ∨
      r.resp.contentLength = r.resp.contentOriginalLength ∧ r.resp.contentGeneratedLength = 0 := by
  simp [announceOk]

theorem AnnouncedInv.stepped {n : Int} {w1 : World W V} (hinv : AnnouncedInv w)
    (hhttp : OnHttp1 w.r) (hopen : w.r.closed = false) (hs : w.r.state ≠ .done)
    (hok : lengthStepOk env w = true) (hp : w.r.confPath = some p)
    (h : phlRequestStep env p w = some (some n, w1)) (hp1 : w1.r.confPath ≠ none) :
    LengthStepped w w1 n := by
  by_cases hle : w.r.state.index ≤ 8
  · have hno := hinv.before hopen hle
    have hgrown : ∀ es, w1.trace = w.trace ++ es → (∀ e ∈ es, e.isHeaders = false) →
        ∀ e ∈ w1.trace, e.isHeaders = false := by
      intro es ht hes e he
      rw [ht] at he
      rcases List.mem_append.mp he with he | he
      · exact hno e he
      · exact hes e he
    by_cases h3 : w.r.state = .responseHeaders3
    · simp only [phlRequestStep, h3] at h
      obtain ⟨⟨m, w2⟩, hx, he⟩ := Option.map_eq_some_iff.mp h
      cases he
      rcases phlRequestResponseHeaders3_length hx with
        ⟨es, ht, hes⟩ | ⟨hret, hr, es, code, hs', hes, ht⟩
      · exact .before hle (hgrown es ht hes)
      · refine .headers h3 hret fun m k hsent hinit => ?_
        have hbefore : ∀ e ∈ w.trace ++ es, e.isHeaders = false := by
          intro e he
          rcases List.mem_append.mp he with he | he
          · exact hno e he
          · exact hes e he
        rw [ht] at hsent
        obtain ⟨hm, hk⟩ := hsent.first hbefore
        unfold lengthStepOk at hok
        simp only [h3, decide_eq_true hhttp, Bool.not_true, Bool.false_or] at hok
        rcases (announceOk_iff w.r).mp hok with hlen | ⟨hlen, hgen⟩
        · exact absurd (hm.trans hlen) hinit
        · rw [hr, hgen, ← hlen, hm, hk]
          exact ⟨rfl, rfl, rfl, Nat.zero_le _⟩
    · obtain ⟨es, ht, hes⟩ := (phlRequestStep_kept h fun _ => hp1).trace
      exact .before hle (hgrown es ht fun e he => not_isHeaders_of_ofStep (hes e he) h3)
  · have hb : w.r.state = .responseBody := by
      cases hw : w.r.state <;> simp [hw, RequestState.index] at hle hs ⊢
    unfold lengthStepOk at hok
    simp only [hb, hp, decide_eq_true hhttp, Bool.not_true, Bool.false_or] at hok
    simp only [phlRequestStep, hb] at h
    exact .body hb (phlRequestResponseBody_length hhttp.isHttp2 hok h)

theorem headers_of_body {ret : Option Int} {w1 : World W V} (hb : w.r.state = .responseBody)
    (h : phlRequestStep env p w = some (ret, w1)) (hp1 : ret ≠ none → w1.r.confPath ≠ none) :
    ∃ es, w1.trace = w.trace ++ es ∧ ∀ e ∈ es, e.isHeaders = false := by
  obtain ⟨es, ht, hes⟩ := (phlRequestStep_kept h hp1).trace
  exact ⟨es, ht, fun e he => not_isHeaders_of_ofStep (hes e he) (by simp [hb])⟩

/-- A round of the body that sends a piece keeps what it has sent apart from the length. -/
theorem AnnouncedInv.sent {ret : Option Int} {w1 : World W V} {vs : List (Event V)} {n k : Nat}
    (hinv : AnnouncedInv w) (hopen : w.r.closed = false) (hb : w.r.state = .responseBody)
    (ht : w1.trace = w.trace ++ vs) (hvs : ∀ e ∈ vs, e.isHeaders = false)
    (hsent : PieceSent ret w w1) (hn : Announced w1.trace n k) (hinit : n ≠ phlContentLengthInit) :
    w1.r.resp.contentLength = n ∧ w1.r.resp.contentOriginalLength = n ∧
      w1.r.resp.contentGeneratedLength = k ∧ k ≤ n ∧ (ret ≠ none → k = n) := by
  rw [ht] at hn
  obtain ⟨k', hbefore, hk⟩ := hn.of_append hvs
  obtain ⟨hlen, horig, hgen, hle⟩ := hinv.body hopen hb n k' hbefore hinit
  obtain ⟨hlen1, horig1, hbound, es, hes, hsum⟩ := hsent (by rw [hlen]; exact hinit)
  have hsame : es = vs := List.append_cancel_left (hes.symm.trans ht)
  obtain ⟨hle1, hend⟩ := hbound (by omega)
  rw [hsame] at hsum
  have hk1 : w1.r.resp.contentGeneratedLength = k := by omega
  refine ⟨hlen1.trans hlen, horig1.trans horig, hk1, by omega, fun hret => ?_⟩
  have hlast := hend (by rw [horig]; exact hinit) hret
  omega

theorem AnnouncedInv.run (hinv : AnnouncedInv w) (hhttp : OnHttp1 w.r)
    (hok : lengthStepOk env w = true) (h : phlRequestRun env w = some w') : AnnouncedInv w' := by
  cases phlRequestRun_ran h with
  | closed => exact hinv.congr rfl rfl rfl rfl
  | done _ _ h1 => exact (hinv.close h1).congr rfl rfl rfl rfl
  | @round p _ hopen _ hp hstep =>
    have hk := phlRequestStep_kept hstep (by simp)
    have hb := state_of_round hstep
    obtain ⟨vs, ht, hvs⟩ := headers_of_body hb hstep (by simp)
    have hstate : w'.r.state = .responseBody := hk.state.trans hb
    unfold lengthStepOk at hok
    simp only [hb, hp, decide_eq_true hhttp, Bool.not_true, Bool.false_or] at hok
    simp only [phlRequestStep, hb] at hstep
    cases phlRequestResponseBody_length hhttp.isHttp2 hok hstep with
    | sent _ hret hsent =>
      apply announcedInv_body hstate
      intro n k hn hinit
      obtain ⟨hlen, horig, hgen, hle, -⟩ := hinv.sent hopen hb ht hvs hsent hn hinit
      exact ⟨hlen, horig, hgen, hle⟩
  | @next p n w1 hopen hs hp hstep hp1 hn =>
    have hk := phlRequestStep_kept hstep fun _ => hp1
    cases hinv.stepped hhttp hopen hs hok hp hstep hp1 with
    | before _ hno => exact announcedInv_before hno
    | headers h3 _ hfirst =>
      have hstate : w1.r.state.next = .responseBody := by rw [hk.state, h3]; rfl
      exact announcedInv_body hstate hfirst
    | body hb hpiece =>
      have hstate : w1.r.state.next = .done := by rw [hk.state, hb]; rfl
      obtain ⟨vs, ht, hvs⟩ := headers_of_body hb hstep fun _ => hp1
      cases hpiece with
      | failed _ hneg hfail =>
        unfold failureOk at hfail
        rcases hn with rfl | rfl
        · exact absurd hneg (by decide)
        · cases hfail
      | sent _ hret hsent =>
        apply announcedInv_done hstate
        intro m k hm hinit
        obtain ⟨hlen, -, -, -, hend⟩ := hinv.sent hopen hb ht hvs hsent hm hinit
        exact ⟨hlen, hend (by simp)⟩
  | @again p w1 hopen hs hp hstep hp1 =>
    have hk := phlRequestStep_kept hstep fun _ => hp1
    cases hinv.stepped hhttp hopen hs hok hp hstep hp1 with
    | before _ hno => exact announcedInv_before hno
    | headers _ hn => exact absurd hn (by decide)
    | body hb hpiece =>
      have hstate : w1.r.state = .responseBody := hk.state.trans hb
      obtain ⟨vs, ht, hvs⟩ := headers_of_body hb hstep fun _ => hp1
      cases hpiece with
      | failed _ _ _ hwait =>
        refine (announcedInv_body hstate fun m k hm hinit => ?_).congr rfl rfl rfl rfl
        rw [ht] at hm
        obtain ⟨k', hbefore, hk'⟩ := hm.of_append hvs
        obtain ⟨hlen, horig, hgen, hle⟩ := hinv.body hopen hb m k' hbefore hinit
        obtain ⟨hr, es, hes, hzero⟩ := hwait (by rw [hlen]; exact hinit) rfl
        rw [List.append_cancel_left (hes.symm.trans ht)] at hzero
        have hk0 : k = k' := by omega
        rw [hr, hk0]
        exact ⟨hlen, horig, hgen, hle⟩
      | sent _ hret =>
        rcases hret with hret | hret
        · exact absurd (Option.some.inj hret) (by decide)
        · cases hret
  | @close p w1 w2 hopen hs hp hstep hp1 _ _ h2 =>
    have hk := phlRequestStep_kept hstep fun _ => hp1
    obtain ⟨hk2, hclosed⟩ := phlRequestClose_kept (P := fun _ => True) (L := True)
      (K := fun _ => True) (fun _ => trivial) trivial trivial h2
    refine announcedInv_closed hclosed ?_
    show w2.r.state ≠ .done
    rw [hk2.state, hk.state]
    exact hs
  | @broken p n w1 code hopen hs hp hstep hp1 hno hnb hna hcl =>
    have hk := phlRequestStep_kept hstep fun _ => hp1
    cases hinv.stepped hhttp hopen hs hok hp hstep hp1 with
    | before _ hbefore =>
      refine announcedInv_before fun e he => ?_
      rcases List.mem_append.mp he with he | he
      · exact hbefore e he
      · rw [List.mem_singleton.mp he]
        rfl
    | headers _ hn => exact absurd hn hno
    | body hb hpiece =>
      cases hpiece with
      | failed _ _ hfail =>
        -- the condition leaves a failure that has closed the request
        unfold failureOk at hfail
        simp only [Bool.or_eq_true, Bool.and_eq_true, beq_iff_eq] at hfail
        obtain ⟨hn, hclosed | hzero⟩ := hfail.resolve_left hna
        · exact announcedInv_closed hclosed (by simp)
        · refine absurd ⟨hn, hzero, ?_⟩ hcl
          rw [hk.state, hb]
          decide
      | sent _ hret =>
        rcases hret with hret | hret
        · exact absurd (Option.some.inj hret) hno
        · cases hret

/-- A run keeps the kind of its request. -/
theorem Ran.onHttp1 (h : Ran env w w') (hhttp : OnHttp1 w'.r) : OnHttp1 w.r := by
  have hkind : w'.r.father = w.r.father ∧ w'.r.isHttp2 = w.r.isHttp2 := by
    have hclose : ∀ {w1 w2 : World W V}, phlRequestClose env w1 = some w2 →
        w2.r.father = w1.r.father ∧ w2.r.isHttp2 = w1.r.isHttp2 := by
      intro w1 w2 h1
      have hk := (phlRequestClose_kept (P := fun _ => True) (L := True) (K := fun _ => True)
        (fun _ => trivial) trivial trivial h1).1
      exact ⟨hk.father, hk.isHttp2⟩
    cases h with
    | closed => exact ⟨rfl, rfl⟩
    | done _ _ h1 =>
      have hk := hclose h1
      exact hk
    | round _ _ _ hstep =>
      have hk := phlRequestStep_kept hstep (by simp)
      exact ⟨hk.father, hk.isHttp2⟩
    | next _ _ _ hstep hp1 =>
      have hk := phlRequestStep_kept hstep fun _ => hp1
      exact ⟨hk.father, hk.isHttp2⟩
    | again _ _ _ hstep hp1 =>
      have hk := phlRequestStep_kept hstep fun _ => hp1
      exact ⟨hk.father, hk.isHttp2⟩
    | close _ _ _ hstep hp1 _ _ h2 =>
      have hk := phlRequestStep_kept hstep fun _ => hp1
      obtain ⟨hfather, hhttp2⟩ := hclose h2
      exact ⟨hfather.trans hk.father, hhttp2.trans hk.isHttp2⟩
    | broken code _ _ _ hstep hp1 =>
      have hk := phlRequestStep_kept hstep fun _ => hp1
      exact ⟨hk.father, hk.isHttp2⟩
  exact ⟨hkind.1.symm.trans hhttp.father, hkind.2.symm.trans hhttp.isHttp2⟩

theorem announcedInv_keep (hinv : OnHttp1 w.r → AnnouncedInv w)
    (h : StepOk env (lengthStepOk env) w w') : OnHttp1 w'.r → AnnouncedInv w' := by
  intro hhttp
  obtain ⟨hstep, hok⟩ := h
  have hnot : w.r.isHttp2 = true → w'.r.isHttp2 = w.r.isHttp2 → False := by
    intro h2 hsame
    rw [hhttp.isHttp2, h2] at hsame
    cases hsame
  cases hstep with
  | call => exact (hinv hhttp).congr rfl rfl rfl rfl
  | run hrun h =>
    have hhttp0 := (phlRequestRun_ran h).onHttp1 hhttp
    exact (hinv hhttp0).run hhttp0 (hok hrun) h
  | receive => exact (hinv hhttp).congr rfl rfl rfl rfl
  | header _ _ _ h2 => exact absurd rfl (hnot h2)
  | headersEnd endStream _ h2 =>
    refine (hnot h2 ?_).elim
    obtain ⟨finished, h | h⟩ := phlHttp2HookStreamHeadersEnd_cases endStream w.r
    · rw [h]
    · rw [h]
  | body q buf _ h2 =>
    refine (hnot h2 ?_).elim
    obtain ⟨req, code, h⟩ := phlHttp2HookStreamBody_cases (env.path q).reqBodyMax w.r buf
    rw [h]
  | elsewhere => exact (hinv hhttp).congr rfl rfl rfl rfl
  | close connection _ h =>
    have hk := (phlRequestClose_kept (P := fun _ => True) (L := True) (K := fun _ => True)
      (fun _ => trivial) trivial trivial h).1
    have hhttp0 : OnHttp1 w.r := ⟨hk.father.symm.trans hhttp.father,
      hk.isHttp2.symm.trans hhttp.isHttp2⟩
    exact AnnouncedInv.close (w := { w with connClosed := w.connClosed || connection })
      ((hinv hhttp0).congr rfl rfl rfl rfl) h

/-- A content module that announces ten bytes of body and sends five and then `rest`, on a
connection that has received a `GET`. -/
def relayEnv (rest : Bytes) : Env Bool Unit :=
  { Env.single (relayPath (.ok rest)) with lib := .lines }

def relayGet (rest : Bytes) : World Bool Unit where
  r := phlRequestNew (relayEnv rest) false
  recv := bytes "GET / HTTP/1.1" ++ crlf ++ crlf
  connClosed := false
  ctl := .idle
  env := false
  trace := []

theorem relayGet_reachable {rest : Bytes} {ok : World Bool Unit → Bool} {n : Nat}
    {w : World Bool Unit}
    (h : runs (relayEnv rest) ok n { relayGet rest with ctl := .running } = some w) :
    Reachable (Init (relayEnv rest)) (StepOk (relayEnv rest) ok) w := by
  have hstart : Reachable (Init (relayEnv rest)) (StepOk (relayEnv rest) ok) (relayGet rest) :=
    .start ⟨rfl, rfl, .inl ⟨false, rfl⟩⟩
  exact reachable_runs (hstart.next (admits_stepOk.call rfl)) h

end Phorklift
