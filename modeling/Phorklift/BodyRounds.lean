import Phorklift.BodyLength
import Phorklift.FileRead

/-! The recursive calls of `phl_request_response_body`: when they come to an end, for a source that
holds so many bytes. -/

namespace Phorklift

variable {W V : Type}

/-- The call ends after finitely many calls of itself. -/
inductive BodyReturns (env : Env W V) (p : PathId) : World W V → Prop
  | now {w w' : World W V} {n : Int} :
    phlRequestResponseBody env p w = some (some n, w') → BodyReturns env p w
  | again {w w' : World W V} :
    phlRequestResponseBody env p w = some (none, w') → BodyReturns env p w' → BodyReturns env p w

/-- `r->resp.content_generated_length += n` -/
def Request.generate (r : Request) (n : Nat) : Request :=
  { r with resp.contentGeneratedLength := r.resp.contentGeneratedLength + n }

/-- A source that holds `supply` bytes: a piece is taken from them, and is empty only where there
are none. -/
structure FiniteSource (env : Env W V) (p : PathId) (inv : Request → W → Prop)
    (supply : Request → W → Nat) : Prop where
  answers : ∀ w bufLen, inv w.r w.env → 0 < bufLen → (generateBody env p bufLen w).isSome
  keeps : ∀ w bufLen data w', inv w.r w.env → 0 < bufLen →
    generateBody env p bufLen w = some (.ok data, w') → inv (w.r.generate data.length) w'.env
  takes : ∀ w bufLen data w', inv w.r w.env → 0 < bufLen →
    generateBody env p bufLen w = some (.ok data, w') →
      data.length + supply (w.r.generate data.length) w'.env = supply w.r w.env
  empty : ∀ w bufLen w', inv w.r w.env → 0 < bufLen →
    generateBody env p bufLen w = some (.ok [], w') → supply w.r w.env = 0

/-- What a source answers at its end: an error, or no bytes. -/
def endPiece : Option Failure → Except Failure Bytes
  | none => .ok []
  | some n => .error n

/-- The source waits for nothing: it answers with bytes while it has any, then with its end. -/
structure ReadySource (env : Env W V) (p : PathId) (inv : Request → W → Prop)
    (supply : Request → W → Nat) (last : Option Failure) : Prop where
  gives : ∀ w bufLen data w', inv w.r w.env → 0 < bufLen → 0 < supply w.r w.env →
    generateBody env p bufLen w = some (data, w') → ∃ given, data = .ok given
  ends : ∀ w bufLen data w', inv w.r w.env → 0 < bufLen → supply w.r w.env = 0 →
    generateBody env p bufLen w = some (data, w') → data = endPiece last

/-- What makes space on the connection and filters the body does neither touch the source nor say
that a piece is the last. -/
structure Around (inv : Request → W → Prop) (supply : Request → W → Nat)
    (makeSpace : Nat → W → Space × W) (filters : List (BodyFilter W V)) : Prop where
  room : ∀ size e n, (makeSpace size e).1 = .space n → size ≤ n
  space_inv : ∀ r size e, inv r e → inv r (makeSpace size e).2
  space_supply : ∀ r size e, supply r (makeSpace size e).2 = supply r e
  filter_last : ∀ m ∈ filters, ∀ r data bufLen isLast e, (m r data bufLen isLast e).isLast = isLast
  filter_inv : ∀ m ∈ filters, ∀ r r' data bufLen isLast e,
    inv r' e → inv r' (m r data bufLen isLast e).env
  filter_supply : ∀ m ∈ filters, ∀ r r' data bufLen isLast e,
    supply r' (m r data bufLen isLast e).env = supply r' e

/-- The same source with other flushes, windows and body filters. -/
def Env.around (env : Env W V) (p : PathId) (makeSpace : Nat → W → Space × W)
    (window : W → Nat) (filters : List (BodyFilter W V)) : Env W V :=
  { env with
    makeSpace := makeSpace
    streamWindow := window
    path := Function.update env.path p { env.path p with bodyFilters := filters } }

/-- Whatever the flushes, the windows and the body filters, the call ends. -/
def AlwaysReturns (env : Env W V) (p : PathId) (inv : Request → W → Prop)
    (supply : Request → W → Nat) (w : World W V) : Prop :=
  ∀ makeSpace window filters, Around inv supply makeSpace filters →
    BodyReturns (env.around p makeSpace window filters) p w

/-- The length of the body is not known, or the source holds the rest of it. -/
def Supplied (supply : Request → W → Nat) (r : Request) (e : W) : Prop :=
  r.resp.contentOriginalLength = phlContentLengthInit ∨
    r.resp.contentOriginalLength ≤ r.resp.contentGeneratedLength + supply r e

section Round

variable {env : Env W V} {p : PathId} {inv : Request → W → Prop} {supply : Request → W → Nat}
  {makeSpace : Nat → W → Space × W} {window : W → Nat} {filters : List (BodyFilter W V)}
  {w w' : World W V} {bufLen : Nat}

theorem generateBody_around :
    generateBody (env.around p makeSpace window filters) p bufLen w = generateBody env p bufLen w := by
  unfold generateBody Env.around
  simp only [Function.update_self]

theorem phlRequestClose_isSome (hpath : w.r.confPath ≠ none) : (phlRequestClose env w).isSome := by
  unfold phlRequestClose
  split
  next => rfl
  next =>
    dsimp only
    split
    next => rfl
    next =>
      split
      next => rfl
      next =>
        split
        next =>
          split
          next => split <;> rfl
          next => rfl
        next => split <;> rfl

/-- Space is refused, or there is as much as was asked for. -/
theorem makeSpace_room (env : Env W V) (size : Nat) (hpath : w.r.confPath ≠ none)
    (hroom : ∀ e n, (env.makeSpace size e).1 = .space n → size ≤ n) :
    ∃ n w', phlConnectionMakeSpace env size w = some (n, w') ∧
      (n < 0 ∨ (size : Int) ≤ n ∧ w'.r = w.r ∧ w'.connClosed = w.connClosed ∧
        w'.env = (env.makeSpace size w.env).2) := by
  unfold phlConnectionMakeSpace
  split
  next => exact ⟨_, _, rfl, .inl (by decide)⟩
  next =>
    dsimp only
    split
    next n hspace => exact ⟨_, _, rfl, .inr ⟨by exact_mod_cast hroom _ _ hspace, rfl, rfl, rfl⟩⟩
    next => exact ⟨_, _, rfl, .inl (by decide)⟩
    next => exact ⟨_, _, rfl, .inl (by decide)⟩
    next =>
      obtain ⟨w', hclose⟩ := Option.isSome_iff_exists.mp (@phlRequestClose_isSome W V env
        { w with connClosed := true, env := (env.makeSpace size w.env).2 } hpath)
      rw [hclose]
      exact ⟨_, _, rfl, .inl (by decide)⟩

theorem filters_keep (haround : Around inv supply makeSpace filters) (r r' : Request)
    (bufLen : Nat) {modules : List (BodyFilter W V)} (hmem : ∀ m ∈ modules, m ∈ filters)
    (data : Bytes) (isLast : Bool) (e : W) (es : List V) :
    let piece := phlModuleFilterResponseBody r bufLen modules data isLast e es
    piece.isLast = isLast ∧ (inv r' e → inv r' piece.env) ∧ supply r' piece.env = supply r' e := by
  induction modules generalizing data isLast e es with
  | nil => exact ⟨rfl, id, rfl⟩
  | cons m modules ih =>
    have hm := hmem m List.mem_cons_self
    have hlast := haround.filter_last m hm r data bufLen isLast e
    have hinv := haround.filter_inv m hm r r' data bufLen isLast e
    have hsupply := haround.filter_supply m hm r r' data bufLen isLast e
    dsimp only
    unfold phlModuleFilterResponseBody
    dsimp only
    split
    next => exact ⟨hlast, hinv, hsupply⟩
    next data' _ =>
      obtain ⟨hlast', hinv', hsupply'⟩ := ih (fun m hm => hmem m (List.mem_cons_of_mem _ hm))
        data' (m r data bufLen isLast e).isLast (m r data bufLen isLast e).env
        (es ++ (m r data bufLen isLast e).emit)
      exact ⟨hlast'.trans hlast, fun h => hinv' (hinv h), hsupply'.trans hsupply⟩

/-- The filters and the packing end the call where the piece is the last. -/
theorem filterAndPack_around (haround : Around inv supply makeSpace filters) {data : Bytes}
    {isLast : Bool} {ret : Option Int}
    (h : filterAndPack (env.around p makeSpace window filters) p bufLen data isLast w = (ret, w')) :
    (ret = none → isLast = false) ∧ w'.r = w.r ∧ w'.connClosed = w.connClosed ∧
      (inv w.r w.env → inv w.r w'.env) ∧ supply w.r w'.env = supply w.r w.env := by
  have hpath : ((env.around p makeSpace window filters).path p).bodyFilters = filters := by
    unfold Env.around
    simp only [Function.update_self]
  obtain ⟨hlast, hinv, hsupply⟩ := filters_keep haround w.r w.r bufLen (fun m hm => hm) data isLast
    w.env []
  unfold filterAndPack at h
  rw [hpath] at h
  dsimp only at h
  split at h
  next =>
    cases h
    refine ⟨fun hnone => ?_, rfl, rfl, hinv, hsupply⟩
    cases hnone
  next =>
    cases h
    refine ⟨fun hnone => ?_, rfl, rfl, hinv, hsupply⟩
    rw [hlast] at hnone
    split at hnone
    next => cases hnone
    next hnot => exact Bool.eq_false_iff.mpr hnot

/-- What a round leaves that calls the function again: `n` bytes have gone from the source to the
response, and they are not the last. -/
structure NextRound (env : Env W V) (p : PathId) (inv : Request → W → Prop)
    (supply : Request → W → Nat) (w w' : World W V) (n : Nat) : Prop where
  request : w'.r = w.r.generate n
  connClosed : w'.connClosed = w.connClosed
  keeps : inv w'.r w'.env
  takes : n + supply w'.r w'.env = supply w.r w.env
  given : ∃ w1 bufLen data w2, inv w1.r w1.env ∧ 0 < bufLen ∧
    supply w1.r w1.env = supply w.r w.env ∧
    generateBody env p bufLen w1 = some (.ok data, w2) ∧ data.length = n
  known : n = 0 → w.r.resp.contentOriginalLength ≠ phlContentLengthInit
  rest : w.r.resp.contentOriginalLength ≠ phlContentLengthInit →
    w.r.resp.contentGeneratedLength + n < w.r.resp.contentOriginalLength

theorem room_pos {n : Nat} {e : Env W V} (hn : 4096 ≤ n)
    (hwindow : ¬(w.r.isHttp2 = true ∧ e.streamWindow w.env = 0)) :
    0 < responseBodyRoom e n w := by
  unfold responseBodyRoom
  split
  next hhttp2 =>
    have hpos : e.streamWindow w.env ≠ 0 := fun h => hwindow ⟨hhttp2, h⟩
    omega
  next => split <;> omega

/-- The space before the headers changes nothing that a round is about. -/
theorem NextRound.of_room {w1 : World W V} {n : Nat} (h : NextRound env p inv supply w1 w' n)
    (hr : w1.r = w.r) (hclosed : w1.connClosed = w.connClosed)
    (hsupply : supply w1.r w1.env = supply w.r w.env) : NextRound env p inv supply w w' n := by
  obtain ⟨w2, bufLen, data, w3, hinv, hpos, hsame, hgen⟩ := h.given
  exact ⟨hr ▸ h.request, h.connClosed.trans hclosed, h.keeps, h.takes.trans hsupply,
    ⟨w2, bufLen, data, w3, hinv, hpos, hsame.trans hsupply, hgen⟩, hr ▸ h.known, hr ▸ h.rest⟩

/-- What was generated and packed leaves the next round to be run if it was not the last piece. -/
theorem packed_round (window : W → Nat) (hsource : FiniteSource env p inv supply)
    (haround : Around inv supply makeSpace filters) (hinv : inv w.r w.env) (hpos : 0 < bufLen)
    {data : Bytes} {w1 w2 : World W V} (hgen : generateBody env p bufLen w = some (.ok data, w1))
    (hpack : filterAndPack (env.around p makeSpace window filters) p bufLen data
      (if w.r.resp.contentOriginalLength ≠ phlContentLengthInit then
        decide (w.r.resp.contentOriginalLength ≤ w.r.resp.contentGeneratedLength + data.length)
      else data.length == 0)
      ({ w1 with
        r.resp.contentGeneratedLength :=
          w.r.resp.contentGeneratedLength + data.length }.emit [.source data]) = (none, w2)) :
    NextRound env p inv supply w w2 data.length := by
  obtain ⟨-, hr1⟩ := generateBody_source hgen
  have hkeeps := hsource.keeps w bufLen data w1 hinv hpos hgen
  have htakes := hsource.takes w bufLen data w1 hinv hpos hgen
  generalize hw3 : ({ w1 with
    r.resp.contentGeneratedLength :=
      w.r.resp.contentGeneratedLength + data.length }.emit [.source data] : World W V) = w3
    at hpack
  have hr3 : w3.r = w.r.generate data.length := by
    rw [← hw3, ← hr1]
    rfl
  have he3 : w3.env = w1.env := by rw [← hw3]; rfl
  have hclosed3 : w3.connClosed = w.connClosed := by
    rw [← (generateBody_frame hgen).2, ← hw3]
    rfl
  rw [← hr3, ← he3] at hkeeps htakes
  obtain ⟨hlast, hr4, hclosed4, hinv4, hsupply4⟩ := filterAndPack_around haround hpack
  have hnot := hlast rfl
  refine ⟨hr4.trans hr3, hclosed4.trans hclosed3, ?_, ?_, ?_, ?_, ?_⟩
  · rw [hr4]
    exact hinv4 hkeeps
  · rw [hr4, hsupply4, htakes]
  · exact ⟨w, bufLen, data, w1, hinv, hpos, rfl, hgen, rfl⟩
  · intro hzero hinit
    rw [if_neg (by simpa using hinit), hzero] at hnot
    cases hnot
  · intro hinit
    rw [if_pos hinit] at hnot
    simpa using hnot

/-- A round comes to an end with a value or with a further round. -/
theorem phlRequestResponseBody_round (window : W → Nat) (hsource : FiniteSource env p inv supply)
    (haround : Around inv supply makeSpace filters) (hinv : inv w.r w.env)
    (hpath : w.r.confPath ≠ none) :
    ∃ ret w', phlRequestResponseBody (env.around p makeSpace window filters) p w = some (ret, w') ∧
      (ret = none → ∃ n, NextRound env p inv supply w w' n) := by
  obtain ⟨space, w1, hspace, hroom⟩ := makeSpace_room
    (env.around p makeSpace window filters) 4096 hpath
    fun e n => haround.room 4096 e n
  unfold phlRequestResponseBody
  simp only [hspace, Option.bind_eq_bind, Option.bind_some]
  rcases hroom with hneg | ⟨hle, hr1, hclosed1, he1⟩
  · rw [if_pos hneg]
    exact ⟨_, _, rfl, by intro h; cases h⟩
  · rw [if_neg (by omega)]
    have hinv1 : inv w.r (makeSpace 4096 w.env).2 := haround.space_inv _ _ _ hinv
    have hsupply1 : supply w.r (makeSpace 4096 w.env).2 = supply w.r w.env :=
      haround.space_supply _ _ _
    have he : w1.env = (makeSpace 4096 w.env).2 := he1
    rw [← hr1, ← he] at hinv1
    rw [← he] at hsupply1
    split
    next => exact ⟨_, _, rfl, by intro h; cases h⟩
    next hwindow =>
      have hpos := room_pos (n := space.toNat) (by omega) hwindow
      generalize responseBodyRoom (env.around p makeSpace window filters) space.toNat w1 = bufLen
        at *
      split
      next =>
        generalize hpack :
          filterAndPack (env.around p makeSpace window filters) p bufLen [] true w1 = packed
        obtain ⟨ret, w2⟩ := packed
        refine ⟨ret, w2, rfl, fun hnone => ?_⟩
        cases (filterAndPack_around haround hpack).1 hnone
      next hless =>
        rw [generateBody_around]
        obtain ⟨⟨data, w2⟩, hgen⟩ := Option.isSome_iff_exists.mp
          (hsource.answers w1 bufLen hinv1 hpos)
        rw [hgen]
        cases data with
        | error n => exact ⟨_, _, rfl, by intro h; cases h⟩
        | ok data =>
          simp only [Option.bind_some]
          generalize hpack : filterAndPack (env.around p makeSpace window filters) p bufLen data
            _ _ = packed
          obtain ⟨ret, w3⟩ := packed
          refine ⟨ret, w3, rfl, fun hnone => ⟨data.length, ?_⟩⟩
          rw [hnone] at hpack
          exact (packed_round window hsource haround hinv1 hpos hgen hpack).of_room hr1 hclosed1
            (hr1 ▸ hsupply1)

/-- A further round that has generated nothing has a source with nothing left. -/
theorem NextRound.supply_eq_zero {n : Nat} (h : NextRound env p inv supply w w' n)
    (hsource : FiniteSource env p inv supply) (hn : n = 0) : supply w.r w.env = 0 := by
  obtain ⟨w1, bufLen, data, w2, hinv, hpos, hsupply, hgen, hlength⟩ := h.given
  rw [hn] at hlength
  rw [List.eq_nil_of_length_eq_zero hlength] at hgen
  rw [← hsupply]
  exact hsource.empty w1 bufLen w2 hinv hpos hgen

/-- Where each further round has generated something the calls come to an end, since the source
holds finitely many bytes. -/
theorem returns_of_progress (hsource : FiniteSource env p inv supply)
    (haround : Around inv supply makeSpace filters) (hinv : inv w.r w.env)
    (hpath : w.r.confPath ≠ none) (ok : World W V → Prop) (hok : ok w)
    (hprogress : ∀ w w' n, ok w → NextRound env p inv supply w w' n → n ≠ 0 ∧ ok w') :
    BodyReturns (env.around p makeSpace window filters) p w := by
  induction hsupply : supply w.r w.env using Nat.strong_induction_on generalizing w with
  | h m ih =>
    obtain ⟨ret, w', hround, hnext⟩ :=
      phlRequestResponseBody_round window hsource haround hinv hpath
    cases ret with
    | some n => exact .now hround
    | none =>
      obtain ⟨n, hn⟩ := hnext rfl
      obtain ⟨hne, hok'⟩ := hprogress w w' n hok hn
      have htakes := hn.takes
      have hpath' : w'.r.confPath ≠ none := by
        rw [hn.request]
        exact hpath
      exact .again hround (ih (supply w'.r w'.env) (by omega) hn.keeps hpath' hok' rfl)

theorem returns_of_supplied (hsource : FiniteSource env p inv supply)
    (haround : Around inv supply makeSpace filters) (hinv : inv w.r w.env)
    (hpath : w.r.confPath ≠ none) (hsupplied : Supplied supply w.r w.env) :
    BodyReturns (env.around p makeSpace window filters) p w := by
  refine returns_of_progress hsource haround hinv hpath
    (fun w => Supplied supply w.r w.env) hsupplied ?_
  intro w w' n hsupplied hn
  have htakes := hn.takes
  have horiginal : w'.r.resp.contentOriginalLength = w.r.resp.contentOriginalLength := by
    rw [hn.request]
    rfl
  have hgenerated : w'.r.resp.contentGeneratedLength = w.r.resp.contentGeneratedLength + n := by
    rw [hn.request]
    rfl
  unfold Supplied at *
  rw [horiginal, hgenerated]
  by_cases hinit : w.r.resp.contentOriginalLength = phlContentLengthInit
  · exact ⟨fun hzero => hn.known hzero hinit, .inl hinit⟩
  · have hrest := hn.rest hinit
    have henough := hsupplied.resolve_left hinit
    refine ⟨fun hzero => ?_, .inr (by omega)⟩
    have hnothing := hn.supply_eq_zero hsource hzero
    omega

theorem returns_of_failure (hsource : FiniteSource env p inv supply)
    (haround : Around inv supply makeSpace filters) (hinv : inv w.r w.env)
    (hpath : w.r.confPath ≠ none) {last : Option Failure}
    (hready : ReadySource env p inv supply last) (hlast : last ≠ none) :
    BodyReturns (env.around p makeSpace window filters) p w := by
  refine returns_of_progress hsource haround hinv hpath (fun _ => True) trivial ?_
  intro w w' n _ hn
  refine ⟨fun hzero => ?_, trivial⟩
  obtain ⟨w1, bufLen, data, w2, hinv, hpos, hsupply, hgen, -⟩ := hn.given
  have hnothing := hn.supply_eq_zero hsource hzero
  have hend := hready.ends w1 bufLen _ w2 hinv hpos (by omega) hgen
  cases last with
  | none => exact hlast rfl
  | some failure => cases hend

/-- A connection that takes everything. -/
def takesAll (size : Nat) (e : W) : Space × W := (.space size, e)

theorem around_takesAll : Around (V := V) inv supply takesAll [] where
  room := by
    intro size e n h
    cases h
    exact Nat.le_refl size
  space_inv := fun _ _ _ h => h
  space_supply := fun _ _ _ => rfl
  filter_last := by simp
  filter_inv := by simp
  filter_supply := by simp

/-- There a round of a source that falls short of the length is followed by another. -/
theorem short_round (hsource : FiniteSource env p inv supply)
    (hready : ReadySource env p inv supply none)
    (hinv : inv w.r w.env) (hopen : w.connClosed = false)
    (hshort : ¬Supplied supply w.r w.env) :
    ∃ w', phlRequestResponseBody (env.around p takesAll (fun _ => 1) []) p w = some (none, w') := by
  unfold Supplied at hshort
  rw [not_or] at hshort
  obtain ⟨hinit, hless⟩ := hshort
  have hspace : phlConnectionMakeSpace (env.around p takesAll (fun _ => 1) []) 4096 w =
      some (4096, w) := by
    unfold phlConnectionMakeSpace
    rw [if_neg (by simp [hopen])]
    rfl
  have hpos := room_pos (w := w) (n := (4096 : Int).toNat)
    (e := env.around p takesAll (fun _ => 1) []) (by decide) (by simp [Env.around])
  unfold phlRequestResponseBody
  simp only [hspace, Option.bind_eq_bind, Option.bind_some]
  rw [if_neg (by decide), if_neg (by simp [Env.around]), if_neg (by omega), generateBody_around]
  generalize responseBodyRoom (env.around p takesAll (fun _ => 1) []) (4096 : Int).toNat w =
    bufLen at *
  obtain ⟨⟨data, w2⟩, hgen⟩ := Option.isSome_iff_exists.mp (hsource.answers w bufLen hinv hpos)
  have hok : ∃ given, data = .ok given := by
    by_cases hsome : 0 < supply w.r w.env
    · exact hready.gives w bufLen data w2 hinv hpos hsome hgen
    · exact ⟨[], hready.ends w bufLen data w2 hinv hpos (by omega) hgen⟩
  obtain ⟨given, rfl⟩ := hok
  have htakes := hsource.takes w bufLen given w2 hinv hpos hgen
  rw [hgen]
  simp only [Option.bind_some]
  rw [if_pos hinit, decide_eq_false (by omega)]
  have hpath : ((env.around p takesAll (fun _ => 1) []).path p).bodyFilters = [] := by
    unfold Env.around
    simp only [Function.update_self]
  unfold filterAndPack
  rw [hpath]
  exact ⟨_, rfl⟩

theorem not_returns_of_short (hsource : FiniteSource env p inv supply)
    (hready : ReadySource env p inv supply none) (hinv : inv w.r w.env) (hpath : w.r.confPath ≠ none)
    (hopen : w.connClosed = false) (hshort : ¬Supplied supply w.r w.env) :
    ¬BodyReturns (env.around p takesAll (fun _ => 1) []) p w := by
  intro hreturns
  induction hreturns with
  | now hround =>
    obtain ⟨w', hnext⟩ := short_round hsource hready hinv hopen hshort
    rw [hround] at hnext
    cases hnext
  | @again w w' hround _ ih =>
    obtain ⟨ret, w1, hround1, hnext⟩ := phlRequestResponseBody_round (fun _ => 1)
      hsource around_takesAll hinv hpath
    rw [hround] at hround1
    cases hround1
    obtain ⟨n, hn⟩ := hnext rfl
    have htakes := hn.takes
    have hrequest := hn.request
    refine ih hn.keeps (by rw [hrequest]; exact hpath) (hn.connClosed.trans hopen) ?_
    unfold Supplied at *
    rw [not_or] at hshort ⊢
    have horiginal : w'.r.resp.contentOriginalLength = w.r.resp.contentOriginalLength := by
      rw [hrequest]
      rfl
    have hgenerated : w'.r.resp.contentGeneratedLength = w.r.resp.contentGeneratedLength + n := by
      rw [hrequest]
      rfl
    exact ⟨by rw [horiginal]; exact hshort.1, by omega⟩

/-- Whatever goes on around it, the call ends where the length is not known or the source holds the
rest of the body; and where it waits for nothing it ends only then, or if the connection is closed
or the source's end is an error. -/
theorem response_body_returns_iff (hsource : FiniteSource env p inv supply) (hinv : inv w.r w.env)
    (hpath : w.r.confPath ≠ none) :
    (Supplied supply w.r w.env → AlwaysReturns env p inv supply w) ∧
    ∀ last, ReadySource env p inv supply last →
      (AlwaysReturns env p inv supply w ↔
        w.connClosed = true ∨ last ≠ none ∨ Supplied supply w.r w.env) := by
  constructor
  · intro hsupplied makeSpace window filters haround
    exact returns_of_supplied hsource haround hinv hpath hsupplied
  · intro last hready
    constructor
    · intro halways
      by_contra hnot
      simp only [not_or, not_not] at hnot
      obtain ⟨hopen, rfl, hshort⟩ := hnot
      exact not_returns_of_short hsource hready hinv hpath (by simpa using hopen) hshort
        (halways takesAll (fun _ => 1) [] around_takesAll)
    · rintro (hclosed | hlast | hsupplied) makeSpace window filters haround
      · refine @BodyReturns.now W V _ p w w phlError ?_
        unfold phlRequestResponseBody phlConnectionMakeSpace
        rw [if_pos hclosed]
        rfl
      · exact returns_of_failure hsource haround hinv hpath hready hlast
      · exact returns_of_supplied hsource haround hinv hpath hsupplied

end Round

section File

/-- A Path whose responses are files: the world is what is left to read of the file. -/
def fileEnv : Env Bytes Unit :=
  { Env.single ⟨0, false, fun _ => [], [], none⟩ with
    readFd := fun _ len left => (.ok (left.take len.toNat), left.drop len.toNat) }

/-- A response of a file of `size` bytes, at the place up to which it has been read; its length is
the file's or a larger one that fits in an `int`. -/
structure FileAt (size : Nat) (r : Request) (left : Bytes) : Prop where
  easyStrLen : r.resp.easyStrLen = 0
  easyFd : r.resp.easyFd ≠ 0
  place : r.resp.contentGeneratedLength + left.length = size
  size_le : size ≤ r.resp.contentLength
  length_lt : r.resp.contentLength < 2 ^ 31

variable {size : Nat} {p : PathId} {w w' : World Bytes Unit} {bufLen : Nat}
  {data : Except Failure Bytes}

/-- As much is read as there is, up to what fits in the buffer and the length announces. -/
theorem generateBody_fileAt (hfile : FileAt size w.r w.env)
    (h : generateBody fileEnv p bufLen w = some (data, w')) :
    data = .ok (w.env.take
        (min (w.r.resp.contentLength - w.r.resp.contentGeneratedLength) bufLen)) ∧
      w'.env = w.env.drop
        (min (w.r.resp.contentLength - w.r.resp.contentGeneratedLength) bufLen) := by
  have hplace := hfile.place
  have hsize := hfile.size_le
  have hlength := hfile.length_lt
  have hcount : (fileReadLength w.r.resp bufLen).toNat =
      min (w.r.resp.contentLength - w.r.resp.contentGeneratedLength) bufLen := by
    unfold fileReadLength
    rw [toInt_eq]
    omega
  rw [generateBody_file hfile.easyStrLen hfile.easyFd] at h
  cases h
  unfold fileEnv
  dsimp only
  rw [hcount]
  exact ⟨rfl, rfl⟩

theorem file_finiteSource :
    FiniteSource fileEnv p (FileAt size) (fun _ left => left.length) where
  answers := by
    intro w bufLen hfile hpos
    rw [generateBody_file hfile.easyStrLen hfile.easyFd]
    rfl
  keeps := by
    intro w bufLen data w' hfile hpos h
    obtain ⟨hdata, hleft⟩ := generateBody_fileAt hfile h
    have hplace := hfile.place
    cases hdata
    refine ⟨hfile.easyStrLen, hfile.easyFd, ?_, hfile.size_le, hfile.length_lt⟩
    rw [hleft, List.length_drop, List.length_take]
    unfold Request.generate
    dsimp only
    omega
  takes := by
    intro w bufLen data w' hfile hpos h
    obtain ⟨hdata, hleft⟩ := generateBody_fileAt hfile h
    cases hdata
    rw [hleft, List.length_drop, List.length_take]
    omega
  empty := by
    intro w bufLen w' hfile hpos h
    obtain ⟨hdata, -⟩ := generateBody_fileAt hfile h
    have hlength := congrArg List.length (Except.ok.inj hdata)
    have hplace := hfile.place
    have hsize := hfile.size_le
    rw [List.length_nil, List.length_take] at hlength
    omega

theorem file_ready : ReadySource fileEnv p (FileAt size) (fun _ left => left.length) none where
  gives := by
    intro w bufLen data w' hfile hpos hsome h
    exact ⟨_, (generateBody_fileAt hfile h).1⟩
  ends := by
    intro w bufLen data w' hfile hpos hnone h
    obtain ⟨hdata, -⟩ := generateBody_fileAt hfile h
    rw [List.eq_nil_of_length_eq_zero hnone, List.take_nil] at hdata
    exact hdata

/-- An HTTP/1 request whose body is `length` bytes of a file, with `left` in it. -/
def fileWorld (length : Nat) (left : Bytes) : World Bytes Unit where
  r := { phlRequestNew fileEnv false with
    state := .responseBody
    resp := fileResp length }
  recv := []
  connClosed := false
  ctl := .running
  env := left
  trace := []

theorem response_body_returns_whole_file :
    AlwaysReturns fileEnv 0 (FileAt 3) (fun _ left => left.length) (fileWorld 3 [1, 2, 3]) :=
  (@response_body_returns_iff Bytes Unit fileEnv 0 (FileAt 3) (fun _ left => left.length)
    (fileWorld 3 [1, 2, 3]) file_finiteSource ⟨rfl, by decide, rfl, by decide, by decide⟩
    (by decide)).1 (.inr (by decide))

/-- A file that has become shorter than it was when its length was announced: at its end `read`
returns 0, the piece is not the last, and the function calls itself without end. -/
theorem response_body_never_returns :
    FiniteSource fileEnv 0 (FileAt 3) (fun _ left => left.length) ∧
    FileAt 3 (fileWorld 5 [1, 2, 3]).r (fileWorld 5 [1, 2, 3]).env ∧
    ¬BodyReturns (fileEnv.around 0 takesAll (fun _ => 1) []) 0 (fileWorld 5 [1, 2, 3]) := by
  have hfile : FileAt 3 (fileWorld 5 [1, 2, 3]).r (fileWorld 5 [1, 2, 3]).env :=
    ⟨rfl, by decide, rfl, by decide, by decide⟩
  refine ⟨file_finiteSource, hfile, not_returns_of_short file_finiteSource file_ready hfile
    (by decide) rfl ?_⟩
  unfold Supplied
  decide

end File

end Phorklift
