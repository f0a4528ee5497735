import Phorklift.StreamBody

/-! `req_body_max` of a Path on an HTTP/2 stream without a declared length. -/

namespace Phorklift

open Transition

variable {W V : Type} {env : Env W V} {b c : BodyStream W V} {p : PathId}

/-- A body of `size` bytes is more than `limit` allows; 0 is no limit. -/
def Exceeds (limit size : Nat) : Prop :=
  limit ≠ 0 ∧ limit < size

instance (limit size : Nat) : Decidable (Exceeds limit size) :=
  inferInstanceAs (Decidable (limit ≠ 0 ∧ limit < size))

theorem not_exceeds_zero (limit : Nat) : ¬Exceeds limit 0 := by
  rintro ⟨-, hlt⟩
  omega

/-- For the Path `p`: a request that it handles is within its limit, and one that was refused for
its size is not. -/
def MeetsLimit (env : Env W V) (p : PathId) (b : BodyStream W V) : Prop :=
  b.declared = none →
    (ReachesHandlers env b p → ¬Exceeds (env.path p).reqBodyMax b.received) ∧
      (b.refused = some 413 → Exceeds (env.path p).reqBodyMax b.received)

/-- The Path that the request has when a piece of body comes decides on it as `p` does. -/
def DecidesAs (env : Env W V) (p : PathId) (b : BodyStream W V) (a : StreamAct W) : Prop :=
  ∀ buf q, a = .body (some buf) → buf ≠ [] → b.w.r.confPath = some q →
    (Exceeds (env.path q).reqBodyMax (b.w.r.req.bodyBuf.length + buf.length) ↔
      Exceeds (env.path p).reqBodyMax (b.received + buf.length))

structure LimitInv (env : Env W V) (p : PathId) (b : BodyStream W V) : Prop
    extends StreamInv b where
  within : b.refused = none → b.w.r.state.index ≤ 3 → b.declared = none →
    ¬Exceeds (env.path p).reqBodyMax b.received
  refused : b.refused = some 413 → Exceeds (env.path p).reqBodyMax b.received

theorem Streamed.keeps_below {a : StreamAct W} (hinv : LimitInv env p b) (h : Streamed env b a c)
    (hok : DecidesAs env p b a) (hnone : c.refused = none) (hle : c.w.r.state.index ≤ 3)
    (hn : c.declared = none) : ¬Exceeds (env.path p).reqBodyMax c.received := by
  cases h with
  | header _ hhook hs =>
    have hzero := (hinv.start hhook.1 hs).1
    show ¬Exceeds _ b.received
    rw [hzero]
    exact not_exceeds_zero _
  | refusedEnd => cases hnone
  | headersEnd hb hs _ =>
    have hzero := (hinv.start hb hs).1
    show ¬Exceeds _ b.received
    rw [hzero]
    exact not_exceeds_zero _
  | body hhook hq _ hbody =>
    cases hbody with
    | finish => exact hinv.within hhook.1 hle hn
    | empty => exact hinv.within hhook.1 hle hn
    | exceeds => cases hnone
    | tooLarge => cases hnone
    | counted hlen =>
      have hinit := (hinv.early hhook.1 hle).1
      rw [show b.declared = none from hn, Option.getD_none] at hinit
      exact absurd hinit hlen
    | taken hsome _ hfits => exact mt (hok _ _ rfl hsome hq).mpr hfits
  | other hran => exact hinv.within hnone (hran.early hle) hn

theorem Streamed.keeps_refused {a : StreamAct W} (hinv : LimitInv env p b)
    (h : Streamed env b a c) (hok : DecidesAs env p b a) (href : c.refused = some 413) :
    Exceeds (env.path p).reqBodyMax c.received := by
  cases h with
  | header ok => cases ok <;> cases href
  | refusedEnd => cases href
  | headersEnd => cases href
  | body _ hq _ hbody =>
    cases hbody with
    | tooLarge hsome _ hmax hlt => exact (hok _ _ rfl hsome hq).mp ⟨hmax, hlt⟩
    | _ => cases href
  | other => exact hinv.refused href

/-- The limit of the Path that serves a request holds for its body, in every run in which the
pieces that come before the Path is located meet a limit that decides alike. -/
theorem body_limit_of_decidesAs
    (h : Reachable (StreamStart env) (ActStep (streamStep env) (DecidesAs env p)) b) :
    MeetsLimit env p b := by
  have hinv : LimitInv env p b := by
    refine h.invariant ?_ ?_
    · rintro _ ⟨e, rfl⟩
      exact ⟨streamInv_new env e, fun _ _ _ => not_exceeds_zero _, fun href => by cases href⟩
    · rintro s t hs ⟨a, hok, hstep⟩
      have hstreamed := streamStep_streamed hs.isHttp2 hstep
      exact ⟨hstreamed.keeps hs.toStreamInv,
        fun hnone hle hn => hstreamed.keeps_below hs hok hnone hle hn,
        fun href => hstreamed.keeps_refused hs hok href⟩
  intro hn
  refine ⟨fun hp => hinv.within (hp.finished hinv.toStreamInv).1 ?_ hn, hinv.refused⟩
  rw [hp.1]
  decide

/-- A default Path and one more, with their limits. -/
def Env.limits (default serving : Nat) : Env Unit Unit :=
  { Env.single (syncPath 0) with
    path := fun p => if p = 0 then syncPath default else syncPath serving }

/-- Five bytes in one piece, before the Path is located. -/
def fiveBytes : List (StreamAct Unit) :=
  [.header (bytes ":path") (bytes "/"), .headersEnd false, .body (some (bytes "abcde"))]

/-- The stream ends, and the request is run up to its body. -/
def runToBody : List (StreamAct Unit) :=
  [.body none, .call, .run, .run]

def decidesAs (env : Env W V) (p : PathId) (b : BodyStream W V) : StreamAct W → Bool
  | .body (some buf) => b.w.r.confPath.all fun q =>
    decide (Exceeds (env.path q).reqBodyMax (b.w.r.req.bodyBuf.length + buf.length) ↔
      Exceeds (env.path p).reqBodyMax (b.received + buf.length))
  | _ => true

theorem decidesAs_ok {a : StreamAct W} (h : decidesAs env p b a = true) : DecidesAs env p b a := by
  rintro buf q rfl - hq
  simpa [decidesAs, hq] using h

theorem body_limit_of_decidesAs_five : ∃ b : BodyStream Unit Unit,
    runActs (streamStep (.limits 8 5)) (fiveBytes ++ runToBody) (.new (.limits 8 5) ()) = some b ∧
      b.received = 5 ∧ MeetsLimit (.limits 8 5) 1 b := by
  have hrun : (runActs (streamStep (.limits 8 5)) (fiveBytes ++ runToBody)
      (.new (.limits 8 5) ())).map (fun b => b.received) = some 5 := by decide +kernel
  obtain ⟨b, hb, hreceived⟩ := Option.map_eq_some_iff.mp hrun
  have hok : ActsMeet (streamStep (.limits 8 5)) (DecidesAs (.limits 8 5) 1)
      (fiveBytes ++ runToBody) (.new (.limits 8 5) ()) := by
    have hcheck : checkActs (streamStep (.limits 8 5)) (decidesAs (.limits 8 5) 1)
        (fiveBytes ++ runToBody) (.new (.limits 8 5) ()) = true := by decide +kernel
    exact actsMeet_of_check (fun _ _ => decidesAs_ok) hcheck
  exact ⟨b, hb, hreceived, body_limit_of_decidesAs (Reachable.runActs (.start ⟨(), rfl⟩) hok hb)⟩

/-- Five bytes are refused by the default Path's limit of four where the serving Path allows a
hundred, and handled by a Path that allows two where the default Path has no limit. -/
theorem body_limit_of_default_path :
    (∃ b, Reachable (StreamStart (.limits 4 100))
      (ActStep (streamStep (.limits 4 100)) fun _ _ => True) b ∧ ¬MeetsLimit (.limits 4 100) 1 b) ∧
    ∃ b, Reachable (StreamStart (.limits 0 2))
      (ActStep (streamStep (.limits 0 2)) fun _ _ => True) b ∧ ¬MeetsLimit (.limits 0 2) 1 b := by
  constructor
  · have hrun : (runActs (streamStep (.limits 4 100)) fiveBytes (.new (.limits 4 100) ())).map
        (fun b => (b.declared, b.received, b.refused)) = some (none, 5, some 413) := by
      decide +kernel
    obtain ⟨b, hb, hfacts⟩ := Option.map_eq_some_iff.mp hrun
    simp only [Prod.mk.injEq] at hfacts
    obtain ⟨hn, hreceived, href⟩ := hfacts
    refine ⟨b, Reachable.runActs (.start ⟨(), rfl⟩) (actsMeet_of_forall _ _ fun _ _ => trivial) hb,
      fun hmeets => ?_⟩
    have hover : 100 < b.received := ((hmeets hn).2 href).2
    omega
  · have hrun : (runActs (streamStep (.limits 0 2)) (fiveBytes ++ runToBody)
        (.new (.limits 0 2) ())).map
        (fun b => (b.declared, b.received, b.w.r.state, b.w.r.confPath,
          (streamStep (.limits 0 2) b .run).map fun c => c.w.r.state)) =
        some (none, 5, .receiveBodySync, some 1, some .processHeaders) := by
      decide +kernel
    obtain ⟨b, hb, hfacts⟩ := Option.map_eq_some_iff.mp hrun
    simp only [Prod.mk.injEq] at hfacts
    obtain ⟨hn, hreceived, hs, hp, hnext⟩ := hfacts
    obtain ⟨c, hc, hhandlers⟩ := Option.map_eq_some_iff.mp hnext
    refine ⟨b, Reachable.runActs (.start ⟨(), rfl⟩) (actsMeet_of_forall _ _ fun _ _ => trivial) hb,
      fun hmeets => ?_⟩
    have hwithin := (hmeets hn).1 ⟨hs, hp, rfl, .run, c, hc, hhandlers⟩
    apply hwithin
    rw [hreceived]
    decide

end Phorklift
