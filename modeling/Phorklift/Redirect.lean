import Mathlib.Logic.Relation
import Phorklift.RequestFrame

/-! What a redirect leaves for `phl_request_run` to go on with. -/

namespace Phorklift

open Transition Relation

variable {W V : Type}

/-- `phl_jump_if_filter_response_headers`; `conf` has the status codes and their targets. -/
def phlJumpIfFilterResponseHeaders (conf : List (Int × Bytes)) : Handler W V := fun r e =>
  match conf.find? fun jump => jump.1 = r.resp.statusCode with
  | none => ⟨phlOk, r.req, r.resp, none, e, []⟩
  | some jump => ⟨phlOk, r.req, r.resp, some jump.2, e, []⟩

/-- A redirect is refused only after ten others or for want of a path. -/
theorem phlRequestRedirect_break {env : Env W V} {path : Bytes} {w : World W V} :
    (phlRequestRedirect env path w).1 = phlBreak ↔
      w.r.redirects ≤ 10 ∧ (path.head? = some 64 ∨ path.head? = some 47) := by
  unfold phlRequestRedirect
  dsimp only
  split
  next h =>
    constructor
    · intro he
      exact absurd he (by decide : phlError ≠ phlBreak)
    · intro he
      omega
  next h =>
    split
    next => simpa using h
    next => simpa using h
    next h64 h47 =>
      constructor
      · intro he
        exact absurd he (by decide : phlError ≠ phlBreak)
      · rintro ⟨-, hp | hp⟩
        · obtain ⟨rest, rfl⟩ := List.head?_eq_some_iff.mp hp
          exact absurd rfl (h64 rest)
        · obtain ⟨rest, rfl⟩ := List.head?_eq_some_iff.mp hp
          exact absurd rfl (h47 rest)

/-- The name that the path of a redirected request has to be located by. -/
def redirectName (path : Bytes) (r : Request) : Option Bytes :=
  if path.head? = some 64 then some path else r.req.uri.path

/-- Both configuration pointers are set. -/
def Configured (w : World W V) : Prop := w.r.confHost ≠ none ∧ w.r.confPath ≠ none

/-- From `w`, in which a step has just returned `PHL_BREAK` from a redirect to `path`, the request
goes on with both pointers set to a status code answer, or to `PROCESS_HEADERS` under the path of
its host that `path` L and with a response that is as good as new. -/
def StartsAfresh (env : Env W V) (path : Bytes) (w : World W V) : Prop :=
  ∃ v w', phlRequestRunReturn env phlBreak w = some v ∧
    ReflTransGen (fun a b => Configured a ∧ Step env a b) v w' ∧ Configured w' ∧
    (w'.r.isBroken = true ∨
      w'.r.state = .processHeaders ∧ w'.r.resp = .init ∧
        ∃ host name q, w'.r.confHost = some host ∧ redirectName path w'.r = some name ∧
          env.confPathLocate host name = some q ∧
          ∃ r e, w'.r.confPath = some (env.dynamicGet q r e).path)

theorem phlRequestRunReturn_of_redirected {env : Env W V} {w w' : World W V}
    (h : Redirected w w') (ret : Int) : phlRequestRunReturn env ret w' = none := by
  simp [phlRequestRunReturn, h.confPath]

/-- The activation in which a step redirects the request does not get past that step. -/
theorem phlRequestRun_of_redirected {env : Env W V} {p : PathId} {w w' : World W V} {ret : Int}
    (hc : w.r.closed = false) (hp : w.r.confPath = some p)
    (h : phlRequestStep env p w = some (some ret, w')) (hr : Redirected w w') :
    phlRequestRun env w = none := by
  have hd : w.r.state ≠ .done := by
    intro hs
    simp [phlRequestStep, hs] at h
  simp [phlRequestRun, hc, hp, hd, h, phlRequestRunReturn_of_redirected hr]

theorem redirect_not_startsAfresh {env : Env W V} {path : Bytes} {w : World W V}
    (h : (phlRequestRedirect env path w).1 = phlBreak) :
    ¬StartsAfresh env path (phlRequestRedirect env path w).2 := by
  rintro ⟨v, w', hv, -⟩
  rcases phlRequestRedirect_cases (P := fun _ => True) (L := False)
    (K := fun _ => False) env path w with ⟨-, -, he⟩ | ⟨hr, -⟩
  · rw [he] at h
    exact absurd h (by decide)
  · rw [phlRequestRunReturn_of_redirected hr] at hv
    cases hv

/-- A path that answers 404 and jumps to another one then. -/
def jumpingPath : ConfPath Unit Unit where
  reqBodyMax := 0
  reqBodySync := true
  filters := fun
    | .responseHeaders => [phlJumpIfFilterResponseHeaders [(404, bytes "/fallback")]]
    | _ => []
  bodyFilters := []
  content := some {
    processHeaders := none
    processBody := none
    responseHeaders := fun r e =>
      ⟨phlOk, r.req, { r.resp with statusCode := 404, contentLength := 0 }, none, e, []⟩
    responseBody := none }

theorem redirect_not_startsAfresh_jumpingPath :
    ¬StartsAfresh (Env.single jumpingPath) (bytes "@name")
      (phlRequestRedirect (Env.single jumpingPath) (bytes "@name")
        (streamWorld (Env.single jumpingPath) [(bytes ":path", bytes "/")] ())).2 :=
  redirect_not_startsAfresh rfl

/-- The request reaches its filter and is redirected there, and that is the end of the server. -/
theorem jump_if_runs_into_null :
    ∃ w : World Unit Unit, Reachable (Init (Env.single jumpingPath)) (Step (Env.single jumpingPath)) w ∧
      (phlRequestStep (Env.single jumpingPath) 1 w).map (·.1) = some (some phlBreak) ∧
      (phlRequestRedirect (Env.single jumpingPath) (bytes "/fallback") w).1 = phlBreak ∧
      phlRequestRun (Env.single jumpingPath) w = none ∧
      ¬StartsAfresh (Env.single jumpingPath) (bytes "/fallback")
        (phlRequestRedirect (Env.single jumpingPath) (bytes "/fallback") w).2 := by
  have h : (runs (Env.single jumpingPath) (fun _ => true) 6
      (streamWorld (Env.single jumpingPath) [(bytes ":path", bytes "/")] ())).map (fun w =>
        ((phlRequestStep (Env.single jumpingPath) 1 w).map (·.1),
          (phlRequestRedirect (Env.single jumpingPath) (bytes "/fallback") w).1,
          (phlRequestRun (Env.single jumpingPath) w).isNone,
          (phlRequestRedirect (Env.single jumpingPath) (bytes "/fallback") w).2.r.confPath)) =
      some (some (some phlBreak), phlBreak, true, none) := by decide
  obtain ⟨w, hw, hx⟩ := Option.map_eq_some_iff.mp h
  simp only [Prod.mk.injEq, Option.isNone_iff_eq_none] at hx
  obtain ⟨hstep, hret, hrun, hpath⟩ := hx
  refine ⟨w, (reachable_stream (init_new _ _) rfl hw).mono fun _ _ hs => hs.1, hstep, hret, hrun, ?_⟩
  rintro ⟨v, w', hv, -⟩
  rw [phlRequestRunReturn, if_pos hpath] at hv
  cases hv

end Phorklift
