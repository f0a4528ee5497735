import Phorklift.PoolLists

/-! The number of idle connections to an address. -/

namespace Phorklift

open Transition

/-- `phl_upstream_release_connection` keeps the connection. -/
def KeepsAlive (conn : UpstreamConnection) (isClean : Bool) : Prop :=
  conn.error = false ∧ isClean = true ∧ conn.closed = false

/-- No connection is kept while as many as allowed are idle. -/
def ReleaseFits (idleMax : Nat) (u : PoolUse) : PoolUseAct → Prop
  | .release c isClean => ∀ conn, u.pool.conns c = some conn → KeepsAlive conn isClean →
      u.pool.idleNum conn.address ≠ idleMax
  | _ => True

/-- `idle_max` of the idle connections to each address. -/
def IdleBounded (idleMax : Nat) (u : PoolUse) : Prop :=
  ∀ a, u.pool.idleNum a = (u.pool.idle a).length ∧ (u.pool.idle a).length ≤ idleMax

section Idle

variable {u u' : PoolUse} {p p' : Pool} {a c r idleMax : Nat} {conn : UpstreamConnection}
  {picked : Picked} {isClean : Bool} {upc : UpcPointer} {act : PoolUseAct}

namespace Pool

theorem get_idleNum (h : p.phlUpstreamGetConnection r picked = (p', upc)) (a : Nat) :
    p'.idleNum a ≤ p.idleNum a := by
  cases picked with
  | again =>
    cases h
    exact le_refl _
  | error =>
    cases h
    exact le_refl _
  | address b connects =>
    simp only [phlUpstreamGetConnection] at h
    split at h
    next =>
      cases h
      by_cases ha : a = b
      · rw [ha]
        simp [setConn, setIdle, setActive]
      · simp [setConn, setIdle, setActive, ha]
    next =>
      split at h
      next =>
        cases h
        exact le_refl _
      next =>
        cases h
        exact le_refl _

/-- A connection that is kept makes the count grow, up to one more than `idle_max`. -/
theorem release_idleNum (h : p.Ok) (hconn : p.conns c = some conn)
    (hrelease : p.phlUpstreamReleaseConnection idleMax c isClean = some p') (a : Nat) :
    (KeepsAlive conn isClean ∧ a = conn.address ∧ p.idleNum a ≤ idleMax →
      p'.idleNum a = p.idleNum a + 1) ∧
    (¬(KeepsAlive conn isClean ∧ a = conn.address ∧ p.idleNum a ≤ idleMax) →
      p'.idleNum a = p.idleNum a) := by
  simp only [phlUpstreamReleaseConnection, hconn, Option.bind_some] at hrelease
  split at hrelease
  next => cases hrelease
  next hrequest =>
    split at hrelease
    next hclose =>
      cases hrelease
      have hnot : ¬KeepsAlive conn isClean := by
        rintro ⟨herror, hclean, hopen⟩
        simp [herror, hclean, hopen] at hclose
      refine ⟨fun hkeep => absurd hkeep.1 hnot, fun _ => ?_⟩
      rw [close_idleNum hconn, if_neg fun hand => hrequest hand.2, sub_zero]
    next hkeep =>
      have hkeep' : KeepsAlive conn isClean := by simpa [KeepsAlive] using hkeep
      split at hrelease
      next hfull =>
        split at hrelease
        next oldest rest hlist =>
          cases hrelease
          obtain ⟨old, hold, haddress, hnone⟩ := (h.idle conn.address oldest).mp (by
            rw [hlist]
            exact List.mem_cons_self)
          rw [keepalive_idleNum, close_idleNum hold, haddress]
          by_cases ha : a = conn.address
          · rw [if_pos ha, if_pos ⟨ha, hnone⟩]
            rw [← ha] at hfull
            exact ⟨fun hfits => by omega, fun _ => by omega⟩
          · rw [if_neg ha, if_neg fun hand => ha hand.1]
            exact ⟨fun hfits => absurd hfits.2.1 ha, fun _ => sub_zero _⟩
        next => cases hrelease
      next hfits =>
        cases hrelease
        rw [keepalive_idleNum]
        by_cases ha : a = conn.address
        · rw [if_pos ha]
          rw [← ha] at hfits
          exact ⟨fun _ => rfl, fun hnot => absurd ⟨hkeep', ha, by omega⟩ hnot⟩
        · rw [if_neg ha]
          exact ⟨fun hfits => absurd hfits.2.1 ha, fun _ => rfl⟩

end Pool

/-- Only a release makes a count grow, and by one, where it is `idle_max` at most. -/
theorem poolUseStep_idleNum (h : PoolUseInv u) (hstep : poolUseStep idleMax u act = some u')
    (a : Nat) :
    u'.pool.idleNum a ≤ u.pool.idleNum a ∨
      ∃ c isClean conn, act = .release c isClean ∧ u.pool.conns c = some conn ∧
        KeepsAlive conn isClean ∧ a = conn.address ∧ u.pool.idleNum a ≤ idleMax ∧
        u'.pool.idleNum a = u.pool.idleNum a + 1 := by
  cases act with
  | get r picked =>
    cases hstep
    left
    rw [hand_pool]
    exact Pool.get_idleNum rfl a
  | retry old picked =>
    obtain ⟨r, p1, got, hok, -, hidle, hget, hu'⟩ := h.retry_cases hstep
    have hle := Pool.get_idleNum hget a
    have hsame : p1.idleNum a = u.pool.idleNum a := by
      rw [hok.idleNum, hidle, h.ok.idleNum]
    left
    rw [← hu', ← hsame, hand_pool]
    exact hle
  | release c isClean =>
    obtain ⟨conn, p', hconn, hrelease, hu'⟩ := h.release_cases hstep
    obtain ⟨hgrows, hstays⟩ := Pool.release_idleNum h.ok hconn hrelease a
    rw [← hu']
    by_cases hfits : KeepsAlive conn isClean ∧ a = conn.address ∧ u.pool.idleNum a ≤ idleMax
    · exact .inr ⟨c, isClean, conn, rfl, hconn, hfits.1, hfits.2.1, hfits.2.2, hgrows hfits⟩
    · exact .inl (le_of_eq (hstays hfits))
  | fail c =>
    obtain ⟨conn, -, hu'⟩ := Option.map_eq_some_iff.mp hstep
    rw [← hu']
    exact .inl (le_refl _)
  | hangup c =>
    obtain ⟨conn, -, hu'⟩ := Option.map_eq_some_iff.mp hstep
    rw [← hu']
    exact .inl (le_refl _)
  | active c =>
    obtain ⟨conn, hconn, hu'⟩ := Option.map_eq_some_iff.mp hstep
    rw [← hu']
    left
    split
    next =>
      show (u.pool.phlUpstreamConnectionClose c).idleNum a ≤ _
      rw [Pool.close_idleNum hconn]
      split
      · omega
      · omega
    next => exact le_refl _

theorem idleBounded_iff (h : PoolUseInv u) :
    IdleBounded idleMax u ↔ ∀ a, u.pool.idleNum a ≤ idleMax := by
  constructor
  · intro hbounded a
    rw [(hbounded a).1]
    exact_mod_cast (hbounded a).2
  · intro hle a
    have hnum := h.ok.idleNum a
    refine ⟨hnum, ?_⟩
    have hle := hle a
    rw [hnum] at hle
    exact_mod_cast hle

/-- A step keeps the bound exactly where no connection is kept beyond it. -/
theorem poolUseStep_bounded (h : PoolUseInv u) (hbounded : ∀ a, u.pool.idleNum a ≤ idleMax)
    (hstep : poolUseStep idleMax u act = some u') :
    (∀ a, u'.pool.idleNum a ≤ idleMax) ↔ ReleaseFits idleMax u act := by
  constructor
  · intro hafter
    cases act with
    | release c isClean =>
      intro conn hconn hkeep hfull
      simp only [poolUseStep, Option.ite_none_right_eq_some] at hstep
      obtain ⟨p', hrelease, hu'⟩ := Option.map_eq_some_iff.mp hstep.2
      have hgrows := (Pool.release_idleNum h.ok hconn hrelease conn.address).1
        ⟨hkeep, rfl, le_of_eq hfull⟩
      have hle := hafter conn.address
      rw [← hu'] at hle
      change p'.idleNum conn.address ≤ idleMax at hle
      omega
    | _ => trivial
  · intro hfits a
    have hle := hbounded a
    rcases poolUseStep_idleNum h hstep a with
      hless | ⟨c, isClean, conn, rfl, hconn, hkeep, ha, -, hgrows⟩
    · omega
    · have hne := hfits conn hconn hkeep
      rw [← ha] at hne
      omega

/-- Whatever is got and released, one connection more than `idle_max` is kept at most. -/
theorem idle_le_succ (h : Reachable PoolUseStart (ActStep (poolUseStep idleMax) fun _ _ => True) u)
    (a : Nat) : (u.pool.idle a).length ≤ idleMax + 1 := by
  have hinv : PoolUseInv u ∧ ∀ a, u.pool.idleNum a ≤ idleMax + 1 := by
    refine h.invariant (I := fun u => PoolUseInv u ∧ ∀ a, u.pool.idleNum a ≤ idleMax + 1) ?_ ?_
    · intro u hstart
      refine ⟨poolUseStart_keeps hstart, fun a => ?_⟩
      rw [(hstart.lists a).2.2]
      omega
    · rintro u u' ⟨hinv, hle⟩ ⟨act, -, hstep⟩
      refine ⟨poolUseStep_keeps hinv hstep, fun a => ?_⟩
      have hbefore := hle a
      rcases poolUseStep_idleNum hinv hstep a with hless | ⟨_, _, _, _, _, _, _, hmax, hgrows⟩
      · omega
      · omega
  have hle := hinv.2 a
  rw [hinv.1.ok.idleNum] at hle
  exact_mod_cast hle

/-- In a run that keeps no connection while `idle_max` are idle, there are never more; and the
bound holds on exactly as long. -/
theorem idle_bounded
    (h : Reachable PoolUseStart (ActStep (poolUseStep idleMax) (ReleaseFits idleMax)) u) :
    IdleBounded idleMax u ∧ ∀ act u', poolUseStep idleMax u act = some u' →
      (IdleBounded idleMax u' ↔ ReleaseFits idleMax u act) := by
  have hinv : PoolUseInv u ∧ ∀ a, u.pool.idleNum a ≤ idleMax := by
    refine h.invariant (I := fun u => PoolUseInv u ∧ ∀ a, u.pool.idleNum a ≤ idleMax) ?_ ?_
    · intro u hstart
      refine ⟨poolUseStart_keeps hstart, fun a => ?_⟩
      rw [(hstart.lists a).2.2]
      omega
    · rintro u u' ⟨hinv, hle⟩ ⟨act, hfits, hstep⟩
      exact ⟨poolUseStep_keeps hinv hstep, (poolUseStep_bounded hinv hle hstep).mpr hfits⟩
  refine ⟨(idleBounded_iff hinv.1).mpr hinv.2, fun act u' hstep => ?_⟩
  rw [idleBounded_iff (poolUseStep_keeps hinv.1 hstep)]
  exact poolUseStep_bounded hinv.1 hinv.2 hstep

end Idle

/-- Fewer than `idle_max` are idle at each release. -/
def releaseFits (idleMax : Nat) (u : PoolUse) : PoolUseAct → Bool
  | .release c _ => (u.pool.conns c).all fun conn => u.pool.idleNum conn.address != idleMax
  | _ => true

theorem releaseFits_sound {idleMax : Nat} (u : PoolUse) (act : PoolUseAct)
    (h : releaseFits idleMax u act = true) : ReleaseFits idleMax u act := by
  cases act with
  | release c isClean =>
    intro conn hconn _
    simpa [releaseFits, hconn] using h
  | _ => trivial

/-- One connection is kept, taken again and kept again. -/
theorem idle_bounded_reused : ∃ u,
    Reachable PoolUseStart (ActStep (poolUseStep 1) (ReleaseFits 1)) u ∧
    u.pool.idle 0 = [0] ∧ IdleBounded 1 u := by
  let acts : List PoolUseAct := [.get 0 (.address 0 true), .release 0 true,
    .get 1 (.address 0 true), .release 0 true]
  have hrun : (runActs (poolUseStep 1) acts unusedPool).map (fun u => u.pool.idle 0) =
      some [0] := by
    decide
  obtain ⟨u, hu, hidle⟩ := Option.map_eq_some_iff.mp hrun
  have hmeet : ActsMeet (poolUseStep 1) (ReleaseFits 1) acts unusedPool :=
    actsMeet_of_check releaseFits_sound (by decide)
  have hreach := (Reachable.start start_unusedPool).runActs hmeet hu
  exact ⟨u, hreach, hidle, (idle_bounded hreach).1⟩

/-- Two connections are kept where one is allowed. -/
theorem idle_exceeds : ∃ u,
    Reachable PoolUseStart (ActStep (poolUseStep 1) fun _ _ => True) u ∧
    (u.pool.idle 0).length = 2 ∧ u.pool.idleNum 0 = 2 := by
  let acts : List PoolUseAct := [.get 0 (.address 0 true), .get 1 (.address 0 true),
    .release 0 true, .release 1 true]
  have hrun : (runActs (poolUseStep 1) acts unusedPool).map
      (fun u => ((u.pool.idle 0).length, u.pool.idleNum 0)) = some (2, 2) := by
    decide
  obtain ⟨u, hu, hcount⟩ := Option.map_eq_some_iff.mp hrun
  simp only [Prod.mk.injEq] at hcount
  have hreach := (Reachable.start start_unusedPool).runActs
    (actsMeet_of_forall acts unusedPool fun _ _ => trivial) hu
  exact ⟨u, hreach, hcount⟩

end Phorklift
