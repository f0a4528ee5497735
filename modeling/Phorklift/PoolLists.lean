import Phorklift.UpstreamPool
import Mathlib.Data.List.Nodup

/-! The two lists of connections of each address of an upstream. -/

namespace Phorklift

open Transition

/-- A connection is on the idle list of its address where no request has it, on the active list
where one has. -/
structure Pool.Ok (p : Pool) : Prop where
  idle : ∀ a c, c ∈ p.idle a ↔
    ∃ conn, p.conns c = some conn ∧ conn.address = a ∧ conn.request = none
  active : ∀ a c, c ∈ p.active a ↔
    ∃ conn, p.conns c = some conn ∧ conn.address = a ∧ conn.request ≠ none
  idleNodup : ∀ a, (p.idle a).Nodup
  activeNodup : ∀ a, (p.active a).Nodup
  idleNum : ∀ a, p.idleNum a = (p.idle a).length
  bound : ∀ c, p.next ≤ c → p.conns c = none

section PoolOps

variable {p p' : Pool} {a c r idleMax : Nat} {conn conn' : UpstreamConnection} {picked : Picked}
  {isClean : Bool} {upc : UpcPointer}

namespace Pool

theorem Ok.lt (h : p.Ok) (hconn : p.conns c = some conn) : c < p.next := by
  by_contra hle
  have hnone := h.bound c (by omega)
  rw [hconn] at hnone
  cases hnone

theorem Ok.mem_idle (h : p.Ok) (hconn : p.conns c = some conn) :
    c ∈ p.idle a ↔ a = conn.address ∧ conn.request = none := by
  rw [h.idle]
  constructor
  · rintro ⟨conn', hconn', haddress, hrequest⟩
    rw [hconn] at hconn'
    cases hconn'
    exact ⟨haddress.symm, hrequest⟩
  · rintro ⟨haddress, hrequest⟩
    exact ⟨conn, hconn, haddress.symm, hrequest⟩

theorem Ok.mem_active (h : p.Ok) (hconn : p.conns c = some conn) :
    c ∈ p.active a ↔ a = conn.address ∧ conn.request ≠ none := by
  rw [h.active]
  constructor
  · rintro ⟨conn', hconn', haddress, hrequest⟩
    rw [hconn] at hconn'
    cases hconn'
    exact ⟨haddress.symm, hrequest⟩
  · rintro ⟨haddress, hrequest⟩
    exact ⟨conn, hconn, haddress.symm, hrequest⟩

/-- One connection takes another place, or none. -/
theorem Ok.place {x : Option UpstreamConnection} (h : p.Ok)
    (hsame : p'.conns c = x) (hother : ∀ c', c' ≠ c → p'.conns c' = p.conns c')
    (hidle : ∀ a c', c' ∈ p'.idle a ↔ if c' = c then
      ∃ conn, x = some conn ∧ conn.address = a ∧ conn.request = none else c' ∈ p.idle a)
    (hactive : ∀ a c', c' ∈ p'.active a ↔ if c' = c then
      ∃ conn, x = some conn ∧ conn.address = a ∧ conn.request ≠ none else c' ∈ p.active a)
    (hidleNodup : ∀ a, (p'.idle a).Nodup) (hactiveNodup : ∀ a, (p'.active a).Nodup)
    (hnum : ∀ a, p'.idleNum a = (p'.idle a).length) (hc : c < p'.next)
    (hnext : p.next ≤ p'.next) : p'.Ok where
  idle := by
    intro a c'
    rw [hidle]
    split
    next heq => rw [heq, hsame]
    next hne => rw [h.idle, hother c' hne]
  active := by
    intro a c'
    rw [hactive]
    split
    next heq => rw [heq, hsame]
    next hne => rw [h.active, hother c' hne]
  idleNodup := hidleNodup
  activeNodup := hactiveNodup
  idleNum := hnum
  bound := by
    intro c' hle
    rw [hother c' (by omega)]
    exact h.bound c' (by omega)

/-- A connection that stays where it is. -/
theorem Ok.setConn (h : p.Ok) (hconn : p.conns c = some conn)
    (haddress : conn'.address = conn.address) (hrequest : conn'.request = none ↔ conn.request = none) :
    (p.setConn c (some conn')).Ok := by
  refine h.place (x := some conn') (c := c) (Function.update_self _ _ _)
    (fun c' hne => Function.update_of_ne hne _ _) ?_ ?_ h.idleNodup h.activeNodup h.idleNum
    (h.lt hconn) (Nat.le_refl _)
  · intro a c'
    split
    next heq =>
      rw [heq]
      show c ∈ p.idle a ↔ _
      rw [h.mem_idle hconn]
      simp [haddress, hrequest, eq_comm]
    next => rfl
  · intro a c'
    split
    next heq =>
      rw [heq]
      show c ∈ p.active a ↔ _
      rw [h.mem_active hconn]
      simp [haddress, hrequest, eq_comm]
    next => rfl

theorem close_conns (hconn : p.conns c = some conn) :
    (p.phlUpstreamConnectionClose c).conns = Function.update p.conns c none ∧
      (p.phlUpstreamConnectionClose c).next = p.next := by
  simp only [phlUpstreamConnectionClose, hconn]
  split <;> exact ⟨rfl, rfl⟩

theorem close_idle (hconn : p.conns c = some conn) : (p.phlUpstreamConnectionClose c).idle a =
    if a = conn.address then (p.idle a).erase c else p.idle a := by
  simp only [phlUpstreamConnectionClose, hconn]
  by_cases ha : a = conn.address
  · rw [ha, if_pos rfl]
    split <;> simp [setConn, setIdle, unlink, setActive]
  · rw [if_neg ha]
    split <;> simp [setConn, setIdle, unlink, setActive, ha]

theorem close_active (hconn : p.conns c = some conn) : (p.phlUpstreamConnectionClose c).active a =
    if a = conn.address then (p.active a).erase c else p.active a := by
  simp only [phlUpstreamConnectionClose, hconn]
  by_cases ha : a = conn.address
  · rw [ha, if_pos rfl]
    split <;> simp [setConn, setIdle, unlink, setActive]
  · rw [if_neg ha]
    split <;> simp [setConn, setIdle, unlink, setActive, ha]

theorem close_idleNum (hconn : p.conns c = some conn) :
    (p.phlUpstreamConnectionClose c).idleNum a =
      p.idleNum a - if a = conn.address ∧ conn.request = none then 1 else 0 := by
  simp only [phlUpstreamConnectionClose, hconn]
  by_cases ha : a = conn.address
  · rw [ha]
    split
    next hrequest => simp [setConn, setIdle, unlink, setActive, hrequest]
    next hrequest => simp [setConn, setIdle, unlink, setActive, hrequest]
  · split
    next => simp [setConn, setIdle, unlink, setActive, ha]
    next => simp [setConn, setIdle, unlink, setActive, ha]

/-- An erased connection is off a list where it stood once. -/
theorem mem_erase_iff {l : List Nat} (h : l.Nodup) {c' : Nat} :
    c' ∈ l.erase c ↔ if c' = c then False else c' ∈ l := by
  rw [h.mem_erase_iff]
  split
  next heq => simp [heq]
  next hne => simp [hne]

theorem Ok.close (h : p.Ok) (hconn : p.conns c = some conn) :
    (p.phlUpstreamConnectionClose c).Ok := by
  obtain ⟨hconns, hnext⟩ := close_conns hconn
  refine h.place (x := none) (c := c) ?_ ?_ ?_ ?_ ?_ ?_ ?_ ?_ (Nat.le_of_eq hnext.symm)
  · rw [hconns]
    exact Function.update_self _ _ _
  · intro c' hne
    rw [hconns]
    exact Function.update_of_ne hne _ _
  · intro a c'
    rw [close_idle hconn]
    by_cases ha : a = conn.address
    · rw [if_pos ha, mem_erase_iff (h.idleNodup a)]
      simp
    · rw [if_neg ha]
      split
      next heq =>
        rw [heq, h.mem_idle hconn]
        simp [ha]
      next => rfl
  · intro a c'
    rw [close_active hconn]
    by_cases ha : a = conn.address
    · rw [if_pos ha, mem_erase_iff (h.activeNodup a)]
      simp
    · rw [if_neg ha]
      split
      next heq =>
        rw [heq, h.mem_active hconn]
        simp [ha]
      next => rfl
  · intro a
    rw [close_idle hconn]
    split
    · exact (h.idleNodup a).erase c
    · exact h.idleNodup a
  · intro a
    rw [close_active hconn]
    split
    · exact (h.activeNodup a).erase c
    · exact h.activeNodup a
  · intro a
    rw [close_idleNum hconn, close_idle hconn, h.idleNum]
    by_cases ha : a = conn.address
    · rw [if_pos ha]
      by_cases hrequest : conn.request = none
      · have hmem : c ∈ p.idle a := (h.mem_idle hconn).mpr ⟨ha, hrequest⟩
        have hpos := List.length_pos_of_mem hmem
        rw [if_pos ⟨ha, hrequest⟩, List.length_erase_of_mem hmem]
        omega
      · have hnot : c ∉ p.idle a := fun hmem => hrequest ((h.mem_idle hconn).mp hmem).2
        rw [if_neg fun hand => hrequest hand.2, List.erase_of_not_mem hnot]
        omega
    · rw [if_neg ha, if_neg fun hand => ha hand.1]
      omega
  · rw [hnext]
    exact h.lt hconn

/-- What a request gets: an idle connection, or a new one. -/
inductive Gets (p : Pool) (a c r : Nat) : UpstreamConnection → Prop
  | reuse {old : UpstreamConnection} : p.conns c = some old → old.address = a →
      old.request = none → Gets p a c r { old with request := some r }
  | new : p.conns c = none → Gets p a c r ⟨a, false, ⟨none, []⟩, 0, false, some r, none, []⟩

theorem Gets.address (h : Gets p a c r conn) : conn.address = a := by
  cases h with
  | reuse _ haddress => exact haddress
  | new => rfl

theorem Gets.request (h : Gets p a c r conn) : conn.request = some r := by
  cases h <;> rfl

/-- A connection that is handed out had no request. -/
theorem Gets.free {old : UpstreamConnection} (h : Gets p a c r conn) (hold : p.conns c = some old) :
    old.request = none := by
  cases h with
  | reuse hconn _ hnone =>
    rw [hold] at hconn
    cases hconn
    exact hnone
  | new hnone =>
    rw [hold] at hnone
    cases hnone

theorem get_other (h : p.phlUpstreamGetConnection r picked = (p', upc))
    (hupc : ∀ c, upc ≠ .connection c) : p' = p := by
  cases picked with
  | again =>
    cases h
    rfl
  | error =>
    cases h
    rfl
  | address a connects =>
    simp only [phlUpstreamGetConnection] at h
    split at h
    next c rest _ =>
      cases h
      exact absurd rfl (hupc c)
    next =>
      split at h
      next =>
        cases h
        exact absurd rfl (hupc p.next)
      next =>
        cases h
        rfl

/-- What a get that gives a connection does. -/
theorem get_connection (h : p.Ok) (hget : p.phlUpstreamGetConnection r picked = (p', .connection c)) :
    ∃ a conn, Gets p a c r conn ∧ p'.conns = Function.update p.conns c (some conn) ∧
      (∀ b, p'.active b = if b = a then p.active b ++ [c] else p.active b) ∧
      (∀ b c', c' ∈ p'.idle b ↔ if c' = c then False else c' ∈ p.idle b) ∧
      (∀ b, (p'.idle b).Nodup) ∧ (∀ b, p'.idleNum b = (p'.idle b).length) ∧
      c < p'.next ∧ p.next ≤ p'.next := by
  cases picked with
  | again => cases hget
  | error => cases hget
  | address a connects =>
    simp only [phlUpstreamGetConnection] at hget
    split at hget
    next c' rest hlist =>
      cases hget
      have hmem : c ∈ p.idle a := by
        rw [hlist]
        exact List.mem_cons_self
      obtain ⟨conn, hconn, haddress, hrequest⟩ := (h.idle a c).mp hmem
      have hnodup := h.idleNodup a
      rw [hlist] at hnodup
      obtain ⟨hnot, hrest⟩ := List.nodup_cons.mp hnodup
      have hidle : ∀ b, (((p.setIdle a rest (p.idleNum a - 1)).setActive a (p.active a ++ [c])).setConn
          c ((p.conns c).map fun conn => { conn with request := some r })).idle b =
            if b = a then rest else p.idle b := by
        intro b
        simp only [setConn, setActive, setIdle, Function.update_apply]
      have hidleNum : ∀ b, (((p.setIdle a rest (p.idleNum a - 1)).setActive a
          (p.active a ++ [c])).setConn c
            ((p.conns c).map fun conn => { conn with request := some r })).idleNum b =
            if b = a then p.idleNum a - 1 else p.idleNum b := by
        intro b
        simp only [setConn, setActive, setIdle, Function.update_apply]
      refine ⟨a, _, .reuse hconn haddress hrequest, ?_, ?_, ?_, ?_, ?_, h.lt hconn, Nat.le_refl _⟩
      · rw [hconn]
        rfl
      · intro b
        simp only [setConn, setActive, setIdle, Function.update_apply]
        split
        next hb => rw [hb]
        next => rfl
      · intro b c'
        rw [hidle]
        by_cases hb : b = a
        · rw [if_pos hb, hb, hlist]
          by_cases hc : c' = c
          · rw [if_pos hc, hc]
            simp [hnot]
          · rw [if_neg hc]
            simp [hc]
        · rw [if_neg hb]
          split
          next hc =>
            rw [hc, h.mem_idle hconn, haddress]
            simp [hb]
          next => rfl
      · intro b
        rw [hidle]
        split
        · exact hrest
        · exact h.idleNodup b
      · intro b
        rw [hidle, hidleNum]
        split
        · have hlen := h.idleNum a
          rw [hlist, List.length_cons] at hlen
          omega
        · exact h.idleNum b
    next hlist =>
      split at hget
      next =>
        cases hget
        have hnone := h.bound p.next (Nat.le_refl _)
        have hnot : ∀ b, p.next ∉ p.idle b := by
          intro b hmem
          obtain ⟨conn, hconn, -⟩ := (h.idle b p.next).mp hmem
          rw [hnone] at hconn
          cases hconn
        refine ⟨a, _, .new hnone, rfl, ?_, ?_, h.idleNodup, h.idleNum, Nat.lt_succ_self _,
          Nat.le_succ _⟩
        · intro b
          simp only [setConn, setActive, Function.update_apply]
          split
          next hb => rw [hb]
          next => rfl
        · intro b c'
          split
          next hc =>
            rw [hc]
            exact iff_of_false (hnot b) id
          next => rfl
      next => cases hget

theorem Ok.get (h : p.Ok) (hget : p.phlUpstreamGetConnection r picked = (p', upc)) : p'.Ok := by
  by_cases hupc : ∃ c, upc = .connection c
  · obtain ⟨c, hc⟩ := hupc
    rw [hc] at hget
    obtain ⟨a, conn, hgets, hconns, hactive, hidle, hnodup, hnum, hlt, hnext⟩ :=
      get_connection h hget
    have hnot : ∀ b, c ∉ p.active b := by
      intro b hmem
      obtain ⟨old, hold, -, hrequest⟩ := (h.active b c).mp hmem
      cases hgets with
      | reuse hconn _ hnone =>
        rw [hold] at hconn
        cases hconn
        exact hrequest hnone
      | new hnone =>
        rw [hold] at hnone
        cases hnone
    refine h.place (x := some conn) (c := c) ?_ ?_ ?_ ?_ hnodup ?_ hnum hlt hnext
    · rw [hconns]
      exact Function.update_self _ _ _
    · intro c' hne
      rw [hconns]
      exact Function.update_of_ne hne _ _
    · intro b c'
      rw [hidle]
      split
      next => simp [hgets.request]
      next => rfl
    · intro b c'
      rw [hactive]
      by_cases hcc : c' = c
      · rw [if_pos hcc, hcc]
        by_cases hb : b = a
        · simp [hgets.request, hgets.address, hb]
        · rw [if_neg hb]
          refine iff_of_false (hnot b) ?_
          rintro ⟨conn', hconn', haddress, -⟩
          cases hconn'
          exact hb (haddress.symm.trans hgets.address)
      · rw [if_neg hcc]
        split
        · simp [hcc]
        · rfl
    · intro b
      rw [hactive]
      split
      · refine List.nodup_append.mpr ⟨h.activeNodup b, List.nodup_singleton c, ?_⟩
        intro x hx y hy heq
        rw [heq, List.mem_singleton.mp hy] at hx
        exact hnot b hx
      · exact h.activeNodup b
  · rw [get_other hget fun c hc => hupc ⟨c, hc⟩]
    exact h

theorem keepalive_conns : (p.keepalive c conn).conns =
      Function.update p.conns c (some { conn with request := none }) ∧
    (p.keepalive c conn).next = p.next := ⟨rfl, rfl⟩

theorem keepalive_idle : (p.keepalive c conn).idle a =
    if a = conn.address then (p.idle a).erase c ++ [c] else p.idle a := by
  by_cases ha : a = conn.address
  · rw [ha, if_pos rfl]
    simp [keepalive, setConn, setIdle, unlink, setActive]
  · rw [if_neg ha]
    simp [keepalive, setConn, setIdle, unlink, setActive, ha]

theorem keepalive_active : (p.keepalive c conn).active a =
    if a = conn.address then (p.active a).erase c else p.active a := by
  by_cases ha : a = conn.address
  · rw [ha, if_pos rfl]
    simp [keepalive, setConn, setIdle, unlink, setActive]
  · rw [if_neg ha]
    simp [keepalive, setConn, setIdle, unlink, setActive, ha]

theorem keepalive_idleNum : (p.keepalive c conn).idleNum a =
    if a = conn.address then p.idleNum a + 1 else p.idleNum a := by
  by_cases ha : a = conn.address
  · rw [ha, if_pos rfl]
    simp [keepalive, setConn, setIdle, unlink, setActive]
  · rw [if_neg ha]
    simp [keepalive, setConn, setIdle, unlink, setActive, ha]

theorem Ok.keepalive (h : p.Ok) (hconn : p.conns c = some conn) (hrequest : conn.request ≠ none) :
    (p.keepalive c conn).Ok := by
  have hnot : ∀ b, c ∉ p.idle b := fun b hmem => hrequest ((h.mem_idle hconn).mp hmem).2
  refine h.place (x := some { conn with request := none }) (c := c) (Function.update_self _ _ _)
    (fun c' hne => Function.update_of_ne hne _ _) ?_ ?_ ?_ ?_ ?_ (h.lt hconn) (Nat.le_refl _)
  · intro b c'
    rw [keepalive_idle, List.erase_of_not_mem (hnot b)]
    by_cases hc : c' = c
    · rw [if_pos hc, hc]
      by_cases hb : b = conn.address
      · simp [hb]
      · rw [if_neg hb]
        refine iff_of_false (hnot b) ?_
        rintro ⟨conn', hconn', haddress, -⟩
        cases hconn'
        exact hb haddress.symm
    · rw [if_neg hc]
      split
      · simp [hc]
      · rfl
  · intro b c'
    rw [keepalive_active]
    by_cases hb : b = conn.address
    · rw [if_pos hb, mem_erase_iff (h.activeNodup b)]
      simp
    · rw [if_neg hb]
      split
      next hc =>
        rw [hc, h.mem_active hconn]
        simp [hb]
      next => rfl
  · intro b
    rw [keepalive_idle, List.erase_of_not_mem (hnot b)]
    split
    · refine List.nodup_append.mpr ⟨h.idleNodup b, List.nodup_singleton c, ?_⟩
      intro x hx y hy heq
      rw [heq, List.mem_singleton.mp hy] at hx
      exact hnot b hx
    · exact h.idleNodup b
  · intro b
    rw [keepalive_active]
    split
    · exact (h.activeNodup b).erase c
    · exact h.activeNodup b
  · intro b
    rw [keepalive_idleNum, keepalive_idle, List.erase_of_not_mem (hnot b), h.idleNum]
    split
    · rw [List.length_append]
      rfl
    · rfl

/-- What becomes of the others when a connection is released: an idle one may be closed. -/
def Spared (p p' : Pool) (c : Nat) : Prop :=
  ∀ c', c' ≠ c → p'.conns c' = p.conns c' ∨
    p'.conns c' = none ∧ ∃ conn, p.conns c' = some conn ∧ conn.request = none

/-- What becomes of a connection that is released. -/
inductive Released (conn : UpstreamConnection) (isClean : Bool) : Option UpstreamConnection → Prop
  | closed : Released conn isClean none
  | idle : conn.error = false → isClean = true → conn.closed = false →
      Released conn isClean (some { conn with request := none })

theorem Ok.release (h : p.Ok) (hconn : p.conns c = some conn)
    (hrelease : p.phlUpstreamReleaseConnection idleMax c isClean = some p') :
    p'.Ok ∧ Spared p p' c ∧ Released conn isClean (p'.conns c) ∧ p'.next = p.next := by
  simp only [phlUpstreamReleaseConnection, hconn, Option.bind_some] at hrelease
  split at hrelease
  next => cases hrelease
  next hrequest =>
    split at hrelease
    next =>
      cases hrelease
      obtain ⟨hconns, hnext⟩ := close_conns hconn
      refine ⟨h.close hconn, ?_, ?_, hnext⟩
      · intro c' hne
        rw [hconns]
        exact .inl (Function.update_of_ne hne _ _)
      · rw [hconns, Function.update_self]
        exact .closed
    next hkeep =>
      have hkeep' : conn.error = false ∧ isClean = true ∧ conn.closed = false := by
        simpa using hkeep
      have hidle : Released conn isClean (some { conn with request := none }) :=
        .idle hkeep'.1 hkeep'.2.1 hkeep'.2.2
      split at hrelease
      next hfull =>
        split at hrelease
        next oldest rest hlist =>
          cases hrelease
          have hmem : oldest ∈ p.idle conn.address := by
            rw [hlist]
            exact List.mem_cons_self
          obtain ⟨old, hold, -, hnone⟩ := (h.idle _ _).mp hmem
          have hne : c ≠ oldest := by
            intro heq
            rw [heq, hold] at hconn
            cases hconn
            exact hrequest hnone
          obtain ⟨hconns, hnext⟩ := close_conns hold
          have hstays : (p.phlUpstreamConnectionClose oldest).conns c = some conn := by
            rw [hconns, Function.update_of_ne hne]
            exact hconn
          refine ⟨(h.close hold).keepalive hstays hrequest, ?_, ?_, hnext⟩
          · intro c' hc'
            rw [keepalive_conns.1, Function.update_of_ne hc', hconns]
            by_cases heq : c' = oldest
            · rw [heq, Function.update_self]
              exact .inr ⟨rfl, old, hold, hnone⟩
            · exact .inl (Function.update_of_ne heq _ _)
          · rw [keepalive_conns.1, Function.update_self]
            exact hidle
        next => cases hrelease
      next =>
        cases hrelease
        refine ⟨h.keepalive hconn hrequest, ?_, ?_, rfl⟩
        · exact fun c' hc' => .inl (Function.update_of_ne hc' _ _)
        · rw [keepalive_conns.1, Function.update_self]
          exact hidle

/-- The pool that a retry gets its connection from, and the one that it leaves. -/
theorem Ok.retry (h : p.Ok) (hconn : p.conns c = some conn) (hrequest : conn.request = some r)
    (hretry : p.phlUpstreamRetryConnection idleMax c picked = some (p', upc)) :
    ∃ p1 : Pool, p1.Ok ∧ p1.conns = Function.update p.conns c none ∧ p1.idle = p.idle ∧
      p1.phlUpstreamGetConnection r picked = (p', upc) := by
  simp only [phlUpstreamRetryConnection, hconn, hrequest, Option.bind_some] at hretry
  obtain ⟨p1, hrelease, hget⟩ := Option.map_eq_some_iff.mp hretry
  simp only [phlUpstreamReleaseConnection, hconn, hrequest, Option.bind_some, reduceCtorEq,
    if_false, true_or, or_true, if_true, Option.some.injEq] at hrelease
  have hidle : p1.idle = p.idle := by
    funext a
    rw [← hrelease, close_idle hconn, List.erase_of_not_mem]
    · rw [ite_self]
    · intro hmem
      have hnone := ((h.mem_idle hconn).mp hmem).2
      rw [hrequest] at hnone
      cases hnone
  refine ⟨p1, ?_, ?_, hidle, hget⟩
  · rw [← hrelease]
    exact h.close hconn
  · rw [← hrelease]
    exact (close_conns hconn).1

/-- What a request has can be released. -/
theorem Ok.release_isSome (h : p.Ok) (hconn : p.conns c = some conn) (hrequest : conn.request ≠ none) :
    (p.phlUpstreamReleaseConnection idleMax c isClean).isSome := by
  simp only [phlUpstreamReleaseConnection, hconn, Option.bind_some, if_neg hrequest]
  split
  next => rfl
  next =>
    split
    next hfull =>
      split
      next => rfl
      next hlist =>
        rw [h.idleNum, hlist, List.length_nil] at hfull
        omega
    next => rfl

end Pool

end PoolOps

/-- The pool, with the requests that each connection was handed to and has not been released by. -/
structure PoolUse where
  pool : Pool
  handed : List (Nat × Nat)

inductive PoolUseAct
  | get (r : Nat) (picked : Picked)
  | retry (old : Nat) (picked : Picked)
  | release (c : Nat) (isClean : Bool)
  /-- the connection is in error -/
  | fail (c : Nat)
  /-- the stream is closed, by the upstream or by a timeout -/
  | hangup (c : Nat)
  /-- `phl_upstream_on_active`, but for running the request -/
  | active (c : Nat)

def PoolUse.hand (u : PoolUse) (got : Pool × UpcPointer) (r : Nat) : PoolUse :=
  match got.2 with
  | .connection c => ⟨got.1, (c, r) :: u.handed⟩
  | _ => ⟨got.1, u.handed⟩

theorem hand_pool (u : PoolUse) (got : Pool × UpcPointer) (r : Nat) :
    (u.hand got r).pool = got.1 := by
  unfold PoolUse.hand
  split
  next => rfl
  next => rfl

/-- A request gives its connection back. -/
def PoolUse.back (u : PoolUse) (c : Nat) : PoolUse :=
  { u with handed := u.handed.filter fun x => x.1 ≠ c }

def poolUseStep (idleMax : Nat) (u : PoolUse) : PoolUseAct → Option PoolUse
  | .get r picked => some (u.hand (u.pool.phlUpstreamGetConnection r picked) r)
  | .retry old picked =>
    (u.handed.find? fun x => x.1 = old).bind fun x =>
      (u.pool.phlUpstreamRetryConnection idleMax old picked).map fun got =>
        (u.back old).hand got x.2
  | .release c isClean =>
    if c ∈ u.handed.map Prod.fst then
      (u.pool.phlUpstreamReleaseConnection idleMax c isClean).map fun pool =>
        { u.back c with pool := pool }
    else none
  | .fail c =>
    (u.pool.conns c).map fun conn =>
      { u with pool := u.pool.setConn c (some { conn with error := true }) }
  | .hangup c =>
    (u.pool.conns c).map fun conn =>
      { u with pool := u.pool.setConn c (some { conn with closed := true }) }
  | .active c =>
    (u.pool.conns c).map fun conn =>
      if conn.request = none then { u with pool := u.pool.phlUpstreamConnectionClose c } else u

structure PoolUseStart (u : PoolUse) : Prop where
  conns : ∀ c, u.pool.conns c = none
  lists : ∀ a, u.pool.idle a = [] ∧ u.pool.active a = [] ∧ u.pool.idleNum a = 0
  handed : u.handed = []

/-- Each connection stands once, on the list that it belongs to; and no two requests have one. -/
structure PoolStructure (u : PoolUse) : Prop where
  once : ∀ c conn, u.pool.conns c = some conn →
    (u.pool.idle conn.address ++ u.pool.active conn.address).count c = 1
  idle : ∀ c conn, u.pool.conns c = some conn →
    (c ∈ u.pool.idle conn.address ↔ conn.request = none)
  idleNum : ∀ a, u.pool.idleNum a = (u.pool.idle a).length
  handed : (u.handed.map Prod.fst).Nodup

section PoolRuns

variable {u u' : PoolUse} {p : Pool} {a c r idleMax : Nat} {conn conn' : UpstreamConnection}
  {picked : Picked} {got : Pool × UpcPointer} {act : PoolUseAct}

/-- The requests that have a connection are the ones that it was handed to. -/
structure PoolUseInv (u : PoolUse) : Prop where
  ok : u.pool.Ok
  handed : ∀ c r, (c, r) ∈ u.handed ↔
    ∃ conn, u.pool.conns c = some conn ∧ conn.request = some r
  nodup : (u.handed.map Prod.fst).Nodup

theorem PoolUseInv.idle_free (h : PoolUseInv u) (hfree : ∀ conn, u.pool.conns c = some conn →
    conn.request = none) : c ∉ u.handed.map Prod.fst := by
  intro hmem
  obtain ⟨⟨c', r⟩, hin, rfl⟩ := List.mem_map.mp hmem
  obtain ⟨conn, hconn, hrequest⟩ := (h.handed c' r).mp hin
  rw [hfree conn hconn] at hrequest
  cases hrequest

theorem PoolUseInv.hand (h : PoolUseInv u) (hget : u.pool.phlUpstreamGetConnection r picked = got) :
    PoolUseInv (u.hand got r) := by
  have hgot : u.pool.phlUpstreamGetConnection r picked = (got.1, got.2) := hget
  have hok : got.1.Ok := h.ok.get hgot
  unfold PoolUse.hand
  split
  next c hc =>
    have hget' : u.pool.phlUpstreamGetConnection r picked = (got.1, .connection c) := by
      rw [hget, ← hc]
    obtain ⟨a, conn, hgets, hconns, -⟩ := Pool.get_connection h.ok hget'
    have hnot := h.idle_free fun _ hold => hgets.free hold
    refine ⟨hok, ?_, ?_⟩
    · intro c' r'
      dsimp only
      rw [hconns]
      by_cases hcc : c' = c
      · rw [hcc, Function.update_self]
        constructor
        · intro hmem
          rcases List.mem_cons.mp hmem with heq | hmem
          · cases heq
            exact ⟨conn, rfl, hgets.request⟩
          · exact absurd (List.mem_map.mpr ⟨_, hmem, rfl⟩) hnot
        · rintro ⟨conn', hconn', hrequest⟩
          cases hconn'
          rw [hgets.request] at hrequest
          cases hrequest
          exact List.mem_cons_self
      · rw [Function.update_of_ne hcc, ← h.handed]
        simp [hcc]
    · exact List.nodup_cons.mpr ⟨hnot, h.nodup⟩
  next hother =>
    have hsame := Pool.get_other hgot hother
    rw [hsame]
    exact h

theorem mem_back {x : Nat × Nat} : x ∈ (u.back c).handed ↔ x ∈ u.handed ∧ x.1 ≠ c := by
  simp [PoolUse.back]

/-- A request gives back its connection, which is idle then, or closed. -/
theorem PoolUseInv.back (h : PoolUseInv u) (hok : p.Ok) (hspared : u.pool.Spared p c)
    (hfree : ∀ conn, p.conns c = some conn → conn.request = none) :
    PoolUseInv { u.back c with pool := p } := by
  refine ⟨hok, ?_, ?_⟩
  · intro c' r'
    show (c', r') ∈ (u.back c).handed ↔ _
    rw [mem_back, h.handed]
    by_cases hc : c' = c
    · refine iff_of_false (fun hand => hand.2 hc) ?_
      rintro ⟨conn, hconn, hrequest⟩
      dsimp only at hconn
      rw [hc] at hconn
      rw [hfree conn hconn] at hrequest
      cases hrequest
    · rcases hspared c' hc with hsame | ⟨hgone, old, hold, hnone⟩
      · dsimp only
        rw [hsame]
        simp [hc]
      · dsimp only
        rw [hgone, hold]
        simp [hnone]
  · exact h.nodup.sublist (List.filter_sublist.map Prod.fst)

theorem PoolUseInv.setConn (h : PoolUseInv u) (hconn : u.pool.conns c = some conn)
    (haddress : conn'.address = conn.address) (hrequest : conn'.request = conn.request) :
    PoolUseInv { u with pool := u.pool.setConn c (some conn') } := by
  refine ⟨h.ok.setConn hconn haddress (by rw [hrequest]), ?_, h.nodup⟩
  intro c' r'
  rw [h.handed]
  by_cases hc : c' = c
  · show _ ↔ ∃ x, Function.update u.pool.conns c (some conn') c' = some x ∧ _
    rw [hc, Function.update_self, hconn]
    simp [hrequest]
  · show _ ↔ ∃ x, Function.update u.pool.conns c (some conn') c' = some x ∧ _
    rw [Function.update_of_ne hc]

theorem PoolUseInv.has (h : PoolUseInv u) (hmem : c ∈ u.handed.map Prod.fst) :
    ∃ conn r, u.pool.conns c = some conn ∧ conn.request = some r ∧ (c, r) ∈ u.handed := by
  obtain ⟨⟨c', r⟩, hin, rfl⟩ := List.mem_map.mp hmem
  obtain ⟨conn, hconn, hrequest⟩ := (h.handed c' r).mp hin
  exact ⟨conn, r, hconn, hrequest, hin⟩

/-- A retry gives the old connection up, and its request gets another. -/
theorem PoolUseInv.retry_cases {old : Nat} (h : PoolUseInv u)
    (hstep : poolUseStep idleMax u (.retry old picked) = some u') :
    ∃ (r : Nat) (p1 : Pool) (got : Pool × UpcPointer), p1.Ok ∧
      p1.conns = Function.update u.pool.conns old none ∧ p1.idle = u.pool.idle ∧
      p1.phlUpstreamGetConnection r picked = got ∧ (u.back old).hand got r = u' := by
  obtain ⟨⟨c, r⟩, hfind, hstep⟩ := Option.bind_eq_some_iff.mp hstep
  obtain ⟨got, hretry, hu'⟩ := Option.map_eq_some_iff.mp hstep
  have hc : c = old := by simpa using List.find?_some hfind
  rw [hc] at hfind
  obtain ⟨conn, hconn, hrequest⟩ := (h.handed old r).mp (List.mem_of_find?_eq_some hfind)
  have hretry' : u.pool.phlUpstreamRetryConnection idleMax old picked = some (got.1, got.2) :=
    hretry
  obtain ⟨p1, hok, hconns, hidle, hget⟩ := h.ok.retry hconn hrequest hretry'
  exact ⟨r, p1, got, hok, hconns, hidle, hget, hu'⟩

/-- Only a connection that was handed to a request is released. -/
theorem PoolUseInv.release_cases {isClean : Bool} (h : PoolUseInv u)
    (hstep : poolUseStep idleMax u (.release c isClean) = some u') :
    ∃ conn p', u.pool.conns c = some conn ∧
      u.pool.phlUpstreamReleaseConnection idleMax c isClean = some p' ∧
      { u.back c with pool := p' } = u' := by
  obtain ⟨hmem, hstep⟩ := Option.ite_none_right_eq_some.mp hstep
  obtain ⟨p', hrelease, hu'⟩ := Option.map_eq_some_iff.mp hstep
  obtain ⟨conn, r, hconn, -, -⟩ := h.has hmem
  exact ⟨conn, p', hconn, hrelease, hu'⟩

theorem poolUseStep_keeps (h : PoolUseInv u) (hstep : poolUseStep idleMax u act = some u') :
    PoolUseInv u' := by
  cases act with
  | get r picked =>
    cases hstep
    exact h.hand rfl
  | retry old picked =>
    obtain ⟨r, p1, got, hok, hconns, -, hget, hu'⟩ := h.retry_cases hstep
    have hback : PoolUseInv { u.back old with pool := p1 } := by
      refine h.back hok ?_ ?_
      · intro c' hne
        rw [hconns]
        exact .inl (Function.update_of_ne hne _ _)
      · intro conn' hconn'
        rw [hconns, Function.update_self] at hconn'
        cases hconn'
    have hhand := hback.hand hget
    rw [← hu']
    exact hhand
  | release c isClean =>
    obtain ⟨conn, p', hconn, hrelease, hu'⟩ := h.release_cases hstep
    obtain ⟨hok, hspared, hreleased, -⟩ := h.ok.release hconn hrelease
    rw [← hu']
    refine h.back hok hspared ?_
    intro conn' hconn'
    rw [hconn'] at hreleased
    cases hreleased with
    | idle => rfl
  | fail c =>
    obtain ⟨conn, hconn, hu'⟩ := Option.map_eq_some_iff.mp hstep
    rw [← hu']
    exact h.setConn hconn rfl rfl
  | hangup c =>
    obtain ⟨conn, hconn, hu'⟩ := Option.map_eq_some_iff.mp hstep
    rw [← hu']
    exact h.setConn hconn rfl rfl
  | active c =>
    obtain ⟨conn, hconn, hu'⟩ := Option.map_eq_some_iff.mp hstep
    rw [← hu']
    split
    next hrequest =>
      refine ⟨h.ok.close hconn, ?_, h.nodup⟩
      intro c' r'
      dsimp only
      rw [h.handed, (Pool.close_conns hconn).1]
      by_cases hc : c' = c
      · rw [hc, Function.update_self, hconn]
        simp [hrequest]
      · rw [Function.update_of_ne hc]
    next => exact h

theorem poolUseStart_keeps (h : PoolUseStart u) : PoolUseInv u := by
  refine ⟨⟨?_, ?_, ?_, ?_, ?_, fun c _ => h.conns c⟩, ?_, ?_⟩
  · simp [h.lists, h.conns]
  · simp [h.lists, h.conns]
  · simp [h.lists]
  · simp [h.lists]
  · simp [h.lists]
  · simp [h.handed, h.conns]
  · simp [h.handed]

theorem Pool.Ok.once (h : p.Ok) (hconn : p.conns c = some conn) :
    (p.idle conn.address ++ p.active conn.address).count c = 1 := by
  rw [List.count_append]
  by_cases hrequest : conn.request = none
  · have hidle : c ∈ p.idle conn.address := (h.mem_idle hconn).mpr ⟨rfl, hrequest⟩
    have hactive : c ∉ p.active conn.address :=
      fun hmem => ((h.mem_active hconn).mp hmem).2 hrequest
    rw [List.count_eq_one_of_mem (h.idleNodup _) hidle, List.count_eq_zero_of_not_mem hactive]
  · have hidle : c ∉ p.idle conn.address := fun hmem => hrequest ((h.mem_idle hconn).mp hmem).2
    have hactive : c ∈ p.active conn.address := (h.mem_active hconn).mpr ⟨rfl, hrequest⟩
    rw [List.count_eq_one_of_mem (h.activeNodup _) hactive, List.count_eq_zero_of_not_mem hidle]

/-- Whatever is got, retried, released and closed, the lists and the counter tell which connections
are idle, and each connection is one request's. -/
theorem pool_structure
    (h : Reachable PoolUseStart (ActStep (poolUseStep idleMax) fun _ _ => True) u) :
    PoolStructure u := by
  have hinv : PoolUseInv u :=
    h.invariant (fun _ => poolUseStart_keeps) fun _ _ hs ⟨_, _, hstep⟩ => poolUseStep_keeps hs hstep
  refine ⟨fun c conn hconn => hinv.ok.once hconn, fun c conn hconn => ?_, hinv.ok.idleNum,
    hinv.nodup⟩
  rw [hinv.ok.mem_idle hconn]
  simp

end PoolRuns

def unusedPool : PoolUse := ⟨⟨fun _ => none, 0, fun _ => [], fun _ => [], fun _ => 0⟩, []⟩

theorem start_unusedPool : PoolUseStart unusedPool :=
  ⟨fun _ => rfl, fun _ => ⟨rfl, rfl, rfl⟩, rfl⟩

/-- The pool is full: the oldest idle connection goes; and a retry takes one that is idle. -/
theorem pool_structure_full : ∃ u,
    Reachable PoolUseStart (ActStep (poolUseStep 0) fun _ _ => True) u ∧
    u.handed = [(1, 2)] ∧ u.pool.idle 0 = [] ∧ u.pool.active 0 = [1] ∧ PoolStructure u := by
  let acts : List PoolUseAct := [.get 0 (.address 0 true), .get 1 (.address 0 true),
    .release 0 true, .release 1 true, .get 2 (.address 1 true), .fail 2, .retry 2 (.address 0 true)]
  have hrun : (runActs (poolUseStep 0) acts unusedPool).map
      (fun u => (u.handed, u.pool.idle 0, u.pool.active 0)) = some ([(1, 2)], [], [1]) := by
    decide
  obtain ⟨u, hu, hlists⟩ := Option.map_eq_some_iff.mp hrun
  simp only [Prod.mk.injEq] at hlists
  have hreach := (Reachable.start start_unusedPool).runActs
    (actsMeet_of_forall acts unusedPool fun _ _ => trivial) hu
  exact ⟨u, hreach, hlists.1, hlists.2.1, hlists.2.2, pool_structure hreach⟩

end Phorklift
