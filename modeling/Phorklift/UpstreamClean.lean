import Phorklift.PoolHold

/-! What keeps the idle connections of an upstream clean. -/

namespace Phorklift

open Transition Relation PoolWorld

/-- A round of the content's handlers that the request survives. -/
inductive ContentReads {D : Type} (conf : ContentConf D) :
    ContentState D × UpstreamInput → ContentState D × UpstreamInput → Prop
  | headers {s i k round} : s.phase = .headers → headersRound conf s i k = some round →
      round.failed = false → ContentReads conf (s, i) (round.state, round.input)
  | body {s i bufLen k round} : s.phase = .body → bodyRound conf s i bufLen k = round →
      round.failed = false → ContentReads conf (s, i) (round.state, round.input)
  /-- an error page follows -/
  | error {s i bufLen k round} : s.phase = .body → bodyRound conf s i bufLen k = round →
      round.failed = true → round.state.resp.statusCode ≠ 0 →
      ContentReads conf (s, i) ({ round.state with phase := .over }, round.input)

section Framing

variable {D : Type} {conf : ContentConf D} {s s' : ContentState D} {i i' : UpstreamInput}
  {r c k bufLen : Nat} {got left : List UpstreamByte} {round : ContentRound D}

/-- However it comes in, the request needs no more of its response only when it has read it all. -/
def Framed (conf : ContentConf D) (s : ContentState D) (i : UpstreamInput) : Prop :=
  ∀ s' i', ReflTransGen (ContentReads conf) (s, i) (s', i') → s'.phase = .over →
    i'.preread = none ∧ i'.unread = []

/-- The upstreams answer what they were asked, each with one response that ends where the module
takes it to end, and no request takes another body while its response is still there. -/
def Framing (conf : ContentConf D) (w : PoolWorld D) : PoolAct → Prop
  | .answer c data => ∀ conn, w.pool.conns c = some conn → ∃ r rest, conn.asked = r :: rest ∧
    (conn.error = false → conn.closed = false →
      Framed conf (w.requests r).state ⟨none, data.map fun b => (some r, b)⟩)
  | .body r _ _ => ∀ c conn, (w.requests r).upc = .connection c → w.pool.conns c = some conn →
    conn.error = false → conn.closed = false →
    (w.requests r).state.skipsGenerate ∨ conf.ops.bodyDone (w.requests r).state → conn.asked = []
  | .breaks r => ∀ c conn, (w.requests r).upc = .connection c → w.pool.conns c = some conn →
    conn.error = false → conn.closed = false →
    conn.input.preread = none ∧ conn.input.unread = [] ∧ conn.asked = []
  | _ => True

theorem Framed.next (h : Framed conf s i) (hread : ContentReads conf (s, i) (s', i')) :
    Framed conf s' i' :=
  fun _ _ hreads hover => h _ _ (.head hread hreads) hover

theorem Framed.over (h : Framed conf s i) (hover : s.phase = .over) :
    i.preread = none ∧ i.unread = [] := h _ _ .refl hover

/-- What a round has read, and what it leaves. -/
structure Takes (i i' : UpstreamInput) (got : List UpstreamByte) : Prop where
  taken : ∀ x ∈ got, x ∈ i.all
  left : ∀ x ∈ i'.all, x ∈ i.all
  filled : i.preread ≠ some [] → i'.preread ≠ some []
  empty : i = ⟨none, []⟩ → i' = ⟨none, []⟩ ∧ got = []

theorem Takes.refl : Takes i i [] where
  taken := by simp
  left := fun _ hx => hx
  filled := fun hi => hi
  empty := fun hi => ⟨hi, rfl⟩

theorem read_all : (i.read bufLen k).1 ++ (i.read bufLen k).2.all = i.all := by
  unfold UpstreamInput.read UpstreamInput.all
  cases i.preread with
  | none => simp
  | some pre =>
    by_cases hlt : bufLen < pre.length
    · simp only [hlt, if_true, Option.getD_some]
      rw [← List.append_assoc, List.take_append_drop]
    · simp [hlt]

theorem takes_read : Takes i (i.read bufLen k).2 (i.read bufLen k).1 := by
  have hall := @read_all i k bufLen
  refine ⟨fun x hx => ?_, fun x hx => ?_, fun hfilled => ?_, fun hempty => ?_⟩
  · rw [← hall]
    exact List.mem_append_left _ hx
  · rw [← hall]
    exact List.mem_append_right _ hx
  · unfold UpstreamInput.read
    cases hpre : i.preread with
    | none => simp
    | some pre =>
      by_cases hlt : bufLen < pre.length
      · simp [hlt]
      · simp [hlt]
  · rw [hempty]
    simp [UpstreamInput.read]

theorem takes_readNotfinish (h : Takes i i' got) (hleft : ∀ x ∈ left, x ∈ i.all)
    (hgot : got = [] → left = []) {j : UpstreamInput} (hj : i'.readNotfinish left = some j) :
    Takes i j got := by
  unfold UpstreamInput.readNotfinish at hj
  split at hj
  next =>
    cases hj
    exact h
  next hne =>
    split at hj
    next hpre =>
      cases hj
      refine ⟨h.taken, fun x hx => ?_, fun _ => by simpa using hne, fun hempty => ?_⟩
      · rcases List.mem_append.mp hx with hx | hx
        · exact hleft x hx
        · apply h.left
          exact List.mem_append_right _ hx
      · exact absurd (hgot (h.empty hempty).2) hne
    next => cases hj

theorem takes_headersRound (h : headersRound conf s i k = some round) :
    Takes i round.input round.got := by
  have hread := @takes_read i k 4096
  unfold headersRound at h
  split at h
  next =>
    cases h
    exact .refl
  next parse _ =>
    dsimp only at h
    split at h
    next hnil =>
      cases h
      rw [hnil] at hread
      exact hread
    next hne =>
      split at h
      next =>
        cases h
        exact hread
      next =>
        obtain ⟨left, hleft, hround⟩ := Option.map_eq_some_iff.mp h
        have htakes := takes_readNotfinish hread
          (fun x hx => hread.taken x (List.mem_of_mem_drop hx)) (fun hnil => absurd hnil hne) hleft
        rw [← hround]
        split
        next => exact htakes
        next =>
          split
          next => exact htakes
          next => exact htakes

theorem takes_bodyRound : Takes i (bodyRound conf s i bufLen k).input
    (bodyRound conf s i bufLen k).got := by
  have hread := @takes_read i k bufLen
  unfold bodyRound
  split
  next => exact .refl
  next =>
    split
    next => exact .refl
    next =>
      dsimp only
      split
      next hnil =>
        rw [hnil] at hread
        exact hread
      next =>
        split
        next => exact hread
        next =>
          split
          next => exact hread
          next => exact hread

theorem contentReads_empty (h : ContentReads conf (s, i) (s', i')) (hi : i = ⟨none, []⟩) :
    i' = ⟨none, []⟩ := by
  cases h with
  | headers _ hround => exact ((takes_headersRound hround).empty hi).1
  | body _ hround =>
    rw [← hround]
    exact (takes_bodyRound.empty hi).1
  | error _ hround =>
    rw [← hround]
    exact (takes_bodyRound.empty hi).1

/-- Where nothing is to be read, nothing is left. -/
theorem framed_empty : Framed conf s ⟨none, []⟩ := by
  have hempty : ∀ x, ReflTransGen (ContentReads conf) (s, ⟨none, []⟩) x → x.2 = ⟨none, []⟩ := by
    intro x hreads
    induction hreads with
    | refl => rfl
    | tail _ hread ih => exact contentReads_empty hread ih
  intro s' i' hreads _
  have hi := hempty _ hreads
  dsimp only at hi
  rw [hi]
  exact ⟨rfl, rfl⟩

end Framing

/-- The connection of request `r`, which has come as far as `q` says. -/
structure Ready {D : Type} (conf : ContentConf D) (r : Nat) (q : UpstreamRequest D)
    (conn : UpstreamConnection) : Prop where
  own : ∀ x ∈ conn.input.all, x.1 = some r
  filled : conn.input.preread ≠ some []
  asked : conn.asked = [] ∨ conn.asked = [r] ∧ conn.input = ⟨none, []⟩
  writer : conn.writer ≠ some r → conn.asked = [] ∧ conn.input = ⟨none, []⟩
  sent : q.hasSentRequest = true → conn.prewriteLen = 0
  unsent : conn.error = false → q.hasSentRequest = false → q.state.phase = .headers
  framed : conn.error = false → conn.closed = false → Framed conf q.state conn.input
  ended : conn.error = false → conn.closed = false → q.state.phase = .over → conn.asked = []

structure PoolInv {D : Type} (conf : ContentConf D) (w : PoolWorld D) : Prop extends
    PoolHolds UpstreamConnection.Clean (Ready conf) w where
  unsent : ∀ r, (w.requests r).upc = .null → (w.requests r).hasSentRequest = false
  own : ∀ e ∈ w.log, e.Own

section Invariant

variable {D : Type} {conf : ContentConf D} {w w' : PoolWorld D} {p p' : Pool} {r c : Nat}
  {conn conn' : UpstreamConnection} {q q' : UpstreamRequest D} {log : List UpstreamRead}

/-- A request without a connection has sent nothing. -/
theorem PoolInv.unsent_update (h : PoolInv conf w)
    (hsent : q'.upc = .null → q'.hasSentRequest = false) (r' : Nat)
    (hnull : (Function.update w.requests r q' r').upc = .null) :
    (Function.update w.requests r q' r').hasSentRequest = false := by
  by_cases hr : r' = r
  · rw [hr] at hnull ⊢
    rw [Function.update_self] at hnull ⊢
    exact hsent hnull
  · rw [Function.update_of_ne hr] at hnull ⊢
    exact h.unsent r' hnull

/-- A request that works on its connection. -/
theorem PoolInv.update (h : PoolInv conf w) (q' : UpstreamRequest D)
    (conn' : UpstreamConnection) (hupc : (w.requests r).upc = .connection c)
    (hconn : w.pool.conns c = some conn) (hupc' : q'.upc = .connection c)
    (haddress : conn'.address = conn.address) (hrequest : conn'.request = some r)
    (hready : Ready conf r q' conn') (hlog : ∀ e ∈ log, e.Own) :
    PoolInv conf ⟨w.pool.setConn c (some conn'), Function.update w.requests r q', log⟩ := by
  refine ⟨h.toPoolHolds.update q' log hupc hconn hupc' haddress hrequest hready, ?_, hlog⟩
  refine h.unsent_update fun hnull => ?_
  rw [hupc'] at hnull
  cases hnull

/-- A request that works on its connection, and leaves it as it is. -/
theorem PoolInv.setRequestOf (h : PoolInv conf w) (hupc : (w.requests r).upc = .connection c)
    (hupc' : q'.upc = .connection c)
    (hready : ∀ conn, w.pool.conns c = some conn → Ready conf r (w.requests r) conn →
      Ready conf r q' conn) : PoolInv conf (w.setRequest r q') := by
  refine ⟨h.toPoolHolds.setRequestOf hupc hupc' hready, ?_, h.own⟩
  refine h.unsent_update fun hnull => ?_
  rw [hupc'] at hnull
  cases hnull

/-- A request that works on no connection. -/
theorem PoolInv.setRequest (h : PoolInv conf w) (q' : UpstreamRequest D)
    (hupc : ∀ c, q'.upc ≠ .connection c)
    (hsent : q'.upc = .null → q'.hasSentRequest = false) : PoolInv conf (w.setRequest r q') :=
  ⟨h.toPoolHolds.setRequest hupc, h.unsent_update hsent, h.own⟩

/-- A request that changes what its connection, if it has one, does not show. -/
theorem PoolInv.touch (h : PoolInv conf w) (hupc : q'.upc = (w.requests r).upc)
    (hsent : q'.hasSentRequest = (w.requests r).hasSentRequest)
    (hready : ∀ c conn, (w.requests r).upc = .connection c → w.pool.conns c = some conn →
      Ready conf r (w.requests r) conn → Ready conf r q' conn) :
    PoolInv conf (w.setRequest r q') := by
  by_cases hheld : ∃ c, (w.requests r).upc = .connection c
  · obtain ⟨c, hc⟩ := hheld
    exact h.setRequestOf hc (hupc.trans hc) fun conn => hready c conn hc
  · apply h.setRequest q'
    · intro c hc
      rw [hupc] at hc
      exact hheld ⟨c, hc⟩
    · intro hnull
      rw [hupc] at hnull
      rw [hsent]
      exact h.unsent r hnull

theorem PoolInv.closeIdle (h : PoolInv conf w) (hconn : w.pool.conns c = some conn)
    (hrequest : conn.request = none) :
    PoolInv conf { w with pool := w.pool.phlUpstreamConnectionClose c } :=
  ⟨h.toPoolHolds.closeIdle hconn hrequest, h.unsent, h.own⟩

/-- A request that gives back its connection, on which nothing is left if it becomes idle. -/
theorem PoolInv.release {idleMax : Nat} {isClean : Bool} (h : PoolInv conf w)
    (hupc : (w.requests r).upc = .connection c)
    (hclean : isClean = true → ∀ conn, w.pool.conns c = some conn → conn.error = false →
      conn.closed = false → conn.Clean)
    (hrelease : w.pool.phlUpstreamReleaseConnection idleMax c isClean = some p')
    (hupc' : ∀ c, q'.upc ≠ .connection c) (hsent : q'.upc = .null → q'.hasSentRequest = false) :
    PoolInv conf ⟨p', Function.update w.requests r q', w.log⟩ := by
  obtain ⟨conn, hconn, -, -⟩ := h.held r c hupc
  refine ⟨h.toPoolHolds.release q' w.log hupc hconn ?_ hrelease hupc', h.unsent_update hsent, h.own⟩
  intro herror hdone hclosed
  have hold := hclean hdone conn hconn herror hclosed
  exact ⟨hold.preread, hold.prewrite, hold.error, hold.unread, hold.asked⟩

theorem ready_of_clean (hclean : conn.Clean) (hphase : q.state.phase = .headers) :
    Ready conf r q conn := by
  have hinput : conn.input = ⟨none, []⟩ := by
    cases hi : conn.input with
    | mk preread unread =>
      have hpre := hclean.preread
      have hun := hclean.unread
      rw [hi] at hpre hun
      dsimp only at hpre hun
      rw [hpre, hun]
  constructor
  · rw [hinput]
    simp [UpstreamInput.all]
  · rw [hinput]
    simp
  · exact .inl hclean.asked
  · exact fun _ => ⟨hclean.asked, hinput⟩
  · exact fun _ => hclean.prewrite
  · exact fun _ _ => hphase
  · intro _ _
    rw [hinput]
    exact framed_empty
  · exact fun _ _ _ => hclean.asked

theorem PoolInv.get {picked : Picked} (h : PoolInv conf w) (q' : UpstreamRequest D)
    (hget : w.pool.phlUpstreamGetConnection r picked = (p', .connection c))
    (hupc : q'.upc = .connection c) (hphase : q'.state.phase = .headers) :
    PoolInv conf ⟨p', Function.update w.requests r q', w.log⟩ := by
  refine ⟨h.toPoolHolds.get hget hupc ?_ ?_, ?_, h.own⟩
  · intro conn hclean
    refine ready_of_clean ?_ hphase
    exact ⟨hclean.preread, hclean.prewrite, hclean.error, hclean.unread, hclean.asked⟩
  · exact fun a => ready_of_clean ⟨rfl, rfl, rfl, rfl, rfl⟩ hphase
  · refine h.unsent_update fun hnull => ?_
    rw [hupc] at hnull
    cases hnull

/-- A change of a connection that its request does not see. -/
theorem PoolInv.setConn (h : PoolInv conf w) (hconn : w.pool.conns c = some conn)
    (haddress : conn'.address = conn.address) (hrequest : conn'.request = conn.request)
    (hclean : conn.Clean → conn'.Clean)
    (hready : ∀ r, Ready conf r (w.requests r) conn → Ready conf r (w.requests r) conn') :
    PoolInv conf { w with pool := w.pool.setConn c (some conn') } :=
  ⟨h.toPoolHolds.setConn hconn haddress hrequest hclean hready, h.unsent, h.own⟩

/-- A stream that is closed keeps what was there, or less. -/
theorem Ready.close (h : Ready conf r q conn) (preread : Option (List UpstreamByte))
    (hpreread : preread = none ∨ preread = conn.input.preread) : Ready conf r q { conn with
      closed := true
      input := { conn.input with preread := preread } } := by
  have hempty : conn.input = ⟨none, []⟩ →
      { conn.input with preread := preread } = (⟨none, []⟩ : UpstreamInput) := by
    intro hinput
    rw [hinput] at hpreread ⊢
    rcases hpreread with hpreread | hpreread <;> rw [hpreread]
  constructor
  · intro x hx
    apply h.own
    rcases hpreread with hpreread | hpreread
    · rw [hpreread] at hx
      exact List.mem_append_right _ hx
    · rw [hpreread] at hx
      exact hx
  · rcases hpreread with hpreread | hpreread
    · simp [hpreread]
    · rw [hpreread]
      exact h.filled
  · rcases h.asked with hasked | ⟨hasked, hinput⟩
    · exact .inl hasked
    · exact .inr ⟨hasked, hempty hinput⟩
  · intro hwriter
    obtain ⟨hasked, hinput⟩ := h.writer hwriter
    exact ⟨hasked, hempty hinput⟩
  · exact h.sent
  · exact h.unsent
  · exact nofun
  · exact nofun

/-- A connection in error is never idle again. -/
theorem Ready.fail (h : Ready conf r q conn)
    (hsent : q'.hasSentRequest = true → conn.prewriteLen = 0) :
    Ready conf r q' { conn with error := true } :=
  ⟨h.own, h.filled, h.asked, h.writer, hsent, nofun, nofun, nofun⟩

theorem reset_phase {s : ContentState D} : s.reset.phase = s.phase := by
  unfold ContentState.reset
  split <;> rfl

theorem fail_keeps {picked : Picked} (conn : UpstreamConnection)
    (h : PoolInv conf { w with pool := w.pool.setConn c (some { conn with error := true }) })
    (hupc : (w.requests r).upc = .connection c) (hphase : (w.requests r).state.phase = .headers)
    (hfail : w.phlUpstreamContentFail conf r c conn picked = some w') : PoolInv conf w' := by
  obtain ⟨conn', hconn', hheld, hready⟩ := h.held r c hupc
  cases (Function.update_self c _ _).symm.trans hconn'
  unfold PoolWorld.phlUpstreamContentFail at hfail
  dsimp only at hfail
  split at hfail
  next =>
    cases hfail
    refine h.setRequestOf hupc hupc ?_
    intro conn' hconn hready
    cases (Function.update_self c _ _).symm.trans hconn
    exact ⟨hready.own, hready.filled, hready.asked, hready.writer, hready.sent, nofun, nofun, nofun⟩
  next =>
    obtain ⟨⟨got, upc⟩, hretry, hw'⟩ := Option.bind_eq_some_iff.mp hfail
    obtain ⟨p1, hleft, -, hget⟩ := h.toPoolHolds.retry
      { w.requests r with upc := .ptrError } w.log hupc (Function.update_self _ _ _) hretry nofun
    have hinv : PoolInv conf ⟨p1, Function.update w.requests r
        { w.requests r with upc := .ptrError }, w.log⟩ := ⟨hleft, h.unsent_update nofun, h.own⟩
    cases upc with
    | connection c' =>
      cases hw'
      have hphase' : (w.requests r).state.reset.phase = .headers := reset_phase.trans hphase
      have hjoin := hinv.get (r := r) { w.requests r with
        retries := (w.requests r).retries + 1
        state := (w.requests r).state.reset
        upc := .connection c'
        hasSentRequest := false } hget rfl hphase'
      dsimp only at hjoin
      rw [Function.update_idem] at hjoin
      exact hjoin
    | ptrError =>
      cases hw'
      have hpool := Pool.get_other hget nofun
      have hset := hinv.setRequest (r := r) { w.requests r with
        retries := (w.requests r).retries + 1
        state := { (w.requests r).state.reset with
          phase := .over
          resp := { (w.requests r).state.reset.resp with statusCode := 500 } }
        upc := .ptrError } nofun nofun
      dsimp only [PoolWorld.setRequest] at hset
      rw [Function.update_idem, ← hpool] at hset
      exact hset
    | null => cases hw'
    | ptrAgain => cases hw'

theorem write_keeps {io : StreamIo} {picked : Picked} (h : PoolInv conf w)
    (hupc : (w.requests r).upc = .connection c) (hconn : w.pool.conns c = some conn)
    (hphase : (w.requests r).state.phase = .headers)
    (hstep : writeStep conf w r io picked c conn = some w') : PoolInv conf w' := by
  obtain ⟨conn', hconn', hheld, hready⟩ := h.held r c hupc
  rw [hconn] at hconn'
  cases hconn'
  cases io with
  | blocked =>
    cases hstep
    exact h
  | fails =>
    have hclosed := hready.close conn.input.preread (.inr rfl)
    have hw := h.update _ { conn with closed := true, error := true } hupc hconn hupc rfl hheld
      (hclosed.fail hclosed.sent) h.own
    rw [Function.update_eq_self] at hw
    exact fail_keeps { conn with closed := true } hw hupc hphase hstep
  | bytes n =>
    obtain ⟨x, hwrite, hw'⟩ := Option.map_eq_some_iff.mp hstep
    rw [← hw']
    unfold phlUpstreamConnectionWrite at hwrite
    dsimp only at hwrite
    split at hwrite
    next hle =>
      cases hwrite
      refine h.update _ _ hupc hconn hupc rfl hheld ?_ h.own
      by_cases hasks : 0 < n ∧ conn.writer ≠ some r
      · obtain ⟨hasked, hinput⟩ := hready.writer hasks.2
        constructor
        · exact hready.own
        · exact hready.filled
        · right
          simp [hasks, hasked, hinput]
        · simp [hasks]
        · intro hsent
          have hall := of_decide_eq_true hsent
          simp [← hall]
        · exact fun _ _ => hphase
        · exact hready.framed
        · intro _ _ hover
          rw [hphase] at hover
          cases hover
      · constructor
        · exact hready.own
        · exact hready.filled
        · simp only [if_neg hasks]
          exact hready.asked
        · simp only [if_neg hasks]
          exact hready.writer
        · intro hsent
          have hall := of_decide_eq_true hsent
          simp [← hall]
        · exact fun _ _ => hphase
        · exact hready.framed
        · intro _ _ hover
          rw [hphase] at hover
          cases hover
    next => cases hwrite

/-- A round of the handlers leaves the connection with what it has not read. -/
theorem Ready.reads {input : UpstreamInput} {got : List UpstreamByte} (h : Ready conf r q conn)
    (q' : UpstreamRequest D)
    (htakes : Takes conn.input input got) (hsent : q'.hasSentRequest = q.hasSentRequest)
    (hunsent : conn.error = false → q'.hasSentRequest = false → q'.state.phase = .headers)
    (hframed : conn.error = false → conn.closed = false → Framed conf q'.state input)
    (hended : conn.error = false → conn.closed = false → q'.state.phase = .over →
      conn.asked = []) : Ready conf r q' { conn with input := input } := by
  constructor
  · exact fun x hx => h.own x (htakes.left x hx)
  · exact htakes.filled h.filled
  · rcases h.asked with hasked | ⟨hasked, hinput⟩
    · exact .inl hasked
    · exact .inr ⟨hasked, (htakes.empty hinput).1⟩
  · intro hwriter
    obtain ⟨hasked, hinput⟩ := h.writer hwriter
    exact ⟨hasked, (htakes.empty hinput).1⟩
  · rw [hsent]
    exact h.sent
  · exact hunsent
  · exact hframed
  · exact hended

theorem own_append {got : List UpstreamByte} (h : PoolInv conf w) (hready : Ready conf r q conn)
    (hgot : ∀ x ∈ got, x ∈ conn.input.all) : ∀ e ∈ w.log ++ [⟨r, got⟩], e.Own := by
  intro e he
  rcases List.mem_append.mp he with he | he
  · exact h.own e he
  · rw [List.mem_singleton.mp he]
    exact fun x hx => hready.own x (hgot x hx)

theorem headersRound_phase {s : ContentState D} {i : UpstreamInput} {k : Nat}
    {round : ContentRound D} (h : headersRound conf s i k = some round)
    (hphase : s.phase = .headers) :
    round.state.phase ≠ .over ∧ (round.failed = true → round.state.phase = .headers) := by
  unfold headersRound at h
  split at h
  next =>
    cases h
    exact ⟨nofun, nofun⟩
  next =>
    dsimp only at h
    split at h
    next =>
      cases h
      simp [hphase]
    next =>
      split at h
      next =>
        cases h
        simp [hphase]
      next =>
        obtain ⟨left, -, hround⟩ := Option.map_eq_some_iff.mp h
        rw [← hround]
        split
        next => simp [hphase]
        next =>
          split
          next => simp [hphase]
          next => simp

theorem headers_keeps {io : StreamIo} {picked : Picked} (h : PoolInv conf w)
    (hupc : (w.requests r).upc = .connection c) (hconn : w.pool.conns c = some conn)
    (hphase : (w.requests r).state.phase = .headers)
    (hsent : (w.requests r).hasSentRequest = true)
    (hstep : headersStep conf w r io picked c conn = some w') : PoolInv conf w' := by
  obtain ⟨conn', hconn', hheld, hready⟩ := h.held r c hupc
  rw [hconn] at hconn'
  cases hconn'
  cases io with
  | blocked => cases hstep
  | fails =>
    simp only [headersStep] at hstep
    split at hstep
    next => cases hstep
    next =>
      have hclosed := hready.close none (.inl rfl)
      have hw := h.update _ { conn with
        closed := true
        error := true
        input := { conn.input with preread := none } } hupc hconn hupc rfl hheld
        (hclosed.fail hclosed.sent) h.own
      rw [Function.update_eq_self] at hw
      exact fail_keeps { conn with
        closed := true
        input := { conn.input with preread := none } } hw hupc hphase hstep
  | bytes k =>
    obtain ⟨round, hround, hw'⟩ := Option.bind_eq_some_iff.mp hstep
    have htakes := takes_headersRound hround
    obtain ⟨hover, hfailed⟩ := headersRound_phase hround hphase
    have hlog := own_append h hready htakes.taken
    dsimp only at hw'
    split at hw'
    next hfail =>
      have hreads := (hready.fail hready.sent).reads { w.requests r with state := round.state }
        htakes rfl nofun nofun nofun
      have hw := h.update { w.requests r with state := round.state }
        { conn with error := true, input := round.input } hupc hconn hupc rfl hheld hreads hlog
      refine fail_keeps { conn with input := round.input } (r := r) ?_ ?_ ?_ hw'
      · dsimp only [Pool.setConn]
        rw [Function.update_idem]
        exact hw
      · dsimp only
        rw [Function.update_self]
        exact hupc
      · dsimp only
        rw [Function.update_self]
        exact hfailed hfail
    next hgoes =>
      cases hw'
      have hgoes' : round.failed = false := by simpa using hgoes
      refine h.update _ _ hupc hconn hupc rfl hheld ?_ hlog
      apply hready.reads _ htakes
      · rfl
      · intro _ hunsent
        dsimp only at hunsent
        rw [hsent] at hunsent
        cases hunsent
      · intro herror hclosed
        exact (hready.framed herror hclosed).next (.headers hphase hround hgoes')
      · exact fun _ _ hend => absurd hend hover

/-- After an error of the body the request ends with another body, or at once. -/
theorem bodyFails_keeps {old : UpstreamConnection} (conn : UpstreamConnection)
    (h : PoolInv conf w)
    (hupc : (w.requests r).upc = .connection c) (hold : w.pool.conns c = some old)
    (haddress : conn.address = old.address) (hrequest : conn.request = some r)
    (hq : q.upc = .connection c) (hlog : ∀ e ∈ log, e.Own)
    (hover : q.state.resp.statusCode ≠ 0 →
      Ready conf r { q with state := { q.state with phase := .over } } conn)
    (hfails : PoolWorld.bodyFails conf ⟨w.pool.setConn c (some conn),
      Function.update w.requests r q, log⟩ r = some w') : PoolInv conf w' := by
  unfold PoolWorld.bodyFails at hfails
  dsimp only at hfails
  rw [Function.update_self] at hfails
  split at hfails
  next =>
    obtain ⟨w1, hfree, hw'⟩ := Option.map_eq_some_iff.mp hfails
    unfold PoolWorld.phlUpstreamContentCtxFree at hfree
    dsimp only at hfree
    rw [Function.update_self, hq] at hfree
    obtain ⟨pool, hrelease, hw1⟩ := Option.map_eq_some_iff.mp hfree
    have hnew := (h.toPoolHolds.except r).update q log hupc hold hq haddress
      hrequest fun hne => absurd rfl hne
    have hreleased := hnew.release { q with
      upc := .null
      hasSentRequest := false
      closed := true } log ((congrArg _ (Function.update_self _ _ _)).trans hq)
      (Function.update_self _ _ _) (fun _ hclean => by cases hclean) hrelease nofun
    dsimp only at hreleased
    rw [Function.update_idem] at hreleased
    have hnone : ∀ c, (Function.update w.requests r { q with
        upc := .null
        hasSentRequest := false
        closed := true } r).upc ≠ .connection c := by
      rw [Function.update_self]
      exact nofun
    rw [← hw', ← hw1]
    dsimp only [PoolWorld.setRequest]
    rw [Function.update_idem]
    exact ⟨hreleased.of_except hnone, h.unsent_update fun _ => rfl, hlog⟩
  next hstatus =>
    cases hfails
    have hw := h.update { q with state := { q.state with phase := .over } } _ hupc hold hq haddress
      hrequest (hover hstatus) hlog
    dsimp only [PoolWorld.setRequest]
    rw [Function.update_idem]
    exact hw

/-- A round that has read nothing waits, unless the body is at its end. -/
theorem bodyRound_waits {s : ContentState D} {i : UpstreamInput} (bufLen : Nat) {k : Nat}
    (hreads : ¬(s.skipsGenerate = true ∨ conf.ops.bodyDone s = true))
    (hnil : (bodyRound conf s i bufLen k).got = []) :
    (bodyRound conf s i bufLen k).failed = false ∧
      (bodyRound conf s i bufLen k).state.phase = s.phase := by
  have hskips : ¬s.skipsGenerate = true := fun h => hreads (.inl h)
  have hdone : ¬conf.ops.bodyDone s = true := fun h => hreads (.inr h)
  unfold bodyRound at hnil ⊢
  rw [if_neg hskips, if_neg hdone] at hnil ⊢
  dsimp only at hnil ⊢
  by_cases hgot : (i.read bufLen k).1 = []
  · rw [if_pos hgot]
    exact ⟨rfl, rfl⟩
  · rw [if_neg hgot] at hnil
    split at hnil
    next => exact absurd hnil hgot
    next =>
      split at hnil
      next => exact absurd hnil hgot
      next => exact absurd hnil hgot

theorem body_keeps_pool {io : StreamIo} {bufLen : Nat} (h : PoolInv conf w)
    (hok : Framing conf w (.body r bufLen io)) (hupc : (w.requests r).upc = .connection c)
    (hconn : w.pool.conns c = some conn) (hphase : (w.requests r).state.phase = .body)
    (hstep : bodyStep conf w r bufLen io c conn = some w') : PoolInv conf w' := by
  obtain ⟨conn', hconn', hheld, hready⟩ := h.held r c hupc
  rw [hconn] at hconn'
  cases hconn'
  have hsent : conn.error = false → (w.requests r).hasSentRequest = false → False := by
    intro herror hunsent
    have hheaders := hready.unsent herror hunsent
    rw [hphase] at hheaders
    cases hheaders
  cases io with
  | blocked => cases hstep
  | fails =>
    simp only [bodyStep] at hstep
    split at hstep
    next => cases hstep
    next =>
      have hclosed := hready.close none (.inl rfl)
      refine bodyFails_keeps (q := w.requests r) { conn with
        closed := true
        input := { conn.input with preread := none } } h hupc hconn rfl hheld hupc h.own ?_ ?_
      · intro _
        exact ⟨hclosed.own, hclosed.filled, hclosed.asked, hclosed.writer, hclosed.sent,
          fun herror hunsent => (hsent herror hunsent).elim, nofun, nofun⟩
      · rw [Function.update_eq_self]
        exact hstep
  | bytes k =>
    simp only [bodyStep] at hstep
    obtain ⟨round, hround⟩ : ∃ round, bodyRound conf (w.requests r).state conn.input bufLen k =
        round := ⟨_, rfl⟩
    have htakes := @takes_bodyRound D conf (w.requests r).state conn.input k bufLen
    rw [hround] at hstep htakes
    have hlog := own_append h hready htakes.taken
    have hasked : conn.error = false → conn.closed = false →
        round.failed = true ∨ round.state.phase = .over → conn.asked = [] := by
      intro herror hclosed hend
      rcases hready.asked with hasked | ⟨-, hinput⟩
      · exact hasked
      · by_cases hreads : (w.requests r).state.skipsGenerate = true ∨
            conf.ops.bodyDone (w.requests r).state = true
        · exact hok c conn hupc hconn herror hclosed hreads
        · have hwaits := bodyRound_waits (i := conn.input) (k := k) bufLen hreads
          rw [hround] at hwaits
          obtain ⟨hgoes, hsame⟩ := hwaits (htakes.empty hinput).2
          rw [hgoes, hsame, hphase] at hend
          rcases hend with hend | hend <;> cases hend
    split at hstep
    next hfail =>
      refine bodyFails_keeps (q := { w.requests r with state := round.state })
        { conn with input := round.input } h hupc hconn rfl hheld hupc hlog ?_ hstep
      intro hstatus
      apply hready.reads _ htakes
      · rfl
      · exact fun herror hunsent => (hsent herror hunsent).elim
      · intro herror hclosed
        exact (hready.framed herror hclosed).next (.error hphase hround hfail hstatus)
      · exact fun herror hclosed _ => hasked herror hclosed (.inl hfail)
    next hgoes =>
      cases hstep
      have hgoes' : round.failed = false := by simpa using hgoes
      refine h.update _ _ hupc hconn hupc rfl hheld ?_ hlog
      apply hready.reads _ htakes
      · rfl
      · exact fun herror hunsent => (hsent herror hunsent).elim
      · intro herror hclosed
        exact (hready.framed herror hclosed).next (.body hphase hround hgoes')
      · exact fun herror hclosed hover => hasked herror hclosed (.inr hover)

/-- The end of a request, with its connection. -/
theorem ctxFree_keeps {isDone : Bool} (h : PoolInv conf w)
    (hclean : isDone = true → ∀ c conn, (w.requests r).upc = .connection c →
      w.pool.conns c = some conn → conn.error = false → conn.closed = false → conn.Clean)
    (hfree : w.phlUpstreamContentCtxFree conf r isDone = some w') (hupc : q'.upc = .null)
    (hsent : q'.hasSentRequest = false) : PoolInv conf (w'.setRequest r q') := by
  have hnone : ∀ c, q'.upc ≠ .connection c := by
    intro c
    rw [hupc]
    exact nofun
  unfold PoolWorld.phlUpstreamContentCtxFree at hfree
  split at hfree
  next =>
    cases hfree
    exact h.setRequest _ hnone fun _ => hsent
  next c hold =>
    obtain ⟨pool, hrelease, hw'⟩ := Option.map_eq_some_iff.mp hfree
    rw [← hw']
    exact h.release hold (fun hdone conn => hclean hdone c conn hold) hrelease hnone fun _ => hsent
  next => cases hfree

/-- A request whose response is at its end has left nothing. -/
theorem Ready.clean (h : Ready conf r q conn) (hover : q.state.phase = .over)
    (herror : conn.error = false) (hclosed : conn.closed = false) : conn.Clean := by
  obtain ⟨hpreread, hunread⟩ := (h.framed herror hclosed).over hover
  have hsent : q.hasSentRequest = true := by
    by_contra hnot
    have hheaders := h.unsent herror (by simpa using hnot)
    rw [hover] at hheaders
    cases hheaders
  exact ⟨hpreread, h.sent hsent, herror, hunread, h.ended herror hclosed hover⟩

theorem answer_keeps {data : Bytes} (h : PoolInv conf w) (hok : Framing conf w (.answer c data))
    (hstep : poolStep conf w (.answer c data) = some w') : PoolInv conf w' := by
  obtain ⟨conn, hconn, hw'⟩ := Option.map_eq_some_iff.mp hstep
  obtain ⟨r, rest, hasked, hframed⟩ := hok conn hconn
  rw [← hw']
  refine h.setConn hconn rfl rfl ?_ ?_
  · intro hclean
    have hnone := hclean.asked
    rw [hasked] at hnone
    cases hnone
  · intro r' hready
    rcases hready.asked with hnone | ⟨hsome, hinput⟩
    · rw [hasked] at hnone
      cases hnone
    · rw [hasked] at hsome
      cases hsome
      rw [hasked, hinput]
      constructor
      · intro x hx
        simp only [UpstreamInput.all, Option.getD_none, List.nil_append, List.mem_map,
          List.head?_cons] at hx
        obtain ⟨b, -, hb⟩ := hx
        rw [← hb]
      · simp
      · exact .inl rfl
      · intro hwriter
        have hnone := (hready.writer hwriter).1
        rw [hasked] at hnone
        cases hnone
      · exact hready.sent
      · exact hready.unsent
      · exact hframed
      · exact fun _ _ _ => rfl

theorem poolStep_keeps {a : PoolAct} (h : PoolInv conf w) (hok : Framing conf w a)
    (hstep : poolStep conf w a = some w') : PoolInv conf w' := by
  cases a with
  | start r reqLen retries =>
    simp only [poolStep] at hstep
    split at hstep
    next => cases hstep
    next =>
      cases hstep
      refine h.touch rfl rfl fun c conn _ _ hready => ?_
      exact ⟨hready.own, hready.filled, hready.asked, hready.writer, hready.sent, hready.unsent,
        hready.framed, hready.ended⟩
  | get r picked =>
    simp only [poolStep] at hstep
    split at hstep
    next hget =>
      obtain ⟨-, -, hphase, hupc⟩ := hget
      have hnone : ∀ c, (w.requests r).upc ≠ .connection c := by
        intro c
        rw [hupc]
        exact nofun
      cases hgot : w.pool.phlUpstreamGetConnection r picked with
      | mk got upc =>
        rw [hgot] at hstep
        cases upc with
        | connection c =>
          cases hstep
          exact h.get _ hgot rfl hphase
        | ptrError =>
          cases hstep
          exact h.setRequest _ hnone fun _ => h.unsent r hupc
        | null =>
          cases hstep
          exact h
        | ptrAgain =>
          cases hstep
          exact h
    next => cases hstep
  | write r io picked =>
    simp only [poolStep] at hstep
    split at hstep
    next hwrite =>
      obtain ⟨c, conn, hupc, hconn, hact⟩ := onConnection_some hstep
      exact write_keeps h hupc hconn hwrite.2.1 hact
    next => cases hstep
  | headers r io picked =>
    simp only [poolStep] at hstep
    split at hstep
    next hheaders =>
      obtain ⟨c, conn, hupc, hconn, hact⟩ := onConnection_some hstep
      exact headers_keeps h hupc hconn hheaders.2.1 hheaders.2.2 hact
    next => cases hstep
  | body r bufLen io =>
    simp only [poolStep] at hstep
    split at hstep
    next hbody =>
      obtain ⟨c, conn, hupc, hconn, hact⟩ := onConnection_some hstep
      exact body_keeps_pool h hok hupc hconn hbody.2 hact
    next => cases hstep
  | breaks r =>
    simp only [poolStep] at hstep
    split at hstep
    next hbody =>
      cases hstep
      refine h.touch rfl rfl fun c conn hupc hconn hready => ?_
      refine ⟨hready.own, hready.filled, hready.asked, hready.writer, hready.sent, ?_, ?_, ?_⟩
      · intro herror hunsent
        have hheaders := hready.unsent herror hunsent
        rw [hbody.2] at hheaders
        cases hheaders
      · intro herror hclosed
        obtain ⟨hpreread, hunread, -⟩ := hok c conn hupc hconn herror hclosed
        have hinput : conn.input = ⟨none, []⟩ := by
          rw [← hpreread, ← hunread]
        rw [hinput]
        exact framed_empty
      · intro herror hclosed _
        exact (hok c conn hupc hconn herror hclosed).2.2
    next => cases hstep
  | finish r =>
    simp only [poolStep] at hstep
    split at hstep
    next hfinish =>
      obtain ⟨w1, hfree, hw'⟩ := Option.map_eq_some_iff.mp hstep
      rw [← hw']
      refine ctxFree_keeps h ?_ hfree rfl rfl
      intro _ c conn hupc hconn herror hclosed
      obtain ⟨conn', hconn', -, hready⟩ := h.held r c hupc
      rw [hconn] at hconn'
      cases hconn'
      exact hready.clean hfinish.2.2 herror hclosed
    next => cases hstep
  | abort r =>
    simp only [poolStep] at hstep
    split at hstep
    next =>
      obtain ⟨w1, hfree, hw'⟩ := Option.map_eq_some_iff.mp hstep
      rw [← hw']
      refine ctxFree_keeps h ?_ hfree rfl rfl
      intro hfalse
      cases hfalse
    next => cases hstep
  | answer c data => exact answer_keeps h hok hstep
  | hangup c =>
    obtain ⟨conn, hconn, hw'⟩ := Option.map_eq_some_iff.mp hstep
    rw [← hw']
    refine h.setConn hconn rfl rfl ?_ ?_
    · exact fun hclean =>
        ⟨hclean.preread, hclean.prewrite, hclean.error, hclean.unread, hclean.asked⟩
    · exact fun r hready => hready.close conn.input.preread (.inr rfl)
  | active c =>
    obtain ⟨conn, hconn, hw'⟩ := Option.bind_eq_some_iff.mp hstep
    split at hw'
    next hrequest =>
      cases hw'
      exact h.closeIdle hconn hrequest
    next => cases hw'

theorem poolStart_keeps (h : PoolStart w) : PoolInv conf w := by
  refine ⟨⟨⟨?_, ?_, ?_, ?_, ?_, fun c _ => h.conns c⟩, ?_, ?_⟩, ?_, ?_⟩
  · simp [h.idle, h.conns]
  · simp [h.idle, h.conns]
  · simp [h.idle]
  · simp [h.idle]
  · simp [h.idle]
  · intro c conn hconn
    rw [h.conns c] at hconn
    cases hconn
  · intro r c hupc
    rw [h.requests r] at hupc
    cases hupc
  · intro r _
    rw [h.requests r]
    rfl
  · simp [h.log]

/-- Where every response ends as the module takes it to end and is read to its end, an idle
connection has nothing left of it, and requests read what answers them. -/
theorem idle_clean (h : Reachable PoolStart (ActStep (poolStep conf) (Framing conf)) w) :
    (∀ a, ∀ c ∈ w.pool.idle a, ∃ conn, w.pool.conns c = some conn ∧ conn.Clean) ∧
      ∀ e ∈ w.log, e.Own := by
  have hinv : PoolInv conf w :=
    h.invariant (fun _ => poolStart_keeps) fun _ _ hs ⟨_, hok, hstep⟩ =>
      poolStep_keeps hs hok hstep
  refine ⟨fun a c hmem => ?_, hinv.own⟩
  obtain ⟨conn, hconn, -, hrequest⟩ := (hinv.pool.idle a c).mp hmem
  exact ⟨conn, hconn, hinv.idle c conn hconn hrequest⟩

end Invariant

/-- The body of a module that knows no length has no end of its own. -/
theorem bodyRound_unended {D : Type} {conf : ContentConf D} {s : ContentState D}
    {i : UpstreamInput} {bufLen k : Nat} (hdone : conf.ops.isResponseBodyDone = none)
    (hbuild : conf.ops.buildResponseBody = none) (hlength : s.originalLength = none)
    (hphase : s.phase = .body) :
    (bodyRound conf s i bufLen k).failed = false ∧
      (bodyRound conf s i bufLen k).state.phase = .body ∧
      (bodyRound conf s i bufLen k).state.originalLength = none ∧
      (bodyRound conf s i bufLen k).state.resp = s.resp := by
  have hskips : ¬s.skipsGenerate = true := by simp [ContentState.skipsGenerate, hlength]
  have hnot : ¬conf.ops.bodyDone s = true := by simp [UpstreamOps.bodyDone, hdone]
  have hbuilt : ∀ data, 
      conf.ops.build s.resp data bufLen = (s.resp, (data.length : Int), data) := by
    intro data
    simp only [UpstreamOps.build, hbuild]
  unfold bodyRound
  rw [if_neg hskips, if_neg hnot]
  dsimp only
  split
  next => exact ⟨rfl, hphase, hlength, rfl⟩
  next hne =>
    have hpos : 0 < (i.read bufLen k).1.length := List.length_pos_iff.mpr hne
    rw [hbuilt]
    dsimp only
    rw [if_neg (by omega), if_neg (by omega)]
    refine ⟨rfl, ?_, hlength, rfl⟩
    simp only [bodyEnd, hlength, List.length_map, Int.toNat_natCast]
    rw [if_neg]
    simp [Nat.pos_iff_ne_zero.mp hpos]

section Redis

/-- A round keeps what the parser cannot set. -/
structure Unended {D : Type} (s : ContentState D) : Prop where
  phase : s.phase ≠ .over
  original : s.originalLength = none
  length : s.resp.contentLength = none

variable {conf : ContentConf Unit} {s s' : ContentState Unit} {i i' : UpstreamInput}

theorem unended_parse (hops : conf.ops = phlRedisUpstreamOps) (h : Unended s) {k : Nat}
    {round : ContentRound Unit} (hround : headersRound conf s i k = some round) :
    Unended round.state := by
  have hlength : ∀ data, (phlRedisParseResponseHeaders s.resp data).1.contentLength = none := by
    intro data
    unfold phlRedisParseResponseHeaders
    split
    next => exact h.length
    next => split <;> exact h.length
  unfold headersRound at hround
  rw [hops] at hround
  simp only [phlRedisUpstreamOps] at hround
  split at hround
  next =>
    cases hround
    exact h
  next =>
    split at hround
    next =>
      cases hround
      exact ⟨h.phase, h.original, hlength _⟩
    next =>
      obtain ⟨left, -, hleft⟩ := Option.map_eq_some_iff.mp hround
      rw [← hleft]
      split
      next => exact ⟨h.phase, h.original, hlength _⟩
      next =>
        split
        next => exact ⟨h.phase, h.original, hlength _⟩
        next => exact ⟨nofun, hlength _, hlength _⟩

/-- No body of `redis` is over before its connection is closed. -/
theorem framed_redis (hops : conf.ops = phlRedisUpstreamOps) (h : Unended s) :
    Framed conf s i := by
  have hdone : conf.ops.isResponseBodyDone = none := by rw [hops]; rfl
  have hbuild : conf.ops.buildResponseBody = none := by rw [hops]; rfl
  have hunended : ∀ x, ReflTransGen (ContentReads conf) (s, i) x → Unended x.1 := by
    intro x hreads
    induction hreads with
    | refl => exact h
    | tail _ hread ih =>
      cases hread with
      | headers _ hround => exact unended_parse hops ih hround
      | body hphase hround =>
        obtain ⟨-, hbody, horiginal, hresp⟩ := bodyRound_unended hdone hbuild ih.original hphase
        rw [hround] at hbody horiginal hresp
        exact ⟨by rw [hbody]; exact nofun, horiginal, by rw [hresp]; exact ih.length⟩
      | error hphase hround hfailed =>
        obtain ⟨hgoes, -⟩ := bodyRound_unended hdone hbuild ih.original hphase
        rw [hround, hfailed] at hgoes
        cases hgoes
  intro s' i' hreads hover
  exact absurd hover (hunended _ hreads).phase

def redisConf : ContentConf Unit := ⟨100, 0, [], phlRedisUpstreamOps⟩

def noConnections : PoolWorld Unit :=
  ⟨⟨fun _ => none, 0, fun _ => [], fun _ => [], fun _ => 0⟩, fun _ => .init, []⟩

theorem start_noConnections : PoolStart noConnections :=
  ⟨fun _ => rfl, fun _ => ⟨rfl, rfl, rfl⟩, fun _ => rfl, rfl⟩

/-- The bytes of an answer to a request. -/
def answerTo (r : Nat) (data : Bytes) : List UpstreamByte := data.map fun b => (some r, b)

def redisCheck (w : PoolWorld Unit) : PoolAct → Bool
  | .answer c _ => (w.pool.conns c).all fun conn => conn.asked.head?.any fun r =>
    (w.requests r).state.phase ≠ .over && (w.requests r).state.originalLength.isNone &&
      (w.requests r).state.resp.contentLength.isNone
  | .body _ _ _ => false
  | .breaks r => match (w.requests r).upc with
    | .connection c => (w.pool.conns c).all fun conn =>
      conn.input.preread.isNone && conn.input.unread.isEmpty && conn.asked.isEmpty
    | _ => true
  | _ => true

theorem framing_of_redisCheck (w : PoolWorld Unit) (a : PoolAct) (h : redisCheck w a = true) :
    Framing redisConf w a := by
  cases a with
  | answer c data =>
    intro conn hconn
    simp only [redisCheck, hconn, Option.all_some, Option.any_eq_true, Bool.and_eq_true,
      decide_eq_true_eq, Option.isNone_iff_eq_none] at h
    obtain ⟨r, hhead, ⟨hphase, horiginal⟩, hlength⟩ := h
    obtain ⟨rest, hrest⟩ := List.head?_eq_some_iff.mp hhead
    exact ⟨r, rest, hrest, fun _ _ => framed_redis rfl ⟨hphase, horiginal, hlength⟩⟩
  | breaks r =>
    intro c conn hupc hconn _ _
    simp only [redisCheck, hupc, hconn, Option.all_some, Bool.and_eq_true,
      Option.isNone_iff_eq_none, List.isEmpty_iff] at h
    exact ⟨h.1.1, h.1.2, h.2⟩
  | body r bufLen io => cases h
  | start r reqLen retries => trivial
  | get r picked => trivial
  | write r io picked => trivial
  | headers r io picked => trivial
  | finish r => trivial
  | abort r => trivial
  | hangup c => trivial
  | active c => trivial

/-- A filter fails where the key is not there, and the next request uses the connection again. -/
theorem idle_clean_noKey : ∃ w, Reachable PoolStart (ActStep (poolStep redisConf)
      (Framing redisConf)) w ∧
    w.log = [⟨0, answerTo 0 (bytes "$-1\r\n")⟩, ⟨1, answerTo 1 (bytes "$-1\r\n")⟩] ∧
    ((∀ a, ∀ c ∈ w.pool.idle a, ∃ conn, w.pool.conns c = some conn ∧ conn.Clean) ∧
      ∀ e ∈ w.log, e.Own) := by
  let acts : List PoolAct := [.start 0 5 0, .get 0 (.address 0 true), .write 0 (.bytes 5) .error,
    .answer 0 (bytes "$-1\r\n"), .headers 0 (.bytes 5) .error, .breaks 0, .finish 0,
    .start 1 5 0, .get 1 (.address 0 true), .write 1 (.bytes 5) .error,
    .answer 0 (bytes "$-1\r\n"), .headers 1 (.bytes 5) .error]
  have hrun : (runActs (poolStep redisConf) acts noConnections).map (·.log) =
      some [⟨0, answerTo 0 (bytes "$-1\r\n")⟩, ⟨1, answerTo 1 (bytes "$-1\r\n")⟩] := by
    decide
  obtain ⟨w, hw, hlog⟩ := Option.map_eq_some_iff.mp hrun
  have hok : ActsMeet (poolStep redisConf) (Framing redisConf) acts noConnections := by
    apply actsMeet_of_check framing_of_redisCheck
    decide
  have hreach := (Reachable.start start_noConnections).runActs hok hw
  exact ⟨w, hreach, hlog, idle_clean hreach⟩

/-- A filter fails on a response that is still to be read, and the next request reads it. -/
theorem reuse_reads_other : ∃ w, Reachable PoolStart (ActStep (poolStep redisConf)
      fun _ _ => True) w ∧
    w.pool.idle 0 = [0] ∧
    (w.pool.conns 0).map (·.input.preread) = some (some (answerTo 0 (bytes "+OK\r\n"))) ∧
    w.log = [⟨0, answerTo 0 (bytes "+OK\r\n")⟩, ⟨1, answerTo 0 (bytes "+OK\r\n")⟩] ∧
    ¬((∀ a, ∀ c ∈ w.pool.idle a, ∃ conn, w.pool.conns c = some conn ∧ conn.Clean) ∧
      ∀ e ∈ w.log, e.Own) := by
  let acts : List PoolAct := [.start 0 5 0, .get 0 (.address 0 true), .write 0 (.bytes 5) .error,
    .answer 0 (bytes "+OK\r\n"), .headers 0 (.bytes 5) .error, .breaks 0, .finish 0,
    .start 1 5 0, .get 1 (.address 0 true), .write 1 (.bytes 5) .error,
    .headers 1 (.bytes 0) .error, .breaks 1, .finish 1]
  have hidle : (runActs (poolStep redisConf) acts noConnections).map (·.pool.idle 0) =
      some [0] := by
    decide
  have hpreread : (runActs (poolStep redisConf) acts noConnections).map (fun w =>
      (w.pool.conns 0).map (·.input.preread)) =
        some (some (some (answerTo 0 (bytes "+OK\r\n")))) := by
    decide
  have hlog : (runActs (poolStep redisConf) acts noConnections).map (·.log) =
      some [⟨0, answerTo 0 (bytes "+OK\r\n")⟩, ⟨1, answerTo 0 (bytes "+OK\r\n")⟩] := by
    decide
  obtain ⟨w, hw, hidle'⟩ := Option.map_eq_some_iff.mp hidle
  rw [hw, Option.map_some] at hpreread hlog
  have hpreread' := Option.some.inj hpreread
  have hlog' := Option.some.inj hlog
  have hreach := (Reachable.start start_noConnections).runActs
    (actsMeet_of_forall acts noConnections fun _ _ => trivial) hw
  refine ⟨w, hreach, hidle', hpreread', hlog', ?_⟩
  intro h
  obtain ⟨conn, hconn, hclean⟩ := h.1 0 0 (by rw [hidle']; exact List.mem_singleton_self 0)
  rw [hconn, Option.map_some, hclean.preread] at hpreread'
  cases hpreread'

end Redis

end Phorklift
