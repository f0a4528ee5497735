import Phorklift.ProxyResponse
import Phorklift.WireRequest

/-! How the end of the response headers depends on the reads that the response comes in. -/

namespace Phorklift

open Resumable

namespace UpstreamInput

variable {i : UpstreamInput} {bufLen k : Nat}

/-- What the buffer in front of the stream holds. -/
def held (i : UpstreamInput) : List UpstreamByte := i.preread.getD []

/-- The bytes that a read of `k` takes to the parser. -/
def taken (i : UpstreamInput) (k : Nat) : List UpstreamByte :=
  i.held ++ i.unread.take (min k (4096 - i.held.length))

theorem all_eq (i : UpstreamInput) : i.all = i.held ++ i.unread := rfl

theorem taken_append (i : UpstreamInput) (k : Nat) :
    i.taken k ++ i.unread.drop (min k (4096 - i.held.length)) = i.all := by
  unfold taken
  rw [List.append_assoc, List.take_append_drop, all_eq]

theorem read_eq (h : i.held.length < 4096) :
    i.read 4096 k = (i.taken k, ⟨none, i.unread.drop (min k (4096 - i.held.length))⟩) := by
  unfold read
  unfold held at h
  cases hpre : i.preread with
  | none =>
    simp only [taken, held, hpre, Option.getD_none, List.nil_append, List.length_nil, Nat.sub_zero]
  | some pre =>
    rw [hpre, Option.getD_some] at h
    dsimp only
    rw [if_neg (by omega)]
    simp only [taken, held, hpre, Option.getD_some]

theorem readNotfinish_eq (i : UpstreamInput) (hpre : i.preread = none)
    (left : List UpstreamByte) :
    ∃ j, i.readNotfinish left = some j ∧ j.held = left ∧ j.unread = i.unread := by
  unfold readNotfinish
  by_cases hnil : left = []
  · rw [if_pos hnil]
    refine ⟨i, rfl, ?_, rfl⟩
    rw [held, hpre, hnil]
    rfl
  · rw [if_neg hnil, if_pos hpre]
    exact ⟨_, rfl, rfl, rfl⟩

end UpstreamInput

section Rounds

variable {D : Type} {conf : ContentConf D} {s : ContentState D} {i : UpstreamInput}
  {parse : UpstreamResp D → Bytes → UpstreamResp D × Int × Bool}
  {Good : UpstreamResp D → Bytes → Prop} {k : Nat} {block : Bytes}

theorem headersEnd_after (conf : ContentConf D) (s : ContentState D) (n : Nat)
    (v : Verdict (UpstreamResp D)) : headersEnd conf s (v.after n) = headersEnd conf s v := by
  cases v <;> rfl

theorem headersEnd_resp (conf : ContentConf D) (s : ContentState D) (resp : UpstreamResp D)
    (v : Verdict (UpstreamResp D)) :
    headersEnd conf { s with resp := resp } v = headersEnd conf s v := by
  cases v <;> rfl

/-- A call comes to what the parser says, and keeps what the parser has left. -/
theorem headersRound_eq (hparse : conf.ops.parseResponseHeaders = some parse)
    (hheld : i.held.length < 4096) (hne : i.taken k ≠ []) :
    ∃ round, headersRound conf s i k = some round ∧
      (round.state, round.failed) =
        headersEnd conf s (verdict parse s.resp ((i.taken k).map Prod.snd)) ∧
      ∀ resp used, verdict parse s.resp ((i.taken k).map Prod.snd) = .waiting resp used →
        round.input.held = (i.taken k).drop used ∧
          round.input.unread = i.unread.drop (min k (4096 - i.held.length)) := by
  unfold headersRound
  rw [hparse]
  dsimp only
  rw [UpstreamInput.read_eq hheld]
  dsimp only
  rw [if_neg hne]
  unfold verdict
  by_cases hfails : (parse s.resp ((i.taken k).map Prod.snd)).2.1 < 0
  · simp only [if_pos hfails]
    exact ⟨_, rfl, rfl, nofun⟩
  · simp only [if_neg hfails]
    obtain ⟨j, hj, hleft, hunread⟩ := UpstreamInput.readNotfinish_eq
      ⟨none, i.unread.drop (min k (4096 - i.held.length))⟩ rfl
      ((i.taken k).drop (parse s.resp ((i.taken k).map Prod.snd)).2.1.toNat)
    rw [hj, Option.map_some]
    by_cases hdone : (parse s.resp ((i.taken k).map Prod.snd)).2.2 = false
    · simp only [if_pos hdone]
      refine ⟨_, rfl, rfl, fun resp used hwaits => ?_⟩
      cases hwaits
      exact ⟨hleft, hunread⟩
    · simp only [if_neg hdone]
      refine ⟨_, rfl, ?_, nofun⟩
      unfold headersEnd
      dsimp only
      split
      next => rfl
      next => rfl

theorem headersEnd_ended (conf : ContentConf D) (s : ContentState D)
    {v : Verdict (UpstreamResp D)} (hends : v.Ends) :
    (headersEnd conf s v).2 = true ∨ (headersEnd conf s v).1.phase = .body := by
  cases v with
  | failed => exact Or.inl rfl
  | waiting => exact hends.elim
  | finished =>
    unfold headersEnd
    dsimp only
    split
    next => exact Or.inl rfl
    next => exact Or.inr rfl

/-- The parser ends at the first call. -/
theorem headersRounds_ends (hparse : conf.ops.parseResponseHeaders = some parse)
    (hheld : i.held.length < 4096) (hne : i.taken k ≠ [])
    (hends : (verdict parse s.resp ((i.taken k).map Prod.snd)).Ends) (ks : List Nat) :
    ∃ round, headersRounds conf (k :: ks) s i = some round ∧
      (round.state, round.failed) =
        headersEnd conf s (verdict parse s.resp ((i.taken k).map Prod.snd)) := by
  obtain ⟨round, hround, hend, -⟩ := headersRound_eq (s := s) hparse hheld hne
  refine ⟨round, ?_, hend⟩
  have hended := headersEnd_ended conf s hends
  rw [← hend] at hended
  unfold headersRounds
  rw [hround, Option.bind_some, if_pos]
  rcases hended with hfailed | hbody
  · exact Or.inl hfailed
  · right
    rw [show round.state.phase = .body from hbody]
    exact nofun

/-- The parser waits at the first call. -/
theorem headersRounds_waits (hparse : conf.ops.parseResponseHeaders = some parse)
    (hphase : s.phase = .headers) (hheld : i.held.length < 4096) (hne : i.taken k ≠ [])
    {resp : UpstreamResp D} {used : Nat}
    (hwaits : verdict parse s.resp ((i.taken k).map Prod.snd) = .waiting resp used)
    (ks : List Nat) :
    ∃ j, headersRounds conf (k :: ks) s i = headersRounds conf ks { s with resp := resp } j ∧
      j.held = (i.taken k).drop used ∧
      j.unread = i.unread.drop (min k (4096 - i.held.length)) := by
  obtain ⟨round, hround, hend, hleft⟩ := headersRound_eq (s := s) hparse hheld hne
  rw [hwaits] at hend
  obtain ⟨hstate, hfailed⟩ := Prod.mk.inj hend
  refine ⟨round.input, ?_, hleft resp used hwaits⟩
  conv => lhs; unfold headersRounds
  rw [hround, Option.bind_some, if_neg, hstate]
  rw [hstate, hfailed]
  simp [hphase]

theorem held_lt_taken (hk : 1 ≤ k) (hheld : i.held.length < block.length)
    (hblock : block <+: i.all.map Prod.snd) (hshort : block.length < 4096) :
    i.taken k ≠ [] := by
  have hall := hblock.length_le
  rw [List.length_map, UpstreamInput.all_eq, List.length_append] at hall
  apply List.ne_nil_of_length_pos
  unfold UpstreamInput.taken
  rw [List.length_append, List.length_take]
  omega

/-- However the block is cut, the calls end with what the parser says of the block as a whole.
By induction on the reads: where the parser waits, the rest of the block is a block for the next
call. -/
theorem headersRounds_block (hparse : conf.ops.parseResponseHeaders = some parse)
    (hresumes : Resumes (verdict parse) Good)
    (hbetween : ∀ {resp xs} (ys zs), Good resp xs → Good resp (xs ++ ys ++ zs) →
      Good resp (xs ++ ys)) :
    ∀ (ks : List Nat) (s : ContentState D) (i : UpstreamInput) (block : Bytes),
      s.phase = .headers → (∀ k ∈ ks, 1 ≤ k) → i.held.length < block.length →
      block.length < 4096 → block.length ≤ i.held.length + ks.sum →
      Block (verdict parse) s.resp (i.all.map Prod.snd) block →
      (∀ k, ks.head? = some k → Good s.resp ((i.taken k).map Prod.snd)) →
      Good s.resp (i.all.map Prod.snd) →
      ∃ round, headersRounds conf ks s i = some round ∧
        (round.state, round.failed) = headersEnd conf s (verdict parse s.resp block) := by
  intro ks
  induction ks with
  | nil =>
    intro s i block _ _ hheld _ henough
    rw [List.sum_nil] at henough
    omega
  | cons k ks ih =>
    intro s i block hphase hreads hheld hshort henough hblock hfirst hwhole
    have hk : 1 ≤ k := hreads k List.mem_cons_self
    have hne : i.taken k ≠ [] := held_lt_taken hk hheld hblock.isPrefix hshort
    have hgood : Good s.resp ((i.taken k).map Prod.snd) := hfirst k rfl
    have htaken := i.taken_append k
    by_cases hends : (verdict parse s.resp ((i.taken k).map Prod.snd)).Ends
    · have hprefix : (i.taken k).map Prod.snd <+: i.all.map Prod.snd := by
        rw [← htaken, List.map_append]
        exact List.prefix_append _ _
      rw [← hblock.of_ends hresumes hprefix hgood hends]
      exact headersRounds_ends hparse (by omega) hne hends ks
    · obtain ⟨resp, used, hv⟩ := Verdict.waiting_of_not_ends hends
      obtain ⟨j, hj, hleft, hunread⟩ :=
        headersRounds_waits hparse hphase (by omega) hne hv ks
      -- the block goes on after what was read, so all the stream was asked for has come
      have hsplit : i.all.map Prod.snd = (i.taken k).map Prod.snd ++ j.unread.map Prod.snd := by
        rw [hunread, ← List.map_append, htaken]
      have hall : j.all.map Prod.snd =
          ((i.taken k).map Prod.snd).drop used ++ j.unread.map Prod.snd := by
        rw [UpstreamInput.all_eq, List.map_append, hleft, List.map_drop]
      rw [hsplit] at hblock hwhole
      obtain ⟨rest, hrest, hnil, hrestBlock, heq⟩ := hblock.of_waiting hresumes hgood hv
      have hpos : 0 < rest.length := List.length_pos_iff.mpr hnil
      have hused := (hresumes.resumed hgood hv).1
      have hlen : (i.taken k).length = i.held.length + k := by
        have hle := congrArg List.length hrest
        have hcut := congrArg List.length htaken
        have hprefix := hblock.isPrefix.length_le
        simp only [UpstreamInput.taken, List.length_append, List.length_map,
          List.length_take, List.length_drop, UpstreamInput.all_eq, hunread] at hle hcut hprefix ⊢
        omega
      have hblockLen : block.length = (i.taken k).length + rest.length := by
        rw [hrest, List.length_append, List.length_map]
      rw [List.length_map] at hused
      have hrestLen : (((i.taken k).map Prod.snd).drop used ++ rest).length =
          block.length - used := by
        rw [List.length_append, List.length_drop, List.length_map]
        omega
      have hheldLen : j.held.length = i.held.length + k - used := by
        rw [hleft, List.length_drop, hlen]
      rw [List.sum_cons] at henough
      obtain ⟨round, hround, hend⟩ := ih { s with resp := resp } j
        (((i.taken k).map Prod.snd).drop used ++ rest) hphase
        (fun k' hk' => hreads k' (List.mem_cons_of_mem k hk')) (by omega) (by omega) (by omega)
        (by rw [hall]; exact hrestBlock)
        (fun k' _ => by
          -- what the next call reads goes on from what this one has left
          have hnext : (j.taken k').map Prod.snd = ((i.taken k).map Prod.snd).drop used ++
              (j.unread.map Prod.snd).take (min k' (4096 - j.held.length)) := by
            rw [UpstreamInput.taken, List.map_append, hleft, List.map_drop, List.map_take]
          rw [hnext]
          refine hresumes.goes hgood (hbetween _ ((j.unread.map Prod.snd).drop
            (min k' (4096 - j.held.length))) hgood ?_) hv
          rw [List.append_assoc, List.take_append_drop]
          exact hwhole)
        (by rw [hall]; exact hresumes.goes hgood hwhole hv)
      refine ⟨round, hj.trans hround, ?_⟩
      rw [hend, heq, headersEnd_after, headersEnd_resp]

/-- A response that comes in reads of `k` bytes and then of `ks`, or in one read of `whole`: the
parser comes to an end on its header block. -/
structure HeaderCut (parse : UpstreamResp D → Bytes → UpstreamResp D × Int × Bool)
    (s : ContentState D) (wire : List UpstreamByte) (block : Bytes) (k : Nat) (ks : List Nat)
    (whole : Nat) : Prop where
  phase : s.phase = .headers
  fresh : s.resp.statusCode = 0
  isBlock : Block (verdict parse) s.resp (wire.map Prod.snd) block
  nonempty : 0 < block.length
  short : block.length < 4096
  reads : ∀ n ∈ k :: ks, 1 ≤ n
  enough : block.length ≤ (k :: ks).sum
  one : block.length ≤ whole

/-- What has come at the first call. -/
def firstRead (wire : List UpstreamByte) (k : Nat) : Bytes := (wire.map Prod.snd).take (min k 4096)

/-- Both ways of reading come to an end, and to the same one. -/
def SameEnd (conf : ContentConf D) (s : ContentState D) (wire : List UpstreamByte)
    (ks ks' : List Nat) : Prop :=
  ∃ cut one, headersRounds conf ks s ⟨none, wire⟩ = some cut ∧
    headersRounds conf ks' s ⟨none, wire⟩ = some one ∧ cut.Ended ∧ one.Ended ∧
    cut.failed = one.failed ∧
    cut.state.resp.statusCode = one.state.resp.statusCode ∧
    cut.state.resp.headers = one.state.resp.headers ∧
    cut.state.resp.contentLength = one.state.resp.contentLength

section Cut

variable {wire : List UpstreamByte} {ks : List Nat} {whole : Nat}

theorem taken_first (wire : List UpstreamByte) (k : Nat) :
    ((⟨none, wire⟩ : UpstreamInput).taken k).map Prod.snd = firstRead wire k := by
  unfold UpstreamInput.taken firstRead UpstreamInput.held
  rw [Option.getD_none, List.nil_append, List.length_nil, Nat.sub_zero, List.map_take]

theorem held_of_none (wire : List UpstreamByte) :
    (⟨none, wire⟩ : UpstreamInput).held.length < 4096 := by
  have hnil : (⟨none, wire⟩ : UpstreamInput).held = [] := rfl
  rw [hnil, List.length_nil]
  omega

theorem firstRead_prefix (wire : List UpstreamByte) (k : Nat) :
    firstRead wire k <+: wire.map Prod.snd := List.take_prefix _ _

theorem ended_of_end {round : ContentRound D} {v : Verdict (UpstreamResp D)} (hends : v.Ends)
    (h : (round.state, round.failed) = headersEnd conf s v) : round.Ended := by
  have hended := headersEnd_ended conf s hends
  rw [← h] at hended
  exact hended

theorem resp_of_end {round : ContentRound D} {v : Verdict (UpstreamResp D)}
    (h : (round.state, round.failed) = headersEnd conf s v) : round.state.resp = v.state := by
  have hstate : round.state = (headersEnd conf s v).1 := congrArg Prod.fst h
  rw [hstate]
  cases v with
  | failed => rfl
  | waiting => rfl
  | finished =>
    unfold headersEnd
    dsimp only
    split <;> rfl

variable (h : HeaderCut parse s wire block k ks whole)
include h

theorem HeaderCut.taken_ne {n : Nat} (hn : 1 ≤ n) :
    (⟨none, wire⟩ : UpstreamInput).taken n ≠ [] :=
  held_lt_taken hn h.nonempty h.isBlock.isPrefix h.short

theorem HeaderCut.of_first (hparse : conf.ops.parseResponseHeaders = some parse)
    (hends : (verdict parse s.resp (firstRead wire k)).Ends) :
    ∃ cut, headersRounds conf (k :: ks) s ⟨none, wire⟩ = some cut ∧ cut.Ended ∧
      (cut.state, cut.failed) = headersEnd conf s (verdict parse s.resp (firstRead wire k)) := by
  rw [← taken_first] at hends ⊢
  obtain ⟨cut, hcut, hend⟩ := headersRounds_ends hparse
    (held_of_none wire) (h.taken_ne (h.reads k List.mem_cons_self)) hends ks
  exact ⟨cut, hcut, ended_of_end hends hend, hend⟩

theorem HeaderCut.of_whole (hparse : conf.ops.parseResponseHeaders = some parse) :
    ∃ one, headersRounds conf [whole] s ⟨none, wire⟩ = some one ∧ one.Ended ∧
      (one.state, one.failed) = headersEnd conf s (verdict parse s.resp block) := by
  have hle := h.isBlock.isPrefix.length_le
  have hshort := h.short
  have hone := h.one
  have hpos := h.nonempty
  have hverdict : verdict parse s.resp (firstRead wire whole) = verdict parse s.resp block := by
    apply h.isBlock.of_le ( firstRead_prefix wire whole)
    rw [firstRead, List.length_take]
    omega
  have hends : (verdict parse s.resp (firstRead wire whole)).Ends := by
    rw [hverdict]
    exact h.isBlock.ends
  rw [← taken_first] at hends hverdict
  obtain ⟨one, hround, hend⟩ := headersRounds_ends hparse
    (held_of_none wire) (h.taken_ne (n := whole) (by omega)) hends []
  exact ⟨one, hround, ended_of_end hends hend, hend.trans (by rw [hverdict])⟩

theorem HeaderCut.sameEnd_of_end (hparse : conf.ops.parseResponseHeaders = some parse)
    {cut : ContentRound D} (hcut : headersRounds conf (k :: ks) s ⟨none, wire⟩ = some cut)
    (hend : (cut.state, cut.failed) = headersEnd conf s (verdict parse s.resp block)) :
    SameEnd conf s wire (k :: ks) [whole] := by
  obtain ⟨one, hone, hended, hwhole⟩ := h.of_whole hparse
  obtain ⟨hstate, hfailed⟩ := Prod.mk.inj (hend.trans hwhole.symm)
  refine ⟨cut, one, hcut, hone, ended_of_end h.isBlock.ends hend, hended, hfailed, ?_⟩
  rw [hstate]
  exact ⟨rfl, rfl, rfl⟩

/-- Where the cuts end with another status the ends are not the same. -/
theorem HeaderCut.not_sameEnd (hparse : conf.ops.parseResponseHeaders = some parse)
    {cut : ContentRound D} (hcut : headersRounds conf (k :: ks) s ⟨none, wire⟩ = some cut)
    {v : Verdict (UpstreamResp D)} (hend : (cut.state, cut.failed) = headersEnd conf s v)
    (hne : v.state.statusCode ≠ (verdict parse s.resp block).state.statusCode) :
    ¬SameEnd conf s wire (k :: ks) [whole] := by
  obtain ⟨one, hone, -, hwhole⟩ := h.of_whole hparse
  intro ⟨cut', one', hcut', hone', _, _, _, hsame, _⟩
  have hcutEq : cut' = cut := Option.some.inj (hcut'.symm.trans hcut)
  have honeEq : one' = one := Option.some.inj (hone'.symm.trans hone)
  rw [hcutEq, honeEq, resp_of_end hend, resp_of_end hwhole] at hsame
  exact hne hsame

end Cut

end Rounds

section Proxy

variable {lib : ResponseLib} {conf : ContentConf Bytes} {s : ContentState Bytes}
  {wire : List UpstreamByte} {block : Bytes} {k : Nat} {ks : List Nat} {whole : Nat}

theorem statusLine_of_prefix (hlib : lib.Lawful) {xs ys : Bytes} (hxs : xs <+: ys)
    (hne : (lib.httpStatusLine xs).procLen ≠ 0) : lib.httpStatusLine ys = lib.httpStatusLine xs := by
  obtain ⟨rest, hrest⟩ := hxs
  rw [← hrest]
  exact hlib.statusLine.settled xs hne rest

theorem proxy_sameEnd_iff (hlib : lib.Lawful) (hops : conf.ops = phlProxyUpstreamOps lib)
    (h : HeaderCut (phlProxyParseResponseHeaders lib) s wire block k ks whole)
    (hlengths : 0 < (lib.httpStatusLine (wire.map Prod.snd)).procLen → LengthsGiven lib
      ((wire.map Prod.snd).drop (lib.httpStatusLine (wire.map Prod.snd)).procLen.toNat)) :
    SameEnd conf s wire (k :: ks) [whole] ↔
      (0 < (lib.httpStatusLine block).procLen →
        (lib.httpStatusLine (firstRead wire k)).procLen ≠ 0) := by
  have hparse : conf.ops.parseResponseHeaders = some (phlProxyParseResponseHeaders lib) := by
    rw [hops]
    rfl
  by_cases hpos : 0 < (lib.httpStatusLine block).procLen
  · have hwhole := statusLine_of_prefix hlib h.isBlock.isPrefix (by omega)
    by_cases hzero : (lib.httpStatusLine (firstRead wire k)).procLen = 0
    · refine iff_of_false ?_ (fun himp => himp hpos hzero)
      have hfails : verdict (phlProxyParseResponseHeaders lib) s.resp (firstRead wire k) =
          .failed s.resp := verdict_no_statusLine h.fresh (le_of_eq hzero)
      have hends : (verdict (phlProxyParseResponseHeaders lib) s.resp (firstRead wire k)).Ends := by
        rw [hfails]
        trivial
      obtain ⟨cut, hcut, -, hend⟩ := h.of_first hparse hends
      apply h.not_sameEnd hparse hcut hend
      rw [hfails, verdict_statusLine hlib h.fresh hpos, Verdict.state_after,
        linesVerdict_statusCode]
      show s.resp.statusCode ≠ _
      rw [h.fresh]
      exact (start_statusCode hlib s.resp hpos).symm
    · refine iff_of_true ?_ (fun _ => hzero)
      have hfirst := statusLine_of_prefix hlib ( firstRead_prefix wire k) hzero
      have hsame : lib.httpStatusLine (firstRead wire k) = lib.httpStatusLine block :=
        hfirst.symm.trans hwhole
      have hposWire : 0 < (lib.httpStatusLine (wire.map Prod.snd)).procLen := by
        rw [hwhole]
        exact hpos
      have hposFirst : 0 < (lib.httpStatusLine (firstRead wire k)).procLen := by
        rw [hsame]
        exact hpos
      have hgiven := hlengths hposWire
      have hreadyWire : ProxyReady lib s.resp (wire.map Prod.snd) := by
        unfold ProxyReady
        rw [if_pos h.fresh]
        exact ⟨by omega, fun _ => hgiven⟩
      have hreadyFirst : ProxyReady lib s.resp (firstRead wire k) := by
        unfold ProxyReady
        rw [if_pos h.fresh]
        refine ⟨hzero, fun _ => ?_⟩
        obtain ⟨rest, hrest⟩ := firstRead_prefix wire k
        rw [hfirst, ← hrest,
          List.drop_append_of_le_length (hlib.statusLine.drop_lt hposFirst).1] at hgiven
        exact hgiven.of_append hlib rfl
      obtain ⟨cut, hcut, hend⟩ := headersRounds_block hparse
        (phlProxyParseResponseHeaders_resumes hlib) (proxyReady_between hlib) (k :: ks) s
        ⟨none, wire⟩ block h.phase h.reads h.nonempty h.short
        (h.enough.trans (Nat.le_add_left _ _)) h.isBlock
        (fun n hn => by
          cases hn
          rw [taken_first]
          exact hreadyFirst) hreadyWire
      exact h.sameEnd_of_end hparse hcut hend
  · refine iff_of_true ?_ (fun himp => absurd himp hpos)
    have hle : (lib.httpStatusLine block).procLen ≤ 0 := by omega
    have hblock := verdict_no_statusLine h.fresh hle
    have hfirst : verdict (phlProxyParseResponseHeaders lib) s.resp (firstRead wire k) =
        verdict (phlProxyParseResponseHeaders lib) s.resp block := by
      by_cases hle : block.length ≤ (firstRead wire k).length
      · exact h.isBlock.of_le ( firstRead_prefix wire k) hle
      · have hprefix : firstRead wire k <+: block :=
          List.prefix_of_prefix_length_le ( firstRead_prefix wire k) h.isBlock.isPrefix (by omega)
        have hnot : (lib.httpStatusLine (firstRead wire k)).procLen ≤ 0 := by
          by_contra hgt
          have hsame := statusLine_of_prefix hlib hprefix (by omega)
          rw [hsame] at hpos
          omega
        rw [hblock, verdict_no_statusLine h.fresh hnot]
    have hends : (verdict (phlProxyParseResponseHeaders lib) s.resp (firstRead wire k)).Ends := by
      rw [hfirst]
      exact h.isBlock.ends
    obtain ⟨cut, hcut, -, hend⟩ := h.of_first hparse hends
    exact h.sameEnd_of_end hparse hcut (hend.trans (by rw [hfirst]))

end Proxy

section Redis

/-- The reply of a server that does not have the value. -/
def redisNil : Bytes := bytes "$-1\r\n"

variable {resp : UpstreamResp Unit} {data : Bytes}

theorem take_eq_nil_iff (data : Bytes) : data.take 5 = bytes "$-1\r\n" ↔ redisNil <+: data := by
  rw [List.prefix_iff_eq_take]
  exact eq_comm

theorem verdict_redisNil (h : redisNil <+: data) :
    verdict phlRedisParseResponseHeaders resp data =
      .finished { resp with statusCode := 404 } 5 := by
  have hhead : data.head? = some 36 := by
    obtain ⟨rest, hrest⟩ := h
    rw [← hrest]
    rfl
  have hparse : phlRedisParseResponseHeaders resp data =
      ({ resp with statusCode := 404 }, 5, true) := by
    unfold phlRedisParseResponseHeaders
    rw [hhead, if_neg (by decide), if_pos ((take_eq_nil_iff data).mpr h)]
  unfold verdict
  rw [hparse]
  rfl

theorem verdict_redis (h : ¬redisNil <+: data) :
    verdict phlRedisParseResponseHeaders resp data =
      if data.head? = some 45 then .finished { resp with statusCode := 500 } 1
      else .finished { resp with statusCode := 200 } 0 := by
  unfold verdict phlRedisParseResponseHeaders
  by_cases hhead : data.head? = some 45
  · rw [if_pos hhead, if_pos hhead]
    rfl
  · rw [if_neg hhead, if_neg hhead, if_neg (fun htake => h ((take_eq_nil_iff data).mp htake))]
    rfl

variable {conf : ContentConf Unit} {s : ContentState Unit} {wire : List UpstreamByte}
  {block : Bytes} {k : Nat} {ks : List Nat} {whole : Nat}

theorem head_of_prefix {xs ys : Bytes} (h : xs <+: ys) (hne : xs ≠ []) : xs.head? = ys.head? := by
  obtain ⟨rest, hrest⟩ := h
  rw [← hrest, List.head?_append_of_ne_nil _ hne]

/-- A block of a reply without a value is no shorter than the reply. -/
theorem redisNil_prefix_block (hblock : Block (verdict phlRedisParseResponseHeaders) resp data block)
    (hne : block ≠ []) (hnil : redisNil <+: data) : redisNil <+: block := by
  by_contra hnot
  have hshort : block <+: redisNil := by
    rcases List.prefix_or_prefix_of_prefix hblock.isPrefix hnil with h | h
    · exact h
    · exact absurd h hnot
  obtain ⟨rest, hrest⟩ := hshort
  have hhead : block.head? = some 36 := by
    rw [ head_of_prefix ⟨rest, hrest⟩ hne]
    rfl
  have hsettled := hblock.settled rest
  rw [hrest, verdict_redisNil (List.prefix_refl _), verdict_redis hnot, hhead,
    if_neg (by decide)] at hsettled
  cases hsettled

theorem redis_sameEnd_iff (hops : conf.ops = phlRedisUpstreamOps)
    (h : HeaderCut phlRedisParseResponseHeaders s wire block k ks whole) :
    SameEnd conf s wire (k :: ks) [whole] ↔ (redisNil <+: wire.map Prod.snd → 5 ≤ k) := by
  have hparse : conf.ops.parseResponseHeaders = some phlRedisParseResponseHeaders := by
    rw [hops]
    rfl
  have hk : 1 ≤ k := h.reads k List.mem_cons_self
  have hpos := h.nonempty
  have hle := h.isBlock.isPrefix.length_le
  have hblock : block ≠ [] := List.ne_nil_of_length_pos hpos
  have hlen : (firstRead wire k).length = min (min k 4096) (wire.map Prod.snd).length := by
    rw [firstRead, List.length_take]
  have hfirst : firstRead wire k ≠ [] := List.ne_nil_of_length_pos (by omega)
  have hhead := head_of_prefix ( firstRead_prefix wire k) hfirst
  have hsame : verdict phlRedisParseResponseHeaders s.resp (firstRead wire k) =
      verdict phlRedisParseResponseHeaders s.resp block →
      SameEnd conf s wire (k :: ks) [whole] := by
    intro heq
    obtain ⟨cut, hcut, -, hend⟩ := h.of_first hparse (by rw [heq]; exact h.isBlock.ends)
    exact h.sameEnd_of_end hparse hcut (hend.trans (by rw [heq]))
  by_cases hnil : redisNil <+: wire.map Prod.snd
  · have hnilBlock : verdict phlRedisParseResponseHeaders s.resp block =
        .finished { s.resp with statusCode := 404 } 5 :=
      verdict_redisNil (redisNil_prefix_block h.isBlock hblock hnil)
    have hnilLen := hnil.length_le
    have hfive : redisNil.length = 5 := rfl
    by_cases hcut : 5 ≤ k
    · refine iff_of_true (hsame ?_) (fun _ => hcut)
      have hprefix : redisNil <+: firstRead wire k :=
        List.prefix_of_prefix_length_le hnil ( firstRead_prefix wire k) (by omega)
      rw [hnilBlock, verdict_redisNil hprefix]
    · refine iff_of_false ?_ (fun himp => hcut (himp hnil))
      have hnot : ¬redisNil <+: firstRead wire k := by
        intro hprefix
        have hmore := hprefix.length_le
        omega
      have hdollar : (firstRead wire k).head? = some 36 := by
        obtain ⟨rest, hrest⟩ := hnil
        rw [hhead, ← hrest]
        rfl
      have hfound : verdict phlRedisParseResponseHeaders s.resp (firstRead wire k) =
          .finished { s.resp with statusCode := 200 } 0 := by
        rw [verdict_redis hnot, hdollar, if_neg (by decide)]
      obtain ⟨cut, hround, -, hend⟩ := h.of_first hparse (by rw [hfound]; trivial)
      apply h.not_sameEnd hparse hround hend
      rw [hfound, hnilBlock]
      show (200 : Int) ≠ 404
      omega
  · refine iff_of_true (hsame ?_) (fun himp => absurd himp hnil)
    have hnotFirst : ¬redisNil <+: firstRead wire k :=
      fun hprefix => hnil ( hprefix.trans ( firstRead_prefix wire k))
    have hnotBlock : ¬redisNil <+: block := fun hprefix => hnil ( hprefix.trans h.isBlock.isPrefix)
    rw [verdict_redis hnotFirst, verdict_redis hnotBlock, hhead,
      head_of_prefix h.isBlock.isPrefix hblock]

end Redis

/-- A status line of HTTP/1, without its CRLF. -/
def statusLine (line : Bytes) : Option StatusLine :=
  if (bytes "HTTP/1.").isPrefixOf line then
    match Http.parseDecimal ((line.drop 9).take 3) with
    | some (code + 1) => some ⟨(code + 1 : Nat), (line.getD 7 48).toNat - 48⟩
    | _ => none
  else none

/-- Parsers of responses that are made of lines. -/
def ResponseLib.lines : ResponseLib :=
  { Libwuya.lines with httpStatusLine := lineParser ⟨0, 0⟩ statusLine }

theorem takeLine_eq {s line rest : Bytes} (h : Http.takeLine s = some (line, rest)) :
    s = line ++ crlf ++ rest := by
  fun_induction Http.takeLine s generalizing line rest with
  | case1 rest' =>
    cases h
    rfl
  | case2 c rest' hcr ih =>
    obtain ⟨⟨l, r⟩, hl, hp⟩ := Option.map_eq_some_iff.mp h
    cases hp
    rw [ih hl]
    rfl
  | case3 => cases h

theorem settles_lineParser {α : Type} (d : α) (f : Bytes → Option α) :
    Settles (lineParser d f) where
  le := by
    intro data
    unfold lineParser
    split
    next => exact Int.natCast_nonneg _
    next line rest hline =>
      have hlen := Http.takeLine_length hline
      split
      next => exact (show phlError ≤ 0 by decide).trans (Int.natCast_nonneg _)
      next =>
        show (line.length : Int) + 2 ≤ data.length
        omega
  settled := by
    intro data hne more
    unfold lineParser at hne ⊢
    cases hline : Http.takeLine data with
    | none =>
      rw [hline] at hne
      exact absurd rfl hne
    | some x => rw [Http.takeLine_append_right hline more]

theorem headerLine_in {line : Bytes} {h : HeaderLine} (hh : headerLine line = some h) :
    h.In (line ++ crlf) := by
  have hlast : (line ++ crlf).getLast? = some 10 := by
    rw [List.getLast?_append]
    rfl
  have hcrlf : crlf.length = 2 := rfl
  unfold headerLine at hh
  split at hh
  next =>
    cases hh
    exact ⟨hlast, Nat.zero_le _, Nat.zero_le _⟩
  next =>
    obtain ⟨f, hf, hmade⟩ := Option.map_eq_some_iff.mp hh
    unfold Http.parseField at hf
    split at hf
    next => cases hf
    next colon value hvalue =>
      dsimp only at hf
      split at hf
      next =>
        cases hf
        cases hmade
        have hline := List.takeWhile_append_dropWhile (p := (· != 58)) (l := line)
        rw [hvalue] at hline
        have hlen := congrArg List.length hline
        rw [List.length_append, List.length_cons] at hlen
        have hdrop : line.drop ((line.takeWhile (· != 58)).length + 1) = value := by
          nth_rewrite 2 [← hline]
          rw [← List.drop_drop, List.drop_left, List.drop_succ_cons, List.drop_zero]
        have hvalueLen := congrArg List.length
          (List.takeWhile_append_dropWhile (p := Http.isBlank) (l := value))
        rw [List.length_append] at hvalueLen
        have htrim : (Http.trim value).length ≤ (value.dropWhile Http.isBlank).length := by
          unfold Http.trim
          rw [List.length_reverse]
          exact ((List.dropWhile_sublist _).length_le).trans (le_of_eq (List.length_reverse))
        refine ⟨hlast, ?_, ?_⟩
        · rw [List.length_append]
          dsimp only
          omega
        · rw [List.length_append]
          dsimp only
          rw [hdrop]
          omega
      next => cases hf

/-- A line that the parser takes is a line that `f` knows. -/
theorem lineParser_takes {α : Type} {d : α} {f : Bytes → Option α} {data : Bytes}
    (hpos : 0 < (lineParser d f data).procLen) :
    ∃ line, f line = some (lineParser d f data).value ∧
      (lineParser d f data).procLen = line.length + 2 ∧
      data.take (lineParser d f data).procLen.toNat = line ++ crlf := by
  unfold lineParser at hpos ⊢
  cases hline : Http.takeLine data with
  | none =>
    rw [hline] at hpos
    exact absurd hpos (lt_irrefl 0)
  | some x =>
    obtain ⟨line, rest⟩ := x
    rw [hline] at hpos
    dsimp only at hpos ⊢
    cases hv : f line with
    | none =>
      rw [hv] at hpos
      exact absurd hpos (show ¬0 < phlError by decide)
    | some v =>
      refine ⟨line, hv, rfl, ?_⟩
      have hlen : (line ++ crlf).length = line.length + 2 := by
        rw [List.length_append]
        rfl
      rw [takeLine_eq hline]
      show List.take ((line.length : Int) + 2).toNat _ = _
      rw [show ((line.length : Int) + 2).toNat = (line ++ crlf).length by omega, List.take_left]

/-- What is taken as a header is a line. -/
theorem lineParser_headerLine {data : Bytes}
    (hpos : 0 < (lineParser ⟨0, 0, 0⟩ headerLine data).procLen) :
    (lineParser ⟨0, 0, 0⟩ headerLine data).value.In
      (data.take (lineParser ⟨0, 0, 0⟩ headerLine data).procLen.toNat) := by
  obtain ⟨line, hline, -, htake⟩ := lineParser_takes hpos
  rw [htake]
  exact headerLine_in hline

theorem statusLine_ne_zero {line : Bytes} {v : StatusLine} (h : statusLine line = some v) :
    v.statusCode ≠ 0 := by
  unfold statusLine at h
  split at h
  next =>
    split at h
    next code _ =>
      cases h
      show ((code + 1 : Nat) : Int) ≠ 0
      omega
    next => cases h
  next => cases h

theorem ResponseLib.lines_lawful : ResponseLib.lines.Lawful where
  statusLine := settles_lineParser _ _
  statusCode := by
    intro data hpos
    obtain ⟨line, hline, -⟩ := lineParser_takes hpos
    exact statusLine_ne_zero hline
  header := settles_lineParser _ _
  headerLine := by
    intro data hpos _
    exact lineParser_headerLine hpos

/-- A module whose upstream is not asked again. -/
def askedOnce {D : Type} (ops : UpstreamOps D) : ContentConf D := ⟨0, 0, [], ops⟩

def freshContent {D : Type} : ContentState D := (UpstreamRequest.init : UpstreamRequest D).state

def fromUpstream (data : Bytes) : List UpstreamByte := data.map fun b => (some 0, b)

def okHead : Bytes := bytes "HTTP/1.1 200 OK\r\nContent-Length: 2\r\n\r\n"

def okWire : List UpstreamByte := fromUpstream (okHead ++ bytes "hi")

theorem okWire_lengths : LengthsGiven ResponseLib.lines ((okWire.map Prod.snd).drop
    (ResponseLib.lines.httpStatusLine (okWire.map Prod.snd)).procLen.toNat) :=
  .line (by decide) (by decide) (fun _ => ⟨50, by decide, by decide⟩)
    (.stop (Or.inr (by decide)))

theorem okHead_ready : ProxyReady ResponseLib.lines freshContent.resp okHead := by
  unfold ProxyReady
  rw [if_pos (show (freshContent.resp : UpstreamResp Bytes).statusCode = 0 from rfl)]
  exact ⟨by decide, fun _ => .line (by decide) (by decide) (fun _ => ⟨50, by decide, by decide⟩)
    (.stop (Or.inr (by decide)))⟩

theorem okHead_block : Block (verdict (phlProxyParseResponseHeaders ResponseLib.lines))
    freshContent.resp (okWire.map Prod.snd) okHead where
  isPrefix := by decide
  ends := by decide
  settled := (phlProxyParseResponseHeaders_resumes ResponseLib.lines_lawful).settled okHead_ready
    (by decide)

theorem okWire_cut {k : Nat} {ks : List Nat} (hreads : ∀ n ∈ k :: ks, 1 ≤ n)
    (henough : 38 ≤ (k :: ks).sum) :
    HeaderCut (phlProxyParseResponseHeaders ResponseLib.lines) freshContent okWire okHead k ks 60
    where
  phase := rfl
  fresh := rfl
  isBlock := okHead_block
  nonempty := by decide
  short := by decide
  reads := hreads
  enough := henough
  one := by decide

theorem nilWire_cut {k : Nat} {ks : List Nat} (hreads : ∀ n ∈ k :: ks, 1 ≤ n)
    (henough : 5 ≤ (k :: ks).sum) :
    HeaderCut phlRedisParseResponseHeaders freshContent (fromUpstream redisNil) redisNil k ks 5
    where
  phase := rfl
  fresh := rfl
  isBlock := by
    refine ⟨by decide, by decide, fun ys => ?_⟩
    rw [verdict_redisNil (List.prefix_append redisNil ys),
      verdict_redisNil (List.prefix_refl redisNil)]
  nonempty := by decide
  short := by decide
  reads := hreads
  enough := henough
  one := by decide

end Phorklift
