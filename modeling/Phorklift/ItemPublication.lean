import Phorklift.FileCache
import Phorklift.RequestCalls

/-! An item file is marked finished only once the whole response is in it. -/

namespace Phorklift

open Transition

variable {E : Type}

/-- The calls that the module made, in order. -/
def fileOps (trace : List (Event FileOp)) : List FileOp :=
  trace.filterMap fun
    | .env o => some o
    | _ => none

def unfinishedAfter (before : Bool) : Event FileOp → Bool
  | .env (.created _) => true
  | .env (.unlinked _) => false
  | .env (.wrote _ (.length _) _) => false
  | _ => before

/-- Whether the item file created last was neither marked nor removed. -/
def unfinished (trace : List (Event FileOp)) : Bool :=
  trace.foldl unfinishedAfter false

/-- The item was written whole or not at all, the last piece whole, `store_headers` was large
enough, and no error starts the response afresh while an item file is unfinished. -/
def cleanAfter (pre : List (Event FileOp)) : Event FileOp → Prop
  | .env (.wrote _ (.item i hs) ret) => ret < 0 ∨ ret = (Buffer.item i hs).size
  | .env (.wrote _ (.piece data true) ret) => ret = data.length
  | .env .overran => False
  | .broken _ => unfinished pre = false
  | _ => True

instance (pre : List (Event FileOp)) (e : Event FileOp) : Decidable (cleanAfter pre e) := by
  unfold cleanAfter
  split <;> infer_instance

/-- Since `fd` was created, the item with its headers and then `pieces` were written to it, all of
them whole, and no error has started the response afresh. -/
def Storing (fd : Nat) (pieces : List Bytes) (trace : List (Event FileOp)) : Prop :=
  ∃ before since i hs, trace = before ++ .env (.created fd) :: since ∧
    (∀ code, Event.broken code ∉ since) ∧ i.headerNum = hs.length ∧
    fileOps since = .wrote (some fd) (.item i hs) (Buffer.item i hs).size ::
      pieces.map fun data => .wrote (some fd) (.piece data false) data.length

/-- The response has been written to `fd` up to its last piece, its body has `n` bytes, and the
descriptor stands at the beginning of the file. -/
def Complete (fd n : Nat) (trace : List (Event FileOp)) : Prop :=
  ∃ u pieces last, Storing fd pieces u ∧
    trace = u ++ [.env (.wrote (some fd) (.piece last true) last.length),
      .env (.sought (some fd))] ∧
    n = (pieces.flatten ++ last).length

/-- A real length is written over `content_length` only in a complete item. -/
def publishedAfter (pre : List (Event FileOp)) : Event FileOp → Prop
  | .env (.wrote fd (.length n) _) => ∃ m, fd = some m ∧ Complete m n pre
  | _ => True

/-- No write to `fd` has failed or fallen short since it was created. -/
def Unfailed (fd : Nat) (trace : List (Event FileOp)) : Prop :=
  ∀ u b ret v, trace = u ++ .env (.wrote (some fd) b ret) :: v → ret ≠ b.size →
    Event.env (.created fd) ∈ v

/-- After a write that failed or fell short there is no write to the descriptor and no seek. -/
def settledAfter (pre : List (Event FileOp)) : Event FileOp → Prop
  | .env (.wrote (some fd) _ _) => Unfailed fd pre
  | .env (.sought (some fd)) => Unfailed fd pre
  | _ => True

/-- What the trace and the ctx of a request in state `s` have to do with each other. -/
structure Journal (s : RequestState) (ctx : Option FileCacheCtx) (trace : List (Event FileOp)) :
    Prop where
  published : Each publishedAfter trace
  settled : Each settledAfter trace
  storing : ∀ c fd, ctx = some c → c.newFilename ≠ none → c.fd = some fd →
    ∃ pieces, Storing fd pieces trace ∧ c.newLength = pieces.flatten.length
  unwritten : ∀ c, ctx = some c → c.newFilename ≠ none →
    c.fd = none ∨ s.index ≤ RequestState.responseHeaders2.index → c.newLength = 0

def CacheInv (s : RequestState) (x : CacheWorld E) (trace : List (Event FileOp)) : Prop :=
  Each cleanAfter trace → Journal s x.ctx trace

/-- A module that leaves the ctx of the file cache alone. -/
def Foreign (w w' : CacheWorld E) (es : List FileOp) : Prop :=
  w'.ctx = w.ctx ∧ es = []

/-- A configuration in which the file cache is one of the filter modules of a Path. -/
structure Caching (fs : FileSys E) (conf : PathId → FileCacheConf)
    (env : Env (CacheWorld E) FileOp) : Prop where
  filters : ∀ p k, ∀ f ∈ (env.path p).filters k,
    (∀ r w, Foreign w (f r w).env (f r w).emit) ∨
    k = .processHeaders ∧ f = phlFileCacheFilterProcessHeaders fs (conf p) ∨
    k = .responseHeaders ∧ f = phlFileCacheFilterResponseHeaders fs (conf p)
  bodyFilters : ∀ p, ∀ m ∈ (env.path p).bodyFilters,
    (∀ r data len isLast w,
      Foreign w (m r data len isLast w).env (m r data len isLast w).emit) ∨
    m = phlFileCacheFilterResponseBody fs
  content : ∀ p c k f, (env.path p).content = some c → c.Has f k →
    ∀ r w, Foreign w (f r w).env (f r w).emit
  source : ∀ p c f, (env.path p).content = some c → c.responseBody = some f →
    ∀ r len w, Foreign w (f r len w).env (f r len w).emit
  makeSpace : ∀ n w, (env.makeSpace n w).2.ctx = w.ctx
  readFd : ∀ fd len w, (env.readFd fd len w).2.ctx = w.ctx
  dynamicGet : ∀ p r w, Foreign w (env.dynamicGet p r w).env (env.dynamicGet p r w).emit
  moduleCtxFree : ∀ r w, (env.moduleCtxFree r w).1.ctx = none ∧
    (env.moduleCtxFree r w).2 = (w.ctx.map FileCacheCtx.free).getD []
  elsewhere : ∀ w w', env.elsewhere w w' → w'.ctx = w.ctx

section Storing

variable {fd : Nat} {pieces : List Bytes} {tr : List (Event FileOp)}

theorem fileOps_append (u v : List (Event FileOp)) : fileOps (u ++ v) = fileOps u ++ fileOps v :=
  List.filterMap_append

theorem mem_fileOps {o : FileOp} : o ∈ fileOps tr ↔ Event.env o ∈ tr := by
  unfold fileOps
  rw [List.mem_filterMap]
  constructor
  · rintro ⟨e, he, h⟩
    cases e <;> simp_all
  · exact fun h => ⟨_, h, rfl⟩

/-- An event that is no call of the module. -/
theorem Storing.own (h : Storing fd pieces tr) {e : Event FileOp} (he : e.isOwn = true) :
    Storing fd pieces (tr ++ [e]) := by
  obtain ⟨before, since, i, hs, rfl, hb, hn, hops⟩ := h
  refine ⟨before, since ++ [e], i, hs, by simp, ?_, hn, ?_⟩
  · intro code hmem
    rcases List.mem_append.mp hmem with hmem | hmem
    · exact hb code hmem
    · cases List.mem_singleton.mp hmem
      cases he
  · rw [fileOps_append, hops]
    cases e <;> simp_all [fileOps, Event.isOwn]

theorem Storing.piece (h : Storing fd pieces tr) (data : Bytes) :
    Storing fd (pieces ++ [data])
      (tr ++ [.env (.wrote (some fd) (.piece data false) data.length)]) := by
  obtain ⟨before, since, i, hs, rfl, hb, hn, hops⟩ := h
  refine ⟨before, since ++ [.env (.wrote (some fd) (.piece data false) data.length)], i, hs,
    by simp, ?_, hn, ?_⟩
  · intro code hmem
    rcases List.mem_append.mp hmem with hmem | hmem
    · exact hb code hmem
    · cases List.mem_singleton.mp hmem
  · rw [fileOps_append, hops, List.map_append, List.cons_append]
    rfl

/-- The item being stored is the unfinished one. -/
theorem Storing.unfinished (h : Storing fd pieces tr) : unfinished tr = true := by
  obtain ⟨before, since, i, hs, rfl, -, -, hops⟩ := h
  have hkeep : ∀ e ∈ since, unfinishedAfter true e = true := by
    intro e he
    cases e with
    | env o =>
      have ho := mem_fileOps.mpr he
      rw [hops] at ho
      rcases List.mem_cons.mp ho with rfl | ho
      · rfl
      · obtain ⟨data, -, rfl⟩ := List.mem_map.mp ho
        rfl
    | _ => rfl
  unfold Phorklift.unfinished
  rw [List.foldl_append, List.foldl_cons]
  clear hops
  induction since with
  | nil => rfl
  | cons e since ih =>
    have he : unfinishedAfter (unfinishedAfter (before.foldl unfinishedAfter false)
        (.env (.created fd))) e = true := hkeep e (by simp)
    rw [List.foldl_cons, he]
    exact ih fun e' he' => hkeep e' (by simp [he'])
/-- A letter before another one, or between it and the end. -/
theorem mem_or_mem_of_split {ε : Type} {a b : ε} {before since u v : List ε}
    (h : before ++ a :: since = u ++ b :: v) : a ∈ v ∨ b = a ∨ b ∈ since := by
  rcases List.append_eq_append_iff.mp h with ⟨w, -, hw⟩ | ⟨w, -, hw⟩
  · cases w with
    | nil => cases hw; exact .inr (.inl rfl)
    | cons c w => cases hw; exact .inr (.inr (by simp))
  · cases w with
    | nil => cases hw; exact .inr (.inl rfl)
    | cons c w => cases hw; exact .inl (by simp)

theorem Storing.unfailed (h : Storing fd pieces tr) : Unfailed fd tr := by
  obtain ⟨before, since, i, hs, rfl, -, -, hops⟩ := h
  intro u b ret v hu hret
  rcases mem_or_mem_of_split hu with hv | hv | hv
  · exact hv
  · cases hv
  · have ho := mem_fileOps.mpr hv
    rw [hops] at ho
    rcases List.mem_cons.mp ho with ho | ho
    · cases ho
      exact absurd rfl hret
    · obtain ⟨data, -, ho⟩ := List.mem_map.mp ho
      cases ho
      exact absurd rfl hret

theorem Unfailed.append (h : Unfailed fd tr) {es : List (Event FileOp)}
    (hes : ∀ b ret, Event.env (.wrote (some fd) b ret) ∈ es → ret = b.size) :
    Unfailed fd (tr ++ es) := by
  intro u b ret v hu hret
  rcases List.append_eq_append_iff.mp hu with ⟨w, -, hw⟩ | ⟨w, hw, hv⟩
  · exact absurd (hes b ret (by rw [hw]; simp)) hret
  · cases w with
    | nil =>
      rw [List.nil_append] at hv
      exact absurd (hes b ret (by rw [← hv]; simp)) hret
    | cons c w =>
      cases hv
      exact List.mem_append_left _ (h u b ret w hw hret)

theorem unfailed_created (fd : Nat) (tr : List (Event FileOp)) :
    Unfailed fd (tr ++ [.env (.created fd)]) := by
  intro u b ret v hu hret
  rcases mem_or_mem_of_split hu with hv | hv | hv
  · exact hv
  · cases hv
  · cases hv

end Storing

/-- Calls that neither write nor seek. -/
def FileOp.isQuiet : FileOp → Bool
  | .wrote .. => false
  | .sought _ => false
  | _ => true

/-- No item file is being stored under the ctx. -/
def Idle (ctx : Option FileCacheCtx) : Prop :=
  ∀ c, ctx = some c → c.newFilename ≠ none → c.fd = none ∧ c.newLength = 0

theorem idle_none : Idle none := by
  intro c h
  cases h

theorem isQuiet_free {c : FileCacheCtx} : ∀ o ∈ c.free, o.isQuiet = true := by
  intro o ho
  rcases List.mem_append.mp ho with ho | ho
  · obtain ⟨fd, -, rfl⟩ := Option.map_eq_some_iff.mp (Option.mem_toList.mp ho)
    rfl
  · obtain ⟨filename, -, rfl⟩ := Option.map_eq_some_iff.mp (Option.mem_toList.mp ho)
    rfl

section Journal

variable {s : RequestState} {ctx ctx' : Option FileCacheCtx} {tr : List (Event FileOp)}

/-- An idle ctx asks nothing of the trace. -/
theorem journal_of_idle (hp : Each publishedAfter tr) (hs : Each settledAfter tr)
    (hi : Idle ctx) : Journal s ctx tr where
  published := hp
  settled := hs
  storing := by
    intro c fd hc hf hfd
    rw [(hi c hc hf).1] at hfd
    cases hfd
  unwritten := fun c hc hf _ => (hi c hc hf).2

theorem Journal.own (h : Journal s ctx tr) {e : Event FileOp} (he : e.isOwn = true) :
    Journal s ctx (tr ++ [e]) where
  published := h.published.append_of_forall (by cases e <;> simp_all [publishedAfter, Event.isOwn])
  settled := h.settled.append_of_forall (by cases e <;> simp_all [settledAfter, Event.isOwn])
  storing := by
    intro c fd hc hf hfd
    obtain ⟨pieces, hs, hl⟩ := h.storing c fd hc hf hfd
    exact ⟨pieces, hs.own he, hl⟩
  unwritten := h.unwritten

theorem publishedAfter_quiet {o : FileOp} (h : o.isQuiet = true) (pre : List (Event FileOp)) :
    publishedAfter pre (.env o) := by
  cases o <;> simp_all [publishedAfter, FileOp.isQuiet]

theorem settledAfter_quiet {o : FileOp} (h : o.isQuiet = true) (pre : List (Event FileOp)) :
    settledAfter pre (.env o) := by
  cases o <;> simp_all [settledAfter, FileOp.isQuiet]

theorem journal_of_quiet (hp : Each publishedAfter tr) (hs : Each settledAfter tr)
    {es : List FileOp} (hq : ∀ o ∈ es, o.isQuiet = true) (hi : Idle ctx') :
    Journal s ctx' (tr ++ es.map .env) := by
  refine journal_of_idle (hp.append_of_forall fun e he pre => ?_)
    (hs.append_of_forall fun e he pre => ?_) hi
  · obtain ⟨o, ho, rfl⟩ := List.mem_map.mp he
    exact publishedAfter_quiet (hq o ho) pre
  · obtain ⟨o, ho, rfl⟩ := List.mem_map.mp he
    exact settledAfter_quiet (hq o ho) pre

theorem Journal.quiet (h : Journal s ctx tr) {es : List FileOp}
    (hq : ∀ o ∈ es, o.isQuiet = true) (hi : Idle ctx') : Journal s ctx' (tr ++ es.map .env) :=
  journal_of_quiet h.published h.settled hq hi

/-- An error restarts the response only where no item is being stored. -/
theorem Journal.broken (h : Journal s ctx tr) {code : Int}
    (hclean : cleanAfter tr (.broken code)) :
    Journal .responseHeaders1 ctx (tr ++ [.broken code]) := by
  have hu : unfinished tr = false := hclean
  have hfd : ∀ c, ctx = some c → c.newFilename ≠ none → c.fd = none := by
    intro c hc hf
    cases hfd : c.fd with
    | none => rfl
    | some fd =>
      obtain ⟨pieces, hs, -⟩ := h.storing c fd hc hf hfd
      rw [hs.unfinished] at hu
      cases hu
  refine journal_of_idle (h.published.append_of_forall ?_) (h.settled.append_of_forall ?_) ?_
  · simp [publishedAfter]
  · simp [settledAfter]
  · exact fun c hc hf => ⟨hfd c hc hf, h.unwritten c hc hf (.inl (hfd c hc hf))⟩

theorem Journal.next (h : Journal s ctx tr) : Journal s.next ctx tr where
  published := h.published
  settled := h.settled
  storing := h.storing
  unwritten := by
    intro c hc hf hs
    refine h.unwritten c hc hf (hs.imp_right fun hle => ?_)
    by_cases hd : s = .done
    · subst hd
      exact hle
    · rw [RequestState.index_next hd] at hle
      omega

end Journal

/-- What a filter of the module does in state `s` of the request: the ctx before and after it, and
its calls. -/
inductive ItemStep (s : RequestState) :
    Option FileCacheCtx → Option FileCacheCtx → List FileOp → Prop
  | keep (ctx) : ItemStep s ctx ctx []
  | quiet {ctx ctx' es} : Idle ctx' → (∀ o ∈ es, o.isQuiet = true) → ItemStep s ctx ctx' es
  | overran {ctx ctx' es} : .overran ∈ es → ItemStep s ctx ctx' es
  | created {c i hs fd ret} : s = .responseHeaders2 → c.newFilename ≠ none →
      i.headerNum = hs.length → 0 ≤ ret →
      ItemStep s (some c) (some { c with fd := some fd })
        [.created fd, .wrote (some fd) (.item i hs) ret]
  | refused {c i hs fd ret es} : (∀ o ∈ es, o.isQuiet = true) →
      ItemStep s (some c) none ([.created fd, .wrote (some fd) (.item i hs) ret] ++ es)
  | piece {c fd data} : s = .responseBody → c.newFilename ≠ none → c.fd = some fd →
      ItemStep s (some c) (some { c with newLength := c.newLength + data.length })
        [.wrote (some fd) (.piece data false) data.length]
  | failed {c data ret es} : c.newFilename ≠ none → (∀ o ∈ es, o.isQuiet = true) →
      ItemStep s (some c) none (.wrote c.fd (.piece data false) ret :: es)
  | torn {c ctx' data ret es} : ret ≠ (data.length : Int) →
      ItemStep s (some c) ctx' (.wrote c.fd (.piece data true) ret :: es)
  | finished {c c' fd data ret} : c.newFilename ≠ none → c.fd = some fd → c'.newFilename = none →
      ItemStep s (some c) (some c') [.wrote (some fd) (.piece data true) data.length,
        .sought (some fd), .wrote (some fd) (.length (c.newLength + data.length)) ret]

/-- Created and then written whole. -/
theorem storing_created {fd : Nat} {i : FileCacheItem} {hs : List Header}
    (tr : List (Event FileOp)) (hn : i.headerNum = hs.length) :
    Storing fd [] (tr ++ [.env (.created fd),
      .env (.wrote (some fd) (.item i hs) (Buffer.item i hs).size)]) :=
  ⟨tr, [.env (.wrote (some fd) (.item i hs) (Buffer.item i hs).size)], i, hs, rfl, by simp, hn,
    rfl⟩

theorem settled_created {fd : Nat} {b : Buffer} {ret : Int} {tr : List (Event FileOp)}
    (h : Each settledAfter tr) :
    Each settledAfter (tr ++ [.env (.created fd), .env (.wrote (some fd) b ret)]) := by
  rw [List.append_cons, each_snoc, each_snoc]
  exact ⟨⟨h, trivial⟩, unfailed_created fd tr⟩

/-- A filter of the module keeps the journal, as long as its calls are clean. -/
theorem Journal.step {s : RequestState} {ctx ctx' : Option FileCacheCtx} {es : List FileOp}
    {tr : List (Event FileOp)} (h : Journal s ctx tr) (hstep : ItemStep s ctx ctx' es)
    (hclean : Each cleanAfter (tr ++ es.map .env)) : Journal s ctx' (tr ++ es.map .env) := by
  have hallowed : ∀ o ∈ es, ∃ pre, cleanAfter pre (.env o) := by
    intro o ho
    obtain ⟨u, v, hv⟩ := List.append_of_mem ho
    exact ⟨_, hclean (tr ++ u.map .env) (.env o) (v.map .env) (by simp [hv])⟩
  cases hstep with
  | keep => simpa using h
  | quiet hi hq => exact h.quiet hq hi
  | overran hmem =>
    obtain ⟨_, hno⟩ := hallowed _ hmem
    exact hno.elim
  | @created c i hs fd ret hst hname hn hret =>
    obtain ⟨_, hw⟩ := hallowed (.wrote (some fd) (.item i hs) ret) (by simp)
    have hw : ret = (Buffer.item i hs).size := by
      rcases hw with hw | hw
      · omega
      · exact hw
    subst hw
    have hempty : c.newLength = 0 := h.unwritten c rfl hname (.inr (by rw [hst]))
    refine ⟨?_, ?_, ?_, ?_⟩
    · exact h.published.append_of_forall (by simp [publishedAfter])
    · exact settled_created h.settled
    · intro c' fd' hc _ hfd
      cases hc
      cases hfd
      exact ⟨[], storing_created tr hn, hempty⟩
    · intro c' hc _ _
      cases hc
      exact hempty
  | @refused c i hs fd ret es hq =>
    rw [List.map_append, ← List.append_assoc]
    refine journal_of_quiet ?_ ?_ hq idle_none
    · exact h.published.append_of_forall (by simp [publishedAfter])
    · exact settled_created h.settled
  | @piece c fd data hst hname hfd =>
    obtain ⟨pieces, hs, hl⟩ := h.storing c fd rfl hname hfd
    refine ⟨?_, ?_, ?_, ?_⟩
    · exact h.published.append_of_forall (by simp [publishedAfter])
    · exact each_snoc.mpr ⟨h.settled, hs.unfailed⟩
    · intro c' fd' hc _ hfd'
      cases hc
      cases hfd.symm.trans hfd'
      exact ⟨pieces ++ [data], hs.piece data, by simp [hl]⟩
    · intro c' hc _ hor
      cases hc
      rcases hor with hnone | hle
      · rw [hfd] at hnone
        cases hnone
      · rw [hst] at hle
        exact absurd hle (by decide)
  | @failed c data ret es hname hq =>
    rw [List.map_cons, List.append_cons]
    refine journal_of_quiet ?_ ?_ hq idle_none
    · exact h.published.append_of_forall (by simp [publishedAfter])
    · refine each_snoc.mpr ⟨h.settled, ?_⟩
      cases hfd : c.fd with
      | none => trivial
      | some fd =>
        obtain ⟨pieces, hs, -⟩ := h.storing c fd rfl hname hfd
        exact hs.unfailed
  | @torn c _ data ret es hret =>
    obtain ⟨_, hw⟩ := hallowed (.wrote c.fd (.piece data true) ret) (by simp)
    exact absurd hw hret
  | @finished c c' fd data ret hname hfd hdone =>
    obtain ⟨pieces, hs, hl⟩ := h.storing c fd rfl hname hfd
    let last : Event FileOp := .env (.wrote (some fd) (.piece data true) data.length)
    have hlast : Unfailed fd (tr ++ [last]) := by
      refine hs.unfailed.append fun b ret hmem => ?_
      simp only [last, List.mem_singleton, Event.env.injEq, FileOp.wrote.injEq] at hmem
      obtain ⟨-, rfl, rfl⟩ := hmem
      rfl
    have hsought : Unfailed fd (tr ++ [last] ++ [.env (.sought (some fd))]) :=
      hlast.append (by simp)
    have hcomplete : Complete fd (c.newLength + data.length)
        (tr ++ [last] ++ [.env (.sought (some fd))]) :=
      ⟨tr, pieces, data, hs, by simp [last], by simp [hl]⟩
    have hsplit : tr ++ List.map Event.env [.wrote (some fd) (.piece data true) data.length,
        .sought (some fd), .wrote (some fd) (.length (c.newLength + data.length)) ret] =
        tr ++ [last] ++ [.env (.sought (some fd))] ++
          [.env (.wrote (some fd) (.length (c.newLength + data.length)) ret)] := by
      simp [last]
    rw [hsplit]
    refine journal_of_idle ?_ ?_ ?_
    · refine each_snoc.mpr ⟨?_, ⟨fd, rfl, hcomplete⟩⟩
      exact each_snoc.mpr ⟨each_snoc.mpr ⟨h.published, trivial⟩, trivial⟩
    · refine each_snoc.mpr ⟨?_, hsought⟩
      exact each_snoc.mpr ⟨each_snoc.mpr ⟨h.settled, hs.unfailed⟩, hlast⟩
    · intro c'' hc hf
      cases hc
      exact absurd hdone hf

section Filters

variable {fs : FileSys E} {conf : FileCacheConf} {r : Request} {w : CacheWorld E}
  {s : RequestState}

theorem fileCacheHit_itemStep (fs : FileSys E) (filename : Bytes) (fd : Nat) (r : Request) (e : E)
    (ctx : Option FileCacheCtx) : ItemStep s ctx (fileCacheHit fs filename fd r e).env.ctx
      (fileCacheHit fs filename fd r e).emit := by
  have hopen : Idle (some ⟨some fd, none, 0⟩) := by
    intro c hc hf
    cases hc
    exact absurd rfl hf
  have hexpired : Idle (some ⟨none, some filename, 0⟩) := by
    intro c hc _
    cases hc
    exact ⟨rfl, rfl⟩
  unfold fileCacheHit
  dsimp only
  split
  next => exact .quiet hopen (by simp [answer, FileOp.isQuiet])
  next =>
    split
    next => exact .quiet idle_none (by simp [answer, FileCacheCtx.free, FileOp.isQuiet])
    next =>
      split
      next => exact .quiet hexpired (by simp [answer, FileOp.isQuiet])
      next =>
        split
        next => exact .quiet hopen (by simp [answer, FileOp.isQuiet])
        next => exact .quiet hopen (by simp [FileOp.isQuiet])

theorem processHeaders_itemStep (fs : FileSys E) (conf : FileCacheConf) (r : Request)
    (w : CacheWorld E) : ItemStep s w.ctx (phlFileCacheFilterProcessHeaders fs conf r w).env.ctx
      (phlFileCacheFilterProcessHeaders fs conf r w).emit := by
  have hmiss : ∀ filename, Idle (some ⟨none, some filename, 0⟩) := by
    intro filename c hc _
    cases hc
    exact ⟨rfl, rfl⟩
  unfold phlFileCacheFilterProcessHeaders
  split
  next => exact .keep _
  next =>
    split
    next => exact .keep _
    next =>
      dsimp only
      split
      next => exact .keep _
      next =>
        split
        next => exact fileCacheHit_itemStep ..
        next =>
          split
          next =>
            split
            next => exact fileCacheHit_itemStep ..
            next => exact .quiet (hmiss _) (by simp [answer])
          next => exact .quiet (hmiss _) (by simp [answer])

theorem abortAnswer_itemStep (fs : FileSys E) (r : Request) (ctx : Option FileCacheCtx)
    (c : FileCacheCtx) (e : E) {es : List FileOp} (hes : ∀ o ∈ es, o.isQuiet = true) :
    ItemStep s ctx (abortAnswer fs r c e es).env.ctx (abortAnswer fs r c e es).emit := by
  refine .quiet idle_none fun o ho => ?_
  rcases List.mem_append.mp ho with ho | ho
  · exact hes o ho
  · exact isQuiet_free o ho

theorem createItem_itemStep (fs : FileSys E) (conf : FileCacheConf) (r : Request)
    {c : FileCacheCtx} (hname : c.newFilename ≠ none) (filename : Bytes) (expireAt : Int) (e : E) :
    ItemStep .responseHeaders2 (some c)
      (fileCacheCreateItem fs conf r c filename expireAt e []).env.ctx
      (fileCacheCreateItem fs conf r c filename expireAt e []).emit := by
  unfold fileCacheCreateItem
  dsimp only
  split
  next => exact abortAnswer_itemStep fs r _ _ _ (by simp)
  next fd _ =>
    split
    next => exact .refused isQuiet_free
    next hret => exact .created rfl hname rfl (by omega)

theorem createItem_overran (fs : FileSys E) (conf : FileCacheConf) (r : Request) (c : FileCacheCtx)
    (filename : Bytes) (expireAt : Int) (e : E) :
    .overran ∈ (fileCacheCreateItem fs conf r c filename expireAt e [.overran]).emit := by
  unfold fileCacheCreateItem
  dsimp only
  split
  next => simp [abortAnswer, answer]
  next => split <;> simp [abortAnswer, answer]

theorem responseHeaders_itemStep (fs : FileSys E) (conf : FileCacheConf) (r : Request)
    (w : CacheWorld E) : ItemStep .responseHeaders2 w.ctx
      (phlFileCacheFilterResponseHeaders fs conf r w).env.ctx
      (phlFileCacheFilterResponseHeaders fs conf r w).emit := by
  unfold phlFileCacheFilterResponseHeaders
  split
  next => exact .keep _
  next c hctx =>
    split
    next => exact .keep _
    next filename hname =>
      dsimp only
      split
      next => exact abortAnswer_itemStep fs r _ _ _ (by simp)
      next =>
        by_cases hover : 100 < r.resp.headers.length ∧ (fileCacheExpireAfter fs
            (fs.now w.outside) (r.resp.headers.take 101) (-1)).isSome
        · rw [if_pos hover]
          split
          next => exact abortAnswer_itemStep fs r _ _ _ (by simp [FileOp.isQuiet])
          next n _ =>
            by_cases hn : (if n = -1 then (conf.defaultExpire : Int) else n) ≤ 0
            · rw [if_pos hn]
              exact abortAnswer_itemStep fs r _ _ _ (by simp [FileOp.isQuiet])
            · rw [if_neg hn]
              exact .overran (createItem_overran ..)
        · rw [if_neg hover]
          split
          next => exact abortAnswer_itemStep fs r _ _ _ (by simp)
          next n _ =>
            by_cases hn : (if n = -1 then (conf.defaultExpire : Int) else n) ≤ 0
            · rw [if_pos hn]
              exact abortAnswer_itemStep fs r _ _ _ (by simp)
            · rw [if_neg hn, hctx]
              exact createItem_itemStep fs conf r (by simp [hname]) _ _ _

theorem writeTo_full {fd : Option Nat} {data : Bytes} {b : Buffer} {e : E}
    (h : (fs.writeTo fd b e).1 = data.length) : ∃ n, fd = some n := by
  cases fd with
  | none =>
    have h1 : (-1 : Int) = data.length := h
    omega
  | some n => exact ⟨n, rfl⟩

theorem responseBody_itemStep (fs : FileSys E) (r : Request) (data : Bytes) (len : Nat)
    (isLast : Bool) (w : CacheWorld E) : ItemStep .responseBody w.ctx
      (phlFileCacheFilterResponseBody fs r data len isLast w).env.ctx
      (phlFileCacheFilterResponseBody fs r data len isLast w).emit := by
  unfold phlFileCacheFilterResponseBody
  split
  next => exact .keep _
  next c hctx =>
    split
    next => exact .keep _
    next hname =>
      dsimp only
      rw [hctx]
      by_cases hret : (fs.writeTo c.fd (.piece data isLast) w.outside).1 = data.length
      · obtain ⟨fd, hfd⟩ := writeTo_full hret
        rw [if_neg (not_not.mpr hret), if_neg (not_not.mpr hret), hret, hfd]
        cases isLast with
        | true => exact .finished hname hfd rfl
        | false => exact .piece rfl hname hfd
      · rw [if_pos hret, if_pos hret]
        cases isLast with
        | true => exact .torn hret
        | false => exact .failed hname isQuiet_free

end Filters

theorem CacheInv.step {s : RequestState} {x x' : CacheWorld E} {es : List FileOp}
    {tr : List (Event FileOp)} (h : CacheInv s x tr) (hstep : ItemStep s x.ctx x'.ctx es) :
    CacheInv s x' (tr ++ es.map .env) :=
  fun hclean => (h (each_append.mp hclean).1).step hstep hclean

theorem Foreign.itemStep {s : RequestState} {w w' : CacheWorld E} {es : List FileOp}
    (h : Foreign w w' es) : ItemStep s w.ctx w'.ctx es := by
  obtain ⟨hctx, rfl⟩ := h
  rw [hctx]
  exact .keep _

theorem cacheInv_call {fs : FileSys E} {conf : PathId → FileCacheConf}
    {env : Env (CacheWorld E) FileOp} (hc : Caching fs conf env) {p : PathId} {s : RequestState}
    {x x' : CacheWorld E} {tr tr' : List (Event FileOp)}
    (hcall : Call env p s (x, tr) (x', tr')) (hi : CacheInv s x tr) : CacheInv s x' tr' := by
  have hctx : ∀ y : CacheWorld E, y.ctx = x.ctx → CacheInv s y tr := by
    intro y hy hclean
    rw [hy]
    exact hi hclean
  cases hcall with
  | own e he => exact fun hclean => (hi (each_append.mp hclean).1).own he
  | filter k f r hf hr hs =>
    refine hi.step ?_
    rcases hc.filters p k f hf with hforeign | ⟨rfl, rfl⟩ | ⟨rfl, rfl⟩
    · exact (hforeign r x).itemStep
    · exact processHeaders_itemStep fs (conf p) r x
    · rw [hs]
      exact responseHeaders_itemStep fs (conf p) r x
  | content c k f r hp hf => exact hi.step (hc.content p c k f hp hf r x).itemStep
  | source c f r len hp hf => exact hi.step (hc.source p c f hp hf r len x).itemStep
  | bodyFilter m r data len isLast hm hr hs =>
    refine hi.step ?_
    rcases hc.bodyFilters p m hm with hforeign | rfl
    · exact (hforeign r data len isLast x).itemStep
    · rw [hs]
      exact responseBody_itemStep fs r data len isLast x
  | makeSpace n => exact hctx _ (hc.makeSpace n x)
  | readFd fd len => exact hctx _ (hc.readFd fd len x)
  | dynamicGet q r => exact hi.step (hc.dynamicGet q r x).itemStep
  | ctxFree r =>
    obtain ⟨hnone, hops⟩ := hc.moduleCtxFree r x
    refine hi.step (.quiet ?_ ?_)
    · rw [hnone]
      exact idle_none
    · rw [hops]
      cases x.ctx with
      | none => simp
      | some c => exact isQuiet_free

/-- A request that has not been to the module. -/
def CacheInit (env : Env (CacheWorld E) FileOp) (w : World (CacheWorld E) FileOp) : Prop :=
  Init env w ∧ w.env.ctx = none

/-- An empty cache directory on which every call succeeds, but writes of a last piece end after
`most` bytes. -/
def roomyFileSys (most : Nat) : FileSys Unit where
  now := fun _ => 0
  hasLastDir := fun _ => false
  openRead := fun _ _ e => (.error .noent, e)
  openCreate := fun _ e => (.ok 7, e)
  mkdirat := fun _ e => (none, e)
  renameat := fun _ e => (none, e)
  unlinkat := fun _ e => e
  close := fun _ e => e
  seek := fun _ e => e
  write := fun _ b e => match b with
    | .piece data true => (min data.length most, e)
    | b => (b.size, e)
  readItem := fun _ e => ((-1, ⟨0, 0, 0, 0, 0⟩), e)
  readHeaders := fun _ _ e => (none, e)
  httpDateParse := fun _ => 0
  vhash128 := fun _ => (0, 0)

def minuteConf : FileCacheConf := ⟨some [], none, 60, 0⟩

/-- A Path that caches a body of five bytes: three of them, and then `rest`. -/
def cachedPath (most : Nat) (rest : Except Failure Bytes) :
    ConfPath (CacheWorld Unit) FileOp where
  reqBodyMax := 0
  reqBodySync := true
  filters := fun
    | .processHeaders => [phlFileCacheFilterProcessHeaders (roomyFileSys most) minuteConf]
    | .processBody => []
    | .responseHeaders => [phlFileCacheFilterResponseHeaders (roomyFileSys most) minuteConf]
  bodyFilters := [phlFileCacheFilterResponseBody (roomyFileSys most)]
  content := some {
    processHeaders := none
    processBody := none
    responseHeaders := fun r e =>
      ⟨phlOk, r.req, { r.resp with statusCode := 200, contentLength := 5 }, none, e, []⟩
    responseBody := some fun r _ e =>
      ⟨if r.resp.contentGeneratedLength = 0 then .ok (bytes "abc") else rest, false, e, []⟩ }

def cachedEnv (most : Nat) (rest : Except Failure Bytes) : Env (CacheWorld Unit) FileOp :=
  { Env.single (cachedPath most rest) with
    moduleCtxFree := fun _ e => (⟨none, ()⟩, (e.ctx.map FileCacheCtx.free).getD []) }

theorem caching_cachedEnv (most : Nat) (rest : Except Failure Bytes) :
    Caching (roomyFileSys most) (fun _ => minuteConf) (cachedEnv most rest) where
  filters := by
    intro p k f hf
    cases k with
    | processHeaders => exact .inr (.inl ⟨rfl, List.mem_singleton.mp hf⟩)
    | processBody => cases hf
    | responseHeaders => exact .inr (.inr ⟨rfl, List.mem_singleton.mp hf⟩)
  bodyFilters := fun p m hm => .inr (List.mem_singleton.mp hm)
  content := by
    intro p c k f hp hf r w
    cases hp
    cases k with
    | processHeaders => cases hf
    | processBody => cases hf
    | responseHeaders => cases hf; exact ⟨rfl, rfl⟩
    | responseBody => cases hf
  source := by
    intro p c f hp hf r len w
    cases hp
    cases hf
    exact ⟨rfl, rfl⟩
  makeSpace := fun _ _ => rfl
  readFd := fun _ _ _ => rfl
  dynamicGet := fun _ _ _ => ⟨rfl, rfl⟩
  moduleCtxFree := fun _ _ => ⟨rfl, rfl⟩
  elsewhere := fun _ _ h => by rw [h]

/-- A GET of the cached path, after `n` activations of `phl_request_run`. -/
def cachedGet (most : Nat) (rest : Except Failure Bytes) (n : Nat) :
    Option (World (CacheWorld Unit) FileOp) :=
  runs (cachedEnv most rest) (fun _ => true) n (streamWorld (cachedEnv most rest)
    [(bytes ":path", bytes "/"), (bytes ":method", bytes "GET")] ⟨none, ()⟩)

theorem reachable_cachedGet {most n : Nat} {rest : Except Failure Bytes}
    {w : World (CacheWorld Unit) FileOp} (h : cachedGet most rest n = some w) :
    Reachable (CacheInit (cachedEnv most rest)) (Step (cachedEnv most rest)) w := by
  have hnew : CacheInit (cachedEnv most rest) (newStream (cachedEnv most rest) ⟨none, ()⟩) :=
    ⟨init_new _ _, rfl⟩
  exact (reachable_stream hnew rfl h).mono fun _ _ hs => hs.1

/-- What is logged up to the piece of three bytes. -/
def cachedStart : List (Event FileOp) :=
  [.located 1, .filter .processHeaders 0 0, .content .responseHeaders 1 0, .env (.created 7),
    .env (.wrote (some 7) (.item ⟨phlContentLengthInit, 60, 200, 0, 0⟩ []) 32),
    .filter .responseHeaders 0 0, .headers 200 5 [], .content .responseBody 1 3,
    .source (bytes "abc"), .env (.wrote (some 7) (.piece (bytes "abc") false) 3),
    .body (bytes "abc") false]

end Phorklift
