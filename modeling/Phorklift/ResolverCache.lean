import Phorklift.Transition
import Phorklift.Bytes
import Mathlib.Data.List.Nodup
import Mathlib.Data.List.Perm.Basic
import Mathlib.Data.List.Sort

/-! The resolver's thread: its cache of results, the heap of their expiries, and how old the
answers are that it sends. -/

namespace Phorklift

open Transition

structure ResolverQuery where
  expireAfter : Int
  hostname : Bytes

/-- `struct phl_resolver_result`; the time when `getaddrinfo` returned it and the `expire_after` of
the query that stored it are not in the code. -/
structure ResolverResult (A : Type) where
  hostname : Bytes
  buffer : List A
  expireAt : Int
  resolvedAt : Int
  expireAfter : Int
  deriving DecidableEq

/-- The clock at four places of a round: as `getaddrinfo` returns, as the result is stored, as the
answer is sent and as the expired results are removed. -/
structure ResolverTimes where
  resolved : Int
  stored : Int
  sent : Int
  swept : Int

structure ResolverState (A : Type) where
  cache : List (ResolverResult A)
  expire : List (ResolverResult A)
  /-- the clock when the last round ended -/
  clock : Int
  /-- the answers, each with the time when it was sent; `none` is the error -/
  answers : List (Int × Option (ResolverResult A))
  deriving DecidableEq

def ResolverState.init (A : Type) : ResolverState A := ⟨[], [], 0, []⟩

inductive ResolverAct (A : Type)
  /-- `recvfrom` fails -/
  | recvError
  /-- a query, with what `getaddrinfo` returns for it if it is called -/
  | query (q : ResolverQuery) (times : ResolverTimes) (results : Option (List A))

section Resolver

variable {A : Type} (addrcmp : A → A → Int)

/-- The results of `getaddrinfo`, as many as fit, sorted. -/
def phlResolverHostname (results : Option (List A)) : Option (List A) :=
  results.map fun results => (results.take 1000).insertionSort fun a b => addrcmp a b ≤ 0

/-- The answer, `none` for the error, and the cache and the heap after it. -/
def phlResolverProcess (q : ResolverQuery) (times : ResolverTimes) (results : Option (List A))
    (cache expire : List (ResolverResult A)) :
    Option (ResolverResult A) × List (ResolverResult A) × List (ResolverResult A) :=
  match cache.find? fun result => result.hostname == cstr q.hostname with
  | some result => (some result, cache, expire)
  | none =>
    match phlResolverHostname addrcmp results with
    | none => (none, cache, expire)
    | some buffer =>
      let result := ⟨cstr q.hostname, buffer, times.stored + q.expireAfter, times.resolved,
        q.expireAfter⟩
      (some result, result :: cache, result :: expire)

/-- The result on top of the heap: none expires before it. -/
def wuyHeapMin (expire : List (ResolverResult A)) : Option (ResolverResult A) :=
  expire.find? fun result => expire.all fun other => decide (result.expireAt ≤ other.expireAt)

variable [DecidableEq A]

/-- The loop of `phl_resolver_expire`; every round removes a result. -/
def phlResolverExpire (now : Int) : Nat → List (ResolverResult A) → List (ResolverResult A) →
    List (ResolverResult A) × List (ResolverResult A)
  | 0, cache, expire => (cache, expire)
  | fuel + 1, cache, expire =>
    match wuyHeapMin expire with
    | none => (cache, expire)
    | some result =>
      if now < result.expireAt then (cache, expire)
      else phlResolverExpire now fuel (cache.erase result) (expire.erase result)

/-- One round of `phl_resolver_routine`; time does not go back. -/
def resolverRound (s : ResolverState A) : ResolverAct A → Option (ResolverState A)
  | .recvError => some s
  | .query q times results =>
    if s.clock ≤ times.resolved ∧ times.resolved ≤ times.stored ∧ times.stored ≤ times.sent ∧
        times.sent ≤ times.swept then
      let (result, cache, expire) := phlResolverProcess addrcmp q times results s.cache s.expire
      let (cache, expire) := phlResolverExpire times.swept expire.length cache expire
      some ⟨cache, expire, times.swept, s.answers ++ [(times.sent, result)]⟩
    else none

end Resolver

section Fresh

variable {A : Type}

/-- An answer is an error, or less old than its query allowed. -/
def FreshAnswer : Int × Option (ResolverResult A) → Prop
  | (_, none) => True
  | (sent, some result) => sent < result.resolvedAt + result.expireAfter

def AnswersFresh (s : ResolverState A) : Prop := ∀ answer ∈ s.answers, FreshAnswer answer

/-- What is cached for the hostname has not expired when the answer is sent; where nothing is, the
new result has not. -/
def AnswerInTime (s : ResolverState A) : ResolverAct A → Prop
  | .recvError => True
  | .query q times results =>
    (∀ result ∈ s.cache, result.hostname = cstr q.hostname →
      times.sent < result.resolvedAt + result.expireAfter) ∧
    ((∀ result ∈ s.cache, result.hostname ≠ cstr q.hostname) → results.isSome = true →
      times.sent < times.resolved + q.expireAfter)

/-- The cache and the heap hold the same results, one for each hostname, and none that had expired
when the last round ended. -/
structure ResolverInv (s : ResolverState A) : Prop where
  same : s.cache.Perm s.expire
  names : (s.cache.map ResolverResult.hostname).Nodup
  swept : ∀ result ∈ s.cache, s.clock < result.expireAt

variable {addrcmp : A → A → Int} {cache expire : List (ResolverResult A)} {now : Int} {fuel : Nat}
  {s t : ResolverState A} {q : ResolverQuery} {times : ResolverTimes} {results : Option (List A)}
  {act : ResolverAct A} {acts : List (ResolverAct A)}

theorem process_keeps (hsame : cache.Perm expire)
    (hnames : (cache.map ResolverResult.hostname).Nodup) :
    (phlResolverProcess addrcmp q times results cache expire).2.1.Perm
        (phlResolverProcess addrcmp q times results cache expire).2.2 ∧
      ((phlResolverProcess addrcmp q times results cache expire).2.1.map
        ResolverResult.hostname).Nodup := by
  unfold phlResolverProcess
  split
  next => exact ⟨hsame, hnames⟩
  next hmiss =>
    split
    next => exact ⟨hsame, hnames⟩
    next =>
      refine ⟨hsame.cons _, ?_⟩
      rw [List.map_cons, List.nodup_cons]
      refine ⟨fun hmem => ?_, hnames⟩
      obtain ⟨result, hresult, hname⟩ := List.mem_map.mp hmem
      have hnot := List.find?_eq_none.mp hmiss result hresult
      exact hnot (by simpa using hname)

/-- One answer is fresh where it is in time. -/
theorem process_fresh_iff (hnames : (s.cache.map ResolverResult.hostname).Nodup) :
    FreshAnswer (times.sent, (phlResolverProcess addrcmp q times results s.cache s.expire).1) ↔
      AnswerInTime s (.query q times results) := by
  unfold phlResolverProcess AnswerInTime
  split
  next result hhit =>
    have hmem := List.mem_of_find?_eq_some hhit
    have hname : result.hostname = cstr q.hostname := by simpa using List.find?_some hhit
    constructor
    · intro hfresh
      refine ⟨fun other hother hsame => ?_, fun hnone => absurd hname (hnone result hmem)⟩
      have heq := List.inj_on_of_nodup_map hnames hother hmem (hsame.trans hname.symm)
      rw [heq]
      exact hfresh
    · exact fun hall => hall.1 result hmem hname
  next hmiss =>
    have hnone : ∀ result ∈ s.cache, result.hostname ≠ cstr q.hostname := by
      intro result hresult
      have hnot := List.find?_eq_none.mp hmiss result hresult
      simpa using hnot
    have hcached : ∀ result ∈ s.cache, result.hostname = cstr q.hostname →
        times.sent < result.resolvedAt + result.expireAfter :=
      fun result hresult hname => absurd hname (hnone result hresult)
    unfold phlResolverHostname
    cases results with
    | none =>
      refine iff_of_true trivial ⟨hcached, fun _ hsome => ?_⟩
      cases hsome
    | some results =>
      constructor
      · exact fun hfresh => ⟨hcached, fun _ _ => hfresh⟩
      · exact fun hall => hall.2 hnone rfl

theorem exists_first_expiry (hne : expire ≠ []) :
    ∃ result ∈ expire, ∀ other ∈ expire, result.expireAt ≤ other.expireAt := by
  induction expire with
  | nil => exact absurd rfl hne
  | cons first expire ih =>
    by_cases hnil : expire = []
    · refine ⟨first, List.mem_cons_self, fun other hother => ?_⟩
      rw [hnil, List.mem_singleton] at hother
      rw [hother]
    · obtain ⟨result, hmem, hall⟩ := ih hnil
      by_cases hle : first.expireAt ≤ result.expireAt
      · refine ⟨first, List.mem_cons_self, fun other hother => ?_⟩
        rcases List.mem_cons.mp hother with hother | hother
        · rw [hother]
        · have hafter := hall other hother
          omega
      · refine ⟨result, List.mem_cons_of_mem _ hmem, fun other hother => ?_⟩
        rcases List.mem_cons.mp hother with hother | hother
        · rw [hother]
          omega
        · exact hall other hother

theorem heapMin_none (h : wuyHeapMin expire = none) : expire = [] := by
  by_contra hne
  obtain ⟨result, hmem, hall⟩ := exists_first_expiry hne
  have hnot := List.find?_eq_none.mp h result hmem
  exact hnot (List.all_eq_true.mpr fun other hother => decide_eq_true (hall other hother))

theorem heapMin_some {result : ResolverResult A} (h : wuyHeapMin expire = some result) :
    result ∈ expire ∧ ∀ other ∈ expire, result.expireAt ≤ other.expireAt := by
  unfold wuyHeapMin at h
  have hall := List.find?_some h
  rw [List.all_eq_true] at hall
  exact ⟨List.mem_of_find?_eq_some h, fun other hother => of_decide_eq_true (hall other hother)⟩

variable [DecidableEq A]

/-- The loop removes what has expired, from both. -/
theorem resolverExpire_spec (hfuel : expire.length ≤ fuel) (hsame : cache.Perm expire) :
    (phlResolverExpire now fuel cache expire).1.Perm (phlResolverExpire now fuel cache expire).2 ∧
      (phlResolverExpire now fuel cache expire).1.Sublist cache ∧
      ∀ result ∈ (phlResolverExpire now fuel cache expire).2, now < result.expireAt := by
  induction fuel generalizing cache expire with
  | zero =>
    have hnil := List.eq_nil_of_length_eq_zero (Nat.le_zero.mp hfuel)
    rw [hnil] at hsame ⊢
    exact ⟨hsame, List.Sublist.refl _, by simp [phlResolverExpire]⟩
  | succ fuel ih =>
    unfold phlResolverExpire
    split
    next hnone =>
      have hnil := heapMin_none hnone
      exact ⟨hsame, List.Sublist.refl _, by simp [hnil]⟩
    next result hmin =>
      obtain ⟨hmem, hfirst⟩ := heapMin_some hmin
      split
      next hlater =>
        refine ⟨hsame, List.Sublist.refl _, fun other hother => ?_⟩
        have hle := hfirst other hother
        omega
      next =>
        have hlength := List.length_erase_of_mem hmem
        obtain ⟨hperm, hsub, hall⟩ := @ih (cache.erase result) (expire.erase result) (by omega)
          (hsame.erase result)
        exact ⟨hperm, hsub.trans List.erase_sublist, hall⟩

/-- A round keeps the cache and the heap the same, and its answer is fresh where it is in time. -/
theorem resolverRound_keeps (hinv : ResolverInv s) (h : resolverRound addrcmp s act = some t) :
    ResolverInv t ∧ (AnswersFresh t ↔ AnswersFresh s ∧ AnswerInTime s act) := by
  cases act with
  | recvError =>
    cases h
    exact ⟨hinv, (and_iff_left trivial).symm⟩
  | query q times results =>
    have hfresh := @process_fresh_iff A addrcmp s q times results hinv.names
    obtain ⟨hsame, hnames⟩ :=
      @process_keeps A addrcmp s.cache s.expire q times results hinv.same hinv.names
    have hlength : (phlResolverProcess addrcmp q times results s.cache s.expire).2.2.length ≤
        (phlResolverProcess addrcmp q times results s.cache s.expire).2.2.length := Nat.le_refl _
    obtain ⟨hsame', hsub, hswept⟩ := @resolverExpire_spec A _ _ times.swept _ _ hlength hsame
    unfold resolverRound at h
    dsimp only at h
    split at h
    next =>
      cases h
      refine ⟨⟨hsame', ?_, ?_⟩, ?_⟩
      · exact hnames.sublist (hsub.map _)
      · exact fun result hresult => hswept result (hsame'.mem_iff.mp hresult)
      · rw [← hfresh]
        unfold AnswersFresh
        dsimp only
        constructor
        · exact fun hall => ⟨fun answer hmem => hall answer (List.mem_append_left _ hmem),
            hall _ (List.mem_append_right _ List.mem_cons_self)⟩
        · rintro ⟨hall, hlast⟩ answer hmem
          rcases List.mem_append.mp hmem with hmem | hmem
          · exact hall answer hmem
          · rw [List.mem_singleton.mp hmem]
            exact hlast
    next => cases h

/-- In every run the cache and the heap hold the same results, and the answers are all fresh exactly
where each query is answered in time. -/
theorem resolver_answers_fresh_iff (h : runActs (resolverRound addrcmp) acts (.init A) = some s) :
    (s.cache.Perm s.expire ∧ (s.cache.map ResolverResult.hostname).Nodup) ∧
      (AnswersFresh s ↔ ActsMeet (resolverRound addrcmp) AnswerInTime acts (.init A)) := by
  have hkeep : ∀ s act t, ResolverInv s → resolverRound addrcmp s act = some t →
      ResolverInv t ∧ (AnswersFresh t ↔ AnswersFresh s ∧ AnswerInTime s act) :=
    fun s act t hinv hround => resolverRound_keeps hinv hround
  have hinit : ResolverInv (ResolverState.init A) :=
    ⟨List.Perm.refl _, List.nodup_nil, by simp [ResolverState.init]⟩
  have hfresh : AnswersFresh (ResolverState.init A) := by
    simp [AnswersFresh, ResolverState.init]
  have hreach : Reachable (Eq (ResolverState.init A))
      (ActStep (resolverRound addrcmp) fun _ _ => True) s :=
    (Reachable.start rfl).runActs (actsMeet_of_forall acts _ fun _ _ => trivial) h
  have hinv : ResolverInv s := by
    refine hreach.invariant ?_ ?_
    · rintro _ rfl
      exact hinit
    · rintro s t hs ⟨act, -, hround⟩
      exact (hkeep s act t hs hround).1
  refine ⟨⟨hinv.same, hinv.names⟩, ?_⟩
  rw [actsMeet_iff_of_step hkeep hinit h]
  exact and_iff_right hfresh

end Fresh

/-- Two queries for a hostname with an `expire_after` of a minute, the second at a time. -/
def asksTwice (second : Int) : List (ResolverAct Nat) :=
  [.query ⟨60, bytes "example.com"⟩ ⟨10, 10, 10, 10⟩ (some [3, 1]),
    .query ⟨60, bytes "example.com"⟩ ⟨second, second, second, second⟩ (some [7])]

/-- What is cached for the first. -/
def cachedFirst : ResolverResult Nat := ⟨bytes "example.com", [1, 3], 70, 10, 60⟩

theorem resolver_answers_fresh_in_time :
    ActsMeet (resolverRound fun a b : Nat => (a : Int) - b) AnswerInTime (asksTwice 30)
      (.init Nat) := by
  have hrun : runActs (resolverRound fun a b : Nat => (a : Int) - b) (asksTwice 30) (.init Nat) =
      some ⟨[cachedFirst], [cachedFirst], 30, [(10, some cachedFirst), (30, some cachedFirst)]⟩ := by
    decide +kernel
  refine (resolver_answers_fresh_iff hrun).2.mp ?_
  simp [AnswersFresh, FreshAnswer, cachedFirst]

/-- A query after a minute and more is answered with what was cached for the first: what has expired
is removed after the answer only. -/
theorem resolver_answers_stale :
    ∃ s, runActs (resolverRound fun a b : Nat => (a : Int) - b) (asksTwice 1000) (.init Nat) =
        some s ∧
      (1000, some cachedFirst) ∈ s.answers ∧ s.cache = [] ∧ ¬AnswersFresh s := by
  have hmem : ((1000 : Int), some cachedFirst) ∈
      [((10 : Int), some cachedFirst), (1000, some cachedFirst)] := by decide
  refine ⟨⟨[], [], 1000, [(10, some cachedFirst), (1000, some cachedFirst)]⟩, by decide +kernel,
    hmem, rfl, fun hfresh => ?_⟩
  have hstale := hfresh _ hmem
  simp [FreshAnswer, cachedFirst] at hstale

end Phorklift
