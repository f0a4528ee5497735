import Phorklift.Exchange
import Phorklift.Resolve
import Phorklift.ResolverCache

/-! The upstreams of the workers and the resolver's thread, with the datagrams between them. -/

namespace Phorklift.ResolverNet

open Transition Exchange

variable {A : Type}

/-- An upstream, with the names of its hostnames and its `resolve_interval`. -/
structure AskingUpstream (A : Type) where
  names : List Bytes
  interval : Int
  resolve : ResolveUpstream A

/-- The query for the hostname in turn, as `recvfrom` takes it: of a name it takes 4095 bytes. -/
def AskingUpstream.query (u : AskingUpstream A) : Option ResolverQuery :=
  match u.resolve.resolveIndex with
  | 0 => none
  | k + 1 => u.names[k]?.map fun name => ⟨u.interval, name.take 4095⟩

abbrev Reply (A : Type) := Option (ResolverResult A)

inductive NetEvent (A : Type)
  /-- `getaddrinfo` has returned these addresses -/
  | resolved (hostname : Bytes) (results : List A) (time : Int)
  /-- an upstream merges an answer into the list of a hostname -/
  | took (i k : Nat) (reply : Reply A)

def NetEvent.isTook (i : Nat) : NetEvent A → Bool
  | .took j .. => i = j
  | _ => false

structure Net (A : Type) where
  upstreams : List (AskingUpstream A)
  resolver : ResolverState A
  post : Post Nat ResolverQuery (Reply A)
  trace : List (NetEvent A)

inductive NetAct (A : Type)
  /-- `phl_upstream_resolve_timer_handler`, with whether a query that it writes is sent -/
  | timer (i : Nat) (sent : Bool)
  /-- a round of `phl_resolver_routine`, with whether the answer is sent -/
  | serve (times : ResolverTimes) (results : Option (List A)) (sent : Bool)
  /-- `phl_upstream_resolve_on_read` -/
  | read (i : Nat) (closes : Nat → List Nat) (sent : Bool)
  /-- a request gets a connection, or is closed -/
  | get (i r : Nat) (linked : Bool)
  | close (i r : Nat)

def sendQuery (sent : Bool) (i : Nat) (u : AskingUpstream A)
    (p : Post Nat ResolverQuery (Reply A)) : Post Nat ResolverQuery (Reply A) :=
  match u.query with
  | none => p
  | some q => if sent then p.ask i q else p

/-- What `getaddrinfo` is called for and returns. -/
def resolvedEvents (q : ResolverQuery) (times : ResolverTimes) (results : Option (List A))
    (cache : List (ResolverResult A)) : List (NetEvent A) :=
  match cache.find? fun result => result.hostname == cstr q.hostname with
  | some _ => []
  | none => (results.map fun found => .resolved (cstr q.hostname) found times.resolved).toList

def answerOf : Reply A → ResolveAnswer A
  | none => .error
  | some result => .addresses result.buffer

def Net.setUpstream (w : Net A) (i : Nat) (u : AskingUpstream A) : Net A :=
  { w with upstreams := w.upstreams.set i u }

section Step

variable [DecidableEq A] (addrcmp : A → A → Int)

def netStep (w : Net A) : NetAct A → Option (Net A)
  | .timer i sent =>
    w.upstreams[i]?.bind fun u => (resolveStep addrcmp u.resolve .timer).map fun resolve =>
      if u.resolve.resolveIndex ≠ 0 then w
      else
        let v := { u with resolve := resolve }
        { w.setUpstream i v with post := sendQuery sent i v w.post }
  | .serve times results sent =>
    match w.post.questions with
    | [] => none
    | (i, q) :: rest =>
      let reply := (phlResolverProcess addrcmp q times results w.resolver.cache
        w.resolver.expire).1
      (resolverRound addrcmp w.resolver (.query q times results)).map fun resolver =>
        { w with
          resolver := resolver
          post := ⟨rest, w.post.answers ++ if sent then [(i, q, reply)] else []⟩
          trace := w.trace ++ resolvedEvents q times results w.resolver.cache }
  | .read i closes sent =>
    w.upstreams[i]?.bind fun u => (w.post.receive i).bind fun received =>
      (resolveStep addrcmp u.resolve (.read (answerOf received.1.2) closes)).map fun resolve =>
        let v := { u with resolve := resolve }
        { w.setUpstream i v with
          post := sendQuery sent i v received.2
          trace := w.trace ++ [.took i (u.resolve.resolveIndex - 1) received.1.2] }
  | .get i r linked =>
    w.upstreams[i]?.bind fun u => (resolveStep addrcmp u.resolve (.get r linked)).map fun resolve =>
      w.setUpstream i { u with resolve := resolve }
  | .close i r =>
    w.upstreams[i]?.bind fun u => (resolveStep addrcmp u.resolve (.close r)).map fun resolve =>
      w.setUpstream i { u with resolve := resolve }

end Step

/-- Before the first timer: nothing is asked and nothing is cached. -/
structure NetStart (w : Net A) : Prop where
  resolver : w.resolver = .init A
  post : w.post = .empty
  trace : w.trace = []

/-- The query that an upstream waits for the answer of. -/
def Net.waiting (w : Net A) (i : Nat) : Option ResolverQuery :=
  w.upstreams[i]?.bind AskingUpstream.query

/-- A result has been found by `getaddrinfo` for its hostname, and sorted. -/
def Genuine (addrcmp : A → A → Int) (trace : List (NetEvent A)) (result : ResolverResult A) :
    Prop :=
  ∃ found, .resolved result.hostname found result.resolvedAt ∈ trace ∧
    phlResolverHostname addrcmp (some found) = some result.buffer

section Genuine

variable {addrcmp : A → A → Int} {trace : List (NetEvent A)} {result : ResolverResult A}
  {cache expire : List (ResolverResult A)} {q : ResolverQuery} {times : ResolverTimes}
  {results : Option (List A)}

theorem Genuine.append (h : Genuine addrcmp trace result) (events : List (NetEvent A)) :
    Genuine addrcmp (trace ++ events) result := by
  obtain ⟨found, hfound, hbuffer⟩ := h
  exact ⟨found, List.mem_append_left _ hfound, hbuffer⟩

/-- A query is answered with what the cache has for its hostname, or with what `getaddrinfo` has
just returned, which is cached. -/
theorem process_genuine (hcache : ∀ result ∈ cache, Genuine addrcmp trace result) :
    (∀ result, (phlResolverProcess addrcmp q times results cache expire).1 = some result →
      result.hostname = cstr q.hostname ∧
        Genuine addrcmp (trace ++ resolvedEvents q times results cache) result) ∧
    ∀ result ∈ (phlResolverProcess addrcmp q times results cache expire).2.1,
      Genuine addrcmp (trace ++ resolvedEvents q times results cache) result := by
  unfold phlResolverProcess
  cases hfind : cache.find? fun result => result.hostname == cstr q.hostname with
  | some cached =>
    have hmem := List.mem_of_find?_eq_some hfind
    have hname := List.find?_some hfind
    constructor
    · intro result hresult
      obtain rfl := Option.some.inj hresult
      exact ⟨eq_of_beq hname, (hcache _ hmem).append _⟩
    · exact fun result hresult => (hcache result hresult).append _
  | none =>
    have hevents : resolvedEvents q times results cache =
        (results.map fun found => .resolved (cstr q.hostname) found times.resolved).toList := by
      unfold resolvedEvents
      rw [hfind]
    rw [hevents]
    cases results with
    | none => exact ⟨nofun, fun result hresult => (hcache result hresult).append _⟩
    | some found =>
      have hnew : Genuine addrcmp
          (trace ++ [.resolved (cstr q.hostname) found times.resolved])
          ⟨cstr q.hostname, (found.take 1000).insertionSort fun a b => addrcmp a b ≤ 0,
            times.stored + q.expireAfter, times.resolved, q.expireAfter⟩ :=
        ⟨found, List.mem_append_right _ (List.mem_singleton_self _), rfl⟩
      constructor
      · intro result hresult
        obtain rfl := Option.some.inj hresult
        exact ⟨rfl, hnew⟩
      · intro result hresult
        rcases List.mem_cons.mp hresult with rfl | hold
        · exact hnew
        · exact (hcache result hold).append _

variable [DecidableEq A]

theorem expire_subset {now : Int} {fuel : Nat} :
    ∀ result ∈ (phlResolverExpire now fuel cache expire).1, result ∈ cache := by
  induction fuel generalizing cache expire with
  | zero => exact fun result hresult => hresult
  | succ fuel ih =>
    unfold phlResolverExpire
    split
    · exact fun result hresult => hresult
    · split
      · exact fun result hresult => hresult
      · exact fun result hresult => List.mem_of_mem_erase (ih result hresult)

theorem round_cache {s t : ResolverState A}
    (h : resolverRound addrcmp s (.query q times results) = some t) :
    ∀ result ∈ t.cache,
      result ∈ (phlResolverProcess addrcmp q times results s.cache s.expire).2.1 := by
  obtain ⟨-, ht⟩ := Option.ite_none_right_eq_some.mp h
  obtain rfl := Option.some.inj ht
  exact expire_subset

end Genuine

section Waiting

variable {w : Net A} {u v : AskingUpstream A} {i : Nat} {sent : Bool}
  {p : Post Nat ResolverQuery (Reply A)}

theorem waiting_set (hi : w.upstreams[i]? = some u) (v : AskingUpstream A) (j : Nat) :
    (w.setUpstream i v).waiting j = if j = i then v.query else w.waiting j := by
  have hlt : i < w.upstreams.length := (List.getElem?_eq_some_iff.mp hi).1
  unfold Net.waiting Net.setUpstream
  dsimp only
  by_cases hj : j = i
  · subst hj
    rw [if_pos rfl, List.getElem?_set_self hlt]
    rfl
  · rw [if_neg hj, List.getElem?_set_ne (Ne.symm hj)]

/-- A query that is written, and sent or not, leaves its upstream waiting for it. -/
theorem sendQuery_inStep {waiting waiting' : Nat → Option ResolverQuery} (h : p.InStep waiting)
    (hself : p.about i = []) (hwaiting : ∀ j, waiting' j = if j = i then v.query else waiting j)
    (sent : Bool) : (sendQuery sent i v p).InStep waiting' := by
  have hquery : waiting' i = v.query := by rw [hwaiting, if_pos rfl]
  have hsame : ∀ j, j ≠ i → waiting' j = waiting j := by
    intro j hj
    rw [hwaiting, if_neg hj]
  unfold sendQuery
  cases hv : v.query with
  | none => exact h.change (i := i) (fun j hj => ⟨hsame j hj, rfl⟩) (.inl hself)
  | some q =>
    cases sent with
    | false => exact h.change (i := i) (fun j hj => ⟨hsame j hj, rfl⟩) (.inl hself)
    | true =>
      apply h.change (i := i)
      · exact fun j hj => ⟨hsame j hj, Post.about_ask_ne hj p q⟩
      · exact .inr ⟨q, hquery.trans hv, Post.about_ask_self hself q⟩

theorem query_idle (h : u.resolve.resolveIndex = 0) : u.query = none := by
  unfold AskingUpstream.query
  rw [h]

theorem query_turn {q : ResolverQuery} (h : u.query = some q) :
    ∃ k name, u.resolve.resolveIndex = k + 1 ∧ u.names[k]? = some name ∧
      q = ⟨u.interval, name.take 4095⟩ := by
  unfold AskingUpstream.query at h
  cases hk : u.resolve.resolveIndex with
  | zero =>
    rw [hk] at h
    cases h
  | succ k =>
    rw [hk] at h
    obtain ⟨name, hname, hq⟩ := Option.map_eq_some_iff.mp h
    exact ⟨k, name, rfl, hname, hq.symm⟩

end Waiting

/-- Every upstream waits for what its message is about; what is cached or on its way was found for
its hostname; and so was all that has been taken, for the hostname whose list it went to. -/
structure NetInv (addrcmp : A → A → Int) (hosts : List (List Bytes)) (w : Net A) : Prop where
  kept : w.upstreams.map AskingUpstream.names = hosts
  inStep : w.post.InStep w.waiting
  cached : ∀ result ∈ w.resolver.cache, Genuine addrcmp w.trace result
  answers : ∀ i q result, (i, q, some result) ∈ w.post.answers →
    result.hostname = cstr q.hostname ∧ Genuine addrcmp w.trace result
  took : ∀ i k result, .took i k (some result) ∈ w.trace →
    Genuine addrcmp w.trace result ∧
      ∃ own name, hosts[i]? = some own ∧ own[k]? = some name ∧
        result.hostname = cstr (name.take 4095)

section Keeps

variable {addrcmp : A → A → Int} {hosts : List (List Bytes)} {w t : Net A} {u v : AskingUpstream A}
  {i : Nat} {p : Post Nat ResolverQuery (Reply A)}

theorem NetStart.inv (h : NetStart w) (addrcmp : A → A → Int) :
    NetInv addrcmp (w.upstreams.map AskingUpstream.names) w where
  kept := rfl
  inStep := by
    rw [h.post]
    exact Post.inStep_empty _
  cached := by
    rw [h.resolver]
    exact nofun
  answers := by
    rw [h.post]
    exact nofun
  took := by
    rw [h.trace]
    exact nofun

theorem names_set (hi : w.upstreams[i]? = some u) (resolve : ResolveUpstream A) :
    (w.setUpstream i { u with resolve := resolve }).upstreams.map AskingUpstream.names =
      w.upstreams.map AskingUpstream.names := by
  obtain ⟨hlt, rfl⟩ := List.getElem?_eq_some_iff.mp hi
  unfold Net.setUpstream
  dsimp only
  rw [List.map_set]
  apply List.ext_getElem?
  intro j
  by_cases hj : j = i
  · subst hj
    rw [List.getElem?_set_self (by simpa using hlt), List.getElem?_map,
      List.getElem?_eq_getElem hlt]
    rfl
  · rw [List.getElem?_set_ne (Ne.symm hj)]

theorem sendQuery_answers (sent : Bool) (i : Nat) (v : AskingUpstream A)
    (p : Post Nat ResolverQuery (Reply A)) : (sendQuery sent i v p).answers = p.answers := by
  unfold sendQuery
  split
  · rfl
  · split <;> rfl

theorem receive_answers {m : ResolverQuery × Reply A} {p' : Post Nat ResolverQuery (Reply A)}
    (h : p.receive i = some (m, p')) :
    (i, m) ∈ p.answers ∧ ∀ b ∈ p'.answers, b ∈ p.answers := by
  obtain ⟨⟨j, b⟩, hm, heq⟩ := Option.map_eq_some_iff.mp h
  cases heq
  have hfirst := List.find?_some hm
  have hj : j = i := of_decide_eq_true hfirst
  constructor
  · rw [← hj]
    exact List.mem_of_find?_eq_some hm
  · exact fun b hb => List.mem_of_mem_eraseP hb

/-- A request does not change where the resolving stands. -/
theorem request_keeps [DecidableEq A] {resolve : ResolveUpstream A} {act : ResolveAct A}
    (h : resolveStep addrcmp u.resolve act = some resolve)
    (hact : (∃ r linked, act = .get r linked) ∨ ∃ r, act = .close r) :
    resolve.resolveIndex = u.resolve.resolveIndex ∧
      resolve.hostnames = u.resolve.hostnames := by
  rcases hact with ⟨r, linked, rfl⟩ | ⟨r, rfl⟩
  · unfold resolveStep at h
    dsimp only at h
    split at h
    · obtain rfl := Option.some.inj h
      exact ⟨rfl, rfl⟩
    · obtain rfl := Option.some.inj h
      exact ⟨rfl, rfl⟩
  · obtain rfl := Option.some.inj h
    exact ⟨rfl, rfl⟩

theorem query_keeps {resolve : ResolveUpstream A}
    (h : resolve.resolveIndex = u.resolve.resolveIndex) :
    AskingUpstream.query { u with resolve := resolve } = u.query := by
  unfold AskingUpstream.query
  dsimp only
  rw [h]

/-- What a request does leaves all messages as they are. -/
theorem NetInv.request (h : NetInv addrcmp hosts w) (hi : w.upstreams[i]? = some u)
    {resolve : ResolveUpstream A} (hresolve : resolve.resolveIndex = u.resolve.resolveIndex) :
    NetInv addrcmp hosts (w.setUpstream i { u with resolve := resolve }) where
  kept := (names_set hi resolve).trans h.kept
  inStep := by
    have hwaiting : (w.setUpstream i { u with resolve := resolve }).waiting = w.waiting := by
      funext j
      rw [waiting_set hi, query_keeps hresolve]
      by_cases hj : j = i
      · subst hj
        rw [if_pos rfl]
        unfold Net.waiting
        rw [hi]
        rfl
      · rw [if_neg hj]
    rw [hwaiting]
    exact h.inStep
  cached := h.cached
  answers := h.answers
  took := h.took

theorem NetInv.timer (h : NetInv addrcmp hosts w) (hi : w.upstreams[i]? = some u)
    (hidle : u.resolve.resolveIndex = 0) (sent : Bool) (resolve : ResolveUpstream A) :
    NetInv addrcmp hosts { w.setUpstream i { u with resolve := resolve } with
      post := sendQuery sent i { u with resolve := resolve } w.post } where
  kept := (names_set hi resolve).trans h.kept
  inStep := by
    have hnone : w.waiting i = none := by
      unfold Net.waiting
      rw [hi]
      exact query_idle hidle
    have hself : w.post.about i = [] := by
      rcases h.inStep i with hempty | ⟨q, hq, -⟩
      · exact hempty
      · rw [hnone] at hq
        cases hq
    exact sendQuery_inStep h.inStep hself (waiting_set hi _) sent
  cached := h.cached
  answers := by
    rw [sendQuery_answers]
    exact h.answers
  took := h.took

theorem NetInv.read (h : NetInv addrcmp hosts w) (hi : w.upstreams[i]? = some u)
    {m : ResolverQuery × Reply A} {p' : Post Nat ResolverQuery (Reply A)}
    (hreceive : w.post.receive i = some (m, p')) (sent : Bool) (resolve : ResolveUpstream A) :
    NetInv addrcmp hosts { w.setUpstream i { u with resolve := resolve } with
      post := sendQuery sent i { u with resolve := resolve } p'
      trace := w.trace ++ [.took i (u.resolve.resolveIndex - 1) m.2] } where
  kept := (names_set hi resolve).trans h.kept
  inStep := by
    have hself := (h.inStep.received hreceive).2
    have hothers : p'.InStep w.waiting := by
      apply h.inStep.change (i := i)
      · exact fun j hj => ⟨rfl, Post.about_received_ne hreceive hj⟩
      · exact .inl hself
    exact sendQuery_inStep hothers hself (waiting_set hi _) sent
  cached := fun result hresult => (h.cached result hresult).append _
  answers := by
    rw [sendQuery_answers]
    intro j q result hmem
    obtain ⟨hname, hgenuine⟩ := h.answers j q result ((receive_answers hreceive).2 _ hmem)
    exact ⟨hname, hgenuine.append _⟩
  took := by
    intro j k result hmem
    rcases List.mem_append.mp hmem with hold | hnew
    · obtain ⟨hgenuine, hown⟩ := h.took j k result hold
      exact ⟨hgenuine.append _, hown⟩
    · obtain ⟨rfl, rfl, hm⟩ := NetEvent.took.inj (List.mem_singleton.mp hnew)
      have hanswer : (j, m.1, some result) ∈ w.post.answers := by
        rw [hm]
        exact (receive_answers hreceive).1
      obtain ⟨hname, hgenuine⟩ := h.answers j m.1 result hanswer
      refine ⟨hgenuine.append _, ?_⟩
      have hwaiting := (h.inStep.received hreceive).1
      unfold Net.waiting at hwaiting
      rw [hi] at hwaiting
      obtain ⟨k, name, hk, hk', hq⟩ := query_turn hwaiting
      have hown : hosts[j]? = some u.names := by
        rw [← h.kept, List.getElem?_map, hi]
        rfl
      refine ⟨u.names, name, hown, ?_, ?_⟩
      · rw [hk]
        exact hk'
      · rw [hname, hq]

theorem NetInv.serve [DecidableEq A] (h : NetInv addrcmp hosts w) {q : ResolverQuery}
    {rest : List (Nat × ResolverQuery)} (hq : w.post.questions = (i, q) :: rest)
    {times : ResolverTimes} {results : Option (List A)} {resolver : ResolverState A}
    (hround : resolverRound addrcmp w.resolver (.query q times results) = some resolver)
    (sent : Bool) :
    NetInv addrcmp hosts { w with
      resolver := resolver
      post := ⟨rest, w.post.answers ++ if sent then [(i, q, (phlResolverProcess addrcmp q times
        results w.resolver.cache w.resolver.expire).1)] else []⟩
      trace := w.trace ++ resolvedEvents q times results w.resolver.cache } := by
  obtain ⟨hreply, hcache⟩ := @process_genuine _ addrcmp w.trace w.resolver.cache w.resolver.expire q
    times results h.cached
  constructor
  · exact h.kept
  · exact h.inStep.served hq sent _
  · exact fun result hresult => hcache result (round_cache hround result hresult)
  · intro j q' result hmem
    rcases List.mem_append.mp hmem with hold | hnew
    · obtain ⟨hname, hgenuine⟩ := h.answers j q' result hold
      exact ⟨hname, hgenuine.append _⟩
    · cases sent with
      | false => cases hnew
      | true =>
        obtain ⟨rfl, hm⟩ := Prod.mk.inj (List.mem_singleton.mp hnew)
        obtain ⟨rfl, hresult⟩ := Prod.mk.inj hm
        exact hreply result hresult.symm
  · intro j k result hmem
    rcases List.mem_append.mp hmem with hold | hnew
    · obtain ⟨hgenuine, hown⟩ := h.took j k result hold
      exact ⟨hgenuine.append _, hown⟩
    · unfold resolvedEvents at hnew
      split at hnew
      · cases hnew
      · obtain ⟨found, -, hevent⟩ := Option.map_eq_some_iff.mp (Option.mem_toList.mp hnew)
        cases hevent

theorem NetInv.step [DecidableEq A] {a : NetAct A} (h : NetInv addrcmp hosts w)
    (ha : netStep addrcmp w a = some t) : NetInv addrcmp hosts t := by
  cases a with
  | timer i sent =>
    obtain ⟨u, hi, hrest⟩ := Option.bind_eq_some_iff.mp ha
    obtain ⟨resolve, -, rfl⟩ := Option.map_eq_some_iff.mp hrest
    split
    · exact h
    · next hidle => exact h.timer hi (Decidable.not_not.mp hidle) sent resolve
  | serve times results sent =>
    unfold netStep at ha
    cases hq : w.post.questions with
    | nil =>
      simp only [hq] at ha
      cases ha
    | cons question rest =>
      simp only [hq] at ha
      obtain ⟨resolver, hround, rfl⟩ := Option.map_eq_some_iff.mp ha
      exact h.serve hq hround sent
  | read i closes sent =>
    obtain ⟨u, hi, hrest⟩ := Option.bind_eq_some_iff.mp ha
    obtain ⟨⟨m, p'⟩, hreceive, hrest⟩ := Option.bind_eq_some_iff.mp hrest
    obtain ⟨resolve, -, rfl⟩ := Option.map_eq_some_iff.mp hrest
    exact h.read hi hreceive sent resolve
  | get i r linked =>
    obtain ⟨u, hi, hrest⟩ := Option.bind_eq_some_iff.mp ha
    obtain ⟨resolve, hresolve, rfl⟩ := Option.map_eq_some_iff.mp hrest
    exact h.request hi (request_keeps hresolve (.inl ⟨r, linked, rfl⟩)).1
  | close i r =>
    obtain ⟨u, hi, hrest⟩ := Option.bind_eq_some_iff.mp ha
    obtain ⟨resolve, hresolve, rfl⟩ := Option.map_eq_some_iff.mp hrest
    exact h.request hi (request_keeps hresolve (.inr ⟨r, rfl⟩)).1

theorem NetInv.runActs [DecidableEq A] {acts : List (NetAct A)} (h : NetInv addrcmp hosts w)
    (hrun : runActs (netStep addrcmp) acts w = some t) : NetInv addrcmp hosts t := by
  induction acts generalizing w with
  | nil =>
    obtain rfl := Option.some.inj hrun
    exact h
  | cons a acts ih =>
    obtain ⟨v, ha, hrest⟩ := Option.bind_eq_some_iff.mp hrun
    exact ih (h.step ha) hrest

end Keeps

section Round

variable {w : Net A} {u : AskingUpstream A} {i : Nat}

/-- The state of a round of an upstream, which only an answer changes. -/
def Net.round (w : Net A) (i : Nat) : Option (Nat × List (UpstreamHostname A)) :=
  w.upstreams[i]?.map fun u => (u.resolve.resolveIndex, u.resolve.hostnames)

/-- An upstream that is in a round, with no message on its way. -/
def Net.Lost (w : Net A) (i : Nat) : Prop :=
  (∃ k hostnames, w.round i = some (k + 1, hostnames)) ∧ w.post.about i = []

theorem round_set {j : Nat} {v : AskingUpstream A} (hj : w.upstreams[j]? = some u)
    (hv : i = j → v.resolve.resolveIndex = u.resolve.resolveIndex ∧
      v.resolve.hostnames = u.resolve.hostnames) :
    (w.setUpstream j v).round i = w.round i := by
  have hlt : j < w.upstreams.length := (List.getElem?_eq_some_iff.mp hj).1
  unfold Net.round Net.setUpstream
  dsimp only
  by_cases hij : i = j
  · obtain ⟨hindex, hhostnames⟩ := hv hij
    subst hij
    rw [List.getElem?_set_self hlt, hj, Option.map_some, Option.map_some, hindex, hhostnames]
  · rw [List.getElem?_set_ne (Ne.symm hij)]

theorem sendQuery_about {j : Nat} (hij : i ≠ j) (sent : Bool) (v : AskingUpstream A)
    (p : Post Nat ResolverQuery (Reply A)) : (sendQuery sent j v p).about i = p.about i := by
  unfold sendQuery
  split
  · rfl
  · split
    · exact Post.about_ask_ne hij p _
    · rfl

theorem tooks_append (i : Nat) (trace : List (NetEvent A)) {events : List (NetEvent A)}
    (h : ∀ e ∈ events, e.isTook i = false) :
    (trace ++ events).countP (·.isTook i) = trace.countP (·.isTook i) := by
  have hnone : events.countP (·.isTook i) = 0 := by
    apply List.countP_eq_zero.mpr
    intro e he
    rw [h e he]
    exact Bool.false_ne_true
  rw [List.countP_append, hnone, Nat.add_zero]

end Round

section Run

variable [DecidableEq A] {addrcmp : A → A → Int} {w s t : Net A} {u : AskingUpstream A} {i : Nat}
  {acts : List (NetAct A)} {hosts : List (List Bytes)}

/-- However the timers, the resolver and the answers interleave, and whatever is lost: an upstream
has one message on its way at most, which is about the hostname in turn; and each list of addresses
that it merges was found by `getaddrinfo` for the hostname that it is merged into. -/
theorem answers_reach_hostname (hstart : NetStart w)
    (hrun : runActs (netStep addrcmp) acts w = some s) :
    (∀ i, s.post.about i = [] ∨ ∃ u q, s.upstreams[i]? = some u ∧ u.query = some q ∧
      s.post.about i = [q]) ∧
    ∀ i k result, .took i k (some result) ∈ s.trace → ∃ u name found,
      w.upstreams[i]? = some u ∧ u.names[k]? = some name ∧
        result.hostname = cstr (name.take 4095) ∧
        .resolved result.hostname found result.resolvedAt ∈ s.trace ∧
        phlResolverHostname addrcmp (some found) = some result.buffer := by
  have hinv := (hstart.inv addrcmp).runActs hrun
  constructor
  · intro i
    rcases hinv.inStep i with hempty | ⟨q, hq, habout⟩
    · exact .inl hempty
    · obtain ⟨u, hu, hquery⟩ := Option.bind_eq_some_iff.mp hq
      exact .inr ⟨u, q, hu, hquery, habout⟩
  · intro i k result hmem
    obtain ⟨⟨found, hfound, hbuffer⟩, own, name, hown, hname, hhost⟩ := hinv.took i k result hmem
    rw [List.getElem?_map] at hown
    obtain ⟨u, hu, rfl⟩ := Option.map_eq_some_iff.mp hown
    exact ⟨u, name, found, hu, hname, hhost, hfound, hbuffer⟩

/-- An upstream with one hostname, and the resolver. -/
def oneUpstream : Net Int :=
  ⟨[⟨[bytes "h"], 10, ⟨[⟨true, []⟩], 0, false, 0, [], []⟩⟩], .init Int, .empty, []⟩

def oneAnswer : List (NetAct Int) :=
  [.timer 0 true, .serve ⟨5, 5, 5, 5⟩ (some [7]) true, .read 0 (fun _ => []) true]

theorem oneUpstream_start : NetStart oneUpstream := ⟨rfl, rfl, rfl⟩

theorem answers_reach_hostname_one : ∃ s : Net Int,
    runActs (netStep (· - ·)) oneAnswer oneUpstream = some s ∧
      .took 0 0 (some ⟨bytes "h", [7], 15, 5, 10⟩) ∈ s.trace ∧
      ∃ u name found, oneUpstream.upstreams[0]? = some u ∧ u.names[0]? = some name ∧
        bytes "h" = cstr (name.take 4095) ∧ .resolved (bytes "h") found 5 ∈ s.trace ∧
        phlResolverHostname (fun a b : Int => a - b) (some found) = some [7] := by
  obtain ⟨s, hs⟩ : ∃ s, runActs (netStep (· - ·)) oneAnswer oneUpstream = some s :=
    Option.isSome_iff_exists.mp (by with_unfolding_all rfl)
  have htook : .took 0 0 (some ⟨bytes "h", [7], 15, 5, 10⟩) ∈ s.trace := by
    have htrace : s.trace = [.resolved (bytes "h") [7] 5,
        .took 0 0 (some ⟨bytes "h", [7], 15, 5, 10⟩)] := by
      have hsome : (runActs (netStep (· - ·)) oneAnswer oneUpstream).map Net.trace =
          some [.resolved (bytes "h") [7] 5,
            .took 0 0 (some ⟨bytes "h", [7], 15, 5, 10⟩)] := by
        with_unfolding_all rfl
      rw [hs] at hsome
      exact Option.some.inj hsome
    rw [htrace]
    exact List.mem_cons_of_mem _ (List.mem_singleton_self _)
  exact ⟨s, hs, htook, (answers_reach_hostname oneUpstream_start hs).2 0 0 _ htook⟩

/-- Nothing brings a round on from which a message was lost. -/
theorem Net.Lost.step {a : NetAct A} (hlost : w.Lost i)
    (ha : netStep addrcmp w a = some t) :
    t.Lost i ∧ t.round i = w.round i ∧
      t.trace.countP (·.isTook i) = w.trace.countP (·.isTook i) := by
  obtain ⟨⟨k, hostnames, hround⟩, habout⟩ := hlost
  suffices h : t.round i = w.round i ∧ t.post.about i = [] ∧
      t.trace.countP (·.isTook i) = w.trace.countP (·.isTook i) by
    exact ⟨⟨⟨k, hostnames, h.1.trans hround⟩, h.2.1⟩, h.1, h.2.2⟩
  cases a with
  | timer j sent =>
    obtain ⟨u, hj, hrest⟩ := Option.bind_eq_some_iff.mp ha
    obtain ⟨resolve, -, rfl⟩ := Option.map_eq_some_iff.mp hrest
    split
    · exact ⟨rfl, habout, rfl⟩
    · next hidle =>
      -- an upstream in a round is not the one whose timer starts one
      have hij : i ≠ j := by
        rintro rfl
        unfold Net.round at hround
        rw [hj] at hround
        have hindex : u.resolve.resolveIndex = k + 1 :=
          congrArg Prod.fst (Option.some.inj hround)
        omega
      refine ⟨round_set hj fun h => absurd h hij, ?_, rfl⟩
      exact (sendQuery_about hij sent _ _).trans habout
  | serve times results sent =>
    unfold netStep at ha
    cases hq : w.post.questions with
    | nil =>
      simp only [hq] at ha
      cases ha
    | cons question rest =>
      obtain ⟨j, q⟩ := question
      simp only [hq] at ha
      obtain ⟨resolver, -, rfl⟩ := Option.map_eq_some_iff.mp ha
      have hij : i ≠ j := by
        rintro rfl
        unfold Post.about at habout
        rw [hq, List.filter_cons, if_pos (decide_eq_true rfl)] at habout
        cases habout
      refine ⟨rfl, (Post.about_served_ne hq hij sent _).trans habout, ?_⟩
      apply tooks_append
      intro e he
      unfold resolvedEvents at he
      split at he
      · cases he
      · obtain ⟨found, -, rfl⟩ := Option.map_eq_some_iff.mp (Option.mem_toList.mp he)
        rfl
  | read j closes sent =>
    obtain ⟨u, hj, hrest⟩ := Option.bind_eq_some_iff.mp ha
    obtain ⟨⟨m, p'⟩, hreceive, hrest⟩ := Option.bind_eq_some_iff.mp hrest
    obtain ⟨resolve, -, rfl⟩ := Option.map_eq_some_iff.mp hrest
    have hij : i ≠ j := by
      rintro rfl
      have hmem := (receive_answers hreceive).1
      have hnone := (List.append_eq_nil_iff.mp habout).2
      have hfilter := List.filter_eq_nil_iff.mp (List.map_eq_nil_iff.mp hnone) _ hmem
      exact hfilter (decide_eq_true rfl)
    refine ⟨round_set hj fun h => absurd h hij, ?_, ?_⟩
    · exact (sendQuery_about hij sent _ _).trans
        ((Post.about_received_ne hreceive hij).trans habout)
    · exact tooks_append i _ (List.forall_mem_singleton.mpr (decide_eq_false hij))
  | get j r linked =>
    obtain ⟨u, hj, hrest⟩ := Option.bind_eq_some_iff.mp ha
    obtain ⟨resolve, hresolve, rfl⟩ := Option.map_eq_some_iff.mp hrest
    refine ⟨round_set hj fun _ => request_keeps hresolve (.inl ⟨r, linked, rfl⟩), habout, rfl⟩
  | close j r =>
    obtain ⟨u, hj, hrest⟩ := Option.bind_eq_some_iff.mp ha
    obtain ⟨resolve, hresolve, rfl⟩ := Option.map_eq_some_iff.mp hrest
    refine ⟨round_set hj fun _ => request_keeps hresolve (.inr ⟨r, rfl⟩), habout, rfl⟩

theorem Net.Lost.runActs (hlost : w.Lost i)
    (hrun : runActs (netStep addrcmp) acts w = some t) :
    t.Lost i ∧ t.round i = w.round i ∧
      t.trace.countP (·.isTook i) = w.trace.countP (·.isTook i) := by
  induction acts generalizing w with
  | nil =>
    obtain rfl := Option.some.inj hrun
    exact ⟨hlost, rfl, rfl⟩
  | cons a acts ih =>
    obtain ⟨v, ha, hrest⟩ := Option.bind_eq_some_iff.mp hrun
    obtain ⟨hlost', hround, htooks⟩ := hlost.step ha
    obtain ⟨hend, hround', htooks'⟩ := ih hlost' hrest
    exact ⟨hend, hround'.trans hround, htooks'.trans htooks⟩

/-- A message that is on its way can be brought to its end: the resolver takes the queries before
it, and the upstream reads the answer. -/
theorem brings_on (hinv : NetInv addrcmp hosts w) {k : Nat}
    {hostnames : List (UpstreamHostname A)} (hround : w.round i = some (k + 1, hostnames))
    (habout : w.post.about i ≠ []) :
    ∃ acts t, runActs (netStep addrcmp) acts w = some t ∧
      w.trace.countP (·.isTook i) < t.trace.countP (·.isTook i) := by
  generalize hlen : w.post.questions = questions
  induction questions generalizing w with
  | nil =>
    obtain ⟨u, hu, hpair⟩ := Option.map_eq_some_iff.mp hround
    have hindex : u.resolve.resolveIndex = k + 1 := congrArg Prod.fst hpair
    have hanswers : w.post.answers.filter (·.1 = i) ≠ [] := by
      intro hnone
      apply habout
      unfold Post.about
      rw [hlen, hnone]
      rfl
    obtain ⟨m, hm⟩ : ∃ m, w.post.answers.find? (·.1 = i) = some m := by
      rw [← Option.isSome_iff_exists, List.find?_isSome]
      obtain ⟨m, hm⟩ := List.exists_mem_of_ne_nil _ hanswers
      obtain ⟨hmem, hmi⟩ := List.mem_filter.mp hm
      exact ⟨m, hmem, hmi⟩
    have hreceive : w.post.receive i = some (m.2, ⟨w.post.questions,
        w.post.answers.eraseP (·.1 = i)⟩) := by
      unfold Post.receive
      rw [hm]
      rfl
    obtain ⟨resolve, hresolve⟩ : ∃ resolve, resolveStep addrcmp u.resolve
        (.read (answerOf m.2.2) fun _ => []) = some resolve := by
      unfold resolveStep
      rw [hindex]
      exact ⟨_, rfl⟩
    let v := { u with resolve := resolve }
    have hstep : netStep addrcmp w (.read i (fun _ => []) true) = some { w.setUpstream i v with
        post := sendQuery true i v ⟨w.post.questions, w.post.answers.eraseP (·.1 = i)⟩
        trace := w.trace ++ [.took i (u.resolve.resolveIndex - 1) m.2.2] } := by
      unfold netStep
      dsimp only
      rw [hu, Option.bind_some, hreceive, Option.bind_some, hresolve]
      rfl
    refine ⟨[.read i (fun _ => []) true], _, Option.bind_eq_some_iff.mpr ⟨_, hstep, rfl⟩, ?_⟩
    have htook : [NetEvent.took i (u.resolve.resolveIndex - 1) m.2.2].countP (·.isTook i) = 1 :=
      List.countP_cons_of_pos (decide_eq_true rfl)
    dsimp only
    rw [List.countP_append, htook]
    exact Nat.lt_succ_self _
  | cons question rest ih =>
    obtain ⟨j, q⟩ := question
    let times : ResolverTimes :=
      ⟨w.resolver.clock, w.resolver.clock, w.resolver.clock, w.resolver.clock⟩
    obtain ⟨resolver, hserved⟩ : ∃ resolver,
        resolverRound addrcmp w.resolver (.query q times none) = some resolver :=
      ⟨_, if_pos ⟨Int.le_refl _, Int.le_refl _, Int.le_refl _, Int.le_refl _⟩⟩
    have hstep : netStep addrcmp w (.serve times none true) = some { w with
        resolver := resolver
        post := ⟨rest, w.post.answers ++ if true then [(j, q, (phlResolverProcess addrcmp q times
          none w.resolver.cache w.resolver.expire).1)] else []⟩
        trace := w.trace ++ resolvedEvents q times none w.resolver.cache } := by
      unfold netStep
      simp only [hlen, hserved, Option.map_some]
    have htooks : (w.trace ++ resolvedEvents q times none w.resolver.cache).countP (·.isTook i) =
        w.trace.countP (·.isTook i) := by
      apply tooks_append
      intro e he
      unfold resolvedEvents at he
      split at he <;> cases he
    have habout' : (⟨rest, w.post.answers ++ if true then [(j, q, (phlResolverProcess addrcmp q
        times none w.resolver.cache w.resolver.expire).1)] else []⟩ :
          Post Nat ResolverQuery (Reply A)).about i ≠ [] := by
      by_cases hij : i = j
      · subst hij
        rw [(Post.about_served_self hlen hinv.inStep true _).2]
        exact List.cons_ne_nil _ _
      · rw [Post.about_served_ne hlen hij]
        exact habout
    obtain ⟨acts, t, hrun, hmore⟩ := ih (hinv.step hstep) hround habout' rfl
    exact ⟨.serve times none true :: acts, t, Option.bind_eq_some_iff.mpr ⟨_, hstep, hrun⟩,
      htooks ▸ hmore⟩

/-- An upstream that has asked for a hostname takes another answer in some continuation exactly
where a message of its is on the way; where there is none, the query or the answer was lost, and
the upstream resolves nothing any more. -/
theorem round_goes_on_iff (hstart : NetStart w)
    (hrun : runActs (netStep addrcmp) acts w = some s) (hu : s.upstreams[i]? = some u)
    (hround : u.resolve.resolveIndex ≠ 0) :
    (∃ more t, runActs (netStep addrcmp) more s = some t ∧
      s.trace.countP (·.isTook i) < t.trace.countP (·.isTook i)) ↔ s.post.about i ≠ [] := by
  obtain ⟨k, hk⟩ := Nat.exists_eq_succ_of_ne_zero hround
  have hstate : s.round i = some (k + 1, u.resolve.hostnames) := by
    unfold Net.round
    rw [hu, Option.map_some, hk]
  constructor
  · rintro ⟨more, t, hmore, hlt⟩ hlost
    have hsame := (Net.Lost.runActs ⟨⟨k, _, hstate⟩, hlost⟩ hmore).2.2
    omega
  · exact brings_on ((hstart.inv addrcmp).runActs hrun) hstate

/-- Its query is not sent. -/
def lostQuery : Net Int :=
  { oneUpstream with upstreams := [⟨[bytes "h"], 10, ⟨[⟨true, []⟩], 1, false, 0, [], []⟩⟩] }

theorem round_goes_on_iff_lost :
    ¬∃ more t, runActs (netStep (· - ·)) more lostQuery = some t ∧
      lostQuery.trace.countP (·.isTook 0) < t.trace.countP (·.isTook 0) := by
  have hrun : runActs (netStep (· - ·)) [.timer 0 false] oneUpstream = some lostQuery := by
    with_unfolding_all rfl
  intro hmore
  exact (round_goes_on_iff oneUpstream_start hrun rfl Nat.one_ne_zero).mp hmore rfl

end Run

end Phorklift.ResolverNet
