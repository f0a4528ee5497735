import Phorklift.RequestFrame
import Phorklift.WireRequest

/-! The hosts that one request names, in its URI, its Host headers and its `:authority`. -/

namespace Phorklift

/-- What a parser comes to that may name a host, or be wrong. -/
inductive HostSource
  /-- the URL of an HTTP/1 request line, which is for `phl_request_set_uri` -/
  | requestLine (url : Bytes)
  /-- a header line of an HTTP/1 request, and the buffer from its name on -/
  | http1Header (h : HeaderLine) (line : Bytes)
  /-- a header of an HTTP/2 request, with the pseudo ones -/
  | http2Header (name value : Bytes)

namespace HostSource

def read (lib : Libwuya) : HostSource → Req → Bool × Req
  | requestLine url, r => phlRequestSetUri lib r url
  | http1Header h line, r =>
    let x := phlHttp1RequestHeader h line r
    (x.1 == phlOk, x.2)
  | http2Header name value, r => phlHttp2HookStreamHeader lib r name value

def uriHost (lib : Libwuya) (url : Bytes) : Option Bytes := (lib.httpUri url).bind (·.host)

/-- The host that is given to `phl_request_set_host`. -/
def host (lib : Libwuya) : HostSource → Option Bytes
  | requestLine url => uriHost lib url
  | http1Header h line =>
    if isLengthName line then none
    else if isHostName line then some ((line.drop h.valuePos).take h.valueLen)
    else none
  | http2Header name value =>
    if name = bytes ":path" then uriHost lib value
    else if name = bytes ":authority" then some value
    else none

/-- Nothing is wrong with it apart from its host: a request that has none yet takes it. -/
def Fine (lib : Libwuya) (s : HostSource) : Prop := (s.read lib Req.init).1 = true

end HostSource

/-- The parsers go on as long as all is well. -/
def readSources (lib : Libwuya) : List HostSource → Req → Bool × Req
  | [], r => (true, r)
  | s :: sources, r =>
    let x := s.read lib r
    if x.1 then readSources lib sources x.2 else x

def hostsOf (lib : Libwuya) (sources : List HostSource) : List Bytes :=
  sources.filterMap (HostSource.host lib)

/-- The request is accepted exactly where the hosts given are equal in lower case and nothing else
is wrong, and its host is that one. -/
def HostsConsistent (lib : Libwuya) (sources : List HostSource) : Prop :=
  ((readSources lib sources .init).1 = true ↔ (∀ s ∈ sources, s.Fine lib) ∧
    ∀ h ∈ hostsOf lib sources, ∀ h' ∈ hostsOf lib sources, lower h = lower h') ∧
  ((readSources lib sources .init).1 = true →
    (readSources lib sources .init).2.host = (hostsOf lib sources).head?.map lower)

/-- If no host after the first one is more than the beginning of it, they are all the whole of it,
and it has no NUL. -/
def NoneCutShort : List Bytes → Prop
  | [] => True
  | first :: later => (∀ h ∈ later, strncasecmp first h h.length = true) →
      (0 : UInt8) ∉ first ∧ ∀ h ∈ later, lower h = lower first

section Read

variable {lib : Libwuya} {s : HostSource} {sources : List HostSource} {r : Req} {h a b : Bytes}
  {hs : List Bytes}

/-- The host of the request after one more has been given. -/
def hostAfter (host : Option Bytes) (h : Bytes) : Option Bytes :=
  some (host.getD (lower (cstr h)))

theorem setHost_host (r : Req) (h : Bytes) :
    (phlRequestSetHost r h).2 = { r with host := hostAfter r.host h } := by
  cases r with
  | mk method version contentLength uri host headers chunked bodyBuf bodyFinished =>
    cases host with
    | none => rfl
    | some host => rfl

theorem setHost_ok : (phlRequestSetHost r h).1 = true ↔ HostsAgree r.host [h] := by
  unfold phlRequestSetHost HostsAgree
  cases r.host with
  | none => exact iff_of_true rfl trivial
  | some host => exact (and_iff_left trivial).symm

/-- One source: whether it is taken, and the host after it. -/
structure ReadsHost (fine : Prop) (given : Option Bytes) (r : Req) (x : Bool × Req) : Prop where
  taken : x.1 = true ↔ fine ∧ HostsAgree r.host given.toList
  host : x.1 = true → x.2.host = given.elim r.host (hostAfter r.host)

theorem reads_none {fine : Prop} {x : Bool × Req} (htaken : x.1 = true ↔ fine)
    (hhost : x.1 = true → x.2.host = r.host) : ReadsHost fine none r x :=
  ⟨htaken.trans (and_iff_left trivial).symm, hhost⟩

theorem setHost_reads (r : Req) (h : Bytes) : ReadsHost True (some h) r (phlRequestSetHost r h) := by
  refine ⟨setHost_ok.trans (and_iff_right trivial).symm, fun _ => ?_⟩
  rw [setHost_host]
  rfl

theorem setUri_reads (lib : Libwuya) (r : Req) (url : Bytes) :
    ReadsHost (∃ parts, lib.httpUri url = some parts ∧ lib.httpDecodePath parts.path ≠ none)
      (HostSource.uriHost lib url) r (phlRequestSetUri lib r url) := by
  unfold HostSource.uriHost phlRequestSetUri
  dsimp only
  cases huri : lib.httpUri url with
  | none =>
    refine ⟨iff_of_false Bool.false_ne_true ?_, fun hx => by cases hx⟩
    rintro ⟨⟨parts, hparts, -⟩, -⟩
    cases hparts
  | some parts =>
    have hfine : (∃ parts', some parts = some parts' ∧ lib.httpDecodePath parts'.path ≠ none) ↔
        lib.httpDecodePath parts.path ≠ none := by
      constructor
      · rintro ⟨parts', hsame, hpath⟩
        cases hsame
        exact hpath
      · exact fun hpath => ⟨parts, rfl, hpath⟩
    dsimp only [Option.bind_some]
    cases hgiven : parts.host with
    | none =>
      dsimp only
      rw [if_pos rfl]
      apply reads_none
      · rw [hfine]
        cases lib.httpDecodePath parts.path with
        | none => exact iff_of_false Bool.false_ne_true fun h => h rfl
        | some path => exact iff_of_true rfl (Option.some_ne_none path)
      · intro _
        cases lib.httpDecodePath parts.path with
        | none => rfl
        | some path => rfl
    | some given =>
      dsimp only
      have hset := setHost_reads { r with uri := { r.uri with raw := url, query := parts.query } }
        given
      constructor
      · rw [hfine]
        split
        next htaken =>
          rw [and_iff_left (hset.taken.mp htaken).2]
          cases lib.httpDecodePath parts.path with
          | none => exact iff_of_false Bool.false_ne_true fun h => h rfl
          | some path => exact iff_of_true rfl (Option.some_ne_none path)
        next hrefused =>
          refine iff_of_false Bool.false_ne_true fun hboth => hrefused ?_
          exact hset.taken.mpr ⟨trivial, hboth.2⟩
      · split
        next htaken =>
          intro _
          have hhost := hset.host htaken
          cases lib.httpDecodePath parts.path with
          | none => exact hhost
          | some path => exact hhost
        next => exact fun hx => by cases hx

theorem http1Header_reads (lib : Libwuya) (line : HeaderLine) (buf : Bytes) :
    ∃ fine, ∀ r, ReadsHost fine ((HostSource.http1Header line buf).host lib) r
      ((HostSource.http1Header line buf).read lib r) := by
  unfold HostSource.host HostSource.read phlHttp1RequestHeader isLengthName isHostName
  dsimp only
  have hbad : ¬((400 : Int) == phlOk) = true := by decide
  have herror : ¬(phlError == phlOk) = true := by decide
  by_cases hlength : (bytes "Content-Length").isPrefixOf buf = true
  · refine ⟨(strtol (buf.drop line.valuePos)).used = line.valueLen, fun r => ?_⟩
    rw [if_pos hlength, if_pos hlength]
    split
    next hne => exact reads_none (iff_of_false hbad hne) fun hx => absurd hx hbad
    next heq => exact reads_none (iff_of_true rfl (not_not.mp heq)) fun _ => rfl
  · by_cases hhost : (bytes "Host").isPrefixOf buf = true
    · refine ⟨True, fun r => ?_⟩
      rw [if_neg hlength, if_neg hlength, if_pos hhost, if_pos hhost]
      have hset := setHost_reads r ((buf.drop line.valuePos).take line.valueLen)
      split
      next htaken => exact ⟨iff_of_true rfl (hset.taken.mp htaken), fun _ => hset.host htaken⟩
      next hrefused =>
        refine ⟨iff_of_false herror fun hboth => hrefused (hset.taken.mpr hboth), ?_⟩
        exact fun hx => absurd hx herror
    · refine ⟨True, fun r => ?_⟩
      rw [if_neg hlength, if_neg hlength, if_neg hhost, if_neg hhost]
      split
      next => exact reads_none (iff_of_true rfl trivial) fun _ => rfl
      next =>
        split
        next => exact reads_none (iff_of_true rfl trivial) fun _ => rfl
        next => exact reads_none (iff_of_true rfl trivial) fun _ => rfl

theorem http2Header_reads (lib : Libwuya) (name value : Bytes) :
    ∃ fine, ∀ r, ReadsHost fine ((HostSource.http2Header name value).host lib) r
      ((HostSource.http2Header name value).read lib r) := by
  unfold HostSource.host HostSource.read phlHttp2HookStreamHeader
  dsimp only
  by_cases hpath : name = bytes ":path"
  · refine ⟨∃ parts, lib.httpUri value = some parts ∧ lib.httpDecodePath parts.path ≠ none,
      fun r => ?_⟩
    have hpseudo : name.head? = some 58 := by
      rw [hpath]
      rfl
    rw [if_pos hpath, if_pos hpseudo, if_pos hpath]
    exact setUri_reads lib r value
  · by_cases hauthority : name = bytes ":authority"
    · refine ⟨True, fun r => ?_⟩
      have hpseudo : name.head? = some 58 := by
        rw [hauthority]
        rfl
      rw [if_neg hpath, if_pos hauthority, if_pos hpseudo, if_neg hpath, if_pos hauthority]
      exact setHost_reads r value
    · rw [if_neg hpath, if_neg hauthority]
      by_cases hpseudo : name.head? = some 58
      · by_cases hscheme : name = bytes ":scheme"
        · refine ⟨True, fun r => ?_⟩
          rw [if_pos hpseudo, if_neg hpath, if_neg hauthority, if_pos hscheme]
          exact reads_none (iff_of_true rfl trivial) fun _ => rfl
        · refine ⟨name = bytes ":method" ∧ lib.httpMethod value ≠ none, fun r => ?_⟩
          rw [if_pos hpseudo, if_neg hpath, if_neg hauthority, if_neg hscheme]
          split
          next hmethod =>
            cases lib.httpMethod value with
            | none =>
              exact reads_none (iff_of_false Bool.false_ne_true fun h => h.2 rfl) fun _ => rfl
            | some method =>
              exact reads_none (iff_of_true rfl ⟨hmethod, Option.some_ne_none method⟩) fun _ => rfl
          next hother =>
            exact reads_none (iff_of_false Bool.false_ne_true fun h => hother h.1) fun _ => rfl
      · refine ⟨True, fun r => ?_⟩
        rw [if_neg hpseudo]
        split
        next => exact reads_none (iff_of_true rfl trivial) fun _ => rfl
        next => exact reads_none (iff_of_true rfl trivial) fun _ => rfl

theorem HostSource.read_reads (lib : Libwuya) (s : HostSource) (r : Req) :
    ReadsHost (s.Fine lib) (s.host lib) r (s.read lib r) := by
  have hsome : ∃ fine, ∀ r, ReadsHost fine (s.host lib) r (s.read lib r) := by
    cases s with
    | requestLine url => exact ⟨_, fun r => setUri_reads lib r url⟩
    | http1Header line buf => exact http1Header_reads lib line buf
    | http2Header name value => exact http2Header_reads lib name value
  obtain ⟨fine, hreads⟩ := hsome
  have hnone : HostsAgree Req.init.host (s.host lib).toList := by
    cases s.host lib with
    | none => trivial
    | some given => trivial
  have hfine : s.Fine lib ↔ fine := (hreads .init).taken.trans (and_iff_left hnone)
  refine ⟨?_, (hreads r).host⟩
  rw [hfine]
  exact (hreads r).taken

theorem readSources_taken (h : (s.read lib r).1 = true) :
    readSources lib (s :: sources) r = readSources lib sources (s.read lib r).2 := if_pos h

theorem readSources_refused (h : (s.read lib r).1 ≠ true) :
    readSources lib (s :: sources) r = s.read lib r := if_neg h

theorem hostsAgree_append {host given : Option Bytes} :
    HostsAgree host (given.toList ++ hs) ↔ HostsAgree host given.toList ∧
      HostsAgree (given.elim host (hostAfter host)) hs := by
  cases given with
  | none => exact (and_iff_right trivial).symm
  | some h =>
    cases host with
    | none => exact (and_iff_right trivial).symm
    | some host => exact and_congr_left fun _ => (and_iff_left trivial).symm

/-- All the sources: whether they are taken, and the host at the end. -/
theorem readSources_reads (lib : Libwuya) (sources : List HostSource) (r : Req) :
    ((readSources lib sources r).1 = true ↔ (∀ s ∈ sources, s.Fine lib) ∧
      HostsAgree r.host (hostsOf lib sources)) ∧
    ((readSources lib sources r).1 = true →
      (readSources lib sources r).2.host = (hostsOf lib sources).foldl hostAfter r.host) := by
  induction sources generalizing r with
  | nil => exact ⟨iff_of_true rfl ⟨List.forall_mem_nil _, trivial⟩, fun _ => rfl⟩
  | cons s sources ih =>
    have hfirst := s.read_reads lib r
    have hhosts : hostsOf lib (s :: sources) = (s.host lib).toList ++ hostsOf lib sources := by
      unfold hostsOf
      rw [List.filterMap_cons]
      cases s.host lib <;> rfl
    rw [readSources, hhosts, hostsAgree_append, List.foldl_append, List.forall_mem_cons]
    split
    next htaken =>
      obtain ⟨hall, hhost⟩ := ih (s.read lib r).2
      rw [hfirst.host htaken] at hall hhost
      obtain ⟨hfine, hagree⟩ := hfirst.taken.mp htaken
      refine ⟨hall.trans ?_, fun hx => (hhost hx).trans ?_⟩
      · rw [and_iff_right hfine, and_iff_right hagree]
      · cases s.host lib <;> rfl
    next hrefused =>
      refine ⟨iff_of_false hrefused ?_, fun hx => absurd hx hrefused⟩
      rintro ⟨⟨hfine, -⟩, hagree, -⟩
      exact hrefused (hfirst.taken.mpr ⟨hfine, hagree⟩)

end Read

section Compare

variable {a b first : Bytes} {later : List Bytes}

theorem cstr_lower (s : Bytes) : cstr (lower s) = lower (cstr s) := by
  have hsame : (fun c : UInt8 => decide (c ≠ 0)) ∘ tolower = fun c => decide (c ≠ 0) := by
    funext c
    simp only [Function.comp_apply, ne_eq, tolower_eq_iff (show (0 : UInt8) < 65 by decide)]
  unfold cstr lower
  rw [List.takeWhile_map, hsame]

theorem lower_lower (s : Bytes) : lower (lower s) = lower s := by
  have hsame : tolower ∘ tolower = tolower := by
    funext c
    show tolower (tolower c) = tolower c
    unfold tolower
    split
    next hupper =>
      have hge : 65 ≤ c.toNat := UInt8.le_iff_toNat_le.mp hupper.1
      have hle : c.toNat ≤ 90 := UInt8.le_iff_toNat_le.mp hupper.2
      rw [if_neg]
      rintro ⟨-, hmore⟩
      have hsum : (c.toNat + 32) % 2 ^ 8 ≤ 90 := UInt8.le_iff_toNat_le.mp hmore
      omega
    next hother => rfl
  unfold lower
  rw [List.map_map, hsame]

theorem cstr_cstr (s : Bytes) : cstr (cstr s) = cstr s := by
  unfold cstr
  rw [List.takeWhile_takeWhile]
  simp

/-- The host that is stored compares as it was given. -/
theorem strncasecmp_stored (a b : Bytes) (n : Nat) :
    strncasecmp (lower (cstr a)) b n = strncasecmp a b n := by
  have htake : ∀ s : Bytes, lower (s.take n) = (lower s).take n := fun s => List.map_take
  unfold strncasecmp
  rw [cstr_lower, cstr_cstr, htake, lower_lower, ← htake]

theorem strncasecmp_of_lower (h : lower b = lower a) : strncasecmp a b b.length = true := by
  have hlength : b.length = a.length := by
    have hsame := congrArg List.length h
    unfold lower at hsame
    rw [List.length_map, List.length_map] at hsame
    exact hsame
  have hshort : ∀ s : Bytes, (cstr s).length ≤ s.length :=
    fun s => (List.takeWhile_prefix _).length_le
  unfold strncasecmp
  rw [List.take_of_length_le (hshort b), hlength, List.take_of_length_le (hshort a), beq_iff_eq,
    ← cstr_lower, ← cstr_lower, h]

/-- Without a NUL the comparison is one with the beginning of the first host. -/
theorem strncasecmp_iff_prefix (ha : (0 : UInt8) ∉ a) (hb : (0 : UInt8) ∉ b) :
    strncasecmp a b b.length = true ↔ lower b <+: lower a := by
  unfold strncasecmp
  rw [cstr_of_nul_free ha, cstr_of_nul_free hb, List.take_length, beq_iff_eq]
  have htake : lower (a.take b.length) = (lower a).take (lower b).length := by
    unfold lower
    rw [List.length_map]
    exact List.map_take
  rw [htake, List.prefix_iff_eq_take]
  exact eq_comm

/-- Of hosts without NULs: not every later one is a prefix of the first, or they are all equal. -/
theorem noneCutShort_iff (hnul : ∀ h ∈ first :: later, (0 : UInt8) ∉ h) :
    NoneCutShort (first :: later) ↔ ((∀ h ∈ later, lower h <+: lower first) →
      ∀ h ∈ later, lower h = lower first) := by
  obtain ⟨hfirst, hlater⟩ := List.forall_mem_cons.mp hnul
  have hsame : (∀ h ∈ later, strncasecmp first h h.length = true) ↔
      ∀ h ∈ later, lower h <+: lower first :=
    forall₂_congr fun h hh => strncasecmp_iff_prefix hfirst (hlater h hh)
  rw [NoneCutShort, hsame, and_iff_right hfirst]

theorem lower_cstr_eq_iff : lower (cstr a) = lower a ↔ (0 : UInt8) ∉ a := by
  constructor
  · intro h hmem
    have hlength := congrArg List.length h
    unfold lower at hlength
    rw [List.length_map, List.length_map] at hlength
    have hwhole : cstr a = a := (List.takeWhile_prefix _).eq_of_length hlength
    rw [← hwhole] at hmem
    have hne := List.mem_takeWhile_imp hmem
    simp at hne
  · intro h
    rw [cstr_of_nul_free h]

theorem hostsAgree_some {host : Bytes} : HostsAgree (some host) later ↔
    ∀ h ∈ later, strncasecmp host h h.length = true := by
  induction later with
  | nil => exact iff_of_true trivial (List.forall_mem_nil _)
  | cons h later ih => rw [HostsAgree, ih, List.forall_mem_cons]

theorem hostsAgree_none : HostsAgree none (first :: later) ↔
    ∀ h ∈ later, strncasecmp first h h.length = true := by
  rw [HostsAgree, hostsAgree_some]
  simp only [strncasecmp_stored]

theorem foldl_hostAfter (host : Bytes) : later.foldl hostAfter (some host) = some host := by
  induction later with
  | nil => rfl
  | cons h later ih => exact ih

theorem allEqual_iff : (∀ h ∈ first :: later, ∀ h' ∈ first :: later, lower h = lower h') ↔
    ∀ h ∈ later, lower h = lower first := by
  constructor
  · exact fun hall h hh => hall h (List.mem_cons_of_mem _ hh) first List.mem_cons_self
  · intro hall
    have hfirst : ∀ h ∈ first :: later, lower h = lower first := by
      intro h hh
      rcases List.mem_cons.mp hh with rfl | hh
      · rfl
      · exact hall h hh
    exact fun h hh h' hh' => (hfirst h hh).trans (hfirst h' hh').symm

end Compare

section Http1

variable {lib : Libwuya} {sources : List HostSource} {r : Req} {recv : Bytes} {fuel : Nat}

/-- The header lines up to the empty one, as `phl_http1_request_headers` comes to them. -/
def headerSources (lib : Libwuya) : Nat → Bytes → Option (List HostSource)
  | 0, _ => none
  | fuel + 1, recv =>
    let h := lib.httpHeader recv
    if h.procLen < 0 then none
    else if h.procLen = 0 then none
    else if h.procLen = 2 then some []
    else (headerSources lib fuel (recv.drop h.procLen.toNat)).map (.http1Header h.value recv :: ·)

def headSources (lib : Libwuya) (recv : Bytes) : Option (List HostSource) :=
  let line := lib.httpRequestLine recv
  if line.procLen < 0 then none
  else if line.procLen = 0 then none
  else
    let rest := recv.drop line.procLen.toNat
    (headerSources lib (rest.length + 1) rest).map (.requestLine line.value.url :: ·)

/-- What is left of a parse that has gone through. -/
def Accepts (x : Int × Req × Bytes) (r : Req) : Prop := x.1 = phlOk ∧ x.2.1 = r

theorem map_cons_accepts {s : HostSource} {r' : Req} {o : Option (List HostSource)} :
    (∃ sources, o.map (s :: ·) = some sources ∧ readSources lib sources r = (true, r')) ↔
      ∃ sources, o = some sources ∧ readSources lib (s :: sources) r = (true, r') := by
  constructor
  · rintro ⟨_, hmap, hread⟩
    obtain ⟨sources, hsome, rfl⟩ := Option.map_eq_some_iff.mp hmap
    exact ⟨sources, hsome, hread⟩
  · rintro ⟨sources, rfl, hread⟩
    exact ⟨s :: sources, rfl, hread⟩

theorem not_accepts {x : Int × Req × Bytes} {r' : Req} (h : x.1 ≠ phlOk) :
    Accepts x r' ↔ ∃ sources, none = some sources ∧ readSources lib sources r = (true, r') := by
  refine iff_of_false (fun hx => h hx.1) ?_
  rintro ⟨sources, hnone, -⟩
  cases hnone

theorem headerLines_accepts (r' : Req) :
    Accepts (phlHttp1RequestHeaderLines lib fuel r recv) r' ↔
      ∃ sources, headerSources lib fuel recv = some sources ∧
        readSources lib sources r = (true, r') := by
  induction fuel generalizing r recv with
  | zero => exact not_accepts (show phlAgain ≠ phlOk by decide)
  | succ fuel ih =>
    unfold phlHttp1RequestHeaderLines headerSources
    dsimp only
    by_cases hneg : (lib.httpHeader recv).procLen < 0
    · rw [if_pos hneg, if_pos hneg]
      exact not_accepts (show phlError ≠ phlOk by decide)
    · rw [if_neg hneg, if_neg hneg]
      by_cases hzero : (lib.httpHeader recv).procLen = 0
      · rw [if_pos hzero, if_pos hzero]
        exact not_accepts (show phlAgain ≠ phlOk by decide)
      · rw [if_neg hzero, if_neg hzero]
        by_cases htwo : (lib.httpHeader recv).procLen = 2
        · rw [if_pos htwo, if_pos htwo]
          constructor
          · rintro ⟨-, rfl⟩
            exact ⟨[], rfl, rfl⟩
          · rintro ⟨sources, hnil, hread⟩
            cases hnil
            exact ⟨rfl, congrArg Prod.snd hread⟩
        · rw [if_neg htwo, if_neg htwo, map_cons_accepts]
          by_cases hok : (phlHttp1RequestHeader (lib.httpHeader recv).value recv r).1 = phlOk
          · have htaken : ((HostSource.http1Header (lib.httpHeader recv).value recv).read lib r).1 =
                true := beq_iff_eq.mpr hok
            rw [if_neg (not_not.mpr hok)]
            simp only [readSources_taken htaken]
            exact ih
          · have hrefused : ((HostSource.http1Header (lib.httpHeader recv).value recv).read lib r).1 ≠
                true := fun h => hok (beq_iff_eq.mp h)
            rw [if_pos hok]
            refine iff_of_false (fun hx => hok hx.1) ?_
            rintro ⟨sources, -, hread⟩
            rw [readSources_refused hrefused] at hread
            exact hrefused (congrArg Prod.fst hread)

/-- Only the host that a request has matters to what its sources come to. -/
theorem readSources_host {r' : Req} {host : Option Bytes} (h : r.host = r'.host) :
    (∃ r1, readSources lib sources r = (true, r1) ∧ r1.host = host) ↔
      (readSources lib sources r').1 = true ∧ (readSources lib sources r').2.host = host := by
  obtain ⟨htaken, hhost⟩ := readSources_reads lib sources r
  obtain ⟨htaken', hhost'⟩ := readSources_reads lib sources r'
  rw [h] at htaken hhost
  have hsame := htaken.trans htaken'.symm
  constructor
  · rintro ⟨r1, hread, rfl⟩
    have hok : (readSources lib sources r).1 = true := congrArg Prod.fst hread
    have hr1 : (readSources lib sources r).2 = r1 := congrArg Prod.snd hread
    refine ⟨hsame.mp hok, ?_⟩
    rw [← hr1, hhost hok]
    exact hhost' (hsame.mp hok)
  · rintro ⟨hok', rfl⟩
    have hok := hsame.mpr hok'
    refine ⟨_, Prod.ext hok rfl, ?_⟩
    rw [hhost hok]
    exact (hhost' hok').symm

/-- A head that has arrived is accepted where its sources are, and has the host that they leave. -/
theorem requestHeaders_accepts (recv : Bytes) (host : Option Bytes) :
    (∃ r, Accepts (phlHttp1RequestHeaders lib .init recv) r ∧ r.host = host) ↔
      ∃ sources, headSources lib recv = some sources ∧
        (readSources lib sources .init).1 = true ∧
        (readSources lib sources .init).2.host = host := by
  have hmethod : Req.init.method = none := rfl
  have hnone : ∀ {x : Int × Req × Bytes}, x.1 ≠ phlOk →
      ((∃ r, Accepts x r ∧ r.host = host) ↔ ∃ sources, none = some sources ∧
        (readSources lib sources .init).1 = true ∧
        (readSources lib sources .init).2.host = host) := by
    intro x hx
    refine iff_of_false ?_ ?_
    · rintro ⟨r, haccepts, -⟩
      exact hx haccepts.1
    · rintro ⟨sources, hsome, -⟩
      cases hsome
  unfold phlHttp1RequestHeaders headSources
  rw [hmethod]
  dsimp only
  by_cases hneg : (lib.httpRequestLine recv).procLen < 0
  · rw [if_pos hneg, if_pos hneg]
    exact hnone (show phlError ≠ phlOk by decide)
  · rw [if_neg hneg, if_neg hneg]
    by_cases hzero : (lib.httpRequestLine recv).procLen = 0
    · rw [if_pos hzero, if_pos hzero]
      exact hnone (show phlAgain ≠ phlOk by decide)
    · rw [if_neg hzero, if_neg hzero]
      obtain ⟨line, hline⟩ : ∃ line, (lib.httpRequestLine recv).value = line := ⟨_, rfl⟩
      obtain ⟨rest, hrest⟩ : ∃ rest, recv.drop (lib.httpRequestLine recv).procLen.toNat = rest :=
        ⟨_, rfl⟩
      obtain ⟨started, hstarted⟩ : ∃ r : Req, { Req.init with
          method := some line.method
          version := line.version } = r := ⟨_, rfl⟩
      have hhost : started.host = Req.init.host := by
        rw [← hstarted]
      rw [hline, hrest, hstarted]
      have hread : ∀ sources : List HostSource,
          (∃ r, readSources lib (.requestLine line.url :: sources) started = (true, r) ∧
            r.host = host) ↔ _ := fun _ => readSources_host hhost
      by_cases huri : (phlRequestSetUri lib started line.url).1 = true
      · have htaken : ((HostSource.requestLine line.url).read lib started).1 = true := huri
        rw [if_pos huri]
        constructor
        · rintro ⟨r, haccepts, hr⟩
          obtain ⟨sources, hsources, hrest⟩ := (headerLines_accepts r).mp haccepts
          refine ⟨.requestLine line.url :: sources, ?_, (hread sources).mp ⟨r, ?_, hr⟩⟩
          · rw [hsources]
            rfl
          · exact (readSources_taken htaken).trans hrest
        · rintro ⟨_, hmap, hboth⟩
          obtain ⟨sources, hsources, rfl⟩ := Option.map_eq_some_iff.mp hmap
          obtain ⟨r, hall, hr⟩ := (hread sources).mpr hboth
          rw [readSources_taken htaken] at hall
          exact ⟨r, (headerLines_accepts r).mpr ⟨sources, hsources, hall⟩, hr⟩
      · have hrefused : ((HostSource.requestLine line.url).read lib started).1 ≠ true := huri
        rw [if_neg huri]
        refine iff_of_false ?_ ?_
        · rintro ⟨r, haccepts, -⟩
          cases haccepts.1
        · rintro ⟨_, hmap, hboth⟩
          obtain ⟨sources, hsources, rfl⟩ := Option.map_eq_some_iff.mp hmap
          obtain ⟨r, hall, -⟩ := (hread sources).mpr hboth
          rw [readSources_refused hrefused] at hall
          exact huri (congrArg Prod.fst hall)

end Http1

/-- Two Host headers, the second of which is the beginning of the first. -/
def cutShort : Bytes :=
  bytes "GET / HTTP/1.1" ++ crlf ++ bytes "Host: example.org" ++ crlf ++ bytes "Host: ex" ++ crlf ++
    crlf

end Phorklift
