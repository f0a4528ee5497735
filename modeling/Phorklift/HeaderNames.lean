import Phorklift.ContentLength
import Phorklift.ProxyResponse

/-! Which headers the request parser and the response parser of the `proxy` module tell apart. -/

namespace Phorklift

/-- What a header is taken for. -/
inductive HeaderKind
  | contentLength
  | host
  | connection
  | transferEncoding
  | other
  deriving DecidableEq

/-- The first kind in a table whose name passes the test. -/
def kindOf (test : Bytes → Bytes → Bool) (names : List (Bytes × HeaderKind)) (name : Bytes) :
    HeaderKind :=
  ((names.find? fun p => test p.1 name).map (·.2)).getD .other

def requestNames : List (Bytes × HeaderKind) :=
  [(bytes "Content-Length", .contentLength), (bytes "Host", .host),
    (bytes "Connection", .connection), (bytes "Transfer-Encoding", .transferEncoding)]

def responseNames : List (Bytes × HeaderKind) :=
  [(bytes "Content-Length", .contentLength), (bytes "Connection", .connection),
    (bytes "Transfer-Encoding", .transferEncoding)]

/-- A name that begins with one of the table, or is equal to it up to case, is that name. -/
def Spelled (names : List (Bytes × HeaderKind)) (name : Bytes) : Prop :=
  ∀ p ∈ names, p.1.isPrefixOf name = true ∨ strcasecmp p.1 name = true → name = p.1

section Names

/-- Names that are told apart whatever their case, of different kinds. -/
structure ToldApart (names : List (Bytes × HeaderKind)) : Prop where
  apart : ∀ p ∈ names, ∀ q ∈ names, lower p.1 <+: lower q.1 → p = q
  kinds : ∀ p ∈ names, ∀ q ∈ names, p.2 = q.2 → p = q
  known : ∀ p ∈ names, p.2 ≠ .other

variable {names : List (Bytes × HeaderKind)} {name : Bytes} {p q : Bytes × HeaderKind}
  {test : Bytes → Bytes → Bool}

theorem kindOf_other (h : ∀ p ∈ names, test p.1 name = false) : kindOf test names name = .other := by
  have hnone : names.find? (fun p => test p.1 name) = none :=
    List.find?_eq_none.mpr fun p hp => by simp [h p hp]
  unfold kindOf
  rw [hnone]
  rfl

theorem kindOf_of_mem (hp : p ∈ names) (htest : test p.1 name = true)
    (honly : ∀ q ∈ names, test q.1 name = true → q = p) : kindOf test names name = p.2 := by
  have hsome : (names.find? fun p => test p.1 name).isSome = true := by
    rw [List.find?_isSome]
    exact ⟨p, hp, htest⟩
  obtain ⟨q, hq⟩ := Option.isSome_iff_exists.mp hsome
  have heq := honly q (List.mem_of_find?_eq_some hq)
    (List.find?_some (p := fun p : Bytes × HeaderKind => test p.1 name) hq)
  unfold kindOf
  rw [hq, heq]
  rfl

theorem prefix_lower {u v : Bytes} (h : u <+: v) : lower u <+: lower v := h.map tolower

theorem strcasecmp_iff {u v : Bytes} : strcasecmp u v = true ↔ lower u = lower v := by
  unfold strcasecmp
  rw [beq_iff_eq]

/-- A name is a prefix of at most one name of the table. -/
theorem ToldApart.prefixes (h : ToldApart names) (hp : p ∈ names) (hq : q ∈ names)
    (hpre : p.1.isPrefixOf name = true) (hqre : q.1.isPrefixOf name = true) : q = p := by
  rw [List.isPrefixOf_iff_prefix] at hpre hqre
  rcases List.prefix_or_prefix_of_prefix hpre hqre with hle | hle
  · exact (h.apart p hp q hq (prefix_lower hle)).symm
  · exact h.apart q hq p hp (prefix_lower hle)

theorem ToldApart.equals (h : ToldApart names) (hp : p ∈ names) (hq : q ∈ names)
    (hpe : strcasecmp p.1 name = true) (hqe : strcasecmp q.1 name = true) : q = p := by
  rw [strcasecmp_iff] at hpe hqe
  apply h.apart q hq p hp
  rw [hpe, hqe]

theorem ToldApart.kindOf_prefix (h : ToldApart names) (hp : p ∈ names)
    (hpre : p.1.isPrefixOf name = true) : kindOf List.isPrefixOf names name = p.2 :=
  kindOf_of_mem hp hpre fun _ hq hqre => h.prefixes hp hq hpre hqre

theorem ToldApart.kindOf_equal (h : ToldApart names) (hp : p ∈ names)
    (hpe : strcasecmp p.1 name = true) : kindOf strcasecmp names name = p.2 :=
  kindOf_of_mem hp hpe fun _ hq hqe => h.equals hp hq hpe hqe

/-- A kind that is not `other` comes from a name of the table. -/
theorem exists_of_kindOf {k : HeaderKind} (hk : kindOf test names name = k) (hne : k ≠ .other) :
    ∃ p ∈ names, test p.1 name = true ∧ p.2 = k := by
  by_contra hnone
  push Not at hnone
  have hall : ∀ p ∈ names, test p.1 name = false ∨ p.2 ≠ k := by
    intro p hp
    cases ht : test p.1 name with
    | false => exact .inl rfl
    | true => exact .inr (hnone p hp ht)
  unfold kindOf at hk
  cases hfind : names.find? fun p => test p.1 name with
  | none =>
    rw [hfind] at hk
    exact hne hk.symm
  | some p =>
    rw [hfind] at hk
    have htest := List.find?_some (p := fun p : Bytes × HeaderKind => test p.1 name) hfind
    exact hnone p (List.mem_of_find?_eq_some hfind) htest hk

theorem prefix_of_equal_length {u : Bytes} (hpre : u.isPrefixOf name = true)
    (hequal : strcasecmp u name = true) : name = u := by
  rw [List.isPrefixOf_iff_prefix] at hpre
  rw [strcasecmp_iff] at hequal
  have hlen := congrArg List.length hequal
  simp only [lower, List.length_map] at hlen
  exact (hpre.eq_of_length hlen).symm

/-- Both tests find the same kind exactly where every name is spelled as in the table. -/
theorem kindOf_eq_iff (h : ToldApart names) :
    kindOf List.isPrefixOf names name = kindOf strcasecmp names name ↔ Spelled names name := by
  constructor
  · intro heq p hp htest
    rcases htest with hpre | hequal
    · have hkind := h.kindOf_prefix hp hpre
      rw [heq] at hkind
      obtain ⟨q, hq, hqe, hqp⟩ := exists_of_kindOf hkind (h.known p hp)
      have hsame := h.kinds q hq p hp hqp
      rw [hsame] at hqe
      exact prefix_of_equal_length hpre hqe
    · have hkind := h.kindOf_equal hp hequal
      rw [← heq] at hkind
      obtain ⟨q, hq, hqre, hqp⟩ := exists_of_kindOf hkind (h.known p hp)
      have hsame := h.kinds q hq p hp hqp
      rw [hsame] at hqre
      exact prefix_of_equal_length hqre hequal
  · intro hspelled
    by_cases hany : ∃ p ∈ names, name = p.1
    · obtain ⟨p, hp, rfl⟩ := hany
      have hpre : p.1.isPrefixOf p.1 = true := by
        rw [List.isPrefixOf_iff_prefix]
      have hequal : strcasecmp p.1 p.1 = true := strcasecmp_iff.mpr rfl
      rw [h.kindOf_prefix hp hpre, h.kindOf_equal hp hequal]
    · have hno : ∀ p ∈ names, p.1.isPrefixOf name = false ∧ strcasecmp p.1 name = false := by
        intro p hp
        refine ⟨?_, ?_⟩
        · cases ht : p.1.isPrefixOf name with
          | false => rfl
          | true => exact absurd ⟨p, hp, hspelled p hp (.inl ht)⟩ hany
        · cases ht : strcasecmp p.1 name with
          | false => rfl
          | true => exact absurd ⟨p, hp, hspelled p hp (.inr ht)⟩ hany
      rw [kindOf_other fun p hp => (hno p hp).1, kindOf_other fun p hp => (hno p hp).2]

theorem requestNames_apart : ToldApart requestNames := by
  constructor <;> decide

theorem responseNames_apart : ToldApart responseNames := by
  constructor <;> decide

end Names

/-- What the request parser does with a header of a kind, before `rest` of the buffer. -/
def takeRequestHeader (k : HeaderKind) (h : WireHeader) (rest : Bytes) (r : Req) : Int × Req :=
  match k with
  | .contentLength =>
    let n := strtol (h.value ++ (h.trail ++ crlf ++ rest))
    (if n.used ≠ h.value.length then 400 else phlOk, { r with contentLength := toSize n.value })
  | .host =>
    let hosted := phlRequestSetHost r h.value
    (if hosted.1 then phlOk else phlError, hosted.2)
  | .connection => (phlOk, r)
  | .transferEncoding => (phlOk, { r with chunked := some (r.chunked.getD []) })
  | .other => (phlOk, { r with headers := r.headers ++ [⟨h.name, h.value⟩] })

def takeResponseHeader (k : HeaderKind) (h : WireHeader) (rest : Bytes) (resp : UpstreamResp Bytes) :
    UpstreamResp Bytes :=
  match k with
  | .contentLength => { resp with
      contentLength := respLength (atoi (h.value ++ (h.trail ++ crlf ++ rest))) }
  | .connection => resp
  | .transferEncoding => { resp with data := some [] }
  | .host | .other => { resp with headers := resp.headers ++ [⟨h.name, h.value⟩] }

/-- The request parser takes the header for what its whole name says, and keeps it if that is
nothing. -/
def RequestRecognizes (h : WireHeader) : Prop :=
  ∀ rest r, phlHttp1RequestHeader h.found (h.line ++ rest) r =
    takeRequestHeader (kindOf strcasecmp requestNames h.name) h rest r

def ResponseRecognizes (h : WireHeader) : Prop :=
  ∀ rest resp, phlProxyResponseHeader h.found (h.line ++ rest) resp =
    takeResponseHeader (kindOf strcasecmp responseNames h.name) h rest resp

section Header

variable {h : WireHeader} {rest : Bytes} {r : Req} {k k' : HeaderKind}

theorem name_take (h : WireHeader) (rest : Bytes) : (h.line ++ rest).take h.name.length = h.name := by
  unfold WireHeader.line
  rw [List.append_assoc]
  exact List.take_left

theorem line_prefix {word : Bytes} (hword : (58 : UInt8) ∉ word) (h : WireHeader) (rest : Bytes) :
    word.isPrefixOf (h.line ++ rest) = word.isPrefixOf h.name := by
  unfold WireHeader.line
  rw [List.append_assoc]
  exact isPrefixOf_line hword _ _

/-- The request parser compares the beginning of the line with each of its names. -/
theorem phlHttp1RequestHeader_eq (h : WireHeader) (rest : Bytes) (r : Req) :
    phlHttp1RequestHeader h.found (h.line ++ rest) r =
      takeRequestHeader (kindOf List.isPrefixOf requestNames h.name) h rest r := by
  unfold phlHttp1RequestHeader WireHeader.found kindOf requestNames
  dsimp only
  rw [value_drop, name_take, List.take_left, line_prefix (by decide), line_prefix (by decide),
    line_prefix (by decide), line_prefix (by decide)]
  simp only [List.find?_cons]
  cases (bytes "Content-Length").isPrefixOf h.name with
  | true =>
    simp only [if_true, Option.map_some, Option.getD_some, takeRequestHeader]
    split <;> rfl
  | false =>
    cases (bytes "Host").isPrefixOf h.name with
    | true =>
      simp only [Bool.false_eq_true, if_false, if_true, Option.map_some, Option.getD_some,
        takeRequestHeader]
      split <;> rfl
    | false =>
      cases (bytes "Connection").isPrefixOf h.name with
      | true => rfl
      | false => cases (bytes "Transfer-Encoding").isPrefixOf h.name <;> rfl

theorem phlProxyResponseHeader_eq (h : WireHeader) (rest : Bytes) (resp : UpstreamResp Bytes) :
    phlProxyResponseHeader h.found (h.line ++ rest) resp =
      takeResponseHeader (kindOf List.isPrefixOf responseNames h.name) h rest resp := by
  unfold phlProxyResponseHeader WireHeader.found kindOf responseNames
  dsimp only
  rw [value_drop, name_take, List.take_left, line_prefix (by decide), line_prefix (by decide),
    line_prefix (by decide)]
  simp only [List.find?_cons]
  cases (bytes "Content-Length").isPrefixOf h.name with
  | true => rfl
  | false =>
    cases (bytes "Connection").isPrefixOf h.name with
    | true => rfl
    | false => cases (bytes "Transfer-Encoding").isPrefixOf h.name <;> rfl

/-- The kind of the header that was taken between two states. -/
def takenKind (r r' : Req) : HeaderKind :=
  if r'.contentLength ≠ r.contentLength then .contentLength
  else if r'.host ≠ r.host then .host
  else if r'.chunked ≠ r.chunked then .transferEncoding
  else if r'.headers ≠ r.headers then .other
  else .connection

/-- The kinds are handled in different ways. -/
theorem takeRequestHeader_inj (heq : ∀ rest r, takeRequestHeader k h rest r =
    takeRequestHeader k' h rest r) : k = k' := by
  obtain ⟨n, hn⟩ : ∃ n, toSize (strtol (h.value ++ (h.trail ++ crlf))).value = n := ⟨_, rfl⟩
  have htaken : ∀ k, takenKind { Req.init with contentLength := n + 1 }
      (takeRequestHeader k h [] { Req.init with contentLength := n + 1 }).2 = k := by
    intro k
    cases k with
    | contentLength => simp [takenKind, takeRequestHeader, hn]
    | host => simp [takenKind, takeRequestHeader, phlRequestSetHost, Req.init]
    | connection => simp [takenKind, takeRequestHeader]
    | transferEncoding => simp [takenKind, takeRequestHeader, Req.init]
    | other => simp [takenKind, takeRequestHeader, Req.init]
  have hk := htaken k
  rw [heq, htaken k'] at hk
  exact hk.symm

def takenResponseKind (resp resp' : UpstreamResp Bytes) : HeaderKind :=
  if resp'.contentLength ≠ resp.contentLength then .contentLength
  else if resp'.data ≠ resp.data then .transferEncoding
  else if resp'.headers ≠ resp.headers then .other
  else .connection

theorem takeResponseHeader_inj (hk : k ≠ .host) (hk' : k' ≠ .host)
    (heq : ∀ rest resp, takeResponseHeader k h rest resp = takeResponseHeader k' h rest resp) :
    k = k' := by
  obtain ⟨n, hn⟩ : ∃ n, respLength (atoi (h.value ++ (h.trail ++ crlf))) = n := ⟨_, rfl⟩
  obtain ⟨m, hm⟩ : ∃ m : Option Nat, n ≠ m := by
    cases n with
    | none => exact ⟨some 0, nofun⟩
    | some n => exact ⟨none, nofun⟩
  have htaken : ∀ k, k ≠ .host → takenResponseKind ⟨0, 0, [], m, none⟩
      (takeResponseHeader k h [] ⟨0, 0, [], m, none⟩) = k := by
    intro k hk
    cases k with
    | contentLength => simp [takenResponseKind, takeResponseHeader, hn, hm]
    | host => exact absurd rfl hk
    | connection => simp [takenResponseKind, takeResponseHeader]
    | transferEncoding => simp [takenResponseKind, takeResponseHeader]
    | other => simp [takenResponseKind, takeResponseHeader]
  have hsame := htaken k hk
  rw [heq, htaken k' hk'] at hsame
  exact hsame.symm

theorem responseKind_ne_host (test : Bytes → Bytes → Bool) (name : Bytes) :
    kindOf test responseNames name ≠ .host := by
  intro hk
  obtain ⟨p, hp, -, hhost⟩ := exists_of_kindOf hk nofun
  have hnone : ∀ p ∈ responseNames, p.2 ≠ .host := by decide
  exact hnone p hp hhost

theorem requestRecognizes_iff : RequestRecognizes h ↔ Spelled requestNames h.name := by
  rw [← kindOf_eq_iff requestNames_apart]
  constructor
  · intro hrec
    apply takeRequestHeader_inj
    intro rest r
    rw [← phlHttp1RequestHeader_eq, hrec]
  · intro hkind rest r
    rw [phlHttp1RequestHeader_eq, hkind]

theorem responseRecognizes_iff : ResponseRecognizes h ↔ Spelled responseNames h.name := by
  rw [← kindOf_eq_iff responseNames_apart]
  constructor
  · intro hrec
    apply takeResponseHeader_inj (responseKind_ne_host _ _) (responseKind_ne_host _ _)
    intro rest resp
    rw [← phlProxyResponseHeader_eq, hrec]
  · intro hkind rest resp
    rw [phlProxyResponseHeader_eq, hkind]

end Header

/-- The header lines of a request, taken for `kind`; an error ends them. -/
def readRequestHeaders (kind : Bytes → HeaderKind) : List WireHeader → Bytes → Req → Int × Req
  | [], _, r => (phlOk, r)
  | h :: hs, rest, r =>
    let line := takeRequestHeader (kind h.name) h (hs.flatMap WireHeader.line ++ crlf ++ rest) r
    if line.1 ≠ phlOk then line else readRequestHeaders kind hs rest line.2

def readResponseHeaders (kind : Bytes → HeaderKind) :
    List WireHeader → Bytes → UpstreamResp Bytes → UpstreamResp Bytes
  | [], _, resp => resp
  | h :: hs, rest, resp =>
    readResponseHeaders kind hs rest
      (takeResponseHeader (kind h.name) h (hs.flatMap WireHeader.line ++ crlf ++ rest) resp)

section Lists

variable {lib : ResponseLib} {hs : List WireHeader} {fuel : Nat} {rest : Bytes}

/-- The first line stands before everything else the parser is still to read. -/
theorem headerLines_cons (h : WireHeader) (hs : List WireHeader) (rest : Bytes) :
    (h :: hs).flatMap WireHeader.line ++ crlf ++ rest =
      h.line ++ (hs.flatMap WireHeader.line ++ crlf ++ rest) := by
  simp only [List.flatMap_cons, List.append_assoc]

/-- A request line of the parser, and the lines after it. -/
theorem requestHeaderLines_read (hwf : ∀ h ∈ hs, h.WellFormed lib.toLibwuya)
    (hblank : TakesLine lib.httpHeader crlf (lib.httpHeader crlf).value)
    (hspelled : ∀ h ∈ hs, Spelled requestNames h.name) (hfuel : hs.length < fuel) (r : Req) :
    ∃ left, phlHttp1RequestHeaderLines lib.toLibwuya fuel r
        (hs.flatMap WireHeader.line ++ crlf ++ rest) =
      ((readRequestHeaders (kindOf strcasecmp requestNames) hs rest r).1,
        (readRequestHeaders (kindOf strcasecmp requestNames) hs rest r).2, left) := by
  induction hs generalizing fuel r with
  | nil =>
    cases fuel with
    | zero => exact absurd hfuel (Nat.not_lt_zero _)
    | succ fuel =>
      refine ⟨rest, ?_⟩
      rw [List.flatMap_nil, List.nil_append, phlHttp1RequestHeaderLines]
      simp only [hblank.whole, crlf_length]
      rfl
  | cons h hs ih =>
    cases fuel with
    | zero => exact absurd hfuel (Nat.not_lt_zero _)
    | succ fuel =>
      have hw := hwf h List.mem_cons_self
      have hlen := line_length h
      have hname : 0 < h.name.length := List.length_pos_iff.mpr hw.clean.1
      have hrec := requestRecognizes_iff.mpr (hspelled h List.mem_cons_self)
      have hline := hrec (hs.flatMap WireHeader.line ++ crlf ++ rest) r
      rw [headerLines_cons, phlHttp1RequestHeaderLines, readRequestHeaders]
      simp only [hw.taken.whole, Int.toNat_natCast, List.drop_left]
      rw [if_neg (by omega), if_neg (by omega), if_neg (by omega)]
      unfold WireHeader.found at hline
      rw [hline]
      split
      next => exact ⟨_, rfl⟩
      next =>
        rw [List.length_cons] at hfuel
        exact ih (fun g hg => hwf g (List.mem_cons_of_mem _ hg))
          (fun g hg => hspelled g (List.mem_cons_of_mem _ hg)) (by omega) _

theorem responseHeaderLines_read (hwf : ∀ h ∈ hs, h.WellFormed lib.toLibwuya)
    (hblank : TakesLine lib.httpHeader crlf (lib.httpHeader crlf).value)
    (hspelled : ∀ h ∈ hs, Spelled responseNames h.name) (hfuel : hs.length < fuel)
    (resp : UpstreamResp Bytes) :
    phlProxyResponseHeaderLines lib fuel resp (hs.flatMap WireHeader.line ++ crlf ++ rest) =
      (readResponseHeaders (kindOf strcasecmp responseNames) hs rest resp, some (rest, true)) := by
  induction hs generalizing fuel resp with
  | nil =>
    cases fuel with
    | zero => exact absurd hfuel (Nat.not_lt_zero _)
    | succ fuel =>
      rw [List.flatMap_nil, List.nil_append, phlProxyResponseHeaderLines]
      simp only [hblank.whole, crlf_length]
      rfl
  | cons h hs ih =>
    cases fuel with
    | zero => exact absurd hfuel (Nat.not_lt_zero _)
    | succ fuel =>
      have hw := hwf h List.mem_cons_self
      have hlen := line_length h
      have hname : 0 < h.name.length := List.length_pos_iff.mpr hw.clean.1
      have hrec := responseRecognizes_iff.mpr (hspelled h List.mem_cons_self)
      have hline := hrec (hs.flatMap WireHeader.line ++ crlf ++ rest) resp
      rw [headerLines_cons, phlProxyResponseHeaderLines, readResponseHeaders]
      simp only [hw.taken.whole, Int.toNat_natCast, List.drop_left]
      rw [if_neg (by omega), if_neg (by omega), if_neg (by omega)]
      unfold WireHeader.found at hline
      rw [hline]
      rw [List.length_cons] at hfuel
      exact ih (fun g hg => hwf g (List.mem_cons_of_mem _ hg))
        (fun g hg => hspelled g (List.mem_cons_of_mem _ hg)) (by omega) _

theorem length_le_headerLines (hs : List WireHeader) :
    hs.length ≤ (hs.flatMap WireHeader.line).length := by
  induction hs with
  | nil => simp
  | cons h hs ih =>
    have hlen := line_length h
    rw [List.flatMap_cons, List.length_append, List.length_cons]
    omega

/-- Each parser takes the headers for what their whole names say exactly where every name that
begins with one of its names, or is equal to one up to case, is that name. A list of such headers is
then read by the whole names. -/
theorem headers_recognized_iff (hwf : ∀ h ∈ hs, h.WellFormed lib.toLibwuya)
    (hblank : TakesLine lib.httpHeader crlf (lib.httpHeader crlf).value) :
    ((∀ h ∈ hs, RequestRecognizes h) ↔ ∀ h ∈ hs, Spelled requestNames h.name) ∧
    ((∀ h ∈ hs, ResponseRecognizes h) ↔ ∀ h ∈ hs, Spelled responseNames h.name) ∧
    ((∀ h ∈ hs, Spelled requestNames h.name) → ∀ rest r, ∃ left,
      phlHttp1RequestHeaderLines lib.toLibwuya
          ((hs.flatMap WireHeader.line ++ crlf ++ rest).length + 1) r
          (hs.flatMap WireHeader.line ++ crlf ++ rest) =
        ((readRequestHeaders (kindOf strcasecmp requestNames) hs rest r).1,
          (readRequestHeaders (kindOf strcasecmp requestNames) hs rest r).2, left)) ∧
    ((∀ h ∈ hs, Spelled responseNames h.name) → ∀ rest resp,
      phlProxyResponseHeaderLines lib
          ((hs.flatMap WireHeader.line ++ crlf ++ rest).length + 1) resp
          (hs.flatMap WireHeader.line ++ crlf ++ rest) =
        (readResponseHeaders (kindOf strcasecmp responseNames) hs rest resp,
          some (rest, true))) := by
  have hfuel : ∀ rest, hs.length < (hs.flatMap WireHeader.line ++ crlf ++ rest).length + 1 := by
    intro rest
    have hcount := length_le_headerLines hs
    simp only [List.length_append]
    omega
  refine ⟨?_, ?_, ?_, ?_⟩
  · exact forall₂_congr fun h _ => requestRecognizes_iff
  · exact forall₂_congr fun h _ => responseRecognizes_iff
  · exact fun hspelled rest r => requestHeaderLines_read hwf hblank hspelled (hfuel rest) r
  · exact fun hspelled rest resp =>
      responseHeaderLines_read hwf hblank hspelled (hfuel rest) resp

end Lists

/-- The library's parsers of lines. -/
def headersLib : ResponseLib := { Libwuya.lines with httpStatusLine := fun _ => ⟨0, ⟨0, 0⟩⟩ }

def lengthFive : WireHeader := lengthHeader (bytes "5")

theorem lengthFive_wellFormed : lengthFive.WellFormed Libwuya.lines where
  clean := by decide
  pad := by decide
  trail := nofun
  taken := by
    have hline : headerLine (bytes "Content-Length: 5") = some ⟨14, 16, 1⟩ := rfl
    exact takesLine_lineParser hline (by decide)

theorem headers_recognized_iff_five :
    (∀ h ∈ [lengthFive], RequestRecognizes h) ∧ ∀ h ∈ [lengthFive], ResponseRecognizes h := by
  have hwf : ∀ h ∈ [lengthFive], h.WellFormed headersLib.toLibwuya := by
    intro h hh
    rw [List.mem_singleton.mp hh]
    exact lengthFive_wellFormed
  have hrecognized := headers_recognized_iff hwf Libwuya.lines_blank
  have hspelled : ∀ h ∈ [lengthFive], Spelled requestNames h.name ∧ Spelled responseNames h.name := by
    unfold Spelled
    decide
  exact ⟨hrecognized.1.mpr fun h hh => (hspelled h hh).1,
    hrecognized.2.1.mpr fun h hh => (hspelled h hh).2⟩

/-- `content-length` is kept as another header, and `Content-Length-Hint` is taken for the
length. -/
theorem headers_misread :
    ¬RequestRecognizes ⟨bytes "content-length", [32], bytes "5", []⟩ ∧
    ¬ResponseRecognizes ⟨bytes "Content-Length-Hint", [32], bytes "5", []⟩ := by
  refine ⟨fun hrec => ?_, fun hrec => ?_⟩
  · have hread := congrArg (fun x => x.2.contentLength) (hrec [] .init)
    revert hread
    decide
  · have hread := congrArg (fun x => x.contentLength) (hrec [] ⟨0, 0, [], none, none⟩)
    revert hread
    decide

end Phorklift
