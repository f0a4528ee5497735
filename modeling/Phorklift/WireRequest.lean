import Phorklift.HttpMessage
import Phorklift.RequestRun

/-! Requests as HTTP/1.1 clients send them, and what `phl_http1_request_headers` takes of them. -/

namespace Phorklift

structure WireHeader where
  name : Bytes
  pad : Bytes
  value : Bytes
  trail : Bytes
  deriving DecidableEq, Repr

def WireHeader.line (h : WireHeader) : Bytes :=
  h.name ++ 58 :: (h.pad ++ h.value ++ h.trail ++ crlf)

def WireHeader.field (h : WireHeader) : Http.Field := ⟨h.name, h.value⟩

/-- `line` is the request line with its CRLF. -/
structure WireRequest where
  line : Bytes
  headers : List WireHeader
  body : Bytes
  deriving DecidableEq, Repr

def WireRequest.head (q : WireRequest) : Bytes :=
  q.line ++ q.headers.flatMap WireHeader.line ++ crlf

def WireRequest.bytes (q : WireRequest) : Bytes := q.head ++ q.body

/-- A parser takes the line, whatever follows it, and waits for the rest of it. -/
structure TakesLine {α : Type} (parse : Bytes → Parsed α) (line : Bytes) (v : α) : Prop where
  whole : ∀ rest, parse (line ++ rest) = ⟨line.length, v⟩
  wait : ∀ part rest, line = part ++ rest → rest ≠ [] → (parse part).procLen = 0

structure WireHeader.WellFormed (lib : Libwuya) (h : WireHeader) : Prop where
  clean : h.field.Clean
  pad : ∀ c ∈ h.pad, Http.isBlank c = true
  trail : ∀ c ∈ h.trail, Http.isBlank c = true
  taken : TakesLine lib.httpHeader h.line
    ⟨h.name.length, h.name.length + 1 + h.pad.length, h.value.length⟩

/-- The library takes its lines, and `Content-Length` frames its body. -/
structure WireRequest.WellFormed (lib : Libwuya) (q : WireRequest) : Prop where
  nonempty : q.line ≠ []
  line : TakesLine lib.httpRequestLine q.line (lib.httpRequestLine q.line).value
  headers : ∀ h ∈ q.headers, h.WellFormed lib
  blank : TakesLine lib.httpHeader crlf (lib.httpHeader crlf).value
  framed : Http.framing (q.headers.map WireHeader.field) = some (.length q.body.length)

def isLengthName (name : Bytes) : Bool := (bytes "Content-Length").isPrefixOf name

def isHostName (name : Bytes) : Bool := (bytes "Host").isPrefixOf name

def hostValues (hs : List WireHeader) : List Bytes :=
  (hs.filter fun h => isHostName h.name).map (·.value)

/-- Every host is the one that came first. -/
def HostsAgree : Option Bytes → List Bytes → Prop
  | _, [] => True
  | none, v :: vs => HostsAgree (some (lower (cstr v))) vs
  | some host, v :: vs => strncasecmp host v v.length = true ∧ HostsAgree (some host) vs

/-- The body is announced by a header spelled `Content-Length`, every header whose name begins
so has its length, and the URI and the headers whose name begins with `Host` name one host. -/
structure WireRequest.Plain (lib : Libwuya) (q : WireRequest) : Prop where
  uri : ∃ parts, lib.httpUri (lib.httpRequestLine q.line).value.url = some parts ∧
    lib.httpDecodePath parts.path ≠ none ∧
    HostsAgree (parts.host.map fun host => lower (cstr host)) (hostValues q.headers)
  /-- `body_len` is an `int` -/
  small : q.body.length < 2 ^ 31
  spelled : q.body ≠ [] → ∃ h ∈ q.headers, isLengthName h.name = true
  lengths : ∀ h ∈ q.headers, isLengthName h.name = true →
    Http.parseDecimal h.value = some q.body.length

section Line

variable {lib : Libwuya} {body : Bytes} {r : Req} {h : WireHeader} {hs : List WireHeader}

/-- A name that begins with a word without colons is not taken for another one. -/
theorem isPrefixOf_line {word : Bytes} (hword : (58 : UInt8) ∉ word) (name rest : Bytes) :
    word.isPrefixOf (name ++ 58 :: rest) = word.isPrefixOf name := by
  induction word generalizing name with
  | nil => rfl
  | cons c word ih =>
    have hc : c ≠ 58 := fun h0 => hword (h0 ▸ List.mem_cons_self)
    have hrest := ih fun h0 => hword (List.mem_cons_of_mem c h0)
    cases name with
    | nil => simp [List.isPrefixOf, hc]
    | cons d name =>
      simp only [List.cons_append, List.isPrefixOf]
      rw [hrest]

/-- `strtol` on a number that is followed by something else, which saturates. -/
theorem strtol_number {v rest : Bytes} {n : Nat} (hv : Http.parseDecimal v = some n)
    (hrest : ∀ c ∈ rest.head?, isDigit c = false) :
    strtol (v ++ rest) =
      if longMax < (n : Int) then ⟨longMax, v.length, true⟩ else ⟨n, v.length, false⟩ := by
  unfold Http.parseDecimal at hv
  split at hv
  next hdigits =>
    obtain ⟨hne, hall⟩ := hdigits
    have hvalue : digitsValue v = n := Option.some.inj hv
    have hdigit : ∀ c ∈ v, isDigit c = true := by
      intro c hc
      have hc' := hall c hc
      simpa [isDigit] using hc'
    have htake := (Http.takeWhile_stop hdigit hrest).1
    obtain ⟨c, v, rfl⟩ := List.exists_cons_of_ne_nil hne
    obtain ⟨hspace, h45, h43⟩ := isDigit_first (hdigit c List.mem_cons_self)
    have hblank : (c :: v ++ rest).takeWhile isSpace = [] :=
      List.takeWhile_cons_of_neg (by simp [hspace])
    have hminus : ((c :: v ++ rest).take 1 == [45]) = false := by simp [h45]
    have hplus : ((c :: v ++ rest).take 1 == [43]) = false := by simp [h43]
    unfold strtol
    simp only [hblank, List.length_nil, List.drop_zero, hminus, hplus, Bool.or_self,
      Bool.false_eq_true, if_false, htake, hvalue, List.isEmpty_cons]
    have hmin : ¬(n : Int) < longMin := by
      unfold longMin
      omega
    rw [if_neg hmin]
    simp
  next => cases hv

theorem strtol_digits {v rest : Bytes} {n : Nat} (hv : Http.parseDecimal v = some n)
    (hn : n < 2 ^ 63) (hrest : ∀ c ∈ rest.head?, isDigit c = false) :
    strtol (v ++ rest) = ⟨n, v.length, false⟩ := by
  have hmax : ¬longMax < (n : Int) := by
    unfold longMax
    omega
  rw [strtol_number hv hrest, if_neg hmax]

/-- Of the request before the headers `left`. -/
structure HeadReq (left : List WireHeader) (body : Bytes) (r : Req) : Prop where
  method : r.method ≠ none
  bodyBuf : r.bodyBuf = []
  bodyFinished : r.bodyFinished = false
  length : r.contentLength = body.length ∨ r.contentLength = phlContentLengthInit ∧
    (body ≠ [] → ∃ h ∈ left, isLengthName h.name = true)
  hosts : HostsAgree r.host (hostValues left)
  lengths : ∀ h ∈ left, isLengthName h.name = true → Http.parseDecimal h.value = some body.length

/-- What `phl_http1_request_header` finds at the value's place. -/
theorem value_drop (h : WireHeader) (rest : Bytes) :
    (h.line ++ rest).drop (h.name.length + 1 + h.pad.length) =
      h.value ++ (h.trail ++ crlf ++ rest) := by
  have hsplit : h.line ++ rest =
      (h.name ++ 58 :: h.pad) ++ (h.value ++ (h.trail ++ crlf ++ rest)) := by
    simp [WireHeader.line]
  have hlen : (h.name ++ 58 :: h.pad).length = h.name.length + 1 + h.pad.length := by
    simp only [List.length_append, List.length_cons]
    omega
  rw [hsplit, ← hlen, List.drop_left]

/-- A value ends before a blank or the line's end. -/
theorem trail_stop (htrail : ∀ c ∈ h.trail, Http.isBlank c = true) (rest : Bytes) :
    ∀ c ∈ (h.trail ++ crlf ++ rest).head?, isDigit c = false := by
  intro c hc
  cases ht : h.trail with
  | nil =>
    rw [ht] at hc
    cases hc
    rfl
  | cons d trail =>
    rw [ht] at hc
    cases hc
    have hblank := htrail c (ht ▸ List.mem_cons_self)
    simp only [Http.isBlank, Bool.or_eq_true, beq_iff_eq] at hblank
    rcases hblank with hblank | hblank <;> rw [hblank] <;> rfl

theorem WireHeader.WellFormed.value (hw : h.WellFormed lib) (rest : Bytes) :
    ∃ more, (h.line ++ rest).drop (h.name.length + 1 + h.pad.length) = h.value ++ more ∧
      ∀ c ∈ more.head?, isDigit c = false :=
  ⟨h.trail ++ crlf ++ rest, value_drop h rest, trail_stop hw.trail rest⟩

theorem not_isHostName {name : Bytes} (h : isLengthName name = true) : ¬isHostName name = true := by
  cases name with
  | nil => exact absurd h (by decide)
  | cons c name =>
    intro hhost
    have h67 : bytes "Content-Length" = 67 :: (bytes "Content-Length").tail := rfl
    have h72 : bytes "Host" = 72 :: (bytes "Host").tail := rfl
    unfold isLengthName at h
    unfold isHostName at hhost
    rw [h67] at h
    rw [h72] at hhost
    simp only [List.isPrefixOf, Bool.and_eq_true, beq_iff_eq] at h hhost
    rw [← h.1] at hhost
    exact absurd hhost.1 (by decide)

theorem isLengthName_line {h : WireHeader} (rest : Bytes) :
    (bytes "Content-Length").isPrefixOf (h.line ++ rest) = isLengthName h.name := by
  unfold WireHeader.line
  rw [List.append_assoc]
  exact isPrefixOf_line (by decide) _ _

theorem isHostName_line {h : WireHeader} (rest : Bytes) :
    (bytes "Host").isPrefixOf (h.line ++ rest) = isHostName h.name := by
  unfold WireHeader.line
  rw [List.append_assoc]
  exact isPrefixOf_line (by decide) _ _

theorem phlRequestSetHost_agrees {r : Req} {v : Bytes} {vs : List Bytes}
    (h : HostsAgree r.host (v :: vs)) :
    ∃ host, phlRequestSetHost r v = (true, { r with host := host }) ∧ HostsAgree host vs := by
  cases r with
  | mk method version contentLength uri host headers chunked bodyBuf bodyFinished =>
    cases host with
    | none => exact ⟨_, rfl, h⟩
    | some host =>
      refine ⟨some host, ?_, h.2⟩
      unfold phlRequestSetHost
      dsimp only
      rw [h.1]

theorem hostValues_cons : hostValues (h :: hs) =
    if isHostName h.name then h.value :: hostValues hs else hostValues hs := by
  unfold hostValues
  rw [List.filter_cons]
  split <;> rfl

/-- One header line is taken without complaint. -/
theorem phlHttp1RequestHeader_takes (hw : h.WellFormed lib) (hsmall : body.length < 2 ^ 63)
    (hr : HeadReq (h :: hs) body r) (rest : Bytes) :
    ∃ r', phlHttp1RequestHeader ⟨h.name.length, h.name.length + 1 + h.pad.length, h.value.length⟩
      (h.line ++ rest) r = (phlOk, r') ∧ HeadReq hs body r' := by
  obtain ⟨more, hvalue, hmore⟩ := hw.value rest
  have hlengths : ∀ g ∈ hs, isLengthName g.name = true →
      Http.parseDecimal g.value = some body.length := by
    intro g hg
    exact hr.lengths g (List.mem_cons_of_mem _ hg)
  unfold phlHttp1RequestHeader
  dsimp only
  rw [isLengthName_line, isHostName_line, hvalue]
  split
  next hname =>
    have hdecimal := hr.lengths h List.mem_cons_self hname
    have hhosts : HostsAgree r.host (hostValues hs) := by
      have hagree := hr.hosts
      have hother := not_isHostName hname
      rwa [hostValues_cons, if_neg hother] at hagree
    rw [strtol_digits hdecimal hsmall hmore]
    refine ⟨{ r with contentLength := toSize body.length }, if_neg (by simp), ?_⟩
    exact ⟨hr.method, hr.bodyBuf, hr.bodyFinished, .inl (toSize_natCast (Nat.lt_trans hsmall (by decide))), hhosts, hlengths⟩
  next hname =>
    have hlength : r.contentLength = body.length ∨ r.contentLength = phlContentLengthInit ∧
        (body ≠ [] → ∃ g ∈ hs, isLengthName g.name = true) := by
      rcases hr.length with hl | ⟨hl, hex⟩
      · exact .inl hl
      · refine .inr ⟨hl, fun hb => ?_⟩
        obtain ⟨g, hg, hgn⟩ := hex hb
        rcases List.mem_cons.mp hg with rfl | hg
        · exact absurd hgn hname
        · exact ⟨g, hg, hgn⟩
    split
    next hhost =>
      have hagree := hr.hosts
      rw [hostValues_cons, if_pos hhost] at hagree
      obtain ⟨host, hset, hhosts⟩ := phlRequestSetHost_agrees hagree
      rw [List.take_left, hset]
      exact ⟨{ r with host := host }, rfl, hr.method, hr.bodyBuf, hr.bodyFinished, hlength, hhosts,
        hlengths⟩
    next hhost =>
      have hhosts : HostsAgree r.host (hostValues hs) := by
        have hagree := hr.hosts
        rwa [hostValues_cons, if_neg hhost] at hagree
      split
      next => exact ⟨r, rfl, hr.method, hr.bodyBuf, hr.bodyFinished, hlength, hhosts, hlengths⟩
      next =>
        split
        next => exact ⟨_, rfl, hr.method, hr.bodyBuf, hr.bodyFinished, hlength, hhosts, hlengths⟩
        next => exact ⟨_, rfl, hr.method, hr.bodyBuf, hr.bodyFinished, hlength, hhosts, hlengths⟩

/-- Of what has arrived, the next line is either whole or only begun. -/
theorem arrived_cases {recv unsent line more : Bytes} (h : recv ++ unsent = line ++ more) :
    (∃ rest, recv = line ++ rest ∧ rest ++ unsent = more) ∨
      ∃ rest, line = recv ++ rest ∧ rest ≠ [] := by
  rcases List.append_eq_append_iff.mp h with ⟨as, hline, -⟩ | ⟨bs, hrecv, hmore⟩
  · cases as with
    | nil =>
      refine .inl ⟨[], ?_, ?_⟩
      · rw [hline]
        simp
      · rw [hline, List.append_nil] at h
        exact List.append_cancel_left h
    | cons a as => exact .inr ⟨a :: as, hline, by simp⟩
  · exact .inl ⟨bs, hrecv, hmore.symm⟩

theorem crlf_length : crlf.length = 2 := rfl

theorem line_length (h : WireHeader) : h.name.length + 3 ≤ h.line.length := by
  simp only [WireHeader.line, List.length_append, List.length_cons, crlf_length]
  omega

/-- What the loop over the header lines has taken of the buffer. -/
inductive HeaderLines (body : Bytes) (hs : List WireHeader) (recv : Bytes) :
    Int × Req × Bytes → Prop
  | again {taken left : List WireHeader} {r : Req} {rest : Bytes} : hs = taken ++ left →
      recv = taken.flatMap WireHeader.line ++ rest → HeadReq left body r →
      HeaderLines body hs recv (phlAgain, r, rest)
  | ended {r : Req} {rest : Bytes} : recv = hs.flatMap WireHeader.line ++ crlf ++ rest →
      HeadReq [] body r → HeaderLines body hs recv (phlOk, r, rest)

theorem phlHttp1RequestHeaderLines_takes {unsent recv : Bytes} {fuel : Nat}
    (hwf : ∀ h ∈ hs, h.WellFormed lib)
    (hblank : TakesLine lib.httpHeader crlf (lib.httpHeader crlf).value)
    (hsmall : body.length < 2 ^ 63) (hr : HeadReq hs body r) (hfuel : recv.length < fuel)
    (hdata : recv ++ unsent = hs.flatMap WireHeader.line ++ crlf ++ body) :
    HeaderLines body hs recv (phlHttp1RequestHeaderLines lib fuel r recv) := by
  induction fuel generalizing hs r recv with
  | zero => omega
  | succ fuel ih =>
    have hstart : ∀ {line more : Bytes} {v : HeaderLine}, TakesLine lib.httpHeader line v →
        recv ++ unsent = line ++ more → (∃ rest, recv = line ++ rest ∧ rest ++ unsent = more) ∨
          (lib.httpHeader recv).procLen = 0 := by
      intro line more v htakes hsplit
      rcases arrived_cases hsplit with h | ⟨rest, hline, hne⟩
      · exact .inl h
      · exact .inr (htakes.wait recv rest hline hne)
    have hwait : (lib.httpHeader recv).procLen = 0 →
        HeaderLines body hs recv (phlHttp1RequestHeaderLines lib (fuel + 1) r recv) := by
      intro h0
      unfold phlHttp1RequestHeaderLines
      simp only [h0]
      have hnone : hs = [] ++ hs := rfl
      exact .again hnone rfl hr
    cases hs with
    | nil =>
      rcases hstart hblank hdata with ⟨rest, rfl, hrest⟩ | h0
      · unfold phlHttp1RequestHeaderLines
        simp only [hblank.whole, crlf_length]
        exact .ended rfl hr
      · exact hwait h0
    | cons h hs =>
      have hw := hwf h List.mem_cons_self
      rw [List.flatMap_cons, List.append_assoc, List.append_assoc] at hdata
      rcases hstart hw.taken hdata with ⟨rest, rfl, hrest⟩ | h0
      · obtain ⟨r', hheader, hr'⟩ := phlHttp1RequestHeader_takes hw hsmall hr rest
        have hlen := line_length h
        have hrun : phlHttp1RequestHeaderLines lib (fuel + 1) r (h.line ++ rest) =
            phlHttp1RequestHeaderLines lib fuel r' rest := by
          rw [phlHttp1RequestHeaderLines]
          simp only [hw.taken.whole, Int.toNat_natCast, List.drop_left, hheader]
          rw [if_neg (by omega), if_neg (by omega), if_neg (by omega), if_neg (by simp)]
        rw [hrun]
        rw [List.length_append] at hfuel
        rw [← List.append_assoc] at hrest
        have hlines := ih (fun g hg => hwf g (List.mem_cons_of_mem _ hg)) hr' (by omega) hrest
        generalize phlHttp1RequestHeaderLines lib fuel r' rest = out at hlines
        cases hlines with
        | @again taken left _ _ hs' hrest' hr'' =>
          have hsplit : h :: hs = (h :: taken) ++ left := by rw [hs', List.cons_append]
          refine .again hsplit ?_ hr''
          rw [hrest', List.flatMap_cons, List.append_assoc]
        | ended hrest' hr'' =>
          refine .ended ?_ hr''
          rw [hrest', List.flatMap_cons]
          simp only [List.append_assoc]
      · exact hwait h0

/-- How far the head has been taken: `taken` is behind and `left` is to come. -/
inductive HeadAt (q : WireRequest) : Bytes → Bytes → Req → Prop
  | line : HeadAt q [] q.head .init
  | headers {before left : List WireHeader} {r : Req} : q.headers = before ++ left →
      HeadReq left q.body r → HeadAt q (q.line ++ before.flatMap WireHeader.line)
        (left.flatMap WireHeader.line ++ crlf) r

theorem HeadAt.head {q : WireRequest} {taken left : Bytes} (h : HeadAt q taken left r) :
    taken ++ left = q.head := by
  cases h with
  | line => rfl
  | headers hsplit _ =>
    unfold WireRequest.head
    rw [hsplit, List.flatMap_append]
    simp only [List.append_assoc]

/-- What one call makes of the buffer. -/
inductive HeadersTaken (q : WireRequest) (taken left recv : Bytes) : Int × Req × Bytes → Prop
  | again {now later rest : Bytes} {r : Req} : recv = now ++ rest → left = now ++ later →
      HeadAt q (taken ++ now) later r → HeadersTaken q taken left recv (phlAgain, r, rest)
  | ended {rest : Bytes} {r : Req} : recv = left ++ rest → HeadReq [] q.body r →
      HeadersTaken q taken left recv (phlOk, r, rest)

theorem WireRequest.Plain.fits {q : WireRequest} (h : q.Plain lib) : q.body.length < 2 ^ 63 := by
  have hsmall := h.small
  omega

theorem phlRequestSetUri_takes {q : WireRequest} (hplain : q.Plain lib) (method : Bytes)
    (version : Nat) : ∃ r1, phlRequestSetUri lib { Req.init with
      method := some method
      version := version } (lib.httpRequestLine q.line).value.url = (true, r1) ∧
        HeadReq q.headers q.body r1 := by
  obtain ⟨parts, hparts, hdecode, hhosts⟩ := hplain.uri
  obtain ⟨path, hpath⟩ := Option.ne_none_iff_exists'.mp hdecode
  unfold phlRequestSetUri
  simp only [hparts]
  cases hhost : parts.host with
  | none =>
    simp only [hpath, if_true]
    rw [hhost] at hhosts
    exact ⟨_, rfl, by simp, rfl, rfl, .inr ⟨rfl, hplain.spelled⟩, hhosts, hplain.lengths⟩
  | some host =>
    simp only [phlRequestSetHost, Req.init, hpath, if_true]
    rw [hhost] at hhosts
    exact ⟨_, rfl, by simp, rfl, rfl, .inr ⟨rfl, hplain.spelled⟩, hhosts, hplain.lengths⟩

theorem headersTaken_of_lines {q : WireRequest} {before left : List WireHeader} {recv : Bytes}
    {out : Int × Req × Bytes} (hsplit : q.headers = before ++ left)
    (h : HeaderLines q.body left recv out) :
    HeadersTaken q (q.line ++ before.flatMap WireHeader.line)
      (left.flatMap WireHeader.line ++ crlf) recv out := by
  cases h with
  | @again taken later _ _ hleft hrecv hr =>
    have hnow : left.flatMap WireHeader.line ++ crlf =
        taken.flatMap WireHeader.line ++ (later.flatMap WireHeader.line ++ crlf) := by
      rw [hleft, List.flatMap_append, List.append_assoc]
    refine .again hrecv hnow ?_
    rw [List.append_assoc, ← List.flatMap_append]
    exact .headers (by rw [hsplit, hleft, List.append_assoc]) hr
  | ended hrecv hr => exact .ended hrecv hr

theorem HeadersTaken.after {q : WireRequest} {taken now left recv : Bytes}
    {out : Int × Req × Bytes} (h : HeadersTaken q (taken ++ now) left recv out) :
    HeadersTaken q taken (now ++ left) (now ++ recv) out := by
  cases h with
  | @again now' later _ _ hrecv hleft hat =>
    rw [List.append_assoc] at hat
    exact .again (by rw [hrecv, List.append_assoc]) (by rw [hleft, List.append_assoc]) hat
  | ended hrecv hr => exact .ended (by rw [hrecv, List.append_assoc]) hr

/-- `phl_http1_request_headers` takes the head of a plain request and nothing else. -/
theorem phlHttp1RequestHeaders_takes {q : WireRequest} {taken left unsent recv : Bytes}
    (hwf : q.WellFormed lib) (hplain : q.Plain lib) (h : HeadAt q taken left r)
    (hdata : recv ++ unsent = left ++ q.body) :
    HeadersTaken q taken left recv (phlHttp1RequestHeaders lib r recv) := by
  cases h with
  | line =>
    unfold phlHttp1RequestHeaders
    dsimp only [Req.init]
    have hsplit : recv ++ unsent =
        q.line ++ (q.headers.flatMap WireHeader.line ++ crlf ++ q.body) := by
      rw [hdata]
      simp only [WireRequest.head, List.append_assoc]
    rcases arrived_cases hsplit with ⟨rest, rfl, hrest⟩ | ⟨rest, hline, hne⟩
    · obtain ⟨r1, huri, hr⟩ := phlRequestSetUri_takes hplain
        (lib.httpRequestLine q.line).value.method (lib.httpRequestLine q.line).value.version
      have hpos := List.length_pos_iff.mpr hwf.nonempty
      have hnone : q.headers = [] ++ q.headers := rfl
      have hlines := headersTaken_of_lines hnone
        (phlHttp1RequestHeaderLines_takes hwf.headers hwf.blank hplain.fits hr
          (Nat.lt_succ_self rest.length) hrest)
      rw [List.flatMap_nil, List.append_nil] at hlines
      have htaken : HeadersTaken q [] (q.line ++ (q.headers.flatMap WireHeader.line ++ crlf))
          (q.line ++ rest) _ := HeadersTaken.after hlines
      rw [← List.append_assoc] at htaken
      simp only [hwf.line.whole, List.drop_left, Int.toNat_natCast]
      rw [if_neg (by omega), if_neg (by omega)]
      dsimp only [Req.init] at huri
      rw [huri]
      exact htaken
    · have h0 := hwf.line.wait recv rest hline hne
      simp only [h0]
      exact .again (List.nil_append recv).symm (List.nil_append _).symm .line
  | headers hsplit hr =>
    unfold phlHttp1RequestHeaders
    obtain ⟨m, hm⟩ := Option.ne_none_iff_exists'.mp hr.method
    simp only [hm]
    refine headersTaken_of_lines hsplit
      (phlHttp1RequestHeaderLines_takes (fun g hg => hwf.headers g ?_) hwf.blank hplain.fits hr
        (Nat.lt_succ_self _) hdata)
    rw [hsplit]
    exact List.mem_append_right _ hg

end Line

/-- Takes the lines that `f` knows. -/
def lineParser {α : Type} (d : α) (f : Bytes → Option α) (s : Bytes) : Parsed α :=
  match Http.takeLine s with
  | none => ⟨0, d⟩
  | some (line, _) =>
    match f line with
    | none => ⟨phlError, d⟩
    | some v => ⟨line.length + 2, v⟩

theorem takesLine_lineParser {α : Type} {d v : α} {f : Bytes → Option α} {line : Bytes}
    (hf : f line = some v) (hline : 13 ∉ line) : TakesLine (lineParser d f) (line ++ crlf) v := by
  refine ⟨fun rest => ?_, fun part rest hpart hne => ?_⟩
  · have htake : Http.takeLine (line ++ crlf ++ rest) = some (line, rest) := by
      exact Http.takeLine_append hline rest
    unfold lineParser
    simp only [htake, hf, List.length_append, crlf_length]
    rfl
  · have hnone : Http.takeLine part = none := by
      by_contra hsome
      obtain ⟨⟨l, r⟩, htake⟩ := Option.ne_none_iff_exists'.mp hsome
      have hmore := Http.takeLine_append_right htake rest
      rw [← hpart] at hmore
      have hwhole := Http.takeLine_append hline []
      rw [List.append_nil] at hwhole
      have hboth := hmore.symm.trans hwhole
      simp only [Option.some.injEq, Prod.mk.injEq, List.append_eq_nil_iff] at hboth
      exact hne hboth.2.2
    unfold lineParser
    rw [hnone]

theorem TakesLine.of_value {α : Type} {parse : Bytes → Parsed α} {line : Bytes} {v : α}
    (h : TakesLine parse line v) : TakesLine parse line (parse line).value := by
  have hwhole := h.whole []
  rw [List.append_nil] at hwhole
  rw [hwhole]
  exact h

def requestLine (line : Bytes) : Option RequestLine :=
  (Http.parseRequestLine line).map fun p => ⟨p.1, p.2, 1⟩

def headerLine (line : Bytes) : Option HeaderLine :=
  if line = [] then some ⟨0, 0, 0⟩
  else (Http.parseField line).map fun f =>
    let value := line.drop (f.name.length + 1)
    ⟨f.name.length, f.name.length + 1 + (value.takeWhile Http.isBlank).length, f.value.length⟩

/-- Parsers of requests whose URIs are paths. -/
def Libwuya.lines : Libwuya :=
  { Libwuya.plain with
    httpRequestLine := lineParser ⟨[], [], 0⟩ requestLine
    httpHeader := lineParser ⟨0, 0, 0⟩ headerLine }

theorem Libwuya.lines_line {line : Bytes} {v : RequestLine} (hv : requestLine line = some v)
    (hline : 13 ∉ line) : TakesLine Libwuya.lines.httpRequestLine (line ++ crlf)
      (Libwuya.lines.httpRequestLine (line ++ crlf)).value :=
  (takesLine_lineParser hv hline).of_value

theorem Libwuya.lines_blank :
    TakesLine Libwuya.lines.httpHeader crlf (Libwuya.lines.httpHeader crlf).value := by
  have hblank : headerLine [] = some ⟨0, 0, 0⟩ := rfl
  have htakes := takesLine_lineParser (d := (⟨0, 0, 0⟩ : HeaderLine)) hblank List.not_mem_nil
  exact htakes.of_value

end Phorklift
