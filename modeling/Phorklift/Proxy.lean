import Phorklift.HttpMessage
import Phorklift.RequestRun

/-! What the proxy module sends to an upstream, and what an upstream makes of it. -/

namespace Phorklift

open Transition

structure ProxyConf where
  xForwardedFor : Bool
  deriving DecidableEq, Repr

/-- `%ld` of a `size_t` -/
def printSize (n : Nat) : Bytes :=
  if n < 2 ^ 63 then decimal n else 45 :: decimal (2 ^ 64 - n)

/-- The target of the request line; `none` where it would print a NULL path. -/
def requestTarget (r : Req) : Option Bytes :=
  if r.uri.isRewrited = false then some (cstr r.uri.raw)
  else match r.uri.query with
  | none => r.uri.path.map cstr
  | some query => r.uri.path.map fun path => cstr path ++ cstr query

def isForwardedFor (name : Bytes) : Bool := strcasecmp name (bytes "X-Forwarded-For")

/-- One round of the loop over the headers. -/
def phlProxyHeaderLine (conf : ProxyConf) (clientAddr : Bytes) (h : Header) : Bytes :=
  let line := cstr h.name ++ bytes ": " ++ cstr h.value ++ crlf
  if conf.xForwardedFor ∧ isForwardedFor (cstr h.name) then
    line.dropLast.dropLast ++ bytes ", " ++ clientAddr ++ crlf
  else line

/-- `noMethod` is the string of the method 0. -/
def phlProxyBuildRequestHeaders (conf : ProxyConf) (clientAddr noMethod : Bytes) (r : Req) :
    Option Bytes := do
  let target ← requestTarget r
  let line := r.method.getD noMethod ++ bytes " " ++ target ++ bytes " HTTP/1.1" ++ crlf
  let host := match r.host with
    | some host => bytes "Host: " ++ cstr host ++ crlf
    | none => []
  let length := if r.contentLength ≠ phlContentLengthInit then
    bytes "Content-Length: " ++ printSize r.contentLength ++ crlf else []
  let appendXff := r.headers.any fun h => isForwardedFor (cstr h.name)
  let xff := if conf.xForwardedFor ∧ appendXff = false then
    bytes "X-Forwarded-For: " ++ clientAddr ++ crlf else []
  some (line ++ host ++ length ++ r.headers.flatMap (phlProxyHeaderLine conf clientAddr) ++ xff ++
    crlf)

structure ProxyRequest where
  retries : Int
  reqBuf : Bytes
  deriving DecidableEq, Repr

/-- `ctx->retries` -/
def phlProxyRetries (r : Req) : Int :=
  if r.method ≠ some (bytes "GET") ∧ r.method ≠ some (bytes "HEAD") then -1 else 0

/-- `none` where the head overruns the buffer; `sprintf` ends it with a NUL. -/
def phlProxyBuildRequest (conf : ProxyConf) (clientAddr noMethod : Bytes) (r : Req) :
    Option ProxyRequest := do
  let head ← phlProxyBuildRequestHeaders conf clientAddr noMethod r
  if head.length + 1 ≤ 4096 + r.bodyBuf.length ∧ head.length ≤ 4096 then
    some ⟨phlProxyRetries r, head ++ r.bodyBuf⟩
  else none

section Received

def hostFields (r : Req) : List Http.Field :=
  match r.host with
  | some host => [⟨bytes "Host", host⟩]
  | none => []

/-- A received header, with the client's address added where it belongs. -/
def receivedField (conf : ProxyConf) (clientAddr : Bytes) (h : Header) : Http.Field :=
  if conf.xForwardedFor ∧ isForwardedFor h.name then ⟨h.name, h.value ++ bytes ", " ++ clientAddr⟩
  else ⟨h.name, h.value⟩

/-- The received headers and the update of `X-Forwarded-For`. -/
def receivedFields (conf : ProxyConf) (clientAddr : Bytes) (r : Req) : List Http.Field :=
  r.headers.map (receivedField conf clientAddr) ++
    if conf.xForwardedFor ∧ (r.headers.any fun h => isForwardedFor h.name) = false then
      [⟨bytes "X-Forwarded-For", clientAddr⟩] else []

def lengthFields (r : Req) : List Http.Field :=
  if r.contentLength ≠ phlContentLengthInit then
    [⟨bytes "Content-Length", printSize r.contentLength⟩] else []

def sentFields (conf : ProxyConf) (clientAddr : Bytes) (r : Req) : List Http.Field :=
  hostFields r ++ lengthFields r ++ receivedFields conf clientAddr r

def isFraming (f : Http.Field) : Bool :=
  f.named Http.contentLength || f.named Http.transferEncoding

/-- What is sent parses as one request, the received one but for its framing. -/
def ForwardedWhole (conf : ProxyConf) (clientAddr noMethod : Bytes) (r : Req) : Prop :=
  ∃ m t framing built, r.method = some m ∧ requestTarget r = some t ∧
    (∀ f ∈ framing, isFraming f = true) ∧
    phlProxyBuildRequest conf clientAddr noMethod r = some built ∧
    Http.parse built.reqBuf = some (⟨m, t,
      hostFields r ++ framing ++ receivedFields conf clientAddr r, r.bodyBuf⟩, [])

/-- The length of the body is known from the request's own, or from a header that is passed on. -/
def BodyFramed (conf : ProxyConf) (clientAddr : Bytes) (r : Req) : Prop :=
  (∀ f ∈ receivedFields conf clientAddr r, f.named Http.transferEncoding = false) ∧
  if r.contentLength = phlContentLengthInit then
    r.bodyBuf.length = 0 ∧
        (∀ f ∈ receivedFields conf clientAddr r, f.named Http.contentLength = false) ∨
      ∃ v, (∃ f ∈ receivedFields conf clientAddr r,
          f.named Http.contentLength = true ∧ f.value = v) ∧
        (∀ f ∈ receivedFields conf clientAddr r,
          f.named Http.contentLength = true → f.value = v) ∧
        Http.parseDecimal v = some r.bodyBuf.length
  else
    r.contentLength < 2 ^ 63 ∧ r.contentLength = r.bodyBuf.length ∧
      ∀ f ∈ receivedFields conf clientAddr r,
        f.named Http.contentLength = true → f.value = decimal r.contentLength

/-- The length of the head that the fields make, its first and last lines included. -/
def headLength (conf : ProxyConf) (clientAddr : Bytes) (r : Req) (m t : Bytes) : Nat :=
  m.length + t.length +
    ((sentFields conf clientAddr r).map fun f => f.name.length + f.value.length + 4).sum + 14

/-- What a request must be for the upstream to see it whole. -/
structure Forwardable (conf : ProxyConf) (clientAddr : Bytes) (r : Req) (m t : Bytes) : Prop where
  method : r.method = some m
  target : requestTarget r = some t
  cleanMethod : Http.CleanMethod m
  cleanTarget : Http.CleanTarget t
  cleanHost : ∀ f ∈ hostFields r, f.Clean
  cleanHeaders : ∀ f ∈ receivedFields conf clientAddr r, f.Clean
  framed : BodyFramed conf clientAddr r
  fits : headLength conf clientAddr r m t ≤ 4096
  terminated : headLength conf clientAddr r m t < 4096 + r.bodyBuf.length

end Received

section Head

variable {conf : ProxyConf} {clientAddr noMethod : Bytes} {r : Req} {m t : Bytes}

theorem nul_notMem_of_clean {f : Http.Field} (h : f.Clean) :
    (0 : UInt8) ∉ f.name ∧ (0 : UInt8) ∉ f.value := by
  obtain ⟨-, hname, -, -, hvalue⟩ := h
  constructor
  · intro hmem
    have htchar := hname 0 hmem
    revert htchar
    decide
  · intro hmem
    exact (hvalue 0 hmem).2.2 rfl

theorem receivedField_name (h : Header) : (receivedField conf clientAddr h).name = h.name := by
  unfold receivedField
  split <;> rfl

theorem cstr_of_receivedField {h : Header} (hc : (receivedField conf clientAddr h).Clean) :
    cstr h.name = h.name ∧ cstr h.value = h.value := by
  obtain ⟨hname, hvalue⟩ := nul_notMem_of_clean hc
  rw [receivedField_name] at hname
  refine ⟨cstr_of_nul_free hname, cstr_of_nul_free fun hmem => hvalue ?_⟩
  unfold receivedField
  split
  next => exact List.mem_append_left _ (List.mem_append_left _ hmem)
  next => exact hmem

theorem dropLast_crlf (line : Bytes) : (line ++ crlf).dropLast.dropLast = line := by
  have hcrlf : line ++ crlf = line ++ [13] ++ [10] := by simp [crlf]
  rw [hcrlf, List.dropLast_concat, List.dropLast_concat]

theorem phlProxyHeaderLine_of_clean {h : Header} (hc : (receivedField conf clientAddr h).Clean) :
    phlProxyHeaderLine conf clientAddr h =
      (receivedField conf clientAddr h).line ++ Http.crlf := by
  obtain ⟨hname, hvalue⟩ := cstr_of_receivedField hc
  unfold phlProxyHeaderLine receivedField Http.Field.line
  rw [hname, hvalue]
  dsimp only
  split
  next =>
    rw [dropLast_crlf]
    simp [bytes, crlf, Http.crlf]
  next => simp [bytes, crlf, Http.crlf]

theorem flatMap_phlProxyHeaderLine {hs : List Header}
    (hc : ∀ f ∈ hs.map (receivedField conf clientAddr), f.Clean) :
    hs.flatMap (phlProxyHeaderLine conf clientAddr) =
      (hs.map (receivedField conf clientAddr)).flatMap fun f => f.line ++ Http.crlf := by
  induction hs with
  | nil => rfl
  | cons h hs ih =>
    have hline := phlProxyHeaderLine_of_clean (hc _ List.mem_cons_self)
    have hlines := ih fun f hf => hc f (List.mem_cons_of_mem _ hf)
    rw [List.flatMap_cons, List.map_cons, List.flatMap_cons, hline, hlines]

theorem any_isForwardedFor {hs : List Header}
    (hc : ∀ f ∈ hs.map (receivedField conf clientAddr), f.Clean) :
    (hs.any fun h => isForwardedFor (cstr h.name)) = hs.any fun h => isForwardedFor h.name := by
  induction hs with
  | nil => rfl
  | cons h hs ih =>
    have hname := (cstr_of_receivedField (hc _ List.mem_cons_self)).1
    have hnames := ih fun f hf => hc f (List.mem_cons_of_mem _ hf)
    rw [List.any_cons, List.any_cons, hname, hnames]

/-- Where all that is sent is clean, the head is the one that its fields make. -/
theorem phlProxyBuildRequestHeaders_of_clean (hm : r.method = some m)
    (ht : requestTarget r = some t) (hhost : ∀ f ∈ hostFields r, f.Clean)
    (hheaders : ∀ f ∈ receivedFields conf clientAddr r, f.Clean) :
    phlProxyBuildRequestHeaders conf clientAddr noMethod r =
      some (Http.head m t (sentFields conf clientAddr r)) := by
  have hmapped : ∀ f ∈ r.headers.map (receivedField conf clientAddr), f.Clean := by
    intro f hf
    exact hheaders f (List.mem_append_left _ hf)
  have hhostLine : (match r.host with
      | some host => bytes "Host: " ++ cstr host ++ crlf
      | none => []) = (hostFields r).flatMap fun f => f.line ++ Http.crlf := by
    unfold hostFields at hhost ⊢
    cases hh : r.host with
    | none => rfl
    | some host =>
      rw [hh] at hhost
      have hnul : (0 : UInt8) ∉ host :=
        (nul_notMem_of_clean (hhost ⟨bytes "Host", host⟩ (by simp))).2
      dsimp only
      rw [cstr_of_nul_free hnul]
      simp [Http.Field.line, bytes, crlf, Http.crlf]
  have hlengthLine : (if r.contentLength ≠ phlContentLengthInit then
      bytes "Content-Length: " ++ printSize r.contentLength ++ crlf else []) =
        (lengthFields r).flatMap fun f => f.line ++ Http.crlf := by
    unfold lengthFields
    split
    next => simp [Http.Field.line, bytes, crlf, Http.crlf]
    next => rfl
  have hxff : (if conf.xForwardedFor ∧
      (r.headers.any fun h => isForwardedFor (cstr h.name)) = false then
        bytes "X-Forwarded-For: " ++ clientAddr ++ crlf else []) =
      (if conf.xForwardedFor ∧ (r.headers.any fun h => isForwardedFor h.name) = false then
        [(⟨bytes "X-Forwarded-For", clientAddr⟩ : Http.Field)] else []).flatMap
          fun f => f.line ++ Http.crlf := by
    rw [any_isForwardedFor hmapped]
    split
    next => simp [Http.Field.line, bytes, crlf, Http.crlf]
    next => rfl
  unfold phlProxyBuildRequestHeaders
  simp only [ht, hm, Option.getD_some, bind, Option.bind]
  rw [hhostLine, hlengthLine, hxff, flatMap_phlProxyHeaderLine hmapped]
  simp [Http.head, sentFields, receivedFields, Http.version, bytes, crlf, Http.crlf]

end Head

section Framing

variable {conf : ProxyConf} {clientAddr noMethod : Bytes} {r : Req} {m t : Bytes}

theorem parseDecimal_decimal (n : Nat) : Http.parseDecimal (decimal n) = some n := by
  have hdigits : ∀ c ∈ decimal n, 48 ≤ c ∧ c ≤ 57 := by
    intro c hc
    have hdigit := isDigit_of_mem_decimal hc
    simpa [isDigit] using hdigit
  unfold Http.parseDecimal
  rw [if_pos ⟨decimal_ne_nil n, hdigits⟩]
  exact congrArg some (digitsValue_decimal n)

theorem parseDecimal_printSize {n k : Nat} :
    Http.parseDecimal (printSize n) = some k ↔ n < 2 ^ 63 ∧ n = k := by
  unfold printSize
  split
  next h =>
    rw [parseDecimal_decimal, Option.some_inj]
    exact ⟨fun he => ⟨h, he⟩, fun he => he.2⟩
  next h =>
    have hminus : Http.parseDecimal (45 :: decimal (2 ^ 64 - n)) = none := by
      unfold Http.parseDecimal
      refine if_neg fun hd => ?_
      have h45 := (hd.2 45 List.mem_cons_self).1
      revert h45
      decide
    rw [hminus]
    exact ⟨nofun, fun he => absurd he.1 h⟩

theorem mem_printSize {n : Nat} {c : UInt8} (h : c ∈ printSize n) : c = 45 ∨ isDigit c = true := by
  unfold printSize at h
  split at h
  next => exact .inr (isDigit_of_mem_decimal h)
  next =>
    rcases List.mem_cons.mp h with rfl | h
    · exact .inl rfl
    · exact .inr (isDigit_of_mem_decimal h)

theorem clean_printSize {name : Bytes} {n : Nat} (hne : name ≠ [])
    (hname : ∀ c ∈ name, Http.isTchar c = true) : (⟨name, printSize n⟩ : Http.Field).Clean := by
  have hplain : ∀ c ∈ printSize n, Http.isBlank c = false ∧ c ≠ 13 ∧ c ≠ 10 ∧ c ≠ 0 := by
    intro c hc
    have hnot : ∀ d : UInt8, d ≠ 45 → isDigit d = false → c ≠ d := by
      rintro d h45 hd rfl
      rcases mem_printSize hc with h | h
      · exact h45 h
      · rw [hd] at h
        cases h
    refine ⟨?_, hnot 13 (by decide) rfl, hnot 10 (by decide) rfl, hnot 0 (by decide) rfl⟩
    simp only [Http.isBlank, Bool.or_eq_false_iff, beq_eq_false_iff_ne]
    exact ⟨hnot 32 (by decide) rfl, hnot 9 (by decide) rfl⟩
  refine ⟨hne, hname, ?_, ?_, fun c hc => (hplain c hc).2⟩
  · exact fun c hc => (hplain c (List.mem_of_head? hc)).1
  · exact fun c hc => (hplain c (List.mem_of_getLast? hc)).1

theorem not_isFraming_hostFields {f : Http.Field} (h : f ∈ hostFields r) :
    f.named Http.contentLength = false ∧ f.named Http.transferEncoding = false := by
  unfold hostFields at h
  split at h
  next =>
    rw [List.mem_singleton] at h
    subst h
    constructor <;> rfl
  next => cases h

theorem mem_lengthFields {f : Http.Field} (h : f ∈ lengthFields r) :
    r.contentLength ≠ phlContentLengthInit ∧ f.named Http.contentLength = true ∧
      f.named Http.transferEncoding = false ∧ f.value = printSize r.contentLength := by
  unfold lengthFields at h
  split at h
  next hne =>
    rw [List.mem_singleton] at h
    subst h
    exact ⟨hne, rfl, rfl, rfl⟩
  next => cases h

/-- The framing of what is sent, in terms of what was received. -/
theorem framing_sentFields_iff :
    Http.framing (sentFields conf clientAddr r) = some (.length r.bodyBuf.length) ↔
      BodyFramed conf clientAddr r := by
  have hmem : ∀ f, f ∈ sentFields conf clientAddr r ↔
      f ∈ hostFields r ∨ f ∈ lengthFields r ∨ f ∈ receivedFields conf clientAddr r := by
    intro f
    simp only [sentFields, List.mem_append, or_assoc]
  have hcoded : (∀ f ∈ sentFields conf clientAddr r, f.named Http.transferEncoding = false) ↔
      ∀ f ∈ receivedFields conf clientAddr r, f.named Http.transferEncoding = false := by
    constructor
    · intro h f hf
      exact h f ((hmem f).mpr (.inr (.inr hf)))
    · intro h f hf
      rcases (hmem f).mp hf with hf | hf | hf
      · exact (not_isFraming_hostFields hf).2
      · exact (mem_lengthFields hf).2.2.1
      · exact h f hf
  rw [Http.framing_length_iff, hcoded]
  unfold BodyFramed
  refine and_congr_right fun _ => ?_
  by_cases hinit : r.contentLength = phlContentLengthInit
  · have hsame : ∀ f, f.named Http.contentLength = true →
        (f ∈ sentFields conf clientAddr r ↔ f ∈ receivedFields conf clientAddr r) := by
      intro f hn
      rw [hmem]
      constructor
      · rintro (hf | hf | hf)
        · rw [(not_isFraming_hostFields hf).1] at hn
          cases hn
        · exact absurd hinit (mem_lengthFields hf).1
        · exact hf
      · exact fun hf => .inr (.inr hf)
    have hnone : (∀ f ∈ sentFields conf clientAddr r, f.named Http.contentLength = false) ↔
        ∀ f ∈ receivedFields conf clientAddr r, f.named Http.contentLength = false := by
      constructor
      · intro h f hf
        exact h f ((hmem f).mpr (.inr (.inr hf)))
      · intro h f hf
        by_contra hn
        rw [Bool.not_eq_false] at hn
        rw [h f ((hsame f hn).mp hf)] at hn
        cases hn
    have hall : ∀ v, (∀ f ∈ sentFields conf clientAddr r,
        f.named Http.contentLength = true → f.value = v) ↔
          ∀ f ∈ receivedFields conf clientAddr r,
            f.named Http.contentLength = true → f.value = v := by
      intro v
      exact ⟨fun h f hf hn => h f ((hsame f hn).mpr hf) hn,
        fun h f hf hn => h f ((hsame f hn).mp hf) hn⟩
    have hex : ∀ v, (∃ f ∈ sentFields conf clientAddr r,
        f.named Http.contentLength = true ∧ f.value = v) ↔
          ∃ f ∈ receivedFields conf clientAddr r,
            f.named Http.contentLength = true ∧ f.value = v := by
      intro v
      exact ⟨fun ⟨f, hf, hn, hv⟩ => ⟨f, (hsame f hn).mp hf, hn, hv⟩,
        fun ⟨f, hf, hn, hv⟩ => ⟨f, (hsame f hn).mpr hf, hn, hv⟩⟩
    rw [if_pos hinit, hnone]
    simp only [hall, hex]
  · have hlength : (⟨bytes "Content-Length", printSize r.contentLength⟩ : Http.Field) ∈
        lengthFields r := by
      unfold lengthFields
      rw [if_pos hinit]
      exact List.mem_singleton_self _
    have hsent := (hmem _).mpr (.inr (.inl hlength))
    rw [if_neg hinit]
    constructor
    · rintro (⟨-, hnone⟩ | ⟨v, -, hall, hv⟩)
      · cases hnone _ hsent
      · have hprint : printSize r.contentLength = v := hall _ hsent rfl
        subst hprint
        obtain ⟨hlt, heq⟩ := parseDecimal_printSize.mp hv
        refine ⟨hlt, heq, fun f hf hn => ?_⟩
        rw [hall f ((hmem f).mpr (.inr (.inr hf))) hn, printSize, if_pos hlt]
    · rintro ⟨hlt, heq, hall⟩
      refine .inr ⟨printSize r.contentLength, ⟨_, hsent, rfl, rfl⟩, ?_,
        parseDecimal_printSize.mpr ⟨hlt, heq⟩⟩
      intro f hf hn
      rcases (hmem f).mp hf with hf | hf | hf
      · rw [(not_isFraming_hostFields hf).1] at hn
        cases hn
      · exact (mem_lengthFields hf).2.2.2
      · rw [hall f hf hn, printSize, if_pos hlt]

theorem clean_sentFields (hhost : ∀ f ∈ hostFields r, f.Clean)
    (hheaders : ∀ f ∈ receivedFields conf clientAddr r, f.Clean) :
    ∀ f ∈ sentFields conf clientAddr r, f.Clean := by
  intro f hf
  rcases List.mem_append.mp hf with hf | hf
  · rcases List.mem_append.mp hf with hf | hf
    · exact hhost f hf
    · unfold lengthFields at hf
      split at hf
      next =>
        rw [List.mem_singleton] at hf
        rw [hf]
        exact clean_printSize (by decide) (by decide)
      next => cases hf
  · exact hheaders f hf

end Framing

theorem phlProxyBuildRequest_of_forwardable {conf : ProxyConf} {clientAddr noMethod m t : Bytes}
    {r : Req} (h : Forwardable conf clientAddr r m t) :
    phlProxyBuildRequest conf clientAddr noMethod r =
      some ⟨phlProxyRetries r, Http.head m t (sentFields conf clientAddr r) ++ r.bodyBuf⟩ := by
  unfold phlProxyBuildRequest
  rw [phlProxyBuildRequestHeaders_of_clean h.method h.target h.cleanHost h.cleanHeaders]
  refine if_pos ?_
  rw [Http.head_length]
  exact ⟨Nat.succ_le_of_lt h.terminated, h.fits⟩

/-- A path that waits for the body. -/
def proxyPath : ConfPath Unit Unit where
  reqBodyMax := 0
  reqBodySync := true
  filters := fun _ => []
  bodyFilters := []
  content := some {
    processHeaders := none
    processBody := none
    responseHeaders := fun r e => ⟨phlOk, r.req, r.resp, none, e, []⟩
    responseBody := none }

/-- A `POST` of one byte over HTTP/2 without a `content-length`. -/
def postedStream : World Unit Unit :=
  let w := newStream (Env.single proxyPath) ()
  let headers := [(bytes ":method", bytes "POST"), (bytes ":path", bytes "/")]
  let r := { w.r with req := phlHttp2HookStreamHeaders Libwuya.plain headers w.r.req }
  let r := (phlHttp2HookStreamHeadersEnd false r).2
  let r := (phlHttp2HookStreamBody 0 r (some (bytes "a"))).2
  { w with ctl := .running, r := (phlHttp2HookStreamBody 0 r none).2 }

theorem reachable_postedStream : Reachable (Init (Env.single proxyPath))
    (StepOk (Env.single proxyPath) fun _ => true) postedStream := by
  have hnew : Reachable (Init (Env.single proxyPath)) (StepOk (Env.single proxyPath) fun _ => true)
      (newStream (Env.single proxyPath) ()) := .start (init_new _ _)
  have hheaders := reachable_headers hnew rfl rfl rfl
    [(bytes ":method", bytes "POST"), (bytes ":path", bytes "/")]
  have hend := hheaders.next ⟨.headersEnd false rfl rfl rfl rfl, nofun⟩
  have hdata := hend.next ⟨.body 0 (some (bytes "a")) rfl rfl rfl, nofun⟩
  have hfinished := hdata.next ⟨.body 0 none rfl rfl rfl, nofun⟩
  exact hfinished.next ⟨.call rfl, nofun⟩

end Phorklift
