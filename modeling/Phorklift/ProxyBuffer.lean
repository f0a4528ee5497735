import Phorklift.Arena
import Phorklift.Proxy
import Phorklift.WireRequest

/-! What the proxy module stores in the buffer of a request to an upstream. -/

namespace Phorklift

open Arena

/-- The bytes between `buffer` and `pos`, and the stores that were made from `buffer` on. -/
structure HeadWriter where
  text : Bytes
  stores : List Span

namespace HeadWriter

/-- `pos += sprintf(pos, ...)`, which ends what it prints with a NUL. -/
def sprintf (b : HeadWriter) (s : Bytes) : HeadWriter :=
  ⟨b.text ++ s, b.stores ++ [⟨b.text.length, s.length + 1⟩]⟩

/-- `pos -= 2` -/
def back (b : HeadWriter) : HeadWriter := { b with text := b.text.dropLast.dropLast }

/-- `memcpy(pos, s, len)` and the step of `pos` after it. -/
def memcpy (b : HeadWriter) (s : Bytes) : HeadWriter :=
  ⟨b.text ++ s, b.stores ++ [⟨b.text.length, s.length⟩]⟩

/-- A round of the loop over the headers. -/
def header (conf : ProxyConf) (clientAddr : Bytes) (b : HeadWriter) (h : Header) : HeadWriter :=
  let name := cstr h.name
  let b := b.sprintf (name ++ bytes ": " ++ cstr h.value ++ crlf)
  if conf.xForwardedFor ∧ isForwardedFor name then b.back.sprintf (bytes ", " ++ clientAddr ++ crlf)
  else b

/-- The calls of `sprintf` in `phl_proxy_build_request_headers`. -/
def requestHeaders (conf : ProxyConf) (clientAddr noMethod : Bytes) (r : Req) :
    Option HeadWriter := do
  let target ← requestTarget r
  let b := sprintf ⟨[], []⟩ (r.method.getD noMethod ++ bytes " ")
  let b := b.sprintf (target ++ bytes " HTTP/1.1" ++ crlf)
  let b := match r.host with
    | some host => b.sprintf (bytes "Host: " ++ cstr host ++ crlf)
    | none => b
  let b := if r.contentLength ≠ phlContentLengthInit then
    b.sprintf (bytes "Content-Length: " ++ printSize r.contentLength ++ crlf) else b
  let b := r.headers.foldl (header conf clientAddr) b
  let appendXff := r.headers.any fun h => isForwardedFor (cstr h.name)
  let b := if conf.xForwardedFor ∧ appendXff = false then
    b.sprintf (bytes "X-Forwarded-For: " ++ clientAddr ++ crlf) else b
  some (b.sprintf crlf)

/-- `phl_proxy_build_request` -/
def request (conf : ProxyConf) (clientAddr noMethod : Bytes) (r : Req) : Option HeadWriter :=
  (requestHeaders conf clientAddr noMethod r).map fun b => b.memcpy r.bodyBuf

end HeadWriter

/-- All stores are in the `4096 + body_len` bytes of the buffer. -/
def RequestFits (conf : ProxyConf) (clientAddr noMethod : Bytes) (r : Req) : Prop :=
  ∃ b, HeadWriter.request conf clientAddr noMethod r = some b ∧
    ∀ store ∈ b.stores, store.Within ⟨0, 4096 + r.bodyBuf.length⟩

/-- The bytes of a header that is passed on. -/
def proxyHeaderLength (conf : ProxyConf) (clientAddr : Bytes) (h : Header) : Nat :=
  (cstr h.name).length + (cstr h.value).length + 4 +
    if conf.xForwardedFor ∧ isForwardedFor (cstr h.name) then clientAddr.length + 2 else 0

/-- The bytes of the whole head, for a request with the method and target `m` and `t`. -/
def proxyHeadLength (conf : ProxyConf) (clientAddr m t : Bytes) (r : Req) : Nat :=
  m.length + t.length + 14 +
    (match r.host with
      | some host => (cstr host).length + 8
      | none => 0) +
    (if r.contentLength ≠ phlContentLengthInit then (printSize r.contentLength).length + 18 else 0) +
    (r.headers.map (proxyHeaderLength conf clientAddr)).sum +
    if conf.xForwardedFor ∧ (r.headers.any fun h => isForwardedFor (cstr h.name)) = false then
      clientAddr.length + 19 else 0

namespace HeadWriter

variable {conf : ProxyConf} {clientAddr noMethod m t u v : Bytes} {r : Req} {b b₁ b₂ : HeadWriter}

/-- No store goes further than the NUL at `pos`. -/
def Tight (b : HeadWriter) : Prop :=
  ∀ store ∈ b.stores, 0 ≤ store.start ∧ store.start + store.size ≤ b.text.length + 1

/-- What is printed between `b₁` and `b₂`. -/
structure Prints (b₁ : HeadWriter) (s : Bytes) (b₂ : HeadWriter) : Prop where
  text : b₂.text = b₁.text ++ s
  tight : b₁.Tight → b₂.Tight

theorem Prints.refl (b : HeadWriter) : b.Prints [] b := ⟨(List.append_nil b.text).symm, id⟩

theorem Prints.trans (h : b.Prints u b₁) (h' : b₁.Prints v b₂) : b.Prints (u ++ v) b₂ :=
  ⟨by rw [h'.text, h.text, List.append_assoc], fun htight => h'.tight (h.tight htight)⟩

theorem prints_sprintf (b : HeadWriter) (s : Bytes) : b.Prints s (b.sprintf s) := by
  refine ⟨rfl, fun h store hstore => ?_⟩
  unfold sprintf at hstore ⊢
  dsimp only at hstore ⊢
  rw [List.length_append]
  rcases List.mem_append.mp hstore with hold | hnew
  · have hbefore := h store hold
    omega
  · obtain rfl := List.mem_singleton.mp hnew
    dsimp only
    omega

theorem prints_ite (b : HeadWriter) (s : Bytes) (p : Prop) [Decidable p] :
    b.Prints (if p then s else []) (if p then b.sprintf s else b) := by
  split
  · exact prints_sprintf b s
  · exact .refl b

theorem prints_host (b : HeadWriter) (host : Option Bytes) :
    b.Prints
      (match host with
        | some host => bytes "Host: " ++ cstr host ++ crlf
        | none => [])
      (match host with
        | some host => b.sprintf (bytes "Host: " ++ cstr host ++ crlf)
        | none => b) := by
  cases host with
  | none => exact .refl b
  | some host => exact prints_sprintf b _

/-- What is printed after the step back reaches further than what was there. -/
theorem prints_header (b : HeadWriter) (h : Header) :
    b.Prints (phlProxyHeaderLine conf clientAddr h) (b.header conf clientAddr h) := by
  have hline := prints_sprintf b (cstr h.name ++ bytes ": " ++ cstr h.value ++ crlf)
  unfold header phlProxyHeaderLine
  dsimp only
  generalize cstr h.name ++ bytes ": " ++ cstr h.value = line at hline ⊢
  split
  next =>
    have hback : (b.sprintf (line ++ crlf)).back.text = b.text ++ line := by
      unfold back sprintf
      dsimp only
      rw [← List.append_assoc, dropLast_crlf]
    constructor
    · rw [(prints_sprintf _ _).text, hback, dropLast_crlf]
      simp only [List.append_assoc]
    · intro htight store hstore
      rcases List.mem_append.mp hstore with hold | hnew
      · have hbefore := hline.tight htight store hold
        rw [hline.text] at hbefore
        rw [(prints_sprintf _ _).text, hback]
        simp only [List.length_append, crlf_length] at hbefore ⊢
        omega
      · obtain rfl := List.mem_singleton.mp hnew
        rw [(prints_sprintf _ _).text]
        simp only [List.length_append]
        omega
  next => exact hline

theorem prints_headers (b : HeadWriter) (hs : List Header) :
    b.Prints (hs.flatMap (phlProxyHeaderLine conf clientAddr))
      (hs.foldl (header conf clientAddr) b) := by
  induction hs generalizing b with
  | nil => exact .refl b
  | cons h hs ih =>
    rw [List.flatMap_cons, List.foldl_cons]
    exact (prints_header b h).trans (ih _)

variable (conf clientAddr noMethod) in
/-- The buffer holds the head that is sent, and its last line is the empty one. -/
theorem requestHeaders_prints (ht : requestTarget r = some t) :
    ∃ b lines, requestHeaders conf clientAddr noMethod r = some (b.sprintf crlf) ∧
      phlProxyBuildRequestHeaders conf clientAddr noMethod r = some (lines ++ crlf) ∧
      Prints ⟨[], []⟩ lines b := by
  unfold requestHeaders phlProxyBuildRequestHeaders
  simp only [ht, bind, Option.bind]
  have hline : Prints ⟨[], []⟩ (r.method.getD noMethod ++ bytes " " ++ t ++ bytes " HTTP/1.1" ++ crlf)
      ((sprintf ⟨[], []⟩ (r.method.getD noMethod ++ bytes " ")).sprintf
        (t ++ bytes " HTTP/1.1" ++ crlf)) := by
    have htwo := (prints_sprintf ⟨[], []⟩ (r.method.getD noMethod ++ bytes " ")).trans
      (prints_sprintf _ (t ++ bytes " HTTP/1.1" ++ crlf))
    simp only [List.append_assoc] at htwo ⊢
    exact htwo
  refine ⟨_, _, rfl, rfl, ?_⟩
  exact (((hline.trans (prints_host _ r.host)).trans (prints_ite _ _ _)).trans
    (prints_headers _ r.headers)).trans (prints_ite _ _ _)

/-- The stores reach to the NUL after the head and to the end of the body. -/
theorem request_within_iff (ht : requestTarget r = some t) {head : Bytes}
    (hhead : phlProxyBuildRequestHeaders conf clientAddr noMethod r = some head) :
    RequestFits conf clientAddr noMethod r ↔
      head.length ≤ 4096 ∧ head.length < 4096 + r.bodyBuf.length := by
  obtain ⟨b, lines, hb, hlines, hprints⟩ :=
    requestHeaders_prints conf clientAddr noMethod ht
  obtain rfl := Option.some.inj (hlines.symm.trans hhead)
  have hrequest : request conf clientAddr noMethod r =
      some ((b.sprintf crlf).memcpy r.bodyBuf) := by
    unfold request
    rw [hb]
    rfl
  have hend := hprints.trans (prints_sprintf b crlf)
  have htight : (b.sprintf crlf).Tight := hend.tight nofun
  have htext : (b.sprintf crlf).text = lines ++ crlf := hend.text
  have hstart : b.text.length + crlf.length = (lines ++ crlf).length := by
    rw [hprints.text]
    simp
  unfold RequestFits
  constructor
  · rintro ⟨whole, hwhole, hwithin⟩
    obtain rfl := Option.some.inj (hrequest.symm.trans hwhole)
    have hnul := (hwithin ⟨b.text.length, crlf.length + 1⟩
      (List.mem_append_left _ (List.mem_append_right _ List.mem_cons_self))).2
    have hbody := (hwithin ⟨(b.sprintf crlf).text.length, r.bodyBuf.length⟩
      (List.mem_append_right _ List.mem_cons_self)).2
    rw [htext] at hbody
    dsimp only at hnul hbody
    omega
  · rintro ⟨hle, hlt⟩
    refine ⟨_, hrequest, fun store hstore => ?_⟩
    rcases List.mem_append.mp hstore with hold | hnew
    · have hbounds := htight store hold
      rw [htext] at hbounds
      constructor
      · exact hbounds.1
      · dsimp only
        omega
    · obtain rfl := List.mem_singleton.mp hnew
      rw [htext]
      constructor
      · exact Int.natCast_nonneg _
      · dsimp only
        omega

theorem phlProxyHeaderLine_length (h : Header) :
    (phlProxyHeaderLine conf clientAddr h).length = proxyHeaderLength conf clientAddr h := by
  have hsep : (bytes ": ").length = 2 := rfl
  have hcomma : (bytes ", ").length = 2 := rfl
  unfold phlProxyHeaderLine proxyHeaderLength
  dsimp only
  split
  next =>
    rw [dropLast_crlf]
    simp only [List.length_append, crlf_length]
    omega
  next =>
    simp only [List.length_append, crlf_length]
    omega

variable (conf clientAddr noMethod) in
theorem head_length (ht : requestTarget r = some t) :
    ∃ head, phlProxyBuildRequestHeaders conf clientAddr noMethod r = some head ∧
      head.length = proxyHeadLength conf clientAddr (r.method.getD noMethod) t r := by
  have hheaders : (r.headers.flatMap (phlProxyHeaderLine conf clientAddr)).length =
      (r.headers.map (proxyHeaderLength conf clientAddr)).sum := by
    rw [List.length_flatMap]
    simp only [phlProxyHeaderLine_length]
  have hlength : (if r.contentLength ≠ phlContentLengthInit then
      bytes "Content-Length: " ++ printSize r.contentLength ++ crlf else []).length =
        if r.contentLength ≠ phlContentLengthInit then (printSize r.contentLength).length + 18
        else 0 := by
    have hname : (bytes "Content-Length: ").length = 16 := rfl
    split
    · simp only [List.length_append, crlf_length]
      omega
    · rfl
  have hxff : (if conf.xForwardedFor ∧
      (r.headers.any fun h => isForwardedFor (cstr h.name)) = false then
        bytes "X-Forwarded-For: " ++ clientAddr ++ crlf else []).length =
      if conf.xForwardedFor ∧ (r.headers.any fun h => isForwardedFor (cstr h.name)) = false then
        clientAddr.length + 19 else 0 := by
    have hname : (bytes "X-Forwarded-For: ").length = 17 := rfl
    split
    · simp only [List.length_append, crlf_length]
      omega
    · rfl
  have hblank : (bytes " ").length = 1 := rfl
  have hversion : (bytes " HTTP/1.1").length = 9 := rfl
  unfold phlProxyBuildRequestHeaders proxyHeadLength
  simp only [ht, bind, Option.bind]
  refine ⟨_, rfl, ?_⟩
  have hname : (bytes "Host: ").length = 6 := rfl
  cases r.host with
  | none =>
    simp only [List.length_append, List.length_nil, crlf_length, hheaders] at hlength hxff ⊢
    omega
  | some host =>
    simp only [List.length_append, crlf_length, hheaders] at hlength hxff ⊢
    omega

end HeadWriter

/-- All that is stored for a request is in its buffer where the head has at most 4096 bytes, and at
most 4095 where no body follows it. -/
theorem request_fits_iff {conf : ProxyConf} {clientAddr noMethod t : Bytes} {r : Req}
    (ht : requestTarget r = some t) :
    RequestFits conf clientAddr noMethod r ↔
      proxyHeadLength conf clientAddr (r.method.getD noMethod) t r ≤ 4096 ∧
        proxyHeadLength conf clientAddr (r.method.getD noMethod) t r <
          4096 + r.bodyBuf.length := by
  obtain ⟨head, hhead, hlen⟩ := HeadWriter.head_length conf clientAddr noMethod ht
  rw [HeadWriter.request_within_iff ht hhead, hlen]

/-- `GET` of a path, without headers. -/
def getRequest (t : Bytes) : Req :=
  { Req.init with
    method := some (bytes "GET")
    version := 1
    uri := ⟨t, some t, false, none⟩ }

theorem request_fits_short :
    RequestFits ⟨true⟩ (bytes "127.0.0.1") [] (getRequest (bytes "/")) := by
  have ht : requestTarget (getRequest (bytes "/")) = some (bytes "/") := rfl
  exact (request_fits_iff ht).mpr (by decide)

/-- What a client sends for it. -/
def getBytes (t : Bytes) : Bytes :=
  bytes "GET" ++ 32 :: t ++ 32 :: Http.version ++ crlf ++ crlf

theorem get_accepted {t : Bytes} (ht : Http.CleanTarget t) :
    phlHttp1RequestHeaders .lines .init (getBytes t) = (phlOk, getRequest t, []) := by
  have hmethod : Http.CleanMethod (bytes "GET") := by decide
  have hline : requestLine (bytes "GET" ++ 32 :: t ++ 32 :: Http.version) =
      some ⟨bytes "GET", t, 1⟩ := by
    unfold requestLine
    rw [Http.parseRequestLine_line hmethod ht]
    rfl
  have hcr : 13 ∉ bytes "GET" ++ 32 :: t ++ 32 :: Http.version := by
    intro hmem
    rcases List.mem_append.mp hmem with hfirst | hlast
    · rcases List.mem_append.mp hfirst with hget | htarget
      · revert hget
        decide
      · rcases List.mem_cons.mp htarget with hblank | htarget
        · exact absurd hblank (by decide)
        · exact absurd (ht.2 13 htarget).1 (by decide)
    · revert hlast
      decide
  have htakes : TakesLine Libwuya.lines.httpRequestLine _ _ := takesLine_lineParser hline hcr
  have hwhole := htakes.whole crlf
  unfold phlHttp1RequestHeaders getBytes
  dsimp only [Req.init]
  rw [hwhole]
  dsimp only
  have hpos : ¬ ((bytes "GET" ++ 32 :: t ++ 32 :: Http.version ++ crlf).length : Int) ≤ 0 := by
    simp only [List.length_append, crlf_length]
    omega
  rw [if_neg (by omega), if_neg (by omega), Int.toNat_natCast, List.drop_left]
  rfl

/-- The default `recv_buffer_size` takes a head for which the 4096 bytes do not do. -/
theorem long_target_overruns :
    ∃ t, (getBytes t).length ≤ 16 * 1024 ∧
      phlHttp1RequestHeaders .lines .init (getBytes t) = (phlOk, getRequest t, []) ∧
      ¬ RequestFits ⟨false⟩ [] [] (getRequest t) := by
  have hclean : ∀ c ∈ (List.replicate 4096 97 : Bytes), 32 < c ∧ c ≠ 127 := by
    intro c hc
    obtain rfl := List.eq_of_mem_replicate hc
    decide
  have hnul : (0 : UInt8) ∉ (List.replicate 4096 97 : Bytes) := by
    intro hmem
    exact absurd (hclean 0 hmem).1 (by decide)
  have hlen : (List.replicate 4096 97 : Bytes).length = 4096 := List.length_replicate
  generalize (List.replicate 4096 97 : Bytes) = path at hclean hnul hlen
  refine ⟨47 :: path, ?_, get_accepted ⟨List.cons_ne_nil 47 path, ?_⟩, ?_⟩
  · have hget : (bytes "GET").length = 3 := rfl
    have hversion : Http.version.length = 8 := rfl
    unfold getBytes
    simp only [List.length_append, List.length_cons, crlf_length]
    omega
  · intro c hc
    rcases List.mem_cons.mp hc with rfl | hc
    · decide
    · exact hclean c hc
  · have hcstr : cstr (47 :: path) = 47 :: path := by
      apply cstr_of_nul_free
      intro hmem
      rcases List.mem_cons.mp hmem with hslash | hmem
      · exact absurd hslash (by decide)
      · exact hnul hmem
    have ht : requestTarget (getRequest (47 :: path)) = some (47 :: path) :=
      congrArg some hcstr
    obtain ⟨head, hhead, hhlen⟩ := HeadWriter.head_length ⟨false⟩ [] [] ht
    rw [HeadWriter.request_within_iff ht hhead, hhlen]
    have hmany : 4096 < proxyHeadLength ⟨false⟩ [] (bytes "GET") (47 :: path)
        (getRequest (47 :: path)) := by
      unfold proxyHeadLength
      simp only [List.length_cons]
      omega
    intro hfits
    exact absurd hfits.1 (Nat.not_le_of_lt hmany)

end Phorklift
