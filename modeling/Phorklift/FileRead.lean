import Phorklift.RequestRun

/-! What a response that is a file passes to `read`, and the gzip filter that changes the length it
is computed from. -/

namespace Phorklift

/-- `filterIs` is what the configured function returns, or true where there is none. -/
def phlGzipFilterResponseHeaders (level minLength : Nat) (filterIs : Bool) (resp : Resp) : Resp :=
  if level = 0 then resp
  else if resp.statusCode ≠ 200 then resp
  else if resp.contentLength ≤ minLength then resp
  else if resp.headers.any fun h => strcasecmp (cstr h.name) (bytes "Content-Encoding") then resp
  else if filterIs = false then resp
  else { resp with
    contentLength := phlContentLengthInit
    headers := resp.headers ++ [⟨bytes "Content-Encoding", bytes "gzip"⟩] }

/-- `body_len` before `read(r->resp.easy_fd, buf_pos, body_len)` -/
def fileReadLength (resp : Resp) (bufLen : Nat) : Int :=
  min (toInt ((resp.contentLength : Int) - resp.contentGeneratedLength)) bufLen

section Read

variable {resp : Resp} {bufLen : Nat}

theorem toSize_of_nonneg {n : Int} (hn : 0 ≤ n) (hlt : n < 2 ^ 64) : (toSize n : Int) = n := by
  unfold toSize
  rw [Int.emod_eq_of_lt hn hlt]
  omega

/-- What is negative becomes larger than any buffer. -/
theorem toSize_of_neg {n : Int} (hn : n < 0) (hge : -2 ^ 31 ≤ n) : 2 ^ 31 ≤ toSize n := by
  unfold toSize
  omega

theorem generateBody_file {W V : Type} {env : Env W V} {p : PathId} {w : World W V}
    (hstr : w.r.resp.easyStrLen = 0) (hfd : w.r.resp.easyFd ≠ 0) :
    generateBody env p bufLen w =
      some ((env.readFd w.r.resp.easyFd (fileReadLength w.r.resp bufLen) w.env).1.mapError
          fun _ => ⟨phlError, by decide⟩,
        { w with env := (env.readFd w.r.resp.easyFd (fileReadLength w.r.resp bufLen) w.env).2 }) := by
  unfold generateBody
  dsimp only
  rw [if_neg (by omega), if_pos hfd]
  rfl

/-- The count passed to `read` is one of bytes of the file that fit in the buffer where the low 32
bits of what `content_length` leaves are such a number. -/
theorem file_read_count_iff (hstr : resp.easyStrLen = 0) (hfd : resp.easyFd ≠ 0)
    (hleft : resp.contentGeneratedLength < resp.contentOriginalLength)
    (hroom : 0 < bufLen ∧ bufLen < 2 ^ 31) :
    (∀ {W V : Type} (env : Env W V) (p : PathId) (w : World W V), w.r.resp = resp →
      generateBody env p bufLen w =
        some ((env.readFd resp.easyFd (fileReadLength resp bufLen) w.env).1.mapError
            fun _ => ⟨phlError, by decide⟩,
          { w with env := (env.readFd resp.easyFd (fileReadLength resp bufLen) w.env).2 })) ∧
    (0 < toSize (fileReadLength resp bufLen) ∧
        toSize (fileReadLength resp bufLen) ≤
          min bufLen (resp.contentOriginalLength - resp.contentGeneratedLength) ↔
      0 < ((resp.contentLength : Int) - resp.contentGeneratedLength) % 2 ^ 32 ∧
      ((resp.contentLength : Int) - resp.contentGeneratedLength) % 2 ^ 32 < 2 ^ 31 ∧
      min (bufLen : Int) (((resp.contentLength : Int) - resp.contentGeneratedLength) % 2 ^ 32) ≤
        resp.contentOriginalLength - resp.contentGeneratedLength) := by
  constructor
  · rintro W V env p w rfl
    exact generateBody_file hstr hfd
  · have hint := toInt_eq ((resp.contentLength : Int) - resp.contentGeneratedLength)
    have hnonneg := Int.emod_nonneg ((resp.contentLength : Int) - resp.contentGeneratedLength)
      (show (2 : Int) ^ 32 ≠ 0 by decide)
    have hbelow := Int.emod_lt_of_pos ((resp.contentLength : Int) - resp.contentGeneratedLength)
      (show (0 : Int) < 2 ^ 32 by decide)
    unfold fileReadLength
    rw [hint]
    generalize ((resp.contentLength : Int) - resp.contentGeneratedLength) % 2 ^ 32 = low at *
    by_cases hsign : low < 2 ^ 31
    · rw [if_pos hsign]
      have hcount := @toSize_of_nonneg (min low bufLen) (by omega) (by omega)
      omega
    · rw [if_neg hsign]
      have hlarge := @toSize_of_neg (min (low - 2 ^ 32) bufLen) (by omega) (by omega)
      omega

end Read

/-- A response of `length` bytes from a file, nothing of which has been sent. -/
def fileResp (length : Nat) : Resp :=
  { Resp.init with
    statusCode := 200
    contentLength := length
    contentOriginalLength := length
    easyFd := 7 }

theorem file_read_count_small :
    0 < toSize (fileReadLength (fileResp 1000) 4096) ∧
      toSize (fileReadLength (fileResp 1000) 4096) ≤ min 4096 1000 :=
  (@file_read_count_iff (fileResp 1000) 4096 rfl (by decide) (by decide) (by decide)).2.mpr
    (by decide)

/-- After gzip has taken the length away the count is the largest there is; for a file of 2 GiB it
is nearly so, and for one of 4 GiB it is 0. -/
theorem file_read_count_exceeds :
    phlGzipFilterResponseHeaders 1 100 true (fileResp 1000) =
        { fileResp 1000 with
          contentLength := phlContentLengthInit
          headers := [⟨bytes "Content-Encoding", bytes "gzip"⟩] } ∧
      fileReadLength (phlGzipFilterResponseHeaders 1 100 true (fileResp 1000)) 4096 = -1 ∧
      toSize (-1) = 2 ^ 64 - 1 ∧ ¬ toSize (-1) ≤ min 4096 1000 ∧
    fileReadLength (fileResp (2 ^ 31)) 4096 = -2 ^ 31 ∧
      ¬ toSize (-2 ^ 31) ≤ min 4096 (2 ^ 31) ∧
    fileReadLength (fileResp (2 ^ 32)) 4096 = 0 := by
  decide +kernel

end Phorklift
