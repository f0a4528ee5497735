import Phorklift.FileCache
import Mathlib.Tactic.NormNum

/-! The bytes of an item file: the item, the records of the headers, and the body. -/

namespace Phorklift

/-- The little-endian number in some bytes. -/
def leNat : Bytes → Nat
  | [] => 0
  | b :: s => b.toNat + 256 * leNat s

/-- The `k` little-endian bytes of a number. -/
def leBytes : Nat → Nat → Bytes
  | 0, _ => []
  | k + 1, n => UInt8.ofNat n :: leBytes k (n / 256)

/-- The signed number that is stored as `n`; `half` is 2 to the number of its bits less one. -/
def signed (half n : Nat) : Int := if n < half then n else n - 2 * half

/-- `PHL_CONTENT_LENGTH_INIT` and the lengths of a body are `size_t`, times are `time_t`, the others
are `int`; four bytes of padding follow. -/
def FileCacheItem.bytes (i : FileCacheItem) : Bytes :=
  leBytes 8 i.contentLength ++ leBytes 8 (i.expireAt % 2 ^ 64).toNat ++
    leBytes 4 (i.statusCode % 2 ^ 32).toNat ++ leBytes 4 i.headerNum ++
    leBytes 4 i.headerTotalLength ++ leBytes 4 0

def itemOfBytes (b : Bytes) : FileCacheItem where
  contentLength := leNat (b.take 8)
  expireAt := signed (2 ^ 63) (leNat ((b.drop 8).take 8))
  statusCode := signed (2 ^ 31) (leNat ((b.drop 16).take 4))
  headerNum := leNat ((b.drop 20).take 4)
  headerTotalLength := leNat ((b.drop 24).take 4)

/-- What is copied from `phl_header_dump_pos`; the padding is the byte behind the header, which no
one looks at. -/
def Header.record (h : Header) : Bytes :=
  leBytes 2 h.name.length ++ leBytes 2 h.value.length ++ h.name ++ [0] ++ h.value ++ [0] ++
    List.replicate (phlHeaderDumpLength h - (h.name.length + h.value.length + 6)) 0

/-- `phl_header_load_from` and the copying of name and value by `phl_header_add`; `none` where they
reach past the buffer. -/
def phlHeaderLoadFrom (buffer : Bytes) : Option Header :=
  let nameLen := leNat (buffer.take 2)
  let valueLen := leNat ((buffer.drop 2).take 2)
  if buffer.length < 4 ∨ 32768 ≤ nameLen ∨ 32768 ≤ valueLen then none
  else if buffer.length < 4 + nameLen + 1 + valueLen then none
  else some ⟨(buffer.drop 4).take nameLen, (buffer.drop (4 + nameLen + 1)).take valueLen⟩

/-- The loop over the records. -/
def loadHeaders : Nat → Bytes → Option (List Header)
  | 0, _ => some []
  | n + 1, buffer => do
    let h ← phlHeaderLoadFrom buffer
    let hs ← loadHeaders n (buffer.drop (phlHeaderDumpLength h))
    some (h :: hs)

def Buffer.bytes : Buffer → Bytes
  | .item i hs => i.bytes ++ hs.flatMap Header.record
  | .piece data _ => data
  | .length n => leBytes 8 n

/-- The lengths of a header fit in a `short`. -/
def Header.Short (h : Header) : Prop := h.name.length < 32768 ∧ h.value.length < 32768

section Numbers

@[simp] theorem length_leBytes (k n : Nat) : (leBytes k n).length = k := by
  induction k generalizing n with
  | zero => rfl
  | succ k ih => rw [leBytes, List.length_cons, ih]

theorem leNat_leBytes {k n : Nat} (h : n < 256 ^ k) : leNat (leBytes k n) = n := by
  induction k generalizing n with
  | zero =>
    rw [Nat.pow_zero, Nat.lt_one_iff] at h
    rw [h]
    rfl
  | succ k ih =>
    have hdiv : n / 256 < 256 ^ k := Nat.div_lt_of_lt_mul (by rwa [← Nat.pow_succ'])
    rw [leBytes, leNat, ih hdiv, UInt8.toNat_ofNat']
    omega

theorem signed_emod {half : Nat} {m n : Int} (hm : m = 2 * half) (hlow : -half ≤ n)
    (hhigh : n < half) : signed half (n % m).toNat = n := by
  unfold signed
  by_cases hneg : n < 0
  · have hmod : n % m = n + m := by
      rw [← Int.add_emod_right, Int.emod_eq_of_lt (by omega) (by omega)]
    rw [hmod, if_neg (by omega)]
    omega
  · rw [Int.emod_eq_of_lt (by omega) (by omega), if_pos (by omega)]
    omega

end Numbers

section Item

variable {i : FileCacheItem} {h : Header} {hs : List Header}

@[simp] theorem length_itemBytes (i : FileCacheItem) : i.bytes.length = fileCacheItemSize := by
  simp [FileCacheItem.bytes, fileCacheItemSize]

theorem take_drop_field {pre x post : Bytes} {p q : Nat} (hp : pre.length = p)
    (hx : x.length = q) : ((pre ++ (x ++ post)).drop p).take q = x := by
  rw [List.drop_left' hp, List.take_left' hx]

/-- What fits in the fields of an item is read as it was written. -/
theorem itemOfBytes_bytes (hlength : i.contentLength < 2 ^ 64)
    (hexpire : -2 ^ 63 ≤ i.expireAt ∧ i.expireAt < 2 ^ 63)
    (hstatus : -2 ^ 31 ≤ i.statusCode ∧ i.statusCode < 2 ^ 31) (hnum : i.headerNum < 2 ^ 32)
    (htotal : i.headerTotalLength < 2 ^ 32) : itemOfBytes i.bytes = i := by
  have hexpire' : signed (2 ^ 63) (i.expireAt % 2 ^ 64).toNat = i.expireAt := by
    exact signed_emod (by norm_num) (by norm_num; omega) (by norm_num; omega)
  have hstatus' : signed (2 ^ 31) (i.statusCode % 2 ^ 32).toNat = i.statusCode := by
    exact signed_emod (by norm_num) (by norm_num; omega) (by norm_num; omega)
  have hlength' : i.bytes.take 8 = leBytes 8 i.contentLength := by
    rw [FileCacheItem.bytes]
    simp only [List.append_assoc]
    exact List.take_left' (length_leBytes _ _)
  have hat : ∀ {p q : Nat} {a x z : Bytes}, i.bytes = a ++ (x ++ z) → a.length = p →
      x.length = q → (i.bytes.drop p).take q = x := by
    intro p q a x z heq hp hx
    rw [heq]
    exact take_drop_field hp hx
  have hexpireAt : (i.bytes.drop 8).take 8 = leBytes 8 (i.expireAt % 2 ^ 64).toNat :=
    hat (a := leBytes 8 i.contentLength)
      (by simp only [FileCacheItem.bytes, List.append_assoc]; rfl) (by simp) (by simp)
  have hstatusAt : (i.bytes.drop 16).take 4 = leBytes 4 (i.statusCode % 2 ^ 32).toNat :=
    hat (a := leBytes 8 i.contentLength ++ leBytes 8 (i.expireAt % 2 ^ 64).toNat)
      (by simp only [FileCacheItem.bytes, List.append_assoc]; rfl) (by simp) (by simp)
  have hnumAt : (i.bytes.drop 20).take 4 = leBytes 4 i.headerNum :=
    hat (a := leBytes 8 i.contentLength ++ leBytes 8 (i.expireAt % 2 ^ 64).toNat ++
        leBytes 4 (i.statusCode % 2 ^ 32).toNat)
      (by simp only [FileCacheItem.bytes, List.append_assoc]; rfl) (by simp) (by simp)
  have htotalAt : (i.bytes.drop 24).take 4 = leBytes 4 i.headerTotalLength :=
    hat (a := leBytes 8 i.contentLength ++ leBytes 8 (i.expireAt % 2 ^ 64).toNat ++
        leBytes 4 (i.statusCode % 2 ^ 32).toNat ++ leBytes 4 i.headerNum)
      (by simp only [FileCacheItem.bytes, List.append_assoc]; rfl) (by simp) (by simp)
  unfold itemOfBytes
  rw [hlength', hexpireAt, hstatusAt, hnumAt, htotalAt, leNat_leBytes (by omega),
    leNat_leBytes (by omega), leNat_leBytes (by omega), leNat_leBytes (by omega),
    leNat_leBytes (by omega), hexpire', hstatus']

theorem length_record (h : Header) : h.record.length = phlHeaderDumpLength h := by
  unfold Header.record phlHeaderDumpLength
  simp only [List.length_append, length_leBytes, List.length_replicate, List.length_cons,
    List.length_nil]
  split <;> omega

/-- A record is loaded from its start, whatever follows it. -/
theorem phlHeaderLoadFrom_record (hshort : h.Short) (tail : Bytes) :
    phlHeaderLoadFrom (h.record ++ tail) = some h := by
  obtain ⟨hname, hvalue⟩ := hshort
  have hnameLen : leNat ((h.record ++ tail).take 2) = h.name.length := by
    rw [Header.record]
    simp only [List.append_assoc]
    rw [List.take_left' (length_leBytes _ _), leNat_leBytes (by omega)]
  have hat : ∀ {p q : Nat} {a x z : Bytes}, h.record ++ tail = a ++ (x ++ z) →
      a.length = p → x.length = q → ((h.record ++ tail).drop p).take q = x := by
    intro p q a x z heq hp hx
    rw [heq]
    exact take_drop_field hp hx
  have hvalueLen : leNat (((h.record ++ tail).drop 2).take 2) = h.value.length := by
    rw [hat (a := leBytes 2 h.name.length) (x := leBytes 2 h.value.length)
      (by simp only [Header.record, List.append_assoc]; rfl) (by simp) (by simp),
      leNat_leBytes (by omega)]
  have hnameAt : ((h.record ++ tail).drop 4).take h.name.length = h.name :=
    hat (a := leBytes 2 h.name.length ++ leBytes 2 h.value.length)
      (by simp only [Header.record, List.append_assoc]; rfl) (by simp) rfl
  have hvalueAt : ((h.record ++ tail).drop (4 + h.name.length + 1)).take h.value.length =
      h.value :=
    hat (a := leBytes 2 h.name.length ++ leBytes 2 h.value.length ++ h.name ++ [0])
      (by simp only [Header.record, List.append_assoc]; rfl) (by simp; omega) rfl
  have hlen : h.name.length + h.value.length + 6 ≤ (h.record ++ tail).length := by
    rw [List.length_append, length_record]
    unfold phlHeaderDumpLength
    dsimp only
    split <;> omega
  unfold phlHeaderLoadFrom
  rw [hnameLen, hvalueLen]
  dsimp only
  rw [if_neg (by omega), if_neg (by omega), hnameAt, hvalueAt]

/-- The records in an item give the headers back, in order. -/
theorem loadHeaders_records (hshort : ∀ h ∈ hs, h.Short) (tail : Bytes) :
    loadHeaders hs.length (hs.flatMap Header.record ++ tail) = some hs := by
  induction hs with
  | nil => rfl
  | cons h hs ih =>
    have hload := phlHeaderLoadFrom_record (hshort h List.mem_cons_self)
      (hs.flatMap Header.record ++ tail)
    have hrest := ih fun h' hh => hshort h' (List.mem_cons_of_mem h hh)
    rw [List.length_cons, loadHeaders, List.flatMap_cons, List.append_assoc, hload]
    simp only [Option.bind_eq_bind, Option.bind_some]
    rw [List.drop_left' (length_record h), hrest]
    rfl

theorem length_records (hs : List Header) :
    (hs.flatMap Header.record).length = (hs.map phlHeaderDumpLength).sum := by
  rw [List.length_flatMap]
  exact congrArg List.sum (List.map_congr_left fun h _ => length_record h)

end Item

end Phorklift
