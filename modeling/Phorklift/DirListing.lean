import Mathlib.Data.List.Induction
import Phorklift.Bytes

/-! The listing of a directory in the buffer of the static module. -/

namespace Phorklift

/-- What `readdir` yields. -/
structure DirEntry where
  name : Bytes
  length_le : name.length ≤ 255

def listBufferSize : Nat := 4096 * 10

/-- The local variables of `phl_static_dir_headers`, with `p` counted from `buffer` on, what is stored
there, and the sizes that were passed to `snprintf`. -/
structure DirBuffer where
  p : Nat
  mem : Nat → Option UInt8
  sizes : List Int

namespace DirBuffer

/-- What `snprintf` stores. -/
def stored (size : Nat) (line : Bytes) : Bytes :=
  if size = 0 then [] else line.take (size - 1) ++ [0]

def store (mem : Nat → Option UInt8) (p : Nat) (bs : Bytes) (i : Nat) : Option UInt8 :=
  if p ≤ i ∧ i < p + bs.length then bs[i - p]? else mem i

/-- `p += snprintf(p, end - p, "%s\n", name)` -/
def snprintf (b : DirBuffer) (line : Bytes) : DirBuffer :=
  let size : Int := listBufferSize - b.p
  ⟨b.p + line.length, store b.mem b.p (stored (toSize size) line), b.sizes ++ [size]⟩

def init : DirBuffer := ⟨0, fun _ => none, []⟩

end DirBuffer

def DirEntry.line (e : DirEntry) : Bytes := e.name ++ [10]

/-- A round of the loop over the entries. -/
def dirRound (b : DirBuffer) (e : DirEntry) : DirBuffer :=
  if e.name = bytes "." ∨ e.name = bytes ".." then b else b.snprintf e.line

def dirLoop (es : List DirEntry) : DirBuffer := es.foldl dirRound .init

/-- `easy_str_len` -/
def dirLength (es : List DirEntry) : Int := toInt (dirLoop es).p

def DirEntry.listed (e : DirEntry) : Prop := ¬(e.name = bytes "." ∨ e.name = bytes "..")

instance (e : DirEntry) : Decidable e.listed := by
  unfold DirEntry.listed
  infer_instance

/-- The lines that are to be shown. -/
def dirText (es : List DirEntry) : Bytes := (es.filter (·.listed)).flatMap DirEntry.line

/-- `p` is in the buffer after each round and no size was negative, and the reported bytes are those of
the lines. -/
structure DirListed (es : List DirEntry) : Prop where
  p_le : ∀ pre, pre <+: es → (dirLoop pre).p ≤ listBufferSize
  sizes : ∀ size ∈ (dirLoop es).sizes, 0 ≤ size
  length : dirLength es = (dirText es).length
  complete : ∀ i, i < (dirText es).length → (dirLoop es).mem i = (dirText es)[i]?

section Loop

variable {es : List DirEntry} {e : DirEntry}

theorem dirRound_listed (b : DirBuffer) (h : e.listed) : dirRound b e = b.snprintf e.line :=
  if_neg h

theorem dirRound_skipped (b : DirBuffer) (h : ¬e.listed) : dirRound b e = b :=
  if_pos (Decidable.not_not.mp h)

theorem dirLoop_snoc (es : List DirEntry) (e : DirEntry) :
    dirLoop (es ++ [e]) = dirRound (dirLoop es) e := by
  unfold dirLoop
  rw [List.foldl_append]
  rfl

theorem dirText_snoc (es : List DirEntry) (e : DirEntry) :
    dirText (es ++ [e]) = dirText es ++ if e.listed then e.line else [] := by
  unfold dirText
  rw [List.filter_append, List.flatMap_append, List.filter_singleton]
  by_cases h : e.listed
  · rw [if_pos h, decide_eq_true h, cond_true, List.flatMap_singleton]
  · rw [if_neg h, decide_eq_false h, cond_false]
    rfl

/-- `p` moves by the whole lines, stored or not. -/
theorem dirLoop_p (es : List DirEntry) : (dirLoop es).p = (dirText es).length := by
  induction es using List.reverseRecOn with
  | nil => rfl
  | append_singleton es e ih =>
    rw [dirLoop_snoc, dirText_snoc, List.length_append, ← ih]
    by_cases h : e.listed
    · rw [dirRound_listed _ h, if_pos h]
      rfl
    · rw [dirRound_skipped _ h, if_neg h]
      rfl

theorem dirText_length_mono {pre : List DirEntry} (h : pre <+: es) :
    (dirText pre).length ≤ (dirText es).length := by
  obtain ⟨rest, rfl⟩ := h
  unfold dirText
  rw [List.filter_append, List.flatMap_append, List.length_append]
  exact Nat.le_add_right _ _

/-- With room for a line and its NUL the line is stored behind what is there. -/
theorem store_fits {mem : Nat → Option UInt8} {text line : Bytes} {size : Nat}
    (hroom : line.length < size) (hmem : ∀ i, i < text.length → mem i = text[i]?) :
    ∀ i, i < (text ++ line).length →
      DirBuffer.store mem text.length (DirBuffer.stored size line) i = (text ++ line)[i]? := by
  have htake : line.take (size - 1) = line := List.take_of_length_le (by omega)
  intro i hi
  rw [List.length_append] at hi
  have hstored : DirBuffer.stored size line = line ++ [0] := by
    unfold DirBuffer.stored
    rw [if_neg (by omega), htake]
  unfold DirBuffer.store
  rw [hstored]
  by_cases hold : i < text.length
  · rw [if_neg (by omega), hmem i hold, List.getElem?_append_left hold]
  · have hin : i - text.length < line.length := by omega
    have hend : i < text.length + (line ++ [0]).length := by
      rw [List.length_append]
      omega
    rw [if_pos ⟨by omega, hend⟩, List.getElem?_append_left hin,
      List.getElem?_append_right (by omega)]

/-- While the lines are shorter than the buffer they are all in it. -/
theorem dirLoop_complete (h : (dirText es).length < listBufferSize) :
    (∀ size ∈ (dirLoop es).sizes, 0 ≤ size) ∧
      ∀ i, i < (dirText es).length → (dirLoop es).mem i = (dirText es)[i]? := by
  induction es using List.reverseRecOn with
  | nil => exact ⟨nofun, nofun⟩
  | append_singleton es e ih =>
    rw [dirText_snoc] at h ⊢
    rw [dirLoop_snoc]
    rw [List.length_append] at h
    obtain ⟨hsizes, hmem⟩ := ih (by omega)
    by_cases hlisted : e.listed
    · rw [if_pos hlisted] at h ⊢
      rw [dirRound_listed _ hlisted]
      have hp := dirLoop_p es
      have hsize : ((listBufferSize : Int) - (dirLoop es).p) =
          ((listBufferSize - (dirText es).length : Nat) : Int) := by omega
      unfold DirBuffer.snprintf
      dsimp only
      rw [hsize, hp]
      constructor
      · intro size hmem
        rcases List.mem_append.mp hmem with hold | hnew
        · exact hsizes size hold
        · obtain rfl := List.mem_singleton.mp hnew
          exact Int.natCast_nonneg _
      · have hlt : listBufferSize - (dirText es).length < 2 ^ 64 :=
          Nat.lt_of_le_of_lt (Nat.sub_le _ _) (by decide)
        rw [toSize_natCast hlt]
        exact store_fits (by omega) hmem
    · rw [if_neg hlisted, List.append_nil, dirRound_skipped _ hlisted]
      exact ⟨hsizes, hmem⟩

/-- The last line that fills the buffer has the NUL for its end of line. -/
theorem dirLoop_full (h : (dirText es).length = listBufferSize) :
    (dirLoop es).mem (listBufferSize - 1) = some 0 ∧
      (dirText es)[listBufferSize - 1]? = some 10 := by
  induction es using List.reverseRecOn with
  | nil => exact absurd h (by decide)
  | append_singleton es e ih =>
    rw [dirText_snoc] at h ⊢
    rw [dirLoop_snoc]
    by_cases hlisted : e.listed
    · rw [if_pos hlisted] at h ⊢
      rw [dirRound_listed _ hlisted]
      have hp := dirLoop_p es
      have hline : e.line.length = e.name.length + 1 := List.length_append
      rw [List.length_append] at h
      have hsize : ((listBufferSize : Int) - (dirLoop es).p) = ((e.name.length + 1 : Nat) : Int) := by
        omega
      have hname := e.length_le
      have hstored : DirBuffer.stored (e.name.length + 1) e.line = e.name ++ [0] := by
        unfold DirBuffer.stored DirEntry.line
        rw [if_neg (Nat.succ_ne_zero _), Nat.add_sub_cancel, List.take_left]
      have hlast : listBufferSize - 1 - (dirText es).length = e.name.length := by omega
      unfold DirBuffer.snprintf DirBuffer.store
      dsimp only
      rw [hsize, hp, toSize_natCast (by omega), hstored]
      constructor
      · have hend : listBufferSize - 1 < (dirText es).length + (e.name ++ [0]).length := by
          rw [List.length_append, List.length_singleton]
          omega
        rw [if_pos ⟨by omega, hend⟩, hlast, List.getElem?_concat_length]
      · rw [List.getElem?_append_right (by omega), hlast]
        exact List.getElem?_concat_length
    · rw [if_neg hlisted, List.append_nil] at h ⊢
      rw [dirRound_skipped _ hlisted]
      exact ih h

end Loop

theorem dirText_length (es : List DirEntry) :
    (dirText es).length = ((es.filter (·.listed)).map fun e => e.name.length + 1).sum := by
  unfold dirText DirEntry.line
  rw [List.length_flatMap]
  simp only [List.length_append, List.length_singleton]

theorem dirListed_iff_text (es : List DirEntry) :
    DirListed es ↔ (dirText es).length < listBufferSize := by
  constructor
  · intro h
    have hle := h.p_le es (List.prefix_refl es)
    rw [dirLoop_p] at hle
    rcases Nat.lt_or_eq_of_le hle with hlt | hfull
    · exact hlt
    · obtain ⟨hnul, hnewline⟩ := dirLoop_full hfull
      have hlast : listBufferSize - 1 < (dirText es).length := by
        rw [hfull]
        decide
      have hcomplete := h.complete (listBufferSize - 1) hlast
      rw [hnul, hnewline] at hcomplete
      exact absurd hcomplete (by decide)
  · intro h
    have hbuffer : listBufferSize = 40960 := rfl
    obtain ⟨hsizes, hcomplete⟩ := dirLoop_complete h
    refine ⟨fun pre hpre => ?_, hsizes, ?_, hcomplete⟩
    · have hmono := dirText_length_mono hpre
      rw [dirLoop_p]
      omega
    · unfold dirLength
      rw [dirLoop_p]
      unfold toInt
      exact Int.bmod_eq_of_le (by omega) (by omega)

/-- A directory is listed as it should where its lines are shorter than the buffer. -/
theorem dir_listed_iff (es : List DirEntry) :
    DirListed es ↔ ((es.filter (·.listed)).map fun e => e.name.length + 1).sum < 40960 := by
  rw [dirListed_iff_text, dirText_length]
  exact Iff.rfl

def longName (i : Fin 510) : Bytes := List.replicate (i.val / 2 + 1) (if i.val % 2 = 0 then 97 else 98)

theorem longName_length (i : Fin 510) : (longName i).length ≤ 255 := by
  have hi := i.isLt
  unfold longName
  rw [List.length_replicate]
  omega

/-- Two files for each length of a name. -/
def manyFiles : List DirEntry := (List.finRange 510).map fun i => ⟨longName i, longName_length i⟩

theorem longName_inj {i j : Fin 510} (h : longName i = longName j) : i = j := by
  have hlen := congrArg List.length h
  have hhead := congrArg List.head? h
  unfold longName at hlen hhead
  rw [List.length_replicate, List.length_replicate] at hlen
  rw [List.replicate_succ, List.replicate_succ, List.head?_cons, List.head?_cons] at hhead
  have hparity : i.val % 2 = j.val % 2 := by
    have hbyte := Option.some.inj hhead
    split at hbyte <;> split at hbyte
    · omega
    · exact absurd hbyte (by decide)
    · exact absurd hbyte (by decide)
    · omega
  ext
  omega

theorem longName_listed (i : Fin 510) : DirEntry.listed ⟨longName i, longName_length i⟩ := by
  have hhead : (longName i).head? ≠ some 46 := by
    unfold longName
    rw [List.replicate_succ, List.head?_cons]
    split <;> decide
  rintro (hdot | hdots)
  · exact hhead (congrArg List.head? hdot)
  · exact hhead (congrArg List.head? hdots)

theorem manyFiles_long : 40960 < (dirText manyFiles).length := by
  have hlisted : manyFiles.filter (·.listed) = manyFiles := by
    apply List.filter_eq_self.mpr
    intro e he
    obtain ⟨i, -, rfl⟩ := List.mem_map.mp he
    exact decide_eq_true (longName_listed i)
  have hlengths : (manyFiles.map fun e => e.name.length + 1) =
      (List.finRange 510).map fun i => i.val / 2 + 2 := by
    unfold manyFiles longName
    rw [List.map_map]
    apply List.map_congr_left
    intro i _
    show (List.replicate (i.val / 2 + 1) _).length + 1 = i.val / 2 + 2
    rw [List.length_replicate]
  rw [dirText_length, hlisted, hlengths]
  decide +kernel

theorem manyFiles_overrun :
    (manyFiles.map DirEntry.name).Nodup ∧ 40960 < (dirLoop manyFiles).p ∧
      ¬DirListed manyFiles := by
  have hlong := manyFiles_long
  refine ⟨?_, ?_, fun h => ?_⟩
  · unfold manyFiles
    rw [List.map_map]
    exact List.pairwise_map.mpr ((List.nodup_finRange 510).imp fun hne h => hne (longName_inj h))
  · rw [dirLoop_p]
    exact hlong
  · have hlt := (dirListed_iff_text manyFiles).mp h
    exact absurd (Nat.lt_trans hlong hlt) (by decide)

end Phorklift
