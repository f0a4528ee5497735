import Phorklift.Bytes

/-! Which Path of a Host a request is located to, and which Paths are refused as overwritten. -/

namespace Phorklift

/-- What `phl_conf_path_post` accepts: a name that begins with `=`, `/`, `~` or `@`. -/
structure Pathname where
  str : Bytes
  accepted : ∃ c, str.head? = some c ∧ (c = 61 ∨ c = 47 ∨ c = 126 ∨ c = 64)
  deriving DecidableEq

/-- A Path comes down to its pathnames. -/
abbrev PathList := List (List Pathname)

section Locate

variable (find2 : Bytes → Bytes → Bool)

/-- `wuy_luastr_find2(req, pattern)` is `find2 req pattern`. -/
def phlConfPathNameMatch (pathname : Pathname) (req : Bytes) : Bool :=
  if req.head? = some 64 then pathname.str == req
  else match pathname.str with
  | 61 :: name => name == req
  | 47 :: _ => pathname.str.isPrefixOf req
  | 126 :: pattern => find2 req pattern
  | _ => false

/-- The index of the Path, or `none` for NULL. Without any Path it is the `default_path`, which no
pathname leads to. -/
def phlConfPathLocate (paths : PathList) (name : Bytes) : Option Nat :=
  paths.findIdx? fun pathnames => pathnames.any fun p => phlConfPathNameMatch find2 p name

def phlConfPathCheckOverwrite (paths : PathList) (stop : Nat) (pathname : Pathname) : Bool :=
  let first := pathname.str.head?
  let name := if first = some 61 then pathname.str.tail else pathname.str
  if first = some 126 then false
  else (paths.take stop).any fun pathnames => pathnames.any fun pattern =>
    !(pattern.str.head? == some 61 && first == some 47) && phlConfPathNameMatch find2 pattern name

/-- The first pathname that is overwritten, with the Path that has it. -/
def phlConfHostCheckPathOverwrite (paths : PathList) : Option (Nat × Pathname) :=
  paths.zipIdx.findSome? fun (pathnames, i) =>
    (pathnames.find? (phlConfPathCheckOverwrite find2 paths i)).map (i, ·)

end Locate

section Reach

variable {find2 : Bytes → Bytes → Bool} {paths : PathList} {i : Nat} {names : List Pathname}
  {p : Pathname} {s name : Bytes}

/-- A name is located to a Path that matches it, unless one before it does. -/
theorem phlConfPathLocate_eq_some (hi : paths[i]? = some names) (hp : p ∈ names)
    (hmatch : phlConfPathNameMatch find2 p name = true)
    (hbefore : ∀ earlier ∈ paths.take i, ∀ q ∈ earlier, phlConfPathNameMatch find2 q name = false) :
    phlConfPathLocate find2 paths name = some i := by
  unfold phlConfPathLocate
  obtain ⟨hlt, hget⟩ := List.getElem?_eq_some_iff.mp hi
  rw [List.findIdx?_eq_some_iff_getElem]
  refine ⟨hlt, ?_, fun j hj => ?_⟩
  · rw [hget, List.any_eq_true]
    exact ⟨p, hp, hmatch⟩
  · rw [Bool.not_eq_true, List.any_eq_false]
    intro q hq
    have hmem : paths[j] ∈ paths.take i := List.mem_take_iff_getElem.mpr ⟨j, by omega, rfl⟩
    rw [hbefore _ hmem q hq]
    exact Bool.false_ne_true

/-- A name that an earlier Path matches is located before. -/
theorem phlConfPathLocate_lt {earlier : List Pathname} {q : Pathname}
    (he : earlier ∈ paths.take i) (hq : q ∈ earlier)
    (hmatch : phlConfPathNameMatch find2 q name = true) :
    ∃ k < i, phlConfPathLocate find2 paths name = some k := by
  obtain ⟨j, hj, rfl⟩ := List.mem_take_iff_getElem.mp he
  have hany : (paths[j].any fun p => phlConfPathNameMatch find2 p name) = true :=
    List.any_eq_true.mpr ⟨q, hq, hmatch⟩
  cases hk : phlConfPathLocate find2 paths name with
  | none =>
    unfold phlConfPathLocate at hk
    have hnone := List.findIdx?_eq_none_iff.mp hk paths[j] (List.getElem_mem _)
    rw [hany] at hnone
    cases hnone
  | some k =>
    obtain ⟨hlt, -, hbefore⟩ := List.findIdx?_eq_some_iff_getElem.mp hk
    refine ⟨k, ?_, rfl⟩
    by_contra hge
    exact hbefore j (by omega) hany

theorem phlConfHostCheckPathOverwrite_eq_none :
    phlConfHostCheckPathOverwrite find2 paths = none ↔
      ∀ i names, paths[i]? = some names → ∀ p ∈ names,
        phlConfPathCheckOverwrite find2 paths i p = false := by
  unfold phlConfHostCheckPathOverwrite
  simp only [List.findSome?_eq_none_iff, Option.map_eq_none_iff, List.find?_eq_none,
    Bool.not_eq_true]
  constructor
  · intro h i names hi
    exact h (names, i) (List.mem_zipIdx_iff_getElem?.mpr hi)
  · rintro h ⟨names, i⟩ hmem
    exact h i names (List.mem_zipIdx_iff_getElem?.mp hmem)

theorem phlConfHostCheckPathOverwrite_eq_some
    (h : phlConfHostCheckPathOverwrite find2 paths = some (i, p)) :
    ∃ names, paths[i]? = some names ∧ p ∈ names ∧
      phlConfPathCheckOverwrite find2 paths i p = true := by
  obtain ⟨⟨names, j⟩, hmem, hfind⟩ := List.exists_of_findSome?_eq_some h
  obtain ⟨q, hq, hpair⟩ := Option.map_eq_some_iff.mp hfind
  cases hpair
  exact ⟨names, List.mem_zipIdx_iff_getElem?.mp hmem, List.mem_of_find?_eq_some hq,
    List.find?_some hq⟩

theorem exists_cons_of_head? {l : Bytes} {c : UInt8} (h : l.head? = some c) : ∃ t, l = c :: t := by
  cases l with
  | nil => cases h
  | cons d t =>
    cases h
    exact ⟨t, rfl⟩

theorem phlConfPathNameMatch_named {rest : Bytes} :
    phlConfPathNameMatch find2 p (64 :: rest) = (p.str == 64 :: rest) := by
  unfold phlConfPathNameMatch
  exact if_pos rfl

theorem phlConfPathNameMatch_prefix {rest : Bytes} (hstr : p.str = 47 :: rest) :
    phlConfPathNameMatch find2 p name = p.str.isPrefixOf name := by
  unfold phlConfPathNameMatch
  split
  next hname =>
    cases name with
    | nil => cases hname
    | cons c name =>
      cases hname
      rw [hstr]
      rfl
  next =>
    rw [hstr]
    rfl

theorem phlConfPathNameMatch_exact (hstr : p.str = 61 :: s) :
    phlConfPathNameMatch find2 p name = (s == name && !decide (s.head? = some 64)) := by
  unfold phlConfPathNameMatch
  rw [hstr]
  split
  next hname =>
    have hfirst : ((61 : UInt8) :: s == name) = false := by
      cases name with
      | nil => cases hname
      | cons c name =>
        cases hname
        rfl
    rw [hfirst]
    symm
    by_cases hs : s = name
    · rw [hs, hname]
      simp
    · simp [hs]
  next hname =>
    by_cases hs : s = name
    · rw [hs]
      simp [hname]
    · simp [hs]

/-- A pathname is refused for an earlier one that matches its own name. -/
theorem phlConfPathCheckOverwrite_iff :
    phlConfPathCheckOverwrite find2 paths i p = true ↔
      p.str.head? ≠ some 126 ∧ ∃ earlier ∈ paths.take i, ∃ q ∈ earlier,
        ¬(q.str.head? = some 61 ∧ p.str.head? = some 47) ∧
        phlConfPathNameMatch find2 q
          (if p.str.head? = some 61 then p.str.tail else p.str) = true := by
  unfold phlConfPathCheckOverwrite
  dsimp only
  split
  next h => simp [h]
  next h =>
    simp only [List.any_eq_true, Bool.and_eq_true, Bool.not_eq_true', Bool.and_eq_false_iff,
      beq_eq_false_iff_ne, ne_eq, h, not_false_iff, true_and, not_and_or]

/-- Where the check passes, no earlier pathname matches `name`, save `=` before `/`. -/
theorem not_match_of_checked (h : phlConfPathCheckOverwrite find2 paths i p = false)
    (hfirst : p.str.head? ≠ some 126)
    (hname : name = if p.str.head? = some 61 then p.str.tail else p.str) :
    ∀ earlier ∈ paths.take i, ∀ q ∈ earlier,
      ¬(q.str.head? = some 61 ∧ p.str.head? = some 47) →
      phlConfPathNameMatch find2 q name = false := by
  intro earlier he q hq hskip
  by_contra hmatch
  rw [Bool.not_eq_false, hname] at hmatch
  have hrefused := phlConfPathCheckOverwrite_iff.mpr ⟨hfirst, earlier, he, q, hq, hskip, hmatch⟩
  rw [h] at hrefused
  cases hrefused

/-- A Path that the check passes is reached by its own names. -/
theorem located_of_checked (h : phlConfHostCheckPathOverwrite find2 paths = none)
    (hi : paths[i]? = some names) (hp : p ∈ names) :
    (p.str = 61 :: 47 :: s → phlConfPathLocate find2 paths (47 :: s) = some i) ∧
    (p.str = 64 :: s → phlConfPathLocate find2 paths (64 :: s) = some i) ∧
    (p.str = 47 :: s → (∀ earlier ∈ paths.take i, ∀ q ∈ earlier, q.str ≠ 61 :: 47 :: s) →
      phlConfPathLocate find2 paths (47 :: s) = some i) := by
  have hcheck := phlConfHostCheckPathOverwrite_eq_none.mp h i names hi p hp
  refine ⟨fun hstr => ?_, fun hstr => ?_, fun hstr hbefore => ?_⟩
  · have hself : phlConfPathNameMatch find2 p (47 :: s) = true := by
      rw [phlConfPathNameMatch_exact hstr]
      simp
    refine phlConfPathLocate_eq_some hi hp hself fun earlier he q hq => ?_
    exact not_match_of_checked hcheck (by simp [hstr]) (by simp [hstr]) earlier he q hq
      (by simp [hstr])
  · have hself : phlConfPathNameMatch find2 p (64 :: s) = true := by
      rw [phlConfPathNameMatch_named, hstr]
      simp
    refine phlConfPathLocate_eq_some hi hp hself fun earlier he q hq => ?_
    exact not_match_of_checked hcheck (by simp [hstr]) (by simp [hstr]) earlier he q hq
      (by simp [hstr])
  · have hself : phlConfPathNameMatch find2 p (47 :: s) = true := by
      rw [ phlConfPathNameMatch_prefix hstr, hstr]
      simp
    refine phlConfPathLocate_eq_some hi hp hself fun earlier he q hq => ?_
    by_cases hq61 : q.str.head? = some 61
    · obtain ⟨t, hexact⟩ := exists_cons_of_head? hq61
      have hne : t ≠ 47 :: s := fun h0 => hbefore earlier he q hq (h0 ▸ hexact)
      rw [phlConfPathNameMatch_exact hexact]
      simp [hne]
    · exact not_match_of_checked hcheck (by simp [hstr]) (by simp [hstr]) earlier he q hq
        fun hboth => hq61 hboth.1

/-- A pathname that the check refuses is matched by an earlier Path wherever it matches. -/
theorem located_before_of_refused
    (hplain : ∀ names ∈ paths, ∀ q ∈ names, q.str.head? ≠ some 126)
    (h : phlConfPathCheckOverwrite find2 paths i p = true)
    (hmatch : phlConfPathNameMatch find2 p name = true) :
    ∃ k < i, phlConfPathLocate find2 paths name = some k := by
  obtain ⟨hfirst, earlier, he, q, hq, hskip, hown⟩ := phlConfPathCheckOverwrite_iff.mp h
  refine phlConfPathLocate_lt he hq ?_
  obtain ⟨c, hc, hkind⟩ := p.accepted
  obtain ⟨s, hstr⟩ := exists_cons_of_head? hc
  rw [hstr] at hown hskip hfirst
  simp only [List.head?_cons, List.tail_cons] at hown hskip hfirst
  rcases hkind with rfl | rfl | rfl | rfl
  · rw [phlConfPathNameMatch_exact hstr] at hmatch
    simp only [Bool.and_eq_true, beq_iff_eq] at hmatch
    rw [← hmatch.1]
    exact hown
  · -- what matches the prefix itself is a shorter prefix
    rw [ phlConfPathNameMatch_prefix hstr, hstr, List.isPrefixOf_iff_prefix] at hmatch
    simp only [Option.some.injEq, if_neg (by decide : ¬(47 : UInt8) = 61)] at hown
    obtain ⟨d, hd, hkind⟩ := q.accepted
    obtain ⟨t, hqstr⟩ := exists_cons_of_head? hd
    rcases hkind with rfl | rfl | rfl | rfl
    · exact absurd ⟨hd, rfl⟩ hskip
    · rw [ phlConfPathNameMatch_prefix hqstr, List.isPrefixOf_iff_prefix] at hown ⊢
      exact hown.trans hmatch
    · exact absurd hd (hplain earlier (List.mem_of_mem_take he) q hq)
    · rw [phlConfPathNameMatch, hqstr] at hown
      simp at hown
  · exact absurd rfl hfirst
  · simp only [Option.some.injEq, if_neg (by decide : ¬(64 : UInt8) = 61)] at hown
    have hname : name = 64 :: s := by
      unfold phlConfPathNameMatch at hmatch
      rw [hstr] at hmatch
      split at hmatch
      next => exact (beq_iff_eq.mp hmatch).symm
      next => simp at hmatch
    rw [hname]
    exact hown

/-- Paths that the check passes are reached by their own names; a pathname that it refuses never
leads to its Path. -/
theorem path_reachability (find2 : Bytes → Bytes → Bool) (paths : PathList) :
    (phlConfHostCheckPathOverwrite find2 paths = none →
      ∀ i names, paths[i]? = some names → ∀ p ∈ names, ∀ s,
        (p.str = 61 :: 47 :: s → phlConfPathLocate find2 paths (47 :: s) = some i) ∧
        (p.str = 64 :: s → phlConfPathLocate find2 paths (64 :: s) = some i) ∧
        (p.str = 47 :: s → (∀ earlier ∈ paths.take i, ∀ q ∈ earlier, q.str ≠ 61 :: 47 :: s) →
          phlConfPathLocate find2 paths (47 :: s) = some i)) ∧
    (∀ i p, phlConfHostCheckPathOverwrite find2 paths = some (i, p) →
      ∃ names, paths[i]? = some names ∧ p ∈ names ∧
        phlConfPathCheckOverwrite find2 paths i p = true) ∧
    ((∀ names ∈ paths, ∀ q ∈ names, q.str.head? ≠ some 126) →
      ∀ i p, phlConfPathCheckOverwrite find2 paths i p = true →
        ∀ name, phlConfPathNameMatch find2 p name = true →
          ∃ k < i, phlConfPathLocate find2 paths name = some k) := by
  refine ⟨fun h i names hi p hp s => located_of_checked h hi hp, fun i p h => ?_,
    fun hplain i p h name hmatch => located_before_of_refused hplain h hmatch⟩
  exact phlConfHostCheckPathOverwrite_eq_some h

def exactImg : Pathname := ⟨bytes "=/img/", 61, by decide, by decide⟩

def prefixImg : Pathname := ⟨bytes "/img/", 47, by decide, by decide⟩

def prefixBig : Pathname := ⟨bytes "/img/big/", 47, by decide, by decide⟩

/-- `/img/` has its own requests save one, and `/img/big/` is not allowed behind it. -/
theorem path_reachability_img :
    phlConfPathLocate (fun _ _ => false) [[exactImg], [prefixImg]] (bytes "/img/") = some 0 ∧
    ∃ k < 1, phlConfPathLocate (fun _ _ => false) [[prefixImg], [prefixBig]]
      (bytes "/img/big/a.jpg") = some k :=
  ⟨((path_reachability (fun _ _ => false) [[exactImg], [prefixImg]]).1 (by decide) 0 [exactImg] rfl
      exactImg (by simp) (bytes "img/")).1 (by decide),
    (path_reachability (fun _ _ => false) [[prefixImg], [prefixBig]]).2.2 (by decide) 1 prefixBig
      (by decide) (bytes "/img/big/a.jpg") (by decide)⟩

end Reach

end Phorklift
