import Phorklift.Request

/-! The cookies of a request, as scripts read them. -/

namespace Phorklift
namespace Cookies

/-- The loop over the value of a Cookie header from `p` on; a look past the value meets its NUL. -/
def cookieLoop (name : Bytes) : Nat → Bytes → Option Bytes
  | 0, _ => none
  | fuel + 1, p =>
    if name.isPrefixOf p && p[name.length]? == some 61 then
      some ((p.drop (name.length + 1)).takeWhile (· ≠ 59))
    else if 59 ∈ p then
      cookieLoop name fuel (((p.dropWhile (· ≠ 59)).drop 1).dropWhile (· == 32))
    else none

def phlReqGetCookie (headers : List Header) (name : Bytes) : Option Bytes :=
  headers.findSome? fun h =>
    if strcasecmp (cstr h.name) (bytes "Cookie") then cookieLoop name (h.value.length + 1) h.value
    else none

/-- A cookie in a header, with the number of spaces before it if it is not the first. -/
structure Cookie where
  name : Bytes
  value : Bytes
  spaces : Nat

def Cookie.pair (c : Cookie) : Bytes := c.name ++ 61 :: c.value

/-- The cookies that follow the first. -/
def laterCookies : List Cookie → Bytes
  | [] => []
  | c :: cs => 59 :: (List.replicate c.spaces 32 ++ (c.pair ++ laterCookies cs))

/-- The value of a Cookie header. -/
def cookieText : List Cookie → Bytes
  | [] => []
  | c :: cs => c.pair ++ laterCookies cs

/-- A name holds no `;`, no `=` and no NUL. -/
def IsName (name : Bytes) : Prop := 59 ∉ name ∧ 61 ∉ name ∧ 0 ∉ name

/-- The name begins with no space, and the value holds no `;` and no NUL. -/
structure Cookie.Valid (c : Cookie) : Prop where
  name : IsName c.name
  first : c.name.head? ≠ some 32
  value : 59 ∉ c.value ∧ 0 ∉ c.value

/-- What a header has of the cookies. -/
structure Carries (h : Header) (cs : List Cookie) : Prop where
  valid : ∀ c ∈ cs, c.Valid
  cookie : strcasecmp (cstr h.name) (bytes "Cookie") = true → h.value = cookieText cs
  other : strcasecmp (cstr h.name) (bytes "Cookie") = false → cs = []

section Loop

variable {name rest : Bytes} {c : Cookie} {cs : List Cookie} {fuel : Nat}

/-- A name stands at a cookie exactly where it is the cookie's. -/
theorem name_stands (hname : 61 ∉ name) (hc : 61 ∉ c.name) :
    (name.isPrefixOf (c.name ++ 61 :: rest) && (c.name ++ 61 :: rest)[name.length]? == some 61) =
      true ↔ c.name = name := by
  have htake : ∀ {n t : Bytes}, 61 ∉ n → (n ++ 61 :: t).takeWhile (· ≠ 61) = n := by
    intro n t hn
    have hall : ∀ x ∈ n, decide (x ≠ 61) = true := fun x hx =>
      decide_eq_true fun h => hn (h ▸ hx)
    rw [List.takeWhile_append_of_pos hall]
    simp
  rw [Bool.and_eq_true, beq_iff_eq, List.isPrefixOf_iff_prefix]
  constructor
  · rintro ⟨⟨t, ht⟩, hnext⟩
    rw [← ht] at hnext
    rw [List.getElem?_append_right (Nat.le_refl _), Nat.sub_self] at hnext
    obtain ⟨t, rfl⟩ : ∃ t', t = 61 :: t' := by
      cases t with
      | nil => cases hnext
      | cons x t =>
        cases hnext
        exact ⟨t, rfl⟩
    have hboth := congrArg (List.takeWhile (· ≠ 61)) ht
    rw [htake hname, htake hc] at hboth
    exact hboth.symm
  · rintro rfl
    refine ⟨List.prefix_append _ _, ?_⟩
    rw [List.getElem?_append_right (Nat.le_refl _), Nat.sub_self]
    rfl

theorem takeWhile_later (hvalue : 59 ∉ c.value) :
    (c.value ++ laterCookies cs).takeWhile (· ≠ 59) = c.value := by
  have hall : ∀ x ∈ c.value, decide (x ≠ 59) = true := fun x hx =>
    decide_eq_true fun h => hvalue (h ▸ hx)
  rw [List.takeWhile_append_of_pos hall]
  cases cs with
  | nil => simp [laterCookies]
  | cons d ds => simp [laterCookies]

theorem pair_semicolon (hc : c.Valid) : 59 ∉ c.pair := by
  intro hmem
  rcases List.mem_append.mp hmem with hmem | hmem
  · exact hc.name.1 hmem
  · rcases List.mem_cons.mp hmem with hmem | hmem
    · cases hmem
    · exact hc.value.1 hmem

/-- The walk comes to the next cookie. -/
theorem next_cookie {d : Cookie} {ds : List Cookie} (hc : c.Valid) (hd : d.Valid) :
    (((cookieText (c :: d :: ds)).dropWhile (· ≠ 59)).drop 1).dropWhile (· == 32) =
      cookieText (d :: ds) := by
  have hall : ∀ x ∈ c.pair, decide (x ≠ 59) = true := fun x hx =>
    decide_eq_true fun h => pair_semicolon hc (h ▸ hx)
  have hfirst : (cookieText (d :: ds)).dropWhile (· == 32) = cookieText (d :: ds) := by
    have hnot := hd.first
    cases hn : d.name with
    | nil => simp [cookieText, Cookie.pair, hn]
    | cons x n =>
      rw [hn] at hnot
      have hx : x ≠ 32 := fun h => hnot (h ▸ rfl)
      simp [cookieText, Cookie.pair, hn, hx]
  show (((c.pair ++ laterCookies (d :: ds)).dropWhile (· ≠ 59)).drop 1).dropWhile (· == 32) = _
  rw [List.dropWhile_append_of_pos hall]
  have hlater : ((laterCookies (d :: ds)).dropWhile (· ≠ 59)).drop 1 =
      List.replicate d.spaces 32 ++ cookieText (d :: ds) := by
    simp [laterCookies, cookieText]
  rw [hlater, List.dropWhile_append_of_pos (by simp)]
  exact hfirst

theorem cookieText_cons : cookieText (c :: cs) = c.name ++ 61 :: (c.value ++ laterCookies cs) := by
  show (c.name ++ 61 :: c.value) ++ laterCookies cs = _
  rw [List.append_assoc, List.cons_append]

/-- The walk over the cookies of one header. -/
theorem cookieLoop_text (hname : IsName name) (hcs : ∀ c ∈ cs, c.Valid)
    (hfuel : (cookieText cs).length < fuel) :
    cookieLoop name fuel (cookieText cs) =
      (cs.find? fun c => decide (c.name = name)).map (·.value) := by
  induction cs generalizing fuel with
  | nil =>
    cases fuel with
    | zero => rfl
    | succ fuel => simp [cookieLoop, cookieText]
  | cons c cs ih =>
    obtain ⟨hc, hcs⟩ := List.forall_mem_cons.mp hcs
    cases fuel with
    | zero => omega
    | succ fuel =>
      have hstands := @name_stands name (c.value ++ laterCookies cs) c hname.2.1 hc.name.2.1
      rw [← cookieText_cons] at hstands
      unfold cookieLoop
      by_cases hfound : c.name = name
      · have hfirst : (c :: cs).find? (fun c => decide (c.name = name)) = some c :=
          List.find?_cons_of_pos (decide_eq_true hfound)
        have hdrop : (cookieText (c :: cs)).drop (name.length + 1) =
            c.value ++ laterCookies cs := by
          rw [cookieText_cons, List.append_cons]
          exact List.drop_left' (by simp [hfound])
        rw [if_pos (hstands.mpr hfound), hfirst, hdrop, takeWhile_later hc.value.1]
        rfl
      · have hlater : (c :: cs).find? (fun c => decide (c.name = name)) =
            cs.find? fun c => decide (c.name = name) :=
          List.find?_cons_of_neg (by simpa using hfound)
        rw [if_neg (mt hstands.mp hfound), hlater]
        cases cs with
        | nil =>
          have hnone : 59 ∉ cookieText [c] := by
            show 59 ∉ c.pair ++ []
            rw [List.append_nil]
            exact pair_semicolon hc
          rw [if_neg hnone]
          rfl
        | cons d ds =>
          have hmem : 59 ∈ cookieText (c :: d :: ds) :=
            List.mem_append_right _ List.mem_cons_self
          have hlength : (cookieText (d :: ds)).length < fuel := by
            have hwhole : (cookieText (c :: d :: ds)).length = c.pair.length +
                (1 + (d.spaces + (cookieText (d :: ds)).length)) := by
              simp [cookieText, laterCookies]
              omega
            omega
          rw [if_pos hmem, next_cookie hc (hcs d List.mem_cons_self)]
          exact ih hcs hlength

end Loop

end Cookies

end Phorklift
