import Phorklift.HeaderReserve

/-! The lists of headers of a request and its response, and the functions of Lua that change
them. -/

namespace Phorklift

/-- A header with the address of its node. -/
structure HeaderNode where
  addr : Nat
  header : PhlHeader
  deriving DecidableEq

/-- `strcasecmp(h->str, name) == 0` -/
def HeaderNode.named (name : Bytes) (h : HeaderNode) : Bool :=
  strcasecmp (cstr h.header.str) (cstr name)

/-- The arguments of a function of Lua from the last one on; none is not a string. -/
abbrev LuaArgs := List (Option Bytes)

/-- `lua_tostring(L, -i)` -/
def LuaArgs.toString (L : LuaArgs) (i : Nat) : Option Bytes := L[i - 1]?.join

/-- `lua_pushlstring(L, phl_header_value(h), h->value_len)`; none reads past the header. -/
def PhlHeader.pushValue (h : PhlHeader) : Option Bytes :=
  if h.valueLen < 0 then none else some ((phlHeaderValue h).take h.valueLen.toNat)

/-- `phl_header_delete` -/
def headerDelete (name : Bytes) (hs : List HeaderNode) : List HeaderNode :=
  hs.eraseP (HeaderNode.named name)

/-- `phl_header_add`, to a node at `addr`; none writes outside of it. -/
def headerAdd (addr : Nat) (name value : Bytes) (hs : List HeaderNode) : Option (List HeaderNode) :=
  (phlHeaderNew name value).map fun h => hs ++ [⟨addr, h⟩]

/-- What `get_header` returns. -/
def luaGetHeader (L : LuaArgs) (hs : List HeaderNode) : Option (List Bytes) :=
  match L.toString 1 with
  | none => some []
  | some name =>
    match hs.find? (HeaderNode.named name) with
    | none => some []
    | some h => h.header.pushValue.map ([·])

def luaAddHeader (addr : Nat) (L : LuaArgs) (hs : List HeaderNode) : Option (List HeaderNode) :=
  match L.toString 2, L.toString 1 with
  | some name, some value => headerAdd addr name value hs
  | _, _ => some hs

def luaDeleteHeader (L : LuaArgs) (hs : List HeaderNode) : List HeaderNode :=
  match L.toString 1 with
  | none => hs
  | some name => headerDelete name hs

/-- `delete_header` and `add_header` on the same arguments: the last one of them is the value. -/
def luaSetHeader (addr : Nat) (L : LuaArgs) (hs : List HeaderNode) : Option (List HeaderNode) :=
  luaAddHeader addr L (luaDeleteHeader L hs)

/-- `r->req.headers` and `r->resp.headers` -/
structure RequestHeaders where
  req : List HeaderNode
  resp : List HeaderNode

def phlReqGetHeader (L : LuaArgs) (r : RequestHeaders) : Option (List Bytes) := luaGetHeader L r.req

def phlReqAddHeader (addr : Nat) (L : LuaArgs) (r : RequestHeaders) : Option RequestHeaders :=
  (luaAddHeader addr L r.req).map fun hs => { r with req := hs }

def phlReqDeleteHeader (L : LuaArgs) (r : RequestHeaders) : RequestHeaders :=
  { r with req := luaDeleteHeader L r.req }

def phlReqSetHeader (addr : Nat) (L : LuaArgs) (r : RequestHeaders) : Option RequestHeaders :=
  phlReqAddHeader addr L (phlReqDeleteHeader L r)

def phlRespGetHeader (L : LuaArgs) (r : RequestHeaders) : Option (List Bytes) :=
  luaGetHeader L r.resp

def phlRespAddHeader (addr : Nat) (L : LuaArgs) (r : RequestHeaders) : Option RequestHeaders :=
  (luaAddHeader addr L r.resp).map fun hs => { r with resp := hs }

def phlRespDeleteHeader (L : LuaArgs) (r : RequestHeaders) : RequestHeaders :=
  { r with resp := luaDeleteHeader L r.resp }

def phlRespSetHeader (addr : Nat) (L : LuaArgs) (r : RequestHeaders) : Option RequestHeaders :=
  phlRespAddHeader addr L (phlRespDeleteHeader L r)

/-- The functions of one of the two lists. -/
structure HeaderApi where
  list : RequestHeaders → List HeaderNode
  get : LuaArgs → RequestHeaders → Option (List Bytes)
  delete : LuaArgs → RequestHeaders → RequestHeaders
  set : Nat → LuaArgs → RequestHeaders → Option RequestHeaders

def reqApi : HeaderApi :=
  ⟨RequestHeaders.req, phlReqGetHeader, phlReqDeleteHeader, phlReqSetHeader⟩

def respApi : HeaderApi :=
  ⟨RequestHeaders.resp, phlRespGetHeader, phlRespDeleteHeader, phlRespSetHeader⟩

/-- How many headers have the name. -/
def timesNamed (name : Bytes) (hs : List HeaderNode) : Nat :=
  (hs.filter (HeaderNode.named name)).length

/-- After `delete_header(n)` no header has the name `n`. -/
def DeleteLaw (api : HeaderApi) (r : RequestHeaders) (n : Bytes) : Prop :=
  timesNamed n (api.list (api.delete [some n] r)) = 0

/-- After `set_header(n, v)` the value of `n` is `v`, one header has this name and the others are as
they were. -/
def SetLaw (api : HeaderApi) (addr : Nat) (r : RequestHeaders) (n v : Bytes) : Prop :=
  ∃ r', api.set addr [some v, some n] r = some r' ∧ api.get [some n] r' = some [v] ∧
    timesNamed n (api.list r') = 1 ∧
    (api.list r').filter (fun h => !h.named n) = (api.list r).filter fun h => !h.named n

/-- What a new header holds as its name is `n`, as it does where the length is that of a `short`. -/
def NameKept (n v : Bytes) : Prop :=
  -1 ≤ toShort n.length ∧ strcasecmp (shownName ⟨n, v⟩) (cstr n) = true

/-- The list has no header named `n` or `v`, unless these are one name: then it has at most one. -/
def SetsOne (n v : Bytes) (hs : List HeaderNode) : Prop :=
  if strcasecmp (cstr v) (cstr n) then timesNamed n hs ≤ 1
  else timesNamed n hs = 0 ∧ timesNamed v hs = 0

section FirstMatch

variable {α : Type} {p q r : α → Bool} {l : List α}

/-- What does not match is kept. -/
theorem filter_eraseP_of_not (h : ∀ a, q a = true → r a = false) :
    (l.eraseP q).filter r = l.filter r := by
  induction l with
  | nil => rfl
  | cons a l ih =>
    by_cases hq : q a = true
    · rw [List.eraseP_cons_of_pos hq, List.filter_cons_of_neg]
      rw [h a hq]
      exact Bool.false_ne_true
    · rw [List.eraseP_cons_of_neg hq, List.filter_cons, List.filter_cons, ih]

/-- Of what would be kept, nothing is removed only where nothing matches. -/
theorem filter_eraseP_eq_iff (h : ∀ a, q a = true → r a = true) :
    (l.eraseP q).filter r = l.filter r ↔ (l.filter q).length = 0 := by
  induction l with
  | nil => exact iff_of_true rfl rfl
  | cons a l ih =>
    by_cases hq : q a = true
    · rw [List.eraseP_cons_of_pos hq, List.filter_cons_of_pos (h a hq), List.filter_cons_of_pos hq]
      refine iff_of_false (fun heq => ?_) (Nat.succ_ne_zero _)
      have hlen := congrArg List.length heq
      rw [List.length_cons] at hlen
      omega
    · rw [List.eraseP_cons_of_neg hq, List.filter_cons_of_neg hq, ← ih]
      by_cases hr : r a = true
      · rw [List.filter_cons_of_pos hr, List.filter_cons_of_pos hr, List.cons.injEq]
        exact and_iff_right rfl
      · rw [List.filter_cons_of_neg hr, List.filter_cons_of_neg hr]

/-- One match less is left. -/
theorem length_filter_eraseP : ((l.eraseP p).filter p).length = (l.filter p).length - 1 := by
  induction l with
  | nil => rfl
  | cons a l ih =>
    by_cases hp : p a = true
    · rw [List.eraseP_cons_of_pos hp, List.filter_cons_of_pos hp, List.length_cons]
      omega
    · rw [List.eraseP_cons_of_neg hp, List.filter_cons_of_neg hp, List.filter_cons_of_neg hp, ih]

theorem find?_append_new {a : α} (hl : (l.filter p).length = 0) (ha : p a = true) :
    (l ++ [a]).find? p = some a := by
  have hnone : l.find? p = none := by
    rw [List.find?_eq_none]
    exact List.filter_eq_nil_iff.mp (List.length_eq_zero_iff.mp hl)
  rw [List.find?_append, hnone, List.find?_cons_of_pos ha]
  rfl

end FirstMatch

section Laws

variable {n v : Bytes} {addr : Nat} {hs : List HeaderNode}

theorem named_iff {name : Bytes} {h : HeaderNode} :
    h.named name = true ↔ lower (cstr h.header.str) = lower (cstr name) := by
  unfold HeaderNode.named strcasecmp
  exact beq_iff_eq

/-- Names that are one but for case have the same headers, and others have none in common. -/
theorem named_cases (n v : Bytes) :
    strcasecmp (cstr v) (cstr n) = true ∧ HeaderNode.named v = HeaderNode.named n ∨
      strcasecmp (cstr v) (cstr n) = false ∧
        ∀ h : HeaderNode, h.named v = true → h.named n = false := by
  cases hcase : strcasecmp (cstr v) (cstr n) with
  | true =>
    have hsame : lower (cstr v) = lower (cstr n) := beq_iff_eq.mp hcase
    refine .inl ⟨rfl, funext fun h => ?_⟩
    unfold HeaderNode.named strcasecmp
    rw [hsame]
  | false =>
    refine .inr ⟨rfl, fun h hv => ?_⟩
    by_contra hn
    have hsame := (named_iff.mp hv).symm.trans (named_iff.mp (by simpa using hn))
    have htrue : strcasecmp (cstr v) (cstr n) = true := beq_iff_eq.mpr hsame
    rw [hcase] at htrue
    cases htrue

theorem phlHeaderNew_value {made : PhlHeader} (h : phlHeaderNew n v = some made) :
    ∃ rest, phlHeaderValue made = v ++ 0 :: rest := by
  have hle := toShort_le n.length
  have htaken : ((n ++ [0]).take (toShort n.length + 1).toNat).length =
      (toShort n.length + 1).toNat := by
    generalize toShort n.length = short at hle
    rw [List.length_take, List.length_append, List.length_singleton]
    omega
  unfold phlHeaderNew at h
  dsimp only at h
  split at h
  next => cases h
  next =>
    obtain rfl := Option.some.inj h
    exact ⟨_, List.drop_left' htaken⟩

/-- A new header is read with the value that it was made of where this has the length of a
`short`. -/
theorem pushValue_new {made : PhlHeader} (h : phlHeaderNew n v = some made)
    (hplace : -1 ≤ toShort n.length) : made.pushValue = some v ↔ v.length < 2 ^ 15 := by
  obtain ⟨rest, hrest⟩ := phlHeaderNew_value h
  obtain ⟨made', hmade, -, hlen, -⟩ := phlHeaderNew_eq v hplace
  obtain rfl := Option.some.inj (h.symm.trans hmade)
  have hvalue := toShort_eq v.length
  have hwraps := @wraps_eq_zero v.length
  rw [← hlen] at hvalue
  generalize wraps v.length = wrapped at hvalue hwraps
  unfold PhlHeader.pushValue
  rw [← hwraps]
  constructor
  · intro hpush
    split at hpush
    next => cases hpush
    next hpos =>
      have htake := congrArg List.length (Option.some.inj hpush)
      rw [List.length_take] at htake
      omega
  · intro hzero
    have hnonneg : ¬ made.valueLen < 0 := by omega
    have hnat : made.valueLen.toNat = v.length := by omega
    rw [if_neg hnonneg, hnat, hrest, List.take_left]

/-- What `set_header` leaves: the first header that is named like the value is gone and the new one
comes last. -/
theorem luaSetHeader_eq (n v : Bytes) (addr : Nat) (hs : List HeaderNode) :
    luaSetHeader addr [some v, some n] hs =
      (phlHeaderNew n v).map fun h => hs.eraseP (HeaderNode.named v) ++ [⟨addr, h⟩] := rfl

theorem luaGetHeader_eq (n : Bytes) (hs : List HeaderNode) : luaGetHeader [some n] hs =
    match hs.find? (HeaderNode.named n) with
    | none => some []
    | some h => h.header.pushValue.map ([·]) := rfl

/-- What the deletion must leave of the list. -/
theorem setsOne_iff : (timesNamed n (hs.eraseP (HeaderNode.named v)) = 0 ∧
    (hs.eraseP (HeaderNode.named v)).filter (fun h => !h.named n) =
      hs.filter fun h => !h.named n) ↔ SetsOne n v hs := by
  unfold SetsOne timesNamed
  rcases named_cases n v with ⟨hcase, hsame⟩ | ⟨hcase, hother⟩
  · rw [if_pos hcase, hsame, length_filter_eraseP]
    have hothers : (hs.eraseP (HeaderNode.named n)).filter (fun h => !h.named n) =
        hs.filter fun h => !h.named n := by
      apply filter_eraseP_of_not
      intro h hn
      rw [hn]
      rfl
    rw [and_iff_left hothers]
    omega
  · have hcase' : ¬ strcasecmp (cstr v) (cstr n) = true := by
      rw [hcase]
      exact Bool.false_ne_true
    rw [if_neg hcase', filter_eraseP_of_not hother, filter_eraseP_eq_iff]
    intro h hv
    rw [hother h hv]
    rfl

/-- The law of `set_header` over one list. -/
def ListSetLaw (addr : Nat) (hs : List HeaderNode) (n v : Bytes) : Prop :=
  ∃ hs', luaSetHeader addr [some v, some n] hs = some hs' ∧
    luaGetHeader [some n] hs' = some [v] ∧ timesNamed n hs' = 1 ∧
    hs'.filter (fun h => !h.named n) = hs.filter fun h => !h.named n

theorem setLaw_list {api : HeaderApi} (hapi : api = reqApi ∨ api = respApi) (r : RequestHeaders) :
    SetLaw api addr r n v ↔ ListSetLaw addr (api.list r) n v := by
  have hput : ∀ (put : List HeaderNode → RequestHeaders) (P : RequestHeaders → Prop)
      (found : Option (List HeaderNode)),
      (∃ r', found.map put = some r' ∧ P r') ↔ ∃ hs', found = some hs' ∧ P (put hs') := by
    intro put P found
    constructor
    · rintro ⟨r', hset, hlaw⟩
      obtain ⟨hs', hhs, rfl⟩ := Option.map_eq_some_iff.mp hset
      exact ⟨hs', hhs, hlaw⟩
    · rintro ⟨hs', hset, hlaw⟩
      exact ⟨put hs', congrArg (Option.map put) hset, hlaw⟩
  rcases hapi with rfl | rfl
  · exact hput _ _ _
  · exact hput _ _ _

theorem set_law_iff (hfresh : ∀ h ∈ hs, h.addr ≠ addr) :
    ListSetLaw addr hs n v ↔ NameKept n v ∧ v.length < 2 ^ 15 ∧ SetsOne n v hs := by
  unfold ListSetLaw
  rw [luaSetHeader_eq]
  by_cases hplace : -1 ≤ toShort n.length
  · obtain ⟨made, hmade, -, -, hshown, -⟩ := phlHeaderNew_eq v hplace
    have hnamed : (HeaderNode.mk addr made).named n = strcasecmp (shownName ⟨n, v⟩) (cstr n) := by
      unfold HeaderNode.named
      rw [hshown]
    have hvalue := pushValue_new hmade hplace
    rw [hmade, Option.map_some]
    constructor
    · rintro ⟨hs', heq, hget, hone, hothers⟩
      obtain rfl := Option.some.inj heq
      have hkept : (HeaderNode.mk addr made).named n = true := by
        by_contra hlost
        rw [List.filter_append, List.filter_cons_of_pos (by simpa using hlost)] at hothers
        have hmem : HeaderNode.mk addr made ∈ hs.filter fun h => !h.named n := by
          rw [← hothers]
          exact List.mem_append_right _ List.mem_cons_self
        exact hfresh _ (List.mem_of_mem_filter hmem) rfl
      rw [List.filter_append, List.filter_cons_of_neg (by simpa using hkept), List.filter_nil,
        List.append_nil] at hothers
      have hnone : timesNamed n (hs.eraseP (HeaderNode.named v)) = 0 := by
        unfold timesNamed at hone ⊢
        rw [List.filter_append, List.filter_cons_of_pos hkept, List.filter_nil, List.length_append,
          List.length_singleton] at hone
        omega
      rw [luaGetHeader_eq, find?_append_new hnone hkept] at hget
      obtain ⟨value, hpush, hsame⟩ := Option.map_eq_some_iff.mp hget
      rw [List.singleton_inj.mp hsame] at hpush
      exact ⟨⟨hplace, hnamed ▸ hkept⟩, hvalue.mp hpush, setsOne_iff.mp ⟨hnone, hothers⟩⟩
    · rintro ⟨⟨-, hname⟩, hshort, hset⟩
      have hkept : (HeaderNode.mk addr made).named n = true := hnamed.trans hname
      obtain ⟨hnone, hothers⟩ := setsOne_iff.mpr hset
      refine ⟨_, rfl, ?_, ?_, ?_⟩
      · rw [luaGetHeader_eq, find?_append_new hnone hkept]
        dsimp only
        rw [hvalue.mpr hshort]
        rfl
      · unfold timesNamed at hnone ⊢
        rw [List.filter_append, List.filter_cons_of_pos hkept, List.filter_nil, List.length_append,
          hnone]
        rfl
      · rw [List.filter_append, List.filter_cons_of_neg (by simpa using hkept), List.filter_nil,
          List.append_nil]
        exact hothers
  · have hnone : phlHeaderNew n v = none := phlHeaderNew_eq_none (by omega)
    rw [hnone]
    refine iff_of_false ?_ fun h => hplace h.1.1
    rintro ⟨hs', heq, -⟩
    cases heq

theorem delete_law_iff : timesNamed n (luaDeleteHeader [some n] hs) = 0 ↔ timesNamed n hs ≤ 1 := by
  have hleft : timesNamed n (luaDeleteHeader [some n] hs) = timesNamed n hs - 1 :=
    length_filter_eraseP
  omega

theorem nameKept_of_short (h : n.length < 2 ^ 15) (v : Bytes) : NameKept n v := by
  have hshort := toShort_eq n.length
  rw [wraps_eq_zero.mpr h] at hshort
  have hplace : (toShort n.length + 1).toNat = (n ++ [0]).length := by
    rw [hshort, List.length_append, List.length_singleton]
    omega
  refine ⟨by omega, ?_⟩
  unfold shownName
  dsimp only
  rw [hplace, List.take_length, List.append_assoc]
  unfold strcasecmp
  exact beq_iff_eq.mpr (congrArg lower (cstr_append_nul n v))

end Laws

/-- A header with a name and a value of one byte. -/
def byteHeader (addr : Nat) (name value : UInt8) : HeaderNode := ⟨addr, 1, 1, [name, 0, value, 0]⟩

end Phorklift
