import Phorklift.Bytes

/-! The functions `Listen`, `Host` and `Path` of a configuration file, and the tables they make of
it. -/

namespace Phorklift
namespace ConfScript

/-- The functions that `make_accept_args` makes. -/
inductive Kind
  | listen
  | host
  | path
  deriving DecidableEq

def Kind.name : Kind → Bytes
  | .listen => bytes "Listen"
  | .host => bytes "Host"
  | .path => bytes "Path"

def Kind.opt : Kind → Bytes
  | .listen => bytes "_addresses"
  | .host => bytes "_hostnames"
  | .path => bytes "_pathnames"

/-- A Lua value; a field without a key is one of the table's array. -/
inductive Value
  | nil
  | str (s : Bytes)
  | table (fields : List (Option Bytes × Value))
  /-- `accept_args` of a kind -/
  | accept (k : Kind)
  /-- a number, a boolean or another function -/
  | other (n : Nat)

/-- An expression of a configuration file. -/
inductive Expr
  | value (v : Value)
  | table (fields : List (Option Bytes × Expr))
  | call (f arg : Expr)

/-- The upvalues `str_args` and the global `phl_conf_listens`. -/
structure St where
  strArgs : Kind → List Bytes
  listens : List Value

def St.init : St := ⟨fun _ => [], []⟩

def St.setArgs (k : Kind) (args : List Bytes) (st : St) : St :=
  { st with strArgs := fun k' => if k' = k then args else st.strArgs k' }

/-- `arg[opt] = str_args` -/
def setField (key : Bytes) (v : Value) (fields : List (Option Bytes × Value)) :
    List (Option Bytes × Value) :=
  fields.filter (fun f => f.1 ≠ some key) ++ [(some key, v)]

def strings (args : List Bytes) : Value := .table (args.map fun s => (none, .str s))

inductive Err
  | noString (k : Kind)
  | badType (k : Kind)
  | notCallable
  deriving DecidableEq

/-- The text that `error` is called with. -/
def Err.message : Err → Bytes
  | .noString k => bytes "at least 1 string argument is need for " ++ k.name
  | .badType k => bytes "invalid argument type for " ++ k.name
  | .notCallable => bytes "attempt to call a value"

/-- `accept_args` -/
def acceptArgs (k : Kind) (arg : Value) (st : St) : Except Err (Value × St) :=
  match arg with
  | .str s => .ok (.accept k, st.setArgs k (st.strArgs k ++ [s]))
  | .table fields =>
    if st.strArgs k = [] then .error (.noString k)
    else
      let arg := .table (setField k.opt (strings (st.strArgs k)) fields)
      let st := st.setArgs k []
      match k with
      | .listen => .ok (.nil, { st with listens := st.listens ++ [arg] })
      | .host | .path => .ok (arg, st)
  | _ => .error (.badType k)

mutual

def eval : Expr → St → Except Err (Value × St)
  | .value v, st => .ok (v, st)
  | .table fields, st => do
    let (vs, st) ← evalFields fields st
    .ok (.table vs, st)
  | .call f arg, st => do
    let (f, st) ← eval f st
    let (arg, st) ← eval arg st
    match f with
    | .accept k => acceptArgs k arg st
    | _ => .error .notCallable

def evalFields : List (Option Bytes × Expr) → St → Except Err (List (Option Bytes × Value) × St)
  | [], st => .ok ([], st)
  | (key, e) :: fields, st => do
    let (v, st) ← eval e st
    let (vs, st) ← evalFields fields st
    .ok ((key, v) :: vs, st)

end

/-- A configuration file that is a list of calls; the listens it leaves. -/
def run (file : List Expr) : Except Err (List Value) := do
  let st ← file.foldlM (fun st e => (eval e st).map Prod.snd) St.init
  .ok st.listens

/-- What an author means: values, and scopes with names of their own. -/
inductive Conf
  | plain (v : Value)
  | table (fields : List (Option Bytes × Conf))
  | scope (k : Kind) (names : List Bytes) (fields : List (Option Bytes × Conf))

/-- `Path "a" "b"` -/
def callee (f : Expr) (names : List Bytes) : Expr :=
  names.foldl (fun f s => .call f (.value (.str s))) f

namespace Conf

mutual

/-- How it is written. -/
def render : Conf → Expr
  | plain v => .value v
  | table fields => .table (renderFields fields)
  | scope k names fields => .call (callee (.value (.accept k)) names) (.table (renderFields fields))

def renderFields : List (Option Bytes × Conf) → List (Option Bytes × Expr)
  | [] => []
  | (key, c) :: fields => (key, c.render) :: renderFields fields

end

mutual

/-- Each scope is a table with its own names; a Listen is no value. -/
def denote : Conf → Value
  | plain v => v
  | table fields => .table (denoteFields fields)
  | scope .listen _ _ => .nil
  | scope k names fields => .table (setField k.opt (strings names) (denoteFields fields))

def denoteFields : List (Option Bytes × Conf) → List (Option Bytes × Value)
  | [] => []
  | (key, c) :: fields => (key, c.denote) :: denoteFields fields

end

mutual

/-- The tables of the Listens in it, in the order of their calls. -/
def listens : Conf → List Value
  | plain _ => []
  | table fields => listensFields fields
  | scope .listen names fields => listensFields fields ++
    [.table (setField Kind.listen.opt (strings names) (denoteFields fields))]
  | scope _ _ fields => listensFields fields

def listensFields : List (Option Bytes × Conf) → List Value
  | [] => []
  | (_, c) :: fields => c.listens ++ listensFields fields

end

mutual

/-- Every scope has a name, and none is inside of another one of its kind. -/
def WellNested : List Kind → Conf → Prop
  | _, plain _ => True
  | opened, table fields => WellNestedFields opened fields
  | opened, scope k names fields =>
    names ≠ [] ∧ k ∉ opened ∧ WellNestedFields (k :: opened) fields

def WellNestedFields : List Kind → List (Option Bytes × Conf) → Prop
  | _, [] => True
  | opened, (_, c) :: fields => c.WellNested opened ∧ WellNestedFields opened fields

end

end Conf

section Names

variable {st st' : St} {f : Expr} {k k' : Kind} {names : List Bytes}

theorem setArgs_self (k : Kind) (args : List Bytes) (st : St) :
    (st.setArgs k args).strArgs k = args := if_pos rfl

theorem setArgs_of_ne (h : k' ≠ k) (args : List Bytes) (st : St) :
    (st.setArgs k args).strArgs k' = st.strArgs k' := if_neg h

/-- The strings of a call wait in `str_args`. -/
theorem eval_callee (h : eval f st = .ok (.accept k, st')) (names : List Bytes) :
    ∃ st'', eval (callee f names) st = .ok (.accept k, st'') ∧ st''.listens = st'.listens ∧
      st''.strArgs k = st'.strArgs k ++ names ∧
        ∀ k', k' ≠ k → st''.strArgs k' = st'.strArgs k' := by
  induction names generalizing f st' with
  | nil => exact ⟨st', h, rfl, (List.append_nil _).symm, fun _ _ => rfl⟩
  | cons s names ih =>
    have hcall : eval (.call f (.value (.str s))) st =
        .ok (.accept k, st'.setArgs k (st'.strArgs k ++ [s])) := by
      simp only [eval, h]
      rfl
    obtain ⟨st'', heval, hlistens, hself, hother⟩ := ih hcall
    refine ⟨st'', heval, hlistens, ?_, fun k' hk => ?_⟩
    · rw [hself, setArgs_self, List.append_assoc]
      rfl
    · rw [hother k' hk, setArgs_of_ne hk]

end Names

section Calls

variable {st st' st₁ st₂ : St} {f arg : Expr} {k : Kind} {fields : List (Option Bytes × Expr)}
  {vs : List (Option Bytes × Value)} {e : Err}

theorem eval_table_ok (h : evalFields fields st = .ok (vs, st')) :
    eval (.table fields) st = .ok (.table vs, st') := by
  simp only [eval, h]
  rfl

theorem eval_table_error (h : evalFields fields st = .error e) :
    eval (.table fields) st = .error e := by
  simp only [eval, h]
  rfl

theorem eval_call {v : Value} (hf : eval f st = .ok (.accept k, st₁))
    (harg : eval arg st₁ = .ok (v, st₂)) : eval (.call f arg) st = acceptArgs k v st₂ := by
  simp only [eval, hf]
  show (eval arg st₁ >>= fun r => acceptArgs k r.1 r.2) = _
  rw [harg]
  rfl

theorem eval_call_error (hf : eval f st = .ok (.accept k, st₁)) (harg : eval arg st₁ = .error e) :
    eval (.call f arg) st = .error e := by
  simp only [eval, hf]
  show (eval arg st₁ >>= fun r => acceptArgs k r.1 r.2) = _
  rw [harg]
  rfl

theorem evalFields_cons_ok {key : Option Bytes} {v : Value} (hhead : eval arg st = .ok (v, st₁))
    (htail : evalFields fields st₁ = .ok (vs, st₂)) :
    evalFields ((key, arg) :: fields) st = .ok ((key, v) :: vs, st₂) := by
  simp only [evalFields, hhead]
  show (evalFields fields st₁ >>= fun r => .ok ((key, v) :: r.1, r.2)) = _
  rw [htail]
  rfl

theorem evalFields_cons_error {key : Option Bytes} (hhead : eval arg st = .error e) :
    evalFields ((key, arg) :: fields) st = .error e := by
  simp only [evalFields, hhead]
  rfl

theorem evalFields_cons_tail_error {key : Option Bytes} {v : Value}
    (hhead : eval arg st = .ok (v, st₁)) (htail : evalFields fields st₁ = .error e) :
    evalFields ((key, arg) :: fields) st = .error e := by
  simp only [evalFields, hhead]
  show (evalFields fields st₁ >>= fun r => .ok ((key, v) :: r.1, r.2)) = _
  rw [htail]
  rfl

theorem acceptArgs_none (h : st.strArgs k = []) :
    acceptArgs k (.table vs) st = .error (.noString k) := if_pos h

/-- A table ends the call, and the strings begin anew. -/
theorem acceptArgs_some (h : st.strArgs k ≠ []) : ∃ v st',
    acceptArgs k (.table vs) st = .ok (v, st') ∧ st'.strArgs k = [] ∧ ∀ k', k' ≠ k → st'.strArgs k' = st.strArgs k' := by
  have hself : (st.setArgs k []).strArgs k = [] := setArgs_self k [] st
  have hother : ∀ k', k' ≠ k → (st.setArgs k []).strArgs k' = st.strArgs k' :=
    fun k' hk => setArgs_of_ne hk [] st
  simp only [acceptArgs, if_neg h]
  cases k with
  | listen | host | path => exact ⟨_, _, rfl, hself, hother⟩

end Calls

section Nested

/-- The kinds of the scopes that are open are those with strings that wait. -/
def Opens (opened : List Kind) (st : St) : Prop := ∀ k, k ∈ opened ↔ st.strArgs k ≠ []

/-- The strings of no kind but these have gone. -/
def Settled (st st' : St) : Prop := ∀ k, st'.strArgs k = st.strArgs k ∨ st'.strArgs k = []

theorem Settled.trans {st st' st'' : St} (h : Settled st st') (h' : Settled st' st'') :
    Settled st st'' := by
  intro k
  rcases h' k with hsame | hnone
  · rw [hsame]
    exact h k
  · exact .inr hnone

def addListens (vs : List Value) (st : St) : St := { st with listens := st.listens ++ vs }

theorem St.eq_of {st st' : St} (hlistens : st'.listens = st.listens)
    (hargs : ∀ k, st'.strArgs k = st.strArgs k) : st' = st := by
  cases st
  cases st'
  cases hlistens
  cases (funext hargs : _ = _)
  rfl

theorem acceptArgs_listen {vs : List (Option Bytes × Value)} {st : St}
    (h : st.strArgs .listen ≠ []) : acceptArgs .listen (.table vs) st =
      .ok (.nil, addListens [.table (setField Kind.listen.opt (strings (st.strArgs .listen)) vs)]
        (st.setArgs .listen [])) := if_neg h

theorem acceptArgs_value {k : Kind} {vs : List (Option Bytes × Value)} {st : St} (hk : k ≠ .listen)
    (h : st.strArgs k ≠ []) : acceptArgs k (.table vs) st =
      .ok (.table (setField k.opt (strings (st.strArgs k)) vs), st.setArgs k []) := by
  cases k with
  | listen => exact absurd rfl hk
  | host | path => exact if_neg h

mutual

theorem eval_render (c : Conf) {opened : List Kind} {st : St} (hopen : Opens opened st)
    (h : c.WellNested opened) :
    eval c.render st = .ok (c.denote, addListens c.listens st) := by
  cases c with
  | plain v =>
    show Except.ok (v, st) = .ok (v, addListens [] st)
    rw [addListens, List.append_nil]
  | table fields => exact eval_table_ok (evalFields_render fields hopen h)
  | scope k names fields =>
    obtain ⟨hnames, hk, hfields⟩ := h
    have hnone : st.strArgs k = [] := by
      by_contra hne
      exact hk ((hopen k).mpr hne)
    obtain ⟨st₁, hcallee, hlistens, hself, hother⟩ :=
      @eval_callee st st (.value (.accept k)) k rfl names
    rw [hnone, List.nil_append] at hself
    have hopen' : Opens (k :: opened) st₁ := by
      intro k'
      rw [List.mem_cons]
      by_cases heq : k' = k
      · rw [heq, hself]
        exact iff_of_true (.inl rfl) hnames
      · rw [hother k' heq, hopen k']
        exact or_iff_right heq
    have hcall := eval_call hcallee (eval_table_ok (evalFields_render fields hopen' hfields))
    obtain ⟨st₂, hst₂⟩ : ∃ st₂, st₂ = addListens (Conf.listensFields fields) st₁ := ⟨_, rfl⟩
    rw [← hst₂] at hcall
    have hargs : st₂.strArgs k = names := hst₂ ▸ hself
    have hne : st₂.strArgs k ≠ [] := by
      rw [hargs]
      exact hnames
    have hback (vs : List Value) : addListens vs (st₂.setArgs k []) =
        addListens (Conf.listensFields fields ++ vs) st := by
      apply St.eq_of
      · show st₂.listens ++ vs = st.listens ++ (_ ++ vs)
        rw [hst₂]
        show (st₁.listens ++ _) ++ vs = _
        rw [hlistens, List.append_assoc]
      · intro k'
        show (st₂.setArgs k []).strArgs k' = st.strArgs k'
        by_cases heq : k' = k
        · rw [heq, setArgs_self, hnone]
        · rw [setArgs_of_ne heq, hst₂]
          exact hother k' heq
    show eval (.call _ (.table _)) st = _
    rw [hcall]
    by_cases hlisten : k = .listen
    · subst hlisten
      rw [acceptArgs_listen hne, hback, hargs]
      rfl
    · have hsame := hback []
      rw [List.append_nil] at hsame
      have hstate : st₂.setArgs k [] = addListens (Conf.listensFields fields) st := by
        rw [← hsame, addListens, List.append_nil]
      rw [acceptArgs_value hlisten hne, hstate, hargs]
      cases k with
      | listen => exact absurd rfl hlisten
      | host | path => rfl

theorem evalFields_render (fields : List (Option Bytes × Conf)) {opened : List Kind} {st : St}
    (hopen : Opens opened st) (h : Conf.WellNestedFields opened fields) :
    evalFields (Conf.renderFields fields) st =
      .ok (Conf.denoteFields fields, addListens (Conf.listensFields fields) st) := by
  cases fields with
  | nil =>
    show Except.ok ([], st) = .ok ([], addListens [] st)
    rw [addListens, List.append_nil]
  | cons field fields =>
    obtain ⟨key, c⟩ := field
    have hhead := eval_render c hopen h.1
    have hopen' : Opens opened (addListens c.listens st) := hopen
    have htail := evalFields_render fields hopen' h.2
    have hboth := @evalFields_cons_ok _ _ _ _ _ _ key _ hhead htail
    show evalFields ((key, c.render) :: Conf.renderFields fields) st = _
    rw [hboth]
    show Except.ok (_, addListens _ (addListens _ st)) = Except.ok (_, addListens (_ ++ _) st)
    unfold addListens
    rw [List.append_assoc]
    rfl

end

/-- An error of `accept_args` for want of a string. -/
def NoString {α : Type} (r : Except Err α) : Prop := ∃ k, r = .error (.noString k)

theorem settled_call {k : Kind} {names : List Bytes} {fields : List (Option Bytes × Expr)} {st : St}
    (h : ∀ st₁, NoString (evalFields fields st₁) ∨
      ∃ vs st₂, evalFields fields st₁ = .ok (vs, st₂) ∧ Settled st₁ st₂) :
    NoString (eval (.call (callee (.value (.accept k)) names) (.table fields)) st) ∨
      ∃ v st', eval (.call (callee (.value (.accept k)) names) (.table fields)) st = .ok (v, st') ∧
        st'.strArgs k = [] ∧ Settled st st' := by
  obtain ⟨st₁, hcallee, -, -, hother⟩ := @eval_callee st st (.value (.accept k)) k rfl names
  rcases h st₁ with ⟨k', herror⟩ | ⟨vs, st₂, hvs, hsettled⟩
  · exact .inl ⟨k', eval_call_error hcallee (eval_table_error herror)⟩
  · have hcall := eval_call hcallee (eval_table_ok hvs)
    by_cases hnone : st₂.strArgs k = []
    · exact .inl ⟨k, hcall.trans (acceptArgs_none hnone)⟩
    · obtain ⟨v, st', haccept, hk, hrest⟩ := @acceptArgs_some st₂ k vs hnone
      refine .inr ⟨v, st', hcall.trans haccept, hk, fun k' => ?_⟩
      by_cases heq : k' = k
      · rw [heq]
        exact .inr hk
      · rw [hrest k' heq, ← hother k' heq]
        exact hsettled k'

mutual

theorem render_settles (c : Conf) (st : St) :
    NoString (eval c.render st) ∨ ∃ v st', eval c.render st = .ok (v, st') ∧ Settled st st' := by
  cases c with
  | plain v => exact .inr ⟨v, st, rfl, fun _ => .inl rfl⟩
  | table fields =>
    rcases renderFields_settles fields st with ⟨k, herror⟩ | ⟨vs, st', hvs, hsettled⟩
    · exact .inl ⟨k, eval_table_error herror⟩
    · exact .inr ⟨_, st', eval_table_ok hvs, hsettled⟩
  | scope k names fields =>
    have hcall := @settled_call k names _ st fun st₁ => renderFields_settles fields st₁
    exact hcall.imp_right fun ⟨v, st', heval, _, hsettled⟩ => ⟨v, st', heval, hsettled⟩

theorem renderFields_settles (fields : List (Option Bytes × Conf)) (st : St) :
    NoString (evalFields (Conf.renderFields fields) st) ∨
      ∃ vs st', evalFields (Conf.renderFields fields) st = .ok (vs, st') ∧ Settled st st' := by
  cases fields with
  | nil => exact .inr ⟨[], st, rfl, fun _ => .inl rfl⟩
  | cons field fields =>
    obtain ⟨key, c⟩ := field
    rcases render_settles c st with ⟨k, herror⟩ | ⟨v, st₁, hv, hsettled⟩
    · exact .inl ⟨k, evalFields_cons_error herror⟩
    · rcases renderFields_settles fields st₁ with ⟨k, herror⟩ | ⟨vs, st', hvs, hsettled'⟩
      · exact .inl ⟨k, evalFields_cons_tail_error hv herror⟩
      · exact .inr ⟨_, st', evalFields_cons_ok hv hvs, hsettled.trans hsettled'⟩

end

/-- The strings of a scope that is open are gone. -/
def Lost (opened : List Kind) (st : St) : Prop := ∃ k ∈ opened, st.strArgs k = []

theorem Lost.settled {opened : List Kind} {st st' : St} (h : Lost opened st) (hs : Settled st st') :
    Lost opened st' := by
  obtain ⟨k, hk, hnone⟩ := h
  refine ⟨k, hk, ?_⟩
  rcases hs k with hsame | hgone
  · rw [hsame, hnone]
  · exact hgone

mutual

theorem render_lost (c : Conf) {opened : List Kind} {st : St} (hopen : Opens opened st)
    (h : ¬c.WellNested opened) :
    NoString (eval c.render st) ∨ ∃ v st', eval c.render st = .ok (v, st') ∧ Lost opened st' := by
  cases c with
  | plain v => exact absurd trivial h
  | table fields =>
    rcases renderFields_lost fields hopen h with ⟨k, herror⟩ | ⟨vs, st', hvs, hlost⟩
    · exact .inl ⟨k, eval_table_error herror⟩
    · exact .inr ⟨_, st', eval_table_ok hvs, hlost⟩
  | scope k names fields =>
    by_cases hk : k ∈ opened
    · have hcall := @settled_call k names _ st fun st₁ => renderFields_settles fields st₁
      exact hcall.imp_right fun ⟨v, st', heval, hnone, _⟩ => ⟨v, st', heval, k, hk, hnone⟩
    · have hnone : st.strArgs k = [] := by
        by_contra hne
        exact hk ((hopen k).mpr hne)
      obtain ⟨st₁, hcallee, -, hself, hother⟩ :=
        @eval_callee st st (.value (.accept k)) k rfl names
      rw [hnone, List.nil_append] at hself
      by_cases hnames : names = []
      · -- without a name of its own a scope has no string to take
        rcases renderFields_settles fields st₁ with ⟨k', herror⟩ | ⟨vs, st₂, hvs, hsettled⟩
        · exact .inl ⟨k', eval_call_error hcallee (eval_table_error herror)⟩
        · have hgone : st₂.strArgs k = [] := by
            rcases hsettled k with hsame | hgone
            · rw [hsame, hself, hnames]
            · exact hgone
          exact .inl ⟨k, (eval_call hcallee (eval_table_ok hvs)).trans (acceptArgs_none hgone)⟩
      · have hopen' : Opens (k :: opened) st₁ := by
          intro k'
          rw [List.mem_cons]
          by_cases heq : k' = k
          · rw [heq, hself]
            exact iff_of_true (.inl rfl) hnames
          · rw [hother k' heq, hopen k']
            exact or_iff_right heq
        have hfields : ¬Conf.WellNestedFields (k :: opened) fields := fun hf => h ⟨hnames, hk, hf⟩
        rcases renderFields_lost fields hopen' hfields with ⟨k', herror⟩ | ⟨vs, st₂, hvs, hlost⟩
        · exact .inl ⟨k', eval_call_error hcallee (eval_table_error herror)⟩
        · have hcall := eval_call hcallee (eval_table_ok hvs)
          by_cases hgone : st₂.strArgs k = []
          · exact .inl ⟨k, hcall.trans (acceptArgs_none hgone)⟩
          · obtain ⟨v, st', haccept, -, hrest⟩ := @acceptArgs_some st₂ k vs hgone
            obtain ⟨k', hk', hnone'⟩ := hlost
            have hne : k' ≠ k := by
              intro heq
              rw [heq] at hnone'
              exact hgone hnone'
            have hmem : k' ∈ opened := (List.mem_cons.mp hk').resolve_left hne
            exact .inr ⟨v, st', hcall.trans haccept, k', hmem, (hrest k' hne).trans hnone'⟩

theorem renderFields_lost (fields : List (Option Bytes × Conf)) {opened : List Kind} {st : St}
    (hopen : Opens opened st) (h : ¬Conf.WellNestedFields opened fields) :
    NoString (evalFields (Conf.renderFields fields) st) ∨
      ∃ vs st', evalFields (Conf.renderFields fields) st = .ok (vs, st') ∧ Lost opened st' := by
  cases fields with
  | nil => exact absurd trivial h
  | cons field fields =>
    obtain ⟨key, c⟩ := field
    by_cases hhead : c.WellNested opened
    · have htail : ¬Conf.WellNestedFields opened fields := fun hf => h ⟨hhead, hf⟩
      have hv := eval_render c hopen hhead
      have hopen' : Opens opened (addListens c.listens st) := hopen
      rcases renderFields_lost fields hopen' htail with ⟨k, herror⟩ | ⟨vs, st', hvs, hlost⟩
      · exact .inl ⟨k, evalFields_cons_tail_error hv herror⟩
      · exact .inr ⟨_, st', evalFields_cons_ok hv hvs, hlost⟩
    · rcases render_lost c hopen hhead with ⟨k, herror⟩ | ⟨v, st₁, hv, hlost⟩
      · exact .inl ⟨k, evalFields_cons_error herror⟩
      · rcases renderFields_settles fields st₁ with ⟨k, herror⟩ | ⟨vs, st', hvs, hsettled⟩
        · exact .inl ⟨k, evalFields_cons_tail_error hv herror⟩
        · exact .inr ⟨_, st', evalFields_cons_ok hv hvs, hlost.settled hsettled⟩

end

theorem opens_nil {st : St} : Opens [] st ↔ ∀ k, st.strArgs k = [] := by
  constructor
  · intro h k
    by_contra hne
    exact List.not_mem_nil ((h k).mpr hne)
  · intro h k
    exact iff_of_false List.not_mem_nil (not_not.mpr (h k))

theorem foldlM_render (file : List Conf) {st : St} (hst : ∀ k, st.strArgs k = []) :
    ((∀ c ∈ file, c.WellNested []) →
      (file.map Conf.render).foldlM (fun st e => (eval e st).map Prod.snd) st =
        .ok (addListens (file.flatMap Conf.listens) st)) ∧
    ((∃ c ∈ file, ¬c.WellNested []) →
      NoString ((file.map Conf.render).foldlM (fun st e => (eval e st).map Prod.snd) st)) := by
  induction file generalizing st with
  | nil =>
    refine ⟨fun _ => ?_, fun h => ?_⟩
    · show Except.ok st = .ok (addListens [] st)
      rw [addListens, List.append_nil]
    · obtain ⟨c, hc, -⟩ := h
      cases hc
  | cons c file ih =>
    rw [List.map_cons, List.foldlM_cons, List.flatMap_cons]
    by_cases hc : c.WellNested []
    · have heval := eval_render c (opens_nil.mpr hst) hc
      obtain ⟨hok, herror⟩ := @ih (addListens c.listens st) hst
      rw [heval]
      show (_ → List.foldlM _ (addListens c.listens st) _ = _) ∧
        (_ → NoString (List.foldlM _ (addListens c.listens st) _))
      refine ⟨fun h => ?_, fun h => herror ?_⟩
      · rw [hok fun c' hc' => h c' (List.mem_cons_of_mem _ hc'), addListens, addListens, addListens]
        show Except.ok (St.mk st.strArgs ((st.listens ++ _) ++ _)) = _
        rw [List.append_assoc]
      · obtain ⟨c', hmem, hnot⟩ := h
        rcases List.mem_cons.mp hmem with rfl | htail
        · exact absurd hc hnot
        · exact ⟨c', htail, hnot⟩
    · refine ⟨fun h => absurd (h c List.mem_cons_self) hc, fun _ => ?_⟩
      rcases render_lost c (opens_nil.mpr hst) hc with ⟨k, heval⟩ | ⟨v, st', -, k, hk, -⟩
      · exact ⟨k, by rw [heval]; rfl⟩
      · cases hk

/-- A file of calls leaves the Listens that its author wrote, each scope with its own names; or it
is refused, where a scope has no name or is inside of another one of its kind. -/
theorem run_render (file : List Conf) :
    ((∀ c ∈ file, c.WellNested []) → run (file.map Conf.render) = .ok (file.flatMap Conf.listens)) ∧
      ((∃ c ∈ file, ¬c.WellNested []) → NoString (run (file.map Conf.render))) := by
  obtain ⟨hok, herror⟩ := @foldlM_render file .init fun _ => rfl
  refine ⟨fun h => ?_, fun h => ?_⟩
  · unfold run
    rw [hok h]
    rfl
  · obtain ⟨k, hk⟩ := herror h
    refine ⟨k, ?_⟩
    unfold run
    rw [hk]
    rfl

end Nested

end ConfScript
end Phorklift
