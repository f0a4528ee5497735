import Mathlib.Data.List.Nodup
import Mathlib.Data.List.Range

/-! Objects that are shared by their key and counted by their holders: an object is made when nobody
holds one of its key, and freed by the last one who lets go of it. -/

namespace RefTable

structure Entry (κ β : Type*) where
  key : κ
  id : Nat
  refs : Nat
  val : β

/-- The objects in use, how many have been made, and those that were freed. -/
structure Table (κ β : Type*) where
  entries : List (Entry κ β)
  made : Nat
  freed : List Nat

variable {κ β : Type*}

namespace Table

def empty : Table κ β := ⟨[], 0, []⟩

def bump (id : Nat) (e : Entry κ β) : Entry κ β :=
  if e.id = id then { e with refs := e.refs + 1 } else e

def drop (id : Nat) (e : Entry κ β) : Entry κ β :=
  if e.id = id then { e with refs := e.refs - 1 } else e

/-- The object of a key, made with `v` where there is none. -/
def acquire [DecidableEq κ] (t : Table κ β) (k : κ) (v : β) : Nat × Table κ β :=
  match t.entries.find? (·.key = k) with
  | some e => (e.id, { t with entries := t.entries.map (bump e.id) })
  | none => (t.made, { t with entries := t.entries ++ [⟨k, t.made, 1, v⟩], made := t.made + 1 })

def release (t : Table κ β) (id : Nat) : Table κ β :=
  match t.entries.find? (·.id = id) with
  | none => t
  | some e =>
    if 1 < e.refs then { t with entries := t.entries.map (drop id) }
    else { t with entries := t.entries.filter (·.id ≠ id), freed := t.freed ++ [id] }

/-- The table of objects that these holders have, each as often as it stands here. -/
structure Held (holders : List Nat) (t : Table κ β) : Prop where
  keys : (t.entries.map Entry.key).Nodup
  ids : (t.entries.map Entry.id ++ t.freed).Perm (List.range t.made)
  refs : ∀ e ∈ t.entries, e.refs = holders.count e.id ∧ 0 < e.refs
  holders : ∀ id ∈ holders, id ∈ t.entries.map Entry.id

variable {holders : List Nat} {t : Table κ β} {id : Nat}

theorem held_empty : Held [] (empty : Table κ β) where
  keys := List.nodup_nil
  ids := List.Perm.refl _
  refs := nofun
  holders := nofun

theorem Held.nodup (h : Held holders t) : (t.entries.map Entry.id ++ t.freed).Nodup :=
  h.ids.nodup_iff.mpr List.nodup_range

theorem Held.nodup_ids (h : Held holders t) : (t.entries.map Entry.id).Nodup :=
  (List.nodup_append.mp h.nodup).1

/-- An object that is held has not been freed. -/
theorem Held.not_freed (h : Held holders t) (hid : id ∈ holders) : id ∉ t.freed := by
  intro hfreed
  have hdisjoint := (List.nodup_append.mp h.nodup).2.2
  exact hdisjoint id (h.holders id hid) id hfreed rfl

theorem Held.lt_made (h : Held holders t) {e : Entry κ β} (he : e ∈ t.entries) : e.id < t.made :=
  List.mem_range.mp (h.ids.mem_iff.mp (List.mem_append_left _ (List.mem_map_of_mem he)))

theorem Held.entry_unique (h : Held holders t) {e f : Entry κ β} (he : e ∈ t.entries)
    (hf : f ∈ t.entries) (hid : e.id = f.id) : e = f :=
  List.inj_on_of_nodup_map h.nodup_ids he hf hid

theorem map_key {f : Entry κ β → Entry κ β} (hf : ∀ e, (f e).key = e.key)
    (es : List (Entry κ β)) : (es.map f).map Entry.key = es.map Entry.key := by
  rw [List.map_map]
  exact List.map_congr_left fun e _ => hf e

theorem map_id {f : Entry κ β → Entry κ β} (hf : ∀ e, (f e).id = e.id)
    (es : List (Entry κ β)) : (es.map f).map Entry.id = es.map Entry.id := by
  rw [List.map_map]
  exact List.map_congr_left fun e _ => hf e

theorem bump_key (id : Nat) (e : Entry κ β) : (bump id e).key = e.key := by
  unfold bump
  split <;> rfl

theorem bump_id (id : Nat) (e : Entry κ β) : (bump id e).id = e.id := by
  unfold bump
  split <;> rfl

theorem bump_val (id : Nat) (e : Entry κ β) : (bump id e).val = e.val := by
  unfold bump
  split <;> rfl

theorem drop_key (id : Nat) (e : Entry κ β) : (drop id e).key = e.key := by
  unfold drop
  split <;> rfl

theorem drop_id (id : Nat) (e : Entry κ β) : (drop id e).id = e.id := by
  unfold drop
  split <;> rfl

theorem drop_val (id : Nat) (e : Entry κ β) : (drop id e).val = e.val := by
  unfold drop
  split <;> rfl

theorem Held.bumped (h : Held holders t) {e : Entry κ β} (he : e ∈ t.entries) :
    Held (e.id :: holders) { t with entries := t.entries.map (bump e.id) } where
  keys := by
    rw [map_key (bump_key e.id)]
    exact h.keys
  ids := by
    rw [map_id (bump_id e.id)]
    exact h.ids
  refs f hf := by
    obtain ⟨g, hg, rfl⟩ := List.mem_map.mp hf
    obtain ⟨hrefs, hpos⟩ := h.refs g hg
    rw [bump_id]
    unfold bump
    by_cases hid : g.id = e.id
    · rw [if_pos hid, hid, List.count_cons_self, ← hid, ← hrefs]
      exact ⟨rfl, Nat.succ_pos _⟩
    · rw [if_neg hid, List.count_cons_of_ne (Ne.symm hid)]
      exact ⟨hrefs, hpos⟩
  holders id hid := by
    rw [map_id (bump_id e.id)]
    rcases List.mem_cons.mp hid with rfl | hold
    · exact List.mem_map_of_mem he
    · exact h.holders id hold

theorem Held.fresh (h : Held holders t) {id : Nat} (hid : id ∈ holders) : id < t.made := by
  obtain ⟨e, he, rfl⟩ := List.mem_map.mp (h.holders id hid)
  exact h.lt_made he

theorem Held.added (h : Held holders t) {k : κ} (hk : k ∉ t.entries.map Entry.key) (v : β) :
    Held (t.made :: holders)
      { t with entries := t.entries ++ [⟨k, t.made, 1, v⟩], made := t.made + 1 } where
  keys := by
    rw [List.map_append]
    exact (List.perm_append_singleton _ _).nodup_iff.mpr (List.nodup_cons.mpr ⟨hk, h.keys⟩)
  ids := by
    rw [List.map_append, List.range_succ]
    have hmoved : (t.entries.map Entry.id ++ [t.made] ++ t.freed).Perm
        (t.entries.map Entry.id ++ t.freed ++ [t.made]) := by
      rw [List.append_assoc, List.append_assoc]
      exact List.Perm.append_left _ List.perm_append_comm
    exact hmoved.trans (List.Perm.append_right _ h.ids)
  refs e he := by
    rcases List.mem_append.mp he with hold | hnew
    · obtain ⟨hrefs, hpos⟩ := h.refs e hold
      have hne : t.made ≠ e.id := by
        have hlt := h.lt_made hold
        omega
      rw [List.count_cons_of_ne hne]
      exact ⟨hrefs, hpos⟩
    · obtain rfl := List.mem_singleton.mp hnew
      have hnone : holders.count t.made = 0 :=
        List.count_eq_zero.mpr fun hmem => absurd (h.fresh hmem) (Nat.lt_irrefl _)
      rw [List.count_cons_self, hnone]
      exact ⟨rfl, Nat.one_pos⟩
  holders id hid := by
    rw [List.map_append, List.mem_append]
    rcases List.mem_cons.mp hid with rfl | hold
    · exact .inr (List.mem_singleton.mpr rfl)
    · exact .inl (h.holders id hold)

section Acquire

variable [DecidableEq κ]

theorem acquire_found {k : κ} {v : β} {e : Entry κ β} (h : t.entries.find? (·.key = k) = some e) :
    t.acquire k v = (e.id, { t with entries := t.entries.map (bump e.id) }) := by
  unfold acquire
  rw [h]

theorem acquire_new {k : κ} {v : β} (h : t.entries.find? (·.key = k) = none) :
    t.acquire k v =
      (t.made, { t with entries := t.entries ++ [⟨k, t.made, 1, v⟩], made := t.made + 1 }) := by
  unfold acquire
  rw [h]

/-- Who acquires an object holds it. -/
theorem Held.acquire (h : Held holders t) (k : κ) (v : β) :
    Held ((t.acquire k v).1 :: holders) (t.acquire k v).2 := by
  cases hfind : t.entries.find? (·.key = k) with
  | some e =>
    rw [acquire_found hfind]
    exact h.bumped (List.mem_of_find?_eq_some hfind)
  | none =>
    rw [acquire_new hfind]
    refine h.added ?_ v
    intro hmem
    obtain ⟨e, he, hkey⟩ := List.mem_map.mp hmem
    exact List.find?_eq_none.mp hfind e he (decide_eq_true hkey)

/-- The object that is acquired has the key; the others are as they were. -/
theorem mem_acquire {k : κ} {v : β} {e : Entry κ β} (he : e ∈ (t.acquire k v).2.entries) :
    (∃ f ∈ t.entries, f.id = e.id ∧ f.key = e.key ∧ f.val = e.val) ∨
      e.key = k ∧ e.id = t.made ∧ e.val = v := by
  cases hfind : t.entries.find? (·.key = k) with
  | some g =>
    rw [acquire_found hfind] at he
    obtain ⟨f, hf, rfl⟩ := List.mem_map.mp he
    exact .inl ⟨f, hf, (bump_id _ f).symm, (bump_key _ f).symm, (bump_val _ f).symm⟩
  | none =>
    rw [acquire_new hfind] at he
    rcases List.mem_append.mp he with hold | hnew
    · exact .inl ⟨e, hold, rfl, rfl, rfl⟩
    · obtain rfl := List.mem_singleton.mp hnew
      exact .inr ⟨rfl, rfl, rfl⟩

theorem acquire_made_le (t : Table κ β) (k : κ) (v : β) :
    t.made ≤ (t.acquire k v).2.made ∧ (t.acquire k v).2.freed = t.freed := by
  cases hfind : t.entries.find? (·.key = k) with
  | some g =>
    rw [acquire_found hfind]
    exact ⟨Nat.le_refl _, rfl⟩
  | none =>
    rw [acquire_new hfind]
    exact ⟨Nat.le_succ _, rfl⟩

end Acquire

/-- The objects in use are those that are held. -/
theorem Held.mem_ids (h : Held holders t) : id ∈ t.entries.map Entry.id ↔ id ∈ holders := by
  constructor
  · intro hmem
    obtain ⟨e, he, rfl⟩ := List.mem_map.mp hmem
    obtain ⟨hrefs, hpos⟩ := h.refs e he
    exact List.count_pos_iff.mp (by omega)
  · exact h.holders id

/-- The freed ones are those that were made and that nobody holds. -/
theorem Held.mem_freed (h : Held holders t) : id ∈ t.freed ↔ id < t.made ∧ id ∉ holders := by
  constructor
  · intro hfreed
    have hmade := h.ids.mem_iff.mp (List.mem_append_right _ hfreed)
    exact ⟨List.mem_range.mp hmade, fun hid => h.not_freed hid hfreed⟩
  · rintro ⟨hmade, hid⟩
    rcases List.mem_append.mp (h.ids.mem_iff.mpr (List.mem_range.mpr hmade)) with hin | hfreed
    · exact absurd (h.mem_ids.mp hin) hid
    · exact hfreed

theorem Held.perm {others : List Nat} (h : Held holders t) (hperm : holders.Perm others) :
    Held others t where
  keys := h.keys
  ids := h.ids
  refs e he := by
    rw [← hperm.count_eq]
    exact h.refs e he
  holders id hid := h.holders id (hperm.mem_iff.mpr hid)

theorem Held.exists_entry (h : Held holders t) (hid : id ∈ holders) :
    ∃ e, t.entries.find? (·.id = id) = some e ∧ e ∈ t.entries ∧ e.id = id ∧
      e.refs = holders.count id := by
  obtain ⟨e, he, rfl⟩ := List.mem_map.mp (h.holders id hid)
  cases hfind : t.entries.find? (·.id = e.id) with
  | none => exact absurd (decide_eq_true rfl) (List.find?_eq_none.mp hfind e he)
  | some f =>
    have hf := List.mem_of_find?_eq_some hfind
    have hfound := List.find?_some hfind
    have hsame : f.id = e.id := of_decide_eq_true hfound
    refine ⟨f, rfl, hf, hsame, ?_⟩
    rw [← hsame]
    exact (h.refs f hf).1

/-- Who lets go of an object holds it once less. -/
theorem Held.release (h : Held holders t) (hid : id ∈ holders) :
    Held (holders.erase id) (t.release id) := by
  obtain ⟨e, hfind, he, rfl, hrefs⟩ := h.exists_entry hid
  have hpos := (h.refs e he).2
  unfold Table.release
  rw [hfind]
  dsimp only
  by_cases hmore : 1 < e.refs
  · rw [if_pos hmore]
    refine ⟨?_, ?_, ?_, ?_⟩
    · rw [map_key (drop_key e.id)]
      exact h.keys
    · rw [map_id (drop_id e.id)]
      exact h.ids
    · intro f hf
      obtain ⟨g, hg, rfl⟩ := List.mem_map.mp hf
      obtain ⟨hg_refs, hg_pos⟩ := h.refs g hg
      rw [drop_id]
      unfold drop
      by_cases hsame : g.id = e.id
      · have heq := h.entry_unique hg he hsame
        subst heq
        rw [if_pos rfl, List.count_erase_self]
        dsimp only
        omega
      · rw [if_neg hsame, List.count_erase_of_ne (by simpa using hsame)]
        exact ⟨hg_refs, hg_pos⟩
    · intro other hother
      rw [map_id (drop_id e.id)]
      exact h.holders other (List.mem_of_mem_erase hother)
  · rw [if_neg hmore]
    have hlast : holders.count e.id = 1 := by omega
    have hnone : e.id ∉ holders.erase e.id := by
      rw [← List.count_eq_zero, List.count_erase_self]
      omega
    have hids : (t.entries.filter (·.id ≠ e.id)).map Entry.id =
        (t.entries.map Entry.id).filter (· ≠ e.id) := by
      rw [List.filter_map]
      rfl
    refine ⟨?_, ?_, ?_, ?_⟩
    · exact h.keys.sublist (List.Sublist.map _ List.filter_sublist)
    · rw [hids]
      have hmoved := (List.perm_cons_erase (List.mem_map_of_mem he) :
        (t.entries.map Entry.id).Perm (e.id :: (t.entries.map Entry.id).erase e.id))
      rw [h.nodup_ids.erase_eq_filter] at hmoved
      have hfilter : (t.entries.map Entry.id).filter (· != e.id) =
          (t.entries.map Entry.id).filter (· ≠ e.id) := by
        apply List.filter_congr
        intro n hn
        by_cases hsame : n = e.id
        · simp [hsame]
        · simp [hsame]
      rw [hfilter] at hmoved
      have hall := (List.Perm.append_right t.freed hmoved).symm.trans h.ids
      refine List.Perm.trans ?_ hall
      have hswap : ((t.entries.map Entry.id).filter (· ≠ e.id) ++ (t.freed ++ [e.id])).Perm
          (e.id :: ((t.entries.map Entry.id).filter (· ≠ e.id) ++ t.freed)) := by
        rw [← List.append_assoc]
        exact List.perm_append_singleton _ _
      exact hswap
    · intro f hf
      obtain ⟨hf, hne⟩ := List.mem_filter.mp hf
      obtain ⟨hf_refs, hf_pos⟩ := h.refs f hf
      have hne : f.id ≠ e.id := of_decide_eq_true hne
      rw [List.count_erase_of_ne (by simpa using hne)]
      exact ⟨hf_refs, hf_pos⟩
    · intro other hother
      have hne : other ≠ e.id := fun heq => hnone (heq ▸ hother)
      rw [hids]
      exact List.mem_filter.mpr
        ⟨h.holders other (List.mem_of_mem_erase hother), decide_eq_true hne⟩

def releaseAll (t : Table κ β) (ids : List Nat) : Table κ β := ids.foldl Table.release t

theorem Held.releaseAll {ids rest : List Nat} (h : Held (ids ++ rest) t) :
    Held rest (t.releaseAll ids) := by
  induction ids generalizing t with
  | nil => exact h
  | cons id ids ih =>
    have hone := h.release (List.mem_append_left rest List.mem_cons_self)
    rw [List.cons_append, List.erase_cons_head] at hone
    exact ih hone

/-- Letting go of an object changes neither its key nor what it was made with. -/
theorem mem_release {e : Entry κ β} (he : e ∈ (t.release id).entries) :
    ∃ f ∈ t.entries, f.id = e.id ∧ f.key = e.key ∧ f.val = e.val := by
  unfold release at he
  cases hfind : t.entries.find? (·.id = id) with
  | none =>
    rw [hfind] at he
    exact ⟨e, he, rfl, rfl, rfl⟩
  | some g =>
    rw [hfind] at he
    dsimp only at he
    split at he
    next =>
      obtain ⟨f, hf, rfl⟩ := List.mem_map.mp he
      exact ⟨f, hf, (drop_id id f).symm, (drop_key id f).symm, (drop_val id f).symm⟩
    next => exact ⟨e, (List.mem_filter.mp he).1, rfl, rfl, rfl⟩

theorem mem_releaseAll {ids : List Nat} {e : Entry κ β} (he : e ∈ (t.releaseAll ids).entries) :
    ∃ f ∈ t.entries, f.id = e.id ∧ f.key = e.key ∧ f.val = e.val := by
  induction ids generalizing t with
  | nil => exact ⟨e, he, rfl, rfl, rfl⟩
  | cons id ids ih =>
    obtain ⟨f, hf, hid, hkey, hval⟩ := ih he
    obtain ⟨g, hg, hgid, hgkey, hgval⟩ := mem_release hf
    exact ⟨g, hg, hgid.trans hid, hgkey.trans hkey, hgval.trans hval⟩

end Table

end RefTable
