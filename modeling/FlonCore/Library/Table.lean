import Mathlib.Algebra.BigOperators.Group.List.Basic
import Mathlib.Tactic.Linarith
import FlonCore.Library.Assoc

/-!
# Tables with increasing ids and a unique key

A table of an object database. A row gets the next id when it is created and keeps it;
ids are never used again. Besides, no two rows have the same key. Modifying a row keeps
its key, and creating a row fails if its key is taken.
-/

namespace FlonCore.Library
open List
variable {α κ : Type}

structure Table (key : α → κ) where
  rows : List (ℕ × α)
  nextId : ℕ
  ascending : rows.Pairwise fun r s => r.1 < s.1
  below : ∀ r ∈ rows, r.1 < nextId
  unique : (rows.map fun r => key r.2).Nodup

namespace Table
variable {key : α → κ}

def empty (key : α → κ) : Table key := ⟨[], 0, .nil, by simp, .nil⟩

def keys (t : Table key) : List κ := t.rows.map fun r => key r.2

variable (t : Table key)

def get (id : ℕ) : Option α := Library.find t.rows id

def find [DecidableEq κ] (t : Table key) (k : κ) : Option (ℕ × α) :=
  t.rows.find? fun r => key r.2 = k

def create [DecidableEq κ] (t : Table key) (a : α) : Option (Table key) :=
  if h : key a ∈ t.keys then none
  else some
    { rows := t.rows ++ [(t.nextId, a)]
      nextId := t.nextId + 1
      ascending := by
        refine pairwise_append.mpr ⟨t.ascending, pairwise_singleton _ _, ?_⟩
        intro r hr s hs
        obtain rfl := mem_singleton.mp hs
        exact t.below r hr
      below := forall_mem_append.mpr
        ⟨fun r hr => (t.below r hr).trans (Nat.lt_succ_self _),
          forall_mem_singleton.mpr (Nat.lt_succ_self _)⟩
      unique := by
        rw [map_append]
        refine t.unique.append (nodup_singleton _) ?_
        intro k hk hk'
        obtain rfl := mem_singleton.mp hk'
        exact h hk }

def modifyRow (id : ℕ) (f : α → α) (r : ℕ × α) : ℕ × α := if r.1 = id then (r.1, f r.2) else r

theorem fst_modifyRow (id : ℕ) (f : α → α) (r : ℕ × α) : (modifyRow id f r).1 = r.1 := by
  unfold modifyRow
  split_ifs <;> rfl

theorem apply_modifyRow {β : Type*} {w : α → β} {f : α → α} (hf : ∀ a, w (f a) = w a) (id : ℕ)
    (r : ℕ × α) : w (modifyRow id f r).2 = w r.2 := by
  unfold modifyRow
  split_ifs
  · exact hf r.2
  · rfl

def modify (id : ℕ) (f : α → α) (hf : ∀ a, key (f a) = key a) : Table key where
  rows := t.rows.map (modifyRow id f)
  nextId := t.nextId
  ascending := by
    refine pairwise_map.mpr (t.ascending.imp fun {r s} hrs => ?_)
    rw [fst_modifyRow, fst_modifyRow]
    exact hrs
  below := by
    intro r hr
    obtain ⟨s, hs, rfl⟩ := mem_map.mp hr
    rw [fst_modifyRow]
    exact t.below s hs
  unique := by
    rw [map_map]
    convert t.unique using 2
    funext r
    exact apply_modifyRow hf id r

def remove (id : ℕ) : Table key where
  rows := t.rows.filter fun r => r.1 ≠ id
  nextId := t.nextId
  ascending := t.ascending.filter _
  below := fun r hr => t.below r (mem_of_mem_filter hr)
  unique := t.unique.sublist (filter_sublist.map _)

def total (w : α → ℤ) : ℤ := (t.rows.map fun r => w r.2).sum

section Lookup
variable {t t' : Table key} {id j : ℕ} {a b : α} {f : α → α} {hf : ∀ a, key (f a) = key a}
  {r : ℕ × α}

theorem ids_nodup (t : Table key) : (keysOf t.rows).Nodup :=
  pairwise_map.mpr (t.ascending.imp fun h => h.ne)

theorem get_eq_some : t.get id = some a ↔ (id, a) ∈ t.rows := Library.find_eq_some t.ids_nodup

theorem eq_of_id (ha : (id, a) ∈ t.rows) (hb : (id, b) ∈ t.rows) : a = b :=
  eq_of_mem t.ids_nodup ha hb

theorem eq_of_key (ha : (id, a) ∈ t.rows) (hb : (j, b) ∈ t.rows) (h : key a = key b) :
    id = j ∧ a = b := by
  have heq := inj_on_of_nodup_map t.unique ha hb h
  exact ⟨congrArg Prod.fst heq, congrArg Prod.snd heq⟩

theorem mem_key_iff {k : κ} (ha : (id, a) ∈ t.rows) (hk : key a = k) (r : ℕ × α) :
    r ∈ t.rows ∧ key r.2 = k ↔ r = (id, a) := by
  constructor
  · rintro ⟨hr, hkey⟩
    obtain ⟨hid, heq⟩ := eq_of_key hr ha (hkey.trans hk.symm)
    exact Prod.ext hid heq
  · rintro rfl
    exact ⟨ha, hk⟩

theorem mem_before {done rest : List (ℕ × α)} (hrows : t.rows = done ++ (id, a) :: rest)
    (hb : (j, b) ∈ t.rows) (hlt : j < id) : (j, b) ∈ done := by
  have hascending := t.ascending
  rw [hrows] at hascending hb
  refine (mem_append.mp hb).resolve_right fun hmem => ?_
  obtain ⟨-, htail, -⟩ := pairwise_append.mp hascending
  rcases mem_cons.mp hmem with heq | hmem
  · exact hlt.ne (congrArg Prod.fst heq)
  · exact hlt.asymm ((pairwise_cons.mp htail).1 _ hmem)

theorem mem_keys {k : κ} : k ∈ t.keys ↔ ∃ id a, (id, a) ∈ t.rows ∧ key a = k := by
  simp [keys]

theorem rows_modify : (t.modify id f hf).rows = t.rows.map (modifyRow id f) := rfl

theorem rows_remove : (t.remove id).rows = t.rows.filter fun r => r.1 ≠ id := rfl

theorem mem_remove : r ∈ (t.remove id).rows ↔ r ∈ t.rows ∧ r.1 ≠ id := by
  simp [remove]

theorem mem_modify : (j, b) ∈ (t.modify id f hf).rows ↔
    (j ≠ id ∧ (j, b) ∈ t.rows) ∨ (j = id ∧ ∃ a, (id, a) ∈ t.rows ∧ b = f a) := by
  change (j, b) ∈ t.rows.map (modifyRow id f) ↔ _
  rw [mem_map]
  constructor
  · rintro ⟨⟨i, a⟩, ha, heq⟩
    unfold modifyRow at heq
    split_ifs at heq with hi
    · cases heq
      exact .inr ⟨hi, a, hi ▸ ha, rfl⟩
    · cases heq
      exact .inl ⟨hi, ha⟩
  · rintro (⟨hj, hb⟩ | ⟨rfl, a, ha, rfl⟩)
    · exact ⟨(j, b), hb, if_neg hj⟩
    · exact ⟨(j, a), ha, if_pos rfl⟩

theorem exists_mem_modify : (∃ b, (j, b) ∈ (t.modify id f hf).rows) ↔ ∃ a, (j, a) ∈ t.rows := by
  constructor
  · rintro ⟨b, hb⟩
    rcases mem_modify.mp hb with ⟨-, hb⟩ | ⟨rfl, a, ha, -⟩
    · exact ⟨b, hb⟩
    · exact ⟨a, ha⟩
  · rintro ⟨a, ha⟩
    by_cases hj : j = id
    · exact ⟨f a, mem_modify.mpr (.inr ⟨hj, a, hj ▸ ha, rfl⟩)⟩
    · exact ⟨a, mem_modify.mpr (.inl ⟨hj, ha⟩)⟩

variable [DecidableEq κ] {k : κ}

theorem find_eq_some : t.find k = some r ↔ r ∈ t.rows ∧ key r.2 = k := by
  constructor
  · intro h
    exact ⟨mem_of_find?_eq_some h, by simpa using find?_some h⟩
  · rintro ⟨hr, rfl⟩
    have hsome : (t.rows.find? fun s => key s.2 = key r.2).isSome := by
      rw [find?_isSome]
      exact ⟨r, hr, by simp⟩
    obtain ⟨s, hs⟩ := Option.isSome_iff_exists.mp hsome
    have hkey : key s.2 = key r.2 := by simpa using find?_some hs
    rw [find, hs, inj_on_of_nodup_map t.unique (mem_of_find?_eq_some hs) hr hkey]

theorem find_eq_none : t.find k = none ↔ k ∉ t.keys := by
  simp [find, keys]

structure Created (t : Table key) (a : α) (t' : Table key) : Prop where
  fresh : key a ∉ t.keys
  rows : t'.rows = t.rows ++ [(t.nextId, a)]
  nextId : t'.nextId = t.nextId + 1

theorem create_eq_some (h : t.create a = some t') : t.Created a t' := by
  unfold create at h
  split_ifs at h with hfresh
  cases h
  exact ⟨hfresh, rfl, rfl⟩

theorem exists_create (h : key a ∉ t.keys) : ∃ t', t.create a = some t' := by
  unfold create
  rw [dif_neg h]
  exact ⟨_, rfl⟩

theorem find_congr (h : ∀ r, key r.2 = k → (r ∈ t'.rows ↔ r ∈ t.rows)) : t'.find k = t.find k := by
  refine Option.ext fun r => ?_
  rw [find_eq_some, find_eq_some]
  exact and_congr_left (h r)

omit [DecidableEq κ] in
theorem Created.mem (h : t.Created a t') : r ∈ t'.rows ↔ r ∈ t.rows ∨ r = (t.nextId, a) := by
  simp [h.rows]

omit [DecidableEq κ] in
theorem Created.keys (h : t.Created a t') : t'.keys = t.keys ++ [key a] := by
  simp [Table.keys, h.rows]

theorem Created.find_of_ne (h : t.Created a t') (hk : key a ≠ k) : t'.find k = t.find k := by
  refine find_congr fun r hr => ?_
  rw [h.mem]
  refine or_iff_left ?_
  rintro rfl
  exact hk hr

theorem find_modify_of_ne (ha : (id, a) ∈ t.rows) (hk : key a ≠ k) :
    (t.modify id f hf).find k = t.find k := by
  refine find_congr fun r hr => ?_
  obtain ⟨j, b⟩ := r
  rw [mem_modify]
  constructor
  · rintro (⟨-, hb⟩ | ⟨rfl, c, hc, rfl⟩)
    · exact hb
    · rw [hf, eq_of_id hc ha] at hr
      exact absurd hr hk
  · intro hb
    refine .inl ⟨?_, hb⟩
    rintro rfl
    rw [eq_of_id hb ha] at hr
    exact hk hr

theorem find_remove_of_ne (ha : (id, a) ∈ t.rows) (hk : key a ≠ k) :
    (t.remove id).find k = t.find k := by
  refine find_congr fun r hr => ?_
  obtain ⟨j, b⟩ := r
  rw [mem_remove]
  refine and_iff_left_of_imp fun hb => ?_
  rintro rfl
  rw [eq_of_id hb ha] at hr
  exact hk hr

omit [DecidableEq κ] in
@[simp] theorem keys_modify : (t.modify id f hf).keys = t.keys := by
  unfold Table.keys modify
  rw [map_map]
  congr 1
  funext r
  exact apply_modifyRow hf id r

omit [DecidableEq κ] in
theorem mem_keys_remove (ha : (id, a) ∈ t.rows) (hk : k ∈ t.keys) (hne : k ≠ key a) :
    k ∈ (t.remove id).keys := by
  obtain ⟨j, b, hb, rfl⟩ := mem_keys.mp hk
  refine mem_keys.mpr ⟨j, b, mem_remove.mpr ⟨hb, ?_⟩, rfl⟩
  rintro rfl
  exact hne (congrArg key (eq_of_id hb ha))

end Lookup

section Totals
variable {t t' : Table key} {id : ℕ} {a : α} {f : α → α} {hf : ∀ a, key (f a) = key a}
  (w : α → ℤ)

theorem Created.total (h : t.Created a t') : t'.total w = t.total w + w a := by
  simp [Table.total, h.rows]

theorem ne_of_mem_rest {r s : ℕ × α} {rest : List (ℕ × α)} (hids : (keysOf (r :: rest)).Nodup)
    (hs : s ∈ rest) : s.1 ≠ r.1 := by
  intro heq
  refine (nodup_cons.mp hids).1 ?_
  rw [← heq]
  exact mem_map_of_mem hs

theorem sum_remove {rows : List (ℕ × α)} (hids : (keysOf rows).Nodup) (ha : (id, a) ∈ rows) :
    ((rows.filter fun r => r.1 ≠ id).map fun r => w r.2).sum =
      (rows.map fun r => w r.2).sum - w a := by
  induction rows with
  | nil => simp at ha
  | cons r rest ih =>
    rcases mem_cons.mp ha with rfl | ha
    · have hkeep : rest.filter (fun s => s.1 ≠ id) = rest :=
        filter_eq_self.mpr fun s hs => by simpa using ne_of_mem_rest hids hs
      rw [filter_cons_of_neg (by simp), hkeep, map_cons, sum_cons]
      ring
    · have hne : r.1 ≠ id := (ne_of_mem_rest hids ha).symm
      rw [filter_cons_of_pos (by simpa using hne), map_cons, sum_cons,
        ih hids.of_cons ha, map_cons, sum_cons]
      ring

theorem total_remove (ha : (id, a) ∈ t.rows) : (t.remove id).total w = t.total w - w a :=
  sum_remove w t.ids_nodup ha

theorem sum_modify {rows : List (ℕ × α)} (hids : (keysOf rows).Nodup) (ha : (id, a) ∈ rows) :
    ((rows.map (modifyRow id f)).map fun r => w r.2).sum =
      (rows.map fun r => w r.2).sum - w a + w (f a) := by
  induction rows with
  | nil => simp at ha
  | cons r rest ih =>
    rcases mem_cons.mp ha with rfl | ha
    · have hkeep : rest.map (modifyRow id f) = rest :=
        (map_congr_left fun s hs => if_neg (ne_of_mem_rest hids hs)).trans (map_id rest)
      rw [map_cons, hkeep, map_cons, sum_cons, map_cons, sum_cons, modifyRow, if_pos rfl]
      ring
    · have hne : r.1 ≠ id := (ne_of_mem_rest hids ha).symm
      rw [map_cons, map_cons, sum_cons, ih hids.of_cons ha, map_cons,
        sum_cons, modifyRow, if_neg hne]
      ring

theorem total_modify (ha : (id, a) ∈ t.rows) :
    (t.modify id f hf).total w = t.total w - w a + w (f a) :=
  sum_modify w t.ids_nodup ha

theorem total_eq_zero (h : ∀ r ∈ t.rows, w r.2 = 0) : t.total w = 0 := by
  refine sum_eq_zero fun x hx => ?_
  obtain ⟨r, hr, rfl⟩ := mem_map.mp hx
  exact h r hr

theorem total_of_key [DecidableEq κ] (ha : (id, a) ∈ t.rows) :
    t.total (fun b => if key b = key a then w b else 0) = w a := by
  have hremove := total_remove (fun b => if key b = key a then w b else 0) ha
  rw [total_eq_zero, if_pos rfl] at hremove
  · linarith
  · intro r hr
    obtain ⟨hr, hne⟩ := mem_remove.mp hr
    exact if_neg fun heq => hne (eq_of_key hr ha heq).1

variable {w} in
theorem total_modify_same (h : ∀ a, w (f a) = w a) : (t.modify id f hf).total w = t.total w := by
  unfold total
  rw [rows_modify, map_map]
  congr 1
  exact map_congr_left fun r _ => apply_modifyRow h id r

theorem total_indicator (p : α → Prop) [DecidablePred p] :
    t.total (fun a => if p a then 1 else 0) = ((t.rows.filter fun r => p r.2).length : ℤ) := by
  unfold total
  induction t.rows with
  | nil => rfl
  | cons r rest ih =>
    rw [map_cons, sum_cons, ih, filter_cons]
    by_cases hp : p r.2
    · simp [hp]
      ring
    · simp [hp]

end Totals
end Table
end FlonCore.Library
