import Mathlib.Data.List.Nodup
import Mathlib.Tactic

/-!
# Finite maps as association lists

The operations of an ordered map that programs use most: insert unless present,
assign, erase and find, on lists of pairs whose keys are distinct. The order of
the entries is the order of insertion.
-/

namespace FlonCore.Library
open List Option
variable {κ α : Type*}

def keysOf (m : List (κ × α)) : List κ := m.map Prod.fst

theorem mem_keysOf {m : List (κ × α)} {k : κ} : k ∈ keysOf m ↔ ∃ v, (k, v) ∈ m := by
  simp [keysOf]

theorem eq_of_mem {m : List (κ × α)} {k : κ} {v w : α} (h : (keysOf m).Nodup)
    (hv : (k, v) ∈ m) (hw : (k, w) ∈ m) : v = w := by
  have hinj := inj_on_of_nodup_map h hv hw rfl
  exact (Prod.mk.injEq _ _ _ _ ▸ hinj).2

variable [DecidableEq κ]

/-- Inserts an entry unless its key is present. -/
def emplace (m : List (κ × α)) (e : κ × α) : List (κ × α) :=
  if e.1 ∈ keysOf m then m else m ++ [e]

def eraseKey (m : List (κ × α)) (k : κ) : List (κ × α) := m.filter fun e => e.1 ≠ k

def assign (m : List (κ × α)) (k : κ) (v : α) : List (κ × α) := eraseKey m k ++ [(k, v)]

def find (m : List (κ × α)) (k : κ) : Option α := (m.find? fun e => e.1 = k).map Prod.snd

variable {m : List (κ × α)} {k : κ} {v : α} {e : κ × α}

@[simp] theorem mem_eraseKey : e ∈ eraseKey m k ↔ e ∈ m ∧ e.1 ≠ k := by
  simp [eraseKey]

@[simp] theorem mem_assign : e ∈ assign m k v ↔ (e ∈ m ∧ e.1 ≠ k) ∨ e = (k, v) := by
  simp [assign]

section
variable (h : (keysOf m).Nodup)
include h

theorem nodup_eraseKey (k : κ) : (keysOf (eraseKey m k)).Nodup :=
  h.sublist (filter_sublist.map Prod.fst)

theorem nodup_assign (k : κ) (v : α) : (keysOf (assign m k v)).Nodup := by
  have herase := nodup_eraseKey h k
  simp only [keysOf, assign, map_append, map_cons, map_nil] at herase ⊢
  exact List.Nodup.append herase (nodup_singleton k) (by simp)

theorem length_le_length_assign (k : κ) (v : α) : m.length ≤ (assign m k v).length := by
  have hcount : m.countP (fun e => e.1 == k) ≤ 1 := by
    have hone := nodup_iff_count_le_one.mp h k
    rwa [keysOf, count_eq_countP, countP_map] at hone
  have hsplit := length_eq_countP_add_countP (fun e : κ × α => e.1 == k) (l := m)
  have hrest : (eraseKey m k).length = m.countP (fun e => ¬ (e.1 == k) = true) := by
    simp [eraseKey, countP_eq_length_filter]
  rw [assign, length_append, length_singleton]
  omega

theorem nodup_emplace (e : κ × α) : (keysOf (emplace m e)).Nodup := by
  unfold emplace
  split_ifs with hmem
  · exact h
  · simp only [keysOf, map_append, map_cons, map_nil] at h hmem ⊢
    exact List.Nodup.append h (nodup_singleton e.1) (by simpa using hmem)

theorem find_eq_some : find m k = some v ↔ (k, v) ∈ m := by
  unfold find
  rw [map_eq_some_iff]
  constructor
  · rintro ⟨⟨k', v'⟩, hfind, rfl⟩
    have hk : k' = k := by simpa using find?_some hfind
    exact hk ▸ mem_of_find?_eq_some hfind
  · intro hmem
    have hsome : (m.find? fun e => decide (e.1 = k)).isSome := by
      rw [find?_isSome]
      exact ⟨(k, v), hmem, by simp⟩
    obtain ⟨⟨k', v'⟩, hfind⟩ := isSome_iff_exists.mp hsome
    have hk : k' = k := by simpa using find?_some hfind
    subst hk
    exact ⟨(k', v'), hfind, eq_of_mem h (mem_of_find?_eq_some hfind) hmem⟩

end

theorem find_eq_none : find m k = none ↔ k ∉ keysOf m := by
  unfold find
  rw [map_eq_none_iff, find?_eq_none, mem_keysOf]
  constructor
  · rintro h ⟨v, hv⟩
    exact h (k, v) hv (by simp)
  · rintro h ⟨k', v⟩ hv hk
    exact h ⟨v, (of_decide_eq_true hk : k' = k) ▸ hv⟩

theorem find_eraseKey (m : List (κ × α)) (k k' : κ) :
    find (eraseKey m k) k' = if k' = k then none else find m k' := by
  split_ifs with h
  · rw [find_eq_none, mem_keysOf]
    rintro ⟨v, hv⟩
    exact (mem_eraseKey.mp hv).2 h
  · rw [find, find, eraseKey, find?_filter]
    congr 2
    funext e
    by_cases he : e.1 = k'
    · simp [he, h]
    · simp [he]

theorem find_assign (m : List (κ × α)) (k k' : κ) (v : α) :
    find (assign m k v) k' = if k' = k then some v else find m k' := by
  have herase := find_eraseKey m k k'
  rw [find] at herase
  rw [find, assign, find?_append, map_or, herase]
  split_ifs with h
  · simp [h]
  · cases hf : find m k' <;> simp [Ne.symm h]

theorem mem_of_find_eq_some (h : find m k = some v) : (k, v) ∈ m := by
  obtain ⟨⟨k', v'⟩, hfind, rfl⟩ := map_eq_some_iff.mp h
  obtain rfl : k' = k := by simpa using find?_some hfind
  exact mem_of_find?_eq_some hfind

theorem find_cons (e : κ × α) (m : List (κ × α)) (k : κ) :
    find (e :: m) k = if e.1 = k then some e.2 else find m k := by
  unfold find
  split_ifs with h <;> simp [h]

theorem find_append (m l : List (κ × α)) (k : κ) : find (m ++ l) k = (find m k).or (find l k) := by
  rw [find, find?_append, map_or]
  rfl

theorem find_emplace (m : List (κ × α)) (e : κ × α) (k : κ) :
    find (emplace m e) k = (find m k).or (if e.1 = k then some e.2 else none) := by
  unfold emplace
  split_ifs with hmem hk hk
  · obtain ⟨v, hv⟩ := ne_none_iff_exists'.mp fun h => find_eq_none.mp h hmem
    rw [← hk, hv, or_some]
    rfl
  · rw [or_none]
  · rw [find_append, find_cons, if_pos hk]
  · rw [find_append, find_cons, if_neg hk]
    rfl

theorem find_foldl_assign {l : List (κ × α)} (h : (keysOf l).Nodup) (m : List (κ × α)) (k : κ) :
    find (l.foldl (fun m e => assign m e.1 e.2) m) k = (find l k).or (find m k) := by
  induction l generalizing m with
  | nil => rfl
  | cons e l ih =>
    obtain ⟨hnot, hl⟩ := nodup_cons.mp h
    rw [foldl_cons, ih hl, find_assign, find_cons]
    by_cases hk : e.1 = k
    · subst hk
      rw [find_eq_none.mpr hnot]
      simp
    · rw [if_neg hk, if_neg (Ne.symm hk)]

theorem find_foldl_assign_of_key {β : Type*} {key : β → κ} {f : κ → α} (bs : List β)
    (m : List (κ × α)) (k : κ) :
    find (bs.foldl (fun m b => assign m (key b) (f (key b))) m) k =
      if k ∈ bs.map key then some (f k) else find m k := by
  induction bs generalizing m with
  | nil => rfl
  | cons b bs ih =>
    rw [foldl_cons, ih, find_assign]
    simp only [map_cons, mem_cons]
    by_cases hmem : k ∈ bs.map key
    · rw [if_pos hmem, if_pos (Or.inr hmem)]
    · by_cases hk : k = key b
      · subst hk
        rw [if_neg hmem, if_pos rfl, if_pos (Or.inl rfl)]
      · rw [if_neg hmem, if_neg hk, if_neg (not_or.mpr ⟨hk, hmem⟩)]

theorem foldl_emplace (l m : List (κ × α)) (h : (keysOf (m ++ l)).Nodup) :
    l.foldl emplace m = m ++ l := by
  induction l generalizing m with
  | nil => simp
  | cons e l ih =>
    have hnot : e.1 ∉ keysOf m := by
      simp only [keysOf, map_append, map_cons] at h ⊢
      exact fun hmem => (nodup_append.mp h).2.2 _ hmem _ mem_cons_self rfl
    rw [foldl_cons, emplace, if_neg hnot, ih]
    · simp
    · simpa using h

theorem nodup_foldl_emplace (l : List (κ × α)) (h : (keysOf m).Nodup) :
    (keysOf (l.foldl emplace m)).Nodup := by
  induction l generalizing m with
  | nil => exact h
  | cons e l ih => exact ih (nodup_emplace h e)

theorem mem_foldl_eraseKey {ks : List κ} : e ∈ ks.foldl eraseKey m ↔ e ∈ m ∧ e.1 ∉ ks := by
  induction ks generalizing m with
  | nil => simp
  | cons k ks ih =>
    rw [foldl_cons, ih, mem_eraseKey, mem_cons, not_or, and_assoc]

theorem nodup_foldl_eraseKey (ks : List κ) (h : (keysOf m).Nodup) :
    (keysOf (ks.foldl eraseKey m)).Nodup := by
  induction ks generalizing m with
  | nil => exact h
  | cons k ks ih => exact ih (nodup_eraseKey h k)

variable {β : Type*} {key : β → κ} {value : β → α}

theorem mem_of_mem_foldl_assign {bs : List β}
    (h : e ∈ bs.foldl (fun m b => assign m (key b) (value b)) m) :
    (∃ b ∈ bs, e = (key b, value b)) ∨ e ∈ m := by
  induction bs generalizing m with
  | nil => exact .inr h
  | cons b bs ih =>
    rcases ih h with ⟨c, hc, he⟩ | hmem
    · exact .inl ⟨c, mem_cons_of_mem _ hc, he⟩
    · rcases mem_assign.mp hmem with ⟨hmem, -⟩ | he
      · exact .inr hmem
      · exact .inl ⟨b, mem_cons_self, he⟩

theorem mem_keysOf_foldl_assign {bs : List β} (h : k ∈ bs.map key ∨ k ∈ keysOf m) :
    k ∈ keysOf (bs.foldl (fun m b => assign m (key b) (value b)) m) := by
  induction bs generalizing m with
  | nil => exact h.resolve_left (by simp)
  | cons b bs ih =>
    refine ih ?_
    by_cases hk : k = key b
    · exact .inr (mem_keysOf.mpr ⟨value b, mem_assign.mpr (.inr (by rw [hk]))⟩)
    · rcases h with h | h
      · exact .inl ((mem_cons.mp h).resolve_left hk)
      · obtain ⟨v, hv⟩ := mem_keysOf.mp h
        exact .inr (mem_keysOf.mpr ⟨v, mem_assign.mpr (.inl ⟨hv, hk⟩)⟩)

theorem nodup_foldl_assign (bs : List β) (h : (keysOf m).Nodup) :
    (keysOf (bs.foldl (fun m b => assign m (key b) (value b)) m)).Nodup := by
  induction bs generalizing m with
  | nil => exact h
  | cons b bs ih => exact ih (nodup_assign h _ _)

theorem foldl_assign_perm (f : κ → α) (bs : List β) :
    bs.foldl (fun m b => assign m (key b) (f (key b))) [] ~
      (bs.map key).dedup.map fun k => (k, f k) := by
  have hkeys : (keysOf (bs.foldl (fun m b => assign m (key b) (f (key b))) [])).Nodup :=
    nodup_foldl_assign bs nodup_nil
  refine (perm_ext_iff_of_nodup (hkeys.of_map _) ?_).mpr ?_
  · exact (nodup_dedup _).map fun _ _ h => congrArg Prod.fst h
  · rintro ⟨k, v⟩
    rw [← find_eq_some hkeys, find_foldl_assign_of_key]
    have hmem : (k, v) ∈ (bs.map key).dedup.map (fun k => (k, f k)) ↔
        k ∈ bs.map key ∧ f k = v := by
      rw [List.mem_map]
      constructor
      · rintro ⟨k', hk', heq⟩
        cases heq
        exact ⟨mem_dedup.mp hk', rfl⟩
      · rintro ⟨hk, rfl⟩
        exact ⟨k, mem_dedup.mpr hk, rfl⟩
    rw [hmem]
    split_ifs with hk
    · rw [some_inj, and_iff_right hk]
    · exact iff_of_false (by simp [find]) fun h => hk h.1

end FlonCore.Library
