import FlonCore.PermissionTree

/-!
# Walking up the permissions

In a tree of permissions the walk from a permission to its parents ends, and it finds
exactly the permissions above.
-/

namespace FlonCore
open Library Relation

namespace NativeDb
variable {Key : Type} {db : NativeDb Key}

section Ancestry
variable {i x y : ℕ} {p q : PermissionObject Key}

/-- The id 0 stands for no parent. -/
def IsParent (db : NativeDb Key) (x y : ℕ) : Prop :=
  ∃ p, (y, p) ∈ db.permissions.rows ∧ p.parent = x ∧ x ≠ 0

def Above (db : NativeDb Key) : ℕ → ℕ → Prop := ReflTransGen db.IsParent

theorem isParent_iff (hp : (y, p) ∈ db.permissions.rows) :
    db.IsParent x y ↔ p.parent = x ∧ x ≠ 0 := by
  constructor
  · rintro ⟨q, hq, hparent⟩
    obtain rfl := Table.eq_of_id hq hp
    exact hparent
  · exact fun h => ⟨p, hp, h⟩

theorem above_iff (hp : (y, p) ∈ db.permissions.rows) :
    db.Above x y ↔ x = y ∨ (p.parent ≠ 0 ∧ db.Above x p.parent) := by
  constructor
  · intro h
    rcases ReflTransGen.cases_tail h with rfl | ⟨w, hw, hwy⟩
    · exact .inl rfl
    · obtain ⟨rfl, hw₀⟩ := (isParent_iff hp).mp hwy
      exact .inr ⟨hw₀, hw⟩
  · rintro (rfl | ⟨hne, h⟩)
    · exact .refl
    · exact h.tail ((isParent_iff hp).mpr ⟨rfl, hne⟩)

variable (h : db.PermissionTree)
include h

section
variable (hp : (i, p) ∈ db.permissions.rows)
include hp

theorem PermissionTree.parent (hne : p.parent ≠ 0) :
    p.parent < i ∧ ∃ q, (p.parent, q) ∈ db.permissions.rows ∧ q.owner = p.owner := by
  have hi : i ≠ 0 := by
    rintro rfl
    obtain rfl := Table.eq_of_id hp h.reserved
    exact hne rfl
  have hplaced := h.hierarchy.placed i (shape p) (mem_shapes.mpr ⟨p, hp, rfl⟩) hi
  rcases hplaced.parent with ⟨-, hzero⟩ | ⟨-, -, hlt, s, hs, hsame⟩
  · exact absurd hzero hne
  · obtain ⟨q, hq, rfl⟩ := mem_shapes.mp hs
    exact ⟨hlt, q, hq, hsame⟩

theorem PermissionTree.exists_parent : ∃ q, (p.parent, q) ∈ db.permissions.rows := by
  by_cases hne : p.parent = 0
  · exact ⟨reservedPermission, hne ▸ h.reserved⟩
  · obtain ⟨-, q, hq, -⟩ := h.parent hp hne
    exact ⟨q, hq⟩

theorem PermissionTree.owner_ne_zero (hi : i ≠ 0) : p.owner ≠ 0 :=
  h.hierarchy.named _ (h.hierarchy.placed i (shape p) (mem_shapes.mpr ⟨p, hp, rfl⟩) hi).account

end

theorem PermissionTree.satisfiesLoop (hx : x ≠ 0) {n : ℕ} (hn : i < n)
    (hp : (i, p) ∈ db.permissions.rows) : ∃ b, satisfiesLoop db.permissions x n p = some b ∧
      (b = true ↔ p.parent ≠ 0 ∧ db.Above x p.parent) := by
  induction n generalizing i p with
  | zero => exact absurd hn (by omega)
  | succ n ih =>
    unfold NativeDb.satisfiesLoop
    split_ifs with hparent hzero
    · exact ⟨true, rfl, iff_of_true rfl ⟨hparent ▸ hx, hparent ▸ .refl⟩⟩
    · exact ⟨false, rfl, iff_of_false (by simp) fun habove => habove.1 hzero⟩
    · obtain ⟨hlt, q, hq, -⟩ := h.parent hp hzero
      obtain ⟨b, hb, hiff⟩ := ih (by omega) hq
      refine ⟨b, by rw [Table.get_eq_some.mpr hq]; exact hb, hiff.trans ?_⟩
      rw [above_iff hq]
      exact ⟨fun habove => ⟨hzero, .inr habove⟩, fun habove => habove.2.resolve_left hparent⟩

theorem PermissionTree.satisfies {n : ℕ} (hn : db.permissions.nextId ≤ n)
    (hp : (x, p) ∈ db.permissions.rows) (hq : (y, q) ∈ db.permissions.rows) :
    ∃ b, satisfies db.permissions n (x, p) (y, q) = some b ∧
      (b = true ↔ p.owner = q.owner ∧ db.Above x y) := by
  unfold NativeDb.satisfies
  split_ifs with howner hsame
  · exact ⟨false, rfl, iff_of_false (by simp) fun habove => howner habove.1⟩
  · refine ⟨true, rfl, iff_of_true rfl ⟨not_not.mp howner, ?_⟩⟩
    rw [above_iff hq]
    rcases hsame with hxy | hparent
    · exact .inl hxy
    · by_cases hx : x = 0
      -- the reserved permission is the only one without an account
      · left
        by_contra hne
        rw [not_not] at howner
        subst hx
        obtain rfl := Table.eq_of_id hp h.reserved
        exact h.owner_ne_zero hq (Ne.symm hne) howner.symm
      · exact .inr ⟨hparent ▸ hx, hparent ▸ .refl⟩
  · rw [not_not] at howner
    rw [not_or] at hsame
    have hx : x ≠ 0 := by
      rintro rfl
      obtain rfl := Table.eq_of_id hp h.reserved
      exact h.owner_ne_zero hq (Ne.symm hsame.1) howner.symm
    obtain ⟨r, hr⟩ := h.exists_parent hq
    have hlt := db.permissions.below _ hr
    obtain ⟨b, hb, hiff⟩ := h.satisfiesLoop hx (hlt.trans_le hn) hr
    refine ⟨b, by rw [Table.get_eq_some.mpr hr]; exact hb, hiff.trans ?_⟩
    rw [above_iff hq, above_iff hr]
    constructor
    · intro habove
      refine ⟨howner, .inr ⟨fun hzero => ?_, .inr habove⟩⟩
      rw [hzero] at hr
      obtain rfl := Table.eq_of_id hr h.reserved
      exact habove.1 rfl
    · rintro ⟨-, habove⟩
      exact (habove.resolve_left hsame.1).2.resolve_left hsame.2

end Ancestry
end NativeDb
end FlonCore
