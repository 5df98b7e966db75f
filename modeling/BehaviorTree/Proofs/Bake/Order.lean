import BehaviorTree.Bake.Basic
import Mathlib

/-!
# Baked order

`getElem?_bakedOrder`: the node at a position stands at its baked index in the baked order, so
baked indices are a renumbering of the positions (`bakedIndex_inj`, `exists_bakedIndex_eq`) that
gives the root index 0 (`bakedIndex_eq_zero_iff`), and the baked order lists every position once
(`bakedOrder_perm`).
-/

namespace BehaviorTree.Bake

variable {n : Nat} {root p q : Fin n}

theorem getElem?_finRange (p : Fin n) : (List.finRange n)[p.1]? = some p := by simp

theorem bakedOrder_eq_erase (root : Fin n) :
    bakedOrder root = root :: (List.finRange n).erase root := by
  rw [bakedOrder, (List.nodup_finRange n).erase_eq_filter]
  refine congrArg (root :: ·) (List.filter_congr fun p _ => ?_)
  rw [Bool.eq_iff_iff]
  simp

theorem bakedOrder_eq (root : Fin n) :
    bakedOrder root = root :: (List.finRange n).eraseIdx root := by
  have herase := (List.nodup_finRange n).erase_getElem root.1 (by simp)
  rw [List.getElem_finRange, Fin.cast_mk] at herase
  rw [bakedOrder_eq_erase, herase]

/-- The node at a position stands at its baked index. -/
theorem getElem?_bakedOrder (root p : Fin n) : (bakedOrder root)[bakedIndex root p]? = some p := by
  rw [bakedOrder_eq]
  unfold bakedIndex
  split
  · rename_i hp
    rw [hp, List.getElem?_cons_zero]
  · split
    · rename_i hlt
      rw [List.getElem?_cons_succ, List.getElem?_eraseIdx_of_lt hlt, getElem?_finRange]
    · rename_i hne hnlt
      have hgt : root.1 < p.1 := lt_of_le_of_ne (not_lt.1 hnlt) (Ne.symm (Fin.val_ne_of_ne hne))
      obtain ⟨k, hk⟩ : ∃ k, p.1 = k + 1 := ⟨p.1 - 1, by omega⟩
      rw [hk, List.getElem?_cons_succ, List.getElem?_eraseIdx_of_ge (by omega), ← hk,
        getElem?_finRange]

@[simp] theorem length_bakedOrder (root : Fin n) : (bakedOrder root).length = n := by
  have := root.2
  rw [bakedOrder_eq, List.length_cons, List.length_eraseIdx_of_lt (by simp), List.length_finRange]
  omega

theorem bakedIndex_lt (root p : Fin n) : bakedIndex root p < n := by
  have := (List.getElem?_eq_some_iff.1 (getElem?_bakedOrder root p)).1
  rwa [length_bakedOrder] at this

theorem bakedIndex_injective (root : Fin n) : Function.Injective (bakedIndex root) := by
  intro p q h
  have := getElem?_bakedOrder root p
  rw [h, getElem?_bakedOrder root q] at this
  exact (Option.some.inj this).symm

theorem bakedIndex_inj : bakedIndex root p = bakedIndex root q ↔ p = q :=
  (bakedIndex_injective root).eq_iff

@[simp] theorem bakedIndex_root (root : Fin n) : bakedIndex root root = 0 := if_pos rfl

theorem bakedIndex_eq_zero_iff : bakedIndex root p = 0 ↔ p = root := by
  rw [← bakedIndex_root root, bakedIndex_inj]

/-- Every index is that of a position. -/
theorem exists_bakedIndex_eq (root : Fin n) {i : Nat} (hi : i < n) :
    ∃ p, bakedIndex root p = i := by
  have hinj : Function.Injective fun p => (⟨bakedIndex root p, bakedIndex_lt root p⟩ : Fin n) :=
    fun p q h => bakedIndex_injective root (Fin.val_eq_of_eq h)
  obtain ⟨p, hp⟩ := (Finite.injective_iff_surjective.1 hinj) ⟨i, hi⟩
  exact ⟨p, Fin.val_eq_of_eq hp⟩

theorem getElem?_bakedOrder_iff {i : Nat} :
    (bakedOrder root)[i]? = some p ↔ bakedIndex root p = i := by
  constructor
  · intro h
    have hi := (List.getElem?_eq_some_iff.1 h).1
    rw [length_bakedOrder] at hi
    obtain ⟨q, rfl⟩ := exists_bakedIndex_eq root hi
    rw [getElem?_bakedOrder] at h
    cases h
    rfl
  · rintro rfl
    exact getElem?_bakedOrder root p

/-- The baked order holds every position once. -/
theorem bakedOrder_perm (root : Fin n) : (bakedOrder root).Perm (List.finRange n) := by
  have hperm := List.getElem_cons_eraseIdx_perm (l := List.finRange n) (n := root.1) (by simp)
  rw [List.getElem_finRange, Fin.cast_mk] at hperm
  rwa [bakedOrder_eq]

theorem nodup_bakedOrder (root : Fin n) : (bakedOrder root).Nodup :=
  (bakedOrder_perm root).nodup_iff.2 (List.nodup_finRange n)

/-- The baked index of a position is where the baked order has it. -/
theorem idxOf_bakedOrder (root p : Fin n) : (bakedOrder root).idxOf p = bakedIndex root p := by
  obtain ⟨hlt, hp⟩ := List.getElem?_eq_some_iff.1 (getElem?_bakedOrder root p)
  have hidx := (nodup_bakedOrder root).idxOf_getElem _ hlt
  rwa [hp] at hidx

end BehaviorTree.Bake
