import BehaviorTree.Decimal.Power
import Mathlib

/-!
# Decimals near to halfway points

The numbers halfway between two neighbours of single precision are the odd multiples of half a unit
in the last place. How near can a decimal come to one without hitting it? A `Pair` is a number of
halves of a unit and a point of a grid of decimals; `gap` is how far the point lies above. Two pairs
that enclose the exact ratio and are next to each other (`Neighbours`) decide for all smaller pairs
(`Neighbours.far`): those that are no multiple of one of the two have a large gap. `enclosing` finds
such pairs for each exponent, and the gap turns out to be at least 2 ^ -51 of the number, with one
exception (`far_of_odd`).
-/

namespace BehaviorTree.Decimal

/-- A number of halves of a unit, and a point of a grid. -/
abbrev Pair := Nat × Nat

namespace Pair

variable {a b i : Nat} {l u p q : Pair}

/-- How far the point lies above the halves, where half a unit is `a` and the grid has width `b`. -/
def gap (a b : Nat) (p : Pair) : Int := p.2 * b - p.1 * a

/-- The gap is at least 2 ^ -51 of the halves. -/
def Far (a b : Nat) (p : Pair) : Prop := (p.1 * a : Int) ≤ 2 ^ 51 * |p.gap a b|

instance : Decidable (Far a b p) := inferInstanceAs (Decidable (_ ≤ _))

/-- A multiple of a pair. -/
def times (i : Nat) (p : Pair) : Pair := (i * p.1, i * p.2)

theorem gap_times : (p.times i).gap a b = i * p.gap a b := by
  simp only [gap, times]
  push_cast
  ring

theorem Far.times (h : p.Far a b) (i : Nat) : (p.times i).Far a b := by
  unfold Far at h ⊢
  rw [gap_times, abs_mul, Nat.abs_cast]
  simp only [Pair.times]
  push_cast
  calc ((i : Int) * p.1 * a) = i * (p.1 * a) := by ring
    _ ≤ i * (2 ^ 51 * |p.gap a b|) := by gcongr
    _ = 2 ^ 51 * (i * |p.gap a b|) := by ring

/-- Two pairs enclose the exact ratio and have no pair between them that is smaller than their
sum. -/
structure Neighbours (a b : Nat) (l u : Pair) : Prop where
  det : l.1 * u.2 = u.1 * l.2 + 1
  below : l.gap a b ≤ 0
  above : 0 ≤ u.gap a b

instance : Decidable (Neighbours a b l u) :=
  decidable_of_iff (l.1 * u.2 = u.1 * l.2 + 1 ∧ l.gap a b ≤ 0 ∧ 0 ≤ u.gap a b)
    ⟨fun ⟨h₁, h₂, h₃⟩ => ⟨h₁, h₂, h₃⟩, fun h => ⟨h.det, h.below, h.above⟩⟩

/-- A pair below the sum of two neighbours is a multiple of one of them or has a larger gap than
both together. -/
theorem Neighbours.far (h : Neighbours a b l u) (pos : 0 < p.1) (small : p.1 < l.1 + u.1) :
    (∃ i, 0 < i ∧ p = l.times i) ∨ (∃ i, 0 < i ∧ p = u.times i) ∨
      |l.gap a b| + |u.gap a b| ≤ |p.gap a b| := by
  have det : (l.1 * u.2 : Int) = u.1 * l.2 + 1 := by exact_mod_cast h.det
  -- the coordinates of the pair with respect to the two neighbours
  obtain ⟨i, hi⟩ : ∃ i : Int, i = p.1 * u.2 - u.1 * p.2 := ⟨_, rfl⟩
  obtain ⟨j, hj⟩ : ∃ j : Int, j = l.1 * p.2 - p.1 * l.2 := ⟨_, rfl⟩
  have first : (p.1 : Int) = i * l.1 + j * u.1 := by
    rw [hi, hj]
    linear_combination (-p.1 : Int) * det
  have second : (p.2 : Int) = i * l.2 + j * u.2 := by
    rw [hi, hj]
    linear_combination (-p.2 : Int) * det
  have gap_eq : p.gap a b = i * l.gap a b + j * u.gap a b := by
    simp only [gap]
    rw [first, second]
    ring
  have low : |l.gap a b| = -l.gap a b := abs_of_nonpos h.below
  have high : |u.gap a b| = u.gap a b := abs_of_nonneg h.above
  have below := h.below
  have above := h.above
  have hl : (0 : Int) ≤ l.1 := by positivity
  have hu : (0 : Int) ≤ u.1 := by positivity
  have bound : (p.1 : Int) < l.1 + u.1 := by exact_mod_cast small
  have pos' : (0 : Int) < p.1 := by exact_mod_cast pos
  rcases lt_trichotomy i 0 with hi | rfl | hi <;> rcases lt_trichotomy j 0 with hj | rfl | hj
  · nlinarith
  · nlinarith
  · refine .inr (.inr ?_)
    rw [low, high, gap_eq]
    exact le_trans (by nlinarith) (le_abs_self _)
  · nlinarith
  · omega
  · refine .inr (.inl ⟨j.toNat, by omega, ?_⟩)
    refine Prod.ext ?_ ?_ <;> simp only [times] <;> zify <;> rw [Int.toNat_of_nonneg hj.le]
    · linarith
    · linarith
  · refine .inr (.inr ?_)
    rw [low, high, gap_eq]
    exact le_trans (by nlinarith) (neg_le_abs _)
  · refine .inl ⟨i.toNat, by omega, ?_⟩
    refine Prod.ext ?_ ?_ <;> simp only [times] <;> zify <;> rw [Int.toNat_of_nonneg hi.le]
    · linarith
    · linarith
  · nlinarith

/-! ## The enclosing pairs -/

/-- A pair with a multiple of another one added. -/
def plus (p : Pair) (i : Nat) (q : Pair) : Pair := (p.1 + i * q.1, p.2 + i * q.2)

/-- How often a pair can be added to one on the other side of the exact ratio, such that the sum
stays on its side and below `2 ^ 25` halves. -/
def steps (a b : Nat) (p q : Pair) : Nat :=
  let room := (2 ^ 25 - 1 - p.1) / q.1
  if q.gap a b = 0 then room else min room ((p.gap a b).natAbs / (q.gap a b).natAbs)

/-- Moves two pairs on either side of the exact ratio towards it, one after the other. -/
def enclose (a b : Nat) : Nat → Pair → Pair → Pair × Pair
  | 0, l, u => (l, u)
  | fuel + 1, l, u =>
    let l := l.plus (steps a b l u) u
    let u := u.plus (steps a b u l) l
    enclose a b fuel l u

/-- The neighbours that enclose the exact ratio below `2 ^ 25` halves. -/
def enclosing (a b : Nat) : Pair × Pair := enclose a b 16 (1, a / b) (1, a / b + 1)

/-- A pair that is no halfway point, or hits one, or has a large gap. -/
def Settled (a b : Nat) (p : Pair) : Prop := p.1 % 2 = 0 ∨ p.gap a b = 0 ∨ p.Far a b

instance : Decidable (Settled a b p) := inferInstanceAs (Decidable (_ ∨ _ ∨ _))

/-- The one decimal that is too near to a halfway point, 7038531e-32. -/
def hard : Pair := (22841339, 7038531)

/-- The enclosing pairs tell that all halfway points but one are hit or far. -/
structure Certified (e : Int) (a b : Nat) (l u : Pair) : Prop where
  neighbours : Neighbours a b l u
  large : 2 ^ 25 ≤ l.1 + u.1
  far : (a : Int) ≤ 2 ^ 26 * (|l.gap a b| + |u.gap a b|)
  lower : l.Settled a b ∨ l = hard ∧ e = -107
  upper : u.Settled a b

instance (e : Int) : Decidable (Certified e a b l u) :=
  decidable_of_iff (Neighbours a b l u ∧ 2 ^ 25 ≤ l.1 + u.1 ∧
      (a : Int) ≤ 2 ^ 26 * (|l.gap a b| + |u.gap a b|) ∧
      (l.Settled a b ∨ l = hard ∧ e = -107) ∧ u.Settled a b)
    ⟨fun ⟨h₁, h₂, h₃, h₄, h₅⟩ => ⟨h₁, h₂, h₃, h₄, h₅⟩,
      fun h => ⟨h.neighbours, h.large, h.far, h.lower, h.upper⟩⟩

end Pair

/-! ## Single precision -/

/-- The coarsest grid whose width is no less than the unit. -/
def coarseGrid (e : Int) : Int := -Int.fdiv (-(e * 30103)) 100000

/-- Half a unit, on the scale of the grid `10 ^ k`. -/
def halfUnit (e k : Int) : Nat := 2 * (twoTo (e - 2).toNat * tenTo (-k).toNat)

/-- The width of the grid `10 ^ k`, on the same scale. -/
def gridWidth (e k : Int) : Nat := tenTo k.toNat * twoTo (-(e - 2)).toNat

open Pair in
theorem certified_enclosing : ∀ j : Nat, j < 254 →
    let e : Int := j - 149
    let ends := enclosing (halfUnit e (coarseGrid e)) (gridWidth e (coarseGrid e))
    Certified e (halfUnit e (coarseGrid e)) (gridWidth e (coarseGrid e)) ends.1 ends.2 := by
  decide +kernel

variable {a b : Nat} {e : Int} {l u p : Pair}

theorem Pair.Settled.times_odd (h : l.Settled a b) {i : Nat} (odd : (l.times i).1 % 2 = 1) :
    (l.times i).gap a b = 0 ∨ (l.times i).Far a b := by
  rcases h with even | zero | far
  · have : (l.times i).1 % 2 = 0 := by simp [Pair.times, Nat.mul_mod, even]
    omega
  · rw [Pair.gap_times, zero, mul_zero]
    exact .inl rfl
  · exact .inr (far.times i)

theorem Pair.Certified.far_of_odd (h : Pair.Certified e a b l u) (odd : p.1 % 2 = 1)
    (small : p.1 < 2 ^ 25) : (p.gap a b = 0 ∨ p.Far a b) ∨ p = hard ∧ e = -107 := by
  rcases h.neighbours.far (by omega) (small.trans_le h.large) with
    ⟨i, pos, rfl⟩ | ⟨i, pos, rfl⟩ | large
  · rcases h.lower with settled | ⟨rfl, he⟩
    · exact .inl (settled.times_odd odd)
    · have : i * 22841339 < 2 ^ 25 := small
      obtain rfl : i = 1 := by omega
      exact .inr ⟨rfl, he⟩
  · exact .inl (h.upper.times_odd odd)
  · refine .inl (.inr ?_)
    have far := h.far
    have small' : (p.1 : Int) ≤ 2 ^ 25 := by exact_mod_cast small.le
    unfold Pair.Far
    calc (p.1 * a : Int) ≤ 2 ^ 25 * (2 ^ 26 * (|l.gap a b| + |u.gap a b|)) := by gcongr
      _ ≤ 2 ^ 25 * (2 ^ 26 * |p.gap a b|) := by gcongr
      _ = 2 ^ 51 * |p.gap a b| := by ring

/-- A halfway point is hit or missed by at least 2 ^ -51 of it, with one exception. -/
theorem far_of_odd (least : -149 ≤ e) (greatest : e ≤ 104) (odd : p.1 % 2 = 1)
    (small : p.1 < 2 ^ 25) :
    (p.gap (halfUnit e (coarseGrid e)) (gridWidth e (coarseGrid e)) = 0 ∨
      p.Far (halfUnit e (coarseGrid e)) (gridWidth e (coarseGrid e))) ∨
        p = Pair.hard ∧ e = -107 := by
  have certified := certified_enclosing (e + 149).toNat (by omega)
  rw [show (((e + 149).toNat : Nat) : Int) - 149 = e by omega] at certified
  exact certified.far_of_odd odd small

end BehaviorTree.Decimal
