import BehaviorTree.Decimal.Shortest
import Mathlib

/-!
# The shortest decimal rounds to its number

A grid is fine for a number if its points are closer together than half a unit in the last place;
then one of them rounds to the number (`nearestOn?_isSome`). For single precision the search for
the shortest decimal comes to such a grid before it ends (`fine_finestGrid`), so it ends on a hit
(`shortest_spec`): what it finds rounds to the number (`covers_shortest`), and it is not zero
(`digits_pos`).
-/

namespace BehaviorTree.Decimal

namespace Magnitude

variable {m : Magnitude} {tie : Tie} {k : Int} {point fuel : Nat}

theorem scales_pos (m : Magnitude) (k : Int) : 0 < (m.scales k).1 ∧ 0 < (m.scales k).2 :=
  ⟨Nat.mul_pos (Nat.pow_pos (by decide)) (Nat.pow_pos (by decide)),
    Nat.mul_pos (Nat.pow_pos (by decide)) (Nat.pow_pos (by decide))⟩

/-- The points of a grid are closer together than half a unit in the last place. -/
def Fine (m : Magnitude) (k : Int) : Prop := (m.scales k).2 < 2 * (m.scales k).1

theorem covers_iff : m.covers k point ↔
    if m.mantissa % 2 = 0 then
      m.quarters.1 * (m.scales k).1 ≤ point * (m.scales k).2 ∧
        point * (m.scales k).2 ≤ m.quarters.2.2 * (m.scales k).1
    else
      m.quarters.1 * (m.scales k).1 < point * (m.scales k).2 ∧
        point * (m.scales k).2 < m.quarters.2.2 * (m.scales k).1 := by
  show (if _ then _ else _ : Bool) = true ↔ _
  split <;> simp [quarters, scales]

/-- What rounds to a number lies between the ends of its interval. -/
theorem bounds_of_covers (h : m.covers k point) :
    m.quarters.1 * (m.scales k).1 ≤ point * (m.scales k).2 ∧
      point * (m.scales k).2 ≤ m.quarters.2.2 * (m.scales k).1 := by
  rw [covers_iff] at h
  split at h
  · exact h
  · exact ⟨h.1.le, h.2.le⟩

theorem covers_of_lt (low : m.quarters.1 * (m.scales k).1 < point * (m.scales k).2)
    (high : point * (m.scales k).2 < m.quarters.2.2 * (m.scales k).1) : m.covers k point := by
  rw [covers_iff]
  split
  · exact ⟨low.le, high.le⟩
  · exact ⟨low, high⟩

theorem pos_of_covers (hm : 0 < m.mantissa) (h : m.covers k point) : 0 < point := by
  have low : 0 < m.quarters.1 := by
    simp only [quarters]
    split <;> omega
  have := Nat.mul_pos low (scales_pos m k).1
  exact Nat.pos_of_mul_pos_right (this.trans_le (bounds_of_covers h).1)

/-! ## The search -/

theorem covers_of_nearestOn? (h : m.nearestOn? tie k = some point) : m.covers k point := by
  unfold nearestOn? at h
  dsimp only at h
  split at h
  case h_1 below above =>
    repeat' split at h
    all_goals first | exact Option.some.inj h ▸ below | exact Option.some.inj h ▸ above
  case h_2 below _ => exact Option.some.inj h ▸ below
  case h_3 _ above => exact Option.some.inj h ▸ above
  case h_4 => cases h

theorem nearestOn?_isSome (tie : Tie) (hm : 0 < m.mantissa) (fine : m.Fine k) :
    ∃ point, m.nearestOn? tie k = some point := by
  obtain ⟨ha, hb⟩ := scales_pos m k
  have value : m.quarters.2.1 = 4 * m.mantissa := rfl
  have high : m.quarters.2.2 = m.quarters.2.1 + 2 := rfl
  have low : m.quarters.1 < m.quarters.2.1 := by
    simp only [quarters]
    split <;> omega
  -- the neighbour above is less than half a unit away
  have above : m.covers k (m.quarters.2.1 * (m.scales k).1 / (m.scales k).2 + 1) := by
    have far := Nat.lt_div_mul_add (a := m.quarters.2.1 * (m.scales k).1) hb
    have near := Nat.div_mul_le_self (m.quarters.2.1 * (m.scales k).1) (m.scales k).2
    have step := Nat.mul_lt_mul_of_pos_right low ha
    unfold Fine at fine
    apply covers_of_lt
    · rw [Nat.add_mul, Nat.one_mul]
      omega
    · rw [Nat.add_mul, Nat.one_mul, high, Nat.add_mul]
      omega
  unfold nearestOn?
  dsimp only
  rw [above]
  split
  case h_4 no => cases no
  all_goals repeat' split
  all_goals exact ⟨_, rfl⟩

/-- The search ends on a hit, on its first grid or below one that is not fine. -/
theorem shortestFrom_spec (hm : 0 < m.mantissa) (h : ∃ i < fuel, m.Fine (k - (i : Nat))) :
    m.nearestOn? tie (m.shortestFrom tie fuel k).exponent =
        some (m.shortestFrom tie fuel k).digits ∧
      ((m.shortestFrom tie fuel k).exponent = k ∨
        ¬m.Fine ((m.shortestFrom tie fuel k).exponent + 1)) := by
  induction fuel generalizing k with
  | zero => simp at h
  | succ fuel ih =>
    rw [shortestFrom]
    split
    · next point hit => exact ⟨hit, .inl rfl⟩
    · next none =>
      have coarse : ¬m.Fine k := by
        intro fine
        obtain ⟨point, hit⟩ := nearestOn?_isSome tie hm fine
        rw [hit] at none
        cases none
      obtain ⟨i, hi, fine⟩ := h
      cases i with
      | zero => exact absurd (by simpa using fine) coarse
      | succ i =>
        obtain ⟨hit, first | below⟩ :=
          ih ⟨i, by omega, by rwa [show k - 1 - (i : Int) = k - (i + 1 : Nat) by omega]⟩
        · exact ⟨hit, .inr (by rwa [first, Int.sub_add_cancel])⟩
        · exact ⟨hit, .inr below⟩

/-! ## Single precision -/

/-- A number of single precision: at most 24 bits, and all of them above the least exponent. -/
structure Single (m : Magnitude) : Prop where
  pos : 0 < m.mantissa
  lt : m.mantissa < 2 ^ 24
  least : -149 ≤ m.exponent
  greatest : m.exponent ≤ 104
  full : -149 < m.exponent → 2 ^ 23 ≤ m.mantissa
  lowest : m.lowest ↔ m.mantissa = 2 ^ 23 ∧ -149 < m.exponent

theorem decode_eq (n : Nat) : binary32.decode n = (decide (2 ^ 31 ≤ n),
    if n / 8388608 % 256 = 255 then (if n % 8388608 = 0 then .infinite else .nan)
    else if n / 8388608 % 256 = 0 then
      (if n % 8388608 = 0 then .zero else .finite ⟨n % 8388608, -149, false⟩)
    else .finite ⟨8388608 + n % 8388608, -149 + (n / 8388608 % 256 - 1 : Nat),
      n % 8388608 = 0 && 1 < n / 8388608 % 256⟩) := rfl

theorem single_of_decode {bits : Nat} {negative : Bool} (h : binary32.decode bits =
    (negative, .finite m)) : m.Single := by
  rw [decode_eq, Prod.mk.injEq] at h
  obtain ⟨-, cls⟩ := h
  split_ifs at cls
  all_goals
    cases cls
    constructor <;> simp <;> omega

/-- The finest grid that the search for the shortest decimal comes to. -/
def finestGrid (e : Int) : Int := Int.fdiv ((e + 24) * 30103) 100000 - 18

theorem fine_finestGrid {e : Int} (least : -149 ≤ e) (greatest : e ≤ 104) {m : Magnitude}
    (he : m.exponent = e) : m.Fine (finestGrid e) := by
  have all : ∀ j : Nat, j < 254 →
      tenTo (finestGrid (j - 149)).toNat * twoTo (-((j : Int) - 149 - 2)).toNat <
        2 * (twoTo ((j : Int) - 149 - 2).toNat * tenTo (-finestGrid (j - 149)).toNat) := by
    decide +kernel
  have at_e := all (e + 149).toNat (by omega)
  rw [show (((e + 149).toNat : Nat) : Int) - 149 = e by omega] at at_e
  rw [Fine, scales, he]
  exact at_e

/-- The grid on which the search for the shortest decimal begins. -/
def firstGrid (m : Magnitude) : Int :=
  Int.fdiv ((m.exponent + m.mantissa.log2 + 1) * 30103) 100000 + 1

theorem shortest_spec (h : m.Single) (tie : Tie) :
    m.nearestOn? tie (m.shortest tie).exponent = some (m.shortest tie).digits ∧
      ((m.shortest tie).exponent = m.firstGrid ∨ ¬m.Fine ((m.shortest tie).exponent + 1)) := by
  have lead : Nat.log2 m.mantissa < 24 := (Nat.log2_lt h.pos.ne').2 h.lt
  have reached : ∃ i < 20, m.firstGrid - (i : Nat) = finestGrid m.exponent := by
    rw [firstGrid, finestGrid, Int.fdiv_eq_ediv_of_nonneg _ (by decide),
      Int.fdiv_eq_ediv_of_nonneg _ (by decide)]
    refine ⟨((m.exponent + m.mantissa.log2 + 1) * 30103 / 100000 + 19 -
      (m.exponent + 24) * 30103 / 100000).toNat, ?_, ?_⟩ <;> omega
  obtain ⟨i, hi, eq⟩ := reached
  exact shortestFrom_spec h.pos ⟨i, hi, eq ▸ fine_finestGrid h.least h.greatest rfl⟩

theorem covers_shortest (h : m.Single) (tie : Tie) :
    m.covers (m.shortest tie).exponent (m.shortest tie).digits :=
  covers_of_nearestOn? (shortest_spec h tie).1

theorem digits_pos (h : m.Single) (tie : Tie) : 0 < (m.shortest tie).digits :=
  pos_of_covers h.pos (covers_shortest h tie)

end Magnitude

end BehaviorTree.Decimal
