import Mathlib

/-!
# Results that may be errors

`Ends P E x`: the result `x` is a value of which `P` holds, or an error of which `E` holds. The
passes of a check or of a bake are folds that stop at the first fault; `Ends.foldlM` is their
loop rule, and `foldl_keeps` that of a fold that does not stop.
-/

namespace BehaviorTree

universe u v

variable {ε : Type u} {α β : Type v}

/-- `P` holds of the value, or `E` of the error. -/
def Ends (P : α → Prop) (E : ε → Prop) : Except ε α → Prop
  | .ok a => P a
  | .error e => E e

namespace Ends

variable {P Q : α → Prop} {E : ε → Prop}

@[simp] theorem ok_iff {a : α} : Ends P E (.ok a) ↔ P a := Iff.rfl

@[simp] theorem error_iff {e : ε} : Ends P E (.error e) ↔ E e := Iff.rfl

theorem of_ok {x : Except ε α} (h : Ends P E x) {a : α} (hx : x = .ok a) : P a := by
  rw [hx] at h
  exact h

theorem of_error {x : Except ε α} (h : Ends P E x) {e : ε} (hx : x = .error e) : E e := by
  rw [hx] at h
  exact h

/-- A result that cannot be an error has a value. -/
theorem exists_ok {x : Except ε α} (h : Ends P E x) (hE : ∀ e, ¬ E e) : ∃ a, x = .ok a ∧ P a := by
  cases x with
  | ok a => exact ⟨a, rfl, h⟩
  | error e => exact absurd h (hE e)

theorem mono {x : Except ε α} {F : ε → Prop} (h : Ends P E x) (hPQ : ∀ a, P a → Q a)
    (hEF : ∀ e, E e → F e) : Ends Q F x := by
  cases x with
  | ok a => exact hPQ a h
  | error e => exact hEF e h

theorem bind {R : β → Prop} {x : Except ε α} {f : α → Except ε β} (h : Ends P E x)
    (hf : ∀ a, P a → Ends R E (f a)) : Ends R E (x >>= f) := by
  cases x with
  | ok a => exact hf a h
  | error e => exact h

/-- The loop rule for results: `I` holds of what is done and of the state, and each step keeps it
or ends in an error of which `E` holds. -/
theorem foldlM {f : β → α → Except ε β} {I : List α → β → Prop} (l : List α) {b : β}
    (init : I [] b) (step : ∀ done a rest b, l = done ++ a :: rest → I done b →
      Ends (I (done ++ [a])) E (f b a)) : Ends (I l) E (l.foldlM f b) := by
  suffices h : ∀ rest done b, l = done ++ rest → I done b → Ends (I l) E (rest.foldlM f b) from
    h l [] b rfl init
  intro rest
  induction rest with
  | nil =>
    intro done b hl hb
    rw [List.append_nil] at hl
    rw [hl]
    exact hb
  | cons a rest ih =>
    intro done b hl hb
    rw [List.foldlM_cons]
    exact (step done a rest b hl hb).bind fun b' hb' => ih (done ++ [a]) b' (by simp [hl]) hb'

end Ends

/-! ## Loops without faults -/

/-- The loop rule: `I` holds of what is done and of the state, and each step keeps it. -/
theorem foldl_keeps {f : β → α → β} {I : List α → β → Prop} (l : List α) {b : β} (init : I [] b)
    (step : ∀ done a rest b, l = done ++ a :: rest → I done b → I (done ++ [a]) (f b a)) :
    I l (l.foldl f b) := by
  suffices h : ∀ rest done b, l = done ++ rest → I done b → I l (rest.foldl f b) from
    h l [] b rfl init
  intro rest
  induction rest with
  | nil =>
    intro done b hl hb
    rw [List.append_nil] at hl
    rw [hl]
    exact hb
  | cons a rest ih =>
    intro done b hl hb
    exact ih (done ++ [a]) _ (by simp [hl]) (step done a rest b hl hb)

/-- What a loop comes to is new, if nothing comes twice. -/
theorem not_mem_done {l done rest : List α} {a : α} (hnd : l.Nodup) (hl : l = done ++ a :: rest) :
    a ∉ done := by
  rw [hl, List.nodup_middle, List.nodup_cons] at hnd
  exact fun ha => hnd.1 (List.mem_append_left _ ha)

/-- What a loop over the numbers below `n` has done before it comes to `k`. -/
theorem mem_done_finRange {n : Nat} {done rest : List (Fin n)} {k : Fin n}
    (hl : List.finRange n = done ++ k :: rest) (j : Fin n) : j ∈ done ↔ j < k := by
  have hlt := List.pairwise_lt_finRange n
  have hmem := List.mem_finRange j
  rw [hl] at hlt hmem
  obtain ⟨-, hrest, hdone⟩ := List.pairwise_append.1 hlt
  constructor
  · exact fun hj => hdone j hj k List.mem_cons_self
  · intro hj
    rcases List.mem_append.1 hmem with hmem | hmem
    · exact hmem
    · rcases List.mem_cons.1 hmem with rfl | hmem
      · exact absurd hj (lt_irrefl _)
      · exact absurd hj ((List.pairwise_cons.1 hrest).1 j hmem).not_gt

end BehaviorTree
