import Mathlib.Data.BitVec
import Mathlib.Data.List.Range
import Mathlib.Data.Nat.ModEq
import Mathlib.Logic.Function.Basic
import Mathlib.Tactic.Abel

/-!
# Circular buffers with free-running indices

A buffer of `N` slots is used through indices of `w` bits that are only ever incremented or decremented and that wrap
around modulo `2 ^ w`; slot `i % N` belongs to the index `i`. If `N` divides `2 ^ w` the slots of consecutive indices are
consecutive across the wrap. `window N data a n` is what the `n` slots from the index `a` on hold.
-/

namespace Circular

variable {α : Type*} {w N n : ℕ} {data : ℕ → α} {a b : BitVec w}

lemma slot_add (dvd : N ∣ 2 ^ w) (a : BitVec w) (k : ℕ) : (a + BitVec.ofNat w k).toNat % N = (a.toNat + k) % N := by
  rw [BitVec.toNat_add, BitVec.toNat_ofNat, Nat.mod_mod_of_dvd _ dvd, Nat.add_mod, Nat.mod_mod_of_dvd _ dvd, ← Nat.add_mod]

/-- The content of the `n` slots from the index `a` on. -/
def window (N : ℕ) (data : ℕ → α) (a : BitVec w) (n : ℕ) : List α :=
  (List.range n).map fun k => data ((a + BitVec.ofNat w k).toNat % N)

@[simp]
lemma length_window : (window N data a n).length = n := by simp [window]

@[simp]
lemma window_zero : window N data a 0 = [] := rfl

lemma window_succ : window N data a (n + 1) = window N data a n ++ [data ((a + BitVec.ofNat w n).toNat % N)] := by
  simp [window, List.range_succ]

lemma window_cons : window N data a (n + 1) = data (a.toNat % N) :: window N data (a + 1#w) n := by
  rw [window, List.range_succ_eq_map, List.map_cons, List.map_map]
  congr 1
  · simp
  · refine List.map_congr_left fun k _ => ?_
    have shift : a + 1#w + BitVec.ofNat w k = a + BitVec.ofNat w (k + 1) := by
      rw [BitVec.add_assoc, BitVec.add_comm 1#w, BitVec.ofNat_add]
    simp only [Function.comp, shift]

lemma window_update (dvd : N ∣ 2 ^ w) (lt : n < N) {x : α} :
    window N (Function.update data ((a + BitVec.ofNat w n).toNat % N) x) a n = window N data a n := by
  refine List.map_congr_left fun k mem => Function.update_of_ne ?_ _ _
  have kn := List.mem_range.1 mem
  rw [slot_add dvd, slot_add dvd]
  intro eq
  have := Nat.ModEq.add_left_cancel' _ (show a.toNat + k ≡ a.toNat + n [MOD N] from eq)
  rw [Nat.ModEq, Nat.mod_eq_of_lt (by omega), Nat.mod_eq_of_lt lt] at this
  omega

lemma add_sub_index (a b : BitVec w) : a + BitVec.ofNat w (b - a).toNat = b := by
  rw [BitVec.ofNat_toNat, BitVec.setWidth_eq, BitVec.add_comm, BitVec.sub_add_cancel]

lemma dist_eq_zero : (b - a).toNat = 0 ↔ a = b := by
  have zero : (b - a).toNat = 0 ↔ b - a = 0#w := by simp [← BitVec.toNat_inj]
  exact zero.trans (sub_eq_zero.trans eq_comm)

lemma dist_succ (lt : (b - a).toNat + 1 < 2 ^ w) : (b + 1#w - a).toNat = (b - a).toNat + 1 := by
  have one : (1#w).toNat = 1 := Nat.mod_eq_of_lt (by omega)
  have eq : b + 1#w - a = b - a + 1#w := by abel
  rw [eq, BitVec.toNat_add, one, Nat.mod_eq_of_lt lt]

lemma dist_sub_one (ne : a ≠ b) : (b - a).toNat = (b - a - 1#w).toNat + 1 := by
  have lt := (b - a).isLt
  have pos : (b - a).toNat ≠ 0 := fun eq => ne (dist_eq_zero.1 eq)
  have one : (1#w).toNat = 1 := Nat.mod_eq_of_lt (by omega)
  have le : 1#w ≤ b - a := by
    rw [BitVec.le_def, one]
    omega
  rw [BitVec.toNat_sub_of_le le, one]
  omega

lemma dist_rear (ne : a ≠ b) : (b - a).toNat = (b - (a + 1#w)).toNat + 1 := by
  rw [dist_sub_one ne, show b - (a + 1#w) = b - a - 1#w by abel]

lemma dist_front (ne : a ≠ b) : (b - a).toNat = (b - 1#w - a).toNat + 1 := by
  rw [dist_sub_one ne, show b - 1#w - a = b - a - 1#w by abel]

lemma dist_between {c : BitVec w} (le : (b - a).toNat ≤ (c - a).toNat) :
    (c - b).toNat + (b - a).toNat = (c - a).toNat := by
  rw [show c - b = c - a - (b - a) by abel, BitVec.toNat_sub_of_le (by rwa [BitVec.le_def])]
  omega

lemma window_extend (lt : (b - a).toNat + 1 < 2 ^ w) :
    window N data a (b + 1#w - a).toNat = window N data a (b - a).toNat ++ [data (b.toNat % N)] := by
  rw [dist_succ lt, window_succ, add_sub_index]

/-- The window between two indices when the front one is incremented and its slot has been written. -/
lemma window_push (dvd : N ∣ 2 ^ w) (lt : (b - a).toNat < N) (lt' : (b - a).toNat + 1 < 2 ^ w) {x : α} :
    window N (Function.update data (b.toNat % N) x) a (b + 1#w - a).toNat = window N data a (b - a).toNat ++ [x] := by
  have slot : (a + BitVec.ofNat w (b - a).toNat).toNat % N = b.toNat % N := by rw [add_sub_index]
  rw [window_extend lt', Function.update_self, ← slot, window_update dvd lt]

lemma window_pop (ne : a ≠ b) :
    window N data a (b - a).toNat = window N data a (b - 1#w - a).toNat ++ [data ((b - 1#w).toNat % N)] := by
  rw [dist_front ne, window_succ, add_sub_index]

lemma window_take (ne : a ≠ b) :
    window N data a (b - a).toNat = data (a.toNat % N) :: window N data (a + 1#w) (b - (a + 1#w)).toNat := by
  rw [dist_rear ne, window_cons]

end Circular
