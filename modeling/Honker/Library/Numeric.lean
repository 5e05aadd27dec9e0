import Mathlib.Data.Int.Lemmas
import Mathlib.Data.Nat.Log
import Mathlib.Tactic.Ring
import Mathlib.Tactic.Linarith

namespace Numeric

/-- The range of a 64-bit signed integer. -/
def InRange (x : ℤ) : Prop := -2 ^ 63 ≤ x ∧ x < 2 ^ 63

instance (x : ℤ) : Decidable (InRange x) := inferInstanceAs (Decidable (_ ∧ _))

structure I64 where
  val : ℤ
  inRange : InRange val
deriving DecidableEq

instance : Coe I64 ℤ := ⟨I64.val⟩

/-- The 64-bit integer nearest to `x`. -/
def I64.near (x : ℤ) : I64 := ⟨max (-2 ^ 63) (min x (2 ^ 63 - 1)), by omega, by omega⟩

/-- Two's complement wrap of a 64-bit sum. -/
def wrap (x : ℤ) : ℤ := Int.bmod x (2 ^ 64)

/-- A natural number rounded to 53 significant bits, ties to even. -/
def roundNat (m : ℕ) : ℕ :=
  let e := Nat.log2 m - 52
  let q := m / 2 ^ e
  let r := m % 2 ^ e
  if 2 ^ e < 2 * r ∨ (2 * r = 2 ^ e ∧ q % 2 = 1) then (q + 1) * 2 ^ e else q * 2 ^ e

/-- Conversion of an integer to a binary64 number, itself an integer at these sizes. -/
def toDouble (x : ℤ) : ℤ := if x < 0 then -(roundNat x.natAbs) else roundNat x.natAbs

/-- A stored number: an integer, or a binary64 number with an integral value. -/
inductive Number
  | int (v : ℤ)
  | real (v : ℤ)
deriving DecidableEq

def Number.val : Number → ℤ
  | .int v => v
  | .real v => v

/-- Integer addition that turns into a binary64 addition when it leaves the 64-bit range. -/
def add (a b : ℤ) : Number :=
  if InRange (a + b) then .int (a + b) else .real (toDouble (toDouble a + toDouble b))

theorem add_of_inRange {a b : ℤ} (h : InRange (a + b)) : add a b = .int (a + b) := if_pos h

theorem add_eq_int {a b v : ℤ} (h : add a b = .int v) : InRange (a + b) ∧ v = a + b := by
  unfold add at h
  split_ifs at h with hr
  exact ⟨hr, (Number.int.inj h).symm⟩

theorem log2_sub (m e : ℕ) (he : 0 < e) (h : 2 ^ (52 + e) ≤ m) (h' : m < 2 ^ (53 + e)) :
    Nat.log2 m - 52 = e := by
  have hm : m ≠ 0 := by have := Nat.two_pow_pos (52 + e); omega
  have hle := (Nat.le_log2 hm).mpr h
  have hlt := (Nat.log2_lt hm).mpr h'
  omega

/-- Rounding never falls below a number of at most 53 significant bits. -/
theorem le_roundNat {m k j : ℕ} (hk : k ≤ 2 ^ 53) (h : k * 2 ^ j ≤ m) : k * 2 ^ j ≤ roundNat m := by
  have hfloor : (m / 2 ^ (Nat.log2 m - 52)) * 2 ^ (Nat.log2 m - 52) ≤ roundNat m := by
    unfold roundNat
    dsimp only
    split_ifs
    · exact Nat.mul_le_mul_right _ (Nat.le_succ _)
    · exact le_rfl
  refine le_trans ?_ hfloor
  generalize he : Nat.log2 m - 52 = e
  by_cases hej : e ≤ j
  · have hd : 2 ^ e ∣ k * 2 ^ j := Dvd.dvd.mul_left (Nat.pow_dvd_pow 2 hej) k
    calc k * 2 ^ j = (k * 2 ^ j) / 2 ^ e * 2 ^ e := (Nat.div_mul_cancel hd).symm
      _ ≤ m / 2 ^ e * 2 ^ e := Nat.mul_le_mul_right _ (Nat.div_le_div_right h)
  · have hm : m ≠ 0 := by
      rintro rfl
      simp at he
      omega
    have hlog : 52 + e = Nat.log2 m := by omega
    have hq : 2 ^ 52 ≤ m / 2 ^ e := by
      rw [Nat.le_div_iff_mul_le (Nat.two_pow_pos e), ← pow_add, hlog]
      exact Nat.log2_self_le hm
    calc k * 2 ^ j ≤ 2 ^ 53 * 2 ^ j := Nat.mul_le_mul_right _ hk
      _ = 2 ^ 52 * 2 ^ (j + 1) := by ring
      _ ≤ 2 ^ 52 * 2 ^ e := Nat.mul_le_mul_left _ (Nat.pow_le_pow_right (by omega) (by omega))
      _ ≤ m / 2 ^ e * 2 ^ e := Nat.mul_le_mul_right _ hq

/-- Between `2 ^ 62` and `2 ^ 63` the representable numbers are the multiples of 1024. -/
theorem roundNat_top {m : ℕ} (h : 2 ^ 62 ≤ m) (h' : m < 2 ^ 63) :
    roundNat m = if 1024 < 2 * (m % 1024) ∨ (2 * (m % 1024) = 1024 ∧ m / 1024 % 2 = 1)
      then (m / 1024 + 1) * 1024 else m / 1024 * 1024 := by
  unfold roundNat
  rw [log2_sub m 10 (by omega) h h']
  norm_num

theorem roundNat_ge_top {m : ℕ} (h : 2 ^ 63 - 512 ≤ m) : 2 ^ 63 ≤ roundNat m := by
  by_cases hm : 2 ^ 63 ≤ m
  · simpa using le_roundNat (m := m) (k := 1) (j := 63) (by norm_num) (by simpa using hm)
  · rw [roundNat_top (by omega) (by omega), if_pos (by omega)]
    omega

theorem roundNat_add_ge {a b : ℕ} (hba : b ≤ a) (ha : a < 2 ^ 63) (h : 2 ^ 63 ≤ a + b) :
    2 ^ 63 - 512 ≤ roundNat a + roundNat b := by
  obtain ⟨q, hq, hlo, hq52⟩ : ∃ q, roundNat a = 1024 * q ∧ a ≤ 1024 * q + 512 ∧ 2 ^ 52 ≤ q := by
    rw [roundNat_top (by omega) ha]
    split_ifs with hc
    · exact ⟨a / 1024 + 1, by ring, by omega, by omega⟩
    · exact ⟨a / 1024, by ring, by omega, by omega⟩
  by_cases hq53 : 2 ^ 53 ≤ q
  · omega
  · have hb := le_roundNat (m := b) (k := 2 * (2 ^ 53 - q) - 1) (j := 9) (by omega) (by omega)
    omega

/-- A sum past the largest 64-bit integer is stored as a number past it. -/
theorem le_val_add {a b : ℤ} (ha : InRange a) (hb : InRange b) (h : 2 ^ 63 ≤ a + b) :
    2 ^ 63 ≤ (add a b).val := by
  unfold InRange at ha hb
  have hsum : (2 : ℤ) ^ 63 - 512 ≤ toDouble a + toDouble b := by
    unfold toDouble
    rw [if_neg (by omega), if_neg (by omega)]
    have hcomm : 2 ^ 63 - 512 ≤ roundNat a.natAbs + roundNat b.natAbs := by
      rcases le_total b.natAbs a.natAbs with hle | hle
      · exact roundNat_add_ge hle (by omega) (by omega)
      · rw [Nat.add_comm]
        exact roundNat_add_ge hle (by omega) (by omega)
    omega
  have hr : ¬ InRange (a + b) := fun hr ↦ absurd hr.2 (by omega)
  rw [add, if_neg hr, Number.val]
  generalize toDouble a + toDouble b = c at hsum
  have hc := roundNat_ge_top (m := c.natAbs) (by omega)
  rw [toDouble, if_neg (by omega)]
  exact_mod_cast hc

end Numeric
