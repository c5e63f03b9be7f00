/-!
# The digits of a natural number

Dividing by the base once for every digit takes a time that grows with the square of
the number of digits, since every division goes over all that is left.  The digits
are found faster by halves: divide by a power of the base with about half as many
digits, and find the digits of the quotient and of the remainder in the same way.

The powers are those that come from the base by squaring (`rung`), the greatest
first, and as many of them as do not exceed the number (`ladder`, `powersUpTo`).  A
remainder stands behind other digits, so it is written with its leading zeros
(`trailing`); a quotient that stands first is written without (`leading`).

The digits are the usual ones (`digits_eq_toDigits`).
-/

namespace ThreadedForth
namespace Number
namespace Positional

/-- The powers that come from `power` by squaring, the greatest first and before
`lower`, as far as they do not exceed `n`.  There are no more than `count`. -/
def powersUpTo (n : Nat) : (count : Nat) → (power : Nat) → (lower : List Nat) → List Nat
  | 0, _, lower => lower
  | count + 1, power, lower =>
    if n < power then lower else powersUpTo n count (power * power) (power :: lower)

/-- The digits of a number before the digits `rest`, with leading zeros. -/
def trailing : (powers : List Nat) → (n : Nat) → (rest : List Char) → List Char
  | [], n, rest => n.digitChar :: rest
  | p :: powers, n, rest => trailing powers (n / p) (trailing powers (n % p) rest)

/-- The digits of a number before the digits `rest`, without leading zeros. -/
def leading : (powers : List Nat) → (n : Nat) → (rest : List Char) → List Char
  | [], n, rest => n.digitChar :: rest
  | p :: powers, n, rest =>
    if n < p then leading powers n rest
    else leading powers (n / p) (trailing powers (n % p) rest)

/-- The digits of a number. -/
def digits (base n : Nat) : List Char := leading (powersUpTo n n base []) n []

/-! ## The powers -/

/-- The base squared `k` times over. -/
def rung (base : Nat) : (k : Nat) → Nat
  | 0 => base
  | k + 1 => rung base k * rung base k

/-- The first `k` rungs, the greatest first. -/
def ladder (base : Nat) : (k : Nat) → List Nat
  | 0 => []
  | k + 1 => rung base k :: ladder base k

/-- The rungs pass every number. -/
theorem lt_rung {base : Nat} (large : 1 < base) : ∀ k : Nat, k + 1 < rung base k
  | 0 => large
  | k + 1 => by
    have below := lt_rung large k
    have square : 2 * rung base k ≤ rung base k * rung base k :=
      Nat.mul_le_mul_right _ (by omega)
    rw [rung]
    omega

/-- Squaring goes on until a rung passes the number, if it may go on so long. -/
theorem powersUpTo_eq_ladder (base n : Nat) : ∀ count start : Nat,
    n < rung base (start + count) →
      ∃ k, powersUpTo n count (rung base start) (ladder base start) = ladder base k ∧
        n < rung base k
  | 0, start, h => ⟨start, rfl, h⟩
  | count + 1, start, h => by
    rw [powersUpTo]
    split
    · next small => exact ⟨start, rfl, small⟩
    · exact powersUpTo_eq_ladder base n count (start + 1)
        (by rwa [show start + 1 + count = start + (count + 1) by omega])

/-! ## Digits with leading zeros -/

/-- A one that is followed by `width` zeros. -/
def unit (base : Nat) : (width : Nat) → Nat
  | 0 => 1
  | width + 1 => unit base width * base

/-- The last `width` digits of a number. -/
def padded (base : Nat) : (width n : Nat) → List Char
  | 0, _ => []
  | width + 1, n => padded base width (n / base) ++ [(n % base).digitChar]

/-- The number of zeros of a rung. -/
def zeros : (k : Nat) → Nat
  | 0 => 1
  | k + 1 => zeros k + zeros k

theorem unit_add (base v : Nat) : ∀ w : Nat, unit base (v + w) = unit base v * unit base w
  | 0 => by simp [unit]
  | w + 1 => by rw [← Nat.add_assoc, unit, unit_add base v w, unit, Nat.mul_assoc]

theorem unit_zeros (base : Nat) : ∀ k : Nat, unit base (zeros k) = rung base k
  | 0 => by simp [zeros, unit, rung]
  | k + 1 => by rw [zeros, unit_add, unit_zeros base k, rung]

/-- The last digits are those of the quotient followed by those of the remainder. -/
theorem padded_add (base v : Nat) : ∀ w n : Nat,
    padded base (v + w) n = padded base v (n / unit base w) ++ padded base w (n % unit base w)
  | 0, n => by simp [padded, unit]
  | w + 1, n => by
    have last : n % (unit base w * base) % base = n % base :=
      Nat.mod_mod_of_dvd n (Nat.dvd_mul_left _ _)
    rw [← Nat.add_assoc, padded, padded_add base v w, padded, unit,
      Nat.div_div_eq_div_mul, Nat.mul_comm base (unit base w), last,
      Nat.mod_mul_left_div_self, List.append_assoc]

theorem trailing_ladder (base : Nat) : ∀ (k n : Nat) (rest : List Char),
    n < rung base k → trailing (ladder base k) n rest = padded base (zeros k) n ++ rest
  | 0, n, rest, h => by
    simp [ladder, trailing, zeros, padded, Nat.mod_eq_of_lt (show n < base from h)]
  | k + 1, n, rest, h => by
    rw [rung] at h
    rw [ladder, trailing, trailing_ladder base k _ _ (Nat.mod_lt _ (Nat.pos_of_lt_mul_left h)),
      trailing_ladder base k _ _ (Nat.div_lt_of_lt_mul h), zeros, padded_add, unit_zeros,
      List.append_assoc]

/-! ## Digits without leading zeros -/

/-- The digits of a number are those of its quotient by a power of the base, followed by
the last ones. -/
theorem toDigits_eq_append_padded {base : Nat} (large : 1 < base) : ∀ w n : Nat,
    0 < n / unit base w →
      Nat.toDigits base n =
        Nat.toDigits base (n / unit base w) ++ padded base w (n % unit base w)
  | 0, n, _ => by simp [padded, unit]
  | w + 1, n, h => by
    rw [unit, Nat.mul_comm, ← Nat.div_div_eq_div_mul] at h
    have positive : 0 < n / base := Nat.pos_of_ne_zero fun zero => by simp [zero] at h
    have below : n % base < base := Nat.mod_lt n (by omega)
    have last : n % (unit base w * base) % base = n % base :=
      Nat.mod_mod_of_dvd n (Nat.dvd_mul_left _ _)
    have split := Nat.toDigits_append_toDigits large positive below
    rw [Nat.div_add_mod, Nat.toDigits_of_lt_base below] at split
    rw [← split, toDigits_eq_append_padded large w _ h, padded, unit,
      Nat.div_div_eq_div_mul, Nat.mul_comm base (unit base w), last,
      Nat.mod_mul_left_div_self, List.append_assoc]

theorem leading_ladder {base : Nat} (large : 1 < base) : ∀ (k n : Nat) (rest : List Char),
    n < rung base k → leading (ladder base k) n rest = Nat.toDigits base n ++ rest
  | 0, n, rest, h => by
    simp [ladder, leading, Nat.toDigits_of_lt_base (show n < base from h)]
  | k + 1, n, rest, h => by
    rw [rung] at h
    rw [ladder, leading]
    split
    · next small => exact leading_ladder large k n rest small
    · next reaches =>
      have positive : 0 < rung base k := Nat.pos_of_lt_mul_left h
      have whole := toDigits_eq_append_padded large (zeros k) n
        (by rw [unit_zeros]; exact Nat.div_pos (by omega) positive)
      rw [trailing_ladder base k _ _ (Nat.mod_lt n positive),
        leading_ladder large k _ _ (Nat.div_lt_of_lt_mul h), whole, unit_zeros,
        List.append_assoc]

/-- The digits of a number are its digits in the usual sense. -/
theorem digits_eq_toDigits {base : Nat} (large : 1 < base) (n : Nat) :
    digits base n = Nat.toDigits base n := by
  have passes : n < rung base (0 + n) := by
    have := lt_rung large n
    rw [Nat.zero_add]
    omega
  obtain ⟨k, powers, reaches⟩ := powersUpTo_eq_ladder base n n 0 passes
  rw [rung, ladder] at powers
  rw [digits, powers, leading_ladder large k n [] reaches, List.append_nil]

end Positional
end Number
end ThreadedForth
