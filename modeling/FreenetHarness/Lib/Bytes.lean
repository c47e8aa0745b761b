import Mathlib.Data.Nat.Digits.Defs
import FreenetHarness.Lib.Number

/-! # Integers as bytes

The low byte first, in a fixed number of bytes, and back. -/
namespace FreenetHarness.Lib.Number

/-- The `w` low bytes of a number, lowest first. -/
def leBytes (w n : Nat) : List UInt8 := (List.range w).map fun k => UInt8.ofNat (n / 256 ^ k)

/-- The number that bytes stand for, lowest first. -/
def ofLeBytes (bs : List UInt8) : Nat := Nat.ofDigits 256 (bs.map UInt8.toNat)

@[simp] theorem leBytes_length (w n : Nat) : (leBytes w n).length = w := by simp [leBytes]

theorem toLeBytes_eq (n : UInt64) : toLeBytes n = leBytes 8 n.toNat := rfl

theorem ofLeBytes_leBytes (w n : Nat) : ofLeBytes (leBytes w n) = n % 256 ^ w := by
  induction w with
  | zero => simp [leBytes, ofLeBytes, Nat.mod_one]
  | succ w ih =>
    have hlast : leBytes (w + 1) n = leBytes w n ++ [UInt8.ofNat (n / 256 ^ w)] := by
      simp [leBytes, List.range_succ]
    have hbyte : (UInt8.ofNat (n / 256 ^ w)).toNat = n / 256 ^ w % 256 := by simp
    rw [hlast, ofLeBytes, List.map_append, Nat.ofDigits_append, List.map_singleton,
      Nat.ofDigits_singleton, List.length_map, leBytes_length, hbyte, Nat.mod_pow_succ]
    exact congrArg (· + _) ih

theorem ofLeBytes_toLeBytes (n : UInt64) : ofLeBytes (toLeBytes n) = n.toNat := by
  rw [toLeBytes_eq, ofLeBytes_leBytes]
  exact Nat.mod_eq_of_lt n.toNat_lt

end FreenetHarness.Lib.Number
