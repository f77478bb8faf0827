import Mathlib.Tactic.Common

/-!
# Lib.Base64

Base64 without padding: `decode` is a left inverse of `encode`, whose length depends on that of the
bytes alone.
-/

namespace Lib
namespace Base64

def alphabet : List Char :=
  "ABCDEFGHIJKLMNOPQRSTUVWXYZabcdefghijklmnopqrstuvwxyz0123456789+/".toList

def digit (n : Nat) : Char := alphabet.getD n 'A'

def value (c : Char) : Nat := alphabet.idxOf c

def encode : List UInt8 → List Char
  | a :: b :: c :: rest =>
    digit (a.toNat / 4) :: digit (a.toNat % 4 * 16 + b.toNat / 16) ::
      digit (b.toNat % 16 * 4 + c.toNat / 64) :: digit (c.toNat % 64) :: encode rest
  | [a, b] =>
    [digit (a.toNat / 4), digit (a.toNat % 4 * 16 + b.toNat / 16), digit (b.toNat % 16 * 4)]
  | [a] => [digit (a.toNat / 4), digit (a.toNat % 4 * 16)]
  | [] => []

def decode : List Char → List UInt8
  | a :: b :: c :: d :: rest =>
    .ofNat (value a * 4 + value b / 16) :: .ofNat (value b % 16 * 16 + value c / 4) ::
      .ofNat (value c % 4 * 64 + value d) :: decode rest
  | [a, b, c] =>
    [.ofNat (value a * 4 + value b / 16), .ofNat (value b % 16 * 16 + value c / 4)]
  | [a, b] => [.ofNat (value a * 4 + value b / 16)]
  | _ => []

theorem value_digit {n : Nat} (h : n < 64) : value (digit n) = n := by
  have hall : ∀ m : Fin 64, value (digit m) = m := by decide +kernel
  exact hall ⟨n, h⟩

theorem ofNat_of_eq {a : UInt8} {n : Nat} (h : n = a.toNat) : UInt8.ofNat n = a := by
  rw [h, UInt8.ofNat_toNat]

theorem decode_encode (bytes : List UInt8) : decode (encode bytes) = bytes := by
  induction bytes using encode.induct with
  | case1 a b c rest ih =>
    have ha := a.toNat_lt
    have hb := b.toNat_lt
    have hc := c.toNat_lt
    rw [encode, decode, ih, value_digit (by omega), value_digit (by omega), value_digit (by omega),
      value_digit (by omega)]
    rw [ofNat_of_eq (a := a) (by omega), ofNat_of_eq (a := b) (by omega),
      ofNat_of_eq (a := c) (by omega)]
  | case2 a b =>
    have ha := a.toNat_lt
    have hb := b.toNat_lt
    rw [encode, decode, value_digit (by omega), value_digit (by omega), value_digit (by omega)]
    rw [ofNat_of_eq (a := a) (by omega), ofNat_of_eq (a := b) (by omega)]
  | case3 a =>
    have ha := a.toNat_lt
    rw [encode, decode, value_digit (by omega), value_digit (by omega)]
    rw [ofNat_of_eq (a := a) (by omega)]
  | case4 => rfl

theorem length_encode (bytes : List UInt8) : (encode bytes).length = (bytes.length * 4 + 2) / 3 := by
  induction bytes using encode.induct with
  | case1 a b c rest ih =>
    simp only [encode, List.length_cons, ih]
    omega
  | case2 a b => simp [encode]
  | case3 a => simp [encode]
  | case4 => rfl

end Base64
end Lib
