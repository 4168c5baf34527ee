import Mathlib.Data.List.Basic

/-! Base64 with its standard alphabet and padding. -/
namespace Base64

def alphabet : List Char :=
  "ABCDEFGHIJKLMNOPQRSTUVWXYZabcdefghijklmnopqrstuvwxyz0123456789+/".toList

def digit (n : Nat) : Char := alphabet.getD n '='

def value (c : Char) : Nat := alphabet.idxOf c

def encode : List UInt8 → List Char
  | a :: b :: c :: rest =>
    digit (a.toNat / 4) :: digit (a.toNat % 4 * 16 + b.toNat / 16) ::
      digit (b.toNat % 16 * 4 + c.toNat / 64) :: digit (c.toNat % 64) :: encode rest
  | [a, b] =>
    [digit (a.toNat / 4), digit (a.toNat % 4 * 16 + b.toNat / 16), digit (b.toNat % 16 * 4), '=']
  | [a] => [digit (a.toNat / 4), digit (a.toNat % 4 * 16), '=', '=']
  | [] => []

def decode : List Char → List UInt8
  | p :: q :: r :: s :: rest =>
    let first := UInt8.ofNat (value p * 4 + value q / 16)
    let second := UInt8.ofNat (value q % 16 * 16 + value r / 4)
    if r = '=' then [first]
    else if s = '=' then [first, second]
    else first :: second :: UInt8.ofNat (value r % 4 * 64 + value s) :: decode rest
  | _ => []

theorem value_digit {n : Nat} (h : n < 64) : value (digit n) = n :=
  (by decide +kernel : ∀ n : Fin 64, value (digit n) = n) ⟨n, h⟩

theorem digit_ne_pad {n : Nat} (h : n < 64) : digit n ≠ '=' :=
  (by decide +kernel : ∀ n : Fin 64, digit n ≠ '=') ⟨n, h⟩

theorem ofNat_eq {n : Nat} {a : UInt8} (h : n = a.toNat) : UInt8.ofNat n = a := by
  rw [h, UInt8.ofNat_toNat]

theorem decode_encode (bytes : List UInt8) : decode (encode bytes) = bytes := by
  fun_induction encode bytes with
  | case1 a b c rest ih =>
    have ha := a.toNat_lt
    have hb := b.toNat_lt
    have hc := c.toNat_lt
    rw [decode, if_neg (digit_ne_pad (by omega)), if_neg (digit_ne_pad (by omega)), ih,
      value_digit (by omega), value_digit (by omega), value_digit (by omega), value_digit (by omega)]
    rw [ofNat_eq (a := a) (by omega), ofNat_eq (a := b) (by omega), ofNat_eq (a := c) (by omega)]
  | case2 a b =>
    have ha := a.toNat_lt
    have hb := b.toNat_lt
    rw [decode, if_neg (digit_ne_pad (by omega)), if_pos rfl, value_digit (by omega),
      value_digit (by omega), value_digit (by omega)]
    rw [ofNat_eq (a := a) (by omega), ofNat_eq (a := b) (by omega)]
  | case3 a =>
    have ha := a.toNat_lt
    rw [decode, if_pos rfl, value_digit (by omega), value_digit (by omega),
      ofNat_eq (a := a) (by omega)]
  | case4 => rfl

theorem digit_mem (n : Nat) : digit n ∈ '=' :: alphabet := by
  rw [digit, List.getD_eq_getElem?_getD]
  cases h : alphabet[n]? with
  | none => exact List.mem_cons_self
  | some c => exact List.mem_cons_of_mem _ (List.mem_of_getElem? h)

theorem mem_encode {bytes : List UInt8} {c : Char} (h : c ∈ encode bytes) : c ∈ '=' :: alphabet := by
  fun_induction encode bytes with
  | case1 a b d rest ih => grind [digit_mem]
  | case2 a b => grind [digit_mem]
  | case3 a => grind [digit_mem]
  | case4 => cases h

end Base64
