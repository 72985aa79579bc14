import Mathlib.Tactic.Ring
import Std.Data.ExtTreeMap
/-!
# BigEndian — numbers as bytes of a fixed width

The bytes of a number, the most significant one first.  A number that fits reads back from its bytes
(`decode_encode`), and the order of the numbers is the order of their bytes (`compare_encode`).
-/
namespace BigEndian

/-- The `w` last digits of a number to the base of 256. -/
def encode : (w n : Nat) → List UInt8
  | 0, _ => []
  | w + 1, n => UInt8.ofNat (n / 256 ^ w) :: encode w n

def decode : List UInt8 → Nat
  | [] => 0
  | b :: bs => b.toNat * 256 ^ bs.length + decode bs

@[simp] theorem length_encode : ∀ w n : Nat, (encode w n).length = w
  | 0, _ => rfl
  | w + 1, n => by rw [encode, List.length_cons, length_encode]

theorem toNat_digit (w n : Nat) : (UInt8.ofNat (n / 256 ^ w)).toNat = n / 256 ^ w % 256 := UInt8.toNat_ofNat'

theorem decode_encode_mod : ∀ w n : Nat, decode (encode w n) = n % 256 ^ w
  | 0, n => by rw [encode, decode, Nat.pow_zero, Nat.mod_one]
  | w + 1, n => by
    rw [encode, decode, length_encode, decode_encode_mod, toNat_digit, Nat.mod_pow_succ, Nat.add_comm, Nat.mul_comm]

theorem decode_encode {w n : Nat} (h : n < 256 ^ w) : decode (encode w n) = n := by
  rw [decode_encode_mod, Nat.mod_eq_of_lt h]

theorem encode_injective {w m n : Nat} (hm : m < 256 ^ w) (hn : n < 256 ^ w) (h : encode w m = encode w n) : m = n := by
  rw [← decode_encode hm, h, decode_encode hn]

/-- Only the digits that there is room for are kept. -/
theorem encode_add : ∀ w n m : Nat, encode w (n + m * 256 ^ w) = encode w n
  | 0, _, _ => rfl
  | w + 1, n, m => by
    have hpow : m * 256 ^ (w + 1) = m * 256 * 256 ^ w := by rw [Nat.pow_succ]; ring
    have hdigit : UInt8.ofNat ((n + m * 256 * 256 ^ w) / 256 ^ w) = UInt8.ofNat (n / 256 ^ w) := by
      rw [← UInt8.toNat_inj, toNat_digit, toNat_digit, Nat.add_mul_div_right _ _ (Nat.pow_pos (by decide)),
        Nat.add_mul_mod_self_right]
    rw [encode, encode, hpow, hdigit, encode_add]

theorem encode_mod (w n : Nat) : encode w (n % 256 ^ w) = encode w n := by
  rw [← encode_add w (n % 256 ^ w) (n / 256 ^ w), Nat.mul_comm, Nat.mod_add_div]

theorem compare_encode_mod : ∀ {w m n : Nat}, m % 256 ^ w < n % 256 ^ w → compare (encode w m) (encode w n) = .lt
  | 0, m, n, h => by
    rw [Nat.pow_zero, Nat.mod_one, Nat.mod_one] at h
    omega
  | w + 1, m, n, h => by
    rw [Nat.mod_pow_succ, Nat.mod_pow_succ] at h
    rw [encode, encode, List.compare_cons_cons]
    have hpos : 0 < 256 ^ w := Nat.pow_pos (by decide)
    have hm := Nat.mod_lt m hpos
    have hn := Nat.mod_lt n hpos
    rcases Nat.lt_trichotomy (m / 256 ^ w % 256) (n / 256 ^ w % 256) with hlt | heq | hgt
    · have hdigit : UInt8.ofNat (m / 256 ^ w) < UInt8.ofNat (n / 256 ^ w) := by
        rw [UInt8.lt_iff_toNat_lt, toNat_digit, toNat_digit]
        exact hlt
      rw [Std.compare_eq_lt.2 hdigit]
      rfl
    · have hdigit : UInt8.ofNat (m / 256 ^ w) = UInt8.ofNat (n / 256 ^ w) := by
        rw [← UInt8.toNat_inj, toNat_digit, toNat_digit]
        exact heq
      rw [hdigit, Std.compare_self]
      rw [heq] at h
      exact compare_encode_mod (Nat.lt_of_add_lt_add_right h)
    · have hmul := Nat.mul_le_mul_left (256 ^ w) hgt
      rw [Nat.mul_succ] at hmul
      omega

/-- **The order of numbers is the order of their bytes.** -/
theorem compare_encode {w m n : Nat} (hm : m < 256 ^ w) (hn : n < 256 ^ w) :
    compare (encode w m) (encode w n) = compare m n := by
  have hlt : ∀ {a b : Nat}, a < b → b < 256 ^ w → compare (encode w a) (encode w b) = .lt := fun hab hb =>
    compare_encode_mod (by rw [Nat.mod_eq_of_lt hb, Nat.mod_eq_of_lt (Nat.lt_trans hab hb)]; exact hab)
  rcases Nat.lt_trichotomy m n with h | rfl | h
  · rw [hlt h hn, Nat.compare_eq_lt.2 h]
  · rw [Std.compare_self, Std.compare_self]
  · rw [Std.OrientedOrd.eq_swap, hlt h hm, Nat.compare_eq_gt.2 h]
    rfl

end BigEndian
