import Mathlib.Tactic.Ring

/- Numbers as bytes, the least significant byte first. -/
namespace MdCrdt.Lib

/-- The `n` lowest bytes of a number. -/
def toLeBytes : Nat → Nat → List UInt8
  | 0, _ => []
  | n + 1, v => UInt8.ofNat v :: toLeBytes n (v / 256)

def fromLeBytes : List UInt8 → Nat
  | [] => 0
  | b :: rest => b.toNat + 256 * fromLeBytes rest

@[simp] theorem length_toLeBytes (n v) : (toLeBytes n v).length = n := by
  induction n generalizing v with
  | zero => rfl
  | succ n ih => simp [toLeBytes, ih]

theorem fromLeBytes_toLeBytes (h : v < 256 ^ n) : fromLeBytes (toLeBytes n v) = v := by
  induction n generalizing v with
  | zero =>
    rw [pow_zero] at h
    rw [toLeBytes, fromLeBytes]
    omega
  | succ n ih =>
    have hq : v / 256 < 256 ^ n := by
      rw [pow_succ] at h
      omega
    have hb : (UInt8.ofNat v).toNat = v % 256 := UInt8.toNat_ofNat'
    rw [toLeBytes, fromLeBytes, ih hq, hb]
    omega

theorem toLeBytes_fromLeBytes (l) : toLeBytes l.length (fromLeBytes l) = l := by
  induction l with
  | nil => rfl
  | cons b rest ih =>
    have hb : b.toNat < 256 := b.toNat_lt
    have hlow : UInt8.ofNat (b.toNat + 256 * fromLeBytes rest) = b :=
      UInt8.toNat_inj.mp (by rw [UInt8.toNat_ofNat']; omega)
    have hhigh : (b.toNat + 256 * fromLeBytes rest) / 256 = fromLeBytes rest := by omega
    rw [List.length_cons, fromLeBytes, toLeBytes, hlow, hhigh, ih]

end MdCrdt.Lib
