import QwenHarness.Storage.Secrets

/-!
# Reading base64

A sign of either alphabet stands for six bits. What is no sign is passed over, the padding too. What
was written is read back.
-/

namespace QwenHarness

open Utf16

/-- The six bits of a sign. -/
def base64Value (u : CodeUnit) : Option ℕ :=
  (List.range 64).find? fun n ↦
    base64Sign (0x2B, 0x2F) n == u || base64Sign (0x2D, 0x5F) n == u

/-- Four signs are three bytes. -/
def base64Bytes : List ℕ → List UInt8
  | w :: x :: y :: z :: rest =>
    UInt8.ofNat (w * 4 + x / 16) :: UInt8.ofNat (x % 16 * 16 + y / 4) ::
      UInt8.ofNat (y % 4 * 64 + z) :: base64Bytes rest
  | [w, x, y] => [UInt8.ofNat (w * 4 + x / 16), UInt8.ofNat (x % 16 * 16 + y / 4)]
  | [w, x] => [UInt8.ofNat (w * 4 + x / 16)]
  | _ => []

/-- `Buffer.from(text, 'base64')`. -/
def fromBase64 (text : Text) : List UInt8 := base64Bytes (text.filterMap base64Value)

/-- `buffer.toString('base64')`. -/
def toBase64 (bs : List UInt8) : Text := base64With (0x2B, 0x2F) [0x3D] bs

theorem base64Value_sign {n : ℕ} (h : n < 64) :
    base64Value (base64Sign (0x2B, 0x2F) n) = some n := by
  have hall : (List.range 64).all (fun n ↦
      base64Value (base64Sign (0x2B, 0x2F) n) == some n) = true := by decide +kernel
  exact beq_iff_eq.mp (List.all_eq_true.mp hall n (List.mem_range.mpr h))

theorem base64Value_padding : base64Value 0x3D = none := by decide +kernel

theorem ofNat_eq_of_toNat {a : UInt8} {n : ℕ} (h : n = a.toNat) : UInt8.ofNat n = a := by
  rw [h, UInt8.ofNat_toNat]

/-- **What was written is read back.** -/
theorem fromBase64_toBase64 (bs : List UInt8) : fromBase64 (toBase64 bs) = bs := by
  have hsign : ∀ {n : ℕ}, n < 64 → base64Value (base64Sign (0x2B, 0x2F) n) = some n :=
    base64Value_sign
  rw [toBase64]
  induction bs using base64With.induct with
  | case1 a b c rest ih =>
    have ha := a.toNat_lt
    have hb := b.toNat_lt
    have hc := c.toNat_lt
    rw [base64With, fromBase64, List.filterMap_append, List.filterMap_cons_some (hsign (by omega)),
      List.filterMap_cons_some (hsign (by omega)), List.filterMap_cons_some (hsign (by omega)),
      List.filterMap_cons_some (hsign (by omega)), List.filterMap_nil]
    change UInt8.ofNat _ :: UInt8.ofNat _ :: UInt8.ofNat _ :: fromBase64 _ = _
    rw [ih, ofNat_eq_of_toNat (a := a) (by omega), ofNat_eq_of_toNat (a := b) (by omega),
      ofNat_eq_of_toNat (a := c) (by omega)]
  | case2 a b =>
    have ha := a.toNat_lt
    have hb := b.toNat_lt
    rw [base64With, fromBase64, List.filterMap_append, List.filterMap_cons_some (hsign (by omega)),
      List.filterMap_cons_some (hsign (by omega)), List.filterMap_cons_some (hsign (by omega)),
      List.filterMap_nil, List.filterMap_cons_none base64Value_padding, List.filterMap_nil]
    change [UInt8.ofNat _, UInt8.ofNat _] = _
    rw [ofNat_eq_of_toNat (a := a) (by omega), ofNat_eq_of_toNat (a := b) (by omega)]
  | case3 a =>
    have ha := a.toNat_lt
    rw [base64With, fromBase64, List.append_assoc, List.filterMap_append,
      List.filterMap_cons_some (hsign (by omega)), List.filterMap_cons_some (hsign (by omega)),
      List.filterMap_nil, List.singleton_append, List.filterMap_cons_none base64Value_padding,
      List.filterMap_cons_none base64Value_padding, List.filterMap_nil]
    change [UInt8.ofNat _] = _
    rw [ofNat_eq_of_toNat (a := a) (by omega)]
  | case4 => rfl

end QwenHarness
