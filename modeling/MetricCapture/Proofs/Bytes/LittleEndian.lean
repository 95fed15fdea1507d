import MetricCapture.Bytes.Order
import MetricCapture.Number.Core
/-! Numbers of a fixed count of bytes are read as they were written, and written as they were
read. -/
namespace MetricCapture.Bytes

@[simp] theorem length_little (width n : Nat) : (little width n).length = width := by
  induction width generalizing n with
  | zero => rfl
  | succ width ih => simp [little, ih]

theorem ofLittle_lt {bs : Bytes} {width : Nat} (h : bs.length = width) :
    ofLittle bs < 256 ^ width := by
  subst h
  induction bs with
  | nil => simp [ofLittle]
  | cons b bs ih =>
    have hb := b.toNat_lt
    rw [ofLittle, List.length_cons, Nat.pow_succ]
    omega

theorem ofLittle_little {width n : Nat} (h : n < 256 ^ width) : ofLittle (little width n) = n := by
  induction width generalizing n with
  | zero =>
    simp only [Nat.pow_zero] at h
    rw [little, ofLittle]
    omega
  | succ width ih =>
    have hd : n / 256 < 256 ^ width := by
      rw [Nat.pow_succ] at h
      exact Nat.div_lt_of_lt_mul (by omega)
    have hm : (UInt8.ofNat (n % 256)).toNat = n % 256 := by
      rw [UInt8.toNat_ofNat']
      exact Nat.mod_mod n 256
    rw [little, ofLittle, ih hd, hm]
    omega

theorem little_ofLittle {bs : Bytes} {width : Nat} (h : bs.length = width) :
    little width (ofLittle bs) = bs := by
  subst h
  induction bs with
  | nil => rfl
  | cons b bs ih =>
    have hb := b.toNat_lt
    have hd : (b.toNat + 256 * ofLittle bs) / 256 = ofLittle bs := by omega
    have hm : UInt8.ofNat ((b.toNat + 256 * ofLittle bs) % 256) = b := by
      rw [show (b.toNat + 256 * ofLittle bs) % 256 = b.toNat by omega]
      exact UInt8.ofNat_toNat
    rw [List.length_cons, ofLittle, little, hd, hm, ih]

theorem ofLittle_eq_zero_iff (bs : Bytes) : ofLittle bs = 0 ↔ bs = List.replicate bs.length 0 := by
  induction bs with
  | nil => simp [ofLittle]
  | cons b bs ih =>
    have hb : b.toNat = 0 ↔ b = 0 := by rw [← UInt8.toNat_inj]; rfl
    rw [ofLittle, List.length_cons, List.replicate_succ, List.cons.injEq, ← ih, ← hb]
    omega

def Signed64 (n : Int) : Prop := -0x8000000000000000 ≤ n ∧ n < 0x8000000000000000

instance (n : Int) : Decidable (Signed64 n) := inferInstanceAs (Decidable (_ ∧ _))

theorem wrap64_lt (n : Int) : wrap64 n < 256 ^ (8 : Nat) := by
  unfold wrap64
  omega

theorem unwrap64_wrap64 {n : Int} (h : Signed64 n) : unwrap64 (wrap64 n) = n := by
  obtain ⟨hl, hu⟩ := h
  unfold unwrap64 wrap64
  split <;> omega

theorem wrap64_unwrap64 {n : Nat} (h : n < 256 ^ (8 : Nat)) : wrap64 (unwrap64 n) = n := by
  unfold unwrap64 wrap64
  split <;> omega

theorem unwrap64_signed {n : Nat} (h : n < 256 ^ (8 : Nat)) : Signed64 (unwrap64 n) := by
  unfold unwrap64 Signed64
  split <;> omega

end MetricCapture.Bytes
