import Mathlib
/-!
Doubles that are finite. A rounded number has an exponent that is at most one larger than 53 bits
ask for. Main statements: a product of finite doubles that is not infinite is finite
(`isFinite_mul`), and a quotient by a double of at least two is finite (`isFinite_div`).
-/
namespace TickCircuit.Double
open Float.Model Float.Model.UnpackedFloat Format

theorem log2_div_two_pow (m k : Nat) : (m / 2 ^ k).log2 = m.log2 - k := by
  rw [Nat.log2_eq_log_two, Nat.log2_eq_log_two, Nat.log_div_base_pow]

theorem log2_le {m n : Nat} (h : m < 2 ^ (n + 1)) : m.log2 ≤ n := by
  by_cases hm : m = 0
  · rw [hm, Nat.log2_zero]
    exact Nat.zero_le n
  · exact Nat.le_of_lt_succ ((Nat.log2_lt hm).mpr h)

theorem log2_mono {m n : Nat} (h : m ≤ n) : m.log2 ≤ n.log2 :=
  log2_le (Nat.lt_of_le_of_lt h Nat.lt_log2_self)

theorem log2_div_le (m : Nat) {n : Nat} (hn : 0 < n) : (m / n).log2 ≤ m.log2 - n.log2 := by
  rw [← log2_div_two_pow]
  exact log2_mono (Nat.div_le_div_left (Nat.log2_self_le hn.ne') (Nat.two_pow_pos _))

theorem log2_shiftLeft_le (m k : Nat) : (m <<< k).log2 ≤ m.log2 + k := by
  refine log2_le ?_
  rw [Nat.shiftLeft_eq, Nat.add_right_comm, Nat.pow_add]
  exact Nat.mul_lt_mul_of_pos_right Nat.lt_log2_self (Nat.two_pow_pos k)

theorem mantissa_shiftRight (em : ExtendedMantissa) (k : Nat) :
    (em >>> k).mantissa = em.mantissa / 2 ^ k := by
  induction k with
  | zero => exact (Nat.div_one _).symm
  | succ k ih =>
    change (em >>> k).mantissa / 2 = _
    rw [ih, Nat.div_div_eq_div_mul, Nat.pow_succ]

/-- The number of bits that are dropped in favour of the exponent. -/
def dropped (m : Nat) (e : Int) : Nat := (binary64.targetExponent (totalExponent m e) - e).toNat

theorem dropped_eq (m : Nat) (e : Int) :
    dropped m e = (max ((m.log2 : Int) + e - 52) (-1074) - e).toNat := by
  simp only [dropped, targetExponent, totalExponent, mantissaBits, minExponent]
  omega

theorem mantissa_shiftToTargetExponent (m : Nat) (e : Int) (a : Accuracy) :
    (shiftToTargetExponent binary64 m e a).1.mantissa = m / 2 ^ dropped m e := by
  have hm : (ExtendedMantissa.ofMantissaAndAccuracy m a).mantissa = m := by
    cases a with
    | exact => rfl
    | inexact o => cases o <;> rfl
  exact (mantissa_shiftRight _ _).trans (by rw [hm]; rfl)

theorem roundedMantissa_cases (em : ExtendedMantissa) :
    em.roundedMantissa = em.mantissa ∨ em.roundedMantissa = em.mantissa + 1 := by
  obtain ⟨m, round, sticky⟩ := em
  cases round <;> cases sticky <;>
    simp [ExtendedMantissa.roundedMantissa, ExtendedMantissa.accuracy, Accuracy.roundToNearestEven]
  omega

/-- A number is rounded to the mantissa it has after bits are dropped or to the one above it. -/
theorem roundWithAccuracy_eq (s : Sign) (m : Nat) (e : Int) (a : Accuracy) :
    ∃ r, (r = m / 2 ^ dropped m e ∨ r = m / 2 ^ dropped m e + 1) ∧
      roundWithAccuracy binary64 s m e a =
        if h : r / 2 ^ dropped r (e + dropped m e) = 0 then .zero s
        else .finite s (r / 2 ^ dropped r (e + dropped m e))
          (e + dropped m e + dropped r (e + dropped m e)) (Nat.pos_of_ne_zero h) := by
  refine ⟨(shiftToTargetExponent binary64 m e a).1.roundedMantissa, ?_, ?_⟩
  · rw [← mantissa_shiftToTargetExponent m e a]
    exact roundedMantissa_cases _
  · simp only [roundWithAccuracy, mantissa_shiftToTargetExponent]
    rfl

theorem le_add_dropped (m : Nat) (e : Int) : -1074 ≤ e + dropped m e := by
  rw [dropped_eq]
  omega

theorem div_dropped_lt (m : Nat) (e : Int) : m / 2 ^ dropped m e < 2 ^ 53 := by
  rw [Nat.div_lt_iff_lt_mul (Nat.two_pow_pos _), ← Nat.pow_add]
  refine Nat.lt_of_lt_of_le Nat.lt_log2_self (Nat.pow_le_pow_right (by decide) ?_)
  rw [dropped_eq]
  omega

theorem dropped_le_one {r : Nat} {e : Int} (hr : r ≤ 2 ^ 53) (he : -1074 ≤ e) :
    dropped r e ≤ 1 := by
  have hlog : r.log2 ≤ 53 := log2_le (Nat.lt_of_le_of_lt hr (by decide))
  rw [dropped_eq]
  omega

theorem exponent_le {s s' : Sign} {m m' : Nat} {e e' : Int} {a : Accuracy} {hm' : 0 < m'}
    (h : roundWithAccuracy binary64 s m e a = .finite s' m' e' hm') :
    e' ≤ e + dropped m e + 1 := by
  obtain ⟨r, hr, hround⟩ := roundWithAccuracy_eq s m e a
  rw [hround] at h
  split at h
  · cases h
  · cases h
    have hlt := div_dropped_lt m e
    have hle := dropped_le_one (r := r) (by omega) (le_add_dropped m e)
    omega

theorem roundWithAccuracy_normal {m : Nat} {e : Int} (s : Sign) (a : Accuracy)
    (hm : 52 ≤ m.log2) (he : -1022 ≤ m.log2 + e) :
    ∃ m' e' hm', roundWithAccuracy binary64 s m e a = .finite s m' e' hm' ∧ m'.log2 = 52 ∧
      m.log2 + e ≤ 52 + e' ∧ 52 + e' ≤ m.log2 + e + 1 := by
  obtain ⟨r, hr, hround⟩ := roundWithAccuracy_eq s m e a
  have hdropped : (dropped m e : Int) = m.log2 - 52 := by
    rw [dropped_eq]
    omega
  have hfirst : (m / 2 ^ dropped m e).log2 = 52 := by
    rw [log2_div_two_pow]
    omega
  have hlow : 2 ^ 52 ≤ m / 2 ^ dropped m e := by
    rw [← hfirst]
    exact Nat.log2_self_le fun h => by simp [h] at hfirst
  have hhigh := div_dropped_lt m e
  have hlog : r.log2 = 52 ∨ r.log2 = 53 := by
    by_cases hr53 : r < 2 ^ 53
    · exact .inl ((Nat.log2_eq_iff (by omega)).mpr ⟨by omega, hr53⟩)
    · exact .inr ((Nat.log2_eq_iff (by omega)).mpr ⟨by omega, by omega⟩)
  have hagain : (dropped r (e + dropped m e) : Int) = r.log2 - 52 := by
    rw [dropped_eq]
    omega
  have hmantissa : (r / 2 ^ dropped r (e + dropped m e)).log2 = 52 := by
    rw [log2_div_two_pow]
    omega
  have hne : r / 2 ^ dropped r (e + dropped m e) ≠ 0 := fun h => by simp [h] at hmantissa
  rw [hround, dif_neg hne]
  exact ⟨_, _, Nat.pos_of_ne_zero hne, rfl, hmantissa, by omega, by omega⟩

theorem isFinite_unpack {b : BitVec 64} : (UnpackedFloat.unpack binary64 b).isFinite = true ↔
    @unpackExponent binary64 b ≠ -1#11 := by
  unfold UnpackedFloat.unpack
  dsimp only
  split
  next h =>
    split
    · exact iff_of_false nofun (not_not_intro h)
    · exact iff_of_false nofun (not_not_intro h)
  next h =>
    split
    · split
      · exact iff_of_true rfl h
      · exact iff_of_true rfl h
    · exact iff_of_true rfl h

theorem toNat_append_one (v : BitVec 52) : (1#1 ++ v).toNat = 2 ^ 52 + v.toNat := by
  rw [BitVec.toNat_append, ← Nat.shiftLeft_add_eq_or_of_lt v.isLt]
  rfl

theorem log2_append_one (v : BitVec 52) : (1#1 ++ v).toNat.log2 = 52 := by
  have hv := v.isLt
  rw [toNat_append_one]
  exact (Nat.log2_eq_iff (by omega)).mpr ⟨by omega, by omega⟩

theorem unpack_finite {b : BitVec 64} {s : Sign} {m : Nat} {e : Int} {hm : 0 < m}
    (h : UnpackedFloat.unpack binary64 b = .finite s m e hm) : m.log2 ≤ 52 ∧ e ≤ 971 := by
  have hexponent : @unpackExponent binary64 b ≠ -1#11 :=
    isFinite_unpack.mp (by rw [h]; rfl)
  have hmax : (@unpackExponent binary64 b).toNat ≠ 2047 := fun he =>
    hexponent (BitVec.eq_of_toNat_eq he)
  have hlt : (@unpackExponent binary64 b).toNat < 2048 := BitVec.isLt _
  unfold UnpackedFloat.unpack at h
  dsimp only at h
  rw [if_neg hexponent] at h
  split at h
  next hzero =>
    split at h
    · cases h
    · cases h
      refine ⟨log2_le (Nat.lt_of_lt_of_le (BitVec.isLt _) (by decide)), ?_⟩
      rw [hzero]
      decide
  next =>
    cases h
    refine ⟨(log2_append_one _).le, ?_⟩
    simp only [exponentBias]
    omega

theorem unpackExponent_pack {s : Sign} {m : Nat} {e : Int} {hm : 0 < m} (he : e ≤ 971) :
    unpackExponent (UnpackedFloat.pack binary64 (.finite s m e hm)) =
      if m.log2 = 52 then BitVec.ofNat 11 (e + 1075).toNat else 0#11 := by
  have hbias : (e + binary64.exponentBias + binary64.mantissaBitsWithoutImplicit).toNat =
      (e + 1075).toNat := by
    simp only [exponentBias]
    omega
  have hmax : ¬2 ^ binary64.exponentBits ≤ (e + 1075).toNat + 1 := by
    change ¬2 ^ 11 ≤ _
    omega
  simp only [UnpackedFloat.pack, hbias, if_neg hmax, mantissaBits]
  by_cases hlog : m.log2 = 52
  · rw [if_pos (by omega), if_pos hlog, unpackExponent_packComponents]
  · rw [if_neg (by omega), if_neg hlog, unpackExponent_packComponents]

/-- An exponent that is too large is packed as infinity. -/
theorem pack_of_lt {s : Sign} {m : Nat} {e : Int} {hm : 0 < m} (he : 971 < e) :
    UnpackedFloat.pack binary64 (.finite s m e hm) = packedInfinity binary64 s := by
  have hmax : 2 ^ binary64.exponentBits ≤
      (e + binary64.exponentBias + binary64.mantissaBitsWithoutImplicit).toNat + 1 := by
    simp only [exponentBias]
    omega
  exact if_pos hmax

theorem isFinite_pack_finite {s : Sign} {m : Nat} {e : Int} {hm : 0 < m} (he : e ≤ 971) :
    (Float.Model.pack (.finite s m e hm)).isFinite = true := by
  refine isFinite_unpack.mpr ?_
  change unpackExponent (UnpackedFloat.pack binary64 (.finite s m e hm)) ≠ _
  rw [unpackExponent_pack he]
  split
  · intro h
    have hnat := congrArg BitVec.toNat h
    rw [BitVec.toNat_ofNat, Nat.mod_eq_of_lt (by omega)] at hnat
    change _ = 2047 at hnat
    omega
  · decide

theorem isFinite_pack_zero (s : Sign) : (Float.Model.pack (.zero s)).isFinite = true := by
  cases s <;> rfl

theorem isInf_pack_infinity (s : Sign) : (Float.Model.pack (.infinity s)).isInf = true := by
  cases s <;> rfl

theorem unpack_pack_normal (s : Sign) {m : Nat} {e : Int} (hm : 0 < m) (hlog : m.log2 = 52)
    (hmin : -1074 ≤ e) (hmax : e ≤ 971) : ∃ s' m' hm',
      (Float.Model.pack (.finite s m e hm)).unpack = .finite s' m' e hm' ∧ m'.log2 = 52 := by
  have hexponent := @unpackExponent_pack s m e hm hmax
  rw [if_pos hlog] at hexponent
  have hnat : (BitVec.ofNat 11 (e + 1075).toNat).toNat = (e + 1075).toNat := by
    rw [BitVec.toNat_ofNat, Nat.mod_eq_of_lt (by omega)]
  have hne : ∀ {v : BitVec 11}, (e + 1075).toNat ≠ v.toNat → BitVec.ofNat 11 (e + 1075).toNat ≠ v :=
    fun h hv => h (hnat.symm.trans (congrArg BitVec.toNat hv))
  change ∃ s' m' hm', UnpackedFloat.unpack binary64 (UnpackedFloat.pack binary64 _) = _ ∧ _
  unfold UnpackedFloat.unpack
  dsimp only
  rw [hexponent, if_neg (hne (by change _ ≠ 2047; omega)),
    if_neg (hne (by change _ ≠ 0; omega)), hnat]
  have hback : (((e + 1075).toNat : Int) -
      (binary64.exponentBias + binary64.mantissaBitsWithoutImplicit)) = e := by
    simp only [exponentBias]
    omega
  simp only [hback]
  exact ⟨_, _, by rw [toNat_append_one]; omega, rfl, log2_append_one _⟩

/-! Operations on doubles. -/

theorem cases_of_isFinite {x : Float} (h : x.isFinite = true) :
    (∃ s, x.toModel.unpack = .zero s) ∨
      ∃ s m e hm, x.toModel.unpack = .finite s m e hm ∧ m.log2 ≤ 52 ∧ e ≤ 971 := by
  change x.toModel.unpack.isFinite = true at h
  cases hx : x.toModel.unpack with
  | notANumber => rw [hx] at h; cases h
  | infinity s => rw [hx] at h; cases h
  | zero s => exact .inl ⟨s, rfl⟩
  | finite s m e hm => exact .inr ⟨s, m, e, hm, rfl, unpack_finite hx⟩

theorem isFinite_neg {x : Float} (h : x.isFinite = true) : (-x).isFinite = true := by
  change (Float.Model.pack x.toModel.unpack.neg).isFinite = true
  obtain ⟨s, hx⟩ | ⟨s, m, e, hm, hx, -, he⟩ := cases_of_isFinite h
  · rw [hx]
    exact isFinite_pack_zero _
  · rw [hx]
    exact isFinite_pack_finite he

theorem isFinite_roundWithAccuracy {s : Sign} {m : Nat} {e : Int} {a : Accuracy} (he : e ≤ 970)
    (hm : m.log2 + e ≤ 1022) :
    (Float.Model.pack (roundWithAccuracy binary64 s m e a)).isFinite = true := by
  cases hround : roundWithAccuracy binary64 s m e a with
  | zero s => exact isFinite_pack_zero s
  | finite s' m' e' hm' =>
    refine isFinite_pack_finite ((exponent_le hround).trans ?_)
    rw [dropped_eq]
    omega
  | _ =>
    obtain ⟨r, -, h⟩ := roundWithAccuracy_eq s m e a
    rw [hround] at h
    split at h <;> cases h

theorem isFinite_round {s : Sign} {m : Nat} (hm : m < 2 ^ 64) :
    (Float.Model.pack (round binary64 s m 0)).isFinite = true := by
  have hlog : m.log2 ≤ 63 := log2_le hm
  have hshift := log2_shiftLeft_le m (0 - binary64.targetExponent (totalExponent m 0)).toNat
  exact isFinite_roundWithAccuracy (by omega) (by omega)

theorem isFinite_toFloat (n : UInt64) : n.toFloat.isFinite = true := by
  have hn : n.toNat < 2 ^ 64 := n.toNat_lt
  change (Float.Model.pack (UnpackedFloat.normalize binary64 n.toNat 0 .positive)).isFinite = true
  unfold UnpackedFloat.normalize
  split
  · exact isFinite_round (by omega)
  · exact isFinite_pack_zero _
  · exact isFinite_round (by omega)

theorem isFinite_or_isInf {f : UnpackedFloat} (h : f ≠ .notANumber) :
    (Float.Model.pack f).isFinite = true ∨ (Float.Model.pack f).isInf = true := by
  cases f with
  | notANumber => exact absurd rfl h
  | infinity s => exact .inr (isInf_pack_infinity s)
  | zero s => exact .inl (isFinite_pack_zero s)
  | finite s m e hm =>
    by_cases he : e ≤ 971
    · exact .inl (isFinite_pack_finite he)
    · refine .inr ?_
      change (UnpackedFloat.unpack binary64 (UnpackedFloat.pack binary64 _)).isInf = true
      rw [pack_of_lt (Int.not_le.mp he)]
      exact isInf_pack_infinity s

theorem roundWithAccuracy_ne_notANumber {s : Sign} {m : Nat} {e : Int} {a : Accuracy} :
    roundWithAccuracy binary64 s m e a ≠ .notANumber := by
  obtain ⟨r, -, hround⟩ := roundWithAccuracy_eq s m e a
  rw [hround]
  split <;> nofun

theorem isFinite_mul {x y : Float} (hx : x.isFinite = true) (hy : y.isFinite = true)
    (h : ¬(x * y).isInf = true) : (x * y).isFinite = true := by
  have hne : UnpackedFloat.mul binary64 x.toModel.unpack y.toModel.unpack ≠ .notANumber := by
    obtain ⟨s, hx⟩ | ⟨s, m, e, hm, hx, -⟩ := cases_of_isFinite hx <;>
      obtain ⟨t, hy⟩ | ⟨t, n, f, hn, hy, -⟩ := cases_of_isFinite hy <;> rw [hx, hy]
    · nofun
    · nofun
    · nofun
    · exact roundWithAccuracy_ne_notANumber
  exact (isFinite_or_isInf hne).resolve_right h

def isAtLeastTwo (x : Float) : Bool :=
  match x.toModel.unpack with
  | .finite _ m e _ => 1 ≤ m.log2 + e
  | _ => false

theorem isAtLeastTwo_iff {x : Float} : isAtLeastTwo x = true ↔
    ∃ s m e hm, x.toModel.unpack = .finite s m e hm ∧ 1 ≤ m.log2 + e := by
  unfold isAtLeastTwo
  cases x.toModel.unpack with
  | finite s m e hm =>
    refine decide_eq_true_iff.trans ⟨fun h => ⟨s, m, e, hm, rfl, h⟩, ?_⟩
    rintro ⟨_, _, _, _, ⟨⟩, h⟩
    exact h
  | _ => exact iff_of_false nofun fun ⟨_, _, _, _, h, _⟩ => nomatch h

theorem isFinite_of_isAtLeastTwo {x : Float} (h : isAtLeastTwo x = true) : x.isFinite = true := by
  obtain ⟨s, m, e, hm, hx, -⟩ := isAtLeastTwo_iff.mp h
  change x.toModel.unpack.isFinite = true
  rw [hx]
  rfl

theorem divCore_bounds {m n : Nat} {e f : Int} (hn : 0 < n) (hm : m.log2 + e ≤ 1023)
    (hn' : 1 ≤ n.log2 + f) : (divCore binary64 m e n f).2.1 ≤ 970 ∧
      (divCore binary64 m e n f).1.log2 + (divCore binary64 m e n f).2.1 ≤ 1022 := by
  have htarget : binary64.targetExponent (totalExponent m e - totalExponent n f) ≤ 969 := by
    simp only [targetExponent, totalExponent, mantissaBits, minExponent]
    omega
  simp only [divCore]
  generalize binary64.targetExponent (totalExponent m e - totalExponent n f) = target at htarget ⊢
  have hshift := log2_shiftLeft_le m (e - f - min (e - f) target).toNat
  have hdiv := log2_div_le (m <<< (e - f - min (e - f) target).toNat) hn
  exact ⟨by omega, by omega⟩

theorem isFinite_div {x y : Float} (hx : x.isFinite = true) (hy : isAtLeastTwo y = true) :
    (x / y).isFinite = true := by
  obtain ⟨t, n, f, hn, hy, hlog⟩ := isAtLeastTwo_iff.mp hy
  change (Float.Model.pack (UnpackedFloat.div binary64 x.toModel.unpack y.toModel.unpack)).isFinite =
    true
  obtain ⟨s, hx⟩ | ⟨s, m, e, hm, hx, hm52, he⟩ := cases_of_isFinite hx
  · rw [hx, hy]
    exact isFinite_pack_zero _
  · rw [hx, hy]
    obtain ⟨hexponent, hquotient⟩ := divCore_bounds (m := m) (e := e) hn (by omega) hlog
    exact isFinite_roundWithAccuracy hexponent hquotient

theorem toModel_ofScientific {n : Nat} (hn : 22 < n) (hmax : n ≤ 2048) :
    (Float.ofScientific 1 false n).toModel = Float.Model.pack
      (roundWithAccuracy binary64 (.positive * .positive) (1 <<< 53 * 10 ^ n) (-53 + 0) .exact) := by
  rw [Float.ofScientific, dif_neg (by omega)]
  change Float.Model.pack (UnpackedFloat.ofScientific binary64 1 n) = _
  rw [UnpackedFloat.ofScientific, dif_neg (by decide), if_neg (by change ¬(n : Int) > 2 ^ 11; omega),
    if_neg (by change ¬(n : Int) < -(2 ^ 11 + _); omega), if_pos (by omega)]
  rfl

theorem log2_shifted_powerOfTen {n : Nat} (hn : 0 < n) (hmax : n ≤ 307) :
    54 ≤ (1 <<< 53 * 10 ^ n).log2 ∧ (1 <<< 53 * 10 ^ n).log2 ≤ 1072 := by
  have hlow : 1 <<< 53 * 10 ^ 1 ≤ 1 <<< 53 * 10 ^ n :=
    Nat.mul_le_mul_left _ (Nat.pow_le_pow_right (by decide) hn)
  constructor
  · refine (Nat.le_log2 (Nat.ne_of_gt (Nat.lt_of_lt_of_le (by decide) hlow))).mpr ?_
    exact Nat.le_trans (by decide) hlow
  · refine log2_le (Nat.lt_of_le_of_lt (Nat.mul_le_mul_left _
      (Nat.pow_le_pow_right (by decide) hmax)) ?_)
    decide +kernel

theorem isAtLeastTwo_ofScientific {n : Nat} (hn : 22 < n) (hmax : n ≤ 307) :
    isAtLeastTwo (Float.ofScientific 1 false n) = true := by
  obtain ⟨hlow, hhigh⟩ := log2_shifted_powerOfTen (by omega) hmax
  obtain ⟨m, e, hm, hround, hlog, he, he'⟩ :=
    roundWithAccuracy_normal (e := -53 + 0) (.positive * .positive) .exact
      (Nat.le_trans (by decide) hlow) (by omega)
  obtain ⟨s, m', hm', hunpack, hlog'⟩ :=
    unpack_pack_normal (.positive * .positive) hm hlog (e := e) (by omega) (by omega)
  refine isAtLeastTwo_iff.mpr ⟨s, m', e, hm', ?_, by omega⟩
  rw [toModel_ofScientific hn (by omega), hround, hunpack]

end TickCircuit.Double
