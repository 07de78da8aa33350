import Bpm.Http.Npmrc

/-!
# Delays between retries

A delay grows exponentially from the minimum timeout up to the maximum, unless the
server asks for a longer one.  The power is a 32-bit number: a power that does not fit
is replaced by the greatest one, which may be too small for a long maximum.
-/

namespace Bpm

open Text

/-- `u32::checked_pow`. -/
def checkedPow (base exponent : UInt32) : Option UInt32 :=
  if h : base.toNat ^ exponent.toNat < 2 ^ 32 then some (.ofNatLT _ h) else none

/-- `Duration::checked_mul`. -/
def Duration.checkedMul (d : Duration) (factor : UInt32) : Option Duration :=
  if h : d.nanos * factor.toNat < 2 ^ 64 * 10 ^ 9 then some ⟨_, h⟩ else none

def retryDelay (network : NetworkConfig) (retry : Nat) (retryAfter : Option Duration) : Duration :=
  let exponent := if h : retry < 2 ^ 32 then .ofNatLT retry h else 0xFFFFFFFF
  let factor := (checkedPow network.retryFactor exponent).getD 0xFFFFFFFF
  let exponential := (network.retryMinTimeout.checkedMul factor).getD network.retryMaxTimeout
  let requested := max exponential (retryAfter.getD .zero)
  min requested network.retryMaxTimeout

/-! ## Exact delays -/

/-- The delay in nanoseconds, with an exact power. -/
def exactDelay (network : NetworkConfig) (retry : Nat) (retryAfter : Option Duration) : Nat :=
  min network.retryMaxTimeout.nanos
    (max (network.retryMinTimeout.nanos * network.retryFactor.toNat ^ retry)
      (retryAfter.getD .zero).nanos)

/-- The delay is exact and at least the minimum, and a later retry and a longer wait that
the server asks for do not shorten it. -/
structure SoundDelay (network : NetworkConfig) (retry : Nat) (retryAfter : Option Duration) :
    Prop where
  exact : (retryDelay network retry retryAfter).nanos = exactDelay network retry retryAfter
  minimum : network.retryMinTimeout ≤ retryDelay network retry retryAfter
  later : ∀ retry' ≥ retry,
    retryDelay network retry retryAfter ≤ retryDelay network retry' retryAfter
  longer : ∀ retryAfter' : Option Duration, retryAfter.getD .zero ≤ retryAfter'.getD .zero →
    retryDelay network retry retryAfter ≤ retryDelay network retry retryAfter'

/-- `u32::MAX`. -/
def greatestPower : Nat := 4294967295

/-- The power fits into 32 bits, or a greater one makes no difference: the greatest one
exceeds the maximum already, or the server asks for as long a wait. -/
def PowerSuffices (network : NetworkConfig) (retry : Nat) (retryAfter : Option Duration) : Prop :=
  network.retryFactor.toNat ^ retry ≤ greatestPower ∨
    network.retryMaxTimeout.nanos ≤ network.retryMinTimeout.nanos * greatestPower ∨
    min network.retryMaxTimeout.nanos
      (network.retryMinTimeout.nanos * network.retryFactor.toNat ^ retry) ≤
        (retryAfter.getD .zero).nanos

/-- The power as it is used. -/
def saturatedPow (base retry : Nat) : Nat := min (base ^ retry) greatestPower

theorem saturatedPow_mono {base : Nat} (h : 0 < base) {retry retry' : Nat} (hle : retry ≤ retry') :
    saturatedPow base retry ≤ saturatedPow base retry' :=
  min_le_min_right _ (Nat.pow_le_pow_right h hle)

theorem saturatedPow_pos {base : Nat} (h : 0 < base) (retry : Nat) : 0 < saturatedPow base retry :=
  lt_min (Nat.pow_pos h) (by decide)

@[simp] theorem Duration.nanos_max (a b : Duration) : (max a b).nanos = max a.nanos b.nanos := by
  rcases le_total a b with h | h
  · have hnanos : a.nanos ≤ b.nanos := h
    rw [max_eq_right h, max_eq_right hnanos]
  · have hnanos : b.nanos ≤ a.nanos := h
    rw [max_eq_left h, max_eq_left hnanos]

@[simp] theorem Duration.nanos_min (a b : Duration) : (min a b).nanos = min a.nanos b.nanos := by
  rcases le_total a b with h | h
  · have hnanos : a.nanos ≤ b.nanos := h
    rw [min_eq_left h, min_eq_left hnanos]
  · have hnanos : b.nanos ≤ a.nanos := h
    rw [min_eq_right h, min_eq_right hnanos]

theorem checkedPow_getD (base exponent : UInt32) :
    ((checkedPow base exponent).getD 0xFFFFFFFF).toNat =
      saturatedPow base.toNat exponent.toNat := by
  unfold checkedPow saturatedPow greatestPower
  split
  · rw [Option.getD_some, UInt32.toNat_ofNatLT]
    omega
  · rw [Option.getD_none]
    show 4294967295 = _
    omega

/-- Powers of two and more outgrow 32 bits long before the exponent does. -/
theorem saturatedPow_large {base exponent : Nat} (hbase : 2 ≤ base) (h : 32 ≤ exponent) :
    saturatedPow base exponent = greatestPower := by
  apply min_eq_right
  calc greatestPower ≤ 2 ^ 32 := by decide
    _ ≤ 2 ^ exponent := Nat.pow_le_pow_right (by decide) h
    _ ≤ base ^ exponent := Nat.pow_le_pow_left hbase _

theorem checkedPow_retry {base : UInt32} (hbase : 0 < base.toNat) (retry : Nat) :
    ((checkedPow base (if h : retry < 2 ^ 32 then .ofNatLT retry h else 0xFFFFFFFF)).getD
      0xFFFFFFFF).toNat = saturatedPow base.toNat retry := by
  rw [checkedPow_getD]
  split
  · rw [UInt32.toNat_ofNatLT]
  · rename_i hlarge
    by_cases hone : base.toNat = 1
    · rw [saturatedPow, saturatedPow, hone, one_pow, one_pow]
    · have hexponent : 32 ≤ (0xFFFFFFFF : UInt32).toNat := by decide
      rw [saturatedPow_large (by omega) hexponent, saturatedPow_large (by omega) (by omega)]

theorem Duration.checkedMul_getD (d limit : Duration) (factor : UInt32) :
    min limit.nanos ((d.checkedMul factor).getD limit).nanos =
      min limit.nanos (d.nanos * factor.toNat) := by
  have hfits := limit.fits
  unfold Duration.checkedMul
  split
  · rfl
  · rw [Option.getD_none]
    omega

theorem min_max_eq_iff {limit low high wait : Nat} (h : low < high) :
    min limit (max low wait) = min limit (max high wait) ↔
      limit ≤ low ∨ min limit high ≤ wait := by
  omega

section

variable {network : NetworkConfig} (hvalid : network.Valid)

include hvalid

/-- The delay as the exact formula over the saturated power; a product that overflows
exceeds the maximum. -/
theorem retryDelay_nanos (retry : Nat) (retryAfter : Option Duration) :
    (retryDelay network retry retryAfter).nanos =
      min network.retryMaxTimeout.nanos
        (max (network.retryMinTimeout.nanos * saturatedPow network.retryFactor.toNat retry)
          (retryAfter.getD .zero).nanos) := by
  unfold retryDelay
  dsimp only
  rw [Duration.nanos_min, Duration.nanos_max, min_comm, min_max_distrib_left,
    Duration.checkedMul_getD, checkedPow_retry hvalid.factor_pos, ← min_max_distrib_left]

theorem minimum_le_retryDelay (retry : Nat) (retryAfter : Option Duration) :
    network.retryMinTimeout ≤ retryDelay network retry retryAfter := by
  show network.retryMinTimeout.nanos ≤ (retryDelay network retry retryAfter).nanos
  rw [retryDelay_nanos hvalid]
  have hle : network.retryMinTimeout.nanos ≤ network.retryMaxTimeout.nanos := hvalid.min_le_max
  have hproduct := Nat.le_mul_of_pos_right network.retryMinTimeout.nanos
    (saturatedPow_pos hvalid.factor_pos retry)
  omega

theorem retryDelay_mono {retry retry' : Nat} {retryAfter retryAfter' : Option Duration}
    (hretry : retry ≤ retry') (hafter : retryAfter.getD .zero ≤ retryAfter'.getD .zero) :
    retryDelay network retry retryAfter ≤ retryDelay network retry' retryAfter' := by
  show (retryDelay network retry retryAfter).nanos ≤ (retryDelay network retry' retryAfter').nanos
  rw [retryDelay_nanos hvalid, retryDelay_nanos hvalid]
  apply min_le_min_left
  apply max_le_max
  · exact Nat.mul_le_mul_left _ (saturatedPow_mono hvalid.factor_pos hretry)
  · exact hafter

/-- The saturated power gives the exact delay in just these cases. -/
theorem retryDelay_exact_iff (retry : Nat) (retryAfter : Option Duration) :
    (retryDelay network retry retryAfter).nanos = exactDelay network retry retryAfter ↔
      PowerSuffices network retry retryAfter := by
  rw [retryDelay_nanos hvalid, exactDelay, PowerSuffices]
  by_cases hfits : network.retryFactor.toNat ^ retry ≤ greatestPower
  · rw [saturatedPow, min_eq_left hfits]
    exact iff_of_true rfl (.inl hfits)
  · have hsaturated : saturatedPow network.retryFactor.toNat retry = greatestPower :=
      min_eq_right (not_le.mp hfits).le
    have hexceeds : network.retryMinTimeout.nanos * greatestPower <
        network.retryMinTimeout.nanos * network.retryFactor.toNat ^ retry :=
      Nat.mul_lt_mul_of_pos_left (not_le.mp hfits) hvalid.min_pos
    rw [hsaturated, min_max_eq_iff hexceeds]
    exact (or_iff_right hfits).symm

/-- The delay is as it should be exactly as long as its power suffices. -/
theorem retryDelay_sound_iff (retry : Nat) (retryAfter : Option Duration) :
    SoundDelay network retry retryAfter ↔ PowerSuffices network retry retryAfter := by
  rw [← retryDelay_exact_iff hvalid]
  constructor
  · exact SoundDelay.exact
  · intro hexact
    refine ⟨hexact, minimum_le_retryDelay hvalid retry retryAfter, ?_, ?_⟩
    · intro retry' hle
      exact retryDelay_mono hvalid hle le_rfl
    · intro retryAfter' hle
      exact retryDelay_mono hvalid le_rfl hle

end

theorem NetworkConfig.default_valid : NetworkConfig.default.Valid := by
  constructor <;> decide

theorem retryDelay_sound_iff_default :
    SoundDelay .default 2 none ↔ PowerSuffices .default 2 none :=
  retryDelay_sound_iff NetworkConfig.default_valid 2 none

/-- A minimum of one millisecond under a maximum of a hundred days, doubled each time. -/
def patientNetwork : NetworkConfig :=
  { NetworkConfig.default with
    retryFactor := 2
    retryMinTimeout := .fromMillis 1
    retryMaxTimeout := .fromMillis 8640000000 }

/-- At the 33rd retry the delay stays at `2 ^ 32 - 1` milliseconds. -/
theorem retryDelay_saturates : patientNetwork.Valid ∧ ¬SoundDelay patientNetwork 33 none := by
  have hvalid : patientNetwork.Valid := by constructor <;> decide
  refine ⟨hvalid, ?_⟩
  intro hsound
  have hsuffices := (retryDelay_sound_iff hvalid 33 none).mp hsound
  revert hsuffices
  unfold PowerSuffices
  decide

end Bpm
