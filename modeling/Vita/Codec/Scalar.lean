import Vita.Fields.Structured

/-!
# Scalar representations (`codec/scalar.hpp`)

Every scalar occupies one or two words. `scalarBits` packs a value, `unpackScalar` reads the
alternative a descriptor names from the first word and the combined bits.
-/

namespace Vita.Codec

open Words Checked

/-! ## Reading -/

def signed16 (word : UInt32) : Int16 := word.toUInt16.toInt16

def optional16 (word : UInt32) (sentinel : UInt16) : OptionalQ7 :=
  if word.toUInt16 = sentinel then none else some (signed16 word)

/-- The switch of `read_scalar` on the descriptor's variant. -/
def unpackScalar (kind : ValueKind) (low : UInt32) (bits : UInt64) : Result SemanticValue :=
  match kind with
  | .word => return .word low
  | .hertz => return .hertz bits.toInt64
  | .payloadFormat => return .payloadFormat bits
  | .decibels => return .decibels (signed16 low)
  | .gainStages => return .gainStages ⟨signed16 low, signed16 (low >>> 16)⟩
  | .femtoseconds => return .femtoseconds bits.toInt64
  | .celsius => return .celsius (signed16 low)
  | .deviceIdentifier => return .deviceIdentifier ⟨low &&& 0xffffff, bits.toUInt16⟩
  | .radians => return .radians (signed16 low)
  | .polarization => return .polarization ⟨signed16 (low >>> 16), signed16 low⟩
  | .pointing => return .pointing ⟨low.toUInt16, signed16 (low >>> 16)⟩
  | .spatialReference =>
    return .spatialReference ⟨(low >>> 16).toUInt16, ((low >>> 2) &&& 3).toUInt8, (low &&& 3).toUInt8⟩
  | .beamWidth => return .beamWidth ⟨(low >>> 16).toUInt16, low.toUInt16⟩
  | .metres => return .metres low
  | .ebNoBer => return .ebNoBer ⟨optional16 (low >>> 16) 0x7fff, optional16 low 0x7fff⟩
  | .threshold => return .threshold ⟨signed16 low, signed16 (low >>> 16)⟩
  | .interceptPoints =>
    return .interceptPoints ⟨optional16 (low >>> 16) 0x7fff, optional16 low 0x7fff⟩
  | .snrNoiseFigure => return .snrNoiseFigure ⟨optional16 (low >>> 16) 0x7fff, optional16 low 0⟩
  | .unsigned64 => return .unsigned64 bits
  | .versionBuild =>
    return .versionBuild ⟨(low >>> 25).toUInt8, ((low >>> 16) &&& 511).toUInt16,
      ((low >>> 10) &&& 63).toUInt8, (low &&& 1023).toUInt16⟩
  | .bufferSize =>
    return .bufferSize ⟨low, ((bits >>> 8) &&& 255).toUInt8, (bits &&& 255).toUInt8⟩
  | .countryCode => return .countryCode ⟨(low &&& 0x7ff).toUInt16, bit low 15⟩
  | .emsDeviceClass =>
    return .emsDeviceClass ⟨(low &&& 0xfff).toUInt16, ((low >>> 14) &&& 3).toUInt8, bit low 13,
      bit low 12⟩
  | .humidity => return .humidity low.toUInt16
  | .barometricPressure => return .barometricPressure (low &&& 0x1ffff)
  | .seaSwell =>
    return .seaSwell ⟨(low &&& 31).toUInt8, ((low >>> 5) &&& 31).toUInt8,
      ((low >>> 10) &&& 63).toUInt8⟩
  | .timestampDetails => return .timestampDetails ⟨low, bits.toUInt32⟩
  | .native | .probability | .belief => throw (failure .unsupportedLayout)

def readScalar (d : FieldDescriptor) (bytes : Bytes) : Decoded SemanticValue := do
  rejectIf (bytes.length ≠ d.words * 4) (Fault.error (failure .shortInput))
  let low ← load32 bytes 0
  if d.words = 2 then
    let second ← load32 bytes 4
    (unpackScalar d.kind low ((low.toUInt64 <<< 32) ||| second.toUInt64)).decoded
  else (unpackScalar d.kind low low.toUInt64).decoded

def readAttributeScalar (d : FieldDescriptor) (attr : Attribute) (bytes : Bytes) :
    Decoded SemanticValue :=
  match attr with
  | .probability => do
    rejectIf (bytes.length ≠ 4) (Fault.error (failure .shortInput))
    let bits ← load32 bytes 0
    rejectIf (bits &&& 0xffff0000 ≠ 0) (Fault.error (failure .invalidArgument))
    return .probability ⟨bits.toUInt8, (bits >>> 8).toUInt8⟩
  | .belief => do
    rejectIf (bytes.length ≠ 4) (Fault.error (failure .shortInput))
    let bits ← load32 bytes 0
    rejectIf (bits &&& 0xffffff00 ≠ 0) (Fault.error (failure .invalidArgument))
    return .belief bits.toUInt8
  | _ => readScalar d bytes

/-! ## Writing -/

def unsigned16 (v : Int16) : UInt16 := v.toUInt16

def optionalBits (v : OptionalQ7) (sentinel : UInt16) : UInt16 := v.elim sentinel unsigned16

def pair (high low : UInt16) : UInt32 := (high.toUInt32 <<< 16) ||| low.toUInt32

def scalarBits : SemanticValue → UInt64
  | .word v => v.toUInt64
  | .hertz q20 => q20.toUInt64
  | .payloadFormat bits => bits
  | .decibels q7 => (unsigned16 q7).toUInt64
  | .gainStages v => (pair (unsigned16 v.stage2Q7) (unsigned16 v.stage1Q7)).toUInt64
  | .femtoseconds count => count.toUInt64
  | .celsius q6 => (unsigned16 q6).toUInt64
  | .deviceIdentifier v => (v.oui.toUInt64 <<< 32) ||| v.deviceCode.toUInt64
  | .radians q7 => (unsigned16 q7).toUInt64
  | .polarization v => (pair (unsigned16 v.tiltQ7) (unsigned16 v.ellipticityQ7)).toUInt64
  | .pointing v => (pair (unsigned16 v.elevationQ7) v.azimuthQ7).toUInt64
  | .spatialReference v =>
    ((v.userId.toUInt32 <<< 16) ||| (v.reference.toUInt32 <<< 2) ||| v.beam.toUInt32).toUInt64
  | .beamWidth v => (pair v.horizontalCode v.verticalCode).toUInt64
  | .metres q6 => q6.toUInt64
  | .ebNoBer v => (pair (optionalBits v.ebnoQ7 0x7fff) (optionalBits v.berQ7 0x7fff)).toUInt64
  | .threshold v => (pair (unsigned16 v.stage2Q7) (unsigned16 v.stage1Q7)).toUInt64
  | .interceptPoints v =>
    (pair (optionalBits v.secondQ7 0x7fff) (optionalBits v.thirdQ7 0x7fff)).toUInt64
  | .snrNoiseFigure v =>
    (pair (optionalBits v.snrQ7 0x7fff) (optionalBits v.noiseFigureQ7 0)).toUInt64
  | .unsigned64 bits => bits
  | .versionBuild v =>
    ((v.yearSince2000.toUInt32 <<< 25) ||| (v.day.toUInt32 <<< 16) ||| (v.revision.toUInt32 <<< 10) |||
      v.user.toUInt32).toUInt64
  | .bufferSize v =>
    (v.capacityBytes.toUInt64 <<< 32) ||| (v.level.toUInt32 <<< 8).toUInt64 ||| v.status.toUInt64
  | .countryCode v => ((if v.iso3166 then (0x8000 : UInt32) else 0) ||| v.code.toUInt32).toUInt64
  | .emsDeviceClass v =>
    ((v.organization.toUInt32 <<< 14) ||| (if v.exciter then (0x2000 : UInt32) else 0) |||
      (if v.receiver then (0x1000 : UInt32) else 0) ||| v.classCode.toUInt32).toUInt64
  | .humidity raw => raw.toUInt64
  | .barometricPressure raw17 => raw17.toUInt64
  | .seaSwell v =>
    ((v.user.toUInt32 <<< 10) ||| (v.swell.toUInt32 <<< 5) ||| v.sea.toUInt32).toUInt64
  | .timestampDetails v => (v.flags.toUInt64 <<< 32) ||| v.epoch.toUInt64
  | .probability v => ((v.function.toUInt32 <<< 8) ||| v.value.toUInt32).toUInt64
  | .belief v => v.toUInt64
  | .native _ => 0

def writeScalar (d : FieldDescriptor) (value : SemanticValue) : Bytes :=
  if d.words = 2 then
    be32 (scalarBits value >>> 32).toUInt32 ++ be32 (scalarBits value).toUInt32
  else be32 (scalarBits value).toUInt32

def writeAttributeScalar (d : FieldDescriptor) (attr : Attribute) (value : SemanticValue) : Bytes :=
  if attr.base then writeScalar d value else be32 (scalarBits value).toUInt32

/-! ## Round trip -/

/-- The value keeps all its parts on the wire. -/
def fitsWire : SemanticValue → Prop
  | .deviceIdentifier v => v.oui ≤ 0xffffff
  | .spatialReference v => v.reference ≤ 3 ∧ v.beam ≤ 3
  | .ebNoBer v => v.ebnoQ7 ≠ some 0x7fff ∧ v.berQ7 ≠ some 0x7fff
  | .interceptPoints v => v.secondQ7 ≠ some 0x7fff ∧ v.thirdQ7 ≠ some 0x7fff
  | .snrNoiseFigure v => v.snrQ7 ≠ some 0x7fff ∧ v.noiseFigureQ7 ≠ some 0
  | .versionBuild v => v.yearSince2000 ≤ 127 ∧ v.day ≤ 511 ∧ v.revision ≤ 63 ∧ v.user ≤ 1023
  | .countryCode v => v.code ≤ 0x7ff
  | .emsDeviceClass v => v.classCode ≤ 0xfff ∧ v.organization ≤ 3
  | .barometricPressure raw17 => raw17 ≤ 0x1ffff
  | .seaSwell v => v.sea ≤ 31 ∧ v.swell ≤ 31 ∧ v.user ≤ 63
  | _ => True

theorem signed16_unsigned16 (v : Int16) {w : UInt32} (h : w.toUInt16 = unsigned16 v) :
    signed16 w = v := by
  rw [signed16, h, unsigned16]
  exact Int16.toInt16_toUInt16 v

/-- Reading an optional value back: exactly the known value with the sentinel's code is lost. -/
theorem optional16_eq_iff {v : OptionalQ7} {w : UInt32} {sentinel : UInt16}
    (hw : w.toUInt16 = optionalBits v sentinel) :
    optional16 w sentinel = v ↔ v ≠ some sentinel.toInt16 := by
  cases v with
  | none => simp [optional16, hw, optionalBits]
  | some x =>
    have hsigned : signed16 w = x := signed16_unsigned16 x hw
    have hiff : unsigned16 x = sentinel ↔ x = sentinel.toInt16 := by
      constructor
      · rintro rfl
        exact (Int16.toInt16_toUInt16 x).symm
      · rintro rfl
        exact UInt16.toUInt16_toInt16 sentinel
    rw [optional16, hw, hsigned]
    simp only [optionalBits, Option.elim_some, hiff, ne_eq, Option.some.injEq]
    by_cases h : x = sentinel.toInt16 <;> simp [h]

theorem pair_halves (high low : UInt16) :
    (pair high low >>> 16).toUInt16 = high ∧ (pair high low).toUInt16 = low :=
  halves16_eq_iff.mp rfl

theorem toUInt16_toUInt64_toUInt32 (v : UInt16) : v.toUInt64.toUInt32.toUInt16 = v := by
  apply UInt16.toNat_inj.mp
  simp

section BitFields

private theorem toUInt8_eq {w : UInt32} {x : UInt8} (h : w.toNat = x.toNat) : w.toUInt8 = x := by
  apply UInt8.toNat_inj.mp
  rw [UInt32.toNat_toUInt8, h, Nat.mod_eq_of_lt x.toNat_lt]

private theorem toUInt16_eq {w : UInt32} {x : UInt16} (h : w.toNat % 2 ^ 16 = x.toNat) :
    w.toUInt16 = x := by
  apply UInt16.toNat_inj.mp
  rw [UInt32.toNat_toUInt16, h]

private theorem bit_of_toNat {w : UInt32} {n : ℕ} {b : Bool} (h : w.toNat / 2 ^ n % 2 = b.toNat) :
    bit w n = b := by
  rw [bit_eq, h]
  cases b <;> rfl

private theorem toNat_flag (b : Bool) (x : UInt32) : (if b then x else 0).toNat = b.toNat * x.toNat := by
  cases b <;> simp

/-- The parts of a spatial reference are read back from its word. -/
theorem spatialReference_fields {v : SpatialReferenceValue} (h : v.reference ≤ 3 ∧ v.beam ≤ 3) (bits : UInt64) :
    unpackScalar .spatialReference ((v.userId.toUInt32 <<< 16) ||| (v.reference.toUInt32 <<< 2) |||
      v.beam.toUInt32) bits = .ok (.spatialReference v) := by
  obtain ⟨user, reference, beam⟩ := v
  simp only [UInt8.le_iff_toNat_le, UInt8.reduceToNat] at h
  have hu := user.toNat_lt
  have hnat : ((user.toUInt32 <<< 16) ||| (reference.toUInt32 <<< 2) ||| beam.toUInt32).toNat =
      user.toNat * 2 ^ 16 + (reference.toNat * 2 ^ 2 + beam.toNat) := by
    rw [UInt32.or_assoc]
    exact toNat_pack 16 (UInt16.toNat_toUInt32 user)
      (toNat_pack 2 (UInt8.toNat_toUInt32 _) (UInt8.toNat_toUInt32 _) rfl (by omega) (by omega)
        (by omega)) rfl (by omega) (by omega) (by omega)
  generalize (user.toUInt32 <<< 16) ||| (reference.toUInt32 <<< 2) ||| beam.toUInt32 = w at hnat
  have h₁ : (w >>> 16).toUInt16 = user := toUInt16_eq (by
    rw [toNat_shiftRight_eq w 16 rfl (by omega)]; omega)
  have h₂ : ((w >>> 2) &&& 3).toUInt8 = reference := toUInt8_eq (by
    rw [toNat_shiftRight_and_mask w 2 2 rfl (by omega) rfl, Words.bits]; omega)
  have h₃ : (w &&& 3).toUInt8 = beam := toUInt8_eq (by
    rw [toNat_and_mask w 2 rfl]; omega)
  simp only [unpackScalar, h₁, h₂, h₃, pure_eq_ok]

/-- The parts of a version are read back from its word. -/
theorem versionBuild_fields {v : VersionBuildValue}
    (h : v.yearSince2000 ≤ 127 ∧ v.day ≤ 511 ∧ v.revision ≤ 63 ∧ v.user ≤ 1023) (bits : UInt64) :
    unpackScalar .versionBuild ((v.yearSince2000.toUInt32 <<< 25) ||| (v.day.toUInt32 <<< 16) |||
      (v.revision.toUInt32 <<< 10) ||| v.user.toUInt32) bits = .ok (.versionBuild v) := by
  obtain ⟨year, day, revision, user⟩ := v
  simp only [UInt8.le_iff_toNat_le, UInt16.le_iff_toNat_le, UInt8.reduceToNat,
    UInt16.reduceToNat] at h
  have hnat : ((year.toUInt32 <<< 25) ||| (day.toUInt32 <<< 16) ||| (revision.toUInt32 <<< 10) |||
      user.toUInt32).toNat =
      year.toNat * 2 ^ 25 + (day.toNat * 2 ^ 16 + (revision.toNat * 2 ^ 10 + user.toNat)) := by
    rw [UInt32.or_assoc, UInt32.or_assoc]
    exact toNat_pack 25 (UInt8.toNat_toUInt32 year)
      (toNat_pack 16 (UInt16.toNat_toUInt32 day)
        (toNat_pack 10 (UInt8.toNat_toUInt32 _) (UInt16.toNat_toUInt32 _) rfl (by omega) (by omega)
          (by omega)) rfl (by omega) (by omega) (by omega)) rfl (by omega) (by omega) (by omega)
  generalize (year.toUInt32 <<< 25) ||| (day.toUInt32 <<< 16) ||| (revision.toUInt32 <<< 10) |||
    user.toUInt32 = w at hnat
  have h₁ : (w >>> 25).toUInt8 = year := toUInt8_eq (by
    rw [toNat_shiftRight_eq w 25 rfl (by omega)]; omega)
  have h₂ : ((w >>> 16) &&& 511).toUInt16 = day := toUInt16_eq (by
    rw [toNat_shiftRight_and_mask w 16 9 rfl (by omega) rfl, Words.bits]; omega)
  have h₃ : ((w >>> 10) &&& 63).toUInt8 = revision := toUInt8_eq (by
    rw [toNat_shiftRight_and_mask w 10 6 rfl (by omega) rfl, Words.bits]; omega)
  have h₄ : (w &&& 1023).toUInt16 = user := toUInt16_eq (by
    rw [toNat_and_mask w 10 rfl]; omega)
  simp only [unpackScalar, h₁, h₂, h₃, h₄, pure_eq_ok]

/-- The bits of a country code give its fields back. -/
theorem countryCode_fields {v : CountryCodeValue} (h : v.code ≤ 0x7ff) (bits : UInt64) :
    unpackScalar .countryCode ((if v.iso3166 then (0x8000 : UInt32) else 0) ||| v.code.toUInt32) bits =
      .ok (.countryCode v) := by
  obtain ⟨code, iso⟩ := v
  simp only [UInt16.le_iff_toNat_le, UInt16.reduceToNat] at h
  have hnat : ((if iso then (0x8000 : UInt32) else 0) ||| code.toUInt32).toNat =
      iso.toNat * 2 ^ 15 + code.toNat := by
    rw [UInt32.toNat_or, toNat_flag, UInt16.toNat_toUInt32]
    exact or_eq_add 15 (Nat.dvd_mul_left ..) (by omega)
  generalize (if iso then (0x8000 : UInt32) else 0) ||| code.toUInt32 = w at hnat
  have hiso := iso.toNat_le
  have h₁ : (w &&& 0x7ff).toUInt16 = code := toUInt16_eq (by
    rw [toNat_and_mask w 11 rfl]; omega)
  have h₂ : bit w 15 = iso := bit_of_toNat (by omega)
  simp only [unpackScalar, h₁, h₂, pure_eq_ok]

/-- The parts of a device class are read back from its word. -/
theorem emsDeviceClass_fields {v : EmsDeviceClassValue}
    (h : v.classCode ≤ 0xfff ∧ v.organization ≤ 3) (bits : UInt64) :
    unpackScalar .emsDeviceClass ((v.organization.toUInt32 <<< 14) |||
      (if v.exciter then (0x2000 : UInt32) else 0) ||| (if v.receiver then (0x1000 : UInt32) else 0) |||
      v.classCode.toUInt32) bits = .ok (.emsDeviceClass v) := by
  obtain ⟨code, organization, exciter, receiver⟩ := v
  simp only [UInt16.le_iff_toNat_le, UInt8.le_iff_toNat_le, UInt16.reduceToNat,
    UInt8.reduceToNat] at h
  have he := exciter.toNat_le
  have hr := receiver.toNat_le
  have hlow : ((if exciter then (0x2000 : UInt32) else 0) |||
      ((if receiver then (0x1000 : UInt32) else 0) ||| code.toUInt32)).toNat =
      exciter.toNat * 2 ^ 13 + (receiver.toNat * 2 ^ 12 + code.toNat) := by
    have hflag : receiver.toNat * 2 ^ 12 ||| code.toNat = receiver.toNat * 2 ^ 12 + code.toNat :=
      or_eq_add 12 (Nat.dvd_mul_left ..) (by omega)
    rw [UInt32.toNat_or, UInt32.toNat_or, toNat_flag, toNat_flag, UInt16.toNat_toUInt32]
    exact (congrArg _ hflag).trans (or_eq_add 13 (Nat.dvd_mul_left ..) (by omega))
  have hnat : ((organization.toUInt32 <<< 14) ||| (if exciter then (0x2000 : UInt32) else 0) |||
      (if receiver then (0x1000 : UInt32) else 0) ||| code.toUInt32).toNat =
      organization.toNat * 2 ^ 14 +
        (exciter.toNat * 2 ^ 13 + (receiver.toNat * 2 ^ 12 + code.toNat)) := by
    rw [UInt32.or_assoc, UInt32.or_assoc]
    exact toNat_pack 14 (UInt8.toNat_toUInt32 _) hlow rfl (by omega) (by omega) (by omega)
  generalize (organization.toUInt32 <<< 14) ||| (if exciter then (0x2000 : UInt32) else 0) |||
    (if receiver then (0x1000 : UInt32) else 0) ||| code.toUInt32 = w at hnat
  have h₁ : (w &&& 0xfff).toUInt16 = code := toUInt16_eq (by
    rw [toNat_and_mask w 12 rfl]; omega)
  have h₂ : ((w >>> 14) &&& 3).toUInt8 = organization := toUInt8_eq (by
    rw [toNat_shiftRight_and_mask w 14 2 rfl (by omega) rfl, Words.bits]; omega)
  have h₃ : bit w 13 = exciter := bit_of_toNat (by omega)
  have h₄ : bit w 12 = receiver := bit_of_toNat (by omega)
  simp only [unpackScalar, h₁, h₂, h₃, h₄, pure_eq_ok]

/-- The parts of a sea state are read back from its word. -/
theorem seaSwell_fields {v : SeaSwellValue} (h : v.sea ≤ 31 ∧ v.swell ≤ 31 ∧ v.user ≤ 63) (bits : UInt64) :
    unpackScalar .seaSwell ((v.user.toUInt32 <<< 10) ||| (v.swell.toUInt32 <<< 5) |||
      v.sea.toUInt32) bits = .ok (.seaSwell v) := by
  obtain ⟨sea, swell, user⟩ := v
  simp only [UInt8.le_iff_toNat_le, UInt8.reduceToNat] at h
  have hnat : ((user.toUInt32 <<< 10) ||| (swell.toUInt32 <<< 5) ||| sea.toUInt32).toNat =
      user.toNat * 2 ^ 10 + (swell.toNat * 2 ^ 5 + sea.toNat) := by
    rw [UInt32.or_assoc]
    exact toNat_pack 10 (UInt8.toNat_toUInt32 user)
      (toNat_pack 5 (UInt8.toNat_toUInt32 _) (UInt8.toNat_toUInt32 _) rfl (by omega) (by omega)
        (by omega)) rfl (by omega) (by omega) (by omega)
  generalize (user.toUInt32 <<< 10) ||| (swell.toUInt32 <<< 5) ||| sea.toUInt32 = w at hnat
  have h₁ : (w &&& 31).toUInt8 = sea := toUInt8_eq (by
    rw [toNat_and_mask w 5 rfl]; omega)
  have h₂ : ((w >>> 5) &&& 31).toUInt8 = swell := toUInt8_eq (by
    rw [toNat_shiftRight_and_mask w 5 5 rfl (by omega) rfl, Words.bits]; omega)
  have h₃ : ((w >>> 10) &&& 63).toUInt8 = user := toUInt8_eq (by
    rw [toNat_shiftRight_and_mask w 10 6 rfl (by omega) rfl, Words.bits]; omega)
  simp only [unpackScalar, h₁, h₂, h₃, pure_eq_ok]

/-- The parts of a device identifier are read back from its two words. -/
theorem deviceIdentifier_fields {v : DeviceIdentifierValue} (h : v.oui ≤ 0xffffff) :
    unpackScalar .deviceIdentifier (scalarBits (.deviceIdentifier v) >>> 32).toUInt32
      (scalarBits (.deviceIdentifier v)) = .ok (.deviceIdentifier v) := by
  obtain ⟨oui, code⟩ := v
  simp only [UInt32.le_iff_toNat_le, UInt32.reduceToNat] at h
  have hcode := code.toNat_lt
  have hwide : code.toUInt64 = code.toUInt32.toUInt64 := by
    apply UInt64.toNat_inj.mp
    simp
  obtain ⟨hhigh, hlow⟩ := halves32_eq_iff.mp
    (rfl : (oui.toUInt64 <<< 32) ||| code.toUInt32.toUInt64 = _)
  have hbits : scalarBits (.deviceIdentifier ⟨oui, code⟩) =
      (oui.toUInt64 <<< 32) ||| code.toUInt32.toUInt64 := by
    rw [scalarBits, hwide]
  have h₁ : oui &&& 0xffffff = oui := by
    apply UInt32.toNat_inj.mp
    rw [toNat_and_mask oui 24 rfl]
    omega
  have h₂ : ((oui.toUInt64 <<< 32) ||| code.toUInt32.toUInt64).toUInt16 = code := by
    rw [← UInt64.toUInt16_toUInt32, hlow]
    apply UInt16.toNat_inj.mp
    simp
  simp only [hbits, hhigh, unpackScalar, h₁, h₂, pure_eq_ok]

/-- The parts of a buffer size are read back from its two words. -/
theorem bufferSize_fields (v : BufferSizeValue) :
    unpackScalar .bufferSize (scalarBits (.bufferSize v) >>> 32).toUInt32
      (scalarBits (.bufferSize v)) = .ok (.bufferSize v) := by
  obtain ⟨capacity, level, status⟩ := v
  have hl := level.toNat_lt
  have hs := status.toNat_lt
  have hword : ((level.toUInt32 <<< 8) ||| status.toUInt32).toNat =
      level.toNat * 2 ^ 8 + status.toNat :=
    toNat_pack 8 (UInt8.toNat_toUInt32 _) (UInt8.toNat_toUInt32 _) rfl (by omega) (by omega)
      (by omega)
  have hbits : scalarBits (.bufferSize ⟨capacity, level, status⟩) =
      (capacity.toUInt64 <<< 32) ||| ((level.toUInt32 <<< 8) ||| status.toUInt32).toUInt64 := by
    have hstatus : status.toUInt64 = status.toUInt32.toUInt64 := by
      apply UInt64.toNat_inj.mp
      simp
    rw [scalarBits, UInt64.or_assoc, hstatus, ← UInt32.toUInt64_or]
  obtain ⟨hhigh, hlow⟩ := halves32_eq_iff.mp (rfl : (capacity.toUInt64 <<< 32) |||
    ((level.toUInt32 <<< 8) ||| status.toUInt32).toUInt64 = _)
  have hnat := congrArg UInt32.toNat hlow
  rw [hword, UInt64.toNat_toUInt32] at hnat
  rw [hbits, hhigh]
  generalize (capacity.toUInt64 <<< 32) ||| ((level.toUInt32 <<< 8) ||| status.toUInt32).toUInt64 = w
    at hnat
  have h₁ : ((w >>> 8) &&& 255).toUInt8 = level := by
    apply UInt8.toNat_inj.mp
    rw [UInt64.toNat_toUInt8, UInt64.toNat_and, UInt64.toNat_shiftRight,
      show UInt64.toNat 255 = 2 ^ 8 - 1 from rfl, Nat.and_two_pow_sub_one_eq_mod,
      show UInt64.toNat 8 % 64 = 8 from rfl, Nat.shiftRight_eq_div_pow]
    omega
  have h₂ : (w &&& 255).toUInt8 = status := by
    apply UInt8.toNat_inj.mp
    rw [UInt64.toNat_toUInt8, UInt64.toNat_and, show UInt64.toNat 255 = 2 ^ 8 - 1 from rfl,
      Nat.and_two_pow_sub_one_eq_mod]
    omega
  simp only [unpackScalar, h₁, h₂, pure_eq_ok]

end BitFields

/-- The number of words of an alternative. -/
def kindWords : ValueKind → ℕ
  | .hertz | .payloadFormat | .femtoseconds | .deviceIdentifier | .unsigned64 | .bufferSize
  | .timestampDetails => 2
  | _ => 1

theorem descriptor_words {id : FieldId} {d : FieldDescriptor} (h : descriptor id = some d)
    (hk : d.kind ≠ .native) : d.words = kindWords d.kind := by
  have hall : ∀ d ∈ descriptors, d.kind ≠ .native → d.words = kindWords d.kind := by decide
  exact hall d (mem_descriptors h).1 hk

/-- A scalar of one word that fits is read back. -/
theorem unpackScalar_oneWord {v : SemanticValue} (hk : kindWords v.kind = 1) (hn : v.kind ≠ .native)
    (hp : v.kind ≠ .probability) (hb : v.kind ≠ .belief) (h : fitsWire v) (bits : UInt64) :
    unpackScalar v.kind (scalarBits v).toUInt32 bits = .ok v := by
  cases v with
  | hertz | payloadFormat | femtoseconds | deviceIdentifier | unsigned64 | bufferSize
  | timestampDetails => simp [kindWords, SemanticValue.kind] at hk
  | native => exact absurd rfl hn
  | probability => exact absurd rfl hp
  | belief => exact absurd rfl hb
  | spatialReference v =>
    rw [scalarBits, UInt32.toUInt32_toUInt64]
    exact spatialReference_fields h bits
  | versionBuild v =>
    rw [scalarBits, UInt32.toUInt32_toUInt64]
    exact versionBuild_fields h bits
  | countryCode v =>
    rw [scalarBits, UInt32.toUInt32_toUInt64]
    exact countryCode_fields h bits
  | emsDeviceClass v =>
    rw [scalarBits, UInt32.toUInt32_toUInt64]
    exact emsDeviceClass_fields h bits
  | seaSwell v =>
    rw [scalarBits, UInt32.toUInt32_toUInt64]
    exact seaSwell_fields h bits
  | word v | metres v =>
    simp only [scalarBits, UInt32.toUInt32_toUInt64, SemanticValue.kind, unpackScalar, pure_eq_ok]
  | barometricPressure raw17 =>
    have hmask : raw17 &&& 0x1ffff = raw17 := by
      apply UInt32.toNat_inj.mp
      rw [toNat_and_mask raw17 17 rfl]
      exact Nat.mod_eq_of_lt (Nat.lt_succ_of_le (UInt32.le_iff_toNat_le.mp h))
    simp only [scalarBits, UInt32.toUInt32_toUInt64, SemanticValue.kind, unpackScalar, hmask,
      pure_eq_ok]
  | decibels v | celsius v | radians v =>
    simp only [scalarBits, SemanticValue.kind, unpackScalar, pure_eq_ok,
      signed16_unsigned16 v (toUInt16_toUInt64_toUInt32 (unsigned16 v))]
  | humidity raw =>
    simp only [scalarBits, SemanticValue.kind, unpackScalar, pure_eq_ok,
      toUInt16_toUInt64_toUInt32 raw]
  | gainStages v | threshold v =>
    obtain ⟨hhigh, hlow⟩ := pair_halves (unsigned16 v.stage2Q7) (unsigned16 v.stage1Q7)
    simp only [scalarBits, UInt32.toUInt32_toUInt64, SemanticValue.kind, unpackScalar, pure_eq_ok,
      signed16_unsigned16 _ hhigh, signed16_unsigned16 _ hlow]
  | polarization v =>
    obtain ⟨hhigh, hlow⟩ := pair_halves (unsigned16 v.tiltQ7) (unsigned16 v.ellipticityQ7)
    simp only [scalarBits, UInt32.toUInt32_toUInt64, SemanticValue.kind, unpackScalar, pure_eq_ok,
      signed16_unsigned16 _ hhigh, signed16_unsigned16 _ hlow]
  | pointing v =>
    obtain ⟨hhigh, hlow⟩ := pair_halves (unsigned16 v.elevationQ7) v.azimuthQ7
    simp only [scalarBits, UInt32.toUInt32_toUInt64, SemanticValue.kind, unpackScalar, pure_eq_ok,
      signed16_unsigned16 _ hhigh, hlow]
  | beamWidth v =>
    obtain ⟨hhigh, hlow⟩ := pair_halves v.horizontalCode v.verticalCode
    simp only [scalarBits, UInt32.toUInt32_toUInt64, SemanticValue.kind, unpackScalar, pure_eq_ok,
      hhigh, hlow]
  | ebNoBer v =>
    obtain ⟨hhigh, hlow⟩ := pair_halves (optionalBits v.ebnoQ7 0x7fff) (optionalBits v.berQ7 0x7fff)
    simp only [scalarBits, UInt32.toUInt32_toUInt64, SemanticValue.kind, unpackScalar, pure_eq_ok,
      (optional16_eq_iff hhigh).mpr h.1, (optional16_eq_iff hlow).mpr h.2]
  | interceptPoints v =>
    obtain ⟨hhigh, hlow⟩ :=
      pair_halves (optionalBits v.secondQ7 0x7fff) (optionalBits v.thirdQ7 0x7fff)
    simp only [scalarBits, UInt32.toUInt32_toUInt64, SemanticValue.kind, unpackScalar, pure_eq_ok,
      (optional16_eq_iff hhigh).mpr h.1, (optional16_eq_iff hlow).mpr h.2]
  | snrNoiseFigure v =>
    obtain ⟨hhigh, hlow⟩ := pair_halves (optionalBits v.snrQ7 0x7fff) (optionalBits v.noiseFigureQ7 0)
    simp only [scalarBits, UInt32.toUInt32_toUInt64, SemanticValue.kind, unpackScalar, pure_eq_ok,
      (optional16_eq_iff hhigh).mpr h.1, (optional16_eq_iff hlow).mpr h.2]

/-- Values of two words are read as they were written. -/
theorem unpackScalar_twoWords {v : SemanticValue} (hk : kindWords v.kind = 2) (h : fitsWire v) :
    unpackScalar v.kind (scalarBits v >>> 32).toUInt32 (scalarBits v) = .ok v := by
  cases v with
  | hertz v | femtoseconds v =>
    simp only [scalarBits, SemanticValue.kind, unpackScalar, pure_eq_ok, Int64.toInt64_toUInt64]
  | payloadFormat v | unsigned64 v => rfl
  | deviceIdentifier v => exact deviceIdentifier_fields h
  | bufferSize v => exact bufferSize_fields v
  | timestampDetails v =>
    obtain ⟨hhigh, hlow⟩ := halves32_eq_iff.mp (rfl : (v.flags.toUInt64 <<< 32) ||| v.epoch.toUInt64 = _)
    simp only [scalarBits, SemanticValue.kind, unpackScalar, pure_eq_ok, hhigh, hlow]
  | _ => simp [kindWords, SemanticValue.kind] at hk

/-! ## Accepted values fit -/

/-- A known noise figure of zero has the wire code of "unknown". -/
def losesNoiseFigure (v : SemanticValue) : Prop :=
  ∃ snr, v = .snrNoiseFigure ⟨snr, some 0⟩

instance (v : SemanticValue) : Decidable (losesNoiseFigure v) :=
  match v with
  | .snrNoiseFigure ⟨snr, noise⟩ =>
    decidable_of_iff (noise = some 0) ⟨fun h => ⟨snr, by rw [h]⟩, by
      rintro ⟨_, h⟩
      cases h
      rfl⟩
  | .word _ | .hertz _ | .payloadFormat _ | .decibels _ | .gainStages _ | .femtoseconds _
  | .celsius _ | .deviceIdentifier _ | .native _ | .radians _ | .polarization _ | .pointing _
  | .spatialReference _ | .beamWidth _ | .metres _ | .ebNoBer _ | .threshold _ | .interceptPoints _
  | .unsigned64 _ | .versionBuild _ | .bufferSize _ | .countryCode _ | .emsDeviceClass _
  | .humidity _ | .barometricPressure _ | .seaSwell _ | .timestampDetails _ | .probability _
  | .belief _ => .isFalse (by rintro ⟨_, h⟩; cases h)

/-- The alternatives with a range check belong to one field each. -/
theorem checkedKind_id {id : FieldId} {d : FieldDescriptor} (h : descriptor id = some d) :
    (d.kind = .deviceIdentifier → id = Field.deviceIdentifier) ∧
    (d.kind = .spatialReference → id = Field.spatialReferenceType) ∧
    (d.kind = .ebNoBer → id = Field.ebNoBer) ∧
    (d.kind = .interceptPoints → id = Field.interceptPoints) ∧
    (d.kind = .snrNoiseFigure → id = Field.snrNoiseFigure) ∧
    (d.kind = .versionBuild → id = Field.versionBuild) ∧
    (d.kind = .countryCode → id = Field.countryCode) ∧
    (d.kind = .emsDeviceClass → id = Field.emsDeviceClass) ∧
    (d.kind = .barometricPressure → id = Field.barometricPressure) ∧
    (d.kind = .seaSwell → id = Field.seaSwellState) ∧
    d.kind ≠ .probability ∧ d.kind ≠ .belief := by
  obtain ⟨hmem, rfl⟩ := mem_descriptors h
  have hall : ∀ d ∈ descriptors,
    (d.kind = .deviceIdentifier → d.id = Field.deviceIdentifier) ∧
    (d.kind = .spatialReference → d.id = Field.spatialReferenceType) ∧
    (d.kind = .ebNoBer → d.id = Field.ebNoBer) ∧
    (d.kind = .interceptPoints → d.id = Field.interceptPoints) ∧
    (d.kind = .snrNoiseFigure → d.id = Field.snrNoiseFigure) ∧
    (d.kind = .versionBuild → d.id = Field.versionBuild) ∧
    (d.kind = .countryCode → d.id = Field.countryCode) ∧
    (d.kind = .emsDeviceClass → d.id = Field.emsDeviceClass) ∧
    (d.kind = .barometricPressure → d.id = Field.barometricPressure) ∧
    (d.kind = .seaSwell → d.id = Field.seaSwellState) ∧
    d.kind ≠ .probability ∧ d.kind ≠ .belief := by decide
  exact hall d hmem

/-- Every accepted value fits the wire, but for the noise figure. -/
theorem fitsWire_of_validateContent {id : FieldId} {d : FieldDescriptor} {v : SemanticValue}
    {current : Bool} (hd : descriptor id = some d) (hk : v.kind = d.kind)
    (h : validateContent id v current = .ok ()) (hnoise : ¬losesNoiseFigure v) : fitsWire v := by
  obtain ⟨hdev, hspa, heb, hint, hsnr, hver, hcou, hems, hbar, hsea, -, -⟩ := checkedKind_id hd
  cases v with
  | deviceIdentifier v =>
    simp only [validateContent, hdev hk.symm, rejectIf_eq_ok, true_and] at h
    exact UInt32.not_lt.mp h
  | spatialReference v =>
    simp only [validateContent, hspa hk.symm, rejectIf_eq_ok, true_and, not_or, gt_iff_lt,
      UInt8.not_lt] at h
    exact ⟨h.1, UInt8.le_trans h.2 (by decide)⟩
  | ebNoBer v =>
    simp only [validateContent, heb hk.symm, rejectIf_eq_ok, true_and, not_or, nonsentinel,
      decide_eq_true_eq, not_not] at h
    exact ⟨h.1, h.2.1⟩
  | interceptPoints v =>
    simp only [validateContent, hint hk.symm, rejectIf_eq_ok, true_and, not_or, nonsentinel,
      decide_eq_true_eq, not_not] at h
    exact h
  | snrNoiseFigure v =>
    simp only [validateContent, hsnr hk.symm, rejectIf_eq_ok, true_and, not_or, nonsentinel,
      decide_eq_true_eq, not_not] at h
    refine ⟨h.1, fun hzero => hnoise ⟨v.snrQ7, ?_⟩⟩
    rw [← hzero]
  | versionBuild v =>
    simp only [validateContent, hver hk.symm, rejectIf_eq_ok, true_and, not_or, gt_iff_lt,
      UInt8.not_lt, UInt16.not_lt] at h
    obtain ⟨hyear, hday, hrev, huser⟩ := h
    refine ⟨hyear, ?_, hrev, huser⟩
    cases current with
    | false => simpa using hday
    | true =>
      simp only [if_true, not_or, UInt16.not_lt] at hday
      exact UInt16.le_trans hday.2 (by decide)
  | countryCode v =>
    simp only [validateContent, hcou hk.symm, rejectIf_eq_ok, true_and, gt_iff_lt, UInt16.not_lt] at h
    exact h
  | emsDeviceClass v =>
    simp only [validateContent, hems hk.symm, rejectIf_eq_ok, true_and, not_or, gt_iff_lt,
      UInt8.not_lt, UInt16.not_lt] at h
    exact ⟨h.1, UInt8.le_trans h.2 (by decide)⟩
  | barometricPressure v =>
    simp only [validateContent, hbar hk.symm, rejectIf_eq_ok, true_and, gt_iff_lt, UInt32.not_lt] at h
    exact h
  | seaSwell v =>
    simp only [validateContent, hsea hk.symm, rejectIf_eq_ok, true_and, not_or, gt_iff_lt,
      UInt8.not_lt] at h
    have hlimit : (if current then (9 : UInt8) else 31) ≤ 31 := by cases current <;> decide
    exact ⟨UInt8.le_trans h.1 hlimit, UInt8.le_trans h.2.1 hlimit, h.2.2⟩
  | _ => trivial

theorem length_writeAttributeScalar {d : FieldDescriptor} (attr : Attribute) (v : SemanticValue)
    (hd : d.words = 1 ∨ d.words = 2) :
    (writeAttributeScalar d attr v).length = if attr.base then d.words * 4 else 4 := by
  unfold writeAttributeScalar writeScalar
  split
  · obtain h | h := hd <;> simp [h]
  · rfl

theorem load32_be32 (w : UInt32) (rest : Bytes) : load32 (be32 w ++ rest) 0 = .ok w :=
  load32_eq_ok.mpr (wordAt_append [] w rest)

theorem readScalar_word {d : FieldDescriptor} (hd : d.words = 1) (w : UInt32) :
    readScalar d (be32 w) = (unpackScalar d.kind w w.toUInt64).decoded := by
  have hread : load32 (be32 w) 0 = .ok w := load32_be32 w []
  simp [readScalar, hd, hread, rejectIf]

theorem readScalar_words {d : FieldDescriptor} (hd : d.words = 2) (a b : UInt32) :
    readScalar d (be32 a ++ be32 b) =
      (unpackScalar d.kind a ((a.toUInt64 <<< 32) ||| b.toUInt64)).decoded := by
  have hsecond : load32 (be32 a ++ be32 b) 4 = .ok b :=
    load32_eq_ok.mpr (by simpa using wordAt_append (be32 a) b [])
  simp [readScalar, hd, load32_be32, hsecond, rejectIf]

/-- A scalar is read back from the bytes written for it. -/
theorem readScalar_writeScalar {id : FieldId} {d : FieldDescriptor} {v : SemanticValue}
    (hd : descriptor id = some d) (hk : v.kind = d.kind) (hn : d.kind ≠ .native) (h : fitsWire v) :
    readScalar d (writeScalar d v) = .ok v := by
  obtain ⟨-, -, -, -, -, -, -, -, -, -, hp, hb⟩ := checkedKind_id hd
  have hwords := descriptor_words hd hn
  have hcases : kindWords d.kind = 1 ∨ kindWords d.kind = 2 := by
    cases d.kind <;> decide
  obtain hone | htwo := hcases
  · rw [hone] at hwords
    rw [writeScalar, hwords, if_neg (by decide), readScalar_word hwords, Result.decoded_eq_ok, ← hk]
    rw [← hk] at hone hn hp hb
    exact unpackScalar_oneWord hone hn hp hb h _
  · rw [htwo] at hwords
    have hcombine : ((scalarBits v >>> 32).toUInt32.toUInt64 <<< 32) |||
        (scalarBits v).toUInt32.toUInt64 = scalarBits v := halves32_eq_iff.mpr ⟨rfl, rfl⟩
    rw [writeScalar, hwords, if_pos rfl, readScalar_words hwords, Result.decoded_eq_ok, hcombine, ← hk]
    rw [← hk] at htwo
    exact unpackScalar_twoWords htwo h

/-- What `validate_attribute_value` says of an accepted value. -/
theorem validateAttributeValue_eq_ok {id : FieldId} {attr : Attribute} {v : SemanticValue}
    (h : validateAttributeValue id attr v = .ok ()) :
    ∃ d, descriptor id = some d ∧ v.kind ≠ .native ∧ (attr = .probability → v.kind = .probability) ∧
      (attr = .belief → v.kind = .belief) ∧ (attr.base → v.kind = d.kind ∧
        ∃ current, validateContent id v current = .ok ()) := by
  simp only [validateAttributeValue, bind_eq_ok, rejectIf_eq_ok] at h
  obtain ⟨-, hd, -, hn, h⟩ := h
  obtain ⟨d, hd⟩ := Option.ne_none_iff_exists'.mp hd
  refine ⟨d, hd, hn, ?_, ?_, ?_⟩
  · rintro rfl
    simpa using h
  · rintro rfl
    simpa using h
  · intro hbase
    have hvalue : ∀ current, validateValue id v current = .ok () →
        v.kind = d.kind ∧ ∃ current, validateContent id v current = .ok () := by
      intro current hv
      simp only [validateValue, hd, bind_eq_ok, rejectIf_eq_ok, not_not] at hv
      obtain ⟨-, -, -, hk, hv⟩ := hv
      exact ⟨hk, current, hv⟩
    cases attr with
    | probability | belief => exact absurd hbase (by decide)
    | _ => exact hvalue _ h

theorem readAttributeScalar_base {d : FieldDescriptor} {attr : Attribute} (hbase : attr.base)
    (bytes : Bytes) : readAttributeScalar d attr bytes = readScalar d bytes := by
  cases attr with
  | probability | belief => exact absurd hbase (by decide)
  | _ => rfl

/-- A probability is read back, whatever field it is an attribute of. -/
theorem readAttributeScalar_probability (d : FieldDescriptor) (p : ProbabilityCode) :
    readAttributeScalar d .probability (writeAttributeScalar d .probability (.probability p)) =
      .ok (.probability p) := by
  obtain ⟨value, function⟩ := p
  have hv := value.toNat_lt
  have hf := function.toNat_lt
  have hnat : ((function.toUInt32 <<< 8) ||| value.toUInt32).toNat =
      function.toNat * 2 ^ 8 + value.toNat :=
    toNat_pack 8 (UInt8.toNat_toUInt32 _) (UInt8.toNat_toUInt32 _) rfl (by omega) (by omega)
      (by omega)
  have hwrite : writeAttributeScalar d .probability (.probability ⟨value, function⟩) =
      be32 ((function.toUInt32 <<< 8) ||| value.toUInt32) := by
    rw [writeAttributeScalar, if_neg (by decide), scalarBits, UInt32.toUInt32_toUInt64]
  rw [hwrite]
  generalize (function.toUInt32 <<< 8) ||| value.toUInt32 = w at hnat
  have hread : load32 (be32 w) 0 = .ok w := load32_be32 w []
  have hmask : w &&& 0xffff0000 = 0 := by
    rw [and_mask_eq_zero w 16 16 rfl, bits]
    omega
  have h₁ : w.toUInt8 = value := by
    apply UInt8.toNat_inj.mp
    rw [UInt32.toNat_toUInt8]
    omega
  have h₂ : (w >>> 8).toUInt8 = function := by
    apply UInt8.toNat_inj.mp
    rw [UInt32.toNat_toUInt8, toNat_shiftRight_eq w 8 rfl (by omega)]
    omega
  simp [readAttributeScalar, hread, rejectIf, hmask, h₁, h₂]

/-- A belief is read as it was written. -/
theorem readAttributeScalar_belief (d : FieldDescriptor) (b : UInt8) :
    readAttributeScalar d .belief (writeAttributeScalar d .belief (.belief b)) =
      .ok (.belief b) := by
  have hb := b.toNat_lt
  have hwrite : writeAttributeScalar d .belief (.belief b) = be32 b.toUInt32 := by
    have hword : b.toUInt64.toUInt32 = b.toUInt32 := by
      apply UInt32.toNat_inj.mp
      simp
    rw [writeAttributeScalar, if_neg (by decide), scalarBits, hword]
  have hread : load32 (be32 b.toUInt32) 0 = .ok b.toUInt32 := load32_be32 _ []
  have hmask : b.toUInt32 &&& 0xffffff00 = 0 := by
    rw [and_mask_eq_zero _ 8 24 rfl, bits, UInt8.toNat_toUInt32]
    omega
  simp [readAttributeScalar, hwrite, hread, rejectIf, hmask]

/-- An accepted attribute value is read back from the bytes written for it exactly when it is not a
known noise figure of zero. -/
theorem readAttributeScalar_iff {id : FieldId} {d : FieldDescriptor} {attr : Attribute}
    {v : SemanticValue} (hd : descriptor id = some d)
    (h : validateAttributeValue id attr v = .ok ()) :
    readAttributeScalar d attr (writeAttributeScalar d attr v) = .ok v ↔ ¬losesNoiseFigure v := by
  obtain ⟨d', hd', hn, hprob, hbel, hbase⟩ := validateAttributeValue_eq_ok h
  obtain rfl : d' = d := by
    rw [hd] at hd'
    exact (Option.some.inj hd').symm
  by_cases hb : attr.base
  · obtain ⟨hk, current, hcontent⟩ := hbase hb
    rw [readAttributeScalar_base hb, writeAttributeScalar, if_pos hb]
    constructor
    · -- a known noise figure of zero is written as the sentinel and read as unknown
      rintro hread ⟨snr, rfl⟩
      have hwords : d'.words = 1 := by
        rw [descriptor_words hd (hk ▸ hn), ← hk]
        rfl
      obtain ⟨-, hlow⟩ := pair_halves (optionalBits snr 0x7fff) (optionalBits (some 0) 0)
      rw [writeScalar, hwords, if_neg (by decide), readScalar_word hwords, ← hk, scalarBits,
        UInt32.toUInt32_toUInt64, Result.decoded_eq_ok] at hread
      simp only [SemanticValue.kind, unpackScalar, pure_eq_ok, Except.ok.injEq,
        SemanticValue.snrNoiseFigure.injEq, SnrNoiseFigureValue.mk.injEq] at hread
      exact (optional16_eq_iff hlow).mp hread.2 rfl
    · intro hnoise
      exact readScalar_writeScalar hd hk (hk ▸ hn) (fitsWire_of_validateContent hd hk hcontent hnoise)
  · have hnoise : ¬losesNoiseFigure v := by
      rintro ⟨snr, rfl⟩
      cases attr with
      | probability => exact absurd (hprob rfl) (by simp [SemanticValue.kind])
      | belief => exact absurd (hbel rfl) (by simp [SemanticValue.kind])
      | _ => exact hb rfl
    simp only [hnoise, not_false_eq_true, iff_true]
    cases attr with
    | probability =>
      cases v with
      | probability p => exact readAttributeScalar_probability d' p
      | _ => exact absurd (hprob rfl) (by simp [SemanticValue.kind])
    | belief =>
      cases v with
      | belief b => exact readAttributeScalar_belief d' b
      | _ => exact absurd (hbel rfl) (by simp [SemanticValue.kind])
    | _ => exact absurd rfl hb

end Vita.Codec
