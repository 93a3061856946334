import Vita.Common.Checked
import Vita.Common.Words

/-!
# Errors and byte access

`Result` is the framework's `std::expected<T, Error>`. Functions that read received bytes return
`Decoded`: besides an error they may leave the input, which the C++ code does not check for. A
function that never returns `Fault.outside` never reads a byte outside its span.
-/

namespace Vita

open Words Checked

inductive ErrorCode where
  | invalidArgument | unsupportedLayout | unsupportedCapability | overflow | shortInput | shortOutput
  | capacityExhausted | staleGeneration | invalidState | wouldDeadlock | callbackFailure | noCpuAccess
  | resourceLimit | identityConflict
deriving DecidableEq, Repr

/-- An error with the byte position and the capacity it reports. The remaining members of the C++
structure keep their defaults in all modelled code. -/
structure Error where
  code : ErrorCode
  offset : ℕ := 0
  requiredCapacity : ℕ := 0
deriving DecidableEq, Repr

abbrev Result (α : Type) := Except Error α

/-- How reading received bytes can fail. -/
inductive Fault where
  | error (e : Error)
  | outside
deriving DecidableEq, Repr

instance : Coe Error Fault := ⟨.error⟩

abbrev Decoded (α : Type) := Except Fault α

/-- A result that reads no bytes, used by a reader. -/
def Result.decoded {α : Type} : Result α → Decoded α
  | .ok a => .ok a
  | .error e => .error (.error e)

@[simp] theorem Result.decoded_eq_ok {α : Type} {r : Result α} {a : α} :
    r.decoded = .ok a ↔ r = .ok a := by
  cases r <;> simp [Result.decoded]

@[simp] theorem Result.decoded_ne_outside {α : Type} {r : Result α} :
    r.decoded ≠ .error .outside := by
  cases r <;> simp [Result.decoded]

abbrev Bytes := List UInt8

/-- `std::numeric_limits<std::size_t>::max()`. -/
def sizeMax : ℕ := 2 ^ 64 - 1

/-- `load32`: the caller has to prove the four-byte extent. -/
def load32 (data : Bytes) (offset : ℕ) : Decoded UInt32 :=
  match wordAt data offset with
  | some w => .ok w
  | none => .error .outside

@[simp] theorem load32_eq_ok {data : Bytes} {offset : ℕ} {w : UInt32} :
    load32 data offset = .ok w ↔ wordAt data offset = some w := by
  unfold load32
  split <;> simp_all

/-- Inside the span, `load32` reads a word. -/
theorem load32_inside {data : Bytes} {offset : ℕ} (h : offset + 4 ≤ data.length) :
    ∃ w, load32 data offset = .ok w := by
  obtain ⟨w, hw⟩ := wordAt_isSome h
  exact ⟨w, load32_eq_ok.mpr hw⟩

/-- The computation does not leave the input. -/
abbrev Inside {α : Type} (x : Decoded α) : Prop := Avoids Fault.outside x

@[simp] theorem inside_decoded {α : Type} (r : Result α) : Inside r.decoded :=
  Result.decoded_ne_outside

@[simp] theorem inside_load32 {data : Bytes} {offset : ℕ} :
    Inside (load32 data offset) ↔ offset + 4 ≤ data.length := by
  refine ⟨fun h => ?_, fun h => ?_⟩
  · cases hw : wordAt data offset with
    | none => simp [load32, hw] at h
    | some w => exact le_length_of_wordAt hw
  · obtain ⟨w, hw⟩ := load32_inside h
    rw [hw]
    exact avoids_ok w

def checkedAdd (a b : ℕ) : Result ℕ := do
  rejectIf (b > sizeMax - a) { code := .overflow, offset := a }
  return a + b

def checkedMultiply (a b : ℕ) : Result ℕ := do
  rejectIf (a ≠ 0 ∧ b > sizeMax / a) { code := .overflow }
  return a * b

theorem checkedAdd_eq_ok {a b n : ℕ} : checkedAdd a b = .ok n ↔ b ≤ sizeMax - a ∧ n = a + b := by
  simp only [checkedAdd, bind_eq_ok, rejectIf_eq_ok, pure_eq_ok, Except.ok.injEq, gt_iff_lt, Nat.not_lt]
  constructor
  · rintro ⟨_, h, rfl⟩
    exact ⟨h, rfl⟩
  · rintro ⟨h, rfl⟩
    exact ⟨(), h, rfl⟩

/-- A word times four always fits. -/
theorem checkedMultiply_word (w : UInt32) : checkedMultiply w.toNat 4 = .ok (w.toNat * 4) := by
  have hw := w.toNat_lt
  rw [checkedMultiply, rejectIf_of_not, ok_bind]
  · rfl
  · rintro ⟨hne, hbig⟩
    have hlt := (Nat.div_lt_iff_lt_mul (Nat.pos_of_ne_zero hne)).mp hbig
    simp only [sizeMax] at hlt
    omega

end Vita
