import Mathlib.Tactic

/-!
# Hexadecimal

Bytes as text, two digits a byte, the high half first.  Writing uses lower-case digits, so
different bytes have different texts (`encode_injective`).  Reading takes the digits it accepts
as a parameter.
-/

namespace Hex

/-- A lower-case digit. -/
def digit (n : UInt8) : UInt8 := if n < 10 then 48 + n else 87 + n

/-- The text of a byte string. -/
def encode (bs : List UInt8) : List UInt8 :=
  bs.flatMap fun b : UInt8 => [digit (b >>> 4), digit (b &&& 15)]

/-- The value of a lower-case digit. -/
def lowerValue (c : UInt8) : Option UInt8 :=
  if 48 ≤ c ∧ c ≤ 57 then some (c - 48)
  else if 97 ≤ c ∧ c ≤ 102 then some (c - 87)
  else none

/-- The value of a digit of either case. -/
def value (c : UInt8) : Option UInt8 :=
  if 65 ≤ c ∧ c ≤ 70 then some (c - 55) else lowerValue c

/-- The number a run of digits stands for after `acc`. -/
def ofDigits (acc : Nat) (cs : List UInt8) : Nat :=
  cs.foldl (fun n c => n * 16 + ((value c).getD 0).toNat) acc

/-- Read digits in pairs. -/
def decode (read : UInt8 → Option UInt8) : List UInt8 → Option (List UInt8)
  | [] => some []
  | [_] => none
  | hi :: lo :: cs => do
      let hi ← read hi
      let lo ← read lo
      let bs ← decode read cs
      return (hi <<< 4 ||| lo) :: bs

/-- Each half of a byte is read back, and they make up the byte. -/
theorem lowerValue_digit (b : UInt8) : lowerValue (digit (b >>> 4)) = some (b >>> 4) ∧
    lowerValue (digit (b &&& 15)) = some (b &&& 15) ∧ b >>> 4 <<< 4 ||| b &&& 15 = b := by
  have hall : ∀ k : Fin 256, lowerValue (digit (UInt8.ofFin k >>> 4)) = some (UInt8.ofFin k >>> 4) ∧
      lowerValue (digit (UInt8.ofFin k &&& 15)) = some (UInt8.ofFin k &&& 15) ∧
      UInt8.ofFin k >>> 4 <<< 4 ||| UInt8.ofFin k &&& 15 = UInt8.ofFin k := by
    decide +kernel
  exact hall b.toFin

theorem decode_encode (bs : List UInt8) : decode lowerValue (encode bs) = some bs := by
  induction bs with
  | nil => rfl
  | cons b bs ih =>
      obtain ⟨hhi, hlo, hbyte⟩ := lowerValue_digit b
      have hcons : encode (b :: bs) = digit (b >>> 4) :: digit (b &&& 15) :: encode bs := rfl
      rw [hcons, decode]
      simp [hhi, hlo, ih, hbyte]

theorem encode_injective : Function.Injective encode := by
  intro a b h
  have ha := decode_encode a
  rw [h, decode_encode] at ha
  exact (Option.some.inj ha).symm

/-- Digits that are read come in pairs, and only digits are read. -/
theorem decode_some {read : UInt8 → Option UInt8} {cs bs : List UInt8}
    (h : decode read cs = some bs) :
    cs.length = 2 * bs.length ∧ ∀ c ∈ cs, (read c).isSome = true := by
  fun_induction decode read cs generalizing bs with
  | case1 =>
      obtain rfl := Option.some.inj h
      exact ⟨rfl, fun _ hc => absurd hc List.not_mem_nil⟩
  | case2 => cases h
  | case3 hi lo cs ih =>
      simp only [Option.bind_eq_bind, Option.bind_eq_some_iff, Option.pure_def] at h
      obtain ⟨x, hx, y, hy, rest, hrest, h⟩ := h
      obtain rfl := Option.some.inj h
      obtain ⟨hlength, hdigits⟩ := ih hrest
      refine ⟨by simp [hlength]; omega, ?_⟩
      simpa [hx, hy] using hdigits

end Hex
