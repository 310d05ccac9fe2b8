import Mathlib.Tactic.IntervalCases
import Mathlib.Tactic.Ring
import Walrusd.Basic

/-!
# TXID texts

The idempotency table stores a TXID as the text `fmt.Sprintf("%016x", n)`, and a retry reads it
back by `strconv.ParseUint(s, 16, 64)`.

## Main definitions

* `formatTXID`, `parseTXID`.

## Main results

* `parseTXID_formatTXID` — the round trip on 64-bit numbers.
* `formatTXID_injective`.
-/

namespace Walrusd.Runtime

/-- A lower-case hexadecimal digit. -/
def hexDigit (d : ℕ) : Char :=
  if d < 10 then Char.ofNat ('0'.toNat + d) else Char.ofNat ('a'.toNat + (d - 10))

/-- The last `k` hexadecimal digits of a number. -/
def hexDigits (k n : ℕ) : List Char :=
  (List.range k).reverse.map fun i => hexDigit (n / 16 ^ i % 16)

/-- `fmt.Sprintf("%016x", n)` on a 64-bit number. -/
def formatTXID (n : ℕ) : String := String.ofList (hexDigits 16 n)

/-- The value of a hexadecimal digit. -/
def hexValue (c : Char) : Option ℕ :=
  if '0' ≤ c ∧ c ≤ '9' then some (c.toNat - '0'.toNat)
  else if 'a' ≤ c ∧ c ≤ 'f' then some (c.toNat - 'a'.toNat + 10)
  else if 'A' ≤ c ∧ c ≤ 'F' then some (c.toNat - 'A'.toNat + 10)
  else none

/-- The number that a list of hexadecimal digits denotes, from the digits read so far. -/
def hexFrom : ℕ → List Char → Option ℕ
  | n, [] => some n
  | n, c :: cs =>
    match hexValue c with
    | none => none
    | some d => hexFrom (16 * n + d) cs

/-- `strconv.ParseUint(s, 16, 64)`. -/
def parseTXID (s : String) : Option ℕ :=
  if s = "" then none
  else
    match hexFrom 0 s.toList with
    | none => none
    | some n => if n < 2 ^ 64 then some n else none

theorem hexValue_hexDigit {d : ℕ} (h : d < 16) : hexValue (hexDigit d) = some d := by
  interval_cases d <;> decide

theorem hexFrom_hexDigits (k m n : ℕ) :
    hexFrom m (hexDigits k n) = some (m * 16 ^ k + n % 16 ^ k) := by
  induction k generalizing m with
  | zero => simp [hexDigits, hexFrom, Nat.mod_one]
  | succ k ih =>
    have hcons : hexDigits (k + 1) n = hexDigit (n / 16 ^ k % 16) :: hexDigits k n := by
      simp [hexDigits, List.range_succ]
    have hdigit := hexValue_hexDigit (Nat.mod_lt (n / 16 ^ k) (by decide : 0 < 16))
    have hmod : n % 16 ^ (k + 1) = n / 16 ^ k % 16 * 16 ^ k + n % 16 ^ k := by
      rw [pow_succ, Nat.mod_mul]
      ring
    rw [hcons]
    simp only [hexFrom, hdigit]
    rw [ih, hmod]
    congr 1
    ring

theorem formatTXID_ne_empty (n : ℕ) : formatTXID n ≠ "" := by
  intro h
  have hlist := congrArg String.toList h
  simp [formatTXID, hexDigits, List.range_succ] at hlist

/-- **The round trip** on 64-bit numbers. -/
theorem parseTXID_formatTXID {n : ℕ} (h : n < 2 ^ 64) : parseTXID (formatTXID n) = some n := by
  have hmod : n % 16 ^ 16 = n := Nat.mod_eq_of_lt (by omega)
  have hfrom : hexFrom 0 (formatTXID n).toList = some n := by
    rw [formatTXID, String.toList_ofList, hexFrom_hexDigits, hmod]
    simp
  rw [parseTXID, if_neg (formatTXID_ne_empty n), hfrom]
  simp only [if_pos h]

theorem formatTXID_injective {m n : ℕ} (hm : m < 2 ^ 64) (hn : n < 2 ^ 64)
    (h : formatTXID m = formatTXID n) : m = n := by
  have hparse := parseTXID_formatTXID hm
  rw [h, parseTXID_formatTXID hn] at hparse
  exact (Option.some.inj hparse).symm

end Walrusd.Runtime
