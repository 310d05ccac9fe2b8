import Walrusd.Lease.Manager

/-!
# A codec for lease records

The development needs of `encoding/json` only that what is marshaled unmarshals to itself. This
codec has that property and marshals every record, so that runs can be evaluated.

## Main definitions

* `RecordJson.plain`.

## Main results

* `Plain.decode_encode`, `Plain.read_write` — the two round trips.
-/

namespace Walrusd.Lease.Plain

open List

/-- A list of numbers as bytes: every number in unary, ended by a zero byte. -/
def encode (l : List ℕ) : Bytes := l.flatMap fun n => List.replicate n 1 ++ [0]

/-- The numbers of an encoded list, after `n` bytes of the first of them. -/
def decode : ℕ → Bytes → List ℕ
  | _, [] => []
  | n, x :: b => if x = 0 then n :: decode 0 b else decode (n + 1) b

theorem decode_replicate (n k : ℕ) (b : Bytes) :
    decode k (List.replicate n 1 ++ 0 :: b) = (k + n) :: decode 0 b := by
  induction n generalizing k with
  | zero => simp [decode]
  | succ n ih =>
    rw [replicate_succ, cons_append, decode, if_neg (by decide), ih]
    congr 1
    omega

theorem decode_encode (l : List ℕ) : decode 0 (encode l) = l := by
  induction l with
  | nil => rfl
  | cons n l ih =>
    have hcons : encode (n :: l) = List.replicate n 1 ++ 0 :: encode l := by simp [encode]
    rw [hcons, decode_replicate, ih, Nat.zero_add]

/-- A text as its length and its characters. -/
def writeText (s : String) : List ℕ := s.toList.length :: s.toList.map Char.toNat

/-- The text at the head of a list, and the rest. -/
def readText : List ℕ → String × List ℕ
  | [] => ("", [])
  | n :: l => (String.ofList ((l.take n).map Char.ofNat), l.drop n)

theorem readText_writeText (s : String) (l : List ℕ) : readText (writeText s ++ l) = (s, l) := by
  have hlength : s.toList.length = (s.toList.map Char.toNat).length := by simp
  simp only [writeText, readText, cons_append]
  rw [hlength, take_left, drop_left, map_map]
  have hid : Char.ofNat ∘ Char.toNat = id := funext Char.ofNat_toNat
  rw [hid, map_id, String.ofList_toList]

/-- A whole number as a sign and a magnitude. -/
def writeInt : ℤ → List ℕ
  | .ofNat n => [0, n]
  | .negSucc n => [1, n]

/-- The whole number at the head of a list, and the rest. -/
def readInt : List ℕ → ℤ × List ℕ
  | 0 :: n :: l => (.ofNat n, l)
  | _ :: n :: l => (.negSucc n, l)
  | l => (0, l)

theorem readInt_writeInt (i : ℤ) (l : List ℕ) : readInt (writeInt i ++ l) = (i, l) := by
  cases i <;> rfl

/-- A state as a tag, with the text of an unknown one. -/
def writeState : State → List ℕ
  | .held => [0]
  | .released => [1]
  | .unknown text => 2 :: writeText text

/-- The state that a list holds. -/
def readState : List ℕ → State
  | 0 :: _ => .held
  | 1 :: _ => .released
  | _ :: l => .unknown (readText l).1
  | [] => .held

theorem readState_writeState (s : State) : readState (writeState s) = s := by
  cases s with
  | held | released => rfl
  | unknown text =>
    have h := readText_writeText text []
    rw [append_nil] at h
    simp [writeState, readState, h]

/-- A record as a list of numbers. -/
def write (rec : Record) : List ℕ :=
  writeInt rec.formatVersion ++ (writeText rec.databaseID ++ (writeText rec.owner ++
    (writeText rec.leaseID ++ (writeInt rec.expiresAt ++ rec.epoch :: writeState rec.state))))

/-- The record that a list of numbers holds. -/
def read (l : List ℕ) : Record :=
  let (formatVersion, l) := readInt l
  let (databaseID, l) := readText l
  let (owner, l) := readText l
  let (leaseID, l) := readText l
  let (expiresAt, l) := readInt l
  ⟨formatVersion, databaseID, readState l.tail, owner, leaseID, l.headD 0, expiresAt⟩

theorem read_write (rec : Record) : read (write rec) = rec := by
  simp only [write, read, readInt_writeInt, readText_writeText, headD_cons, tail_cons,
    readState_writeState]

end Walrusd.Lease.Plain

namespace Walrusd.Lease

/-- A codec that marshals every record. -/
def RecordJson.plain : RecordJson where
  marshal rec := .ok (Plain.encode (Plain.write rec))
  unmarshal body := .ok (Plain.read (Plain.decode 0 body))
  unmarshal_marshal := by
    intro rec body h
    obtain rfl := Except.ok.inj h
    rw [Plain.decode_encode, Plain.read_write]
  marshal_error := nofun

end Walrusd.Lease
