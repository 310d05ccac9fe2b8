import Walrusd.Lease.Manager

/-!
# How acquisitions fail

An acquisition gives up when its context is done. `acquireLocked` reports this as `DB_BUSY` if it
finds out between two rounds, and as `DB_REMOTE_UNAVAILABLE` if a store operation fails on it, but
an acquisition that is waiting for the lease returns the error of the context as it is.

## Main definitions

* `Ending`, `endingOf` — what ended an acquisition.

## Main results

* `acquire_ends`, `release_yields`.
-/

namespace Walrusd.Lease

open Program

/-- What has ended an acquisition so far: its context, while it was waiting for the lease, or its
context or a failed store operation at another place. -/
inductive Ending
  | none
  | waiting (e : Err)
  | elsewhere
  deriving DecidableEq

/-- The state after an answer. -/
def Ending.step (s : Ending) : (c : Op) → Resp c → Ending
  | .wait _ _, .ctxDone e => .waiting e
  | .ctxErr, some _ => .elsewhere
  | .get _, .error (.other _) | .createIfAbsent _ _, .error (.other _)
  | .replaceIfToken _ _ _, .error (.other _) => .elsewhere
  | _, _ => s

/-- What ended the acquisition with the trace `tr`. -/
def endingOf (tr : List (Σ c : Op, Resp c)) : Ending :=
  tr.foldl (fun s x => s.step x.1 x.2) .none

/-- The result of an acquisition that ended like this. Any other failure is retryable, or comes
from a corrupt record or from one that cannot be marshalled. -/
def Ends (json : RecordJson) : Ending → Except Err Held → Prop
  | .none, res => ∀ e, res = .error e → isRetryableWrite e = true ∨
      e.classOf = some .configurationInvalid ∨ ∃ rec, json.marshal rec = .error e
  | .waiting e, res => res = .error e
  | .elsewhere, res => ∃ e, res = .error e ∧ isRetryableWrite e = true

section Programs

variable {json : RecordJson} {m : Manager}

/-- A round leaves the acquisition to go on, or ends it. -/
def RoundEnds (json : RecordJson) (s : Ending) (res : Except Err Held) : Prop :=
  (s = .none ∧ ∃ e, res = .error e ∧ e.is .errRetry = true) ∨
    (∀ e, res = .error e → e.is .errRetry = false) ∧ Ends json s res

theorem roundEnds_retryBecause (reason : String) :
    RoundEnds json .none (.error (retryBecause reason)) :=
  .inl ⟨rfl, _, rfl, by simp [retryBecause, Err.is]⟩

theorem roundEnds_unavailable {s : Ending} (hs : s = .none ∨ s = .elsewhere) (message : String)
    (e : StoreErr) : RoundEnds json s (.error (.wrap .remoteUnavailable message "" e.cause)) := by
  refine .inr ⟨?_, ?_⟩
  · rintro _ ⟨⟩
    rfl
  rcases hs with rfl | rfl
  · rintro _ ⟨⟩
    exact .inl rfl
  · exact ⟨_, rfl, rfl⟩

theorem roundEnds_ok (held : Held) : RoundEnds json .none (.ok held) := .inr ⟨nofun, nofun⟩

/-- An error of the class of corrupt records, whatever its cause, or one of marshalling. -/
theorem roundEnds_corrupt {e : Err}
    (he : e.classOf = some .configurationInvalid ∨ ∃ rec, json.marshal rec = .error e) :
    RoundEnds json .none (.error e) := by
  cases hretry : e.is .errRetry with
  | true => exact .inl ⟨rfl, e, rfl, hretry⟩
  | false =>
    refine .inr ⟨?_, ?_⟩
    · rintro _ ⟨⟩
      exact hretry
    · rintro _ ⟨⟩
      exact .inr he

theorem create_ends (key : String) (rec : Record) :
    (create json m key rec).Obeys (.ofStep Ending.step) (RoundEnds json) .none := by
  unfold create
  split
  · next hbody => exact roundEnds_corrupt (.inr ⟨rec, hbody⟩)
  refine .does trivial ?_
  rintro ((_ | _ | _ | text) | version)
  · exact roundEnds_unavailable (.inl rfl) _ _
  · exact roundEnds_retryBecause _
  · exact roundEnds_retryBecause _
  · exact roundEnds_unavailable (.inr rfl) _ _
  · refine ⟨trivial, ?_⟩
    rintro held _ rfl
    exact roundEnds_ok held

theorem replace_ends (key : String) (version : Token) (rec : Record) :
    (replace json m key version rec).Obeys (.ofStep Ending.step) (RoundEnds json) .none := by
  unfold replace
  split
  · next hbody => exact roundEnds_corrupt (.inr ⟨rec, hbody⟩)
  refine .does trivial ?_
  rintro ((_ | _ | _ | text) | version)
  · exact roundEnds_retryBecause _
  · exact roundEnds_retryBecause _
  · exact roundEnds_unavailable (.inl rfl) _ _
  · exact roundEnds_unavailable (.inr rfl) _ _
  · refine ⟨trivial, ?_⟩
    rintro held _ rfl
    exact roundEnds_ok held

theorem acquireOnce_ends (db : DatabaseID) (key : String) :
    (acquireOnce json m db key).Obeys (.ofStep Ending.step) (RoundEnds json) .none := by
  refine .does trivial ?_
  rintro ((_ | _ | _ | text) | ⟨body, version⟩)
  · refine ⟨trivial, ?_⟩
    rintro now _ rfl
    refine ⟨trivial, ?_⟩
    rintro id _ rfl
    exact create_ends key _
  · exact roundEnds_unavailable (.inl rfl) _ _
  · exact roundEnds_unavailable (.inl rfl) _ _
  · exact roundEnds_unavailable (.inr rfl) _ _
  · simp only
    split
    · exact roundEnds_corrupt (.inl rfl)
    split
    · exact roundEnds_corrupt (.inl rfl)
    refine .does trivial fun now => ?_
    split
    · exact roundEnds_retryBecause _
    refine ⟨trivial, ?_⟩
    rintro time _ rfl
    refine ⟨trivial, ?_⟩
    rintro id _ rfl
    exact replace_ends key version _

theorem retryDelay_bind_ends {α : Type} {Q : Ending → α → Prop} {s : Ending} {attempt : ℕ}
    {f : ℤ → LeaseM α} (hf : ∀ delay, (f delay).Obeys (.ofStep Ending.step) Q s) :
    (retryDelay m attempt >>= f).Obeys (.ofStep Ending.step) Q s := by
  unfold retryDelay jitter
  split
  · exact hf _
  · refine ⟨trivial, ?_⟩
    rintro (_ | n) _ rfl <;> exact hf _

theorem acquireLocked_ends (db : DatabaseID) (key : String) (fl rounds attempt : ℕ) :
    (acquireLocked json m db key fl rounds attempt).Obeys (.ofStep Ending.step) (Ends json)
      .none := by
  induction rounds using Nat.strong_induction_on generalizing attempt with
  | _ rounds ih =>
    rw [acquireLocked_eq]
    refine .does trivial fun waitCh => ?_
    refine (acquireOnce_ends db key).bind ?_
    rintro s (err | held) hround
    · simp only
      split
      · next hretry =>
        obtain rfl : s = .none := by
          rcases hround with ⟨hs, -⟩ | ⟨hfinal, -⟩
          · exact hs
          · rw [hfinal err rfl] at hretry
            cases hretry
        have hbusy : isRetryableWrite (acquireLocked.busyError m) = true := rfl
        refine .does trivial fun spent => ?_
        split
        · rintro _ ⟨⟩
          exact .inl hbusy
        refine .does trivial ?_
        rintro (_ | e)
        · split
          · rintro _ ⟨⟩
            exact .inl hbusy
          refine retryDelay_bind_ends fun delay => ?_
          refine .does trivial ?_
          rintro (_ | _ | e)
          · exact ih _ (by omega) _
          · exact ih _ (by omega) _
          · exact rfl
        · rw [if_pos (.inr rfl)]
          exact ⟨_, rfl, hbusy⟩
      · next hfinal =>
        rcases hround with ⟨-, e, ⟨⟩, hretry⟩ | ⟨-, hends⟩
        · exact absurd hretry hfinal
        · exact hends
    · rcases hround with ⟨-, e, ⟨⟩, -⟩ | ⟨-, hends⟩
      exact hends

/-- **The result of an acquisition agrees with what ended it.** -/
theorem acquire_ends {rounds : ℕ} {db : DatabaseID} {rootPrefix : List String}
    {tr : List (Σ c, Resp c)} {res : Except Err Held}
    (h : Returns (acquire json m rounds db rootPrefix) tr res) : Ends json (endingOf tr) res := by
  refine h.obeys ?_
  refine ⟨trivial, ?_⟩
  rintro fl _ rfl
  refine ⟨trivial, ?_⟩
  rintro _ _ rfl
  refine (acquireLocked_ends db _ fl rounds 0).bind fun s res hs => ?_
  refine ⟨trivial, ?_⟩
  rintro _ _ rfl
  refine ⟨trivial, ?_⟩
  rintro _ _ rfl
  exact hs

/-- A release fails with a retryable error, or because its record cannot be marshalled. -/
theorem release_yields (held : Option Held) : (release json held).Yields fun res =>
    ∀ e, res = some e → isRetryableWrite e = true ∨ ∃ rec, json.marshal rec = .error e := by
  cases held with
  | none => exact nofun
  | some held =>
    refine (Prog.yields_true (stopRenewal held)).bind fun _ _ => ?_
    refine Prog.yields_perform_bind fun x => ?_
    refine Prog.yields_perform_bind fun now => ?_
    split
    · next hbody =>
      rintro _ ⟨⟩
      exact .inr ⟨_, hbody⟩
    refine Prog.yields_perform_bind ?_
    rintro ((_ | _ | _ | text) | version)
    · rintro _ _ ⟨⟩
      exact .inl rfl
    · rintro _ _ ⟨⟩
      exact .inl rfl
    · rintro _ ⟨⟩
      exact .inl rfl
    · rintro _ ⟨⟩
      exact .inl rfl
    · exact nofun

end Programs

end Walrusd.Lease
