import Walrusd.Runtime.Write

/-!
# Reads

`WithRead` of `runtime/runtime.go`: run the callback on a cached session if there is one, and
otherwise open a session on the manifest, or on a listing when there is no manifest, and cache it.

A read runs its callback on a session or, for an empty database, in memory. `heard` watches the
results of these runs: the callback is not run again after a result other than that of a closed
session, and the result of the last run decides what the read reports.

## Main definitions

* `withRead` and its stages.
* `ReadPath`, `heard`, `reported`.

## Main results

* `withRead_heard`.
-/

namespace Walrusd.Runtime

open Program Litestream

section Read

variable {B : Type} (json : ManifestJson B) (d : Descriptor)

/-- `withEmptyRead`: serve a read of a database without files from memory. -/
def withEmptyRead : RuntimeM B (Option Err) := do
  let opened : Option Err ← ask .openEmpty
  match opened with
  | some e => return some (.wrap .remoteUnavailable "open empty read session" "" e)
  | none => ask .runEmpty

/-- Open a session, run the callback on it, and cache it. -/
def openAndRun (files : Option (List FileInfo)) : RuntimeM B (Option Err) := do
  let opened : Except Err Sess ← ask (.openRead files)
  match opened with
  | .error e => return some (wrapSessionOpenError "open read session" e)
  | .ok s =>
    let ran : Option Err ← ask (.runRead s)
    match ran with
    | some e =>
      ask (.closeRead s)
      return some (.wrap (classifySQLError e) "read failed" "" e)
    | none =>
      ask (.cachePut s)
      return none

/-- The read without a cached session. -/
def readFresh : RuntimeM B (Option Err) := do
  match ← readManifest json with
  | .error e => return some (.wrap .remoteUnavailable "read manifest" "" e)
  | .ok (some []) => withEmptyRead
  | .ok (some (f :: files)) => openAndRun (some (f :: files))
  | .ok none =>
    match ← hasLTX with
    | .error e => return some (.wrap .remoteUnavailable "probe replica" "" e)
    | .ok false => withEmptyRead
    | .ok true => openAndRun none

/-- The read of a registered database. -/
def readWithEntry : RuntimeM B (Option Err) := do
  let cached : Option Sess ← ask .cacheGet
  match cached with
  | none => readFresh json
  | some s =>
    let ran : Option Err ← ask (.runRead s)
    match ran with
    | none => return none
    | some e =>
      ask .evict
      if e.is .readSessionClosed then readFresh json
      else return some (.wrap (classifySQLError e) "read failed" "" e)

/-- `WithRead`; `identity` is the error of an invalid database ID. -/
def withRead (identity : Option Err) : RuntimeM B (Option Err) :=
  match identity with
  | some e => return some (.wrap .invalidArgument "database id" "" e)
  | none => do
    let entry : Except Err Unit ← ask .database
    match entry with
    | .error e => return some (e.withDatabase d.id.ID)
    | .ok () =>
      let res ← readWithEntry json
      ask .releaseDatabase
      return res.map (Err.withDatabase d.id.ID)

end Read

/-! ### What a read reports -/

/-- Where the callback of a read runs. -/
inductive ReadPath
  | session
  | empty
  deriving DecidableEq, Repr

/-- What a read reports when its callback has failed with `e`. -/
def reported (d : Descriptor) : ReadPath → Err → Err
  | .session, e => (Err.wrap (classifySQLError e) "read failed" "" e).withDatabase d.id.ID
  | .empty, e => e.withDatabase d.id.ID

/-- Where the callback ran last, and its result; a read that turns to the manifest has not run it
yet. -/
abbrev Heard := Option (ReadPath × Option Err)

namespace Heard

variable {B : Type}

/-- The state after an answer. -/
def step (s : Heard) : (c : Op B) → Resp c → Heard
  | .runRead _, r => some (.session, r)
  | .runEmpty, r => some (.empty, r)
  | .manifestGet, _ => none
  | _, _ => s

/-- The calls that run the callback or turn to the manifest. -/
def begins : Op B → Bool
  | .runRead _ | .runEmpty | .manifestGet => true
  | _ => false

theorem step_of_not_begins {s : Heard} {c : Op B} (hc : begins c = false) (r : Resp c) :
    s.step c r = s := by
  cases c <;> first | rfl | cases hc

/-- The callback has returned, on a session that was not closed. -/
def Settled (s : Heard) : Prop :=
  ∃ path r, s = some (path, r) ∧ ∀ e, r = some e → e.is .readSessionClosed = false

end Heard

/-- Nothing begins again once the callback has returned. -/
def heard {B : Type} : Protocol (Op B) Resp Heard where
  allow s c := Heard.begins c = true → ¬ s.Settled
  next s c r s' := s' = s.step c r

section HeardRules

variable {B α : Type} {Q : Heard → α → Prop} {s : Heard}

theorem heard_other {c : Op B} {f : Resp c → RuntimeM B α} (hc : Heard.begins c = false)
    (hf : ∀ r, (f r).Obeys heard Q s) : (perform c >>= f : RuntimeM B α).Obeys heard Q s := by
  refine .perform (fun h => ?_) fun r s' hn => ?_
  · rw [hc] at h
    cases h
  · rw [hn, Heard.step_of_not_begins hc]
    exact hf r

theorem not_settled_none : ¬ Heard.Settled none := by
  rintro ⟨path, r, h, -⟩
  cases h

/-- The result `res` is what the last run of the callback calls for. -/
def Conveys (d : Descriptor) (s : Heard) (res : Option Err) : Prop :=
  ∀ path r, s = some (path, r) → res = r.map (reported d path)

variable (json : ManifestJson B) (d : Descriptor)

/-- What `WithRead` does with the result of its stages. -/
abbrev Conveyed (s : Heard) (res : Option Err) : Prop :=
  Conveys d s (res.map (Err.withDatabase d.id.ID))

theorem withEmptyRead_heard : (withEmptyRead : RuntimeM B _).Obeys heard (Conveyed d) none := by
  refine heard_other rfl ?_
  rintro (_ | e)
  · refine Prog.obeys_perform.mpr ⟨fun _ => not_settled_none, ?_⟩
    rintro r _ rfl path r' heq
    cases heq
    rfl
  · exact nofun

theorem openAndRun_heard (files : Option (List FileInfo)) :
    (openAndRun files : RuntimeM B _).Obeys heard (Conveyed d) none := by
  refine heard_other rfl ?_
  rintro (e | h)
  · exact nofun
  refine .perform (fun _ => not_settled_none) ?_
  rintro (_ | e) _ rfl
  · refine heard_other rfl fun _ => ?_
    rintro path r heq
    cases heq
    rfl
  · refine heard_other rfl fun _ => ?_
    rintro path r heq
    cases heq
    rfl

theorem readFresh_heard (hs : ¬ s.Settled) : (readFresh json).Obeys heard (Conveyed d) s := by
  have hread : (readManifest json).Obeys heard (fun s' _ => s' = none) s := by
    refine .perform (fun _ => hs) ?_
    rintro (e | data) _ rfl
    · simp only
      split <;> rfl
    · simp only
      split <;> rfl
  refine hread.bind ?_
  rintro _ (e | _ | _ | ⟨f, files⟩) rfl
  · exact nofun
  · have hlisting : ∀ c : Op B, c.kind = .listing → Heard.begins c = false := by
      intro c hc
      cases c <;> first | rfl | cases hc
    refine hasLTX_only.bind_obeys (fun c hc => ⟨fun h => ?_, fun r s' hn => ?_⟩) ?_
    · rw [hlisting c hc] at h
      cases h
    · rw [hn, Heard.step_of_not_begins (hlisting c hc)]
    rintro (e | _ | _)
    · exact nofun
    · exact withEmptyRead_heard d
    · exact openAndRun_heard d none
  · exact withEmptyRead_heard d
  · exact openAndRun_heard d (some (f :: files))

theorem readWithEntry_heard : (readWithEntry json).Obeys heard (Conveyed d) none := by
  refine heard_other rfl ?_
  rintro (_ | h)
  · exact readFresh_heard json d not_settled_none
  refine .perform (fun _ => not_settled_none) ?_
  rintro (_ | e) _ rfl
  · rintro path r heq
    cases heq
    rfl
  refine heard_other rfl fun _ => ?_
  split
  · next hclosed =>
    refine readFresh_heard json d ?_
    rintro ⟨path, r, heq, hopen⟩
    cases heq
    rw [hopen e rfl] at hclosed
    cases hclosed
  · rintro path r heq
    cases heq
    rfl

/-- **The result of the last run of the callback decides what a read reports.** -/
theorem withRead_heard (identity : Option Err) :
    (withRead json d identity).Obeys heard (Conveys d) none := by
  cases identity with
  | some e => exact nofun
  | none =>
    refine heard_other rfl ?_
    rintro (e | _)
    · exact nofun
    · refine (readWithEntry_heard json d).bind fun s res hres => ?_
      exact heard_other rfl fun _ => hres

end HeardRules

end Walrusd.Runtime
