import Mathlib
import Walrusd.Lease.Codec
import Walrusd.Lease.Conduct

/-!
# The rules of acquisition

A round of acquisition may write to the store only if the key is absent, or if the stored record is
one that this version of the format knows, of the same database, and released or safely expired.
`acquireOnce` does not look at the format version, and it refuses a record only if its state is
`held`. A record of another version, or one with an unknown state, is therefore replaced as if it
had been released.

What is stored and what the clock shows is read off the trace of a round, so that the statements
hold whatever other processes do to the store in the meantime.

## Main definitions

* `Reading` — what a round has read, and whether it has written.
* `MayTake`, `Takes` — the rule, and what the code asks.
* `Recognised`, `Writable`.

## Main results

* `acquireOnce_warranted`, `acquisition_rule_iff`.
-/

namespace Walrusd.Lease

open Program

/-- What a round of acquisition has read from the store, what the clock showed first, and whether
it has issued a write. -/
structure Reading where
  got : Option (Except StoreErr (Bytes × Token)) := none
  now : Option ℤ := none
  wrote : Bool := false

/-- The state after an answer. -/
def Reading.step (s : Reading) : (c : Op) → Resp c → Reading
  | .get _, r => { s with got := some r }
  | .now, t => { s with now := s.now.or (some t) }
  | .createIfAbsent _ _, _ | .replaceIfToken _ _ _, _ => { s with wrote := true }
  | _, _ => s

/-- What a trace of a round shows. -/
def readingOf (tr : List (Σ c : Op, Resp c)) : Reading := tr.foldl (fun s x => s.step x.1 x.2) {}

section Rules

variable (json : RecordJson) (m : Manager) (db : DatabaseID)

/-- The rule: the key is absent, or the record is of this format and of this database, and released
or safely expired. -/
def MayTake (got : Except StoreErr (Bytes × Token)) (now : ℤ) : Prop :=
  got = .error .notFound ∨ ∃ body tok rec, got = .ok (body, tok) ∧
    json.unmarshal body = .ok rec ∧ rec.formatVersion = formatVersion ∧
    rec.databaseID = db.string ∧ (rec.state = .released ∨
      rec.state = .held ∧ rec.expiresAt < now - m.cfg.clockSkewAllowance)

/-- What the code asks: the key is absent, or the record is of this database, and safely expired if
it is held. -/
def Takes (got : Except StoreErr (Bytes × Token)) (now : ℤ) : Prop :=
  got = .error .notFound ∨ ∃ body tok rec, got = .ok (body, tok) ∧
    json.unmarshal body = .ok rec ∧ rec.databaseID = db.string ∧
    (rec.state = .held → rec.expiresAt < now - m.cfg.clockSkewAllowance)

/-- A record of this database is of this format and has a known state, or is held and not safely
expired. -/
def Recognised (got : Except StoreErr (Bytes × Token)) (now : ℤ) : Prop :=
  ∀ body tok rec, got = .ok (body, tok) → json.unmarshal body = .ok rec →
    rec.databaseID = db.string →
      (rec.formatVersion = formatVersion ∧ (rec.state = .held ∨ rec.state = .released)) ∨
        (rec.state = .held ∧ ¬ rec.expiresAt < now - m.cfg.clockSkewAllowance)

/-- The record that a takeover of the stored one would write can be marshalled, at some time and
with some lease ID. -/
def Writable (got : Except StoreErr (Bytes × Token)) : Prop :=
  ∀ body tok rec, got = .ok (body, tok) → json.unmarshal body = .ok rec →
    ∃ t id data, json.marshal (issued m db t id ((rec.epoch + 1) % 2 ^ 64)) = .ok data

variable {json m db}

theorem takes_imp_mayTake_iff {got : Except StoreErr (Bytes × Token)} {now : ℤ} :
    (Takes json m db got now → MayTake json m db got now) ↔ Recognised json m db got now := by
  constructor
  · intro h body tok rec hgot hrec hdb
    by_cases hheld : rec.state = .held ∧ ¬ rec.expiresAt < now - m.cfg.clockSkewAllowance
    · exact .inr hheld
    refine .inl ?_
    have htakes : Takes json m db got now :=
      .inr ⟨body, tok, rec, hgot, hrec, hdb, fun hs => by_contra fun he => hheld ⟨hs, he⟩⟩
    rcases h htakes with habsent | ⟨body', tok', rec', hgot', hrec', hversion, -, hstate⟩
    · rw [habsent] at hgot
      cases hgot
    rw [hgot] at hgot'
    cases hgot'
    rw [hrec] at hrec'
    cases hrec'
    exact ⟨hversion, hstate.elim .inr fun hs => .inl hs.1⟩
  · rintro h (habsent | ⟨body, tok, rec, hgot, hrec, hdb, hexpired⟩)
    · exact .inl habsent
    rcases h body tok rec hgot hrec hdb with ⟨hversion, hstate⟩ | ⟨hheld, hlive⟩
    · refine .inr ⟨body, tok, rec, hgot, hrec, hversion, hdb, ?_⟩
      exact hstate.elim (fun hs => .inr ⟨hs, hexpired hs⟩) .inl
    · exact absurd (hexpired hheld) hlive

/-! ### The writes of a round -/

/-- The round has read what the code asks for, and can marshal what it writes. -/
def Reading.Asked (json : RecordJson) (m : Manager) (db : DatabaseID) (s : Reading) : Prop :=
  ∃ got now, s.got = some got ∧ s.now = some now ∧ Takes json m db got now ∧ Writable json m db got

/-- A round that has written has read what the code asks for. -/
abbrev Warranted (json : RecordJson) (m : Manager) (db : DatabaseID) (s : Reading)
    (_ : Except Err Held) : Prop := s.wrote = true → s.Asked json m db

section Writes

variable {s : Reading} {key : String} {rec : Record}

theorem newHeld_warranted {version : Token} (hs : s.Asked json m db) :
    (newHeld m key rec version >>= fun held => return .ok held).Obeys (.ofStep Reading.step)
      (Warranted json m db) s :=
  .perform trivial fun _ _ hn _ => hn ▸ hs

theorem create_warranted (hs : s.Asked json m db) :
    (create json m key rec).Obeys (.ofStep Reading.step) (Warranted json m db) s := by
  unfold create
  split
  · exact fun _ => hs
  refine .does trivial ?_
  rintro ((_ | _ | _ | _) | version)
  · exact fun _ => hs
  · exact fun _ => hs
  · exact fun _ => hs
  · exact fun _ => hs
  · exact newHeld_warranted hs

theorem replace_warranted {version : Token} (hwrote : s.wrote = false)
    (hs : ∀ body, json.marshal rec = .ok body → s.Asked json m db) :
    (replace json m key version rec).Obeys (.ofStep Reading.step) (Warranted json m db) s := by
  unfold replace
  split
  · exact fun hwritten => absurd (hwrote.symm.trans hwritten) Bool.false_ne_true
  · next body hbody =>
    have hs := hs body hbody
    refine .does trivial ?_
    rintro ((_ | _ | _ | _) | version)
    · exact fun _ => hs
    · exact fun _ => hs
    · exact fun _ => hs
    · exact fun _ => hs
    · exact newHeld_warranted hs

/-- **A round that writes has read an absent key, or a record of its database that is not held or
is safely expired.** -/
theorem acquireOnce_warranted (key : String) :
    (acquireOnce json m db key).Obeys (.ofStep Reading.step) (Warranted json m db) {} := by
  unfold acquireOnce
  refine .does trivial ?_
  rintro ((_ | _ | _ | _) | ⟨body, tok⟩)
  · unfold newRecord
    simp only [Prog.bind_assoc]
    refine .does trivial fun t => ?_
    refine .does trivial fun id => ?_
    exact create_warranted ⟨_, t, rfl, rfl, .inl rfl, nofun⟩
  · exact nofun
  · exact nofun
  · exact nofun
  · simp only
    split
    · exact nofun
    · next rec hrec =>
      split
      · exact nofun
      · next hdb =>
        refine .does trivial fun now => ?_
        split
        · exact nofun
        · next hfree =>
          have hexpired : rec.state = .held →
              rec.expiresAt < now - m.cfg.clockSkewAllowance := fun hheld =>
            by_contra fun hlive => hfree ⟨hheld, hlive⟩
          have htakes : Takes json m db (.ok (body, tok)) now :=
            .inr ⟨body, tok, rec, rfl, hrec, not_not.mp hdb, hexpired⟩
          unfold newRecord
          simp only [Prog.bind_assoc]
          refine .does trivial fun t => ?_
          refine .does trivial fun id => ?_
          refine replace_warranted rfl fun data hdata => ⟨_, now, rfl, rfl, htakes, ?_⟩
          rintro _ _ rec' ⟨⟩ hrec'
          cases hrec.symm.trans hrec'
          exact ⟨t, id, data, hdata⟩

/-- Conversely, a round that reads a record that the code takes, and can marshal the next one,
writes. -/
theorem exists_write {body data : Bytes} {tok : Token} {now : ℤ} (t : ℤ) (id : String)
    (hrec : json.unmarshal body = .ok rec) (hdb : rec.databaseID = db.string)
    (hexpired : rec.state = .held → rec.expiresAt < now - m.cfg.clockSkewAllowance)
    (hdata : json.marshal (issued m db t id ((rec.epoch + 1) % 2 ^ 64)) = .ok data) (key : String) :
    ∃ tr res, Returns (acquireOnce json m db key) tr res ∧
      readingOf tr = ⟨some (.ok (body, tok)), some now, true⟩ := by
  refine ⟨⟨.get key, .ok (body, tok)⟩ :: ⟨.now, now⟩ :: ⟨.now, t⟩ :: ⟨.newID, id⟩ ::
    [⟨.replaceIfToken key tok data, .error .conflict⟩],
    .error (retryBecause "CAS conflict on acquire"), ?_, rfl⟩
  rw [acquireOnce, perform_bind]
  refine .call ?_
  simp only [hrec]
  rw [if_neg (not_not.mpr hdb), perform_bind]
  refine .call ?_
  rw [if_neg fun h => h.2 (hexpired h.1)]
  have hreplace : Returns (replace json m key tok (issued m db t id ((rec.epoch + 1) % 2 ^ 64)))
      [⟨.replaceIfToken key tok data, .error .conflict⟩]
      (.error (retryBecause "CAS conflict on acquire")) := by
    rw [replace, hdata]
    exact .call (.done _)
  exact .call (.call hreplace)

end Writes

/-- **The rule is kept if and only if the stored record is recognised**, where a takeover of it can
be written at all. Whatever is stored and whatever the clock shows: if the records of the database
are of this format and have a known state, unless they are held and not safely expired, then a round
writes only where the rule allows it; and otherwise it does not keep to the rule. In any case a
round writes only if the key is absent or the record is of the same database and is not held or is
safely expired. -/
theorem acquisition_rule_iff (got : Except StoreErr (Bytes × Token)) (now : ℤ) (key : String) :
    ((∀ tr res, Returns (acquireOnce json m db key) tr res → (readingOf tr).got = some got →
        (readingOf tr).now = some now → (readingOf tr).wrote = true → MayTake json m db got now) ↔
      (Writable json m db got → Recognised json m db got now)) ∧
    ∀ tr res, Returns (acquireOnce json m db key) tr res → (readingOf tr).wrote = true →
      (readingOf tr).Asked json m db := by
  have hasked : ∀ tr res, Returns (acquireOnce json m db key) tr res →
      (readingOf tr).wrote = true → (readingOf tr).Asked json m db := fun tr res h =>
    h.obeys (acquireOnce_warranted key)
  refine ⟨⟨fun hrule hwritable => ?_, ?_⟩, hasked⟩
  · refine takes_imp_mayTake_iff.mp fun htakes => ?_
    rcases htakes with habsent | ⟨body, tok, rec, rfl, hrec, hdb, hexpired⟩
    · exact .inl habsent
    obtain ⟨t, id, data, hdata⟩ := hwritable body tok rec rfl hrec
    obtain ⟨tr, res, hreturns, hreading⟩ := exists_write t id hrec hdb hexpired hdata key
    exact hrule tr res hreturns (by rw [hreading]) (by rw [hreading]) (by rw [hreading])
  · intro hrecognised tr res hreturns hgot hnow hwrote
    obtain ⟨got', now', hgot', hnow', htakes, hwritable⟩ := hasked tr res hreturns hwrote
    rw [hgot] at hgot'
    rw [hnow] at hnow'
    cases hgot'
    cases hnow'
    exact takes_imp_mayTake_iff.mpr (hrecognised hwritable) htakes

end Rules

namespace Foreign

/-- The manager that reads the records. -/
def manager : Manager := ⟨defaultConfig, "self", none⟩

/-- What is stored. -/
def body (rec : Record) : Bytes := Plain.encode (Plain.write rec)

theorem unmarshals (rec : Record) : RecordJson.plain.unmarshal (body rec) = .ok rec :=
  RecordJson.plain.unmarshal_marshal rfl

/-- A record of another version that its owner holds until time 100. -/
def record : Record := ⟨2, "db", .unknown "leased", "other", "id", 1, 100⟩

/-- A record of another version, in a state that this one does not know and not expired, is
replaced. -/
theorem foreign_replaced :
    ∃ tr res, Returns (acquireOnce .plain manager ⟨"db"⟩ "key") tr res ∧
      (readingOf tr).got = some (.ok (body record, "tok")) ∧ (readingOf tr).now = some 0 ∧
      (readingOf tr).wrote = true ∧
      ¬ MayTake .plain manager ⟨"db"⟩ (.ok (body record, "tok")) 0 := by
  obtain ⟨tr, res, hreturns, hreading⟩ : ∃ tr res,
      Returns (acquireOnce .plain manager ⟨"db"⟩ "key") tr res ∧
        readingOf tr = ⟨some (.ok (body record, "tok")), some 0, true⟩ :=
    exists_write 0 "" (unmarshals record) rfl nofun rfl "key"
  refine ⟨tr, res, hreturns, by rw [hreading], by rw [hreading], by rw [hreading], ?_⟩
  rintro (habsent | ⟨_, _, rec, hgot, hrec, hversion, -⟩)
  · cases habsent
  cases hgot
  rw [unmarshals] at hrec
  cases hrec
  exact absurd hversion (by decide)

/-- A record that another process held until time 100. -/
def expired : Record := ⟨1, "db", .held, "other", "id", 6, 100⟩

/-- The rule is kept where an expired record is stored, and a round that reads it an hour later
takes it over. -/
theorem expired_rule_kept :
    (∃ tr res, Returns (acquireOnce .plain manager ⟨"db"⟩ "key") tr res ∧
      readingOf tr = ⟨some (.ok (body expired, "tok")), some (3600 * second), true⟩) ∧
    Recognised .plain manager ⟨"db"⟩ (.ok (body expired, "tok")) (3600 * second) ∧
      ∀ tr res, Returns (acquireOnce .plain manager ⟨"db"⟩ "key") tr res →
        (readingOf tr).got = some (.ok (body expired, "tok")) →
        (readingOf tr).now = some (3600 * second) → (readingOf tr).wrote = true →
        MayTake .plain manager ⟨"db"⟩ (.ok (body expired, "tok")) (3600 * second) := by
  have hrecognised :
      Recognised .plain manager ⟨"db"⟩ (.ok (body expired, "tok")) (3600 * second) := by
    rintro _ _ rec ⟨⟩ hrec -
    cases (unmarshals expired).symm.trans hrec
    exact .inl ⟨rfl, .inl rfl⟩
  refine ⟨?_, hrecognised, (acquisition_rule_iff _ _ "key").1.mpr fun _ => hrecognised⟩
  exact exists_write 0 "" (unmarshals expired) rfl (fun _ => by decide) rfl "key"

end Foreign

end Walrusd.Lease
