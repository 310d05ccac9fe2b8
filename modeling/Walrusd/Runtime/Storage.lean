import Mathlib.Data.List.MinMax
import Walrusd.Runtime.Op

/-!
# Object storage and SQLite sessions

The state that the storage calls of the runtime act on: the LTX objects of one replica, its
manifest object, and the open sessions. An object carries the idempotency rows that its
transactions wrote, because a retry reads them back; the rest of the database contents is left
out.

An upload or a PUT takes effect before its call returns or never, but a call that reports an error
may have taken effect. A session reads the objects that its file list names, so what it sees is
fixed when it is opened. A merge writes one file that spans the files of the source level after the
highest TXID of the destination. What a listing answers is not restricted here: worlds that use
this file say so themselves.

## Main definitions

* `Replica`, `Session`, `Storage`.
* `Storage.Answers` — the answers to a call and their effects.
* `Storage.reply` — an executable choice of them.

## Main results

* `Storage.reply_answers`.
* `Storage.Answers.replica_eq` — most calls leave the replica alone.
-/

namespace Walrusd.Runtime

open Program Litestream Function List Option

/-! ### The replica -/

/-- A row of the idempotency table, with the TXID of the transaction that wrote it. -/
structure Row where
  txid : ℕ
  key : String
  text : String
  deriving DecidableEq, Repr

/-- An LTX object: its metadata and the rows that its transactions wrote. -/
structure Object where
  info : FileInfo
  rows : List Row
  deriving DecidableEq, Repr

/-- The durable state of a database: its LTX objects and the contents of its manifest object. -/
structure Replica (B : Type) where
  objects : List Object
  manifest : Option B

namespace Replica

variable {B : Type} (rep : Replica B)

/-- The metadata of all objects. -/
def infos : List FileInfo := rep.objects.map Object.info

/-- The rows in the objects that a file list names. -/
def rowsOf (files : List FileInfo) : List Row :=
  (rep.objects.filter fun o => HasKey files o.info.key).flatMap Object.rows

/-- Upload an object, in place of one of the same name. -/
def put (o : Object) : Replica B :=
  { rep with objects := (rep.objects.filter fun o' => o'.info.key ≠ o.info.key) ++ [o] }

/-- Delete the objects of these names. -/
def remove (files : List FileInfo) : Replica B :=
  { rep with objects := rep.objects.filter fun o => ¬ HasKey files o.info.key }

/-- Store a manifest. -/
def store (data : B) : Replica B := { rep with manifest := some data }

variable {rep}
variable {k : FileKey}

theorem hasKey_infos : HasKey rep.infos k ↔ ∃ o ∈ rep.objects, o.info.key = k := by
  simp [hasKey_iff, infos]

theorem mem_rowsOf {files : List FileInfo} {row : Row} :
    row ∈ rep.rowsOf files ↔ ∃ o ∈ rep.objects, HasKey files o.info.key ∧ row ∈ o.rows := by
  simp [rowsOf, and_assoc]

theorem mem_put {o o' : Object} :
    o' ∈ (rep.put o).objects ↔ (o' ∈ rep.objects ∧ o'.info.key ≠ o.info.key) ∨ o' = o := by
  simp [put]

theorem hasKey_put {o : Object} :
    HasKey (rep.put o).infos k ↔ HasKey rep.infos k ∨ o.info.key = k := by
  simp only [hasKey_infos, mem_put]
  constructor
  · rintro ⟨o', ⟨ho', -⟩ | rfl, hk⟩
    · exact .inl ⟨o', ho', hk⟩
    · exact .inr hk
  rintro (⟨o', ho', rfl⟩ | hk)
  · by_cases heq : o'.info.key = o.info.key
    · exact ⟨o, .inr rfl, heq.symm⟩
    · exact ⟨o', .inl ⟨ho', heq⟩, rfl⟩
  · exact ⟨o, .inr rfl, hk⟩

theorem hasKey_remove {files : List FileInfo} :
    HasKey (rep.remove files).infos k ↔ HasKey rep.infos k ∧ ¬ HasKey files k := by
  simp only [hasKey_infos, remove, mem_filter, decide_eq_true_eq]
  constructor
  · rintro ⟨o, ⟨ho, hfiles⟩, rfl⟩
    exact ⟨⟨o, ho, rfl⟩, hfiles⟩
  · rintro ⟨⟨o, ho, rfl⟩, hfiles⟩
    exact ⟨o, ⟨ho, hfiles⟩, rfl⟩

end Replica

/-! ### Merges -/

/-- The files that a merge into `level` reads: those of the level below that start after the
highest TXID of `level`. -/
def mergeSources (level : ℕ) (files : List FileInfo) : List FileInfo :=
  files.filter fun f =>
    f.level + 1 = level ∧ manifestMaxTXID (files.filter fun g => g.level = level) < f.minTXID

/-- The lowest TXID in a file list. -/
def manifestMinTXID (files : List FileInfo) : ℕ := (files.map FileInfo.minTXID).min?.getD 0

/-- The file that a merge writes: it spans its sources. -/
def mergedFile (level : ℕ) (sources : List FileInfo) (size createdAt : ℤ) : FileInfo :=
  ⟨level, manifestMinTXID sources, manifestMaxTXID sources, size, createdAt⟩

theorem manifestMinTXID_le {files : List FileInfo} {k : FileKey} (h : HasKey files k) :
    manifestMinTXID files ≤ k.minTXID := by
  obtain ⟨f, hf, rfl⟩ := hasKey_iff.mp h
  have hmem : f.minTXID ∈ files.map FileInfo.minTXID := List.mem_map_of_mem hf
  cases hmin : (files.map FileInfo.minTXID).min? with
  | none => simp [min?_eq_none_iff.mp hmin] at hmem
  | some m =>
    rw [manifestMinTXID, hmin]
    exact (min?_eq_some_iff.mp hmin).2 _ hmem

theorem exists_eq_manifestMinTXID {files : List FileInfo} (h : files ≠ []) :
    ∃ k, HasKey files k ∧ k.minTXID = manifestMinTXID files := by
  cases hmin : (files.map FileInfo.minTXID).min? with
  | none => exact absurd (map_eq_nil_iff.mp (min?_eq_none_iff.mp hmin)) h
  | some m =>
    obtain ⟨f, hf, hm⟩ := List.mem_map.mp (min?_eq_some_iff.mp hmin).1
    exact ⟨f.key, hasKey_of_mem hf, by rw [manifestMinTXID, hmin]; exact hm⟩

/-- A merge of a file list into `level` can write `info`: it has sources, and all of them exist. -/
def Replica.Merges {B : Type} (rep : Replica B) (level : ℕ) (files : List FileInfo)
    (info : FileInfo) : Prop :=
  mergeSources level files ≠ [] ∧ (∀ f ∈ mergeSources level files, HasKey rep.infos f.key) ∧
    info = mergedFile level (mergeSources level files) info.size info.createdAt

instance {B : Type} (rep : Replica B) (level : ℕ) (files : List FileInfo) (info : FileInfo) :
    Decidable (rep.Merges level files info) := inferInstanceAs (Decidable (_ ∧ _ ∧ _))

/-- The replica after a merge. -/
def Replica.merge {B : Type} (rep : Replica B) (level : ℕ) (files : List FileInfo)
    (info : FileInfo) : Replica B :=
  rep.put ⟨info, rep.rowsOf (mergeSources level files)⟩

/-! ### Sessions -/

/-- A SQLite session: the client it reads through, whether that is a manifest client, the rows it
saw when it was opened, and the rows of its open transaction. -/
structure Session where
  client : ManifestClient
  captured : Bool
  visible : List Row
  staged : List Row
  committed : Bool

namespace Session

variable (ses : Session)

/-- The position of the session: the highest TXID of its file list. -/
def pos : ℕ := manifestMaxTXID ses.client.files

/-- The row of a key, if there is one. -/
def row (key : String) : Option Row := (ses.visible ++ ses.staged).find? fun r => r.key = key

/-- Insert a row in the open transaction. -/
def stage (key txid : String) : Session :=
  { ses with staged := ses.staged ++ [⟨ses.pos + 1, key, txid⟩] }

/-- The file that a flush of the session writes. -/
def nextFile (size createdAt : ℤ) : FileInfo := ⟨0, ses.pos + 1, ses.pos + 1, size, createdAt⟩

/-- The transaction of the session can be written as `info`; LTX has no TXIDs beyond 64 bits. -/
def Lands (info : FileInfo) : Prop :=
  ses.pos + 1 < 2 ^ 64 ∧ info = ses.nextFile info.size info.createdAt

instance (info : FileInfo) : Decidable (ses.Lands info) := inferInstanceAs (Decidable (_ ∧ _))

end Session

/-! ### Storage -/

/-- The replica and the sessions open on it; `opened` is the next handle. -/
structure Storage (B : Type) where
  replica : Replica B
  sessions : Sess → Option Session
  opened : Sess

namespace Storage

variable {B : Type} (st : Storage B)

/-- No session is open. -/
def initial (rep : Replica B) : Storage B := ⟨rep, fun _ => none, 0⟩

/-- The session that an open starts: on the manifest's file list, or on a listing. -/
def newSession (files : Option (List FileInfo)) : Session :=
  { client := .new (files.getD st.replica.infos), captured := files.isSome,
    visible := st.replica.rowsOf (files.getD st.replica.infos), staged := [], committed := false }

/-- Change a session. -/
def setSession (s : Sess) (ses : Option Session) : Storage B :=
  { st with sessions := update st.sessions s ses }

/-- Open a session. -/
def openSession (files : Option (List FileInfo)) : Storage B :=
  { st.setSession st.opened (some (st.newSession files)) with opened := st.opened + 1 }

/-- The transaction of a session reaches the replica. -/
def land (ses : Session) (info : FileInfo) : Storage B :=
  { st with replica := st.replica.put ⟨info, ses.staged⟩ }

/-- A flush returns: the transaction has reached the replica and the client has recorded the
file. -/
def flush (s : Sess) (ses : Session) (info : FileInfo) : Storage B :=
  (st.land ses info).setSession s (some { ses with client := ses.client.recordWrite info })

/-- The answers to a call, and the storage after it. Calls that do not concern the storage leave
it alone. -/
def Answers : (c : Op B) → Resp c → Storage B → Prop
  | .manifestGet, .ok data, st' => st' = st ∧ st.replica.manifest = some data
  | .manifestGet, .error e, st' =>
    st' = st ∧ (e.is .manifestNotFound = true → st.replica.manifest = none)
  | .manifestPut data, none, st' => st' = { st with replica := st.replica.store data }
  | .manifestPut data, some _, st' =>
    st' = st ∨ st' = { st with replica := st.replica.store data }
  | .deleteLTXFiles _ files, none, st' => st' = { st with replica := st.replica.remove files }
  | .deleteLTXFiles _ files, some _, st' =>
    ∃ gone, (∀ k, HasKey gone k → HasKey files k) ∧
      st' = { st with replica := st.replica.remove gone }
  | .compact level files, .ok info, st' =>
    st.replica.Merges level files info ∧
      st' = { st with replica := st.replica.merge level files info }
  | .compact level files, .error _, st' =>
    st' = st ∨ ∃ info, st.replica.Merges level files info ∧
      st' = { st with replica := st.replica.merge level files info }
  | .openWrite files, .ok s, st' => s = st.opened ∧ st' = st.openSession files
  | .openRead files, .ok s, st' => s = st.opened ∧ st' = st.openSession files
  | .selectTXID s key, .ok text, st' =>
    st' = st ∧ ∃ ses, st.sessions s = some ses ∧ text = (ses.row key).map Row.text
  | .pos s, .ok n, st' => st' = st ∧ ∃ ses, st.sessions s = some ses ∧ n = ses.pos
  | .insertKey s key txid, none, st' =>
    ∃ ses, st.sessions s = some ses ∧ ses.row key = none ∧
      st' = st.setSession s (some (ses.stage key txid))
  | .commit s, none, st' =>
    ∃ ses, st.sessions s = some ses ∧ st' = st.setSession s (some { ses with committed := true })
  | .commit s, some _, st' =>
    st' = st ∨ ∃ ses info, st.sessions s = some ses ∧ ses.Lands info ∧ st' = st.land ses info
  | .rollback s, _, st' =>
    st' = st.setSession s ((st.sessions s).map fun ses => { ses with staged := [] })
  | .setWriteDisabled s, none, st' =>
    ∃ ses info, st.sessions s = some ses ∧ ses.committed ∧ ses.Lands info ∧
      st' = st.flush s ses info
  | .setWriteDisabled s, some _, st' =>
    st' = st ∨ ∃ ses info, st.sessions s = some ses ∧ ses.committed ∧ ses.Lands info ∧
      st' = st.land ses info
  | .txid s, .ok text, st' =>
    st' = st ∧ ∃ ses, st.sessions s = some ses ∧ text = formatTXID ses.pos
  | .manifestFiles s, files, st' =>
    st' = st ∧ ∃ ses, st.sessions s = some ses ∧
      files = if ses.captured then some ses.client.files else none
  | .closeSession s, _, st' => st' = st.setSession s none
  | .closeRead s, _, st' => st' = st.setSession s none
  | _, _, st' => st' = st

variable {st}

theorem Answers.replica_eq {c : Op B} {r : Resp c} {st' : Storage B} (hc : c.touches = false)
    (h : st.Answers c r st') : st'.replica = st.replica := by
  cases c with
  | manifestPut | deleteLTXFiles | compact | commit | setWriteDisabled => cases hc
  | manifestGet | selectTXID | pos | txid =>
    cases r
    all_goals first
      | rw [show st' = st from h]
      | rw [show st' = st from h.1]
  | openWrite | openRead =>
    cases r
    · rw [show st' = st from h]
    · rw [h.2]
      rfl
  | insertKey =>
    cases r
    · obtain ⟨ses, -, -, rfl⟩ := h
      rfl
    · rw [show st' = st from h]
  | manifestFiles => rw [h.1]
  | rollback | closeSession | closeRead =>
    rw [show st' = _ from h]
    rfl
  | _ => rw [show st' = st from h]

theorem Answers.eq_of_alters {c : Op B} {r : Resp c} {st' : Storage B} (hc : c.alters = false)
    (h : st.Answers c r st') : st' = st := by
  cases c with
  | manifestPut | deleteLTXFiles | compact | commit | setWriteDisabled | openWrite | openRead
  | insertKey | rollback | closeSession | closeRead => cases hc
  | manifestGet | selectTXID | pos | txid =>
    cases r
    all_goals first
      | exact h
      | exact h.1
  | manifestFiles => exact h.1
  | _ => exact h

/-! ### What a call can change -/

/-- The replica after a call: the manifest was stored, objects were deleted, a merge or the
transaction of a session was uploaded, or nothing changed. -/
theorem Answers.replica_cases {c : Op B} {r : Resp c} {st' : Storage B} (h : st.Answers c r st') :
    st'.replica = st.replica ∨
    (∃ data, c = .manifestPut data ∧ st'.replica = st.replica.store data) ∨
    (∃ site files gone, c = .deleteLTXFiles site files ∧ (∀ k, HasKey gone k → HasKey files k) ∧
      st'.replica = st.replica.remove gone) ∨
    (∃ level files info, c = .compact level files ∧ st.replica.Merges level files info ∧
      st'.replica = st.replica.merge level files info) ∨
    (∃ s ses info, (c = .commit s ∨ c = .setWriteDisabled s) ∧ st.sessions s = some ses ∧
      ses.Lands info ∧ st'.replica = st.replica.put ⟨info, ses.staged⟩) := by
  cases c with
  | manifestPut data =>
    cases r with
    | none => exact .inr (.inl ⟨data, rfl, by rw [show st' = _ from h]⟩)
    | some e =>
      rcases h with rfl | rfl
      · exact .inl rfl
      · exact .inr (.inl ⟨data, rfl, rfl⟩)
  | deleteLTXFiles site files =>
    cases r with
    | none =>
      exact .inr (.inr (.inl ⟨site, files, files, rfl, fun _ hk => hk, by
        rw [show st' = _ from h]⟩))
    | some e =>
      obtain ⟨gone, hgone, rfl⟩ := h
      exact .inr (.inr (.inl ⟨site, files, gone, rfl, hgone, rfl⟩))
  | compact level files =>
    cases r with
    | ok info =>
      obtain ⟨hmerge, rfl⟩ := h
      exact .inr (.inr (.inr (.inl ⟨level, files, info, rfl, hmerge, rfl⟩)))
    | error e =>
      rcases h with rfl | ⟨info, hmerge, rfl⟩
      · exact .inl rfl
      · exact .inr (.inr (.inr (.inl ⟨level, files, info, rfl, hmerge, rfl⟩)))
  | commit s =>
    cases r with
    | none =>
      obtain ⟨ses, hses, rfl⟩ := h
      exact .inl rfl
    | some e =>
      rcases h with rfl | ⟨ses, info, hses, hland, rfl⟩
      · exact .inl rfl
      · exact .inr (.inr (.inr (.inr ⟨s, ses, info, .inl rfl, hses, hland, rfl⟩)))
  | setWriteDisabled s =>
    cases r with
    | none =>
      obtain ⟨ses, info, hses, -, hland, rfl⟩ := h
      exact .inr (.inr (.inr (.inr ⟨s, ses, info, .inr rfl, hses, hland, rfl⟩)))
    | some e =>
      rcases h with rfl | ⟨ses, info, hses, -, hland, rfl⟩
      · exact .inl rfl
      · exact .inr (.inr (.inr (.inr ⟨s, ses, info, .inr rfl, hses, hland, rfl⟩)))
  | _ => exact .inl (h.replica_eq rfl)

/-- The answer confirms the flush of the session `s`. -/
def flushes (s : Sess) : (c : Op B) → Resp c → Bool
  | .setWriteDisabled s', none => s' = s
  | _, _ => false

/-- How a call changes a session that is open after it. -/
inductive SessionChange (st : Storage B) (s : Sess) : (c : Op B) → Resp c → Session → Prop
  | same {c r ses} (h : st.sessions s = some ses) (hc : flushes s c r = false) :
      SessionChange st s c r ses
  | opened {c r plan} (hs : s = st.opened) (hc : c = .openWrite plan ∨ c = .openRead plan) :
      SessionChange st s c r (st.newSession plan)
  | stage {r ses} (key text : String) (h : st.sessions s = some ses) :
      SessionChange st s (.insertKey s key text) r (ses.stage key text)
  | rollback {r ses} (h : st.sessions s = some ses) :
      SessionChange st s (.rollback s) r { ses with staged := [] }
  | commit {r ses} (h : st.sessions s = some ses) :
      SessionChange st s (.commit s) r { ses with committed := true }
  | flush {ses info} (h : st.sessions s = some ses) (hland : ses.Lands info) :
      SessionChange st s (.setWriteDisabled s) none
        { ses with client := ses.client.recordWrite info }

variable {c : Op B} {r : Resp c} {st' : Storage B}

theorem setSession_cases {s s' : Sess} {x : Option Session} {ses : Session}
    (h : (st.setSession s' x).sessions s = some ses) :
    s = s' ∧ x = some ses ∨ s ≠ s' ∧ st.sessions s = some ses := by
  by_cases hs : s = s'
  · subst hs
    exact .inl ⟨rfl, by simpa [setSession] using h⟩
  · exact .inr ⟨hs, by simpa [setSession, update_of_ne hs] using h⟩

theorem Answers.session_cases (h : st.Answers c r st') {s : Sess} {ses : Session}
    (hses : st'.sessions s = some ses) : SessionChange st s c r ses := by
  have hopen : ∀ plan, (c = .openWrite plan ∨ c = .openRead plan) → st' = st.openSession plan →
      SessionChange st s c r ses := by
    rintro plan hc rfl
    rcases setSession_cases hses with ⟨hs, heq⟩ | ⟨-, heq⟩
    · rw [← some.inj heq]
      exact .opened hs hc
    · exact .same heq (by rcases hc with rfl | rfl <;> rfl)
  cases c with
  | openWrite plan =>
    cases r with
    | ok s' => exact hopen plan (.inl rfl) h.2
    | error e => exact .same (by rwa [← show st' = st from h]) rfl
  | openRead plan =>
    cases r with
    | ok s' => exact hopen plan (.inr rfl) h.2
    | error e => exact .same (by rwa [← show st' = st from h]) rfl
  | insertKey s' key text =>
    cases r with
    | none =>
      obtain ⟨ses', hses', -, rfl⟩ := h
      rcases setSession_cases hses with ⟨rfl, heq⟩ | ⟨-, heq⟩
      · rw [← some.inj heq]
        exact .stage key text hses'
      · exact .same heq rfl
    | some e => exact .same (by rwa [← show st' = st from h]) rfl
  | rollback s' =>
    obtain rfl := show st' = _ from h
    rcases setSession_cases hses with ⟨rfl, heq⟩ | ⟨-, heq⟩
    · obtain ⟨ses', hses', rfl⟩ := map_eq_some_iff.mp heq
      exact .rollback hses'
    · exact .same heq rfl
  | closeSession s' | closeRead s' =>
    obtain rfl := show st' = _ from h
    rcases setSession_cases hses with ⟨-, heq⟩ | ⟨-, heq⟩
    · cases heq
    · exact .same heq rfl
  | commit s' =>
    cases r with
    | none =>
      obtain ⟨ses', hses', rfl⟩ := h
      rcases setSession_cases hses with ⟨rfl, heq⟩ | ⟨-, heq⟩
      · rw [← some.inj heq]
        exact .commit hses'
      · exact .same heq rfl
    | some e =>
      refine .same ?_ rfl
      rcases h with rfl | ⟨ses', info, -, -, rfl⟩ <;> exact hses
  | setWriteDisabled s' =>
    cases r with
    | none =>
      obtain ⟨ses', info, hses', -, hland, rfl⟩ := h
      rcases setSession_cases hses with ⟨rfl, heq⟩ | ⟨hne, heq⟩
      · rw [← some.inj heq]
        exact .flush hses' hland
      · exact .same heq (decide_eq_false (Ne.symm hne))
    | some e =>
      refine .same ?_ rfl
      rcases h with rfl | ⟨ses', info, -, -, -, rfl⟩ <;> exact hses
  | manifestPut data =>
    refine .same ?_ rfl
    cases r with
    | none => rwa [show st' = _ from h] at hses
    | some e => rcases h with rfl | rfl <;> exact hses
  | deleteLTXFiles site files =>
    refine .same ?_ rfl
    cases r with
    | none => rwa [show st' = _ from h] at hses
    | some e =>
      obtain ⟨gone, -, rfl⟩ := h
      exact hses
  | compact level files =>
    refine .same ?_ rfl
    cases r with
    | ok info =>
      obtain ⟨-, rfl⟩ := h
      exact hses
    | error e => rcases h with rfl | ⟨info, -, rfl⟩ <;> exact hses
  | _ =>
    refine .same ?_ rfl
    rwa [h.eq_of_alters rfl] at hses

theorem Answers.opened_cases (h : st.Answers c r st') :
    st' = st ∨ (st'.opened = st.opened ∧ ∀ plan, c ≠ .openWrite plan ∧ c ≠ .openRead plan) ∨
      ∃ plan, (c = .openWrite plan ∨ c = .openRead plan) ∧ st' = st.openSession plan := by
  have hother : st'.opened = st.opened → (∀ plan, c ≠ .openWrite plan ∧ c ≠ .openRead plan) →
      st' = st ∨ (st'.opened = st.opened ∧ ∀ plan, c ≠ .openWrite plan ∧ c ≠ .openRead plan) ∨
        ∃ plan, (c = .openWrite plan ∨ c = .openRead plan) ∧ st' = st.openSession plan :=
    fun h₁ h₂ => .inr (.inl ⟨h₁, h₂⟩)
  cases c with
  | openWrite plan | openRead plan =>
    cases r with
    | ok s => exact .inr (.inr ⟨plan, by simp, h.2⟩)
    | error e => exact .inl h
  | insertKey s' key text =>
    cases r with
    | none =>
      obtain ⟨ses', hses', -, rfl⟩ := h
      exact hother rfl fun _ => ⟨nofun, nofun⟩
    | some e => exact .inl h
  | rollback s' | closeSession s' | closeRead s' =>
    obtain rfl := show st' = _ from h
    exact hother rfl fun _ => ⟨nofun, nofun⟩
  | commit s' =>
    cases r with
    | none =>
      obtain ⟨ses', -, rfl⟩ := h
      exact hother rfl fun _ => ⟨nofun, nofun⟩
    | some e =>
      rcases h with rfl | ⟨ses', info, -, -, rfl⟩ <;>
        exact hother rfl fun _ => ⟨nofun, nofun⟩
  | setWriteDisabled s' =>
    cases r with
    | none =>
      obtain ⟨ses', info, -, -, -, rfl⟩ := h
      exact hother rfl fun _ => ⟨nofun, nofun⟩
    | some e =>
      rcases h with rfl | ⟨ses', info, -, -, -, rfl⟩ <;>
        exact hother rfl fun _ => ⟨nofun, nofun⟩
  | manifestPut data =>
    cases r with
    | none =>
      obtain rfl := show st' = _ from h
      exact hother rfl fun _ => ⟨nofun, nofun⟩
    | some e => rcases h with rfl | rfl <;> exact hother rfl fun _ => ⟨nofun, nofun⟩
  | deleteLTXFiles site files =>
    cases r with
    | none =>
      obtain rfl := show st' = _ from h
      exact hother rfl fun _ => ⟨nofun, nofun⟩
    | some e =>
      obtain ⟨gone, -, rfl⟩ := h
      exact hother rfl fun _ => ⟨nofun, nofun⟩
  | compact level files =>
    cases r with
    | ok info =>
      obtain ⟨-, rfl⟩ := h
      exact hother rfl fun _ => ⟨nofun, nofun⟩
    | error e => rcases h with rfl | ⟨info, -, rfl⟩ <;> exact hother rfl fun _ => ⟨nofun, nofun⟩
  | _ => exact .inl (h.eq_of_alters rfl)

/-- No session has a handle that is still to be used. -/
def Fresh (st : Storage B) : Prop := ∀ s, st.opened ≤ s → st.sessions s = none

theorem Answers.opened_le (h : st.Answers c r st') : st.opened ≤ st'.opened := by
  rcases h.opened_cases with rfl | ⟨heq, -⟩ | ⟨plan, -, rfl⟩
  · exact le_rfl
  · exact heq.ge
  · exact Nat.le_succ _

theorem Answers.fresh (h : st.Answers c r st') (hfresh : st.Fresh) : st'.Fresh := by
  intro s hs
  rcases h.opened_cases with rfl | ⟨heq, hne⟩ | ⟨plan, -, rfl⟩
  · exact hfresh s hs
  · rcases hses : st'.sessions s with _ | ses
    · rfl
    have hnone := hfresh s (heq ▸ hs)
    cases h.session_cases hses with
    | opened _ hc => exact absurd hc (not_or.mpr (hne _))
    | same hses' | stage _ _ hses' | rollback hses' | commit hses' | flush hses' =>
      rw [hnone] at hses'
      cases hses'
  · have hs' : st.opened + 1 ≤ s := hs
    have hne : s ≠ st.opened := (Nat.lt_of_succ_le hs').ne'
    exact (update_of_ne hne _ _).trans (hfresh s (Nat.le_of_succ_le hs'))

/-! ### Executable answers -/

/-- A choice of an answer: the call succeeds, it succeeds and writes a file created at a time, it
fails without effect, it fails after its effect (on a file created at a time), or it answers a
listing. -/
inductive Choice
  | ok
  | wrote (createdAt : ℤ)
  | fail (e : Err)
  | lost (e : Err) (createdAt : ℤ)
  | listed (files : List FileInfo)
  deriving DecidableEq

/-- The file that a choice lets a call write. -/
def Choice.createdAt : Choice → ℤ
  | .wrote t | .lost _ t => t
  | _ => 0

/-- The answer to a storage call and the storage after it, under a choice; `none` when the call is
not a storage call or the choice does not apply. -/
def reply (st : Storage B) : (c : Op B) → Choice → Option (Resp c × Storage B)
  | .manifestGet, .ok =>
    match st.replica.manifest with
    | some data => some (.ok data, st)
    | none => some (.error .manifestNotFound, st)
  | .manifestGet, .fail e => if e.is .manifestNotFound then none else some (.error e, st)
  | .manifestPut data, .ok => some (none, { st with replica := st.replica.store data })
  | .manifestPut _, .fail e => some (some e, st)
  | .manifestPut data, .lost e _ => some (some e, { st with replica := st.replica.store data })
  | .initReplica, .ok => some (none, st)
  | .initReplica, .fail e => some (some e, st)
  | .ltxFiles _ level, .ok => some (.ok (st.replica.infos.filter fun f => f.level = level), st)
  | .ltxFiles _ _, .listed files => some (.ok files, st)
  | .ltxFiles _ _, .fail e => some (.error e, st)
  | .deleteLTXFiles _ files, .ok => some (none, { st with replica := st.replica.remove files })
  | .deleteLTXFiles _ _, .fail e => some (some e, st)
  | .compact level files, ch =>
    let info := mergedFile level (mergeSources level files) 0 ch.createdAt
    match ch with
    | .wrote _ =>
      if st.replica.Merges level files info then
        some (.ok info, { st with replica := st.replica.merge level files info })
      else none
    | .fail e => some (.error e, st)
    | _ => none
  | .openWrite files, .ok => some (.ok st.opened, st.openSession files)
  | .openWrite _, .fail e => some (.error e, st)
  | .openRead files, .ok => some (.ok st.opened, st.openSession files)
  | .openRead _, .fail e => some (.error e, st)
  | .beginImmediate _, .ok | .execSchema _, .ok | .callback _, .ok | .runRead _, .ok
  | .openEmpty, .ok | .runEmpty, .ok => some (none, st)
  | .beginImmediate _, .fail e | .execSchema _, .fail e | .callback _, .fail e
  | .runRead _, .fail e | .openEmpty, .fail e | .runEmpty, .fail e => some (some e, st)
  | .selectTXID s key, .ok =>
    (st.sessions s).map fun ses => (.ok ((ses.row key).map Row.text), st)
  | .selectTXID _ _, .fail e => some (.error e, st)
  | .pos s, .ok => (st.sessions s).map fun ses => (.ok ses.pos, st)
  | .pos _, .fail e => some (.error e, st)
  | .insertKey s key txid, .ok =>
    match st.sessions s with
    | none => none
    | some ses =>
      if ses.row key = none then some (none, st.setSession s (some (ses.stage key txid))) else none
  | .insertKey _ _ _, .fail e => some (some e, st)
  | .commit s, .ok =>
    (st.sessions s).map fun ses => (none, st.setSession s (some { ses with committed := true }))
  | .commit _, .fail e => some (some e, st)
  | .commit s, .lost e t =>
    match st.sessions s with
    | none => none
    | some ses =>
      if ses.Lands (ses.nextFile 0 t) then some (some e, st.land ses (ses.nextFile 0 t)) else none
  | .rollback s, .ok =>
    some ((), st.setSession s ((st.sessions s).map fun ses => { ses with staged := [] }))
  | .setWriteDisabled s, ch =>
    match ch, st.sessions s with
    | .fail e, _ => some (some e, st)
    | .wrote t, some ses =>
      if ses.committed ∧ ses.Lands (ses.nextFile 0 t) then
        some (none, st.flush s ses (ses.nextFile 0 t))
      else none
    | .lost e t, some ses =>
      if ses.committed ∧ ses.Lands (ses.nextFile 0 t) then
        some (some e, st.land ses (ses.nextFile 0 t))
      else none
    | _, _ => none
  | .txid s, .ok => (st.sessions s).map fun ses => (.ok (formatTXID ses.pos), st)
  | .txid _, .fail e => some (.error e, st)
  | .manifestFiles s, .ok =>
    (st.sessions s).map fun ses => (if ses.captured then some ses.client.files else none, st)
  | .closeSession s, .ok => some ((), st.setSession s none)
  | .closeRead s, .ok => some ((), st.setSession s none)
  | _, _ => none

theorem reply_answers {ch : Choice} (h : st.reply c ch = some (r, st')) : st.Answers c r st' := by
  cases c with
  | manifestGet =>
    cases ch with
    | ok =>
      simp only [reply] at h
      split at h
      · next hdata => cases h; exact ⟨rfl, hdata⟩
      · next hnone => cases h; exact ⟨rfl, fun _ => hnone⟩
    | fail e =>
      simp only [reply] at h
      split at h
      · cases h
      · next hfound => cases h; exact ⟨rfl, fun hf => absurd hf hfound⟩
    | _ => cases h
  | manifestPut =>
    cases ch with
    | ok => cases h; rfl
    | fail => cases h; exact .inl rfl
    | lost => cases h; exact .inr rfl
    | _ => cases h
  | deleteLTXFiles =>
    cases ch with
    | ok => cases h; rfl
    | fail =>
      cases h
      refine ⟨[], fun k hk => absurd hk not_hasKey_nil, ?_⟩
      simp [Replica.remove]
    | _ => cases h
  | compact level files =>
    simp only [reply] at h
    split at h
    · split at h
      · next hm => cases h; exact ⟨hm, rfl⟩
      · cases h
    · cases h; exact .inl rfl
    · cases h
  | openWrite | openRead =>
    cases ch with
    | ok => cases h; exact ⟨rfl, rfl⟩
    | fail => cases h; rfl
    | _ => cases h
  | selectTXID | pos | txid =>
    cases ch with
    | ok =>
      obtain ⟨ses, hses, heq⟩ := map_eq_some_iff.mp h
      cases heq
      exact ⟨rfl, ses, hses, rfl⟩
    | fail => cases h; rfl
    | _ => cases h
  | insertKey s key txid =>
    cases ch with
    | ok =>
      simp only [reply] at h
      split at h
      · cases h
      · next ses hses =>
        split at h
        · next hrow => cases h; exact ⟨ses, hses, hrow, rfl⟩
        · cases h
    | fail => cases h; rfl
    | _ => cases h
  | commit s =>
    cases ch with
    | ok =>
      obtain ⟨ses, hses, heq⟩ := map_eq_some_iff.mp h
      cases heq
      exact ⟨ses, hses, rfl⟩
    | fail => cases h; exact .inl rfl
    | lost e t =>
      simp only [reply] at h
      split at h
      · cases h
      · next ses hses =>
        split at h
        · next hland => cases h; exact .inr ⟨ses, _, hses, hland, rfl⟩
        · cases h
    | _ => cases h
  | setWriteDisabled s =>
    simp only [reply] at h
    split at h
    · cases h; exact .inl rfl
    · next t ses hses =>
      split at h
      · next hland => cases h; exact ⟨ses, _, hses, hland.1, hland.2, rfl⟩
      · cases h
    · next e t ses hses =>
      split at h
      · next hland => cases h; exact .inr ⟨ses, _, hses, hland.1, hland.2, rfl⟩
      · cases h
    · cases h
  | manifestFiles =>
    cases ch with
    | ok =>
      obtain ⟨ses, hses, heq⟩ := map_eq_some_iff.mp h
      cases heq
      exact ⟨rfl, ses, hses, rfl⟩
    | _ => cases h
  | _ => cases ch <;> cases h <;> rfl

end Storage

end Walrusd.Runtime
