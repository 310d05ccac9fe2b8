import Walrusd.Runtime.Op

/-!
# The methods of a registered database

Reading and writing the manifest, probing and listing the replica, merging a manifest snapshot and
deleting files (`litestream/manifest.go`, `litestream/compact.go`, `litestream/session.go`).

`buildManifest` is written over any monad with a listing function, because it is run both as a
program of the runtime and over the caching client of `Walrusd.Litestream.CachingClient`.

## Main definitions

* `readManifest`, `writeManifest`.
* `tailTXID`, `buildManifest`, `hasLTX`.
* `compactWithClient`, `compactManifest`.
* `deleteFiles`, `gc`.
-/

namespace Walrusd.Litestream

open Program Walrusd.Runtime

variable {B : Type} (json : ManifestJson B)

/-! ### The manifest -/

/-- `ReadManifest`: the durable file list; `none` when no manifest exists. -/
def readManifest : RuntimeM B (Except Err (Option (List FileInfo))) := do
  let got : Except Err B ← ask .manifestGet
  match got with
  | .error e => if e.is .manifestNotFound then return .ok none else return .error e
  | .ok data =>
    match decodeManifest json data with
    | .error e => return .error e
    | .ok files => return .ok (some files)

/-- The manifest that the answer to a read shows: absent, or its files; an answer that is any other
error shows nothing. -/
def shownManifest : Except Err B → Option (Option (List FileInfo))
  | .ok data =>
    match decodeManifest json data with
    | .ok files => some (some files)
    | .error _ => none
  | .error e => if e.is .manifestNotFound then some none else none

/-- `WriteManifest`: persist the file list. -/
def writeManifest (files : List FileInfo) : RuntimeM B (Option Err) :=
  match encodeManifest json files with
  | .error e => return some e
  | .ok data => ask (.manifestPut data)

/-! ### Listings -/

/-- `TailTXID`: the highest TXID of level 0. -/
def tailTXID : RuntimeM B (Except Err ℕ) := do
  let listed : Except Err (List FileInfo) ← ask (.ltxFiles .tail 0)
  match listed with
  | .error e => return .error e
  | .ok files => return .ok (maxTXIDFrom 0 files)

/-- The loop of `BuildManifest`, over the levels that are left. -/
def buildLevels {m : Type → Type} [Monad m] (list : ℕ → m (Except Err (List FileInfo))) :
    List ℕ → List FileInfo → m (Except Err (List FileInfo))
  | [], files => return .ok files
  | level :: levels, files => do
    match ← list level with
    | .error e => return .error e
    | .ok found => buildLevels list levels (files ++ found)

/-- `BuildManifest`: list every level once. -/
def buildManifest {m : Type → Type} [Monad m] (list : ℕ → m (Except Err (List FileInfo))) :
    m (Except Err (List FileInfo)) :=
  buildLevels list (List.range (snapshotLevel + 1)) []

/-- `BuildManifest` through the database's client. -/
def rebuildManifest : RuntimeM B (Except Err (List FileInfo)) :=
  buildManifest fun level => ask (.ltxFiles .build level)

/-- The loop of `HasLTX`, over the levels that are left. -/
def probeLevels : List ℕ → RuntimeM B (Except Err Bool)
  | [] => return .ok false
  | level :: levels => do
    let listed : Except Err (List FileInfo) ← ask (.ltxFiles .probe level)
    match listed with
    | .error e => return .error (.annotated "litestream: list LTX files: " "" e)
    | .ok files => if files.isEmpty then probeLevels levels else return .ok true

/-- `HasLTX`: whether the replica holds any LTX file. -/
def hasLTX : RuntimeM B (Except Err Bool) := do
  let init : Option Err ← ask .initReplica
  match init with
  | some e => return .error (.annotated "litestream: init replica client: " "" e)
  | none => probeLevels [0, snapshotLevel, 1, 2, 3, 4, 5, 6, 7, 8]

/-! ### Compaction -/

/-- The highest level that compaction writes to. -/
def compactionTopLevel : ℕ := 8

/-- `countLTXFiles` on a manifest client. -/
def countLTXFiles (c : ManifestClient) (level : ℕ) : ℕ := (c.ltxFiles level 0).length

/-- Thresholds that are not positive act as one. -/
def effectiveThreshold (threshold : ℤ) : ℤ := if threshold ≤ 0 then 1 else threshold

/-- The loop of `CompactWithClient` on a manifest client that keeps its sources, over the levels
that are left: the files merged so far, and the error that ended the pass, if any. -/
def compactLevels (threshold : ℤ) :
    List ℕ → ManifestClient → List FileInfo → RuntimeM B (List FileInfo × Option Err)
  | [], _, merged => return (merged, none)
  | level :: levels, c, merged =>
    if (countLTXFiles c (level - 1) : ℤ) ≤ threshold then compactLevels threshold levels c merged
    else do
      let res : Except Err FileInfo ← ask (.compact level c.files)
      match res with
      | .error e =>
        if e.is .noCompaction then compactLevels threshold levels c merged
        else return (merged, some
          (.annotated ("litestream: compact level " ++ toString level ++ ": ") "" e))
      | .ok info => compactLevels threshold levels (c.recordWrite info) (merged ++ [info])

/-- `CompactWithClient` with a manifest client and without deletion of sources. -/
def compactWithClient (c : ManifestClient) (threshold : ℤ) :
    RuntimeM B (List FileInfo × Option Err) :=
  compactLevels (effectiveThreshold threshold) ((List.range compactionTopLevel).map (· + 1)) c []

/-- The sources of one merged file in the active set. -/
def goneBy (info : FileInfo) (updated : List FileInfo) : List FileInfo :=
  updated.filter fun f => f.level + 1 = info.level && f.maxTXID ≤ info.maxTXID

/-- The loop of `CompactManifest` over the merged files: the active set and the sources. -/
def supersede (updated sources : List FileInfo) : List FileInfo → List FileInfo × List FileInfo
  | [] => (updated, sources)
  | info :: merged =>
    let gone := goneBy info updated
    supersede (applyManifestDelta updated [info] gone) (sources ++ gone) merged

/-- The results of `CompactManifest`. -/
structure Compaction where
  updated : List FileInfo
  merged : List FileInfo
  sources : List FileInfo

/-- `CompactManifest`: merge a manifest snapshot. -/
def compactManifest (files : List FileInfo) (threshold : ℤ) :
    RuntimeM B (Except Err Compaction) := do
  let (merged, err) ← compactWithClient (ManifestClient.new files) threshold
  match err with
  | some e => return .error e
  | none =>
    let (updated, sources) := supersede files [] merged
    return .ok { updated, merged, sources }

/-- `ManifestNeedsCompaction`: some level that can be merged upward holds more files than the
threshold. -/
def manifestNeedsCompaction (files : List FileInfo) (threshold : ℤ) : Bool :=
  (List.range compactionTopLevel).any fun level =>
    effectiveThreshold threshold < ((files.filter fun f => f.level = level).length : ℤ)

/-- The files that are not younger than the retention. -/
def olderThan (cutoff : ℤ) (files : List FileInfo) : List FileInfo :=
  files.filter fun f => f.createdAt ≤ cutoff

/-- `DeleteFiles`: remove the files that are older than the retention. -/
def deleteFiles (files : List FileInfo) (retention : ℤ) : RuntimeM B (Option Err) :=
  if files.isEmpty then return none
  else do
    let now : ℤ ← ask .now
    let old := olderThan (now - if retention < 0 then 0 else retention) files
    if old.isEmpty then return none
    else ask (.deleteLTXFiles .sources old)

/-- `GC`: remove the objects that the manifest does not name and that are older than the
retention. -/
def gc (retention : ℤ) : RuntimeM B (Option Err) := do
  match ← readManifest json with
  | .error e => return some e
  | .ok none => return none
  | .ok (some active) =>
    match ← rebuildManifest with
    | .error e => return some e
    | .ok all =>
      let now : ℤ ← ask .now
      let cutoff := now - if retention < 0 then 0 else retention
      let garbage := olderThan cutoff (all.filter fun f => !manifestContains active f)
      if garbage.isEmpty then return none
      else ask (.deleteLTXFiles .garbage garbage)

/-! ### The calls of the methods -/

theorem readManifest_only : (readManifest json).Only fun c => c.kind = .manifestGet := by
  refine .perform rfl ?_
  rintro (e | data)
  · simp only
    split <;> trivial
  · simp only
    split <;> trivial

theorem writeManifest_only (files : List FileInfo) :
    (writeManifest json files).Only fun c => c.kind = .manifestPut := by
  unfold writeManifest
  split
  · trivial
  · exact Prog.only_perform rfl

theorem tailTXID_only : (tailTXID : RuntimeM B _).Only fun c => c.kind = .listing := by
  refine .perform rfl ?_
  rintro (e | files) <;> trivial

theorem buildLevels_only (levels : List ℕ) (files : List FileInfo) :
    (buildLevels (fun level => (ask (.ltxFiles .build level) : RuntimeM B _)) levels files).Only
      fun c => c.kind = .listing := by
  induction levels generalizing files with
  | nil => trivial
  | cons level levels ih =>
    refine .perform rfl ?_
    rintro (e | found)
    · trivial
    · exact ih _

theorem rebuildManifest_only : (rebuildManifest : RuntimeM B _).Only fun c => c.kind = .listing :=
  buildLevels_only _ _

/-- A rule for `BuildManifest`: `I level files s` holds before `level` is listed, with the files of
the levels below. -/
theorem rebuildManifest_obeys {σ : Type} {P : Protocol (Op B) Resp σ}
    {Q : σ → Except Err (List FileInfo) → Prop} (I : ℕ → List FileInfo → σ → Prop) {s : σ}
    (hstart : I 0 [] s)
    (hallow : ∀ level files s, I level files s → P.allow s (.ltxFiles .build level))
    (hfail : ∀ level files s e s', I level files s →
      P.next s (.ltxFiles .build level) (.error e) s' → Q s' (.error e))
    (hlist : ∀ level files s found s', I level files s →
      P.next s (.ltxFiles .build level) (.ok found) s' → I (level + 1) (files ++ found) s')
    (hdone : ∀ files s, I (snapshotLevel + 1) files s → Q s (.ok files)) :
    (rebuildManifest : RuntimeM B _).Obeys P Q s := by
  have hloop : ∀ count level files s, level + count = snapshotLevel + 1 → I level files s →
      (buildLevels (fun level => (ask (.ltxFiles .build level) : RuntimeM B _))
        (List.range' level count) files).Obeys P Q s := by
    intro count
    induction count with
    | zero =>
      rintro level files s rfl hI
      exact hdone files s hI
    | succ count ih =>
      intro level files s hcount hI
      rw [List.range'_succ]
      refine .perform (hallow level files s hI) ?_
      rintro (e | found) s' hnext
      · exact hfail level files s e s' hI hnext
      · exact ih (level + 1) _ s' (by omega) (hlist level files s found s' hI hnext)
  rw [rebuildManifest, buildManifest, List.range_eq_range']
  exact hloop _ 0 [] s (Nat.zero_add _) hstart

theorem probeLevels_only (levels : List ℕ) :
    (probeLevels levels : RuntimeM B _).Only fun c => c.kind = .listing := by
  induction levels with
  | nil => trivial
  | cons level levels ih =>
    refine .perform rfl ?_
    rintro (e | files)
    · trivial
    simp only
    split
    · exact ih
    · trivial

theorem hasLTX_only : (hasLTX : RuntimeM B _).Only fun c => c.kind = .listing := by
  refine .perform rfl ?_
  rintro (_ | e)
  · exact probeLevels_only _
  · trivial

theorem compactLevels_only (threshold : ℤ) (levels : List ℕ) (c : ManifestClient)
    (merged : List FileInfo) :
    (compactLevels threshold levels c merged : RuntimeM B _).Only fun c => c.kind = .compact := by
  induction levels generalizing c merged with
  | nil => trivial
  | cons level levels ih =>
    unfold compactLevels
    split
    · exact ih c merged
    refine .perform rfl ?_
    rintro (e | info)
    · simp only
      split
      · exact ih c merged
      · trivial
    · exact ih _ _

theorem compactManifest_only (files : List FileInfo) (threshold : ℤ) :
    (compactManifest files threshold : RuntimeM B _).Only fun c => c.kind = .compact := by
  refine (compactLevels_only _ _ _ _).bind ?_
  rintro ⟨merged, _ | e⟩ <;> trivial

end Walrusd.Litestream
