import Walrusd.Runtime.Write

/-!
# Compaction passes

`runCompaction` of `runtime/runtime.go`: read the manifest, merge it under the compaction lease,
apply the merge to the manifest re-read under the write lease, and then delete the merged sources
that are older than the retention. Every sixteenth pass of a process collects garbage.

## Main definitions

* `runCompaction` and its stages.
-/

namespace Walrusd.Runtime

open Program Litestream

section Compaction

variable {B : Type} (json : ManifestJson B) (cfg : Config) (d : Descriptor)

/-- The key of the compaction lease. -/
def compactionKey : String := d.id.leaseKey d.rootPrefix ++ ":compact"

/-- After the manifest was stored: delete the old sources, and collect garbage now and then. -/
def finishPass (sources : List FileInfo) : RuntimeM B Unit := do
  let _ ← deleteFiles sources cfg.compaction.retention
  let passes : ℤ ← ask .addPass
  if passes % 16 = 0 then
    let _ ← gc json cfg.compaction.retention
    return ()
  else return ()

/-- Apply the merge to the manifest under the write lease; `files` is the snapshot that was
merged. -/
def applyMerge (files : List FileInfo) (merge : Compaction) (writeHeld : Lease.Held) :
    RuntimeM B Unit := do
  match ← readManifest json with
  | .error _ =>
    let _ : Option Err ← ask (.release writeHeld false)
    return ()
  | .ok base =>
    let stored ← writeManifest json
      (applyManifestDelta (base.getD files) merge.merged merge.sources)
    let _ : Option Err ← ask (.release writeHeld false)
    match stored with
    | some _ => return ()
    | none => finishPass json cfg merge.sources

/-- The pass under the compaction lease. -/
def mergeSnapshot (files : List FileInfo) : RuntimeM B Unit := do
  match ← compactManifest files cfg.compaction.threshold with
  | .error _ => return ()
  | .ok merge =>
    if merge.merged.isEmpty then return ()
    else
      let acquired : Except Err Lease.Held ← ask (.acquire d.id d.rootPrefix)
      match acquired with
      | .error _ => return ()
      | .ok writeHeld => applyMerge json cfg files merge writeHeld

/-- The pass of a registered database. -/
def compactDatabase : RuntimeM B Unit := do
  match ← readManifest json with
  | .error _ | .ok none | .ok (some []) => return ()
  | .ok (some (f :: files)) =>
    let acquired : Except Err Lease.Held ← ask (.acquireKey d.id (compactionKey d))
    match acquired with
    | .error _ => return ()
    | .ok held =>
      mergeSnapshot json cfg d (f :: files)
      let _ : Option Err ← ask (.releaseKey held)
      return ()

/-- `runCompaction`. -/
def runCompaction : RuntimeM B Unit := do
  let entry : Except Err Unit ← ask .database
  match entry with
  | .error _ => ask .deletePending
  | .ok () =>
    compactDatabase json cfg d
    ask .releaseDatabase
    ask .deletePending

end Compaction

/-! ### The calls of a pass -/

section Calls

variable {B : Type} (json : ManifestJson B) (cfg : Config) (d : Descriptor)

theorem deleteLTXFiles_only (site : Site) (files : List FileInfo) :
    (if files.isEmpty then return none else ask (.deleteLTXFiles site files) :
      RuntimeM B (Option Err)).Only fun c => c.merges = true := by
  split
  · trivial
  · exact Prog.only_perform rfl

theorem deleteFiles_only (files : List FileInfo) (retention : ℤ) :
    (deleteFiles files retention : RuntimeM B _).Only fun c => c.merges = true := by
  unfold deleteFiles
  split
  · trivial
  · exact .perform rfl fun now => deleteLTXFiles_only .sources _

theorem gc_only (retention : ℤ) : (gc json retention).Only fun c => c.merges = true := by
  refine ((readManifest_only json).mono fun c hc => Op.merges_of_kind hc rfl).bind ?_
  rintro (e | _ | active)
  · trivial
  · trivial
  refine (rebuildManifest_only.mono fun c hc => Op.merges_of_kind hc rfl).bind ?_
  rintro (e | all)
  · trivial
  · exact .perform rfl fun now => deleteLTXFiles_only .garbage _

theorem finishPass_only (sources : List FileInfo) :
    (finishPass json cfg sources).Only fun c => c.merges = true := by
  refine (deleteFiles_only sources _).bind fun _ => .perform rfl fun passes => ?_
  split
  · exact (gc_only json _).bind fun _ => trivial
  · trivial

theorem applyMerge_only (files : List FileInfo) (merge : Compaction) (writeHeld : Lease.Held) :
    (applyMerge json cfg files merge writeHeld).Only fun c => c.merges = true := by
  refine ((readManifest_only json).mono fun c hc => Op.merges_of_kind hc rfl).bind ?_
  rintro (e | base)
  · exact .perform rfl fun _ => trivial
  refine ((writeManifest_only json _).mono fun c hc => Op.merges_of_kind hc rfl).bind
    fun stored => .perform rfl fun _ => ?_
  cases stored with
  | some e => trivial
  | none => exact finishPass_only json cfg _

theorem mergeSnapshot_only (files : List FileInfo) :
    (mergeSnapshot json cfg d files).Only fun c => c.merges = true := by
  refine ((compactManifest_only files _).mono fun c hc =>
    Op.merges_of_kind hc rfl).bind ?_
  rintro (e | merge)
  · trivial
  simp only
  split
  · trivial
  refine .perform rfl ?_
  rintro (e | writeHeld)
  · trivial
  · exact applyMerge_only json cfg files merge writeHeld

theorem compactDatabase_only : (compactDatabase json cfg d).Only fun c => c.compacts = true := by
  have hmerges {c : Op B} (hc : c.merges = true) : c.compacts = true := Op.compacts_of_merges hc
  refine ((readManifest_only json).mono fun c hc => hmerges (Op.merges_of_kind hc rfl)).bind ?_
  rintro (e | _ | _ | ⟨f, files⟩)
  · trivial
  · trivial
  · trivial
  · refine .perform rfl ?_
    rintro (e | held)
    · trivial
    · exact ((mergeSnapshot_only json cfg d _).mono fun c => hmerges).bind fun _ =>
        .perform rfl fun _ => trivial

end Calls

end Walrusd.Runtime
