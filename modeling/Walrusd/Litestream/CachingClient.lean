import Walrusd.Error
import Walrusd.Litestream.Bucket
import Walrusd.Litestream.FileCache
import Walrusd.Program.Script

/-!
# The caching client

`cachingClient` of `litestream/range_cache.go`: a replica client that keeps the bytes of LTX files
and the listings of levels in memory, in front of another client. Its methods are programs whose
calls are the single steps of the source: one operation on the file cache or on the listings under
their lock, a look at the clock, reading the input, or one call of the inner client.

Here the client is used by one caller at a time, and the replica is changed through it only. Then it
cannot be told from the inner client.

## Main definitions

* `CacheOp`, `CacheM` — the steps, and programs of them.
* `CachingClient` and its methods.
* `CacheWorld`, `CacheWorld.serve` — the caches and the replica.
* `CachingClient.Serial` — the runs of one caller.

## Main results

* `cachingClient_refines` — every run is one of the plain client.
-/

namespace Walrusd.Litestream

open Program Function List

/-! ### Steps -/

/-- A cached listing of a level. -/
structure ListingEntry where
  infos : List FileInfo
  time : ℤ
  deriving DecidableEq, Repr

/-- The steps of the client's methods. -/
inductive CacheOp
  | get (k : CacheKey)
  | put (k : CacheKey) (data : List UInt8)
  | drop (k : CacheKey)
  | dropDB (dbKey : String)
  | listing (level : ℕ)
  | setListing (level : ℕ) (entry : ListingEntry)
  | dropLevel (level : ℕ)
  | dropListings
  | now
  | readAll (data : List UInt8)
  | innerLTXFiles (level seek : ℕ)
  | innerOpenLTXFile (k : FileKey) (offset : ℕ) (size : ℤ)
  | innerWriteLTXFile (k : FileKey) (data : List UInt8)
  | innerDeleteLTXFiles (files : List FileInfo)
  | innerDeleteAll

/-- The responses. `Option Err` is a Go error, `none` being nil. -/
@[reducible] def CacheResp : CacheOp → Type
  | .get _ => Option (List UInt8)
  | .listing _ => Option ListingEntry
  | .now => ℤ
  | .readAll _ | .innerOpenLTXFile _ _ _ => Except Err (List UInt8)
  | .innerLTXFiles _ _ => Except Err (List FileInfo)
  | .innerWriteLTXFile _ _ => Except Err FileInfo
  | .innerDeleteLTXFiles _ | .innerDeleteAll => Option Err
  | .put _ _ | .drop _ | .dropDB _ | .setListing _ _ | .dropLevel _ | .dropListings => Unit

/-- Programs of these steps. -/
abbrev CacheM := Prog CacheOp CacheResp

/-- Make one step. -/
abbrev does (c : CacheOp) : CacheM (CacheResp c) := perform c

/-- Reading the input or the inner client failed. -/
def CacheOp.fails : (c : CacheOp) → CacheResp c → Bool
  | .readAll _, .error _ | .innerLTXFiles _ _, .error _ | .innerOpenLTXFile _ _ _, .error _
  | .innerWriteLTXFile _ _, .error _ | .innerDeleteLTXFiles _, some _ | .innerDeleteAll, some _ =>
    true
  | _, _ => false

/-! ### The methods -/

/-- A caching client: the key of its database, whether it caches file contents, and for how long a
cached listing is trusted. -/
structure CachingClient where
  dbKey : String
  cachesFiles : Bool
  listingTTL : ℤ

/-- Files that are larger than this are not cached. -/
def maxCachedFileBytes : ℕ := 2 ^ 23

/-- `filterFrom`: the files that start at `seek` or later. -/
def filterFrom (infos : List FileInfo) (seek : ℕ) : List FileInfo :=
  if seek = 0 then infos else infos.filter fun f => seek ≤ f.minTXID

/-- `sliceReader`: a window of cached bytes. -/
def sliceReader (data : List UInt8) (offset : ℕ) (size : ℤ) : List UInt8 :=
  if data.length ≤ offset then []
  else
    let rest := data.drop offset
    if 0 < size ∧ size < rest.length then rest.take size.toNat else rest

namespace CachingClient

variable (cl : CachingClient)

/-- The cache key of a file. -/
def cacheKey (k : FileKey) : CacheKey := ⟨cl.dbKey, k⟩

/-- List a level through the inner client, and cache the listing. -/
def refreshListing (level seek : ℕ) : CacheM (Except Err (List FileInfo)) := do
  let listed : Except Err (List FileInfo) ← does (.innerLTXFiles level 0)
  match listed with
  | .error e => return .error e
  | .ok infos =>
    let now : ℤ ← does .now
    does (.setListing level ⟨infos, now⟩)
    return .ok (filterFrom infos seek)

/-- `LTXFiles`: levels above the lowest one are served from a listing that is young enough. -/
def ltxFiles (level seek : ℕ) : CacheM (Except Err (List FileInfo)) :=
  if level = 0 ∨ cl.listingTTL ≤ 0 then does (.innerLTXFiles level seek)
  else do
    let entry : Option ListingEntry ← does (.listing level)
    match entry with
    | none => refreshListing level seek
    | some entry =>
      let now : ℤ ← does .now
      if now - entry.time < cl.listingTTL then return .ok (filterFrom entry.infos seek)
      else refreshListing level seek

/-- Cache the bytes of a file that is not too large. -/
def cacheData (k : FileKey) (data : List UInt8) : CacheM Unit :=
  if data.length ≤ maxCachedFileBytes then does (.put (cl.cacheKey k) data) else return ()

/-- `OpenLTXFile`: fetch the file once and serve windows from it. -/
def openLTXFile (k : FileKey) (offset : ℕ) (size : ℤ) : CacheM (Except Err (List UInt8)) :=
  if cl.cachesFiles then do
    let cached : Option (List UInt8) ← does (.get (cl.cacheKey k))
    match cached with
    | some data => return .ok (sliceReader data offset size)
    | none =>
      let fetched : Except Err (List UInt8) ← does (.innerOpenLTXFile k 0 0)
      match fetched with
      | .error e => return .error e
      | .ok data =>
        cl.cacheData k data
        return .ok (sliceReader data offset size)
  else does (.innerOpenLTXFile k offset size)

/-- `WriteLTXFile`; `input` is what the reader yields. -/
def writeLTXFile (k : FileKey) (input : List UInt8) : CacheM (Except Err FileInfo) := do
  does (.dropLevel k.level)
  if cl.cachesFiles then
    let readAll : Except Err (List UInt8) ← does (.readAll input)
    match readAll with
    | .error e => return .error e
    | .ok data =>
      does (.drop (cl.cacheKey k))
      let written : Except Err FileInfo ← does (.innerWriteLTXFile k data)
      match written with
      | .error e => return .error e
      | .ok info =>
        cl.cacheData k data
        return .ok info
  else does (.innerWriteLTXFile k input)

/-- The loop of `DeleteLTXFiles` over the files. -/
def dropFiles : List FileInfo → CacheM Unit
  | [] => return ()
  | f :: files => do
    if cl.cachesFiles then does (.drop (cl.cacheKey f.key))
    does (.dropLevel f.level)
    dropFiles files

/-- `DeleteLTXFiles`. -/
def deleteLTXFiles (files : List FileInfo) : CacheM (Option Err) := do
  cl.dropFiles files
  does (.innerDeleteLTXFiles files)

/-- `DeleteAll`. -/
def deleteAll : CacheM (Option Err) := do
  if cl.cachesFiles then does (.dropDB cl.dbKey)
  does .dropListings
  does .innerDeleteAll

end CachingClient

/-! ### The caches and the replica -/

/-- The caches and the replica that the steps act on. -/
structure CacheWorld where
  bucket : Bucket
  cache : FileCache
  listings : ℕ → Option ListingEntry

/-- How a step goes: it fails, or it succeeds; the clock shows the stamp, and a file is written with
it. -/
inductive Luck
  | fails (e : Err)
  | succeeds (stamp : ℤ)

/-- The file that the inner client writes. -/
def writtenFile (k : FileKey) (data : List UInt8) (stamp : ℤ) : Blob :=
  ⟨⟨k.level, k.minTXID, k.maxTXID, data.length, stamp⟩, data⟩

@[simp] theorem key_writtenFile (k : FileKey) (data : List UInt8) (stamp : ℤ) :
    (writtenFile k data stamp).info.key = k := rfl

namespace CacheWorld

variable (w : CacheWorld)

/-- The answer to a step and its effect. A call of the inner client that fails changes nothing, and
a file that the replica does not have cannot be opened. -/
def serve : (c : CacheOp) → Luck → Option (CacheResp c × CacheWorld)
  | .get k, _ => some ((w.cache.get k).1, { w with cache := (w.cache.get k).2 })
  | .put k data, _ => some ((), { w with cache := w.cache.put k data })
  | .drop k, _ => some ((), { w with cache := w.cache.drop k })
  | .dropDB dbKey, _ => some ((), { w with cache := w.cache.dropDB dbKey })
  | .listing level, _ => some (w.listings level, w)
  | .setListing level entry, _ =>
    some ((), { w with listings := update w.listings level (some entry) })
  | .dropLevel level, _ => some ((), { w with listings := update w.listings level none })
  | .dropListings, _ => some ((), { w with listings := fun _ => none })
  | .now, .succeeds stamp => some (stamp, w)
  | .now, .fails _ => none
  | .readAll data, .succeeds _ => some (.ok data, w)
  | .readAll _, .fails e => some (.error e, w)
  | .innerLTXFiles level seek, .succeeds _ => some (.ok (w.bucket.list level seek), w)
  | .innerLTXFiles _ _, .fails e => some (.error e, w)
  | .innerOpenLTXFile k offset size, .succeeds _ =>
    (w.bucket.find k).map fun b => (.ok (window b.data offset size), w)
  | .innerOpenLTXFile _ _ _, .fails e => some (.error e, w)
  | .innerWriteLTXFile k data, .succeeds stamp =>
    some (.ok (writtenFile k data stamp).info,
      { w with bucket := w.bucket.write (writtenFile k data stamp) })
  | .innerWriteLTXFile _ _, .fails e => some (.error e, w)
  | .innerDeleteLTXFiles files, .succeeds _ =>
    some (none, { w with bucket := w.bucket.delete files })
  | .innerDeleteLTXFiles _, .fails e => some (some e, w)
  | .innerDeleteAll, .succeeds _ => some (none, { w with bucket := .empty })
  | .innerDeleteAll, .fails e => some (some e, w)

end CacheWorld

/-- The steps of the world, as a protocol. -/
def serving : Protocol CacheOp CacheResp CacheWorld where
  allow _ _ := True
  next w c r w' := ∃ luck, w.serve c luck = some (r, w')

/-! ### Serial runs -/

/-- The calls of a replica client. -/
inductive ReplicaCall
  | ltxFiles (level seek : ℕ)
  | openLTXFile (k : FileKey) (offset : ℕ) (size : ℤ)
  | writeLTXFile (k : FileKey) (input : List UInt8)
  | deleteLTXFiles (files : List FileInfo)
  | deleteAll

/-- Their results. -/
@[reducible] def ReplicaResp : ReplicaCall → Type
  | .ltxFiles _ _ => Except Err (List FileInfo)
  | .openLTXFile _ _ _ => Except Err (List UInt8)
  | .writeLTXFile _ _ => Except Err FileInfo
  | .deleteLTXFiles _ | .deleteAll => Option Err

/-- The call returned an error. -/
def ReplicaCall.fails : (c : ReplicaCall) → ReplicaResp c → Bool
  | .ltxFiles _ _, .error _ | .openLTXFile _ _ _, .error _ | .writeLTXFile _ _, .error _
  | .deleteLTXFiles _, some _ | .deleteAll, some _ => true
  | _, _ => false

/-- The method of the caching client. -/
def CachingClient.method (cl : CachingClient) : (c : ReplicaCall) → CacheM (ReplicaResp c)
  | .ltxFiles level seek => cl.ltxFiles level seek
  | .openLTXFile k offset size => cl.openLTXFile k offset size
  | .writeLTXFile k input => cl.writeLTXFile k input
  | .deleteLTXFiles files => cl.deleteLTXFiles files
  | .deleteAll => cl.deleteAll

/-- What the plain client may answer, and its effect on the replica: a call that succeeds shows or
changes the replica as it is, a file that the replica does not have cannot be opened, and a call
that fails changes nothing. -/
def Bucket.Answers (st : Bucket) : (c : ReplicaCall) → ReplicaResp c → Bucket → Prop
  | .ltxFiles level seek, .ok files, st' => files = st.list level seek ∧ st' = st
  | .openLTXFile k offset size, .ok data, st' =>
    ∃ b, st.find k = some b ∧ data = window b.data offset size ∧ st' = st
  | .writeLTXFile k input, .ok info, st' => info.key = k ∧ st' = st.write ⟨info, input⟩
  | .deleteLTXFiles files, none, st' => st' = st.delete files
  | .deleteAll, none, st' => st' = .empty
  | .ltxFiles _ _, .error _, st' | .openLTXFile _ _ _, .error _, st'
  | .writeLTXFile _ _, .error _, st' => st' = st
  | .deleteLTXFiles _, some _, st' | .deleteAll, some _, st' => st' = st

/-- A call, its result, and the steps that it took. -/
structure Completed where
  call : ReplicaCall
  result : ReplicaResp call
  steps : List (Σ c, CacheResp c)

/-- `cl.Serial w calls w'`: one caller makes the calls, one after the other. -/
inductive CachingClient.Serial (cl : CachingClient) :
    CacheWorld → List Completed → CacheWorld → Prop
  | nil (w) : cl.Serial w [] w
  | cons {w call result steps w' calls w''} (hreturns : Returns (cl.method call) steps result)
      (hsteps : serving.Runs w steps w') (rest : cl.Serial w' calls w'') :
      cl.Serial w (⟨call, result, steps⟩ :: calls) w''

/-- The runs of the plain client. -/
inductive Bucket.Run : Bucket → List Completed → Bucket → Prop
  | nil (st) : Bucket.Run st [] st
  | cons {st x st' calls st''} (h : st.Answers x.call x.result st')
      (rest : Bucket.Run st' calls st'') : Bucket.Run st (x :: calls) st''

/-! ### Coherence -/

theorem filterFrom_list (st : Bucket) (level seek : ℕ) :
    filterFrom (st.list level 0) seek = st.list level seek := by
  unfold filterFrom
  split
  · next h => rw [h]
  · exact st.filter_list_zero level seek

theorem sliceReader_eq_window (data : List UInt8) (offset : ℕ) (size : ℤ) :
    sliceReader data offset size = window data offset size := by
  unfold sliceReader window
  split
  · next h => simp [drop_eq_nil_of_le h]
  by_cases hsize : 0 < size
  · simp only [hsize, true_and, if_true]
    split
    · rfl
    · next hle =>
      refine (take_of_length_le ?_).symm
      omega
  · simp [hsize]

theorem window_whole (data : List UInt8) : window data 0 0 = data := by
  simp [window]

/-- The caches show the replica: cached files of the client's database have the bytes that the
replica has, and cached listings are complete. A client without a file cache has cached nothing. -/
structure CachingClient.Coherent (cl : CachingClient) (w : CacheWorld) : Prop where
  files : ∀ e ∈ w.cache.order, e.key.dbKey = cl.dbKey →
    ∃ b, w.bucket.find e.key.file = some b ∧ b.data = e.data
  listings : ∀ level entry, w.listings level = some entry → entry.infos = w.bucket.list level 0
  unused : cl.cachesFiles = false → ∀ e ∈ w.cache.order, e.key.dbKey ≠ cl.dbKey

namespace CachingClient.Coherent

variable {cl : CachingClient} {w : CacheWorld}

variable (h : cl.Coherent w)
include h
variable {k : FileKey}

theorem shrink {cache : FileCache} (hsub : ∀ e ∈ cache.order, e ∈ w.cache.order) :
    cl.Coherent { w with cache } where
  files e he := h.files e (hsub e he)
  listings := h.listings
  unused hnone e he := h.unused hnone e (hsub e he)

theorem hit {data : List UInt8} (hget : (w.cache.get (cl.cacheKey k)).1 = some data) :
    ∃ b, w.bucket.find k = some b ∧ b.data = data :=
  h.files _ (FileCache.get_eq_some.mp hget) rfl

theorem put (hcaches : cl.cachesFiles = true) {b : Blob} (hb : w.bucket.find k = some b) :
    cl.Coherent { w with cache := w.cache.put (cl.cacheKey k) b.data } where
  files e he hdb := by
    rcases FileCache.mem_put he with he | rfl
    · exact h.files e he hdb
    · exact ⟨b, hb, rfl⟩
  listings := h.listings
  unused hnone := by simp [hcaches] at hnone

theorem setListing (level : ℕ) (time : ℤ) :
    cl.Coherent { w with
      listings := update w.listings level (some ⟨w.bucket.list level 0, time⟩) } where
  files := h.files
  listings l entry hentry := by
    by_cases hl : l = level
    · subst hl
      simp only [update_self, Option.some.injEq] at hentry
      rw [← hentry]
    · simp only [update_of_ne hl] at hentry
      exact h.listings l entry hentry
  unused := h.unused

theorem forget {listings : ℕ → Option ListingEntry}
    (hsub : ∀ level entry, listings level = some entry → w.listings level = some entry) :
    cl.Coherent { w with listings } where
  files := h.files
  listings level entry hentry := h.listings level entry (hsub level entry hentry)
  unused := h.unused

theorem dropLevel (level : ℕ) :
    cl.Coherent { w with listings := update w.listings level none } := by
  refine h.forget fun l entry hentry => ?_
  by_cases hl : l = level
  · subst hl
    simp at hentry
  · simpa only [update_of_ne hl] using hentry

theorem change {st : Bucket} (hfiles : ∀ e ∈ w.cache.order, e.key.dbKey = cl.dbKey →
      st.find e.key.file = w.bucket.find e.key.file)
    (hlistings : ∀ level entry, w.listings level = some entry →
      st.list level 0 = w.bucket.list level 0) : cl.Coherent { w with bucket := st } where
  files e he hdb := by
    obtain ⟨b, hb, hdata⟩ := h.files e he hdb
    exact ⟨b, (hfiles e he hdb).trans hb, hdata⟩
  listings level entry hentry :=
    (h.listings level entry hentry).trans (hlistings level entry hentry).symm
  unused := h.unused

theorem write {data : List UInt8} {stamp : ℤ} (hfile : ∀ e ∈ w.cache.order, e.key ≠ cl.cacheKey k)
    (hlevel : w.listings k.level = none) :
    cl.Coherent { w with bucket := w.bucket.write (writtenFile k data stamp) } := by
  refine h.change (fun e he hdb => ?_) fun level entry hentry => ?_
  · rw [Bucket.find_write, key_writtenFile, if_neg]
    rintro rfl
    refine hfile e he ?_
    rw [cacheKey, ← hdb]
  · refine Bucket.list_write_of_ne ?_
    rintro rfl
    rw [show (writtenFile k data stamp).info.level = k.level from rfl, hlevel] at hentry
    cases hentry

theorem delete {files : List FileInfo}
    (hfiles : ∀ f ∈ files, ∀ e ∈ w.cache.order, e.key ≠ cl.cacheKey f.key)
    (hlevels : ∀ f ∈ files, w.listings f.level = none) :
    cl.Coherent { w with bucket := w.bucket.delete files } := by
  refine h.change (fun e he hdb => ?_) fun level entry hentry => ?_
  · rw [Bucket.find_delete, if_neg]
    intro hkey
    obtain ⟨f, hf, hfe⟩ := hasKey_iff.mp hkey
    refine hfiles f hf e he ?_
    rw [cacheKey, hfe, ← hdb]
  · refine Bucket.list_delete_of_ne fun f hf hlevel => ?_
    rw [← hlevel, hlevels f hf] at hentry
    cases hentry

theorem deleteAll (hfiles : ∀ e ∈ w.cache.order, e.key.dbKey ≠ cl.dbKey)
    (hlistings : ∀ level, w.listings level = none) : cl.Coherent { w with bucket := .empty } := by
  refine h.change (fun e he hdb => absurd hdb (hfiles e he)) fun level entry hentry => ?_
  rw [hlistings level] at hentry
  cases hentry

end CachingClient.Coherent

/-! ### The methods on coherent caches -/

section Methods

variable {cl : CachingClient} {w : CacheWorld}

/-- The rule for a step whose answer and effect are determined. -/
theorem obeys_step {α : Type} {Q : CacheWorld → α → Prop} {c : CacheOp} {f : CacheResp c → CacheM α}
    {r : CacheResp c} {w' : CacheWorld} (hserve : ∀ luck, w.serve c luck = some (r, w'))
    (hf : (f r).Obeys serving Q w') : (does c >>= f).Obeys serving Q w := by
  refine .perform trivial ?_
  rintro r' w'' ⟨luck, h⟩
  rw [hserve luck] at h
  cases h
  exact hf

/-- The call is answered as by the plain client, and the caches are coherent. -/
abbrev CachingClient.Refined (cl : CachingClient) (w : CacheWorld) (call : ReplicaCall)
    (w' : CacheWorld) (res : ReplicaResp call) : Prop :=
  cl.Coherent w' ∧ w.bucket.Answers call res w'.bucket

variable (h : cl.Coherent w)
include h

theorem refreshListing_refines (level seek : ℕ) :
    (CachingClient.refreshListing level seek).Obeys serving
      (cl.Refined w (.ltxFiles level seek)) w := by
  refine .perform trivial ?_
  rintro _ _ ⟨e | stamp, ⟨rfl⟩⟩
  · exact ⟨h, rfl⟩
  refine .perform trivial ?_
  rintro now _ ⟨e | stamp, ⟨rfl⟩⟩
  refine obeys_step (fun _ => rfl) ?_
  exact ⟨h.setListing level now, filterFrom_list w.bucket level seek, rfl⟩

theorem ltxFiles_refines (level seek : ℕ) :
    (cl.ltxFiles level seek).Obeys serving (cl.Refined w (.ltxFiles level seek)) w := by
  unfold CachingClient.ltxFiles
  split
  · refine Prog.obeys_perform.mpr ⟨trivial, ?_⟩
    rintro _ _ ⟨e | stamp, ⟨rfl⟩⟩
    · exact ⟨h, rfl⟩
    · exact ⟨h, rfl, rfl⟩
  · refine obeys_step (fun _ => rfl) ?_
    cases hentry : w.listings level with
    | none => exact refreshListing_refines h level seek
    | some entry =>
      refine .perform trivial ?_
      rintro now _ ⟨e | stamp, ⟨rfl⟩⟩
      split
      · refine ⟨h, ?_, rfl⟩
        rw [h.listings level entry hentry, filterFrom_list]
      · exact refreshListing_refines h level seek

theorem cacheData_refines (hcaches : cl.cachesFiles = true) {k : FileKey} {b : Blob}
    (hb : w.bucket.find k = some b) :
    (cl.cacheData k b.data).Obeys serving
      (fun w' _ => cl.Coherent w' ∧ w'.bucket = w.bucket) w := by
  unfold CachingClient.cacheData
  split
  · refine Prog.obeys_perform.mpr ⟨trivial, ?_⟩
    rintro _ _ ⟨luck, ⟨rfl⟩⟩
    exact ⟨h.put hcaches hb, rfl⟩
  · exact ⟨h, rfl⟩

theorem openLTXFile_refines (k : FileKey) (offset : ℕ) (size : ℤ) :
    (cl.openLTXFile k offset size).Obeys serving (cl.Refined w (.openLTXFile k offset size)) w := by
  unfold CachingClient.openLTXFile
  split
  · next hcaches =>
    refine obeys_step (fun _ => rfl) ?_
    have hget : cl.Coherent { w with cache := (w.cache.get (cl.cacheKey k)).2 } :=
      h.shrink fun e he => FileCache.mem_get.mp he
    cases hcached : (w.cache.get (cl.cacheKey k)).1 with
    | some data =>
      obtain ⟨b, hb, rfl⟩ := h.hit hcached
      exact ⟨hget, b, hb, sliceReader_eq_window _ _ _, rfl⟩
    | none =>
      refine .perform trivial ?_
      rintro _ _ ⟨e | stamp, hserve⟩
      · cases hserve
        exact ⟨hget, rfl⟩
      obtain ⟨b, hb, heq⟩ := Option.map_eq_some_iff.mp hserve
      cases heq
      simp only [window_whole]
      refine (cacheData_refines hget hcaches hb).bind ?_
      rintro w' - ⟨hw', hbucket⟩
      exact ⟨hw', b, hb, sliceReader_eq_window _ _ _, hbucket⟩
  · refine Prog.obeys_perform.mpr ⟨trivial, ?_⟩
    rintro _ _ ⟨e | stamp, hserve⟩
    · cases hserve
      exact ⟨h, rfl⟩
    obtain ⟨b, hb, heq⟩ := Option.map_eq_some_iff.mp hserve
    cases heq
    exact ⟨h, b, hb, rfl, rfl⟩

theorem writeLTXFile_refines (k : FileKey) (input : List UInt8) :
    (cl.writeLTXFile k input).Obeys serving (cl.Refined w (.writeLTXFile k input)) w := by
  refine obeys_step (fun _ => rfl) ?_
  have hlevel := h.dropLevel k.level
  split
  · next hcaches =>
    refine .perform trivial ?_
    rintro _ _ ⟨e | stamp, ⟨rfl⟩⟩
    · exact ⟨hlevel, rfl⟩
    refine obeys_step (fun _ => rfl) ?_
    have hdrop : cl.Coherent
        { w with
          cache := w.cache.drop (cl.cacheKey k)
          listings := update w.listings k.level none } :=
      hlevel.shrink fun e he => (FileCache.mem_drop.mp he).1
    refine .perform trivial ?_
    rintro _ _ ⟨e | stamp, ⟨rfl⟩⟩
    · exact ⟨hdrop, rfl⟩
    have hwrite := @CachingClient.Coherent.write cl _ hdrop k input stamp
      (fun e he => (FileCache.mem_drop.mp he).2) (update_self ..)
    have hfind : (w.bucket.write (writtenFile k input stamp)).find k =
        some (writtenFile k input stamp) := by
      rw [Bucket.find_write, key_writtenFile, if_pos rfl]
    refine (cacheData_refines hwrite hcaches hfind).bind ?_
    rintro w' - ⟨hw', hbucket⟩
    exact ⟨hw', rfl, hbucket⟩
  · next hcaches =>
    refine Prog.obeys_perform.mpr ⟨trivial, ?_⟩
    rintro _ _ ⟨e | stamp, ⟨rfl⟩⟩
    · exact ⟨hlevel, rfl⟩
    · refine ⟨hlevel.write (fun e he hkey => ?_) (update_self ..), rfl, rfl⟩
      exact h.unused (by simpa using hcaches) e he (congrArg CacheKey.dbKey hkey)

/-- After one round of the loop neither the file nor a listing of its level is cached. -/
theorem dropFile_refines {α : Type} {Q : CacheWorld → α → Prop} {p : CacheM α} (f : FileInfo)
    (hp : ∀ w', cl.Coherent w' → w'.bucket = w.bucket →
      (∀ e ∈ w'.cache.order, e ∈ w.cache.order ∧ e.key ≠ cl.cacheKey f.key) →
      w'.listings = update w.listings f.level none → p.Obeys serving Q w') :
    (do
      if cl.cachesFiles then does (.drop (cl.cacheKey f.key))
      does (.dropLevel f.level)
      p).Obeys serving Q w := by
  split
  · refine obeys_step (fun _ => rfl) (obeys_step (fun _ => rfl) ?_)
    refine hp _ ?_ rfl (fun e he => FileCache.mem_drop.mp he) rfl
    exact (h.shrink fun e he => (FileCache.mem_drop.mp he).1).dropLevel f.level
  · next hcaches =>
    refine obeys_step (fun _ => rfl) (hp _ (h.dropLevel f.level) rfl (fun e he => ⟨he, ?_⟩) rfl)
    exact fun hkey => h.unused (by simpa using hcaches) e he (congrArg CacheKey.dbKey hkey)

/-- After the loop neither the files nor listings of their levels are cached. -/
theorem dropFiles_refines (files : List FileInfo) :
    (cl.dropFiles files).Obeys serving (fun w' _ => cl.Coherent w' ∧ w'.bucket = w.bucket ∧
      (∀ e ∈ w'.cache.order, e ∈ w.cache.order ∧ ∀ f ∈ files, e.key ≠ cl.cacheKey f.key) ∧
      ∀ level, w.listings level = none ∨ (∃ f ∈ files, f.level = level) →
        w'.listings level = none) w := by
  induction files generalizing w with
  | nil =>
    refine ⟨h, rfl, fun e he => ⟨he, nofun⟩, fun level hlevel => hlevel.resolve_right ?_⟩
    rintro ⟨f, hf, -⟩
    cases hf
  | cons f files ih =>
    refine dropFile_refines h f fun w₁ hw₁ hbucket hcache hlistings => (ih hw₁).mono ?_
    rintro w' - ⟨hw', hbucket', hcache', hlistings'⟩
    refine ⟨hw', hbucket'.trans hbucket, fun e he => ?_, fun level hlevel => hlistings' level ?_⟩
    · obtain ⟨he₁, hfiles⟩ := hcache' e he
      obtain ⟨hew, hf⟩ := hcache e he₁
      exact ⟨hew, forall_mem_cons.mpr ⟨hf, hfiles⟩⟩
    rw [hlistings]
    by_cases heq : level = f.level
    · exact .inl (heq ▸ update_self ..)
    rw [update_of_ne heq]
    refine hlevel.imp_right ?_
    rintro ⟨g, hg, hgl⟩
    rcases mem_cons.mp hg with rfl | hg
    · exact absurd hgl.symm heq
    · exact ⟨g, hg, hgl⟩

theorem deleteLTXFiles_refines (files : List FileInfo) :
    (cl.deleteLTXFiles files).Obeys serving (cl.Refined w (.deleteLTXFiles files)) w := by
  refine (dropFiles_refines h files).bind ?_
  rintro w₁ - ⟨hw₁, hbucket, hcache, hlistings⟩
  refine Prog.obeys_perform.mpr ⟨trivial, ?_⟩
  rintro _ _ ⟨e | stamp, ⟨rfl⟩⟩
  · exact ⟨hw₁, hbucket⟩
  refine ⟨hw₁.delete (fun f hf e he => (hcache e he).2 f hf) fun f hf => ?_, ?_⟩
  · exact hlistings f.level (.inr ⟨f, hf, rfl⟩)
  · exact congrArg (Bucket.delete · files) hbucket

theorem deleteAll_refines : cl.deleteAll.Obeys serving (cl.Refined w .deleteAll) w := by
  have hinner : ∀ w₁ : CacheWorld, cl.Coherent w₁ → w₁.bucket = w.bucket →
      (∀ e ∈ w₁.cache.order, e.key.dbKey ≠ cl.dbKey) →
      (do does .dropListings; does .innerDeleteAll : CacheM (Option Err)).Obeys serving
        (cl.Refined w .deleteAll) w₁ := by
    intro w₁ hw₁ hbucket hcache
    refine obeys_step (fun _ => rfl) ?_
    have hforget : cl.Coherent { w₁ with listings := fun _ => none } := hw₁.forget nofun
    refine Prog.obeys_perform.mpr ⟨trivial, ?_⟩
    rintro _ _ ⟨e | stamp, ⟨rfl⟩⟩
    · exact ⟨hforget, hbucket⟩
    · exact ⟨hforget.deleteAll hcache fun _ => rfl, rfl⟩
  unfold CachingClient.deleteAll
  split
  · refine obeys_step (fun _ => rfl) (hinner _ ?_ rfl fun e he => ?_)
    · exact h.shrink fun e he => (FileCache.mem_dropDB.mp he).1
    · exact (FileCache.mem_dropDB.mp he).2
  · next hcaches => exact hinner w h rfl (h.unused (by simpa using hcaches))

/-- A method on coherent caches answers as the plain client may, and leaves them coherent. -/
theorem method_refines (call : ReplicaCall) :
    (cl.method call).Obeys serving (cl.Refined w call) w := by
  cases call with
  | ltxFiles level seek => exact ltxFiles_refines h level seek
  | openLTXFile k offset size => exact openLTXFile_refines h k offset size
  | writeLTXFile k input => exact writeLTXFile_refines h k input
  | deleteLTXFiles files => exact deleteLTXFiles_refines h files
  | deleteAll => exact deleteAll_refines h

end Methods

/-! ### Failures -/

/-- Watches whether the input or the inner client failed. -/
def failing : Protocol CacheOp CacheResp Bool := .ofStep fun failed c r => failed || c.fails r

section Failures

variable {cl : CachingClient} {failed : Bool}

/-- A call fails only after a failure. -/
abbrev Blames (call : ReplicaCall) (failed : Bool) (res : ReplicaResp call) : Prop :=
  call.fails res = true → failed = true

/-- The rule for the last step of a method, which fails as the step does. -/
theorem does_failing {c : CacheOp} {fails : CacheResp c → Bool}
    (h : ∀ r, fails r = true → c.fails r = true) :
    (does c).Obeys failing (fun failed r => fails r = true → failed = true) failed := by
  refine Prog.obeys_perform.mpr ⟨trivial, ?_⟩
  rintro r _ rfl hr
  simp [h r hr]

theorem refreshListing_failing {level seek : ℕ} :
    (CachingClient.refreshListing level seek).Obeys failing (Blames (.ltxFiles level seek))
      failed := by
  refine .perform trivial ?_
  rintro (e | infos) _ rfl
  · exact fun _ => Bool.or_true _
  · exact ⟨trivial, fun _ _ _ => ⟨trivial, fun _ _ _ => nofun⟩⟩

theorem ltxFiles_failing {level seek : ℕ} :
    (cl.ltxFiles level seek).Obeys failing (Blames (.ltxFiles level seek)) failed := by
  unfold CachingClient.ltxFiles
  split
  · exact does_failing (by rintro (_ | _) <;> exact id)
  · refine .perform trivial ?_
    rintro (_ | entry) s -
    · exact refreshListing_failing
    refine .perform trivial ?_
    rintro now s -
    split
    · exact nofun
    · exact refreshListing_failing

theorem openLTXFile_failing {k : FileKey} {offset : ℕ} {size : ℤ} :
    (cl.openLTXFile k offset size).Obeys failing (Blames (.openLTXFile k offset size)) failed := by
  unfold CachingClient.openLTXFile
  split
  · refine .perform trivial ?_
    rintro (_ | data) s -
    · refine .perform trivial ?_
      rintro (e | data) _ rfl
      · exact fun _ => Bool.or_true _
      · exact (Prog.obeys_true _).bind fun _ _ _ => nofun
    · exact nofun
  · exact does_failing (by rintro (_ | _) <;> exact id)

theorem writeLTXFile_failing {k : FileKey} {input : List UInt8} :
    (cl.writeLTXFile k input).Obeys failing (Blames (.writeLTXFile k input)) failed := by
  refine .perform trivial ?_
  rintro _ s -
  split
  · refine .perform trivial ?_
    rintro (e | data) _ rfl
    · exact fun _ => Bool.or_true _
    refine .perform trivial ?_
    rintro _ s -
    refine .perform trivial ?_
    rintro (e | info) _ rfl
    · exact fun _ => Bool.or_true _
    · exact (Prog.obeys_true _).bind fun _ _ _ => nofun
  · exact does_failing (by rintro (_ | _) <;> exact id)

theorem deleteLTXFiles_failing {files : List FileInfo} :
    (cl.deleteLTXFiles files).Obeys failing (Blames (.deleteLTXFiles files)) failed := by
  exact (Prog.obeys_true _).bind fun _ _ _ => does_failing (by rintro (_ | _) <;> exact id)

theorem deleteAll_failing : cl.deleteAll.Obeys failing (Blames .deleteAll) failed := by
  have hinner : ∀ s, (do does .dropListings; does .innerDeleteAll : CacheM (Option Err)).Obeys
      failing (Blames .deleteAll) s := by
    intro s
    exact .perform trivial fun _ _ _ => does_failing (by rintro (_ | _) <;> exact id)
  unfold CachingClient.deleteAll
  split
  · exact .perform trivial fun _ s _ => hinner s
  · exact hinner failed

/-- A method fails only if its input or the inner client failed. -/
theorem method_failing {call : ReplicaCall} :
    (cl.method call).Obeys failing (Blames call) failed := by
  cases call with
  | ltxFiles level seek => exact ltxFiles_failing
  | openLTXFile k offset size => exact openLTXFile_failing
  | writeLTXFile k input => exact writeLTXFile_failing
  | deleteLTXFiles files => exact deleteLTXFiles_failing
  | deleteAll => exact deleteAll_failing

end Failures

theorem exists_failed_step {steps : List (Σ c, CacheResp c)} {failed : Bool}
    (h : steps.foldl (fun failed e => failed || e.1.fails e.2) failed = true) :
    failed = true ∨ ∃ e ∈ steps, e.1.fails e.2 = true := by
  induction steps generalizing failed with
  | nil => exact .inl h
  | cons e steps ih =>
    rcases ih h with h | ⟨e', he', h⟩
    · rcases (Bool.or_eq_true _ _).mp h with h | h
      · exact .inl h
      · exact .inr ⟨e, mem_cons_self, h⟩
    · exact .inr ⟨e', mem_cons_of_mem _ he', h⟩

/-! ### Refinement -/

/-- **The caching client refines the plain one.** Started with no listing and no file of its
database cached, on any replica and with any limit of the cache, every serial run of the client is
a run of the plain client with the same results, and a call fails only if a call of the inner
client or reading its input failed. -/
theorem cachingClient_refines {cl : CachingClient} {w w' : CacheWorld} {calls : List Completed}
    (hfiles : ∀ e ∈ w.cache.order, e.key.dbKey ≠ cl.dbKey)
    (hlistings : ∀ level, w.listings level = none)
    (h : cl.Serial w calls w') :
    Bucket.Run w.bucket calls w'.bucket ∧
      ∀ x ∈ calls, x.call.fails x.result = true → ∃ e ∈ x.steps, e.1.fails e.2 = true := by
  have hw : cl.Coherent w := by
    refine ⟨fun e he hdb => absurd hdb (hfiles e he), fun level entry hentry => ?_, fun _ => hfiles⟩
    rw [hlistings level] at hentry
    cases hentry
  clear hfiles hlistings
  induction h with
  | nil w => exact ⟨.nil _, nofun⟩
  | cons hreturns hsteps rest ih =>
    obtain ⟨hw', hanswer⟩ := hreturns.runs hsteps (method_refines hw _)
    obtain ⟨hrun, hfails⟩ := ih hw'
    refine ⟨.cons hanswer hrun, forall_mem_cons.mpr ⟨fun hfail => ?_, hfails⟩⟩
    have hfailed := hreturns.obeys (s := false) method_failing hfail
    exact (exists_failed_step hfailed).resolve_left Bool.false_ne_true

/-- A file is opened twice: the second time it comes from the cache. -/
theorem cachingClient_refines_hit :
    ∃ calls w', (⟨"db", true, 0⟩ : CachingClient).Serial
        ⟨⟨[⟨⟨1, 1, 1, 2, 10⟩, [7, 8]⟩], by decide⟩, .new 100, fun _ => none⟩ calls w' ∧
      calls.map Completed.call = [.openLTXFile ⟨1, 1, 1⟩ 1 0, .openLTXFile ⟨1, 1, 1⟩ 0 1] ∧
      (calls.map fun x => x.steps.length) = [3, 1] ∧
      Bucket.Run ⟨[⟨⟨1, 1, 1, 2, 10⟩, [7, 8]⟩], by decide⟩ calls w'.bucket := by
  have hserial : ∃ w', (⟨"db", true, 0⟩ : CachingClient).Serial
      ⟨⟨[⟨⟨1, 1, 1, 2, 10⟩, [7, 8]⟩], by decide⟩, .new 100, fun _ => none⟩
      [⟨.openLTXFile ⟨1, 1, 1⟩ 1 0, .ok [8], [⟨.get ⟨"db", ⟨1, 1, 1⟩⟩, none⟩,
          ⟨.innerOpenLTXFile ⟨1, 1, 1⟩ 0 0, .ok [7, 8]⟩, ⟨.put ⟨"db", ⟨1, 1, 1⟩⟩ [7, 8], ()⟩]⟩,
        ⟨.openLTXFile ⟨1, 1, 1⟩ 0 1, .ok [7], [⟨.get ⟨"db", ⟨1, 1, 1⟩⟩, some [7, 8]⟩]⟩] w' := by
    refine ⟨_, .cons (.call (.call (.call (.done _)))) (.cons ⟨.succeeds 0, rfl⟩
      (.cons ⟨.succeeds 0, rfl⟩ (.cons ⟨.succeeds 0, rfl⟩ (.nil _)))) (.cons (.call (.done _))
        (.cons ⟨.succeeds 0, rfl⟩ (.nil _)) (.nil _))⟩
  obtain ⟨w', hserial⟩ := hserial
  exact ⟨_, w', hserial, rfl, rfl,
    (cachingClient_refines (fun _ he => absurd he not_mem_nil) (fun _ => rfl) hserial).1⟩

end Walrusd.Litestream
