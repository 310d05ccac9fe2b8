import Mathlib.Data.Fintype.Basic
import Walrusd.Litestream.CachingClient

/-!
# The file cache under concurrent calls

Several callers use one caching client at the same time: they open, write and delete LTX files, and
their single steps interleave. A caller that opens a file which is not cached holds its bytes
between the call of the inner client and the insertion into the cache; a caller that writes or
deletes a file has dropped it from the cache some time before the replica changes. No lock spans
these steps, and an insertion keeps what is cached already, so bytes that the replica does not have
any more can stay in the cache.

The cache is coherent as long as neither happens: no file is written or deleted while another
caller holds its bytes, and no bytes are inserted while another caller has dropped the file and is
about to write or delete it.

## Main definitions

* `Errand` — what a caller holds and what it has dropped.
* `sharedSystem` — the callers of one client.
* `Undisturbed` — the condition on a step.

## Main results

* `sharedCache_coherent`.
* `sharedCache_stale` — runs that leave stale bytes in the cache.
-/

namespace Walrusd.Litestream

open Program Function List Option

/-! ### The callers -/

/-- Where a caller is: the file whose bytes it got from the replica or wrote, and will insert into
the cache, and the names that it has dropped from the cache and is about to write or delete. -/
structure Errand where
  held : Option (FileKey × List UInt8)
  cleared : List FileKey
  deriving DecidableEq

/-- A caller that has not begun. -/
def Errand.idle : Errand := ⟨none, []⟩

/-- The bytes of a file that the client will insert into its cache. -/
def CachingClient.keeps (cl : CachingClient) (k : FileKey) (data : List UInt8) :
    Option (FileKey × List UInt8) :=
  if cl.cachesFiles ∧ data.length ≤ maxCachedFileBytes then some (k, data) else none

/-- The errand after a step. -/
def Errand.step (cl : CachingClient) (s : Errand) : (c : CacheOp) → CacheResp c → Errand
  | .drop k, _ => { s with cleared := k.file :: s.cleared }
  | .put _ _, _ => { s with held := none }
  | .innerOpenLTXFile k _ _, .ok data => { s with held := cl.keeps k data }
  | .innerWriteLTXFile k data, .ok _ => ⟨cl.keeps k data, []⟩
  | .innerWriteLTXFile _ _, .error _ => { s with cleared := [] }
  | .innerDeleteLTXFiles _, _ => { s with cleared := [] }
  | _, _ => s

/-- The caches, the replica, and the callers' errands. -/
structure SharedWorld (ι : Type) where
  inner : CacheWorld
  errand : ι → Errand

variable {ι : Type} [DecidableEq ι]

/-- The programs of the callers: the methods that open, write and delete files. -/
def CachingClient.errandProgram (cl : CachingClient) : ReplicaCall → Option (CacheM Unit)
  | .openLTXFile k offset size => some do
    let _ ← cl.openLTXFile k offset size
    return ()
  | .writeLTXFile k input => some do
    let _ ← cl.writeLTXFile k input
    return ()
  | .deleteLTXFiles files => some do
    let _ ← cl.deleteLTXFiles files
    return ()
  | .ltxFiles _ _ | .deleteAll => none

/-- The callers of one client, which alone changes the replica. -/
def sharedSystem (cl : CachingClient) : System (SharedWorld ι) ι CacheOp CacheResp Unit where
  start w _ p w' := (∃ call, cl.errandProgram call = some p) ∧ w' = w
  call w i c r w' := (∃ luck, w.inner.serve c luck = some (r, w'.inner)) ∧
    w'.errand = Function.update w.errand i ((w.errand i).step cl c r)
  env _ _ := False

/-- The condition on a step: bytes are inserted only while no other caller has dropped the file, and
a file is written or deleted only while no other caller holds its bytes. -/
def Undisturbed (w : SharedWorld ι) (i : ι) : (c : CacheOp) → CacheResp c → SharedWorld ι → Prop
  | .put k _, _, _ => ∀ j, j ≠ i → k.file ∉ (w.errand j).cleared
  | .innerWriteLTXFile k _, .ok _, _ =>
    ∀ j, j ≠ i → (w.errand j).held.map Prod.fst ≠ some k
  | .innerDeleteLTXFiles files, none, _ =>
    ∀ j, j ≠ i → ∀ x ∈ (w.errand j).held, ¬ HasKey files x.1
  | _, _, _ => True

/-! ### The errands of the methods -/

/-- What the methods keep to, one step at a time. -/
def Errand.Allows (cl : CachingClient) (s : Errand) : CacheOp → Prop
  | .put k data => cl.cachesFiles = true ∧ s.cleared = [] ∧ k.dbKey = cl.dbKey ∧
    s.held = some (k.file, data)
  | .drop k => k.dbKey = cl.dbKey
  | .innerOpenLTXFile _ offset size => cl.cachesFiles = true → offset = 0 ∧ size = 0
  | .innerWriteLTXFile k _ => cl.cachesFiles = true → k ∈ s.cleared
  | .innerDeleteLTXFiles files => s.held = none ∧
    (cl.cachesFiles = true → ∀ f ∈ files, f.key ∈ s.cleared)
  | .innerDeleteAll => False
  | _ => True

/-- The protocol of the methods. -/
def errands (cl : CachingClient) : Protocol CacheOp CacheResp Errand where
  allow s c := s.Allows cl c
  next s c r s' := s' = s.step cl c r

instance (cl : CachingClient) : (errands cl).Steps (Errand.step cl) := ⟨id⟩

section Methods

variable {cl : CachingClient} {s : Errand}

theorem cacheData_errand (hcaches : cl.cachesFiles = true) (k : FileKey) (data : List UInt8) :
    (cl.cacheData k data).Keeps (errands cl) ⟨cl.keeps k data, []⟩ := by
  unfold CachingClient.cacheData
  split
  · next hsize =>
    refine Prog.obeys_perform.mpr ⟨⟨hcaches, rfl, rfl, ?_⟩, fun _ _ _ => trivial⟩
    exact if_pos ⟨hcaches, hsize⟩
  · trivial

theorem openLTXFile_errand (k : FileKey) (offset : ℕ) (size : ℤ) :
    (cl.openLTXFile k offset size).Keeps (errands cl) .idle := by
  unfold CachingClient.openLTXFile
  split
  · next hcaches =>
    refine .does trivial ?_
    rintro (_ | data)
    · refine .does (fun _ => ⟨rfl, rfl⟩) ?_
      rintro (e | data)
      · trivial
      · exact (cacheData_errand hcaches k data).bind fun _ _ _ => trivial
    · trivial
  · next hcaches =>
    exact Prog.obeys_perform.mpr ⟨fun h => absurd h hcaches, fun _ _ _ => trivial⟩

theorem writeLTXFile_errand (k : FileKey) (input : List UInt8) :
    (cl.writeLTXFile k input).Keeps (errands cl) .idle := by
  refine .does trivial fun _ => ?_
  split
  · next hcaches =>
    refine .does trivial ?_
    rintro (e | data)
    · trivial
    refine .does rfl fun _ => ?_
    refine .does (fun _ => mem_cons_self) ?_
    rintro (e | info)
    · trivial
    · exact (cacheData_errand hcaches k data).bind fun _ _ _ => trivial
  · next hcaches =>
    exact Prog.obeys_perform.mpr ⟨fun h => absurd h hcaches, fun _ _ _ => trivial⟩

theorem dropFiles_errand (files : List FileInfo) (hs : s.held = none) :
    (cl.dropFiles files).Obeys (errands cl) (fun s' _ => s'.held = none ∧
      (cl.cachesFiles = true → ∀ f ∈ files, f.key ∈ s'.cleared) ∧
      ∀ k ∈ s.cleared, k ∈ s'.cleared) s := by
  induction files generalizing s with
  | nil => exact ⟨hs, nofun, fun k hk => hk⟩
  | cons f files ih =>
    unfold CachingClient.dropFiles
    split
    · refine .does rfl fun _ => ?_
      refine .does trivial fun _ => ?_
      refine (ih (s := { s with cleared := f.key :: s.cleared }) hs).mono ?_
      rintro s' - ⟨hheld, hfiles, hcleared⟩
      refine ⟨hheld, fun hcaches => forall_mem_cons.mpr ⟨?_, hfiles hcaches⟩, fun k hk => ?_⟩
      · exact hcleared _ mem_cons_self
      · exact hcleared k (mem_cons_of_mem _ hk)
    · next hcaches =>
      refine .does trivial fun _ => ?_
      refine (ih hs).mono ?_
      rintro s' - ⟨hheld, -, hcleared⟩
      exact ⟨hheld, fun h => absurd h hcaches, hcleared⟩

theorem deleteLTXFiles_errand (files : List FileInfo) :
    (cl.deleteLTXFiles files).Keeps (errands cl) .idle := by
  refine (dropFiles_errand files rfl).bind ?_
  rintro s' - ⟨hheld, hfiles, -⟩
  exact Prog.obeys_perform.mpr ⟨⟨hheld, hfiles⟩, fun _ _ _ => trivial⟩

theorem errandProgram_errand {call : ReplicaCall} {p : CacheM Unit}
    (h : cl.errandProgram call = some p) : p.Keeps (errands cl) .idle := by
  cases call with
  | openLTXFile k offset size =>
    cases h
    exact (openLTXFile_errand k offset size).bind fun _ _ _ => trivial
  | writeLTXFile k input =>
    cases h
    exact (writeLTXFile_errand k input).bind fun _ _ _ => trivial
  | deleteLTXFiles files =>
    cases h
    exact (deleteLTXFiles_errand files).bind fun _ _ _ => trivial
  | ltxFiles | deleteAll => cases h

end Methods

/-! ### The invariant -/

/-- The bytes that the caller holds are those of the replica. -/
def Errand.Current (s : Errand) (st : Bucket) : Prop :=
  ∀ k data, s.held = some (k, data) → ∃ b, st.find k = some b ∧ b.data = data

/-- The names that the caller has dropped are not cached. -/
def Errand.Dropped (s : Errand) (cl : CachingClient) (cache : FileCache) : Prop :=
  ∀ k ∈ s.cleared, ∀ e ∈ cache.order, e.key ≠ cl.cacheKey k

/-- The state of the callers: cached and held bytes are those of the replica, and dropped names are
not cached. -/
structure Shared (cl : CachingClient) (w : SharedWorld ι) : Prop where
  cached : ∀ e ∈ w.inner.cache.order, e.key.dbKey = cl.dbKey →
    ∃ b, w.inner.bucket.find e.key.file = some b ∧ b.data = e.data
  current : ∀ j, (w.errand j).Current w.inner.bucket
  dropped : ∀ j, (w.errand j).Dropped cl w.inner.cache
  unused : cl.cachesFiles = false → ∀ e ∈ w.inner.cache.order, e.key.dbKey ≠ cl.dbKey

theorem Errand.Dropped.mono {s : Errand} {cl : CachingClient} {cache cache' : FileCache}
    (h : s.Dropped cl cache) (hsub : ∀ e ∈ cache'.order, e ∈ cache.order) : s.Dropped cl cache' :=
  fun k hk e he => h k hk e (hsub e he)

theorem Errand.current_keeps {cl : CachingClient} {st : Bucket} {k : FileKey} {b : Blob}
    {data : List UInt8} (cleared : List FileKey) (hb : st.find k = some b)
    (hdata : cl.cachesFiles = true → data = b.data) :
    Errand.Current ⟨cl.keeps k data, cleared⟩ st := by
  intro k' data' hheld
  simp only [CachingClient.keeps] at hheld
  split at hheld
  · next hkeeps =>
    cases hheld
    exact ⟨b, hb, (hdata hkeeps.1).symm⟩
  · cases hheld

section Steps

variable {cl : CachingClient} {w : SharedWorld ι} {i : ι} {inner : CacheWorld} {s : Errand}

theorem Shared.update
    (hcached : ∀ e ∈ inner.cache.order, e.key.dbKey = cl.dbKey →
      ∃ b, inner.bucket.find e.key.file = some b ∧ b.data = e.data)
    (hunused : cl.cachesFiles = false → ∀ e ∈ inner.cache.order, e.key.dbKey ≠ cl.dbKey)
    (hself : s.Current inner.bucket ∧ s.Dropped cl inner.cache)
    (hothers : ∀ j, j ≠ i →
      (w.errand j).Current inner.bucket ∧ (w.errand j).Dropped cl inner.cache) :
    Shared cl ⟨inner, update w.errand i s⟩ where
  cached := hcached
  current := (forall_update_iff w.errand fun _ s => s.Current inner.bucket).mpr
    ⟨hself.1, fun j hj => (hothers j hj).1⟩
  dropped := (forall_update_iff w.errand fun _ s => s.Dropped cl inner.cache).mpr
    ⟨hself.2, fun j hj => (hothers j hj).2⟩
  unused := hunused

/-- A step that leaves the replica alone and caches nothing new; the caller may forget what it has
dropped. -/
theorem Shared.quiet (h : Shared cl w) (hbucket : inner.bucket = w.inner.bucket)
    (hcache : ∀ e ∈ inner.cache.order, e ∈ w.inner.cache.order) (hheld : s.held = (w.errand i).held)
    (hcleared : ∀ k ∈ s.cleared, k ∈ (w.errand i).cleared) :
    Shared cl ⟨inner, Function.update w.errand i s⟩ := by
  refine .update ?_ (fun hnone e he => h.unused hnone e (hcache e he)) ⟨?_, ?_⟩ fun j _ => ⟨?_, ?_⟩
  · rw [hbucket]
    exact fun e he => h.cached e (hcache e he)
  · rw [hbucket]
    exact fun k data hs => h.current i k data (hheld ▸ hs)
  · exact fun k hk e he => h.dropped i k (hcleared k hk) e (hcache e he)
  · rw [hbucket]
    exact h.current j
  · exact (h.dropped j).mono hcache

theorem Shared.put (h : Shared cl w) {k : CacheKey} {data : List UInt8}
    (hallow : (w.errand i).Allows cl (.put k data))
    (hgood : ∀ j, j ≠ i → k.file ∉ (w.errand j).cleared) :
    Shared cl ⟨{ w.inner with cache := w.inner.cache.put k data },
      Function.update w.errand i { w.errand i with held := none }⟩ := by
  obtain ⟨hcaches, hclear, hdbKey, hheld⟩ := hallow
  refine .update (fun e he hdb => ?_) (fun hnone => ?_) ⟨nofun, ?_⟩ fun j hj => ⟨h.current j, ?_⟩
  · rcases FileCache.mem_put he with he | rfl
    · exact h.cached e he hdb
    · exact h.current i k.file data hheld
  · rw [hcaches] at hnone
    cases hnone
  · intro k' hk'
    simp only [hclear] at hk'
    cases hk'
  · intro k' hk' e he
    rcases FileCache.mem_put he with he | rfl
    · exact h.dropped j k' hk' e he
    · rintro rfl
      exact hgood j hj hk'

theorem Shared.drop (h : Shared cl w) {k : CacheKey} (hallow : k.dbKey = cl.dbKey) :
    Shared cl ⟨{ w.inner with cache := w.inner.cache.drop k },
      Function.update w.errand i
        { w.errand i with cleared := k.file :: (w.errand i).cleared }⟩ := by
  have hsub : ∀ e ∈ (w.inner.cache.drop k).order, e ∈ w.inner.cache.order := fun e he =>
    (FileCache.mem_drop.mp he).1
  refine .update (fun e he => h.cached e (hsub e he))
    (fun hnone e he => h.unused hnone e (hsub e he)) ⟨h.current i, ?_⟩
    fun j _ => ⟨h.current j, (h.dropped j).mono hsub⟩
  refine forall_mem_cons.mpr ⟨fun e he hkey => ?_, (h.dropped i).mono hsub⟩
  refine (FileCache.mem_drop.mp he).2 (hkey.trans ?_)
  rw [CachingClient.cacheKey, ← hallow]

/-- The replica changes, but not in a name that is cached or that another caller holds. -/
theorem Shared.change (h : Shared cl w) {st : Bucket}
    (hcached : ∀ e ∈ w.inner.cache.order, e.key.dbKey = cl.dbKey →
      st.find e.key.file = w.inner.bucket.find e.key.file)
    (hothers : ∀ j, j ≠ i → ∀ k data, (w.errand j).held = some (k, data) →
      st.find k = w.inner.bucket.find k) (hself : s.Current st) (hcleared : s.cleared = []) :
    Shared cl ⟨{ w.inner with bucket := st }, Function.update w.errand i s⟩ := by
  refine .update (fun e he hdb => ?_) h.unused ⟨hself, ?_⟩ fun j hj => ⟨?_, h.dropped j⟩
  · rw [hcached e he hdb]
    exact h.cached e he hdb
  · intro k hk
    rw [hcleared] at hk
    cases hk
  intro k data hheld
  rw [hothers j hj k data hheld]
  exact h.current j k data hheld

omit [DecidableEq ι] in
/-- No entry of the client's database has a name that it dropped, or any name if it does not cache
files. -/
theorem Shared.not_cached (h : Shared cl w) {k : FileKey}
    (hk : cl.cachesFiles = true → k ∈ (w.errand i).cleared) {e : FileEntry}
    (he : e ∈ w.inner.cache.order) (hdb : e.key.dbKey = cl.dbKey) : e.key.file ≠ k := by
  rintro rfl
  cases hcaches : cl.cachesFiles with
  | false => exact h.unused hcaches e he hdb
  | true =>
    refine h.dropped i _ (hk hcaches) e he ?_
    rw [CachingClient.cacheKey, ← hdb]

theorem Shared.written (h : Shared cl w) {k : FileKey} {data : List UInt8} {stamp : ℤ}
    (hallow : cl.cachesFiles = true → k ∈ (w.errand i).cleared)
    (hgood : ∀ j, j ≠ i → (w.errand j).held.map Prod.fst ≠ some k) :
    Shared cl ⟨{ w.inner with bucket := w.inner.bucket.write (writtenFile k data stamp) },
      Function.update w.errand i ⟨cl.keeps k data, []⟩⟩ := by
  have hfind : (w.inner.bucket.write (writtenFile k data stamp)).find k =
      some (writtenFile k data stamp) := by
    rw [Bucket.find_write, key_writtenFile, if_pos rfl]
  refine h.change (fun e he hdb => ?_) (fun j hj k' data' hheld => ?_)
    (Errand.current_keeps [] hfind fun _ => rfl) rfl
  · rw [Bucket.find_write, key_writtenFile, if_neg (h.not_cached hallow he hdb).symm]
  rw [Bucket.find_write, key_writtenFile, if_neg]
  rintro rfl
  refine hgood j hj ?_
  rw [hheld]
  rfl

theorem Shared.deleted (h : Shared cl w) {files : List FileInfo}
    (hallow : (w.errand i).Allows cl (.innerDeleteLTXFiles files))
    (hgood : ∀ j, j ≠ i → ∀ x ∈ (w.errand j).held, ¬ HasKey files x.1) :
    Shared cl ⟨{ w.inner with bucket := w.inner.bucket.delete files },
      Function.update w.errand i { w.errand i with cleared := [] }⟩ := by
  refine h.change (fun e he hdb => ?_) (fun j hj k data hheld => ?_) (fun k data hheld => ?_) rfl
  · rw [Bucket.find_delete, if_neg]
    intro hkey
    obtain ⟨f, hf, hfe⟩ := hasKey_iff.mp hkey
    exact h.not_cached (fun hcaches => hallow.2 hcaches f hf) he hdb hfe.symm
  · rw [Bucket.find_delete, if_neg (hgood j hj (k, data) hheld)]
  · rw [show (w.errand i).held = none from hallow.1] at hheld
    cases hheld

theorem Shared.step (h : Shared cl w) {c : CacheOp} {r : CacheResp c} {luck : Luck}
    {w' : SharedWorld ι} (hallow : (w.errand i).Allows cl c)
    (hserve : w.inner.serve c luck = some (r, inner)) (hgood : Undisturbed w i c r w') :
    Shared cl ⟨inner, Function.update w.errand i ((w.errand i).step cl c r)⟩ := by
  cases c with
  | get k =>
    cases hserve
    exact h.quiet rfl (fun e he => FileCache.mem_get.mp he) rfl fun _ hk => hk
  | put k data =>
    cases hserve
    exact h.put hallow hgood
  | drop k =>
    cases hserve
    exact h.drop hallow
  | dropDB dbKey =>
    cases hserve
    exact h.quiet rfl (fun e he => (FileCache.mem_dropDB.mp he).1) rfl fun _ hk => hk
  | now =>
    cases luck with
    | fails => cases hserve
    | succeeds stamp =>
      cases hserve
      exact h.quiet rfl (fun _ he => he) rfl fun _ hk => hk
  | readAll | innerLTXFiles =>
    cases luck with
    | fails e | succeeds e =>
      cases hserve
      exact h.quiet rfl (fun _ he => he) rfl fun _ hk => hk
  | innerOpenLTXFile k offset size =>
    cases luck with
    | fails e =>
      cases hserve
      exact h.quiet rfl (fun _ he => he) rfl fun _ hk => hk
    | succeeds stamp =>
      obtain ⟨b, hb, heq⟩ := map_eq_some_iff.mp hserve
      cases heq
      refine .update h.cached h.unused ⟨Errand.current_keeps _ hb fun hcaches => ?_, h.dropped i⟩
        fun j _ => ⟨h.current j, h.dropped j⟩
      obtain ⟨rfl, rfl⟩ := hallow hcaches
      exact window_whole b.data
  | innerWriteLTXFile k data =>
    cases luck with
    | fails e =>
      cases hserve
      exact h.quiet rfl (fun _ he => he) rfl nofun
    | succeeds stamp =>
      cases hserve
      exact h.written hallow hgood
  | innerDeleteLTXFiles files =>
    cases luck with
    | fails e =>
      cases hserve
      exact h.quiet rfl (fun _ he => he) rfl nofun
    | succeeds stamp =>
      cases hserve
      exact h.deleted hallow hgood
  | innerDeleteAll => exact absurd hallow not_false
  | _ =>
    cases hserve
    exact h.quiet rfl (fun _ he => he) rfl fun _ hk => hk

end Steps

/-! ### Runs -/

/-- **The shared cache is coherent** in every run whose steps meet the condition, from any replica
and with nothing of the database cached: every cached entry has the bytes that the replica holds
under its name, and no entry is cached for a file that is not there. -/
theorem sharedCache_coherent {cl : CachingClient} {w₀ : SharedWorld ι}
    (hidle : ∀ i, w₀.errand i = .idle)
    (hcache : ∀ e ∈ w₀.inner.cache.order, e.key.dbKey ≠ cl.dbKey)
    {a : Pool (SharedWorld ι) ι CacheOp CacheResp Unit}
    (ha : ((sharedSystem cl).restrict Undisturbed).Reachable w₀ a) :
    ∀ e ∈ a.world.inner.cache.order, e.key.dbKey = cl.dbKey →
      ∃ b, a.world.inner.bucket.find e.key.file = some b ∧ b.data = e.data := by
  have hw₀ : Shared cl w₀ := by
    refine ⟨fun e he hdb => absurd hdb (hcache e he), fun j => ?_, fun j => ?_, fun _ => hcache⟩
    · rw [hidle j]
      exact nofun
    · rw [hidle j]
      exact fun k hk => absurd hk not_mem_nil
  obtain ⟨g, ⟨-, hshared⟩, -⟩ := ha.invariant_knowing (errands cl) (fun _ _ _ => True)
    (fun w g => g = w.errand ∧ Shared cl w) (K := fun _ => True) w₀.errand (fun _ _ => trivial)
    ⟨rfl, hw₀⟩
    (by
      rintro w g i p w' - ⟨rfl, hw⟩ hi ⟨⟨call, hcall⟩, rfl⟩
      refine ⟨.idle, errandProgram_errand hcall, ?_, hw⟩
      rw [hidle i] at hi
      rw [← hi, Function.update_eq_self])
    (by
      rintro w g i c r w' - ⟨rfl, hw⟩ hallow ⟨⟨⟨luck, hserve⟩, herrand⟩, hgood⟩
      refine ⟨_, rfl, herrand.symm, ?_⟩
      have hstep := hw.step hallow hserve hgood
      rwa [← herrand] at hstep)
    (fun _ _ _ _ _ henv => False.elim henv)
  exact hshared.cached

instance [Fintype ι] (w : SharedWorld ι) (i : ι) (c : CacheOp) (r : CacheResp c)
    (w' : SharedWorld ι) : Decidable (Undisturbed w i c r w') := by
  unfold Undisturbed
  split <;> infer_instance

/-- The runs that scripts describe. -/
def sharedInterpreter (cl : CachingClient) :
    Interpreter (@sharedSystem ι _ cl) ReplicaCall Luck Empty where
  start w _ call := (cl.errandProgram call).map fun p => (p, w)
  call w i c luck := (w.inner.serve c luck).map fun s =>
    (s.1, ⟨s.2, Function.update w.errand i ((w.errand i).step cl c s.1)⟩)
  env _ x := nomatch x
  start_sound h := by
    obtain ⟨p, hp, heq⟩ := map_eq_some_iff.mp h
    obtain ⟨rfl, rfl⟩ := Prod.mk.inj heq
    exact ⟨⟨_, hp⟩, rfl⟩
  call_sound h := by
    obtain ⟨s, hs, heq⟩ := map_eq_some_iff.mp h
    obtain ⟨rfl, rfl⟩ := Prod.mk.inj heq
    exact ⟨⟨_, hs⟩, rfl⟩
  env_sound {_ x} := nomatch x

namespace Sharing

/-- A client with a file cache. -/
def client : CachingClient := ⟨"db", true, 0⟩

/-- The replica holds one file, and nothing is cached. -/
def start : SharedWorld (Fin 2) :=
  ⟨⟨⟨[⟨⟨0, 1, 1, 1, 10⟩, [7]⟩], by decide⟩, .new 100, fun _ => none⟩, fun _ => .idle⟩

/-- The pools of a script. -/
abbrev State := Pool (SharedWorld (Fin 2)) (Fin 2) CacheOp CacheResp Unit

/-- The moves of a script. -/
abbrev Moves := List (Move (Fin 2) ReplicaCall Luck Empty)

/-- A caller makes steps that succeed. -/
def steps (i : Fin 2) (n : ℕ) : Moves := List.replicate n (.call i (.succeeds 0))

/-- The first caller opens the file and gets its bytes from the replica. -/
def opening : Moves := .start 0 (.openLTXFile ⟨0, 1, 1⟩ 0 0) :: steps 0 2

/-- The second caller writes the file again; the first one inserts the old bytes before the second
one inserts the new ones. -/
def rewritten : Moves :=
  opening ++ .start 1 (.writeLTXFile ⟨0, 1, 1⟩ [8]) :: steps 1 4 ++ steps 0 1 ++ steps 1 1

/-- The second caller deletes the file before the first one inserts its bytes. -/
def removed : Moves :=
  opening ++ .start 1 (.deleteLTXFiles [⟨0, 1, 1, 1, 10⟩]) :: steps 1 3 ++ steps 0 1

/-- The second caller writes the file again after the first one has returned. -/
def oneByOne : Moves := opening ++ steps 0 1 ++ .start 1 (.writeLTXFile ⟨0, 1, 1⟩ [8]) :: steps 1 5

/-- Who has returned, what is cached, and what the replica holds. -/
structure View where
  outcomes : Option Unit × Option Unit
  cached : List FileEntry
  stored : Option Blob
  deriving DecidableEq

/-- The view of a pool. -/
def view (a : State) : View where
  outcomes := (a.outcome 0, a.outcome 1)
  cached := a.world.inner.cache.order
  stored := a.world.inner.bucket.find ⟨0, 1, 1⟩

theorem returned {a : State} {o : View} (h : view a = o) (ho : o.outcomes = (some (), some ())) :
    ∀ i, a.procs i = some (.done ()) := by
  have hboth := (congrArg View.outcomes h).trans ho
  have h0 : a.outcome 0 = some () := congrArg Prod.fst hboth
  have h1 : a.outcome 1 = some () := congrArg Prod.snd hboth
  exact Fin.forall_fin_two.mpr ⟨Pool.procs_of_outcome h0, Pool.procs_of_outcome h1⟩

/-- One call after the other: the new bytes are cached. -/
theorem sharedCache_coherent_oneByOne : ∃ a : State,
    ((sharedSystem client).restrict Undisturbed).Reachable start a ∧
      a.world.inner.cache.order = [⟨⟨"db", ⟨0, 1, 1⟩⟩, [8]⟩] ∧
      ∃ b, a.world.inner.bucket.find ⟨0, 1, 1⟩ = some b ∧ b.data = [8] := by
  have hview : (((sharedInterpreter client).restrict Undisturbed).exec start oneByOne).map view =
      some ⟨(some (), some ()), [⟨⟨"db", ⟨0, 1, 1⟩⟩, [8]⟩], some ⟨⟨0, 1, 1, 1, 0⟩, [8]⟩⟩ := by
    decide +kernel
  obtain ⟨a, ha, heq⟩ := map_eq_some_iff.mp hview
  have hreach := Interpreter.exec_reachable _ ha
  have horder : a.world.inner.cache.order = [⟨⟨"db", ⟨0, 1, 1⟩⟩, [8]⟩] := congrArg View.cached heq
  refine ⟨a, hreach, horder, ?_⟩
  exact sharedCache_coherent (fun _ => rfl) (fun _ he => absurd he not_mem_nil) hreach
    ⟨⟨"db", ⟨0, 1, 1⟩⟩, [8]⟩ (horder ▸ mem_singleton_self _) rfl

end Sharing

open Sharing in
/-- All calls have returned, and the cache holds bytes that were overwritten, or the bytes of a file
that was deleted. -/
theorem sharedCache_stale :
    (∃ a : State, (sharedSystem client).Reachable start a ∧ (∀ i, a.procs i = some (.done ())) ∧
      a.world.inner.cache.order = [⟨⟨"db", ⟨0, 1, 1⟩⟩, [7]⟩] ∧
      a.world.inner.bucket.find ⟨0, 1, 1⟩ = some ⟨⟨0, 1, 1, 1, 0⟩, [8]⟩) ∧
    ∃ a : State, (sharedSystem client).Reachable start a ∧ (∀ i, a.procs i = some (.done ())) ∧
      a.world.inner.cache.order = [⟨⟨"db", ⟨0, 1, 1⟩⟩, [7]⟩] ∧
      a.world.inner.bucket.find ⟨0, 1, 1⟩ = none := by
  constructor
  · have hview : ((sharedInterpreter client).exec start rewritten).map view =
        some ⟨(some (), some ()), [⟨⟨"db", ⟨0, 1, 1⟩⟩, [7]⟩], some ⟨⟨0, 1, 1, 1, 0⟩, [8]⟩⟩ := by
      decide +kernel
    obtain ⟨a, ha, heq⟩ := map_eq_some_iff.mp hview
    exact ⟨a, Interpreter.exec_reachable _ ha, returned heq rfl, congrArg View.cached heq,
      congrArg View.stored heq⟩
  · have hview : ((sharedInterpreter client).exec start removed).map view =
        some ⟨(some (), some ()), [⟨⟨"db", ⟨0, 1, 1⟩⟩, [7]⟩], none⟩ := by decide +kernel
    obtain ⟨a, ha, heq⟩ := map_eq_some_iff.mp hview
    exact ⟨a, Interpreter.exec_reachable _ ha, returned heq rfl, congrArg View.cached heq,
      congrArg View.stored heq⟩

end Walrusd.Litestream
