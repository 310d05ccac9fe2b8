import Walrusd.Lifecycle.Unregister

/-!
# The credentials of the clients that a call uses

Every call of the runtime resolves its credentials and hands them, with its storage profile, to
`RegisterDatabase`, which builds the replica client and the manifest store of a new entry
(`runtime/runtime.go`, `litestream/litestream.go`, `litestream/manifest.go`). An entry that is
registered already is used as it is, and its key says nothing of the credentials. The runs of
`Walrusd.Lifecycle.World` are followed here with the clients that each entry was given.

## Main definitions

* `Credentials`, `registerDatabase`.
* `Caller` — a call and the credentials that its source returns.
* `Vault`, `vaultSystem` — the runs with their clients.
* `Uses` — the entries whose clients a call uses.

## Main results

* `reachable_sealed` — every client was built by a call on the same key.
* `own_credentials_iff`.
-/

namespace Walrusd.Lifecycle

open Program Walrusd.Runtime Function List Option

/-! ### Building the clients -/

/-- What `CredentialSource.AccessKey` returns. -/
structure Credentials where
  accessKeyID : String
  secretAccessKey : String
  deriving DecidableEq, Repr

/-- The environment variables `AWS_REGION` and `AWS_DEFAULT_REGION`. -/
structure Env where
  awsRegion : String
  awsDefaultRegion : String

/-- `normalizeS3Region`. -/
def normalizeS3Region (env : Env) (explicit : String) : String :=
  if explicit ≠ "" ∧ explicit ≠ "auto" then explicit
  else if env.awsRegion ≠ "" ∧ env.awsRegion ≠ "auto" then env.awsRegion
  else if env.awsDefaultRegion ≠ "" ∧ env.awsDefaultRegion ≠ "auto" then env.awsDefaultRegion
  else "us-east-1"

/-- The replica clients; an empty endpoint of the S3 client is the default one. -/
inductive ReplicaClient
  | file (path : String)
  | memory (path : String)
  | s3 (credentials : Credentials) (bucket path region endpoint : String) (forcePathStyle : Bool)
  deriving DecidableEq, Repr

/-- The manifest stores. Without static credentials the S3 store takes those of the default
chain. -/
inductive ManifestStore
  | file (path : String)
  | memory (key : String)
  | s3 (static : Option Credentials) (bucket key region : String) (baseEndpoint : Option String)
  deriving DecidableEq, Repr

/-- The error of the file provider without a root. -/
def fileRootRequired : Err := .other "litestream: file provider requires FileRoot"

/-- The error of an unknown provider. -/
def unsupportedProvider (provider : String) : Err :=
  .other ("litestream: unsupported provider " ++ provider.quote)

/-- `Bridge.ReplicaClient`. -/
def replicaClient (env : Env) (replicaPrefix : String) (p : Profile) (cr : Credentials) :
    Except Err ReplicaClient :=
  if p.provider = "file" then
    if p.fileRoot = "" then .error fileRootRequired
    else .ok (.file (p.fileRoot ++ "/" ++ replicaPrefix))
  else if p.provider = "memory" then .ok (.memory replicaPrefix)
  else if p.provider = "s3" then
    .ok (.s3 cr p.bucket replicaPrefix (normalizeS3Region env p.region) p.endpoint
      (p.endpoint ≠ ""))
  else .error (unsupportedProvider p.provider)

/-- `ensureEndpointScheme`. -/
def ensureEndpointScheme (endpoint : String) : String :=
  if "http://".toList <+: endpoint.toList ∨ "https://".toList <+: endpoint.toList then endpoint
  else "https://" ++ endpoint

/-- `newS3ManifestStore`. -/
def newS3ManifestStore (env : Env) (replicaPrefix : String) (p : Profile) (cr : Credentials) :
    ManifestStore :=
  .s3 (if cr.accessKeyID ≠ "" ∨ cr.secretAccessKey ≠ "" then some cr else none) p.bucket
    (String.ofList (Path.join [replicaPrefix.toList, "manifest.json".toList]))
    (normalizeS3Region env p.region)
    (if p.endpoint ≠ "" then some (ensureEndpointScheme p.endpoint) else none)

/-- `Bridge.NewManifestStore`. -/
def newManifestStore (env : Env) (replicaPrefix : String) (p : Profile) (cr : Credentials) :
    Except Err ManifestStore :=
  if p.provider = "file" then
    if p.fileRoot = "" then .error fileRootRequired
    else .ok (.file (String.ofList
      (Path.join [p.fileRoot.toList, replicaPrefix.toList, "manifest.json".toList])))
  else if p.provider = "memory" then .ok (.memory (replicaPrefix ++ "/manifest.json"))
  else if p.provider = "s3" then .ok (newS3ManifestStore env replicaPrefix p cr)
  else .error (unsupportedProvider p.provider)

/-- The clients of a database. -/
structure Clients where
  replica : ReplicaClient
  manifest : ManifestStore
  deriving DecidableEq, Repr

/-- The clients that `RegisterDatabase` builds. -/
def registerDatabase (env : Env) (replicaPrefix : String) (p : Profile) (cr : Credentials) :
    Except Err Clients :=
  match replicaClient env replicaPrefix p cr, newManifestStore env replicaPrefix p cr with
  | .error err, _ => .error err
  | .ok _, .error err => .error err
  | .ok replica, .ok manifest => .ok ⟨replica, manifest⟩

/-- The clients were built from the credentials, for some profile. -/
def Clients.BuiltFrom (cl : Clients) (cr : Credentials) : Prop :=
  ∃ env replicaPrefix p, registerDatabase env replicaPrefix p cr = .ok cl

/-- The credentials matter to the S3 provider only. -/
theorem registerDatabase_congr {p : Profile} (hp : p.provider ≠ "s3") (env : Env)
    (replicaPrefix : String) (cr cr' : Credentials) :
    registerDatabase env replicaPrefix p cr = registerDatabase env replicaPrefix p cr' := by
  simp only [registerDatabase, replicaClient, newManifestStore, if_neg hp]

theorem registerDatabase_s3 {p : Profile} (hp : p.provider = "s3") (env : Env)
    (replicaPrefix : String) (cr : Credentials) :
    registerDatabase env replicaPrefix p cr =
      .ok ⟨.s3 cr p.bucket replicaPrefix (normalizeS3Region env p.region) p.endpoint
        (p.endpoint ≠ ""), newS3ManifestStore env replicaPrefix p cr⟩ := by
  simp [registerDatabase, replicaClient, newManifestStore, hp]

/-- The clients of the S3 provider tell which credentials they were built from. -/
theorem eq_of_builtFrom {p : Profile} (hp : p.provider = "s3") {env : Env} {replicaPrefix : String}
    {cr cr' : Credentials} {cl : Clients} (h : registerDatabase env replicaPrefix p cr = .ok cl)
    (h' : cl.BuiltFrom cr') : cr = cr' := by
  obtain rfl := Except.ok.inj ((registerDatabase_s3 hp env replicaPrefix cr).symm.trans h)
  obtain ⟨env', replicaPrefix', p', hcl'⟩ := h'
  have hclient : replicaClient env' replicaPrefix' p' cr' = .ok (.s3 cr p.bucket replicaPrefix
      (normalizeS3Region env p.region) p.endpoint (p.endpoint ≠ "")) := by
    unfold registerDatabase at hcl'
    split at hcl'
    · cases hcl'
    · cases hcl'
    · next hr _ => rw [hr, (Clients.mk.inj (Except.ok.inj hcl')).1]
  unfold replicaClient at hclient
  split at hclient
  · split at hclient <;> cases hclient
  split at hclient
  · cases hclient
  split at hclient
  · injection hclient with hs3
    injection hs3 with hcr
    exact hcr.symm
  · cases hclient

/-! ### Callers and their clients -/

/-- The database and the profile that a call registers, if it comes so far. -/
def Api.target : Api → Option (DatabaseID × Profile)
  | .read db profile none | .write db profile _ | .compact db profile | .readDSN db profile none =>
    some (db, profile)
  | .read _ _ (some _) | .readDSN _ _ (some _) | .close => none

/-- A call, and the credentials that its source returns. -/
structure Caller where
  api : Api
  credentials : Credentials

/-- The key under which a call registers its database. -/
def Caller.key (q : Caller) : Option String := q.api.target.map fun t => databaseKey t.1 t.2

/-- The call would build these clients for its database. -/
def Caller.Builds (env : Env) (q : Caller) (key : String) (cl : Clients) : Prop :=
  ∃ db p, q.api.target = some (db, p) ∧ databaseKey db p = key ∧
    registerDatabase env (db.replicaPrefix p.rootPrefix) p q.credentials = .ok cl

/-- The process, with the clients of the entries that were registered. -/
structure Vault (ι : Type) where
  life : World ι
  clients : DatabaseEntry → Option Clients

variable {ι B : Type} [DecidableEq ι]

/-- Nothing is registered. -/
def Vault.new (cfg : Config) : Vault ι := ⟨.new cfg, fun _ => none⟩

/-- The clients after a step of the caller `q`: a `database` step that does not find the key builds
those of the new entry. -/
def Vault.Installs (env : Env) (w : Vault ι) (q : Caller) :
    (c : Act B) → Rsp c → (DatabaseEntry → Option Clients) → Prop
  | .database key, .ok (e, _), clients' =>
    match w.life.roster.registry.dbs.lookup key with
    | some _ => clients' = w.clients
    | none => ∃ cl, q.Builds env key cl ∧ clients' = update w.clients e (some cl)
  | _, _, clients' => clients' = w.clients

/-- The goroutines that make the given calls, interleaved in any way with each other and with the
host. -/
def vaultSystem (json : Litestream.ManifestJson B) (cfg : Config) (env : Env)
    (calls : ι → Caller) : System (Vault ι) ι (Act B) Rsp Unit where
  start w i p w' := (∃ rounds, p = (calls i).api.program json cfg rounds) ∧ w' = w
  call w i c r w' :=
    (∃ ch, w.life.answer i c ch = some (r, w'.life)) ∧ w.Installs env (calls i) c r w'.clients
  env w w' := (∃ m, w.life.move m = some w'.life) ∧ w'.clients = w.clients

/-- The entries whose clients a call uses: the one that it holds, the one whose VFS it is about to
open, and the one of the cached session that it is about to get. -/
inductive Uses (a : Pool (Vault ι) ι (Act B) Rsp Unit) (i : ι) : DatabaseEntry → Prop
  | holds {e} (h : (i, e) ∈ a.world.life.roster.holders) : Uses a i e
  | connects {v k} (h : a.procs i = some (.call (.connect v) k)) : Uses a i v.entry
  | gets {key k s x} (h : a.procs i = some (.call (.cacheGet key) k))
      (hs : (a.world.life.stock.cache.get key a.world.life.stock.clock).1 = some s)
      (hx : a.world.life.stock.session s = some x) : Uses a i x.vfs.entry

/-- Every call uses only clients that were built from its own credentials. -/
def Own (calls : ι → Caller) (a : Pool (Vault ι) ι (Act B) Rsp Unit) : Prop :=
  ∀ i e, Uses a i e → ∃ cl, a.world.clients e = some cl ∧ cl.BuiltFrom (calls i).credentials

/-- Calls with one key have the same credentials, if the provider uses them. -/
def Agree (calls : ι → Caller) : Prop :=
  ∀ i j db p, (calls i).api.target = some (db, p) → p.provider = "s3" →
    (calls j).key = some (databaseKey db p) → (calls i).credentials = (calls j).credentials

/-! ### Keys -/

/-- A database is entered, and the cache read, under the key of the call only. -/
def Act.Keyed (key : Option String) : Act B → Prop
  | .database key' | .cacheGet key' => key = some key'
  | _ => True

theorem Act.keyed_of_routine {key : Option String} {c : Act B} (hc : c.routine = true) :
    c.Keyed key := by
  cases c <;> first | exact trivial | cases hc

theorem only_keyed {α : Type} {p : LifeM B α} (hp : p.Only fun c => c.routine = true)
    (key : Option String) : p.Only (Act.Keyed key) := hp.mono fun _ => Act.keyed_of_routine

theorem teardownDatabase_keyed (key : Option String) (e : DatabaseEntry) :
    (teardownDatabase e : LifeM B _).Only (Act.Keyed key) :=
  .perform trivial fun gone => (only_keyed (closeInstances_routine gone) key).bind
    fun _ => only_keyed (databaseClose_routine e) key

theorem teardownAll_keyed (key : Option String) (es : List DatabaseEntry) :
    (teardownAll es : LifeM B _).Only (Act.Keyed key) := by
  induction es with
  | nil => trivial
  | cons e rest ih => exact (teardownDatabase_keyed key e).bind fun _ => ih.bind fun _ => trivial

theorem database_keyed (key : String) : (database key : LifeM B _).Only (Act.Keyed (some key)) := by
  refine .perform trivial ?_
  rintro (_ | err)
  · refine .perform rfl ?_
    rintro (err | ⟨e, evicted⟩)
    · trivial
    · exact (teardownAll_keyed _ evicted).bind fun _ => trivial
  · trivial

theorem releaseDatabase_keyed (key : Option String) (e : DatabaseEntry) :
    (releaseDatabase e : LifeM B _).Only (Act.Keyed key) := by
  refine .perform trivial ?_
  rintro (_ | _ | _)
  · exact .perform trivial nofun
  · trivial
  · exact (teardownDatabase_keyed key e).bind fun _ => trivial

theorem close_keyed (key : Option String) : (close : LifeM B _).Only (Act.Keyed key) := by
  refine .perform trivial ?_
  rintro (_ | dbs)
  · trivial
  · exact (only_keyed readsClose_routine key).bind fun _ =>
      (teardownAll_keyed key dbs).bind fun _ => trivial

theorem enact_keyed (key : String) (rounds : ℕ) (e : DatabaseEntry) (c : Op B) :
    (enact key rounds e c).Only (Act.Keyed (some key)) := by
  cases c with
  | database =>
    refine (database_keyed key).bind ?_
    rintro (err | e) <;> trivial
  | releaseDatabase => exact (releaseDatabase_keyed _ e).bind fun _ => trivial
  | cacheGet =>
    refine Prog.Only.bind ?_ fun _ => trivial
    exact .perform rfl fun got =>
      (only_keyed (closeInstances_routine got.2) _).bind fun _ => trivial
  | cachePut s => exact (only_keyed readsPut_routine _).bind fun _ => trivial
  | evict => exact (only_keyed readsEvict_routine _).bind fun _ => trivial
  | openRead files => exact (Prog.only_perform trivial).bind fun _ => trivial
  | runRead s => exact (only_keyed cachedRun_routine _).bind fun _ => trivial
  | closeRead s => exact (only_keyed (cachedClose_routine s) _).bind fun _ => trivial
  | openWrite files => exact (only_keyed openWrite_routine _).bind fun _ => trivial
  | closeSession s => exact (only_keyed (sessionClose_routine s) _).bind fun _ => trivial
  | _ => exact .perform trivial fun _ => trivial

theorem Caller.keyed (json : Litestream.ManifestJson B) (cfg : Config) (rounds : ℕ) (q : Caller) :
    (q.api.program json cfg rounds).Only (Act.Keyed q.key) := by
  obtain ⟨api, credentials⟩ := q
  have hhandle {β : Type} (p : RuntimeM B β) (db : DatabaseID) (profile : Profile) :
      (do
        let _ ← p.handle (enact (databaseKey db profile) rounds) noEntry
        return () : LifeM B Unit).Only (Act.Keyed (some (databaseKey db profile))) :=
    (Prog.only_handle (enact_keyed _ rounds) p noEntry).bind fun _ => trivial
  cases api with
  | read db profile identity =>
    cases identity with
    | none => exact hhandle _ db profile
    | some err => trivial
  | write db profile key | compact db profile => exact hhandle _ db profile
  | readDSN db profile identity =>
    cases identity with
    | none =>
      refine Prog.Only.bind ((database_keyed _).bind ?_) fun _ => trivial
      rintro (err | e)
      · trivial
      · exact (releaseDatabase_keyed _ e).bind fun _ =>
          .perform trivial fun _ => trivial
    | some err => trivial
  | close => exact (close_keyed _).bind fun _ => trivial

/-! ### Where clients come from -/

/-- Every client was built by a call on the key of its entry, and there are clients for every entry
that is registered, held, or used by a read VFS. -/
structure Sealed (env : Env) (calls : ι → Caller) (w : Vault ι) : Prop where
  built : ∀ e cl, w.clients e = some cl → ∃ j, (calls j).Builds env e.key cl
  listed : ∀ e ∈ w.life.roster.registry.dbOrder, w.clients e ≠ none
  held : ∀ i e, (i, e) ∈ w.life.roster.holders → (calls i).key = some e.key ∧ w.clients e ≠ none
  registered : ∀ e, VFS.read e ∈ w.life.stock.registered → w.clients e ≠ none
  session : ∀ s x, w.life.stock.session s = some x → x.vfs.isRead = true →
    w.clients x.vfs.entry ≠ none

/-- No read VFS is new, and a new session is on a registered VFS. -/
structure Stock.Follows (k k' : Stock ι) : Prop where
  registered : ∀ e, VFS.read e ∈ k'.registered → VFS.read e ∈ k.registered
  session : ∀ s x, k'.session s = some x →
    (∃ y, k.session s = some y ∧ y.vfs = x.vfs) ∨ x.vfs ∈ k.registered

omit [DecidableEq ι] in
theorem Stock.Follows.same {k k' : Stock ι} (hr : k'.registered = k.registered)
    (hs : k'.session = k.session) : k.Follows k' where
  registered _ he := hr ▸ he
  session _ x hx := .inl ⟨x, hs ▸ hx, rfl⟩

omit [DecidableEq ι] in
theorem Stock.Follows.setSession {k k₁ : Stock ι} {s : Sess} {x x' : Session ι}
    (hr : k₁.registered = k.registered) (hs : k₁.session = k.session) (hx : k.session s = some x)
    (hvfs : x.vfs = x'.vfs) : k.Follows (k₁.setSession s x') where
  registered _ he := hr ▸ he
  session s' y hy := by
    rcases setSession_cases hy with ⟨rfl, rfl⟩ | ⟨-, hy⟩
    · exact .inl ⟨x, hx, hvfs⟩
    · exact .inl ⟨y, hs ▸ hy, rfl⟩

omit [DecidableEq ι] in
theorem Stock.answer_follows {k k' : Stock ι} {i : ι} {c : Act B} {ch : Choice B} {r : Rsp c}
    (h : k.answer i c ch = some (r, k')) : k.Follows k' := by
  have hsame {β : Type} {x y : β} {k₁ k₂ : Stock ι} (heq : some (x, k₁) = some (y, k₂))
      (hr : k₁.registered = k.registered) (hs : k₁.session = k.session) : k.Follows k₂ := by
    cases heq
    exact .same hr hs
  cases c with
  | other c =>
    cases ch with
    | other answers => exact hsame h rfl rfl
    | ok => cases h
    | fail err => cases h
  | database key | releaseDatabase e | close | panic | spin | teardown e => cases ch <;> cases h
  | cachePut s =>
    simp only [Stock.answer] at h
    split at h
    · cases h
    · exact hsame h rfl rfl
  | lock s =>
    simp only [Stock.answer] at h
    split at h
    · cases h
    · next x hx =>
      split at h
      · cases h
      · cases h
        exact .setSession rfl rfl hx rfl
  | setClosed s | unlock s =>
    simp only [Stock.answer] at h
    split at h
    · cases h
    · next x hx =>
      cases h
      exact .setSession rfl rfl hx rfl
  | markClosed s =>
    simp only [Stock.answer] at h
    split at h
    · cases h
    · next x hx =>
      split at h
      · cases h
        exact .setSession rfl rfl hx rfl
      · exact hsame h rfl rfl
  | closeConn s =>
    simp only [Stock.answer] at h
    split at h
    · cases h
    · next x hx =>
      cases h
      have hclose : (k.closeFile s x.vfs).registered = k.registered ∧
          (k.closeFile s x.vfs).session = k.session := by
        unfold Stock.closeFile
        split <;> exact ⟨rfl, rfl⟩
      exact .setSession hclose.1 hclose.2 hx rfl
  | unregisterSession s =>
    simp only [Stock.answer] at h
    split at h
    · cases h
    · next x hx =>
      cases h
      exact .setSession rfl rfl hx rfl
  | ensureWriteVFS e =>
    simp only [Stock.answer] at h
    split at h
    · exact hsame h rfl rfl
    split at h
    · exact hsame h rfl rfl
    cases h
    refine ⟨fun e' he' => ?_, fun s x hx => .inl ⟨x, hx, rfl⟩⟩
    exact (mem_insert_iff.mp he').resolve_left (by simp)
  | connect v =>
    simp only [Stock.answer] at h
    split at h
    · exact hsame h rfl rfl
    split at h
    · next hv =>
      cases h
      refine ⟨fun _ he => he, fun s x hx => ?_⟩
      by_cases hs : s = k.sessionSeq
      · subst hs
        simp only [Stock.openSession, update_self] at hx
        exact .inr (some.inj hx ▸ hv)
      · simp only [Stock.openSession, update_of_ne hs] at hx
        exact .inl ⟨x, hx, rfl⟩
    · cases h
  | unregisterVFS v =>
    simp only [Stock.answer] at h
    split at h
    · exact hsame h rfl rfl
    · cases h
      exact ⟨fun _ he => mem_of_mem_erase he, fun s x hx => .inl ⟨x, hx, rfl⟩⟩
  | _ => exact hsame h rfl rfl

section Sealed

variable {json : Litestream.ManifestJson B} {cfg : Config} {env : Env} {calls : ι → Caller}
  {w w' : Vault ι}

omit [DecidableEq ι] in
theorem sealed_new : Sealed env calls (Vault.new cfg : Vault ι) where
  built _ _ h := nomatch h
  listed _ h := nomatch h
  held _ _ h := nomatch h
  registered _ h := nomatch h
  session _ _ h := nomatch h

omit [DecidableEq ι] in
theorem Sealed.frame (h : Sealed env calls w) (hclients : w'.clients = w.clients)
    (horder : ∀ e ∈ w'.life.roster.registry.dbOrder, e ∈ w.life.roster.registry.dbOrder)
    (hholders : ∀ x ∈ w'.life.roster.holders, x ∈ w.life.roster.holders)
    (hstock : w.life.stock.Follows w'.life.stock) : Sealed env calls w' where
  built e cl hcl := h.built e cl (hclients ▸ hcl)
  listed e he := hclients ▸ h.listed e (horder e he)
  held i e he := hclients ▸ h.held i e (hholders _ he)
  registered e he := hclients ▸ h.registered e (hstock.registered e he)
  session s x hx hread := by
    rw [hclients]
    rcases hstock.session s x hx with ⟨y, hy, hvfs⟩ | hreg
    · rw [← hvfs] at hread ⊢
      exact h.session s y hy hread
    cases hv : x.vfs with
    | read e => exact h.registered e (hv ▸ hreg)
    | write e =>
      rw [hv] at hread
      cases hread

/-- The entry that `database` returns has clients, of the call that made it. -/
theorem Sealed.database (h : Sealed env calls w) (hsound : w.life.roster.registry.Sound) {i : ι}
    {key : String} (hkey : (calls i).key = some key) {ch : Choice B}
    {r : Except Err (DatabaseEntry × List DatabaseEntry)}
    (hlife : w.life.answer i (.database key : Act B) ch = some (r, w'.life))
    (hclients : w.Installs env (calls i) (.database key : Act B) r w'.clients) :
    Sealed env calls w' := by
  obtain ⟨hr, hw⟩ := Prod.mk.inj (some.inj hlife)
  cases hdb : w.life.roster.registry.database key ch.err with
  | mk res reg =>
    cases res with
    | error err =>
      have hsame := Registry.database_error hdb
      simp only [Roster.database, hdb, hsame] at hr hw
      subst hr
      refine h.frame hclients ?_ ?_ ?_ <;> rw [← hw]
      · exact fun e he => he
      · exact fun x hx => hx
      · exact .same rfl rfl
    | ok out =>
      obtain ⟨e, es⟩ := out
      simp only [Roster.database, hdb] at hr hw
      subst hr
      obtain ⟨hekey, horder, hlookup⟩ := Registry.database_entry hsound.toConsistent hdb
      -- the clients that there were are kept, and the entry has some
      obtain ⟨hkept, hentry, hbuilt⟩ : (∀ e', w.clients e' ≠ none → w'.clients e' ≠ none) ∧
          w'.clients e ≠ none ∧
          ∀ e' cl, w'.clients e' = some cl → ∃ j, (calls j).Builds env e'.key cl := by
        simp only [Vault.Installs] at hclients
        rcases hlookup with hnone | ⟨hsome, hmem⟩
        · rw [hnone] at hclients
          obtain ⟨cl, hcl, hupdate⟩ := hclients
          rw [hupdate]
          refine ⟨fun e' he' => ?_, by simp, fun e' cl' hcl' => ?_⟩
          · by_cases hee : e' = e
            · simp [hee]
            · rwa [update_of_ne hee]
          by_cases hee : e' = e
          · rw [hee, update_self] at hcl'
            rw [hee, ← some.inj hcl', hekey]
            exact ⟨i, hcl⟩
          · rw [update_of_ne hee] at hcl'
            exact h.built e' cl' hcl'
        · rw [hsome] at hclients
          rw [hclients]
          exact ⟨fun _ he' => he', h.listed e hmem, h.built⟩
      refine ⟨hbuilt, fun e' he' => ?_, fun j e' he' => ?_, fun e' he' => ?_,
        fun s x hx hread => ?_⟩
      · rw [← hw] at he'
        rcases horder e' he' with rfl | hmem
        · exact hentry
        · exact hkept e' (h.listed e' hmem)
      · rw [← hw] at he'
        rcases mem_cons.mp he' with heq | hmem
        · cases heq
          exact ⟨hekey ▸ hkey, hentry⟩
        · exact ⟨(h.held j e' hmem).1, hkept e' (h.held j e' hmem).2⟩
      · rw [← hw] at he'
        rcases mem_insert_iff.mp he' with heq | hmem
        · injection heq with heq
          exact heq ▸ hentry
        · exact hkept e' (h.registered e' hmem)
      · rw [← hw] at hx
        exact hkept _ (h.session s x hx hread)

theorem Sealed.answer (h : Sealed env calls w) (hsound : w.life.roster.registry.Sound) {i : ι}
    {c : Act B} (hkeyed : c.Keyed (calls i).key) {r : Rsp c}
    (hcall : (vaultSystem json cfg env calls).call w i c r w') : Sealed env calls w' := by
  obtain ⟨⟨ch, hlife⟩, hclients⟩ := hcall
  cases hc : c.registers with
  | false =>
    obtain ⟨hroster, hstock⟩ := World.answer_stock hc hlife
    have hsame : w'.clients = w.clients := by
      cases c <;> first | exact hclients | cases hc
    exact h.frame hsame (fun e he => hroster ▸ he) (fun x hx => hroster ▸ hx)
      (Stock.answer_follows hstock)
  | true =>
    cases c with
    | database key => exact h.database hsound hkeyed hlife hclients
    | releaseDatabase e =>
      obtain ⟨-, hw⟩ := Prod.mk.inj (some.inj hlife)
      have hrelease : (w.life.roster.releaseDatabase i e).2.registry.dbOrder =
            w.life.roster.registry.dbOrder ∧
          ∀ x ∈ (w.life.roster.releaseDatabase i e).2.holders, x ∈ w.life.roster.holders := by
        unfold Roster.releaseDatabase Registry.releaseDatabase
        split
        · exact ⟨rfl, fun x hx => hx⟩
        · next hsome =>
          split at hsome
          · cases hsome
          · cases hsome
            exact ⟨rfl, fun x hx => mem_of_mem_erase hx⟩
      refine h.frame hclients ?_ ?_ ?_ <;> rw [← hw]
      · exact fun e he => hrelease.1 ▸ he
      · exact hrelease.2
      · exact .same rfl rfl
    | close =>
      obtain ⟨-, hw⟩ := Prod.mk.inj (some.inj hlife)
      refine h.frame hclients ?_ ?_ ?_ <;> rw [← hw]
      · intro e he
        simp only [Roster.close, Registry.close] at he
        split at he
        · exact he
        · cases he
      · exact fun x hx => hx
      · exact .same rfl rfl
    | teardown e =>
      obtain ⟨-, hw⟩ := Prod.mk.inj (some.inj hlife)
      refine h.frame hclients ?_ ?_ ?_ <;> rw [← hw]
      · exact fun e he => he
      · exact fun x hx => hx
      · exact .same rfl rfl
    | _ => cases hc

end Sealed

section Runs

variable {json : Litestream.ManifestJson B} {cfg : Config} {env : Env} {calls : ι → Caller}
  {a : Pool (Vault ι) ι (Act B) Rsp Unit}

section

variable (h : (vaultSystem json cfg env calls).Reachable (.new cfg) a)
include h

theorem reachable_life :
    (system (Calls json cfg)).Reachable (.new cfg) ⟨a.world.life, a.procs⟩ := by
  refine h.map Vault.life ?_ ?_ ?_
  · rintro w i p w' ⟨⟨rounds, rfl⟩, rfl⟩
    exact ⟨⟨(calls i).api, rounds, rfl⟩, rfl⟩
  · exact fun hcall => hcall.1
  · exact fun w w' henv => .inl henv.1

theorem sound_of_reachable : a.world.life.roster.registry.Sound := by
  have hcustody (p : LifeM B Unit) (hp : Calls json cfg p) :
      p.Obeys custody (fun s _ => s.todo = []) .empty := by
    obtain ⟨api, rounds, rfl⟩ := hp
    exact api.custody json cfg rounds
  obtain ⟨g, hkept, -, -⟩ := reachable_kept hcustody (reachable_life h)
  exact hkept.sound

/-- Every process keeps to its key. -/
def keyed : Protocol (Act B) Rsp (Option String) where
  allow key c := c.Keyed key
  next key _ _ key' := key' = key

/-- In every run, the clients of an entry were built by a call on its key, and every process keeps
to the key of its call. -/
theorem reachable_sealed : Sealed env calls a.world ∧
      ∀ i c k, a.procs i = some (.call c k) → c.Keyed (calls i).key := by
  have hself (g : ι → Option String) (i : ι) (hg : ∀ j, g j = (calls j).key) :
      ∀ j, update g i (calls i).key j = (calls j).key := by
    intro j
    by_cases hji : j = i
    · rw [hji, update_self]
    · rw [update_of_ne hji, hg]
  have hmove {k k' : Stock ι} {m : HostMove} (hm : k.move m = some k') : k.Follows k' := by
    cases m with
    | tick d =>
      cases hm
      exact .same rfl rfl
    | «open» e | close v =>
      simp only [Stock.move] at hm
      split at hm
      · cases hm
        exact .same rfl rfl
      · cases hm
  have hinv := h.invariant_knowing keyed (fun _ _ _ => True)
    (fun w g => Sealed env calls w ∧ ∀ i, g i = (calls i).key) (fun i => (calls i).key)
    (K := fun w => w.life.roster.registry.Sound) (fun b hb => sound_of_reachable hb)
    ⟨sealed_new, fun _ => rfl⟩ ?_ ?_ ?_
  · obtain ⟨g, ⟨hsealed, hg⟩, hobeys, -⟩ := hinv
    refine ⟨hsealed, fun i c k hi => ?_⟩
    have hallow := (hobeys i _ hi).1
    rwa [hg i] at hallow
  · rintro w g i p w' - ⟨hsealed, hg⟩ - ⟨⟨rounds, rfl⟩, rfl⟩
    refine ⟨(calls i).key, ?_, hsealed, hself g i hg⟩
    exact ((calls i).keyed json cfg rounds).obeys (fun c hc => ⟨hc, fun _ _ hn => hn⟩) |>.mono
      fun _ _ _ => trivial
  · rintro w g i c r w' hsound ⟨hsealed, hg⟩ hallow hcall
    rw [hg i]
    exact ⟨(calls i).key, rfl, hsealed.answer hsound (hg i ▸ hallow) hcall, hself g i hg⟩
  · rintro w g w' - ⟨hsealed, hg⟩ ⟨⟨m, hm⟩, hclients⟩
    obtain ⟨hroster, hstock⟩ := World.move_stock hm
    exact ⟨hsealed.frame hclients (fun e he => hroster ▸ he) (fun x hx => hroster ▸ hx)
      (hmove hstock), hg⟩

/-- A call uses entries of its own key only, and they have clients. -/
theorem Uses.key {i : ι} {e : DatabaseEntry} (hu : Uses a i e) :
    (calls i).key = some e.key ∧ a.world.clients e ≠ none := by
  obtain ⟨hsealed, hkeyed⟩ := reachable_sealed h
  obtain ⟨g, htended, hobeys⟩ := reachable_tended (reachable_life h)
  cases hu with
  | holds hheld => exact hsealed.held i e hheld
  | connects hi =>
    have hheld : (g i).held = some _ := (hobeys i _ hi).1.1
    exact hsealed.held i _ (htended.held i _ hheld)
  | gets hi hs hx =>
    have hkey := hkeyed i _ _ hi
    obtain ⟨c, hc, hckey, hcs, -⟩ := Cache.get_eq_some hs
    obtain ⟨y, hy, hread, hykey, -⟩ := htended.cached c hc
    rw [hcs] at hy
    cases hx.symm.trans hy
    refine ⟨?_, hsealed.session _ _ hx hread⟩
    rw [← hykey, hckey]
    exact hkey

/-- Calls that agree on their credentials use only clients that were built from their own. -/
theorem own_of_agree (hagree : Agree calls) : Own calls a := by
  intro i e hu
  obtain ⟨hkey, hsome⟩ := hu.key h
  obtain ⟨cl, hcl⟩ := ne_none_iff_exists'.mp hsome
  obtain ⟨j, db, p, htarget, hekey, hbuilt⟩ := (reachable_sealed h).1.built e cl hcl
  refine ⟨cl, hcl, env, db.replicaPrefix p.rootPrefix, p, ?_⟩
  by_cases hp : p.provider = "s3"
  · rw [← hagree j i db p htarget hp (hekey ▸ hkey)]
    exact hbuilt
  · rw [registerDatabase_congr hp env _ _ (calls j).credentials]
    exact hbuilt

end

/-! ### A run that reuses an entry -/

/-- A call that has a target resolves its credentials and enters its database first. -/
theorem program_enters {api : Api} {db : DatabaseID} {p : Profile} (h : api.target = some (db, p))
    (rounds : ℕ) :
    ∃ k k', api.program json cfg rounds = .call .accessKey k ∧
      k none = .call (.database (databaseKey db p)) k' := by
  cases api with
  | read db' p' identity =>
    cases identity with
    | none =>
      cases h
      exact ⟨_, _, rfl, rfl⟩
    | some err => cases h
  | write db' p' key | compact db' p' =>
    cases h
    exact ⟨_, _, rfl, rfl⟩
  | readDSN db' p' identity =>
    cases identity with
    | none =>
      cases h
      exact ⟨_, _, rfl, rfl⟩
    | some err => cases h
  | close => cases h

theorem reachable_enter (h : (vaultSystem json cfg env calls).Reachable (.new cfg) a) {i : ι}
    (hi : a.procs i = none) {db : DatabaseID} {p : Profile}
    (htarget : (calls i).api.target = some (db, p)) {key : String} (hkey : databaseKey db p = key)
    {r : Except Err (DatabaseEntry × List DatabaseEntry)} {w' : Vault ι}
    (hcall : (vaultSystem json cfg env calls).call a.world i (.database key : Act B) r w') :
    ∃ b, (vaultSystem json cfg env calls).Reachable (.new cfg) b ∧ b.world = w' ∧
      ∀ j, j ≠ i → b.procs j = a.procs j := by
  subst hkey
  obtain ⟨w, procs⟩ := a
  obtain ⟨k, k', hprogram, hk⟩ := @program_enters B json cfg _ db p htarget 0
  have hstart : (vaultSystem json cfg env calls).start w i (.call .accessKey k) w :=
    ⟨⟨0, hprogram.symm⟩, rfl⟩
  have haccess : (vaultSystem json cfg env calls).call w i (.accessKey : Act B) none w :=
    ⟨⟨.ok, rfl⟩, rfl⟩
  have h₁ := h.step (.start hi hstart)
  have h₂ := h₁.step (.call (update_self i _ procs) haccess)
  rw [hk] at h₂
  have h₃ := h₂.step (.call (update_self i _ _) hcall)
  refine ⟨_, h₃, rfl, fun j hj => ?_⟩
  simp only [update_of_ne hj]

omit [DecidableEq ι] in
theorem new_database (max : ℤ) (key : String) :
    (Registry.new max).database key none =
      (.ok (⟨key, 1⟩, []), (Registry.new max).register key) := by
  have hlimit : ¬ ((((Registry.new max).register key).dbs.keys.length : ℤ) >
      ((Registry.new max).register key).dbLimit) := by
    have hkeys : ((Registry.new max).register key).dbs.keys.length = 1 := rfl
    rw [hkeys]
    simp only [Registry.register, Registry.new]
    split <;> omega
  have hevict : ((Registry.new max).register key).evictOver 1 =
      ([], (Registry.new max).register key) := by
    rw [Registry.evictOver, if_neg hlimit]
  unfold Registry.database
  exact congrArg (fun x : List DatabaseEntry × Registry =>
    ((.ok (⟨key, 1⟩, x.1), x.2) : Except Err (DatabaseEntry × List DatabaseEntry) × Registry))
    hevict

/-- Two calls on one key: the second one holds the entry with the clients of the first one. -/
theorem exists_reuse {i j : ι} (hij : i ≠ j) {db : DatabaseID} {p : Profile}
    (hi : (calls i).api.target = some (db, p)) (hp : p.provider = "s3")
    (hj : (calls j).key = some (databaseKey db p)) :
    ∃ a : Pool (Vault ι) ι (Act B) Rsp Unit,
      (vaultSystem json cfg env calls).Reachable (.new cfg) a ∧
        ∃ e cl, Uses a j e ∧ a.world.clients e = some cl ∧
          registerDatabase env (db.replicaPrefix p.rootPrefix) p (calls i).credentials =
            .ok cl := by
  obtain ⟨⟨db', p'⟩, hj, hkey⟩ := map_eq_some_iff.mp hj
  generalize hk : databaseKey db p = key at hkey
  obtain ⟨cl, hbuild⟩ : ∃ cl, registerDatabase env (db.replicaPrefix p.rootPrefix) p
      (calls i).credentials = .ok cl := ⟨_, registerDatabase_s3 hp env _ _⟩
  -- the first call registers the database
  have hfirst : (vaultSystem json cfg env calls).call (.new cfg) i (.database key : Act B)
      (.ok (⟨key, 1⟩, []))
      ⟨⟨⟨(Registry.new cfg.maxReadInstances).register key, [(i, ⟨key, 1⟩)], []⟩,
        (Stock.new cfg).register (.ok (⟨key, 1⟩, []))⟩,
        update (fun _ => none) ⟨key, 1⟩ (some cl)⟩ := by
    refine ⟨⟨.ok, ?_⟩, cl, ⟨db, p, hi, hk, hbuild⟩, rfl⟩
    have hnew := new_database cfg.maxReadInstances key
    simp only [World.answer, Roster.database, Vault.new, World.new, Roster.new, Choice.err, hnew]
  obtain ⟨b, hb, hworld, hprocs⟩ := reachable_enter .init rfl hi hk hfirst
  -- the second one finds it
  have hlookup : b.world.life.roster.registry.dbs.lookup key = some ⟨key, 1⟩ := by
    rw [hworld]
    exact AList.lookup_insert (Registry.new cfg.maxReadInstances).dbs
  have hfound : b.world.life.roster.registry.database key none =
      (.ok (⟨key, 1⟩, []), b.world.life.roster.registry.reuse ⟨key, 1⟩) := by
    have hclosed : b.world.life.roster.registry.closed = false := by rw [hworld]; rfl
    simp [Registry.database, hclosed, hlookup]
  have hsecond : (vaultSystem json cfg env calls).call b.world j (.database key : Act B)
      (.ok (⟨key, 1⟩, []))
      ⟨⟨⟨b.world.life.roster.registry.reuse ⟨key, 1⟩,
          (j, ⟨key, 1⟩) :: b.world.life.roster.holders, b.world.life.roster.torn⟩,
        b.world.life.stock.register (.ok (⟨key, 1⟩, []))⟩, b.world.clients⟩ := by
    refine ⟨⟨.ok, ?_⟩, ?_⟩
    · simp only [World.answer, Roster.database, Choice.err, hfound]
    · simp only [Vault.Installs, hlookup]
  obtain ⟨b', hb', hworld', -⟩ := reachable_enter hb (hprocs j hij.symm) hj hkey hsecond
  refine ⟨b', hb', ⟨key, 1⟩, cl, .holds ?_, ?_, hbuild⟩
  · rw [hworld']
    exact mem_cons_self
  have hclients : b'.world.clients = b.world.clients := by rw [hworld']
  rw [hclients, hworld]
  exact update_self (⟨key, 1⟩ : DatabaseEntry) (some cl) fun _ => none

/-! ### Two runs -/

omit [DecidableEq ι] in
theorem Caller.Builds.exists_other {q q' : Caller} (hapi : q'.api = q.api) {key : String}
    {cl : Clients} (h : q.Builds env key cl) : ∃ cl', q'.Builds env key cl' := by
  obtain ⟨db, p, htarget, hkey, hbuilt⟩ := h
  by_cases hp : p.provider = "s3"
  · exact ⟨_, db, p, hapi ▸ htarget, hkey, registerDatabase_s3 hp env _ _⟩
  refine ⟨cl, db, p, hapi ▸ htarget, hkey, ?_⟩
  rw [registerDatabase_congr hp env _ _ q.credentials]
  exact hbuilt

omit [DecidableEq ι] in
theorem Caller.Builds.eq {q q' : Caller} (hapi : q'.api = q.api)
    (hcredentials : ∀ db p, q.api.target = some (db, p) → p.provider = "s3" →
      q'.credentials = q.credentials) {key : String} {cl cl' : Clients} (h : q.Builds env key cl)
    (h' : q'.Builds env key cl') : cl' = cl := by
  obtain ⟨db, p, htarget, -, hbuilt⟩ := h
  obtain ⟨db', p', htarget', -, hbuilt'⟩ := h'
  rw [hapi, htarget] at htarget'
  cases htarget'
  by_cases hp : p.provider = "s3"
  · rw [hcredentials db p htarget hp, hbuilt] at hbuilt'
    exact (Except.ok.inj hbuilt').symm
  · rw [registerDatabase_congr hp env _ _ q.credentials, hbuilt] at hbuilt'
    exact (Except.ok.inj hbuilt').symm

/-- The clients of an entry in two runs, built by the same call. -/
def Matched (env : Env) (calls calls' : ι → Caller)
    (clients clients' : DatabaseEntry → Option Clients) : Prop :=
  ∀ e, clients e = none ∧ clients' e = none ∨ ∃ i cl cl', clients e = some cl ∧
    clients' e = some cl' ∧ (calls i).Builds env e.key cl ∧ (calls' i).Builds env e.key cl'

variable {calls' : ι → Caller}

theorem Matched.call (hapi : ∀ i, (calls' i).api = (calls i).api) {w w' : Vault ι}
    {clients' : DatabaseEntry → Option Clients} (h : Matched env calls calls' w.clients clients')
    (hsound : w.life.roster.registry.Sound) {i : ι} {c : Act B} {r : Rsp c}
    (hcall : (vaultSystem json cfg env calls).call w i c r w') :
    ∃ clients₁, (vaultSystem json cfg env calls').call ⟨w.life, clients'⟩ i c r
        ⟨w'.life, clients₁⟩ ∧
      Matched env calls calls' w'.clients clients₁ := by
  obtain ⟨⟨ch, hlife⟩, hinstalls⟩ := hcall
  have hkeep (hsame : w'.clients = w.clients)
      (hinstalls' : Vault.Installs env ⟨w.life, clients'⟩ (calls' i) c r clients') :
      ∃ clients₁, (vaultSystem json cfg env calls').call ⟨w.life, clients'⟩ i c r
          ⟨w'.life, clients₁⟩ ∧
        Matched env calls calls' w'.clients clients₁ :=
    ⟨clients', ⟨⟨ch, hlife⟩, hinstalls'⟩, hsame ▸ h⟩
  cases c with
  | database key =>
    cases r with
    | error err => exact hkeep hinstalls rfl
    | ok out =>
      obtain ⟨e, es⟩ := out
      cases hlookup : w.life.roster.registry.dbs.lookup key with
      | some e' =>
        simp only [Vault.Installs, hlookup] at hinstalls
        exact hkeep hinstalls (by simp only [Vault.Installs, hlookup])
      | none =>
        simp only [Vault.Installs, hlookup] at hinstalls
        obtain ⟨cl, hcl, hclients⟩ := hinstalls
        obtain ⟨cl', hcl'⟩ := hcl.exists_other (hapi i)
        have hekey : e.key = key := by
          obtain ⟨hr, -⟩ := Prod.mk.inj (some.inj hlife)
          cases hdb : w.life.roster.registry.database key ch.err with
          | mk res reg =>
            cases res with
            | error err =>
              simp only [Roster.database, hdb] at hr
              cases hr
            | ok out =>
              simp only [Roster.database, hdb] at hr
              cases hr
              exact (Registry.database_entry hsound.toConsistent hdb).1
        refine ⟨update clients' e (some cl'), ⟨⟨ch, hlife⟩, ?_⟩, fun e' => ?_⟩
        · simp only [Vault.Installs, hlookup]
          exact ⟨cl', hcl', rfl⟩
        rw [hclients]
        by_cases hee : e' = e
        · refine .inr ⟨i, cl, cl', ?_⟩
          rw [hee, update_self, update_self, hekey]
          exact ⟨rfl, rfl, hcl, hcl'⟩
        · rw [update_of_ne hee, update_of_ne hee]
          exact h e'
  | _ => exact hkeep hinstalls rfl

/-- Every run is a run with other credentials, whose clients were built by the same calls. -/
theorem exists_matched (hapi : ∀ i, (calls' i).api = (calls i).api)
    (h : (vaultSystem json cfg env calls).Reachable (.new cfg) a) :
    ∃ clients', (vaultSystem json cfg env calls').Reachable (.new cfg)
        ⟨⟨a.world.life, clients'⟩, a.procs⟩ ∧
      Matched env calls calls' a.world.clients clients' := by
  induction h with
  | init => exact ⟨fun _ => none, .init, fun _ => .inl ⟨rfl, rfl⟩⟩
  | step hr hs ih =>
    obtain ⟨clients', hreach, hmatched⟩ := ih
    have hsound := sound_of_reachable hr
    cases hs with
    | @start w procs i p w' hi hstart =>
      obtain ⟨⟨rounds, rfl⟩, rfl⟩ := hstart
      refine ⟨clients', hreach.step (.start hi ⟨⟨rounds, ?_⟩, rfl⟩), hmatched⟩
      rw [hapi i]
    | call hi hcall =>
      obtain ⟨clients₁, hcall', hmatched'⟩ := hmatched.call hapi hsound hcall
      exact ⟨clients₁, hreach.step (.call hi hcall'), hmatched'⟩
    | env henv => exact ⟨clients', hreach.step (.env ⟨henv.1, rfl⟩), henv.2 ▸ hmatched⟩

/-- **The credentials of a call.** In every interleaving of the given calls, each call uses only
clients that were built from its own credentials, if and only if calls with one key have the same
credentials wherever the provider uses them. Then the credentials of the other calls do not matter
to a call `j`: every run is a run under other credentials that also agree, with the same steps and
the same clients for `j`. -/
theorem own_credentials_iff (json : Litestream.ManifestJson B) (cfg : Config) (env : Env)
    (calls : ι → Caller) :
    ((∀ a, (vaultSystem json cfg env calls).Reachable (.new cfg) a → Own calls a) ↔ Agree calls) ∧
    (Agree calls → ∀ calls' : ι → Caller, (∀ i, (calls' i).api = (calls i).api) →
      Agree calls' → ∀ j, (calls' j).credentials = (calls j).credentials →
      ∀ a, (vaultSystem json cfg env calls).Reachable (.new cfg) a →
        ∃ a', (vaultSystem json cfg env calls').Reachable (.new cfg) a' ∧ a'.procs = a.procs ∧
          a'.world.life = a.world.life ∧
          ∀ e, Uses a j e → a'.world.clients e = a.world.clients e) := by
  refine ⟨⟨fun hown i j db p htarget hp hkey => ?_, fun hagree a ha => own_of_agree ha hagree⟩, ?_⟩
  · by_cases hij : i = j
    · rw [hij]
    obtain ⟨a, ha, e, cl, huses, hcl, hbuilt⟩ :=
      @exists_reuse ι B _ json cfg env calls i j hij db p htarget hp hkey
    obtain ⟨cl', hcl', hfrom⟩ := hown a ha j e huses
    obtain rfl := some.inj (hcl.symm.trans hcl')
    exact eq_of_builtFrom hp hbuilt hfrom
  · intro hagree calls' hapi hagree' j hj a ha
    obtain ⟨clients', ha', hmatched⟩ := exists_matched hapi ha
    refine ⟨_, ha', rfl, rfl, fun e huses => ?_⟩
    obtain ⟨hkey, -⟩ := huses.key ha
    rcases hmatched e with ⟨hnone, hnone'⟩ | ⟨i, cl, cl', hcl, hcl', hbuilds, hbuilds'⟩
    · exact hnone'.trans hnone.symm
    rw [hcl]
    refine hcl'.trans (congrArg some (hbuilds.eq (hapi i) (fun db p htarget hp => ?_) hbuilds'))
    obtain ⟨db', p', htarget', hikey, -⟩ := hbuilds
    obtain ⟨rfl, rfl⟩ := Prod.mk.inj (some.inj (htarget.symm.trans htarget'))
    rw [← hikey] at hkey
    have hkey' : (calls' j).key = some (databaseKey db p) := by
      rw [Caller.key, hapi j]
      exact hkey
    calc (calls' i).credentials
        = (calls' j).credentials := hagree' i j db p ((hapi i).symm ▸ htarget) hp hkey'
      _ = (calls j).credentials := hj
      _ = (calls i).credentials := (hagree i j db p htarget hp hkey).symm

end Runs

namespace Rotation

/-- A bucket. -/
def profile : Profile := ⟨"s3", "", "eu-west-1", "bucket", "root", ""⟩

/-- Two reads of one database, the second with the given credentials. -/
def reads (second : Credentials) (i : Bool) : Caller :=
  ⟨.read ⟨"db"⟩ profile none, if i then second else ⟨"old", "old-secret"⟩⟩

/-- Two reads of one database with the same credentials, and a read of another database. -/
def beside (other : Credentials) : Option Bool → Caller
  | some i => reads ⟨"old", "old-secret"⟩ i
  | none => ⟨.read ⟨"other"⟩ profile none, other⟩

theorem beside_agree (other : Credentials) : Agree (beside other) := by
  have hne : databaseKey ⟨"db"⟩ profile ≠ databaseKey ⟨"other"⟩ profile := by decide
  rintro (_ | i) (_ | j) db p ⟨⟩ - hkey
  · rfl
  · exact absurd (some.inj hkey) hne
  · exact absurd (some.inj hkey).symm hne
  · cases i <;> cases j <;> rfl

/-- The pools of the two reads. -/
abbrev State := Pool (Vault Bool) Bool (Act (Option Litestream.ManifestDocument)) Rsp Unit

end Rotation

open Rotation in
/-- The first two reads use the clients of their common credentials, whatever the credentials of the
third one. -/
theorem own_credentials_shared :
    (∀ a : Pool (Vault (Option Bool)) _ (Act (Option Litestream.ManifestDocument)) Rsp Unit,
      (vaultSystem .plain defaultConfig ⟨"", ""⟩ (beside ⟨"x", "x-secret"⟩)).Reachable
        (.new defaultConfig) a → Own (beside ⟨"x", "x-secret"⟩) a) ∧
    ∃ a a' : Pool (Vault (Option Bool)) _ (Act (Option Litestream.ManifestDocument)) Rsp Unit,
      (vaultSystem .plain defaultConfig ⟨"", ""⟩ (beside ⟨"x", "x-secret"⟩)).Reachable
        (.new defaultConfig) a ∧
      (vaultSystem .plain defaultConfig ⟨"", ""⟩ (beside ⟨"y", "y-secret"⟩)).Reachable
        (.new defaultConfig) a' ∧ a'.procs = a.procs ∧
      ∃ e cl, Uses a (some true) e ∧ a.world.clients e = some cl ∧
        a'.world.clients e = some cl := by
  have hboth := own_credentials_iff .plain defaultConfig ⟨"", ""⟩ (beside ⟨"x", "x-secret"⟩)
  have hagree := beside_agree ⟨"x", "x-secret"⟩
  refine ⟨hboth.1.mpr hagree, ?_⟩
  obtain ⟨a, ha, e, cl, huses, hcl, -⟩ :=
    @exists_reuse (Option Bool) _ _ .plain defaultConfig ⟨"", ""⟩ (beside ⟨"x", "x-secret"⟩)
      (some false) (some true) nofun ⟨"db"⟩ profile rfl rfl rfl
  obtain ⟨a', ha', hprocs, -, hclients⟩ := hboth.2 hagree (beside ⟨"y", "y-secret"⟩)
    (fun i => by cases i <;> rfl) (beside_agree _) (some true) rfl a ha
  exact ⟨a, a', ha, ha', hprocs, e, cl, huses, hcl, (hclients e huses).trans hcl⟩

open Rotation in
/-- Two reads of one database with different credentials: the second one is handed the entry whose
clients were built from the credentials of the first one. -/
theorem credentials_reused :
    ∃ a : State, (vaultSystem .plain defaultConfig ⟨"", ""⟩
      (reads ⟨"new", "new-secret"⟩)).Reachable (.new defaultConfig) a ∧
      ∃ e cl, Uses a true e ∧ a.world.clients e = some cl ∧
        cl.BuiltFrom ⟨"old", "old-secret"⟩ ∧ ¬ cl.BuiltFrom ⟨"new", "new-secret"⟩ := by
  obtain ⟨a, ha, e, cl, huses, hcl, hbuilt⟩ :=
    @exists_reuse Bool _ _ .plain defaultConfig ⟨"", ""⟩ (reads ⟨"new", "new-secret"⟩) false true
      nofun ⟨"db"⟩ profile rfl rfl rfl
  refine ⟨a, ha, e, cl, huses, hcl, ⟨_, _, _, hbuilt⟩, fun hnew => ?_⟩
  exact absurd (eq_of_builtFrom (p := profile) rfl hbuilt hnew) (by decide)

end Walrusd.Lifecycle
