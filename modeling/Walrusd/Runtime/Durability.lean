import Walrusd.Program.Script
import Walrusd.Runtime.Storage
import Walrusd.Runtime.WithWrite

/-!
# Exactly one durable transaction for each idempotency key

Attempts run one after another, as the write lease serializes them, and each may fail or crash at
any call. The durable state stays intact throughout: its objects cover a contiguous range of TXIDs,
every recorded row names its own transaction, no key is recorded twice, and the manifest indexes a
beginning of the chain whose remainder is visible at level 0. Therefore the tail probe finds every
transaction that a failed manifest write left out, the session sees every recorded key, and a retry
either finds its key or has not been committed.

The invariant is the `allow` of a protocol whose states are the storage, so it holds at every call
of an attempt and hence wherever the attempt is cut off.

## Main definitions

* `Replica.Records` — a transaction of the chain recorded a key.
* `Intact`, `Indexes` — the invariant of the replica.
* `writeSystem` — writes whose attempts are serialized.

## Main results

* `withWriteAttempt_durable` — one attempt.
* `withWrite_exactly_once`.
-/

namespace Walrusd.Runtime

open Program Litestream Function List Option

variable {B : Type}

/-! ### An intact replica -/

/-- Transaction `t` of the chain recorded the key. -/
def Replica.Records (rep : Replica B) (key : String) (t : ℕ) : Prop :=
  ∃ o ∈ rep.objects, ∃ row ∈ o.rows, row.key = key ∧ row.txid = t

/-- The file list indexes the chain up to its highest TXID, and the transactions after that are
objects of level 0. -/
structure Indexes (rep : Replica B) (n : ℕ) (files : List FileInfo) : Prop where
  exist : ∀ k, HasKey files k → HasKey rep.infos k
  covers : ∀ t, 0 < t → t ≤ manifestMaxTXID files → Covers files t
  tail : ∀ t, manifestMaxTXID files < t → t ≤ n → HasKey rep.infos ⟨0, t, t⟩

/-- The chain has the transactions `1, …, n`. -/
structure Intact (json : ManifestJson B) (rep : Replica B) (n : ℕ) : Prop where
  bound : n < 2 ^ 64
  valid : AllValid rep.infos
  top : ∀ k, HasKey rep.infos k → k.maxTXID ≤ n
  covers : ∀ t, 0 < t → t ≤ n → Covers rep.infos t
  rows : ∀ o ∈ rep.objects, ∀ row ∈ o.rows, row.text = formatTXID row.txid ∧
    o.info.minTXID ≤ row.txid ∧ row.txid ≤ o.info.maxTXID
  agree : ∀ o ∈ rep.objects, ∀ row ∈ o.rows, ∀ o' ∈ rep.objects,
    o'.info.minTXID ≤ row.txid → row.txid ≤ o'.info.maxTXID → row ∈ o'.rows
  unique : ∀ key t t', rep.Records key t → rep.Records key t' → t = t'
  manifest : ∀ data, rep.manifest = some data →
    ∃ files, decodeManifest json data = .ok files ∧ Indexes rep n files

section Pure

variable {json : ManifestJson B} {rep : Replica B} {n : ℕ} {files : List FileInfo}
variable {o : Object}

theorem empty_intact : Intact json ⟨[], none⟩ 0 where
  bound := by decide
  valid := fun k hk => absurd hk not_hasKey_nil
  top := fun k hk => absurd hk not_hasKey_nil
  covers := by omega
  rows := fun o ho => absurd ho (by simp)
  agree := fun o ho => absurd ho (by simp)
  unique := by
    rintro key t t' ⟨o, ho, -⟩
    exact absurd ho (by simp)
  manifest := nofun

theorem Indexes.max_le (hintact : Intact json rep n) (h : Indexes rep n files) :
    manifestMaxTXID files ≤ n :=
  manifestMaxTXID_le_iff.mpr fun k hk => hintact.top k (h.exist k hk)

theorem Intact.max_infos (h : Intact json rep n)
    (hkeys : ∀ k, HasKey files k ↔ HasKey rep.infos k) : manifestMaxTXID files = n := by
  refine le_antisymm (manifestMaxTXID_le_iff.mpr fun k hk => h.top k ((hkeys k).mp hk)) ?_
  rcases Nat.eq_zero_or_pos n with rfl | hn
  · exact Nat.zero_le _
  · obtain ⟨k, hk, -, hmax⟩ := h.covers n hn le_rfl
    exact hmax.trans (le_manifestMaxTXID ((hkeys k).mpr hk))

theorem Intact.indexes (h : Intact json rep n) (hkeys : ∀ k, HasKey files k ↔ HasKey rep.infos k) :
    Indexes rep n files := by
  have hmax := h.max_infos hkeys
  refine ⟨fun k hk => (hkeys k).mp hk, fun t ht htn => ?_, fun t ht htn => by omega⟩
  exact (h.covers t ht (by omega)).mono fun k hk => (hkeys k).mpr hk

section

variable (h : Intact json rep n) (hidx : Indexes rep n files)
include h hidx

/-- The tail probe finds what the manifest left out. -/
theorem Intact.max_eq_of_tail {level0 : List FileInfo}
    (hlevel : ∀ k, HasKey level0 k ↔ HasKey rep.infos k ∧ k.level = 0)
    (htail : ¬ maxTXIDFrom 0 level0 > manifestMaxTXID files) : manifestMaxTXID files = n := by
  by_contra hne
  have hlt : manifestMaxTXID files < n := lt_of_le_of_ne (hidx.max_le h) hne
  have hkey : HasKey level0 ⟨0, n, n⟩ := (hlevel _).mpr ⟨hidx.tail n hlt le_rfl, rfl⟩
  have hmax : n ≤ manifestMaxTXID level0 := le_manifestMaxTXID hkey
  rw [manifestMaxTXID] at hmax
  omega

/-- A session on a list that indexes the whole chain sees every row. -/
theorem Intact.mem_rowsOf (hmax : manifestMaxTXID files = n) (ho : o ∈ rep.objects) {row : Row}
    (hrow : row ∈ o.rows) : row ∈ rep.rowsOf files := by
  obtain ⟨-, hmin, hle⟩ := h.rows o ho row hrow
  have hkey : HasKey rep.infos o.info.key := Replica.hasKey_infos.mpr ⟨o, ho, rfl⟩
  have hpos : 0 < row.txid := lt_of_lt_of_le (h.valid _ hkey).2.1 hmin
  have hn : row.txid ≤ n := hle.trans (h.top _ hkey)
  obtain ⟨k, hk, hkmin, hkmax⟩ := hidx.covers row.txid hpos (hmax ▸ hn)
  obtain ⟨o', ho', rfl⟩ := Replica.hasKey_infos.mp (hidx.exist k hk)
  exact Replica.mem_rowsOf.mpr ⟨o', ho', hk, h.agree o ho row hrow o' ho' hkmin hkmax⟩

theorem Intact.store {data : B} (hdata : encodeManifest json files = .ok data) :
    Intact json (rep.store data) n := by
  have hvalid : AllValid files := fun k hk => h.valid k (hidx.exist k hk)
  obtain ⟨decoded, hdecoded, -, hkeys⟩ := decodeManifest_encodeManifest json hvalid hdata
  have hmax : manifestMaxTXID decoded = manifestMaxTXID files :=
    le_antisymm (manifestMaxTXID_mono fun k hk => (hkeys k).mp hk)
      (manifestMaxTXID_mono fun k hk => (hkeys k).mpr hk)
  refine { h with manifest := fun data' hdata' => ⟨decoded, ?_, ?_⟩ }
  · rw [← some.inj hdata', hdecoded]
  refine ⟨fun k hk => hidx.exist k ((hkeys k).mp hk), fun t ht htmax => ?_, ?_⟩
  · exact (hidx.covers t ht (hmax ▸ htmax)).mono fun k hk => (hkeys k).mpr hk
  · rw [hmax]
    exact hidx.tail

end

/-- What the list indexed before a new transaction landed it indexes after. -/
theorem Indexes.put (h : Indexes rep n files) (ho : o.info.key = ⟨0, n + 1, n + 1⟩) :
    Indexes (rep.put o) (n + 1) files := by
  refine ⟨fun k hk => Replica.hasKey_put.mpr (.inl (h.exist k hk)), h.covers, ?_⟩
  intro t ht htn
  by_cases htn' : t ≤ n
  · exact Replica.hasKey_put.mpr (.inl (h.tail t ht htn'))
  · obtain rfl : t = n + 1 := by omega
    exact Replica.hasKey_put.mpr (.inr ho)

theorem Replica.records_put (hnew : ∀ o' ∈ rep.objects, o'.info.key ≠ o.info.key) {key : String}
    {t : ℕ} : (rep.put o).Records key t ↔
      rep.Records key t ∨ ∃ row ∈ o.rows, row.key = key ∧ row.txid = t := by
  simp only [Replica.Records, Replica.mem_put]
  constructor
  · rintro ⟨o', ⟨ho', -⟩ | rfl, hrow⟩
    · exact .inl ⟨o', ho', hrow⟩
    · exact .inr hrow
  rintro (⟨o', ho', hrow⟩ | hrow)
  · exact ⟨o', .inl ⟨ho', hnew o' ho'⟩, hrow⟩
  · exact ⟨o, .inr rfl, hrow⟩

/-- **A new transaction lands** at the end of the chain, with a key that was not recorded. -/
theorem Intact.put (h : Intact json rep n) {key : String} (ho : o.info.key = ⟨0, n + 1, n + 1⟩)
    (hrows : o.rows = [⟨n + 1, key, formatTXID (n + 1)⟩]) (hbound : n + 1 < 2 ^ 64)
    (hkey : ∀ t, ¬ rep.Records key t) : Intact json (rep.put o) (n + 1) := by
  have hmin : o.info.minTXID = n + 1 := congrArg FileKey.minTXID ho
  have hmax : o.info.maxTXID = n + 1 := congrArg FileKey.maxTXID ho
  have hold : ∀ o' ∈ rep.objects, o'.info.maxTXID ≤ n := fun o' ho' =>
    h.top _ (Replica.hasKey_infos.mpr ⟨o', ho', rfl⟩)
  have hnew : ∀ o' ∈ rep.objects, o'.info.key ≠ o.info.key := by
    intro o' ho' heq
    have hle := hold o' ho'
    have hmax' : o'.info.maxTXID = o.info.maxTXID := congrArg FileKey.maxTXID heq
    omega
  have hrow : ∀ row ∈ o.rows, row = ⟨n + 1, key, formatTXID (n + 1)⟩ := by
    intro row hmem
    rw [hrows] at hmem
    exact mem_singleton.mp hmem
  refine ⟨hbound, ?_, ?_, ?_, ?_, ?_, ?_, ?_⟩
  · intro k hk
    rcases Replica.hasKey_put.mp hk with hk | rfl
    · exact h.valid k hk
    · rw [ho]
      exact ⟨Nat.zero_le _, Nat.succ_pos n, le_rfl⟩
  · intro k hk
    rcases Replica.hasKey_put.mp hk with hk | rfl
    · exact (h.top k hk).trans (Nat.le_succ n)
    · exact hmax.le
  · intro t ht htn
    by_cases htn' : t ≤ n
    · exact (h.covers t ht htn').mono fun k hk => Replica.hasKey_put.mpr (.inl hk)
    refine ⟨o.info.key, Replica.hasKey_put.mpr (.inr rfl), ?_, ?_⟩
    · simp only [FileInfo.key_minTXID]
      omega
    · simp only [FileInfo.key_maxTXID]
      omega
  · intro o' ho' row hmem
    rcases Replica.mem_put.mp ho' with ⟨ho', -⟩ | rfl
    · exact h.rows o' ho' row hmem
    · obtain rfl := hrow row hmem
      exact ⟨rfl, hmin.le, hmax.ge⟩
  · intro o₁ ho₁ row hmem o₂ ho₂ hle hge
    rcases Replica.mem_put.mp ho₁ with ⟨ho₁, -⟩ | rfl
    · have hrowmax := (h.rows o₁ ho₁ row hmem).2.2
      have hle₁ := hold o₁ ho₁
      rcases Replica.mem_put.mp ho₂ with ⟨ho₂, -⟩ | rfl
      · exact h.agree o₁ ho₁ row hmem o₂ ho₂ hle hge
      · omega
    · rcases Replica.mem_put.mp ho₂ with ⟨ho₂, -⟩ | rfl
      · obtain rfl := hrow row hmem
        have hle₂ := hold o₂ ho₂
        simp only at hge
        omega
      · exact hmem
  · intro key' t t' ht ht'
    rcases (Replica.records_put hnew).mp ht with ht | ⟨row, hmem, rfl, rfl⟩
    · rcases (Replica.records_put hnew).mp ht' with ht' | ⟨row', hmem', rfl, rfl⟩
      · exact h.unique key' t t' ht ht'
      · obtain rfl := hrow row' hmem'
        exact absurd ht (hkey t)
    · obtain rfl := hrow row hmem
      rcases (Replica.records_put hnew).mp ht' with ht' | ⟨row', hmem', hkey', rfl⟩
      · exact absurd ht' (hkey t')
      · obtain rfl := hrow row' hmem'
        rfl
  · intro data hdata
    obtain ⟨files, hfiles, hidx⟩ := h.manifest data hdata
    exact ⟨files, hfiles, hidx.put ho⟩

end Pure

/-! ### The protocol of an attempt -/

/-- A listing returns the current objects of its level. -/
def Storage.Current (st : Storage B) : (c : Op B) → Resp c → Prop
  | .ltxFiles _ level, .ok files => ∀ f, f ∈ files ↔ f ∈ st.replica.infos ∧ f.level = level
  | _, _ => True

/-- The answers of a storage whose listings are current. -/
def Storage.Serves (st : Storage B) (c : Op B) (r : Resp c) (st' : Storage B) : Prop :=
  st.Answers c r st' ∧ st.Current c r

/-- The chain of `rep` is intact up to `n` and has every record of `rep₀`. -/
structure Extends (json : ManifestJson B) (rep₀ rep : Replica B) (n : ℕ) : Prop where
  intact : Intact json rep n
  records : ∀ key t, rep₀.Records key t → rep.Records key t

/-- The storage of an attempt that started on `rep₀` is intact at every call. -/
def durable (json : ManifestJson B) (rep₀ : Replica B) : Protocol (Op B) Resp (Storage B) where
  allow st _ := ∃ n, Extends json rep₀ st.replica n
  next := Storage.Serves

/-- The result of an attempt for a key, with the replica that it leaves. -/
def Recorded (json : ManifestJson B) (rep₀ : Replica B) (key : String) (rep : Replica B)
    (res : Except Err WriteResult) : Prop :=
  (∃ n, Extends json rep₀ rep n) ∧ ∀ r, res = .ok r → ∃ t, rep.Records key t ∧ r.txid = formatTXID t

/-- An attempt for a key that started on `rep₀` is durable from the storage `st` on. -/
abbrev Endures (json : ManifestJson B) (rep₀ : Replica B) (key : String)
    (p : RuntimeM B (Except Err WriteResult)) (st : Storage B) : Prop :=
  p.Obeys (durable json rep₀) (fun st => Recorded json rep₀ key st.replica) st

section Stages

variable {json : ManifestJson B} {cfg : Config} {d : Descriptor} {key : String}
  {held : Lease.Held} {rep₀ : Replica B} {st : Storage B} {n : ℕ} {α : Type}
  {Q : Storage B → α → Prop} {files : List FileInfo}
variable {s : Sess} {manifest : Option Slice}

theorem obeys_of_only {p : RuntimeM B (Except Err WriteResult)}
    (honly : p.Only fun c => c.touches = false) (h : Extends json rep₀ st.replica n)
    (hyields : p.Yields (Recorded json rep₀ key st.replica)) : Endures json rep₀ key p st := by
  induction p generalizing st with
  | done res => exact hyields
  | call c k ih =>
    refine ⟨⟨n, h⟩, fun r st' hserves => ?_⟩
    have hrep := hserves.1.replica_eq honly.1
    exact ih r (honly.2 r) (hrep ▸ h) (hrep ▸ hyields r)

theorem obeys_of_fails {p : RuntimeM B (Except Err WriteResult)} (hp : Fails p)
    (h : Extends json rep₀ st.replica n) : Endures json rep₀ key p st := by
  refine obeys_of_only (hp.only.mono fun c => Op.touches_of_cleansUp) h (hp.yields.mono ?_)
  rintro res ⟨e, rfl⟩
  exact ⟨⟨n, h⟩, nofun⟩

theorem obeys_quiet {c : Op B} {f : Resp c → RuntimeM B α} (hc : c.alters = false)
    (h : Extends json rep₀ st.replica n)
    (hf : ∀ r, st.Serves c r st → (f r).Obeys (durable json rep₀) Q st) :
    (ask c >>= f).Obeys (durable json rep₀) Q st := by
  refine .perform ⟨n, h⟩ fun r st' hserves => ?_
  obtain rfl := hserves.1.eq_of_alters hc
  exact hf r hserves

theorem obeys_quiet_stage {β : Type} {p : RuntimeM B β} {f : β → RuntimeM B α} {S : Op B → Prop}
    (honly : p.Only S) (hS : ∀ c, S c → c.alters = false) (h : Extends json rep₀ st.replica n)
    (hf : ∀ b, (f b).Obeys (durable json rep₀) Q st) : (p >>= f).Obeys (durable json rep₀) Q st :=
  honly.bind_obeys (fun c hc => ⟨⟨n, h⟩, fun _ _ hserves => hserves.1.eq_of_alters (hS c hc)⟩) hf

theorem writeManifest_durable {f : Option Err → RuntimeM B α} (h : Extends json rep₀ st.replica n)
    (hidx : Indexes st.replica n files)
    (hf : ∀ err st', Extends json rep₀ st'.replica n → st'.replica.objects = st.replica.objects →
      (f err).Obeys (durable json rep₀) Q st') :
    (writeManifest json files >>= f).Obeys (durable json rep₀) Q st := by
  unfold writeManifest
  split
  · next e _ => exact hf (some e) st h rfl
  · next data hdata =>
    have hstored : Extends json rep₀ (st.replica.store data) n :=
      ⟨h.intact.store hidx hdata, h.records⟩
    refine .perform ⟨n, h⟩ ?_
    rintro (_ | e) st' ⟨hst', -⟩
    · obtain rfl := hst'
      exact hf none _ hstored rfl
    rcases hst' with rfl | rfl
    · exact hf (some e) _ h rfl
    · exact hf (some e) _ hstored rfl

theorem rebuildManifest_durable {f : Except Err (List FileInfo) → RuntimeM B α}
    (h : Extends json rep₀ st.replica n) (herr : ∀ e, (f (.error e)).Obeys (durable json rep₀) Q st)
    (hok : ∀ files, (∀ k, HasKey files k ↔ HasKey st.replica.infos k) →
      (f (.ok files)).Obeys (durable json rep₀) Q st) :
    (rebuildManifest >>= f).Obeys (durable json rep₀) Q st := by
  refine Prog.Obeys.bind (rebuildManifest_obeys (Q := fun st' res => st' = st ∧
    ∀ files, res = .ok files → ∀ k, HasKey files k ↔ HasKey st.replica.infos k)
    (fun level files st' => st' = st ∧
      ∀ k, HasKey files k ↔ HasKey st.replica.infos k ∧ k.level < level) ?_ ?_ ?_ ?_ ?_) ?_
  · exact ⟨rfl, fun k => by simp⟩
  · rintro level files _ ⟨rfl, -⟩
    exact ⟨n, h⟩
  · rintro level files _ e _ ⟨rfl, -⟩ ⟨hst', -⟩
    exact ⟨hst', nofun⟩
  · rintro level files _ found _ ⟨rfl, hfiles⟩ ⟨hst', hcurrent⟩
    refine ⟨hst', fun k => ?_⟩
    rw [hasKey_append, hfiles, hasKey_level hcurrent, Nat.lt_succ_iff_lt_or_eq]
    tauto
  · rintro files _ ⟨rfl, hfiles⟩
    refine ⟨rfl, fun all hall k => ?_⟩
    cases hall
    rw [hfiles, and_iff_left_iff_imp]
    exact fun hk => Nat.lt_succ_of_le (h.intact.valid k hk).1
  · rintro _ (e | files) ⟨rfl, hfiles⟩
    · exact herr e
    · exact hok files (hfiles files rfl)

/-- The whole chain, as the plan of a session. -/
structure Plan (rep : Replica B) (n : ℕ) (files : List FileInfo) : Prop extends
    Indexes rep n files where
  max_eq : manifestMaxTXID files = n

section

variable (h : Extends json rep₀ st.replica n)
include h

theorem readManifest_durable {f : Except Err (Option (List FileInfo)) → RuntimeM B α}
    (herr : ∀ e, (f (.error e)).Obeys (durable json rep₀) Q st)
    (hnone : (f (.ok none)).Obeys (durable json rep₀) Q st)
    (hsome : ∀ files, Indexes st.replica n files →
      (f (.ok (some files))).Obeys (durable json rep₀) Q st) :
    (readManifest json >>= f).Obeys (durable json rep₀) Q st := by
  rw [readManifest, Prog.bind_assoc]
  refine obeys_quiet rfl h ?_
  rintro (e | data) ⟨hanswers, -⟩
  · simp only
    split
    · exact hnone
    · exact herr e
  · obtain ⟨files, hfiles, hidx⟩ := h.intact.manifest data hanswers.2
    simp only [hfiles]
    exact hsome files hidx

/-- The tail probe finds every transaction that the manifest left out. -/
theorem tailTXID_durable {f : Except Err ℕ → RuntimeM B α}
    (herr : ∀ e, (f (.error e)).Obeys (durable json rep₀) Q st)
    (hok : ∀ tail, (∀ files, Indexes st.replica n files → ¬ tail > manifestMaxTXID files →
      manifestMaxTXID files = n) → (f (.ok tail)).Obeys (durable json rep₀) Q st) :
    (tailTXID >>= f).Obeys (durable json rep₀) Q st := by
  rw [tailTXID, Prog.bind_assoc]
  refine obeys_quiet rfl h ?_
  rintro (e | level0) ⟨-, hcurrent⟩
  · exact herr e
  · exact hok _ fun files hidx htail =>
      h.intact.max_eq_of_tail hidx (hasKey_level hcurrent) htail

theorem repairTail_durable (hidx : Indexes st.replica n files) :
    (repairTail json files).Obeys (durable json rep₀) (fun st' res =>
      Extends json rep₀ st'.replica n ∧
        ∀ slice, res = .ok slice → Plan st'.replica n (slice.getD [])) st := by
  refine tailTXID_durable h (fun e => ⟨h, nofun⟩) fun tail htail => ?_
  simp only
  split
  · refine rebuildManifest_durable h (fun e => ⟨h, nofun⟩) fun rebuilt hrebuilt => ?_
    refine writeManifest_durable h (h.intact.indexes hrebuilt) fun err st' h' hobj => ?_
    rcases err with _ | e
    · refine ⟨h', fun slice hslice => ?_⟩
      cases hslice
      rw [getD_appended]
      have hrebuilt' (k : FileKey) : HasKey rebuilt k ↔ HasKey st'.replica.infos k := by
        rw [hrebuilt k, Replica.infos, Replica.infos, hobj]
      exact ⟨h'.intact.indexes hrebuilt', h'.intact.max_infos hrebuilt'⟩
    · refine ⟨h', ?_⟩
      rintro slice ⟨⟩
  · next hle =>
    refine ⟨h, fun slice hslice => ?_⟩
    cases hslice
    exact ⟨hidx, htail files hidx hle⟩

/-- The file list that an attempt opens on indexes the whole chain. -/
theorem planFiles_durable :
    (planFiles json).Obeys (durable json rep₀) (fun st' res =>
      Extends json rep₀ st'.replica n ∧
        ∀ slice, res = .ok (some slice) → Plan st'.replica n (slice.getD [])) st := by
  refine readManifest_durable h (fun e => ⟨h, nofun⟩) ⟨h, nofun⟩ fun files hidx => ?_
  refine (repairTail_durable h hidx).bind ?_
  rintro st' (e | slice') ⟨h', hplan⟩
  · exact ⟨h', nofun⟩
  refine ⟨h', fun slice hslice => ?_⟩
  obtain rfl := some.inj (Except.ok.inj hslice)
  exact hplan slice' rfl

theorem repairForRetry_durable {text : String} :
    (repairForRetry json text).Obeys (durable json rep₀) (fun st' _ =>
      Extends json rep₀ st'.replica n ∧ st'.replica.objects = st.replica.objects) st := by
  have hrepair (current : Option (List FileInfo)) (tx : ℕ) :
      (repairUncovered json current tx).Obeys (durable json rep₀) (fun st' _ =>
        Extends json rep₀ st'.replica n ∧ st'.replica.objects = st.replica.objects) st := by
    unfold repairUncovered
    split
    · exact ⟨h, rfl⟩
    refine rebuildManifest_durable h (fun e => ⟨h, rfl⟩) fun files hfiles => ?_
    refine writeManifest_durable h (h.intact.indexes hfiles) fun err st' h' hobj => ?_
    rcases err with _ | e <;> exact ⟨h', hobj⟩
  unfold repairForRetry
  split
  · exact ⟨h, rfl⟩
  · exact readManifest_durable h (fun e => ⟨h, rfl⟩) (hrepair none _) fun files _ =>
      hrepair (some files) _

end

/-! #### The session -/

/-- A session on the whole chain, with nothing written yet. -/
structure Opened (rep : Replica B) (n : ℕ) (ses : Session) : Prop where
  pos : ses.pos = n
  indexes : Indexes rep n ses.client.files
  sees : ∀ row, row ∈ ses.visible ↔ ∃ o ∈ rep.objects, row ∈ o.rows
  staged : ses.staged = []

theorem newSession_opened (h : Intact json st.replica n) {plan : Option (List FileInfo)}
    (hplan : ∀ files, plan = some files → Plan st.replica n files) :
    Opened st.replica n (st.newSession plan) := by
  have hfiles : Plan st.replica n (plan.getD st.replica.infos) := by
    cases plan with
    | none => exact ⟨h.indexes fun _ => Iff.rfl, h.max_infos fun _ => Iff.rfl⟩
    | some files => exact hplan files rfl
  refine ⟨hfiles.max_eq, hfiles.toIndexes, fun row => ⟨fun hrow => ?_, ?_⟩, rfl⟩
  · obtain ⟨o, ho, -, hmem⟩ := Replica.mem_rowsOf.mp hrow
    exact ⟨o, ho, hmem⟩
  · rintro ⟨o, ho, hrow⟩
    exact h.mem_rowsOf hfiles.toIndexes hfiles.max_eq ho hrow

variable {ses : Session}

theorem Opened.records_of_row (h : Opened st.replica n ses) (hintact : Intact json st.replica n)
    {row : Row} (hrow : ses.row key = some row) :
    st.replica.Records key row.txid ∧ row.text = formatTXID row.txid := by
  have hmem := mem_of_find?_eq_some hrow
  have hkey := find?_some hrow
  rw [h.staged, append_nil] at hmem
  obtain ⟨o, ho, hrow⟩ := (h.sees row).mp hmem
  exact ⟨⟨o, ho, row, hrow, by simpa using hkey, rfl⟩, (hintact.rows o ho row hrow).1⟩

theorem Opened.not_records (h : Opened st.replica n ses) (hrow : ses.row key = none) (t : ℕ) :
    ¬ st.replica.Records key t := by
  rintro ⟨o, ho, row, hmem, hkey, -⟩
  have hvisible : row ∈ ses.visible ++ ses.staged :=
    mem_append_left _ ((h.sees row).mpr ⟨o, ho, hmem⟩)
  have hnot := find?_eq_none.mp hrow row hvisible
  simp [hkey] at hnot

/-- A session whose transaction records a new key. -/
structure Staged (rep : Replica B) (n : ℕ) (key : String) (ses : Session) : Prop where
  pos : ses.pos = n
  indexes : Indexes rep n ses.client.files
  staged : ses.staged = [⟨n + 1, key, formatTXID ((n + 1) % 2 ^ 64)⟩]
  fresh : ∀ t, ¬ rep.Records key t

theorem Opened.stage (h : Opened st.replica n ses) (hrow : ses.row key = none) :
    Staged st.replica n key (ses.stage key (formatTXID ((n + 1) % 2 ^ 64))) := by
  refine ⟨h.pos, h.indexes, ?_, h.not_records hrow⟩
  simp [Session.stage, h.staged, h.pos]

theorem Staged.land (h : Staged st.replica n key ses) (hext : Extends json rep₀ st.replica n)
    {info : FileInfo} (hland : ses.Lands info) :
    Extends json rep₀ (st.land ses info).replica (n + 1) ∧
      (st.land ses info).replica.Records key (n + 1) ∧ info.key = ⟨0, n + 1, n + 1⟩ ∧
      n + 1 < 2 ^ 64 := by
  obtain ⟨hbound, hinfo⟩ := hland
  rw [h.pos] at hbound
  have hkey : info.key = ⟨0, n + 1, n + 1⟩ := by rw [hinfo, Session.nextFile, h.pos, FileInfo.key]
  have hrows : ses.staged = [⟨n + 1, key, formatTXID (n + 1)⟩] := by
    rw [h.staged, Nat.mod_eq_of_lt hbound]
  have hintact : Intact json (st.replica.put ⟨info, ses.staged⟩) (n + 1) :=
    hext.intact.put hkey hrows hbound h.fresh
  have hnew : ∀ o ∈ st.replica.objects, o.info.key ≠ info.key := by
    intro o ho heq
    have hle := hext.intact.top _ (Replica.hasKey_infos.mpr ⟨o, ho, rfl⟩)
    rw [heq, hkey] at hle
    simp at hle
  refine ⟨⟨hintact, fun key' t ht => ?_⟩, ?_, hkey, hbound⟩
  · exact (Replica.records_put hnew).mpr (.inl (hext.records key' t ht))
  · refine (Replica.records_put hnew).mpr (.inr ⟨⟨n + 1, key, formatTXID (n + 1)⟩, ?_, rfl, rfl⟩)
    simp [hrows]

/-- The client of a flushed session indexes the longer chain. -/
theorem Indexes.recordWrite {rep : Replica B} {o : Object} {c : ManifestClient}
    (hidx : Indexes rep n c.files) (hmax : manifestMaxTXID c.files = n)
    (ho : o.info.key = ⟨0, n + 1, n + 1⟩) :
    Indexes (rep.put o) (n + 1) (c.recordWrite o.info).files := by
  have hkeys (k : FileKey) : HasKey (c.recordWrite o.info).files k ↔
      HasKey c.files k ∨ o.info.key = k := ManifestClient.hasKey_recordWrite
  have hnew : HasKey (c.recordWrite o.info).files ⟨0, n + 1, n + 1⟩ := (hkeys _).mpr (.inr ho)
  have htop : manifestMaxTXID (c.recordWrite o.info).files = n + 1 := by
    refine le_antisymm (manifestMaxTXID_le_iff.mpr fun k hk => ?_) (le_manifestMaxTXID hnew)
    rcases (hkeys k).mp hk with hk | rfl
    · exact (le_manifestMaxTXID hk).trans (by omega)
    · rw [ho]
  refine ⟨fun k hk => ?_, fun t ht htn => ?_, fun t ht htn => by omega⟩
  · rcases (hkeys k).mp hk with hk | rfl
    · exact Replica.hasKey_put.mpr (.inl (hidx.exist k hk))
    · exact Replica.hasKey_put.mpr (.inr rfl)
  by_cases htn' : t ≤ n
  · exact (hidx.covers t ht (hmax ▸ htn')).mono fun k hk => (hkeys k).mpr (.inl hk)
  · exact ⟨⟨0, n + 1, n + 1⟩, hnew, by simp only; omega, by simp only; omega⟩

/-! #### The stages of an attempt -/

section

variable (h : Extends json rep₀ st.replica n)
include h

theorem acknowledge_durable {t : ℕ} (hrec : st.replica.Records key t) :
    Endures json rep₀ key (acknowledge cfg held s (formatTXID t) files) st := by
  have hok (res : WriteResult) (hres : res.txid = formatTXID t) :
      Recorded json rep₀ key st.replica (.ok res) := by
    refine ⟨⟨n, h⟩, fun r hr => ?_⟩
    cases hr
    exact ⟨t, hrec, hres⟩
  refine obeys_of_only ?_ h ?_
  · refine .perform rfl fun _ => .perform rfl fun _ =>
      .perform rfl ?_
    rintro (_ | e)
    · exact ((enqueueCompaction_only files).mono fun c hc => Op.touches_of_kind hc rfl).bind
        fun _ => trivial
    · trivial
  · refine Prog.yields_perform_bind fun _ => Prog.yields_perform_bind fun _ =>
      Prog.yields_perform_bind ?_
    rintro (_ | e)
    · exact Prog.Yields.bind (Prog.yields_true _) fun _ _ => hok _ rfl
    · exact ⟨⟨n, h⟩, nofun⟩

section

variable (hrec : st.replica.Records key n) (hses : st.sessions s = some ses)
  (hidx : Indexes st.replica n ses.client.files)
  (hmanifest : ∀ slice, manifest = some slice → Indexes st.replica n (slice.getD []))
include hrec hses hidx hmanifest

theorem publish_durable :
    Endures json rep₀ key (publish json cfg held manifest s (formatTXID n)) st := by
  cases manifest with
  | some manifestFiles =>
    refine obeys_quiet rfl h ?_
    rintro captured ⟨⟨-, ses', hses', hcaptured⟩, -⟩
    cases hses.symm.trans hses'
    have hfiles : Indexes st.replica n ((captured.or manifestFiles).getD []) := by
      rw [hcaptured]
      split
      · exact hidx
      · exact hmanifest manifestFiles rfl
    refine writeManifest_durable h hfiles fun err st' h' hobj => ?_
    rcases err with _ | e
    · exact acknowledge_durable h' (by rwa [Replica.Records, hobj])
    · exact obeys_of_fails (.perform rfl fun _ => flushFailure_fails) h'
  | none =>
    refine rebuildManifest_durable h (fun e => acknowledge_durable h hrec) fun files hkeys => ?_
    refine writeManifest_durable h (h.intact.indexes hkeys) fun err st' h' hobj => ?_
    have hrec' : st'.replica.Records key n := by rwa [Replica.Records, hobj]
    rcases err with _ | e <;> exact acknowledge_durable h' hrec'

theorem confirmFlush_durable {next : String} (hnext : next = formatTXID n) :
    Endures json rep₀ key (confirmFlush json cfg held manifest s next) st := by
  refine obeys_quiet_stage (leaseStale_only held) (fun c hc => Op.alters_of_kind hc rfl) h
    fun stale => ?_
  cases stale
  · refine obeys_quiet_stage (sessionTXID_quiet s) (fun c hc => hc) h ?_
    rintro (e | txid)
    · exact obeys_of_fails closeAndAbandon_fails h
    simp only
    split
    · exact obeys_of_fails closeAndAbandon_fails h
    · next heq =>
      obtain rfl : txid = next := not_not.mp heq
      rw [hnext]
      exact publish_durable h hrec hses hidx hmanifest
  · exact obeys_of_fails closeAndAbandon_fails h

end

section

variable (hses : st.sessions s = some ses) (hstaged : Staged st.replica n key ses)
  (hmanifest : ∀ slice, manifest = some slice → Indexes st.replica n (slice.getD []))
include hses hstaged hmanifest

theorem flush_durable :
    Endures json rep₀ key (flush json cfg held manifest s (formatTXID ((n + 1) % 2 ^ 64))) st := by
  rw [flush, disableWrite, Prog.bind_assoc]
  refine .perform ⟨n, h⟩ ?_
  rintro (_ | e) st' ⟨hanswers, -⟩
  · obtain ⟨ses', info, hses', -, hland, rfl⟩ := hanswers
    cases hses.symm.trans hses'
    obtain ⟨h', hrec, hkey, hbound⟩ := hstaged.land h hland
    have hidx : Indexes (st.land ses info).replica (n + 1) (ses.client.recordWrite info).files :=
      Indexes.recordWrite (o := ⟨info, ses.staged⟩) hstaged.indexes hstaged.pos hkey
    have hext : Extends json rep₀ (st.flush s ses info).replica (n + 1) := h'
    exact confirmFlush_durable hext hrec (update_self s _ _) hidx
      (fun slice hslice => (hmanifest slice hslice).put hkey) (by rw [Nat.mod_eq_of_lt hbound])
  · rcases hanswers with rfl | ⟨ses', info, hses', -, hland, rfl⟩
    · exact obeys_of_fails closeAndFail_fails h
    cases hses.symm.trans hses'
    exact obeys_of_fails closeAndFail_fails (hstaged.land h hland).1

theorem commitAndFlush_durable :
    Endures json rep₀ key
      (commitAndFlush json cfg held manifest s (formatTXID ((n + 1) % 2 ^ 64))) st := by
  refine obeys_quiet_stage (leaseStale_only held) (fun c hc => Op.alters_of_kind hc rfl) h
    fun stale => ?_
  cases stale
  · refine .perform ⟨n, h⟩ ?_
    rintro (_ | e) st' ⟨hanswers, -⟩
    · obtain ⟨ses', hses', rfl⟩ := hanswers
      cases hses.symm.trans hses'
      exact flush_durable h (update_self s _ _)
        ⟨hstaged.pos, hstaged.indexes, hstaged.staged, hstaged.fresh⟩ hmanifest
    · rcases hanswers with rfl | ⟨ses', info, hses', hland, rfl⟩
      · exact obeys_of_fails (.perform rfl fun _ => closeAndFail_fails) h
      cases hses.symm.trans hses'
      exact obeys_of_fails (.perform rfl fun _ => closeAndFail_fails) (hstaged.land h hland).1
  · exact obeys_of_fails (.perform rfl fun _ => closeAndAbandon_fails) h

end

theorem deduplicate_durable {t : ℕ} (hrec : st.replica.Records key t) :
    Endures json rep₀ key (deduplicate json held manifest s (formatTXID t)) st := by
  refine .perform ⟨n, h⟩ fun _ st₁ hst₁ => ?_
  rw [← hst₁.1.replica_eq rfl] at h hrec
  refine .perform ⟨n, h⟩ fun _ st₂ hst₂ => ?_
  rw [← hst₂.1.replica_eq rfl] at h hrec
  have hrepair : (if manifest.isSome then repairForRetry json (formatTXID t)
      else return none).Obeys (durable json rep₀) (fun st' _ =>
        Extends json rep₀ st'.replica n ∧ st'.replica.objects = st₂.replica.objects) st₂ := by
    split
    · exact repairForRetry_durable h
    · exact ⟨h, rfl⟩
  refine hrepair.bind ?_
  rintro st' (_ | e) ⟨h', hobj⟩
  · have hrec' : st'.replica.Records key t := by rwa [Replica.Records, hobj]
    refine obeys_quiet rfl h' ?_
    rintro (_ | e) -
    · refine ⟨⟨n, h'⟩, fun r hr => ?_⟩
      cases hr
      exact ⟨t, hrec', rfl⟩
    · exact ⟨⟨n, h'⟩, nofun⟩
  · exact obeys_of_fails failWithLease_fails h'

section

variable (hses : st.sessions s = some ses) (hopened : Opened st.replica n ses)
  (hmanifest : ∀ slice, manifest = some slice → Indexes st.replica n (slice.getD []))
include hses hopened hmanifest

theorem mutate_durable : Endures json rep₀ key (mutate json cfg key held manifest s) st := by
  refine obeys_quiet rfl h ?_
  rintro (_ | e) -
  · refine obeys_quiet rfl h ?_
    rintro (_ | e) -
    · simp only [nextTXID, recordIdempotent, Prog.bind_assoc]
      refine obeys_quiet rfl h ?_
      rintro (e | pos) ⟨hpos, -⟩
      · exact obeys_of_fails failTransaction_fails h
      obtain ⟨-, ses', hses', rfl⟩ := hpos
      cases hses.symm.trans hses'
      rw [hopened.pos]
      refine .perform ⟨n, h⟩ ?_
      rintro (_ | e) st' ⟨hanswers, -⟩
      · obtain ⟨ses', hses', hrow, rfl⟩ := hanswers
        cases hses.symm.trans hses'
        exact commitAndFlush_durable h (update_self s _ _) (hopened.stage hrow) hmanifest
      · obtain rfl := hanswers
        exact obeys_of_fails failTransaction_fails h
    · exact obeys_of_fails failTransaction_fails h
  · simp only
    split <;> exact obeys_of_fails failTransaction_fails h

theorem transaction_durable :
    Endures json rep₀ key (transaction json cfg key held manifest s) st := by
  refine obeys_quiet rfl h ?_
  rintro (_ | e) -
  · simp only [lookupIdempotent, Prog.bind_assoc]
    refine obeys_quiet rfl h ?_
    rintro (_ | e) -
    · simp only [Prog.bind_assoc]
      refine obeys_quiet rfl h ?_
      rintro (e | text) ⟨hanswers, -⟩
      · exact obeys_of_fails failTransaction_fails h
      obtain ⟨-, ses', hses', rfl⟩ := hanswers
      cases hses.symm.trans hses'
      cases hrow : ses.row key with
      | none => exact mutate_durable h hses hopened hmanifest
      | some row =>
        obtain ⟨hrec, htext⟩ := hopened.records_of_row h.intact hrow
        simp only [map_some, htext, Prog.pure_eq_done, Prog.done_bind,
          if_pos (formatTXID_ne_empty _)]
        exact deduplicate_durable h hrec
    · exact obeys_of_fails failTransaction_fails h
  · exact obeys_of_fails (.perform rfl fun _ => failWithLease_fails) h

end

theorem attemptWithLease_durable :
    Endures json rep₀ key (attemptWithLease json cfg key held) st := by
  refine (planFiles_durable h).bind ?_
  rintro st' (e | manifest) ⟨h', hplan⟩
  · exact obeys_of_fails failWithLease_fails h'
  have hplan' (files : List FileInfo) (hfiles : manifest.join = some files) :
      Plan st'.replica n files := by
    obtain rfl := join_eq_some_iff.mp hfiles
    exact hplan (some files) rfl
  refine .perform ⟨n, h'⟩ ?_
  rintro (e | s) st'' ⟨hanswers, -⟩
  · obtain rfl := hanswers
    exact obeys_of_fails failWithLease_fails h'
  obtain ⟨rfl, rfl⟩ := hanswers
  exact transaction_durable h' (update_self _ _ _)
    (newSession_opened h'.intact hplan') fun slice hslice =>
      (hplan slice (by rw [hslice])).toIndexes

end

/-- **One attempt.** Started on an intact replica, an attempt keeps it intact at every call, and if
it succeeds then the key is recorded by the transaction whose TXID it returns. -/
theorem withWriteAttempt_durable (h : Intact json st.replica n) :
    Endures json st.replica key (withWriteAttempt json cfg d key) st := by
  have hstart : Extends json st.replica st.replica n := ⟨h, fun _ _ ht => ht⟩
  refine obeys_quiet rfl hstart ?_
  rintro (e | _) -
  · exact ⟨⟨n, hstart⟩, nofun⟩
  have hentry : Endures json st.replica key (attemptWithEntry json cfg d key) st := by
    refine obeys_quiet rfl hstart ?_
    rintro (e | held) -
    · exact ⟨⟨n, hstart⟩, nofun⟩
    · exact attemptWithLease_durable hstart
  refine hentry.bind fun st' res hres => ?_
  obtain ⟨m, hm⟩ := hres.1
  exact obeys_quiet rfl hm fun _ _ => hres

end Stages

/-! ### Serialized writes -/

/-- Writes on one database, each named by a number and its idempotency key. The write lease
serializes attempts, so that an attempt is one call of the write; the world moves by itself when
an attempt is cut off by a crash, at any of its calls. -/
def writeSystem (json : ManifestJson B) :
    System (Storage B) (ℕ × String) WriteOp WriteOp.Resp (Option (Except Err WriteResult)) where
  start st i p st' :=
    st' = st ∧ ∃ policy databaseID hasFn rounds, p = withWrite policy i.2 databaseID hasFn rounds
  call st _ c r st' :=
    match c, r with
    | .attempt key, res =>
      ∃ cfg d, Exec Storage.Serves st (withWriteAttempt json cfg d key) st' (.done res)
    | _, _ => st' = st
  env st st' := ∃ cfg d key p, Exec Storage.Serves st (withWriteAttempt json cfg d key) st' p

section Writes

variable {json : ManifestJson B} {st st' : Storage B} {cfg : Config} {d : Descriptor} {key : String}

theorem recorded_of_exec {n : ℕ} {res : Except Err WriteResult} (h : Intact json st.replica n)
    (hexec : Exec Storage.Serves st (withWriteAttempt json cfg d key) st' (.done res)) :
    Recorded json st.replica key st'.replica res :=
  hexec.obeys (fun _ _ _ _ hserves => hserves) (withWriteAttempt_durable h)

theorem extends_of_exec {n : ℕ} {p : RuntimeM B (Except Err WriteResult)}
    (h : Intact json st.replica n)
    (hexec : Exec Storage.Serves st (withWriteAttempt json cfg d key) st' p) :
    ∃ m, Extends json st.replica st'.replica m := by
  have hobeys : Endures json st.replica key p st' :=
    hexec.obeys (fun _ _ _ _ hserves => hserves) (withWriteAttempt_durable h)
  cases p with
  | done res | call c k => exact hobeys.1

/-- The replica is intact, and every successful attempt is recorded. -/
def WritesKept (json : ManifestJson B) (st : Storage B)
    (g : ℕ × String → String × Option WriteResult) : Prop :=
  (∃ n, Intact json st.replica n) ∧ ∀ i, (g i).1 = i.2 ∧
    ∀ r, (g i).2 = some r → ∃ t, st.replica.Records i.2 t ∧ r.txid = formatTXID t

theorem WritesKept.mono {g : ℕ × String → String × Option WriteResult} (h : WritesKept json st g)
    (hext : ∃ n, Extends json st.replica st'.replica n) : WritesKept json st' g := by
  obtain ⟨n, hext⟩ := hext
  refine ⟨⟨n, hext.intact⟩, fun i => ⟨(h.2 i).1, fun r hr => ?_⟩⟩
  obtain ⟨t, ht, htxid⟩ := (h.2 i).2 r hr
  exact ⟨t, hext.records _ _ ht, htxid⟩

theorem WritesKept.update {g : ℕ × String → String × Option WriteResult} {i : ℕ × String}
    {s : String × Option WriteResult} (h : WritesKept json st g) (hs : s.1 = i.2)
    (hres : ∀ r, s.2 = some r → ∃ t, st.replica.Records i.2 t ∧ r.txid = formatTXID t) :
    WritesKept json st (update g i s) := by
  refine ⟨h.1, fun j => ?_⟩
  by_cases hj : j = i
  · subst hj
    rw [update_self]
    exact ⟨hs, hres⟩
  · rw [update_of_ne hj]
    exact h.2 j

theorem reachable_writesKept {st₀ : Storage B} {n : ℕ} (h₀ : Intact json st₀.replica n)
    {a : Pool (Storage B) (ℕ × String) WriteOp WriteOp.Resp (Option (Except Err WriteResult))}
    (h : (writeSystem json).Reachable st₀ a) :
    ∃ g, WritesKept json a.world g ∧
      ∀ i p, a.procs i = some p → p.Obeys attempts Attempted (g i) := by
  have hinit : WritesKept json st₀ fun i => (i.2, none) := ⟨⟨n, h₀⟩, fun i => ⟨rfl, nofun⟩⟩
  have hstart : ∀ st g i p st', WritesKept json st g → (writeSystem json).start st i p st' →
      ∃ s, p.Obeys attempts Attempted s ∧ WritesKept json st' (update g i s) := by
    rintro st g i p _ hg ⟨rfl, policy, databaseID, hasFn, rounds, rfl⟩
    exact ⟨(i.2, none), withWrite_obeys databaseID hasFn rounds, hg.update rfl nofun⟩
  have hcall : ∀ st g i c r st', WritesKept json st g → attempts.allow (g i) c →
      (writeSystem json).call st i c r st' →
      ∃ s, attempts.next (g i) c r s ∧ WritesKept json st' (update g i s) := by
    intro st g i c r st' hg hallow hstep
    cases c with
    | attempt key =>
      obtain ⟨cfg, d, hexec⟩ := hstep
      obtain rfl : key = i.2 := (hallow key rfl).trans (hg.2 i).1
      obtain ⟨m, hm⟩ := hg.1
      obtain ⟨hext, hres⟩ := recorded_of_exec hm hexec
      have hg' := hg.mono hext
      rcases r with e | res
      · exact ⟨g i, rfl, hg'.update (hg'.2 i).1 (hg'.2 i).2⟩
      refine ⟨((g i).1, some res), rfl, hg'.update (hg'.2 i).1 fun r hr => ?_⟩
      cases hr
      exact hres res rfl
    | _ =>
      obtain rfl : st' = st := hstep
      exact ⟨g i, rfl, hg.update (hg.2 i).1 (hg.2 i).2⟩
  have henv : ∀ st g st', WritesKept json st g → (writeSystem json).env st st' →
      WritesKept json st' g := by
    rintro st g st' hg ⟨cfg, d, key, p, hexec⟩
    obtain ⟨m, hm⟩ := hg.1
    exact hg.mono (extends_of_exec hm hexec)
  exact System.Reachable.invariant attempts (fun _ => Attempted) (WritesKept json) _ hinit hstart
    hcall henv h

end Writes

/-- **Exactly once.** Whatever fails, and wherever attempts crash, no idempotency key is recorded
by two transactions of the durable chain; and the key of a write that returned success is recorded
by exactly one transaction, whose TXID the write returned. -/
theorem withWrite_exactly_once (json : ManifestJson B) (st₀ : Storage B) (n : ℕ)
    (h₀ : Intact json st₀.replica n)
    (a : Pool (Storage B) (ℕ × String) WriteOp WriteOp.Resp (Option (Except Err WriteResult)))
    (h : (writeSystem json).Reachable st₀ a) :
    (∀ key t t', a.world.replica.Records key t → a.world.replica.Records key t' → t = t') ∧
    ∀ i key res, a.procs (i, key) = some (.done (some (.ok res))) →
      ∃ t, a.world.replica.Records key t ∧ res.txid = formatTXID t ∧
        ∀ t', a.world.replica.Records key t' → t' = t := by
  obtain ⟨g, ⟨⟨m, hintact⟩, hg⟩, hobeys⟩ := reachable_writesKept h₀ h
  refine ⟨hintact.unique, fun i key res hdone => ?_⟩
  have hlast : (g (i, key)).2 = some res := hobeys _ _ hdone res rfl
  obtain ⟨t, ht, htxid⟩ := (hg (i, key)).2 res hlast
  exact ⟨t, ht, htxid, fun t' ht' => hintact.unique key t' t ht' ht⟩

/-! ### A write whose first flush was not confirmed -/

namespace UnconfirmedFlush

/-- The answers to the calls that do not concern the storage. -/
def plainAnswer : (c : Op B) → Option (Resp c)
  | .database => some (.ok ())
  | .acquire _ _ => some (.ok ⟨0, "db/lease.json", 0⟩)
  | .release _ _ | .ctxErr => some none
  | .lost _ => some false
  | .now => some 0
  | .expiresAt _ => some (30 * second)
  | .releaseDatabase | .abandon _ | .evict => some ()
  | _ => none

/-- The answers to all calls; storage calls are answered under a choice, and listings are
current. -/
def serve (st : Storage B) (c : Op B) (ch : Storage.Choice) : Option (Resp c × Storage B) :=
  match plainAnswer c with
  | some r => some (r, st)
  | none => if c.kind = .listing ∧ ch ≠ .ok then none else st.reply c ch

theorem serve_serves {st st' : Storage B} {c : Op B} {ch : Storage.Choice} {r : Resp c}
    (h : serve st c ch = some (r, st')) : st.Serves c r st' := by
  unfold serve at h
  split at h
  · next r' hplain =>
    cases h
    cases c <;> first | exact ⟨rfl, trivial⟩ | cases hplain
  split at h
  · cases h
  · next hlisting =>
    refine ⟨Storage.reply_answers h, ?_⟩
    cases c with
    | ltxFiles site level =>
      obtain rfl : ch = .ok := by simpa [Op.kind] using hlisting
      cases h
      intro f
      simp [mem_filter]
    | _ => trivial

/-- Serialized writes, run by choices for the storage calls of each attempt. -/
def interpreter (json : ManifestJson B) :
    Interpreter (writeSystem json) ℕ (List Storage.Choice) Empty where
  start st i rounds := some (withWrite .default i.2 "db" true rounds, st)
  call st _ c chs :=
    match c with
    | .attempt key =>
      match (withWriteAttempt json defaultConfig ⟨⟨"db"⟩, ""⟩ key).execute serve chs st with
      | some (st', .done res) => some (res, st')
      | _ => none
    | .identity => some (.ok (), st)
    | .ctxErr | .budgetErr => some (none, st)
    | .jitterDelay delay => some (delay, st)
    | .untilBudget => some (60 * second, st)
    | .wait _ => some (.timer, st)
    | .beforeBudget => some (true, st)
  env _ x := nomatch x
  start_sound := by
    intro st i rounds p st' h
    cases h
    exact ⟨rfl, _, _, _, _, rfl⟩
  call_sound := by
    intro st i c chs r st' h
    cases c with
    | attempt key =>
      simp only at h
      split at h
      · next hexec =>
        cases h
        exact ⟨_, _, Prog.execute_exec serve_serves hexec⟩
      · cases h
    | _ =>
      cases h
      rfl
  env_sound := nofun

/-- The first attempt commits and its flush lands without being confirmed; the second one finds
the key. -/
def script : List (Move (ℕ × String) ℕ (List Storage.Choice) Empty) :=
  [.start (0, "key") 2, .call (0, "key") [],
    .call (0, "key") (List.replicate 15 .ok ++
      .lost (.other "connection reset") 0 :: List.replicate 3 .ok)] ++
  List.replicate 6 (.call (0, "key") []) ++ [.call (0, "key") (List.replicate 11 .ok)]

/-- The pool after the write. -/
def pool := (interpreter ManifestJson.plain).exec (.initial ⟨[], none⟩) script

theorem pool_outcome :
    (pool.bind fun a => a.outcome (0, "key")) = some (some (.ok ⟨formatTXID 1, true⟩)) := by
  decide +kernel

/-- The write returns the TXID of the one transaction that recorded its key. -/
theorem recorded_once :
    ∃ a, pool = some a ∧ ∃ t, a.world.replica.Records "key" t ∧ formatTXID 1 = formatTXID t ∧
      ∀ t', a.world.replica.Records "key" t' → t' = t := by
  have hsome : pool.isSome := by decide +kernel
  obtain ⟨a, ha⟩ := isSome_iff_exists.mp hsome
  have hdone := pool_outcome
  rw [ha] at hdone
  obtain ⟨-, honce⟩ := withWrite_exactly_once ManifestJson.plain (.initial ⟨[], none⟩) 0
    empty_intact a ((interpreter ManifestJson.plain).exec_reachable ha)
  exact ⟨a, ha, honce 0 "key" _ (Pool.procs_of_outcome hdone)⟩

end UnconfirmedFlush

end Walrusd.Runtime
