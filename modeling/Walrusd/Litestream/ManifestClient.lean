import Walrusd.Litestream.Bucket
import Walrusd.Litestream.Manifest

/-!
# The manifest client and the replica's listing

A manifest client answers listings from its own copy of the file list, which it updates after every
successful write and deletion (`manifestClient` of `litestream/manifest.go`). The stored manifest is
taken from this copy. Here the copy is compared with the listing of the replica that the inner
client acts on, for every run of calls; a call of the inner client that fails changes nothing.

The copy is updated by `applyManifestDelta`, in which a file of a name that is already there stays
as it is: after a file was written again, its old metadata are listed.

## Main definitions

* `ClientCall`, with its effect on the client and on the replica.
* `InSync`.

## Main results

* `manifestClient_inSync_iff`.
-/

namespace Walrusd.Litestream

open List

/-- A call of the client together with the answer of the inner client. -/
inductive ClientCall
  | writeLTXFile (data : List UInt8) (answer : Except Err FileInfo)
  | deleteLTXFiles (files : List FileInfo) (answer : Option Err)
  | deleteAll (answer : Option Err)

namespace ClientCall

/-- The inner client failed. -/
def failed : ClientCall → Bool
  | .writeLTXFile _ (.error _) | .deleteLTXFiles _ (some _) | .deleteAll (some _) => true
  | _ => false

end ClientCall

/-- The client after a call. -/
def ManifestClient.after (c : ManifestClient) : ClientCall → ManifestClient
  | .writeLTXFile _ (.error _) => c
  | .writeLTXFile _ (.ok info) => c.recordWrite info
  | .deleteLTXFiles _ (some _) => c
  | .deleteLTXFiles files none => c.recordDelete files
  | .deleteAll (some _) => c
  | .deleteAll none => { c with files := [] }

/-- The replica after a call. -/
def Bucket.after (st : Bucket) : ClientCall → Bucket
  | .writeLTXFile _ (.error _) => st
  | .writeLTXFile data (.ok info) => st.write ⟨info, data⟩
  | .deleteLTXFiles _ (some _) => st
  | .deleteLTXFiles files none => st.delete files
  | .deleteAll (some _) => st
  | .deleteAll none => .empty

/-- The client lists the files of the replica, with their metadata, and so does it from every level
and TXID on. -/
structure InSync (c : ManifestClient) (st : Bucket) : Prop where
  files : c.files.Perm st.infos
  ltxFiles : ∀ level seek, (c.ltxFiles level seek).Perm (st.list level seek)

/-- A write that succeeds returns the metadata that the replica lists already, if the replica has a
file of that name. -/
def Consistent (st : Bucket) : ClientCall → Prop
  | .writeLTXFile _ (.ok info) => ∀ f ∈ st.infos, f.key = info.key → f = info
  | _ => True

section Steps

variable {c : ManifestClient} {st : Bucket}
variable {files : List FileInfo}

theorem inSync_iff : InSync c st ↔ c.files.Perm st.infos :=
  ⟨InSync.files, fun h => ⟨h, fun _ _ => h.filter _⟩⟩

theorem Bucket.mem_infos_write {b : Blob} {f : FileInfo} :
    f ∈ (st.write b).infos ↔ (f ∈ st.infos ∧ f.key ≠ b.info.key) ∨ f = b.info := by
  simp only [infos, mem_map, mem_blobs_write]
  constructor
  · rintro ⟨b', ⟨hb', hkey⟩ | rfl, rfl⟩
    · exact .inl ⟨⟨b', hb', rfl⟩, hkey⟩
    · exact .inr rfl
  rintro (⟨⟨b', hb', rfl⟩, hkey⟩ | rfl)
  · exact ⟨b', .inl ⟨hb', hkey⟩, rfl⟩
  · exact ⟨b, .inr rfl, rfl⟩

theorem Bucket.mem_infos_delete {f : FileInfo} :
    f ∈ (st.delete files).infos ↔ f ∈ st.infos ∧ ¬ HasKey files f.key := by
  simp only [infos, mem_map, mem_blobs_delete]
  constructor
  · rintro ⟨b, ⟨hb, hkept⟩, rfl⟩
    exact ⟨⟨b, hb, rfl⟩, hkept⟩
  · rintro ⟨⟨b, hb, rfl⟩, hkept⟩
    exact ⟨b, ⟨hb, hkept⟩, rfl⟩

/-- Lists that name their files once agree if they have the same files. -/
theorem perm_of_mem_iff {files' : List FileInfo} (h : (keys files).Nodup) (h' : (keys files').Nodup)
    (hmem : ∀ f, f ∈ files ↔ f ∈ files') : files.Perm files' :=
  (perm_ext_iff_of_nodup h.of_map h'.of_map).mpr fun {f} => hmem f

/-- After a write that succeeded, the client is in sync if and only if the file's name was new or
its metadata are as before. -/
theorem inSync_recordWrite_iff {info : FileInfo} {data : List UInt8} (h : InSync c st) :
    InSync (c.recordWrite info) (st.write ⟨info, data⟩) ↔
      ∀ f ∈ st.infos, f.key = info.key → f = info := by
  have hmem : ∀ f, f ∈ (c.recordWrite info).files ↔
      f ∈ st.infos ∨ f = info ∧ ¬ HasKey st.infos info.key := by
    intro f
    simp only [ManifestClient.recordWrite]
    rw [mem_applyManifestDelta (by simp [keys]), h.files.mem_iff, mem_singleton,
      hasKey_perm h.files]
    constructor
    · rintro (⟨hf, -⟩ | ⟨rfl, hnew⟩)
      · exact .inl hf
      · exact .inr ⟨rfl, fun hk => hnew ⟨hk, not_hasKey_nil⟩⟩
    rintro (hf | ⟨rfl, hnew⟩)
    · exact .inl ⟨hf, not_hasKey_nil⟩
    · exact .inr ⟨rfl, fun hk => hnew hk.1⟩
  constructor
  · intro hafter f hf hkey
    have hf' := hafter.files.mem_iff.mp ((hmem f).mpr (.inl hf))
    rcases Bucket.mem_infos_write.mp hf' with ⟨-, hne⟩ | hinfo
    · exact absurd hkey hne
    · exact hinfo
  · intro hsame
    have hnodup : (keys c.files).Nodup := (h.files.map FileInfo.key).nodup_iff.mpr st.nodup_infos
    refine inSync_iff.mpr (perm_of_mem_iff (nodup_keys_applyManifestDelta hnodup)
      (Bucket.nodup_infos) fun f => ?_)
    have hwrite := @Bucket.mem_infos_write st ⟨info, data⟩ f
    rw [hwrite]
    refine (hmem f).trans ⟨?_, ?_⟩
    · rintro (hf | ⟨rfl, -⟩)
      · by_cases hkey : f.key = info.key
        · exact .inr (hsame f hf hkey)
        · exact .inl ⟨hf, hkey⟩
      · exact .inr rfl
    · rintro (⟨hf, -⟩ | rfl)
      · exact .inl hf
      by_cases hk : HasKey st.infos f.key
      · obtain ⟨g, hg, hkey⟩ := hasKey_iff.mp hk
        exact .inl (hsame g hg hkey ▸ hg)
      · exact .inr ⟨rfl, hk⟩

theorem inSync_recordDelete (h : InSync c st) :
    InSync (c.recordDelete files) (st.delete files) := by
  have hnodup : (keys c.files).Nodup := (h.files.map FileInfo.key).nodup_iff.mpr st.nodup_infos
  refine inSync_iff.mpr (perm_of_mem_iff (nodup_keys_applyManifestDelta hnodup)
    Bucket.nodup_infos fun f => ?_)
  simp only [ManifestClient.recordDelete]
  rw [Bucket.mem_infos_delete, mem_applyManifestDelta (by simp [keys]), h.files.mem_iff]
  simp

theorem inSync_after_iff (h : InSync c st) (call : ClientCall) :
    InSync (c.after call) (st.after call) ↔ Consistent st call := by
  cases call with
  | writeLTXFile data answer =>
    cases answer with
    | error e => exact iff_of_true h trivial
    | ok info => exact inSync_recordWrite_iff h
  | deleteLTXFiles files answer =>
    cases answer with
    | some e => exact iff_of_true h trivial
    | none => exact iff_of_true (inSync_recordDelete h) trivial
  | deleteAll answer =>
    cases answer with
    | some e => exact iff_of_true h trivial
    | none => exact iff_of_true (inSync_iff.mpr (.refl _)) trivial

end Steps

/-- **The manifest client lists what the replica lists**, after every call of a run, if and only if
every write of a name that the replica has returns the metadata that it has. A call that fails
leaves the list as it is in any case. -/
theorem manifestClient_inSync_iff {c : ManifestClient} {st : Bucket} (h : InSync c st)
    (calls : List ClientCall) :
    ((∀ done, done <+: calls →
        InSync (done.foldl ManifestClient.after c) (done.foldl Bucket.after st)) ↔
      ∀ done call, done ++ [call] <+: calls → Consistent (done.foldl Bucket.after st) call) ∧
    ∀ done call, done ++ [call] <+: calls → call.failed = true →
      ((done ++ [call]).foldl ManifestClient.after c).files =
        (done.foldl ManifestClient.after c).files := by
  refine ⟨⟨fun hall done call hcalls => ?_, fun hall done => ?_⟩, fun done call _ hfailed => ?_⟩
  · have hbefore := hall done ((prefix_append _ _).trans hcalls)
    have hafter := hall _ hcalls
    rw [foldl_append, foldl_append] at hafter
    exact (inSync_after_iff hbefore call).mp hafter
  · induction done using List.reverseRecOn with
    | nil => exact fun _ => h
    | append_singleton done call ih =>
      intro hcalls
      have hbefore := ih ((prefix_append _ _).trans hcalls)
      rw [foldl_append, foldl_append]
      exact (inSync_after_iff hbefore call).mpr (hall done call hcalls)
  · rw [foldl_append]
    rcases call with ⟨data, e | info⟩ | ⟨files, _ | e⟩ | ⟨_ | e⟩
    all_goals first | rfl | cases hfailed

theorem manifestClient_inSync_append :
    InSync
      ([.writeLTXFile [8] (.ok ⟨0, 2, 2, 1, 20⟩), .deleteAll (some .canceled),
        .deleteLTXFiles [⟨0, 1, 1, 1, 10⟩] none].foldl ManifestClient.after
          (.new [⟨0, 1, 1, 1, 10⟩]))
      ([.writeLTXFile [8] (.ok ⟨0, 2, 2, 1, 20⟩), .deleteAll (some .canceled),
        .deleteLTXFiles [⟨0, 1, 1, 1, 10⟩] none].foldl Bucket.after
          ⟨[⟨⟨0, 1, 1, 1, 10⟩, [7]⟩], by decide⟩) := by
  have h : InSync (.new [⟨0, 1, 1, 1, 10⟩]) ⟨[⟨⟨0, 1, 1, 1, 10⟩, [7]⟩], by decide⟩ :=
    inSync_iff.mpr (.refl _)
  refine (manifestClient_inSync_iff h _).1.mpr ?_ _ (prefix_refl _)
  rintro (_ | ⟨a, _ | ⟨b, _ | ⟨d, done⟩⟩⟩) call ⟨rest, hcalls⟩
  · obtain ⟨rfl, -⟩ : call = .writeLTXFile [8] (.ok ⟨0, 2, 2, 1, 20⟩) ∧ _ := cons.inj hcalls
    simp only [Consistent]
    decide
  · obtain ⟨-, hcalls⟩ := cons.inj hcalls
    obtain ⟨rfl, -⟩ : call = .deleteAll (some .canceled) ∧ _ := cons.inj hcalls
    trivial
  · obtain ⟨-, hcalls⟩ := cons.inj hcalls
    obtain ⟨-, hcalls⟩ := cons.inj hcalls
    obtain ⟨rfl, -⟩ : call = .deleteLTXFiles [⟨0, 1, 1, 1, 10⟩] none ∧ _ := cons.inj hcalls
    trivial
  · simp at hcalls

/-- A retried flush writes the same TXID again: the replica has the new size and time, the client
lists the old ones. -/
theorem rewrite_keeps_metadata :
    InSync (.new [⟨0, 1, 1, 1, 10⟩]) ⟨[⟨⟨0, 1, 1, 1, 10⟩, [7]⟩], by decide⟩ ∧
      ((ManifestClient.new [⟨0, 1, 1, 1, 10⟩]).after
        (.writeLTXFile [8, 9] (.ok ⟨0, 1, 1, 2, 20⟩))).files = [⟨0, 1, 1, 1, 10⟩] ∧
      (Bucket.after ⟨[⟨⟨0, 1, 1, 1, 10⟩, [7]⟩], by decide⟩
        (.writeLTXFile [8, 9] (.ok ⟨0, 1, 1, 2, 20⟩))).infos = [⟨0, 1, 1, 2, 20⟩] :=
  ⟨inSync_iff.mpr (.refl _), by decide, by decide⟩

end Walrusd.Litestream
