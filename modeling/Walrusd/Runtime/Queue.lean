import Mathlib
import Walrusd.Lifecycle.Registry
import Walrusd.Program.Script
import Walrusd.Runtime.Compaction

/-!
# The compaction queue

A write whose manifest needs compaction sets the marker of its database and sends a job to a bounded
queue, or clears the marker again if the queue is full. Workers receive the jobs and run one pass
each, which clears the marker at its end, however it went. The marker is a token: it belongs to the
enqueue that has set it, to the job in the queue, or to the pass that runs.

The markers, the queue and the errands of the goroutines are the world in which the programs
`enqueueCompaction` and `runCompaction` run. All other calls are answered arbitrarily. A worker of
the source runs its passes one after the other; here any number of passes may run at a time.

## Main definitions

* `CompactionJob`, `CompactionQueue`.
* `queueSystem` — the enqueues and passes of one process.
* `Pass` — what is queued or running.

## Main results

* `one_pass_per_database`.
-/

namespace Walrusd.Runtime

open Program Litestream Function List

/-! ### Jobs and markers -/

/-- `compactionJob`. -/
structure CompactionJob where
  id : DatabaseID
  profile : Lifecycle.Profile
  key : String
  deriving DecidableEq, Repr

namespace CompactionJob

/-- The job of a write to a database: its key is the one of the registered entry. -/
def new (id : DatabaseID) (profile : Lifecycle.Profile) : CompactionJob :=
  ⟨id, profile, Lifecycle.databaseKey id profile⟩

/-- The descriptor that a pass works on. -/
def descriptor (job : CompactionJob) : Descriptor := ⟨job.id, job.profile.rootPrefix⟩

/-- The key of the marker that the pass of a job clears. -/
def pendingKey (job : CompactionJob) : String := if job.key = "" then job.id.string else job.key

theorem key_new_ne (id : DatabaseID) (profile : Lifecycle.Profile) : (new id profile).key ≠ "" := by
  intro h
  have hlist := congrArg String.toList h
  simp [new, Lifecycle.databaseKey] at hlist

theorem pendingKey_of_ne {job : CompactionJob} (h : job.key ≠ "") : job.pendingKey = job.key :=
  if_neg h

end CompactionJob

/-- What a goroutine does: enqueue a job, or run the pass of one. -/
inductive Errand
  | enqueue (job : CompactionJob)
  | pass (job : CompactionJob)
  deriving DecidableEq, Repr

/-- The job of an errand. -/
def Errand.job : Errand → CompactionJob
  | .enqueue job | .pass job => job

/-- The key of the marker that an errand clears. -/
def Errand.clears : Errand → String
  | .enqueue job => job.key
  | .pass job => job.pendingKey

/-- The capacity of the queue. -/
def queueCapacity : ℕ := 256

/-- `compactPending` and `compactCh`, and what each goroutine does. -/
structure CompactionQueue (ι : Type) where
  pending : Finset String
  jobs : List CompactionJob
  errand : ι → Option Errand

/-- The queue of a new runtime. -/
def CompactionQueue.new (ι : Type) : CompactionQueue ι := ⟨∅, [], fun _ => none⟩

section System

variable {B ι : Type}

/-- The answer to a call of a goroutine with the given errand. -/
def CompactionQueue.Answers (w : CompactionQueue ι) (e : Errand) :
    (c : Op B) → Resp c → CompactionQueue ι → Prop
  | .loadOrStorePending, loaded, w' => loaded = decide (e.job.key ∈ w.pending) ∧
      w' = { w with pending := insert e.job.key w.pending }
  | .sendJob, sent, w' => sent = decide (w.jobs.length < queueCapacity) ∧
      w' = { w with jobs := if sent then w.jobs ++ [e.job] else w.jobs }
  | .deletePending, _, w' => w' = { w with pending := w.pending.erase e.clears }
  | _, _, w' => w' = w

variable [DecidableEq ι] (json : ManifestJson B) (cfg : Config)

/-- A goroutine starts to enqueue a job for any database and any manifest, or receives the first job
of the queue and starts its pass. -/
inductive Sets (w : CompactionQueue ι) (i : ι) : RuntimeM B Unit → CompactionQueue ι → Prop
  | enqueue (id : DatabaseID) (profile : Lifecycle.Profile) (files : List FileInfo) :
      Sets w i (enqueueCompaction cfg files)
        { w with errand := update w.errand i (some (.enqueue (.new id profile))) }
  | receive {job : CompactionJob} {rest : List CompactionJob} (h : w.jobs = job :: rest) :
      Sets w i (runCompaction json cfg job.descriptor)
        { w with jobs := rest, errand := update w.errand i (some (.pass job)) }

/-- The enqueues and passes of one process. -/
def queueSystem : System (CompactionQueue ι) ι (Op B) Resp Unit where
  start w i p w' := Sets json cfg w i p w'
  call w i c r w' := ∃ e, w.errand i = some e ∧ w.Answers e c r w'
  env _ _ := False

end System

/-! ### The stages of an errand -/

/-- How far an errand is: before its first call, with its marker set, refused by the queue, in its
pass, or done with the queue. -/
inductive Stage
  | fresh
  | marked
  | refused
  | passing
  | ended
  deriving DecidableEq, Repr

namespace Stage

variable {B : Type}

/-- Whether the marker belongs to the errand. -/
def holds : Stage → Bool
  | .marked | .refused | .passing => true
  | _ => false

/-- The stage after an answer. -/
def step (s : Stage) : (c : Op B) → Resp c → Stage
  | .loadOrStorePending, loaded => if loaded then .ended else .marked
  | .sendJob, sent => if sent then .ended else .refused
  | .deletePending, _ => .ended
  | _, _ => s

/-- The calls that may be made at a stage. -/
def Allows : Stage → Op B → Prop
  | .fresh, c => c = .loadOrStorePending
  | .marked, c => c = .sendJob
  | .refused, c => c = .deletePending
  | .passing, c => c ≠ .loadOrStorePending ∧ c ≠ .sendJob
  | .ended, _ => False

/-- The errand of a goroutine at a stage, if it has one. -/
def Fits : Stage → Option Errand → Prop
  | .fresh, e => ∀ e', e = some e' → ∃ job, e' = .enqueue job
  | .marked, e | .refused, e => ∃ job, e = some (.enqueue job)
  | .passing, e => ∃ job, e = some (.pass job)
  | .ended, _ => True

end Stage

section Programs

variable {B : Type}

/-- The protocol of an errand. -/
def errands : Protocol (Op B) Resp Stage where
  allow := Stage.Allows
  next s c r s' := s' = s.step c r

/-- An errand returns without its marker. -/
def Returned (s : Stage) (_ : Unit) : Prop := s.holds = false

theorem enqueueCompaction_errand (cfg : Config) (files : List FileInfo) :
    (enqueueCompaction cfg files : RuntimeM B _).Obeys errands Returned .fresh := by
  unfold enqueueCompaction
  split
  · rfl
  split
  · rfl
  refine .perform rfl ?_
  rintro (_ | _) _ rfl
  · refine .perform rfl ?_
    rintro (_ | _) _ rfl
    · refine Prog.obeys_perform.mpr ⟨rfl, ?_⟩
      rintro _ _ rfl
      rfl
    · rfl
  · rfl

theorem runCompaction_errand (json : ManifestJson B) (cfg : Config) (d : Descriptor) :
    (runCompaction json cfg d).Obeys errands Returned .passing := by
  have hend : (ask .deletePending : RuntimeM B Unit).Obeys errands Returned .passing := by
    refine Prog.obeys_perform.mpr ⟨⟨nofun, nofun⟩, ?_⟩
    rintro _ _ rfl
    rfl
  refine .perform ⟨nofun, nofun⟩ ?_
  rintro (e | _) _ rfl
  · exact hend
  refine (compactDatabase_only json cfg d).bind_obeys (fun c hc => ⟨?_, ?_⟩) fun _ => ?_
  · refine ⟨?_, ?_⟩ <;> rintro rfl <;> cases hc
  · rintro r _ rfl
    cases c <;> first | rfl | cases hc
  refine .perform ⟨nofun, nofun⟩ ?_
  rintro _ _ rfl
  exact hend

end Programs

/-! ### Tokens -/

section Tokens

variable {K O : Type}

/-- Every pending token has exactly one owner, and a token that is not pending has none. -/
def Owned (pending : Finset K) (owners : K → Set O) : Prop :=
  ∀ k, (owners k).Subsingleton ∧ (k ∈ pending ↔ (owners k).Nonempty)

variable {pending : Finset K} {owners : K → Set O} {k : K}

theorem Owned.not_mem (h : Owned pending owners) (hk : k ∉ pending) (o : O) : o ∉ owners k :=
  fun ho => hk ((h k).2.mpr ⟨o, ho⟩)

theorem Owned.mem_pending (h : Owned pending owners) {o : O} (ho : o ∈ owners k) : k ∈ pending :=
  (h k).2.mpr ⟨o, ho⟩

theorem Owned.eq (h : Owned pending owners) {o o' : O} (ho : o ∈ owners k) (ho' : o' ∈ owners k) :
    o = o' := (h k).1 ho ho'

variable [DecidableEq K]

theorem Owned.take (h : Owned pending owners) (k : K) (o : O) :
    Owned (insert k pending) (update owners k {o}) := by
  intro k'
  by_cases hk : k' = k
  · subst hk
    simp
  rw [update_of_ne hk, Finset.mem_insert]
  exact ⟨(h k').1, ⟨fun hmem => (h k').2.mp (hmem.resolve_left hk), fun hne =>
    .inr ((h k').2.mpr hne)⟩⟩

theorem Owned.move (h : Owned pending owners) (hk : k ∈ pending) (o : O) :
    Owned pending (update owners k {o}) := by
  have htake := h.take k o
  rwa [Finset.insert_eq_of_mem hk] at htake

theorem Owned.drop (h : Owned pending owners) (k : K) :
    Owned (pending.erase k) (update owners k ∅) := by
  intro k'
  by_cases hk : k' = k
  · subst hk
    simp
  · rw [update_of_ne hk, Finset.mem_erase]
    exact ⟨(h k').1, ⟨fun hmem => (h k').2.mp hmem.2, fun hne => ⟨hk, (h k').2.mpr hne⟩⟩⟩

end Tokens

/-! ### The invariant -/

section Invariant

variable {B ι : Type} (w : CompactionQueue ι) (g : ι → Stage)

/-- The owners of the marker of a database: the queue, or a goroutine. -/
def owners (k : String) : Set (Option ι) :=
  {o | match o with
    | none => ∃ job ∈ w.jobs, job.key = k
    | some i => (g i).holds = true ∧ ∃ e, w.errand i = some e ∧ e.job.key = k}

/-- The marker of each database is owned, no two jobs of the queue have the same key, and the
goroutines are at stages that fit their errands. -/
structure Tidy : Prop where
  owned : Owned w.pending (owners w g)
  nodup : (w.jobs.map CompactionJob.key).Nodup
  queued : ∀ job ∈ w.jobs, job.key ≠ ""
  keyed : ∀ i e, w.errand i = some e → e.job.key ≠ ""
  fits : ∀ i, (g i).Fits (w.errand i)

variable {w g}
variable {i : ι} {w' : CompactionQueue ι} {s : Stage} {e : Errand}

@[simp] theorem none_mem_owners {k : String} :
    none ∈ owners w g k ↔ ∃ job ∈ w.jobs, job.key = k := Iff.rfl

@[simp] theorem some_mem_owners {k : String} :
    some i ∈ owners w g k ↔ (g i).holds = true ∧ ∃ e, w.errand i = some e ∧ e.job.key = k := Iff.rfl

theorem tidy_new : Tidy (.new ι) fun _ => .fresh where
  owned k := by
    have hnone : owners (.new ι) (fun _ => .fresh) k = ∅ := by
      ext (_ | i) <;> simp [CompactionQueue.new, Stage.holds]
    rw [hnone]
    simp [CompactionQueue.new]
  nodup := nodup_nil
  queued := nofun
  keyed := nofun
  fits := nofun

variable [DecidableEq ι]

/-- A step of the goroutine `i`, whose errand has the key `k`, changes the owners of `k` only. -/
theorem owned_update {k : String} {X : Set (Option ι)}
    (howned : Owned w'.pending (update (owners w g) k X)) (hothers : ∀ j ≠ i, some j ∉ owners w g k)
    (hbefore : (g i).holds = true → ∀ e, w.errand i = some e → e.job.key = k)
    (herrand : ∀ j ≠ i, w'.errand j = w.errand j)
    (hafter : ∃ e, w'.errand i = some e ∧ e.job.key = k)
    (hjobs : ∀ k' ≠ k, (∃ job ∈ w'.jobs, job.key = k') ↔ ∃ job ∈ w.jobs, job.key = k')
    (hnone : none ∈ X ↔ ∃ job ∈ w'.jobs, job.key = k) (hsome : some i ∈ X ↔ s.holds = true)
    (hX : ∀ j ≠ i, some j ∉ X) : Owned w'.pending (owners w' (update g i s)) := by
  obtain ⟨e', he', hk'⟩ := hafter
  convert howned using 1
  funext k'
  by_cases hk : k' = k
  · subst hk
    rw [update_self]
    ext (_ | j)
    · rw [none_mem_owners, hnone]
    by_cases hj : j = i
    · subst hj
      rw [some_mem_owners, update_self, hsome]
      exact ⟨And.left, fun hs => ⟨hs, e', he', hk'⟩⟩
    · rw [some_mem_owners, update_of_ne hj, herrand j hj, ← some_mem_owners]
      exact ⟨fun h => absurd h (hothers j hj), fun h => absurd h (hX j hj)⟩
  · rw [update_of_ne hk]
    ext (_ | j)
    · rw [none_mem_owners, none_mem_owners]
      exact hjobs k' hk
    by_cases hj : j = i
    · subst hj
      simp only [some_mem_owners]
      constructor
      · rintro ⟨-, e, he, rfl⟩
        rw [he'] at he
        cases he
        exact absurd hk' hk
      · rintro ⟨hholds, e, he, rfl⟩
        exact absurd (hbefore hholds e he) hk
    · rw [some_mem_owners, some_mem_owners, update_of_ne hj, herrand j hj]

theorem Tidy.of_step (h : Tidy w g) (howned : Owned w'.pending (owners w' (update g i s)))
    (hnodup : (w'.jobs.map CompactionJob.key).Nodup) (hqueued : ∀ job ∈ w'.jobs, job.key ≠ "")
    (herrand : w'.errand = w.errand) (hfits : s.Fits (w.errand i)) :
    Tidy w' (update g i s) where
  owned := howned
  nodup := hnodup
  queued := hqueued
  keyed := herrand ▸ h.keyed
  fits := by
    rw [herrand]
    exact (forall_update_iff g fun j s => s.Fits (w.errand j)).mpr ⟨hfits, fun j _ => h.fits j⟩

theorem Tidy.restage (h : Tidy w g) (hholds : s.holds = (g i).holds) (hfits : s.Fits (w.errand i)) :
    Tidy w (update g i s) := by
  refine h.of_step ?_ h.nodup h.queued rfl hfits
  convert h.owned using 1
  funext k
  ext (_ | j)
  · rfl
  by_cases hj : j = i
  · subst hj
    rw [some_mem_owners, some_mem_owners, update_self, hholds]
  · rw [some_mem_owners, some_mem_owners, update_of_ne hj]

section

variable (h : Tidy w g) (he : w.errand i = some e)
include h he

theorem Tidy.loadOrStore (hi : g i = .fresh) (hk : e.job.key ∉ w.pending) :
    Tidy { w with pending := insert e.job.key w.pending } (update g i .marked) := by
  refine h.of_step ?_ h.nodup h.queued rfl ?_
  · refine owned_update (h.owned.take e.job.key (some i)) (fun j _ => h.owned.not_mem hk _)
      (fun hholds => by rw [hi] at hholds; cases hholds) (fun _ _ => rfl) ⟨e, he, rfl⟩
      (fun _ _ => Iff.rfl) ⟨by simp, fun hmem => absurd hmem ?_⟩ (by simp [Stage.holds]) (by simp)
    exact h.owned.not_mem hk none
  · have hfits := h.fits i
    rw [hi] at hfits
    obtain ⟨job, rfl⟩ := hfits e he
    exact ⟨job, he⟩

theorem Tidy.send (hi : g i = .marked) :
    Tidy { w with jobs := w.jobs ++ [e.job] } (update g i .ended) := by
  have hown : some i ∈ owners w g e.job.key := ⟨by rw [hi]; rfl, e, he, rfl⟩
  have hnone : none ∉ owners w g e.job.key := fun hnone => by cases h.owned.eq hnone hown
  refine h.of_step ?_ ?_ ?_ rfl trivial
  · refine owned_update (h.owned.move (h.owned.mem_pending hown) none)
      (fun j hj hmem => hj (Option.some.inj (h.owned.eq hmem hown)))
      (fun _ e' he' => by rw [he] at he'; cases he'; rfl) (fun _ _ => rfl) ⟨e, he, rfl⟩
      (fun k hk => ?_) (by simp) (by simp [Stage.holds]) (by simp)
    simp [Ne.symm hk]
  · rw [map_append, nodup_append]
    refine ⟨h.nodup, by simp, ?_⟩
    rintro _ hk _ hk' rfl
    obtain ⟨job, hjob, hkey⟩ := mem_map.mp hk
    exact hnone ⟨job, hjob, hkey.trans (by simpa using hk')⟩
  · intro job hjob
    rcases mem_append.mp hjob with hjob | hjob
    · exact h.queued job hjob
    · rw [mem_singleton.mp hjob]
      exact h.keyed i e he

theorem Tidy.delete (hi : (g i).holds = true) :
    Tidy { w with pending := w.pending.erase e.clears } (update g i .ended) := by
  have hclears : e.clears = e.job.key := by
    cases e with
    | enqueue job => rfl
    | pass job => exact CompactionJob.pendingKey_of_ne (h.keyed i _ he)
  have hown : some i ∈ owners w g e.job.key := ⟨hi, e, he, rfl⟩
  refine h.of_step ?_ h.nodup h.queued rfl trivial
  rw [hclears]
  refine owned_update (h.owned.drop e.job.key)
    (fun j hj hmem => hj (Option.some.inj (h.owned.eq hmem hown)))
    (fun _ e' he' => by rw [he] at he'; cases he'; rfl) (fun _ _ => rfl) ⟨e, he, rfl⟩
    (fun _ _ => Iff.rfl) ⟨by simp, fun hmem => ?_⟩ (by simp [Stage.holds]) (by simp)
  have hnone : none ∈ owners w g e.job.key := hmem
  cases h.owned.eq hnone hown

theorem Tidy.call {c : Op B} {r : Resp c} (hallow : (g i).Allows c) (hans : w.Answers e c r w') :
    Tidy w' (update g i ((g i).step c r)) := by
  have hkeep : ∀ {w''}, w'' = w → Tidy w'' (update g i (g i)) := by
    rintro _ rfl
    rw [update_eq_self]
    exact h
  cases c with
  | loadOrStorePending =>
    obtain ⟨rfl, rfl⟩ := hans
    have hi : g i = .fresh := by
      cases hi : g i <;> rw [hi] at hallow <;>
        first | rfl | exact absurd rfl hallow.1 | cases hallow
    by_cases hk : e.job.key ∈ w.pending
    · rw [Finset.insert_eq_of_mem hk, decide_eq_true hk]
      exact h.restage (by rw [hi]; rfl) trivial
    · rw [decide_eq_false hk]
      exact h.loadOrStore he hi hk
  | sendJob =>
    obtain ⟨rfl, rfl⟩ := hans
    have hi : g i = .marked := by
      cases hi : g i <;> rw [hi] at hallow <;>
        first | rfl | exact absurd rfl hallow.2 | cases hallow
    by_cases hlen : w.jobs.length < queueCapacity
    · simp only [decide_eq_true hlen, if_true]
      exact h.send he hi
    simp only [decide_eq_false hlen, Bool.false_eq_true, if_false]
    refine h.restage (by rw [hi]; rfl) ?_
    have hfits := h.fits i
    rwa [hi] at hfits
  | deletePending =>
    obtain rfl := hans
    refine h.delete he ?_
    cases hi : g i <;> rw [hi] at hallow <;> first | rfl | cases hallow
  | _ => exact hkeep hans

end

theorem Tidy.of_start (h : Tidy w g) (howned : Owned w'.pending (owners w' (update g i s)))
    (hjobs : w'.jobs <:+ w.jobs) (herrand : w'.errand = update w.errand i (some e))
    (hkey : e.job.key ≠ "") (hfits : s.Fits (some e)) : Tidy w' (update g i s) where
  owned := howned
  nodup := (hjobs.map _).sublist.nodup h.nodup
  queued job hjob := h.queued job (hjobs.subset hjob)
  keyed j e' he' := by
    rw [herrand] at he'
    by_cases hj : j = i
    · subst hj
      rw [update_self] at he'
      cases he'
      exact hkey
    · rw [update_of_ne hj] at he'
      exact h.keyed j e' he'
  fits j := by
    rw [herrand]
    by_cases hj : j = i
    · subst hj
      rw [update_self, update_self]
      exact hfits
    · rw [update_of_ne hj, update_of_ne hj]
      exact h.fits j

theorem Tidy.start (h : Tidy w g) {json : ManifestJson B} {cfg : Config} {p : RuntimeM B Unit}
    (hi : g i = .fresh) (hsets : Sets json cfg w i p w') :
    ∃ s, p.Obeys errands Returned s ∧ Tidy w' (update g i s) := by
  have hidle : (g i).holds = false := by rw [hi]; rfl
  cases hsets with
  | enqueue id profile files =>
    refine ⟨.fresh, enqueueCompaction_errand cfg files, ?_⟩
    refine h.of_start (e := .enqueue (.new id profile)) ?_ suffix_rfl rfl
      (CompactionJob.key_new_ne id profile) ?_
    · convert h.owned using 1
      funext k
      ext (_ | j)
      · rfl
      by_cases hj : j = i
      · subst hj
        rw [some_mem_owners, some_mem_owners, update_self, hidle]
        simp [Stage.holds]
      · simp [update_of_ne hj]
    · rintro _ ⟨⟩
      exact ⟨_, rfl⟩
  | @receive job rest hjobs =>
    refine ⟨.passing, runCompaction_errand json cfg job.descriptor, ?_⟩
    have hown : none ∈ owners w g job.key := ⟨job, by simp [hjobs], rfl⟩
    have hrest : ¬∃ job' ∈ rest, job'.key = job.key := by
      have hnodup := h.nodup
      rw [hjobs, map_cons, nodup_cons, mem_map] at hnodup
      exact hnodup.1
    refine h.of_start (e := .pass job) ?_ ?_ rfl (h.queued job (by simp [hjobs])) ⟨job, rfl⟩
    · refine owned_update (h.owned.move (h.owned.mem_pending hown) (some i))
        (fun j _ hmem => by cases h.owned.eq hmem hown)
        (fun hholds => by rw [hidle] at hholds; cases hholds)
        (fun j hj => update_of_ne hj _ _) ⟨_, update_self .., rfl⟩
        (fun k hk => ?_) ?_ (by simp [Stage.holds]) (by simp)
      · simp [hjobs, Ne.symm hk]
      · exact ⟨by simp, fun hmem => absurd hmem hrest⟩
    · rw [hjobs]
      exact suffix_cons job rest

/-- **The markers are owned in every run.** -/
theorem tidy_of_reachable {json : ManifestJson B} {cfg : Config}
    {a : Pool (CompactionQueue ι) ι (Op B) Resp Unit}
    (h : (queueSystem json cfg).Reachable (.new ι) a) :
    ∃ g, Tidy a.world g ∧ (∀ i p, a.procs i = some p → p.Obeys errands Returned (g i)) ∧
      ∀ i, a.procs i = none → g i = .fresh := by
  refine h.invariant_knowing errands (fun _ => Returned) Tidy (K := fun _ => True)
    (fun _ => .fresh) (fun _ _ => trivial) tidy_new ?_ ?_ ?_
  · intro w g i p w' _ hinv hi hstart
    exact hinv.start hi hstart
  · rintro w g i c r w' _ hinv hallow ⟨e, he, hans⟩
    exact ⟨_, rfl, hinv.call he hallow hans⟩
  · rintro w g w' _ hinv ⟨⟩

end Invariant

/-! ### One pass per database -/

section Passes

variable {B ι : Type} (a : Pool (CompactionQueue ι) ι (Op B) Resp Unit)

/-- A goroutine is about its errand. -/
def Busy (i : ι) (e : Errand) : Prop :=
  a.world.errand i = some e ∧ ∃ c f, a.procs i = some (.call c f)

/-- The passes for a key: the places of the queue that hold a job for it, and the goroutines that
run one. -/
inductive Pass (k : String) : ℕ ⊕ ι → Prop
  | queued {n : ℕ} {job : CompactionJob} (h : a.world.jobs[n]? = some job) (hk : job.key = k) :
      Pass k (.inl n)
  | running {i : ι} {job : CompactionJob} (h : Busy a i (.pass job)) (hk : job.key = k) :
      Pass k (.inr i)

variable {a} {g : ι → Stage} {k : String}
variable {i : ι} {job : CompactionJob} {p : RuntimeM B Unit}

/-- A goroutine in a pass has the marker. -/
theorem some_mem_owners_of_busy (htidy : Tidy a.world g)
    (hobeys : ∀ i p, a.procs i = some p → p.Obeys errands Returned (g i))
    (h : Busy a i (.pass job)) : some i ∈ owners a.world g job.key := by
  obtain ⟨herrand, c, f, hi⟩ := h
  have hallow : (g i).Allows c := (hobeys i _ hi).1
  have hfits := htidy.fits i
  rw [herrand] at hfits
  refine ⟨?_, _, herrand, rfl⟩
  cases hstage : g i with
  | fresh =>
    rw [hstage] at hfits
    obtain ⟨_, ⟨⟩⟩ := hfits _ rfl
  | marked | refused | passing => rfl
  | ended =>
    rw [hstage] at hallow
    exact absurd hallow id

/-- A goroutine that has the marker is about an errand. -/
theorem exists_busy (hobeys : ∀ i p, a.procs i = some p → p.Obeys errands Returned (g i))
    (hidle : ∀ i, a.procs i = none → g i = .fresh) (h : some i ∈ owners a.world g k) :
    ∃ e, Busy a i e ∧ e.job.key = k := by
  obtain ⟨hholds, e, herrand, hk⟩ := h
  refine ⟨e, ⟨herrand, ?_⟩, hk⟩
  cases hi : a.procs i with
  | none =>
    rw [hidle i hi] at hholds
    cases hholds
  | some p =>
    have hp := hobeys i p hi
    cases p with
    | done x =>
      have hreturned : (g i).holds = false := hp
      rw [hreturned] at hholds
      cases hholds
    | call c f => exact ⟨c, f, rfl⟩

section

variable (htidy : Tidy a.world g)
  (hobeys : ∀ i p, a.procs i = some p → p.Obeys errands Returned (g i))
include htidy hobeys

theorem pass_subsingleton : {x | Pass a k x}.Subsingleton := by
  have hqueue {n : ℕ} {job : CompactionJob} (h : a.world.jobs[n]? = some job) :
      none ∈ owners a.world g job.key := ⟨job, mem_of_getElem? h, rfl⟩
  rintro _ (@⟨n, job, hn, rfl⟩ | @⟨i, job, hi, rfl⟩) _ (@⟨m, job', hm, hk⟩ | @⟨j, job', hj, hk⟩)
  · obtain ⟨hlt, -⟩ := List.getElem?_eq_some_iff.mp hn
    have hsame : (a.world.jobs.map CompactionJob.key)[n]? =
        (a.world.jobs.map CompactionJob.key)[m]? := by
      rw [getElem?_map, getElem?_map, hn, hm, Option.map_some, Option.map_some, hk]
    exact congrArg Sum.inl ((getElem?_inj (by simpa using hlt) htidy.nodup).mp hsame)
  · have hrunning := some_mem_owners_of_busy htidy hobeys hj
    rw [hk] at hrunning
    cases htidy.owned.eq (hqueue hn) hrunning
  · have hqueued := hqueue hm
    rw [hk] at hqueued
    cases htidy.owned.eq hqueued (some_mem_owners_of_busy htidy hobeys hi)
  · have hrunning := some_mem_owners_of_busy htidy hobeys hj
    rw [hk] at hrunning
    have heq := htidy.owned.eq (some_mem_owners_of_busy htidy hobeys hi) hrunning
    exact congrArg Sum.inr (Option.some.inj heq)

/-- A pending marker belongs to an enqueue in progress, or to a pass that is queued or running. -/
theorem enqueue_or_pass (hidle : ∀ i, a.procs i = none → g i = .fresh) (hk : k ∈ a.world.pending) :
    (∃ i job, Busy a i (.enqueue job) ∧ job.key = k) ∨ ∃ x, Pass a k x := by
  obtain ⟨_ | i, hown⟩ := (htidy.owned k).2.mp hk
  · obtain ⟨job, hjob, hkey⟩ := hown
    obtain ⟨n, hn⟩ := getElem?_of_mem hjob
    exact .inr ⟨_, .queued hn hkey⟩
  obtain ⟨e, hbusy, hkey⟩ := exists_busy hobeys hidle hown
  cases e with
  | enqueue job => exact .inl ⟨i, job, hbusy, hkey⟩
  | pass job => exact .inr ⟨_, .running hbusy hkey⟩

end

/-! ### Markers are cleared -/

variable [DecidableEq ι] {json : ManifestJson B} {cfg : Config}

/-- The marker of a key can still be cleared. -/
def Clears (json : ManifestJson B) (cfg : Config)
    (a : Pool (CompactionQueue ι) ι (Op B) Resp Unit) (k : String) : Prop :=
  ∃ b, Relation.ReflTransGen (queueSystem json cfg).Step a b ∧ k ∉ b.world.pending

theorem Clears.of_step {b : Pool (CompactionQueue ι) ι (Op B) Resp Unit}
    (hs : (queueSystem json cfg).Step a b) (h : Clears json cfg b k) : Clears json cfg a k := by
  obtain ⟨c, hbc, hk⟩ := h
  exact ⟨c, .head hs hbc, hk⟩

theorem clears_of_delete {e : Errand} {f : Resp (.deletePending : Op B) → RuntimeM B Unit}
    (hi : a.procs i = some (.call .deletePending f)) (herrand : a.world.errand i = some e) :
    Clears json cfg a e.clears := by
  obtain ⟨w, procs⟩ := a
  refine ⟨_, .single (.call (r := ()) hi ⟨e, herrand, rfl⟩), ?_⟩
  exact Finset.notMem_erase _ _

theorem clears_of_pass (hi : a.procs i = some p) (herrand : a.world.errand i = some (.pass job))
    (hp : p.Obeys errands Returned .passing) : Clears json cfg a job.pendingKey := by
  induction p generalizing a with
  | done x => cases hp
  | call c f ih =>
    by_cases hc : c = .deletePending
    · subst hc
      exact clears_of_delete hi herrand
    obtain ⟨w, procs⟩ := a
    have hans : w.Answers (.pass job) c c.uneventful w := by
      cases c <;> first | rfl | exact absurd rfl hc | exact absurd rfl hp.1.1 |
        exact absurd rfl hp.1.2
    have hstage : Stage.passing.step c c.uneventful = .passing := by
      cases c <;> first | rfl | exact absurd rfl hc | exact absurd rfl hp.1.1 |
        exact absurd rfl hp.1.2
    refine Clears.of_step (.call hi ⟨_, herrand, hans⟩) (ih c.uneventful ?_ herrand ?_)
    · exact update_self ..
    · exact hp.2 _ _ hstage.symm

theorem finite_started (h : (queueSystem json cfg).Reachable (.new ι) a) :
    {i | a.procs i ≠ none}.Finite := by
  have hupdate {procs : ι → Option (RuntimeM B Unit)} {i : ι} {p : RuntimeM B Unit}
      (h : {j | procs j ≠ none}.Finite) :   {j | update procs i (some p) j ≠ none}.Finite := by
    refine (h.insert i).subset fun j hj => ?_
    by_cases hji : j = i
    · exact .inl hji
    · exact .inr (by simpa [update_of_ne hji] using hj)
  induction h with
  | init => simp
  | step _ hs ih =>
    cases hs with
    | start _ _ => exact hupdate ih
    | call _ _ => exact hupdate ih
    | env h => exact absurd h id

/-- The jobs before it are received first, and then the job itself. -/
theorem clears_of_queued [Infinite ι] {pre post : List CompactionJob} (hkey : job.key ≠ "")
    (h : (queueSystem json cfg).Reachable (.new ι) a) (hjobs : a.world.jobs = pre ++ job :: post) :
    Clears json cfg a job.key := by
  induction pre generalizing a with
  | nil =>
    obtain ⟨i, hi⟩ := (finite_started h).exists_notMem
    obtain ⟨w, procs⟩ := a
    refine .of_step (.start (by simpa using hi) (.receive hjobs)) ?_
    rw [← CompactionJob.pendingKey_of_ne hkey]
    exact clears_of_pass (update_self ..) (update_self ..)
      (runCompaction_errand json cfg job.descriptor)
  | cons first pre ih =>
    obtain ⟨i, hi⟩ := (finite_started h).exists_notMem
    obtain ⟨w, procs⟩ := a
    have hstep := System.Step.start (S := queueSystem json cfg) (by simpa using hi) (.receive hjobs)
    exact .of_step hstep (ih (h.step hstep) rfl)

theorem clears_of_refused (hi : a.procs i = some p)
    (herrand : a.world.errand i = some (.enqueue job)) (hp : p.Obeys errands Returned .refused) :
    Clears json cfg a job.key := by
  cases p with
  | done x => cases hp
  | call c f =>
    obtain rfl : c = .deletePending := hp.1
    exact clears_of_delete hi herrand

theorem clears_of_marked [Infinite ι] (hkey : job.key ≠ "")
    (h : (queueSystem json cfg).Reachable (.new ι) a) (hi : a.procs i = some p)
    (herrand : a.world.errand i = some (.enqueue job)) (hp : p.Obeys errands Returned .marked) :
    Clears json cfg a job.key := by
  cases p with
  | done x => cases hp
  | call c f =>
    obtain rfl : c = .sendJob := hp.1
    obtain ⟨w, procs⟩ := a
    have hstep := System.Step.call (S := queueSystem json cfg) hi ⟨_, herrand, rfl, rfl⟩
    refine .of_step hstep ?_
    by_cases hlen : w.jobs.length < queueCapacity
    · have hjobs : (if decide (w.jobs.length < queueCapacity) then w.jobs ++ [job] else w.jobs) =
          w.jobs ++ job :: [] := by simp [hlen]
      exact clears_of_queued hkey (h.step hstep) hjobs
    have hrefused : Stage.refused =
        if decide (w.jobs.length < queueCapacity) then .ended else .refused := by simp [hlen]
    exact clears_of_refused (update_self ..) herrand (hp.2 _ _ hrefused)

theorem clears [Infinite ι] (h : (queueSystem json cfg).Reachable (.new ι) a) (k : String) :
    Clears json cfg a k := by
  obtain ⟨g, htidy, hobeys, hidle⟩ := tidy_of_reachable h
  by_cases hk : k ∈ a.world.pending
  swap
  · exact ⟨a, .refl, hk⟩
  obtain ⟨_ | i, hown⟩ := (htidy.owned k).2.mp hk
  · obtain ⟨job, hjob, rfl⟩ := hown
    obtain ⟨pre, post, hjobs⟩ := append_of_mem hjob
    exact clears_of_queued (htidy.queued job hjob) h hjobs
  obtain ⟨e, ⟨herrand, c, f, hi⟩, rfl⟩ := exists_busy hobeys hidle hown
  have hp := hobeys i _ hi
  have hfits := htidy.fits i
  have hkey := htidy.keyed i e herrand
  rw [herrand] at hfits
  cases hstage : g i with
  | fresh =>
    have hholds := hown.1
    rw [hstage] at hholds
    cases hholds
  | marked =>
    rw [hstage] at hfits hp
    obtain ⟨job, ⟨⟩⟩ := hfits
    exact clears_of_marked hkey h hi herrand hp
  | refused =>
    rw [hstage] at hfits hp
    obtain ⟨job, ⟨⟩⟩ := hfits
    exact clears_of_refused hi herrand hp
  | passing =>
    rw [hstage] at hfits hp
    obtain ⟨job, ⟨⟩⟩ := hfits
    have hcleared : Clears json cfg a job.pendingKey := clears_of_pass hi herrand hp
    rwa [@CompactionJob.pendingKey_of_ne job hkey] at hcleared
  | ended =>
    have hholds := hown.1
    rw [hstage] at hholds
    cases hholds

/-- **At most one pass per database key is queued or running**, its marker is pending only while an
enqueue is in progress or a pass is queued or running, and from every point of a run there is a way
on that clears the marker. -/
theorem one_pass_per_database [Infinite ι] (h : (queueSystem json cfg).Reachable (.new ι) a)
    (k : String) : {x | Pass a k x}.Subsingleton ∧
      (k ∈ a.world.pending → (∃ i job, Busy a i (.enqueue job) ∧ job.key = k) ∨ ∃ x, Pass a k x) ∧
      Clears json cfg a k := by
  obtain ⟨g, htidy, hobeys, hidle⟩ := tidy_of_reachable h
  exact ⟨pass_subsingleton htidy hobeys, enqueue_or_pass htidy hobeys hidle, clears h k⟩

end Passes

/-! ### A run -/

namespace OneJob

/-- Nine files of one level are too many for the default threshold. -/
def files : List FileInfo := (List.range 9).map fun n => ⟨0, n + 1, n + 1, 0, 0⟩

/-- The job of the run. -/
def job : CompactionJob := .new ⟨"db"⟩ ⟨"", "", "", "", "", ""⟩

/-- Two goroutines enqueue a job for the same database, the second while the pass of the first job
is running; that is then its only pass. -/
theorem one_pass_queued : ∃ a,
    (queueSystem ManifestJson.plain defaultConfig).Reachable (.new ℕ) a ∧
    a.world.errand 0 = some (.enqueue job) ∧ a.world.errand 2 = some (.enqueue job) ∧
    Pass a job.key (.inr 1) ∧ {x | Pass a job.key x}.Subsingleton := by
  have hprogram : (enqueueCompaction defaultConfig files :
      RuntimeM (Option ManifestDocument) Unit) = (do
        let loaded : Bool ← ask .loadOrStorePending
        if loaded then return ()
        else
          let sent : Bool ← ask .sendJob
          if sent then return () else ask .deletePending) := rfl
  have hinit : (queueSystem ManifestJson.plain defaultConfig).Reachable (.new ℕ)
      ⟨.new ℕ, fun _ => none⟩ := .init
  have hstart := hinit.step (.start (i := 0) rfl (.enqueue ⟨"db"⟩ ⟨"", "", "", "", "", ""⟩ files))
  rw [hprogram] at hstart
  have hmarked := hstart.step (.call (i := 0) (r := false) rfl ⟨_, rfl, rfl, rfl⟩)
  have hsent := hmarked.step (.call (i := 0) (r := true) rfl ⟨_, rfl, rfl, rfl⟩)
  have hpass := hsent.step (.start (i := 1) rfl (.receive rfl))
  have hagain := hpass.step (.start (i := 2) rfl (.enqueue ⟨"db"⟩ ⟨"", "", "", "", "", ""⟩ files))
  rw [hprogram] at hagain
  have hloaded := hagain.step (.call (i := 2) (r := true) rfl ⟨_, rfl, by decide, rfl⟩)
  exact ⟨_, hloaded, rfl, rfl, .running ⟨rfl, _, _, rfl⟩ rfl,
    (one_pass_per_database hloaded job.key).1⟩

end OneJob

end Walrusd.Runtime
