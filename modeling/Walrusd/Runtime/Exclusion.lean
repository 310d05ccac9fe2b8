import Walrusd.Lease.Exclusion
import Walrusd.Runtime.Write

/-!
# Acknowledged writes hold disjoint leases

A write attempt that returns success acquired the write lease and released it without an error.
The lease layer then places the two writes of its lease in the history of the store with no other
acquisition of the key between them, so that the intervals of any two successful attempts on one
key are disjoint. No clock is involved.

## Main definitions

* `Settles` — a success comes with a released lease.
* `AnsweredBy` — the lease calls of an attempt are answered by a lease pool.

## Main results

* `withWriteAttempt_released` — a successful attempt acquired and released.
* `acknowledged_disjoint`.
-/

namespace Walrusd.Runtime

open Program Litestream List

/-! ### The lease in the trace of an attempt -/

section Trace

variable {B α : Type} {json : ManifestJson B} {cfg : Config} {d : Descriptor} {key : String}
  {held : Lease.Held} {manifest : Option Slice} {s : Sess} {txid next : String}
  {files : List FileInfo}

/-- An attempt that returns success has released the lease without an error. -/
def Settles (held : Lease.Held) (p : RuntimeM B (Except Err WriteResult)) : Prop :=
  ∀ tr res, Returns p tr (.ok res) → ∃ b, (⟨.release held b, none⟩ : Σ c : Op B, Resp c) ∈ tr

theorem Settles.bind {p : RuntimeM B α} {f : α → RuntimeM B (Except Err WriteResult)}
    (hf : ∀ a, Settles held (f a)) : Settles held (p >>= f) := by
  intro tr res h
  obtain ⟨pre, a, post, rfl, -, hpost⟩ := h.of_bind
  obtain ⟨b, hb⟩ := hf a post res hpost
  exact ⟨b, mem_append_right pre hb⟩

theorem settles_of_fails {p : RuntimeM B (Except Err WriteResult)} (h : Fails p) :
    Settles held p := by
  intro tr res hret
  obtain ⟨e, he⟩ := hret.yields h.yields
  cases he

theorem release_settles (f : RuntimeM B (Except Err WriteResult)) :
    Settles held (do
      let released : Option Err ← ask (.release held true)
      match released with
      | some e => return .error e
      | none => f) := by
  intro tr res h
  obtain ⟨_ | e, post, rfl, hpost⟩ := h.of_perform_bind
  · exact ⟨true, mem_cons_self⟩
  · cases hpost

theorem acknowledge_settles : Settles (B := B) held (acknowledge cfg held s txid files) :=
  .bind fun _ => .bind fun _ => release_settles _

theorem publish_settles : Settles held (publish json cfg held manifest s txid) := by
  cases manifest with
  | some manifestFiles =>
    refine .bind fun captured => .bind ?_
    rintro (_ | e)
    · exact acknowledge_settles
    · exact settles_of_fails closeAndFail_fails
  | none =>
    refine .bind ?_
    rintro (e | files)
    · exact acknowledge_settles
    · refine .bind ?_
      rintro (_ | e) <;> exact acknowledge_settles

theorem confirmFlush_settles : Settles held (confirmFlush json cfg held manifest s next) := by
  refine .bind ?_
  rintro (_ | _)
  · refine .bind ?_
    rintro (e | txid)
    · exact settles_of_fails closeAndAbandon_fails
    simp only
    split
    · exact settles_of_fails closeAndAbandon_fails
    · exact publish_settles
  · exact settles_of_fails closeAndAbandon_fails

theorem commitAndFlush_settles : Settles held (commitAndFlush json cfg held manifest s next) := by
  refine .bind ?_
  rintro (_ | _)
  · refine .bind ?_
    rintro (_ | e)
    · refine .bind ?_
      rintro (_ | e)
      · exact confirmFlush_settles
      · exact settles_of_fails closeAndFail_fails
    · exact settles_of_fails (.perform rfl fun _ => closeAndFail_fails)
  · exact settles_of_fails (.perform rfl fun _ => closeAndAbandon_fails)

theorem mutate_settles : Settles held (mutate json cfg key held manifest s) := by
  refine .bind ?_
  rintro (_ | e)
  · refine .bind ?_
    rintro (_ | e)
    · refine .bind ?_
      rintro (e | next)
      · exact settles_of_fails failTransaction_fails
      refine .bind ?_
      rintro (_ | e)
      · exact commitAndFlush_settles
      · exact settles_of_fails failTransaction_fails
    · exact settles_of_fails failTransaction_fails
  · simp only
    split <;> exact settles_of_fails failTransaction_fails

theorem deduplicate_settles : Settles held (deduplicate json held manifest s txid) := by
  refine .bind fun _ => .bind fun _ => .bind ?_
  rintro (_ | e)
  · exact release_settles _
  · exact settles_of_fails failWithLease_fails

theorem attemptWithLease_settles : Settles held (attemptWithLease json cfg key held) := by
  refine .bind ?_
  rintro (e | manifest)
  · exact settles_of_fails failWithLease_fails
  refine .bind ?_
  rintro (e | s)
  · exact settles_of_fails failWithLease_fails
  refine .bind ?_
  rintro (_ | e)
  · refine .bind ?_
    rintro (e | txid)
    · exact settles_of_fails failTransaction_fails
    simp only
    split
    · exact deduplicate_settles
    · exact mutate_settles
  · exact settles_of_fails (.perform rfl fun _ => failWithLease_fails)

/-- A write attempt that returns success acquired the write lease and released it without an
error. -/
theorem withWriteAttempt_released {tr : List (Σ c : Op B, Resp c)} {res : WriteResult}
    (h : Returns (withWriteAttempt json cfg d key) tr (.ok res)) :
    ∃ held, (∃ db root, (⟨.acquire db root, .ok held⟩ : Σ c : Op B, Resp c) ∈ tr) ∧
      ∃ b, (⟨.release held b, none⟩ : Σ c : Op B, Resp c) ∈ tr := by
  obtain ⟨e | _, tr', rfl, hentry⟩ := h.of_perform_bind
  · cases hentry
  obtain ⟨pre, a, post, rfl, hpre, hpost⟩ := Returns.of_bind (p := attemptWithEntry ..) hentry
  obtain ⟨_, _, rfl, ⟨⟩⟩ := hpost.of_perform_bind
  obtain ⟨e | held, pre, rfl, hheld⟩ := hpre.of_perform_bind
  · cases hheld
  obtain ⟨b, hb⟩ := attemptWithLease_settles pre res hheld
  exact ⟨held, ⟨d.id, d.rootPrefix, by simp⟩, b, by simp [hb]⟩

end Trace

/-! ### Disjoint intervals -/

/-- The lease calls of an attempt are answered by a pool of lease programs: its acquisition is
process `n` of the pool, and its release of a lease is call `k` of `Release` on it. -/
def AnsweredBy {B : Type} (a : Pool Lease.World Lease.Proc Lease.Op Lease.Resp Lease.Outcome)
    (tr : List (Σ c : Op B, Resp c)) (n k : ℕ) : Prop :=
  (∀ db root held, (⟨.acquire db root, .ok held⟩ : Σ c : Op B, Resp c) ∈ tr →
    a.procs (.acquire n) = some (.done (.acquired (.ok held)))) ∧
  ∀ held b, (⟨.release held b, none⟩ : Σ c : Op B, Resp c) ∈ tr →
    a.procs (.release held.id k) = some (.done (.released none))

/-- Acquisition `n` returned the lease `held`, and call `k` of `Release` on it succeeded. -/
structure HeldBy (a : Pool Lease.World Lease.Proc Lease.Op Lease.Resp Lease.Outcome)
    (n k : ℕ) (held : Lease.Held) : Prop where
  acquired : a.procs (.acquire n) = some (.done (.acquired (.ok held)))
  released : a.procs (.release held.id k) = some (.done (.released none))

theorem AnsweredBy.heldBy {B : Type} {json : ManifestJson B} {cfg : Config} {d : Descriptor}
    {key : String} {a : Pool Lease.World Lease.Proc Lease.Op Lease.Resp Lease.Outcome}
    {tr : List (Σ c : Op B, Resp c)} {n k : ℕ} {res : WriteResult} (h : AnsweredBy a tr n k)
    (hret : Returns (withWriteAttempt json cfg d key) tr (.ok res)) :
    ∃ held, HeldBy a n k held := by
  obtain ⟨held, ⟨db, root, hacq⟩, b, hrel⟩ := withWriteAttempt_released hret
  exact ⟨held, h.1 db root held hacq, h.2 held b hrel⟩

/-- **Exclusion by fencing tokens.** In every reachable pool of lease programs over one store, no
acquisition of a key took effect between the write of an acquisition and the write of its
successful release; and two write attempts that returned success, with their lease calls answered
by different processes of the pool, held leases whose intervals are disjoint if the leases have
the same key. -/
theorem acknowledged_disjoint {B : Type} (leaseJson : Lease.RecordJson) (json : ManifestJson B)
    (store : Lease.MemoryStore) (minted : List Lease.Token)
    (hminted : ∀ t, store.Tokens t → t ∈ minted)
    (a : Pool Lease.World Lease.Proc Lease.Op Lease.Resp Lease.Outcome)
    (h : (Lease.system leaseJson).Reachable (Lease.World.initial store minted) a) :
    (∀ n k held, HeldBy a n k held →
      ∃ acq rel post mid pre, Lease.ReleasedBy a.world n k held acq rel ∧
        a.world.log = post ++ rel :: (mid ++ acq :: pre) ∧
        ∀ e ∈ mid, e.key = held.key → ∀ n', e.proc ≠ .acquire n') ∧
    ∀ (cfg cfg' : Config) (d d' : Descriptor) (key key' : String)
      (tr tr' : List (Σ c : Op B, Resp c)) (res res' : WriteResult) (n k n' k' : ℕ),
      Returns (withWriteAttempt json cfg d key) tr (.ok res) →
      Returns (withWriteAttempt json cfg' d' key') tr' (.ok res') →
      AnsweredBy a tr n k → AnsweredBy a tr' n' k' → n ≠ n' →
      ∃ held held', HeldBy a n k held ∧ HeldBy a n' k' held' ∧
        (held.key = held'.key →
          ∃ acq rel acq' rel', Lease.ReleasedBy a.world n k held acq rel ∧
            Lease.ReleasedBy a.world n' k' held' acq' rel' ∧
            (Fence.Before a.world.log rel acq' ∨ Fence.Before a.world.log rel' acq)) := by
  refine ⟨fun n k held hheld => Lease.release_exclusive hminted h hheld.acquired hheld.released, ?_⟩
  intro cfg cfg' d d' key key' tr tr' res res' n k n' k' hret hret' hby hby' hn
  obtain ⟨held, hheld⟩ := hby.heldBy hret
  obtain ⟨held', hheld'⟩ := hby'.heldBy hret'
  exact ⟨held, held', hheld, hheld', fun hkey => Lease.released_disjoint hminted h hheld.acquired
    hheld.released hheld'.acquired hheld'.released hn hkey⟩

/-! ### Two writes, one after the other -/

namespace TwoWrites

open Lease (Record RecordJson Manager Token Proc Start Choice Held)

/-- The manager of both writes. -/
def manager : Manager := Lease.newManager "a" Lease.defaultConfig none

/-- The records of the run: the two held ones and their released forms. -/
def records : List Record :=
  [⟨1, "db", .held, "a", "x", 1, 30 * second⟩, ⟨1, "db", .released, "a", "x", 1, 0⟩,
    ⟨1, "db", .held, "a", "y", 2, 30 * second⟩, ⟨1, "db", .released, "a", "y", 2, 0⟩]

/-- A codec for the records of the run. -/
def json : RecordJson where
  marshal rec :=
    if rec ∈ records then .ok (List.replicate (records.idxOf rec) 0)
    else .error (.other "unknown record")
  unmarshal body :=
    match records[body.length]? with
    | some rec => .ok rec
    | none => .error (.other "unknown record")
  marshal_error := by
    intro rec e h
    split at h
    · cases h
    · exact ⟨_, (Except.error.inj h).symm⟩
  unmarshal_marshal := by
    intro rec body h
    split at h
    · next hmem =>
      obtain rfl := Except.ok.inj h
      simp [getElem?_idxOf hmem]
    · cases h

/-- One acquisition and its release, with the renewal loop stopped in between; `taken` are the
answers that a takeover needs on top of a create. -/
def cycle (n : ℕ) (leaseID : String) (tok tok' : Token) (taken : List Choice) :
    List (Move Proc Start Choice Empty) :=
  let acquire : List Choice := [.fresh 0, .plain, .fresh 0, .plain] ++ taken ++
    [.clock 0, .text leaseID, .token tok, .fresh n, .plain, .plain]
  let release : List Choice := [.plain, .plain, .clock 0, .token tok', .plain]
  [.start (.acquire n) (.acquire manager 0 ⟨"db"⟩ [""])] ++ acquire.map (.call (.acquire n)) ++
    [.start (.renew n) (.renew 1), .start (.release n 0) .release,
      .call (.release n 0) .plain, .call (.release n 0) .plain, .call (.renew n) .plain,
      .call (.renew n) .plain] ++ release.map (.call (.release n 0))

/-- The pool after the two writes. -/
def pool : Option (Pool Lease.World Proc Lease.Op Lease.Resp Lease.Outcome) :=
  (Lease.interpreter json).exec (Lease.World.initial ⟨fun _ => none⟩ [])
    (cycle 0 "x" "t1" "t2" [] ++ cycle 1 "y" "t3" "t4" [.clock 0])

/-- The lease of a write. -/
def held (n : ℕ) : Held := ⟨n, "db/lease.json", 90 * second⟩

/-- The answers to a write attempt on an empty database, up to its success. -/
def answers (held : Held) : (c : Op (Option ManifestDocument)) → Resp c
  | .acquire _ _ | .acquireKey _ _ => .ok held
  | .release h _ | .releaseKey h => if h = held then none else some (.other "not acquired")
  | .expiresAt _ => 30 * second
  | .ltxFiles _ _ => .error (.other "unavailable")
  | .txid _ => .ok (formatTXID 1)
  | c => c.uneventful

/-- One of the two write attempts. -/
def attempt : RuntimeM (Option ManifestDocument) (Except Err WriteResult) :=
  withWriteAttempt .plain defaultConfig ⟨⟨"db"⟩, ""⟩ "key"

theorem attempt_succeeds :
    ∀ n ∈ [0, 1], (attempt.runWith (answers (held n))).2 = .ok ⟨formatTXID 1, false⟩ := by
  decide +kernel

theorem pool_outcomes :
    ∀ n ∈ [0, 1], (pool.bind fun a => a.outcome (.acquire n)) = some (.acquired (.ok (held n))) ∧
      (pool.bind fun a => a.outcome (.release n 0)) = some (.released none) := by
  decide +kernel

/-- The lease calls of the attempts are answered by the pool. -/
theorem answeredBy {a : Pool Lease.World Proc Lease.Op Lease.Resp Lease.Outcome}
    (ha : pool = some a) {n : ℕ} (hn : n ∈ [0, 1]) :
    AnsweredBy a (attempt.runWith (answers (held n))).1 n 0 := by
  obtain ⟨hacq, hrel⟩ := pool_outcomes n hn
  rw [ha] at hacq hrel
  refine ⟨fun db root h hmem => ?_, fun h b hmem => ?_⟩
  · obtain rfl : h = held n := Except.ok.inj (Prog.eq_of_mem_runWith hmem)
    exact Pool.procs_of_outcome hacq
  have hres : none = if h = held n then none else some (Err.other "not acquired") :=
    Prog.eq_of_mem_runWith hmem
  split at hres
  · next heq => rw [heq]; exact Pool.procs_of_outcome hrel
  · cases hres

/-- Both attempts of the run succeed on one key, and their intervals are disjoint. -/
theorem disjoint_intervals :
    ∃ a acq rel acq' rel', pool = some a ∧ HeldBy a 0 0 (held 0) ∧ HeldBy a 1 0 (held 1) ∧
      Lease.ReleasedBy a.world 0 0 (held 0) acq rel ∧
      Lease.ReleasedBy a.world 1 0 (held 1) acq' rel' ∧
      (Fence.Before a.world.log rel acq' ∨ Fence.Before a.world.log rel' acq) := by
  have hsome : pool.isSome := by decide +kernel
  obtain ⟨a, ha⟩ := Option.isSome_iff_exists.mp hsome
  have hreach := (Lease.interpreter json).exec_reachable ha
  have hempty : ∀ t, (⟨fun _ => none⟩ : Lease.MemoryStore).Tokens t → t ∈ ([] : List Token) := by
    rintro t ⟨key, obj, hobj, -⟩
    cases hobj
  have hreturns (n : ℕ) (hn : n ∈ [0, 1]) :
      Returns attempt (attempt.runWith (answers (held n))).1 (.ok ⟨formatTXID 1, false⟩) :=
    attempt_succeeds n hn ▸ attempt.runWith_returns (answers (held n))
  obtain ⟨-, hdisjoint⟩ := acknowledged_disjoint json .plain _ _ hempty a hreach
  obtain ⟨h, h', hheld, hheld', hkey⟩ := hdisjoint _ _ _ _ _ _ _ _ _ _ 0 0 1 0
    (hreturns 0 (by simp)) (hreturns 1 (by simp)) (answeredBy ha (by simp))
    (answeredBy ha (by simp)) (by decide)
  have hsame {n : ℕ} {h : Held} (hn : n ∈ [0, 1]) (hheld : HeldBy a n 0 h) : h = held n := by
    have hacq := (pool_outcomes n hn).1
    rw [ha] at hacq
    cases hheld.acquired.symm.trans (Pool.procs_of_outcome hacq)
    rfl
  obtain rfl := hsame (by simp) hheld
  obtain rfl := hsame (by simp) hheld'
  obtain ⟨acq, rel, acq', rel', hrel, hrel', hbefore⟩ := hkey rfl
  exact ⟨a, acq, rel, acq', rel', ha, hheld, hheld', hrel, hrel', hbefore⟩

end TwoWrites

end Walrusd.Runtime
