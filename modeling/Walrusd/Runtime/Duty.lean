import Walrusd.Runtime.Read

/-!
# What a write owes to the read cache

A write evicts the cached session of its node right before it releases its lease to acknowledge. A
retry that finds its key recorded does not. A read holds no lease.

## Main definitions

* `Duty`, `duties`.

## Main results

* `withWriteAttempt_duties`.
* `withRead_only`.
-/

namespace Walrusd.Runtime

open Program Litestream

/-- A pass owes nothing and a read holds no lease; a write has just evicted the cached session, or
it has found its key recorded. -/
inductive Duty
  | none
  | read
  | write (evicted found : Bool)
  deriving DecidableEq, Repr

namespace Duty

variable {B : Type}

/-- The duty after an answer. -/
def step : Duty → (c : Op B) → Resp c → Duty
  | .write _ found, .evict, _ => .write true found
  | .write evicted found, .closeSession _, _ => .write evicted found
  | .write _ _, .selectTXID _ _, .ok (some _) => .write false true
  | .write _ found, _, _ => .write false found
  | s, _, _ => s

/-- What the duty allows. -/
def Allows : Duty → Op B → Prop
  | .read, c => c.kind ≠ .lease
  | .write evicted found, .release _ true => evicted = true ∨ found = true
  | _, _ => True

end Duty

/-- A write is acknowledged only when it has just evicted the cached session of its node, or has
found its key recorded. -/
def duties {B : Type} : Protocol (Op B) Resp Duty where
  allow s c := s.Allows c
  next s c r s' := s' = s.step c r

section Programs

variable {B α : Type} {json : ManifestJson B} {cfg : Config} {d : Descriptor} {key : String}
  {held : Lease.Held} {s : Sess} {x : Duty} {evicted found : Bool} {c : Op B}
  {manifest : Option Slice} {txid next : String} {files : List FileInfo}

theorem duties_none (p : RuntimeM B α) : p.Keeps duties .none :=
  (Prog.obeys_of_closed (J := fun x => x = .none) (fun x c hx => by rw [hx]; exact trivial)
    (fun x c r x' hx hn => by rw [hn, hx]; rfl) p rfl).mono fun _ _ _ => trivial

theorem Duty.allows_write (hc : ∀ held, c ≠ .release held true) :
    (Duty.write evicted found).Allows c := by
  unfold Duty.Allows
  split
  · next heq => cases heq
  · next held heq => exact absurd rfl (hc held)
  · trivial

theorem Duty.allows_of_kind (x : Duty) (hc : c.kind ≠ .lease) : x.Allows c := by
  cases x with
  | none => trivial
  | read => exact hc
  | write evicted found =>
    refine Duty.allows_write ?_
    rintro held rfl
    exact hc rfl

/-- A write remains a write, and what it has found stays found. -/
theorem Duty.step_write (c : Op B) (r : Resp c) :
    ∃ evicted' found', (Duty.write evicted found).step c r = .write evicted' found' ∧
      (found = true → found' = true) := by
  cases c with
  | evict | closeSession => exact ⟨_, _, rfl, id⟩
  | selectTXID =>
    rcases r with e | _ | text
    · exact ⟨_, _, rfl, id⟩
    · exact ⟨_, _, rfl, id⟩
    · exact ⟨_, _, rfl, fun _ => rfl⟩
  | _ => exact ⟨_, _, rfl, id⟩

/-- The state of a write that has found its key recorded if `found` holds. -/
def Duty.Writes (found : Bool) (x : Duty) : Prop :=
  ∃ evicted found', x = .write evicted found' ∧ (found = true → found' = true)

theorem Duty.writes_write : (Duty.write evicted found).Writes found := ⟨_, _, rfl, id⟩

theorem Duty.Writes.step (h : x.Writes found) (c : Op B) (r : Resp c) :
    (x.step c r).Writes found := by
  obtain ⟨evicted, found', rfl, hfound⟩ := h
  obtain ⟨evicted', found'', heq, hfound'⟩ := @Duty.step_write B evicted found' c r
  exact ⟨evicted', found'', heq, fun h => hfound' (hfound h)⟩

theorem Duty.Writes.allows (h : x.Writes found) (hc : ∀ held, c ≠ .release held true) :
    x.Allows c := by
  obtain ⟨evicted, found', rfl, -⟩ := h
  exact Duty.allows_write hc

theorem duties_bind {f : Resp c → RuntimeM B α} {Q : Duty → α → Prop} (hx : x.Writes found)
    (hc : ∀ held, c ≠ .release held true) (hf : ∀ r x', x'.Writes found → (f r).Obeys duties Q x') :
    (ask c >>= f).Obeys duties Q x := by
  refine .perform (hx.allows hc) ?_
  rintro r _ rfl
  exact hf r _ (hx.step c r)

theorem duties_only {p : RuntimeM B α} (hp : p.Only fun c => ∀ held, c ≠ .release held true)
    (hx : x.Writes found) : p.Obeys duties (fun x' _ => x'.Writes found) x := by
  induction p generalizing x with
  | done => exact hx
  | call c k ih =>
    refine ⟨hx.allows hp.1, ?_⟩
    rintro r _ rfl
    exact ih r (hp.2 r) (hx.step c r)

theorem duties_quiet {β : Type} {p : RuntimeM B β} {S : Op B → Prop} {f : β → RuntimeM B α}
    {Q : Duty → α → Prop} (hp : p.Only S) (hS : ∀ c, S c → c.kind ≠ .lease) (hx : x.Writes found)
    (hf : ∀ a x', x'.Writes found → (f a).Obeys duties Q x') : (p >>= f).Obeys duties Q x := by
  refine (duties_only (hp.mono fun c hc held heq => ?_) hx).bind fun x' a hx' => hf a x' hx'
  subst heq
  exact hS _ hc rfl

theorem duties_fails {p : RuntimeM B (Except Err WriteResult)} (hp : Fails p)
    (hx : x.Writes found) : p.Keeps duties x := by
  refine (duties_only (hp.only.mono fun c hc held heq => ?_) hx).mono fun _ _ _ => trivial
  subst heq
  cases hc

section

variable (hx : x.Writes found)
include hx

theorem acknowledge_duties : (acknowledge cfg held s txid files : RuntimeM B _).Keeps duties x := by
  obtain ⟨evicted, found', rfl, -⟩ := hx
  refine .perform trivial ?_
  rintro _ _ rfl
  refine .perform trivial ?_
  rintro _ _ rfl
  refine .perform (.inl rfl) ?_
  rintro (_ | e) _ rfl
  · exact duties_quiet (enqueueCompaction_only files) (fun c hc => by rw [hc]; rintro ⟨⟩)
      Duty.writes_write fun _ _ _ => trivial
  · trivial

theorem publish_duties : (publish json cfg held manifest s txid).Keeps duties x := by
  cases manifest with
  | some manifestFiles =>
    refine duties_bind hx (by rintro _ ⟨⟩) fun captured x' hx' => ?_
    refine duties_quiet (writeManifest_only json _) (fun c hc => by rw [hc]; rintro ⟨⟩) hx' ?_
    rintro (_ | e) x'' hx''
    · exact acknowledge_duties hx''
    · exact duties_fails closeAndFail_fails hx''
  | none =>
    refine duties_quiet rebuildManifest_only (fun c hc => by rw [hc]; rintro ⟨⟩) hx ?_
    rintro (e | files) x' hx'
    · exact acknowledge_duties hx'
    · refine duties_quiet (writeManifest_only json _) (fun c hc => by rw [hc]; rintro ⟨⟩) hx' ?_
      rintro (_ | e) x'' hx'' <;> exact acknowledge_duties hx''

theorem flush_duties : (flush json cfg held manifest s next).Keeps duties x := by
  refine duties_quiet (disableWrite_only s) (fun c hc => by rw [hc]; rintro ⟨⟩) hx ?_
  rintro (_ | e) x hx
  · refine duties_quiet (leaseStale_only held) (fun c hc => by rw [hc]; rintro ⟨⟩) hx ?_
    rintro (_ | _) x hx
    · refine duties_quiet (sessionTXID_only s) (fun c hc => by rw [hc]; rintro ⟨⟩) hx ?_
      rintro (e | txid) x hx
      · exact duties_fails closeAndAbandon_fails hx
      simp only
      split
      · exact duties_fails closeAndAbandon_fails hx
      · exact publish_duties hx
    · exact duties_fails closeAndAbandon_fails hx
  · exact duties_fails closeAndFail_fails hx

theorem commitAndFlush_duties : (commitAndFlush json cfg held manifest s next).Keeps duties x := by
  refine duties_quiet (leaseStale_only held) (fun c hc => by rw [hc]; rintro ⟨⟩) hx ?_
  rintro (_ | _) x hx
  · refine duties_bind hx (by rintro _ ⟨⟩) ?_
    rintro (_ | e) x hx
    · exact flush_duties hx
    · exact duties_bind hx (by rintro _ ⟨⟩) fun _ x hx =>
        duties_fails closeAndFail_fails hx
  · exact duties_bind hx (by rintro _ ⟨⟩) fun _ x hx =>
      duties_fails closeAndAbandon_fails hx

theorem mutate_duties : (mutate json cfg key held manifest s).Keeps duties x := by
  refine duties_bind hx (by rintro _ ⟨⟩) ?_
  rintro (_ | e) x hx
  · refine duties_bind hx (by rintro _ ⟨⟩) ?_
    rintro (_ | e) x hx
    · refine duties_quiet (nextTXID_only s) (fun c hc => by rw [hc]; rintro ⟨⟩) hx ?_
      rintro (e | next) x hx
      · exact duties_fails failTransaction_fails hx
      refine duties_quiet (recordIdempotent_only s next) (fun c hc => by rw [hc]; rintro ⟨⟩) hx ?_
      rintro (_ | e) x hx
      · exact commitAndFlush_duties hx
      · exact duties_fails failTransaction_fails hx
    · exact duties_fails failTransaction_fails hx
  · simp only
    split <;> exact duties_fails failTransaction_fails hx

end

theorem deduplicate_duties (hx : x.Writes true) :
    (deduplicate json held manifest s txid).Keeps duties x := by
  refine duties_bind hx (by rintro _ ⟨⟩) fun _ x hx => ?_
  refine duties_bind hx (by rintro _ ⟨⟩) fun _ x hx => ?_
  have hrepair : (if manifest.isSome then repairForRetry json txid else return none).Only
      fun c => c.kind.indexing = true := by
    split
    · exact repairForRetry_only json txid
    · trivial
  refine duties_quiet hrepair (fun c hc heq => by rw [heq] at hc; cases hc) hx ?_
  rintro (_ | e) x hx
  · obtain ⟨evicted, found', rfl, hfound⟩ := hx
    refine .perform (.inr (hfound rfl)) ?_
    rintro (_ | e) _ rfl <;> trivial
  · exact duties_fails failWithLease_fails hx

theorem lookupIdempotent_duties (hx : x.Writes false) :
    (lookupIdempotent key s : RuntimeM B _).Obeys duties
      (fun x' res => x'.Writes false ∧ ∀ txid, res = .ok txid → txid ≠ "" → x'.Writes true) x := by
  refine duties_bind hx (by rintro _ ⟨⟩) ?_
  rintro (_ | e) x hx
  · refine .perform (hx.allows (by rintro _ ⟨⟩)) ?_
    rintro (e | _ | txid) _ rfl
    · exact ⟨hx.step _ _, by rintro _ ⟨⟩⟩
    · refine ⟨hx.step _ _, ?_⟩
      rintro _ ⟨⟩ hne
      exact absurd rfl hne
    refine ⟨hx.step _ _, fun _ _ _ => ?_⟩
    obtain ⟨evicted, found', rfl, -⟩ := hx
    exact ⟨false, true, rfl, id⟩
  · exact ⟨hx, by rintro _ ⟨⟩⟩

theorem transaction_duties (hx : x.Writes false) :
    (transaction json cfg key held manifest s).Keeps duties x := by
  refine duties_bind hx (by rintro _ ⟨⟩) ?_
  rintro (_ | e) x hx
  · refine (lookupIdempotent_duties hx).bind ?_
    rintro x (e | txid) ⟨hx, hfound⟩
    · exact duties_fails failTransaction_fails hx
    simp only
    split
    · next hne => exact deduplicate_duties (hfound txid rfl hne)
    · exact mutate_duties hx
  · exact duties_bind hx (by rintro _ ⟨⟩) fun _ x hx =>
      duties_fails failWithLease_fails hx

/-- **A write is acknowledged only after an eviction or on a recorded key.** -/
theorem withWriteAttempt_duties :
    (withWriteAttempt json cfg d key).Keeps duties (.write false false) := by
  refine duties_bind Duty.writes_write (by rintro _ ⟨⟩) ?_
  rintro (e | _) x hx
  · trivial
  have hentry : (attemptWithEntry json cfg d key).Keeps duties x := by
    refine duties_bind hx (by rintro _ ⟨⟩) ?_
    rintro (e | held) x hx
    · trivial
    refine duties_quiet (planFiles_only json) (fun c hc heq => by rw [heq] at hc; cases hc) hx ?_
    rintro (e | manifest) x hx
    · exact duties_fails failWithLease_fails hx
    refine duties_bind hx (by rintro _ ⟨⟩) ?_
    rintro (e | s) x hx
    · exact duties_fails failWithLease_fails hx
    · exact transaction_duties hx
  refine hentry.bind fun x res _ => .perform ?_ fun _ _ _ => trivial
  exact x.allows_of_kind (by rintro ⟨⟩)

theorem withEmptyRead_only : (withEmptyRead : RuntimeM B _).Only fun c => c.kind ≠ .lease := by
  refine .perform (by rintro ⟨⟩) ?_
  rintro (_ | e)
  · exact Prog.only_perform (by rintro ⟨⟩)
  · trivial

theorem openAndRun_only (files : Option (List FileInfo)) :
    (openAndRun files : RuntimeM B _).Only fun c => c.kind ≠ .lease := by
  refine .perform (by rintro ⟨⟩) ?_
  rintro (e | s)
  · trivial
  · refine .perform (by rintro ⟨⟩) ?_
    rintro (_ | e) <;> exact .perform (by rintro ⟨⟩) fun _ => trivial

theorem readFresh_only : (readFresh json).Only fun c => c.kind ≠ .lease := by
  refine ((readManifest_only json).mono fun c hc => by rw [hc]; rintro ⟨⟩).bind ?_
  rintro (e | _ | _ | ⟨f, files⟩)
  · trivial
  · refine (hasLTX_only.mono fun c hc => by rw [hc]; rintro ⟨⟩).bind ?_
    rintro (e | _ | _)
    · trivial
    · exact withEmptyRead_only
    · exact openAndRun_only none
  · exact withEmptyRead_only
  · exact openAndRun_only _

theorem withRead_only (identity : Option Err) :
    (withRead json d identity).Only fun c => c.kind ≠ .lease := by
  cases identity with
  | some e => trivial
  | none =>
    refine .perform (by rintro ⟨⟩) ?_
    rintro (e | _)
    · trivial
    have hread : (readWithEntry json).Only fun c => c.kind ≠ .lease := by
      refine .perform (by rintro ⟨⟩) ?_
      rintro (_ | s)
      · exact readFresh_only
      refine .perform (by rintro ⟨⟩) ?_
      rintro (_ | e)
      · trivial
      refine .perform (by rintro ⟨⟩) fun _ => ?_
      split
      · exact readFresh_only
      · trivial
    exact hread.bind fun _ => .perform (by rintro ⟨⟩) fun _ => trivial

end Programs

end Walrusd.Runtime
