import Mathlib
import Walrusd.Lifecycle.Credentials

/-!
# The keys of databases

`Runtime.database` registers a database under the text of its ID and of its storage profile, joined
by bars. Two calls of one run are handed the same entry if and only if their keys are equal and a
database can be registered under the key. A bar in one of the texts makes the key ambiguous: another
descriptor, with the same ID, has the same key and uses the replica of the first one.

## Main definitions

* `Registers` — a database can be registered under a key.
* `Registry.Run` — the critical sections of a run.
* `Shared` — two descriptors are handed the same entry in some run.
* `Profile.Barless`.

## Main results

* `shared_iff` — two descriptors share an entry if and only if they share a key that registers.
* `never_shared_iff`.
-/

namespace Walrusd.Lifecycle

open List

/-! ### Runs of the registry -/

/-- `RegisterDatabase` builds the clients of some descriptor with the key. -/
def Registers (key : String) : Prop :=
  ∃ id a p env cr cl, newDatabaseID id = .ok a ∧ databaseKey a p = key ∧
    registerDatabase env (a.replicaPrefix p.rootPrefix) p cr = .ok cl

namespace Registry

/-- `Run r r'` says that critical sections lead from `r` to `r'`. -/
inductive Run (r : Registry) : Registry → Prop
  | refl : Run r r
  | database {r' res s key registration} (h : Run r r')
      (hregistration : registration = none → Registers key)
      (hdb : r'.database key registration = (res, s)) : Run r s
  | releaseDatabase {r' e b s} (h : Run r r') (hrel : r'.releaseDatabase e = some (b, s)) : Run r s
  | close {r' es s} (h : Run r r') (hclose : r'.close = (es, s)) : Run r s

/-- A sound registry whose entries could be registered. -/
structure Genuine (r : Registry) : Prop extends Sound r where
  registers : ∀ e ∈ r.dbOrder, Registers e.key

theorem Genuine.database {r r' : Registry} {key registration e es} (h : r.Genuine)
    (hregistration : registration = none → Registers key)
    (hdb : r.database key registration = (.ok (e, es), r')) :
    r'.Genuine ∧ e.key = key ∧ Registers key := by
  obtain ⟨hkey, hmem, hlookup⟩ := database_entry h.toConsistent hdb
  have he : Registers e.key := by
    rcases hlookup with hnone | ⟨-, hmem⟩
    · unfold Registry.database at hdb
      rw [hnone] at hdb
      cases registration with
      | none => exact hkey ▸ hregistration rfl
      | some err => split at hdb <;> cases hdb
    · exact h.registers e hmem
  refine ⟨⟨(database_spec h.toSound hdb).1, fun e' he' => ?_⟩, hkey, hkey ▸ he⟩
  rcases hmem e' he' with rfl | hold
  · exact he
  · exact h.registers e' hold

theorem Run.genuine {r r' : Registry} (h : Run r r') (hr : r.Genuine) : r'.Genuine := by
  induction h with
  | refl => exact hr
  | @database r' res s key registration _ hregistration hdb ih =>
    cases res with
    | error err => exact database_error hdb ▸ ih
    | ok out => exact (ih.database hregistration hdb).1
  | @releaseDatabase r' e b s _ hrel ih =>
    refine ⟨(releaseDatabase_spec ih.toSound hrel).1, ?_⟩
    obtain ⟨-, hs⟩ := Option.ite_none_left_eq_some.mp hrel
    obtain ⟨-, rfl⟩ := Prod.mk.inj (Option.some.inj hs)
    exact ih.registers
  | @close r' es s _ hclose ih =>
    cases es with
    | none => exact close_none hclose ▸ ih
    | some es =>
      refine ⟨(close_spec ih.toSound hclose).1, fun e he => ?_⟩
      unfold Registry.close at hclose
      split at hclose
      · cases hclose
      · obtain ⟨-, rfl⟩ := Prod.mk.inj hclose
        exact absurd he not_mem_nil

theorem database_twice (max : ℤ) (key : String) : ∃ e r,
    (new max).database key none = (.ok (e, []), r) ∧
      r.database key none = (.ok (e, []), r.reuse e) := by
  refine ⟨(new max).nextEntry key, (new max).register key, ?_, ?_⟩
  · have hlimit : ¬ ((((new max).register key).dbs.keys.length : ℤ) > (new max).dbLimit) := by
      have := (new_sound max).limit
      simp only [register, new, AList.keys_insert, AList.keys_empty, erase_nil,
        length_singleton] at this ⊢
      omega
    have hevict : evictOver 1 ((new max).register key) = ([], (new max).register key) :=
      if_neg hlimit
    have hopen : (new max).closed = false := rfl
    have hnew : (new max).dbs.lookup key = none := AList.lookup_empty key
    rw [Registry.database, hopen, if_neg Bool.false_ne_true, hnew]
    exact congrArg (fun out => (Except.ok (_, out.1), out.2)) hevict
  · have hopen : ((new max).register key).closed = false := rfl
    have hregistered : ((new max).register key).dbs.lookup key = some ((new max).nextEntry key) :=
      AList.lookup_insert _
    rw [Registry.database, hopen, if_neg Bool.false_ne_true, hregistered]

end Registry

/-- In some run of a runtime, the calls of two descriptors are handed the same entry. -/
def Shared (a : DatabaseID) (p : Profile) (b : DatabaseID) (q : Profile) : Prop :=
  ∃ max r₀ r₁ r₂ r₃ registration registration' e es es', Registry.Run (.new max) r₀ ∧
    (registration = none → Registers (databaseKey a p)) ∧
    (registration' = none → Registers (databaseKey b q)) ∧
    r₀.database (databaseKey a p) registration = (.ok (e, es), r₁) ∧ Registry.Run r₁ r₂ ∧
    r₂.database (databaseKey b q) registration' = (.ok (e, es'), r₃)

variable {a b : DatabaseID} {p q : Profile}

/-- **Two descriptors share an entry if and only if they share a key, and a database can be
registered under it.** -/
theorem shared_iff :
    Shared a p b q ↔ databaseKey a p = databaseKey b q ∧ Registers (databaseKey a p) := by
  constructor
  · rintro ⟨max, r₀, r₁, r₂, r₃, registration, registration', e, es, es', hrun, hreg, hreg', hdb,
      hrun', hdb'⟩
    obtain ⟨hgenuine, hkey, hregisters⟩ :=
      (hrun.genuine ⟨Registry.new_sound max, nofun⟩).database hreg hdb
    obtain ⟨-, hkey', -⟩ := (hrun'.genuine hgenuine).database hreg' hdb'
    exact ⟨hkey.symm.trans hkey', hregisters⟩
  · rintro ⟨hkey, hregisters⟩
    obtain ⟨e, r, hfirst, hsecond⟩ := Registry.database_twice 0 (databaseKey a p)
    rw [hkey] at hsecond
    exact ⟨0, _, r, r, _, none, none, e, [], [], .refl, fun _ => hregisters,
      fun _ => hkey ▸ hregisters, hfirst, .refl, hsecond⟩

/-! ### Bars -/

/-- The texts of a profile in the order in which they stand in a key. -/
def Profile.texts (p : Profile) : List String :=
  [p.provider, p.endpoint, p.region, p.bucket, p.rootPrefix, p.fileRoot]

/-- No text of the profile contains a bar. -/
def Profile.Barless (p : Profile) : Prop := ∀ s ∈ p.texts, '|' ∉ s.toList

instance (p : Profile) : Decidable p.Barless :=
  inferInstanceAs (Decidable (∀ s ∈ p.texts, '|' ∉ s.toList))

/-- No text of the profile but the last one of the key contains a bar. -/
def Profile.Separated (p : Profile) : Prop := ∀ s ∈ p.texts.dropLast, '|' ∉ s.toList

theorem toList_databaseKey (a : DatabaseID) (p : Profile) :
    (databaseKey a p).toList = a.ID.toList ++ '|' :: (p.provider.toList ++ '|' ::
      (p.endpoint.toList ++ '|' :: (p.region.toList ++ '|' :: (p.bucket.toList ++ '|' ::
        (p.rootPrefix.toList ++ '|' :: p.fileRoot.toList))))) := by
  simp only [databaseKey, DatabaseID.string, String.toList_append, append_assoc]
  rfl

/-- What stands before the first bar, and after it, is determined. -/
theorem append_bar_inj {x y s t : List Char} (hx : '|' ∉ x) (hy : '|' ∉ y)
    (h : x ++ '|' :: s = y ++ '|' :: t) : x = y ∧ s = t := by
  have htake : ∀ {x s : List Char}, '|' ∉ x → (x ++ '|' :: s).takeWhile (· ≠ '|') = x := by
    intro x s hx
    have hkeep : ∀ c ∈ x, decide (c ≠ '|') = true := by
      intro c hc
      refine decide_eq_true ?_
      rintro rfl
      exact hx hc
    rw [takeWhile_append_of_pos hkeep, takeWhile_cons_of_neg (by decide), append_nil]
  obtain rfl : x = y := by rw [← htake hx, h, htake hy]
  exact ⟨rfl, tail_eq_of_cons_eq (append_cancel_left h)⟩

/-- An accepted ID contains no bar. -/
theorem bar_notMem_of_accepted {id : String} (h : newDatabaseID id = .ok a) :
    '|' ∉ a.ID.toList := by
  obtain ⟨rfl, hgrammar⟩ := newDatabaseID_eq_ok_iff.mp h
  intro hbar
  rcases hgrammar.eq_slash_or_idChar hbar with hslash | hchar
  · exact absurd hslash (by decide)
  · exact absurd hchar (by decide)

/-- If no text but the last one contains a bar, then the key determines the descriptor. -/
theorem eq_of_databaseKey_eq (ha : '|' ∉ a.ID.toList) (hb : '|' ∉ b.ID.toList) (hp : p.Separated)
    (hq : q.Separated) (h : databaseKey a p = databaseKey b q) : a = b ∧ p = q := by
  have hlist := congrArg String.toList h
  rw [toList_databaseKey, toList_databaseKey] at hlist
  simp only [Profile.Separated, Profile.texts, dropLast_cons_cons, dropLast_singleton,
    forall_mem_cons] at hp hq
  obtain ⟨hp₁, hp₂, hp₃, hp₄, hp₅, -⟩ := hp
  obtain ⟨hq₁, hq₂, hq₃, hq₄, hq₅, -⟩ := hq
  obtain ⟨hID, hlist⟩ := append_bar_inj ha hb hlist
  obtain ⟨hprovider, hlist⟩ := append_bar_inj hp₁ hq₁ hlist
  obtain ⟨hendpoint, hlist⟩ := append_bar_inj hp₂ hq₂ hlist
  obtain ⟨hregion, hlist⟩ := append_bar_inj hp₃ hq₃ hlist
  obtain ⟨hbucket, hlist⟩ := append_bar_inj hp₄ hq₄ hlist
  obtain ⟨hrootPrefix, hfileRoot⟩ := append_bar_inj hp₅ hq₅ hlist
  cases a
  cases b
  cases p
  cases q
  simp only [DatabaseID.mk.injEq, Profile.mk.injEq, ← String.toList_inj]
  exact ⟨hID, hprovider, hendpoint, hregion, hbucket, hrootPrefix, hfileRoot⟩

theorem Profile.Barless.separated (h : p.Barless) : p.Separated := fun s hs =>
  h s (dropLast_subset _ hs)

theorem count_databaseKey (a : DatabaseID) (p : Profile) :
    (databaseKey a p).toList.count '|' =
      a.ID.toList.count '|' + 6 + (p.texts.map fun s => s.toList.count '|').sum := by
  rw [toList_databaseKey]
  simp only [count_append, count_cons_self, Profile.texts, map_cons, map_nil, sum_cons, sum_nil]
  omega

/-- Whether a profile contains a bar can be told from the key. -/
theorem Profile.Barless.of_databaseKey_eq (hp : p.Barless) (ha : '|' ∉ a.ID.toList)
    (hb : '|' ∉ b.ID.toList) (h : databaseKey a p = databaseKey b q) : q.Barless := by
  have hcount := congrArg (fun s => s.toList.count '|') h
  simp only [count_databaseKey, count_eq_zero.mpr ha, count_eq_zero.mpr hb] at hcount
  have hzero : (p.texts.map fun s => s.toList.count '|').sum = 0 := by
    refine sum_eq_zero fun n hn => ?_
    obtain ⟨s, hs, rfl⟩ := mem_map.mp hn
    exact count_eq_zero.mpr (hp s hs)
  have hzero' : (q.texts.map fun s => s.toList.count '|').sum = 0 := by omega
  intro s hs
  exact count_eq_zero.mp (sum_eq_zero_iff.mp hzero' _ (mem_map_of_mem hs))

theorem exists_cut {s : String} (h : '|' ∈ s.toList) : ∃ x y, s = x ++ "|" ++ y := by
  obtain ⟨x, y, hxy⟩ := append_of_mem h
  refine ⟨String.ofList x, String.ofList y, ?_⟩
  rw [← String.toList_inj, hxy]
  simp

theorem ne_append_bar (x y : String) : x ++ "|" ++ y ≠ x ∧ x ++ "|" ++ y ≠ y := by
  constructor <;> intro h <;> have hlength := congrArg String.length h <;>
    simp only [String.length_append] at hlength <;> have : "|".length = 1 := rfl <;> omega

/-- A profile that contains a bar has the key of another profile. -/
theorem exists_databaseKey_eq (a : DatabaseID) (h : ¬ p.Barless) :
    ∃ q, q ≠ p ∧ databaseKey a p = databaseKey a q := by
  obtain ⟨provider, endpoint, region, bucket, rootPrefix, fileRoot⟩ := p
  simp only [Profile.Barless, Profile.texts, forall_mem_cons, not_mem_nil,
    false_imp_iff, implies_true, and_true, not_and_or, not_not] at h
  -- The part after the bar moves to the next text, or the part before it to the one before.
  rcases h with h | h | h | h | h | h <;> obtain ⟨x, y, rfl⟩ := exists_cut h
  · refine ⟨⟨x, y ++ "|" ++ endpoint, region, bucket, rootPrefix, fileRoot⟩,
      fun heq => ?_, by simp [databaseKey, String.append_assoc]⟩
    exact (ne_append_bar x y).1 (congrArg Profile.provider heq).symm
  · refine ⟨⟨provider, x, y ++ "|" ++ region, bucket, rootPrefix, fileRoot⟩,
      fun heq => ?_, by simp [databaseKey, String.append_assoc]⟩
    exact (ne_append_bar x y).1 (congrArg Profile.endpoint heq).symm
  · refine ⟨⟨provider, endpoint, x, y ++ "|" ++ bucket, rootPrefix, fileRoot⟩,
      fun heq => ?_, by simp [databaseKey, String.append_assoc]⟩
    exact (ne_append_bar x y).1 (congrArg Profile.region heq).symm
  · refine ⟨⟨provider, endpoint, region, x, y ++ "|" ++ rootPrefix, fileRoot⟩,
      fun heq => ?_, by simp [databaseKey, String.append_assoc]⟩
    exact (ne_append_bar x y).1 (congrArg Profile.bucket heq).symm
  · refine ⟨⟨provider, endpoint, region, bucket, x, y ++ "|" ++ fileRoot⟩,
      fun heq => ?_, by simp [databaseKey, String.append_assoc]⟩
    exact (ne_append_bar x y).1 (congrArg Profile.rootPrefix heq).symm
  · refine ⟨⟨provider, endpoint, region, bucket, rootPrefix ++ "|" ++ x, y⟩,
      fun heq => ?_, by simp [databaseKey, String.append_assoc]⟩
    exact (ne_append_bar x y).2 (congrArg Profile.fileRoot heq).symm

/-- **A descriptor shares its entry with no other one if and only if its profile contains no bar,
or no database can be registered under its key.** It is enough that the profiles of two descriptors
contain a bar in their file roots at most. -/
theorem never_shared_iff {id : String} {a : DatabaseID} (p : Profile)
    (ha : newDatabaseID id = .ok a) :
    ((∀ id' b q, newDatabaseID id' = .ok b → Shared a p b q → a = b ∧ p = q) ↔
        p.Barless ∨ ¬ Registers (databaseKey a p)) ∧
      ∀ id' b q, newDatabaseID id' = .ok b → p.Separated → q.Separated → Shared a p b q →
        a = b ∧ p = q := by
  have hID := bar_notMem_of_accepted ha
  refine ⟨⟨fun hnever => ?_, fun h id' b q hb hshared => ?_⟩, fun id' b q hb hp hq hshared => ?_⟩
  · by_contra! hshared
    obtain ⟨q, hne, hkey⟩ := exists_databaseKey_eq a hshared.1
    exact hne (hnever id a q ha (shared_iff.mpr ⟨hkey, hshared.2⟩)).2.symm
  · obtain ⟨hkey, hregisters⟩ := shared_iff.mp hshared
    have hp : p.Barless := h.resolve_right (not_not.mpr hregisters)
    have hID' := bar_notMem_of_accepted hb
    have hq := hp.of_databaseKey_eq hID hID' hkey
    exact eq_of_databaseKey_eq hID hID' hp.separated hq.separated hkey
  · exact eq_of_databaseKey_eq hID (bar_notMem_of_accepted hb) hp hq (shared_iff.mp hshared).1

namespace Ambiguous

/-- The replica of one tenant. -/
def first : Profile := ⟨"file", "", "", "", "a|b", "c"⟩

/-- The replica of another tenant. -/
def second : Profile := ⟨"file", "", "", "", "a", "b|c"⟩

theorem accepted : newDatabaseID "db" = .ok ⟨"db"⟩ := by
  refine newDatabaseID_eq_ok_iff.mpr ⟨rfl, ["db".toList], by decide, by decide, ?_⟩
  decide +kernel

/-- The two replicas share an entry. -/
theorem entry_shared :
    newDatabaseID "db" = .ok ⟨"db"⟩ ∧ Shared ⟨"db"⟩ first ⟨"db"⟩ second ∧ first ≠ second :=
  ⟨accepted, shared_iff.mpr ⟨by decide, "db", ⟨"db"⟩, first, ⟨"", ""⟩, ⟨"", ""⟩, _, accepted, rfl,
    rfl⟩, by decide⟩

/-- Without the bar they do not. -/
theorem entry_not_shared : ¬ Shared ⟨"db"⟩ ⟨"file", "", "", "", "a", "c"⟩ ⟨"db"⟩ second := by
  intro hshared
  have heq := (never_shared_iff ⟨"file", "", "", "", "a", "c"⟩ accepted).1.mpr
    (.inl (by decide)) "db" ⟨"db"⟩ second accepted hshared
  exact absurd heq.2 (by decide)

end Ambiguous

end Walrusd.Lifecycle
