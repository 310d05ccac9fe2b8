import Walrusd.Lease.Conduct
import Walrusd.Lease.Timed

/-!
# Histories of lease records

The record that a conditional write stores follows from the record that it replaces: a creation
begins with epoch 1, a takeover of a released or safely expired record raises the epoch, a renewal
changes the expiry of a held record, and a release its state and expiry. `Chronicle` says so of a
history; what holds of every history of a key follows by induction.

## Main definitions

* `Follows`, `Chronicle`.
* `acquisitions` — the number of acquisitions of a key.

## Main results

* `Chronicle.epoch_eq` — the stored epoch is the number of acquisitions.
* `Chronicle.origin` — a write keeps the identity of the record of its acquisition.
* `Chronicle.closed_append` — a session that was released or taken over writes no more.
* `Chronicle.session_mono`, `Chronicle.capped` — expiries never decrease in a session and stay below
  its cap.
* `Chronicle.overtaken` — a session that was taken over was released or had expired.
-/

namespace Walrusd.Lease

open List Option

/-- The last effect on a key. -/
def latest (key : String) (l : List Effect) : Option Effect := l.find? fun y => y.key = key

/-- What the store holds under a key after a history that began with the store `store₀`. -/
def stored (store₀ : MemoryStore) (key : String) (l : List Effect) : Option MemEntry :=
  match latest key l with
  | some y => some ⟨y.body, y.token⟩
  | none => store₀.objects key

/-- The process is an acquisition. -/
def Proc.isAcquire : Proc → Bool
  | .acquire _ => true
  | _ => false

/-- The process is a release. -/
def Proc.IsRelease (p : Proc) : Prop := ∃ h k, p = .release h k

/-- The number of acquisitions of a key that took effect. -/
def acquisitions (key : String) (l : List Effect) : ℕ :=
  l.countP fun y => decide (y.key = key) && y.proc.isAcquire

/-- Two records of one acquisition. -/
structure Record.SameLease (rec rec' : Record) : Prop where
  databaseID : rec.databaseID = rec'.databaseID
  owner : rec.owner = rec'.owner
  leaseID : rec.leaseID = rec'.leaseID
  epoch : rec.epoch = rec'.epoch

section Latest

variable {key : String} {l : List Effect} {x y : Effect} {store₀ : MemoryStore}

@[simp] theorem latest_nil : latest key [] = none := rfl

theorem latest_cons_of_eq (h : y.key = key) : latest key (y :: l) = some y := by
  simp [latest, h]

theorem latest_cons_of_ne (h : y.key ≠ key) : latest key (y :: l) = latest key l := by
  simp [latest, h]

theorem key_of_latest (h : latest key l = some y) : y.key = key := by
  simpa using find?_some h

theorem mem_of_latest (h : latest key l = some y) : y ∈ l := mem_of_find?_eq_some h

theorem latest_isSome (hy : y ∈ l) (hk : y.key = key) : ∃ x, latest key l = some x := by
  refine isSome_iff_exists.mp (find?_isSome.mpr ⟨y, hy, ?_⟩)
  simp [hk]

theorem stored_of_latest (h : latest key l = some y) :
    stored store₀ key l = some ⟨y.body, y.token⟩ := by
  simp [stored, h]

theorem stored_of_latest_eq_none (h : latest key l = none) :
    stored store₀ key l = store₀.objects key := by
  simp [stored, h]

end Latest

namespace Record.SameLease

variable {a b c : Record}

theorem refl (a : Record) : a.SameLease a := ⟨rfl, rfl, rfl, rfl⟩

theorem symm (h : a.SameLease b) : b.SameLease a :=
  ⟨h.databaseID.symm, h.owner.symm, h.leaseID.symm, h.epoch.symm⟩

theorem trans (h : a.SameLease b) (h' : b.SameLease c) : a.SameLease c :=
  ⟨h.databaseID.trans h'.databaseID, h.owner.trans h'.owner, h.leaseID.trans h'.leaseID,
    h.epoch.trans h'.epoch⟩

end Record.SameLease

section Definitions

variable (S : Setup) (store₀ : MemoryStore)

/-- The duration that acquisition `n` works with. -/
def Setup.duration (n : ℕ) : ℤ := (S.manager (S.site n)).cfg.duration

/-- The skew allowance that acquisition `n` works with. -/
def Setup.skew (n : ℕ) : ℤ := (S.manager (S.site n)).cfg.clockSkewAllowance

/-- The ways in which an effect may follow a history. -/
inductive Follows (l : List Effect) (y : Effect) : Prop
  | created {n : ℕ} {db : DatabaseID} {t : ℤ} {ts : List ℤ} {id : String}
      (proc : y.proc = .acquire n) (session : y.session = y.token)
      (absent : stored store₀ y.key l = none) (times : y.times = t :: ts)
      (body : S.json.unmarshal y.body = .ok (issued (S.manager (S.site n)) db t id 1))
  | taken {n : ℕ} {db : DatabaseID} {e : MemEntry} {old : Record} {t₁ t₂ : ℤ} {ts : List ℤ}
      {id : String} (proc : y.proc = .acquire n) (session : y.session = y.token)
      (found : stored store₀ y.key l = some e) (replaced : S.json.unmarshal e.body = .ok old)
      (database : old.databaseID = db.string) (times : y.times = t₂ :: t₁ :: ts)
      (expired : old.state = .held → old.expiresAt < t₁ - S.skew n)
      (order : S.Monotone → t₁ ≤ t₂)
      (body : S.json.unmarshal y.body =
        .ok (issued (S.manager (S.site n)) db t₂ id ((old.epoch + 1) % 2 ^ 64)))
  | renewed {h n : ℕ} {x a : Effect} {old : Record} {t t₀ : ℤ} {ts ts₀ : List ℤ}
      (proc : y.proc = .renew h) (last : latest y.key l = some x)
      (session : y.session = x.session) (replaced : S.json.unmarshal x.body = .ok old)
      (held : old.state = .held) (times : y.times = t :: ts)
      (origin : a ∈ l ∧ a.token = y.session ∧ a.proc = .acquire n ∧ a.times = t₀ :: ts₀)
      (cap : t + S.duration n ≤ t₀ + 3 * S.duration n)
      (order : S.Monotone → old.expiresAt ≤ t + S.duration n)
      (body : S.json.unmarshal y.body = .ok { old with expiresAt := t + S.duration n })
  | released {h k : ℕ} {x : Effect} {old : Record} {t : ℤ}
      (proc : y.proc = .release h k) (last : latest y.key l = some x)
      (session : y.session = x.session) (replaced : S.json.unmarshal x.body = .ok old)
      (held : old.state = .held)
      (body : S.json.unmarshal y.body = .ok { old with state := .released, expiresAt := t })

/-- The histories of lease records, newest first. -/
inductive Chronicle : List Effect → Prop
  | nil : Chronicle []
  | cons {l y} (hl : Chronicle l) (fresh : ∀ x ∈ l, x.token ≠ y.token)
      (hy : Follows S store₀ l y) : Chronicle (y :: l)

end Definitions

namespace Chronicle

variable {S : Setup} {store₀ : MemoryStore} {l : List Effect}
variable {z : Effect} {rec : Record}

/-! ### Sessions -/

section

variable (h : Chronicle S store₀ l)
include h

theorem nodup_tokens : (l.map Effect.token).Nodup := by
  induction h with
  | nil => exact nodup_nil
  | cons hl fresh hy ih =>
    refine nodup_cons.mpr ⟨fun hmem => ?_, ih⟩
    obtain ⟨x, hx, heq⟩ := List.mem_map.mp hmem
    exact fresh x hx heq

theorem eq_of_token_eq {x y : Effect} (hx : x ∈ l) (hy : y ∈ l) (heq : x.token = y.token) : x = y :=
  inj_on_of_nodup_map h.nodup_tokens hx hy heq

/-- Every effect of a history stored a record, which is held unless a release stored it. -/
theorem decodes {y : Effect} (hy : y ∈ l) :
    ∃ rec, S.json.unmarshal y.body = .ok rec ∧ (rec.state = .held ↔ ¬ y.proc.IsRelease) := by
  have hnot {p q : Proc} (hp : p = q) (hq : ¬ q.IsRelease) : ¬ p.IsRelease := hp ▸ hq
  induction h with
  | nil => cases hy
  | cons hl fresh hz ih =>
    rcases mem_cons.mp hy with rfl | hy
    · cases hz with
      | created proc session absent times body =>
        exact ⟨_, body, iff_of_true rfl (hnot proc nofun)⟩
      | taken proc session found replaced database times expired order body =>
        exact ⟨_, body, iff_of_true rfl (hnot proc nofun)⟩
      | renewed proc last session replaced held times origin cap order body =>
        exact ⟨_, body, iff_of_true held (hnot proc nofun)⟩
      | released proc last session replaced held body =>
        exact ⟨_, body, iff_of_false nofun (not_not_intro ⟨_, _, proc⟩)⟩
    · exact ih hy

theorem held_iff {y : Effect} (hy : y ∈ l) {rec : Record}
    (hrec : S.json.unmarshal y.body = .ok rec) : rec.state = .held ↔ ¬ y.proc.IsRelease := by
  obtain ⟨rec', hrec', hiff⟩ := h.decodes hy
  cases hrec'.symm.trans hrec
  exact hiff

/-- **A write keeps the identity of its lease.** Every effect goes back to an acquisition of its
key whose record has the same database, owner, lease ID and epoch. -/
theorem origin {y : Effect} (hy : y ∈ l) :
    ∃ a ∈ l, a.token = y.session ∧ a.session = a.token ∧ a.key = y.key ∧
      (∃ n, a.proc = .acquire n) ∧ ∀ rec, S.json.unmarshal y.body = .ok rec →
        ∃ rec₀, S.json.unmarshal a.body = .ok rec₀ ∧ rec.SameLease rec₀ := by
  induction h generalizing y with
  | nil => cases hy
  | @cons l z hl fresh hz ih =>
    rcases mem_cons.mp hy with rfl | hy
    · -- a renewal or a release continues the session of the effect that it replaces
      have hcontinues {x : Effect} {old : Record} (hlast : latest y.key l = some x)
          (hsession : y.session = x.session) (hold : S.json.unmarshal x.body = .ok old)
          {rec' : Record} (hbody : S.json.unmarshal y.body = .ok rec')
          (hsame : rec'.SameLease old) :
          ∃ a ∈ y :: l, a.token = y.session ∧ a.session = a.token ∧ a.key = y.key ∧
            (∃ n, a.proc = .acquire n) ∧ ∀ rec, S.json.unmarshal y.body = .ok rec →
              ∃ rec₀, S.json.unmarshal a.body = .ok rec₀ ∧ rec.SameLease rec₀ := by
        obtain ⟨a, ha, htok, hown, hkey, hproc, hrec⟩ := ih (mem_of_latest hlast)
        obtain ⟨rec₀, hrec₀, hsame₀⟩ := hrec old hold
        refine ⟨a, mem_cons_of_mem _ ha, htok.trans hsession.symm, hown,
          hkey.trans (key_of_latest hlast), hproc, fun rec hrec => ⟨rec₀, hrec₀, ?_⟩⟩
        cases hbody.symm.trans hrec
        exact hsame.trans hsame₀
      have hbegins {n : ℕ} (hproc : y.proc = .acquire n) (hsession : y.session = y.token) :
          ∃ a ∈ y :: l, a.token = y.session ∧ a.session = a.token ∧ a.key = y.key ∧
            (∃ n, a.proc = .acquire n) ∧ ∀ rec, S.json.unmarshal y.body = .ok rec →
              ∃ rec₀, S.json.unmarshal a.body = .ok rec₀ ∧ rec.SameLease rec₀ :=
        ⟨y, mem_cons_self, hsession.symm, hsession, rfl, ⟨n, hproc⟩, fun rec hrec =>
          ⟨rec, hrec, .refl rec⟩⟩
      cases hz with
      | created proc session => exact hbegins proc session
      | taken proc session => exact hbegins proc session
      | renewed proc last session replaced held times origin cap order body =>
        exact hcontinues last session replaced body ⟨rfl, rfl, rfl, rfl⟩
      | released proc last session replaced held body =>
        exact hcontinues last session replaced body ⟨rfl, rfl, rfl, rfl⟩
    · obtain ⟨a, ha, hprops⟩ := ih hy
      exact ⟨a, mem_cons_of_mem _ ha, hprops⟩

/-- Two effects of one session are on one key and stored records of one lease. -/
theorem same_session {x y : Effect} (hx : x ∈ l) (hy : y ∈ l) (hs : x.session = y.session) :
    x.key = y.key ∧ ∀ rec rec', S.json.unmarshal x.body = .ok rec →
      S.json.unmarshal y.body = .ok rec' → rec.SameLease rec' := by
  obtain ⟨a, ha, hat, -, hak, -, har⟩ := h.origin hx
  obtain ⟨b, hb, hbt, -, hbk, -, hbr⟩ := h.origin hy
  obtain rfl : a = b := h.eq_of_token_eq ha hb (hat.trans (hs.trans hbt.symm))
  refine ⟨hak.symm.trans hbk, fun rec rec' hrec hrec' => ?_⟩
  obtain ⟨rec₀, hrec₀, hsame⟩ := har rec hrec
  obtain ⟨rec₁, hrec₁, hsame'⟩ := hbr rec' hrec'
  cases hrec₀.symm.trans hrec₁
  exact hsame.trans hsame'.symm

/-- The token of a new effect begins no earlier session. -/
theorem session_ne_of_fresh {x y : Effect} (fresh : ∀ x ∈ l, x.token ≠ y.token) (hx : x ∈ l) :
    x.session ≠ y.token := by
  obtain ⟨a, ha, hat, -⟩ := h.origin hx
  exact fun heq => fresh a ha (hat.trans heq)

end

/-- The session `f` of a key can write no more: the last effect on the key belongs to another
session or is a release. -/
def Closed (key : String) (f : Token) (l : List Effect) : Prop :=
  ∃ x, latest key l = some x ∧ (x.session = f → x.proc.IsRelease)

/-- How a key is written next: a new session begins, or the session of the last effect, which is
no release, goes on. -/
theorem next_session (h : Chronicle S store₀ l) (hz : Follows S store₀ l z) :
    z.session = z.token ∨ ∃ x, latest z.key l = some x ∧ z.session = x.session ∧
      ¬ x.proc.IsRelease := by
  cases hz with
  | created proc session | taken proc session => exact .inl session
  | renewed proc last session replaced held | released proc last session replaced held =>
    exact .inr ⟨_, last, session, (h.held_iff (mem_of_latest last) replaced).mp held⟩

theorem closed_cons {a : Effect} {key : String} (h : Chronicle S store₀ (z :: l)) (ha : a ∈ l)
    (hc : Closed key a.token l) :
    (z.key = key → z.session ≠ a.token) ∧ Closed key a.token (z :: l) := by
  cases h with
  | cons hl fresh hz =>
    obtain ⟨x, hx, hclosed⟩ := hc
    by_cases hk : z.key = key
    · subst hk
      have hne : z.session ≠ a.token := by
        rcases hl.next_session hz with hown | ⟨x', hx', hsession, hopen⟩
        · rw [hown]
          exact (fresh a ha).symm
        · cases hx.symm.trans hx'
          exact fun heq => hopen (hclosed (hsession.symm.trans heq))
      exact ⟨fun _ => hne, z, latest_cons_of_eq rfl, fun heq => absurd heq hne⟩
    · exact ⟨fun heq => absurd heq hk, x, (latest_cons_of_ne hk).trans hx, hclosed⟩

/-- **A session that was released or taken over writes no more.** -/
theorem closed_append {post : List Effect} {a : Effect} {key : String}
    (h : Chronicle S store₀ (post ++ l)) (ha : a ∈ l) (hc : Closed key a.token l) :
    (∀ z ∈ post, z.key = key → z.session ≠ a.token) ∧ Closed key a.token (post ++ l) := by
  induction post with
  | nil => exact ⟨nofun, hc⟩
  | cons w post ih =>
    have hl : Chronicle S store₀ (post ++ l) := by
      cases h with
      | cons hl => exact hl
    obtain ⟨hpost, hclosed⟩ := ih hl
    obtain ⟨hw, hclosed'⟩ := closed_cons h (mem_append_right post ha) hclosed
    refine ⟨fun z hz => ?_, hclosed'⟩
    rcases mem_cons.mp hz with rfl | hz
    · exact hw
    · exact hpost z hz

theorem suffix (h : Chronicle S store₀ l) {l' : List Effect} (hs : l' <:+ l) :
    Chronicle S store₀ l' := by
  obtain ⟨post, rfl⟩ := hs
  induction post with
  | nil => exact h
  | cons w post ih =>
    cases h with
    | cons hl => exact ih hl

theorem follows (h : Chronicle S store₀ l) {y : Effect} (hy : y ∈ l) :
    ∃ pre, y :: pre <:+ l ∧ Follows S store₀ pre y := by
  obtain ⟨post, pre, rfl⟩ := append_of_mem hy
  refine ⟨pre, suffix_append .., ?_⟩
  cases h.suffix (suffix_append post (y :: pre)) with
  | cons _ _ hy => exact hy

/-! ### Epochs -/

theorem acquisitions_cons (key : String) (y : Effect) (l : List Effect) :
    acquisitions key (y :: l) =
      acquisitions key l + if y.key = key ∧ y.proc.isAcquire = true then 1 else 0 := by
  simp [acquisitions, countP_cons]

/-- A record of the history carries the epoch `n`. -/
def EpochIs (S : Setup) (y : Effect) (n : ℕ) : Prop :=
  ∃ rec, S.json.unmarshal y.body = .ok rec ∧ rec.epoch = n

/-- **The stored epoch is the number of acquisitions**, if the key was absent at first and the
counter has not wrapped around. -/
theorem epoch_eq (h : Chronicle S store₀ l) {key : String} (habsent : store₀.objects key = none)
    (hcount : acquisitions key l < 2 ^ 64) :
    match latest key l with
    | none => acquisitions key l = 0
    | some x => EpochIs S x (acquisitions key l) := by
  induction h with
  | nil => rfl
  | @cons l z hl fresh hz ih =>
    rw [acquisitions_cons] at hcount ⊢
    by_cases hk : z.key = key
    · subst hk
      rw [latest_cons_of_eq rfl]
      have ih := ih (by omega)
      cases hz with
      | created proc session absent times body =>
        have hnone : latest z.key l = none := by
          cases hlast : latest z.key l with
          | none => rfl
          | some x =>
            rw [stored_of_latest hlast] at absent
            cases absent
        rw [hnone] at ih
        refine ⟨_, body, ?_⟩
        simp [issued, proc, Proc.isAcquire, ih]
      | @taken n db e old t₁ t₂ ts id proc session found replaced database times expired order
          body =>
        have hold : old.epoch = acquisitions z.key l := by
          cases hlast : latest z.key l with
          | none =>
            rw [stored_of_latest_eq_none hlast, habsent] at found
            cases found
          | some x =>
            rw [stored_of_latest hlast] at found
            cases found
            rw [hlast] at ih
            obtain ⟨rec, hrec, hepoch⟩ := ih
            rw [← hepoch, Except.ok.inj (replaced.symm.trans hrec)]
        have hacq : z.key = z.key ∧ z.proc.isAcquire = true := ⟨rfl, by rw [proc]; rfl⟩
        rw [if_pos hacq] at hcount ⊢
        refine ⟨_, body, ?_⟩
        rw [issued, hold]
        exact Nat.mod_eq_of_lt hcount
      | renewed proc last session replaced held times origin cap order body =>
        rw [last] at ih
        obtain ⟨rec, hrec, hepoch⟩ := ih
        refine ⟨_, body, ?_⟩
        rw [Except.ok.inj (replaced.symm.trans hrec)]
        simp [hepoch, proc, Proc.isAcquire]
      | released proc last session replaced held body =>
        rw [last] at ih
        obtain ⟨rec, hrec, hepoch⟩ := ih
        refine ⟨_, body, ?_⟩
        rw [Except.ok.inj (replaced.symm.trans hrec)]
        simp [hepoch, proc, Proc.isAcquire]
    · rw [latest_cons_of_ne hk]
      simp only [hk, false_and, if_false, Nat.add_zero] at hcount ⊢
      exact ih hcount

/-! ### Expiries -/

/-- A held record expires one duration after the last reading of the clock that its process made
before it sent the record; the duration is that of the acquisition. A record that was sent again
keeps below the cap of its session. -/
theorem expiry_eq (h : Chronicle S store₀ l) {y : Effect} (hy : y ∈ l)
    (hrec : S.json.unmarshal y.body = .ok rec) (hheld : rec.state = .held) :
    ∃ a ∈ l, ∃ n t ts t₀ ts₀, a.token = y.session ∧ a.proc = .acquire n ∧ y.times = t :: ts ∧
      a.times = t₀ :: ts₀ ∧ rec.expiresAt = t + S.duration n ∧
      (t = t₀ ∨ rec.expiresAt ≤ t₀ + 3 * S.duration n) := by
  induction h with
  | nil => cases hy
  | @cons l z hl fresh hz ih =>
    rcases mem_cons.mp hy with rfl | hy
    · cases hz with
      | created proc session absent times body =>
        rw [Except.ok.inj (hrec.symm.trans body)]
        exact ⟨y, mem_cons_self, _, _, _, _, _, session.symm, proc, times, times, rfl, .inl rfl⟩
      | taken proc session found replaced database times expired order body =>
        rw [Except.ok.inj (hrec.symm.trans body)]
        exact ⟨y, mem_cons_self, _, _, _, _, _, session.symm, proc, times, times, rfl, .inl rfl⟩
      | renewed proc last session replaced held times origin cap order body =>
        obtain ⟨ha, htok, haproc, hatimes⟩ := origin
        rw [Except.ok.inj (hrec.symm.trans body)]
        exact ⟨_, mem_cons_of_mem _ ha, _, _, _, _, _, htok, haproc, times, hatimes, rfl, .inr cap⟩
      | released proc last session replaced held body =>
        rw [Except.ok.inj (hrec.symm.trans body)] at hheld
        cases hheld
    · obtain ⟨a, ha, hprops⟩ := ih hy
      exact ⟨a, mem_cons_of_mem _ ha, hprops⟩

/-- **The expiry never decreases in a session.** If the last effect on a key stored a held record,
no record of its session expires later. -/
theorem session_mono (h : Chronicle S store₀ l) (hmono : S.Monotone) {key : String} {x y : Effect}
    {rec' : Record} (hx : latest key l = some x) (hy : y ∈ l) (hs : y.session = x.session)
    (hrec : S.json.unmarshal y.body = .ok rec) (hrec' : S.json.unmarshal x.body = .ok rec')
    (hheld' : rec'.state = .held) : rec.expiresAt ≤ rec'.expiresAt := by
  induction h generalizing x rec' with
  | nil => cases hx
  | @cons l z hl fresh hz ih =>
    by_cases hk : z.key = key
    · subst hk
      rw [latest_cons_of_eq rfl] at hx
      cases hx
      rcases mem_cons.mp hy with rfl | hy
      · exact Int.le_of_eq (congrArg Record.expiresAt (Except.ok.inj (hrec.symm.trans hrec')))
      have hnew (hown : z.session = z.token) : rec.expiresAt ≤ rec'.expiresAt :=
        absurd (hs.trans hown) (hl.session_ne_of_fresh fresh hy)
      cases hz with
      | created proc session => exact hnew session
      | taken proc session => exact hnew session
      | renewed proc last session replaced held times origin cap order body =>
        have hle := ih last hy (hs.trans session) replaced held
        rw [Except.ok.inj (hrec'.symm.trans body)]
        exact Int.le_trans hle (order hmono)
      | released proc last session replaced held body =>
        rw [Except.ok.inj (hrec'.symm.trans body)] at hheld'
        cases hheld'
    · rw [latest_cons_of_ne hk] at hx
      rcases mem_cons.mp hy with rfl | hy
      · have hkey := ((Chronicle.cons hl fresh hz).same_session mem_cons_self
          (mem_cons_of_mem _ (mem_of_latest hx)) hs).1
        exact absurd (hkey.trans (key_of_latest hx)) hk
      · exact ih hx hy hs hrec' hheld'

/-- **The cap of a session.** A held record expires at most three durations after the reading of
the clock with which it was acquired. -/
theorem capped (h : Chronicle S store₀ l) (hduration : ∀ n, 0 ≤ S.duration n) {y : Effect}
    (hy : y ∈ l) (hrec : S.json.unmarshal y.body = .ok rec) (hheld : rec.state = .held) :
    ∃ a ∈ l, ∃ n t₀ ts₀, a.token = y.session ∧ a.proc = .acquire n ∧ a.times = t₀ :: ts₀ ∧
      rec.expiresAt ≤ t₀ + 3 * S.duration n := by
  obtain ⟨a, ha, n, t, ts, t₀, ts₀, htok, hproc, -, htimes, hexp, hcap⟩ := h.expiry_eq hy hrec hheld
  refine ⟨a, ha, n, t₀, ts₀, htok, hproc, htimes, ?_⟩
  have := hduration n
  omega

/-- The session `f` has lapsed: it was released, or some acquisition found all its records
expired. -/
def Lapsed (S : Setup) (f : Token) (l : List Effect) : Prop :=
  (∃ r ∈ l, r.session = f ∧ r.proc.IsRelease) ∨
    ∃ z ∈ l, ∃ n, z.proc = .acquire n ∧ ∃ t ∈ z.times, ∀ y ∈ l, y.session = f →
      ∀ rec, S.json.unmarshal y.body = .ok rec → rec.state = .held → rec.expiresAt < t - S.skew n

theorem Lapsed.cons {f : Token} (h : Lapsed S f l) (hz : z.session ≠ f) : Lapsed S f (z :: l) := by
  rcases h with ⟨r, hr, hrel⟩ | ⟨x, hx, n, hproc, t, ht, hexpired⟩
  · exact .inl ⟨r, mem_cons_of_mem _ hr, hrel⟩
  refine .inr ⟨x, mem_cons_of_mem _ hx, n, hproc, t, ht, fun y hy hs => ?_⟩
  rcases mem_cons.mp hy with rfl | hy
  · exact absurd hs hz
  · exact hexpired y hy hs

/-- **A session that was taken over had lapsed.** -/
theorem overtaken (h : Chronicle S store₀ l) (hmono : S.Monotone) {x y : Effect} (hy : y ∈ l)
    (hx : latest y.key l = some x) (hne : x.session ≠ y.session) : Lapsed S y.session l := by
  induction h generalizing x with
  | nil => cases hy
  | @cons l z hl fresh hz ih =>
    have hchron := Chronicle.cons hl fresh hz
    by_cases hk : z.key = y.key
    · rw [latest_cons_of_eq hk] at hx
      obtain rfl := some.inj hx
      clear hx
      rcases mem_cons.mp hy with rfl | hy
      · exact absurd rfl hne
      obtain ⟨x, hx⟩ := latest_isSome hy rfl
      by_cases hs : x.session = y.session
      · -- the effect that the new session replaced belongs to the session in question
        rw [← hs]
        cases hz with
        | created proc session absent =>
          rw [hk, stored_of_latest hx] at absent
          cases absent
        | @taken n db e old t₁ t₂ ts id proc session found replaced database times expired =>
          rw [hk, stored_of_latest hx] at found
          cases found
          by_cases hrel : x.proc.IsRelease
          · exact .inl ⟨x, mem_cons_of_mem _ (mem_of_latest hx), rfl, hrel⟩
          have hold := (hl.held_iff (mem_of_latest hx) replaced).mpr hrel
          refine .inr ⟨z, mem_cons_self, n, proc, t₁, by simp [times], ?_⟩
          intro y' hy' hs' rec hrec _
          rcases mem_cons.mp hy' with rfl | hy'
          · exact absurd (hs'.symm.trans session) (hl.session_ne_of_fresh fresh (mem_of_latest hx))
          · have hle := hl.session_mono hmono hx hy' hs' hrec replaced hold
            exact Int.lt_of_le_of_lt hle (expired hold)
        | renewed proc last session =>
          obtain rfl := some.inj ((hk ▸ last).symm.trans hx)
          exact absurd (session.trans hs) hne
        | released proc last session =>
          obtain rfl := some.inj ((hk ▸ last).symm.trans hx)
          exact absurd (session.trans hs) hne
      · exact (ih hy hx hs).cons hne
    · rw [latest_cons_of_ne hk] at hx
      rcases mem_cons.mp hy with rfl | hy
      · exact absurd rfl hk
      · refine (ih hy hx hne).cons fun heq => hk ?_
        exact (hchron.same_session mem_cons_self (mem_cons_of_mem _ hy) heq).1

end Chronicle

end Walrusd.Lease
