import Mathlib.Logic.Embedding.Basic
import Mathlib.Logic.Function.Basic
import Mathlib.Data.List.Nodup

/-!
# Compare-and-swap registers

A family of registers, one for each key, whose writes are compare-and-swap: every successful write
leaves a token, and a register is replaced only by a call that names its current token. A machine
that answers the calls of the registers conforms to them if failed calls and calls on other keys
change nothing, written registers stay written, and no register is created twice or replaced twice
on the same token, provided that no two calls use the same new token. A machine that simulates the
registers conforms to them.

## Main definitions

* `Register.Call`, `Register.Reply`, `Register.Machine`, `Register.run`.
* `Register.cells` — the registers themselves.
* `Register.Conforms`, `Register.Simulates`.

## Main results

* `Register.Simulates.conforms`.
* `Register.run_rename` — the registers do not depend on what the tokens are.
* `Register.exists_renaming` — distinct tokens are renamed to distinct tokens by an injection.
-/

namespace Register

open Function List Option

variable {K V T U σ : Type}

/-! ### Calls and machines -/

/-- The calls. -/
inductive Call (K V T : Type)
  | get (k : K)
  | create (k : K) (v : V)
  | replace (k : K) (expected : T) (v : V)
  deriving DecidableEq

/-- The replies: the value and its token, the token of a successful write, a refusal, or an error
that says nothing of the register. -/
inductive Reply (V T : Type)
  | value (v : V) (t : T)
  | token (t : T)
  | notFound
  | conflict
  | alreadyExists
  | other (message : String)
  deriving DecidableEq

/-- The key of a call. -/
def Call.key : Call K V T → K
  | .get k | .create k _ | .replace k _ _ => k

/-- The call failed. -/
def Reply.failed : Reply V T → Bool
  | .notFound | .conflict | .alreadyExists | .other _ => true
  | .value _ _ | .token _ => false

/-- Rename the tokens of a call. -/
def Call.rename (f : T → U) : Call K V T → Call K V U
  | .get k => .get k
  | .create k v => .create k v
  | .replace k expected v => .replace k (f expected) v

/-- Rename the tokens of a reply. -/
def Reply.rename (f : T → U) : Reply V T → Reply V U
  | .value v t => .value v (f t)
  | .token t => .token (f t)
  | .notFound => .notFound
  | .conflict => .conflict
  | .alreadyExists => .alreadyExists
  | .other message => .other message

/-- A machine that answers calls; the last argument is the token that the call may leave. -/
abbrev Machine (σ K V T : Type) := σ → Call K V T → T → Reply V T × σ

/-- Make calls, each with its new token: what was answered, and the state that is left. -/
def run (m : Machine σ K V T) :
    σ → List (Call K V T × T) → List (Call K V T × Reply V T) × σ
  | s, [] => ([], s)
  | s, x :: calls =>
    ((x.1, (m s x.1 x.2).1) :: (run m (m s x.1 x.2).2 calls).1, (run m (m s x.1 x.2).2 calls).2)

theorem run_append (m : Machine σ K V T) (s : σ) (calls calls' : List (Call K V T × T)) :
    (run m s (calls ++ calls')).2 = (run m (run m s calls).2 calls').2 := by
  induction calls generalizing s with
  | nil => rfl
  | cons x calls ih => exact ih _

/-- A successful creation of the register `k`. -/
def created [DecidableEq K] (k : K) : Call K V T × Reply V T → Bool
  | (.create k' _, .token _) => k' = k
  | _ => false

/-- A successful replacement of the register `k` by a call that names the token `t`. -/
def replaced [DecidableEq K] [DecidableEq T] (k : K) (t : T) : Call K V T × Reply V T → Bool
  | (.replace k' t' _, .token _) => k' = k && t' = t
  | _ => false

variable [DecidableEq K] [DecidableEq T] [DecidableEq U]

/-- The machine answers as one compare-and-swap register for each key. -/
structure Conforms (m : Machine σ K V T) (s₀ : σ) : Prop where
  /-- A failed call changes no register. -/
  failed : ∀ calls c t k u, (m (run m s₀ calls).2 c t).1.failed = true →
    (m (m (run m s₀ calls).2 c t).2 (.get k) u).1 = (m (run m s₀ calls).2 (.get k) u).1
  /-- A call changes no register of another key. -/
  other : ∀ calls c t k u, c.key ≠ k →
    (m (m (run m s₀ calls).2 c t).2 (.get k) u).1 = (m (run m s₀ calls).2 (.get k) u).1
  /-- A register never disappears. -/
  present : ∀ calls calls' k u, (m (run m s₀ calls).2 (.get k) u).1 ≠ .notFound →
    (m (run m s₀ (calls ++ calls')).2 (.get k) u).1 ≠ .notFound
  /-- A register is created at most once. -/
  created_once : ∀ calls k, ((run m s₀ calls).1.filter (created k)).length ≤ 1
  /-- A register is replaced at most once on a token, if new tokens are fresh. -/
  replaced_once : ∀ calls, (calls.map Prod.snd).Nodup → ∀ k t,
    ((run m s₀ calls).1.filter (replaced k t)).length ≤ 1

/-! ### The registers -/

/-- The registers. -/
def cells : Machine (K → Option (V × T)) K V T
  | s, .get k, _ =>
    match s k with
    | none => (.notFound, s)
    | some (v, t) => (.value v t, s)
  | s, .create k v, t =>
    match s k with
    | none => (.token t, update s k (some (v, t)))
    | some _ => (.alreadyExists, s)
  | s, .replace k expected v, t =>
    match s k with
    | none => (.notFound, s)
    | some (_, t') =>
      if t' = expected then (.token t, update s k (some (v, t))) else (.conflict, s)

section Cells

variable {s : K → Option (V × T)} {c : Call K V T} {t : T} {k : K}
variable {u e : T}

/-- What a call does: nothing, or it writes its register, with its token. -/
theorem cells_cases (s : K → Option (V × T)) (c : Call K V T) (t : T) :
    ((cells s c t).2 = s ∧ ∀ u, (cells s c t).1 ≠ .token u) ∨
      (cells s c t).1 = .token t ∧
        ((∃ v, c = .create c.key v ∧ s c.key = none ∧
          (cells s c t).2 = update s c.key (some (v, t))) ∨
        ∃ v v' expected, c = .replace c.key expected v ∧ s c.key = some (v', expected) ∧
          (cells s c t).2 = update s c.key (some (v, t))) := by
  cases c with
  | get k =>
    simp only [cells]
    split <;> exact .inl ⟨rfl, nofun⟩
  | create k v =>
    simp only [cells, Call.key]
    split
    · next h => exact .inr ⟨rfl, .inl ⟨v, rfl, h, rfl⟩⟩
    · exact .inl ⟨rfl, nofun⟩
  | replace k expected v =>
    simp only [cells, Call.key]
    split
    · exact .inl ⟨rfl, nofun⟩
    · next v' t' h =>
      split
      · next heq => exact .inr ⟨rfl, .inr ⟨v, v', expected, rfl, heq ▸ h, rfl⟩⟩
      · exact .inl ⟨rfl, nofun⟩

theorem cells_of_ne (h : c.key ≠ k) : (cells s c t).2 k = s k := by
  rcases cells_cases s c t with ⟨hs, -⟩ | ⟨-, ⟨v, -, -, hs⟩ | ⟨v, v', e, -, -, hs⟩⟩
  · rw [hs]
  · rw [hs, update_of_ne h.symm]
  · rw [hs, update_of_ne h.symm]

theorem cells_of_failed (h : (cells s c t).1.failed = true) : (cells s c t).2 = s := by
  rcases cells_cases s c t with ⟨hs, -⟩ | ⟨hr, -⟩
  · exact hs
  · rw [hr] at h
    cases h

theorem cells_present (h : s k ≠ none) : (cells s c t).2 k ≠ none := by
  by_cases hk : c.key = k
  · rcases cells_cases s c t with ⟨hs, -⟩ | ⟨-, ⟨v, -, -, hs⟩ | ⟨v, v', e, -, -, hs⟩⟩
    · rwa [hs]
    · rw [hs, hk, update_self]
      exact some_ne_none _
    · rw [hs, hk, update_self]
      exact some_ne_none _
  · rwa [cells_of_ne hk]

theorem cells_get_eq_notFound : (cells s (.get k) u).1 = .notFound ↔ s k = none := by
  simp only [cells]
  split
  · next h => exact iff_of_true rfl h
  · next h => exact iff_of_false nofun fun hnone => by rw [h] at hnone; cases hnone

theorem cells_get_congr {s' : K → Option (V × T)} (h : s' k = s k) :
    (cells s' (.get k) u).1 = (cells s (.get k) u).1 := by
  simp only [cells, h]
  split <;> rfl

theorem cells_token {v : V} (h : (cells s c t).2 k = some (v, u)) :
    (∃ v', s k = some (v', u)) ∨ u = t := by
  by_cases hk : c.key = k
  · rcases cells_cases s c t with ⟨hs, -⟩ | ⟨-, ⟨v', -, -, hs⟩ | ⟨v', v'', e, -, -, hs⟩⟩
    · exact .inl ⟨v, hs ▸ h⟩
    · rw [hs, hk, update_self] at h
      exact .inr (Prod.mk.inj (some.inj h)).2.symm
    · rw [hs, hk, update_self] at h
      exact .inr (Prod.mk.inj (some.inj h)).2.symm
  · rw [cells_of_ne hk] at h
    exact .inl ⟨v, h⟩

omit [DecidableEq T] in
theorem created_iff {r : Reply V T} :
    created k (c, r) = true ↔ (∃ v, c = .create k v) ∧ ∃ u, r = .token u := by
  cases c <;> cases r <;> simp [created]

theorem replaced_iff {r : Reply V T} :
    replaced k e (c, r) = true ↔ (∃ v, c = .replace k e v) ∧ ∃ u, r = .token u := by
  cases c <;> cases r <;> simp [replaced]

theorem cells_created (h : created k (c, (cells s c t).1) = true) :
    s k = none ∧ (cells s c t).2 k ≠ none := by
  obtain ⟨⟨v, rfl⟩, u, hr⟩ := created_iff.mp h
  rcases cells_cases s (.create k v) t with
    ⟨-, hnot⟩ | ⟨-, ⟨v', -, hnone, hs⟩ | ⟨_, _, _, hc, -⟩⟩
  · exact absurd hr (hnot u)
  · refine ⟨hnone, ?_⟩
    rw [hs, Call.key, update_self]
    exact some_ne_none _
  · cases hc

theorem cells_replaced (h : replaced k e (c, (cells s c t).1) = true) :
    (∃ v, s k = some (v, e)) ∧ ∃ v, (cells s c t).2 k = some (v, t) := by
  obtain ⟨⟨v, rfl⟩, u, hr⟩ := replaced_iff.mp h
  rcases cells_cases s (.replace k e v) t with
    ⟨-, hnot⟩ | ⟨-, ⟨_, hc, -⟩ | ⟨v₁, v₂, e', hc, hs, hs'⟩⟩
  · exact absurd hr (hnot u)
  · cases hc
  injection hc with _ he hv
  subst he hv
  refine ⟨⟨v₂, hs⟩, v, ?_⟩
  rw [hs', Call.key, update_self]

/-! ### Runs of the registers -/

theorem run_present (calls : List (Call K V T × T)) (h : s k ≠ none) :
    (run cells s calls).2 k ≠ none := by
  induction calls generalizing s with
  | nil => exact h
  | cons x calls ih => exact ih (cells_present h)

theorem run_not_created (calls : List (Call K V T × T)) (h : s k ≠ none) :
    (run cells s calls).1.filter (created k) = [] := by
  induction calls generalizing s with
  | nil => rfl
  | cons x calls ih =>
    have hnot : ¬ created k (x.1, (cells s x.1 x.2).1) = true := fun hc => h (cells_created hc).1
    rw [run, filter_cons_of_neg hnot]
    exact ih (cells_present h)

theorem run_created_once (calls : List (Call K V T × T)) (s : K → Option (V × T)) (k : K) :
    ((run cells s calls).1.filter (created k)).length ≤ 1 := by
  induction calls generalizing s with
  | nil => exact Nat.zero_le 1
  | cons x calls ih =>
    rw [run, filter_cons]
    split
    · next hc =>
      rw [run_not_created calls (cells_created hc).2]
      exact Nat.le_refl 1
    · exact ih _

theorem run_not_replaced (calls : List (Call K V T × T)) (h : ∀ v, s k ≠ some (v, e))
    (hnew : e ∉ calls.map Prod.snd) : (run cells s calls).1.filter (replaced k e) = [] := by
  induction calls generalizing s with
  | nil => rfl
  | cons x calls ih =>
    obtain ⟨hx, hrest⟩ := not_or.mp (fun hmem => hnew (mem_cons.mpr hmem))
    have hnot : ¬ replaced k e (x.1, (cells s x.1 x.2).1) = true := fun hc => by
      obtain ⟨v, hv⟩ := (cells_replaced hc).1
      exact h v hv
    rw [run, filter_cons_of_neg hnot]
    refine ih (fun v hv => ?_) hrest
    rcases cells_token hv with ⟨v', hv'⟩ | heq
    · exact h v' hv'
    · exact hx heq

theorem run_replaced_once (calls : List (Call K V T × T)) (hnodup : (calls.map Prod.snd).Nodup)
    (hfresh : ∀ k v u, s k = some (v, u) → u ∉ calls.map Prod.snd) (k : K) :
    ((run cells s calls).1.filter (replaced k e)).length ≤ 1 := by
  induction calls generalizing s with
  | nil => exact Nat.zero_le 1
  | cons x calls ih =>
    obtain ⟨hx, hnodup⟩ := nodup_cons.mp hnodup
    rw [run, filter_cons]
    split
    · next hc =>
      obtain ⟨⟨v, hv⟩, v', hv'⟩ := cells_replaced hc
      -- the named token is an old one, and the register now has a new one
      obtain ⟨hne, hold⟩ := not_or.mp fun hmem => hfresh k v e hv (mem_cons.mpr hmem)
      rw [run_not_replaced calls (fun v₁ hv₁ => ?_) hold]
      · exact Nat.le_refl 1
      · rw [hv'] at hv₁
        exact hne (Prod.mk.inj (some.inj hv₁)).2.symm
    · refine ih hnodup fun k' v' u' hu' => ?_
      rcases cells_token hu' with ⟨v, hv⟩ | rfl
      · exact fun hmem => hfresh k' v u' hv (mem_cons_of_mem _ hmem)
      · exact hx

end Cells

/-! ### Simulation -/

/-- In states that satisfy `I`, the machine answers as the registers that `abs` shows. -/
structure Simulates (m : Machine σ K V T) (abs : σ → K → Option (V × T)) (I : σ → Prop) :
    Prop where
  reply : ∀ s c t, I s → (m s c t).1 = (cells (abs s) c t).1
  state : ∀ s c t, I s → abs (m s c t).2 = (cells (abs s) c t).2
  keeps : ∀ s c t, I s → I (m s c t).2

section Simulation

variable {m : Machine σ K V T} {abs : σ → K → Option (V × T)} {I : σ → Prop}

theorem Simulates.run (h : Simulates m abs I) {s : σ} (hs : I s) (calls : List (Call K V T × T)) :
    (Register.run m s calls).1 = (Register.run cells (abs s) calls).1 ∧
      abs (Register.run m s calls).2 = (Register.run cells (abs s) calls).2 ∧
      I (Register.run m s calls).2 := by
  induction calls generalizing s with
  | nil => exact ⟨rfl, rfl, hs⟩
  | cons x calls ih =>
    obtain ⟨htrace, hstate, hkeeps⟩ := ih (h.keeps s x.1 x.2 hs)
    rw [h.state s x.1 x.2 hs] at htrace hstate
    refine ⟨?_, hstate, hkeeps⟩
    rw [Register.run, Register.run, htrace, h.reply s x.1 x.2 hs]

/-- **A machine that simulates the registers conforms to them.** -/
theorem Simulates.conforms (h : Simulates m abs I) {s₀ : σ} (hs₀ : I s₀)
    (hempty : abs s₀ = fun _ => none) : Conforms m s₀ where
  failed calls c t k u hfailed := by
    obtain ⟨-, -, hs⟩ := h.run hs₀ calls
    rw [h.reply _ _ _ (h.keeps _ c t hs), h.reply _ _ _ hs, h.state _ c t hs]
    rw [h.reply _ _ _ hs] at hfailed
    rw [cells_of_failed hfailed]
  other calls c t k u hkey := by
    obtain ⟨-, -, hs⟩ := h.run hs₀ calls
    rw [h.reply _ _ _ (h.keeps _ c t hs), h.reply _ _ _ hs, h.state _ c t hs]
    exact cells_get_congr (cells_of_ne hkey)
  present calls calls' k u hfound := by
    obtain ⟨-, -, hs⟩ := h.run hs₀ calls
    obtain ⟨-, hstate, hs'⟩ := h.run hs calls'
    rw [h.reply _ _ _ hs, Ne, cells_get_eq_notFound] at hfound
    rw [run_append, h.reply _ _ _ hs', Ne, cells_get_eq_notFound, hstate]
    exact run_present calls' hfound
  created_once calls k := by
    rw [(h.run hs₀ calls).1]
    exact run_created_once calls _ k
  replaced_once calls hnodup k t := by
    rw [(h.run hs₀ calls).1, hempty]
    refine run_replaced_once calls hnodup (fun k v u hnone => ?_) k
    cases hnone

end Simulation

/-! ### Renaming -/

/-- Rename the tokens of the registers. -/
def renameCells (f : T → U) (s : K → Option (V × T)) : K → Option (V × U) :=
  fun k => (s k).map fun x => (x.1, f x.2)

theorem cells_rename {f : T → U} (hf : Function.Injective f) (s : K → Option (V × T))
    (c : Call K V T) (t : T) :
    (cells (renameCells f s) (c.rename f) (f t)).1 = (cells s c t).1.rename f ∧
      (cells (renameCells f s) (c.rename f) (f t)).2 = renameCells f (cells s c t).2 := by
  have hupdate : ∀ k v, update (renameCells f s) k (some (v, f t)) =
      renameCells f (update s k (some (v, t))) := by
    intro k v
    funext k'
    by_cases hk : k' = k
    · subst hk
      simp [renameCells]
    · simp [renameCells, update_of_ne hk]
  cases c with
  | get k =>
    cases hk : s k with
    | none => simp [cells, Call.rename, Reply.rename, renameCells, hk]
    | some x => simp [cells, Call.rename, Reply.rename, renameCells, hk]
  | create k v =>
    cases hk : s k with
    | none =>
      have hk' : renameCells f s k = none := by simp [renameCells, hk]
      simp only [cells, Call.rename, hk, hk']
      exact ⟨rfl, hupdate k v⟩
    | some x =>
      have hk' : renameCells f s k = some (x.1, f x.2) := by simp [renameCells, hk]
      simp only [cells, Call.rename, hk, hk', Reply.rename, and_self]
  | replace k expected v =>
    cases hk : s k with
    | none =>
      have hk' : renameCells f s k = none := by simp [renameCells, hk]
      simp only [cells, Call.rename, hk, hk', Reply.rename, and_self]
    | some x =>
      have hk' : renameCells f s k = some (x.1, f x.2) := by simp [renameCells, hk]
      simp only [cells, Call.rename, hk, hk', hf.eq_iff]
      split
      · exact ⟨rfl, hupdate k v⟩
      · exact ⟨rfl, rfl⟩

/-- **The registers do not depend on what the tokens are.** -/
theorem run_rename {f : T → U} (hf : Function.Injective f) (s : K → Option (V × T))
    (calls : List (Call K V T × T)) :
    (run cells (renameCells f s) (calls.map fun x => (x.1.rename f, f x.2))).1 =
      (run cells s calls).1.map fun x => (x.1.rename f, x.2.rename f) := by
  induction calls generalizing s with
  | nil => rfl
  | cons x calls ih =>
    obtain ⟨hreply, hstate⟩ := cells_rename hf s x.1 x.2
    rw [map_cons, run, run, map_cons, hreply, hstate, ih]

omit [DecidableEq K] [DecidableEq T] [DecidableEq U] in
/-- Distinct tokens can be renamed to any other distinct tokens. -/
theorem exists_renaming (e : T ↪ U) {ts : List T} {us : List U} (hts : ts.Nodup) (hus : us.Nodup)
    (hlength : ts.length = us.length) : ∃ f : T ↪ U, ts.map f = us := by
  classical
  induction ts generalizing us with
  | nil =>
    obtain rfl := eq_nil_of_length_eq_zero hlength.symm
    exact ⟨e, rfl⟩
  | cons t ts ih =>
    obtain ⟨u, us, rfl⟩ := exists_cons_of_length_eq_add_one hlength.symm
    obtain ⟨ht, hts⟩ := nodup_cons.mp hts
    obtain ⟨hu, hus⟩ := nodup_cons.mp hus
    obtain ⟨f, hf⟩ := ih hts hus (Nat.succ.inj hlength)
    refine ⟨f.setValue t u, ?_⟩
    rw [map_cons, Function.Embedding.setValue_eq, ← hf]
    congr 1
    refine map_congr_left fun t' ht' => ?_
    -- the values on the other tokens are not `u`
    have hne : t' ≠ t := fun h => ht (h ▸ ht')
    have hfu : f t' ≠ u := fun h => hu (h ▸ hf ▸ List.mem_map_of_mem ht')
    simp [Function.Embedding.setValue, hne, hfu]

end Register
