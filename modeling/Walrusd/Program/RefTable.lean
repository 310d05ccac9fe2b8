import Mathlib

/-!
# Reference-counted tables

A table finds an object for a key. Whoever enters under a key gets the object of the key, which is
allocated if there is none, and holds a reference to it until they leave; the last one to leave
removes the object. An object that was removed is never found again.

## Main definitions

* `Program.RefTable`, `Program.RefTable.enter`, `Program.RefTable.leave`.
* `Program.RefTable.Crewed` — a table is what those who have entered make of it.

## Main results

* `Program.RefTable.Crewed.enter`, `Program.RefTable.Crewed.leave`.
-/

namespace Program

open Function

/-- A table of objects with reference counts. Objects are numbered in the order in which they are
allocated. -/
structure RefTable (K : Type) where
  /-- The object of a key. -/
  find : K → Option ℕ
  /-- The reference count of an object. -/
  refs : ℕ → ℤ
  /-- The number of the next object. -/
  next : ℕ

namespace RefTable

/-- The table without objects. -/
def empty (K : Type) : RefTable K := ⟨fun _ => none, fun _ => 0, 0⟩

section Operations

variable {K : Type} [DecidableEq K]

/-- The object of a key, which is allocated if there is none. -/
def findOrNew (t : RefTable K) (k : K) : ℕ × RefTable K :=
  match t.find k with
  | some x => (x, t)
  | none => (t.next, ⟨update t.find k (some t.next), update t.refs t.next 0, t.next + 1⟩)

/-- Take a reference to the object of a key. -/
def enter (t : RefTable K) (k : K) : ℕ × RefTable K :=
  let (x, t) := t.findOrNew k
  (x, { t with refs := update t.refs x (t.refs x + 1) })

/-- Give a reference back; the object is removed with the last one. -/
def leave (t : RefTable K) (k : K) (x : ℕ) : RefTable K :=
  let t := { t with refs := update t.refs x (t.refs x - 1) }
  if t.refs x ≤ 0 ∧ t.find k = some x then { t with find := update t.find k none } else t

variable {t : RefTable K} {k : K} {x : ℕ}

theorem enter_of_find (h : t.find k = some x) :
    t.enter k = (x, { t with refs := update t.refs x (t.refs x + 1) }) := by
  simp only [enter, findOrNew, h]

theorem enter_of_none (h : t.find k = none) :
    t.enter k = (t.next, ⟨update t.find k (some t.next), update t.refs t.next 1,
      t.next + 1⟩) := by
  simp [enter, findOrNew, h]

end Operations

/-! ### Those aboard -/

section Crewed

variable {K ι : Type}

/-- The table is what those aboard make of it: each of them is aboard the object that the table
finds for their key, each object in the table has someone aboard, and it counts them. -/
structure Crewed (t : RefTable K) (aboard : ι → Option (K × ℕ)) : Prop where
  find_eq : ∀ i k x, aboard i = some (k, x) → t.find k = some x
  exists_aboard : ∀ k x, t.find k = some x → ∃ i, aboard i = some (k, x)
  lt_next : ∀ k x, t.find k = some x → x < t.next
  inj : ∀ k k' x, t.find k = some x → t.find k' = some x → k = k'
  counts : ∀ k x, t.find k = some x →
    ∃ crew : Finset ι, (∀ i, i ∈ crew ↔ aboard i = some (k, x)) ∧ t.refs x = crew.card

theorem crewed_empty : Crewed (empty K) fun _ : ι => none where
  find_eq := nofun
  exists_aboard := nofun
  lt_next := nofun
  inj := nofun
  counts := nofun

theorem update_eq_some {A B : Type} [DecidableEq A] {f : A → Option B} {a a' : A} {o : Option B}
    {b : B} : update f a o a' = some b ↔ a' = a ∧ o = some b ∨ a' ≠ a ∧ f a' = some b := by
  by_cases h : a' = a
  · subst h
    simp
  · simp [h]

variable [DecidableEq ι] {t : RefTable K} {aboard : ι → Option (K × ℕ)} {k : K} {x : ℕ} {i : ι}

/-- Whoever is aboard stays aboard when `i`, who is not, enters. -/
theorem update_of_aboard {j : ι} {o p : Option (K × ℕ)} {y : K × ℕ} (hi : aboard i = o)
    (hj : aboard j = some y) (ho : o ≠ some y) : update aboard i p j = some y := by
  refine update_eq_some.mpr (.inr ⟨?_, hj⟩)
  rintro rfl
  exact ho (hi.symm.trans hj)

theorem Crewed.enter_of_find (h : t.Crewed aboard) (hi : aboard i = none) (hk : t.find k = some x) :
    Crewed { t with refs := update t.refs x (t.refs x + 1) } (update aboard i (some (k, x))) where
  find_eq j k' x' hj := by
    obtain ⟨-, ⟨⟩⟩ | ⟨-, hj⟩ := update_eq_some.mp hj
    · exact hk
    · exact h.find_eq j k' x' hj
  exists_aboard k' x' hk' := by
    obtain ⟨j, hj⟩ := h.exists_aboard k' x' hk'
    exact ⟨j, update_of_aboard hi hj nofun⟩
  lt_next := h.lt_next
  inj := h.inj
  counts k' x' hk' := by
    obtain ⟨crew, hcrew, hrefs⟩ := h.counts k' x' hk'
    have hnot : i ∉ crew := fun hmem => by
      have haboard := (hcrew i).mp hmem
      rw [hi] at haboard
      cases haboard
    by_cases hx : x' = x
    · subst hx
      obtain rfl := h.inj _ _ _ hk hk'
      refine ⟨insert i crew, fun j => ?_, ?_⟩
      · rw [update_eq_some, Finset.mem_insert, hcrew]
        by_cases hji : j = i <;> simp [hji]
      · simp [Finset.card_insert_of_notMem hnot, hrefs]
    · refine ⟨crew, fun j => ?_, ?_⟩
      · rw [update_eq_some, hcrew]
        by_cases hji : j = i <;> simp [hji, hi, Ne.symm hx]
      · exact (update_of_ne hx ..).trans hrefs

/-- The others of the crew that `i` leaves, which the reduced count counts. -/
theorem Crewed.exists_others (h : t.Crewed aboard) (hi : aboard i = some (k, x)) :
    ∃ others : Finset ι, (∀ j, j ∈ others ↔ update aboard i none j = some (k, x)) ∧
      t.refs x - 1 = others.card := by
  obtain ⟨crew, hcrew, hrefs⟩ := h.counts k x (h.find_eq _ _ _ hi)
  have hmem : i ∈ crew := (hcrew i).mpr hi
  refine ⟨crew.erase i, fun j => ?_, ?_⟩
  · rw [update_eq_some, Finset.mem_erase, hcrew]
    simp
  · rw [Finset.card_erase_of_mem hmem, hrefs, Nat.cast_pred (Finset.card_pos.mpr ⟨i, hmem⟩)]

/-- Who is aboard the object of another key is not affected by leaving. -/
theorem Crewed.counts_of_ne (h : t.Crewed aboard) (hi : aboard i = some (k, x)) {k' : K} {x' : ℕ}
    (hk' : t.find k' = some x') (hne : k' ≠ k) :
    ∃ crew : Finset ι, (∀ j, j ∈ crew ↔ update aboard i none j = some (k', x')) ∧
      update t.refs x (t.refs x - 1) x' = crew.card := by
  obtain ⟨crew, hcrew, hrefs⟩ := h.counts k' x' hk'
  refine ⟨crew, fun j => ?_, ?_⟩
  · rw [update_eq_some, hcrew]
    by_cases hji : j = i <;> simp [hji, hi, Ne.symm hne]
  rwa [update_of_ne]
  rintro rfl
  exact hne (h.inj _ _ _ hk' (h.find_eq _ _ _ hi))

variable [DecidableEq K]

theorem Crewed.enter_of_none (h : t.Crewed aboard) (hi : aboard i = none) (hk : t.find k = none) :
    Crewed ⟨update t.find k (some t.next), update t.refs t.next 1, t.next + 1⟩
      (update aboard i (some (k, t.next))) where
  find_eq j k' x' hj := by
    obtain ⟨-, ⟨⟩⟩ | ⟨-, hj⟩ := update_eq_some.mp hj
    · exact update_self ..
    have hfind := h.find_eq j k' x' hj
    refine update_eq_some.mpr (.inr ⟨?_, hfind⟩)
    rintro rfl
    rw [hk] at hfind
    cases hfind
  exists_aboard k' x' hk' := by
    obtain ⟨rfl, ⟨⟩⟩ | ⟨-, hk'⟩ := update_eq_some.mp hk'
    · exact ⟨i, update_self ..⟩
    · obtain ⟨j, hj⟩ := h.exists_aboard k' x' hk'
      exact ⟨j, update_of_aboard hi hj nofun⟩
  lt_next k' x' hk' := by
    obtain ⟨-, ⟨⟩⟩ | ⟨-, hk'⟩ := update_eq_some.mp hk'
    · exact Nat.lt_succ_self _
    · exact (h.lt_next k' x' hk').trans (Nat.lt_succ_self _)
  inj k' k'' x' hk' hk'' := by
    obtain ⟨rfl, hx⟩ | ⟨-, hold⟩ := update_eq_some.mp hk' <;>
      obtain ⟨rfl, hx'⟩ | ⟨-, hold'⟩ := update_eq_some.mp hk''
    · rfl
    · cases hx
      exact absurd (h.lt_next _ _ hold') (lt_irrefl _)
    · cases hx'
      exact absurd (h.lt_next _ _ hold) (lt_irrefl _)
    · exact h.inj k' k'' x' hold hold'
  counts k' x' hk' := by
    obtain ⟨rfl, ⟨⟩⟩ | ⟨hne, hk'⟩ := update_eq_some.mp hk'
    · refine ⟨{i}, fun j => ?_, by simp⟩
      rw [update_eq_some, Finset.mem_singleton]
      refine ⟨fun hji => .inl ⟨hji, rfl⟩, fun hj => ?_⟩
      obtain ⟨hji, -⟩ | ⟨-, hj⟩ := hj
      · exact hji
      · exact absurd (h.find_eq _ _ _ hj) (by rw [hk]; nofun)
    · obtain ⟨crew, hcrew, hrefs⟩ := h.counts k' x' hk'
      refine ⟨crew, fun j => ?_, (update_of_ne (h.lt_next _ _ hk').ne ..).trans hrefs⟩
      rw [update_eq_some, hcrew]
      by_cases hji : j = i <;> simp [hji, hi, Ne.symm hne]

/-- **Entering keeps the table crewed.** -/
theorem Crewed.enter (h : t.Crewed aboard) (hi : aboard i = none) (k : K) :
    Crewed (t.enter k).2 (update aboard i (some (k, (t.enter k).1))) := by
  cases hk : t.find k with
  | none =>
    rw [RefTable.enter_of_none hk]
    exact h.enter_of_none hi hk
  | some x =>
    rw [RefTable.enter_of_find hk]
    exact h.enter_of_find hi hk

/-- **Leaving keeps the table crewed.** -/
theorem Crewed.leave (h : t.Crewed aboard) (hi : aboard i = some (k, x)) :
    Crewed (t.leave k x) (update aboard i none) := by
  have hk := h.find_eq _ _ _ hi
  obtain ⟨others, hothers, hcard⟩ := h.exists_others hi
  have haboard {j : ι} {y : K × ℕ} (hj : update aboard i none j = some y) :
      aboard j = some y := by
    obtain ⟨-, ⟨⟩⟩ | ⟨-, hj⟩ := update_eq_some.mp hj
    exact hj
  have hstays {j : ι} {k' : K} {x' : ℕ} (hj : aboard j = some (k', x')) (hne : k' ≠ k) :
      update aboard i none j = some (k', x') :=
    update_of_aboard hi hj fun heq => hne (by cases heq; rfl)
  unfold RefTable.leave
  simp only [update_self, hk, and_true]
  split
  · next hlast =>
    have hempty : others = ∅ := by
      rw [← Finset.card_eq_zero]
      omega
    have hfound {k' : K} {x' : ℕ} (hk' : update t.find k none k' = some x') :
        k' ≠ k ∧ t.find k' = some x' := by
      obtain ⟨-, ⟨⟩⟩ | hk' := update_eq_some.mp hk'
      exact hk'
    refine ⟨fun j k' x' hj => ?_, fun k' x' hk' => ?_,
      fun k' x' hk' => h.lt_next _ _ (hfound hk').2,
      fun k' k'' x' hk' hk'' => h.inj _ _ _ (hfound hk').2 (hfound hk'').2,
      fun k' x' hk' => h.counts_of_ne hi (hfound hk').2 (hfound hk').1⟩
    · have hfind := h.find_eq _ _ _ (haboard hj)
      refine update_eq_some.mpr (.inr ⟨?_, hfind⟩)
      rintro rfl
      cases hfind.symm.trans hk
      have hleft := (hothers j).mpr hj
      rw [hempty] at hleft
      exact Finset.notMem_empty j hleft
    · obtain ⟨hne, hfind⟩ := hfound hk'
      obtain ⟨j, hj⟩ := h.exists_aboard k' x' hfind
      exact ⟨j, hstays hj hne⟩
  · next hlast =>
    refine ⟨fun j k' x' hj => h.find_eq _ _ _ (haboard hj), fun k' x' hk' => ?_, h.lt_next, h.inj,
      fun k' x' hk' => ?_⟩ <;> by_cases hne : k' = k
    · subst hne
      cases hk'.symm.trans hk
      have hpos : 0 < others.card := by omega
      obtain ⟨j, hj⟩ := Finset.card_pos.mp hpos
      exact ⟨j, (hothers j).mp hj⟩
    · obtain ⟨j, hj⟩ := h.exists_aboard k' x' hk'
      exact ⟨j, hstays hj hne⟩
    · subst hne
      cases hk'.symm.trans hk
      exact ⟨others, hothers, (update_self ..).trans hcard⟩
    · exact h.counts_of_ne hi hk' hne

end Crewed

end RefTable

end Program
