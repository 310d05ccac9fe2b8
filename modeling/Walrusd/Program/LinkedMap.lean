import Mathlib

/-!
# Maps that are linked in a list

A map from keys to the elements of a doubly linked list, as least-recently-used caches keep it: the
map finds the element of a key, and the list has the elements in an order. The two are updated
separately, by the address of an element. They agree as long as an element is put at the front only
under a key that is not there, and is removed under its own key.

## Main definitions

* `Program.LinkedMap`, with `find`, `remove`, `pushFront`, `moveToFront`, `set` and `back`.
* `Program.LinkedMap.Linked` — the map and the list agree.
* `Program.LinkedMap.toList` — the keys and values in their order.
* `Program.LinkedMap.Shows` — the list shows the entries of another list.
* `Program.ByRecency` — a list is in the order of last use.

## Main results

* `Program.LinkedMap.Linked.remove`, `Program.LinkedMap.Linked.pushFront`,
  `Program.LinkedMap.Linked.moveToFront`, `Program.LinkedMap.Linked.set`, and for each of them what
  it does to the list of keys and values.
-/

namespace Program

open Function List

theorem perm_cons_filter_ne {β κ : Type} [DecidableEq κ] {f : β → κ} {l : List β} {x : β}
    (hnodup : (l.map f).Nodup) (hx : x ∈ l) : l.Perm (x :: l.filter fun y => f y ≠ f x) := by
  have hself : l.filter (fun y => f y = f x) = [x] := by
    refine List.Perm.eq_singleton ((perm_ext_iff_of_nodup ?_ (nodup_singleton x)).mpr ?_)
    · exact (hnodup.of_map _).filter _
    intro y
    simp only [mem_filter, decide_eq_true_eq, mem_singleton]
    constructor
    · rintro ⟨hy, hkey⟩
      exact inj_on_of_nodup_map hnodup hy hx hkey
    · rintro rfl
      exact ⟨hx, rfl⟩
  have hperm := filter_append_perm (fun y => decide (f y = f x)) l
  rw [hself] at hperm
  simpa using hperm.symm

/-- An element that is found by a key that occurs once. -/
theorem find?_eq_some_iff_of_nodup {β κ : Type} [DecidableEq κ] {f : β → κ} {l : List β} {x : β}
    {k : κ} (hnodup : (l.map f).Nodup) : (l.find? fun y => f y = k) = some x ↔ x ∈ l ∧ f x = k := by
  constructor
  · intro h
    exact ⟨mem_of_find?_eq_some h, by simpa using find?_some h⟩
  rintro ⟨hx, rfl⟩
  cases hfind : l.find? fun y => f y = f x with
  | none => exact absurd (decide_eq_true rfl) (find?_eq_none.mp hfind x hx)
  | some y =>
    have hkey : f y = f x := by simpa using find?_some hfind
    rw [inj_on_of_nodup_map hnodup (mem_of_find?_eq_some hfind) hx hkey]

/-- An element of the list: its address, its key and its value. -/
structure LinkedMap.Element (K V : Type) where
  ptr : ℕ
  key : K
  value : V

/-- A map of addresses, the list from its front to its back, and the next address. -/
structure LinkedMap (K V : Type) where
  entries : AList fun _ : K => ℕ
  order : List (LinkedMap.Element K V)
  next : ℕ

namespace LinkedMap

variable {K V : Type} [DecidableEq K]

/-- The empty map. -/
def empty : LinkedMap K V := ⟨∅, [], 0⟩

/-- The element at an address. -/
def deref (m : LinkedMap K V) (ptr : ℕ) : Option (Element K V) :=
  m.order.find? fun el => el.ptr = ptr

/-- The element of a key. -/
def find (m : LinkedMap K V) (k : K) : Option (Element K V) := (m.entries.lookup k).bind m.deref

/-- The last element. -/
def back (m : LinkedMap K V) : Option (Element K V) := m.order.getLast?

/-- Remove a key from the map and an element from the list. -/
def remove (m : LinkedMap K V) (k : K) (ptr : ℕ) : LinkedMap K V :=
  { m with entries := m.entries.erase k
           order := m.order.filter fun el => el.ptr ≠ ptr }

/-- Put a new element at the front, and map its key to it. -/
def pushFront (m : LinkedMap K V) (k : K) (v : V) : LinkedMap K V :=
  ⟨m.entries.insert k m.next, ⟨m.next, k, v⟩ :: m.order, m.next + 1⟩

/-- Move an element to the front. -/
def moveToFront (m : LinkedMap K V) (ptr : ℕ) : LinkedMap K V :=
  { m with order := (m.deref ptr).toList ++ m.order.filter fun el => el.ptr ≠ ptr }

/-- Change the value of an element. -/
def set (m : LinkedMap K V) (ptr : ℕ) (v : V) : LinkedMap K V :=
  { m with order := m.order.map fun el => if el.ptr = ptr then { el with value := v } else el }

/-- The keys and values, in the order of the list. -/
def toList (m : LinkedMap K V) : List (K × V) := m.order.map fun el => (el.key, el.value)

/-- The map finds each element under its key, and nothing else; addresses and keys occur once. -/
structure Linked (m : LinkedMap K V) : Prop where
  nodup_ptr : (m.order.map Element.ptr).Nodup
  nodup_key : (m.order.map Element.key).Nodup
  lookup_eq : ∀ k p, m.entries.lookup k = some p ↔ ∃ el ∈ m.order, el.key = k ∧ el.ptr = p
  lt_next : ∀ el ∈ m.order, el.ptr < m.next

theorem linked_empty : (empty : LinkedMap K V).Linked where
  nodup_ptr := nodup_nil
  nodup_key := nodup_nil
  lookup_eq k p := by simp [empty]
  lt_next := by simp [empty]

namespace Linked

variable {m : LinkedMap K V} {el : Element K V} {k : K}

variable (h : m.Linked)
include h

theorem deref_eq_some {p : ℕ} : m.deref p = some el ↔ el ∈ m.order ∧ el.ptr = p :=
  find?_eq_some_iff_of_nodup h.nodup_ptr

theorem find_eq_some : m.find k = some el ↔ el ∈ m.order ∧ el.key = k := by
  simp only [find, Option.bind_eq_some_iff, h.lookup_eq, h.deref_eq_some]
  constructor
  · rintro ⟨_, ⟨el', hel', hkey, rfl⟩, hel, hptr⟩
    obtain rfl := inj_on_of_nodup_map h.nodup_ptr hel hel' hptr
    exact ⟨hel, hkey⟩
  · rintro ⟨hel, hkey⟩
    exact ⟨el.ptr, ⟨el, hel, hkey, rfl⟩, hel, rfl⟩

theorem find_eq_none : m.find k = none ↔ ∀ el ∈ m.order, el.key ≠ k := by
  rw [Option.eq_none_iff_forall_ne_some]
  constructor
  · intro hnone el hel hkey
    exact hnone el (h.find_eq_some.mpr ⟨hel, hkey⟩)
  intro hall el hel
  obtain ⟨hmem, hkey⟩ := h.find_eq_some.mp hel
  exact hall el hmem hkey

theorem mem_entries : k ∈ m.entries ↔ k ∈ m.toList.map Prod.fst := by
  rw [← AList.lookup_isSome, Option.isSome_iff_exists]
  simp only [h.lookup_eq, toList, map_map, mem_map, Function.comp_apply]
  constructor
  · rintro ⟨_, el, hel, hkey, -⟩
    exact ⟨el, hel, hkey⟩
  · rintro ⟨el, hel, hkey⟩
    exact ⟨el.ptr, el, hel, hkey, rfl⟩

theorem nodup_toList : (m.toList.map Prod.fst).Nodup := by
  rw [toList, map_map]
  exact h.nodup_key

theorem length_keys : m.entries.keys.length = m.toList.length := by
  have hperm : m.entries.keys.Perm (m.toList.map Prod.fst) :=
    (perm_ext_iff_of_nodup m.entries.keys_nodup h.nodup_toList).mpr fun _ => h.mem_entries
  rw [hperm.length_eq, length_map]

theorem filter_ptr_eq (hel : el ∈ m.order) :
    m.order.filter (fun x => x.ptr ≠ el.ptr) = m.order.filter fun x => x.key ≠ el.key := by
  refine filter_congr fun x hx => ?_
  have hiff : x.ptr = el.ptr ↔ x.key = el.key :=
    ⟨fun hptr => congrArg _ (inj_on_of_nodup_map h.nodup_ptr hx hel hptr),
      fun hkey => congrArg _ (inj_on_of_nodup_map h.nodup_key hx hel hkey)⟩
  simp [hiff]

theorem remove (hk : m.find k = some el) : (m.remove k el.ptr).Linked := by
  obtain ⟨hel, rfl⟩ := h.find_eq_some.mp hk
  have hsub : (m.remove el.key el.ptr).order.Sublist m.order := filter_sublist
  refine ⟨(hsub.map _).nodup h.nodup_ptr, (hsub.map _).nodup h.nodup_key, fun k p => ?_,
    fun x hx => h.lt_next x (hsub.subset hx)⟩
  simp only [LinkedMap.remove, mem_filter]
  by_cases hk : k = el.key
  · subst hk
    rw [AList.lookup_erase]
    refine iff_of_false (by simp) ?_
    rintro ⟨x, ⟨hx, hne⟩, hkey, -⟩
    exact absurd (congrArg _ (inj_on_of_nodup_map h.nodup_key hx hel hkey)) (by simpa using hne)
  · rw [AList.lookup_erase_ne hk, h.lookup_eq]
    refine exists_congr fun x => ⟨?_, ?_⟩
    · rintro ⟨hx, hkey, hp⟩
      refine ⟨⟨hx, decide_eq_true fun hptr => hk ?_⟩, hkey, hp⟩
      rw [← hkey, inj_on_of_nodup_map h.nodup_ptr hx hel hptr]
    · rintro ⟨⟨hx, -⟩, hkey, hp⟩
      exact ⟨hx, hkey, hp⟩

theorem toList_remove (hk : m.find k = some el) :
    (m.remove k el.ptr).toList = m.toList.filter fun x => x.1 ≠ k := by
  obtain ⟨hel, rfl⟩ := h.find_eq_some.mp hk
  simp only [toList, LinkedMap.remove, h.filter_ptr_eq hel, filter_map]
  rfl

theorem find_remove (hk : m.find k = some el) : (m.remove k el.ptr).find k = none := by
  refine (h.remove hk).find_eq_none.mpr fun x hx hkey => ?_
  have hmem : (x.key, x.value) ∈ (m.remove k el.ptr).toList := mem_map_of_mem hx
  rw [h.toList_remove hk] at hmem
  exact of_decide_eq_true (mem_filter.mp hmem).2 hkey

theorem pushFront (hk : m.find k = none) (v : V) : (m.pushFront k v).Linked := by
  refine ⟨?_, ?_, fun k' p => ?_, fun x hx => ?_⟩
  · refine nodup_cons.mpr ⟨fun hmem => ?_, h.nodup_ptr⟩
    obtain ⟨x, hx, hptr⟩ := mem_map.mp hmem
    exact absurd (h.lt_next x hx) (by rw [hptr]; exact lt_irrefl _)
  · refine nodup_cons.mpr ⟨fun hmem => ?_, h.nodup_key⟩
    obtain ⟨x, hx, hkey⟩ := mem_map.mp hmem
    exact h.find_eq_none.mp hk x hx hkey
  · simp only [LinkedMap.pushFront, exists_mem_cons_iff]
    by_cases hk' : k' = k
    · subst hk'
      rw [AList.lookup_insert]
      refine ⟨fun hp => .inl ⟨rfl, Option.some.inj hp⟩, ?_⟩
      rintro (⟨-, rfl⟩ | ⟨x, hx, hkey, -⟩)
      · rfl
      · exact absurd hkey (h.find_eq_none.mp hk x hx)
    · rw [AList.lookup_insert_ne hk', h.lookup_eq]
      exact ⟨.inr, fun hp => hp.resolve_left fun ⟨hkey, _⟩ => hk' hkey.symm⟩
  · rcases mem_cons.mp hx with rfl | hx
    · exact Nat.lt_succ_self _
    · exact (h.lt_next x hx).trans (Nat.lt_succ_self _)

/-- The list with an element at the front is a permutation of the list. -/
theorem order_perm (hk : m.find k = some el) : (m.moveToFront el.ptr).order.Perm m.order := by
  obtain ⟨hel, -⟩ := h.find_eq_some.mp hk
  have hderef := h.deref_eq_some.mpr ⟨hel, rfl⟩
  simp only [LinkedMap.moveToFront, hderef, Option.toList_some, singleton_append]
  exact (perm_cons_filter_ne h.nodup_ptr hel).symm

theorem of_perm {order : List (Element K V)} (hperm : order.Perm m.order) :
    ({ m with order } : LinkedMap K V).Linked where
  nodup_ptr := ((hperm.map _).nodup_iff).mpr h.nodup_ptr
  nodup_key := ((hperm.map _).nodup_iff).mpr h.nodup_key
  lookup_eq k p := by simp only [h.lookup_eq, hperm.mem_iff]
  lt_next x hx := h.lt_next x (hperm.mem_iff.mp hx)

theorem moveToFront (hk : m.find k = some el) : (m.moveToFront el.ptr).Linked :=
  h.of_perm (h.order_perm hk)

theorem toList_moveToFront (hk : m.find k = some el) :
    (m.moveToFront el.ptr).toList = (k, el.value) :: m.toList.filter fun x => x.1 ≠ k := by
  obtain ⟨hel, rfl⟩ := h.find_eq_some.mp hk
  have hderef := h.deref_eq_some.mpr ⟨hel, rfl⟩
  simp only [toList, LinkedMap.moveToFront, hderef, Option.toList_some, h.filter_ptr_eq hel,
    filter_map, map_cons, singleton_append]
  rfl

theorem set (p : ℕ) (v : V) : (m.set p v).Linked := by
  have hptr : (m.set p v).order.map Element.ptr = m.order.map Element.ptr := by
    simp only [LinkedMap.set, map_map]
    exact map_congr_left fun x _ => by simp only [Function.comp_apply]; split <;> rfl
  have hkey : (m.set p v).order.map Element.key = m.order.map Element.key := by
    simp only [LinkedMap.set, map_map]
    exact map_congr_left fun x _ => by simp only [Function.comp_apply]; split <;> rfl
  refine ⟨hptr ▸ h.nodup_ptr, hkey ▸ h.nodup_key, fun k q => (h.lookup_eq k q).trans ?_, ?_⟩
  · simp only [LinkedMap.set, mem_map, exists_exists_and_eq_and]
    refine exists_congr fun x => and_congr_right fun _ => ?_
    split <;> rfl
  intro x hx
  have hmem : x.ptr ∈ m.order.map Element.ptr := hptr ▸ mem_map_of_mem hx
  obtain ⟨y, hy, hxy⟩ := mem_map.mp hmem
  exact hxy ▸ h.lt_next y hy

theorem find_set (hk : m.find k = some el) (v : V) :
    (m.set el.ptr v).find k = some { el with value := v } := by
  obtain ⟨hel, hkey⟩ := h.find_eq_some.mp hk
  refine (h.set el.ptr v).find_eq_some.mpr ⟨mem_map.mpr ⟨el, hel, if_pos rfl⟩, hkey⟩

theorem toList_set_filter (hk : m.find k = some el) (v : V) :
    (m.set el.ptr v).toList.filter (fun x => x.1 ≠ k) = m.toList.filter fun x => x.1 ≠ k := by
  obtain ⟨hel, rfl⟩ := h.find_eq_some.mp hk
  simp only [toList, LinkedMap.set, filter_map, map_map]
  have hsame : m.order.filter ((fun x : K × V => decide (x.1 ≠ el.key)) ∘
      (fun x => (x.key, x.value)) ∘ fun x => if x.ptr = el.ptr then { x with value := v } else x) =
      m.order.filter ((fun x : K × V => decide (x.1 ≠ el.key)) ∘ fun x => (x.key, x.value)) :=
    filter_congr fun x _ => by simp only [Function.comp_apply]; split <;> rfl
  rw [hsame]
  refine map_congr_left fun x hx => ?_
  obtain ⟨hx, hne⟩ := mem_filter.mp hx
  have hptr : x.ptr ≠ el.ptr := by
    intro hptr
    rw [inj_on_of_nodup_map h.nodup_ptr hx hel hptr] at hne
    simp at hne
  simp only [Function.comp_apply, if_neg hptr]

theorem find_back (hback : m.back = some el) : m.find el.key = some el :=
  h.find_eq_some.mpr ⟨mem_of_getLast? hback, rfl⟩

theorem toList_remove_back (hback : m.back = some el) :
    (m.remove el.key el.ptr).toList = m.toList.dropLast := by
  obtain ⟨front, hfront⟩ := getLast?_eq_some_iff.mp hback
  have hnodup := h.nodup_ptr
  rw [hfront, map_append, nodup_append] at hnodup
  have hother : ∀ x ∈ front, x.ptr ≠ el.ptr := fun x hx =>
    hnodup.2.2 _ (mem_map_of_mem hx) _ (by simp)
  simp only [toList, LinkedMap.remove, hfront, filter_append, map_append, map_cons,
    map_nil, dropLast_concat]
  rw [filter_eq_self.mpr fun x hx => decide_eq_true (hother x hx)]
  simp

end Linked

/-- The map and the list agree, and the list shows the entries `l`, each as a key and a value. -/
structure Shows {β : Type} (m : LinkedMap K V) (f : β → K × V) (l : List β) : Prop where
  linked : m.Linked
  toList : m.toList = l.map f

namespace Shows

variable {β : Type} {m : LinkedMap K V} {f : β → K × V} {l : List β} {el : Element K V} {k : K}
  {e : β} {v : V}

variable (h : m.Shows f l)
include h

theorem nodup : (l.map fun e => (f e).1).Nodup := by
  have hnodup := h.linked.nodup_toList
  rw [h.toList, map_map] at hnodup
  exact hnodup

theorem length_order : m.order.length = l.length := by
  have hlength := congrArg List.length h.toList
  rwa [LinkedMap.toList, length_map, length_map] at hlength

theorem exists_of_find (hk : m.find k = some el) : ∃ e ∈ l, f e = (k, el.value) := by
  obtain ⟨hel, rfl⟩ := h.linked.find_eq_some.mp hk
  have hmem : (el.key, el.value) ∈ m.toList := mem_map_of_mem hel
  rw [h.toList] at hmem
  exact mem_map.mp hmem

theorem ne_of_find (hk : m.find k = none) (e : β) (he : e ∈ l) : (f e).1 ≠ k := by
  have hmem : f e ∈ m.toList := h.toList ▸ mem_map_of_mem he
  obtain ⟨el, hel, heq⟩ := mem_map.mp hmem
  rw [← heq]
  exact h.linked.find_eq_none.mp hk el hel

theorem filter_toList (k : K) :
    m.toList.filter (fun x => x.1 ≠ k) = (l.filter fun e => (f e).1 ≠ k).map f := by
  rw [h.toList, filter_map]
  rfl

theorem remove (hk : m.find k = some el) :
    (m.remove k el.ptr).Shows f (l.filter fun e => (f e).1 ≠ k) :=
  ⟨h.linked.remove hk, by rw [h.linked.toList_remove hk, h.filter_toList]⟩

theorem pushFront (hk : m.find k = none) (he : f e = (k, v)) :
    (m.pushFront k v).Shows f (e :: l) := by
  refine ⟨h.linked.pushFront hk v, ?_⟩
  rw [map_cons, ← h.toList, he]
  rfl

theorem moveToFront (hk : m.find k = some el) (he : f e = (k, el.value)) :
    (m.moveToFront el.ptr).Shows f (e :: l.filter fun e => (f e).1 ≠ k) := by
  refine ⟨h.linked.moveToFront hk, ?_⟩
  rw [h.linked.toList_moveToFront hk, h.filter_toList, map_cons, he]

theorem set_moveToFront (hk : m.find k = some el) (he : f e = (k, v)) :
    ((m.set el.ptr v).moveToFront el.ptr).Shows f (e :: l.filter fun e => (f e).1 ≠ k) := by
  have hset := h.linked.set el.ptr v
  have hfind := h.linked.find_set hk v
  have hlinked := hset.moveToFront hfind
  refine ⟨hlinked, (hset.toList_moveToFront hfind).trans ?_⟩
  rw [h.linked.toList_set_filter hk, h.filter_toList, map_cons, he]

theorem eq_nil_of_back (hback : m.back = none) : l = [] := by
  have hlist := h.toList
  rw [LinkedMap.toList, getLast?_eq_none_iff.mp hback] at hlist
  exact map_eq_nil_iff.mp hlist.symm

/-- The last element is the last entry, and its removal shows the others. -/
theorem removeBack (hback : m.back = some el) : ∃ front last, l = front ++ [last] ∧
    f last = (el.key, el.value) ∧ (m.remove el.key el.ptr).Shows f front := by
  obtain ⟨els, hels⟩ := getLast?_eq_some_iff.mp hback
  have hlist := h.toList
  rcases eq_nil_or_concat' l with rfl | ⟨front, last, rfl⟩
  · simp [LinkedMap.toList, hels] at hlist
  have hlast := congrArg List.getLast? hlist
  simp only [LinkedMap.toList, hels, map_append, map_cons, map_nil,
    getLast?_concat, Option.some.injEq] at hlast
  refine ⟨front, last, rfl, hlast.symm, h.linked.remove (h.linked.find_back hback), ?_⟩
  rw [h.linked.toList_remove_back hback, hlist, ← map_dropLast, dropLast_concat]

end Shows

end LinkedMap

/-! ### The order of use -/

section Recency

variable {α : Type} [DecidableEq α] {uses l l' : List α} {x : α}

/-- The elements of `l` are in the order in which they were used last, where `uses` has the uses so
far, the newest first. -/
def ByRecency (uses l : List α) : Prop := l.Pairwise fun x y => uses.idxOf x < uses.idxOf y

theorem byRecency_nil : ByRecency uses [] := List.Pairwise.nil

theorem ByRecency.sublist (h : ByRecency uses l) (hsub : l'.Sublist l) : ByRecency uses l' :=
  List.Pairwise.sublist hsub h

theorem idxOf_cons_of_mem {y : α} (hx : x ∉ l) (hy : y ∈ l) :
    (x :: uses).idxOf y = uses.idxOf y + 1 := by
  refine idxOf_cons_ne uses ?_
  rintro rfl
  exact hx hy

theorem ByRecency.use (h : ByRecency uses l) (hx : x ∉ l) : ByRecency (x :: uses) l := by
  refine List.Pairwise.imp_of_mem (fun ha hb hlt => ?_) h
  rw [idxOf_cons_of_mem hx ha, idxOf_cons_of_mem hx hb]
  exact Nat.succ_lt_succ hlt

theorem ByRecency.cons (h : ByRecency uses l) (hx : x ∉ l) : ByRecency (x :: uses) (x :: l) := by
  refine pairwise_cons.mpr ⟨fun y hy => ?_, h.use hx⟩
  rw [idxOf_cons_self, idxOf_cons_of_mem hx hy]
  exact Nat.succ_pos _

end Recency

end Program
