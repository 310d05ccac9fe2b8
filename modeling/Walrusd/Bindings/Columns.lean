import Mathlib

/-!
# Columns and row objects

`uniqueColumnKeys` and the row objects of `bindings/c/adapter.go`. The first column of a name keeps
it, and later ones get a number appended. A generated key can be the name of another column, in
which case a row has fewer entries than columns.

## Main definitions

* `uniqueColumnKeys`, `Unambiguous`.
* `rowObject`.

## Main results

* `uniqueColumnKeys_nodup_iff`.
* `row_complete_iff`.
-/

namespace Walrusd.Bindings

open Function List

/-! ### Column keys -/

/-- The key of a column whose name has occurred `n` times before. -/
def columnKey (c : String) (n : ℕ) : String :=
  if n = 0 then c else c ++ "_" ++ toString (n + 1)

/-- The loop of `uniqueColumnKeys`; `seen` counts the occurrences so far. -/
def columnKeys (seen : String → ℕ) : List String → List String
  | [] => []
  | c :: cols => columnKey c (seen c) :: columnKeys (update seen c (seen c + 1)) cols

/-- `uniqueColumnKeys`. -/
def uniqueColumnKeys (cols : List String) : List String := columnKeys (fun _ => 0) cols

/-- The columns with the number of occurrences of their name before them. -/
def occurrences (seen : String → ℕ) : List String → List (String × ℕ)
  | [] => []
  | c :: cols => (c, seen c) :: occurrences (update seen c (seen c + 1)) cols

variable {cols : List String} {c : String} {n : ℕ}

theorem columnKeys_eq_map (seen : String → ℕ) (cols : List String) :
    columnKeys seen cols = (occurrences seen cols).map fun x => columnKey x.1 x.2 := by
  induction cols generalizing seen with
  | nil => rfl
  | cons c cols ih => rw [columnKeys, occurrences, ih, map_cons]

theorem mem_occurrences {seen : String → ℕ} :
    (c, n) ∈ occurrences seen cols ↔ seen c ≤ n ∧ n < seen c + cols.count c := by
  induction cols generalizing seen with
  | nil => simp [occurrences]
  | cons d cols ih =>
    rw [occurrences, mem_cons, ih]
    by_cases hc : c = d
    · subst hc
      simp only [Prod.mk.injEq, true_and, update_self, count_cons_self]
      omega
    · rw [update_of_ne hc, count_cons_of_ne (Ne.symm hc)]
      simp [hc]

theorem occurrences_nodup (seen : String → ℕ) (cols : List String) :
    (occurrences seen cols).Nodup := by
  induction cols generalizing seen with
  | nil => exact nodup_nil
  | cons c cols ih =>
    refine nodup_cons.mpr ⟨fun hmem => ?_, ih _⟩
    have hle := (mem_occurrences.mp hmem).1
    rw [update_self] at hle
    omega

theorem getElem?_columnKeys (seen : String → ℕ) (cols : List String) (i : ℕ) :
    (columnKeys seen cols)[i]? =
      cols[i]?.map fun c => columnKey c (seen c + (cols.take i).count c) := by
  induction cols generalizing seen i with
  | nil => simp [columnKeys]
  | cons d cols ih =>
    cases i with
    | zero => simp [columnKeys]
    | succ i =>
      rw [columnKeys, getElem?_cons_succ, getElem?_cons_succ, ih, take_succ_cons]
      refine Option.map_congr fun c _ => ?_
      by_cases hc : c = d
      · subst hc
        rw [update_self, count_cons_self]
        congr 1
        omega
      · rw [update_of_ne hc, count_cons_of_ne (Ne.symm hc)]

theorem underscore_not_mem_toString (n : ℕ) : '_' ∉ (toString n).toList := by
  intro hmem
  have hdigits : '_' ∈ Nat.toDigits 10 n := by
    rwa [Nat.toString_eq_repr, Nat.repr_eq_ofList_toDigits, String.toList_ofList] at hmem
  exact absurd (Nat.isDigit_of_mem_toDigits (by decide) (by decide) hdigits) (by decide)

/-- A text that ends in an underscore is not prolonged by a part of a number to another one. -/
theorem eq_nil_of_append_underscore {c d a : List Char} {rest : List Char}
    (h : d ++ ['_'] = c ++ ['_'] ++ a) (hn : (toString n).toList = a ++ rest) : a = [] := by
  by_contra hne
  have hlast := congrArg List.getLast? h
  rw [getLast?_concat, getLast?_append_of_ne_nil _ hne] at hlast
  refine underscore_not_mem_toString n ?_
  rw [hn]
  exact mem_append_left _ (mem_of_getLast? hlast.symm)

/-- The name and the number of a generated key are determined by it. -/
theorem append_underscore_inj {d : String} {m : ℕ}
    (h : c ++ "_" ++ toString m = d ++ "_" ++ toString n) : c = d ∧ m = n := by
  have hlist := congrArg String.toList h
  simp only [String.toList_append] at hlist
  have hname : c ++ "_" = d ++ "_" := by
    rw [← String.toList_inj, String.toList_append, String.toList_append]
    rcases append_eq_append_iff.mp hlist with ⟨a, hd, hm⟩ | ⟨a, hc, hn⟩
    · rw [hd, eq_nil_of_append_underscore hd hm, append_nil]
    · rw [hc, eq_nil_of_append_underscore hc hn, append_nil]
  rw [hname, String.append_right_inj, Nat.toString_eq_repr, Nat.toString_eq_repr] at h
  exact ⟨(String.append_left_inj _).mp hname, Nat.repr_injective h⟩

/-- Two columns get the same key only if one of them is named like the generated key of the
other. -/
theorem columnKey_eq_iff {d : String} {m : ℕ} : columnKey c m = columnKey d n ↔
    (c = d ∧ m = n) ∨ (m ≠ 0 ∧ n = 0 ∧ d = columnKey c m) ∨
      (m = 0 ∧ n ≠ 0 ∧ c = columnKey d n) := by
  unfold columnKey
  by_cases hm : m = 0 <;> by_cases hn : n = 0
  · simp [hm, hn]
  · simp [hm, hn, Ne.symm hn]
  · simp [hm, hn, eq_comm]
  · simp only [hm, hn, ne_eq, if_false, false_and, and_false, or_false]
    refine ⟨fun h => ?_, fun ⟨hc, hmn⟩ => by rw [hc, hmn]⟩
    obtain ⟨hc, hmn⟩ := append_underscore_inj h
    exact ⟨hc, Nat.succ_injective hmn⟩

/-- No generated key is the name of a column. -/
def Unambiguous (cols : List String) : Prop :=
  ∀ c k, 2 ≤ k → k ≤ cols.count c → c ++ "_" ++ toString k ∉ cols

/-- **The keys are distinct if and only if no generated key is the name of a column.** -/
theorem uniqueColumnKeys_nodup_iff : (uniqueColumnKeys cols).Nodup ↔ Unambiguous cols := by
  have hmem : ∀ c n, (c, n) ∈ occurrences (fun _ => 0) cols ↔ n < cols.count c := fun c n => by
    simp [mem_occurrences]
  rw [uniqueColumnKeys, columnKeys_eq_map, nodup_map_iff_inj_on (occurrences_nodup _ _)]
  constructor
  · intro hinj c k htwo hk hname
    have hgenerated : columnKey c (k - 1) = c ++ "_" ++ toString k := by
      rw [columnKey, if_neg (by omega), Nat.sub_add_cancel (by omega)]
    have heq := hinj (c, k - 1) ((hmem _ _).mpr (by omega)) (columnKey c (k - 1), 0)
      ((hmem _ _).mpr (by rw [hgenerated]; exact count_pos_iff.mpr hname))
      (columnKey_eq_iff.mpr (.inr (.inl ⟨by omega, rfl, rfl⟩)))
    have := (Prod.mk.inj heq).2
    omega
  · rintro hnone ⟨c, m⟩ hc ⟨d, n⟩ hd heq
    have hcollide : ∀ c d m, m ≠ 0 → m < cols.count c → 0 < cols.count d →
        d ≠ columnKey c m := by
      rintro c d m hm hc hd rfl
      refine hnone c (m + 1) (by omega) (by omega) ?_
      have := count_pos_iff.mp hd
      rwa [columnKey, if_neg hm] at this
    rw [hmem] at hc hd
    rcases columnKey_eq_iff.mp heq with ⟨hname, hcount⟩ | ⟨hm, hn, hname⟩ | ⟨hm, hn, hname⟩
    · exact Prod.ext hname hcount
    · exact absurd hname (hcollide c d m hm hc (by omega))
    · exact absurd hname (hcollide d c n hn hd (by omega))

/-- The first occurrence of a name keeps it. -/
theorem getElem?_uniqueColumnKeys_of_first {i : ℕ} (hc : cols[i]? = some c)
    (hfirst : c ∉ cols.take i) : (uniqueColumnKeys cols)[i]? = some c := by
  rw [uniqueColumnKeys, getElem?_columnKeys, hc, Option.map_some, count_eq_zero.mpr hfirst]
  rfl

theorem length_uniqueColumnKeys (cols : List String) :
    (uniqueColumnKeys cols).length = cols.length := by
  have hlength : ∀ seen, (columnKeys seen cols).length = cols.length := by
    induction cols with
    | nil => exact fun _ => rfl
    | cons c cols ih => exact fun seen => congrArg (· + 1) (ih _)
  exact hlength _

/-! ### Rows -/

/-- The driver's values. A JSON text cannot carry the bytes of a BLOB; values of the other types
are marshalled as they are. -/
inductive DriverValue (J : Type)
  | blob (data : List UInt8)
  | plain (value : J)
  deriving DecidableEq

/-- The digits of `base64.StdEncoding`. -/
def base64Digit (n : ℕ) : Char :=
  if n < 26 then Char.ofNat ('A'.toNat + n)
  else if n < 52 then Char.ofNat ('a'.toNat + (n - 26))
  else if n < 62 then Char.ofNat ('0'.toNat + (n - 52))
  else if n = 62 then '+' else '/'

/-- `base64.StdEncoding.EncodeToString`. -/
def base64 : List UInt8 → List Char
  | a :: b :: c :: rest =>
    base64Digit (a.toNat / 4) :: base64Digit (a.toNat % 4 * 16 + b.toNat / 16) ::
      base64Digit (b.toNat % 16 * 4 + c.toNat / 64) :: base64Digit (c.toNat % 64) :: base64 rest
  | [a, b] =>
    [base64Digit (a.toNat / 4), base64Digit (a.toNat % 4 * 16 + b.toNat / 16),
      base64Digit (b.toNat % 16 * 4), '=']
  | [a] => [base64Digit (a.toNat / 4), base64Digit (a.toNat % 4 * 16), '=', '=']
  | [] => []

/-- The values of a row object. -/
inductive JsonValue (J : Type)
  | text (value : String)
  | plain (value : J)
  deriving DecidableEq

/-- `normalize`. -/
def normalize {J : Type} : DriverValue J → JsonValue J
  | .blob data => .text (String.ofList (base64 data))
  | .plain value => .plain value

/-- A row object: a Go map from keys to values. -/
abbrev RowObject (J : Type) := Finmap fun _ : String => JsonValue J

/-- The row object of the scanned values; a value replaces an earlier one of the same key. -/
def rowObject {J : Type} (keys : List String) (vals : List (DriverValue J)) : RowObject J :=
  (keys.zip vals).foldl (fun row kv => row.insert kv.1 (normalize kv.2)) ∅

theorem mem_keys_foldl_insert {J : Type} {k : String} (kvs : List (String × DriverValue J))
    (row : RowObject J) :
    k ∈ (kvs.foldl (fun row kv => row.insert kv.1 (normalize kv.2)) row).keys ↔
      k ∈ row.keys ∨ k ∈ kvs.map Prod.fst := by
  induction kvs generalizing row with
  | nil => simp
  | cons kv kvs ih =>
    rw [foldl_cons, ih, Finmap.mem_keys, Finmap.mem_insert, Finmap.mem_keys, map_cons, mem_cons]
    tauto

theorem keys_rowObject {J : Type} {keys : List String} {vals : List (DriverValue J)}
    (h : keys.length = vals.length) : (rowObject keys vals).keys = keys.toFinset := by
  ext k
  rw [rowObject, mem_keys_foldl_insert, map_fst_zip h.le, mem_toFinset]
  simp

theorem card_toFinset_eq_length_iff {l : List String} : l.toFinset.card = l.length ↔ l.Nodup := by
  rw [card_toFinset]
  refine ⟨fun h => ?_, fun h => by rw [dedup_eq_self.mpr h]⟩
  exact dedup_eq_self.mp ((dedup_sublist l).eq_of_length h)

/-- **A row object has one entry per column if and only if no generated key is the name of a
column**, whatever the values of the row, and the first occurrence of each name keeps the name. -/
theorem row_complete_iff (cols : List String) :
    ((uniqueColumnKeys cols).Nodup ↔ Unambiguous cols) ∧
      (∀ (J : Type) (vals : List (DriverValue J)), vals.length = cols.length →
        ((rowObject (uniqueColumnKeys cols) vals).keys.card = cols.length ↔ Unambiguous cols)) ∧
      ∀ i c, cols[i]? = some c → c ∉ cols.take i → (uniqueColumnKeys cols)[i]? = some c := by
  refine ⟨uniqueColumnKeys_nodup_iff, fun J vals hvals => ?_, fun i c hc hfirst => ?_⟩
  · have hlength := length_uniqueColumnKeys cols
    rw [keys_rowObject (hlength.trans hvals.symm), ← uniqueColumnKeys_nodup_iff, ← hlength]
    exact card_toFinset_eq_length_iff
  · exact getElem?_uniqueColumnKeys_of_first hc hfirst

theorem row_complete_pair :
    (rowObject (uniqueColumnKeys ["id", "id"]) [.plain 1, .plain (2 : ℤ)]).keys.card = 2 := by
  refine ((row_complete_iff ["id", "id"]).2.1 ℤ _ rfl).mpr fun c k htwo hk hmem => ?_
  have hc : c = "id" := by
    by_contra hne
    rw [count_eq_zero.mpr (by simp [hne])] at hk
    omega
  subst hc
  have hk : k = 2 := le_antisymm (hk.trans (by decide)) htwo
  subst hk
  exact absurd hmem (by decide +kernel)

/-- The second `a` is given the name of another column. -/
theorem row_incomplete :
    uniqueColumnKeys ["a", "a_2", "a"] = ["a", "a_2", "a_2"] ∧
      (rowObject (uniqueColumnKeys ["a", "a_2", "a"])
        [.plain 1, .plain 2, .plain (3 : ℤ)]).keys.card = 2 := by
  decide +kernel

end Walrusd.Bindings
