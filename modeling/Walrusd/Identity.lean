import Mathlib.Data.List.Basic
import Walrusd.Path

/-!
# Database identities and object keys

The canonical database ID, its validation, and the keys that are derived from it
(`identity/identity.go`). The segments of an accepted ID are plain: none is empty, `.` or `..`, and
they consist of the characters that `url.PathEscape` leaves alone. Conversely, the checks accept
every path of such segments.

## Main definitions

* `DatabaseID`, `newDatabaseID`.
* `DatabaseID.storagePrefix`, `DatabaseID.leaseKey`, `DatabaseID.replicaPrefix`,
  `DatabaseID.manifestKey`.
* `IDChar`, `IDSegment`, `Grammatical` — the grammar of database IDs.

## Main results

* `newDatabaseID_plain`.
* `newDatabaseID_grammar` — the accepted IDs are those of the grammar, and the object keys of two
  IDs are distinct.
-/

namespace Walrusd

open List

/-- The caller's canonical database identifier, a relative path-safe object-store key. -/
structure DatabaseID where
  ID : String
  deriving DecidableEq, Repr

namespace DatabaseID

/-- The database ID verbatim. -/
def string (d : DatabaseID) : String := d.ID

/-- `strings.TrimSuffix(s, "/")`. -/
def trimSlash (s : String) : String :=
  if s.toList.getLast? = some '/' then String.ofList s.toList.dropLast else s

/-- The object-storage prefix of a database under a root: `<root>/<database_id>/`. -/
def storagePrefix (d : DatabaseID) (rootPrefix : String) : String :=
  let root := trimSlash rootPrefix
  (if root = "" then "" else root ++ "/") ++ d.ID ++ "/"

/-- The lease object key of a database. -/
def leaseKey (d : DatabaseID) (rootPrefix : String) : String :=
  d.storagePrefix rootPrefix ++ "lease.json"

/-- The Litestream replica prefix of a database. -/
def replicaPrefix (d : DatabaseID) (rootPrefix : String) : String :=
  d.storagePrefix rootPrefix ++ "replica"

/-- The key of the manifest of a database. -/
def manifestKey (d : DatabaseID) (rootPrefix : String) : String :=
  d.replicaPrefix rootPrefix ++ "/manifest.json"

/-- The keys of the write lease, the compaction lease and the manifest. -/
def objectKeys (d : DatabaseID) (rootPrefix : String) : List String :=
  [d.leaseKey rootPrefix, d.leaseKey rootPrefix ++ ":compact", d.manifestKey rootPrefix]

end DatabaseID

/-! ### Validation -/

/-- `url.PathEscape` escapes every character but these. -/
def shouldEscape (c : Char) : Bool :=
  !(c.isAlphanum || ['-', '_', '.', '~', '$', '&', '+', ':', '=', '@'].contains c)

/-- A byte as `%` and two upper-case hexadecimal digits. -/
def percentByte (b : UInt8) : List Char :=
  ['%', (Nat.digitChar (b.toNat / 16)).toUpper, (Nat.digitChar (b.toNat % 16)).toUpper]

/-- `url.PathEscape`. -/
def pathEscape (s : List Char) : List Char :=
  s.flatMap fun c => if shouldEscape c then (String.utf8EncodeChar c).flatMap percentByte else [c]

/-- The errors of `NewDatabaseID`. -/
inductive IdentityErr
  | required
  | notClean (id : String)
  | dotSegment (id seg : String)
  | notPathSafe (seg : String)
  deriving DecidableEq, Repr

/-- The text of an error; `quote` is the verb `%q`. -/
def IdentityErr.text (quote : String → String) : IdentityErr → String
  | .required => "identity: database_id is required"
  | .notClean id => "identity: database_id " ++ quote id ++ " is not a clean relative path"
  | .dotSegment id seg =>
    "identity: database_id " ++ quote id ++ " must not contain " ++ quote seg ++ " segments"
  | .notPathSafe seg => "identity: database_id segment " ++ quote seg ++ " is not path-safe"

/-- The checks on one segment. -/
def checkSegment (id : String) (seg : List Char) : Except IdentityErr Unit :=
  if seg = ['.'] ∨ seg = ['.', '.'] then .error (.dotSegment id (String.ofList seg))
  else if seg.any (fun c => ['/', '?', '#'].contains c) ∨ seg ≠ pathEscape seg then
    .error (.notPathSafe (String.ofList seg))
  else .ok ()

/-- The checks on the segments, in order. -/
def checkSegments (id : String) : List (List Char) → Except IdentityErr Unit
  | [] => .ok ()
  | seg :: segs =>
    match checkSegment id seg with
    | .error err => .error err
    | .ok () => checkSegments id segs

/-- `NewDatabaseID`. -/
def newDatabaseID (id : String) : Except IdentityErr DatabaseID :=
  if id = "" then .error .required
  else if ['/'] <+: id.toList ∨ ['/'] <:+ id.toList ∨ ['/', '/'] <:+: id.toList then
    .error (.notClean id)
  else
    match checkSegments id (Path.segments id.toList) with
    | .error err => .error err
    | .ok () => if Path.clean id.toList ≠ id.toList then .error (.notClean id) else .ok ⟨id⟩

/-! ### The grammar -/

/-- The characters of a segment: ASCII letters and digits, and those that a path segment may contain
unescaped. -/
def IDChar (c : Char) : Prop :=
  c.isAlphanum = true ∨ c ∈ ['-', '_', '.', '~', '$', '&', '+', ':', '=', '@']

instance (c : Char) : Decidable (IDChar c) := inferInstanceAs (Decidable (_ ∨ _))

/-- A segment: neither empty nor `.` nor `..`. -/
def IDSegment (seg : List Char) : Prop :=
  seg ≠ [] ∧ seg ≠ ['.'] ∧ seg ≠ ['.', '.'] ∧ ∀ c ∈ seg, IDChar c

instance (seg : List Char) : Decidable (IDSegment seg) :=
  have : Decidable (∀ c ∈ seg, IDChar c) := List.decidableBAll _ seg
  inferInstanceAs (Decidable (_ ∧ _ ∧ _ ∧ _))

/-- One or more segments joined by single slashes. -/
def Grammatical (id : List Char) : Prop :=
  ∃ segs : List (List Char), segs ≠ [] ∧ id = ['/'].intercalate segs ∧ ∀ seg ∈ segs, IDSegment seg

theorem shouldEscape_eq_false_iff {c : Char} : shouldEscape c = false ↔ IDChar c := by
  rw [shouldEscape, Bool.not_eq_false', Bool.or_eq_true, contains_iff_mem, IDChar]

theorem length_utf8EncodeChar_pos (c : Char) : 0 < (String.utf8EncodeChar c).length := by
  rw [String.length_utf8EncodeChar]
  exact c.utf8Size_pos

/-- Escaping makes a character longer. -/
theorem one_lt_length_escaped (c : Char) :
    1 < ((String.utf8EncodeChar c).flatMap percentByte).length := by
  obtain ⟨b, bs, hbytes⟩ := exists_cons_of_length_pos (length_utf8EncodeChar_pos c)
  rw [hbytes, flatMap_cons, length_append]
  simp only [percentByte, length_cons]
  omega

theorem length_le_length_pathEscape (s : List Char) : s.length ≤ (pathEscape s).length := by
  induction s with
  | nil => exact le_rfl
  | cons c s ih =>
    have hc : 1 ≤ (if shouldEscape c then (String.utf8EncodeChar c).flatMap percentByte
        else [c]).length := by
      split
      · exact (one_lt_length_escaped c).le
      · exact le_rfl
    simp only [pathEscape, flatMap_cons, length_append, length_cons] at ih ⊢
    omega

/-- A text is its own escape if and only if no character is escaped. -/
theorem pathEscape_eq_self_iff {s : List Char} :
    pathEscape s = s ↔ ∀ c ∈ s, shouldEscape c = false := by
  induction s with
  | nil => simp [pathEscape]
  | cons c s ih =>
    have hcons : pathEscape (c :: s) = (if shouldEscape c then
        (String.utf8EncodeChar c).flatMap percentByte else [c]) ++ pathEscape s := rfl
    rw [hcons, forall_mem_cons, ← ih]
    split
    · next hc =>
      have hlength := length_le_length_pathEscape s
      have hlong := one_lt_length_escaped c
      refine iff_of_false (fun heq => ?_) (fun h => by simp [hc] at h)
      have := congrArg List.length heq
      simp only [length_append, length_cons] at this
      omega
    · next hc => simp [hc]

theorem checkSegment_eq_ok_iff {id : String} {seg : List Char} :
    checkSegment id seg = .ok () ↔ seg ≠ ['.'] ∧ seg ≠ ['.', '.'] ∧ ∀ c ∈ seg, IDChar c := by
  unfold checkSegment
  split
  · next hdots =>
    refine iff_of_false nofun fun h => ?_
    exact hdots.elim h.1 h.2.1
  · next hdots =>
    obtain ⟨hdot, hdots⟩ := not_or.mp hdots
    split
    · next hunsafe =>
      refine iff_of_false nofun fun h => ?_
      have hescape : pathEscape seg = seg :=
        pathEscape_eq_self_iff.mpr fun c hc => shouldEscape_eq_false_iff.mpr (h.2.2 c hc)
      rcases hunsafe with hreserved | hne
      · obtain ⟨c, hc, hmem⟩ := any_eq_true.mp hreserved
        have hsafe := shouldEscape_eq_false_iff.mpr (h.2.2 c hc)
        have hbad : ['/', '?', '#'].all shouldEscape = true := by decide
        rw [all_eq_true.mp hbad c (contains_iff_mem.mp hmem)] at hsafe
        cases hsafe
      · exact hne hescape.symm
    · next hsafe =>
      have hescape : pathEscape seg = seg := (Decidable.not_not.mp (not_or.mp hsafe).2).symm
      refine iff_of_true rfl ⟨hdot, hdots, fun c hc => ?_⟩
      exact shouldEscape_eq_false_iff.mp (pathEscape_eq_self_iff.mp hescape c hc)

theorem checkSegments_eq_ok_iff {id : String} {segs : List (List Char)} :
    checkSegments id segs = .ok () ↔
      ∀ seg ∈ segs, seg ≠ ['.'] ∧ seg ≠ ['.', '.'] ∧ ∀ c ∈ seg, IDChar c := by
  induction segs with
  | nil => simp [checkSegments]
  | cons seg segs ih =>
    rw [checkSegments, forall_mem_cons, ← @checkSegment_eq_ok_iff id seg, ← ih]
    split
    · next err hcheck => simp [hcheck]
    · next hcheck => simp [hcheck]

namespace Grammatical

variable {id : List Char}

/-- The grammar in terms of the segments of the text. -/
theorem iff_segments : Grammatical id ↔ ∀ seg ∈ Path.segments id, IDSegment seg := by
  constructor
  · rintro ⟨segs, hne, rfl, hsegs⟩
    rw [Path.segments_intercalate (fun seg hseg hslash => ?_) hne]
    · exact hsegs
    have hchar := (hsegs seg hseg).2.2.2 '/' hslash
    rw [← shouldEscape_eq_false_iff] at hchar
    exact absurd hchar (by decide)
  · intro hsegs
    exact ⟨Path.segments id, Path.segments_ne_nil id, (intercalate_splitOn '/').symm, hsegs⟩

theorem eq_slash_or_idChar (h : Grammatical id) {c : Char} (hc : c ∈ id) : c = '/' ∨ IDChar c := by
  obtain ⟨segs, -, rfl, hsegs⟩ := h
  rcases Path.mem_intercalate hc with hslash | ⟨seg, hseg, hmem⟩
  · exact .inl hslash
  · exact .inr ((hsegs seg hseg).2.2.2 c hmem)

theorem plain (h : Grammatical id) : ∀ s ∈ Path.segments id, Path.Plain s := fun s hs =>
  have hseg := iff_segments.mp h s hs
  ⟨hseg.1, hseg.2.1, hseg.2.2.1⟩

/-- There is no slash at the ends and no double slash. -/
theorem slashes (h : Grammatical id) : ¬ (['/'] <+: id ∨ ['/'] <:+ id ∨ ['/', '/'] <:+: id) := by
  have hnil : [] ∉ Path.segments id := fun hmem => (h.plain [] hmem).1 rfl
  rintro (⟨t, rfl⟩ | ⟨t, rfl⟩ | ⟨t, u, rfl⟩) <;> refine hnil ?_
  · rw [singleton_append, Path.segments_cons_slash]
    exact mem_cons_self
  · rw [Path.segments_append]
    exact mem_append_right _ (by decide)
  rw [append_assoc, cons_append, singleton_append, Path.segments_append, Path.segments_cons_slash]
  exact mem_append_right _ mem_cons_self

theorem clean (h : Grammatical id) : Path.clean id = id := by
  have hrooted : Path.rooted id = false := by
    refine decide_eq_false fun hhead => h.slashes (.inl ?_)
    obtain ⟨rest, hrest⟩ := head?_eq_some_iff.mp hhead
    exact ⟨rest, hrest.symm⟩
  have hkept : Path.kept id = Path.segments id := by
    rw [Path.kept, Path.foldl_push_plain h.plain, append_nil, reverse_reverse]
  rw [Path.clean, hrooted, hkept, Path.render, if_neg Bool.false_ne_true,
    if_neg (Path.segments_ne_nil id)]
  exact intercalate_splitOn '/'

end Grammatical

/-- **The accepted IDs are those of the grammar.** -/
theorem newDatabaseID_eq_ok_iff {id : String} {d : DatabaseID} :
    newDatabaseID id = .ok d ↔ d = ⟨id⟩ ∧ Grammatical id.toList := by
  constructor
  · intro h
    unfold newDatabaseID at h
    split at h
    · cases h
    split at h
    · cases h
    · next hslash =>
      split at h
      · cases h
      · next hsegs =>
        split at h
        · cases h
        · next hclean =>
          refine ⟨(Except.ok.inj h).symm, Grammatical.iff_segments.mpr fun seg hseg => ⟨?_, ?_⟩⟩
          · have hrooted : Path.rooted id.toList = false := by
              refine decide_eq_false fun hhead => hslash (.inl ?_)
              obtain ⟨rest, hrest⟩ := head?_eq_some_iff.mp hhead
              exact ⟨rest, hrest.symm⟩
            exact Path.ne_nil_of_clean (Decidable.not_not.mp hclean) hrooted hseg
          · exact checkSegments_eq_ok_iff.mp hsegs seg hseg
  · rintro ⟨rfl, h⟩
    have hne : id ≠ "" := by
      rintro rfl
      exact (h.plain [] (by decide)).1 rfl
    have hsegs : checkSegments id (Path.segments id.toList) = .ok () :=
      checkSegments_eq_ok_iff.mpr fun seg hseg => (Grammatical.iff_segments.mp h seg hseg).2
    rw [newDatabaseID, if_neg hne, if_neg h.slashes, hsegs]
    exact if_neg (not_not.mpr h.clean)

/-! ### Object keys -/

/-- Texts with different endings of the same length are different. -/
theorem append_ne_append {s t x y : String} (hlength : x.toList.length = y.toList.length)
    (hne : x ≠ y) : s ++ x ≠ t ++ y := by
  intro h
  have hlist := congrArg String.toList h
  rw [String.toList_append, String.toList_append] at hlist
  exact hne (String.toList_injective (append_inj' hlist hlength).2)

namespace DatabaseID

variable {a b : DatabaseID} (root : String)

theorem storagePrefix_injective (h : a.storagePrefix root = b.storagePrefix root) : a = b := by
  have hID := (String.append_right_inj _).mp ((String.append_left_inj _).mp h)
  cases a
  cases b
  exact congrArg mk hID

theorem leaseKey_ne_compact (c d : DatabaseID) :
    c.leaseKey root ≠ d.leaseKey root ++ ":compact" := by
  have hending : c.storagePrefix root ++ "le" ++ "ase.json" ≠ d.leaseKey root ++ ":compact" :=
    append_ne_append (by decide) (by decide)
  rwa [String.append_assoc] at hending

theorem leaseKey_ne_manifestKey (c d : DatabaseID) : c.leaseKey root ≠ d.manifestKey root := by
  have hending : c.storagePrefix root ++ "leas" ++ "e.json" ≠
      d.replicaPrefix root ++ "/manifes" ++ "t.json" := append_ne_append (by decide) (by decide)
  rwa [String.append_assoc, String.append_assoc] at hending

theorem compact_ne_manifestKey (c d : DatabaseID) :
    c.leaseKey root ++ ":compact" ≠ d.manifestKey root := by
  have hending : c.leaseKey root ++ ":compact" ≠
      d.replicaPrefix root ++ "/manif" ++ "est.json" := append_ne_append (by decide) (by decide)
  rwa [@String.append_assoc (d.replicaPrefix root)] at hending

/-- The object keys of two databases are distinct. -/
theorem objectKeys_nodup (h : a ≠ b) : (a.objectKeys root ++ b.objectKeys root).Nodup := by
  have hlease : a.leaseKey root ≠ b.leaseKey root := fun heq =>
    h (storagePrefix_injective root ((String.append_left_inj _).mp heq))
  have hcompact : a.leaseKey root ++ ":compact" ≠ b.leaseKey root ++ ":compact" := fun heq =>
    hlease ((String.append_left_inj _).mp heq)
  have hmanifest : a.manifestKey root ≠ b.manifestKey root := fun heq =>
    h (storagePrefix_injective root
      ((String.append_left_inj _).mp ((String.append_left_inj _).mp heq)))
  simp only [objectKeys, cons_append, nil_append, nodup_cons, mem_cons,
    not_mem_nil, or_false, not_or, not_false_eq_true, nodup_nil, and_true]
  have h₁ := leaseKey_ne_compact root
  have h₂ := leaseKey_ne_manifestKey root
  have h₃ := compact_ne_manifestKey root
  exact ⟨⟨h₁ a a, h₂ a a, hlease, h₁ a b, h₂ a b⟩,
    ⟨h₃ a a, (h₁ b a).symm, hcompact, h₃ a b⟩, ⟨(h₂ b a).symm, (h₃ b a).symm, hmanifest⟩,
    ⟨h₁ b b, h₂ b b⟩, h₃ b b⟩

end DatabaseID

/-- **The grammar of database IDs and the keys of accepted IDs.** `NewDatabaseID` accepts a text if
and only if it is one or more segments joined by single slashes, where no segment is empty, `.` or
`..` and every character is a letter, a digit or one that a path segment may contain unescaped.
Under any root, the write lease, the compaction lease and the manifest of two different accepted
IDs have six different keys. -/
theorem newDatabaseID_grammar :
    (∀ id : String, (∃ d, newDatabaseID id = .ok d) ↔ Grammatical id.toList) ∧
      ∀ (id₁ id₂ root : String) (a b : DatabaseID), newDatabaseID id₁ = .ok a →
        newDatabaseID id₂ = .ok b → id₁ ≠ id₂ →
          (a.objectKeys root ++ b.objectKeys root).Nodup := by
  refine ⟨fun id => ⟨fun ⟨d, hd⟩ => (newDatabaseID_eq_ok_iff.mp hd).2, fun h => ?_⟩, ?_⟩
  · exact ⟨⟨id⟩, newDatabaseID_eq_ok_iff.mpr ⟨rfl, h⟩⟩
  intro id₁ id₂ root a b ha hb hne
  obtain ⟨rfl, -⟩ := newDatabaseID_eq_ok_iff.mp ha
  obtain ⟨rfl, -⟩ := newDatabaseID_eq_ok_iff.mp hb
  exact DatabaseID.objectKeys_nodup root fun heq => hne (congrArg DatabaseID.ID heq)

theorem newDatabaseID_grammar_pair :
    ∃ a b, newDatabaseID "acme/db" = .ok a ∧ newDatabaseID "acme/db:2" = .ok b ∧
      (a.objectKeys "root" ++ b.objectKeys "root").Nodup := by
  have haccepted := newDatabaseID_grammar.1
  obtain ⟨a, ha⟩ := (haccepted "acme/db").mpr
    ⟨["acme".toList, "db".toList], by decide, by decide, by decide⟩
  obtain ⟨b, hb⟩ := (haccepted "acme/db:2").mpr
    ⟨["acme".toList, "db:2".toList], by decide, by decide, by decide⟩
  exact ⟨a, b, ha, hb, newDatabaseID_grammar.2 _ _ "root" a b ha hb (by decide)⟩

end Walrusd
