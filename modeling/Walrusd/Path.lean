import Mathlib.Data.List.Infix

/-!
# Slash-separated paths

A path is a text whose segments are separated by slashes. Cleaning a path drops its empty and `.`
segments and lets each `..` cancel the segment before it.

## Main definitions

* `Path.segments`, `Path.clean`, `Path.join`.
* `Path.Plain` — a segment that cleaning keeps.

## Main results

* `Path.ne_nil_of_clean` — a clean path has no empty segments.
* `Path.segments_prefix_iff` — a path begins another if and only if it has its first segments.
-/

namespace Path

open List

/-! ### Segments -/

/-- The segments of a path. -/
def segments (p : List Char) : List (List Char) := p.splitOn '/'

variable {p : List Char} {l : List (List Char)} {s q : List Char} {b : Bool}
  {st : List (List Char)}

theorem segments_append (p q : List Char) : segments (p ++ '/' :: q) = segments p ++ segments q :=
  splitOn_append_cons_of_beq p q (by decide)

theorem segments_of_notMem (h : '/' ∉ p) : segments p = [p] :=
  splitOn_eq_singleton h

theorem segments_cons_slash (p : List Char) : segments ('/' :: p) = [] :: segments p :=
  segments_append [] p

theorem segments_intercalate (h : ∀ s ∈ l, '/' ∉ s) (hl : l ≠ []) :
    segments (['/'].intercalate l) = l := splitOn_intercalate '/' h hl

theorem mem_intercalate {c : Char} (h : c ∈ ['/'].intercalate l) : c = '/' ∨ ∃ s ∈ l, c ∈ s := by
  induction l with
  | nil => simp at h
  | cons s l ih =>
    cases l with
    | nil =>
      rw [intercalate_singleton] at h
      exact .inr ⟨s, mem_cons_self, h⟩
    | cons t l =>
      rw [intercalate_cons_cons, append_assoc, mem_append, mem_append, mem_singleton] at h
      rcases h with h | h | h
      · exact .inr ⟨s, mem_cons_self, h⟩
      · exact .inl h
      rcases ih h with hslash | ⟨u, hu, hc⟩
      · exact .inl hslash
      · exact .inr ⟨u, mem_cons_of_mem _ hu, hc⟩

theorem notMem_of_mem_segments (h : s ∈ segments p) : '/' ∉ s := by
  induction p generalizing s with
  | nil =>
    rw [segments, splitOn_nil, mem_singleton] at h
    subst h
    exact not_mem_nil
  | cons c p ih =>
    rw [segments, splitOn_cons_eq_if_modifyHead] at h
    split at h
    · rcases mem_cons.mp h with rfl | h
      · exact not_mem_nil
      · exact ih h
    · next hc =>
      cases hp : List.splitOn '/' p with
      | nil => simp [hp] at h
      | cons t ts =>
        rw [hp, modifyHead_cons] at h
        rcases mem_cons.mp h with rfl | h
        · have ht : '/' ∉ t := ih (by rw [segments, hp]; exact mem_cons_self)
          intro hmem
          rcases mem_cons.mp hmem with rfl | hmem
          · exact hc (by decide)
          · exact ht hmem
        · exact ih (by rw [segments, hp]; exact mem_cons_of_mem t h)

theorem segments_ne_nil (p : List Char) : segments p ≠ [] := by
  intro h
  have hp : ['/'].intercalate (segments p) = p := intercalate_splitOn '/'
  rw [h] at hp
  obtain rfl : p = [] := hp.symm
  cases h

theorem segments_inj (h : segments p = segments q) : p = q := by
  have hp : ['/'].intercalate (segments p) = p := intercalate_splitOn '/'
  have hq : ['/'].intercalate (segments q) = q := intercalate_splitOn '/'
  rw [← hp, ← hq, h]

/-- A directory that a path lies in has its first segments, and the path has one more. -/
theorem segments_prefix_dir (hq : segments q = l ++ [s]) (h : p ++ ['/'] <+: q) :
    segments p <+: l := by
  obtain ⟨t, rfl⟩ := h
  rw [append_assoc, singleton_append, segments_append] at hq
  obtain ⟨l', s', ht⟩ := (eq_nil_or_concat' (segments t)).resolve_left (segments_ne_nil t)
  rw [ht, ← append_assoc] at hq
  exact ⟨l', (append_inj' hq rfl).1⟩

/-- A path begins another one, up to a slash, if and only if it has its first segments. -/
theorem segments_prefix_iff : p ++ ['/'] <+: q ++ ['/'] ↔ segments p <+: segments q := by
  constructor
  · refine segments_prefix_dir (s := []) ?_
    rw [segments_append]
    rfl
  rintro ⟨l, hl⟩
  cases l with
  | nil =>
    rw [append_nil] at hl
    rw [segments_inj hl]
  | cons s l =>
    have hq : q = p ++ '/' :: ['/'].intercalate (s :: l) := by
      refine segments_inj ?_
      rw [segments_append, segments_intercalate (fun t ht => ?_) (cons_ne_nil s l), hl]
      exact notMem_of_mem_segments (hl ▸ mem_append_right (segments p) ht)
    rw [hq]
    exact ⟨['/'].intercalate (s :: l) ++ ['/'], by simp⟩

/-! ### Cleaning -/

/-- A segment that cleaning keeps. -/
def Plain (s : List Char) : Prop := s ≠ [] ∧ s ≠ ['.'] ∧ s ≠ ['.', '.']

instance (s : List Char) : Decidable (Plain s) := inferInstanceAs (Decidable (_ ∧ _ ∧ _))

/-- Read one more segment; the last of the segments that are kept so far is the first of the
list. -/
def push (rooted : Bool) (st : List (List Char)) (s : List Char) : List (List Char) :=
  if s = [] ∨ s = ['.'] then st
  else if s = ['.', '.'] then
    match st with
    | [] => if rooted then [] else [s]
    | top :: rest => if top = ['.', '.'] then s :: st else rest
  else s :: st

/-- The path begins with a slash. -/
def rooted (p : List Char) : Bool := p.head? = some '/'

/-- The segments that are left of a path. -/
def kept (p : List Char) : List (List Char) := ((segments p).foldl (push (rooted p)) []).reverse

/-- The path of the segments that are left. -/
def render (rooted : Bool) (l : List (List Char)) : List Char :=
  if rooted then '/' :: ['/'].intercalate l
  else if l = [] then ['.'] else ['/'].intercalate l

/-- `path.Clean`. -/
def clean (p : List Char) : List Char := render (rooted p) (kept p)

/-- `path.Join`. -/
def join (elems : List (List Char)) : List Char :=
  if elems.flatten = [] then []
  else clean (elems.foldl (fun buf e =>
    if buf ≠ [] ∨ e ≠ [] then (if buf ≠ [] then buf ++ ['/'] else buf) ++ e else buf) [])

theorem push_plain (h : Plain s) (b : Bool) (st : List (List Char)) : push b st s = s :: st := by
  unfold push
  rw [if_neg (not_or.mpr ⟨h.1, h.2.1⟩), if_neg h.2.2]

theorem foldl_push_plain (hl : ∀ s ∈ l, Plain s) : l.foldl (push b) st = l.reverse ++ st := by
  induction l generalizing st with
  | nil => rfl
  | cons s l ih =>
    rw [foldl_cons, push_plain (hl s mem_cons_self), ih fun s' hs' => hl s' (mem_cons_of_mem s hs')]
    simp

theorem push_cases (b : Bool) (st : List (List Char)) (s : List Char) :
    push b st s = st ∨ push b st s = st.tail ∨ push b st s = s :: st ∧ s ≠ [] := by
  unfold push
  split
  · exact .inl rfl
  · next hs =>
    have hne : s ≠ [] := fun h => hs (.inl h)
    split
    · cases st with
      | nil => cases b <;> simp [hne]
      | cons top rest =>
        by_cases htop : top = ['.', '.']
        · exact .inr (.inr ⟨if_pos htop, hne⟩)
        · exact .inr (.inl (if_neg htop))
    · exact .inr (.inr ⟨rfl, hne⟩)

theorem mem_foldl_push (h : s ∈ l.foldl (push b) st) : s ∈ l ∧ s ≠ [] ∨ s ∈ st := by
  induction l generalizing st with
  | nil => exact .inr h
  | cons t l ih =>
    rcases ih h with ⟨hl, hne⟩ | hst
    · exact .inl ⟨mem_cons_of_mem t hl, hne⟩
    rcases push_cases b st t with heq | heq | ⟨heq, hne⟩ <;> rw [heq] at hst
    · exact .inr hst
    · exact .inr (mem_of_mem_tail hst)
    rcases mem_cons.mp hst with rfl | hst
    · exact .inl ⟨mem_cons_self, hne⟩
    · exact .inr hst

theorem of_mem_kept (h : s ∈ kept p) : '/' ∉ s ∧ s ≠ [] := by
  rcases mem_foldl_push (mem_reverse.mp h) with ⟨hl, hne⟩ | hnil
  · exact ⟨notMem_of_mem_segments hl, hne⟩
  · cases hnil

/-- The segments of a rendered path: a first empty one if it is rooted, and then the list. -/
theorem segments_render (b : Bool) (hl : ∀ s ∈ l, '/' ∉ s) (hne : l ≠ []) :
    segments (render b l) = (if b then [[]] else []) ++ l := by
  cases b with
  | true => simp [render, segments_cons_slash, segments_intercalate hl hne]
  | false => simp [render, hne, segments_intercalate hl hne]

/-- A clean path that is not rooted has no empty segment. -/
theorem ne_nil_of_clean (h : clean p = p) (hp : rooted p = false) (hs : s ∈ segments p) :
    s ≠ [] := by
  by_cases hkept : kept p = []
  · rw [clean, hp, hkept] at h
    rw [← h] at hs
    rintro rfl
    exact absurd hs (by decide)
  · have hsegments := segments_render (rooted p) (fun s hs => (of_mem_kept hs).1) hkept
    rw [← clean, h, hp] at hsegments
    rw [hsegments] at hs
    exact (of_mem_kept hs).2

end Path
