import Walrusd.Bindings.Columns
import Walrusd.Program.Handler
import Walrusd.Program.Script
import Walrusd.Runtime.Read

/-!
# The byte-envelope adapter

`WithReadBytes` of `bindings/c/adapter.go`: run one query as the callback of `WithRead` and collect
its rows, up to a cap on their total size.

`WithRead` classifies an error of a callback on a session anew, so that the class that the callback
gave it survives only if the SQL layer would have chosen the same one. The cap on the size of a
result is therefore reported as `DB_CONFLICT` on a session, and as `DB_INVALID_ARGUMENT` only for
an empty database.

## Main definitions

* `scanRows`, `withReadBytes`.

## Main results

* `read_class_iff`.
-/

namespace Walrusd.Bindings

open Program Walrusd.Runtime Litestream List

/-! ### Reading rows -/

/-- What a query yields: its columns, what scanning each row yields, and the error after the last
row. -/
structure Cursor (J : Type) where
  columns : Except Err (List String)
  rows : List (Except Err (List (DriverValue J)))
  err : Option Err
  deriving DecidableEq

/-- `ReadResult`. -/
structure ReadResult where
  columns : List String := []
  rows : List String := []
  deriving DecidableEq, Repr

/-- The calls of the adapter: those of the runtime, entering a session, and the query on the
connection of a session, or on the one of an empty database. -/
inductive AdapterOp (B J : Type)
  | runtime (c : Op B)
  | enter (s : Sess)
  | query (s : Option Sess)

/-- The responses. -/
@[reducible] def AdapterResp {B J : Type} : AdapterOp B J → Type
  | .runtime c => Resp c
  | .enter _ => Option Err
  | .query _ => Except Err (Cursor J)

/-- Programs of the adapter. -/
abbrev AdapterM (B J : Type) := Prog (AdapterOp B J) AdapterResp

/-- Issue one call. -/
abbrev issue {B J : Type} (c : AdapterOp B J) : AdapterM B J (AdapterResp c) := perform c

section WithReadBytes

variable {B J : Type} (marshal : RowObject J → Except Err String) (maxReadResultBytes : ℤ)

/-- The error of a result that is too large. -/
def resultExceeds : Err :=
  .new .invalidArgument ("read result exceeds " ++ toString maxReadResultBytes ++ " bytes") 0 ""

/-- The loop of the rows; `total` counts the bytes of the rows so far. -/
def scanRows (keys : List String) (err : Option Err) :
    ℕ → ReadResult → List (Except Err (List (DriverValue J))) → Option Err × ReadResult
  | _, res, [] => (err, res)
  | _, res, .error e :: _ => (some e, res)
  | total, res, .ok vals :: rows =>
    match marshal (rowObject keys vals) with
    | .error e => (some e, res)
    | .ok b =>
      let total := total + b.utf8ByteSize
      if 0 < maxReadResultBytes ∧ maxReadResultBytes < total then
        (some (resultExceeds maxReadResultBytes), res)
      else scanRows keys err total { res with rows := res.rows ++ [b] } rows

/-- The callback of `WithReadBytes`; it appends to the result `res`. -/
def readCallback (res : ReadResult) : Except Err (Cursor J) → Option Err × ReadResult
  | .error e => (some e, res)
  | .ok cursor =>
    match cursor.columns with
    | .error e => (some e, res)
    | .ok cols =>
      scanRows marshal maxReadResultBytes (uniqueColumnKeys cols) cursor.err 0
        { res with columns := cols } cursor.rows

/-- Carry out the calls of `WithRead`: where it runs its callback, the adapter's is run. -/
def serve (res : ReadResult) : (c : Op B) → AdapterM B J (Resp c × ReadResult)
  | .runRead s => do
    let closed : Option Err ← issue (.enter s)
    match closed with
    | some e => return (some e, res)
    | none =>
      let cursor : Except Err (Cursor J) ← issue (.query (some s))
      return readCallback marshal maxReadResultBytes res cursor
  | .runEmpty => do
    let cursor : Except Err (Cursor J) ← issue (.query none)
    return readCallback marshal maxReadResultBytes res cursor
  | c => do
    let r : Resp c ← issue (.runtime c)
    return (r, res)

variable (json : ManifestJson B) (d : Descriptor)
  (encode : ReadResult → Except Err String)

/-- `WithReadBytes`; `decoded` is what decoding the request yields, the error of an invalid
database ID included. -/
def withReadBytes (decoded : Except Err (Option Err)) : AdapterM B J (Except Err String) :=
  match decoded with
  | .error e => return .error (.wrap .invalidArgument "decode read request" "" e)
  | .ok identity => do
    let res ← (withRead json d identity).handle (serve marshal maxReadResultBytes) {}
    match res.1 with
    | some e => return .error e
    | none => return encode res.2

end WithReadBytes

/-! ### Results within the cap -/

/-- The query succeeds with the columns `cols` and the marshalled rows `bs`. -/
def Cursor.Yields {J : Type} (marshal : RowObject J → Except Err String) (cursor : Cursor J)
    (cols bs : List String) : Prop :=
  cursor.columns = .ok cols ∧ cursor.err = none ∧ ∃ vals, cursor.rows = vals.map .ok ∧
    List.Forall₂ (fun v b => marshal (rowObject (uniqueColumnKeys cols) v) = .ok b) vals bs

/-- The number of bytes of the marshalled rows. -/
def totalBytes (bs : List String) : ℕ := (bs.map String.utf8ByteSize).sum

section Callback

variable {J : Type} {marshal : RowObject J → Except Err String} {cap : ℤ} {keys : List String}
  {vals : List (List (DriverValue J))} {bs : List String}

/-- The loop appends all rows, or stops at the first one that exceeds the cap. -/
theorem scanRows_eq (hrows : List.Forall₂ (fun v b => marshal (rowObject keys v) = .ok b) vals bs)
    {total : ℕ} {res : ReadResult} (htotal : 0 < cap → (total : ℤ) ≤ cap) :
    (0 < cap ∧ cap < ((total + totalBytes bs : ℕ) : ℤ) →
        (scanRows marshal cap keys none total res (vals.map .ok)).1 = some (resultExceeds cap)) ∧
      (¬ (0 < cap ∧ cap < ((total + totalBytes bs : ℕ) : ℤ)) →
        scanRows marshal cap keys none total res (vals.map .ok) =
          (none, { res with rows := res.rows ++ bs })) := by
  induction hrows generalizing total res with
  | nil =>
    refine ⟨fun ⟨hpos, hlt⟩ => ?_, fun _ => ?_⟩
    · have := htotal hpos
      simp only [totalBytes, map_nil, sum_nil, Nat.add_zero] at hlt
      omega
    · rw [append_nil]
      rfl
  | @cons v b vals bs hb hrest ih =>
    have hsum : total + totalBytes (b :: bs) = total + b.utf8ByteSize + totalBytes bs := by
      simp only [totalBytes, map_cons, sum_cons]
      omega
    rw [hsum, map_cons, scanRows, hb]
    simp only
    by_cases hexceeds : 0 < cap ∧ cap < ((total + b.utf8ByteSize : ℕ) : ℤ)
    · rw [if_pos hexceeds]
      refine ⟨fun _ => rfl, fun h => absurd ⟨hexceeds.1, ?_⟩ h⟩
      have := hexceeds.2
      omega
    · rw [if_neg hexceeds]
      have hnext := @ih (total + b.utf8ByteSize) { res with rows := res.rows ++ [b] } (by omega)
      rwa [append_assoc, singleton_append] at hnext

theorem readCallback_eq {cursor : Cursor J} {cols : List String}
    (h : cursor.Yields marshal cols bs) :
    (0 < cap ∧ cap < (totalBytes bs : ℤ) →
        (readCallback marshal cap {} (.ok cursor)).1 = some (resultExceeds cap)) ∧
      (¬ (0 < cap ∧ cap < (totalBytes bs : ℤ)) →
        readCallback marshal cap {} (.ok cursor) = (none, ⟨cols, bs⟩)) := by
  obtain ⟨hcols, herr, vals, hvals, hrows⟩ := h
  have hscan := @scanRows_eq J marshal cap _ _ _ hrows 0 { columns := cols } fun h => h.le
  rw [Nat.zero_add] at hscan
  simp only [readCallback, hcols, herr, hvals]
  exact hscan

theorem settled_readCallback {cursor : Cursor J} {cols : List String}
    (h : cursor.Yields marshal cols bs) (path : ReadPath) :
    Heard.Settled (some (path, (readCallback marshal cap {} (.ok cursor)).1)) := by
  refine ⟨path, _, rfl, fun e he => ?_⟩
  by_cases hexceeds : 0 < cap ∧ cap < (totalBytes bs : ℤ)
  · rw [(readCallback_eq h).1 hexceeds] at he
    cases he
    rfl
  · rw [(readCallback_eq h).2 hexceeds] at he
    cases he

end Callback

/-! ### The queries of a read -/

section Queries

variable {B J : Type}

/-- Where a query runs. -/
def pathOf : Option Sess → ReadPath
  | some _ => .session
  | none => .empty

/-- The query that a call is, with its answer. -/
def asked : (c : AdapterOp B J) → AdapterResp c → List (ReadPath × Except Err (Cursor J))
  | .query s, r => [(pathOf s, r)]
  | _, _ => []

/-- The queries of a trace, with their answers. -/
def queried (tr : List (Σ c : AdapterOp B J, AdapterResp c)) :
    List (ReadPath × Except Err (Cursor J)) :=
  tr.flatMap fun x => asked x.1 x.2

variable (marshal : RowObject J → Except Err String)

/-- The query succeeded. -/
def Succeeds (answer : Except Err (Cursor J)) : Prop :=
  ∃ cursor cols bs, answer = .ok cursor ∧ cursor.Yields marshal cols bs

/-- The queries so far, all of which succeed. -/
def querying : Protocol (AdapterOp B J) AdapterResp (List (ReadPath × Except Err (Cursor J))) where
  allow _ _ := True
  next q c r q' := q' = q ++ asked c r ∧ ∀ x ∈ asked c r, Succeeds marshal x.2

theorem runs_querying {tr : List (Σ c : AdapterOp B J, AdapterResp c)}
    (h : ∀ x ∈ queried tr, Succeeds marshal x.2) (q : List (ReadPath × Except Err (Cursor J))) :
    (querying marshal).Runs q tr (q ++ queried tr) := by
  induction tr generalizing q with
  | nil =>
    rw [queried, flatMap_nil, append_nil]
    exact .nil q
  | cons x tr ih =>
    rw [queried, flatMap_cons] at h ⊢
    rw [← append_assoc]
    exact .cons ⟨rfl, fun y hy => h y (mem_append_left _ hy)⟩
      (ih (fun y hy => h y (mem_append_right _ hy)) _)

variable (cap : ℤ)

/-- Either there was no query yet, or there was one, and `WithRead` has heard of its result. -/
def Served (s : Heard) (res : ReadResult) (q : List (ReadPath × Except Err (Cursor J))) : Prop :=
  (q = [] ∧ res = {}) ∨ ∃ path answer, q = [(path, answer)] ∧ Succeeds marshal answer ∧
    s = some (path, (readCallback marshal cap {} answer).1) ∧
    res = (readCallback marshal cap {} answer).2

variable {marshal cap}

theorem Served.eq_nil {s : Heard} {res : ReadResult} {q : List (ReadPath × Except Err (Cursor J))}
    (h : Served marshal cap s res q) (hs : ¬ s.Settled) : q = [] ∧ res = {} := by
  rcases h with h | ⟨path, _, -, ⟨cursor, cols, bs, rfl, hyields⟩, rfl, -⟩
  · exact h
  · exact absurd (settled_readCallback hyields path) hs

theorem serve_query {s : Option Sess} :
    (issue (.query s) >>= fun cursor => return readCallback marshal cap {} cursor :
      AdapterM B J (Option Err × ReadResult)).Obeys (querying marshal)
      (fun q r => Served marshal cap (some (pathOf s, r.1)) r.2 q) [] := by
  refine .perform trivial fun answer q hq => ?_
  obtain ⟨rfl, hsucceeds⟩ := hq
  exact .inr ⟨pathOf s, answer, rfl, hsucceeds _ (mem_singleton.mpr rfl), rfl, rfl⟩

theorem serve_obeys {s : Heard} {res : ReadResult} {q : List (ReadPath × Except Err (Cursor J))}
    {c : Op B} (h : Served marshal cap s res q) (hallow : heard.allow s c) :
    (serve marshal cap res c).Obeys (querying marshal)
      (fun q' r => ∃ s', heard.next s c r.1 s' ∧ Served marshal cap s' r.2 q') q := by
  by_cases hbegins : Heard.begins c = true
  · obtain ⟨rfl, rfl⟩ := h.eq_nil (hallow hbegins)
    cases c with
    | runRead h =>
      refine .perform trivial ?_
      rintro (_ | e) q ⟨rfl, -⟩
      · exact serve_query.mono fun q r hr => ⟨_, rfl, hr⟩
      · exact ⟨_, rfl, .inl ⟨rfl, rfl⟩⟩
    | runEmpty => exact serve_query.mono fun q r hr => ⟨_, rfl, hr⟩
    | manifestGet =>
      refine .perform trivial ?_
      rintro r q ⟨rfl, -⟩
      exact ⟨_, rfl, .inl ⟨rfl, rfl⟩⟩
    | _ => cases hbegins
  · have hother : serve marshal cap res c =
        (issue (.runtime c) >>= fun r => return (r, res) : AdapterM B J _) := by
      cases c <;> first | rfl | exact absurd rfl hbegins
    rw [hother]
    refine .perform trivial ?_
    rintro r q' ⟨rfl, -⟩
    refine ⟨s, (Heard.step_of_not_begins (Bool.eq_false_iff.mpr hbegins) r).symm, ?_⟩
    change Served marshal cap s res (q ++ [])
    rwa [append_nil]

end Queries

/-! ### The class of an error -/

variable {path : ReadPath}

theorem classOf_reported {d : Descriptor} {e : Err} {c : Class} (h : e.classOf = some c) :
    (reported d path e).classOf = some c ↔ path = .empty ∨ classifySQLError e = c := by
  cases path with
  | session => simp [reported, Err.classOf_withDatabase, Err.classOf]
  | empty => simp [reported, Err.classOf_withDatabase, h]

/-- The last run of the callback in a trace of `WithRead`. -/
def lastRun {B : Type} (tr : List (Σ c : Op B, Resp c)) : Heard :=
  tr.foldl (fun s x => s.step x.1 x.2) none

theorem withRead_reports {B : Type} {json : ManifestJson B} {d : Descriptor} {identity : Option Err}
    {tr : List (Σ c : Op B, Resp c)} {res : Option Err}
    (h : Returns (withRead json d identity) tr res) {r : Option Err}
    (hrun : lastRun tr = some (path, r)) : res = r.map (reported d path) :=
  h.runs (Protocol.runs_foldl (fun _ _ _ => rfl) tr none) (withRead_heard json d identity) path r
    hrun

/-- What `WithReadBytes` returns when its callback has ended with `r`. -/
def outcome (d : Descriptor) (encode : ReadResult → Except Err String) (path : ReadPath) :
    Option Err × ReadResult → Except Err String
  | (some e, _) => .error (reported d path e)
  | (none, res) => encode res

theorem outcome_of_err {d : Descriptor} {encode : ReadResult → Except Err String}
    {r : Option Err × ReadResult} {e : Err} (h : r.1 = some e) :
    outcome d encode path r = .error (reported d path e) := by
  obtain ⟨_, res⟩ := r
  cases h
  rfl

section Outcome

variable {B J : Type} {marshal : RowObject J → Except Err String} {cap : ℤ}
  {json : ManifestJson B} {d : Descriptor} {encode : ReadResult → Except Err String}
  {decoded : Except Err (Option Err)}

theorem withReadBytes_obeys :
    (withReadBytes marshal cap json d encode decoded).Obeys (querying marshal)
      (fun q out => ∀ path answer, (path, answer) ∈ q →
        out = outcome d encode path (readCallback marshal cap {} answer)) [] := by
  cases decoded with
  | error e => exact nofun
  | ok identity =>
    refine ((withRead_heard json d identity).handle
      (fun s t q c hrel hallow => serve_obeys hrel hallow) (.inl ⟨rfl, rfl⟩)).bind ?_
    rintro q ⟨res, t⟩ ⟨s, hconveys, hserved⟩
    rcases hserved with ⟨rfl, -⟩ | ⟨path, answer, rfl, -, hs, ht⟩
    · cases res <;> exact nofun
    have hres : res = (readCallback marshal cap {} answer).1.map (reported d path) :=
      hconveys _ _ hs
    have hout : ∀ out, out = outcome d encode path (readCallback marshal cap {} answer) →
        ∀ path' answer', (path', answer') ∈ [(path, answer)] →
          out = outcome d encode path' (readCallback marshal cap {} answer') := by
      intro out hout path' answer' hmem
      cases mem_singleton.mp hmem
      exact hout
    rcases hcallback : readCallback marshal cap {} answer with ⟨_ | e, t'⟩ <;>
      simp only [hcallback] at hres ht <;> subst hres ht <;> exact hout _ (by rw [hcallback]; rfl)

/-- The only query of a read decides what `WithReadBytes` returns. -/
theorem withReadBytes_returns {tr : List (Σ c : AdapterOp B J, AdapterResp c)}
    {out : Except Err String} (h : Returns (withReadBytes marshal cap json d encode decoded) tr out)
    (hall : ∀ x ∈ queried tr, Succeeds marshal x.2) {path : ReadPath} {cursor : Cursor J}
    {cols bs : List String} (hmem : (path, .ok cursor) ∈ queried tr)
    (hyields : cursor.Yields marshal cols bs) :
    (0 < cap ∧ cap < (totalBytes bs : ℤ) → out = .error (reported d path (resultExceeds cap))) ∧
      (¬ (0 < cap ∧ cap < (totalBytes bs : ℤ)) → out = encode ⟨cols, bs⟩) := by
  have hout := h.runs (runs_querying marshal hall []) withReadBytes_obeys path _ hmem
  refine ⟨fun hexceeds => ?_, fun hwithin => ?_⟩
  · rw [hout, outcome_of_err ((readCallback_eq hyields).1 hexceeds)]
  · rw [hout, (readCallback_eq hyields).2 hwithin, outcome]

end Outcome

/-- **A read keeps the class of an error of its callback if and only if the database is empty or
the SQL layer would have chosen the same class.** If the query of `WithReadBytes` succeeds, then all
its rows are returned in order when their total size is within the cap, and otherwise the read
fails, with the class of the cap's error for an empty database and with `DB_CONFLICT` on a session,
cached or fresh. -/
theorem read_class_iff {B : Type} (json : ManifestJson B) (d : Descriptor) :
    (∀ identity tr res path e c, Returns (withRead json d identity) tr res →
      lastRun tr = some (path, some e) → e.classOf = some c →
        ∃ e', res = some e' ∧ (e'.classOf = some c ↔ path = .empty ∨ classifySQLError e = c)) ∧
    ∀ (J : Type) (marshal : RowObject J → Except Err String) cap encode decoded tr out path cursor
      cols bs, 0 < cap → Returns (withReadBytes marshal cap json d encode decoded) tr out →
        (∀ x ∈ queried tr, Succeeds marshal x.2) → (path, .ok cursor) ∈ queried tr →
          cursor.Yields marshal cols bs →
            ((totalBytes bs : ℤ) ≤ cap → out = encode ⟨cols, bs⟩) ∧
              (cap < (totalBytes bs : ℤ) → ∃ e', out = .error e' ∧
                e'.classOf = some (if path = .empty then .invalidArgument else .conflict)) := by
  refine ⟨?_, ?_⟩
  · intro identity tr res path e c hreturns hrun hclass
    exact ⟨_, withRead_reports hreturns hrun, classOf_reported hclass⟩
  intro J marshal cap encode decoded tr out path cursor cols bs hcap hreturns hall hmem hyields
  have hout := withReadBytes_returns hreturns hall hmem hyields
  refine ⟨fun hwithin => hout.2 fun h => ?_, fun hexceeds => ?_⟩
  · exact absurd h.2 (not_lt.mpr hwithin)
  · refine ⟨_, hout.1 ⟨hcap, hexceeds⟩, ?_⟩
    cases path <;> rw [reported, Err.classOf_withDatabase] <;> rfl

namespace Oversized

/-- The only row, as it is marshalled. -/
def row : String := "\x7b\"a\":1\x7d"

/-- What the query yields. -/
def cursor : Cursor ℤ := ⟨.ok ["a"], [.ok [.plain 1]], none⟩

/-- The answers to a read on a cached session, if there is one, and otherwise on a session that is
opened if any file is listed. -/
def answers (cached : Option Sess) (listed : List FileInfo) :
    (c : AdapterOp (Option ManifestDocument) ℤ) → AdapterResp c
  | .runtime .cacheGet => cached
  | .runtime (.ltxFiles _ _) => .ok listed
  | .runtime c => c.uneventful
  | .enter _ => none
  | .query _ => .ok cursor

/-- The read, with a cap of five bytes. -/
def read : AdapterM (Option ManifestDocument) ℤ (Except Err String) :=
  withReadBytes (fun _ => .ok row) 5 .plain ⟨⟨"db"⟩, ""⟩ (fun _ => .ok "") (.ok none)

/-- **The cap is reported as a conflict** on a cached session and on a fresh one, although the error
of the callback is classified as an invalid argument. -/
theorem class_lost :
    (resultExceeds 5).classOf = some .invalidArgument ∧ ∀ cached ∈ [some 0, none],
      ∃ tr e, Returns read tr (.error e) ∧ e.classOf = some .conflict := by
  refine ⟨rfl, fun cached hcached => ?_⟩
  have hout : ∀ cached ∈ [some 0, none], (read.runWith (answers cached [⟨0, 1, 1, 0, 0⟩])).2 =
      .error (reported ⟨⟨"db"⟩, ""⟩ .session (resultExceeds 5)) := by decide +kernel
  exact ⟨_, _, hout cached hcached ▸ read.runWith_returns _, rfl⟩

/-- For an empty database the same read keeps the class. -/
theorem class_kept : ∃ tr e, Returns read tr (.error e) ∧ e.classOf = some .invalidArgument := by
  have hqueried : queried (read.runWith (answers none [])).1 = [(.empty, .ok cursor)] := by
    decide +kernel
  have hyields : cursor.Yields (fun _ => .ok row) ["a"] [row] :=
    ⟨rfl, rfl, [[.plain 1]], rfl, .cons rfl .nil⟩
  have hall : ∀ x ∈ queried (read.runWith (answers none [])).1,
      Succeeds (fun _ => .ok row) x.2 := by
    intro x hx
    rw [hqueried, mem_singleton] at hx
    exact ⟨cursor, ["a"], [row], congrArg Prod.snd hx, hyields⟩
  have hmem : (.empty, .ok cursor) ∈ queried (read.runWith (answers none [])).1 := by
    rw [hqueried]
    exact mem_singleton.mpr rfl
  have hreturns := read.runWith_returns (answers none [])
  obtain ⟨e, he, hclass⟩ := ((read_class_iff .plain ⟨⟨"db"⟩, ""⟩).2 ℤ _ 5 _ _ _ _ .empty cursor
    ["a"] [row] (by decide) hreturns hall hmem hyields).2 (by decide)
  exact ⟨_, e, he ▸ hreturns, hclass⟩

end Oversized

end Walrusd.Bindings
