import Mathlib.Logic.Function.Basic
import Walrusd.Basic

/-!
# The lease store

A store holds one record body and one fencing token for each key, and every write is a
compare-and-swap on the token (`lease/store.go`, `lease/memory.go`). The operations of
`MemoryStore` take the token that `newToken` mints as an argument, so that a run fixes where each
token comes from.

## Main definitions

* `MemoryStore` with `get`, `createIfAbsent` and `replaceIfToken`.
* `MemoryStore.Tokens` — the tokens in use.

## Main results

* `MemoryStore.createIfAbsent_ok`, `MemoryStore.replaceIfToken_ok` — what a successful write found
  and what it left.
-/

namespace Walrusd.Lease

open Function

/-- An opaque fencing token. -/
abbrev Token := String

/-- The errors of a store that the manager tells apart; every transport failure is `other`. -/
inductive StoreErr
  | notFound
  | conflict
  | alreadyExists
  | other (message : String)
  deriving DecidableEq, Repr

/-- The text of a store error. -/
def StoreErr.text : StoreErr → String
  | .notFound => "lease: not found"
  | .conflict => "lease: conditional write conflict"
  | .alreadyExists => "lease: already exists"
  | .other message => message

/-- One stored record: its body and the token of its last write. -/
structure MemEntry where
  body : Bytes
  token : Token
  deriving DecidableEq, Repr

/-- The in-process store, keyed by lease key. -/
structure MemoryStore where
  objects : String → Option MemEntry

namespace MemoryStore

/-- `Get`: the body and its token. -/
def get (m : MemoryStore) (key : String) : Except StoreErr (Bytes × Token) :=
  match m.objects key with
  | none => .error .notFound
  | some e => .ok (e.body, e.token)

/-- `CreateIfAbsent`: write `body` under the fresh token `tok` only if the key is absent. -/
def createIfAbsent (m : MemoryStore) (key : String) (body : Bytes) (tok : Token) :
    Except StoreErr Token × MemoryStore :=
  match m.objects key with
  | some _ => (.error .alreadyExists, m)
  | none => (.ok tok, ⟨update m.objects key (some ⟨body, tok⟩)⟩)

/-- `ReplaceIfToken`: write `body` under the fresh token `tok` only if the current token
matches. -/
def replaceIfToken (m : MemoryStore) (key : String) (expectedToken : Token) (body : Bytes)
    (tok : Token) : Except StoreErr Token × MemoryStore :=
  match m.objects key with
  | none => (.error .notFound, m)
  | some e =>
      if e.token ≠ expectedToken then (.error .conflict, m)
      else (.ok tok, ⟨update m.objects key (some ⟨body, tok⟩)⟩)

/-- `tok` is the token of a stored record. -/
def Tokens (m : MemoryStore) (tok : Token) : Prop := ∃ key e, m.objects key = some e ∧ e.token = tok

/-- A successful create found the key absent and stored the body under the new token. -/
theorem createIfAbsent_ok {m m' : MemoryStore} {key : String} {body : Bytes} {tok t : Token}
    (h : m.createIfAbsent key body tok = (.ok t, m')) :
    m.objects key = none ∧ t = tok ∧
      m' = ⟨update m.objects key (some ⟨body, tok⟩)⟩ := by
  unfold createIfAbsent at h
  split at h
  · simp at h
  · next hnone =>
    simp only [Prod.mk.injEq, Except.ok.injEq] at h
    exact ⟨hnone, h.1.symm, h.2.symm⟩

/-- A successful replace found the expected token and stored the body under the new one. -/
theorem replaceIfToken_ok {m m' : MemoryStore} {key : String} {expectedToken : Token} {body : Bytes}
    {tok t : Token} (h : m.replaceIfToken key expectedToken body tok = (.ok t, m')) :
    (∃ e, m.objects key = some e ∧ e.token = expectedToken) ∧ t = tok ∧
      m' = ⟨update m.objects key (some ⟨body, tok⟩)⟩ := by
  unfold replaceIfToken at h
  split at h
  · simp at h
  · next e he =>
    split at h
    · simp at h
    · next hne =>
      simp only [Prod.mk.injEq, Except.ok.injEq] at h
      exact ⟨⟨e, he, Decidable.not_not.mp hne⟩, h.1.symm, h.2.symm⟩

end MemoryStore

end Walrusd.Lease
