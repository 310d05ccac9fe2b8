import Walrusd.Lease.Store
import Walrusd.Register

/-!
# The two lease stores are one register for each key

`RedisStore` keeps a lease as a Redis hash of the two fields `data` and `token`, and writes it by
Lua scripts that Redis runs atomically (`lease/redis.go`). The keyspace is modelled by the hash
commands that the scripts use. Both stores simulate compare-and-swap registers, so they give the
same answers to the same calls, whatever the tokens are.

## Main definitions

* `Redis` with the commands `existsKey`, `hget`, `hgetall` and `hset`.
* `luaCreate`, `luaReplace`.
* `RedisStore` with `get`, `createIfAbsent` and `replaceIfToken`.
* `MemoryStore.answer`, `RedisStore.answer` — the stores as machines.

## Main results

* `MemoryStore.simulates`, `RedisStore.simulates`.
* `stores_agree`.
-/

namespace Walrusd.Lease

open Function Option

/-! ### Redis -/

/-- The hash at each key. Field values are byte strings, and an absent key has no hash. -/
structure Redis where
  hashes : String → Option (String → Option Bytes)

namespace Redis

/-- `EXISTS key`. -/
def existsKey (db : Redis) (key : String) : ℕ := if (db.hashes key).isSome then 1 else 0

/-- `HGETALL key`: the fields, none if the key is absent. -/
def hgetall (db : Redis) (key : String) : String → Option Bytes :=
  (db.hashes key).getD fun _ => none

/-- `HGET key field`. -/
def hget (db : Redis) (key field : String) : Option Bytes := db.hgetall key field

/-- `HSET key field value …`. -/
def hset (db : Redis) (key : String) (fields : List (String × Bytes)) : Redis :=
  ⟨update db.hashes key (some (fields.foldl (fun h x => update h x.1 (some x.2)) (db.hgetall key)))⟩

end Redis

/-- The script `luaCreate`, on the key and its two arguments. -/
def luaCreate (db : Redis) (key : String) (body tok : Bytes) : ℕ × Redis :=
  if db.existsKey key = 1 then (0, db)
  else (1, db.hset key [("data", body), ("token", tok)])

/-- The script `luaReplace`, on the key and its three arguments. -/
def luaReplace (db : Redis) (key : String) (expectedToken body tok : Bytes) : ℕ × Redis :=
  match db.hget key "token" with
  | none => (0, db)
  | some t =>
    if t ≠ expectedToken then (2, db)
    else (1, db.hset key [("data", body), ("token", tok)])

/-- The Redis store: the keyspace of its client. Its tokens are the byte strings that Redis
compares. -/
structure RedisStore where
  client : Redis

namespace RedisStore

/-- `Get`: the two fields of the hash; a missing token reads as the empty one. -/
def get (s : RedisStore) (key : String) : Except StoreErr (Bytes × Bytes) :=
  match s.client.hgetall key "data" with
  | none => .error .notFound
  | some data => .ok (data, (s.client.hgetall key "token").getD [])

/-- `CreateIfAbsent`: run `luaCreate` with the fresh token `tok`. -/
def createIfAbsent (s : RedisStore) (key : String) (body tok : Bytes) :
    Except StoreErr Bytes × RedisStore :=
  match luaCreate s.client key body tok with
  | (0, db) => (.error .alreadyExists, ⟨db⟩)
  | (_, db) => (.ok tok, ⟨db⟩)

/-- `ReplaceIfToken`: run `luaReplace` with the fresh token `tok`. -/
def replaceIfToken (s : RedisStore) (key : String) (expectedToken body tok : Bytes) :
    Except StoreErr Bytes × RedisStore :=
  match luaReplace s.client key expectedToken body tok with
  | (1, db) => (.ok tok, ⟨db⟩)
  | (0, db) => (.error .notFound, ⟨db⟩)
  | (_, db) => (.error .conflict, ⟨db⟩)

end RedisStore

/-! ### The stores as machines -/

open Register (Reply Machine)

/-- The reply that an error is. -/
def StoreErr.reply {T : Type} : StoreErr → Reply Bytes T
  | .notFound => .notFound
  | .conflict => .conflict
  | .alreadyExists => .alreadyExists
  | .other message => .other message

/-- The reply that the result of `Get` is. -/
def readReply {T : Type} : Except StoreErr (Bytes × T) → Reply Bytes T
  | .ok x => .value x.1 x.2
  | .error err => err.reply

/-- The reply that the result of a conditional write is. -/
def writeReply {T : Type} : Except StoreErr T → Reply Bytes T
  | .ok t => .token t
  | .error err => err.reply

namespace MemoryStore

/-- A call on the store; `tok` is what `newToken` mints in it. -/
def answer : Machine MemoryStore String Bytes Token
  | m, .get key, _ => (readReply (m.get key), m)
  | m, .create key body, tok =>
    (writeReply (m.createIfAbsent key body tok).1, (m.createIfAbsent key body tok).2)
  | m, .replace key expectedToken body, tok =>
    (writeReply (m.replaceIfToken key expectedToken body tok).1,
      (m.replaceIfToken key expectedToken body tok).2)

/-- `NewMemoryStore`. -/
def new : MemoryStore := ⟨fun _ => none⟩

/-- The registers of the store. -/
def registers (m : MemoryStore) (key : String) : Option (Bytes × Token) :=
  (m.objects key).map fun e => (e.body, e.token)

theorem registers_update (m : MemoryStore) (key : String) (body : Bytes) (tok : Token) :
    registers ⟨update m.objects key (some ⟨body, tok⟩)⟩ =
      update m.registers key (some (body, tok)) := by
  funext k
  by_cases hk : k = key
  · subst hk
    simp [registers]
  · simp [registers, update_of_ne hk]

theorem answer_eq (m : MemoryStore) (c : Register.Call String Bytes Token) (tok : Token) :
    (answer m c tok).1 = (Register.cells m.registers c tok).1 ∧
      (answer m c tok).2.registers = (Register.cells m.registers c tok).2 := by
  cases c with
  | get key =>
    cases hkey : m.objects key with
    | none => simp [answer, get, Register.cells, registers, hkey, readReply, StoreErr.reply]
    | some e => simp [answer, get, Register.cells, registers, hkey, readReply]
  | create key body =>
    cases hkey : m.objects key with
    | none =>
      have hcell : m.registers key = none := by simp [registers, hkey]
      simp [answer, createIfAbsent, Register.cells, hkey, hcell, writeReply, registers_update]
    | some e =>
      have hcell : m.registers key = some (e.body, e.token) := by simp [registers, hkey]
      simp [answer, createIfAbsent, Register.cells, hkey, hcell, writeReply, StoreErr.reply]
  | replace key expectedToken body =>
    cases hkey : m.objects key with
    | none =>
      have hcell : m.registers key = none := by simp [registers, hkey]
      simp [answer, replaceIfToken, Register.cells, hkey, hcell, writeReply, StoreErr.reply]
    | some e =>
      have hcell : m.registers key = some (e.body, e.token) := by simp [registers, hkey]
      by_cases htok : e.token = expectedToken
      · simp [answer, replaceIfToken, Register.cells, hkey, hcell, htok, writeReply,
          registers_update]
      · simp [answer, replaceIfToken, Register.cells, hkey, hcell, htok, writeReply, StoreErr.reply]

theorem simulates : Register.Simulates answer registers fun _ => True where
  reply m c tok _ := (answer_eq m c tok).1
  state m c tok _ := (answer_eq m c tok).2
  keeps _ _ _ _ := trivial

end MemoryStore

namespace RedisStore

/-- A call on the store; `tok` is what `newToken` mints in it. -/
def answer : Machine RedisStore String Bytes Bytes
  | s, .get key, _ => (readReply (s.get key), s)
  | s, .create key body, tok =>
    (writeReply (s.createIfAbsent key body tok).1, (s.createIfAbsent key body tok).2)
  | s, .replace key expectedToken body, tok =>
    (writeReply (s.replaceIfToken key expectedToken body tok).1,
      (s.replaceIfToken key expectedToken body tok).2)

/-- A store on an empty keyspace. -/
def new : RedisStore := ⟨⟨fun _ => none⟩⟩

/-- The registers of the store. -/
def registers (s : RedisStore) (key : String) : Option (Bytes × Bytes) :=
  (s.client.hget key "data").bind fun data =>
    (s.client.hget key "token").map fun token => (data, token)

/-- Every hash has both fields. -/
def Whole (s : RedisStore) : Prop :=
  ∀ key, s.client.hashes key ≠ none → s.registers key ≠ none

variable {s : RedisStore}

theorem registers_hset (s : RedisStore) (key : String) (body tok : Bytes) :
    registers ⟨s.client.hset key [("data", body), ("token", tok)]⟩ =
      update s.registers key (some (body, tok)) := by
  funext k
  by_cases hk : k = key
  · subst hk
    simp [registers, Redis.hset, Redis.hget, Redis.hgetall]
  · simp [registers, Redis.hset, Redis.hget, Redis.hgetall, update_of_ne hk]

theorem Whole.hset (h : s.Whole) (key : String) (body tok : Bytes) :
    Whole ⟨s.client.hset key [("data", body), ("token", tok)]⟩ := by
  intro k hexists
  rw [registers_hset]
  by_cases hk : k = key
  · rw [hk, update_self]
    exact some_ne_none _
  rw [update_of_ne hk]
  refine h k ?_
  simpa [Redis.hset, update_of_ne hk] using hexists

theorem Whole.cases (h : s.Whole) (key : String) :
    (s.registers key = none ∧ s.client.existsKey key = 0 ∧ s.client.hget key "data" = none ∧
        s.client.hget key "token" = none) ∨
      ∃ data token, s.registers key = some (data, token) ∧ s.client.existsKey key = 1 ∧
        s.client.hget key "data" = some data ∧ s.client.hget key "token" = some token := by
  cases hkey : s.client.hashes key with
  | none => exact .inl (by simp [registers, Redis.existsKey, Redis.hget, Redis.hgetall, hkey])
  | some fields =>
    refine .inr ?_
    have hsome := h key (hkey ▸ some_ne_none fields)
    obtain ⟨⟨data, token⟩, hcell⟩ := ne_none_iff_exists'.mp hsome
    have hexists : s.client.existsKey key = 1 := by simp [Redis.existsKey, hkey]
    obtain ⟨data', hdata, hmap⟩ := bind_eq_some_iff.mp hcell
    obtain ⟨token', htoken, heq⟩ := map_eq_some_iff.mp hmap
    obtain ⟨rfl, rfl⟩ := Prod.mk.inj heq
    exact ⟨data', token', hcell, hexists, hdata, htoken⟩

theorem answer_eq (h : s.Whole) (c : Register.Call String Bytes Bytes) (tok : Bytes) :
    (answer s c tok).1 = (Register.cells s.registers c tok).1 ∧
      (answer s c tok).2.registers = (Register.cells s.registers c tok).2 ∧
      (answer s c tok).2.Whole := by
  cases c with
  | get key =>
    rcases h.cases key with ⟨hcell, -, hdata, -⟩ | ⟨data, token, hcell, -, hdata, htoken⟩
    · rw [Redis.hget] at hdata
      simp [answer, get, Register.cells, hcell, hdata, readReply, StoreErr.reply, h]
    · rw [Redis.hget] at hdata htoken
      simp [answer, get, Register.cells, hcell, hdata, htoken, readReply, h]
  | create key body =>
    rcases h.cases key with ⟨hcell, hexists, -⟩ | ⟨data, token, hcell, hexists, -⟩
    · simp [answer, createIfAbsent, luaCreate, Register.cells, hcell, hexists, writeReply,
        registers_hset, h.hset]
    · simp [answer, createIfAbsent, luaCreate, Register.cells, hcell, hexists, writeReply,
        StoreErr.reply, h]
  | replace key expectedToken body =>
    rcases h.cases key with ⟨hcell, -, -, htoken⟩ | ⟨data, token, hcell, -, -, htoken⟩
    · simp [answer, replaceIfToken, luaReplace, Register.cells, hcell, htoken, writeReply,
        StoreErr.reply, h]
    by_cases hmatch : token = expectedToken
    · simp [answer, replaceIfToken, luaReplace, Register.cells, hcell, htoken, hmatch,
        writeReply, registers_hset, h.hset]
    · simp [answer, replaceIfToken, luaReplace, Register.cells, hcell, htoken, hmatch,
        writeReply, StoreErr.reply, h]

theorem simulates : Register.Simulates answer registers Whole where
  reply _ c tok h := (answer_eq h c tok).1
  state _ c tok h := (answer_eq h c tok).2.1
  keeps _ c tok h := (answer_eq h c tok).2.2

theorem whole_new : new.Whole := fun _ hexists => absurd rfl hexists

end RedisStore

/-! ### Agreement -/

/-- The bytes of a token. -/
def tokenBytes : Token ↪ Bytes where
  toFun tok := tok.toUTF8.data.toList
  inj' _ _ h := String.toByteArray_inj.mp (ByteArray.ext (Array.ext' h))

/-- Both stores give the replies of the registers, under any renaming of the tokens. -/
theorem replies_rename {f : Token → Bytes} (hf : Function.Injective f)
    (calls : List (Register.Call String Bytes Token × Token)) :
    (Register.run RedisStore.answer .new (calls.map fun x => (x.1.rename f, f x.2))).1 =
      (Register.run MemoryStore.answer .new calls).1.map
        fun x => (x.1.rename f, x.2.rename f) := by
  have hcells := Register.run_rename hf MemoryStore.new.registers calls
  rw [(MemoryStore.simulates.run trivial calls).1, ← hcells]
  exact (RedisStore.simulates.run RedisStore.whole_new _).1

/-- **The two lease stores are the same registers.** Each is one compare-and-swap register for
every key. On the same calls, with the tokens of the memory store renamed to those of Redis, they
give the same results and errors; distinct tokens minted in the one are renamed to any distinct
tokens minted in the other. -/
theorem stores_agree :
    Register.Conforms MemoryStore.answer .new ∧ Register.Conforms RedisStore.answer .new ∧
      (∀ (f : Token → Bytes), Function.Injective f → ∀ calls,
        (Register.run RedisStore.answer .new (calls.map fun x => (x.1.rename f, f x.2))).1 =
          (Register.run MemoryStore.answer .new calls).1.map
            fun x => (x.1.rename f, x.2.rename f)) ∧
      ∀ (minted : List Token) (tokens : List Bytes), minted.Nodup → tokens.Nodup →
        minted.length = tokens.length →
        ∃ f : Token → Bytes, Function.Injective f ∧ minted.map f = tokens := by
  refine ⟨MemoryStore.simulates.conforms trivial rfl,
    RedisStore.simulates.conforms RedisStore.whole_new rfl,
    fun f hf calls => replies_rename hf calls, fun minted tokens hminted htokens hlength => ?_⟩
  obtain ⟨f, hf⟩ := Register.exists_renaming tokenBytes hminted htokens hlength
  exact ⟨f, f.injective, hf⟩

theorem stores_agree_takeover :
    (Register.run RedisStore.answer .new
        [(.create "db" [1], tokenBytes "a"), (.replace "db" (tokenBytes "a") [2], tokenBytes "b"),
          (.replace "db" (tokenBytes "a") [3], tokenBytes "c")]).1.map Prod.snd =
        [.token (tokenBytes "a"), .token (tokenBytes "b"), .conflict] ∧
      ∃ f : Token → Bytes, Function.Injective f ∧ ["a", "b"].map f = [[0], [1]] := by
  have hreplies := stores_agree.2.2.1 tokenBytes tokenBytes.injective
    [(.create "db" [1], "a"), (.replace "db" "a" [2], "b"), (.replace "db" "a" [3], "c")]
  refine ⟨(congrArg (List.map Prod.snd) hreplies).trans (by decide +kernel), ?_⟩
  exact stores_agree.2.2.2 ["a", "b"] [[0], [1]] (by decide) (by decide) rfl

end Walrusd.Lease
