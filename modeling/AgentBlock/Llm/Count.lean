/-
AgentBlock/Llm/Count.lean

How many tokens a request is, as a Port counts it, and the counts a Port keeps.

A count is kept under two fields of the conf and a digest of the request.  The
digest is fed strings, keys and values one after another with nothing between them,
and what is sent for a request depends on every field of the conf.

Main results:

* `key_eq_iff` — two calls have one key exactly if the two fields read alike and
  the requests feed the digest the same bytes;
* `invisible_iff` — the cache is invisible over a set of calls exactly if any two of
  them that have one key are counted alike.
-/
import AgentBlock.Lib.Fifo
import AgentBlock.Lib.LuaArith
import AgentBlock.Lib.Split
import AgentBlock.Lib.Utf8
import Mathlib.Data.List.Sort

namespace AgentBlock.Llm

/-! ### The digest -/

def FNV_OFFSET : UInt64 := 0xcbf29ce484222325

def FNV_PRIME : UInt64 := 0x100000001b3

/-- A hexadecimal digit. -/
def hexDigit (n : ℕ) : Char := Nat.digitChar (n % 16)

/-- `%016x`. -/
def hex16 (h : UInt64) : List Char :=
  (List.range 16).reverse.map fun i => hexDigit (h.toNat / 16 ^ i)

/-- The 64-bit FNV-1a of what is fed. -/
def fnv1a (fed : Bytes) : UInt64 := fed.foldl (fun h b => (h ^^^ b.toUInt64) * FNV_PRIME) FNV_OFFSET

def bytesOf (s : String) : Bytes := Utf8.encode s.toList

section

variable (tostring : Lua → String)

mutual

/-- What a walk of a value feeds. -/
def fed : Lua → Bytes
  | .str s => bytesOf "s" ++ bytesOf s
  | .num n => bytesOf "v" ++ bytesOf (tostring (.num n))
  | .bool b => bytesOf "v" ++ bytesOf (tostring (.bool b))
  | .table items fields =>
      let entries := (fedItems 1 items ++ fedFields fields).insertionSort fun a b => a.1 ≤ b.1
      bytesOf "\x7b" ++ entries.flatMap (fun e => bytesOf e.1 ++ bytesOf "=" ++ e.2) ++ bytesOf "\x7d"
  | v => bytesOf "?" ++ bytesOf v.type

/-- The items of a table, the first of them number `i`, with their keys. -/
def fedItems (i : ℕ) : List Lua → List (String × Bytes)
  | [] => []
  | .nil :: items => fedItems (i + 1) items
  | item :: items => (toString i, fed item) :: fedItems (i + 1) items

def fedFields : List (String × Lua) → List (String × Bytes)
  | [] => []
  | (_, .nil) :: fields => fedFields fields
  | (key, v) :: fields => (key, fed v) :: fedFields fields

end

/-- `digest_of`. -/
def digestOf (v : Lua) : List Char := hex16 (fnv1a (fed tostring v))

/-! ### The estimate -/

mutual

/-- The bytes of a request, as an estimate counts them. -/
def estimateBytes : Lua → ℕ
  | .str s => s.utf8ByteSize
  | .num _ => 4
  | .bool _ => 4
  | .table items fields => estimateItems items + estimateFields fields
  | _ => 0

def estimateItems : List Lua → ℕ
  | [] => 0
  | item :: items => estimateBytes item + estimateItems items

def estimateFields : List (String × Lua) → ℕ
  | [] => 0
  | (_, .nil) :: fields => estimateFields fields
  | (key, v) :: fields => key.utf8ByteSize + estimateBytes v + estimateFields fields

end

/-- `math.ceil`. -/
def ceil : LuaNumber → LuaNumber
  | .float q => if -2 ^ 63 ≤ ⌈q⌉ ∧ ⌈q⌉ < 2 ^ 63 then .int ⌈q⌉ else .float ⌈q⌉
  | .negZero => .int 0
  | v => v

def ESTIMATE_BYTES_PER_TOKEN : ℚ := double (16 / 5)

/-- The estimate for a request no server will count. -/
def estimate (request : Lua) : LuaNumber :=
  match LuaNumber.ofRat (estimateBytes request) with
  | .float bytes => ceil (LuaNumber.ofRat (bytes / ESTIMATE_BYTES_PER_TOKEN))
  | v => v

/-! ### The count -/

/-- The fields of a table. -/
def fieldsOf : Lua → List (String × Lua)
  | .table _ fields => fields
  | _ => []

/-- The conf, with the fields of a request over its own. -/
def specOf (conf request : Lua) : Lua :=
  .table [] ((fieldsOf request).foldl (fun spec f => Lua.setField spec f.1 f.2) (fieldsOf conf))

def profileKey (conf : Lua) : String :=
  tostring (conf.get "base_url") ++ "|" ++ tostring (conf.get "model")

def COUNT_CACHE_SIZE : ℕ := 32

/-- A call: a request under a conf. -/
structure CountCall where
  request : Lua
  conf : Lua

/-- The key a count is kept under. -/
def CountCall.key (call : CountCall) : List Char :=
  (profileKey tostring call.conf).toList ++ '|' :: digestOf tostring call.request

/-- What a Port counts a request with, if it has anything: a number, nothing, or
another value that is no number; it may raise. -/
abbrev Tokenize := Option (Lua → Except Lua Lua)

/-- The count of a call for which nothing is kept. -/
def CountCall.tokens (tokenize : Tokenize) (call : CountCall) : Except Lua LuaNumber :=
  match tokenize with
  | none => .ok (estimate call.request)
  | some tokenize => do
      match ← tokenize (specOf call.conf call.request) with
      | .num counted => .ok counted.floor
      | _ => .ok (estimate call.request)

/-- `LLMPort:count`, with what the Port keeps. -/
def LLMPort.count (tokenize : Tokenize) (counts : Fifo.Cache (List Char) LuaNumber)
    (call : CountCall) : Except Lua LuaNumber × Fifo.Cache (List Char) LuaNumber :=
  Fifo.ask COUNT_CACHE_SIZE (CountCall.key tostring) (CountCall.tokens tokenize) counts call

/-- Calls one after another, on a Port that has counted nothing. -/
def LLMPort.countAll (tokenize : Tokenize) (calls : List CountCall) :
    List (Except Lua LuaNumber) × Fifo.Cache (List Char) LuaNumber :=
  Fifo.run COUNT_CACHE_SIZE (CountCall.key tostring) (CountCall.tokens tokenize) {} calls

end

/-! ### What a server counts -/

namespace Openai

/-- A text reads another somewhere. -/
def contains (text part : String) : Bool := (Split.once part.toList text.toList).isSome

/-- `resolve_dialect`. -/
def resolveDialect (spec : Lua) : Except Lua Lua :=
  if (spec.get "dialect").truthy then
    .ok (if (spec.get "dialect").eq (.str "compat") then .str "vllm" else spec.get "dialect")
  else match spec.get "base_url" with
    | .nil => .ok (.str "openai")
    | .bool false => .ok (.str "openai")
    | .str base =>
        if contains base "api.openai.com" then .ok (.str "openai")
        else if contains base "11434" || contains base.toLower "ollama" then .ok (.str "ollama")
        else .ok (.str "vllm")
    | v => .error (Lua.indexError v)

/-- `M.count`: what a server that is up counts for the wire that is built, where the
dialect has a counter. -/
def count (build : Lua → Except Lua (Except String Lua)) (server : Lua → Lua → Lua) (spec : Lua) :
    Except Lua Lua := do
  let dialect ← resolveDialect spec
  if dialect.eq (.str "vllm") || dialect.eq (.str "llamacpp") then
    match ← build spec with
    | .ok wire => .ok (server dialect wire)
    | .error _ => .ok .nil
  else .ok .nil

end Openai

/-! ### When the cache is invisible -/

section

variable {tostring : Lua → String} {tokenize : Tokenize}

theorem hexDigit_ne (n : ℕ) : hexDigit n ≠ '|' := by
  have hall : ∀ d < 16, Nat.digitChar d ≠ '|' := by decide
  exact hall (n % 16) (Nat.mod_lt n (by decide))

theorem not_mem_digestOf (v : Lua) : '|' ∉ digestOf tostring v := by
  intro hmem
  obtain ⟨i, -, hi⟩ := List.mem_map.mp hmem
  exact hexDigit_ne _ hi

/-- **Two calls have one key** exactly if the two fields of their confs read alike,
and their requests have one digest. -/
theorem key_eq_iff {c c' : CountCall} : c.key tostring = c'.key tostring ↔
    profileKey tostring c.conf = profileKey tostring c'.conf ∧
      digestOf tostring c.request = digestOf tostring c'.request := by
  constructor
  · intro h
    have hmem : '|' ∉ digestOf tostring c.request := not_mem_digestOf c.request
    have hmem' : '|' ∉ digestOf tostring c'.request := not_mem_digestOf c'.request
    have hlast := Split.last_append (profileKey tostring c.conf).toList hmem
    rw [show (profileKey tostring c.conf).toList ++ '|' :: digestOf tostring c.request =
      c'.key tostring from h] at hlast
    have hlast' := Split.last_append (profileKey tostring c'.conf).toList hmem'
    obtain ⟨hprofile, hdigest⟩ := Prod.mk.inj (Option.some.inj (hlast.symm.trans hlast'))
    exact ⟨String.toList_injective hprofile, hdigest⟩
  · rintro ⟨hprofile, hdigest⟩
    rw [CountCall.key, CountCall.key, hprofile, hdigest]

/-- A Port that keeps nothing counts. -/
theorem count_empty (c : CountCall) :
    (LLMPort.count tostring tokenize {} c).1 = c.tokens tokenize := by
  simp only [LLMPort.count, Fifo.ask]
  cases c.tokens tokenize <;> rfl

/-- Each count is what a Port that keeps nothing would answer, and the counts kept
are the last 32 stored. -/
structure Invisible (tostring : Lua → String) (tokenize : Tokenize) (calls : List CountCall) :
    Prop where
  answers : (LLMPort.countAll tostring tokenize calls).1 =
    calls.map fun call => (LLMPort.count tostring tokenize {} call).1
  bounded : (LLMPort.countAll tostring tokenize calls).2.order.length ≤ COUNT_CACHE_SIZE
  oldest : (LLMPort.countAll tostring tokenize calls).2.order =
    Fifo.newest COUNT_CACHE_SIZE (Fifo.stored COUNT_CACHE_SIZE (CountCall.key tostring)
      (CountCall.tokens tokenize) {} calls)

/-- **The cache is invisible** over a set of calls exactly if two of them that read
alike in the two fields and feed the digest the same are counted alike. -/
theorem invisible_iff {S : Set CountCall}
    (hfnv : ∀ c ∈ S, ∀ c' ∈ S, digestOf tostring c.request = digestOf tostring c'.request →
      fed tostring c.request = fed tostring c'.request) :
    (∀ calls : List CountCall, (∀ c ∈ calls, c ∈ S) → Invisible tostring tokenize calls) ↔
      ∀ c ∈ S, ∀ c' ∈ S, profileKey tostring c.conf = profileKey tostring c'.conf →
        fed tostring c.request = fed tostring c'.request →
        ∀ n, c.tokens tokenize = .ok n → c'.tokens tokenize = .ok n := by
  have hsize : 0 < COUNT_CACHE_SIZE := by decide
  have hfresh : (fun call => (LLMPort.count tostring tokenize {} call).1) =
      CountCall.tokens tokenize := funext count_empty
  have halike : Fifo.Alike S (CountCall.key tostring) (CountCall.tokens tokenize) ↔
      ∀ c ∈ S, ∀ c' ∈ S, profileKey tostring c.conf = profileKey tostring c'.conf →
        fed tostring c.request = fed tostring c'.request →
        ∀ n, c.tokens tokenize = .ok n → c'.tokens tokenize = .ok n := by
    constructor
    · intro h c hc c' hc' hprofile hfed
      refine h c hc c' hc' (key_eq_iff.mpr ⟨hprofile, ?_⟩)
      rw [digestOf, digestOf, hfed]
    · intro h c hc c' hc' hkey
      obtain ⟨hprofile, hdigest⟩ := key_eq_iff.mp hkey
      exact h c hc c' hc' hprofile (hfnv c hc c' hc' hdigest)
  rw [← halike, ← Fifo.answers_iff hsize]
  constructor
  · intro h calls hcalls
    have hanswers := (h calls hcalls).answers
    rwa [hfresh] at hanswers
  · intro h calls hcalls
    obtain ⟨hkept, horder⟩ := @Fifo.order_run _ _ _ _ _ _ (CountCall.key tostring)
      (CountCall.tokens tokenize) _ hsize (Fifo.kept_empty COUNT_CACHE_SIZE) calls
    constructor
    case answers =>
      rw [hfresh]
      exact h calls hcalls
    case bounded => exact hkept.length_le
    case oldest => exact horder

end

/-- What `tostring` shows of a string is the string. -/
def shown : Lua → String
  | .str s => s
  | v => v.type

/-- A server that counts a token for each byte of the system message. -/
def systemCounter : Tokenize :=
  some (Openai.count (fun spec => .ok (.ok spec)) fun _ wire =>
    .num (.int ((wire.get "system").asStr.elim 0 fun s => s.utf8ByteSize)))

/-- A conf of one server, with this system message for a request that has none. -/
def servedConf (system : String) : Lua :=
  Lua.record [("base_url", .str "http://localhost:8000/v1"), ("model", .str "qwen"),
    ("dialect", .str "vllm"), ("system", .str system)]

def briefCall : CountCall := { request := Lua.record [], conf := servedConf "be brief" }

def thoroughCall : CountCall := { request := Lua.record [], conf := servedConf "be thorough" }

/-- A request of a system message, and one of another and no tools. -/
def framedCall : CountCall :=
  { request := Lua.record [("system", .str "xtools={}")], conf := servedConf "" }

def toollessCall : CountCall :=
  { request := Lua.record [("system", .str "x"), ("tools", .array [])], conf := servedConf "" }

/-- A request of another system message. -/
def helloCall : CountCall :=
  { request := Lua.record [("system", .str "hello")], conf := servedConf "" }

theorem cache_invisible_for_one_conf :
    Invisible shown systemCounter [framedCall, helloCall, framedCall] := by
  have hdigest : digestOf shown framedCall.request ≠ digestOf shown helloCall.request := by
    decide +kernel
  have hfed : fed shown framedCall.request ≠ fed shown helloCall.request := by
    decide +kernel
  refine (invisible_iff (S := {framedCall, helloCall}) ?_).mpr ?_ _ ?_
  · rintro c (rfl | rfl) c' (rfl | rfl) h
    · rfl
    · exact absurd h hdigest
    · exact absurd h.symm hdigest
    · rfl
  · rintro c (rfl | rfl) c' (rfl | rfl) - h n hn
    · exact hn
    · exact absurd h hfed
    · exact absurd h.symm hfed
    · exact hn
  · intro c hc
    simpa [or_comm, or_assoc] using hc

theorem not_invisible {tostring : Lua → String} {tokenize : Tokenize} {c c' : CountCall}
    {n n' : LuaNumber} (hkey : c.key tostring = c'.key tostring) (hn : c.tokens tokenize = .ok n)
    (hn' : c'.tokens tokenize = .ok n') (hne : n ≠ n') : ¬ Invisible tostring tokenize [c, c'] := by
  intro h
  have hanswers := h.answers
  rw [LLMPort.countAll, Fifo.run_pair (by decide) hkey hn, List.map_cons, List.map_singleton,
    count_empty, count_empty, hn, hn'] at hanswers
  exact hne (Except.ok.inj (List.cons.inj (List.cons.inj hanswers).2).1)

/-- **A count is answered for another request**: of two confs of one server that
differ in the system message, and of two requests that feed the digest the same. -/
theorem count_of_another_call :
    ¬ Invisible shown systemCounter [briefCall, thoroughCall] ∧
      fed shown framedCall.request = fed shown toollessCall.request ∧
      ¬ Invisible shown systemCounter [framedCall, toollessCall] := by
  have hfed : fed shown framedCall.request = fed shown toollessCall.request := by
    decide +kernel
  have hdigest : digestOf shown framedCall.request = digestOf shown toollessCall.request := by
    rw [digestOf, hfed, digestOf]
  have hbrief : (.int 8 : LuaNumber) ≠ .int 11 := by decide
  have hframed : (.int 9 : LuaNumber) ≠ .int 1 := by decide
  exact ⟨not_invisible (key_eq_iff.mpr ⟨rfl, rfl⟩) rfl rfl hbrief, hfed,
    not_invisible (key_eq_iff.mpr ⟨rfl, hdigest⟩) rfl rfl hframed⟩

end AgentBlock.Llm
