/-
AgentBlock/Bus/HttpRules.lean

What the listener's rules allow, and where the guard lets something else
through.

The rules (`Allowed`) speak of how a value is written: an allowed name, in
brackets when it is an IPv6 address, and then nothing or a colon and digits.
The guard takes a host out of the value instead (`hostOnly`).  The two agree
except on what the guard reads past (`ReadPast`).  And it looks at no header before
the body is taken, so a request whose body is not is answered by the extractor.

Main results:

* `hostOnly_iff` — the host of a value is allowed iff the value is written as the
  rules say or is read past;
* `allowed_iff` — so the rules allow what gets past the guard (`Passed`) unless it
  does so by a header that is read past (`Slack`);
* `refused_or_allowed_iff` — and the rules hold of a request exactly if that is not
  so of its headers, and its body is taken.
-/
import AgentBlock.Bus.HttpSource

namespace AgentBlock.Bus

/-! ### The texts of addresses -/

/-- No bracket stands in a name, and no single colon. -/
structure IsHostName (name : List Char) : Prop where
  no_open : '[' ∉ name
  no_close : ']' ∉ name
  colons : name.count ':' ≠ 1

/-- The characters of the digits of a number. -/
theorem exists_digitChar {b : Nat} (hb : 1 < b) {c : Char} (n : Nat)
    (h : c ∈ Nat.toDigits b n) : ∃ k < b, c = Nat.digitChar k := by
  induction n using Nat.strongRecOn with
  | _ n ih =>
      rw [Nat.toDigits_eq_if hb] at h
      split at h
      next hn => exact ⟨n, hn, List.mem_singleton.mp h⟩
      next hn =>
        rcases List.mem_append.mp h with h | h
        · exact ih (n / b) (Nat.div_lt_self (by omega) hb) h
        · exact ⟨n % b, Nat.mod_lt _ (by omega), List.mem_singleton.mp h⟩

theorem digitChar_ne : ∀ k < 16, Nat.digitChar k ≠ '[' ∧ Nat.digitChar k ≠ ']' ∧
    Nat.digitChar k ≠ ':' := by decide

theorem ne_of_mem_toDigits {b n : Nat} (hb : 1 < b) (hb' : b ≤ 16) {c : Char}
    (h : c ∈ Nat.toDigits b n) : c ≠ '[' ∧ c ≠ ']' ∧ c ≠ ':' := by
  obtain ⟨k, hk, rfl⟩ := exists_digitChar hb n h
  exact digitChar_ne k (by omega)

namespace IpAddr

theorem ne_of_mem_v4Text {a b c d : Nat} {x : Char} (h : x ∈ v4Text a b c d) :
    x ≠ '[' ∧ x ≠ ']' ∧ x ≠ ':' := by
  have hdigits : ∀ n, x ∈ Nat.toDigits 10 n → x ≠ '[' ∧ x ≠ ']' ∧ x ≠ ':' :=
    fun n => ne_of_mem_toDigits (by decide) (by decide)
  simp only [v4Text, List.append_assoc, List.cons_append, List.mem_append, List.mem_cons] at h
  rcases h with h | rfl | h | rfl | h | rfl | h
  · exact hdigits _ h
  · decide
  · exact hdigits _ h
  · decide
  · exact hdigits _ h
  · decide
  · exact hdigits _ h

theorem ne_of_mem_joined {segments : List UInt16} {x : Char} (h : x ∈ joined segments) :
    x ≠ '[' ∧ x ≠ ']' := by
  have hdigits : ∀ n, x ∈ Nat.toDigits 16 n → x ≠ '[' ∧ x ≠ ']' := fun n hx =>
    (ne_of_mem_toDigits (by decide) (by decide) hx).imp_right And.left
  induction segments using joined.induct with
  | case1 => exact absurd h List.not_mem_nil
  | case2 s => exact hdigits _ h
  | case3 s rest hrest ih =>
      rw [joined] at h
      · rcases List.mem_append.mp h with h | h
        · exact hdigits _ h
        · rcases List.mem_cons.mp h with rfl | h
          · decide
          · exact ih h
      · exact hrest

theorem count_colon_toDigits (n : Nat) : (Nat.toDigits 16 n).count ':' = 0 :=
  List.count_eq_zero.mpr fun h =>
    (ne_of_mem_toDigits (by decide) (by decide) h).2.2 rfl

theorem count_colon_joined {segments : List UInt16} (h : segments ≠ []) :
    (joined segments).count ':' + 1 = segments.length := by
  induction segments using joined.induct with
  | case1 => exact absurd rfl h
  | case2 s => rw [joined, count_colon_toDigits]; rfl
  | case3 s rest hrest ih =>
      have hne : rest ≠ [] := fun hnil => hrest hnil
      rw [joined, List.count_append, count_colon_toDigits, List.count_cons_self,
        List.length_cons, ← ih hne]
      · omega
      · exact hrest

theorem count_colon_v4Text (a b c d : Nat) : (v4Text a b c d).count ':' = 0 :=
  List.count_eq_zero.mpr fun h => (ne_of_mem_v4Text h).2.2 rfl

/-- Where an address has a colon, it has two. -/
theorem two_colons_v6 (segments : List UInt16) (h : segments.length = 8) :
    2 ≤ (toText (v6 segments h)).count ':' := by
  unfold toText
  dsimp only
  split
  · rw [List.count_append]
    exact Nat.le_trans (by decide) (Nat.le_add_right 3 _)
  · split
    · rw [List.count_append, List.count_append]
      have : "::".toList.count ':' = 2 := by decide
      omega
    · have hne : segments ≠ [] := by
        rintro rfl
        cases h
      have := count_colon_joined hne
      omega

/-- **An address is written without brackets**, and with no colon or two at
least. -/
theorem isHostName_toText (addr : IpAddr) : IsHostName addr.toText := by
  have hcolons : ∀ x ∈ "::ffff:".toList, x ≠ '[' ∧ x ≠ ']' := by simp
  have hfree : ∀ x ∈ addr.toText, x ≠ '[' ∧ x ≠ ']' := by
    intro x hx
    cases addr with
    | v4 a b c d => exact (ne_of_mem_v4Text hx).imp_right And.left
    | v6 segments h =>
        unfold toText at hx
        dsimp only at hx
        split at hx
        · rcases List.mem_append.mp hx with hx | hx
          · exact hcolons x hx
          · exact (ne_of_mem_v4Text hx).imp_right And.left
        · split at hx
          · rcases List.mem_append.mp hx with hx | hx
            · rcases List.mem_append.mp hx with hx | hx
              · exact ne_of_mem_joined hx
              · exact hcolons x (List.mem_of_mem_take (i := 2) hx)
            · exact ne_of_mem_joined hx
          · exact ne_of_mem_joined hx
  refine ⟨fun h => (hfree _ h).1 rfl, fun h => (hfree _ h).2 rfl, ?_⟩
  cases addr with
  | v4 a b c d =>
      have : (toText (v4 a b c d)).count ':' = 0 := count_colon_v4Text _ _ _ _
      omega
  | v6 segments h =>
      have := two_colons_v6 segments h
      omega

end IpAddr

theorem isHostName_of_mem_allowedHosts {addr : IpAddr} {name : List Char}
    (h : name ∈ allowedHosts addr) : IsHostName name := by
  unfold allowedHosts at h
  rcases List.mem_append.mp h with h | h
  · have hfixed : ∀ name ∈ ["localhost".toList, "127.0.0.1".toList, "::1".toList],
        '[' ∉ name ∧ ']' ∉ name ∧ name.count ':' ≠ 1 := by decide
    obtain ⟨h₁, h₂, h₃⟩ := hfixed name h
    exact ⟨h₁, h₂, h₃⟩
  · split at h
    · exact absurd h List.not_mem_nil
    · rw [List.mem_singleton.mp h]
      exact addr.isHostName_toText

/-! ### The rules -/

/-- Nothing, or a colon and digits. -/
def IsPort (port : List Char) : Prop :=
  port = [] ∨ ∃ digits, port = ':' :: digits ∧ digits ≠ [] ∧ digits.all isAsciiDigit = true

/-- A name as it is written in a header: an IPv6 address stands in brackets. -/
def written (name : List Char) : List Char :=
  if ':' ∈ name then '[' :: name ++ [']'] else name

/-- The value is an allowed name, and then nothing or a port. -/
def Names (hosts : List (List Char)) (value : List Char) : Prop :=
  ∃ name ∈ hosts, ∃ port, IsPort port ∧ value = written name ++ port

section Rules

variable (toStr : List UInt8 → Option (List Char))

def HostAllowed (hosts : List (List Char)) (headers : HeaderMap) : Prop :=
  ∃ v text, headers.get .host = some v ∧ toStr v = some text ∧ Names hosts (trim text)

def OriginAllowed (hosts : List (List Char)) (v : List UInt8) : Prop :=
  ∃ text host, toStr v = some text ∧ authority text = some host ∧ Names hosts (trim host)

def TokenCarried (expected : List Char) (headers : HeaderMap) : Prop :=
  ∃ v carried, headers.get .authorization = some v ∧
    toStr v = some ("Bearer ".toList ++ carried) ∧ trim carried = expected

/-- **What the listener's rules allow.** -/
structure Allowed (inner : Inner) (headers : HeaderMap) : Prop where
  host : HostAllowed toStr inner.allowedHosts headers
  origin : ∀ v ∈ headers.getAll .origin, OriginAllowed toStr inner.allowedHosts v
  token : ∀ expected, inner.token = some expected → TokenCarried toStr expected headers

/-! ### What the guard reads past -/

/-- The last group of an address that can be taken for a port. -/
def EndsInDigits (name : List Char) : Prop :=
  ∃ host digits, name = host ++ ':' :: digits ∧ digits.all isAsciiDigit = true

/-- An allowed name in the value, written as the rules do not write it: something
else behind the closing bracket, or brackets around a name that is no IPv6 address;
a colon alone behind it; or an IPv6 address without brackets. -/
def ReadPast (hosts : List (List Char)) (value : List Char) : Prop :=
  ∃ name ∈ hosts,
    (∃ rest, value = '[' :: name ++ ']' :: rest ∧ (':' ∉ name ∨ ¬ IsPort rest)) ∨
    value = name ++ [':'] ∨
    (':' ∈ name ∧ ∃ port, IsPort port ∧ value = name ++ port ∧ (port = [] → ¬ EndsInDigits name))

/-- A header the guard reads past: its `Host`; its first `Origin`, which may
also not be readable at all; or an `Origin` that is not the first. -/
inductive Slack (hosts : List (List Char)) (headers : HeaderMap) : Prop
  | host {v : List UInt8} {text : List Char} (hv : headers.get .host = some v)
      (htext : toStr v = some text) (hpast : ReadPast hosts (trim text))
  | unreadable {v : List UInt8} (hv : headers.get .origin = some v) (hnone : toStr v = none)
  | origin {v : List UInt8} {text host : List Char} (hv : headers.get .origin = some v)
      (htext : toStr v = some text) (hhost : authority text = some host)
      (hpast : ReadPast hosts (trim host))
  | later {v : List UInt8} (hv : v ∈ (headers.getAll .origin).tail)
      (hnot : ¬ OriginAllowed toStr hosts v)

/-- What gets past the guard: a `Host` it can read that names an allowed host or is
read past, an `Origin` that does so too, if it can be read, and the token. -/
structure Passed (inner : Inner) (headers : HeaderMap) : Prop where
  host : ∃ v text, headers.get .host = some v ∧ toStr v = some text ∧
    (Names inner.allowedHosts (trim text) ∨ ReadPast inner.allowedHosts (trim text))
  origin : ∀ v text, headers.get .origin = some v → toStr v = some text →
    ∃ host, authority text = some host ∧
      (Names inner.allowedHosts (trim host) ∨ ReadPast inner.allowedHosts (trim host))
  token : ∀ expected, inner.token = some expected → TokenCarried toStr expected headers

end Rules

/-! ### The host of a value -/

section Host

variable {hosts : List (List Char)} {name value v digits : List Char}

theorem IsPort.count_le (h : IsPort value) : value.count ':' ≤ 1 := by
  rcases h with rfl | ⟨digits, rfl, -, hdigits⟩
  · exact Nat.zero_le _
  · have : ':' ∉ digits := fun h => absurd (List.all_eq_true.mp hdigits _ h) (by decide)
    rw [List.count_cons_self, List.count_eq_zero.mpr this]

/-- What is left when a port is dropped. -/
theorem of_dropPort (h : dropPort v = name) :
    (∃ digits, digits.all isAsciiDigit = true ∧ v = name ++ ':' :: digits) ∨
      v = name ∧ ¬ EndsInDigits name := by
  unfold dropPort at h
  split at h
  next host port hlast =>
    obtain ⟨rfl, hport⟩ := Split.of_last hlast
    split at h
    next hdigits => exact Or.inl ⟨port, hdigits, by rw [h]⟩
    next hdigits =>
      refine Or.inr ⟨h, ?_⟩
      rintro ⟨host', digits, heq, hall⟩
      have hlast' : Split.last ':' name = some (host', digits) := by
        rw [heq]
        exact Split.last_append host' fun hmem =>
          absurd (List.all_eq_true.mp hall _ hmem) (by decide)
      rw [← h, hlast] at hlast'
      cases hlast'
      exact hdigits hall
  next hnone =>
    refine Or.inr ⟨h, ?_⟩
    rintro ⟨host', digits, heq, -⟩
    refine Split.last_eq_none.mp hnone ?_
    rw [h, heq]
    exact List.mem_append_right _ List.mem_cons_self

theorem dropPort_port (h : digits.all isAsciiDigit = true) :
    dropPort (name ++ ':' :: digits) = name := by
  have hnot : ':' ∉ digits := fun hmem => absurd (List.all_eq_true.mp h _ hmem) (by decide)
  rw [dropPort, Split.last_append name hnot]
  exact if_pos h

theorem dropPort_self (h : ¬ EndsInDigits name) : dropPort name = name := by
  rcases of_dropPort (v := name) rfl with ⟨digits, hall, heq⟩ | ⟨heq, -⟩
  · exact absurd ⟨_, digits, heq, hall⟩ h
  · exact heq.symm

theorem not_endsInDigits (h : ':' ∉ name) : ¬ EndsInDigits name := by
  rintro ⟨host, digits, rfl, -⟩
  exact h (List.mem_append_right _ List.mem_cons_self)

theorem hostOnly_bracket (hname : ']' ∉ name) {rest : List Char}
    (h : trim value = '[' :: name ++ ']' :: rest) : hostOnly value = name := by
  unfold hostOnly
  rw [h]
  simp only [List.cons_append, Split.first_append rest hname]

theorem hostOnly_plain (h : '[' ∉ trim value) : hostOnly value = dropPort (trim value) := by
  unfold hostOnly
  dsimp only
  split
  next rest hrest =>
    rw [hrest] at h
    exact absurd List.mem_cons_self h
  next => rfl

/-- A port behind a name is dropped, and nothing else is. -/
theorem dropPort_name {port : List Char} (hport : IsPort port ∨ port = [':'])
    (hself : port = [] → ¬ EndsInDigits name) : dropPort (name ++ port) = name := by
  rcases hport with (rfl | ⟨digits, rfl, -, hdigits⟩) | rfl
  · rw [List.append_nil]
    exact dropPort_self (hself rfl)
  · exact dropPort_port hdigits
  · exact dropPort_port rfl

theorem not_open_of_port (hname : '[' ∉ name) {port : List Char}
    (hport : IsPort port ∨ port = [':']) : '[' ∉ name ++ port := by
  intro hmem
  rcases List.mem_append.mp hmem with hmem | hmem
  · exact hname hmem
  · rcases hport with (rfl | ⟨digits, rfl, -, hdigits⟩) | rfl
    · exact absurd hmem List.not_mem_nil
    · rcases List.mem_cons.mp hmem with heq | hmem
      · exact absurd heq (by decide)
      · exact absurd (List.all_eq_true.mp hdigits _ hmem) (by decide)
    · exact absurd hmem (by decide)

/-- **The host of a value is allowed** iff the value is written as the rules say,
or read past. -/
theorem hostOnly_iff (hhosts : ∀ name ∈ hosts, IsHostName name) :
    hostOnly value ∈ hosts ↔ Names hosts (trim value) ∨ ReadPast hosts (trim value) := by
  constructor
  · intro h
    have hdrop : dropPort (trim value) = hostOnly value →
        Names hosts (trim value) ∨ ReadPast hosts (trim value) := by
      intro hdrop
      rcases of_dropPort hdrop with ⟨digits, hdigits, heq⟩ | ⟨heq, hends⟩
      · by_cases hnil : digits = []
        · subst hnil
          exact Or.inr ⟨_, h, Or.inr (Or.inl heq)⟩
        · have hport : IsPort (':' :: digits) := Or.inr ⟨digits, rfl, hnil, hdigits⟩
          by_cases hcolon : ':' ∈ hostOnly value
          · exact Or.inr ⟨_, h, Or.inr (Or.inr ⟨hcolon, _, hport, heq, nofun⟩)⟩
          · exact Or.inl ⟨_, h, _, hport, by rw [written, if_neg hcolon, heq]⟩
      · by_cases hcolon : ':' ∈ hostOnly value
        · refine Or.inr ⟨_, h, Or.inr (Or.inr ⟨hcolon, [], Or.inl rfl, ?_, fun _ => hends⟩)⟩
          rw [List.append_nil, heq]
        · refine Or.inl ⟨_, h, [], Or.inl rfl, ?_⟩
          rw [written, if_neg hcolon, List.append_nil, heq]
    cases hvalue : trim value with
    | nil => exact hvalue ▸ hdrop (hostOnly_plain (by rw [hvalue]; exact List.not_mem_nil)).symm
    | cons c rest =>
        rw [← hvalue]
        by_cases hc : c = '['
        · subst hc
          cases hfirst : Split.first ']' rest with
          | some p =>
              obtain ⟨host, r⟩ := p
              -- in brackets: the name is what stands before the first closing one, whatever follows
              obtain ⟨rfl, hclose⟩ := Split.of_first hfirst
              have heq : trim value = '[' :: host ++ ']' :: r := hvalue
              rw [hostOnly_bracket hclose heq] at h
              by_cases hgood : ':' ∈ host ∧ IsPort r
              · refine Or.inl ⟨_, h, r, hgood.2, ?_⟩
                rw [heq, written, if_pos hgood.1]
                simp
              · refine Or.inr ⟨_, h, Or.inl ⟨r, heq, ?_⟩⟩
                exact (not_and_or.mp hgood).imp_left id
          | none =>
              refine hdrop ?_
              unfold hostOnly
              rw [hvalue]
              simp only [hfirst]
        · refine hdrop ?_
          unfold hostOnly
          rw [hvalue]
          dsimp only
          split
          next heq => exact absurd (List.cons.inj heq).1 hc
          next => rfl
  · have hplain : ∀ name ∈ hosts, ∀ port, (IsPort port ∨ port = [':']) →
        (port = [] → ¬ EndsInDigits name) → trim value = name ++ port →
        hostOnly value ∈ hosts := by
      intro name hname port hport hself heq
      have hopen := not_open_of_port (hhosts name hname).no_open hport
      rw [hostOnly_plain (by rw [heq]; exact hopen), heq, dropPort_name hport hself]
      exact hname
    rintro (⟨name, hname, port, hport, heq⟩ | ⟨name, hname,
      ⟨rest, heq, -⟩ | heq | ⟨-, port, hport, heq, hself⟩⟩)
    · by_cases hcolon : ':' ∈ name
      · rw [written, if_pos hcolon] at heq
        have hbracket : trim value = '[' :: name ++ ']' :: port := by
          rw [heq]
          simp
        rw [hostOnly_bracket (hhosts name hname).no_close hbracket]
        exact hname
      · rw [written, if_neg hcolon] at heq
        exact hplain name hname port (Or.inl hport) (fun _ => not_endsInDigits hcolon) heq
    · rw [hostOnly_bracket (hhosts name hname).no_close heq]
      exact hname
    · exact hplain name hname _ (Or.inr rfl) nofun heq
    · exact hplain name hname port (Or.inl hport) hself heq

/-- Nothing that is written as the rules say is read past. -/
theorem not_readPast_of_names (hhosts : ∀ name ∈ hosts, IsHostName name)
    (h : Names hosts value) : ¬ ReadPast hosts value := by
  obtain ⟨m, hm, port, hport, rfl⟩ := h
  rintro ⟨n, hn, ⟨rest, heq, hbad⟩ | heq | ⟨hcolon, port', hport', heq, -⟩⟩
  · unfold written at heq
    split at heq
    next hm6 =>
      -- both names end at the first closing bracket
      have hsplit : m ++ ']' :: port = n ++ ']' :: rest := by simpa using heq
      obtain ⟨rfl, rfl⟩ := Split.append_inj_first (hhosts m hm).no_close
        (hhosts n hn).no_close hsplit
      exact hbad.elim (fun hno => hno hm6) fun hno => hno hport
    next hm6 =>
      refine not_open_of_port (hhosts m hm).no_open (Or.inl hport) ?_
      rw [heq]
      exact List.mem_cons_self
  · unfold written at heq
    split at heq
    next hm6 =>
      refine not_open_of_port (hhosts n hn).no_open (Or.inr rfl) ?_
      rw [← heq]
      exact List.mem_cons_self
    next hm6 =>
      -- the one ends in a colon, the other does not
      rcases hport with rfl | ⟨digits, rfl, hne, hdigits⟩
      · rw [List.append_nil] at heq
        exact hm6 (heq ▸ List.mem_append_right _ List.mem_cons_self)
      · obtain ⟨front, d, rfl⟩ := (List.eq_nil_or_concat digits).resolve_left hne
        have hlast := congrArg List.getLast? heq
        rw [List.concat_eq_append, ← List.cons_append, ← List.append_assoc,
          List.getLast?_concat, List.getLast?_concat] at hlast
        obtain rfl := Option.some.inj hlast
        exact absurd (List.all_eq_true.mp hdigits ':' (by simp)) (by decide)
  · unfold written at heq
    split at heq
    next hm6 =>
      refine not_open_of_port (hhosts n hn).no_open (Or.inl hport') ?_
      rw [← heq]
      exact List.mem_cons_self
    next hm6 =>
      -- one colon at most on the left, two at least on the right
      have hcount := congrArg (List.count ':') heq
      rw [List.count_append, List.count_append, List.count_eq_zero.mpr hm6] at hcount
      have := hport.count_le
      have := (hhosts n hn).colons
      have := List.count_pos_iff.mpr hcolon
      omega

end Host

/-! ### Requests -/

section Requests

variable {toStr : List UInt8 → Option (List Char)} {inner : Inner} {headers : HeaderMap}

theorem mem_getAll_of_get {name : HeaderName} {v : List UInt8}
    (h : headers.get name = some v) : v ∈ headers.getAll name :=
  List.mem_of_mem_head? h

/-- A value of a name is the first one or a later one. -/
theorem get_or_tail {name : HeaderName} {v : List UInt8} (h : v ∈ headers.getAll name) :
    headers.get name = some v ∨ v ∈ (headers.getAll name).tail := by
  unfold HeaderMap.get
  cases hall : headers.getAll name with
  | nil =>
      rw [hall] at h
      exact absurd h List.not_mem_nil
  | cons w rest =>
      rw [hall] at h
      rcases List.mem_cons.mp h with rfl | h
      · exact Or.inl rfl
      · exact Or.inr h

theorem hostOk_iff : hostOk toStr inner headers = true ↔
    ∃ v text, headers.get .host = some v ∧ toStr v = some text ∧
      hostOnly text ∈ inner.allowedHosts := by
  unfold hostOk
  cases hv : headers.get .host with
  | none => simp
  | some v => cases ht : toStr v <;> simp [ht]

theorem originOk_iff : originOk toStr inner headers = true ↔
    ∀ v text, headers.get .origin = some v → toStr v = some text →
      ∃ host, originHost text = some host ∧ host ∈ inner.allowedHosts := by
  unfold originOk
  cases hv : headers.get .origin with
  | none => simp
  | some v =>
      cases ht : toStr v with
      | none =>
          refine ⟨fun _ w text hw hread => ?_, fun _ => by simp [ht]⟩
          cases hw
          cases ht.symm.trans hread
      | some text =>
          refine ⟨fun h w text' hw hread => ?_, fun h => ?_⟩
          · cases hw
            cases ht.symm.trans hread
            cases ho : originHost text with
            | none => simp [ht, ho] at h
            | some host => exact ⟨host, rfl, by simpa [ht, ho] using h⟩
          · obtain ⟨host, ho, hin⟩ := h v text rfl ht
            simp [ht, ho, hin]

theorem presented_iff {expected : List Char} :
    presented toStr headers = some expected ↔ TokenCarried toStr expected headers := by
  constructor
  · intro h
    unfold presented at h
    obtain ⟨carried, hcarried, rfl⟩ := Option.map_eq_some_iff.mp h
    obtain ⟨text, htext, hstrip⟩ := Option.bind_eq_some_iff.mp hcarried
    obtain ⟨v, hv, ht⟩ := Option.bind_eq_some_iff.mp htext
    split at hstrip
    next hbearer =>
      obtain ⟨rest, rfl⟩ := hbearer
      rw [List.drop_left] at hstrip
      cases hstrip
      exact ⟨v, _, hv, ht, rfl⟩
    next => cases hstrip
  · rintro ⟨v, carried, hv, ht, rfl⟩
    unfold presented
    rw [hv, Option.bind_some, ht, Option.bind_some, if_pos (List.prefix_append _ _),
      List.drop_left]
    rfl

theorem tokenOk_iff : tokenOk toStr inner headers = true ↔
    ∀ expected, inner.token = some expected → TokenCarried toStr expected headers := by
  simp only [← presented_iff]
  unfold tokenOk
  cases inner.token <;> simp

/-- The guard lets pass what is written so. -/
theorem passed_iff (hhosts : ∀ name ∈ inner.allowedHosts, IsHostName name) :
    Passed toStr inner headers ↔ hostOk toStr inner headers = true ∧
      originOk toStr inner headers = true ∧ tokenOk toStr inner headers = true := by
  rw [hostOk_iff, originOk_iff, tokenOk_iff]
  have horigin : ∀ text, (∃ host, originHost text = some host ∧ host ∈ inner.allowedHosts) ↔
      ∃ host, authority text = some host ∧
        (Names inner.allowedHosts (trim host) ∨ ReadPast inner.allowedHosts (trim host)) := by
    intro text
    simp only [originHost, Option.map_eq_some_iff, ← hostOnly_iff hhosts]
    exact ⟨fun ⟨_, ⟨a, ha, hhost⟩, h⟩ => ⟨a, ha, hhost ▸ h⟩, fun ⟨a, ha, h⟩ => ⟨_, ⟨a, ha, rfl⟩, h⟩⟩
  simp only [horigin, hostOnly_iff hhosts]
  exact ⟨fun ⟨h, h', h''⟩ => ⟨h, h', h''⟩, fun ⟨h, h', h''⟩ => ⟨h, h', h''⟩⟩

/-- **The rules allow** what gets past the guard and was not read past. -/
theorem allowed_iff (hhosts : ∀ name ∈ inner.allowedHosts, IsHostName name) :
    Allowed toStr inner headers ↔
      Passed toStr inner headers ∧ ¬ Slack toStr inner.allowedHosts headers := by
  constructor
  · rintro ⟨⟨v, text, hv, ht, hnames⟩, hall, htoken⟩
    refine ⟨⟨⟨v, text, hv, ht, Or.inl hnames⟩, fun w origin hw hread => ?_, htoken⟩,
      fun hslack => ?_⟩
    · obtain ⟨origin', host, hread', hhost, hnames'⟩ := hall w (mem_getAll_of_get hw)
      cases hread'.symm.trans hread
      exact ⟨host, hhost, Or.inl hnames'⟩
    · cases hslack with
      | host hv₂ ht₂ hpast =>
          cases hv.symm.trans hv₂
          cases ht.symm.trans ht₂
          exact not_readPast_of_names hhosts hnames hpast
      | unreadable hv₂ hnone =>
          obtain ⟨_, _, hread, -⟩ := hall _ (mem_getAll_of_get hv₂)
          cases hread.symm.trans hnone
      | origin hv₂ ht₂ hhost hpast =>
          obtain ⟨_, _, hread, hauth, hnames⟩ := hall _ (mem_getAll_of_get hv₂)
          cases hread.symm.trans ht₂
          cases hauth.symm.trans hhost
          exact not_readPast_of_names hhosts hnames hpast
      | later hv₂ hnot => exact hnot (hall _ (List.mem_of_mem_tail hv₂))
  · rintro ⟨⟨⟨v, text, hv, ht, hhost⟩, horigin, htoken⟩, hslack⟩
    refine ⟨⟨v, text, hv, ht, ?_⟩, fun w hw => ?_, htoken⟩
    · exact hhost.resolve_right fun hpast => hslack (.host hv ht hpast)
    · rcases get_or_tail hw with hfirst | hlater
      · cases hread : toStr w with
        | none => exact absurd (.unreadable hfirst hread) hslack
        | some origin =>
            obtain ⟨host, hauth, hnames⟩ := horigin w origin hfirst hread
            exact ⟨origin, host, hread, hauth, hnames.resolve_right fun hpast =>
              hslack (.origin hfirst hread hauth hpast)⟩
      · by_contra hnot
        exact hslack (.later hlater hnot)

end Requests

/-! ### What reaches the bus -/

/-- A request that was answered before it became an event, as the guard does. -/
def IsRefusal (r : List Event × Response) : Prop :=
  r.1 = [] ∧ (r.2.status = 403 ∨ r.2.status = 401)

/-- One that was answered before it became an event, by the guard or because of its
body. -/
def IsTurnedAway (r : List Event × Response) : Prop :=
  IsRefusal r ∨ r.1 = [] ∧ (r.2.status = 400 ∨ r.2.status = 413)

/-- A body that arrives whole and is not too large. -/
def Incoming.Fits : Incoming → Prop
  | .whole bytes => bytes.length ≤ BODY_LIMIT
  | .broken _ => False

section Handle

variable {takeBody : Incoming → Except Response (List UInt8)}
  {toStr : List UInt8 → Option (List Char)} {bodyOf : List UInt8 → Json}
  {inner : Inner} {id id' : String} {bus bus' : Event → Ack} {req req' : Request}

theorem Extracts.fits_iff (htake : Extracts takeBody) {body : Incoming} :
    body.Fits ↔ ∃ bytes, takeBody body = .ok bytes := by
  cases body with
  | whole bytes =>
      constructor
      · exact fun h => ⟨bytes, htake.taken bytes h⟩
      · rintro ⟨taken, h⟩
        by_contra hno
        obtain ⟨text, htext⟩ := htake.tooLarge bytes (Nat.lt_of_not_le hno)
        cases htext.symm.trans h
  | broken bytes =>
      refine ⟨False.elim, ?_⟩
      rintro ⟨taken, h⟩
      obtain ⟨status, text, htext, -⟩ := htake.broken bytes
      cases htext.symm.trans h

/-- A body that is not taken is answered for. -/
theorem Extracts.refused (htake : Extracts takeBody) {body : Incoming} (h : ¬ body.Fits) :
    ∃ response, takeBody body = .error response ∧
      (response.status = 400 ∨ response.status = 413) := by
  cases body with
  | whole bytes =>
      obtain ⟨text, htext⟩ := htake.tooLarge bytes (Nat.lt_of_not_le h)
      exact ⟨_, htext, Or.inr rfl⟩
  | broken bytes =>
      obtain ⟨status, text, htext, hstatus⟩ := htake.broken bytes
      exact ⟨_, htext, hstatus⟩

/-- **The guard refuses** what has a body that is taken and does not get past it. -/
theorem isRefusal_handle_iff (htake : Extracts takeBody)
    (hhosts : ∀ name ∈ inner.allowedHosts, IsHostName name) :
    IsRefusal (handle takeBody toStr bodyOf inner id bus req) ↔
      req.body.Fits ∧ ¬ Passed toStr inner req.headers := by
  by_cases hfits : req.body.Fits
  · obtain ⟨body, hbody⟩ := htake.fits_iff.mp hfits
    rw [passed_iff hhosts, and_iff_right hfits, handle, hbody]
    dsimp only
    cases hostOk toStr inner req.headers with
    | false => exact ⟨fun _ h => absurd h.1 nofun, fun _ => ⟨rfl, Or.inl rfl⟩⟩
    | true =>
    cases originOk toStr inner req.headers with
    | false => exact ⟨fun _ h => absurd h.2.1 nofun, fun _ => ⟨rfl, Or.inl rfl⟩⟩
    | true =>
    cases tokenOk toStr inner req.headers with
    | false => exact ⟨fun _ h => absurd h.2.2 nofun, fun _ => ⟨rfl, Or.inr rfl⟩⟩
    | true =>
        refine ⟨fun h => ?_, fun h => absurd ⟨rfl, rfl, rfl⟩ h⟩
        obtain ⟨hsent, hstatus⟩ := h
        cases hbus : bus (eventOf bodyOf inner id req body) with
        | closed =>
            rw [hbus] at hstatus
            exact hstatus.elim nofun nofun
        | _ => rw [hbus] at hsent; cases hsent
  · obtain ⟨response, hbody, hstatus⟩ := htake.refused hfits
    rw [handle, hbody]
    refine iff_of_false (fun h => ?_) fun h => hfits h.1
    dsimp only [IsRefusal] at h
    omega

/-- What the guard refuses, it answers by the headers alone. -/
theorem handle_eq_of_fits (htake : Extracts takeBody)
    (hhosts : ∀ name ∈ inner.allowedHosts, IsHostName name)
    (hheaders : req'.headers = req.headers) (hfits : req.body.Fits) (hfits' : req'.body.Fits)
    (h : ¬ Passed toStr inner req.headers) :
    handle takeBody toStr bodyOf inner id' bus' req' =
      handle takeBody toStr bodyOf inner id bus req := by
  obtain ⟨body, hbody⟩ := htake.fits_iff.mp hfits
  obtain ⟨body', hbody'⟩ := htake.fits_iff.mp hfits'
  rw [passed_iff hhosts] at h
  rw [handle, handle, hbody, hbody', hheaders]
  dsimp only
  cases hhost : hostOk toStr inner req.headers with
  | false => rfl
  | true =>
  cases horigin : originOk toStr inner req.headers with
  | false => rfl
  | true =>
  cases htoken : tokenOk toStr inner req.headers with
  | false => rfl
  | true => exact absurd ⟨hhost, horigin, htoken⟩ h

/-- What is turned away does not get past the guard, or has a body that is not
taken. -/
theorem isTurnedAway_handle_iff (htake : Extracts takeBody)
    (hhosts : ∀ name ∈ inner.allowedHosts, IsHostName name) :
    IsTurnedAway (handle takeBody toStr bodyOf inner id bus req) ↔
      req.body.Fits → ¬ Passed toStr inner req.headers := by
  rw [IsTurnedAway, isRefusal_handle_iff htake hhosts]
  by_cases hfits : req.body.Fits
  · simp only [hfits, true_and, forall_const]
    refine ⟨fun h => h.elim (fun h => h) fun h hpassed => ?_, Or.inl⟩
    obtain ⟨hsent, hstatus⟩ := h
    obtain ⟨body, hbody⟩ := htake.fits_iff.mp hfits
    obtain ⟨hhost, horigin, htoken⟩ := (passed_iff hhosts).mp hpassed
    rw [handle, hbody] at hsent hstatus
    simp only [hhost, horigin, htoken] at hsent hstatus
    cases hbus : bus (eventOf bodyOf inner id req body) with
    | closed =>
        rw [hbus] at hstatus
        exact hstatus.elim nofun nofun
    | _ => rw [hbus] at hsent; cases hsent
  · obtain ⟨response, hbody, hstatus⟩ := htake.refused hfits
    refine iff_of_true (Or.inr ?_) fun h => absurd h hfits
    rw [handle, hbody]
    exact ⟨rfl, hstatus⟩

/-- **The rules hold of two requests with the same headers** — what they do not
allow is refused, and what is turned away is answered alike — exactly if the headers
do not get past the guard by one that is read past, and both bodies are taken, or
the rules allow the requests and the bodies are not refused in two ways. -/
theorem refused_or_allowed_iff (htake : Extracts takeBody) (config : HttpSourceConfig)
    (addr : IpAddr) (hheaders : req'.headers = req.headers) :
    ((¬ Allowed toStr (start config addr) req.headers →
        IsRefusal (handle takeBody toStr bodyOf (start config addr) id bus req) ∧
          IsRefusal (handle takeBody toStr bodyOf (start config addr) id' bus' req')) ∧
      (IsTurnedAway (handle takeBody toStr bodyOf (start config addr) id bus req) →
        IsTurnedAway (handle takeBody toStr bodyOf (start config addr) id' bus' req') →
        handle takeBody toStr bodyOf (start config addr) id' bus' req' =
          handle takeBody toStr bodyOf (start config addr) id bus req)) ↔
      (Passed toStr (start config addr) req.headers →
        ¬ Slack toStr (allowedHosts addr) req.headers) ∧
      (req.body.Fits ∧ req'.body.Fits ∨ Allowed toStr (start config addr) req.headers ∧
        (¬ req.body.Fits → ¬ req'.body.Fits → takeBody req'.body = takeBody req.body)) := by
  have hhosts : ∀ name ∈ (start config addr).allowedHosts, IsHostName name :=
    fun _ => isHostName_of_mem_allowedHosts
  have hallowed : Allowed toStr (start config addr) req.headers ↔
      Passed toStr (start config addr) req.headers ∧
        ¬ Slack toStr (allowedHosts addr) req.headers := allowed_iff hhosts
  simp only [isRefusal_handle_iff htake hhosts, isTurnedAway_handle_iff htake hhosts, hheaders]
  constructor
  · rintro ⟨hrefused, hsame⟩
    refine ⟨fun hpassed hslack => ?_, ?_⟩
    · exact (hrefused fun h => (hallowed.mp h).2 hslack).1.2 hpassed
    · by_cases hall : Allowed toStr (start config addr) req.headers
      · refine Or.inr ⟨hall, fun hfits hfits' => ?_⟩
        -- two bodies that are refused are turned away by the extractor, before any rule
        have heq := hsame (fun h => absurd h hfits) fun h => absurd h hfits'
        obtain ⟨response, hbody, -⟩ := htake.refused hfits
        obtain ⟨response', hbody', -⟩ := htake.refused hfits'
        rw [handle, handle, hbody, hbody'] at heq
        rw [hbody, hbody', (Prod.mk.inj heq).2]
      · exact Or.inl ⟨(hrefused hall).1.1, (hrefused hall).2.1⟩
  · rintro ⟨hslack, hbodies⟩
    have hnot : ¬ Allowed toStr (start config addr) req.headers →
        ¬ Passed toStr (start config addr) req.headers :=
      fun hno hpassed => hno (hallowed.mpr ⟨hpassed, hslack hpassed⟩)
    rcases hbodies with ⟨hfits, hfits'⟩ | ⟨hall, hbodies⟩
    · exact ⟨fun hno => ⟨⟨hfits, hnot hno⟩, hfits', hnot hno⟩, fun haway _ =>
        handle_eq_of_fits htake hhosts hheaders hfits hfits' (haway hfits)⟩
    · refine ⟨fun hno => absurd hall hno, fun haway haway' => ?_⟩
      have hpassed := (hallowed.mp hall).1
      have hfits : ¬ req.body.Fits := fun h => haway h hpassed
      have hfits' : ¬ req'.body.Fits := fun h => haway' h hpassed
      obtain ⟨response, hbody, -⟩ := htake.refused hfits
      have hbody' := hbodies hfits hfits'
      rw [handle, handle, hbody', hbody]

end Handle

/-- A body is taken up to the limit. -/
def takeUpTo : Incoming → Except Response (List UInt8)
  | .whole bytes =>
      if bytes.length ≤ BODY_LIMIT then .ok bytes else .error ⟨413, .text "length limit exceeded"⟩
  | .broken _ => .error ⟨400, .text "Failed to buffer the request body"⟩

theorem takeUpTo_extracts : Extracts takeUpTo where
  taken _ h := if_pos h
  tooLarge _ h := ⟨_, if_neg (Nat.not_le_of_lt h)⟩
  broken _ := ⟨_, _, rfl, Or.inl rfl⟩

/-- The characters a header is text by: the visible ones of ASCII, and the
tab. -/
def visibleAscii (v : List UInt8) : Option (List Char) :=
  if v.all fun b => (32 ≤ b && b < 127) || b = 9 then
    some (v.map fun b => Char.ofNat b.toNat)
  else none

/-- A request to `localhost` with this `Origin`. -/
def requestFrom (origin body : List UInt8) : Request where
  remote := "127.0.0.1:50000"
  method := "POST"
  path := "/jobs/x/runs"
  query := none
  headers := [(.host, [108, 111, 99, 97, 108, 104, 111, 115, 116]), (.origin, origin)]
  body := .whole body

/-- A listener on the loopback address, and what a request to it comes to. -/
def loopback : Inner := start ⟨none, "http", .null⟩ (.v4 127 0 0 1)

def cameTo (origin body : List UInt8) : List Event × Response :=
  handle takeUpTo visibleAscii (fun _ => .null) loopback "id" (fun _ => .answered .null)
    (requestFrom origin body)

/-- The bytes of `http://evil`. -/
def foreignOrigin : List UInt8 := [104, 116, 116, 112, 58, 47, 47, 101, 118, 105, 108]

/-- Requests from another host are refused, and alike. -/
theorem foreign_origin_is_refused :
    (¬ Allowed visibleAscii loopback (requestFrom foreignOrigin []).headers →
      IsRefusal (cameTo foreignOrigin []) ∧ IsRefusal (cameTo foreignOrigin [123, 125])) ∧
      (IsTurnedAway (cameTo foreignOrigin []) → IsTurnedAway (cameTo foreignOrigin [123, 125]) →
        cameTo foreignOrigin [123, 125] = cameTo foreignOrigin []) := by
  have hheaders : (requestFrom foreignOrigin [123, 125]).headers =
      (requestFrom foreignOrigin []).headers := rfl
  have hfits : ∀ body, body.length ≤ 2 → (requestFrom foreignOrigin body).body.Fits :=
    fun _ h => Nat.le_trans h (by decide)
  refine (refused_or_allowed_iff takeUpTo_extracts _ _ hheaders).mpr
    ⟨fun hpassed => ?_, Or.inl ⟨hfits _ (by decide), hfits _ (by decide)⟩⟩
  obtain ⟨host, hhost, hnames⟩ := hpassed.origin foreignOrigin "http://evil".toList (by decide)
    (by decide)
  obtain rfl : "evil".toList = host := Option.some.inj hhost
  have hhosts : ∀ name ∈ allowedHosts (.v4 127 0 0 1), IsHostName name :=
    fun _ => isHostName_of_mem_allowedHosts
  exact absurd ((hostOnly_iff hhosts).mpr hnames) (by decide)

/-- **An `Origin` that is no text is not looked at.** -/
theorem strange_origin_reaches_the_bus :
    ¬ Allowed visibleAscii loopback (requestFrom [0xff] []).headers ∧
      (cameTo [0xff] []).1.length = 1 := by
  refine ⟨fun h => ?_, rfl⟩
  obtain ⟨_, _, hread, -⟩ := h.origin [0xff] (by decide)
  cases hread

end AgentBlock.Bus
