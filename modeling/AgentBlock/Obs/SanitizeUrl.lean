/-
AgentBlock/Obs/SanitizeUrl.lean

URLs made safe to log.

A URL that parses is rebuilt without its user, password, query and fragment.  A
text that does not parse loses what stands between `://` and the first `@` after
it, then what stands from the first `?` or `#` on, and is cut after 16 bytes.

What carries the characters of a text is a parameter: run on characters that know
their place, the functions say which of them are let through.

Main results:

* `prefix_kept_iff` — what of a text is let through;
* `safe_iff` — the exact condition for a text to be sanitized, with no secret let
  through.
-/
import AgentBlock.Lib.Mark
import Mathlib.Algebra.GroupWithZero.Nat

namespace AgentBlock.Obs

/-! ### The fallback -/

/-- What separates a scheme from an authority. -/
def schemeSep : List Char := "://".toList

section

variable {α β : Type*} (char : α → Char)

/-- Where a text first reads `pat`. -/
def find (pat : List Char) (raw : List α) : Option ℕ :=
  (Split.once pat (raw.map char)).map fun p => p.1.length

def redactUserinfo (raw : List α) : List α :=
  match find char schemeSep raw with
  | none => raw
  | some schemeEnd =>
      let authority := raw.drop (schemeEnd + 3)
      match find char ['@'] authority with
      | none => raw
      | some atPos => raw.take (schemeEnd + 3) ++ authority.drop (atPos + 1)

/-- The length of a text in bytes. -/
def len (text : List α) : ℕ := (text.map fun a => (char a).utf8Size).sum

/-- `&text[..n]`, which panics where `n` is not at the edge of a character. -/
def sliceTo (n : ℕ) (text : List α) : Option (List α) :=
  if n = 0 then some []
  else match text with
    | [] => none
    | a :: text =>
        if (char a).utf8Size ≤ n then
          (sliceTo (n - (char a).utf8Size) text).map (a :: ·)
        else none

/-- What is let through of a text, and whether dots follow. -/
structure Sanitized (α : Type*) where
  kept : List α
  cut : Bool

def Sanitized.text (out : Sanitized α) : List Char :=
  out.kept.map char ++ if out.cut then "...".toList else []

/-- No query and no fragment begins here. -/
def unmarked (a : α) : Bool := char a ≠ '?' ∧ char a ≠ '#'

/-- `sanitize_url`, of a text that does not parse. -/
def sanitizeUnparseable (raw : List α) : Option (Sanitized α) :=
  let sanitized := redactUserinfo char raw
  let trimmed := sanitized.takeWhile (unmarked char)
  if len char trimmed ≤ 16 then some ⟨trimmed, false⟩
  else (sliceTo char 16 trimmed).map fun kept => ⟨kept, true⟩

end

/-! ### The function -/

/-- The `url` crate, as far as it is used: `none` of a setter is an error. -/
structure UrlCrate (U : Type) where
  parse : List Char → Option U
  setUsername : U → List Char → Option U
  setPassword : U → Option (List Char) → Option U
  setQuery : U → Option (List Char) → U
  setFragment : U → Option (List Char) → U
  username : U → List Char
  password : U → Option (List Char)
  query : U → Option (List Char)
  fragment : U → Option (List Char)
  toString : U → List Char

section

variable {U : Type} (url : UrlCrate U)

/-- A URL without its secrets: a setter that reports an error leaves it as it is. -/
def UrlCrate.stripped (u : U) : U :=
  let u := (url.setUsername u []).getD u
  let u := (url.setPassword u none).getD u
  url.setFragment (url.setQuery u none) none

/-- `sanitize_url`; `none` is a panic. -/
def sanitizeUrl (raw : List Char) : Option (List Char) :=
  match url.parse raw with
  | some u => some (url.toString (url.stripped u))
  | none => (sanitizeUnparseable id raw).map (Sanitized.text id)

/-- A setter that succeeds sets its part, and no other. -/
structure UrlCrate.Lawful : Prop where
  setUsername : ∀ u name v, url.setUsername u name = some v →
    url.username v = name ∧ url.password v = url.password u
  setPassword : ∀ u password v, url.setPassword u password = some v →
    url.password v = password ∧ url.username v = url.username u
  setQuery : ∀ u query, url.query (url.setQuery u query) = query ∧
    url.username (url.setQuery u query) = url.username u ∧
    url.password (url.setQuery u query) = url.password u
  setFragment : ∀ u fragment, url.fragment (url.setFragment u fragment) = fragment ∧
    url.username (url.setFragment u fragment) = url.username u ∧
    url.password (url.setFragment u fragment) = url.password u ∧
    url.query (url.setFragment u fragment) = url.query u

end

/-! ### What is secret -/

/-- A character of an authority. -/
def inAuthority (c : Char) : Bool := c ≠ '/' ∧ c ≠ '?' ∧ c ≠ '#'

/-- Place `i` is between `://` and the last `@` of the authority. -/
def InUserinfo (raw : List Char) (i : ℕ) : Prop :=
  ∃ scheme rest info host, raw = scheme ++ schemeSep ++ rest ∧ ¬ schemeSep <:+: scheme ∧
    rest.takeWhile inAuthority = info ++ '@' :: host ∧ '@' ∉ host ∧
    scheme.length + 3 ≤ i ∧ i < scheme.length + 3 + info.length

/-- Place `i` is after the first `?` or `#`. -/
def PastMark (raw : List Char) (i : ℕ) : Prop := ∃ c ∈ raw.take i, unmarked id c = false

/-- The fallback returns a value, and no character of it is secret. -/
def SafeText (raw : List Char) : Prop :=
  ∃ out, sanitizeUnparseable Prod.fst raw.zipIdx = some out ∧
    sanitizeUnparseable id raw = some ⟨out.kept.map Prod.fst, out.cut⟩ ∧
    ∀ a ∈ out.kept, ¬ InUserinfo raw a.2 ∧ ¬ PastMark raw a.2

/-- `sanitize_url` returns a value, with nothing secret in it. -/
def Safe {U : Type} (url : UrlCrate U) (raw : List Char) : Prop :=
  match url.parse raw with
  | some u => sanitizeUrl url raw = some (url.toString (url.stripped u)) ∧
      url.username (url.stripped u) = [] ∧ url.password (url.stripped u) = none ∧
      url.query (url.stripped u) = none ∧ url.fragment (url.stripped u) = none
  | none => SafeText raw

/-! ### When nothing secret is let through -/

/-- What is left of a text before it is cut after 16 bytes. -/
inductive Shown : List Char → List Char → Prop
  | plain {raw : List Char} :
      (∀ scheme rest, raw = scheme ++ schemeSep ++ rest → ¬ schemeSep <:+: scheme →
        '@' ∉ rest) →
      Shown raw (raw.takeWhile (unmarked id))
  | redacted {scheme user rest : List Char} :
      ¬ schemeSep <:+: scheme → '@' ∉ user →
      Shown (scheme ++ schemeSep ++ (user ++ '@' :: rest))
        ((scheme ++ schemeSep ++ rest).takeWhile (unmarked id))

/-- What a text needs for nothing secret in it to be shown. -/
structure Sanitizable (raw : List Char) : Prop where
  /-- No character that is left lies across byte 16. -/
  edge : ∀ text, Shown raw text → len id text ≤ 16 ∨ ∃ l r, text = l ++ r ∧ len id l = 16
  /-- Where the character after the first `@` is shown, that `@` ends the userinfo. -/
  last : ∀ scheme user c rest, raw = scheme ++ schemeSep ++ (user ++ '@' :: c :: rest) →
    ¬ schemeSep <:+: scheme → '@' ∉ user → (∀ d ∈ scheme, unmarked id d) →
    unmarked id c → len id (scheme ++ schemeSep ++ [c]) ≤ 16 →
    (∀ d ∈ user, unmarked id d) ∧
      ('/' ∉ user → '@' ∉ ((c :: rest).takeWhile inAuthority).tail)

/-- What a text needs, whatever the crate answers for it. -/
def Clean {U : Type} (url : UrlCrate U) (raw : List Char) : Prop :=
  match url.parse raw with
  | some u =>
      (url.username u = [] ∨ (url.setUsername u []).isSome) ∧
      (url.password u = none ∨
        (url.setPassword ((url.setUsername u []).getD u) none).isSome)
  | none => Sanitizable raw

/-! ### What is let through -/

section

variable {α β : Type*} {char : α → Char}

theorem len_append (l r : List α) : len char (l ++ r) = len char l + len char r := by
  simp [len]

theorem len_pos (a : α) (l : List α) : 0 < len char (a :: l) := by
  have hpos := (char a).utf8Size_pos
  simp only [len, List.map_cons, List.sum_cons]
  omega

theorem len_map (f : β → α) (l : List β) : len char (l.map f) = len (char ∘ f) l := by
  simp [len, Function.comp_def]

/-- A slice is the part of a text that has its length. -/
theorem sliceTo_eq_some {n : ℕ} {text kept : List α} :
    sliceTo char n text = some kept ↔ kept <+: text ∧ len char kept = n := by
  induction text generalizing n kept with
  | nil =>
      rw [sliceTo]
      by_cases hn : n = 0
      · rw [if_pos hn, Option.some.injEq, List.prefix_nil]
        constructor
        · rintro rfl
          exact ⟨rfl, hn.symm⟩
        · exact fun h => h.1.symm
      · rw [if_neg hn]
        refine iff_of_false nofun fun h => hn ?_
        rw [← h.2, List.prefix_nil.mp h.1]
        rfl
  | cons a text ih =>
      rw [sliceTo]
      by_cases hn : n = 0
      · rw [if_pos hn, Option.some.injEq]
        constructor
        · rintro rfl
          exact ⟨List.nil_prefix, hn.symm⟩
        · rintro ⟨-, hlen⟩
          rcases kept with - | ⟨b, kept⟩
          · rfl
          · have hpos : 0 < len char (b :: kept) := len_pos b kept
            omega
      · rw [if_neg hn]
        -- a character is taken whole or not at all: its bytes are within the count
        have hcons : ∀ l, len char (a :: l) = (char a).utf8Size + len char l := fun l => rfl
        constructor
        · intro h
          split at h
          next hle =>
            obtain ⟨kept', hkept', rfl⟩ := Option.map_eq_some_iff.mp h
            obtain ⟨hpre, hlen⟩ := ih.mp hkept'
            refine ⟨List.cons_prefix_cons.mpr ⟨rfl, hpre⟩, ?_⟩
            rw [hcons, hlen]
            omega
          next => cases h
        · rintro ⟨hpre, hlen⟩
          rcases kept with - | ⟨b, kept⟩
          · exact absurd hlen.symm hn
          · obtain ⟨rfl, htail⟩ := List.cons_prefix_cons.mp hpre
            rw [hcons] at hlen
            have hrest : sliceTo char (n - (char b).utf8Size) text = some kept :=
              ih.mpr ⟨htail, by omega⟩
            rw [if_pos (by omega), hrest]
            rfl

theorem prefix_takeWhile_iff {p : α → Bool} {l text : List α} :
    l <+: text.takeWhile p ↔ l <+: text ∧ ∀ a ∈ l, p a := by
  constructor
  · exact fun h => ⟨h.trans (List.takeWhile_prefix p),
      fun a ha => List.mem_takeWhile_imp (h.subset ha)⟩
  · rintro ⟨⟨r, rfl⟩, hall⟩
    rw [List.takeWhile_append_of_pos hall]
    exact List.prefix_append _ _

/-- **What is let through** is what the redaction leaves, up to the first `?` or
`#`, as far as 16 bytes go. -/
theorem prefix_kept_iff {raw : List α} {out : Sanitized α}
    (h : sanitizeUnparseable char raw = some out) (l : List α) :
    l <+: out.kept ↔ l <+: redactUserinfo char raw ∧ (∀ a ∈ l, unmarked char a) ∧
      len char l ≤ 16 := by
  have hlen : ∀ {l r : List α}, l <+: r → len char l ≤ len char r := by
    rintro l _ ⟨r, rfl⟩
    rw [len_append]
    omega
  rw [← and_assoc, ← prefix_takeWhile_iff]
  simp only [sanitizeUnparseable] at h
  split at h
  next hshort =>
    obtain rfl := Option.some.inj h
    exact ⟨fun hl => ⟨hl, (hlen hl).trans hshort⟩, fun hl => hl.1⟩
  next =>
    obtain ⟨kept, hslice, rfl⟩ := Option.map_eq_some_iff.mp h
    obtain ⟨hkept, hsixteen⟩ := sliceTo_eq_some.mp hslice
    constructor
    · exact fun hl => ⟨hl.trans hkept, hsixteen ▸ hlen hl⟩
    · rintro ⟨hl, hle⟩
      rcases List.prefix_or_prefix_of_prefix hl hkept with hin | ⟨r, rfl⟩
      · exact hin
      · -- nothing of `l` is left after 16 bytes
        rcases r with - | ⟨a, r⟩
        · simp only [List.append_nil, List.prefix_rfl]
        · have hpos : 0 < len char (a :: r) := len_pos a r
          rw [len_append] at hle
          omega

/-- The fallback panics where byte 16 is inside a character. -/
theorem sanitizeUnparseable_isSome_iff {raw : List α} :
    (sanitizeUnparseable char raw).isSome ↔
      len char ((redactUserinfo char raw).takeWhile (unmarked char)) ≤ 16 ∨
        ∃ l r, (redactUserinfo char raw).takeWhile (unmarked char) = l ++ r ∧
          len char l = 16 := by
  simp only [sanitizeUnparseable]
  split
  next hshort => exact iff_of_true rfl (.inl hshort)
  next hlong =>
    rw [or_iff_right hlong, Option.isSome_map, Option.isSome_iff_exists]
    simp only [sliceTo_eq_some]
    constructor
    · rintro ⟨l, ⟨r, hr⟩, hl⟩
      exact ⟨l, r, hr.symm, hl⟩
    · rintro ⟨l, r, hr, hl⟩
      exact ⟨l, ⟨r, hr.symm⟩, hl⟩

end


/-! ### Characters that know their place -/

section

variable {α β : Type*} {char : α → Char}

theorem find_map (f : β → α) (pat : List Char) (raw : List β) :
    find char pat (raw.map f) = find (char ∘ f) pat raw := by
  simp [find, Function.comp_def]

theorem redactUserinfo_map (f : β → α) (raw : List β) :
    redactUserinfo char (raw.map f) = (redactUserinfo (char ∘ f) raw).map f := by
  rw [redactUserinfo, redactUserinfo, find_map]
  cases find (char ∘ f) schemeSep raw with
  | none => rfl
  | some schemeEnd =>
      simp only [← List.map_drop, find_map]
      cases find (char ∘ f) ['@'] (raw.drop (schemeEnd + 3)) with
      | none => rfl
      | some atPos => simp only [List.map_take, List.map_drop, List.map_append]

theorem sliceTo_map (f : β → α) (n : ℕ) (raw : List β) :
    sliceTo char n (raw.map f) = (sliceTo (char ∘ f) n raw).map (List.map f) := by
  induction raw generalizing n with
  | nil =>
      rw [List.map_nil, sliceTo, sliceTo]
      split <;> rfl
  | cons a raw ih =>
      rw [List.map_cons, sliceTo, sliceTo, ih]
      split
      · rfl
      · by_cases hle : (char (f a)).utf8Size ≤ n
        · rw [if_pos hle, if_pos (show ((char ∘ f) a).utf8Size ≤ n from hle), Option.map_map,
            Option.map_map]
          rfl
        · rw [if_neg hle, if_neg (show ¬ ((char ∘ f) a).utf8Size ≤ n from hle)]
          rfl

/-- The fallback does not look at what carries the characters. -/
theorem sanitizeUnparseable_map (f : β → α) (raw : List β) :
    sanitizeUnparseable char (raw.map f) =
      (sanitizeUnparseable (char ∘ f) raw).map fun out => ⟨out.kept.map f, out.cut⟩ := by
  have htrim : (redactUserinfo char (raw.map f)).takeWhile (unmarked char) =
      ((redactUserinfo (char ∘ f) raw).takeWhile (unmarked (char ∘ f))).map f := by
    rw [redactUserinfo_map, List.takeWhile_map]
    rfl
  simp only [sanitizeUnparseable]
  rw [htrim, len_map, sliceTo_map]
  split
  · rfl
  · rw [Option.map_map, Option.map_map]
    rfl

end

theorem sanitizeUnparseable_zipIdx (raw : List Char) :
    sanitizeUnparseable id raw =
      (sanitizeUnparseable Prod.fst raw.zipIdx).map fun out =>
        ⟨out.kept.map Prod.fst, out.cut⟩ := by
  conv_lhs => rw [← List.zipIdx_map_fst 0 raw]
  exact @sanitizeUnparseable_map _ _ id Prod.fst raw.zipIdx

theorem prefix_kept_zipIdx_iff {raw : List Char} {out : Sanitized (Char × ℕ)}
    (h : sanitizeUnparseable Prod.fst raw.zipIdx = some out) (l : List (Char × ℕ)) :
    l <+: out.kept ↔ l <+: redactUserinfo Prod.fst raw.zipIdx ∧
      (∀ d ∈ l.map Prod.fst, unmarked id d) ∧ len id (l.map Prod.fst) ≤ 16 := by
  rw [prefix_kept_iff h, len_map, List.forall_mem_map]
  rfl

/-- The last character of a part of a text from its head on: its place, and what
stands before it. -/
theorem place_of_prefix {raw : List Char} {n : ℕ} {l : List (Char × ℕ)} {a : Char × ℕ}
    (h : l ++ [a] <+: raw.zipIdx n) : a.2 = n + l.length ∧ l.map Prod.fst ++ [a.1] <+: raw := by
  constructor
  · have hlt : l.length < (l ++ [a]).length := by simp
    have hget := h.getElem hlt
    rw [List.getElem_zipIdx, List.getElem_append_right (Nat.le_refl _)] at hget
    have hplace := congrArg Prod.snd hget
    simpa using hplace
  · have hmap := h.map Prod.fst
    rwa [List.zipIdx_map_fst, List.map_append] at hmap

/-! ### What the redaction leaves -/

/-- A text has no `@` after its first `://`, or a first one. -/
theorem raw_cases (raw : List Char) :
    (∀ scheme rest, raw = scheme ++ schemeSep ++ rest → ¬ schemeSep <:+: scheme → '@' ∉ rest) ∨
    ∃ scheme user rest, raw = scheme ++ schemeSep ++ (user ++ '@' :: rest) ∧
      ¬ schemeSep <:+: scheme ∧ '@' ∉ user := by
  by_cases h : ∀ scheme rest,
      raw = scheme ++ schemeSep ++ rest → ¬ schemeSep <:+: scheme → '@' ∉ rest
  · exact .inl h
  · push Not at h
    obtain ⟨scheme, rest, hraw, hscheme, hat⟩ := h
    cases hfirst : Split.first '@' rest with
    | none => exact absurd hat (Split.first_eq_none.mp hfirst)
    | some p =>
        obtain ⟨hrest, huser⟩ := Split.of_first hfirst
        exact .inr ⟨scheme, p.1, p.2, by rw [hraw, hrest], hscheme, huser⟩

theorem once_schemeSep {raw scheme rest : List Char} :
    Split.once schemeSep raw = some (scheme, rest) ↔
      raw = scheme ++ schemeSep ++ rest ∧ ¬ schemeSep <:+: scheme :=
  Mark.once_eq_some_iff (a := ':') (u := "//".toList) (by decide)

theorem redactUserinfo_zipIdx {scheme rest : List Char} (h : ¬ schemeSep <:+: scheme) :
    redactUserinfo Prod.fst (scheme ++ schemeSep ++ rest).zipIdx =
      match Split.first '@' rest with
      | none => (scheme ++ schemeSep ++ rest).zipIdx
      | some p => (scheme ++ schemeSep).zipIdx ++
          (rest.zipIdx (scheme.length + 3)).drop (p.1.length + 1) := by
  have hsep : find Prod.fst schemeSep (scheme ++ schemeSep ++ rest).zipIdx =
      some scheme.length := by
    rw [find, List.zipIdx_map_fst, once_schemeSep.mpr ⟨rfl, h⟩]
    rfl
  have hlength : (scheme ++ schemeSep).zipIdx.length = scheme.length + 3 := by
    simp [schemeSep]
  have hzip : (scheme ++ schemeSep ++ rest).zipIdx =
      (scheme ++ schemeSep).zipIdx ++ rest.zipIdx (scheme.length + 3) := by
    rw [List.zipIdx_append, ← hlength, List.length_zipIdx, Nat.zero_add]
  have hdrop : (scheme ++ schemeSep ++ rest).zipIdx.drop (scheme.length + 3) =
      rest.zipIdx (scheme.length + 3) := by
    rw [hzip, ← hlength, List.drop_left]
  have htake : (scheme ++ schemeSep ++ rest).zipIdx.take (scheme.length + 3) =
      (scheme ++ schemeSep).zipIdx := by
    rw [hzip, ← hlength, List.take_left]
  have hat : find Prod.fst ['@'] (rest.zipIdx (scheme.length + 3)) =
      (Split.first '@' rest).map fun p => p.1.length := by
    rw [find, List.zipIdx_map_fst, Split.once_singleton]
  simp only [redactUserinfo, hsep, hdrop, htake, hat]
  cases Split.first '@' rest <;> rfl

theorem redactUserinfo_plain {raw : List Char}
    (h : ∀ scheme rest, raw = scheme ++ schemeSep ++ rest → ¬ schemeSep <:+: scheme →
      '@' ∉ rest) :
    redactUserinfo Prod.fst raw.zipIdx = raw.zipIdx := by
  cases honce : Split.once schemeSep raw with
  | none =>
      have hfind : find Prod.fst schemeSep raw.zipIdx = none := by
        rw [find, List.zipIdx_map_fst, honce]
        rfl
      rw [redactUserinfo, hfind]
  | some p =>
      obtain ⟨hraw, hscheme⟩ := once_schemeSep.mp honce
      have hat := h p.1 p.2 hraw hscheme
      rw [hraw, redactUserinfo_zipIdx hscheme, Split.first_eq_none.mpr hat]

/-- The part before the first `@`, and that `@`, are left out. -/
theorem redactUserinfo_redacted {scheme user rest : List Char} (h : ¬ schemeSep <:+: scheme)
    (huser : '@' ∉ user) :
    redactUserinfo Prod.fst (scheme ++ schemeSep ++ (user ++ '@' :: rest)).zipIdx =
      (scheme ++ schemeSep).zipIdx ++ rest.zipIdx (scheme.length + 3 + user.length + 1) := by
  rw [redactUserinfo_zipIdx h, Split.first_append rest huser]
  have hsplit : (user ++ '@' :: rest).zipIdx (scheme.length + 3) =
      (user ++ ['@']).zipIdx (scheme.length + 3) ++
        rest.zipIdx (scheme.length + 3 + user.length + 1) := by
    rw [show user ++ '@' :: rest = (user ++ ['@']) ++ rest by simp, List.zipIdx_append]
    simp [Nat.add_assoc]
  have hlength : ((user ++ ['@']).zipIdx (scheme.length + 3)).length = user.length + 1 := by simp
  show _ ++ ((user ++ '@' :: rest).zipIdx (scheme.length + 3)).drop (user.length + 1) = _
  rw [hsplit, ← hlength, List.drop_left]

/-- What is shown is what the redaction leaves, up to the first `?` or `#`. -/
theorem shown_iff {raw text : List Char} : Shown raw text ↔
    text = ((redactUserinfo Prod.fst raw.zipIdx).takeWhile (unmarked Prod.fst)).map Prod.fst := by
  have hmap : ∀ l : List (Char × ℕ),
      (l.takeWhile (unmarked Prod.fst)).map Prod.fst =
        (l.map Prod.fst).takeWhile (unmarked id) := by
    intro l
    rw [List.takeWhile_map]
    rfl
  rw [hmap]
  constructor
  · intro h
    cases h with
    | plain hraw => rw [redactUserinfo_plain hraw, List.zipIdx_map_fst]
    | redacted hscheme huser =>
        rw [redactUserinfo_redacted hscheme huser, List.map_append, List.zipIdx_map_fst,
          List.zipIdx_map_fst]
  · rintro rfl
    rcases raw_cases raw with hraw | ⟨scheme, user, rest, rfl, hscheme, huser⟩
    · rw [redactUserinfo_plain hraw, List.zipIdx_map_fst]
      exact .plain hraw
    · rw [redactUserinfo_redacted hscheme huser, List.map_append, List.zipIdx_map_fst,
        List.zipIdx_map_fst]
      exact .redacted hscheme huser

theorem isSome_iff {raw : List Char} :
    (sanitizeUnparseable Prod.fst raw.zipIdx).isSome ↔
      ∀ text, Shown raw text → len id text ≤ 16 ∨ ∃ l r, text = l ++ r ∧ len id l = 16 := by
  have hlen : ∀ l : List (Char × ℕ), len Prod.fst l = len id (l.map Prod.fst) := fun l =>
    (@len_map _ _ id Prod.fst l).symm
  simp only [shown_iff, forall_eq, sanitizeUnparseable_isSome_iff, hlen]
  refine or_congr_right ⟨?_, ?_⟩
  · rintro ⟨l, r, heq, hl⟩
    exact ⟨l.map Prod.fst, r.map Prod.fst, by rw [heq, List.map_append], hl⟩
  · rintro ⟨l, r, heq, hl⟩
    obtain ⟨l', r', hsplit, rfl, rfl⟩ := List.map_eq_append_iff.mp heq
    exact ⟨l', r', hsplit, hl⟩

/-! ### What is secret of what it leaves -/

/-- A text without an `@` after its first `://` has no userinfo. -/
theorem not_inUserinfo_plain {raw : List Char} {i : ℕ}
    (h : ∀ scheme rest, raw = scheme ++ schemeSep ++ rest → ¬ schemeSep <:+: scheme →
      '@' ∉ rest) : ¬ InUserinfo raw i := by
  rintro ⟨scheme, rest, info, host, hraw, hscheme, hauthority, -⟩
  have hat : '@' ∈ rest.takeWhile inAuthority := by
    rw [hauthority]
    simp
  exact h scheme rest hraw hscheme ((List.takeWhile_prefix _).subset hat)

/-- The userinfo is within the authority. -/
theorem inUserinfo_iff {scheme rest : List Char} {i : ℕ} (h : ¬ schemeSep <:+: scheme) :
    InUserinfo (scheme ++ schemeSep ++ rest) i ↔
      ∃ info host, rest.takeWhile inAuthority = info ++ '@' :: host ∧ '@' ∉ host ∧
        scheme.length + 3 ≤ i ∧ i < scheme.length + 3 + info.length := by
  constructor
  · rintro ⟨scheme', rest', info, host, hraw, hscheme', hin⟩
    obtain ⟨rfl, rfl⟩ := Mark.append_inj_first (a := ':') (u := "//".toList) (by decide) h
      hscheme' hraw
    exact ⟨info, host, hin⟩
  · rintro ⟨info, host, hin⟩
    exact ⟨scheme, rest, info, host, rfl, h, hin⟩

/-- Where no authority ends before the first `@`, what comes after it is secret as
long as there is another. -/
theorem inUserinfo_after_iff {scheme user rest : List Char} {j : ℕ} (h : ¬ schemeSep <:+: scheme)
    (hall : ∀ d ∈ user, inAuthority d) :
    InUserinfo (scheme ++ schemeSep ++ (user ++ '@' :: rest))
        (scheme.length + 3 + user.length + 1 + j) ↔
      '@' ∈ (rest.takeWhile inAuthority).drop (j + 1) := by
  have hauthority : (user ++ '@' :: rest).takeWhile inAuthority =
      user ++ '@' :: rest.takeWhile inAuthority := by
    rw [List.takeWhile_append_of_pos hall, List.takeWhile_cons_of_pos (by decide)]
  have hdrop : (rest.takeWhile inAuthority).drop (j + 1) =
      ((user ++ '@' :: rest).takeWhile inAuthority).drop (user.length + 1 + j + 1) := by
    rw [hauthority, show user.length + 1 + j + 1 = user.length + (j + 1 + 1) by omega,
      List.drop_length_add_append]
    rfl
  rw [inUserinfo_iff h, hdrop]
  constructor
  · rintro ⟨info, host, heq, -, -, hlt⟩
    rw [heq, List.drop_append_of_le_length (by omega)]
    exact List.mem_append_right _ List.mem_cons_self
  · intro hat
    cases hlast : Split.last '@' ((user ++ '@' :: rest).takeWhile inAuthority) with
    | none =>
        exact absurd ((List.drop_suffix _ _).subset hat) (Split.last_eq_none.mp hlast)
    | some p =>
        obtain ⟨heq, hhost⟩ := Split.of_last hlast
        refine ⟨p.1, p.2, heq, hhost, by omega, ?_⟩
        by_contra hle
        rw [heq] at hat
        refine hhost ?_
        obtain ⟨k, hk⟩ : ∃ k, user.length + 1 + j + 1 = p.1.length + (k + 1) :=
          ⟨user.length + 1 + j - p.1.length, by omega⟩
        rw [hk, List.drop_length_add_append] at hat
        exact (List.drop_suffix k p.2).subset hat

/-- Nothing before it is marked: no `?` or `#` comes before. -/
theorem not_pastMark {raw l : List Char} {c : Char} (h : l ++ [c] <+: raw)
    (hall : ∀ d ∈ l, unmarked id d) : ¬ PastMark raw l.length := by
  rintro ⟨d, hd, hmark⟩
  obtain ⟨r, rfl⟩ := h
  rw [List.append_assoc, List.take_left] at hd
  rw [hall d hd] at hmark
  cases hmark

/-- Where the authority ends before the first `@`, there is no userinfo. -/
theorem not_inUserinfo_ended {scheme user rest : List Char} {i : ℕ}
    (h : ¬ schemeSep <:+: scheme) (huser : '@' ∉ user) (hend : ¬ ∀ d ∈ user, inAuthority d) :
    ¬ InUserinfo (scheme ++ schemeSep ++ (user ++ '@' :: rest)) i := by
  rw [inUserinfo_iff h]
  rintro ⟨info, host, heq, -⟩
  have hstop : (user ++ '@' :: rest).takeWhile inAuthority = user.takeWhile inAuthority := by
    rw [List.takeWhile_append, if_neg]
    intro hlength
    have hwhole := (List.takeWhile_prefix inAuthority).eq_of_length hlength
    exact hend (List.takeWhile_eq_self_iff.mp hwhole)
  have hat : '@' ∈ user.takeWhile inAuthority := by
    rw [← hstop, heq]
    simp
  exact huser ((List.takeWhile_prefix _).subset hat)

/-- Nothing before the first `@` is secret, up to a `?` or `#`, but the userinfo. -/
theorem hidden_before {scheme rest l : List Char} {c : Char} (hscheme : ¬ schemeSep <:+: scheme)
    (h : l ++ [c] <+: scheme ++ schemeSep) (hall : ∀ d ∈ l, unmarked id d) :
    ¬ InUserinfo (scheme ++ schemeSep ++ rest) l.length ∧
      ¬ PastMark (scheme ++ schemeSep ++ rest) l.length := by
  refine ⟨?_, not_pastMark (h.trans (List.prefix_append _ _)) hall⟩
  rw [inUserinfo_iff hscheme]
  rintro ⟨info, host, -, -, hle, -⟩
  have hlength := h.length_le
  simp only [List.length_append, schemeSep] at hlength
  replace hlength : l.length + 1 ≤ scheme.length + 3 := hlength
  omega

section

variable {scheme user rest : List Char}

/-- What comes after the first `@` is not secret either, if the text is as it
should be. -/
theorem hidden_after (hscheme : ¬ schemeSep <:+: scheme) (huser : '@' ∉ user)
    (hunmarked : ∀ d ∈ scheme ++ schemeSep, unmarked id d) (hclean : ∀ d ∈ user, unmarked id d)
    (hlast : '/' ∉ user → '@' ∉ (rest.takeWhile inAuthority).tail)
    {l : List Char} {c : Char} (h : l ++ [c] <+: rest) (hall : ∀ d ∈ l, unmarked id d) :
    ¬ InUserinfo (scheme ++ schemeSep ++ (user ++ '@' :: rest))
        (scheme.length + 3 + user.length + 1 + l.length) ∧
      ¬ PastMark (scheme ++ schemeSep ++ (user ++ '@' :: rest))
        (scheme.length + 3 + user.length + 1 + l.length) := by
  constructor
  · by_cases hin : ∀ d ∈ user, inAuthority d
    · rw [inUserinfo_after_iff hscheme hin]
      intro hat
      refine hlast (fun hslash => absurd (hin '/' hslash) (by decide)) ?_
      rw [← List.drop_one]
      rw [Nat.add_comm, ← List.drop_drop] at hat
      exact (List.drop_suffix _ _).subset hat
    · exact not_inUserinfo_ended hscheme huser hin
  · have hplace : scheme.length + 3 + user.length + 1 + l.length =
        (scheme ++ schemeSep ++ (user ++ '@' :: l)).length := by
      simp only [List.length_append, List.length_cons, schemeSep]
      show _ = scheme.length + 3 + (user.length + (l.length + 1))
      omega
    rw [hplace]
    refine not_pastMark (c := c) ?_ fun d hd => ?_
    · obtain ⟨r, rfl⟩ := h
      exact ⟨r, by simp⟩
    · rcases List.mem_append.mp hd with hd | hd
      · exact hunmarked d hd
      · rcases List.mem_append.mp hd with hd | hd
        · exact hclean d hd
        · rcases List.mem_cons.mp hd with rfl | hd
          · decide
          · exact hall d hd

/-- **What a text needs** for nothing secret to be let through, where it has an `@`
after its first `://`. -/
theorem hidden_redacted_iff (hscheme : ¬ schemeSep <:+: scheme) (huser : '@' ∉ user)
    {out : Sanitized (Char × ℕ)}
    (h : sanitizeUnparseable Prod.fst
      (scheme ++ schemeSep ++ (user ++ '@' :: rest)).zipIdx = some out) :
    (∀ a ∈ out.kept, ¬ InUserinfo (scheme ++ schemeSep ++ (user ++ '@' :: rest)) a.2 ∧
      ¬ PastMark (scheme ++ schemeSep ++ (user ++ '@' :: rest)) a.2) ↔
    ∀ c tail, rest = c :: tail → (∀ d ∈ scheme, unmarked id d) →
      unmarked id c → len id (scheme ++ schemeSep ++ [c]) ≤ 16 →
      (∀ d ∈ user, unmarked id d) ∧
        ('/' ∉ user → '@' ∉ ((c :: tail).takeWhile inAuthority).tail) := by
  have hkept := prefix_kept_zipIdx_iff h
  rw [redactUserinfo_redacted hscheme huser] at hkept
  constructor
  · -- the first character after that `@` is let through
    rintro hall c tail rfl hunmarked hc hlen
    have hfirst : (scheme ++ schemeSep).zipIdx ++ [(c, scheme.length + 3 + user.length + 1)] <+:
        out.kept := by
      rw [hkept, List.map_append, List.zipIdx_map_fst]
      refine ⟨⟨tail.zipIdx (scheme.length + 3 + user.length + 1 + 1), by simp⟩, ?_, hlen⟩
      intro d hd
      rcases List.mem_append.mp hd with hd | hd
      · rcases List.mem_append.mp hd with hd | hd
        · exact hunmarked d hd
        · exact List.all_eq_true.mp (show schemeSep.all (unmarked id) = true by decide) d hd
      · rw [List.mem_singleton.mp hd]
        exact hc
    obtain ⟨hinfo, hpast⟩ := hall _ (hfirst.subset (List.mem_append_right _ List.mem_cons_self))
    -- a mark in the user info would stand before the character that is shown
    have hclean : ∀ d ∈ user, unmarked id d := by
      intro d hd
      by_contra hmark
      refine hpast ⟨d, ?_, Bool.eq_false_iff.mpr hmark⟩
      have htake : (scheme ++ schemeSep ++ (user ++ '@' :: c :: tail)).take
          (scheme.length + 3 + user.length + 1) = scheme ++ schemeSep ++ (user ++ ['@']) := by
        rw [show scheme ++ schemeSep ++ (user ++ '@' :: c :: tail) =
          (scheme ++ schemeSep ++ (user ++ ['@'])) ++ c :: tail by simp]
        exact List.take_left' (by simp [schemeSep]; omega)
      rw [htake]
      simp [hd]
    refine ⟨hclean, fun hslash hat => hinfo ?_⟩
    have hin : ∀ d ∈ user, inAuthority d := by
      intro d hd
      have hne : d ≠ '/' := fun heq => hslash (heq ▸ hd)
      simpa [inAuthority, unmarked, hne] using hclean d hd
    rw [← List.drop_one] at hat
    exact (inUserinfo_after_iff (j := 0) hscheme hin).mpr hat
  -- what is shown ends at or before that `@`, or reaches past it
  · intro hclean a ha
    obtain ⟨l, r, hsplit⟩ := List.append_of_mem ha
    have hprefix : l ++ [a] <+: out.kept := ⟨r, by rw [hsplit]; simp⟩
    obtain ⟨hredacted, hunmarked, hlen⟩ := (hkept _).mp hprefix
    have hbefore : l ++ [a] <+: (scheme ++ schemeSep).zipIdx →
        ¬ InUserinfo (scheme ++ schemeSep ++ (user ++ '@' :: rest)) a.2 ∧
          ¬ PastMark (scheme ++ schemeSep ++ (user ++ '@' :: rest)) a.2 := by
      intro hin
      obtain ⟨hplace, htext⟩ := place_of_prefix hin
      rw [hplace, Nat.zero_add, ← List.length_map Prod.fst]
      refine hidden_before hscheme htext fun d hd => hunmarked d ?_
      rw [List.map_append]
      exact List.mem_append_left _ hd
    rcases List.prefix_or_prefix_of_prefix hredacted (List.prefix_append _ _) with hin | ⟨t, ht⟩
    · exact hbefore hin
    · rcases List.eq_nil_or_concat' t with rfl | ⟨t, b, rfl⟩
      · exact hbefore (by simp only [← ht, List.append_nil, List.prefix_rfl])
      · -- what is let through reaches past that `@`
        rw [← List.append_assoc] at ht
        obtain ⟨rfl, hb⟩ := List.append_inj' ht rfl
        obtain rfl : b = a := List.singleton_inj.mp hb
        rw [List.append_assoc] at hredacted
        have hafter := (List.prefix_append_right_inj _).mp hredacted
        obtain ⟨hplace, htext⟩ := place_of_prefix hafter
        have hshown : ((scheme ++ schemeSep).zipIdx ++ t ++ [b]).map Prod.fst =
            scheme ++ schemeSep ++ (t.map Prod.fst ++ [b.1]) := by
          rw [List.append_assoc, List.map_append, List.zipIdx_map_fst, List.map_append]
          rfl
        rw [hshown] at hunmarked hlen
        obtain ⟨c, tail, hhead⟩ := List.exists_cons_of_ne_nil
          (show t.map Prod.fst ++ [b.1] ≠ [] by simp)
        obtain ⟨hclean, hlast⟩ : (∀ d ∈ user, unmarked id d) ∧
            ('/' ∉ user → '@' ∉ (rest.takeWhile inAuthority).tail) := by
          obtain ⟨r, hr⟩ := htext
          rw [hhead] at hunmarked hlen hr
          rw [← hr]
          refine hclean c (tail ++ r) hr.symm (fun d hd => hunmarked d (by simp [hd]))
            (hunmarked c (by simp)) ?_
          rw [len_append] at hlen ⊢
          have hone : len id [c] ≤ len id (c :: tail) := by
            simp [len]
          omega
        rw [hplace, ← List.length_map Prod.fst]
        refine hidden_after hscheme huser (fun d hd => hunmarked d ?_) hclean hlast htext
          fun d hd => hunmarked d ?_
        · exact List.mem_append_left _ hd
        · exact List.mem_append_right _ (List.mem_append_left _ hd)

end

/-! ### When a URL is safe -/

theorem safeText_iff (raw : List Char) : SafeText raw ↔ Sanitizable raw := by
  have hvalue := sanitizeUnparseable_zipIdx raw
  constructor
  · rintro ⟨out, hout, -, hall⟩
    constructor
    case edge => exact isSome_iff.mp (by rw [hout]; rfl)
    case last =>
      rintro scheme user c rest rfl hscheme huser
      exact (hidden_redacted_iff hscheme huser hout).mp hall c rest rfl
  · intro h
    obtain ⟨out, hout⟩ := Option.isSome_iff_exists.mp (isSome_iff.mpr h.edge)
    rw [hout] at hvalue
    refine ⟨out, hout, hvalue, ?_⟩
    rcases raw_cases raw with hraw | ⟨scheme, user, rest, rfl, hscheme, huser⟩
    · intro a ha
      refine ⟨not_inUserinfo_plain hraw, ?_⟩
      obtain ⟨l, r, hsplit⟩ := List.append_of_mem ha
      have hprefix : l ++ [a] <+: out.kept := ⟨r, by rw [hsplit]; simp⟩
      obtain ⟨hredacted, hunmarked, -⟩ := (prefix_kept_zipIdx_iff hout _).mp hprefix
      rw [redactUserinfo_plain hraw] at hredacted
      obtain ⟨hplace, htext⟩ := place_of_prefix hredacted
      rw [hplace, Nat.zero_add, ← List.length_map Prod.fst]
      refine not_pastMark htext fun d hd => hunmarked d ?_
      rw [List.map_append]
      exact List.mem_append_left _ hd
    · refine (hidden_redacted_iff hscheme huser hout).mpr fun c tail hrest => ?_
      exact h.last scheme user c tail (by rw [hrest]) hscheme huser

section

variable {U : Type} {url : UrlCrate U}

/-- A part is gone where its setter succeeds, or where it was not there. -/
theorem getD_setUsername (hurl : url.Lawful) (u : U) :
    (url.username ((url.setUsername u []).getD u) = [] ↔
      url.username u = [] ∨ (url.setUsername u []).isSome) ∧
    url.password ((url.setUsername u []).getD u) = url.password u := by
  cases hset : url.setUsername u [] with
  | none => simp
  | some v =>
      obtain ⟨hname, hpassword⟩ := hurl.setUsername u [] v hset
      simp [hname, hpassword]

theorem getD_setPassword (hurl : url.Lawful) (u : U) :
    (url.password ((url.setPassword u none).getD u) = none ↔
      url.password u = none ∨ (url.setPassword u none).isSome) ∧
    url.username ((url.setPassword u none).getD u) = url.username u := by
  cases hset : url.setPassword u none with
  | none => simp
  | some v =>
      obtain ⟨hpassword, hname⟩ := hurl.setPassword u none v hset
      simp [hname, hpassword]

theorem stripped_iff (hurl : url.Lawful) (u : U) :
    (url.username (url.stripped u) = [] ∧ url.password (url.stripped u) = none ∧
      url.query (url.stripped u) = none ∧ url.fragment (url.stripped u) = none) ↔
    (url.username u = [] ∨ (url.setUsername u []).isSome) ∧
      (url.password u = none ∨
        (url.setPassword ((url.setUsername u []).getD u) none).isSome) := by
  obtain ⟨hname, hkept⟩ := getD_setUsername hurl u
  obtain ⟨hpassword, hsame⟩ := getD_setPassword hurl ((url.setUsername u []).getD u)
  rw [UrlCrate.stripped]
  obtain ⟨hfragment, hname', hpassword', hquery⟩ := hurl.setFragment
    (url.setQuery ((url.setPassword ((url.setUsername u []).getD u) none).getD
      ((url.setUsername u []).getD u)) none) none
  obtain ⟨hquery', hname'', hpassword''⟩ := hurl.setQuery
    ((url.setPassword ((url.setUsername u []).getD u) none).getD
      ((url.setUsername u []).getD u)) none
  rw [hname', hname'', hsame, hname, hpassword', hpassword'', hpassword, hkept, hquery, hquery']
  exact and_congr_right fun _ => and_iff_left ⟨rfl, hfragment⟩

/-- **A URL is sanitized** exactly if it is clean.  Of the `url` crate only that its
setters set what they are named for is used; a text it does not parse is cut by
bytes, and that is where a cut can fall inside a character. -/
theorem safe_iff (hurl : url.Lawful) (raw : List Char) : Safe url raw ↔ Clean url raw := by
  rw [Safe, Clean]
  cases hparse : url.parse raw with
  | none => exact safeText_iff raw
  | some u =>
      have hvalue : sanitizeUrl url raw = some (url.toString (url.stripped u)) := by
        rw [sanitizeUrl, hparse]
      exact (and_iff_right hvalue).trans (stripped_iff hurl u)

end

/-- The parts of a URL that are set. -/
structure Parts where
  username : List Char
  password : Option (List Char)
  query : Option (List Char)
  fragment : Option (List Char)

/-- A crate that sets what it is told to, and takes no text for a URL. -/
def refuses : UrlCrate Parts where
  parse _ := none
  setUsername u name := some { u with username := name }
  setPassword u password := some { u with password }
  setQuery u query := { u with query }
  setFragment u fragment := { u with fragment }
  username := Parts.username
  password := Parts.password
  query := Parts.query
  fragment := Parts.fragment
  toString u := u.username

theorem refuses_lawful : refuses.Lawful where
  setUsername u name v h := by
    obtain rfl : _ = v := Option.some.inj h
    exact ⟨rfl, rfl⟩
  setPassword u password v h := by
    obtain rfl : _ = v := Option.some.inj h
    exact ⟨rfl, rfl⟩
  setQuery u query := ⟨rfl, rfl, rfl⟩
  setFragment u fragment := ⟨rfl, rfl, rfl, rfl⟩

theorem password_is_hidden : Safe refuses "http://u:p@[h?k".toList := by
  refine (safe_iff refuses_lawful _).mpr ?_
  show Sanitizable _
  constructor
  case edge =>
    intro text htext
    rw [shown_iff.mp htext]
    exact .inl (by decide)
  case last =>
    intro scheme user c rest hraw hscheme huser _ _ _
    have hsep : Split.once schemeSep "http://u:p@[h?k".toList =
        some ("http".toList, "u:p@[h?k".toList) := by decide
    rw [once_schemeSep.mpr ⟨hraw, hscheme⟩] at hsep
    obtain ⟨rfl, hrest⟩ := Prod.mk.inj (Option.some.inj hsep)
    have hat : Split.first '@' "u:p@[h?k".toList = some ("u:p".toList, "[h?k".toList) := by decide
    rw [← hrest, Split.first_append _ huser] at hat
    obtain ⟨rfl, htail⟩ := Prod.mk.inj (Option.some.inj hat)
    rw [htail]
    exact ⟨List.all_eq_true.mp (show "u:p".toList.all (unmarked id) = true by decide),
      fun _ => by decide⟩

/-- **Of two** `@` the second may be shown with what is before it, a text may be cut
inside a character, and what is after a `?` may be shown. -/
theorem sanitizeUrl_leaks :
    sanitizeUrl refuses "aéééééééé".toList = none ∧
      sanitizeUrl refuses "http://u@v@[h".toList = some "http://v@[h".toList ∧
      ¬ Safe refuses "http://u@v@[h".toList ∧
      sanitizeUrl refuses "1x://a?tok@en".toList = some "1x://en".toList := by
  refine ⟨by decide +kernel, by decide +kernel, ?_, by decide +kernel⟩
  rintro ⟨out, hout, -, hall⟩
  have hkept : "http://".toList.zipIdx ++ [('v', 9)] <+: out.kept := by
    rw [prefix_kept_zipIdx_iff hout]
    refine ⟨by decide, List.all_eq_true.mp ?_, by decide⟩
    decide
  exact (hall ('v', 9) (hkept.subset (List.mem_append_right _ List.mem_cons_self))).1
    ⟨"http".toList, "u@v@[h".toList, "u@v".toList, "[h".toList, by decide, by decide, by decide,
      by decide, by decide, by decide⟩

end AgentBlock.Obs
