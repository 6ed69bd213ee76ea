/-
AgentBlock/Lib/Utf8.lean

Byte strings and the texts they encode: which parts of an encoded text are encoded
texts themselves.

`valid_drop_iff` is the main lemma: what is left of a text after `k` bytes is a
text exactly when it is nothing or starts with the first byte of a character; and
then what is before it is one too (`valid_take_iff`).
-/
import Mathlib.Data.List.Basic

/-- A string of a program that reads no text into it. -/
abbrev Bytes := List UInt8

namespace Utf8

/-- The bytes of a text. -/
def encode (cs : List Char) : Bytes := cs.flatMap String.utf8EncodeChar

/-- The bytes are those of a text. -/
def Valid (bs : Bytes) : Prop := ∃ cs, bs = encode cs

/-- Nothing, or something a character begins. -/
def StartsChar (bs : Bytes) : Prop := ∀ b, bs.head? = some b → b.IsUTF8FirstByte

theorem startsChar_nil : StartsChar [] := nofun

theorem startsChar_cons {b : UInt8} {bs : Bytes} : StartsChar (b :: bs) ↔ b.IsUTF8FirstByte :=
  ⟨fun h => h b rfl, fun h _ hb => Option.some.inj hb ▸ h⟩

instance : (bs : Bytes) → Decidable (StartsChar bs)
  | [] => isTrue startsChar_nil
  | _ :: _ => decidable_of_iff' _ startsChar_cons

@[simp] theorem encode_nil : encode [] = [] := rfl

@[simp] theorem encode_cons (c : Char) (cs : List Char) :
    encode (c :: cs) = String.utf8EncodeChar c ++ encode cs := rfl

theorem encode_append (cs ds : List Char) : encode (cs ++ ds) = encode cs ++ encode ds :=
  List.flatMap_append

@[simp] theorem valid_encode (cs : List Char) : Valid (encode cs) := ⟨cs, rfl⟩

@[simp] theorem valid_nil : Valid [] := ⟨[], rfl⟩

theorem Valid.append {as bs : Bytes} (ha : Valid as) (hb : Valid bs) : Valid (as ++ bs) := by
  obtain ⟨cs, rfl⟩ := ha
  obtain ⟨ds, rfl⟩ := hb
  exact ⟨cs ++ ds, (encode_append cs ds).symm⟩

theorem valid_iff_isValidUTF8 {bs : Bytes} : Valid bs ↔ bs.toByteArray.IsValidUTF8 := by
  constructor
  · rintro ⟨cs, rfl⟩
    exact ⟨cs, rfl⟩
  · rintro ⟨cs, hcs⟩
    refine ⟨cs, ?_⟩
    have h : bs.toByteArray.data = (encode cs).toByteArray.data := by
      rw [hcs]
      rfl
    simpa only [List.data_toByteArray, List.toList_toArray] using congrArg Array.toList h

instance (bs : Bytes) : Decidable (Valid bs) :=
  decidable_of_iff' _ valid_iff_isValidUTF8

/-- Of what is left of a character, only the whole of it starts one. -/
theorem startsChar_drop_utf8EncodeChar {c : Char} {k : Nat}
    (hk : k < (String.utf8EncodeChar c).length) (rest : Bytes) :
    StartsChar ((String.utf8EncodeChar c).drop k ++ rest) ↔ k = 0 := by
  rw [List.drop_eq_getElem_cons hk, List.cons_append, startsChar_cons]
  exact UInt8.isUTF8FirstByte_getElem_utf8EncodeChar

theorem Valid.startsChar {bs : Bytes} (h : Valid bs) : StartsChar bs := by
  obtain ⟨cs, rfl⟩ := h
  cases cs with
  | nil => exact startsChar_nil
  | cons c cs =>
      have hpos : 0 < (String.utf8EncodeChar c).length := by
        rw [String.length_utf8EncodeChar]
        exact c.utf8Size_pos
      exact (startsChar_drop_utf8EncodeChar hpos (encode cs)).mpr rfl

theorem valid_drop_iff {bs : Bytes} (h : Valid bs) (k : Nat) :
    Valid (bs.drop k) ↔ StartsChar (bs.drop k) := by
  refine ⟨Valid.startsChar, ?_⟩
  obtain ⟨cs, rfl⟩ := h
  induction cs generalizing k with
  | nil => simp
  | cons c cs ih =>
      intro hs
      rw [encode_cons] at hs ⊢
      by_cases hk : k < (String.utf8EncodeChar c).length
      · -- The cut is in the first character, so it is before it.
        rw [List.drop_append_of_le_length (Nat.le_of_lt hk)] at hs
        obtain rfl := (startsChar_drop_utf8EncodeChar hk _).mp hs
        exact valid_encode (c :: cs)
      · rw [List.drop_append, List.drop_eq_nil_of_le (Nat.le_of_not_lt hk), List.nil_append] at hs ⊢
        exact ih _ hs

/-- A text begins with one character. -/
theorem head_unique {c d : Char} {rest rest' : Bytes}
    (h : String.utf8EncodeChar c ++ rest = String.utf8EncodeChar d ++ rest') : c = d := by
  have hc := ByteArray.utf8DecodeChar?_utf8EncodeChar_append (b := rest.toByteArray) (c := c)
  have hd := ByteArray.utf8DecodeChar?_utf8EncodeChar_append (b := rest'.toByteArray) (c := d)
  rw [← List.toByteArray_append] at hc hd
  rw [h, hd] at hc
  exact (Option.some.inj hc).symm

/-- What is kept of a text is a text exactly when a character begins where it is
cut. -/
theorem valid_take_iff {bs : Bytes} (h : Valid bs) (k : Nat) :
    Valid (bs.take k) ↔ StartsChar (bs.drop k) := by
  obtain ⟨cs, rfl⟩ := h
  induction cs generalizing k with
  | nil => simp [startsChar_nil]
  | cons c cs ih =>
      rw [encode_cons]
      by_cases hk : k < (String.utf8EncodeChar c).length
      · rw [List.drop_append_of_le_length (Nat.le_of_lt hk), startsChar_drop_utf8EncodeChar hk]
        constructor
        · rintro ⟨ds, hds⟩
          rcases ds with - | ⟨d, ds⟩
          · -- Nothing is kept.
            rcases List.take_eq_nil_iff.mp hds with rfl | hnil
            · rfl
            · rw [List.append_eq_nil_iff.mp hnil |>.1] at hk
              cases hk
          · -- The character kept first is the whole of the one that is cut.
            have hwhole := List.take_append_drop k (String.utf8EncodeChar c ++ encode cs)
            rw [hds, encode_cons, List.append_assoc] at hwhole
            obtain rfl := head_unique hwhole
            have hlength := congrArg List.length hds
            rw [encode_cons, List.length_append, List.length_take] at hlength
            omega
        · rintro rfl
          exact valid_nil
      · rw [List.drop_append, List.drop_eq_nil_of_le (Nat.le_of_not_lt hk), List.nil_append,
          List.take_append, List.take_of_length_le (Nat.le_of_not_lt hk), ← ih]
        constructor
        · rintro ⟨ds, hds⟩
          rcases ds with - | ⟨d, ds⟩
          · have hnil := (List.append_eq_nil_iff.mp hds).2
            rw [hnil]
            exact valid_nil
          · obtain rfl := head_unique hds
            exact ⟨ds, List.append_cancel_left hds⟩
        · exact fun hv => Valid.append ⟨[c], by simp⟩ hv
/-! ### Bytes that are characters -/

/-- A byte below 128 is a character of its own. -/
theorem toNat_of_mem_utf8EncodeChar {c : Char} {b : UInt8} (hb : b < 128)
    (h : b ∈ String.utf8EncodeChar c) : b.toNat = c.toNat := by
  have hlt : b.toNat < 128 := hb
  have hle : c.val.toNat < 4294967296 := c.val.toNat_lt
  show b.toNat = c.val.toNat
  simp only [String.utf8EncodeChar] at h
  -- Every byte of a longer character is at least 128.
  split_ifs at h
  all_goals
    simp only [List.mem_cons, List.not_mem_nil, or_false, ← UInt8.toNat_inj,
      UInt8.toNat_ofNat'] at h
    omega

/-- Putting a text in place of each byte that is `q` leaves a text, where `q` is
a character of its own. -/
theorem Valid.replace {bs new : Bytes} {q : UInt8} (h : Valid bs) (hq : q < 128)
    (hnew : Valid new) : Valid (bs.flatMap fun b => if b = q then new else [b]) := by
  obtain ⟨cs, rfl⟩ := h
  induction cs with
  | nil => exact valid_nil
  | cons c cs ih =>
      rw [encode_cons, List.flatMap_append]
      refine Valid.append ?_ ih
      by_cases hc : q ∈ String.utf8EncodeChar c
      · have hsize : String.utf8EncodeChar c = [q] := by
          have hn := toNat_of_mem_utf8EncodeChar hq hc
          have hle : c.val.toNat ≤ 127 := by
            have hlt : q.toNat < 128 := hq
            show c.toNat ≤ 127
            omega
          rw [String.utf8EncodeChar, if_pos hle]
          show [UInt8.ofNat c.toNat] = _
          rw [← hn, UInt8.ofNat_toNat]
        simpa [hsize] using hnew
      · have hid : (String.utf8EncodeChar c).flatMap (fun b => if b = q then new else [b]) =
            String.utf8EncodeChar c := by
          refine (List.flatMap_congr fun b hb => ?_).trans (List.flatMap_singleton' _)
          rw [if_neg]
          rintro rfl
          exact hc hb
        rw [hid]
        exact ⟨[c], by simp⟩

/-! ### The last bytes -/

/-- The last `n` bytes. -/
def last (bs : Bytes) (n : Nat) : Bytes := bs.drop (bs.length - n)

theorem last_suffix (bs : Bytes) (n : Nat) : last bs n <:+ bs := List.drop_suffix _ _

theorem length_last (bs : Bytes) (n : Nat) : (last bs n).length = min n bs.length := by
  rw [last, List.length_drop]
  omega

theorem last_of_length_le {bs : Bytes} {n : Nat} (h : bs.length ≤ n) : last bs n = bs := by
  rw [last, Nat.sub_eq_zero_of_le h, List.drop_zero]

theorem valid_last_iff {bs : Bytes} (h : Valid bs) (n : Nat) :
    Valid (last bs n) ↔ StartsChar (last bs n) := valid_drop_iff h _

end Utf8
