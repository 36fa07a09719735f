import Quail.Lib.Cumulative
import Mathlib.Data.List.Flatten

/-!
# Characters and their UTF-8 bytes

The bytes of a text, of which the first byte of each character is no continuation byte, and the lenient
decoding, which drops every byte that begins no character. Of a prefix of a text's bytes it keeps the
characters whose bytes are all there.
-/

namespace Utf8

variable {text : List Char} {c : Char}

/-- The bytes of a text. -/
def encode (text : List Char) : List UInt8 := text.flatMap String.utf8EncodeChar

/-- How many bytes each character takes. -/
def sizes (text : List Char) : List ℕ := text.map Char.utf8Size

/-- Whether a byte begins a character. -/
def isStart (b : UInt8) : Bool := b &&& 0xC0 != 0x80

/-- The positions of the bytes that begin a character. -/
def startsFrom (i : ℕ) (raw : List UInt8) : List ℕ := ((raw.zipIdx i).filter fun e => isStart e.1).map Prod.snd

@[simp] lemma encode_cons : encode (c :: text) = String.utf8EncodeChar c ++ encode text := rfl

lemma length_encode : (encode text).length = (sizes text).sum := by
  rw [encode, List.length_flatMap, sizes]
  simp

lemma sizes_pos : ∀ size ∈ sizes text, 0 < size := by
  intro size hsize
  obtain ⟨c, -, rfl⟩ := List.mem_map.1 hsize
  exact c.utf8Size_pos

/-! ## Continuation bytes -/

lemma isStart_of_first {b : UInt8} (h : b.IsUTF8FirstByte) : isStart b = true := by
  have hall : ∀ v : BitVec 8, (UInt8.ofBitVec v).IsUTF8FirstByte → isStart (UInt8.ofBitVec v) = true := by
    decide +kernel
  exact hall b.toBitVec h

lemma isStart_continuation (b : UInt8) : isStart (b &&& 0x3F ||| 0x80) = false := by
  have hall : ∀ v : BitVec 8, isStart (UInt8.ofBitVec v &&& 0x3F ||| 0x80) = false := by
    decide +kernel
  exact hall b.toBitVec

/-- The first byte of a character begins it, and its other bytes do not. -/
lemma encodeChar_eq (c : Char) : ∃ first rest, String.utf8EncodeChar c = first :: rest ∧ isStart first = true ∧
    ∀ b ∈ rest, isStart b = false := by
  have hpos : 0 < (String.utf8EncodeChar c).length := by
    rw [String.length_utf8EncodeChar]
    exact c.utf8Size_pos
  have hfirst : isStart (String.utf8EncodeChar c)[0] = true :=
    isStart_of_first (UInt8.isUTF8FirstByte_getElem_utf8EncodeChar.2 rfl)
  refine ⟨(String.utf8EncodeChar c)[0], (String.utf8EncodeChar c).tail, ?_, hfirst, ?_⟩
  · rw [List.getElem_zero_eq_head, List.cons_head_tail]
  · have hsize := c.utf8Size_le_four
    have hcases : c.utf8Size = 1 ∨ c.utf8Size = 2 ∨ c.utf8Size = 3 ∨ c.utf8Size = 4 := by
      have := c.utf8Size_pos
      omega
    rcases hcases with h | h | h | h
    · rw [String.utf8EncodeChar_eq_singleton h]
      simp
    · rw [String.utf8EncodeChar_eq_cons_cons h]
      simp [isStart_continuation]
    · rw [String.utf8EncodeChar_eq_cons_cons_cons h]
      simp [isStart_continuation]
    · rw [String.utf8EncodeChar_eq_cons_cons_cons_cons h]
      simp [isStart_continuation]

lemma startsFrom_append (i : ℕ) (raw rest : List UInt8) :
    startsFrom i (raw ++ rest) = startsFrom i raw ++ startsFrom (i + raw.length) rest := by
  rw [startsFrom, List.zipIdx_append, List.filter_append, List.map_append]
  rfl

lemma startsFrom_char (i : ℕ) : startsFrom i (String.utf8EncodeChar c) = [i] := by
  obtain ⟨first, rest, hbytes, hfirst, hrest⟩ := encodeChar_eq c
  have hnone : ((rest.zipIdx (i + 1)).filter fun e => isStart e.1) = [] := by
    refine List.filter_eq_nil_iff.2 fun e he => ?_
    rw [hrest e.1 (List.fst_mem_of_mem_zipIdx he)]
    exact Bool.false_ne_true
  rw [hbytes, startsFrom, List.zipIdx_cons, List.filter_cons_of_pos (p := fun e : UInt8 × ℕ => isStart e.1) hfirst, hnone]
  rfl

/-- The bytes that begin a character are where the characters start, and the end of the bytes is where the last
one ends. -/
theorem startsFrom_encode (text : List Char) (i : ℕ) :
    startsFrom i (encode text) ++ [i + (encode text).length] = (sizes text).scanl (· + ·) i := by
  induction text generalizing i with
  | nil => rfl
  | cons c text ih =>
    have hrest := ih (i + c.utf8Size)
    rw [encode_cons, startsFrom_append, startsFrom_char, List.length_append, String.length_utf8EncodeChar,
      ← Nat.add_assoc, List.append_assoc, hrest]
    exact List.scanl_cons.symm

/-- A text whose bytes are all below 128 has a byte for each character. -/
lemma sizes_ascii (h : ∀ b ∈ encode text, b < 128) : ∀ size ∈ sizes text, size = 1 := by
  have hall : ∀ v : BitVec 8, isStart (UInt8.ofBitVec v) = false → ¬UInt8.ofBitVec v < 128 := by
    decide +kernel
  intro size hsize
  obtain ⟨c, hc, rfl⟩ := List.mem_map.1 hsize
  obtain ⟨first, rest, hbytes, -, hrest⟩ := encodeChar_eq c
  have hlength := String.length_utf8EncodeChar c
  rw [hbytes, List.length_cons] at hlength
  cases rest with
  | nil => exact hlength.symm
  | cons b rest =>
    have hmem : b ∈ encode text := List.mem_flatMap.2 ⟨c, hc, by simp [hbytes]⟩
    exact absurd (h b hmem) (hall b.toBitVec (hrest b List.mem_cons_self))

/-! ## Lenient decoding -/

/-- The characters of some bytes, without the bytes that begin none (`errors="ignore"`); the bytes left of the
character that was read last are skipped. -/
def decodeIgnore : ℕ → List UInt8 → List Char
  | _, [] => []
  | skip + 1, _ :: rest => decodeIgnore skip rest
  | 0, b :: rest =>
    match (b :: rest).toByteArray.utf8DecodeChar? 0 with
    | some c => c :: decodeIgnore (c.utf8Size - 1) rest
    | none => decodeIgnore 0 rest

lemma decodeIgnore_skip (skipped bytes : List UInt8) : decodeIgnore skipped.length (skipped ++ bytes) = decodeIgnore 0 bytes := by
  induction skipped with
  | nil => rfl
  | cons b skipped ih => exact ih

lemma decodeIgnore_char (c : Char) (bytes : List UInt8) :
    decodeIgnore 0 (String.utf8EncodeChar c ++ bytes) = c :: decodeIgnore 0 bytes := by
  have hdecode : (String.utf8EncodeChar c ++ bytes).toByteArray.utf8DecodeChar? 0 = some c := by
    rw [List.toByteArray_append]
    exact ByteArray.utf8DecodeChar?_utf8EncodeChar_append
  obtain ⟨first, rest, hbytes, -, -⟩ := encodeChar_eq c
  have hlength : rest.length = c.utf8Size - 1 := by
    have hsize := String.length_utf8EncodeChar c
    rw [hbytes, List.length_cons] at hsize
    omega
  rw [hbytes, List.cons_append] at hdecode ⊢
  rw [decodeIgnore, hdecode]
  dsimp only
  rw [← hlength]
  exact congrArg (c :: ·) (decodeIgnore_skip rest bytes)

lemma decodeIgnore_continuation {bytes : List UInt8} (h : ∀ b ∈ bytes, isStart b = false) : decodeIgnore 0 bytes = [] := by
  induction bytes with
  | nil => rfl
  | cons b bytes ih =>
    have hnone : (b :: bytes).toByteArray.utf8DecodeChar? 0 = none := by
      refine Option.eq_none_iff_forall_ne_some.2 fun c hc => ?_
      have hfirst := ByteArray.isUTF8FirstByte_of_isSome_utf8DecodeChar? (Option.isSome_of_eq_some hc)
      rw [List.getElem_toByteArray] at hfirst
      have hstart := isStart_of_first hfirst
      rw [List.getElem_cons_zero, h b List.mem_cons_self] at hstart
      exact Bool.false_ne_true hstart
    rw [decodeIgnore, hnone]
    exact ih fun b' hb' => h b' (List.mem_cons_of_mem b hb')

/-- The first bytes of a character alone decode to nothing. -/
lemma decodeIgnore_partial {n : ℕ} (h : n < c.utf8Size) : decodeIgnore 0 ((String.utf8EncodeChar c).take n) = [] := by
  obtain ⟨first, rest, hbytes, -, hrest⟩ := encodeChar_eq c
  cases n with
  | zero => rfl
  | succ n =>
    have hnone : ((String.utf8EncodeChar c).take (n + 1)).toByteArray.utf8DecodeChar? 0 = none := by
      refine Option.eq_none_iff_forall_ne_some.2 fun c' hc' => ?_
      have hextract := String.toByteArray_utf8EncodeChar_of_utf8DecodeChar?_eq_some hc'
      have hsize := congrArg ByteArray.size hextract
      rw [ByteArray.size_extract, List.size_toByteArray, String.length_utf8EncodeChar] at hsize
      have hle : c'.utf8Size ≤ ((String.utf8EncodeChar c).take (n + 1)).toByteArray.size := by omega
      have hsplit := ByteArray.extract_eq_extract_append_extract (a := ((String.utf8EncodeChar c).take (n + 1)).toByteArray)
        c'.utf8Size (Nat.zero_le _) hle
      rw [ByteArray.extract_zero_size, ← hextract] at hsplit
      have hwhole := @List.toByteArray_append ((String.utf8EncodeChar c).take (n + 1))
        ((String.utf8EncodeChar c).drop (n + 1))
      rw [List.take_append_drop, hsplit, ByteArray.append_assoc] at hwhole
      have hsame : c' = c := by
        have hdecode := congrArg (ByteArray.utf8DecodeChar? · 0) hwhole
        have hself := @ByteArray.utf8DecodeChar?_utf8EncodeChar_append ByteArray.empty c
        rw [ByteArray.append_empty] at hself
        rw [hself, ByteArray.utf8DecodeChar?_utf8EncodeChar_append] at hdecode
        exact (Option.some.inj hdecode).symm
      rw [hsame, List.size_toByteArray, List.length_take] at hle
      omega
    rw [hbytes, List.take_succ_cons] at hnone ⊢
    rw [decodeIgnore, hnone]
    exact decodeIgnore_continuation fun b hb => hrest b (List.mem_of_mem_take hb)

/-- Decoding a prefix of a text's bytes gives the characters whose bytes it holds. -/
theorem decodeIgnore_take (text : List Char) (n : ℕ) :
    decodeIgnore 0 ((encode text).take n) = text.take (Cumulative.fit (sizes text) n) := by
  induction text generalizing n with
  | nil => simp [encode, decodeIgnore]
  | cons c text ih =>
    rw [encode_cons, List.take_append, String.length_utf8EncodeChar, sizes, List.map_cons]
    rcases Nat.lt_or_ge n c.utf8Size with hlt | hge
    · rw [Nat.sub_eq_zero_of_le hlt.le, List.take_zero, List.append_nil, decodeIgnore_partial hlt,
        Cumulative.fit_cons_of_lt hlt, List.take_zero]
    · rw [List.take_of_length_le (by rwa [String.length_utf8EncodeChar]), decodeIgnore_char, ih,
        Cumulative.fit_cons_of_le hge, List.take_succ_cons]
      rfl

end Utf8
