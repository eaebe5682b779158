import RequestDoc.Number.Numeral.WellFormed
import RequestDoc.Text.ByteSize
import RequestDoc.Text.Character

/-!
The bytes of texts. An ASCII character is one byte below 128, and every byte of another character is 128 or more. So
what is told of bytes below 128 is told of ASCII characters, wherever in the text they stand.
-/

namespace RequestDoc

/-- The bytes of characters. -/
def encoded (cs : List Char) : List UInt8 :=
  cs.flatMap String.utf8EncodeChar

/-- The bytes of a text. -/
def bytesOf (text : String) : List UInt8 :=
  text.toByteArray.data.toList

/-- The byte of an ASCII character. -/
def byteOf (c : Char) : UInt8 :=
  UInt8.ofNat c.toNat

/-- Each of the characters takes one byte. -/
def Ascii (cs : List Char) : Prop :=
  ∀ c ∈ cs, c.toNat < 128

/-- The bytes that the class holds are the characters that the other class holds, all of them ASCII characters. -/
structure Encodes (bytes : UInt8 → Bool) (chars : Char → Bool) : Prop where
  eq : ∀ {c : Char}, c.toNat < 128 → bytes (byteOf c) = chars c
  byte_lt : ∀ {b : UInt8}, bytes b = true → b.toNat < 128
  char_lt : ∀ {c : Char}, chars c = true → c.toNat < 128

theorem bytesOf_ofList (cs : List Char) : bytesOf (String.ofList cs) = encoded cs := by
  rw [bytesOf, String.toByteArray_ofList, List.utf8Encode, List.toList_data_toByteArray]
  rfl

theorem utf8Size_of_lt {c : Char} (h : c.toNat < 128) : c.utf8Size = 1 := by
  rw [Char.utf8Size_eq_one_iff]
  exact UInt32.le_iff_toNat_le.mpr (Nat.le_of_lt_succ h)

theorem encodeChar_of_lt {c : Char} (h : c.toNat < 128) : String.utf8EncodeChar c = [byteOf c] := by
  rw [String.utf8EncodeChar_eq_singleton (utf8Size_of_lt h)]
  rfl

theorem le_of_mem_encodeChar {c : Char} (h : 128 ≤ c.toNat) {b : UInt8} (hb : b ∈ String.utf8EncodeChar c) :
    128 ≤ b.toNat := by
  have hv : 128 ≤ c.val.toNat := h
  -- leading and following bytes both have the highest bit set
  unfold String.utf8EncodeChar at hb
  simp only at hb
  split at hb
  · omega
  · split at hb
    · simp only [List.mem_cons, List.not_mem_nil, or_false] at hb
      rcases hb with rfl | rfl <;> simp only [UInt8.toNat_ofNat'] <;> omega
    · split at hb
      · simp only [List.mem_cons, List.not_mem_nil, or_false] at hb
        rcases hb with rfl | rfl | rfl <;> simp only [UInt8.toNat_ofNat'] <;> omega
      · simp only [List.mem_cons, List.not_mem_nil, or_false] at hb
        rcases hb with rfl | rfl | rfl | rfl <;> simp only [UInt8.toNat_ofNat'] <;> omega

@[simp]
theorem encoded_append (cs ds : List Char) : encoded (cs ++ ds) = encoded cs ++ encoded ds :=
  List.flatMap_append

theorem encoded_cons (c : Char) (cs : List Char) : encoded (c :: cs) = String.utf8EncodeChar c ++ encoded cs :=
  List.flatMap_cons

theorem length_encoded (cs : List Char) : (encoded cs).length = byteSize cs := by
  induction cs with
  | nil => rfl
  | cons c cs ih => rw [encoded_cons, List.length_append, String.length_utf8EncodeChar, ih, byteSize_cons]

namespace Ascii

variable {cs ds : List Char}

theorem byteSize (h : Ascii cs) : byteSize cs = cs.length := by
  induction cs with
  | nil => rfl
  | cons c cs ih =>
    rw [byteSize_cons, utf8Size_of_lt (h c List.mem_cons_self), ih fun d hd => h d (List.mem_cons_of_mem c hd),
      List.length_cons, Nat.add_comm]

theorem nil : Ascii [] :=
  fun _ h => nomatch h

theorem singleton {c : Char} (h : c.toNat < 128) : Ascii [c] :=
  fun _ hd => List.mem_singleton.mp hd ▸ h

theorem append (h : Ascii cs) (k : Ascii ds) : Ascii (cs ++ ds) :=
  fun c hc => (List.mem_append.mp hc).elim (h c) (k c)

theorem drop_encoded (h : Ascii cs) (rest : List Char) : (encoded (cs ++ rest)).drop cs.length = encoded rest := by
  rw [encoded_append, ← h.byteSize, ← length_encoded, List.drop_left]

end Ascii

namespace Encodes

variable {bytes : UInt8 → Bool} {chars : Char → Bool}

theorem byte_eq_false (h : Encodes bytes chars) {b : UInt8} (hb : 128 ≤ b.toNat) : bytes b = false := by
  cases hbytes : bytes b with
  | false => rfl
  | true => exact absurd (h.byte_lt hbytes) (Nat.not_lt.mpr hb)

theorem char_eq_false (h : Encodes bytes chars) {c : Char} (hc : 128 ≤ c.toNat) : chars c = false := by
  cases hchars : chars c with
  | false => rfl
  | true => exact absurd (h.char_lt hchars) (Nat.not_lt.mpr hc)

theorem head? (h : Encodes bytes chars) (cs : List Char) : (encoded cs).head?.any bytes = cs.head?.any chars := by
  cases cs with
  | nil => rfl
  | cons c cs =>
    rw [encoded_cons]
    by_cases hc : c.toNat < 128
    · rw [encodeChar_of_lt hc]
      exact h.eq hc
    · have hc := Nat.not_lt.mp hc
      cases hbytes : String.utf8EncodeChar c with
      | nil => exact absurd hbytes String.utf8EncodeChar_ne_nil
      | cons b bs =>
        have hb : 128 ≤ b.toNat := le_of_mem_encodeChar hc (hbytes ▸ List.mem_cons_self)
        exact (h.byte_eq_false hb).trans (h.char_eq_false hc).symm

/-- As many bytes as characters are counted up to the first one that is not in the class. -/
theorem length_takeWhile (h : Encodes bytes chars) (cs : List Char) :
    ((encoded cs).takeWhile bytes).length = (cs.takeWhile chars).length := by
  induction cs with
  | nil => rfl
  | cons c cs ih =>
    cases hc : chars c with
    | true =>
      have hlt := h.char_lt hc
      rw [encoded_cons, encodeChar_of_lt hlt, List.singleton_append, List.takeWhile_cons_of_pos ((h.eq hlt).trans hc),
        List.takeWhile_cons_of_pos hc, List.length_cons, List.length_cons, ih]
    | false =>
      have hhead := h.head? (c :: cs)
      rw [List.takeWhile_cons_of_neg (by simp [hc])]
      cases hbytes : encoded (c :: cs) with
      | nil => rfl
      | cons b bs =>
        rw [hbytes] at hhead
        have hb : bytes b = false := hhead.trans hc
        rw [List.takeWhile_cons_of_neg (by simp [hb])]
        rfl

theorem all (h : Encodes bytes chars) (cs : List Char) : (encoded cs).all bytes = cs.all chars := by
  induction cs with
  | nil => rfl
  | cons c cs ih =>
    rw [encoded_cons, List.all_append, ih, List.all_cons]
    congr 1
    by_cases hc : c.toNat < 128
    · rw [encodeChar_of_lt hc, List.all_cons, List.all_nil, Bool.and_true]
      exact h.eq hc
    · have hc := Nat.not_lt.mp hc
      rw [h.char_eq_false hc, List.all_eq_false]
      obtain ⟨b, hb⟩ := List.exists_mem_of_ne_nil _ String.utf8EncodeChar_ne_nil
      exact ⟨b, hb, by simp [h.byte_eq_false (le_of_mem_encodeChar hc hb)]⟩

/-- Bytes below 128 and the characters with their numbers are held alike. -/
theorem of_lt (heq : ∀ n < 128, bytes (UInt8.ofNat n) = chars (Char.ofNat n))
    (hbyte : ∀ {b : UInt8}, bytes b = true → b.toNat < 128) (hchar : ∀ {c : Char}, chars c = true → c.toNat < 128) :
    Encodes bytes chars where
  eq {c} hc := by
    have h := heq c.toNat hc
    rwa [Char.ofNat_toNat] at h
  byte_lt := hbyte
  char_lt := hchar

end Encodes

/-! ### Classes of bytes -/

def isDigitByte (b : UInt8) : Bool :=
  byteOf '0' ≤ b && b ≤ byteOf '9'

def isHexByte (b : UInt8) : Bool :=
  isDigitByte b || byteOf 'a' ≤ b && b ≤ byteOf 'f' || byteOf 'A' ≤ b && b ≤ byteOf 'F'

theorem encodes_byteOf {a : Char} (ha : a.toNat < 128) : Encodes (· == byteOf a) (· == a) where
  eq {c} hc := by
    rw [Bool.eq_iff_iff, beq_iff_eq, beq_iff_eq]
    refine ⟨fun h => ?_, congrArg byteOf⟩
    have h := congrArg UInt8.toNat h
    rw [byteOf, byteOf, UInt8.toNat_ofNat', UInt8.toNat_ofNat'] at h
    exact Char.toNat_inj.mp (by omega)
  byte_lt h := by
    rw [beq_iff_eq.mp h, byteOf, UInt8.toNat_ofNat']
    omega
  char_lt h := by rwa [beq_iff_eq.mp h]

theorem encodes_digit : Encodes isDigitByte Char.isDigit := by
  refine .of_lt (by decide) (fun {b} h => ?_) fun {c} h => ?_
  · simp only [isDigitByte, Bool.and_eq_true, decide_eq_true_eq, UInt8.le_iff_toNat_le] at h
    exact Nat.lt_of_le_of_lt h.2 (by decide)
  · simp only [Char.isDigit, Bool.and_eq_true, decide_eq_true_eq] at h
    exact Nat.lt_of_le_of_lt (UInt32.le_iff_toNat_le.mp h.2) (by decide)

theorem encodes_hex : Encodes isHexByte fun c => (Character.hexValue? c).isSome := by
  refine .of_lt (by decide) (fun {b} h => ?_) fun {c} h => ?_
  · simp only [isHexByte, isDigitByte, Bool.or_eq_true, Bool.and_eq_true, decide_eq_true_eq, UInt8.le_iff_toNat_le] at h
    rcases h with (h | h) | h <;> exact Nat.lt_of_le_of_lt h.2 (by decide)
  · unfold Character.hexValue? at h
    split at h
    next hdigit => exact encodes_digit.char_lt hdigit
    · split at h
      next hx => exact Nat.lt_of_le_of_lt (UInt32.le_iff_toNat_le.mp hx.2) (by decide)
      · split at h
        next hx => exact Nat.lt_of_le_of_lt (UInt32.le_iff_toNat_le.mp hx.2) (by decide)
        · cases h

end RequestDoc
