import Mathlib.Data.String.Basic
import Questionnaire.Token.Bytes

/-! The characters of a source among its bytes. A character that takes one byte is that byte, and all bytes of any other
have their highest bit set, so that a test which only such narrow characters pass may be made on bytes. What is left
of a source begins at a place that its characters can be counted back from, and a text can be cut out between two such
places. -/

namespace Questionnaire

namespace Text

def bytesOf (text : List Char) : List UInt8 := text.flatMap String.utf8EncodeChar

/-- The first byte of a text, read as a character. -/
def front (text : List Char) : Char := Char.ofUInt8 ((bytesOf text).getD 0 0)

/-- Only characters of one byte pass the test. -/
def Narrow (test : Char → Bool) : Prop := ∀ c, test c = true → c.toNat < 128

variable {c d : Char} {text : List Char} {test : Char → Bool}

theorem bytesOf_cons (c : Char) (text : List Char) : bytesOf (c :: text) = String.utf8EncodeChar c ++ bytesOf text :=
  List.flatMap_cons

theorem bytesOf_append (left right : List Char) : bytesOf (left ++ right) = bytesOf left ++ bytesOf right :=
  List.flatMap_append

theorem length_bytesOf (text : List Char) : (bytesOf text).length = String.utf8Len text := by
  induction text with
  | nil => rfl
  | cons c text ih =>
      rw [bytesOf_cons, List.length_append, ih, String.length_utf8EncodeChar, String.utf8Len_cons, Nat.add_comm]

theorem utf8Size_of_narrow (h : c.toNat < 128) : c.utf8Size = 1 := by
  rw [Char.utf8Size_eq_one_iff, UInt32.le_iff_toNat_le]
  exact Nat.le_of_lt_succ h

theorem one_lt_utf8Size (h : 128 ≤ c.toNat) : 1 < c.utf8Size := by
  have hne : c.utf8Size ≠ 1 := by
    rw [Ne, Char.utf8Size_eq_one_iff, UInt32.le_iff_toNat_le]
    exact Nat.not_le.mpr h
  have hpos := c.utf8Size_pos
  omega

theorem utf8EncodeChar_of_narrow (h : c.toNat < 128) : String.utf8EncodeChar c = [c.toUInt8] :=
  String.utf8EncodeChar_eq_singleton (utf8Size_of_narrow h)

theorem bytesOf_cons_of_narrow (h : c.toNat < 128) (text : List Char) :
    bytesOf (c :: text) = c.toUInt8 :: bytesOf text := by
  rw [bytesOf_cons, utf8EncodeChar_of_narrow h, List.singleton_append]

theorem ofUInt8_toUInt8 (h : c.toNat < 128) : Char.ofUInt8 c.toUInt8 = c := by
  apply Char.toNat_inj.mp
  show c.toNat % 256 = c.toNat
  omega

theorem toNat_ofUInt8 (byte : UInt8) : (Char.ofUInt8 byte).toNat = byte.toNat := rfl

theorem ofUInt8_injective : Function.Injective Char.ofUInt8 := by
  intro left right h
  apply UInt8.toNat_inj.mp
  rw [← toNat_ofUInt8, h, toNat_ofUInt8]

/-- All bytes of a character that takes more than one have their highest bit set. -/
theorem le_of_mem_utf8EncodeChar (h : 128 ≤ c.toNat) {byte : UInt8} (hbyte : byte ∈ String.utf8EncodeChar c) :
    128 ≤ byte.toNat := by
  have hc : ¬ c.val.toNat ≤ 127 := by
    have : c.toNat = c.val.toNat := rfl
    omega
  simp only [String.utf8EncodeChar, hc, if_false] at hbyte
  split_ifs at hbyte <;>
    simp only [List.mem_cons, List.not_mem_nil, or_false] at hbyte <;>
    rcases hbyte with rfl | rfl | rfl | rfl <;>
    simp only [UInt8.toNat_ofNat'] <;> omega

namespace Narrow

theorem of_le (h : Narrow test) (hc : 128 ≤ c.toNat) : test c = false := by
  by_contra hpasses
  have := h c (Bool.not_eq_false _ ▸ hpasses)
  omega

theorem of_eq (h : d.toNat < 128) : Narrow (· == d) := by
  intro c hc
  rwa [beq_iff_eq.mp hc]

theorem or {other : Char → Bool} (h : Narrow test) (hother : Narrow other) : Narrow fun c => test c || other c := by
  intro c hc
  rcases Bool.or_eq_true_iff.mp hc with htest | htest
  · exact h c htest
  · exact hother c htest

theorem contains {marks : List Char} (h : ∀ d ∈ marks, d.toNat < 128) : Narrow marks.contains :=
  fun c hc => h c (List.contains_iff_mem.mp hc)

theorem ofUInt8_of_mem (h : Narrow test) (hc : 128 ≤ c.toNat) {byte : UInt8} (hbyte : byte ∈ String.utf8EncodeChar c) :
    test (Char.ofUInt8 byte) = false :=
  h.of_le (toNat_ofUInt8 byte ▸ le_of_mem_utf8EncodeChar hc hbyte)

/-- On its first byte the test says what it says on the character. -/
theorem front_cons (h : Narrow test) (c : Char) (text : List Char) : test (front (c :: text)) = test c := by
  rcases Nat.lt_or_ge c.toNat 128 with hc | hc
  · rw [front, bytesOf_cons_of_narrow hc, List.getD_cons_zero, ofUInt8_toUInt8 hc]
  · obtain ⟨byte, others, hbytes⟩ := List.exists_cons_of_ne_nil (String.utf8EncodeChar_ne_nil (c := c))
    have hbyte : byte ∈ String.utf8EncodeChar c := hbytes ▸ List.mem_cons_self
    rw [front, bytesOf_cons, hbytes, List.cons_append, List.getD_cons_zero, h.ofUInt8_of_mem hc hbyte, h.of_le hc]

theorem front_eq_false (h : Narrow test) (hzero : test '\x00' = false) (hhead : ∀ c ∈ text.head?, test c = false) :
    test (front text) = false := by
  cases text with
  | nil => exact hzero
  | cons c text =>
      rw [h.front_cons]
      exact hhead c rfl

/-- The first byte that passes is the first character that passes. -/
theorem findIdx?_bytesOf (h : Narrow test) (text : List Char) :
    ((bytesOf text).findIdx? fun byte => test (Char.ofUInt8 byte)) =
      (text.dropWhile fun c => !test c).head?.map fun _ => String.utf8Len (text.takeWhile fun c => !test c) := by
  induction text with
  | nil => rfl
  | cons c text ih =>
      cases htest : test c with
      | true =>
          rw [bytesOf_cons_of_narrow (h c htest), List.findIdx?_cons, ofUInt8_toUInt8 (h c htest), htest, if_pos rfl,
            List.dropWhile_cons_of_neg (by simp [htest]), List.takeWhile_cons_of_neg (by simp [htest])]
          rfl
      | false =>
          -- no byte of a character that fails the test passes it: its one byte is the character, or all are high
          have hbytes : ((String.utf8EncodeChar c).findIdx? fun byte => test (Char.ofUInt8 byte)) = none := by
            rw [List.findIdx?_eq_none_iff]
            intro byte hbyte
            rcases Nat.lt_or_ge c.toNat 128 with hc | hc
            · rw [utf8EncodeChar_of_narrow hc, List.mem_singleton] at hbyte
              rw [hbyte, ofUInt8_toUInt8 hc, htest]
            · exact h.ofUInt8_of_mem hc hbyte
          rw [bytesOf_cons, List.findIdx?_append, hbytes, Option.none_or, ih, Option.map_map,
            List.dropWhile_cons_of_pos (by simp [htest]), List.takeWhile_cons_of_pos (by simp [htest]),
            String.utf8Len_cons, String.length_utf8EncodeChar]
          rfl

end Narrow

theorem front_nil : front [] = '\x00' := rfl

theorem front_of_narrow (h : c.toNat < 128) (text : List Char) : front (c :: text) = c := by
  rw [front, bytesOf_cons_of_narrow h, List.getD_cons_zero, ofUInt8_toUInt8 h]

theorem front_eq_iff (h : d.toNat < 128) : front (c :: text) = d ↔ c = d := by
  have hfront := (Narrow.of_eq h).front_cons c text
  rwa [Bool.eq_iff_iff, beq_iff_eq, beq_iff_eq] at hfront

theorem beq_toUInt8 (h : c.toNat < 128) (byte : UInt8) : (byte == c.toUInt8) = (Char.ofUInt8 byte == c) := by
  rw [Bool.eq_iff_iff, beq_iff_eq, beq_iff_eq]
  constructor
  · rintro rfl
    exact ofUInt8_toUInt8 h
  · intro hbyte
    exact ofUInt8_injective (hbyte.trans (ofUInt8_toUInt8 h).symm)

theorem beq_of_utf8EncodeChar {byte : UInt8} {others : List UInt8} (hbytes : String.utf8EncodeChar d = byte :: others)
    (h : c.toNat < 128) : (byte == c.toUInt8) = (d == c) := by
  have hfront := (Narrow.of_eq h).front_cons d []
  rw [front, bytesOf_cons, hbytes, List.cons_append, List.getD_cons_zero] at hfront
  rw [beq_toUInt8 h, hfront]

/-- A mark of narrow characters is at the front of a text just if its bytes are at the front of the bytes. -/
theorem isPrefixOf_bytesOf {mark : List Char} (h : ∀ c ∈ mark, c.toNat < 128) (text : List Char) :
    (mark.map Char.toUInt8).isPrefixOf (bytesOf text) = mark.isPrefixOf text := by
  induction mark generalizing text with
  | nil => rfl
  | cons c mark ih =>
      obtain ⟨hc, hmark⟩ := List.forall_mem_cons.mp h
      cases text with
      | nil => rfl
      | cons d text =>
          obtain ⟨byte, others, hbytes⟩ := List.exists_cons_of_ne_nil (String.utf8EncodeChar_ne_nil (c := d))
          have hfirst : (c.toUInt8 == byte) = (c == d) := by
            rw [BEq.comm, beq_of_utf8EncodeChar hbytes hc, BEq.comm]
          rw [bytesOf_cons, hbytes, List.cons_append, List.map_cons, List.isPrefixOf_cons_cons, hfirst,
            List.isPrefixOf_cons_cons]
          cases hcd : c == d with
          | false => rfl
          | true =>
              obtain rfl := beq_iff_eq.mp hcd
              obtain ⟨-, rfl⟩ := List.cons.inj (hbytes.symm.trans (utf8EncodeChar_of_narrow hc))
              rw [List.nil_append, ih hmark]

end Text

namespace Position

variable {byte : UInt8}

theorem stepByte_of_continuing (h : byte &&& 0xC0 = 0x80) (position : Position) :
    position.stepByte byte = position := by
  have hline : byte ≠ 0x0A := by
    rintro rfl
    exact absurd h (by decide)
  rw [stepByte, if_neg hline, if_neg (not_not.mpr h)]

theorem stepByte_of_first (h : byte.IsUTF8FirstByte) (hline : byte ≠ 0x0A) (position : Position) :
    position.stepByte byte = ⟨position.line, position.column + 1⟩ := by
  have hfirst : ∀ value < 256, (UInt8.ofNat value).IsUTF8FirstByte → UInt8.ofNat value &&& 0xC0 ≠ 0x80 := by
    decide +kernel -- one byte after the other
  have hbyte := hfirst byte.toNat byte.toNat_lt
  rw [UInt8.ofNat_toNat] at hbyte
  rw [stepByte, if_neg hline, if_pos (hbyte h)]

theorem foldl_stepByte_of_continuing {bytes : List UInt8} (h : ∀ byte ∈ bytes, byte &&& 0xC0 = 0x80)
    (position : Position) : bytes.foldl stepByte position = position := by
  induction bytes with
  | nil => rfl
  | cons byte bytes ih =>
      obtain ⟨hbyte, hbytes⟩ := List.forall_mem_cons.mp h
      rw [List.foldl_cons, stepByte_of_continuing hbyte, ih hbytes]

/-- Behind the first byte of a character only bytes follow that continue it. -/
theorem continuing_of_mem_tail {c : Char} (h : byte ∈ (String.utf8EncodeChar c).tail) : byte &&& 0xC0 = 0x80 := by
  have hcontinues : ∀ value < 64, UInt8.ofNat (value + 128) &&& 0xC0 = 0x80 := by decide
  have hlow (value : Nat) : UInt8.ofNat (value % 64 + 128) &&& 0xC0 = 0x80 := hcontinues _ (Nat.mod_lt _ (by decide))
  unfold String.utf8EncodeChar at h
  dsimp only at h
  split_ifs at h <;> simp only [List.tail_cons, List.mem_cons, List.not_mem_nil, or_false] at h
  · exact h ▸ hlow _
  · rcases h with rfl | rfl <;> exact hlow _
  · rcases h with rfl | rfl | rfl <;> exact hlow _

/-- The bytes of a character count as the character. -/
theorem foldl_stepByte_utf8EncodeChar (position : Position) (c : Char) :
    (String.utf8EncodeChar c).foldl stepByte position = position.step c := by
  obtain ⟨byte, others, hbytes⟩ := List.exists_cons_of_ne_nil (String.utf8EncodeChar_ne_nil (c := c))
  have hothers : ∀ other ∈ others, other &&& 0xC0 = 0x80 :=
    fun other hother => continuing_of_mem_tail (c := c) (by rwa [hbytes, List.tail_cons])
  have hfirst : byte.IsUTF8FirstByte := by
    have hzero := UInt8.isUTF8FirstByte_getElem_zero_utf8EncodeChar (c := c)
    simpa only [hbytes, List.getElem_cons_zero] using hzero
  have hline : byte = 0x0A ↔ c = '\n' := by
    have hfeed := Text.beq_of_utf8EncodeChar (c := '\n') hbytes (by decide)
    rw [Bool.eq_iff_iff, beq_iff_eq, beq_iff_eq] at hfeed
    exact hfeed
  rw [hbytes, List.foldl_cons, foldl_stepByte_of_continuing hothers]
  by_cases hc : c = '\n'
  · rw [stepByte, if_pos (hline.mpr hc), step, if_pos hc]
  · rw [stepByte_of_first hfirst (mt hline.mp hc), step, if_neg hc]

theorem foldl_stepByte_bytesOf (position : Position) (text : List Char) :
    (Text.bytesOf text).foldl stepByte position = position.past text := by
  induction text generalizing position with
  | nil => rfl
  | cons c text ih => rw [Text.bytesOf_cons, List.foldl_append, foldl_stepByte_utf8EncodeChar, ih, past_cons]

end Position

namespace ByteReader

/-- The place where a text begins that the source ends in. -/
def place (source : String) (rest : List Char) : Nat := source.utf8ByteSize - String.utf8Len rest

variable {source : String} {c : Char} {taken rest : List Char}

theorem bytes_eq (source : String) : bytes source = Text.bytesOf source.toList := by
  rw [bytes, String.toUTF8_eq_toByteArray, ← String.ofList_toList (s := source), String.toByteArray_ofList,
    List.utf8Encode, List.toList_data_toByteArray, String.toList_ofList]
  rfl

theorem length_bytes (source : String) : (bytes source).length = source.utf8ByteSize := by
  rw [bytes_eq, Text.length_bytesOf, String.utf8Len_toList]

theorem place_of_append {before : List Char} (h : before ++ rest = source.toList) :
    place source rest = String.utf8Len before := by
  have hlength := String.utf8Len_toList source
  rw [← h, String.utf8Len_append] at hlength
  rw [place]
  omega

theorem place_le (source : String) (rest : List Char) : place source rest ≤ source.utf8ByteSize := Nat.sub_le _ _

theorem place_toList (source : String) : place source source.toList = 0 := place_of_append (List.nil_append _)

theorem place_nil (source : String) : place source [] = source.utf8ByteSize := rfl

theorem place_append (h : taken ++ rest <:+ source.toList) :
    place source rest = place source (taken ++ rest) + String.utf8Len taken := by
  obtain ⟨before, hbefore⟩ := h
  have htaken : before ++ taken ++ rest = source.toList := by rw [List.append_assoc, hbefore]
  rw [place_of_append hbefore, place_of_append htaken, String.utf8Len_append]

theorem place_cons (h : c :: rest <:+ source.toList) : place source rest = place source (c :: rest) + c.utf8Size := by
  rw [← List.singleton_append] at h ⊢
  rw [place_append h, String.utf8Len_cons, String.utf8Len_nil, Nat.zero_add]

theorem drop_bytes (h : rest <:+ source.toList) : (bytes source).drop (place source rest) = Text.bytesOf rest := by
  obtain ⟨before, hbefore⟩ := h
  rw [bytes_eq, ← hbefore, Text.bytesOf_append, place_of_append hbefore, ← Text.length_bytesOf, List.drop_left]

theorem getElem?_bytes (h : rest <:+ source.toList) (ahead : Nat) :
    (bytes source)[place source rest + ahead]? = (Text.bytesOf rest)[ahead]? := by
  rw [← drop_bytes h, List.getElem?_drop]

theorem getD_bytes (h : rest <:+ source.toList) (ahead : Nat) :
    (bytes source).getD (place source rest + ahead) 0 = (Text.bytesOf rest).getD ahead 0 := by
  rw [List.getD_eq_getElem?_getD, List.getD_eq_getElem?_getD, getElem?_bytes h]

theorem onBoundary_place (h : rest <:+ source.toList) : OnBoundary source (place source rest) := by
  obtain ⟨before, hbefore⟩ := h
  rw [OnBoundary, String.Pos.Raw.isValid_eq_true_iff, String.Pos.Raw.isValid_iff_exists_append]
  refine ⟨String.ofList before, String.ofList rest, ?_, ?_⟩
  · rw [← String.ofList_append, hbefore, String.ofList_toList]
  · rw [place_of_append hbefore, String.rawEndPos_ofList]

/-- Within a character there is no boundary. -/
theorem not_onBoundary (h : c :: rest <:+ source.toList) {ahead : Nat} (hpos : 0 < ahead) (hlt : ahead < c.utf8Size) :
    ¬ OnBoundary source (place source (c :: rest) + ahead) := by
  rw [OnBoundary, String.Pos.Raw.isValid_eq_true_iff, String.Pos.Raw.isValid_iff_isUTF8FirstByte]
  have hplace := place_le source rest
  rw [place_cons h] at hplace
  rw [← String.length_utf8EncodeChar] at hlt
  have hbyte : (bytes source)[place source (c :: rest) + ahead]? = some (String.utf8EncodeChar c)[ahead] := by
    rw [getElem?_bytes h, Text.bytesOf_cons, List.getElem?_append_left hlt, List.getElem?_eq_getElem hlt]
  rintro (hend | ⟨hinside, hfirst⟩)
  · have hcursor : place source (c :: rest) + ahead = source.utf8ByteSize := congrArg String.Pos.Raw.byteIdx hend
    rw [String.length_utf8EncodeChar] at hlt
    omega
  · have hread : source.getUTF8Byte ⟨place source (c :: rest) + ahead⟩ hinside = (String.utf8EncodeChar c)[ahead] := by
      obtain ⟨hlt, hget⟩ := List.getElem?_eq_some_iff.mp hbyte
      exact hget
    rw [hread, UInt8.isUTF8FirstByte_getElem_utf8EncodeChar] at hfirst
    omega

theorem get?_place (h : rest <:+ source.toList) : String.Pos.Raw.get? source ⟨place source rest⟩ = rest.head? := by
  obtain ⟨before, hbefore⟩ := h
  have hget := String.get?_of_valid before rest
  rwa [hbefore, String.ofList_toList, ← place_of_append hbefore] at hget

theorem extract_place (h : taken ++ rest <:+ source.toList) :
    String.Pos.Raw.extract source ⟨place source (taken ++ rest)⟩ ⟨place source rest⟩ = String.ofList taken := by
  obtain ⟨before, hbefore⟩ := h
  have hextract := String.extract_of_valid before taken rest
  rwa [List.append_assoc, hbefore, String.ofList_toList, ← place_of_append hbefore, ← place_append ⟨before, hbefore⟩]
    at hextract

end ByteReader

end Questionnaire
