import Questionnaire.Proofs.Text.Encoding
import Questionnaire.Proofs.Token.LongestMatch
import Questionnaire.Proofs.Token.TextRuns

/-! The reader of bytes where a character begins. A reader that stands before a text that the source ends in, as a
cursor does, takes the characters of the text when it takes their bytes, and stands before what is left then. No move
that it makes there is one that the source does not allow, so that each of its actions is told by what it answers and
by where the reader stands afterwards. -/

namespace Questionnaire.ByteReader

variable {α β σ : Type} {source : String} {text rest taken : List Char} {c : Char} {position : Position}
  {mode : Mode}

/-- The reader that has come as far as a cursor. -/
def standing (source : String) (cursor : Cursor) (mode : Mode) : ByteReader :=
  ⟨place source cursor.rest, cursor.position, mode⟩

@[simp] theorem standing_cursor (source : String) (cursor : Cursor) (mode : Mode) :
    (standing source cursor mode).cursor = place source cursor.rest := rfl

@[simp] theorem standing_position (source : String) (cursor : Cursor) (mode : Mode) :
    (standing source cursor mode).position = cursor.position := rfl

@[simp] theorem standing_mode (source : String) (cursor : Cursor) (mode : Mode) :
    (standing source cursor mode).mode = mode := rfl

theorem bind_of_ok {action : Action α} {continuation : α → Action β} {reader after : ByteReader} {value : α}
    (h : action reader = .ok (value, after)) : (action >>= continuation) reader = continuation value after := by
  show (action reader >>= fun (value, after) => continuation value after) = _
  rw [h]
  rfl

theorem map_of_ok {action : Action α} {change : α → β} {reader after : ByteReader} {value : α}
    (h : action reader = .ok (value, after)) : (change <$> action) reader = .ok (change value, after) := by
  show (action reader >>= fun (value, after) => pure (change value, after)) = _
  rw [h]
  rfl

theorem get_bind (continuation : ByteReader → Action β) (reader : ByteReader) :
    ((get : Action ByteReader) >>= continuation) reader = continuation reader reader := rfl

theorem modify_bind (change : ByteReader → ByteReader) (continuation : PUnit → Action β) (reader : ByteReader) :
    ((modify change : Action PUnit) >>= continuation) reader = continuation () (change reader) := rfl

/-- A reader gets past a move just if the source allows it. -/
theorem weigh_eq_ok_iff (move : Move) (reader : ByteReader) :
    weigh source move reader = .ok ((), reader) ↔ move.Allowed source := by
  rw [weigh]
  split_ifs with hallowed
  · exact iff_of_true rfl hallowed
  · exact iff_of_false (fun h => nomatch h) hallowed

/-- A cut through a character is not made. -/
example : (textBetween "é" 0 1).run ofSource = .error (.cutText 0 1) := by decide

theorem weigh_of_allowed {move : Move} (h : move.Allowed source) (reader : ByteReader) :
    weigh source move reader = .ok ((), reader) := (weigh_eq_ok_iff move reader).mpr h

section Loops

variable {round : σ → Action (σ ⊕ α)} {state after : σ} {reader other : ByteReader} {outcome : α}

theorem rounds_of_inr (h : round state reader = .ok (.inr outcome, other)) :
    rounds source round state reader = .ok (outcome, other) := by
  rw [rounds, h]

theorem rounds_of_inl (h : round state reader = .ok (.inl after, other))
    (honward : (Move.goRound reader.cursor other.cursor).Allowed source) :
    rounds source round state reader = rounds source round after other := by
  rw [rounds, h]
  exact dif_pos honward

end Loops

theorem lt_of_getElem? {index : Nat} {byte : UInt8} (h : (bytes source)[index]? = some byte) :
    index < source.utf8ByteSize := by
  rw [← length_bytes]
  exact (List.getElem?_eq_some_iff.mp h).1

theorem byteAt_of_getElem? {index : Nat} {byte : UInt8} (h : (bytes source)[index]? = some byte)
    (reader : ByteReader) : byteAt source index reader = .ok (byte, reader) := by
  have hallowed : (Move.readByte index).Allowed source := lt_of_getElem? h
  rw [byteAt, bind_of_ok (weigh_of_allowed hallowed reader), List.getD_eq_getElem?_getD, h]
  rfl

theorem moveTo_of_le {index : Nat} (h : index ≤ source.utf8ByteSize) (reader : ByteReader) :
    moveTo source index reader = .ok ((), { reader with cursor := index }) := by
  have hallowed : (Move.setCursor index).Allowed source := h
  rw [moveTo, bind_of_ok (weigh_of_allowed hallowed reader)]
  rfl

theorem advance_of_getElem? {reader : ByteReader} {byte : UInt8} (h : (bytes source)[reader.cursor]? = some byte) :
    advance source reader = .ok (byte, ⟨reader.cursor + 1, reader.position.stepByte byte, reader.mode⟩) := by
  have hnext : reader.cursor + 1 ≤ source.utf8ByteSize := lt_of_getElem? h
  rw [advance, get_bind, bind_of_ok (byteAt_of_getElem? h reader), bind_of_ok (moveTo_of_le hnext reader)]
  rfl

/-- As many bytes are taken as stand there. -/
theorem bump_of_prefix (reader : ByteReader) {ahead : List UInt8}
    (h : ahead <+: (bytes source).drop reader.cursor) :
    bump source ahead.length reader =
      .ok ((), ⟨reader.cursor + ahead.length, ahead.foldl Position.stepByte reader.position, reader.mode⟩) := by
  induction ahead generalizing reader with
  | nil => rfl
  | cons byte ahead ih =>
      obtain ⟨more, hmore⟩ := h
      have hbyte : (bytes source)[reader.cursor]? = some byte := by
        rw [← List.head?_drop, ← hmore]
        rfl
      have hahead : ahead <+: (bytes source).drop (reader.cursor + 1) := by
        rw [← List.drop_drop, ← hmore]
        exact ⟨more, rfl⟩
      rw [List.length_cons, bump, bind_of_ok (advance_of_getElem? hbyte), ih _ hahead, Nat.add_right_comm,
        Nat.add_assoc]
      rfl

theorem bump_standing (htext : taken ++ rest = text) (h : text <:+ source.toList) :
    bump source (String.utf8Len taken) (standing source ⟨text, position⟩ mode) =
      .ok ((), standing source ⟨rest, position.past taken⟩ mode) := by
  subst htext
  -- as many bytes are taken as the characters have, and they are the bytes that stand there
  have hahead : Text.bytesOf taken <+: (bytes source).drop (place source (taken ++ rest)) := by
    rw [drop_bytes h, Text.bytesOf_append]
    exact List.prefix_append _ _
  rw [← Text.length_bytesOf, bump_of_prefix _ hahead, Position.foldl_stepByte_bytesOf, Text.length_bytesOf]
  simp only [standing, place_append h]

theorem bump_cons (h : c :: rest <:+ source.toList) :
    bump source c.utf8Size (standing source ⟨c :: rest, position⟩ mode) =
      .ok ((), standing source ⟨rest, position.step c⟩ mode) := by
  have hlength : String.utf8Len [c] = c.utf8Size := by rw [String.utf8Len_cons, String.utf8Len_nil, Nat.zero_add]
  rw [← hlength]
  exact bump_standing List.singleton_append h

theorem advance_standing (hc : c.toNat < 128) (h : c :: rest <:+ source.toList) :
    advance source (standing source ⟨c :: rest, position⟩ mode) =
      .ok (c.toUInt8, standing source ⟨rest, position.step c⟩ mode) := by
  have hbyte : (bytes source)[place source (c :: rest)]? = some c.toUInt8 := by
    have hahead := getElem?_bytes h 0
    rwa [Text.bytesOf_cons_of_narrow hc] at hahead
  have hstep := Position.foldl_stepByte_utf8EncodeChar position c
  rw [Text.utf8EncodeChar_of_narrow hc] at hstep
  rw [advance_of_getElem? hbyte, standing, standing, place_cons h, Text.utf8Size_of_narrow hc, ← hstep]
  rfl

theorem peek_standing (h : rest <:+ source.toList) (ahead : Nat) :
    peek source ahead (standing source ⟨rest, position⟩ mode) =
      .ok (Char.ofUInt8 ((Text.bytesOf rest).getD ahead 0), standing source ⟨rest, position⟩ mode) := by
  rw [← getD_bytes h]
  rfl

theorem atEnd_standing (h : rest <:+ source.toList) :
    atEnd source (standing source ⟨rest, position⟩ mode) =
      .ok (rest.isEmpty, standing source ⟨rest, position⟩ mode) := by
  have hend : decide (source.utf8ByteSize ≤ place source rest) = rest.isEmpty := by
    have hplace : place source [] = place source (rest ++ []) + _ := place_append (by rwa [List.append_nil])
    rw [place_nil, List.append_nil] at hplace
    rw [Bool.eq_iff_iff, decide_eq_true_iff, List.isEmpty_iff, ← String.utf8Len_eq_zero]
    omega
  rw [← hend]
  rfl

theorem character?_standing (h : rest <:+ source.toList) :
    character? source (standing source ⟨rest, position⟩ mode) =
      .ok (rest.head?, standing source ⟨rest, position⟩ mode) := by
  rw [← get?_place h]
  rfl

theorem advanceCharacter_standing (h : rest <:+ source.toList) :
    advanceCharacter source (standing source ⟨rest, position⟩ mode) =
      .ok (rest.head?, standing source ⟨rest.tail, position.past rest.head?.toList⟩ mode) := by
  rw [advanceCharacter, bind_of_ok (character?_standing h)]
  cases rest with
  | nil => rfl
  | cons c rest => exact bind_of_ok (bump_cons h)

theorem cutText_allowed (htext : taken ++ rest = text) (h : text <:+ source.toList) :
    (Move.cutText (place source text) (place source rest)).Allowed source := by
  subst htext
  refine ⟨?_, place_le _ _, onBoundary_place h, onBoundary_place ((List.suffix_append taken rest).trans h)⟩
  rw [place_append h]
  exact Nat.le_add_right _ _

theorem textBetween_standing (htext : taken ++ rest = text) (h : text <:+ source.toList) (reader : ByteReader) :
    textBetween source (place source text) (place source rest) reader = .ok (String.ofList taken, reader) := by
  rw [textBetween, bind_of_ok (weigh_of_allowed (cutText_allowed htext h) reader)]
  subst htext
  rw [extract_place h]
  rfl

theorem bytesFrom_standing (h : rest <:+ source.toList) (reader : ByteReader) :
    bytesFrom source (place source rest) reader = .ok (Text.bytesOf rest, reader) := by
  have hallowed : (Move.takeBytes (place source rest)).Allowed source := place_le source rest
  rw [bytesFrom, bind_of_ok (weigh_of_allowed hallowed reader), drop_bytes h]
  rfl

theorem startsWith_standing {mark : List Char} (hmark : ∀ c ∈ mark, c.toNat < 128) (h : rest <:+ source.toList) :
    startsWith source mark (standing source ⟨rest, position⟩ mode) =
      .ok (mark.isPrefixOf rest, standing source ⟨rest, position⟩ mode) := by
  rw [← Text.isPrefixOf_bytesOf hmark, startsWith, get_bind]
  exact bind_of_ok (bytesFrom_standing h _)

/-- A round that takes something leads on. -/
theorem rounds_standing {round : σ → Action (σ ⊕ α)} {state after : σ} {other : Position}
    (htext : taken ++ rest = text) (hne : taken ≠ []) (h : text <:+ source.toList)
    (hround : round state (standing source ⟨text, position⟩ mode) =
      .ok (.inl after, standing source ⟨rest, other⟩ mode)) :
    rounds source round state (standing source ⟨text, position⟩ mode) =
      rounds source round after (standing source ⟨rest, other⟩ mode) := by
  subst htext
  refine rounds_of_inl hround ⟨?_, place_le _ _⟩
  have hpos : 0 < String.utf8Len taken := Nat.pos_of_ne_zero (mt String.utf8Len_eq_zero.mp hne)
  show place source (taken ++ rest) < place source rest
  rw [place_append h]
  omega

theorem rounds_cons {round : σ → Action (σ ⊕ α)} {state after : σ} {other : Position}
    (h : c :: rest <:+ source.toList)
    (hround : round state (standing source ⟨c :: rest, position⟩ mode) =
      .ok (.inl after, standing source ⟨rest, other⟩ mode)) :
    rounds source round state (standing source ⟨c :: rest, position⟩ mode) =
      rounds source round after (standing source ⟨rest, other⟩ mode) :=
  rounds_standing List.singleton_append (List.cons_ne_nil _ _) h hround

/-- A loop whose rounds pass the characters of a test comes to the first one that fails it. -/
theorem rounds_dropWhile {round : σ → Action (σ ⊕ α)} {state : σ} {outcome : α} {test : Char → Bool}
    (hpass : ∀ c rest position, c :: rest <:+ source.toList → test c = true →
      round state (standing source ⟨c :: rest, position⟩ mode) =
        .ok (.inl state, standing source ⟨rest, position.step c⟩ mode))
    (hstop : ∀ rest position, rest <:+ source.toList → (∀ c ∈ rest.head?, test c = false) →
      round state (standing source ⟨rest, position⟩ mode) =
        .ok (.inr outcome, standing source ⟨rest, position⟩ mode))
    (h : rest <:+ source.toList) :
    rounds source round state (standing source ⟨rest, position⟩ mode) =
      .ok (outcome, standing source ⟨rest.dropWhile test, position.past (rest.takeWhile test)⟩ mode) := by
  induction rest generalizing position with
  | nil => exact rounds_of_inr (hstop [] position h fun _ hc => nomatch hc)
  | cons c rest ih =>
      cases htest : test c with
      | true =>
          rw [rounds_cons h (hpass c rest position h htest), ih ((List.suffix_cons c rest).trans h),
            List.dropWhile_cons_of_pos htest, List.takeWhile_cons_of_pos htest, Position.past_cons]
      | false =>
          have hneg : ¬ test c = true := Bool.eq_false_iff.mp htest
          have hhead : ∀ d ∈ (c :: rest).head?, test d = false := fun d hd => Option.some.inj hd ▸ htest
          rw [List.dropWhile_cons_of_neg hneg, List.takeWhile_cons_of_neg hneg]
          exact rounds_of_inr (hstop _ position h hhead)

end Questionnaire.ByteReader
