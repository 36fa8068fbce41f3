import Questionnaire.Token.Scan

/-! The stream of tokens of a source. A lexer holds what is left of the source, the position it has counted to
and its mode. Every step passes the blanks and remarks of the mode and takes one token; asked as a stream, it
ends with the end of input or with the first fault. -/

namespace Questionnaire

/-- What is left of a source, and the position counted so far. -/
structure Cursor where
  rest : List Char
  position : Position
deriving DecidableEq, Inhabited, Repr

namespace Cursor

def skipWhile (blank : Char → Bool) (cursor : Cursor) : Cursor :=
  ⟨cursor.rest.dropWhile blank, cursor.position.past (cursor.rest.takeWhile blank)⟩

theorem skipWhile_length_le (blank : Char → Bool) (cursor : Cursor) :
    (cursor.skipWhile blank).rest.length ≤ cursor.rest.length :=
  (List.dropWhile_sublist _).length_le

/-- The text from the end of the line on. -/
def lineEnd (text : List Char) : List Char := text.dropWhile fun c => c != '\n'

theorem lineEnd_length_lt {text : List Char} (h : Lexeme.startsRemark text = true) :
    (lineEnd text).length < text.length := by
  unfold Lexeme.startsRemark at h
  split at h
  next rest =>
    have := (List.dropWhile_sublist (l := rest) fun c => c != '\n').length_le
    simp [lineEnd, List.dropWhile]
    omega
  next => cases h

/-- Passes a remark up to the end of its line. One that the source ends in is left without being counted. -/
def passRemark (cursor : Cursor) : Cursor :=
  let after := lineEnd cursor.rest
  if after.isEmpty then ⟨[], cursor.position⟩
  else ⟨after, cursor.position.past (cursor.rest.takeWhile fun c => c != '\n')⟩

theorem passRemark_length_lt {cursor : Cursor} (h : Lexeme.startsRemark cursor.rest = true) :
    cursor.passRemark.rest.length < cursor.rest.length := by
  have := lineEnd_length_lt h
  unfold passRemark
  dsimp only
  split
  · simp only [List.length_nil]
    omega
  · exact this

/-- Passes spaces and remarks. -/
def skipRemarks (cursor : Cursor) : Cursor :=
  if _remark : Lexeme.startsRemark (cursor.skipWhile Text.isSpace).rest = true then
    skipRemarks (cursor.skipWhile Text.isSpace).passRemark
  else cursor.skipWhile Text.isSpace
termination_by cursor.rest.length
decreasing_by
  have := cursor.skipWhile_length_le Text.isSpace
  have := passRemark_length_lt _remark
  omega

theorem skipRemarks_length_le (cursor : Cursor) : cursor.skipRemarks.rest.length ≤ cursor.rest.length := by
  fun_induction skipRemarks cursor with
  | case1 cursor h ih =>
    have := cursor.skipWhile_length_le Text.isSpace
    have := passRemark_length_lt h
    omega
  | case2 cursor => exact cursor.skipWhile_length_le Text.isSpace

end Cursor

/-- Passes what may stand before a token of the mode. -/
def Mode.skip (mode : Mode) (cursor : Cursor) : Cursor :=
  match mode with
  | .text => cursor.skipWhile Text.isBlank
  | .questionAttributes => cursor.skipWhile Text.isSpace
  | .optionAttributes => cursor.skipWhile Text.isSpace
  | .embedded _ => cursor.skipRemarks
  | .logic => cursor.skipRemarks

theorem Mode.skip_length_le (mode : Mode) (cursor : Cursor) :
    (mode.skip cursor).rest.length ≤ cursor.rest.length := by
  cases mode
  · exact cursor.skipWhile_length_le _
  · exact cursor.skipWhile_length_le _
  · exact cursor.skipWhile_length_le _
  · exact cursor.skipRemarks_length_le
  · exact cursor.skipRemarks_length_le

/-- What a supplier of tokens yields. -/
abbrev Item := Except Diagnostic Token

/-- Whether the stream ends with the item: the end of input and every fault come last. -/
def Item.isLast : Item → Bool
  | .ok token => token.kind == .endOfInput
  | .error _ => true

/-- The item that a scan from the position answers. -/
def Scan.item (scan : Scan) (position : Position) : Item :=
  match scan.outcome with
  | .ok (kind, text) => .ok ⟨kind, text, position⟩
  | .error fault => .error ⟨fault, position⟩

theorem Scan.Fits.rest_length_lt {scan : Scan} {text : List Char} (fits : scan.Fits text) (position : Position)
    (h : Item.isLast (scan.item position) = false) : scan.rest.length < text.length := by
  rw [← fits.append, List.length_append]
  cases houtcome : scan.outcome with
  | error fault => simp [Scan.item, houtcome, Item.isLast] at h
  | ok token =>
    have := List.length_pos_iff.mpr (fits.advances token.1 token.2 houtcome (by
      simpa [Scan.item, houtcome, Item.isLast] using h))
    omega

structure Lexer where
  cursor : Cursor
  mode : Mode
  done : Bool
deriving DecidableEq, Inhabited, Repr

namespace Lexer

def ofSource (source : String) : Lexer := ⟨⟨source.toList, .origin⟩, .text, false⟩

/-- One token from where the lexer stands, whatever came before. A token and a fault carry the position of the
first character of their lexeme. -/
def next (lexer : Lexer) : Item × Lexer :=
  let start := lexer.mode.skip lexer.cursor
  let scan := lexer.mode.scan start.rest
  (scan.item start.position, { lexer with cursor := ⟨scan.rest, start.position.past scan.taken⟩, mode := scan.mode })

/-- The next item of the stream, none once it has ended. -/
def pull (lexer : Lexer) : Option Item × Lexer :=
  if lexer.done then (none, lexer)
  else
    let (item, after) := lexer.next
    (some item, { after with done := Item.isLast item })

/-- A bound on the items still to come. -/
def pending (lexer : Lexer) : Nat := if lexer.done then 0 else lexer.cursor.rest.length + 1

theorem next_length_lt {lexer : Lexer} (h : Item.isLast lexer.next.1 = false) :
    lexer.next.2.cursor.rest.length < lexer.cursor.rest.length := by
  have fits := Scan.fits_scan lexer.mode (lexer.mode.skip lexer.cursor).rest
  have := fits.rest_length_lt (lexer.mode.skip lexer.cursor).position h
  have := lexer.mode.skip_length_le lexer.cursor
  simp only [next]
  omega

theorem pending_pull_lt {lexer after : Lexer} {item : Item} (h : lexer.pull = (some item, after)) :
    after.pending < lexer.pending := by
  unfold pull at h
  split at h
  · simp at h
  next hdone =>
    simp only [Prod.mk.injEq, Option.some.injEq] at h
    obtain ⟨rfl, rfl⟩ := h
    cases hlast : Item.isLast lexer.next.1 with
    | true => simp [pending, hdone]
    | false =>
      have := next_length_lt hlast
      simp [pending, hdone]
      omega

/-- The items of the stream, each with the lexer after it. -/
def run (lexer : Lexer) : List (Item × Lexer) :=
  match _pulled : lexer.pull with
  | (none, _) => []
  | (some item, after) => (item, after) :: run after
termination_by lexer.pending
decreasing_by exact pending_pull_lt _pulled

def items (lexer : Lexer) : List Item := lexer.run.map Prod.fst

/-- The lexer when its stream has ended. -/
def finished (lexer : Lexer) : Lexer := (lexer.run.getLast?.map Prod.snd).getD lexer

/-- The given number of steps, past faults and the end of input too, each with the lexer after it. -/
def steps (lexer : Lexer) : Nat → List (Item × Lexer)
  | 0 => []
  | count + 1 => let step := lexer.next; step :: steps step.2 count

end Lexer

/-- The items that the stream of a source yields. -/
def itemsOf (source : String) : List Item := (Lexer.ofSource source).items

/-- The tokens of a source, the end of input included, or its first fault. -/
def tokenize (source : String) : Except Diagnostic (List Token) := (itemsOf source).mapM id

end Questionnaire
