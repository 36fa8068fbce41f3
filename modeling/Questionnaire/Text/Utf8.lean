/-! Reading bytes as UTF-8. Text that is no UTF-8 is refused at the first sequence that no continuation
can mend, and one that only breaks off is told apart from one that is wrong. -/

namespace Questionnaire.Text.Utf8

/-- Where the bytes stop being UTF-8, and how many bytes are wrong; none when they only end too early. -/
structure Break where
  index : Nat
  length : Option Nat
deriving DecidableEq, Repr

def Break.message (stop : Break) : String :=
  match stop.length with
  | some length => s!"invalid utf-8 sequence of {length} bytes from index {stop.index}"
  | none => s!"incomplete utf-8 byte sequence from index {stop.index}"

/-- The bytes that may follow a lead byte of a sequence of two or more, with the length of the sequence. -/
def follows (lead : Nat) : Option (Nat × Nat × Nat) :=
  if 0xC2 ≤ lead ∧ lead ≤ 0xDF then some (2, 0x80, 0xBF)
  else if lead = 0xE0 then some (3, 0xA0, 0xBF)
  else if lead = 0xED then some (3, 0x80, 0x9F)
  else if 0xE1 ≤ lead ∧ lead ≤ 0xEF then some (3, 0x80, 0xBF)
  else if lead = 0xF0 then some (4, 0x90, 0xBF)
  else if lead = 0xF4 then some (4, 0x80, 0x8F)
  else if 0xF1 ≤ lead ∧ lead ≤ 0xF3 then some (4, 0x80, 0xBF)
  else none

def isTail (byte : Nat) : Bool := decide (0x80 ≤ byte) && decide (byte ≤ 0xBF)

/-- The six low bits of each byte after the first, below the bits the lead byte holds. -/
def codePoint (lead : Nat) (tail : List Nat) : Nat :=
  tail.foldl (fun value byte => value * 64 + byte % 64)
    (match tail.length with
    | 0 => lead
    | 1 => lead % 32
    | 2 => lead % 16
    | _ => lead % 8)

/-- The character that starts the bytes, with the number of bytes it takes, or how it breaks. -/
def character (lead : Nat) (rest : List Nat) : Except (Option Nat) (Char × Nat) :=
  if lead < 0x80 then .ok (Char.ofNat lead, 1)
  else match follows lead with
    | none => .error (some 1)
    | some (length, low, high) =>
      match rest with
      | [] => .error none
      | second :: rest =>
        if ¬(low ≤ second ∧ second ≤ high) then .error (some 1)
        else if length = 2 then .ok (Char.ofNat (codePoint lead [second]), 2)
        else match rest with
          | [] => .error none
          | third :: rest =>
            if ¬isTail third then .error (some 2)
            else if length = 3 then .ok (Char.ofNat (codePoint lead [second, third]), 3)
            else match rest with
              | [] => .error none
              | fourth :: _ =>
                if ¬isTail fourth then .error (some 3)
                else .ok (Char.ofNat (codePoint lead [second, third, fourth]), 4)

/-- The characters of the bytes, the first of which stands at the index. -/
def charactersFrom (index : Nat) : List Nat → Except Break (List Char)
  | [] => .ok []
  | lead :: rest =>
    match character lead rest with
    | .error length => .error ⟨index, length⟩
    | .ok (c, width) =>
      match charactersFrom (index + width) (rest.drop (width - 1)) with
      | .error stop => .error stop
      | .ok text => .ok (c :: text)
termination_by bytes => bytes.length
decreasing_by simp only [List.length_cons, List.length_drop]; omega

def decode (bytes : List Nat) : Except Break String := (charactersFrom 0 bytes).map String.ofList

end Questionnaire.Text.Utf8
