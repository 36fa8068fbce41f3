import Questionnaire.Proofs.Text.Quoted

/-! Prefix forms as text. A form is a word, a quoted text, brackets around a word and further forms, or braces around
forms. The main statement is unique readability: where the words hold neither blanks, brackets nor quotes, a text that
begins with one form begins with no other one. -/

namespace Questionnaire

inductive Form where
  | word (text : String)
  | quoted (text : String)
  | list (head : String) (items : List Form)
  | block (items : List Form)

namespace Form

mutual

def text : Form → List Char
  | word text => text.toList
  | quoted text => (Text.quoted text).toList
  | list head items => '(' :: (head.toList ++ (textAfter items ++ [')']))
  | block items => '{' :: (textWithin items ++ ['}'])

/-- The forms with a space between any two. -/
def textWithin : List Form → List Char
  | [] => []
  | item :: items => item.text ++ textAfter items

/-- Each of the forms after a space. -/
def textAfter : List Form → List Char
  | [] => []
  | item :: items => ' ' :: (item.text ++ textAfter items)

end

/-- The characters that show where a form begins or ends. -/
def isBoundary (c : Char) : Bool := [' ', '(', ')', '{', '}', '"'].contains c

/-- What may stand as a word. -/
structure IsAtom (text : String) : Prop where
  ne : text.toList ≠ []
  inner : ∀ c ∈ text.toList, isBoundary c = false

/-- All words of the form may stand as such. -/
inductive Proper : Form → Prop where
  | word {text : String} (h : IsAtom text) : Proper (.word text)
  | quoted {text : String} : Proper (.quoted text)
  | list {head : String} {items : List Form} (h : IsAtom head) (hitems : ∀ item ∈ items, Proper item) :
      Proper (.list head items)
  | block {items : List Form} (hitems : ∀ item ∈ items, Proper item) : Proper (.block items)

/-- Nothing more of a word follows. -/
def Ends (rest : List Char) : Prop := ∀ c ∈ rest.head?, isBoundary c = true

/-- No further form follows. -/
def Closes (rest : List Char) : Prop := ∃ c ∈ rest.head?, c = ')' ∨ c = '}'

/-- The character that a form opens with, unless it is a word. -/
def opener? : Form → Option Char
  | word _ => none
  | quoted _ => some '"'
  | list .. => some '('
  | block _ => some '{'

variable {form other : Form} {items others : List Form} {front rest : List Char}

theorem Closes.ends (h : Closes rest) : Ends rest := by
  obtain ⟨c, hhead, hc⟩ := h
  intro d hd
  obtain rfl : c = d := Option.some.inj (hhead.symm.trans hd)
  rcases hc with rfl | rfl <;> rfl

theorem ends_textAfter (items : List Form) (h : Closes rest) : Ends (textAfter items ++ rest) := by
  cases items with
  | nil => exact h.ends
  | cons => rintro c ⟨⟩; rfl

/-- The front of a text tells what a form opens with. -/
theorem Proper.opener?_eq (h : form.Proper) (rest : List Char) :
    ∃ c ∈ (form.text ++ rest).head?, form.opener? = if isBoundary c then some c else none := by
  cases h with
  | @word word hatom =>
      obtain ⟨c, more, hcons⟩ := List.exists_cons_of_ne_nil hatom.ne
      refine ⟨c, by rw [text, hcons]; rfl, ?_⟩
      rw [hatom.inner c (hcons ▸ List.mem_cons_self)]
      rfl
  | quoted => exact ⟨'"', by rw [text, Text.toList_quoted]; rfl, rfl⟩
  | list => exact ⟨'(', rfl, rfl⟩
  | block => exact ⟨'{', rfl, rfl⟩

theorem opener?_unique (hform : form.Proper) (hother : other.Proper)
    (h : form.text ++ front = other.text ++ rest) : form.opener? = other.opener? := by
  obtain ⟨c, hc, hopener⟩ := hform.opener?_eq front
  obtain ⟨d, hd, hsame⟩ := hother.opener?_eq rest
  rw [h] at hc
  obtain rfl : c = d := Option.some.inj (hc.symm.trans hd)
  rw [hopener, hsame]

/-- No form begins with what ends the forms before it. -/
theorem Proper.not_closes (h : form.Proper) (rest : List Char) : ¬ Closes (form.text ++ rest) := by
  rintro ⟨d, hd, hclosing⟩
  obtain ⟨c, hc, hopener⟩ := h.opener?_eq rest
  obtain rfl : c = d := Option.some.inj (hc.symm.trans hd)
  rcases hclosing with rfl | rfl <;> cases form <;> simp [opener?, isBoundary] at hopener

theorem not_closes_textAfter : ¬ Closes (textAfter (form :: items) ++ rest) := by
  rintro ⟨c, hc, hclosing⟩
  obtain rfl : ' ' = c := Option.some.inj hc
  exact absurd hclosing (by decide)

/-- Between braces, the forms are told apart as those after spaces are. -/
theorem textAfter_of_textWithin (hitems : ∀ item ∈ items, item.Proper) (hothers : ∀ other ∈ others, other.Proper)
    (hfront : Closes front) (hrest : Closes rest) (h : textWithin items ++ front = textWithin others ++ rest) :
    textAfter items ++ front = textAfter others ++ rest := by
  have hproper {item : Form} {items : List Form} {rest : List Char} (hitem : item.Proper) :
      ¬ Closes (textWithin (item :: items) ++ rest) := by
    rw [textWithin, List.append_assoc]
    exact hitem.not_closes _
  cases items with
  | nil =>
      cases others with
      | nil => exact h
      | cons other others =>
          have hsame : front = textWithin (other :: others) ++ rest := h
          exact absurd (hsame ▸ hfront) (hproper (hothers other List.mem_cons_self))
  | cons item items =>
      cases others with
      | nil =>
          have hsame : textWithin (item :: items) ++ front = rest := h
          exact absurd (hsame ▸ hrest) (hproper (hitems item List.mem_cons_self))
      | cons other others => exact congrArg (List.cons ' ') h

theorem atom_unique {left right : String} (hleft : IsAtom left) (hright : IsAtom right) (hfront : Ends front)
    (hrest : Ends rest) (h : left.toList ++ front = right.toList ++ rest) : left = right ∧ front = rest := by
  have hpart {word : String} (hword : IsAtom word) : ∀ c ∈ word.toList, (!isBoundary c) = true :=
    fun c hc => by rw [hword.inner c hc, Bool.not_false]
  have hstop {rest : List Char} (hrest : Ends rest) : ∀ c ∈ rest.head?, (!isBoundary c) = false :=
    fun c hc => by rw [hrest c hc, Bool.not_true]
  obtain ⟨hsame, hmore⟩ := Text.append_unique (hpart hleft) (hpart hright) (hstop hfront) (hstop hrest) h
  exact ⟨String.toList_inj.mp hsame, hmore⟩

mutual

theorem text_unique (form : Form) {other : Form} {front rest : List Char} (hform : form.Proper) (hother : other.Proper)
    (hfront : Ends front) (hrest : Ends rest) (h : form.text ++ front = other.text ++ rest) :
    form = other ∧ front = rest := by
  have hopener := opener?_unique hform hother h
  cases form with
  | word left =>
      cases other with
      | word right =>
          cases hform with
          | word hleft =>
              cases hother with
              | word hright =>
                  obtain ⟨rfl, hsame⟩ := atom_unique hleft hright hfront hrest h
                  exact ⟨rfl, hsame⟩
      | _ => cases hopener
  | quoted left =>
      cases other with
      | quoted right =>
          obtain ⟨rfl, hsame⟩ := Text.quoted_unique h
          exact ⟨rfl, hsame⟩
      | _ => simp [opener?] at hopener
  | list head items =>
      cases other with
      | list otherHead others =>
          cases hform with
          | list hhead hitems =>
              cases hother with
              | list hotherHead hothers =>
                  have hclose (rest : List Char) : Closes (')' :: rest) := ⟨')', rfl, .inl rfl⟩
                  simp only [text, List.cons_append, List.append_assoc, List.nil_append] at h
                  obtain ⟨hsame, hmore⟩ := atom_unique hhead hotherHead (ends_textAfter items (hclose front))
                    (ends_textAfter others (hclose rest)) (List.cons.inj h).2
                  obtain ⟨hall, hlast⟩ := textAfter_unique items hitems hothers (hclose front) (hclose rest) hmore
                  exact ⟨by rw [hsame, hall], (List.cons.inj hlast).2⟩
      | _ => simp [opener?] at hopener
  | block items =>
      cases other with
      | block others =>
          cases hform with
          | block hitems =>
              cases hother with
              | block hothers =>
                  have hclose (rest : List Char) : Closes ('}' :: rest) := ⟨'}', rfl, .inr rfl⟩
                  simp only [text, List.cons_append, List.append_assoc, List.nil_append] at h
                  have hafter := textAfter_of_textWithin hitems hothers (hclose front) (hclose rest) (List.cons.inj h).2
                  obtain ⟨hall, hlast⟩ := textAfter_unique items hitems hothers (hclose front) (hclose rest) hafter
                  exact ⟨by rw [hall], (List.cons.inj hlast).2⟩
      | _ => simp [opener?] at hopener

/-- Forms after one another, up to what closes them. -/
theorem textAfter_unique (items : List Form) {others : List Form} {front rest : List Char}
    (hitems : ∀ item ∈ items, item.Proper) (hothers : ∀ other ∈ others, other.Proper) (hfront : Closes front)
    (hrest : Closes rest) (h : textAfter items ++ front = textAfter others ++ rest) :
    items = others ∧ front = rest := by
  cases items with
  | nil =>
      cases others with
      | nil => exact ⟨rfl, h⟩
      | cons other others =>
          have hsame : front = textAfter (other :: others) ++ rest := h
          exact absurd (hsame ▸ hfront) not_closes_textAfter
  | cons item items =>
      cases others with
      | nil =>
          have hsame : textAfter (item :: items) ++ front = rest := h
          exact absurd (hsame ▸ hrest) not_closes_textAfter
      | cons other others =>
          obtain ⟨hitem, hitems⟩ := List.forall_mem_cons.mp hitems
          obtain ⟨hother, hothers⟩ := List.forall_mem_cons.mp hothers
          rw [textAfter, textAfter, List.cons_append, List.cons_append, List.append_assoc, List.append_assoc] at h
          obtain ⟨hfirst, hmore⟩ := text_unique item hitem hother (ends_textAfter items hfront)
            (ends_textAfter others hrest) (List.cons.inj h).2
          obtain ⟨hall, hsame⟩ := textAfter_unique items hitems hothers hfront hrest hmore
          exact ⟨by rw [hfirst, hall], hsame⟩

end

theorem text_inj (hform : form.Proper) (hother : other.Proper) : form.text = other.text ↔ form = other := by
  refine ⟨fun h => ?_, congrArg text⟩
  have hends : Ends [] := fun c hc => by cases hc
  exact (text_unique form hform hother hends hends (congrArg (· ++ []) h)).1

end Form

end Questionnaire
