import Mathlib.Data.Nat.Digits.Defs
import Questionnaire.Text.Quoted

/-! Quoted texts told apart. A character is shown as itself, by a letter behind a backslash, or by its code point, and
what it is shown as ends where it can be seen to end. So a quoted text at the front of some text says where it ends and
which text it is. -/

namespace Questionnaire.Text

variable {c d : Char} {text other front rest : List Char}

/-- A text is split in one way into a part of the one kind of characters and a rest that does not go on with it. -/
theorem append_unique {part : Char → Bool} {left right : List Char} (hleft : ∀ c ∈ left, part c = true)
    (hright : ∀ c ∈ right, part c = true) (hfront : ∀ c ∈ front.head?, part c = false)
    (hrest : ∀ c ∈ rest.head?, part c = false) (h : left ++ front = right ++ rest) : left = right ∧ front = rest := by
  have htake {body more : List Char} (hbody : ∀ c ∈ body, part c = true) (hmore : ∀ c ∈ more.head?, part c = false) :
      (body ++ more).takeWhile part = body := by
    rw [List.takeWhile_append_of_pos hbody]
    cases more with
    | nil => exact List.append_nil body
    | cons c more => rw [List.takeWhile_cons_of_neg (by simp [hmore c rfl]), List.append_nil]
  obtain rfl : left = right := by rw [← htake hleft hfront, h, htake hright hrest]
  exact ⟨rfl, List.append_cancel_left h⟩

theorem digitChar_injOn {m n : ℕ} (hm : m < 16) (hn : n < 16) (h : m.digitChar = n.digitChar) : m = n := by
  have hall : ∀ m < 16, ∀ n < 16, m.digitChar = n.digitChar → m = n := by decide
  exact hall m hm n hn h

theorem toDigits_injective : Function.Injective (Nat.toDigits 16) := by
  intro m
  induction m using Nat.strongRecOn with
  | ind m ih =>
      intro n h
      rw [Nat.toDigits_eq_if (by decide), Nat.toDigits_eq_if (by decide) (n := n)] at h
      split_ifs at h with hm hn hn
      · exact digitChar_injOn hm hn (List.singleton_inj.mp h)
      · exact absurd (List.append_eq_singleton_iff.mp h.symm) (by simp [Nat.toDigits_ne_nil])
      · exact absurd (List.append_eq_singleton_iff.mp h) (by simp [Nat.toDigits_ne_nil])
      · obtain ⟨hdigits, hdigit⟩ := List.append_inj' h rfl
        have hdiv := ih (m / 16) (by omega) hdigits
        have hmod := digitChar_injOn (Nat.mod_lt m (by decide)) (Nat.mod_lt n (by decide)) (List.singleton_inj.mp hdigit)
        omega

theorem digitChar_ne_brace {n : ℕ} (h : n < 16) : (n.digitChar != '}') = true := by
  have hall : ∀ n < 16, (n.digitChar != '}') = true := by decide
  exact hall n h

theorem ne_brace_of_mem_toDigits (n : ℕ) : ∀ c ∈ Nat.toDigits 16 n, (c != '}') = true := by
  induction n using Nat.strongRecOn with
  | ind n ih =>
      rw [Nat.toDigits_eq_if (by decide)]
      split_ifs with hn
      · exact List.forall_mem_singleton.mpr (digitChar_ne_brace hn)
      · refine List.forall_mem_append.mpr ⟨ih _ (by omega), List.forall_mem_singleton.mpr ?_⟩
        exact digitChar_ne_brace (Nat.mod_lt n (by decide))

/-- The letters that stand for characters behind a backslash. -/
def letters : List (Char × Char) :=
  [('"', '"'), ('\\', '\\'), ('\t', 't'), ('\r', 'r'), ('\n', 'n'), ('\x00', '0')]

theorem eq_of_letters {letter : Char} (hc : (c, letter) ∈ letters) (hd : (d, letter) ∈ letters) : c = d := by
  have hall : ∀ one ∈ letters, ∀ other ∈ letters, one.2 = other.2 → one.1 = other.1 := by decide
  exact hall _ hc _ hd rfl

theorem letter_ne {letter : Char} (h : (c, letter) ∈ letters) : letter ≠ 'u' := by
  have hall : ∀ one ∈ letters, one.2 ≠ 'u' := by decide
  exact hall _ h

/-- The ways a character is shown. -/
inductive Shows : Char → List Char → Prop where
  | plain {c : Char} (hquote : c ≠ '"') (hescape : c ≠ '\\') : Shows c [c]
  | letter {c : Char} (letter : Char) (h : (c, letter) ∈ letters) : Shows c ['\\', letter]
  | code {c : Char} : Shows c ('\\' :: 'u' :: '{' :: (Nat.toDigits 16 c.toNat ++ ['}']))

theorem shows_shown (c : Char) : Shows c (shown c).toList := by
  unfold shown
  split_ifs with hquote hescape
  · exact hquote ▸ .letter '"' (by decide)
  · exact hescape ▸ .letter '\\' (by decide)
  next h => exact h ▸ .letter 't' (by decide)
  next h => exact h ▸ .letter 'r' (by decide)
  next h => exact h ▸ .letter 'n' (by decide)
  next h => exact h ▸ .letter '0' (by decide)
  · have hcode : (byCodePoint c).toList = '\\' :: 'u' :: '{' :: (Nat.toDigits 16 c.toNat ++ ['}']) := by
      simp [byCodePoint, hexDigits]
    rw [hcode]
    exact .code
  · rw [Char.toString_eq_singleton, String.toList_singleton]
    exact .plain hquote hescape

/-- What a character is shown as does not begin with a quote. -/
theorem Shows.ne_quote (h : Shows c text) : text ++ rest ≠ '"' :: front := by
  cases h with
  | plain hquote => exact fun heq => hquote (List.cons.inj heq).1
  | letter => exact fun heq => absurd (List.cons.inj heq).1 (by decide)
  | code => exact fun heq => absurd (List.cons.inj heq).1 (by decide)

/-- The character that a text begins with as shown, and where it ends there. -/
theorem Shows.unique (hc : Shows c text) (hd : Shows d other) (h : text ++ front = other ++ rest) :
    c = d ∧ front = rest := by
  cases hc with
  | plain hquote hescape =>
      cases hd with
      | plain => exact List.cons.inj h
      | letter => exact absurd (List.cons.inj h).1 hescape
      | code => exact absurd (List.cons.inj h).1 hescape
  | letter _ hletter =>
      cases hd with
      | plain hquote hescape => exact absurd (List.cons.inj h).1.symm hescape
      | letter _ hother =>
          obtain ⟨-, h⟩ := List.cons.inj h
          obtain ⟨rfl, hrest⟩ := List.cons.inj h
          exact ⟨eq_of_letters hletter hother, hrest⟩
      | code =>
          obtain ⟨-, h⟩ := List.cons.inj h
          exact absurd (List.cons.inj h).1 (letter_ne hletter)
  | code =>
      cases hd with
      | plain hquote hescape => exact absurd (List.cons.inj h).1.symm hescape
      | letter _ hother =>
          obtain ⟨-, h⟩ := List.cons.inj h
          exact absurd (List.cons.inj h).1.symm (letter_ne hother)
      | code =>
          simp only [List.cons_append, List.append_assoc, List.nil_append, List.cons.injEq, true_and] at h
          obtain ⟨hdigits, hrest⟩ := append_unique (ne_brace_of_mem_toDigits _) (ne_brace_of_mem_toDigits _)
            (by simp) (by simp) h
          exact ⟨Char.toNat_inj.mp (toDigits_injective hdigits), (List.cons.inj hrest).2⟩

theorem toList_quoted (text : String) :
    (quoted text).toList = '"' :: (text.toList.flatMap (fun c => (shown c).toList) ++ ['"']) := by
  rw [quoted, String.toList_append, String.toList_append, String.toList_join, List.flatMap_map]
  rfl

theorem flatMap_shown_unique {left right : List Char}
    (h : left.flatMap (fun c => (shown c).toList) ++ '"' :: front =
      right.flatMap (fun c => (shown c).toList) ++ '"' :: rest) : left = right ∧ front = rest := by
  induction left generalizing right with
  | nil =>
      cases right with
      | nil => exact ⟨rfl, (List.cons.inj h).2⟩
      | cons d right =>
          rw [List.flatMap_cons, List.append_assoc] at h
          exact absurd h.symm (shows_shown d).ne_quote
  | cons c left ih =>
      rw [List.flatMap_cons, List.append_assoc] at h
      cases right with
      | nil => exact absurd h (shows_shown c).ne_quote
      | cons d right =>
          rw [List.flatMap_cons, List.append_assoc] at h
          obtain ⟨rfl, hmore⟩ := (shows_shown c).unique (shows_shown d) h
          obtain ⟨rfl, hrest⟩ := ih hmore
          exact ⟨rfl, hrest⟩

/-- A text that begins with a quoted text begins with no other one, and the quotes end at one place. -/
theorem quoted_unique {left right : String} (h : (quoted left).toList ++ front = (quoted right).toList ++ rest) :
    left = right ∧ front = rest := by
  rw [toList_quoted, toList_quoted, List.cons_append, List.cons_append, List.append_assoc, List.append_assoc] at h
  obtain ⟨htext, hrest⟩ := flatMap_shown_unique (List.cons.inj h).2
  exact ⟨String.toList_inj.mp htext, hrest⟩

end Questionnaire.Text
