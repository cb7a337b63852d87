/-!
# Words and columns

A text falls into words at its blanks. `words_ne_empty` says that no word is empty. An entry of a left-aligned column is
followed by blanks up to the width of the column, counted in code points; a longer entry is not cut.
-/

namespace CanonicalLR.Text

/-- The blank characters: those that Unicode classes as white space, and the four information separators. -/
def isBlank (c : Char) : Bool :=
  let n := c.toNat
  (0x9 ≤ n && n ≤ 0xd) || (0x1c ≤ n && n ≤ 0x20) || n == 0x85 || n == 0xa0 || n == 0x1680 ||
    (0x2000 ≤ n && n ≤ 0x200a) || n == 0x2028 || n == 0x2029 || n == 0x202f || n == 0x205f || n == 0x3000

/-- The word whose characters have been read, last one first, if there is one. -/
def closeWord : List Char → List String
  | [] => []
  | c :: cs => [String.ofList (c :: cs).reverse]

/-- The words of a text when the characters `started` of an unfinished word have been read, last one first. -/
def wordsFrom (started : List Char) : List Char → List String
  | [] => closeWord started
  | c :: cs => if isBlank c then closeWord started ++ wordsFrom [] cs else wordsFrom (c :: started) cs

/-- The words of a text, in order. -/
def words (s : String) : List String := wordsFrom [] s.toList

theorem closeWord_ne_empty {cs : List Char} {w : String} (h : w ∈ closeWord cs) : w ≠ "" := by
  cases cs with
  | nil => simp [closeWord] at h
  | cons c cs =>
    simp only [closeWord, List.mem_singleton] at h
    subst h
    intro e
    have := congrArg String.toList e
    simp at this

theorem wordsFrom_ne_empty {w : String} : ∀ {started cs : List Char}, w ∈ wordsFrom started cs → w ≠ ""
  | _, [], h => closeWord_ne_empty h
  | _, c :: cs, h => by
    simp only [wordsFrom] at h
    split at h
    · rcases List.mem_append.mp h with h | h
      · exact closeWord_ne_empty h
      · exact wordsFrom_ne_empty h
    · exact wordsFrom_ne_empty h

/-- No word is empty. -/
theorem words_ne_empty {s w : String} (h : w ∈ words s) : w ≠ "" := wordsFrom_ne_empty h

/-- Fills a text with blanks on the right up to a width. -/
def padRight (width : Nat) (s : String) : String := s ++ String.ofList (List.replicate (width - s.length) ' ')

end CanonicalLR.Text
