/-!
# Blank characters

The characters with the Unicode property `White_Space`, and trimming them from both ends of a text.
-/

namespace FlatScope.Text

/-- The ranges of code points that have the property `White_Space`. -/
def blankRanges : List (Nat × Nat) :=
  [(0x9, 0xD), (0x20, 0x20), (0x85, 0x85), (0xA0, 0xA0), (0x1680, 0x1680), (0x2000, 0x200A),
   (0x2028, 0x2029), (0x202F, 0x202F), (0x205F, 0x205F), (0x3000, 0x3000)]

/-- Whether a character has the property `White_Space`. -/
def isBlank (c : Char) : Bool :=
  blankRanges.any fun (first, last) => first ≤ c.toNat && c.toNat ≤ last

def trimChars (cs : List Char) : List Char :=
  ((cs.dropWhile isBlank).reverse.dropWhile isBlank).reverse

def trim (text : String) : String := String.ofList (trimChars text.toList)

/-- Whether neither end of a text is blank. -/
def IsTrimmed (text : String) : Prop :=
  (∀ c ∈ text.toList.head?, ¬ isBlank c) ∧ (∀ c ∈ text.toList.getLast?, ¬ isBlank c)

theorem dropWhile_isBlank_of_head {cs : List Char} (h : ∀ c ∈ cs.head?, ¬ isBlank c) :
    cs.dropWhile isBlank = cs := by
  cases cs with
  | nil => rfl
  | cons c rest =>
    have hc : isBlank c = false := by simpa using h c
    simp [List.dropWhile, hc]

theorem trim_of_isTrimmed {text : String} (h : IsTrimmed text) : trim text = text := by
  have hlast : ∀ c ∈ text.toList.reverse.head?, ¬ isBlank c := by
    simpa [List.head?_reverse] using h.2
  have hchars : trimChars text.toList = text.toList := by
    unfold trimChars
    rw [dropWhile_isBlank_of_head h.1, dropWhile_isBlank_of_head hlast, List.reverse_reverse]
  unfold trim
  rw [hchars, String.ofList_toList]

end FlatScope.Text
