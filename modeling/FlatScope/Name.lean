/-!
# Names and their texts

A name is the index of a text in an interner.  An interner keeps a map from texts to indices beside
the texts by index.  Looking a text up and adding it are separate steps, since others may add texts in
between; so the second step looks again (`Interner.internMissing`).  A `NameTable` is an interner whose
map and texts agree.
-/

namespace FlatScope

/-! ### Names -/

/-- A name is the index of its text. -/
structure Name where
  index : Nat
deriving DecidableEq

namespace Name

def empty : Name := ⟨0⟩

def describe (name : Name) : String := "Name(" ++ toString name.index ++ ")"

end Name

/-! ### Interners -/

/-- A map from texts to indices, and the texts by index. -/
structure Interner where
  /-- Of several entries for a text, the first counts. -/
  indices : List (String × Nat)
  texts : List String

namespace Interner

/-- An interner that holds the empty text only. -/
def new : Interner := ⟨[("", 0)], [""]⟩

/-- The number of texts, the empty one included. -/
def size (interner : Interner) : Nat := interner.texts.length

def isEmpty (interner : Interner) : Bool := interner.size ≤ 1

/-- The text of a name, if the interner gave out that name. -/
def text? (interner : Interner) (name : Name) : Option String := interner.texts[name.index]?

/-- The name under which the map has a text. -/
def find? (interner : Interner) (text : String) : Option Name :=
  (interner.indices.lookup text).map Name.mk

/-- Puts a text at the end, and its index into the map. -/
def add (interner : Interner) (text : String) : Interner :=
  ⟨(text, interner.size) :: interner.indices, interner.texts ++ [text]⟩

def maxIndex : Nat := 4294967295

/-- An interner that has no index left for another text. -/
structure Full where
  count : Nat
deriving DecidableEq

def Full.message (full : Full) : String :=
  "interner exceeded capacity: " ++ toString full.count ++ " strings, max is " ++ toString maxIndex

/-- The second step of `tryIntern`, for a text that was looked up and not found: looks again, and adds
the text unless every index is taken. -/
def internMissing (interner : Interner) (text : String) : Except Full Name × Interner :=
  match interner.find? text with
  | some name => (.ok name, interner)
  | none =>
    if interner.size ≤ maxIndex then (.ok ⟨interner.size⟩, interner.add text)
    else (.error ⟨interner.size⟩, interner)

/-- The name of a text, which is added if it has none yet. -/
def tryIntern (interner : Interner) (text : String) : Except Full Name × Interner :=
  match interner.find? text with
  | some name => (.ok name, interner)
  | none => interner.internMissing text

/-- The map and the texts undo each other, and the empty text comes first. -/
structure WellFormed (interner : Interner) : Prop where
  inverse : ∀ text name, interner.find? text = some name ↔ interner.text? name = some text
  first : interner.text? .empty = some ""

/-! ### What adding a text does -/

theorem find?_add (interner : Interner) (text other : String) :
    (interner.add text).find? other =
      if other = text then some ⟨interner.size⟩ else interner.find? other := by
  by_cases h : other = text
  · simp [find?, add, h]
  · have hbeq : (other == text) = false := by simpa using h
    simp [find?, add, List.lookup_cons, hbeq, h]

theorem text?_add (interner : Interner) (text : String) (name : Name) :
    (interner.add text).text? name =
      if name.index = interner.size then some text else interner.text? name := by
  by_cases hlt : name.index < interner.texts.length
  · have hne : name.index ≠ interner.size := Nat.ne_of_lt hlt
    simp [text?, add, List.getElem?_append_left hlt, hne]
  · rw [text?, add, List.getElem?_append_right (Nat.le_of_not_lt hlt), List.getElem?_singleton]
    by_cases heq : name.index = interner.size
    · simp [heq, size]
    · have hsub : name.index - interner.texts.length ≠ 0 := by
        simp only [size] at heq
        omega
      simp [text?, hsub, heq, List.getElem?_eq_none (Nat.le_of_not_lt hlt)]

theorem text?_eq_none {interner : Interner} {name : Name} (h : interner.size ≤ name.index) :
    interner.text? name = none :=
  List.getElem?_eq_none h

theorem wellFormed_new : new.WellFormed where
  inverse text name := by
    obtain ⟨index⟩ := name
    have hfind : new.find? text = if text = "" then some ⟨0⟩ else none :=
      find?_add ⟨[], []⟩ "" text
    have htext : new.text? ⟨index⟩ = if index = 0 then some "" else none :=
      text?_add ⟨[], []⟩ "" ⟨index⟩
    rw [hfind, htext]
    by_cases h : text = "" <;> by_cases hindex : index = 0 <;> simp [h, hindex, eq_comm]
  first := rfl

/-- Adding a text that the map lacks keeps the map and the texts in step. -/
theorem WellFormed.add {interner : Interner} {text : String} (h : interner.WellFormed)
    (fresh : interner.find? text = none) : (interner.add text).WellFormed where
  inverse other name := by
    rw [find?_add, text?_add]
    by_cases hother : other = text
    · subst hother
      by_cases hname : name.index = interner.size
      · have hindex : (⟨interner.size⟩ : Name) = name := by rw [← hname]
        simp [hname, hindex]
      · have hold : interner.text? name ≠ some other := fun htext => by
          rw [(h.inverse other name).2 htext] at fresh
          cases fresh
        have hindex : (⟨interner.size⟩ : Name) ≠ name := fun heq => hname (by rw [← heq])
        simp [hname, hold, hindex]
    · rw [if_neg hother, h.inverse]
      by_cases hname : name.index = interner.size
      · simp [hname, text?_eq_none (Nat.le_of_eq hname.symm), Ne.symm hother]
      · simp [hname]
  first := by
    have hsize : Name.empty.index ≠ interner.size := fun hzero => by
      have hnone : interner.text? .empty = none := text?_eq_none (Nat.le_of_eq hzero.symm)
      rw [h.first] at hnone
      cases hnone
    rw [text?_add, if_neg hsize, h.first]

end Interner

/-! ### Tables of texts -/

/-- An interner in which every text has one name and every name has one text. -/
structure NameTable where
  interner : Interner
  wellFormed : interner.WellFormed

namespace NameTable

/-- The table that holds the empty text only. -/
def new : NameTable := ⟨.new, Interner.wellFormed_new⟩

/-- The texts that have names, by index. -/
def texts (table : NameTable) : List String := table.interner.texts

def size (table : NameTable) : Nat := table.interner.size

def isEmpty (table : NameTable) : Bool := table.interner.isEmpty

def text? (table : NameTable) (name : Name) : Option String := table.interner.text? name

def find? (table : NameTable) (text : String) : Option Name := table.interner.find? text

/-- Puts a new text at the end of the table. -/
def push (table : NameTable) (text : String) (fresh : table.find? text = none) : NameTable :=
  ⟨table.interner.add text, table.wellFormed.add fresh⟩

/-- The name of a text, which is added if it has none yet; there is no bound on the number of texts. -/
def intern (table : NameTable) (text : String) : Name × NameTable :=
  match h : table.find? text with
  | some name => (name, table)
  | none => (⟨table.size⟩, table.push text h)

/-- Gives names to texts from left to right. -/
def internAll (table : NameTable) : List String → List Name × NameTable
  | [] => ([], table)
  | text :: rest =>
    let (name, table) := table.intern text
    let (names, table) := table.internAll rest
    (name :: names, table)

/-- As `intern`, but refuses a new text when every index is taken. -/
def tryIntern (table : NameTable) (text : String) : Except Interner.Full (Name × NameTable) :=
  if (table.find? text).isSome ∨ table.size ≤ Interner.maxIndex then .ok (table.intern text)
  else .error ⟨table.size⟩

/-- The name of a text that is in the table. -/
def nameOf (table : NameTable) (text : String) : Name := (table.find? text).getD .empty

/-! ### What a table holds -/

theorem find?_eq_some_iff {table : NameTable} {text : String} {name : Name} :
    table.find? text = some name ↔ table.text? name = some text :=
  table.wellFormed.inverse text name

theorem find?_eq_none_iff {table : NameTable} {text : String} :
    table.find? text = none ↔ text ∉ table.texts := by
  constructor
  · intro h hmem
    obtain ⟨index, hindex⟩ := List.mem_iff_getElem?.1 hmem
    have hfind : table.find? text = some ⟨index⟩ := find?_eq_some_iff.2 hindex
    rw [h] at hfind
    cases hfind
  · intro h
    cases hfind : table.find? text with
    | none => rfl
    | some name => exact absurd (List.mem_of_getElem? (find?_eq_some_iff.1 hfind)) h

theorem exists_find?_of_mem {table : NameTable} {text : String} (h : text ∈ table.texts) :
    ∃ name, table.find? text = some name :=
  Option.ne_none_iff_exists'.1 (mt find?_eq_none_iff.1 (not_not_intro h))

/-- No text occurs twice. -/
theorem nodup (table : NameTable) : table.texts.Nodup := by
  refine List.pairwise_iff_getElem.2 fun i j hi hj hlt heq => ?_
  have hfirst : table.find? table.texts[i] = some ⟨i⟩ :=
    find?_eq_some_iff.2 (List.getElem?_eq_getElem hi)
  have hsecond : table.find? table.texts[j] = some ⟨j⟩ :=
    find?_eq_some_iff.2 (List.getElem?_eq_getElem hj)
  rw [heq, hsecond] at hfirst
  cases hfirst
  exact Nat.lt_irrefl _ hlt

/-! ### What the operations do to the texts -/

theorem intern_of_find? {table : NameTable} {text : String} {name : Name}
    (h : table.find? text = some name) : table.intern text = (name, table) := by
  unfold intern
  split
  · rename_i found hfound
    rw [h] at hfound
    rw [Option.some.inj hfound]
  · rename_i hnone
    rw [h] at hnone
    cases hnone

theorem intern_eq_push {table : NameTable} {text : String} (h : table.find? text = none) :
    table.intern text = (⟨table.size⟩, table.push text h) := by
  unfold intern
  split
  · rename_i found hfound
    rw [h] at hfound
    cases hfound
  · rfl

theorem intern_eq_self {table : NameTable} {text : String} (h : text ∈ table.texts) :
    (table.intern text).2 = table := by
  obtain ⟨name, hname⟩ := exists_find?_of_mem h
  rw [intern_of_find? hname]

theorem texts_intern (table : NameTable) (text : String) :
    (table.intern text).2.texts =
      if text ∈ table.texts then table.texts else table.texts ++ [text] := by
  by_cases h : text ∈ table.texts
  · rw [intern_eq_self h, if_pos h]
  · rw [intern_eq_push (find?_eq_none_iff.2 h), if_neg h]
    rfl

/-- The name that interning gives has the text that was interned. -/
theorem text?_intern (table : NameTable) (text : String) :
    (table.intern text).2.text? (table.intern text).1 = some text := by
  cases h : table.find? text with
  | some name =>
    rw [intern_of_find? h]
    exact find?_eq_some_iff.1 h
  | none =>
    rw [intern_eq_push h]
    exact (Interner.text?_add ..).trans (if_pos rfl)

theorem text?_intern_of_text? {table : NameTable} {name : Name} {old : String} (text : String)
    (h : table.text? name = some old) : (table.intern text).2.text? name = some old := by
  cases hfind : table.find? text with
  | some found => rwa [intern_of_find? hfind]
  | none =>
    have hne : name.index ≠ table.interner.size := fun heq => by
      have hnone : table.text? name = none := Interner.text?_eq_none (Nat.le_of_eq heq.symm)
      rw [h] at hnone
      cases hnone
    rw [intern_eq_push hfind]
    exact (Interner.text?_add ..).trans ((if_neg hne).trans h)

theorem text?_nameOf {table : NameTable} {text : String} (h : text ∈ table.texts) :
    table.text? (table.nameOf text) = some text := by
  obtain ⟨name, hname⟩ := exists_find?_of_mem h
  rw [nameOf, hname]
  exact find?_eq_some_iff.1 hname

/-! ### Tables and interners -/

/-- A table does what its interner does. -/
theorem interner_tryIntern (table : NameTable) (text : String) :
    table.interner.tryIntern text =
      match table.tryIntern text with
      | .ok (name, after) => (.ok name, after.interner)
      | .error full => (.error full, table.interner) := by
  cases hfind : table.find? text with
  | some name =>
    have hfound : table.interner.find? text = some name := hfind
    simp [Interner.tryIntern, tryIntern, hfound, hfind, intern_of_find? hfind]
  | none =>
    have hmissing : table.interner.find? text = none := hfind
    by_cases hsize : table.size ≤ Interner.maxIndex
    · have hroom : table.interner.size ≤ Interner.maxIndex := hsize
      simp only [Interner.tryIntern, Interner.internMissing, hmissing, hroom, if_true, tryIntern,
        hsize, or_true, intern_eq_push hfind]
      rfl
    · have hfull : ¬ table.interner.size ≤ Interner.maxIndex := hsize
      simp only [Interner.tryIntern, Interner.internMissing, hmissing, hfull, if_false, tryIntern,
        hfind, hsize, Option.isSome_none, Bool.false_eq_true, or_self]
      rfl

end NameTable

end FlatScope
