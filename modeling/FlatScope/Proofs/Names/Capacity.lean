import FlatScope.Name

/-!
# Room for texts

Texts get names one after another until a new text meets a table in which every index is taken
(`NameTable.nameAll`).  This depends on the number of new texts alone: either there is room for all of
them (`nameAll_of_suffices`), or the table takes as many as there are indices left
(`nameAll_of_not_suffices`).
-/

namespace FlatScope.NameTable

open Interner

/-- The table after giving names to texts from left to right, as if there were always room. -/
def withTexts (table : NameTable) (texts : List String) : NameTable := (table.internAll texts).2

/-- Gives names to texts from left to right, up to the first for which there is no room. -/
def nameAll (table : NameTable) : List String → Option Full × NameTable
  | [] => (none, table)
  | text :: rest =>
    match table.tryIntern text with
    | .ok (_, after) => after.nameAll rest
    | .error full => (some full, table)

/-- The texts that have no names yet, each once, in the order in which they come first. -/
def fresh (table : NameTable) (texts : List String) : List String :=
  (texts.filter fun text => text ∉ table.texts).eraseDups

/-- As many indices are left as there are new texts. -/
def Suffices (table : NameTable) (texts : List String) : Prop :=
  (table.fresh texts).length ≤ maxIndex + 1 - table.size

instance (table : NameTable) (texts : List String) : Decidable (table.Suffices texts) :=
  inferInstanceAs (Decidable (_ ≤ _))

variable {table : NameTable} {text : String} {texts rest : List String}

/-! ### One text -/

theorem withTexts_cons (table : NameTable) (text : String) (rest : List String) :
    table.withTexts (text :: rest) = (table.intern text).2.withTexts rest := rfl

theorem tryIntern_of_mem (h : text ∈ table.texts) :
    table.tryIntern text = .ok (table.intern text) := by
  obtain ⟨name, hname⟩ := exists_find?_of_mem h
  simp [tryIntern, hname]

theorem tryIntern_of_le (h : table.size ≤ maxIndex) :
    table.tryIntern text = .ok (table.intern text) := by
  simp [tryIntern, h]

theorem tryIntern_of_full (h : text ∉ table.texts) (hfull : maxIndex < table.size) :
    table.tryIntern text = .error ⟨table.size⟩ := by
  simp [tryIntern, find?_eq_none_iff.2 h, Nat.not_le_of_lt hfull]

theorem nameAll_cons_of_ok (h : table.tryIntern text = .ok (table.intern text)) :
    table.nameAll (text :: rest) = (table.intern text).2.nameAll rest := by
  rw [nameAll, h]

theorem nameAll_cons_of_full (h : text ∉ table.texts) (hfull : maxIndex < table.size) :
    table.nameAll (text :: rest) = (some ⟨table.size⟩, table) := by
  rw [nameAll, tryIntern_of_full h hfull]

theorem size_intern_of_not_mem (h : text ∉ table.texts) :
    (table.intern text).2.size = table.size + 1 := by
  show (table.intern text).2.texts.length = table.texts.length + 1
  rw [texts_intern, if_neg h, List.length_append]
  rfl

theorem fresh_cons_of_mem (h : text ∈ table.texts) : table.fresh (text :: rest) = table.fresh rest := by
  simp [fresh, h]

theorem fresh_cons_of_not_mem (h : text ∉ table.texts) :
    table.fresh (text :: rest) = text :: (table.intern text).2.fresh rest := by
  rw [fresh, List.filter_cons_of_pos (by simpa using h), List.eraseDups_cons, List.filter_filter, fresh,
    texts_intern, if_neg h]
  congr 2
  refine List.filter_congr fun other _ => ?_
  by_cases hother : other = text <;> simp [hother]

theorem suffices_cons_of_mem (h : text ∈ table.texts) :
    table.Suffices (text :: rest) ↔ table.Suffices rest := by
  rw [Suffices, fresh_cons_of_mem h, Suffices]

theorem suffices_cons_of_not_mem (h : text ∉ table.texts) :
    table.Suffices (text :: rest) ↔
      table.size ≤ maxIndex ∧ (table.intern text).2.Suffices rest := by
  rw [Suffices, fresh_cons_of_not_mem h, Suffices, size_intern_of_not_mem h, List.length_cons]
  omega

theorem suffices_of_subset (h : texts ⊆ table.texts) : table.Suffices texts := by
  have hnone : (texts.filter fun text => text ∉ table.texts) = [] :=
    List.filter_eq_nil_iff.2 fun text htext => by simpa using h htext
  rw [Suffices, fresh, hnone]
  exact Nat.zero_le _

/-! ### Several texts -/

theorem nameAll_append (table : NameTable) (first second : List String) :
    table.nameAll (first ++ second) =
      match table.nameAll first with
      | (some full, after) => (some full, after)
      | (none, after) => after.nameAll second := by
  induction first generalizing table with
  | nil => rfl
  | cons text rest ih =>
    rw [List.cons_append, nameAll, nameAll]
    cases table.tryIntern text with
    | error full => rfl
    | ok found => exact ih found.2

/-- Texts that are new follow those that are there, each once, in the order in which they come. -/
theorem texts_withTexts (table : NameTable) (texts : List String) :
    (table.withTexts texts).texts = table.texts ++ table.fresh texts := by
  induction texts generalizing table with
  | nil => exact (List.append_nil _).symm
  | cons text rest ih =>
    rw [withTexts_cons, ih]
    by_cases h : text ∈ table.texts
    · rw [intern_eq_self h, fresh_cons_of_mem h]
    · rw [texts_intern, if_neg h, fresh_cons_of_not_mem h, List.append_assoc]
      rfl

theorem eraseDups_eq_self {items : List String} (h : items.Nodup) : items.eraseDups = items := by
  induction items with
  | nil => rfl
  | cons item rest ih =>
    obtain ⟨hitem, hrest⟩ := List.nodup_cons.1 h
    have hfilter : rest.filter (fun other => !other == item) = rest := by
      refine List.filter_eq_self.2 fun other hother => ?_
      have hne : other ≠ item := fun heq => hitem (heq ▸ hother)
      simpa using hne
    rw [List.eraseDups_cons, hfilter, ih hrest]

theorem subset_texts_withTexts (table : NameTable) (texts : List String) :
    texts ⊆ (table.withTexts texts).texts := by
  intro text htext
  rw [texts_withTexts, List.mem_append]
  by_cases h : text ∈ table.texts
  · exact .inl h
  · exact .inr (by simpa [fresh] using ⟨htext, h⟩)

theorem nameAll_of_suffices (h : table.Suffices texts) :
    table.nameAll texts = (none, table.withTexts texts) := by
  induction texts generalizing table with
  | nil => rfl
  | cons text rest ih =>
    by_cases hmem : text ∈ table.texts
    · rw [nameAll_cons_of_ok (tryIntern_of_mem hmem), withTexts_cons]
      refine ih ?_
      rw [intern_eq_self hmem]
      exact (suffices_cons_of_mem hmem).1 h
    · obtain ⟨hsize, hrest⟩ := (suffices_cons_of_not_mem hmem).1 h
      rw [nameAll_cons_of_ok (tryIntern_of_le hsize), ih hrest, withTexts_cons]

/-- Without room for all new texts, the table takes as many of them as there are indices left. -/
theorem nameAll_of_not_suffices (h : ¬ table.Suffices texts) :
    ∃ after, table.nameAll texts = (some ⟨after.size⟩, after) ∧
      after.texts = table.texts ++ (table.fresh texts).take (maxIndex + 1 - table.size) := by
  induction texts generalizing table with
  | nil => exact absurd (Nat.zero_le _) h
  | cons text rest ih =>
    by_cases hmem : text ∈ table.texts
    · rw [suffices_cons_of_mem hmem] at h
      obtain ⟨after, hafter, htexts⟩ := ih h
      refine ⟨after, ?_, ?_⟩
      · rw [nameAll_cons_of_ok (tryIntern_of_mem hmem), intern_eq_self hmem, hafter]
      · rw [htexts, fresh_cons_of_mem hmem]
    · by_cases hsize : table.size ≤ maxIndex
      · have hrest : ¬ (table.intern text).2.Suffices rest := fun hrest =>
          h ((suffices_cons_of_not_mem hmem).2 ⟨hsize, hrest⟩)
        obtain ⟨after, hafter, htexts⟩ := ih hrest
        refine ⟨after, ?_, ?_⟩
        · rw [nameAll_cons_of_ok (tryIntern_of_le hsize), hafter]
        · have hleft : maxIndex + 1 - table.size = maxIndex + 1 - (table.size + 1) + 1 := by omega
          rw [htexts, texts_intern, if_neg hmem, size_intern_of_not_mem hmem,
            fresh_cons_of_not_mem hmem, hleft, List.take_succ_cons, List.append_assoc]
          rfl
      · have hnone : maxIndex + 1 - table.size = 0 := by omega
        refine ⟨table, nameAll_cons_of_full hmem (Nat.lt_of_not_le hsize), ?_⟩
        rw [hnone, List.take_zero, List.append_nil]

/-! ### A full table -/

/-- The text that is `a` some number of times and once more. -/
def tally (count : Nat) : String := String.ofList (List.replicate (count + 1) 'a')

/-- A table in which every index is taken. -/
def full : NameTable := new.withTexts ((List.range maxIndex).map tally)

end FlatScope.NameTable
