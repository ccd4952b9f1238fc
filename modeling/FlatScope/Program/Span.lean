/-!
# Spans of a table

A span is a run of neighbouring entries of an append-only table.  The type parameter is the type of
the entries, so that a span cannot be read in the wrong table.
-/

namespace FlatScope

/-- The `len` entries of a table from the index `start`. -/
structure Span (α : Type) where
  start : Nat
  len : Nat
deriving DecidableEq

/-- The word by which diagnostics call a span of such entries. -/
class SpanLabel (α : Type) where
  label : String

namespace Span

variable {α : Type}

/-- The span with no entries at the start of a table. -/
def empty : Span α := ⟨0, 0⟩

def isEmpty (span : Span α) : Bool := span.len == 0

/-- The index after the last entry. -/
def stop (span : Span α) : Nat := span.start + span.len

def indices (span : Span α) : List Nat := List.range' span.start span.len

/-- The first entries of a span, at most `count`. -/
def take (span : Span α) (count : Nat) : Span α := ⟨span.start, min span.len count⟩

def describe [SpanLabel α] (span : Span α) : String :=
  SpanLabel.label α ++ "(" ++ toString span.start ++ ".." ++ toString span.stop ++ ")"

/-- The entries of a span, if the table reaches as far as the span. -/
def read? (span : Span α) (table : Array α) : Option (List α) :=
  if span.stop ≤ table.size then some (table.extract span.start span.stop).toList else none

/-- Puts entries at the end of a table and gives their span. -/
def alloc (table : Array α) (items : List α) : Span α × Array α :=
  (⟨table.size, items.length⟩, table ++ items.toArray)

/-- The span of entries that were put into a table reads as these entries. -/
theorem read?_alloc (table : Array α) (items : List α) :
    (alloc table items).1.read? (alloc table items).2 = some items := by
  simp [alloc, read?, stop]

/-- A span that can be read keeps its entries when a table grows. -/
theorem read?_append {span : Span α} {table : Array α} {found : List α} (more : Array α)
    (h : span.read? table = some found) : span.read? (table ++ more) = some found := by
  unfold read? at h ⊢
  split at h
  · rename_i hle
    have hle' : span.stop ≤ (table ++ more).size := by
      rw [Array.size_append]
      omega
    have hlen : span.stop ≤ table.toList.length := by simpa using hle
    rw [if_pos hle', ← h, Array.toList_extract, Array.toList_extract, Array.toList_append]
    simp only [List.extract_eq_take_drop]
    have hstart : span.start ≤ span.stop := Nat.le_add_right _ _
    rw [List.drop_append_of_le_length (by omega), List.take_append_of_le_length (by
      rw [List.length_drop]; omega)]
  · cases h

end Span

end FlatScope
