import FlatScope.Value

/-!
# Bindings

A finite map from names to values, as a list of pairs.  Setting a name replaces the pair that is
there or puts a new pair in front, so a list in which no name occurs twice stays one, and a list that
only grows shares all its old pairs.
-/

namespace FlatScope

abbrev Bindings : Type := List (Name × Value)

namespace Bindings

def find? : Bindings → Name → Option Value
  | [], _ => none
  | (key, value) :: rest, name => if key = name then some value else find? rest name

def binds (bindings : Bindings) (name : Name) : Bool := (find? bindings name).isSome

/-- Puts another value in the place of the value that a name has. -/
def replace : Bindings → Name → Value → Bindings
  | [], _, _ => []
  | (key, old) :: rest, name, value =>
    if key = name then (name, value) :: rest else (key, old) :: replace rest name value

/-- Gives a name a value, whether or not it has one. -/
def set (bindings : Bindings) (name : Name) (value : Value) : Bindings :=
  if binds bindings name then replace bindings name value else (name, value) :: bindings

/-- Sets every pair of `added`, from left to right. -/
def overlay (base added : Bindings) : Bindings :=
  added.foldl (fun bindings (name, value) => set bindings name value) base

def keys (bindings : Bindings) : List Name := bindings.map Prod.fst

theorem find?_replace {bindings : Bindings} {name : Name} (other : Name) (value : Value)
    (h : binds bindings name = true) :
    find? (replace bindings name value) other =
      if name = other then some value else find? bindings other := by
  induction bindings with
  | nil => cases h
  | cons entry rest ih =>
    obtain ⟨key, old⟩ := entry
    by_cases hk : key = name
    · subst hk
      by_cases ho : key = other <;> simp [replace, find?, ho]
    · have hrest : binds rest name = true := by simpa [binds, find?, hk] using h
      by_cases ho : key = other
      · subst ho
        simp [replace, find?, hk, Ne.symm hk]
      · simp [replace, find?, hk, ho, ih hrest]

theorem find?_set (bindings : Bindings) (name other : Name) (value : Value) :
    find? (set bindings name value) other =
      if name = other then some value else find? bindings other := by
  unfold set
  split
  · rename_i h
    exact find?_replace other value h
  · simp [find?]

theorem mem_keys_iff {bindings : Bindings} {name : Name} :
    name ∈ keys bindings ↔ binds bindings name = true := by
  induction bindings with
  | nil => simp [keys, binds, find?]
  | cons entry rest ih =>
    obtain ⟨key, value⟩ := entry
    by_cases hk : key = name
    · simp [keys, binds, find?, hk]
    · have hn : name ≠ key := fun h => hk h.symm
      simp only [keys, binds] at ih
      simp [keys, binds, find?, hk, hn, ← ih]

theorem keys_replace (bindings : Bindings) (name : Name) (value : Value) :
    keys (replace bindings name value) = keys bindings := by
  induction bindings with
  | nil => rfl
  | cons entry rest ih =>
    obtain ⟨key, old⟩ := entry
    simp only [keys] at ih
    by_cases hk : key = name <;> simp [replace, keys, hk, ih]

/-- Setting a name adds it, or adds nothing when it is there. -/
theorem keys_set (bindings : Bindings) (name : Name) (value : Value) :
    keys (set bindings name value) =
      if binds bindings name then keys bindings else name :: keys bindings := by
  unfold set
  split
  · exact keys_replace bindings name value
  · rfl

theorem find?_overlay (base added : Bindings) (name : Name) (h : (keys added).Nodup) :
    find? (overlay base added) name = (find? added name).or (find? base name) := by
  induction added generalizing base with
  | nil => rfl
  | cons entry rest ih =>
    obtain ⟨key, value⟩ := entry
    obtain ⟨hkey, hrest⟩ := List.nodup_cons.1 h
    have hnone : find? rest key = none := by
      have hb : ¬ binds rest key = true := fun hb => hkey (mem_keys_iff.2 hb)
      simpa [binds] using hb
    have hstep : overlay base ((key, value) :: rest) = overlay (set base key value) rest := rfl
    rw [hstep, ih _ hrest, find?_set]
    by_cases hk : key = name
    · subst hk
      simp [find?, hnone]
    · simp [find?, hk]

theorem nodup_keys_set {bindings : Bindings} (name : Name) (value : Value)
    (h : (keys bindings).Nodup) : (keys (set bindings name value)).Nodup := by
  rw [keys_set]
  split
  · exact h
  · rename_i hb
    exact List.nodup_cons.2 ⟨fun hm => hb (mem_keys_iff.1 hm), h⟩

theorem nodup_keys_overlay {base : Bindings} (added : Bindings) (h : (keys base).Nodup) :
    (keys (overlay base added)).Nodup := by
  induction added generalizing base with
  | nil => exact h
  | cons entry rest ih => exact ih (nodup_keys_set entry.1 entry.2 h)

end Bindings

end FlatScope
