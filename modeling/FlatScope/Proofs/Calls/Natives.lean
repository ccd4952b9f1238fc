import FlatScope.Prelude

/-!
# The faults of natives

Whatever its arguments are, a native fails only over their number, over their types, or because its
result is no word.
-/

namespace FlatScope

/-- The faults that a call of a native can have. -/
def Fault.OfNative : Fault → Prop
  | .typeMismatch _ _ _ => True
  | .arityMismatch _ _ _ _ => True
  | .integerOverflow _ => True
  | _ => False

namespace Native

/-- A result that has no fault or one that natives have. -/
def Plain {α : Type} (result : Except Fault α) : Prop :=
  ∀ fault, result = .error fault → fault.OfNative

theorem Plain.ok {α : Type} (value : α) : Plain (.ok value) := by
  intro fault h
  cases h

theorem Plain.error {α : Type} {fault : Fault} (h : fault.OfNative) :
    Plain (.error fault : Except Fault α) := by
  intro other hother
  cases hother
  exact h

theorem Plain.bind {α β : Type} {first : Except Fault α} {next : α → Except Fault β}
    (hfirst : Plain first) (hnext : ∀ value, Plain (next value)) : Plain (first >>= next) := by
  cases first with
  | error fault =>
    intro other h
    cases h
    exact hfirst fault rfl
  | ok value => exact hnext value

theorem plain_expectInt (name : String) (arg : Primitive) : Plain (expectInt name arg) := by
  cases arg with
  | int value => exact .ok value
  | str | bool => exact .error trivial

theorem plain_oneInt (name : String) (args : List Primitive) : Plain (oneInt name args) := by
  unfold oneInt
  split
  · exact plain_expectInt _ _
  · exact .error trivial

theorem plain_twoInts (name : String) (args : List Primitive) : Plain (twoInts name args) := by
  unfold twoInts
  split
  · refine (plain_expectInt _ _).bind fun a => ?_
    exact (plain_expectInt _ _).bind fun b => .ok (a, b)
  · exact .error trivial

theorem plain_exactly (name : String) (result : Int) : Plain (exactly name result) := by
  unfold exactly
  split
  · exact .ok _
  · exact .error trivial

theorem plain_product (name : String) (done : Word) (args : List Primitive) :
    Plain (product name done args) := by
  induction args generalizing done with
  | nil => exact .ok done
  | cons arg rest ih =>
    refine (plain_expectInt name arg).bind fun factor => ?_
    exact (plain_exactly name _).bind fun done => ih done

theorem plain_apply (native : Native) (args : List Primitive) : Plain (native.apply args) := by
  cases native with
  | add | sub =>
    refine (plain_twoInts _ _).bind fun pair => ?_
    exact (plain_exactly _ _).bind fun result => .ok _
  | mul =>
    unfold apply
    cases args with
    | nil => exact .error trivial
    | cons arg rest => exact (plain_product _ _ _).bind fun result => .ok _
  | eq => exact (plain_twoInts _ _).bind fun pair => .ok _
  | isZero => exact (plain_oneInt _ _).bind fun value => .ok _

theorem plain_unwrap (native : Native) (args : List Value) : Plain (native.unwrap args) := by
  induction args with
  | nil => exact .ok []
  | cons arg rest ih =>
    unfold unwrap
    split
    · exact .error trivial
    · exact ih.bind fun others => .ok _

theorem plain_call (native : Native) (args : List Value) : Plain (native.call args) :=
  (plain_unwrap native args).bind fun args => (plain_apply native args).bind fun _ => .ok _

end Native

end FlatScope
