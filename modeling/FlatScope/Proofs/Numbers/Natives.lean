import FlatScope.Proofs.Tree.Entry
import Mathlib.Algebra.BigOperators.Group.List.Basic
import Mathlib.Algebra.Ring.Int.Defs
import Mathlib.Data.List.Induction

/-!
# What natives answer

`Native.Answers` says for every native and all arguments what the answer is, in terms of unbounded
integers.  An argument that can be called comes first, then the number of arguments, then their types
from left to right, then whether the exact result is a word.  A product is the exception: it looks at
the types and at the products so far in one pass.
-/

namespace FlatScope

/-- An integer that a word can hold. -/
def Word.Fits (n : Int) : Prop := -2 ^ 63 ≤ n ∧ n ≤ 2 ^ 63 - 1

namespace Native

/-! ### The answers -/

/-- The number of arguments; nothing for a native that takes one or more. -/
def arity? : Native → Option Nat
  | add | sub | eq => some 2
  | isZero => some 1
  | mul => none

/-- The exact integer that a native computes. -/
def integer? : Native → List Int → Option Int
  | add, [a, b] => some (a + b)
  | sub, [a, b] => some (a - b)
  | mul, factors => some factors.prod
  | _, _ => none

/-- The truth value that a native computes. -/
def truth? : Native → List Int → Option Bool
  | eq, [a, b] => some (decide (a = b))
  | isZero, [a] => some (decide (a = 0))
  | _, _ => none

/-- Every product of the first factors is a word. -/
def PrefixesFit (factors : List Word) : Prop :=
  ∀ count, Word.Fits ((factors.take count).map Word.val).prod

/-- The answer to a call of a native. -/
inductive Answers : Native → List Value → Except Fault Value → Prop where
  /-- The first argument that can be called is a fault, whatever the number of arguments. -/
  | callable {native : Native} {first : List Value} {arg : Value} {rest : List Value}
      (hfirst : ∀ other ∈ first, other.isCallable = false) (harg : arg.isCallable = true) :
      Answers native (first ++ arg :: rest)
        (.error (.typeMismatch native.name "primitive" arg.typeName))
  | count {native : Native} {args : List Value} {arity : Nat}
      (hplain : ∀ arg ∈ args, arg.isCallable = false) (harity : native.arity? = some arity)
      (hcount : args.length ≠ arity) :
      Answers native args (.error (.arityMismatch native.name arity args.length false))
  /-- Of the right number of arguments the first that is no integer is a fault. -/
  | type {native : Native} {words : List Word} {arg : Value} {rest : List Value}
      (hplain : ∀ other ∈ arg :: rest, other.isCallable = false)
      (harity : native.arity? = some (words.map Value.int ++ arg :: rest).length)
      (harg : ∀ word, arg ≠ .int word) :
      Answers native (words.map Value.int ++ arg :: rest)
        (.error (.typeMismatch native.name "int" arg.typeName))
  | integer {native : Native} {words : List Word} {word : Word}
      (harity : native.arity? = some words.length)
      (hexact : native.integer? (words.map Word.val) = some word.val) :
      Answers native (words.map Value.int) (.ok (.int word))
  | overflow {native : Native} {words : List Word} {exact : Int}
      (harity : native.arity? = some words.length)
      (hexact : native.integer? (words.map Word.val) = some exact) (hover : ¬ Word.Fits exact) :
      Answers native (words.map Value.int) (.error (.integerOverflow native.name))
  | truth {native : Native} {words : List Word} {value : Bool}
      (htruth : native.truth? (words.map Word.val) = some value) :
      Answers native (words.map Value.int) (.ok (.bool value))
  | noFactor : Answers .mul [] (.error (.arityMismatch "mul" 1 0 true))
  /-- An argument of a product is no integer, and nothing is wrong before it. -/
  | factorType {factors : List Word} {arg : Value} {rest : List Value}
      (hfit : PrefixesFit factors) (hplain : ∀ other ∈ arg :: rest, other.isCallable = false)
      (harg : ∀ word, arg ≠ .int word) :
      Answers .mul (factors.map Value.int ++ arg :: rest)
        (.error (.typeMismatch "mul" "int" arg.typeName))
  /-- A product is too large or too small for a word at some argument, and nothing is wrong before
  it.  The arguments after it play no part. -/
  | productOverflow {factors : List Word} {factor : Word} {rest : List Value}
      (hfit : PrefixesFit factors) (hplain : ∀ other ∈ rest, other.isCallable = false)
      (hover : ¬ Word.Fits ((factors ++ [factor]).map Word.val).prod) :
      Answers .mul (factors.map Value.int ++ .int factor :: rest)
        (.error (.integerOverflow "mul"))
  | product {factors : List Word} {word : Word} (hne : factors ≠ []) (hfit : PrefixesFit factors)
      (hexact : mul.integer? (factors.map Word.val) = some word.val) :
      Answers .mul (factors.map Value.int) (.ok (.int word))

/-! ### Exact results -/

theorem exactly_of_val {word : Word} {exact : Int} (name : String) (h : word.val = exact) :
    exactly name exact = .ok word := by
  rw [exactly, Word.ofInt?_eq_some_iff.2 h]

theorem exactly_of_not_fits {exact : Int} (name : String) (h : ¬ Word.Fits exact) :
    exactly name exact = .error (.integerOverflow name) := by
  have hnone : Word.ofInt? exact = none := by
    rw [Word.ofInt?_eq_none_iff]
    unfold Word.Fits at h
    omega
  rw [exactly, hnone]

theorem exists_word {exact : Int} (h : Word.Fits exact) : ∃ word : Word, word.val = exact := by
  unfold Word.Fits at h
  exact ⟨⟨exact, by omega⟩, rfl⟩

/-! ### Arguments that are no callables -/

theorem exists_primitives {args : List Value} (h : ∀ arg ∈ args, arg.isCallable = false) :
    ∃ prims : List Primitive, args = prims.map Primitive.toValue := by
  rcases args_cases args with hprims | ⟨prims, arg, rest, rfl, harg⟩
  · exact hprims
  · rw [h arg (by simp)] at harg
    cases harg

theorem isCallable_toValue (primitive : Primitive) : primitive.toValue.isCallable = false := by
  cases primitive <;> rfl

theorem plain_map_toValue (prims : List Primitive) :
    ∀ arg ∈ prims.map Primitive.toValue, arg.isCallable = false := by
  intro arg harg
  obtain ⟨primitive, -, rfl⟩ := List.mem_map.1 harg
  exact isCallable_toValue primitive

theorem map_int_eq (words : List Word) :
    words.map Value.int = (words.map Primitive.int).map Primitive.toValue := by
  rw [List.map_map]
  rfl

theorem call_map_int (native : Native) (words : List Word) :
    native.call (words.map Value.int) =
      (native.apply (words.map Primitive.int)).map Primitive.toValue := by
  rw [map_int_eq, call_map_toValue]

/-- A call in whose arguments integers come first. -/
theorem call_of_plain (native : Native) (words : List Word) {rest : List Value}
    (h : ∀ arg ∈ rest, arg.isCallable = false) :
    ∃ prims : List Primitive, rest = prims.map Primitive.toValue ∧
      native.call (words.map Value.int ++ rest) =
        (native.apply (words.map Primitive.int ++ prims)).map Primitive.toValue := by
  obtain ⟨prims, rfl⟩ := exists_primitives h
  refine ⟨prims, rfl, ?_⟩
  rw [map_int_eq, ← List.map_append, call_map_toValue]

theorem expectInt_int (name : String) (word : Word) : expectInt name (.int word) = .ok word := rfl

theorem expectInt_of_ne_int {primitive : Primitive} (name : String)
    (h : ∀ word, primitive.toValue ≠ .int word) :
    expectInt name primitive =
      .error (.typeMismatch name "int" primitive.toValue.typeName) := by
  cases primitive with
  | int word => exact absurd rfl (h word)
  | str | bool => rfl

/-! ### Natives with a fixed number of arguments -/

theorem apply_of_count {native : Native} {arity : Nat} {prims : List Primitive}
    (harity : native.arity? = some arity) (hcount : prims.length ≠ arity) :
    native.apply prims = .error (.arityMismatch native.name arity prims.length false) := by
  have hone (name : String) (h : prims.length ≠ 1) :
      oneInt name prims = .error (.arityMismatch name 1 prims.length false) := by
    unfold oneInt
    split
    · exact absurd rfl h
    · rfl
  have htwo (name : String) (h : prims.length ≠ 2) :
      twoInts name prims = .error (.arityMismatch name 2 prims.length false) := by
    unfold twoInts
    split
    · exact absurd rfl h
    · rfl
  cases native with
  | mul => cases harity
  | add | sub | eq =>
    cases harity
    rw [apply, htwo _ hcount]
    rfl
  | isZero =>
    cases harity
    rw [apply, hone _ hcount]
    rfl

theorem apply_of_type {native : Native} {words : List Word} {primitive : Primitive}
    {rest : List Primitive}
    (harity : native.arity? = some (words.map Primitive.int ++ primitive :: rest).length)
    (h : ∀ word, primitive.toValue ≠ .int word) :
    native.apply (words.map Primitive.int ++ primitive :: rest) =
      .error (.typeMismatch native.name "int" primitive.toValue.typeName) := by
  have hint := fun name => expectInt_of_ne_int name h
  -- Either the argument is the first, or it is the second of two.
  obtain _ | ⟨word, _ | ⟨other, words⟩⟩ := words
  · cases native with
    | mul => cases harity
    | add | sub | eq =>
      obtain _ | ⟨second, _ | ⟨third, rest⟩⟩ := rest <;> cases harity
      simp only [List.map_nil, List.nil_append, apply, twoInts, hint]
      rfl
    | isZero =>
      obtain _ | ⟨second, rest⟩ := rest <;> cases harity
      simp only [List.map_nil, List.nil_append, apply, oneInt, hint]
      rfl
  · cases native with
    | mul | isZero => cases harity
    | add | sub | eq =>
      obtain _ | ⟨third, rest⟩ := rest <;> cases harity
      simp only [List.map_cons, List.map_nil, List.cons_append, List.nil_append, apply, twoInts,
        hint, expectInt_int]
      rfl
  · cases native <;> simp [arity?] at harity

/-- A native of a fixed number of integers has its exact result, if that is a word. -/
theorem apply_of_exact {native : Native} {words : List Word} {exact : Int}
    (harity : native.arity? = some words.length)
    (hexact : native.integer? (words.map Word.val) = some exact) :
    native.apply (words.map Primitive.int) = (exactly native.name exact).map Primitive.int := by
  cases native with
  | mul => cases harity
  | eq | isZero => cases hexact
  | add | sub =>
    obtain _ | ⟨a, _ | ⟨b, _ | ⟨c, words⟩⟩⟩ := words <;> cases hexact
    rfl

theorem apply_of_truth {native : Native} {words : List Word} {value : Bool}
    (htruth : native.truth? (words.map Word.val) = some value) :
    native.apply (words.map Primitive.int) = .ok (.bool value) := by
  cases native with
  | add | sub | mul => cases htruth
  | eq =>
    obtain _ | ⟨a, _ | ⟨b, _ | ⟨c, words⟩⟩⟩ := words <;> cases htruth
    rfl
  | isZero =>
    obtain _ | ⟨a, _ | ⟨b, words⟩⟩ := words <;> cases htruth
    rfl

/-! ### Products -/

theorem prefixesFit_nil : PrefixesFit [] := by
  intro count
  rw [List.take_nil]
  unfold Word.Fits
  decide

theorem PrefixesFit.concat {factors : List Word} {factor : Word} (h : PrefixesFit factors)
    (hfits : Word.Fits ((factors ++ [factor]).map Word.val).prod) :
    PrefixesFit (factors ++ [factor]) := by
  intro count
  by_cases hcount : count ≤ factors.length
  · rw [List.take_append_of_le_length hcount]
    exact h count
  · rw [List.take_of_length_le (by simp; omega)]
    exact hfits

theorem PrefixesFit.of_append {first second : List Word} (h : PrefixesFit (first ++ second)) :
    PrefixesFit first := by
  intro count
  have hmin := h (min count first.length)
  rwa [List.take_append_of_le_length (Nat.min_le_right ..), ← List.take_eq_take_min] at hmin

theorem product_int (name : String) (done factor : Word) (rest : List Primitive) :
    product name done (.int factor :: rest) =
      exactly name (done.val * factor.val) >>= fun next => product name next rest := rfl

/-- The loop passes factors whose products are words all along, and goes on with their product. -/
theorem exists_product {factors : List Word} (hfit : PrefixesFit factors) (name : String)
    (rest : List Primitive) :
    ∃ total : Word, total.val = (factors.map Word.val).prod ∧
      product name ⟨1, by decide⟩ (factors.map Primitive.int ++ rest) = product name total rest := by
  induction factors using List.reverseRecOn generalizing rest with
  | nil => exact ⟨_, rfl, rfl⟩
  | append_singleton factors factor ih =>
    obtain ⟨before, hbefore, hproduct⟩ := ih hfit.of_append (.int factor :: rest)
    have hfits := hfit (factors ++ [factor]).length
    rw [List.take_length] at hfits
    obtain ⟨total, htotal⟩ := exists_word hfits
    refine ⟨total, htotal, ?_⟩
    have hstep : total.val = before.val * factor.val := by simp [htotal, hbefore]
    rw [List.map_append, List.append_assoc]
    refine hproduct.trans ?_
    rw [product_int, exactly_of_val name hstep]
    rfl

theorem apply_mul_of_ne_nil {prims : List Primitive} (h : prims ≠ []) :
    mul.apply prims = (product "mul" ⟨1, by decide⟩ prims).map Primitive.int := by
  cases prims with
  | nil => exact absurd rfl h
  | cons first rest => rfl

theorem apply_mul_of_type {factors : List Word} {primitive : Primitive} {rest : List Primitive}
    (hfit : PrefixesFit factors) (h : ∀ word, primitive.toValue ≠ .int word) :
    mul.apply (factors.map Primitive.int ++ primitive :: rest) =
      .error (.typeMismatch "mul" "int" primitive.toValue.typeName) := by
  obtain ⟨total, -, hproduct⟩ := exists_product hfit "mul" (primitive :: rest)
  rw [apply_mul_of_ne_nil (by simp), hproduct, product, expectInt_of_ne_int "mul" h]
  rfl

theorem apply_mul_of_overflow {factors : List Word} {factor : Word} {rest : List Primitive}
    (hfit : PrefixesFit factors)
    (hover : ¬ Word.Fits ((factors ++ [factor]).map Word.val).prod) :
    mul.apply (factors.map Primitive.int ++ .int factor :: rest) =
      .error (.integerOverflow "mul") := by
  obtain ⟨total, htotal, hproduct⟩ := exists_product hfit "mul" (.int factor :: rest)
  have hstep : ¬ Word.Fits (total.val * factor.val) := by simpa [htotal] using hover
  rw [apply_mul_of_ne_nil (by simp), hproduct, product_int, exactly_of_not_fits "mul" hstep]
  rfl

theorem apply_mul_of_fit {factors : List Word} {word : Word} (hne : factors ≠ [])
    (hfit : PrefixesFit factors) (hword : word.val = (factors.map Word.val).prod) :
    mul.apply (factors.map Primitive.int) = .ok (.int word) := by
  obtain ⟨total, htotal, hproduct⟩ := exists_product hfit "mul" []
  obtain rfl : word = total := Word.ofInt?_eq_some_iff.2 (hword.trans htotal.symm) |>.symm.trans
    (Word.ofInt?_eq_some_iff.2 rfl) |> Option.some.inj
  rw [apply_mul_of_ne_nil (by simpa using hne)]
  rw [List.append_nil] at hproduct
  rw [hproduct]
  rfl

/-! ### Every call has its answer -/

theorem call_of_answers {native : Native} {args : List Value} {result : Except Fault Value}
    (h : Answers native args result) : native.call args = result := by
  cases h with
  | callable hfirst harg =>
    obtain ⟨prims, rfl⟩ := exists_primitives hfirst
    exact call_of_callable native prims _ harg
  | count hplain harity hcount =>
    obtain ⟨prims, rfl⟩ := exists_primitives hplain
    rw [List.length_map] at hcount ⊢
    rw [call_map_toValue, apply_of_count harity hcount]
    rfl
  | @type _ words arg rest hplain harity harg =>
    obtain ⟨prims, hprims, hcall⟩ := call_of_plain native words hplain
    obtain _ | ⟨primitive, prims⟩ := prims <;> cases hprims
    have hlength : (words.map Value.int ++ primitive.toValue :: prims.map Primitive.toValue).length =
        (words.map Primitive.int ++ primitive :: prims).length := by simp
    rw [hlength] at harity
    rw [hcall, apply_of_type harity harg]
    rfl
  | integer harity hexact =>
    rw [call_map_int, apply_of_exact harity hexact, exactly_of_val _ rfl]
    rfl
  | overflow harity hexact hover =>
    rw [call_map_int, apply_of_exact harity hexact, exactly_of_not_fits _ hover]
    rfl
  | truth htruth =>
    rw [call_map_int, apply_of_truth htruth]
    rfl
  | noFactor => rfl
  | @factorType factors arg rest hfit hplain harg =>
    obtain ⟨prims, hprims, hcall⟩ := call_of_plain mul factors hplain
    obtain _ | ⟨primitive, prims⟩ := prims <;> cases hprims
    rw [hcall, apply_mul_of_type hfit harg]
    rfl
  | @productOverflow factors factor rest hfit hplain hover =>
    obtain ⟨prims, rfl⟩ := exists_primitives hplain
    have hcall : mul.call (factors.map Value.int ++ .int factor :: prims.map Primitive.toValue) =
        (mul.apply (factors.map Primitive.int ++ .int factor :: prims)).map Primitive.toValue := by
      rw [← call_map_toValue, List.map_append, ← map_int_eq]
      rfl
    rw [hcall, apply_mul_of_overflow hfit hover]
    rfl
  | product hne hfit hexact =>
    rw [call_map_int, apply_mul_of_fit hne hfit (Option.some.inj hexact).symm]
    rfl

theorem ints_cases (prims : List Primitive) :
    (∃ words : List Word, prims = words.map Primitive.int) ∨
      ∃ (words : List Word) (primitive : Primitive) (rest : List Primitive),
        prims = words.map Primitive.int ++ primitive :: rest ∧
          ∀ word, primitive.toValue ≠ .int word := by
  induction prims with
  | nil => exact .inl ⟨[], rfl⟩
  | cons first others ih =>
    cases first with
    | int word =>
      rcases ih with ⟨words, rfl⟩ | ⟨words, primitive, rest, rfl, hprimitive⟩
      · exact .inl ⟨word :: words, rfl⟩
      · exact .inr ⟨word :: words, primitive, rest, rfl, hprimitive⟩
    | str text => exact .inr ⟨[], .str text, others, rfl, fun word h => nomatch h⟩
    | bool value => exact .inr ⟨[], .bool value, others, rfl, fun word h => nomatch h⟩

theorem exact_or_truth {native : Native} {words : List Word}
    (h : native.arity? = some words.length) :
    (∃ exact, native.integer? (words.map Word.val) = some exact) ∨
      ∃ value, native.truth? (words.map Word.val) = some value := by
  cases native with
  | mul => cases h
  | add | sub =>
    obtain _ | ⟨a, _ | ⟨b, _ | ⟨c, words⟩⟩⟩ := words <;> cases h
    exact .inl ⟨_, rfl⟩
  | eq =>
    obtain _ | ⟨a, _ | ⟨b, _ | ⟨c, words⟩⟩⟩ := words <;> cases h
    exact .inr ⟨_, rfl⟩
  | isZero =>
    obtain _ | ⟨a, _ | ⟨b, words⟩⟩ := words <;> cases h
    exact .inr ⟨_, rfl⟩

theorem exists_answers_of_arity {native : Native} {arity : Nat} (harity : native.arity? = some arity)
    (prims : List Primitive) : ∃ result, Answers native (prims.map Primitive.toValue) result := by
  by_cases hcount : (prims.map Primitive.toValue).length = arity
  · subst hcount
    rcases ints_cases prims with ⟨words, rfl⟩ | ⟨words, primitive, rest, rfl, hprimitive⟩
    · rw [List.length_map, List.length_map] at harity
      rw [← map_int_eq]
      rcases exact_or_truth harity with ⟨exact, hexact⟩ | ⟨value, htruth⟩
      · by_cases hfits : Word.Fits exact
        · obtain ⟨word, rfl⟩ := exists_word hfits
          exact ⟨_, .integer harity hexact⟩
        · exact ⟨_, .overflow harity hexact hfits⟩
      · exact ⟨_, .truth htruth⟩
    · rw [List.map_append, ← map_int_eq] at harity ⊢
      exact ⟨_, .type (plain_map_toValue (primitive :: rest)) harity hprimitive⟩
  · exact ⟨_, .count (plain_map_toValue prims) harity hcount⟩

/-- The answer to a product after factors that have passed. -/
theorem exists_answers_mul {factors : List Word} (hfit : PrefixesFit factors)
    (prims : List Primitive) (hne : factors.map Primitive.int ++ prims ≠ []) :
    ∃ result, Answers mul (factors.map Value.int ++ prims.map Primitive.toValue) result := by
  induction prims generalizing factors with
  | nil =>
    rw [List.map_nil, List.append_nil]
    have hfits := hfit factors.length
    rw [List.take_length] at hfits
    obtain ⟨word, hword⟩ := exists_word hfits
    exact ⟨_, .product (by simpa using hne) hfit (congrArg some hword.symm)⟩
  | cons primitive rest ih =>
    by_cases hint : ∃ word, primitive = .int word
    · obtain ⟨factor, rfl⟩ := hint
      by_cases hfits : Word.Fits ((factors ++ [factor]).map Word.val).prod
      · have hnext := ih (hfit.concat hfits) (by simp)
        rwa [List.map_append, List.append_assoc] at hnext
      · exact ⟨_, .productOverflow hfit (plain_map_toValue rest) hfits⟩
    · have hprimitive : ∀ word, primitive.toValue ≠ .int word := by
        intro word hword
        cases primitive <;> cases hword
        exact hint ⟨word, rfl⟩
      exact ⟨_, .factorType hfit (plain_map_toValue (primitive :: rest)) hprimitive⟩

theorem exists_answers (native : Native) (args : List Value) :
    ∃ result, Answers native args result := by
  rcases args_cases args with ⟨prims, rfl⟩ | ⟨prims, arg, rest, rfl, harg⟩
  · cases harity : native.arity? with
    | some arity => exact exists_answers_of_arity harity prims
    | none =>
      cases native <;> cases harity
      cases prims with
      | nil => exact ⟨_, .noFactor⟩
      | cons first rest => exact exists_answers_mul prefixesFit_nil (first :: rest) (by simp)
  · exact ⟨_, .callable (plain_map_toValue prims) harg⟩

theorem call_eq_iff_answers {native : Native} {args : List Value} {result : Except Fault Value} :
    native.call args = result ↔ Answers native args result := by
  refine ⟨fun h => ?_, call_of_answers⟩
  obtain ⟨answer, hanswer⟩ := exists_answers native args
  rw [← h, call_of_answers hanswer]
  exact hanswer

/-- Every native answers every list of arguments, in the one way that `Answers` says.  An integer
that it gives is the exact result for arguments that are all integers. -/
theorem natives_answer_exactly (native : Native) (args : List Value) :
    (∀ result, native.call args = result ↔ Answers native args result) ∧
      ∀ word, native.call args = .ok (.int word) →
        ∃ words : List Word, args = words.map Value.int ∧
          native.integer? (words.map Word.val) = some word.val := by
  refine ⟨fun result => call_eq_iff_answers, fun word hcall => ?_⟩
  cases call_eq_iff_answers.1 hcall with
  | integer harity hexact => exact ⟨_, rfl, hexact⟩
  | product hne hfit hexact => exact ⟨_, rfl, hexact⟩

/-- A product that is too large on the way is refused, though the last factor is zero. -/
example : mul.call [.int ⟨4294967296, by decide⟩, .int ⟨4294967296, by decide⟩, .int ⟨0, by decide⟩,
    .str "no factor"] = .error (.integerOverflow "mul") := by
  decide

end Native

end FlatScope
