import FlatScope.Proofs.Calls.Natives
import FlatScope.Proofs.Scope.Names
import FlatScope.Proofs.Scope.Start
import Mathlib.Control.Monad.Basic

/-!
# Scope soundness

A name that the first frame binds is bound in every frame that is ever current, since frames are made
by copying and lose no names.  With lexical scoping a closure runs in a copy of the frame in which it
was made, so a name is missing only where the program uses it free.  Both are facts about the rules
of evaluation, and hold of the machine because it agrees with the rules.
-/

namespace FlatScope

theorem Use.fault_ne {use : Use} {name : String} {fault : Fault}
    (href : ∀ other, fault ≠ .unboundIdentifier other)
    (hassign : ∀ other, fault ≠ .unassignedVariable other) : fault ≠ use.fault name := by
  cases use with
  | reference => exact href name
  | assignment => exact hassign name

theorem Fault.OfNative.ne_use {fault : Fault} (h : fault.OfNative) (use : Use) (name : String) :
    fault ≠ use.fault name := by
  rintro rfl
  cases use <;> exact h

namespace Tree

/-! ### Scopes that bind a name -/

def Heap.Binds (heap : Heap) (frame : FrameId) (name : String) : Prop :=
  (heap.scopes frame name).isSome

/-- Every scope that binds a name in one heap binds it in another. -/
def Heap.Keeps (name : String) (before after : Heap) : Prop :=
  ∀ frame, before.Binds frame name → after.Binds frame name

theorem Heap.Keeps.trans {name : String} {before mid after : Heap} (h : Keeps name before mid)
    (h' : Keeps name mid after) : Keeps name before after :=
  fun frame hframe => h' frame (h frame hframe)

theorem Heap.binds_copy {name : String} {heap : Heap} {base : FrameId}
    {added : String → Option Value} (h : (added name).isSome ∨ heap.Binds base name) :
    (heap.copy base added).Binds ⟨heap.size⟩ name := by
  simp only [Heap.Binds, Heap.copy, if_true, Option.isSome_or, Bool.or_eq_true]
  exact h

/-- A use of a name, watched in evaluations with a configuration. -/
structure Watch where
  config : Config
  use : Use
  name : String

namespace Watch

variable {watch : Watch}

/-- In a given frame an expression does not miss the name: the frame binds it, or, with lexical
scoping, the expression does not use it free. -/
def Covers (watch : Watch) (heap : Heap) (frame : FrameId) (expr : Expr) : Prop :=
  heap.Binds frame watch.name ∨ watch.config.scoping = .lexical ∧ watch.name ∉ expr.free watch.use

/-- With lexical scoping, a body does not miss the name in the frame in which its closure was made,
unless the name is a parameter. -/
def Harmless (watch : Watch) (heap : Heap) : Value → Prop
  | .closure params body captured _ => watch.config.scoping = .lexical → watch.name ∉ params →
    watch.Covers heap captured body
  | _ => True

structure Sound (watch : Watch) (heap : Heap) : Prop where
  /-- No scope is there before it is made. -/
  fresh : ∀ frame key, heap.size ≤ frame.index → heap.scopes frame key = none
  values : ∀ frame key value, heap.scopes frame key = some value → watch.Harmless heap value

def Allows (watch : Watch) (heap : Heap) : Result → Prop
  | .ok value => watch.Harmless heap value
  | .error fault => fault ≠ watch.use.fault watch.name

/-- What an evaluation leaves: every scope that bound the name does, and the heap is sound. -/
structure Moves (watch : Watch) (before after : Heap) : Prop where
  keeps : before.Keeps watch.name after
  sound : watch.Sound after

/-- An evaluation that leaves a sound heap and does not fail over the name. -/
def Safe (watch : Watch) (before : Heap) (result : Result) (after : Heap) : Prop :=
  watch.Moves before after ∧ watch.Allows after result

variable {heap before mid after : Heap} {frame : FrameId} {result : Result}

theorem Moves.refl (hsound : watch.Sound heap) : watch.Moves heap heap :=
  ⟨fun _ h => h, hsound⟩

theorem Moves.trans (h : watch.Moves before mid) (h' : watch.Moves mid after) :
    watch.Moves before after :=
  ⟨h.keeps.trans h'.keeps, h'.sound⟩

theorem Moves.safe (h : watch.Moves before mid) (h' : watch.Safe mid result after) :
    watch.Safe before result after :=
  ⟨h.trans h'.1, h'.2⟩

theorem safe_value {value : Value} (hsound : watch.Sound heap) (h : watch.Harmless heap value) :
    watch.Safe heap (.ok value) heap :=
  ⟨.refl hsound, h⟩

theorem safe_fault {fault : Fault} (hsound : watch.Sound heap)
    (h : fault ≠ watch.use.fault watch.name) : watch.Safe heap (.error fault) heap :=
  ⟨.refl hsound, h⟩

theorem Covers.keeps {expr : Expr} (h : watch.Covers before frame expr)
    (hkeeps : before.Keeps watch.name after) : watch.Covers after frame expr :=
  h.imp_left (hkeeps frame)

theorem Harmless.keeps {value : Value} (h : watch.Harmless before value)
    (hkeeps : before.Keeps watch.name after) : watch.Harmless after value := by
  cases value with
  | int | str | bool | native => trivial
  | closure params body captured serial =>
    intro hlexical hname
    exact (h hlexical hname).keeps hkeeps

/-- What is covered in a frame covers every expression that needs no more of the frame. -/
theorem Covers.mono {whole part : Expr} (h : watch.Covers heap frame whole)
    (hfree : watch.name ∈ part.free watch.use → watch.name ∈ whole.free watch.use) :
    watch.Covers heap frame part :=
  h.imp_right fun ⟨hlexical, hname⟩ => ⟨hlexical, fun hpart => hname (hfree hpart)⟩

theorem Covers.direct {whole part : Expr} (h : watch.Covers heap frame whole)
    (hpart : part ∈ whole.direct) : watch.Covers heap frame part :=
  h.mono (Expr.free_of_direct hpart)

theorem Covers.operator {operator : Expr} {operands : List Expr}
    (h : watch.Covers heap frame (.apply operator operands)) : watch.Covers heap frame operator :=
  h.direct (List.mem_cons_self ..)

theorem Covers.operand {operator : Expr} {operands : List Expr}
    (h : watch.Covers heap frame (.apply operator operands)) :
    ∀ operand ∈ operands, watch.Covers heap frame operand :=
  fun _ hoperand => h.direct (List.mem_cons_of_mem _ hoperand)

theorem Covers.clause {clauses : List (Expr × Expr)}
    (h : watch.Covers heap frame (.cond clauses)) : ∀ clause ∈ clauses,
      watch.Covers heap frame clause.1 ∧ watch.Covers heap frame clause.2 := by
  intro clause hclause
  constructor
  · exact h.direct (Expr.mem_direct_cond_iff.2 ⟨clause, hclause, .inl rfl⟩)
  · exact h.direct (Expr.mem_direct_cond_iff.2 ⟨clause, hclause, .inr rfl⟩)

theorem Covers.init {bound : String} {init body : Expr}
    (h : watch.Covers heap frame (.letIn bound init body)) : watch.Covers heap frame init :=
  h.direct (List.mem_cons_self ..)

theorem Covers.assigned {target : String} {value : Expr}
    (h : watch.Covers heap frame (.assign target value)) : watch.Covers heap frame value :=
  h.direct (List.mem_cons_self ..)

/-! ### Heaps that change -/

theorem Sound.assign {target : String} {value old : Value} (h : watch.Sound heap)
    (hvalue : watch.Harmless heap value) (hbound : heap.scopes frame target = some old) :
    watch.Moves heap (heap.assign frame target value) := by
  have hkeeps : heap.Keeps watch.name (heap.assign frame target value) := by
    intro other hother
    simp only [Heap.Binds, Heap.assign]
    split
    · rfl
    · exact hother
  refine ⟨hkeeps, fun other key hother => ?_, fun other key found hfound => ?_⟩
  · have hne : ¬ (other = frame ∧ key = target) := by
      rintro ⟨rfl, rfl⟩
      cases (h.fresh other key hother).symm.trans hbound
    simp only [Heap.assign, if_neg hne]
    exact h.fresh other key hother
  · simp only [Heap.assign] at hfound
    split at hfound
    · cases hfound
      exact hvalue.keeps hkeeps
    · exact (h.values other key found hfound).keeps hkeeps

theorem Sound.copy {base : FrameId} {added : String → Option Value} (h : watch.Sound heap)
    (hadded : ∀ key value, added key = some value → watch.Harmless heap value) :
    watch.Moves heap (heap.copy base added) := by
  have hkeeps : heap.Keeps watch.name (heap.copy base added) := by
    intro other hother
    have hne : other ≠ ⟨heap.size⟩ := by
      rintro rfl
      rw [Heap.Binds, h.fresh ⟨heap.size⟩ _ (Nat.le_refl _)] at hother
      cases hother
    simp only [Heap.Binds, Heap.copy, if_neg hne]
    exact hother
  refine ⟨hkeeps, fun other key hother => ?_, fun other key found hfound => ?_⟩
  · have hsize : heap.size + 1 ≤ other.index := hother
    have hne : other ≠ ⟨heap.size⟩ := by
      rintro rfl
      simp only at hsize
      omega
    simp only [Heap.copy, if_neg hne]
    exact h.fresh other key (by omega)
  · simp only [Heap.copy] at hfound
    split at hfound
    · rcases Option.or_eq_some_iff.1 hfound with hnew | ⟨-, hold⟩
      · exact (hadded key found hnew).keeps hkeeps
      · exact (h.values base key found hold).keeps hkeeps
    · exact (h.values other key found hfound).keeps hkeeps

theorem Sound.newClosure (h : watch.Sound heap) :
    watch.Moves heap { heap with closures := heap.closures + 1 } := by
  refine ⟨fun _ hframe => hframe, h.fresh, fun other key found hfound => ?_⟩
  exact (h.values other key found hfound).keeps fun _ hframe => hframe

/-- The scope of a `let` body covers it. -/
theorem Sound.letIn {bound : String} {init body : Expr} {value : Value} (h : watch.Sound heap)
    (hcovers : watch.Covers heap frame (.letIn bound init body))
    (hvalue : watch.Harmless heap value) :
    watch.Moves heap (heap.copy frame fun key => if key = bound then some value else none) ∧
      watch.Covers (heap.copy frame fun key => if key = bound then some value else none)
        ⟨heap.size⟩ body := by
  constructor
  · refine h.copy fun key found hfound => ?_
    split at hfound
    · cases hfound
      exact hvalue
    · cases hfound
  · by_cases hname : watch.name = bound
    · exact .inl (Heap.binds_copy (.inl (by simp [hname])))
    · rcases hcovers with hbinds | ⟨hlexical, hfree⟩
      · exact .inl (Heap.binds_copy (.inr hbinds))
      · exact .inr ⟨hlexical, fun hbody => hfree (Expr.free_letIn_body hbody hname)⟩

/-- The scope of a call covers the body of the closure.  With dynamic scoping the frame of the caller
has to bind the name. -/
theorem Sound.enter {params : List String} {body : Expr} {captured scope : FrameId} {serial : Nat}
    {args : List Value} (h : watch.Sound heap)
    (hclosure : watch.Harmless heap (.closure params body captured serial))
    (hcaller : heap.Binds frame watch.name ∨ watch.config.scoping = .lexical)
    (hargs : ∀ arg ∈ args, watch.Harmless heap arg) (hcount : params.length = args.length)
    (hscope : heap.enter (base watch.config.scoping captured frame) params args = (scope, after)) :
    watch.Moves heap after ∧ watch.Covers after scope body := by
  -- Whichever frame the call extends, it covers what the parameters leave of the body.
  have hbase : watch.name ∉ params →
      watch.Covers heap (base watch.config.scoping captured frame) body := by
    intro hname
    cases hscoping : watch.config.scoping with
    | lexical => exact hclosure hscoping hname
    | dynamic =>
      rcases hcaller with hbinds | hlexical
      · exact .inl hbinds
      · cases hscoping.symm.trans hlexical
  unfold Heap.enter at hscope
  by_cases hparams : params = []
  · rw [if_pos hparams] at hscope
    cases hscope
    exact ⟨.refl h, hbase (by simp [hparams])⟩
  · rw [if_neg hparams] at hscope
    cases hscope
    constructor
    · refine h.copy fun key found hfound => ?_
      obtain ⟨first, rest, hsplit, -⟩ := List.lookup_eq_some_iff.1 hfound
      have hmem : (key, found) ∈ params.zip args := by simp [hsplit]
      exact hargs found (List.of_mem_zip hmem).2
    · by_cases hname : watch.name ∈ params
      · refine .inl (Heap.binds_copy (.inl (List.lookup_isSome_iff.2 ?_)))
        have hkeys : watch.name ∈ (params.zip args).map Prod.fst := by
          rw [List.map_fst_zip (Nat.le_of_eq hcount)]
          exact hname
        obtain ⟨entry, hentry, heq⟩ := List.mem_map.1 hkeys
        exact ⟨entry, hentry, by simp [heq]⟩
      · rcases hbase hname with hbinds | hfree
        · exact .inl (Heap.binds_copy (.inr hbinds))
        · exact .inr hfree

/-! ### Evaluation -/

theorem allows_ofPrimitive {result : Except Fault Primitive} (h : Native.Plain result) :
    watch.Allows heap (result.map Value.ofPrimitive) := by
  cases result with
  | error fault => exact (h fault rfl).ne_use _ _
  | ok primitive => cases primitive <;> trivial

mutual

theorem safe_of_eval {depth : Nat} {frame : FrameId} {expr : Expr} {heap heap' : Heap}
    {result : Result} : Eval watch.config depth frame expr heap result heap' →
    watch.Sound heap → watch.Covers heap frame expr → watch.Safe heap result heap'
  | .int _ _ _, hsound, _ => safe_value hsound trivial
  | .intRange _, hsound, _ => safe_fault hsound (Use.fault_ne (by simp) (by simp))
  | .str _, hsound, _ => safe_value hsound trivial
  | .unknown _, hsound, _ => safe_fault hsound (Use.fault_ne (by simp) (by simp))
  | .ident hbound, hsound, _ => safe_value hsound (hsound.values _ _ _ hbound)
  | .unbound hunbound, hsound, hcovers => by
    refine safe_fault hsound fun hfault => ?_
    cases huse : watch.use with
    | assignment =>
      rw [huse] at hfault
      cases hfault
    | reference =>
      rw [huse] at hfault
      cases hfault
      rcases hcovers with hbinds | ⟨-, hfree⟩
      · rw [Heap.Binds, hunbound] at hbinds
        cases hbinds
      · exact hfree (by simp [Expr.free, huse])
  | .lambda params body, hsound, hcovers => by
    refine ⟨hsound.newClosure, fun _ hname => ?_⟩
    exact hcovers.mono fun hbody => Expr.free_lambda hbody hname
  | .block h, hsound, hcovers => safe_of_evalBlock h hsound fun _ => hcovers.direct
  | .cond h, hsound, hcovers => safe_of_evalCond h hsound hcovers.clause
  | .letIn hinit hbody, hsound, hcovers => by
    obtain ⟨hmoves, hvalue⟩ := safe_of_eval hinit hsound hcovers.init
    obtain ⟨hmoves', hcovers'⟩ := hmoves.sound.letIn (hcovers.keeps hmoves.keeps) hvalue
    exact (hmoves.trans hmoves').safe (safe_of_eval hbody hmoves'.sound hcovers')
  | .letInFault hinit, hsound, hcovers => safe_of_eval hinit hsound hcovers.init
  | .assign hvalue hbound, hsound, hcovers => by
    obtain ⟨hmoves, hharmless⟩ := safe_of_eval hvalue hsound hcovers.assigned
    have hassign := hmoves.sound.assign hharmless hbound
    exact ⟨hmoves.trans hassign, hharmless.keeps hassign.keeps⟩
  | .assignUnbound hvalue hunbound, hsound, hcovers => by
    obtain ⟨hmoves, -⟩ := safe_of_eval hvalue hsound hcovers.assigned
    refine ⟨hmoves, fun hfault => ?_⟩
    cases huse : watch.use with
    | reference =>
      rw [huse] at hfault
      cases hfault
    | assignment =>
      rw [huse] at hfault
      cases hfault
      rcases hcovers.keeps hmoves.keeps with hbinds | ⟨-, hfree⟩
      · rw [Heap.Binds, hunbound] at hbinds
        cases hbinds
      · exact hfree (by simp [Expr.free, huse])
  | .assignFault hvalue, hsound, hcovers => safe_of_eval hvalue hsound hcovers.assigned
  | .apply hoperator _ hoperands hcall, hsound, hcovers => by
    obtain ⟨hmoves, hcallee⟩ := safe_of_eval hoperator hsound hcovers.operator
    have hcovers' := hcovers.keeps hmoves.keeps
    obtain ⟨hmoves', hargs⟩ := safe_of_evalList hoperands hmoves.sound hcovers'.operand
    have hcaller := (hcovers'.keeps hmoves'.keeps).imp_right And.left
    exact (hmoves.trans hmoves').safe
      (safe_of_call hcall hmoves'.sound hcaller (hcallee.keeps hmoves'.keeps) hargs)
  | .applyOperatorFault hoperator, hsound, hcovers => safe_of_eval hoperator hsound hcovers.operator
  | .applyNotCallable hoperator _, hsound, hcovers =>
    ⟨(safe_of_eval hoperator hsound hcovers.operator).1, Use.fault_ne (by simp) (by simp)⟩
  | .applyOperandFault hoperator _ hoperands, hsound, hcovers => by
    obtain ⟨hmoves, -⟩ := safe_of_eval hoperator hsound hcovers.operator
    have hcovers' := hcovers.keeps hmoves.keeps
    obtain ⟨hmoves', hfault⟩ := safe_of_evalList hoperands hmoves.sound hcovers'.operand
    exact ⟨hmoves.trans hmoves', hfault⟩

theorem safe_of_evalBlock {depth : Nat} {frame : FrameId} {items : List Expr} {heap heap' : Heap}
    {result : Result} : EvalBlock watch.config depth frame items heap result heap' →
    watch.Sound heap → (∀ item ∈ items, watch.Covers heap frame item) →
    watch.Safe heap result heap'
  | .nil, hsound, _ => safe_value hsound trivial
  | .last h, hsound, hcovers => safe_of_eval h hsound (hcovers _ (List.mem_cons_self ..))
  | .cons hitem hrest, hsound, hcovers => by
    obtain ⟨hmoves, -⟩ := safe_of_eval hitem hsound (hcovers _ (List.mem_cons_self ..))
    refine hmoves.safe (safe_of_evalBlock hrest hmoves.sound fun other hother => ?_)
    exact (hcovers other (List.mem_cons_of_mem _ hother)).keeps hmoves.keeps
  | .fault hitem, hsound, hcovers => safe_of_eval hitem hsound (hcovers _ (List.mem_cons_self ..))

theorem safe_of_evalCond {depth : Nat} {frame : FrameId} {clauses : List (Expr × Expr)}
    {heap heap' : Heap} {result : Result} :
    EvalCond watch.config depth frame clauses heap result heap' → watch.Sound heap →
    (∀ clause ∈ clauses, watch.Covers heap frame clause.1 ∧ watch.Covers heap frame clause.2) →
    watch.Safe heap result heap'
  | .nil, hsound, _ => safe_value hsound trivial
  | .selected htest hconsequence, hsound, hcovers => by
    have hclause := hcovers _ (List.mem_cons_self ..)
    obtain ⟨hmoves, -⟩ := safe_of_eval htest hsound hclause.1
    exact hmoves.safe
      (safe_of_eval hconsequence hmoves.sound (hclause.2.keeps hmoves.keeps))
  | .skipped htest hrest, hsound, hcovers => by
    obtain ⟨hmoves, -⟩ := safe_of_eval htest hsound (hcovers _ (List.mem_cons_self ..)).1
    refine hmoves.safe (safe_of_evalCond hrest hmoves.sound fun other hother => ?_)
    have hclause := hcovers other (List.mem_cons_of_mem _ hother)
    exact ⟨hclause.1.keeps hmoves.keeps, hclause.2.keeps hmoves.keeps⟩
  | .notBoolean htest _, hsound, hcovers =>
    ⟨(safe_of_eval htest hsound (hcovers _ (List.mem_cons_self ..)).1).1,
      Use.fault_ne (by simp) (by simp)⟩
  | .fault htest, hsound, hcovers => safe_of_eval htest hsound (hcovers _ (List.mem_cons_self ..)).1

theorem safe_of_evalList {depth : Nat} {frame : FrameId} {items : List Expr} {heap heap' : Heap}
    {values : Except Fault (List Value)} :
    EvalList watch.config depth frame items heap values heap' → watch.Sound heap →
    (∀ item ∈ items, watch.Covers heap frame item) → watch.Moves heap heap' ∧
      match values with
      | .ok values => ∀ value ∈ values, watch.Harmless heap' value
      | .error fault => fault ≠ watch.use.fault watch.name
  | .nil, hsound, _ => ⟨.refl hsound, fun _ hvalue => nomatch hvalue⟩
  | .cons hitem hrest, hsound, hcovers => by
    obtain ⟨hmoves, hvalue⟩ := safe_of_eval hitem hsound (hcovers _ (List.mem_cons_self ..))
    obtain ⟨hmoves', hvalues⟩ := safe_of_evalList hrest hmoves.sound fun other hother =>
      (hcovers other (List.mem_cons_of_mem _ hother)).keeps hmoves.keeps
    refine ⟨hmoves.trans hmoves', fun other hother => ?_⟩
    rcases List.mem_cons.1 hother with rfl | hrest
    · exact Harmless.keeps hvalue hmoves'.keeps
    · exact hvalues other hrest
  | .fault hitem, hsound, hcovers => safe_of_eval hitem hsound (hcovers _ (List.mem_cons_self ..))
  | .restFault hitem hrest, hsound, hcovers => by
    obtain ⟨hmoves, -⟩ := safe_of_eval hitem hsound (hcovers _ (List.mem_cons_self ..))
    obtain ⟨hmoves', hfault⟩ := safe_of_evalList hrest hmoves.sound fun other hother =>
      (hcovers other (List.mem_cons_of_mem _ hother)).keeps hmoves.keeps
    exact ⟨hmoves.trans hmoves', hfault⟩

theorem safe_of_call {depth : Nat} {frame : FrameId} {known : Option String} {callee : Value}
    {args : List Value} {heap heap' : Heap} {result : Result} :
    Call watch.config depth frame known callee args heap result heap' → watch.Sound heap →
    (heap.Binds frame watch.name ∨ watch.config.scoping = .lexical) →
    watch.Harmless heap callee → (∀ arg ∈ args, watch.Harmless heap arg) →
    watch.Safe heap result heap'
  | .native _, hsound, _, _, _ =>
    ⟨.refl hsound, allows_ofPrimitive (Native.plain_apply _ _)⟩
  | .nativeMismatch _ _, hsound, _, _, _ => safe_fault hsound (Use.fault_ne (by simp) (by simp))
  | .arity _, hsound, _, _, _ => safe_fault hsound (Use.fault_ne (by simp) (by simp))
  | .duplicate _ _ _ _, hsound, _, _, _ => safe_fault hsound (Use.fault_ne (by simp) (by simp))
  | .overflow hcount _ hscope _ _, hsound, hcaller, hclosure, hargs =>
    ⟨(hsound.enter hclosure hcaller hargs hcount hscope).1, Use.fault_ne (by simp) (by simp)⟩
  | .body hcount _ hscope _ hbody, hsound, hcaller, hclosure, hargs => by
    obtain ⟨hmoves, hcovers⟩ := hsound.enter hclosure hcaller hargs hcount hscope
    exact hmoves.safe (safe_of_eval hbody hmoves.sound hcovers)

end

end Watch

end Tree

/-! ### Programs -/

namespace Program

variable {program : Program} {names : NameTable} {expr : Expr} {config : Config}
  {defines : List (String × Word)} {use : Use} {name : String} {backtrace : Option Backtrace}

theorem namesParams_start (setting : Setting) (frame : FrameId) :
    setting.NamesParams (start names defines).2 frame := by
  intro id name closure _ hlookup
  exact absurd rfl (not_closure_of_lookup_start hlookup closure)

theorem sound_start (setting : Setting) (watch : Tree.Watch) :
    watch.Sound (setting.heap (start names defines).2) := by
  constructor
  · intro frame key hframe
    have hne : frame ≠ startFrame := by
      rintro rfl
      simp only [Setting.heap, size_start] at hframe
      exact absurd hframe (by decide)
    simp only [Setting.heap]
    cases setting.names.find? key with
    | none => rfl
    | some found => rw [Option.bind_some, lookup_start_of_ne found hne]; rfl
  · intro frame key value hvalue
    obtain ⟨found, hfound, rfl⟩ := Option.map_eq_some_iff.1 hvalue
    obtain ⟨_, _, hlookup⟩ := Option.bind_eq_some_iff.1 hfound
    cases found with
    | int | str | bool | native => trivial
    | closure closure => exact absurd rfl (not_closure_of_lookup_start hlookup closure)

theorem binds_start_iff :
    ((startSetting program names config defines).heap (start names defines).2).Binds startFrame name ↔
      (startValue? defines name).isSome := by
  rw [Tree.Heap.Binds, Setting.heap, Option.isSome_map, ← find?_start names defines name]
  exact Iff.rfl

/-- A program that fails over a name does not find it in its first frame; with lexical scoping, the
name is free in the program. -/
theorem free_of_runProgram {steps : Nat} (hdecoded : Decoded program names expr)
    (h : runProgram steps program names config defines =
      .error (.halt (.raised ⟨use.fault name, backtrace⟩))) :
    startValue? defines name = none ∧ (config.scoping = .lexical → name ∈ expr.free use) := by
  let setting := startSetting program names config defines
  have hkept := keptBy_start names defines
  have hread : setting.Readable := hdecoded.readable.keptBy (.refl _) hkept rfl
  have hroot : setting.exprAt program.root = expr :=
    Setting.exprAt_of_expr? (Code.expr?_keptBy (.refl _) hkept hdecoded.root)
  rw [runProgram_eq_start] at h
  split at h
  · cases h
  · rename_i halt memory hrun
    cases h
    obtain ⟨result, hresult, heval⟩ := Setting.exists_eval_of_run hread
      (namesParams_start setting startFrame) hrun
    cases hresult
    rw [hroot] at heval
    let watch : Tree.Watch := ⟨config, use, name⟩
    have hmissing : ¬ watch.Covers (setting.heap (start names defines).2) startFrame expr :=
      fun hcovers => (Tree.Watch.safe_of_eval heval (sound_start setting watch) hcovers).2 rfl
    constructor
    · cases hvalue : startValue? defines name with
      | none => rfl
      | some value =>
        have hbound : (startValue? defines name).isSome := by simp [hvalue]
        exact absurd (.inl (binds_start_iff.2 hbound)) hmissing
    · intro hlexical
      by_cases hfree : name ∈ expr.free use
      · exact hfree
      · exact absurd (.inr ⟨hlexical, hfree⟩) hmissing
  · cases h

theorem exists_of_runText_eq_halt {engine : Engine} {text : String} {options : Options}
    {scopingValue : Option String} {halt : Halt}
    (h : runText engine text options scopingValue = .error (.halt halt)) :
    ∃ config expr program names, options.config scopingValue = .ok config ∧
      Denotes engine.numbers text expr ∧ Decoded program names expr ∧
      runProgram engine.steps program names config options.defines = .error (.halt halt) := by
  cases hconfig : options.config scopingValue with
  | error error =>
    simp only [runText, hconfig] at h
    cases h
  | ok config =>
    rcases runText_cases engine text with
      ⟨error, herror⟩ | ⟨expr, program, names, hdenotes, hdecoded, hrun⟩
    · rw [herror options scopingValue config hconfig] at h
      cases h
    · rw [hrun options scopingValue config hconfig] at h
      exact ⟨config, expr, program, names, rfl, hdenotes, hdecoded, h⟩

/-- With either scoping, no program fails over a reference or an assignment to a name that its first
frame binds.  With lexical scoping, it fails over a name only if the name is used free in it, so a
program that uses free only what its first frame binds never fails over a name. -/
theorem missing_name_is_free_and_not_defined (engine : Engine) (text : String) (options : Options)
    (scopingValue : Option String) :
    (∀ use name backtrace, (startValue? options.defines name).isSome →
      runText engine text options scopingValue ≠
        .error (.halt (.raised ⟨Use.fault use name, backtrace⟩))) ∧
    ∀ config, options.config scopingValue = .ok config → config.scoping = .lexical →
      (∀ use name backtrace, runText engine text options scopingValue =
          .error (.halt (.raised ⟨Use.fault use name, backtrace⟩)) →
        ∃ expr, Denotes engine.numbers text expr ∧ name ∈ expr.free use) ∧
      ((∀ expr, Denotes engine.numbers text expr → ∀ use, ∀ name ∈ expr.free use,
          (startValue? options.defines name).isSome) →
        ∀ use name backtrace, runText engine text options scopingValue ≠
          .error (.halt (.raised ⟨Use.fault use name, backtrace⟩))) := by
  have hdefined : ∀ use name backtrace, (startValue? options.defines name).isSome →
      runText engine text options scopingValue ≠
        .error (.halt (.raised ⟨Use.fault use name, backtrace⟩)) := by
    intro use name backtrace hbound hfails
    obtain ⟨config, expr, program, names, -, -, hdecoded, hrun⟩ := exists_of_runText_eq_halt hfails
    rw [(free_of_runProgram hdecoded hrun).1] at hbound
    cases hbound
  refine ⟨hdefined, fun config hconfig hlexical => ?_⟩
  have hfree : ∀ use name backtrace, runText engine text options scopingValue =
      .error (.halt (.raised ⟨Use.fault use name, backtrace⟩)) →
        ∃ expr, Denotes engine.numbers text expr ∧ name ∈ expr.free use := by
    intro use name backtrace hfails
    obtain ⟨other, expr, program, names, hother, hdenotes, hdecoded, hrun⟩ :=
      exists_of_runText_eq_halt hfails
    cases hconfig.symm.trans hother
    exact ⟨expr, hdenotes, (free_of_runProgram hdecoded hrun).2 hlexical⟩
  refine ⟨hfree, fun hscoped use name backtrace hfails => ?_⟩
  obtain ⟨expr, hdenotes, hname⟩ := hfree use name backtrace hfails
  exact hdefined use name backtrace (hscoped expr hdenotes use name hname) hfails

/-- The text of a call of a closure without parameters that refers to `y`. -/
def callForY : String :=
  "\x7b\"Application\":[\x7b\"Lambda\":[\x7b\"Parameters\":[]\x7d,\x7b\"Identifier\":\"y\"\x7d]\x7d]\x7d"

/-- The call fails over `y`, which is free in it.  It does not fail over `y` once that is defined. -/
theorem missing_name_is_free_and_not_defined_callForY :
    runText .standard callForY .default none =
        .error (.halt (.raised ⟨Use.fault .reference "y", some ⟨["<lambda>"]⟩⟩)) ∧
      (∃ expr, Denotes Engine.standard.numbers callForY expr ∧ "y" ∈ expr.free .reference) ∧
      (startValue? [("y", ⟨3, by decide⟩)] "y").isSome ∧
      ∀ use backtrace, runText .standard callForY { Options.default with defines := [("y", ⟨3, by decide⟩)] }
        none ≠ .error (.halt (.raised ⟨Use.fault use "y", backtrace⟩)) := by
  have hfails : runText .standard callForY .default none =
      .error (.halt (.raised ⟨Use.fault .reference "y", some ⟨["<lambda>"]⟩⟩)) := by decide +kernel
  have hbound : (startValue? [("y", ⟨3, by decide⟩)] "y").isSome := rfl
  have hall := missing_name_is_free_and_not_defined .standard callForY .default none
  have hfree := (hall.2 _ rfl rfl).1 .reference "y" _ hfails
  have hdefined := (missing_name_is_free_and_not_defined .standard callForY
    { Options.default with defines := [("y", ⟨3, by decide⟩)] } none).1
  exact ⟨hfails, hfree, hbound, fun use backtrace => hdefined use "y" backtrace hbound⟩

end Program

end FlatScope
