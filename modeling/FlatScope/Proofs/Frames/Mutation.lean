import FlatScope.Proofs.Frames.Confinement
import FlatScope.Proofs.Tree.Refinement

/-!
# Which frames a program changes

With lexical scoping, evaluation changes the frame it starts in and the frames of the closures
without parameters that this frame can reach.  With dynamic scoping it changes the frame it starts
in and no other.  With either, only names that the code assigns to get other values, and no frame
that was there gains or loses a name.
-/

namespace FlatScope

/-- A closure is bound in a frame that a given frame can reach. -/
def Store.Sees (store : Store) (start : FrameId) (closure : Closure) : Prop :=
  ∃ id name, store.Reachable start id ∧ store.lookup id name = some (.closure closure)

theorem Store.lookup_eq_none_of_not_holds {store : Store} {id : FrameId} (name : Name)
    (hid : ¬ store.Holds id) : store.lookup id name = none := by
  rw [lookup, bindings_of_not_holds hid]
  rfl

namespace Setting

variable {setting : Setting} {store : Store} {frame other : FrameId}

/-! ### Lexical scoping -/

/-- Evaluation comes to the frames that it can reach, and writes to those that become current. -/
def lexicalRegion (store : Store) (start : FrameId) : Region where
  known := Scope store start
  writable id := id = start ∨
    (∃ closure, store.Sees start closure ∧ closure.params = [] ∧ closure.frame = id) ∨
      store.frames.size ≤ id.index
  known_of_writable id hid := by
    rcases hid with rfl | ⟨closure, ⟨owner, name, howner, hbound⟩, -, rfl⟩ | hfresh
    · exact .inl .refl
    · exact .inl (howner.step hbound)
    · exact .inr hfresh

theorem covers_lexicalRegion (setting : Setting) (store : Store) (start : FrameId) :
    setting.Covers (lexicalRegion store start) store := by
  refine ⟨fun id hid => .inr (.inr hid), ?_⟩
  intro id name value hid hlookup
  cases value with
  | int | str | bool | native => trivial
  | closure closure =>
    rcases hid with hreach | hfresh
    · have hsees : store.Sees start closure := ⟨id, name, hreach, hlookup⟩
      intro _
      refine ⟨.inl (hreach.step hlookup), fun hparams => ?_⟩
      exact .inr (.inl ⟨closure, hsees, hparams, rfl⟩)
    · rw [Store.lookup_eq_none_of_not_holds name (Nat.not_lt.2 hfresh)] at hlookup
      cases hlookup

/-- Evaluation takes no name from a frame that was there and gives none to it.  Where such a frame
has another value after it, the code assigns to the name, and the frame is the one in which
evaluation started or the frame of a closure without parameters that it could reach then.  This is
so with lexical scoping, and all the more with dynamic scoping. -/
theorem evaluation_confines_mutation (setting : Setting) (id : NodeId) (frame : FrameId)
    (memory : Memory) {steps : Nat} {outcome : Outcome} {after : Memory}
    (hrun : setting.run steps ⟨.node id frame, [], memory⟩ = some (outcome, after))
    (other : FrameId) (hheld : memory.store.Holds other) :
    (after.store.bindings other).keys = (memory.store.bindings other).keys ∧
      ∀ name, after.store.lookup other name ≠ memory.store.lookup other name →
        setting.code.Assigns name ∧
          (other = frame ∨ ∃ closure, memory.store.Sees frame closure ∧ closure.params = [] ∧
            closure.frame = other) := by
  obtain ⟨depth, heval⟩ := exists_run_eq_some_iff.1 ⟨steps, hrun⟩
  have hconfined := (setting.stays_eval (lexicalRegion memory.store frame) depth id frame memory _
    (.inl rfl) (setting.covers_lexicalRegion memory.store frame) heval).confined
  refine ⟨hconfined.keys other hheld, fun name hchanged => ⟨?_, ?_⟩⟩
  · by_cases htarget : setting.code.Assigns name
    · exact htarget
    · exact absurd (hconfined.lookup other name hheld htarget) hchanged
  · by_cases hwritable : (lexicalRegion memory.store frame).writable other
    · rcases hwritable with hsame | hclosure | hfresh
      · exact .inl hsame
      · exact .inr hclosure
      · exact absurd hheld (Nat.not_lt.2 hfresh)
    · have hkept := hconfined.kept other hheld hwritable
      exact absurd (by rw [Store.lookup, hkept, Store.lookup]) hchanged

/-- The call of a closure without parameters, the body of which assigns to a name. -/
def assigning (scoping : Scoping) : Setting :=
  ⟨⟨#[.block ⟨0, 0⟩, .assign ⟨2⟩ ⟨0⟩, .ident ⟨1⟩, .apply ⟨2⟩ ⟨0, 0⟩], #[], #[], #[]⟩, .new, scoping⟩

/-- Two frames that bind the name to which `assigning` assigns.  The closure is bound in the first
of them and was made in the second. -/
def twoFrames : Store :=
  ⟨#[⟨[(⟨1⟩, .closure ⟨[], ⟨1⟩, ⟨1⟩, 0⟩), (⟨2⟩, .bool true)], none⟩,
    ⟨[(⟨2⟩, .bool true)], none⟩], 1⟩

/-- With lexical scoping, the call changes the frame in which its closure was made. -/
theorem evaluation_confines_mutation_twoFrames :
    ∃ after, (assigning .lexical).run 12 ⟨.node ⟨3⟩ ⟨0⟩, [], ⟨twoFrames, .new none⟩⟩ =
        some (.ok (.bool false), after) ∧
      twoFrames.Holds ⟨1⟩ ∧ after.store.lookup ⟨1⟩ ⟨2⟩ ≠ twoFrames.lookup ⟨1⟩ ⟨2⟩ ∧
      (assigning .lexical).code.Assigns ⟨2⟩ ∧
      ((⟨1⟩ : FrameId) = ⟨0⟩ ∨ ∃ closure, twoFrames.Sees ⟨0⟩ closure ∧ closure.params = [] ∧
        closure.frame = ⟨1⟩) := by
  obtain ⟨after, hrun, hchanged⟩ : ∃ after,
      (assigning .lexical).run 12 ⟨.node ⟨3⟩ ⟨0⟩, [], ⟨twoFrames, .new none⟩⟩ =
        some (.ok (.bool false), after) ∧
      after.store.lookup ⟨1⟩ ⟨2⟩ ≠ twoFrames.lookup ⟨1⟩ ⟨2⟩ := ⟨_, rfl, by decide⟩
  have hheld : twoFrames.Holds ⟨1⟩ := show 1 < 2 by decide
  have hall := evaluation_confines_mutation (assigning .lexical) ⟨3⟩ ⟨0⟩ ⟨twoFrames, .new none⟩ hrun
    ⟨1⟩ hheld
  exact ⟨after, hrun, hheld, hchanged, hall.2 ⟨2⟩ hchanged⟩

/-! ### Dynamic scoping -/

/-- Evaluation comes to the frame it starts in and the frames it makes. -/
def dynamicRegion (store : Store) (start : FrameId) : Region where
  known id := id = start ∨ store.frames.size ≤ id.index
  writable id := id = start ∨ store.frames.size ≤ id.index
  known_of_writable _ hid := hid

theorem covers_dynamicRegion (hscoping : setting.scoping = .dynamic) (store : Store)
    (start : FrameId) : setting.Covers (dynamicRegion store start) store := by
  refine ⟨fun id hid => .inr hid, ?_⟩
  intro id name value _ _
  cases value with
  | int | str | bool | native => trivial
  | closure closure =>
    intro hlexical
    rw [hscoping] at hlexical
    cases hlexical

variable {id : NodeId} {memory after : Memory} {outcome : Outcome} {depth : Nat}

theorem confined_of_eval (hscoping : setting.scoping = .dynamic)
    (h : setting.eval depth id frame memory = some (outcome, after)) :
    memory.store.Confined setting.code.Assigns (dynamicRegion memory.store frame).writable
      after.store :=
  (setting.stays_eval (dynamicRegion memory.store frame) depth id frame memory _ (.inl rfl)
    (covers_dynamicRegion hscoping memory.store frame) h).confined

theorem bindings_eq_of_eval (hscoping : setting.scoping = .dynamic)
    (h : setting.eval depth id frame memory = some (outcome, after))
    (hheld : memory.store.Holds other) (hother : other ≠ frame) :
    after.store.bindings other = memory.store.bindings other := by
  refine (confined_of_eval hscoping h).kept other hheld ?_
  rintro (hsame | hfresh)
  · exact hother hsame
  · exact Nat.not_lt.2 hfresh hheld

/-- Evaluation in a frame that was made for it leaves every frame as it was before. -/
theorem bindings_eq_of_eval_extend (hscoping : setting.scoping = .dynamic) {base : FrameId}
    {added : Bindings} {calls : CallStack} (hadded : added ≠ [])
    (h : setting.eval depth id (store.extend base added).1 ⟨(store.extend base added).2, calls⟩ =
      some (outcome, after)) (hheld : store.Holds other) :
    after.store.bindings other = store.bindings other := by
  have hlt : other.index < store.frames.size := hheld
  have hheld' : (store.extend base added).2.Holds other :=
    Nat.lt_of_lt_of_le hlt (Store.size_extend_le store base added)
  have hother : other ≠ (store.extend base added).1 := by
    rintro rfl
    rw [(extend_of_ne_nil store base hadded).1] at hlt
    exact Nat.lt_irrefl _ hlt
  rw [bindings_eq_of_eval hscoping h hheld' hother, Store.bindings_extend_of_holds base added hheld]

theorem bindings_eq_of_evalCall (hscoping : setting.scoping = .dynamic) {closure : Closure}
    {args : List Value} {label : Option Name} (hparams : closure.params ≠ [])
    (h : setting.evalCall (setting.eval depth) (.closure closure) args frame label memory =
      some (outcome, after)) (hheld : memory.store.Holds other) :
    after.store.bindings other = memory.store.bindings other := by
  rcases evalCall_closure_cases h with ⟨halt, hrefused⟩ | ⟨hcount, -, hrest⟩
  · cases hrefused
    rfl
  rcases hrest with ⟨halt, hrefused⟩ | ⟨inner, left, hbody, hstore, -⟩
  · cases hrefused
    exact Store.bindings_extend_of_holds _ _ hheld
  · have hadded := Closure.zip_reverse_ne_nil hcount hparams
    rw [hstore]
    exact bindings_eq_of_eval_extend hscoping hadded hbody hheld

/-- The evaluation of a `let` leaves every frame as the evaluation of its first part leaves it. -/
theorem exists_run_init_of_run_letIn (hscoping : setting.scoping = .dynamic) {steps : Nat}
    {name : Name} {init body : NodeId}
    (hnode : setting.code.node? id = some (.letIn name init body))
    (h : setting.run steps ⟨.node id frame, [], memory⟩ = some (outcome, after)) :
    ∃ steps first mid, setting.run steps ⟨.node init frame, [], memory⟩ = some (first, mid) ∧
      ∀ other, mid.store.Holds other → after.store.bindings other = mid.store.bindings other := by
  obtain ⟨depth, heval⟩ := exists_run_eq_some_iff.1 ⟨steps, h⟩
  cases depth with
  | zero => cases heval
  | succ depth =>
    simp only [eval, evalNode, hnode] at heval
    rcases Attempt.andThen_eq_some.1 heval with
      ⟨value, mid, hinit, hbody⟩ | ⟨halt, mid, hinit, hsame⟩
    · obtain ⟨steps', hrun⟩ := exists_run_eq_some_iff.2 ⟨depth, hinit⟩
      refine ⟨steps', .ok value, mid, hrun, fun other hheld => ?_⟩
      exact bindings_eq_of_eval_extend hscoping (List.cons_ne_nil (name, value) []) hbody hheld
    · cases hsame
      obtain ⟨steps', hrun⟩ := exists_run_eq_some_iff.2 ⟨depth, hinit⟩
      exact ⟨steps', .error halt, after, hrun, fun _ _ => rfl⟩

/-- With dynamic scoping, evaluation leaves every frame as it was but the one in which it started.
That one binds the same names after it, and other values only to names that the code assigns to.
The body of a `let` or of a call with parameters leaves every frame as it was when the body
started. -/
theorem dynamic_evaluation_changes_current_frame_only (setting : Setting)
    (hscoping : setting.scoping = .dynamic) (frame : FrameId) (memory : Memory) :
    (∀ id steps outcome after,
      setting.run steps ⟨.node id frame, [], memory⟩ = some (outcome, after) →
        (∀ other, memory.store.Holds other → other ≠ frame →
          after.store.bindings other = memory.store.bindings other) ∧
        (memory.store.Holds frame →
          (after.store.bindings frame).keys = (memory.store.bindings frame).keys ∧
            ∀ name, after.store.lookup frame name ≠ memory.store.lookup frame name →
              setting.code.Assigns name)) ∧
    (∀ id name init body steps outcome after,
      setting.code.node? id = some (.letIn name init body) →
      setting.run steps ⟨.node id frame, [], memory⟩ = some (outcome, after) →
        ∃ steps first mid, setting.run steps ⟨.node init frame, [], memory⟩ = some (first, mid) ∧
          ∀ other, mid.store.Holds other →
            after.store.bindings other = mid.store.bindings other) ∧
    ∀ closure args label steps outcome after, closure.params ≠ [] →
      setting.run steps (setting.startCall (.closure closure) args frame label [] memory) =
          some (outcome, after) →
        ∀ other, memory.store.Holds other →
          after.store.bindings other = memory.store.bindings other := by
  refine ⟨?_, ?_, ?_⟩
  · intro id steps outcome after hrun
    obtain ⟨depth, heval⟩ := exists_run_eq_some_iff.1 ⟨steps, hrun⟩
    have hconfined := confined_of_eval hscoping heval
    refine ⟨fun other hheld => bindings_eq_of_eval hscoping heval hheld, fun hheld => ⟨?_, ?_⟩⟩
    · exact hconfined.keys frame hheld
    · intro name hchanged
      by_cases htarget : setting.code.Assigns name
      · exact htarget
      · exact absurd (hconfined.lookup frame name hheld htarget) hchanged
  · intro id name init body steps outcome after hnode hrun
    exact exists_run_init_of_run_letIn hscoping hnode hrun
  · intro closure args label steps outcome after hparams hrun other hheld
    obtain ⟨depth, heval⟩ := exists_run_startCall_eq_some_iff.1 ⟨steps, hrun⟩
    exact bindings_eq_of_evalCall hscoping hparams heval hheld

/-- With dynamic scoping, the call changes the frame in which it is made, and leaves the frame in
which its closure was made as it was. -/
theorem dynamic_evaluation_changes_current_frame_only_twoFrames :
    ∃ after, (assigning .dynamic).run 12 ⟨.node ⟨3⟩ ⟨0⟩, [], ⟨twoFrames, .new none⟩⟩ =
        some (.ok (.bool false), after) ∧
      after.store.lookup ⟨0⟩ ⟨2⟩ ≠ twoFrames.lookup ⟨0⟩ ⟨2⟩ ∧
      (assigning .dynamic).code.Assigns ⟨2⟩ ∧
      after.store.bindings ⟨1⟩ = twoFrames.bindings ⟨1⟩ := by
  obtain ⟨after, hrun, hchanged⟩ : ∃ after,
      (assigning .dynamic).run 12 ⟨.node ⟨3⟩ ⟨0⟩, [], ⟨twoFrames, .new none⟩⟩ =
        some (.ok (.bool false), after) ∧
      after.store.lookup ⟨0⟩ ⟨2⟩ ≠ twoFrames.lookup ⟨0⟩ ⟨2⟩ := ⟨_, rfl, by decide⟩
  have hall := (dynamic_evaluation_changes_current_frame_only (assigning .dynamic) rfl ⟨0⟩
    ⟨twoFrames, .new none⟩).1 _ _ _ _ hrun
  have hfirst : twoFrames.Holds ⟨0⟩ := show 0 < 2 by decide
  have hsecond : twoFrames.Holds ⟨1⟩ := show 1 < 2 by decide
  exact ⟨after, hrun, hchanged, (hall.2 hfirst).2 ⟨2⟩ hchanged, hall.1 ⟨1⟩ hsecond (by decide)⟩

end Setting

end FlatScope
